import HypercertsRelay.Library.Replay
import HypercertsRelay.Jetstream.Ingest.Replacement

-- What readers make of the archive of a repository, and when it is the reconciled snapshot.
namespace Jetstream

open List

def RecordKey.path (k : RecordKey) : String :=
  k.collection ++ "/" ++ k.rkey

theorem Event.path_eq {a b : Event} (h : a.key = b.key) : a.path = b.path :=
  congrArg RecordKey.path h

theorem RecordKey.path_inj {k k' : RecordKey} (hd : k.did = k'.did)
    (hs : '/' ∉ k.collection.toList) (hs' : '/' ∉ k'.collection.toList) (h : k.path = k'.path) :
    k = k' := by
  have h := congrArg String.toList h
  simp only [path, String.toList_append, append_assoc] at h
  -- The first slash of the path is the one that was put there.
  have hcons {l} {x y} (h : '/' :: x = l ++ '/' :: y) (hl : '/' ∉ l) :
      l = [] := by
    cases l with
    | nil => rfl
    | cons a l => simp_all
  rcases append_eq_append_iff.mp h with ⟨l, hc, hr⟩ | ⟨l, hc, hr⟩
  all_goals
    have hl := hcons hr fun hm => by simp_all
    cases k
    cases k'
    simp_all [String.toList_inj]

namespace Ingest

open Tombstone Replay

-- The meaning of a row for a reader of one repository.
def action (c : Codec) (did : String) (ev : Event) : Action RecordKey Bytes :=
  if ev.did ≠ did then
    .skip
  else match ev.kind with
    | .create | .update | .createResync => .set ev.key ev.payload
    | .delete => .erase ev.key
    | .identity | .account | .sync => if isDIDTombstone c ev then .clear else .skip

def view (c : Codec) (did : String) (rows : List Event) : RecordKey → Option Bytes :=
  replay (action c did) (fun _ => none) rows

section Action

theorem action_key?_iff :
    (action c did ev).key? = some k ↔ ev.did = did ∧ ev.kind.isCommit ∧ ev.key = k := by
  by_cases hd : ev.did = did <;> cases hk : ev.kind <;>
    by_cases ht : isDIDTombstone c ev <;> simp [action, Action.key?, hd, hk, ht, Kind.isCommit]

theorem action_eq_clear_iff : action c did ev = .clear ↔ ev.did = did ∧ isDIDTombstone c ev := by
  by_cases hd : ev.did = did <;> cases hk : ev.kind <;> simp [action, isDIDTombstone, hd, hk]

theorem action_value? (hd : ev.did = did) (hc : ev.kind.isCommit) :
    (action c did ev).value? = if ev.kind.isMaterialization then some ev.payload else none := by
  cases hk : ev.kind <;> simp_all [action, Action.value?, Kind.isMaterialization, Kind.isCommit]

end Action

-- The row of a record that was archived last.
structure IsLast (rows : List Event) (k : RecordKey) (l : Event) : Prop where
  mem : l ∈ rows
  isCommit : l.kind.isCommit
  key : l.key = k
  le : ∀ row ∈ rows, row.kind.isCommit → row.key = k → row.seq ≤ l.seq

-- The whole repository was removed or replaced after `n`.
def Wiped (c : Codec) (did : String) (rows : List Event) (n : ℕ) : Prop :=
  ∃ t ∈ rows, n < t.seq ∧ t.did = did ∧ isDIDTombstone c t

section View

variable {k : RecordKey} {rows new : List Event} (ha : rows.Pairwise (·.seq < ·.seq))

theorem view_of_no_row (h : ∀ row ∈ rows, row.kind.isCommit → row.key ≠ k) :
    view c k.did rows k = none := by
  have hn : ∀ row ∈ rows, (action c k.did row).key? ≠ some k := fun row hr hk =>
    have ⟨_, hc, hk⟩ := action_key?_iff.mp hk
    h row hr hc hk
  by_cases hc : ∃ row ∈ rows, action c k.did row = .clear
  · exact replay_cleared hn hc
  · exact replay_untouched hn (by simpa using hc)

include ha

theorem exists_isLast (h : ∃ row ∈ rows, row.kind.isCommit ∧ row.key = k) :
    ∃ l, IsLast rows k l := by
  have ⟨l₁, l, l₂, he, ⟨hc, hk⟩, hn⟩ := exists_last h
  subst he
  refine ⟨l, by simp, hc, hk, fun row hr hc' hk' => ?_⟩
  have ⟨_, _, hlt⟩ := pairwise_append.mp ha
  rcases mem_append.mp hr with hr | hr | ⟨_, hr⟩
  · exact (hlt row hr l (.head _)).le
  · exact le_refl _
  · exact absurd ⟨hc', hk'⟩ (hn row ‹_›)

theorem IsLast.split (h : IsLast rows k l) :
    ∃ l₁ l₂, rows = l₁ ++ l :: l₂ ∧ (∀ row ∈ l₂, (action c k.did row).key? ≠ some k) ∧
      ((∃ row ∈ l₂, action c k.did row = .clear) ↔ Wiped c k.did rows l.seq) := by
  have ⟨l₁, l₂, he⟩ := append_of_mem h.mem
  have ⟨_, hl, hlt⟩ := pairwise_append.mp (he ▸ ha)
  have ⟨hl, _⟩ := pairwise_cons.mp hl
  refine ⟨l₁, l₂, he, fun row hr hk => ?_, ?_⟩
  · have ⟨_, hc, hk⟩ := action_key?_iff.mp hk
    have := h.le row (by simp [he, hr]) hc hk
    exact absurd (hl row hr) this.not_gt
  constructor
  · intro ⟨row, hr, hc⟩
    exact ⟨row, by simp [he, hr], hl row hr, action_eq_clear_iff.mp hc⟩
  intro ⟨t, ht, hlt', hd⟩
  refine ⟨t, ?_, action_eq_clear_iff.mpr hd⟩
  rcases mem_append.mp (he ▸ ht) with ht | ht
  · exact absurd (hlt t ht l (.head _)) hlt'.le.not_gt
  · cases ht with
    | head => exact absurd hlt' (lt_irrefl _)
    | tail _ ht => exact ht

theorem IsLast.view_eq_some_iff (h : IsLast rows k l) : view c k.did rows k = some v ↔
      l.kind.isMaterialization ∧ l.payload = v ∧ ¬Wiped c k.did rows l.seq := by
  have ⟨l₁, l₂, he, hn, hw⟩ := h.split (c := c) ha
  have hk : (action c k.did l).key? = some k :=
    action_key?_iff.mpr ⟨congrArg RecordKey.did h.key, h.isCommit, h.key⟩
  by_cases hc : ∃ row ∈ l₂, action c k.did row = .clear
  · rw [view, he, replay_last_cleared hn hc]
    simp [←he, hw.mp hc]
  · rw [view, he, replay_last hk hn (by simpa using hc),
      action_value? (congrArg RecordKey.did h.key) h.isCommit]
    simp [←he, hw.not.mp hc]

theorem IsLast.view_eq_none_iff (h : IsLast rows k l) :
    view c k.did rows k = none ↔ (l.kind.isMaterialization → Wiped c k.did rows l.seq) := by
  rw [Option.eq_none_iff_forall_ne_some]
  simp only [ne_eq, h.view_eq_some_iff ha]
  constructor
  · intro hn hm
    by_contra hw
    exact hn l.payload ⟨hm, rfl, hw⟩
  · intro hw v ⟨hm, _, hn⟩
    exact hn (hw hm)

theorem view_eq_some_iff :
    view c k.did rows k = some v ↔ ∃ l, IsLast rows k l ∧ l.kind.isMaterialization ∧
      l.payload = v ∧ ¬Wiped c k.did rows l.seq := by
  constructor
  · intro hv
    by_cases h : ∃ row ∈ rows, row.kind.isCommit ∧ row.key = k
    · have ⟨l, hl⟩ := exists_isLast ha h
      exact ⟨l, hl, (hl.view_eq_some_iff ha).mp hv⟩
    · rw [view_of_no_row fun row hr hc hk => h ⟨row, hr, hc, hk⟩] at hv
      cases hv
  · intro ⟨l, hl, h⟩
    exact (hl.view_eq_some_iff ha).mpr h

theorem view_eq_none_iff : view c k.did rows k = none ↔
      ∀ l, IsLast rows k l → l.kind.isMaterialization → Wiped c k.did rows l.seq := by
  constructor
  · intro hv l hl
    exact (hl.view_eq_none_iff ha).mp hv
  intro h
  by_cases hr : ∃ row ∈ rows, row.kind.isCommit ∧ row.key = k
  · have ⟨l, hl⟩ := exists_isLast ha hr
    exact (hl.view_eq_none_iff ha).mpr (h l hl)
  · exact view_of_no_row fun row hr' hc hk => hr ⟨row, hr', hc, hk⟩

omit ha

theorem action_ne_clear_of_isCommit (h : row.kind.isCommit) : action c k.did row ≠ .clear := by
  intro hc
  have ht := (action_eq_clear_iff.mp hc).right
  cases hk : row.kind <;> simp_all [isDIDTombstone, Kind.isCommit]

theorem view_append_untouched (hc : ∀ row ∈ new, row.kind.isCommit)
    (hk : ∀ row ∈ new, row.key ≠ k) : view c k.did (rows ++ new) k = view c k.did rows k := by
  rw [view, replay_append]
  refine replay_untouched (fun row hr h => ?_) fun row hr => action_ne_clear_of_isCommit (hc row hr)
  exact hk row hr (action_key?_iff.mp h).right.right

theorem view_append_touched {v} (hc : ∀ row ∈ new, row.kind.isCommit)
    (hk : ∃ row ∈ new, row.key = k) (hv : ∀ row ∈ new, row.key = k →
      (if row.kind.isMaterialization then some row.payload else none) = v) :
    view c k.did (rows ++ new) k = v := by
  have ⟨l₁, l, l₂, he, hl, hn⟩ := exists_last hk
  have hmem : l ∈ new := by simp [he]
  have hd : l.did = k.did := congrArg RecordKey.did hl
  rw [view, he, ←append_assoc, replay_last, action_value? hd (hc l hmem)]
  · exact hv l hmem hl
  · exact action_key?_iff.mpr ⟨hd, hc l hmem, hl⟩
  · exact fun row hr h => hn row hr (action_key?_iff.mp h).right.right
  · exact fun row hr => action_ne_clear_of_isCommit (hc row (by simp [he, hr]))

end View

-- The revisions of a record only grow.
def RevsAscend (rows : List Event) : Prop :=
  rows.Pairwise fun a b => a.kind.isCommit → b.kind.isCommit → a.key = b.key → a.rev ≤ b.rev

-- A record of the collections of the snapshot of which the archive has nothing newer.
structure InScope (snapshot : Snapshot) (rows : List Event) (k : RecordKey) : Prop where
  did : k.did = snapshot.did
  collection : k.collection ∈ snapshot.collections
  rev : ∀ row ∈ rows, row.kind.isCommit → row.key = k → row.rev ≤ snapshot.rev

def Snapshot.HasRecord (snapshot : Snapshot) (k : RecordKey) : Prop :=
  ∃ r ∈ snapshot.records, r.key = k

-- Readers see the snapshot, and nothing new where it only names a path.
structure Reflects (c : Codec) (snapshot : Snapshot) (before after : List Event) : Prop where
  records : ∀ r ∈ snapshot.records, InScope snapshot after r.key →
    view c snapshot.did after r.key = some r.payload
  present : ∀ k, InScope snapshot after k → ¬snapshot.HasRecord k →
    k.path ∈ snapshot.presentPaths → view c snapshot.did after k = view c snapshot.did before k
  others : ∀ k, InScope snapshot after k → ¬snapshot.HasRecord k →
    k.path ∉ snapshot.presentPaths → view c snapshot.did after k = none

-- The records for which no row is written are as the snapshot has them: one whose last row is as
-- new as the snapshot has its value and was not wiped since, and one that is not in the snapshot,
-- but neither older than it nor newer than every replacement, was.
structure Settled (c : Codec) (w : Writer) (snapshot : Snapshot) : Prop where
  records : ∀ r ∈ snapshot.records, InScope snapshot w.rows r.key →
    (¬w.Allows r.collection ∨ ∃ l, IsLast w.rows r.key l ∧ l.rev = snapshot.rev) →
    ∃ l, IsLast w.rows r.key l ∧ l.kind.isMaterialization ∧ l.payload = r.payload ∧
      ¬Wiped c snapshot.did w.rows l.seq
  others : ∀ k l, InScope snapshot w.rows k → ¬snapshot.HasRecord k →
    k.path ∉ snapshot.presentPaths → IsLast w.rows k l → l.kind.isMaterialization →
    (¬w.Allows k.collection ∨ l.rev = snapshot.rev ∨
      ∃ t ∈ w.rows, WholeSync c snapshot.did t ∧ l.rev < t.rev) →
    Wiped c snapshot.did w.rows l.seq

structure Inside (snapshot : Snapshot) (r : Event) : Prop where
  did : r.did = snapshot.did
  rev : r.rev = snapshot.rev
  collection : r.collection ∈ snapshot.collections
  isMaterialization : r.kind.isMaterialization

theorem inside_of_not_outside
    (h : SnapshotArchiveState.recordOutside snap r = false) : Inside snap r := by
  simp only [SnapshotArchiveState.recordOutside, Bool.or_eq_false_iff, decide_eq_false_iff_not,
    not_not, Bool.not_eq_false'] at h
  exact ⟨h.1.1.1, h.1.1.2, h.1.2, h.2⟩

-- The scan, the rows that were planned from it and the rows that were written.
structure Reconciled (c : Codec) (w : Writer) (snapshot : Snapshot) (s : SnapshotArchiveState)
    (rows new : List Event) : Prop where
  slashFree : ∀ c ∈ snapshot.collections, '/' ∉ c.toList
  revs : RevsAscend w.rows
  precedes : w.Precedes snapshot
  scanned : Scanned c snapshot w.rows s
  planned : Planned s snapshot rows
  admitted : Admitted w rows new

namespace Reconciled

section

variable (h : Reconciled c w snap s rows new)

include h

theorem key_eq {a b : Event} (ha : a.did = snap.did)
    (ha' : a.collection ∈ snap.collections) (hb : b.did = snap.did)
    (hb' : b.collection ∈ snap.collections) (hp : a.path = b.path) : a.key = b.key :=
  RecordKey.path_inj (ha.trans hb.symm) (h.slashFree _ ha') (h.slashFree _ hb') hp

theorem lookup_isLast (hk : InScope snap w.rows k)
    (hl : IsLast w.rows k l) : s.latest.lookup l.path = some (withoutPayload l) := by
  have hd : l.did = snap.did := (congrArg RecordKey.did hl.key).trans hk.did
  have hc : l.collection ∈ snap.collections := by
    rw [show l.collection = k.collection from congrArg RecordKey.collection hl.key]
    exact hk.collection
  have ⟨v, hv, hle⟩ := h.scanned.tracks.complete ⟨l, hl.mem, ⟨hd, hl.isCommit, hc⟩, rfl⟩
  have ⟨row, hmem, hcov, hpath, hv'⟩ := h.scanned.sound hv
  have hkey : row.key = l.key := h.key_eq hcov.left hcov.right.right hd hc hpath
  suffices row = l by rw [hv, hv', this]
  -- A row of the record before the last one has no greater rank.
  have ⟨l₁, l₂, he⟩ := append_of_mem hl.mem
  have hpw := w.rows_ascending.and h.revs
  have ⟨_, hpw, hlt⟩ := pairwise_append.mp (he ▸ hpw)
  rw [hv', rank_le_rank] at hle
  rcases mem_append.mp (he ▸ hmem) with hr | hr
  · have ⟨hseq, hrev⟩ := hlt row hr l (.head _)
    have hrev := hrev hcov.right.left hl.isCommit hkey
    rcases hle with hle | ⟨_, hle⟩
    · exact absurd hle hrev.not_gt
    · exact absurd hle hseq.not_ge
  · cases hr with
    | head => rfl
    | tail _ hr =>
      have hseq := ((pairwise_cons.mp hpw).left row hr).left
      exact absurd hseq (hl.le row hmem hcov.right.left (hkey.trans hl.key)).not_gt

theorem exists_of_outdated (hr : r ∈ snap.records)
    (ho : Outdated s r) (ha : w.Allows r.collection) : ∃ n ∈ new, SameBody n (updateRow r) := by
  have hi := inside_of_not_outside (h.planned.inside r hr)
  refine h.admitted.complete _ ((h.planned.rows _).mpr (.inl ⟨r, hr, ho, rfl⟩)) ?_ ?_
  · exact (Writer.allows_iff rfl).mpr ha
  · exact h.precedes.not_fenced hi.did hi.rev hi.collection

theorem exists_of_missing (hm : Missing s snap snap.keys old) (ha : w.Allows old.collection) :
    ∃ n ∈ new, SameBody n (deleteRow snap old) := by
  have ⟨_, hl, _⟩ := hm
  have ⟨row, _, hcov, _, hold⟩ := h.scanned.sound hl
  refine h.admitted.complete _ ((h.planned.rows _).mpr (.inr ⟨old, hm, rfl⟩)) ?_ ?_
  · exact (Writer.allows_iff rfl).mpr ha
  · exact h.precedes.not_fenced rfl rfl (hold ▸ hcov.right.right)

end

-- What a row that was written is about.
inductive Origin (w : Writer) (snapshot : Snapshot) (s : SnapshotArchiveState) (n : Event) : Prop
  | update : r ∈ snapshot.records → Outdated s r → w.Allows r.collection →
      SameBody n (updateRow r) → Origin w snapshot s n
  | delete : Missing s snapshot snapshot.keys old → w.Allows old.collection →
      SameBody n (deleteRow snapshot old) → Origin w snapshot s n

section

variable (h : Reconciled c w snap s rows new)

include h

theorem origin (hn : n ∈ new) : Origin w snap s n := by
  have ⟨row, hr, hb, ha, _⟩ := h.admitted.sound n hn
  have ha := (Writer.allows_iff (h.planned.isCommit row hr)).mp ha
  rcases (h.planned.rows row).mp hr with ⟨r, hr', ho, rfl⟩ | ⟨old, hm, rfl⟩
  · exact .update hr' ho ha hb
  · exact .delete hm ha hb

theorem isCommit_new : ∀ n ∈ new, n.kind.isCommit := by
  intro n hn
  cases h.origin hn with
  | update _ _ _ hb => rw [hb]; rfl
  | delete _ _ hb => rw [hb]; rfl

theorem rev_new : ∀ n ∈ new, n.rev = snap.rev := by
  intro n hn
  cases h.origin hn with
  | update hr _ _ hb => rw [hb]; exact (inside_of_not_outside (h.planned.inside _ hr)).rev
  | delete _ _ hb => rw [hb]; rfl

theorem inScope_iff : InScope snap (w.rows ++ new) k ↔ InScope snap w.rows k := by
  constructor
  · intro hk
    exact ⟨hk.did, hk.collection, fun row hr => hk.rev row (mem_append_left _ hr)⟩
  intro hk
  refine ⟨hk.did, hk.collection, fun row hr hc hkey => ?_⟩
  obtain hr | hr := mem_append.mp hr
  · exact hk.rev row hr hc hkey
  · exact (h.rev_new row hr).le

theorem missing_lookup (hm : Missing s snap snap.keys old) :
    s.latest.lookup old.path = some old ∧ old.path ∉ snap.keys ∧ old.did = snap.did ∧
      old.collection ∈ snap.collections := by
  have ⟨key, hl, hn, _⟩ := hm
  have ⟨row, _, hcov, hpath, hold⟩ := h.scanned.sound hl
  have hpath : old.path = key := hold ▸ hpath
  exact ⟨hpath ▸ hl, hpath ▸ hn, hold ▸ hcov.left, hold ▸ hcov.right.right⟩

-- The rows that were written for a record of the snapshot hold that record.
theorem updated (hr : r ∈ snap.records) (hn : n ∈ new) (hk : n.key = r.key) :
    SameBody n (updateRow r) ∧ Outdated s r ∧ w.Allows r.collection := by
  cases h.origin hn with
  | @update r' hr' ho ha hb =>
    have hp : r'.path = r.path := Event.path_eq (hb.key_eq.symm.trans hk)
    have hnd : (snap.records.map Event.path).Nodup := pairwise_map.mpr h.planned.distinct
    cases inj_on_of_nodup_map hnd hr' hr hp
    exact ⟨hb, ho, ha⟩
  | @delete old hm ha hb =>
    have hp : (deleteRow snap old).path = r.path := Event.path_eq (hb.key_eq.symm.trans hk)
    exact absurd (.inr ⟨r, hr, hp.symm⟩) (h.missing_lookup hm).right.left

-- The rows that were written for any other record delete it.
theorem deleted (hk : ¬snap.HasRecord k) (hn : n ∈ new) (hnk : n.key = k) :
    ∃ old, Missing s snap snap.keys old ∧ w.Allows k.collection ∧ old.path = k.path ∧
      SameBody n (deleteRow snap old) := by
  cases h.origin hn with
  | update hr ho ha hb => exact absurd ⟨_, hr, hb.key_eq.symm.trans hnk⟩ hk
  | @delete old hm ha hb =>
    cases hnk
    rw [hb.key_eq]
    exact ⟨old, hm, ha, rfl, hb⟩

theorem exists_last_of_not_outdated
    (hr : r ∈ snap.records) (hk : InScope snap w.rows r.key) (ho : ¬Outdated s r) :
    ∃ l, IsLast w.rows r.key l ∧ l.rev = snap.rev := by
  have hi := inside_of_not_outside (h.planned.inside r hr)
  cases hl : s.latest.lookup r.path with
  | none => exact absurd (outdated_of_none hl) ho
  | some old =>
    have ⟨row, hrow, hcov, hpath, hold⟩ := h.scanned.sound hl
    have hkey : row.key = r.key := h.key_eq hcov.left hcov.right.right hi.did hi.collection hpath
    have ⟨l, hlast⟩ := exists_isLast w.rows_ascending ⟨row, hrow, hcov.right.left, hkey⟩
    have hlook := h.lookup_isLast hk hlast
    rw [Event.path_eq hlast.key, hl, Option.some_inj] at hlook
    have hge := not_lt.mp ((outdated_iff hl).not.mp ho)
    rw [hi.rev, hlook] at hge
    exact ⟨l, hlast, le_antisymm (hk.rev l hlast.mem hlast.isCommit hlast.key) hge⟩

theorem view_record_iff (hr : r ∈ snap.records) (hk : InScope snap w.rows r.key) :
    view c snap.did (w.rows ++ new) r.key = some r.payload ↔
      ((¬w.Allows r.collection ∨ ∃ l, IsLast w.rows r.key l ∧ l.rev = snap.rev) →
        ∃ l, IsLast w.rows r.key l ∧ l.kind.isMaterialization ∧ l.payload = r.payload ∧
          ¬Wiped c snap.did w.rows l.seq) := by
  have hi := inside_of_not_outside (h.planned.inside r hr)
  rw [←hk.did]
  by_cases hw : Outdated s r ∧ w.Allows r.collection
  · have ⟨n, hn, hb⟩ := h.exists_of_outdated hr hw.left hw.right
    have hv : view c r.key.did (w.rows ++ new) r.key = some r.payload := by
      refine view_append_touched h.isCommit_new ⟨n, hn, ?_⟩ fun n hn hkn => ?_
      · rw [hb.key_eq]
        rfl
      · rw [(h.updated hr hn hkn).left]
        rfl
    refine iff_of_true hv fun hblocked => ?_
    obtain ha | hl := hblocked
    · exact absurd hw.right ha
    · have ⟨l, hl, hrev⟩ := hl
      have hlt := (outdated_iff ((Event.path_eq hl.key) ▸ h.lookup_isLast hk hl)).mp hw.left
      exact absurd (hrev.trans hi.rev.symm) hlt.ne
  · have hblocked : ¬w.Allows r.collection ∨ ∃ l, IsLast w.rows r.key l ∧ l.rev = snap.rev := by
      by_cases ha : w.Allows r.collection
      · exact .inr (h.exists_last_of_not_outdated hr hk fun ho => hw ⟨ho, ha⟩)
      · exact .inl ha
    rw [view_append_untouched h.isCommit_new fun n hn hkn => hw (h.updated hr hn hkn).right,
      view_eq_some_iff w.rows_ascending]
    exact ⟨fun hv _ => hv, fun hv => hv hblocked⟩

section

variable (hk : InScope snap w.rows k)

include hk

theorem view_present (hn : ¬snap.HasRecord k) (hp : k.path ∈ snap.presentPaths) :
    view c snap.did (w.rows ++ new) k = view c snap.did w.rows k := by
  rw [←hk.did]
  refine view_append_untouched h.isCommit_new fun n hnew hkn => ?_
  have ⟨old, hm, _, hpath, _⟩ := h.deleted hn hnew hkn
  exact (h.missing_lookup hm).right.left (.inl (hpath ▸ hp))

theorem missing_of_not_blocked (hn : ¬snap.HasRecord k) (hp : k.path ∉ snap.presentPaths)
    (hl : IsLast w.rows k l) (hm : l.kind.isMaterialization) (hrev : l.rev ≠ snap.rev)
    (hsync : ¬∃ t ∈ w.rows, WholeSync c snap.did t ∧ l.rev < t.rev) :
    Missing s snap snap.keys (withoutPayload l) := by
  have hpath : l.path = k.path := congrArg RecordKey.path hl.key
  refine ⟨l.path, h.lookup_isLast hk hl, ?_, ?_, ?_, ?_⟩
  · rw [hpath]
    rintro (hp' | ⟨r, hr, hp'⟩)
    · exact hp hp'
    · have hi := inside_of_not_outside (h.planned.inside r hr)
      exact hn ⟨r, hr, RecordKey.path_inj (hi.did.trans hk.did.symm) (h.slashFree _ hi.collection)
        (h.slashFree _ hk.collection) hp'⟩
  · intro hdel
    rw [show l.kind = .delete from hdel] at hm
    cases hm
  · exact lt_of_le_of_ne (hk.rev l hl.mem hl.isCommit hl.key) hrev
  · exact not_lt.mp ((h.scanned.syncRev _).not.mpr hsync)

theorem view_other_iff (hn : ¬snap.HasRecord k) (hp : k.path ∉ snap.presentPaths) :
    view c snap.did (w.rows ++ new) k = none ↔ ∀ l, IsLast w.rows k l → l.kind.isMaterialization →
        (¬w.Allows k.collection ∨ l.rev = snap.rev ∨
          ∃ t ∈ w.rows, WholeSync c snap.did t ∧ l.rev < t.rev) →
        Wiped c snap.did w.rows l.seq := by
  by_cases ht : ∃ n ∈ new, n.key = k
  · have ⟨n, hnew, hkn⟩ := ht
    have ⟨old, hm, ha, hpath, _⟩ := h.deleted hn hnew hkn
    have hv : view c k.did (w.rows ++ new) k = none := by
      refine view_append_touched h.isCommit_new ht fun n hnew hkn => ?_
      have ⟨_, _, _, _, hb⟩ := h.deleted hn hnew hkn
      rw [hb]
      rfl
    refine iff_of_true (hk.did ▸ hv) fun l hl _ hblocked => ?_
    -- The deleted row is the last one of the record.
    have hold : withoutPayload l = old := by
      have hlook := h.lookup_isLast hk hl
      rw [show l.path = old.path from (congrArg RecordKey.path hl.key).trans hpath.symm,
        (h.missing_lookup hm).left, Option.some_inj] at hlook
      exact hlook.symm
    have ⟨_, _, _, _, hlt, hle⟩ := hm
    rw [←hold] at hlt hle
    rcases hblocked with hb | hb | hb
    · exact absurd ha hb
    · exact absurd hb hlt.ne
    · exact absurd ((h.scanned.syncRev _).mpr hb) hle.not_gt
  · have hv : view c snap.did (w.rows ++ new) k = none ↔
        ∀ l, IsLast w.rows k l → l.kind.isMaterialization → Wiped c snap.did w.rows l.seq := by
      rw [←hk.did, ←view_eq_none_iff w.rows_ascending,
        view_append_untouched h.isCommit_new fun n hnew hkn => ht ⟨n, hnew, hkn⟩]
    rw [hv]
    refine ⟨fun hw l hl hm _ => hw l hl hm, fun hw l hl hm => hw l hl hm ?_⟩
    by_contra hb
    simp only [not_or, not_not] at hb
    have hmiss := h.missing_of_not_blocked hk hn hp hl hm hb.right.left hb.right.right
    have hcoll : l.collection = k.collection := congrArg RecordKey.collection hl.key
    have ⟨n, hnew, hbody⟩ := h.exists_of_missing hmiss (hcoll.symm ▸ hb.left)
    refine ht ⟨n, hnew, hbody.key_eq.trans ?_⟩
    have hd : l.did = snap.did := (congrArg RecordKey.did hl.key).trans hk.did
    simp [←hl.key, Event.key, deleteRow, withoutPayload, hd]

end

end

end Reconciled

-- A reconciled snapshot is what readers see iff the records without a row were as it has them.
theorem reconcileSnapshot_reflects_iff {w w' snapshot}
    (hc : ∀ c ∈ snapshot.collections, '/' ∉ c.toList) (hr : RevsAscend w.rows)
    (hp : w.Precedes snapshot) (hok : w.reconcileSnapshot cfg snapshot = .ok w')
    (hw : ∀ row ∈ w.rows, WholeSync cfg.codec snapshot.did row → row.rev ≤ snapshot.rev) :
    Reflects cfg.codec snapshot w.rows w'.rows ↔ Settled cfg.codec w snapshot := by
  have ⟨s, rows, new, hs, hplan, hadm, he⟩ := reconcileSnapshot_spec hok hw
  have h : Reconciled cfg.codec w snapshot s rows new := ⟨hc, hr, hp, hs, hplan, hadm⟩
  rw [he]
  constructor
  case mp =>
    intro href
    constructor
    case records =>
      intro r hr hk
      exact (h.view_record_iff hr hk).mp (href.records r hr (h.inScope_iff.mpr hk))
    case others =>
      intro k l hk hn hpath
      exact (h.view_other_iff hk hn hpath).mp (href.others k (h.inScope_iff.mpr hk) hn hpath) l
  case mpr =>
    intro hset
    constructor
    case records =>
      intro r hr hk
      have hk := h.inScope_iff.mp hk
      exact (h.view_record_iff hr hk).mpr (hset.records r hr hk)
    case present =>
      intro k hk hn hpath
      exact h.view_present (h.inScope_iff.mp hk) hn hpath
    case others =>
      intro k hk hn hpath
      have hk := h.inScope_iff.mp hk
      exact (h.view_other_iff hk hn hpath).mpr fun l => hset.others k l hk hn hpath

section Samples

-- An account event with a payload is an active one.
def sampleCodec : Codec where
  unmarshal _ := .ok (.map [])
  unmarshalAccount p := .ok { active := p ≠ [], status := if p = [] then some "deleted" else none }

def sampleConfig : Config where
  codec := sampleCodec
  attribution := none
  fingerprintSegment _ := ""

def sampleRecord (seq : ℕ) (kind : Kind) (rev : String) (payload : Bytes) : Event where
  seq := seq
  kind := kind
  did := "did:plc:a"
  collection := "app.c"
  rkey := "r"
  rev := rev
  payload := payload

def sampleAccount (seq : ℕ) (payload : Bytes) : Event where
  seq := seq
  kind := .account
  did := "did:plc:a"
  collection := ""
  rkey := ""
  rev := ""
  payload := payload

def sampleWriter (rows : List Event) (nextSeq : ℕ) (ha : rows.Pairwise (·.seq < ·.seq))
    (hb : ∀ row ∈ rows, row.seq < nextSeq) : Writer where
  closed := false
  durable := rows
  pending := []
  nextSeq := nextSeq
  boundaries := ∅
  collectionPolicy := some ["app.c"]
  ascending := by simpa using ha
  below := by simpa using hb

def sampleSnapshot (rev : String) (payload : Bytes) : Snapshot where
  did := "did:plc:a"
  rev := rev
  collections := ["app.c"]
  records := [sampleRecord 0 .create rev payload]
  presentPaths := []
  appendMetadata := none

-- A record, then the deletion and the reactivation of its account.
def revived : Writer :=
  sampleWriter [sampleRecord 1 .create "5" [7], sampleAccount 2 [], sampleAccount 3 [1]] 4
    (by decide) (by decide)

def outdated : Writer :=
  sampleWriter [sampleRecord 1 .create "5" [7]] 2 (by decide) (by decide)

theorem reconcile_revived : (revived.reconcileSnapshot sampleConfig (sampleSnapshot "5" [7])).map
    Writer.rows = .ok revived.rows := by
  decide +kernel

-- An account was deleted and came back at the same revision: readers do not see its record.
theorem reconcileSnapshot_revived_lost :
    ∃ w', (∀ c ∈ (sampleSnapshot "5" [7]).collections, '/' ∉ c.toList) ∧
      RevsAscend revived.rows ∧ revived.Precedes (sampleSnapshot "5" [7]) ∧
      revived.reconcileSnapshot sampleConfig (sampleSnapshot "5" [7]) = .ok w' ∧
      (∀ row ∈ revived.rows, WholeSync sampleCodec "did:plc:a" row → row.rev ≤ "5") ∧
      ¬Reflects sampleCodec (sampleSnapshot "5" [7]) revived.rows w'.rows := by
  have ⟨w', hok, hrows⟩ := Except.map_eq_ok.mp reconcile_revived
  refine ⟨w', by decide, ?_, ?_, hok, ?_, fun h => ?_⟩
  · unfold RevsAscend
    decide +kernel
  · intro _ h
    simp [revived, sampleWriter] at h
  · intro row hr hw
    have hk : ∀ row ∈ revived.rows, row.kind ≠ .sync := by decide
    exact absurd hw.right.left (hk row hr)
  · rw [hrows] at h
    have hv := h.records _ (.head _) ⟨rfl, .head _, by decide +kernel⟩
    exact absurd hv (by decide +kernel)

theorem reconcile_outdated : (outdated.reconcileSnapshot sampleConfig (sampleSnapshot "6" [8])).map
    Writer.rows = .ok [sampleRecord 1 .create "5" [7], sampleRecord 2 .update "6" [8]] := by
  decide +kernel

theorem settled_outdated : Settled sampleCodec outdated (sampleSnapshot "6" [8]) where
  records r hr hk hb := by
    have hrev : ∀ row ∈ outdated.rows, row.rev ≠ "6" := by decide
    have hallow : outdated.Allows "app.c" := by simp [Writer.Allows, outdated, sampleWriter]
    cases mem_singleton.mp hr
    rcases hb with hb | ⟨l, hl, hl'⟩
    · exact absurd hallow hb
    · exact absurd hl' (hrev l hl.mem)
  others k l hk hn hp hl := by
    have hkey : ∀ row ∈ outdated.rows, row.key = (sampleRecord 0 .create "6" [8]).key := by decide
    exact absurd ⟨_, .head _, (hkey l hl.mem).symm.trans hl.key⟩ hn

theorem reconcileSnapshot_reflects_outdated :
    ∃ w', outdated.reconcileSnapshot sampleConfig (sampleSnapshot "6" [8]) = .ok w' ∧
      Reflects sampleCodec (sampleSnapshot "6" [8]) outdated.rows w'.rows := by
  have ⟨w', hok, _⟩ := Except.map_eq_ok.mp reconcile_outdated
  refine ⟨w', hok, (reconcileSnapshot_reflects_iff (by decide) ?_ ?_ hok ?_).mpr settled_outdated⟩
  · unfold RevsAscend
    decide +kernel
  · intro _ h
    simp [outdated, sampleWriter] at h
  · intro row hr hw
    have hk : ∀ row ∈ outdated.rows, row.kind ≠ .sync := by decide
    exact absurd hw.right.left (hk row hr)

end Samples

end Ingest
end Jetstream
