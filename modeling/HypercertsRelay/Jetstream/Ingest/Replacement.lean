import HypercertsRelay.Library.Except
import HypercertsRelay.Jetstream.Ingest.Snapshot

-- What the scan of the archive finds, which rows are planned from it and which of them are written.
namespace Jetstream.Ingest

open List Except
open Tombstone SnapshotArchiveState MaxMap

-- The order in which the scan prefers one row of a record over another.
def rank (ev : Event) : String ×ₗ ℕ :=
  toLex (ev.rev, ev.seq)

theorem rank_lt_rank : rank a < rank b ↔ a.rev < b.rev ∨ a.rev = b.rev ∧ a.seq < b.seq :=
  Prod.Lex.toLex_lt_toLex

theorem rank_le_rank : rank a ≤ rank b ↔ a.rev < b.rev ∨ a.rev = b.rev ∧ a.seq ≤ b.seq :=
  Prod.Lex.toLex_le_toLex

def Snapshot.Covers (snapshot : Snapshot) (row : Event) : Prop :=
  row.did = snapshot.did ∧ row.kind.isCommit ∧ row.collection ∈ snapshot.collections

def WholeSync (c : Codec) (did : String) (row : Event) : Prop :=
  row.did = did ∧ row.kind = .sync ∧ decodeScopedSync c row = .ok none

def withoutPayload (row : Event) : Event :=
  { row with payload := [] }

def offered (snapshot : Snapshot) (rows : List Event) : Set (String × String ×ₗ ℕ) :=
  { p | ∃ row ∈ rows, snapshot.Covers row ∧ p = (row.path, rank row) }

theorem offered_append (snap : Snapshot) (l₁ l₂ : List Event) :
    offered snap (l₁ ++ l₂) = offered snap l₁ ∪ offered snap l₂ := by
  ext; simp [offered, or_and_right, exists_or]

structure Scanned (c : Codec) (snapshot : Snapshot) (rows : List Event)
    (s : SnapshotArchiveState) : Prop where
  tracks : MaxMap.Tracks rank s.latest (offered snapshot rows)
  sound : ∀ {p v}, s.latest.lookup p = some v →
    ∃ row ∈ rows, snapshot.Covers row ∧ row.path = p ∧ v = withoutPayload row
  syncRev : ∀ x, x < s.syncRev ↔ ∃ row ∈ rows, WholeSync c snapshot.did row ∧ x < row.rev

section Observe

variable {snap : Snapshot} {s t : SnapshotArchiveState}

theorem observeAccount_eq (h : s.observeAccount c row = .ok t) :
    t.latest = s.latest ∧ t.syncRev = s.syncRev := by
  unfold observeAccount at h
  split at h
  · have ⟨_, _, ht⟩ := bind_eq_ok.mp h
    cases ht
    exact ⟨rfl, rfl⟩
  · cases h
    exact ⟨rfl, rfl⟩

theorem observeSync_latest (h : s.observeSync c row = .ok t) : t.latest = s.latest := by
  unfold observeSync at h
  split at h
  · have ⟨scope, _, ht⟩ := bind_eq_ok.mp h
    cases scope <;> cases ht <;> rfl
  · cases h
    rfl

-- The greatest revision of the rows that replace the whole repository, this one included.
theorem lt_observeSync (h : s.observeSync c row = .ok t) (hd : row.did = snap.did)
    (x : String) : x < t.syncRev ↔ x < s.syncRev ∨ WholeSync c snap.did row ∧ x < row.rev := by
  unfold observeSync at h
  split at h
  case isTrue hr =>
    have ⟨scope, hscope, ht⟩ := bind_eq_ok.mp h
    cases scope <;> cases ht
    case none =>
      have hw : WholeSync c snap.did row := ⟨hd, hr.left, hscope⟩
      simp only [hw, true_and]
      exact ⟨.inr, fun h => h.elim (·.trans hr.right) id⟩
    case some => simp [WholeSync, hscope]
  case isFalse hr =>
    cases h
    refine ⟨.inl, fun h => h.elim id fun ⟨hw, hx⟩ => ?_⟩
    exact hx.trans_le (le_of_not_gt fun hlt => hr ⟨hw.right.left, hlt⟩)

theorem observeRecord_latest (s : SnapshotArchiveState) (row : Event) :
    (s.observeRecord row).latest = raise rank s.latest row.path (withoutPayload row) := by
  cases hl : s.latest.lookup row.path with
  | none => simp only [observeRecord, raise, hl, withoutPayload]
  | some old =>
    have : rank old < rank (withoutPayload row) ↔
        old.rev < row.rev ∨ row.rev = old.rev ∧ old.seq < row.seq := by
      rw [rank_lt_rank, eq_comm (a := row.rev)]
      rfl
    simp only [observeRecord, raise, hl, this]
    split <;> rfl

theorem observeRecord_syncRev (s : SnapshotArchiveState) (row : Event) :
    (s.observeRecord row).syncRev = s.syncRev := by
  unfold observeRecord
  repeat' split
  all_goals rfl

theorem Scanned.empty : Scanned c snap [] .empty where
  tracks := by simpa [offered, SnapshotArchiveState.empty] using tracks_empty
  sound h := by simp [SnapshotArchiveState.empty] at h
  syncRev x := by
    have : ¬x < "" := String.lt_iff_toList_lt.not.mpr (not_lt_nil _)
    simp [SnapshotArchiveState.empty, this]

theorem Scanned.congr (h : Scanned c snap rows s) (hl : t.latest = s.latest)
    (hs : ∀ x, x < t.syncRev ↔ x < s.syncRev) : Scanned c snap rows t where
  tracks := by rw [hl]; exact h.tracks
  sound hv := h.sound (hl ▸ hv)
  syncRev x := (hs x).trans (h.syncRev x)

theorem not_wholeSync_of_isCommit (h : row.kind.isCommit) : ¬WholeSync c snap.did row := by
  intro hw
  rw [hw.right.left] at h
  cases h

section

variable (h : Scanned c snap rows s)

include h

theorem Scanned.skip (hl : t.latest = s.latest)
    (hs : ∀ x, x < t.syncRev ↔ x < s.syncRev ∨ WholeSync c snap.did row ∧ x < row.rev)
    (hc : ¬snap.Covers row) : Scanned c snap (rows ++ [row]) t where
  tracks := by
    have : offered snap [row] = ∅ := by simp [offered, hc]
    rw [offered_append, this, Set.union_empty, hl]
    exact h.tracks
  sound hv := by
    have ⟨r, hr, hv⟩ := h.sound (hl ▸ hv)
    exact ⟨r, mem_append_left _ hr, hv⟩
  syncRev x := by
    rw [hs, h.syncRev]
    simp [or_and_right, exists_or]

theorem Scanned.record (hc : snap.Covers row) :
    Scanned c snap (rows ++ [row]) (s.observeRecord row) where
  tracks := by
    have : offered snap [row] = {(row.path, rank row)} := by simp [offered, hc]
    rw [offered_append, this, Set.union_singleton, observeRecord_latest]
    exact h.tracks.raise row.path (withoutPayload row)
  sound hv := by
    obtain hv | hv := lookup_raise (observeRecord_latest s row ▸ hv)
    · exact ⟨row, by simp, hc, hv.left.symm, hv.right⟩
    · have ⟨r, hr, hv⟩ := h.sound hv
      exact ⟨r, mem_append_left _ hr, hv⟩
  syncRev x := by
    rw [observeRecord_syncRev, h.syncRev]
    simp [or_and_right, exists_or, not_wholeSync_of_isCommit hc.right.left]

theorem Scanned.observe (ho : s.observe c snap row = .ok t) : Scanned c snap (rows ++ [row]) t := by
  unfold SnapshotArchiveState.observe at ho
  split at ho
  case isTrue hd =>
    cases ho
    exact h.skip rfl (fun x => by simp [WholeSync, hd]) fun hc => hd hc.left
  case isFalse hd =>
    have hd : row.did = snap.did := not_not.mp hd
    have ⟨s₁, h₁, ho⟩ := bind_eq_ok.mp ho
    have ⟨s₂, h₂, ho⟩ := bind_eq_ok.mp ho
    have ⟨hl₁, hs₁⟩ := observeAccount_eq h₁
    have hl : s₂.latest = s.latest := (observeSync_latest h₂).trans hl₁
    have hs := lt_observeSync h₂ hd
    rw [hs₁] at hs
    split at ho
    case isTrue hc =>
      cases ho
      simp only [not_wholeSync_of_isCommit hc.left, false_and, or_false] at hs
      exact (h.congr hl hs).record ⟨hd, hc⟩
    case isFalse hc =>
      cases ho
      exact h.skip hl hs fun hcov => hc hcov.right

end

theorem scanSnapshotArchive_scanned (h : scanSnapshotArchive c rows snap = .ok s) :
    Scanned c snap rows s :=
  foldlM_invariant .empty (fun _ _ _ _ _ h ho => h.observe ho) (mapError_eq_ok.mp h)

end Observe

section Plan

variable {rows : List Event}

-- The scan found no row of the record that is as new as the snapshot.
def Outdated (s : SnapshotArchiveState) (r : Event) : Prop :=
  ∀ old ∈ s.latest.lookup r.path, old.rev < r.rev

def Missing (s : SnapshotArchiveState) (snapshot : Snapshot) (keys : Set String) (old : Event) :
    Prop :=
  ∃ key, s.latest.lookup key = some old ∧ key ∉ keys ∧ old.kind ≠ .delete ∧
    old.rev < snapshot.rev ∧ s.syncRev ≤ old.rev

def updateRow (r : Event) : Event :=
  { r with kind := .update }

def deleteRow (snapshot : Snapshot) (old : Event) : Event where
  seq := 0
  kind := .delete
  did := snapshot.did
  collection := old.collection
  rkey := old.rkey
  rev := snapshot.rev
  payload := []

def Snapshot.keys (snapshot : Snapshot) : Set String :=
  { p | p ∈ snapshot.presentPaths ∨ ∃ r ∈ snapshot.records, r.path = p }

theorem outdated_of_none (h : s.latest.lookup r.path = none) : Outdated s r := by
  intro old ho
  rw [h] at ho
  cases ho

theorem outdated_iff (h : s.latest.lookup r.path = some old) : Outdated s r ↔ old.rev < r.rev := by
  simp only [Outdated, h, Option.mem_def, Option.some.injEq, forall_eq']

structure PlannedRecords (s : SnapshotArchiveState) (snapshot : Snapshot) (records : List Event)
    (plan : List String × List Event) : Prop where
  inside : ∀ r ∈ records, recordOutside snapshot r = false
  distinct : records.Pairwise (·.path ≠ ·.path)
  absent : ∀ r ∈ records, r.path ∉ snapshot.presentPaths
  keys : ∀ p, p ∈ plan.1 ↔ p ∈ snapshot.presentPaths ∨ ∃ r ∈ records, r.path = p
  rows : ∀ row, row ∈ plan.2 ↔ ∃ r ∈ records, Outdated s r ∧ row = updateRow r

theorem PlannedRecords.empty : PlannedRecords s snap [] (snap.presentPaths, []) := by
  constructor <;> simp

theorem PlannedRecords.snoc (h : PlannedRecords s snap records plan)
    (hin : recordOutside snap r = false) (hdup : r.path ∉ plan.1)
    (hrows : ∀ row, row ∈ rows ↔ row ∈ plan.2 ∨ Outdated s r ∧ row = updateRow r) :
    PlannedRecords s snap (records ++ [r]) (r.path :: plan.1, rows) := by
  have hnew := (h.keys r.path).not.mp hdup
  push Not at hnew
  constructor
  case inside => simpa [or_imp, forall_and, hin] using h.inside
  case distinct => simpa [pairwise_append, h.distinct] using hnew.right
  case absent => simpa [or_imp, forall_and, hnew.left] using h.absent
  case keys =>
    simp only [mem_cons, h.keys, mem_append, not_mem_nil, or_false, or_and_right,
      exists_or, exists_eq_left]
    grind
  case rows => intro row; simp [hrows, h.rows, or_and_right, exists_or]

theorem PlannedRecords.planRecord
    (h : PlannedRecords s snap records plan) (hp : s.planRecord snap plan r = .ok plan') :
    PlannedRecords s snap (records ++ [r]) plan' := by
  unfold SnapshotArchiveState.planRecord at hp
  split at hp
  · cases hp
  case isFalse hout =>
    split at hp
    · cases hp
    case isFalse hdup =>
      cases hl : s.latest.lookup r.path with
      | none =>
        rw [hl] at hp
        cases hp
        exact h.snoc (by simpa using hout) hdup (by simp [outdated_of_none hl, updateRow])
      | some old =>
        rw [hl] at hp
        by_cases hle : r.rev ≤ old.rev
        · cases hp.symm.trans (if_pos hle)
          have ho := (outdated_iff hl).not.mpr hle.not_gt
          exact h.snoc (by simpa using hout) hdup (by simp [ho])
        · cases hp.symm.trans (if_neg hle)
          have ho := (outdated_iff hl).mpr (lt_of_not_ge hle)
          exact h.snoc (by simpa using hout) hdup (by simp [ho, updateRow])

structure Planned (s : SnapshotArchiveState) (snapshot : Snapshot) (rows : List Event) : Prop where
  inside : ∀ r ∈ snapshot.records, recordOutside snapshot r = false
  distinct : snapshot.records.Pairwise (·.path ≠ ·.path)
  absent : ∀ r ∈ snapshot.records, r.path ∉ snapshot.presentPaths
  rows : ∀ row, row ∈ rows ↔ (∃ r ∈ snapshot.records, Outdated s r ∧ row = updateRow r) ∨
    ∃ old, Missing s snapshot snapshot.keys old ∧ row = deleteRow snapshot old

theorem mem_missingRecordDeletes {keys} : row ∈ s.missingRecordDeletes snap keys ↔
      ∃ old, Missing s snap { p | p ∈ keys } old ∧ row = deleteRow snap old := by
  simp only [missingRecordDeletes, mem_filterMap]
  constructor
  case mp =>
    intro ⟨e, he, h⟩
    unfold missingRecordDelete at h
    split at h
    · cases h
    case isFalse hn =>
      simp only [not_or, not_le, not_lt] at hn
      exact ⟨e.2, ⟨e.1, AList.mem_lookup_iff.mpr he, hn⟩, (Option.some.inj h).symm⟩
  case mpr =>
    intro ⟨old, ⟨key, hl, hn⟩, hrow⟩
    refine ⟨⟨key, old⟩, AList.mem_lookup_iff.mp hl, ?_⟩
    have hn : ¬(key ∈ keys ∨ old.kind = .delete ∨ snap.rev ≤ old.rev ∨ old.rev < s.syncRev) := by
      simp only [not_or, not_le, not_lt]
      exact hn
    rw [missingRecordDelete, if_neg hn, hrow]
    rfl

theorem planned_of_records
    (h : snap.records.foldlM (s.planRecord snap) (snap.presentPaths, []) = .ok plan) :
    Planned s snap ((plan.2 ++ s.missingRecordDeletes snap plan.1).mergeSort replacementLe) := by
  have hp : PlannedRecords s snap snap.records plan :=
    foldlM_invariant .empty (fun _ _ _ _ _ h hp => h.planRecord hp) h
  refine ⟨hp.inside, hp.distinct, hp.absent, fun row => ?_⟩
  have hkeys : { p | p ∈ plan.1 } = snap.keys := Set.ext hp.keys
  rw [mem_mergeSort, mem_append, hp.rows, mem_missingRecordDeletes, hkeys]

theorem planReplacement_planned (h : s.planReplacement snap = .ok rows) : Planned s snap rows := by
  have ⟨plan, hplan, h⟩ := bind_eq_ok.mp h
  have ⟨_, _, h⟩ := bind_eq_ok.mp h
  cases h
  exact planned_of_records hplan

end Plan

section Publish

variable {w w' : Writer}

-- A commit that does not get past the boundary of a snapshot.
def Writer.Fenced (w : Writer) (ev : Event) : Prop :=
  w.collectionPolicy ≠ none ∧ ev.rev ≠ "" ∧ ev.rev ≤ w.boundary ev.did ev.collection

theorem le_empty_iff : s ≤ "" ↔ s = "" := by
  constructor
  · intro h
    exact le_antisymm h (le_of_not_gt (String.lt_iff_toList_lt.not.mpr (not_lt_nil _)))
  · exact le_of_eq

theorem snapshotSupersedes_iff (hc : ev.kind.isCommit)
    (h : w.snapshotSupersedes cfg ev metadata = .ok b) : b ↔ w.Fenced ev := by
  unfold Writer.snapshotSupersedes at h
  split at h
  case isTrue hn =>
    cases h
    simp only [Bool.false_eq_true, Writer.Fenced, false_iff]
    grind
  case isFalse hn =>
    have ⟨hp, hr⟩ := not_or.mp hn
    simp only [Writer.Fenced, Writer.boundary, ne_eq, hp, hr, not_false_eq_true, true_and]
    cases hl : w.boundaries.lookup ev.did with
    | none =>
      rw [hl] at h
      cases h
      simp [le_empty_iff, hr]
    | some revisions =>
      rw [hl] at h
      cases h
      simp

def SameBody (a b : Event) : Prop :=
  a = { b with seq := a.seq }

theorem batchCandidate_iff (hc : ev.kind.isCommit)
    (h : w.batchCandidate cfg ev n metadata = .ok candidate) :
    (candidate = none ∧ ¬(w.allows ev ∧ ¬w.Fenced ev)) ∨
    (candidate = some { ev with seq := n } ∧ w.allows ev ∧ ¬w.Fenced ev) := by
  unfold Writer.batchCandidate at h
  split at h
  case isTrue ha => simp_all
  case isFalse ha =>
    have ⟨b, hb, h⟩ := bind_eq_ok.mp h
    have hf := snapshotSupersedes_iff hc hb
    cases b with
    | true => cases h; simp_all
    | false =>
      have ⟨_, _, h⟩ := bind_eq_ok.mp h
      simp_all

structure Admitted (w : Writer) (events candidates : List Event) : Prop where
  sound : ∀ c ∈ candidates, ∃ ev ∈ events, SameBody c ev ∧ w.allows ev ∧ ¬w.Fenced ev
  complete : ∀ ev ∈ events, w.allows ev → ¬w.Fenced ev → ∃ c ∈ candidates, SameBody c ev

theorem Admitted.skip (h : Admitted w events cands)
    (hn : ¬(w.allows ev ∧ ¬w.Fenced ev)) : Admitted w (events ++ [ev]) cands where
  sound c hc := by
    have ⟨ev', hev', hs⟩ := h.sound c hc
    exact ⟨ev', mem_append_left _ hev', hs⟩
  complete ev' hev' ha hf := by
    obtain hev' | hev' := mem_append.mp hev'
    · exact h.complete ev' hev' ha hf
    · cases mem_singleton.mp hev'
      exact absurd ⟨ha, hf⟩ hn

theorem Admitted.snoc (h : Admitted w events cands) (hs : SameBody c ev) (ha : w.allows ev)
    (hf : ¬w.Fenced ev) :
    Admitted w (events ++ [ev]) (cands ++ [c]) where
  sound c' hc' := by
    obtain hc' | hc' := mem_append.mp hc'
    · have ⟨ev', hev', hs'⟩ := h.sound c' hc'
      exact ⟨ev', mem_append_left _ hev', hs'⟩
    · cases mem_singleton.mp hc'
      exact ⟨ev, by simp, hs, ha, hf⟩
  complete ev' hev' ha' hf' := by
    obtain hev' | hev' := mem_append.mp hev'
    · have ⟨c', hc', hs'⟩ := h.complete ev' hev' ha' hf'
      exact ⟨c', mem_append_left _ hc', hs'⟩
    · cases mem_singleton.mp hev'
      exact ⟨c, by simp, hs⟩

theorem Admitted.prepareBatchCandidate (h : Admitted w events cands) (hc : ev.kind.isCommit)
    (hp : w.prepareBatchCandidate cfg metadata cands ev = .ok candidates') :
    Admitted w (events ++ [ev]) candidates' := by
  have ⟨_, _, hp⟩ := bind_eq_ok.mp hp
  have ⟨candidate, hcand, hp⟩ := bind_eq_ok.mp hp
  obtain hn | hs := batchCandidate_iff hc hcand
  · rw [hn.left] at hp
    cases hp
    exact h.skip hn.right
  · rw [hs.left] at hp
    cases hp
    exact h.snoc rfl hs.right.left hs.right.right

theorem batchCandidates_admitted (hc : ∀ ev ∈ events, ev.kind.isCommit)
    (h : w.batchCandidates cfg events metadata = .ok candidates) :
    Admitted w events candidates := by
  unfold Writer.batchCandidates at h
  repeat' split at h
  · cases h
  · cases h
  have ⟨_, _, h⟩ := bind_eq_ok.mp h
  have ⟨cs, hcs, h⟩ := bind_eq_ok.mp h
  have ⟨_, _, h⟩ := bind_eq_ok.mp h
  cases h
  refine foldlM_invariant ?_ (fun _ ev _ _ hev h hp => ?_) hcs
  · constructor <;> simp
  · exact h.prepareBatchCandidate (hc ev hev) hp

-- The writer with these rows more, not yet in a block.
structure Extends (w w' : Writer) (candidates new : List Event) : Prop where
  sound : ∀ n ∈ new, ∃ c ∈ candidates, SameBody n c
  complete : ∀ c ∈ candidates, ∃ n ∈ new, SameBody n c
  durable : w'.durable = w.durable
  pending : w'.pending = w.pending ++ new
  boundaries : w'.boundaries = w.boundaries
  collectionPolicy : w'.collectionPolicy = w.collectionPolicy

theorem writeBatchCandidates_extends (w : Writer) (cands : List Event) :
    ∃ new, Extends w (w.writeBatchCandidates cands) cands new := by
  induction cands generalizing w with
  | nil => exact ⟨[], nofun, nofun, rfl, (append_nil _).symm, rfl, rfl⟩
  | cons c cands ih =>
    have ⟨new, h⟩ := ih (w.push c)
    refine ⟨{ c with seq := w.nextSeq } :: new, ?_, ?_, h.durable, ?_, h.boundaries,
      h.collectionPolicy⟩
    · refine forall_mem_cons.mpr ⟨⟨c, .head _, rfl⟩, fun n hn => ?_⟩
      have ⟨c', hc', hs⟩ := h.sound n hn
      exact ⟨c', .tail _ hc', hs⟩
    · refine forall_mem_cons.mpr ⟨⟨_, .head _, rfl⟩, fun c' hc' => ?_⟩
      have ⟨n, hn, hs⟩ := h.complete c' hc'
      exact ⟨n, .tail _ hn, hs⟩
    · exact h.pending.trans (append_assoc _ _ _)

end Publish

def Writer.Allows (w : Writer) (collection : String) : Prop :=
  ∀ collections ∈ w.collectionPolicy, collection ∈ collections

variable {w : Writer}

theorem Writer.allows_iff (hc : ev.kind.isCommit) : w.allows ev ↔ w.Allows ev.collection := by
  cases h : w.collectionPolicy <;> simp [allows, Allows, h, hc]

-- The snapshot is newer than every boundary of its collections.
def Writer.Precedes (w : Writer) (snapshot : Snapshot) : Prop :=
  ∀ revisions ∈ w.boundaries.lookup snapshot.did, ∀ c ∈ snapshot.collections,
    ∀ rev ∈ revisions.lookup c, rev < snapshot.rev

theorem Writer.Precedes.not_fenced (h : w.Precedes snap) (hd : ev.did = snap.did)
    (hr : ev.rev = snap.rev) (hc : ev.collection ∈ snap.collections) : ¬w.Fenced ev := by
  intro ⟨_, hne, hle⟩
  cases hl : w.boundaries.lookup ev.did with
  | none => simp [boundary, hl, le_empty_iff, hne] at hle
  | some revisions =>
    cases hl' : revisions.lookup ev.collection with
    | none => simp [boundary, hl, hl', le_empty_iff, hne] at hle
    | some b =>
      have := h revisions (hd ▸ hl) ev.collection hc b hl'
      simp only [boundary, hl, hl', Option.bind_some, Option.getD_some] at hle
      exact (hle.trans_lt this).ne hr

theorem SameBody.key_eq (h : SameBody a b) : a.key = b.key := by
  rw [h]
  rfl

theorem SameBody.trans (h : SameBody a b) (h' : SameBody b c) : SameBody a c := by
  rw [SameBody, h, h']

theorem Admitted.written (h : Admitted w events cands) (he : Extends w₁ w₂ cands new) :
    Admitted w events new where
  sound n hn := by
    have ⟨c, hc, hs⟩ := he.sound n hn
    have ⟨ev, hev, hs', ha⟩ := h.sound c hc
    exact ⟨ev, hev, hs.trans hs', ha⟩
  complete ev hev ha hf := by
    have ⟨c, hc, hs⟩ := h.complete ev hev ha hf
    have ⟨n, hn, hs'⟩ := he.complete c hc
    exact ⟨n, hn, hs'.trans hs⟩

theorem Admitted.of_flush (h : Admitted w.flush events new) : Admitted w events new :=
  ⟨h.sound, h.complete⟩

section Reconcile

variable {rows : List Event}

theorem Planned.isCommit (h : Planned s snap rows) : ∀ row ∈ rows, row.kind.isCommit := by
  intro row hr
  obtain hr | hr := (h.rows row).mp hr
  · have ⟨_, _, _, hr⟩ := hr
    rw [hr]
    rfl
  · have ⟨_, _, hr⟩ := hr
    rw [hr]
    rfl

theorem replacementRows_spec (h : replacementRows cfg w snap = .ok (some (rows, metadata))) :
    ∃ s, Scanned cfg.codec snap w.durable s ∧ Planned s snap rows := by
  have ⟨s, hs, h⟩ := bind_eq_ok.mp h
  repeat' split at h
  case isFalse =>
    have ⟨_, hp, h⟩ := bind_eq_ok.mp h
    have ⟨_, _, h⟩ := bind_eq_ok.mp h
    cases h
    exact ⟨s, scanSnapshotArchive_scanned hs, planReplacement_planned hp⟩
  all_goals cases h

theorem replacementRows_none (h : replacementRows cfg w snap = .ok none) :
    ∃ row ∈ w.durable, WholeSync cfg.codec snap.did row ∧ snap.rev < row.rev := by
  have ⟨s, hs, h⟩ := bind_eq_ok.mp h
  split at h
  case isTrue => cases h
  case isFalse =>
    split at h
    case isTrue hlt => exact ((scanSnapshotArchive_scanned hs).syncRev _).mp hlt
    case isFalse =>
      repeat' split at h
      case isFalse =>
        have ⟨_, _, h⟩ := bind_eq_ok.mp h
        have ⟨_, _, h⟩ := bind_eq_ok.mp h
        cases h
      all_goals cases h

theorem publishSnapshotLocked_spec (hc : ∀ row ∈ rows, row.kind.isCommit)
    (h : w.publishSnapshotLocked cfg snap rows metadata = .ok w') :
    ∃ new, Admitted w rows new ∧ w'.rows = w.rows ++ new := by
  have ⟨w₁, h₁, h⟩ := bind_eq_ok.mp h
  have ⟨candidates, hcand, hw⟩ := map_eq_ok.mp h₁
  have hadm := (batchCandidates_admitted hc hcand).of_flush
  have ⟨new, hext⟩ := writeBatchCandidates_extends w.flush candidates
  have hrows : w₁.rows = w.rows ++ new := by
    rw [←hw, Writer.rows, hext.durable, hext.pending]
    rfl
  refine ⟨new, hadm.written hext, ?_⟩
  cases h
  split
  · exact hrows
  · rw [←hrows]
    exact append_nil _

theorem reconcileSnapshot_spec (h : w.reconcileSnapshot cfg snap = .ok w')
    (hw : ∀ row ∈ w.rows, WholeSync cfg.codec snap.did row → row.rev ≤ snap.rev) :
    ∃ s rows new, Scanned cfg.codec snap w.rows s ∧ Planned s snap rows ∧
      Admitted w rows new ∧ w'.rows = w.rows ++ new := by
  unfold Writer.reconcileSnapshot at h
  split at h
  · cases h
  have ⟨plan, hplan, h⟩ := bind_eq_ok.mp h
  cases plan with
  | none =>
    have ⟨row, hr, hsync, hlt⟩ := replacementRows_none hplan
    exact absurd (hw row hr hsync) hlt.not_ge
  | some plan =>
    have ⟨s, hs, hp⟩ := replacementRows_spec hplan
    have ⟨new, hadm, hrows⟩ := publishSnapshotLocked_spec hp.isCommit h
    exact ⟨s, plan.1, new, hs, hp, hadm.of_flush, by simpa [Writer.rows, Writer.flush] using hrows⟩

end Reconcile

end Jetstream.Ingest
