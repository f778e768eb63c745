import HypercertsRelay.Library.System
import HypercertsRelay.Jetstream.Ingest.Reconcile

-- Runs of a writer: live rows, snapshots that are published row by row, and crashes anywhere.
namespace Jetstream.Ingest

open List Function Except
open Tombstone SnapshotArchiveState RecordKey

-- A part of the pending rows reaches the disk.
def Writer.flushRows (w : Writer) (n : ℕ) : Writer :=
  { w with
    durable := w.durable ++ w.pending.take n
    pending := w.pending.drop n
    ascending := by simpa using w.ascending
    below := by simpa using w.below }

-- The writer that is opened after a crash. It has lost its pending rows.
def Writer.reopen (w : Writer) (nextSeq : ℕ) (h : ∀ row ∈ w.durable, row.seq < nextSeq) : Writer :=
  { w with
    closed := false
    pending := []
    nextSeq := nextSeq
    ascending := by simpa using w.ascending.sublist (sublist_append_left _ _)
    below := by simpa using h }

section Boundary

variable {w : Writer}

def revisionOf (revisions : AList fun _ : String => String) (collection : String) : String :=
  (revisions.lookup collection).getD ""

theorem revisionOf_raiseRevision (rev : String) (revisions : AList fun _ : String => String)
    (c c' : String) : revisionOf (raiseRevision rev revisions c) c' =
      if c' = c then max (revisionOf revisions c) rev else revisionOf revisions c' := by
  by_cases hlt : revisionOf revisions c < rev
  · have hr : raiseRevision rev revisions c = revisions.insert c rev := if_pos hlt
    by_cases hc : c' = c
    · subst hc
      simp only [hr, revisionOf, AList.lookup_insert, Option.getD_some, if_true]
      exact (max_eq_right hlt.le).symm
    · simp [hr, revisionOf, hc]
  · have hr : raiseRevision rev revisions c = revisions := if_neg hlt
    rw [hr]
    split
    case isTrue hc => rw [hc, max_eq_left (not_lt.mp hlt)]
    · rfl

theorem le_foldl_raiseRevision (rev : String) (revisions : AList fun _ : String => String)
    (collections : List String) (c : String) :
    revisionOf revisions c ≤ revisionOf (collections.foldl (raiseRevision rev) revisions) c ∧
      (c ∈ collections → rev ≤ revisionOf (collections.foldl (raiseRevision rev) revisions) c) := by
  induction collections generalizing revisions with
  | nil => exact ⟨le_refl _, nofun⟩
  | cons d collections ih =>
    have ⟨hle, hmem⟩ := ih (raiseRevision rev revisions d)
    rw [revisionOf_raiseRevision] at hle
    by_cases hd : c = d
    · subst hd
      rw [if_pos rfl] at hle
      exact ⟨(le_max_left _ _).trans hle, fun _ => (le_max_right _ _).trans hle⟩
    · rw [if_neg hd] at hle
      exact ⟨hle, fun hc => hmem ((mem_cons.mp hc).resolve_left hd)⟩

theorem boundary_persist (did c : String) :
    (w.persistSnapshotBoundary snap).boundary did c = if did = snap.did then
      revisionOf (snap.collections.foldl (raiseRevision snap.rev)
        ((w.boundaries.lookup snap.did).getD ∅)) c else w.boundary did c := by
  by_cases hd : did = snap.did
  · subst hd
    simp [Writer.boundary, Writer.persistSnapshotBoundary, revisionOf]
  · simp [Writer.boundary, Writer.persistSnapshotBoundary, hd]

theorem revisionOf_boundaries (did c : String) :
    revisionOf ((w.boundaries.lookup did).getD ∅) c = w.boundary did c := by
  cases h : w.boundaries.lookup did <;> simp [revisionOf, Writer.boundary, h]

theorem boundary_le_persist (did c : String) :
    w.boundary did c ≤ (w.persistSnapshotBoundary snap).boundary did c := by
  rw [boundary_persist]
  split
  case isTrue hd =>
    rw [hd, ←revisionOf_boundaries]
    exact (le_foldl_raiseRevision _ _ _ c).left
  · exact le_refl _

theorem rev_le_boundary_persist (hc : c ∈ snap.collections) :
    snap.rev ≤ (w.persistSnapshotBoundary snap).boundary snap.did c := by
  rw [boundary_persist, if_pos rfl]
  exact (le_foldl_raiseRevision _ _ _ c).right hc

end Boundary

theorem appendAttributedLocked_spec {w w' : Writer}
    (h : w.appendAttributedLocked cfg ev metadata = .ok w') :
    w' = w ∨ w' = w.push ev ∧ (ev.kind.isCommit → ¬w.Fenced ev) := by
  have ⟨_, _, h⟩ := bind_eq_ok.mp h
  split at h
  · cases h
  split at h
  · cases h; exact .inl rfl
  have ⟨b, hb, h⟩ := bind_eq_ok.mp h
  cases b with
  | true => cases h; exact .inl rfl
  | false =>
    simp only [Bool.false_eq_true, if_false] at h
    split at h
    · cases h
    · have ⟨_, _, h⟩ := bind_eq_ok.mp h
      have ⟨_, _, h⟩ := bind_eq_ok.mp h
      cases h
      exact .inr ⟨rfl, fun hc => by simpa using snapshotSupersedes_iff hc hb⟩

namespace Fence

-- A snapshot is being published: the candidates that are not written yet and the rows that are.
inductive Phase
  | idle
  | publishing (snapshot : Snapshot) (candidates written : List Event)

-- The last revision on the live stream of a repository belongs to the history.
structure State where
  writer : Writer
  phase : Phase
  liveRev : String → String

def State.observe (s : State) (ev : Event) : String → String :=
  if ev.kind.isCommit then update s.liveRev ev.did ev.rev else s.liveRev

inductive Step (cfg : Config) : State → State → Prop
  -- The live stream goes on with a revision that is not older. A batch is one row after the other.
  | live {w} :
      s.phase = .idle → (ev.kind.isCommit → s.liveRev ev.did ≤ ev.rev) →
      s.writer.appendAttributedLocked cfg ev metadata = .ok w →
      Step cfg s { s with writer := w, liveRev := s.observe ev }
  | flush (n : ℕ) : Step cfg s { s with writer := s.writer.flushRows n }
  | adopt : s.writer.collectionPolicy ≠ none →
      Step cfg s { s with writer := { s.writer with collectionPolicy := some collections } }
  -- The locks are held from here on. A call that ends before has only flushed.
  | start {snapshot rows candidates metadata} :
      s.phase = .idle → replacementRows cfg s.writer.flush snapshot = .ok (some (rows, metadata)) →
      s.writer.flush.batchCandidates cfg rows metadata = .ok candidates →
      Step cfg s { s with
        writer := s.writer.flush
        phase := .publishing snapshot candidates [] }
  | write {c candidates written} :
      s.phase = .publishing snapshot (c :: candidates) written →
      Step cfg s { s with
        writer := s.writer.push c
        phase := .publishing snapshot candidates (written ++ [{ c with seq := s.writer.nextSeq }]) }
  | finish :
      s.phase = .publishing snapshot [] written → s.writer.pending = [] →
      Step cfg s { s with
        writer := s.writer.persistSnapshotBoundary snapshot
        phase := .idle }
  -- The call returns an error.
  | abort : Step cfg s { s with phase := .idle }
  | crash (nextSeq : ℕ) (h : ∀ row ∈ s.writer.durable, row.seq < nextSeq) :
      Step cfg s { s with
        writer := s.writer.reopen nextSeq h
        phase := .idle }

structure Init (s : State) : Prop where
  rows : s.writer.rows = []
  boundaries : s.writer.boundaries = ∅
  phase : s.phase = .idle

def system (cfg : Config) : System State where
  init := Init
  step := Step cfg

theorem Step.boundary_le (e : Step cfg s t) (did c : String) :
    s.writer.boundary did c ≤ t.writer.boundary did c := by
  cases e with
  | live _ _ ha =>
    obtain h | h := appendAttributedLocked_spec ha
    · rw [h]
    · rw [h.left]; exact le_refl _
  | finish _ _ => exact boundary_le_persist did c
  | _ => exact le_refl _

-- No rows of a snapshot are left without its boundary, in a writer with a collection policy and no
-- live commit without a revision.
structure Careful (s t : State) : Prop where
  policy : s.writer.collectionPolicy ≠ none
  rev : s.phase = .idle → ∀ row ∈ t.writer.rows, row.kind.isCommit → row.rev = "" →
    row ∈ s.writer.rows
  ends : ∀ {snapshot candidates written}, s.phase = .publishing snapshot candidates written →
    t.phase = .idle → (∀ row ∈ written, row ∉ t.writer.rows) ∨
      ∀ c ∈ snapshot.collections, snapshot.rev ≤ t.writer.boundary snapshot.did c

structure OfSnapshot (snapshot : Snapshot) (row : Event) : Prop where
  did : row.did = snapshot.did
  collection : row.collection ∈ snapshot.collections
  rev : row.rev = snapshot.rev

-- The archive has nothing newer than the row.
def Newest (rows : List Event) (ev : Event) : Prop :=
  ∀ row ∈ rows, row.kind.isCommit → row.key = ev.key → row.rev ≤ ev.rev

def Phase.Wrote : Phase → Event → Prop
  | idle, _ => False
  | publishing _ _ written, row => row ∈ written

def Phase.Sound (w : Writer) : Phase → Prop
  | idle => True
  | publishing snapshot candidates written =>
    (∀ row ∈ written, OfSnapshot snapshot row) ∧
      ∀ c ∈ candidates, OfSnapshot snapshot c ∧ Newest w.rows c

-- Every commit is below what the live stream has shown, or below a boundary, or just being written.
structure Inv (s : State) : Prop where
  revs : RevsAscend s.writer.rows
  known : ∀ row ∈ s.writer.rows, row.kind.isCommit → row.rev ≤ s.liveRev row.did ∨
    row.rev ≤ s.writer.boundary row.did row.collection ∨ s.phase.Wrote row
  phase : s.phase.Sound s.writer

theorem revsAscend_snoc (h : RevsAscend rows)
    (hn : ev.kind.isCommit → Newest rows ev) : RevsAscend (rows ++ [ev]) := by
  refine pairwise_append.mpr ⟨h, pairwise_singleton _ _, fun row hr ev' he hc hc' hk => ?_⟩
  cases mem_singleton.mp he
  exact hn hc' row hr hc hk

theorem rows_push (w : Writer) (ev : Event) :
    (w.push ev).rows = w.rows ++ [{ ev with seq := w.nextSeq }] :=
  (append_assoc _ _ _).symm

theorem rows_flushRows (w : Writer) (n : ℕ) : (w.flushRows n).rows = w.rows := by
  simp [Writer.rows, Writer.flushRows]

theorem rows_flush (w : Writer) : w.flush.rows = w.rows :=
  append_nil _

section Step

variable {s t : State}

theorem Inv.init (h : Init s) : Inv s := by
  have ⟨hr, _, hp⟩ := h
  constructor
  case revs => rw [hr]; exact .nil
  case known => rw [hr]; exact nofun
  case phase => rw [hp]; trivial

theorem le_observe (h : ev.kind.isCommit → s.liveRev ev.did ≤ ev.rev) (did : String) :
    s.liveRev did ≤ s.observe ev did := by
  unfold State.observe
  split
  case isTrue hc =>
    by_cases hd : did = ev.did
    · rw [hd, update_self]
      exact h hc
    · rw [update_of_ne hd]
  · exact le_refl _

theorem Inv.push_live (h : Inv s) (hp : s.phase = .idle)
    (hl : ev.kind.isCommit → s.liveRev ev.did ≤ ev.rev)
    (hf : ev.kind.isCommit → ¬s.writer.Fenced ev) (hpol : s.writer.collectionPolicy ≠ none)
    (hr : ev.kind.isCommit → ev.rev ≠ "") :
    Inv { s with writer := s.writer.push ev, liveRev := s.observe ev } := by
  constructor
  case revs =>
    rw [rows_push]
    refine revsAscend_snoc h.revs fun hc row hrow hc' hk => ?_
    have hd : row.did = ev.did := congrArg did hk
    have hcoll : row.collection = ev.collection := congrArg collection hk
    rcases h.known row hrow hc' with hle | hle | hw
    · exact hle.trans (hd ▸ hl hc)
    · have hlt : s.writer.boundary ev.did ev.collection < ev.rev :=
        lt_of_not_ge fun hge => hf hc ⟨hpol, hr hc, hge⟩
      rw [hd, hcoll] at hle
      exact (hle.trans_lt hlt).le
    · rw [hp] at hw
      exact hw.elim
  case known =>
    intro row hrow hc
    rw [rows_push] at hrow
    obtain hrow | hrow := mem_append.mp hrow
    · exact (h.known row hrow hc).imp (·.trans (le_observe hl _)) id
    · cases mem_singleton.mp hrow
      left
      simp only [State.observe, show ev.kind.isCommit from hc, if_true, update_self]
      exact le_refl _
  case phase =>
    rw [hp]
    trivial

-- A row that is planned is newer than what the scan has seen of its record.
theorem ofSnapshot_of_planned (hs : Scanned c snap archive state)
    (hp : Planned state snap rows) (hr : row ∈ rows) :
    OfSnapshot snap row ∧ Newest archive row := by
  have hscan {x} (hx : x ∈ archive) (hcov : snap.Covers x) {v}
      (hv : state.latest.lookup x.path = some v) : x.rev ≤ v.rev := by
    have ⟨v', hv', hle⟩ := hs.tracks.complete ⟨x, hx, hcov, rfl⟩
    cases hv'.symm.trans hv
    exact (rank_le_rank.mp hle).elim le_of_lt (·.left.le)
  rcases (hp.rows row).mp hr with ⟨r, hr', ho, rfl⟩ | ⟨old, ⟨key, hl, _, _, hlt, _⟩, rfl⟩
  · have hi := inside_of_not_outside (hp.inside r hr')
    refine ⟨⟨hi.did, hi.collection, hi.rev⟩, fun x hx hc hk => ?_⟩
    have hcov : snap.Covers x := ⟨(congrArg did hk).trans hi.did, hc, by
        rw [show x.collection = r.collection from congrArg collection hk]
        exact hi.collection⟩
    have ⟨v, hv, _⟩ := hs.tracks.complete ⟨x, hx, hcov, rfl⟩
    exact (hscan hx hcov hv).trans (ho v (Event.path_eq hk ▸ hv)).le
  · have ⟨y, _, hcov, hpath, hold⟩ := hs.sound hl
    refine ⟨⟨rfl, hold ▸ hcov.right.right, rfl⟩, fun x hx hc hk => ?_⟩
    have hcoll : x.collection = old.collection := congrArg collection hk
    have hxcov : snap.Covers x := ⟨congrArg did hk, hc, by rw [hcoll, hold]; exact hcov.right.right⟩
    have hxpath : x.path = key := by
      rw [Event.path_eq hk, ←hpath, hold]
      rfl
    exact (hscan hx hxcov (hxpath ▸ hl)).trans hlt.le

theorem OfSnapshot.of_sameBody (h : OfSnapshot snap b) (hb : SameBody a b) : OfSnapshot snap a := by
  rw [hb]
  exact ⟨h.did, h.collection, h.rev⟩

theorem Newest.of_sameBody (h : Newest rows b) (hb : SameBody a b) : Newest rows a := by
  rw [hb]
  exact h

theorem Inv.start (h : Inv s) (hp : s.phase = .idle)
    (hr : replacementRows cfg s.writer.flush snap = .ok (some (rows, metadata)))
    (hc : s.writer.flush.batchCandidates cfg rows metadata = .ok cands) :
    Inv { s with writer := s.writer.flush, phase := .publishing snap cands [] } := by
  have ⟨state, hs, hplan⟩ := replacementRows_spec hr
  have hadm := batchCandidates_admitted hplan.isCommit hc
  constructor
  case revs => rw [rows_flush]; exact h.revs
  case known =>
    intro row hrow hc
    rw [rows_flush] at hrow
    rcases h.known row hrow hc with hk | hk | hk
    · exact .inl hk
    · exact .inr (.inl hk)
    · rw [hp] at hk
      exact hk.elim
  case phase =>
    refine ⟨nofun, fun c hc => ?_⟩
    have ⟨row, hrow, hb, _⟩ := hadm.sound c hc
    have ⟨ho, hn⟩ := ofSnapshot_of_planned hs hplan hrow
    rw [rows_flush]
    exact ⟨ho.of_sameBody hb, hn.of_sameBody hb⟩

theorem Inv.write (h : Inv s) (hp : s.phase = .publishing snap (c :: cands) written) : Inv { s with
      writer := s.writer.push c
      phase := .publishing snap cands (written ++ [{ c with seq := s.writer.nextSeq }]) } := by
  have hph := h.phase
  rw [hp] at hph
  have ⟨hw, hcs⟩ := hph
  have ⟨⟨ho, hn⟩, hcs⟩ := forall_mem_cons.mp hcs
  have hb : SameBody { c with seq := s.writer.nextSeq } c := rfl
  constructor
  case revs =>
    rw [rows_push]
    exact revsAscend_snoc h.revs fun _ => hn.of_sameBody hb
  case known =>
    intro row hrow hc
    rw [rows_push] at hrow
    obtain hrow | hrow := mem_append.mp hrow
    · rcases h.known row hrow hc with hk | hk | hk
      · exact .inl hk
      · exact .inr (.inl hk)
      · rw [hp] at hk
        exact .inr (.inr (mem_append_left _ hk))
    · exact .inr (.inr (mem_append_right _ hrow))
  case phase =>
    constructor
    · intro row hrow
      obtain hrow | hrow := mem_append.mp hrow
      · exact hw row hrow
      · exact mem_singleton.mp hrow ▸ ho.of_sameBody hb
    · intro c' hc'
      have ⟨ho', hn'⟩ := hcs c' hc'
      refine ⟨ho', fun row hrow hc hk => ?_⟩
      rw [rows_push] at hrow
      obtain hrow | hrow := mem_append.mp hrow
      · exact hn' row hrow hc hk
      · cases mem_singleton.mp hrow
        exact (ho.rev.trans ho'.rev.symm).le

theorem Inv.over (h : Inv s) (hrows : w.rows.Sublist s.writer.rows)
    (hle : ∀ did c, s.writer.boundary did c ≤ w.boundary did c)
    (hends : ∀ {snap cands written}, s.phase = .publishing snap cands written →
      (∀ row ∈ written, row ∉ w.rows) ∨ ∀ c ∈ snap.collections, snap.rev ≤ w.boundary snap.did c) :
    Inv { s with writer := w, phase := .idle } := by
  constructor
  case revs => exact h.revs.sublist hrows
  case phase => trivial
  case known =>
    intro row hrow hc
    rcases h.known row (hrows.subset hrow) hc with hk | hk | hk
    · exact .inl hk
    · exact .inr (.inl (hk.trans (hle _ _)))
    cases hp : s.phase with
    | idle => rw [hp] at hk; exact hk.elim
    | publishing snap cands written =>
      have hph := h.phase
      rw [hp] at hk hph
      have ho := hph.left row hk
      obtain hn | hb := hends hp
      · exact absurd hrow (hn row hk)
      · rw [ho.did, ho.rev]
        exact .inr (.inl (hb _ ho.collection))

theorem Phase.Sound.congr {phase : Phase} (h : phase.Sound w)
    (hr : w'.rows = w.rows) : phase.Sound w' := by
  cases phase with
  | idle => trivial
  | publishing _ _ _ => exact ⟨h.left, hr ▸ h.right⟩

theorem rows_reopen_sublist (w : Writer) (hn : ∀ row ∈ w.durable, row.seq < n) :
    (w.reopen n hn).rows.Sublist w.rows := by
  rw [show (w.reopen n hn).rows = w.durable from append_nil _]
  exact sublist_append_left _ _

theorem Inv.step (h : Inv s) (e : Step cfg s t) (hc : Careful s t) : Inv t := by
  cases e with
  | @live ev metadata w hp hl ha =>
    obtain hw | hw := appendAttributedLocked_spec ha
    · subst hw
      refine ⟨h.revs, fun row hr hc => ?_, h.phase⟩
      exact (h.known row hr hc).imp_left (·.trans (le_observe hl _))
    have ⟨hpush, hf⟩ := hw
    subst hpush
    refine h.push_live hp hl hf hc.policy fun hcommit hrev => ?_
    -- The row that was just numbered would have been in the archive before.
    have hmem := hc.rev hp { ev with seq := s.writer.nextSeq } (by simp [rows_push]) hcommit hrev
    exact absurd (s.writer.below _ hmem) (lt_irrefl _)
  | flush n =>
    constructor
    case revs => rw [rows_flushRows]; exact h.revs
    case known => rw [rows_flushRows]; exact h.known
    case phase => exact h.phase.congr (rows_flushRows _ n)
  | adopt _ => exact ⟨h.revs, h.known, h.phase⟩
  | start hp hr hcand => exact h.start hp hr hcand
  | write hp => exact h.write hp
  | finish _ _ =>
    exact h.over (List.Sublist.refl _) (boundary_le_persist · ·) fun hp => hc.ends hp rfl
  | abort => exact h.over (List.Sublist.refl _) (fun _ _ => le_refl _) fun hp => hc.ends hp rfl
  | crash n hn =>
    exact h.over (rows_reopen_sublist _ hn) (fun _ _ => le_refl _) fun hp => hc.ends hp rfl

end Step

-- In careful runs the revisions of a record grow with the sequence numbers, in all runs the
-- boundaries do.
theorem no_stale_write (hs : ((system cfg).restrict Careful).Reachable s)
    (ht : (system cfg).Runs s t) (did c : String) :
    RevsAscend s.writer.rows ∧ s.writer.boundary did c ≤ t.writer.boundary did c := by
  constructor
  · have h : Inv s := hs.invariant (fun _ => .init) fun _ _ _ h e => h.step e.left e.right
    exact h.revs
  · exact System.Runs.mono (f := fun s => s.writer.boundary did c)
      (fun _ _ _ e => Step.boundary_le e did c) hs.of_restrict ht

section Samples

def sampleRow : Event :=
  sampleRecord 1 .update "9" [7]

def sampleStart : State where
  writer := sampleWriter [] 1 .nil nofun
  phase := .idle
  liveRev _ := ""

def samplePublishing : State :=
  { sampleStart with
    writer := sampleStart.writer.flush
    phase := .publishing (sampleSnapshot "9" [7]) [sampleRow] [] }

def sampleWriting : State :=
  { samplePublishing with
    writer := samplePublishing.writer.push sampleRow
    phase := .publishing (sampleSnapshot "9" [7]) [] [sampleRow] }

-- The row of the snapshot is on the disk, its boundary is not in the store.
def sampleWritten : State :=
  { sampleWriting with writer := sampleWriting.writer.flushRows 1 }

def sampleCrashed : State :=
  { sampleWritten with
    writer := sampleWritten.writer.reopen 2 (by decide)
    phase := .idle }

def sampleFinished : State :=
  { sampleWritten with
    writer := sampleWritten.writer.persistSnapshotBoundary (sampleSnapshot "9" [7])
    phase := .idle }

theorem init_sampleStart : Init sampleStart :=
  ⟨rfl, rfl, rfl⟩

theorem step_sampleStart : Step sampleConfig sampleStart samplePublishing := by
  have hr : replacementRows sampleConfig sampleStart.writer.flush (sampleSnapshot "9" [7]) =
      .ok (some ([sampleRecord 0 .update "9" [7]], none)) := by decide +kernel
  exact .start rfl hr (by decide +kernel)

theorem step_samplePublishing : Step sampleConfig samplePublishing sampleWriting := by
  have hp : samplePublishing.phase = .publishing (sampleSnapshot "9" [7]) [sampleRow] [] := rfl
  exact .write hp

theorem step_sampleWriting : Step sampleConfig sampleWriting sampleWritten :=
  .flush 1

theorem reachable_sampleWritten : (system sampleConfig).Reachable sampleWritten :=
  (((System.Reachable.init init_sampleStart).step step_sampleStart).step
    step_samplePublishing).step step_sampleWriting

-- After a crash between the rows of a snapshot and its boundary, an older live row is let through.
theorem stale_write_after_crash :
    ∃ s, (system sampleConfig).Reachable s ∧ ¬RevsAscend s.writer.durable := by
  have hlive : (sampleCrashed.writer.appendAttributedLocked sampleConfig
      (sampleRecord 0 .update "7" [8]) none).map (fun w => (w.durable, w.pending)) =
      .ok ([sampleRow], [sampleRecord 2 .update "7" [8]]) := by decide +kernel
  have ⟨w, hok, hw⟩ := map_eq_ok.mp hlive
  have ⟨hd, hp⟩ := Prod.mk.inj hw
  refine ⟨_, ((reachable_sampleWritten.step (.crash 2 (by decide))).step
    (.live rfl (fun _ => by decide +kernel) hok)).step (.flush 1), ?_⟩
  simp only [Writer.flushRows, hd, hp, RevsAscend]
  decide +kernel

theorem careful_publishing (hp : s.writer.collectionPolicy ≠ none)
    (hs : s.phase = .publishing snap cands written) (ht : t.phase ≠ .idle) :
    Careful s t where
  policy := hp
  rev hi := by rw [hs] at hi; cases hi
  ends _ hi := absurd hi ht

theorem careful_idle (hp : s.writer.collectionPolicy ≠ none) (hs : s.phase = .idle)
    (hr : ∀ row ∈ t.writer.rows, row.rev ≠ "") : Careful s t where
  policy := hp
  rev _ row hrow _ he := absurd he (hr row hrow)
  ends hi := by rw [hs] at hi; cases hi

theorem no_stale_write_sample : ∃ s, ((system sampleConfig).restrict Careful).Reachable s ∧
      s.writer.rows = [sampleRow, sampleRecord 2 .update "91" [8]] ∧ RevsAscend s.writer.rows ∧
      s.writer.boundary "did:plc:a" "app.c" ≤ s.writer.boundary "did:plc:a" "app.c" := by
  have hlive : (sampleFinished.writer.appendAttributedLocked sampleConfig
      (sampleRecord 0 .update "91" [8]) none).map Writer.rows =
      .ok [sampleRow, sampleRecord 2 .update "91" [8]] := by decide +kernel
  have ⟨w, hok, hw⟩ := map_eq_ok.mp hlive
  have hpol : sampleStart.writer.collectionPolicy ≠ none := by decide
  have h₁ : ((system sampleConfig).restrict Careful).Reachable samplePublishing :=
    .step (.init init_sampleStart) ⟨step_sampleStart, careful_idle hpol rfl nofun⟩
  have h₂ := h₁.step ⟨step_samplePublishing, careful_publishing hpol rfl nofun⟩
  have h₃ := h₂.step ⟨step_sampleWriting, careful_publishing hpol rfl nofun⟩
  have h₄ : ((system sampleConfig).restrict Careful).Reachable sampleFinished := by
    refine h₃.step ⟨.finish rfl rfl, hpol, nofun, fun hp _ => .inr ?_⟩
    cases hp
    exact fun _ => rev_le_boundary_persist
  have h₅ := h₄.step ⟨.live rfl (fun _ => by decide +kernel) hok,
    careful_idle hpol rfl (by rw [hw]; decide)⟩
  exact ⟨_, h₅, hw, no_stale_write h₅ .refl _ _⟩

end Samples

end Fence

end Jetstream.Ingest
