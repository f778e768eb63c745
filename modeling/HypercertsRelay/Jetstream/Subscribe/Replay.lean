import HypercertsRelay.Library.System
import HypercertsRelay.Jetstream.Subscribe.Archive
import HypercertsRelay.Jetstream.Subscribe.Walk

-- One reader that follows the archive from a cursor on. It looks at the manifest, at a segment file
-- and at the active segment one after the other, and the archive changes in between.
namespace Jetstream.Subscribe

open List
open Ingest

structure SegmentBounds where
  idx : ℕ
  minSeq : ℕ
  maxSeq : ℕ
  deriving DecidableEq, Repr

-- The upper bounds ascend, so that the binary search finds the first that is not below `seq`.
def segmentForSeq (manifest : List Listed) (seq : ℕ) : Option SegmentBounds :=
  let i := manifest.findIdx (seq ≤ ·.maxSeq)
  match manifest[i]? with
  | none => none
  | some m => if seq < m.minSeq then none else some ⟨i, m.minSeq, m.maxSeq⟩

-- The rows from the first block on that reaches up to `seq`.
def flushedRangeFromSeq (active : List (List Event)) (seq : ℕ) : Option (List Event) :=
  match active.dropWhile (maxSeq · < seq) with
  | [] => none
  | blocks => some blocks.flatten

-- The state of a walk below `stop`.
structure Scan where
  stop : ℕ
  max : ℕ
  passStart : ℕ
  noProgress : ℕ
  walk : Walk
  deriving DecidableEq, Repr

-- Where the reader is between two looks at the archive.
inductive Pc
  | idle
  | cold (max : ℕ)
  | sweep (c : Scan)
  | found (c : Scan) (b : SegmentBounds)
  | indexed (c : Scan) (b : SegmentBounds) (blocks : List BlockInfo)
  | active (c : Scan)
  | range (c : Scan) (idx : ℕ) (rows : List Event)
  deriving DecidableEq, Repr

structure Reader where
  cursor : ℕ
  pc : Pc
  delivered : List Event
  failures : ℕ
  deriving DecidableEq, Repr

namespace Reader

-- A read that fails delivers nothing and leaves the cursor where it was.
def fail (r : Reader) : Reader :=
  { r with pc := .idle, failures := r.failures + 1 }

-- The cursor goes behind the last row of a batch.
def deliver (r : Reader) (batch : List Event) (otherwise : ℕ) : Reader :=
  { r with
    pc := .idle
    delivered := r.delivered ++ batch
    cursor := match batch.getLast? with
      | some ev => ev.seq + 1
      | none => otherwise }

def finish (r : Reader) (stop : ℕ) (batch : List Event) : Reader :=
  r.deliver batch (if r.cursor < stop then stop else r.cursor)

def endPass (r : Reader) (c : Scan) : Reader :=
  if c.stop ≤ c.walk.current then
    r.finish c.stop c.walk.batch
  else if c.walk.current = c.passStart then
    if 2 ≤ c.noProgress + 1 then r.fail
    else { r with pc := .sweep { c with noProgress := c.noProgress + 1 } }
  else
    { r with pc := .sweep { c with passStart := c.walk.current, noProgress := 0 } }

-- A segment that was read to its end is left behind, with all the numbers it once had.
def leaveSegment (r : Reader) (c : Scan) (b : SegmentBounds) (w : Walk) : Reader :=
  let next := if w.current ≤ b.maxSeq then b.maxSeq + 1 else w.current
  { r with pc := .sweep { c with walk := { w with current := next } } }

-- The next step of the reader, unless it has to wait for the lock of the writer.
def step (a : Archive g) (max : ℕ) (r : Reader) : Option Reader :=
  match r.pc with
  | .idle =>
    match a.log.readCommittedFrom r.cursor max with
    | .atTip => some r
    | .cold => some { r with pc := .cold max }
    | .entries es => some (r.deliver es r.cursor)
  | .cold max =>
    some { r with pc := .sweep ⟨a.log.floorSeq, max, r.cursor, 0, ⟨r.cursor, []⟩⟩ }
  | .sweep c =>
    if c.stop ≤ c.walk.current then
      some { r with pc := .active c }
    else match segmentForSeq a.manifest c.walk.current with
      | none => some { r with pc := .active c }
      | some b => some { r with pc := .found c b }
  | .found c b =>
    match a.manifest[b.idx]? with
    | none => some r.fail
    | some m => some { r with pc := .indexed c b m.blocks }
  | .indexed c b blocks =>
    match a.sealed[b.idx]? with
    | none => some r.fail
    | some seg =>
      match c.walk.walkSealedSegment c.stop c.max (blocks.zip (seg.blocks.map (·.events))) with
      | .more w | .halt w => some (r.leaveSegment c b w)
      | .full w => some (r.finish c.stop w.batch)
  | .active c =>
    if a.rotation ≠ .none then
      none
    else match flushedRangeFromSeq a.active c.walk.current with
      | none => some (r.endPass c)
      | some rows => some { r with pc := .range c a.sealed.length rows }
  | .range c idx rows =>
    -- The file has been sealed since: the next pass finds it in the manifest.
    if idx < a.sealed.length then
      some (r.endPass c)
    else match c.walk.walkActiveRange c.stop c.max rows with
      | .more w | .halt w => some (r.endPass { c with walk := w })
      | .full w => some (r.finish c.stop w.batch)

end Reader

section Lookup

theorem segmentForSeq_some (h : segmentForSeq manifest seq = some b) :
    ∃ m, manifest[b.idx]? = some m ∧ m.minSeq = b.minSeq ∧ m.maxSeq = b.maxSeq ∧
      b.minSeq ≤ seq ∧ seq ≤ b.maxSeq := by
  simp only [segmentForSeq] at h
  split at h <;> [cases h; split at h <;> [cases h; skip]]
  case h_2.isFalse m hm hmin =>
    cases h
    have ⟨hlt, heq⟩ := List.getElem?_eq_some_iff.mp hm
    have hmax := findIdx_getElem (w := hlt)
    rw [heq, decide_eq_true_iff] at hmax
    exact ⟨m, hm, rfl, rfl, Nat.le_of_not_lt hmin, hmax⟩

theorem flushedRangeFromSeq_subset
    (h : flushedRangeFromSeq active seq = some rows) : rows ⊆ active.flatten := by
  simp only [flushedRangeFromSeq] at h
  split at h <;> cases h
  intro ev hev
  have ⟨block, hb, hev⟩ := mem_flatten.mp hev
  exact mem_flatten.mpr ⟨block, (dropWhile_suffix _).subset hb, hev⟩

-- The index of the manifest fits the blocks of the file, whichever generation of it was opened.
theorem zip_blocks {infos : List BlockInfo} {blocks : List Block}
    (h : blocks.map (·.info.maxSeq) = infos.map (·.maxSeq)) :
    (infos.zip (blocks.map (·.events))).flatMap (·.2) = blocks.flatMap (·.events) ∧
    ∀ p ∈ infos.zip (blocks.map (·.events)), ∀ ev ∈ p.2, ev.seq ≤ p.1.maxSeq := by
  induction infos generalizing blocks with
  | nil => simp_all
  | cons info infos ih =>
    cases blocks with
    | nil => simp at h
    | cons block blocks =>
      simp only [map_cons, List.cons.injEq] at h
      have ⟨hrows, hmax⟩ := ih h.right
      simp only [map_cons, zip_cons_cons, flatMap_cons, hrows, true_and]
      refine forall_mem_cons.mpr ⟨fun ev hev => ?_, hmax⟩
      exact h.left ▸ (block.covers ev hev).right

end Lookup
end Jetstream.Subscribe
