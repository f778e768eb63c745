import HypercertsRelay.Library.System
import HypercertsRelay.Jetstream.Segment
import HypercertsRelay.Jetstream.Tombstone

-- One pass of the delete compactor, cut into the steps between which the process can be killed.
namespace Jetstream.Compaction

open Tombstone

structure Config where
  codec : Codec
  gloom : Gloom
  tombstoneCap : ℕ
  bloomNarrowMaxDIDs : ℕ

def defaultBloomNarrowMaxDIDs := 100000

-- The header of a segment is read once, when the pass starts, the file whenever it is opened.
abbrev Files (g : Gloom) := List (Header × Segment g)

section

variable {g : Gloom}

def raiseTarget (target : ℕ) (h : Header) : ℕ :=
  if 0 < h.eventCount ∧ target < h.maxSeq then h.maxSeq else target

def targetWatermark (headers : List Header) : ℕ :=
  headers.foldl raiseTarget 0

def listSealedCompactionSegments (segs : List (Segment g)) : List Header × ℕ :=
  let headers := segs.map (·.header)
  (headers, targetWatermark headers)

variable (c : Codec) (watermark target : ℕ)

def collectBlock (snap : Snapshot) (b : Block) : Except String Snapshot :=
  if b.info.maxSeq ≤ watermark ∨ target < b.info.minSeq then
    .ok snap
  else do
    let part ← foldRange c b.events watermark target
    return snap.merge part

-- With the end of the chunk: the last segment before the cap was met, or the target.
def collectCompactionTombstones (tombstoneCap : ℕ) :
    Files g → Snapshot → Except String (Snapshot × ℕ)
  | [], snap => .ok (snap, target)
  | (h, seg) :: fs, snap =>
    if h.maxSeq ≤ watermark ∨ target < h.minSeq then
      collectCompactionTombstones tombstoneCap fs snap
    else do
      let snap ← seg.blocks.foldlM (collectBlock c watermark target) snap
      if 0 < tombstoneCap ∧ tombstoneCap ≤ snap.length then
        return (snap, min h.maxSeq target)
      else
        collectCompactionTombstones tombstoneCap fs snap

end

def compactionCandidateDIDs (snap : Snapshot) : List String :=
  ((snap.records.keys.map (·.did)).filter (· ≠ "") ++ snap.dids.keys.filter (· ≠ "")).dedup

-- The candidates handed to the rewrite, none of them if there are too many.
def narrowedDIDs (maxDIDs : ℕ) (snap : Snapshot) : List String :=
  let maxNarrow := if maxDIDs = 0 then defaultBloomNarrowMaxDIDs else maxDIDs
  let dids := compactionCandidateDIDs snap
  if maxNarrow < dids.length then [] else dids

def dropRow (snap : Snapshot) (chunkEnd : ℕ) (ev : Event) : Bool :=
  !(chunkEnd < ev.seq) && (snap.shouldDrop ev).isSome

def rewriteSegment (cfg : Config) (snap : Snapshot) (chunkEnd : ℕ) (s : Segment cfg.gloom) :
    Segment cfg.gloom :=
  s.rewrite (dropRow snap chunkEnd) (narrowedDIDs cfg.bloomNarrowMaxDIDs snap)

-- `idle` is also where a crash leaves it. In `rewriting`, the segments in `pending` have not been
-- replaced yet; the workers take them in any order.
inductive Phase
  | idle
  | loop (headers : List Header) (target current : ℕ)
  | rewriting (headers : List Header) (target : ℕ) (snap : Snapshot) (chunkEnd : ℕ)
              (pending : List ℕ)
  | saving (headers : List Header) (target chunkEnd : ℕ)
  | committed (headers : List Header) (target current : ℕ)
  | skipped (target : ℕ)
  | done (target : ℕ)

structure State (g : Gloom) where
  segs : List (Segment g)
  watermark : Option ℕ
  phase : Phase

namespace State

-- A watermark that was never saved loads as `0`.
def loadWatermark (s : State g) : ℕ :=
  s.watermark.getD 0

theorem watermark_eq_some (s : State g) (h : s.loadWatermark = n) (hn : 0 < n) :
    s.watermark = some n := by
  cases hw : s.watermark <;> simp_all [loadWatermark]

def rows (s : State g) : List Event :=
  s.segs.flatMap (·.rows)

end State

inductive PassStep (cfg : Config) : State cfg.gloom → State cfg.gloom → Prop
  | skip {s headers target} :
    s.phase = .idle →
    listSealedCompactionSegments s.segs = (headers, target) → target ≤ s.loadWatermark →
    PassStep cfg s { s with phase := .skipped target }
  | start {s headers target} :
    s.phase = .idle →
    listSealedCompactionSegments s.segs = (headers, target) → s.loadWatermark < target →
    PassStep cfg s { s with phase := .loop headers target s.loadWatermark }
  | collect {s headers target current snap chunkEnd chunkEnd'} :
    s.phase = .loop headers target current → current < target →
    collectCompactionTombstones cfg.codec current target cfg.tombstoneCap (headers.zip s.segs)
      .empty = .ok (snap, chunkEnd) →
    chunkEnd' = (if chunkEnd ≤ current then target else chunkEnd) →
    PassStep cfg s { s with
      phase := if snap.isEmpty then .saving headers target chunkEnd'
        else .rewriting headers target snap chunkEnd' (List.range s.segs.length) }
  | collectFailed {s headers target current err} :
    s.phase = .loop headers target current → current < target →
    collectCompactionTombstones cfg.codec current target cfg.tombstoneCap (headers.zip s.segs)
      .empty = .error err →
    PassStep cfg s { s with phase := .idle }
  | rewrite {s headers target snap chunkEnd pending i seg} :
    s.phase = .rewriting headers target snap chunkEnd pending →
    i ∈ pending → s.segs[i]? = some seg →
    PassStep cfg s { s with
      segs := s.segs.set i (rewriteSegment cfg snap chunkEnd seg)
      phase := .rewriting headers target snap chunkEnd (pending.erase i) }
  | applied {s headers target snap chunkEnd} :
    s.phase = .rewriting headers target snap chunkEnd [] →
    PassStep cfg s { s with phase := .saving headers target chunkEnd }
  | save {s headers target chunkEnd} :
    s.phase = .saving headers target chunkEnd →
    PassStep cfg s { s with watermark := some chunkEnd, phase := .committed headers target chunkEnd }
  | next {s headers target current} :
    s.phase = .committed headers target current →
    PassStep cfg s { s with phase := .loop headers target current }
  | finish {s headers target current} :
    s.phase = .loop headers target current → target ≤ current →
    PassStep cfg s { s with phase := .done target }

-- The process can be killed and started again between any two of them.
inductive Step (cfg : Config) : State cfg.gloom → State cfg.gloom → Prop
  | pass {s t} : PassStep cfg s t → Step cfg s t
  | restart {s} : Step cfg s { s with phase := .idle }

end Jetstream.Compaction
