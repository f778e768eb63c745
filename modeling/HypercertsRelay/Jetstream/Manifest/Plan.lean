import HypercertsRelay.Jetstream.Manifest.Basic

-- The snapshot planner: which segments and blocks a client has to fetch for a request.
namespace Jetstream.Manifest

abbrev KindMask := BitVec 8

namespace KindMask

def commit : KindMask := 1
def identity : KindMask := 2
def account : KindMask := 4
def sync : KindMask := 8

def all : KindMask := commit ||| identity ||| account ||| sync

-- An empty mask admits every kind.
def admits (m kind : KindMask) : Bool :=
  m == 0 || m &&& kind != 0

end KindMask

-- `after` and `before` are only given if the request has them.
structure PlanSnapshotRequest where
  kinds : KindMask
  dids : List String
  collections : List String
  collectionPrefixes : List String
  after : Option ℕ
  before : Option ℕ
  maxEntries : ℤ
  wholeSegmentThreshold : ℚ

inductive PlanMode
  | segment | blocks
  deriving DecidableEq, Repr

structure BlockRange where
  first : ℕ
  last : ℕ
  deriving DecidableEq, Repr

structure PlannedSegment where
  idx : ℕ
  checksum : ℕ
  minSeq : ℕ
  maxSeq : ℕ
  mode : PlanMode
  blocks : List BlockRange
  deriving DecidableEq, Repr

structure PlanSnapshotStats where
  segmentsExamined : ℕ := 0
  segmentsMatched : ℕ := 0
  blocksMatched : ℕ := 0
  entries : ℕ := 0
  deriving DecidableEq, Repr

structure PlanSnapshotResult where
  plannedThroughSeq : ℕ
  sealedTipSeq : ℕ
  segments : List PlannedSegment
  stats : PlanSnapshotStats
  deriving DecidableEq, Repr

def errInvalidPlanRequest := "manifest: invalid plan request"

namespace PlanSnapshotRequest

variable (req : PlanSnapshotRequest)

def collectionMatchAll : Bool :=
  req.collections.isEmpty && req.collectionPrefixes.isEmpty

def candidateMatchAll : Bool :=
  req.kinds == 0 && req.collectionMatchAll

def didMatchAll : Bool :=
  req.dids.isEmpty

def validate : Except String Unit :=
  if ∃ a ∈ req.after, ∃ b ∈ req.before, b ≤ a then
    .error errInvalidPlanRequest
  else if req.maxEntries < 0 then
    .error errInvalidPlanRequest
  else if req.wholeSegmentThreshold ≤ 0 ∨ 1 < req.wholeSegmentThreshold then
    .error errInvalidPlanRequest
  else if req.kinds &&& ~~~KindMask.all ≠ 0 then
    .error errInvalidPlanRequest
  else if !req.collectionMatchAll ∧ req.kinds ≠ 0 ∧ !req.kinds.admits .commit then
    .error errInvalidPlanRequest
  else
    .ok ()

end PlanSnapshotRequest

section Select

variable (seg : SegmentMetadata g) (req : PlanSnapshotRequest)

def segmentOverlapsSeq : Bool :=
  !(seg.blocks.isEmpty || seg.header.eventCount == 0) &&
  !req.after.any (seg.header.maxSeq ≤ ·) && !req.before.any (· < seg.header.minSeq)

def blockOverlapsSeq (block : IndexEntry) : Bool :=
  block.eventCount != 0 && !req.after.any (block.maxSeq ≤ ·) && !req.before.any (· < block.minSeq)

def sentinelCollectionAccount := "$account"
def sentinelCollectionIdentity := "$identity"
def sentinelCollectionSync := "$sync"

def sentinelKind (collection : String) : KindMask :=
  if collection = sentinelCollectionAccount then .account
  else if collection = sentinelCollectionIdentity then .identity
  else if collection = sentinelCollectionSync then .sync
  else 0

def maxUint32 := 2 ^ 32 - 1

structure CollectionCandidates where
  included : List ℕ
  sentinels : List ℕ
  allReal : Bool
  hasReal : Bool

namespace CollectionCandidates

def isEmpty (c : CollectionCandidates) : Bool :=
  c.included.isEmpty && (!c.allReal || !c.hasReal)

-- One entry of the collection table of a segment.
def add (req : PlanSnapshotRequest) (out : CollectionCandidates) (entry : ℕ × String) :
    CollectionCandidates :=
  let (id, collection) := entry
  if maxUint32 < id then
    out
  else if sentinelKind collection ≠ 0 then
    { out with
      sentinels := id :: out.sentinels
      included := if req.kinds.admits (sentinelKind collection) then id :: out.included
        else out.included }
  else if !req.kinds.admits .commit then
    out
  else if req.collectionMatchAll then
    { out with hasReal := true }
  else if collection ∈ req.collections ∨ req.collectionPrefixes.any (·.isPrefixOf collection) then
    { out with hasReal := true, included := id :: out.included }
  else
    { out with hasReal := true }

end CollectionCandidates

def collectionCandidatesForSegment : CollectionCandidates :=
  (seg.collections.zipIdx.map Prod.swap).foldl (.add req) {
    included := []
    sentinels := []
    allReal := req.collectionMatchAll && req.kinds.admits .commit
    hasReal := false }

-- Without an entry for the block there is nothing to rule it out with.
def blockHasAnyCandidate (blockIdx : ℕ) (candidates : CollectionCandidates) : Bool :=
  match seg.blockCollections[blockIdx]? with
  | none => true
  | some ids => ids.any fun id =>
    id ∈ candidates.included || candidates.allReal && id ∉ candidates.sentinels

def segmentBloomMayContainAny (dids : List String) : Bool :=
  seg.segmentBloom.all fun f => dids.any (g.testString f)

def blockBloomMayContainAny (blockIdx : ℕ) (dids : List String) : Bool :=
  match seg.blockBlooms[blockIdx]? with
  | none => true
  | some bloom => bloom.all fun f => dids.any (g.testString f)

def selectBlock (candidates : CollectionCandidates) (entry : IndexEntry × ℕ) : Bool :=
  blockOverlapsSeq req entry.1 &&
  (req.candidateMatchAll || blockHasAnyCandidate seg entry.2 candidates) &&
  (req.didMatchAll || blockBloomMayContainAny seg entry.2 req.dids)

def selectPlanBlocks : List ℕ :=
  if !req.didMatchAll && !segmentBloomMayContainAny seg req.dids then
    []
  else
    let candidates := collectionCandidatesForSegment seg req
    if !req.candidateMatchAll && candidates.isEmpty then
      []
    else
      (seg.blocks.zipIdx.filter (selectBlock seg req candidates)).map Prod.snd

end Select

def extendRange (cur : BlockRange) : List ℕ → List BlockRange
  | [] => [cur]
  | b :: bs =>
    if b = cur.last + 1 then
      extendRange { cur with last := b } bs
    else
      cur :: extendRange { first := b, last := b } bs

def coalesceBlocks : List ℕ → List BlockRange
  | [] => []
  | b :: bs => extendRange { first := b, last := b } bs

-- The page that is being filled.
structure Page where
  segments : List PlannedSegment
  stats : PlanSnapshotStats
  lastUnitMaxSeq : ℕ

section Page

variable {g : Gloom} (req : PlanSnapshotRequest)

def atCap (p : Page) : Bool :=
  0 < req.maxEntries && req.maxEntries ≤ p.stats.entries

def admitRange (seg : SegmentMetadata g) (br : BlockRange) (p : Page) : Page where
  segments := p.segments
  stats := { p.stats with
    entries := p.stats.entries + 1
    blocksMatched := p.stats.blocksMatched + (br.last - br.first + 1) }
  lastUnitMaxSeq := (seg.blocks[br.last]?).elim 0 (·.maxSeq)

-- Block ranges are admitted one by one. The flag tells whether the page was full before the end.
def admitRanges (seg : SegmentMetadata g) :
    List BlockRange → Page → List BlockRange → Page × List BlockRange × Bool
  | [], p, blocks => (p, blocks, false)
  | br :: brs, p, blocks =>
    if atCap req p then
      (p, blocks, true)
    else
      admitRanges seg brs (admitRange seg br p) (blocks ++ [br])

def plannedSegment (seg : SegmentMetadata g) (mode : PlanMode) (blocks : List BlockRange) :
    PlannedSegment where
  idx := seg.idx
  checksum := seg.checksum
  minSeq := seg.header.minSeq
  maxSeq := seg.header.maxSeq
  mode := mode
  blocks := blocks

def examine (p : Page) : Page :=
  { p with stats := { p.stats with segmentsExamined := p.stats.segmentsExamined + 1 } }

def admitSegment (seg : SegmentMetadata g) (selected : List ℕ) (p : Page) : Page where
  segments := p.segments ++ [plannedSegment seg .segment []]
  stats := { p.stats with
    entries := p.stats.entries + 1
    segmentsMatched := p.stats.segmentsMatched + 1
    blocksMatched := p.stats.blocksMatched + selected.length }
  lastUnitMaxSeq := seg.header.maxSeq

def addBlocks (seg : SegmentMetadata g) (blocks : List BlockRange) (p : Page) : Page :=
  if blocks.isEmpty then
    p
  else
    { p with
      segments := p.segments ++ [plannedSegment seg .blocks blocks]
      stats := { p.stats with segmentsMatched := p.stats.segmentsMatched + 1 } }

-- `quot` is a quotient in floating point. It decides between two ways to fetch the same blocks.
def planSegments (quot : ℕ → ℕ → ℚ) : List (SegmentMetadata g) → Page → Page × Bool
  | [], p => (p, false)
  | seg :: segs, p =>
    let p := examine p
    if !segmentOverlapsSeq seg req then
      planSegments quot segs p
    else
      let selected := selectPlanBlocks seg req
      if selected.isEmpty then
        planSegments quot segs p
      else if req.wholeSegmentThreshold ≤ quot selected.length (max seg.blocks.length 1) then
        if atCap req p then
          (p, true)
        else
          planSegments quot segs (admitSegment seg selected p)
      else
        match admitRanges req seg (coalesceBlocks selected) p [] with
        | (p, blocks, true) => (addBlocks seg blocks p, true)
        | (p, blocks, false) => planSegments quot segs (addBlocks seg blocks p)

end Page

def raiseTip (tip : ℕ) (s : SegmentMetadata g) : ℕ :=
  if tip < s.header.maxSeq then s.header.maxSeq else tip

def sealedTipSeq (segs : List (SegmentMetadata g)) (before : Option ℕ) : ℕ :=
  let tip := segs.foldl raiseTip 0
  before.elim tip fun b => if b < tip then b else tip

def planSnapshot (quot : ℕ → ℕ → ℚ) (segs : List (SegmentMetadata g))
    (req : PlanSnapshotRequest) : Except String PlanSnapshotResult := do
  req.validate
  let tip := sealedTipSeq segs req.before
  let (page, truncated) := planSegments req quot segs { segments := [], stats := {}, lastUnitMaxSeq := 0 }
  return {
    plannedThroughSeq := if truncated then page.lastUnitMaxSeq else tip
    sealedTipSeq := tip
    segments := page.segments
    stats := page.stats }

end Jetstream.Manifest
