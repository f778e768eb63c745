import HypercertsRelay.Library.Envelope
import HypercertsRelay.Jetstream.Segment

-- What the manifest keeps about the sealed segments, and the checks they have to pass.
namespace Jetstream.Manifest

-- An entry of the block index with everything the checks read.
structure IndexEntry extends BlockInfo where
  offset : ℕ
  compressedSize : ℕ
  minWitnessedAt : ℤ
  maxWitnessedAt : ℤ
  deriving DecidableEq, Repr

structure SegmentMetadata (g : Gloom) where
  idx : ℕ
  checksum : ℕ
  header : Header
  footerOffset : ℕ
  blocks : List IndexEntry
  segmentBloom : Option g.Filter
  blockBlooms : List (Option g.Filter)
  collections : List String
  blockCollections : List (List ℕ)

def reservedHeaderBytes := 256

def errInvalidBlockIndex := "segment: invalid block index"
def errSegmentSeqOverlap := "manifest: cross-segment seq ranges out of order"

-- What is wrong with the place and the bounds of a block, when the block before it ends at `prevEnd`.
-- The footer is below 2 ^ 63 here, so that the end of a block which begins before it does not wrap.
def blockError (footerOffset i prevEnd : ℕ) (b : IndexEntry) : Option String :=
  let e := b.offset + 8 + b.compressedSize
  if footerOffset ≤ b.offset then
    some s!"{errInvalidBlockIndex}: block {i} offset {b.offset} at or past footer_offset {footerOffset}"
  else if b.offset < reservedHeaderBytes ∨ footerOffset < e then
    some s!"{errInvalidBlockIndex}: block {i} range [{b.offset}, {e}) outside [{reservedHeaderBytes}, {footerOffset})"
  else if b.offset < prevEnd then
    some s!"{errInvalidBlockIndex}: block {i} offset {b.offset} overlaps prior block ending at {prevEnd}"
  else if b.maxSeq < b.minSeq then
    some s!"{errInvalidBlockIndex}: block {i} has max_seq {b.maxSeq} < min_seq {b.minSeq}"
  else if b.maxWitnessedAt < b.minWitnessedAt then
    some s!"{errInvalidBlockIndex}: block {i} has max_witnessed_at {b.maxWitnessedAt} < min_witnessed_at {b.minWitnessedAt}"
  else
    none

-- `prevMaxSeq` is the upper bound of the last non-empty block. The bounds of a block that
-- compaction emptied say nothing any more.
def validateBlockOffsetsFrom (footerOffset : ℕ) :
    ℕ → ℕ → Option ℕ → List IndexEntry → Except String Unit
  | _, _, _, [] => .ok ()
  | i, prevEnd, prevMaxSeq, b :: bs =>
    let e := b.offset + 8 + b.compressedSize
    match blockError footerOffset i prevEnd b with
    | some err => .error err
    | none =>
      if b.eventCount = 0 then
        validateBlockOffsetsFrom footerOffset (i + 1) e prevMaxSeq bs
      else match prevMaxSeq.filter (b.minSeq ≤ ·) with
        | some p => .error s!"{errInvalidBlockIndex}: block {i} min_seq {b.minSeq} not greater than prior non-empty block max_seq {p} (blocks must be seq-disjoint and index-monotonic; the snapshot planner cursor depends on it)"
        | none => validateBlockOffsetsFrom footerOffset (i + 1) e (some b.maxSeq) bs

def validateBlockOffsets (blocks : List IndexEntry) (footerOffset : ℕ) : Except String Unit :=
  validateBlockOffsetsFrom footerOffset 0 reservedHeaderBytes none blocks

def validateSegmentSeqMonotonicityFrom :
    Option ℕ → List (SegmentMetadata g) → Except String Unit
  | _, [] => .ok ()
  | prevMaxSeq, s :: ss =>
    if s.header.eventCount = 0 then
      validateSegmentSeqMonotonicityFrom prevMaxSeq ss
    else match prevMaxSeq.filter (s.header.minSeq ≤ ·) with
      | some p => .error s!"{errSegmentSeqOverlap}: segment idx {s.idx} min_seq {s.header.minSeq} not greater than prior non-empty segment max_seq {p}"
      | none => validateSegmentSeqMonotonicityFrom (some s.header.maxSeq) ss

def validateSegmentSeqMonotonicity (segs : List (SegmentMetadata g)) :
    Except String Unit :=
  validateSegmentSeqMonotonicityFrom none segs

theorem blockError_eq_none (h : blockError footerOffset i prevEnd b = none) :
    (prevEnd ≤ b.offset ∧ reservedHeaderBytes ≤ b.offset ∧
      b.offset + 8 + b.compressedSize ≤ footerOffset) ∧
    b.minSeq ≤ b.maxSeq ∧ b.minWitnessedAt ≤ b.maxWitnessedAt := by
  simp only [blockError] at h
  grind

section Ascending

def blockEnvelope : Envelope IndexEntry where
  empty b := b.eventCount = 0
  lo b := b.minSeq
  hi b := b.maxSeq

def segmentEnvelope (g : Gloom) : Envelope (SegmentMetadata g) where
  empty s := s.header.eventCount = 0
  lo s := s.header.minSeq
  hi s := s.header.maxSeq

section Blocks

theorem validateBlockOffsetsFrom_cons
    (h : validateBlockOffsetsFrom footerOffset i prevEnd prevMaxSeq (b :: blocks) = .ok ()) :
    blockError footerOffset i prevEnd b = none ∧ ∃ prevMaxSeq',
      validateBlockOffsetsFrom footerOffset (i + 1) (b.offset + 8 + b.compressedSize) prevMaxSeq'
        blocks = .ok () ∧
      (b.eventCount = 0 ∧ prevMaxSeq' = prevMaxSeq ∨
        b.eventCount ≠ 0 ∧ (∀ p ∈ prevMaxSeq, p < b.minSeq) ∧ prevMaxSeq' = some b.maxSeq) := by
  simp only [validateBlockOffsetsFrom] at h
  cases hok : blockError footerOffset i prevEnd b <;> simp only [hok] at h
  case some => cases h
  case none =>
    refine ⟨rfl, ?_⟩
    by_cases hb : b.eventCount = 0 <;> simp only [hb, if_true, if_false] at h
    · exact ⟨_, h, .inl ⟨hb, rfl⟩⟩
    · cases hf : prevMaxSeq.filter (b.minSeq ≤ ·) <;> simp only [hf] at h
      case some => cases h
      case none => exact ⟨_, h, .inr ⟨hb, by simpa [Option.filter_eq_none_iff] using hf, rfl⟩⟩

section

variable (h : validateBlockOffsetsFrom footerOffset i prevEnd prevMaxSeq blocks = .ok ())

include h

theorem validateBlockOffsetsFrom_ok : blockEnvelope.Threaded prevMaxSeq blocks ∧
      ∀ b ∈ blocks, b.minSeq ≤ b.maxSeq ∧ b.minWitnessedAt ≤ b.maxWitnessedAt := by
  induction blocks generalizing i prevEnd prevMaxSeq with
  | nil => simp [Envelope.Threaded]
  | cons b bs ih =>
    have ⟨hok, prevMaxSeq', hrest, hcase⟩ := validateBlockOffsetsFrom_cons h
    have ⟨ht, hle⟩ := ih hrest
    refine ⟨?_, List.forall_mem_cons.mpr ⟨(blockError_eq_none hok).right, hle⟩⟩
    rcases hcase with ⟨hb, rfl⟩ | ⟨hb, hlt, rfl⟩
    · exact .inl ⟨hb, ht⟩
    · exact .inr ⟨hb, hlt, ht⟩

theorem validateBlockOffsetsFrom_ranges :
    blocks.Pairwise (fun a b => a.offset + 8 + a.compressedSize ≤ b.offset) ∧
      ∀ b ∈ blocks, prevEnd ≤ b.offset ∧ reservedHeaderBytes ≤ b.offset ∧
        b.offset + 8 + b.compressedSize ≤ footerOffset := by
  induction blocks generalizing i prevEnd prevMaxSeq with
  | nil => exact ⟨.nil, nofun⟩
  | cons b bs ih =>
    have ⟨hok, _, hrest, _⟩ := validateBlockOffsetsFrom_cons h
    have ⟨hpair, hall⟩ := ih hrest
    have hb := (blockError_eq_none hok).left
    refine ⟨.cons (fun b' hb' => (hall b' hb').left) hpair,
      List.forall_mem_cons.mpr ⟨hb, fun b' hb' => ?_⟩⟩
    have := hall b' hb'
    omega

end

end Blocks

theorem validateSegmentSeqMonotonicityFrom_ok {segs : List (SegmentMetadata g)}
    (h : validateSegmentSeqMonotonicityFrom prevMaxSeq segs = .ok ()) :
    (segmentEnvelope g).Threaded prevMaxSeq segs := by
  induction segs generalizing prevMaxSeq with
  | nil => trivial
  | cons s ss ih =>
    simp only [validateSegmentSeqMonotonicityFrom] at h
    by_cases hs : s.header.eventCount = 0 <;> simp only [hs, if_true, if_false] at h
    · exact .inl ⟨hs, ih h⟩
    cases hf : prevMaxSeq.filter (s.header.minSeq ≤ ·) <;> simp only [hf] at h
    case some => cases h
    case none =>
      have hlt : ∀ p ∈ prevMaxSeq, p < s.header.minSeq := by
        simpa [Option.filter_eq_none_iff] using hf
      exact .inr ⟨hs, hlt, ih h⟩

theorem validateBlockOffsets_ok (h : validateBlockOffsets blocks footerOffset = .ok ()) :
    blocks.Pairwise blockEnvelope.Below :=
  have ⟨ht, hle⟩ := validateBlockOffsetsFrom_ok h
  (ht.ascending fun b hb _ => (hle b hb).left).left

theorem validateSegmentSeqMonotonicity_ok {segs}
    (h : validateSegmentSeqMonotonicity segs = .ok ())
    (hle : ∀ s ∈ segs, s.header.eventCount ≠ 0 → s.header.minSeq ≤ s.header.maxSeq) :
    segs.Pairwise (segmentEnvelope g).Below :=
  ((validateSegmentSeqMonotonicityFrom_ok h).ascending hle).left

end Ascending

end Jetstream.Manifest
