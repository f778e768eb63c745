import HypercertsRelay.Jetstream.Manifest.Lookup

-- A cursor that is a time becomes a sequence number: first a segment and then a block in it is
-- searched for by the latest time in it, and neither of these needs to ascend.
namespace Jetstream.Manifest

open List

-- An entry of the block index and the rows of the block. Compaction keeps the bounds.
structure TimedBlock where
  minSeq : ℕ
  maxSeq : ℕ
  maxWitnessedAt : ℤ
  rows : List RetainedRow

structure Sealed.Indexed (s : Sealed g) (blocks : List TimedBlock) : Prop where
  rows : s.rows = blocks.flatMap (·.rows)
  disjoint : blocks.Pairwise (·.maxSeq < ·.minSeq)
  within : ∀ b ∈ blocks, s.header.minSeq ≤ b.minSeq ∧ b.minSeq ≤ b.maxSeq ∧
    b.maxSeq ≤ s.header.maxSeq
  ascending : ∀ b ∈ blocks, b.rows.Pairwise (·.seq < ·.seq)
  covers : ∀ b ∈ blocks, ∀ r ∈ b.rows, b.minSeq ≤ r.seq ∧ r.seq ≤ b.maxSeq ∧
    r.witnessedAt ≤ b.maxWitnessedAt

structure TimedListing (g : Gloom) extends Listing g where
  blockIndex : ℕ → List TimedBlock
  indexed : ∀ s ∈ segments, s.Indexed (blockIndex s.idx)

namespace TimedBlock

def searchTime (blocks : List TimedBlock) (timeUS : ℤ) : ℕ :=
  search (fun i => blocks[i]?.any (timeUS ≤ ·.maxWitnessedAt)) 0 blocks.length

-- The first row that is not older.
def seqForTimeUS (b : TimedBlock) (timeUS : ℤ) : ℕ :=
  match b.rows.find? (timeUS ≤ ·.witnessedAt) with
  | some r => r.seq
  | none => b.maxSeq

end TimedBlock

namespace TimedListing

variable (l : TimedListing g)

def segmentForTimeUS (timeUS : ℤ) : Option (Sealed g) :=
  l.segments[l.timeSearch timeUS]?

def seqInSegment (candidate : Sealed g) (timeUS : ℤ) : ℕ :=
  match (l.blockIndex candidate.idx)[TimedBlock.searchTime (l.blockIndex candidate.idx) timeUS]? with
  | some b => b.seqForTimeUS timeUS
  | none => candidate.header.minSeq

-- Whether the time was older than the first segment is told as well.
def translateTimeUSToSeq (timeUS : ℤ) : ℕ × Bool :=
  match l.segments.head?, l.segments.getLast? with
  | some first, some last =>
    match l.segmentForTimeUS timeUS with
    | none => (last.header.maxSeq + 1, false)
    | some candidate =>
      if timeUS ≤ first.minWitnessedAt then (first.header.minSeq, true)
      else (l.seqInSegment candidate timeUS, false)
  | _, _ => (0, false)

def NeverSkips : Prop :=
  ∀ timeUS, ∀ s ∈ l.segments, ∀ r ∈ s.rows, timeUS ≤ r.witnessedAt →
    (l.translateTimeUSToSeq timeUS).fst ≤ r.seq

-- No later segment, and no later block of the same segment, ends before the time of a row.
structure InOrder : Prop where
  segments : TimesKept l.segments
  blocks : ∀ s ∈ l.segments, (l.blockIndex s.idx).Pairwise fun b b' =>
    ∀ r ∈ b.rows, r.witnessedAt ≤ b'.maxWitnessedAt

-- Where nothing is empty, it is enough that the times of the rows do not go back.
theorem inOrder_of_rows (hs : ∀ s ∈ l.segments, s.rows ≠ [])
    (hb : ∀ s ∈ l.segments, ∀ b ∈ l.blockIndex s.idx, b.rows ≠ [])
    (ht : (l.segments.flatMap (·.rows)).Pairwise (·.witnessedAt ≤ ·.witnessedAt)) :
    l.InOrder := by
  have ⟨hin, hsegments⟩ := pairwise_flatMap.mp ht
  refine ⟨hsegments.imp_of_mem fun _ hs' h r hr => ?_, fun s hmem => ?_⟩
  · have ⟨r', hr'⟩ := exists_mem_of_ne_nil _ (hs _ hs')
    exact (h r hr r' hr').trans (Sealed.covers _ r' hr').right.right.right
  · have hi := l.indexed s hmem
    have hblocks := (pairwise_flatMap.mp (hi.rows ▸ hin s hmem)).right
    refine hblocks.imp_of_mem fun _ hb' h r hr => ?_
    have ⟨r', hr'⟩ := exists_mem_of_ne_nil _ (hb s hmem _ hb')
    exact (h r hr r' hr').trans (hi.covers _ hb' r' hr').right.right

section Seq

variable {l} {s : Sealed g} {j k : ℕ}

theorem mem_rows_of_block (hi : s.Indexed blocks) (hb : blocks[j]? = some b) (hr : r ∈ b.rows) :
    r ∈ s.rows := by
  rw [hi.rows]
  exact mem_flatMap.mpr ⟨b, mem_of_getElem? hb, hr⟩

theorem seqForTimeUS_bounds (hi : s.Indexed blocks) (hb : b ∈ blocks) (timeUS : ℤ) :
    b.minSeq ≤ b.seqForTimeUS timeUS ∧ b.seqForTimeUS timeUS ≤ b.maxSeq := by
  rw [TimedBlock.seqForTimeUS]
  split
  case h_1 r hr =>
    have := hi.covers b hb r (mem_of_find?_eq_some hr)
    exact ⟨this.left, this.right.left⟩
  case h_2 => exact ⟨(hi.within b hb).right.left, le_rfl⟩

theorem seqForTimeUS_le (hi : s.Indexed blocks) (hb : b ∈ blocks)
    (hr : r ∈ b.rows) (ht : timeUS ≤ r.witnessedAt) : b.seqForTimeUS timeUS ≤ r.seq := by
  rw [TimedBlock.seqForTimeUS]
  split
  case h_1 r' hfind =>
    have ⟨_, before, after, hrows, hbefore⟩ := find?_eq_some_iff_append.mp hfind
    have hasc := hi.ascending b hb
    rw [hrows] at hr hasc
    rcases mem_append.mp hr with hr | hr
    · simpa [ht] using hbefore r hr
    · rcases mem_cons.mp hr with rfl | hr
      · exact le_rfl
      · exact ((pairwise_cons.mp (pairwise_append.mp hasc).right.left).left r hr).le
  case h_2 hnone => simpa [ht] using find?_eq_none.mp hnone r hr

theorem seqInSegment_bounds (hs : s ∈ l.segments) (timeUS : ℤ) :
    s.header.minSeq ≤ l.seqInSegment s timeUS ∧ l.seqInSegment s timeUS ≤ s.header.maxSeq := by
  have hi := l.indexed s hs
  rw [seqInSegment]
  split
  case h_1 b hb =>
    have hb := mem_of_getElem? hb
    have := hi.within b hb
    have := seqForTimeUS_bounds hi hb timeUS
    omega
  case h_2 =>
    have := s.envelope
    omega

theorem seqInSegment_le (h : l.InOrder) (hs : s ∈ l.segments)
    (hb : (l.blockIndex s.idx)[j]? = some b) (hr : r ∈ b.rows) (ht : timeUS ≤ r.witnessedAt) :
    l.seqInSegment s timeUS ≤ r.seq := by
  have hi := l.indexed s hs
  have hmem := mem_of_getElem? hb
  have hrow := hi.covers b hmem r hr
  have hle : TimedBlock.searchTime (l.blockIndex s.idx) timeUS ≤ j :=
    search.le_of_pairwise (h.blocks s hs) hb (decide_eq_true (ht.trans hrow.right.right))
      fun b' h => decide_eq_true (ht.trans (h r hr))
  rw [seqInSegment]
  generalize TimedBlock.searchTime (l.blockIndex s.idx) timeUS = i at hle ⊢
  have ⟨hj, hbj⟩ := List.getElem?_eq_some_iff.mp hb
  split
  case h_1 b' hb' =>
    obtain hlt | heq := hle.lt_or_eq
    · have ⟨hi', heq⟩ := List.getElem?_eq_some_iff.mp hb'
      have := pairwise_iff_getElem.mp hi.disjoint i j hi' hj hlt
      have := seqForTimeUS_bounds hi (mem_of_getElem? hb') timeUS
      rw [heq, hbj] at *
      omega
    · subst heq
      cases hb.symm.trans hb'
      exact seqForTimeUS_le hi hmem hr ht
  case h_2 hnone =>
    have := getElem?_eq_none_iff.mp hnone
    omega

end Seq

theorem indexed_lookupSegment (idx seq : ℕ) (time : ℤ) (hcovers) (henvelope) :
    (lookupSegment g idx seq seq [⟨seq, time⟩] time hcovers henvelope).Indexed
      [⟨seq, seq, time, [⟨seq, time⟩]⟩] :=
  ⟨rfl, by simp, by simp [lookupSegment], by simp, by simp⟩

-- Two segments of one row each.
def sampleListing (time time' : ℤ) : TimedListing Gloom.exact where
  toListing := .ofAccepted [lookupSegment _ 0 1 1 [⟨1, time⟩] time (by simp) (by simp),
      lookupSegment _ 1 2 2 [⟨2, time'⟩] time' (by simp) (by simp)]
    (by simp [lookupSegment]) rfl (by simp [lookupSegment, Sealed.Zero])
  blockIndex
    | 0 => [⟨1, 1, time, [⟨1, time⟩]⟩]
    | _ => [⟨2, 2, time', [⟨2, time'⟩]⟩]
  indexed := by
    simp only [Listing.ofAccepted, forall_mem_cons]
    exact ⟨indexed_lookupSegment .., indexed_lookupSegment .., nofun⟩

end TimedListing

end Jetstream.Manifest
