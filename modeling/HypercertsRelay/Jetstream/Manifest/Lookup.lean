import HypercertsRelay.Library.Search
import HypercertsRelay.Jetstream.Manifest.Basic

-- Both lookups are binary searches over bounds that need not ascend: a segment sealed without rows
-- has zeros for bounds, and nothing orders the times of different segments.
namespace Jetstream.Manifest

open List

structure RetainedRow where
  seq : ℕ
  witnessedAt : ℤ

-- A sealed segment with the rows it still has. One that was sealed without rows has the bounds 0
-- and 0; one that compaction emptied keeps its own.
structure Sealed (g : Gloom) extends SegmentMetadata g where
  minWitnessedAt : ℤ
  maxWitnessedAt : ℤ
  rows : List RetainedRow
  count : header.eventCount = rows.length
  covers : ∀ r ∈ rows, header.minSeq ≤ r.seq ∧ r.seq ≤ header.maxSeq ∧
    minWitnessedAt ≤ r.witnessedAt ∧ r.witnessedAt ≤ maxWitnessedAt
  envelope : header.minSeq = 0 ∧ header.maxSeq = 0 ∧ rows = [] ∨
    1 ≤ header.minSeq ∧ header.minSeq ≤ header.maxSeq

namespace Sealed

def Zero (s : Sealed g) : Prop :=
  s.header.maxSeq = 0

def Contains (s : Sealed g) (seq : ℕ) : Prop :=
  s.header.minSeq ≤ seq ∧ seq ≤ s.header.maxSeq

variable {s : Sealed g}

theorem Zero.minSeq_eq (h : s.Zero) : s.header.minSeq = 0 := by
  obtain he | he := s.envelope
  · exact he.left
  · have : s.header.maxSeq = 0 := h
    omega

theorem Zero.rows_eq (h : s.Zero) : s.rows = [] := by
  obtain he | he := s.envelope
  · exact he.right.right
  · have : s.header.maxSeq = 0 := h
    omega

theorem bounds_of_not_zero (h : ¬s.Zero) :
    1 ≤ s.header.minSeq ∧ s.header.minSeq ≤ s.header.maxSeq :=
  s.envelope.resolve_left fun he => h he.right.left

end Sealed

def segmentForSeq (segments : List (Sealed g)) (seq : ℕ) : Option (Sealed g) :=
  let i := search (fun i => segments[i]?.any (seq ≤ ·.header.maxSeq)) 0 segments.length
  match segments[i]? with
  | none => none
  | some s => if seq < s.header.minSeq then none else some s

-- The present and the lookback are in microseconds.
def lookbackFloor (segments : List (Sealed g)) (now lookback : ℤ) : ℕ × ℤ :=
  let floorTimeUS := now - lookback
  let i := search (fun i => segments[i]?.any (floorTimeUS ≤ ·.maxWitnessedAt)) 0 segments.length
  match segments[i]? with
  | some s => (s.header.minSeq, s.minWitnessedAt)
  | none =>
    match segments.getLast? with
    | some last => (last.header.minSeq, last.minWitnessedAt)
    | none => (0, 0)

-- The segments in the order of their numbers, as they were accepted. Those that compaction empties
-- keep their bounds.
structure Listing (g : Gloom) where
  segments : List (Sealed g)
  sorted : segments.Pairwise (·.idx < ·.idx)
  accepted : validateSegmentSeqMonotonicity (segments.map (·.toSegmentMetadata)) = .ok ()
  kept : segments.Pairwise fun s s' => ¬s.Zero → ¬s'.Zero → s.header.maxSeq < s'.header.minSeq

-- Where no segment was emptied, the check alone is enough.
def Listing.ofAccepted (segments : List (Sealed g)) (sorted : segments.Pairwise (·.idx < ·.idx))
    (accepted : validateSegmentSeqMonotonicity (segments.map (·.toSegmentMetadata)) = .ok ())
    (zero : ∀ s ∈ segments, s.header.eventCount = 0 → s.Zero) : Listing g where
  segments := segments
  sorted := sorted
  accepted := accepted
  kept := by
    have hne (s : Sealed g) (h : s.header.eventCount ≠ 0) : s.header.minSeq ≤ s.header.maxSeq := by
      refine (Sealed.bounds_of_not_zero fun hz => h ?_).right
      rw [s.count, hz.rows_eq, length_nil]
    have hbelow := validateSegmentSeqMonotonicity_ok accepted <| by
      intro m hm h
      have ⟨s, _, hs⟩ := mem_map.mp hm
      exact hs ▸ hne s (hs ▸ h)
    rw [pairwise_map] at hbelow
    refine hbelow.imp_of_mem fun {s s'} hs hs' h hz hz' => ?_
    exact h (fun he => hz (zero s hs he)) fun he => hz' (zero s' hs' he)

structure LookupsExact (segments : List (Sealed g)) : Prop where
  found : ∀ seq, ∀ s ∈ segments, s.Contains seq → segmentForSeq segments seq = some s
  absent : ∀ seq, (∀ s ∈ segments, ¬s.Contains seq) → segmentForSeq segments seq = none
  floor : ∀ now lookback, ∀ s ∈ segments, ∀ r ∈ s.rows, now - lookback ≤ r.witnessedAt →
    (lookbackFloor segments now lookback).fst ≤ r.seq

-- No segment ends before the time of a row in an earlier one.
def TimesKept (segments : List (Sealed g)) : Prop :=
  segments.Pairwise fun s s' => ∀ r ∈ s.rows, r.witnessedAt ≤ s'.maxWitnessedAt

section Soundness

-- What is found contains the sequence number, in every list of segments.
theorem segmentForSeq_sound (h : segmentForSeq segments seq = some s) :
    s ∈ segments ∧ s.Contains seq := by
  simp only [segmentForSeq] at h
  split at h <;> [cases h; skip]
  case h_2 s' hs =>
    split at h <;> [cases h; skip]
    case isFalse hmin =>
      cases h
      have hlt := (List.getElem?_eq_some_iff.mp hs).choose
      have hmax := search.holds (Nat.zero_le _) hlt
      rw [hs] at hmax
      exact ⟨mem_of_getElem? hs, Nat.le_of_not_lt hmin, by simpa using hmax⟩

end Soundness

namespace Listing

variable (l : Listing g) {i k : ℕ}

theorem lt_of_lt (hs : l.segments[i]? = some s) (hs' : l.segments[k]? = some s') (h : i < k)
    (hz : ¬s.Zero) (hz' : ¬s'.Zero) : s.header.maxSeq < s'.header.minSeq := by
  have ⟨hi, hsi⟩ := List.getElem?_eq_some_iff.mp hs
  have ⟨hk, hsk⟩ := List.getElem?_eq_some_iff.mp hs'
  have hlt := pairwise_iff_getElem.mp l.kept i k hi hk h
  rw [hsi, hsk] at hlt
  exact hlt hz hz'

theorem eq_of_getElem? (hs : l.segments[i]? = some s) (hk : l.segments[k]? = some s) : i = k := by
  have ⟨hi, hsi⟩ := List.getElem?_eq_some_iff.mp hs
  have ⟨hk, hsk⟩ := List.getElem?_eq_some_iff.mp hk
  have hlt := pairwise_iff_getElem.mp l.sorted
  by_contra hne
  obtain h | h := lt_or_gt_of_ne hne
  · have := hlt i k hi hk h
    rw [hsi, hsk] at this
    exact lt_irrefl _ this
  · have := hlt k i hk hi h
    rw [hsi, hsk] at this
    exact lt_irrefl _ this

section Seq

variable (hzero : ∀ k s, l.segments[k]? = some s → s.Zero → k = 0)

include hzero in
theorem segmentForSeq_of_contains (hs : l.segments[k]? = some s) (hc : s.Contains seq) :
    segmentForSeq l.segments seq = some s := by
  have hk := (List.getElem?_eq_some_iff.mp hs).choose
  have hsearch : search (fun i => l.segments[i]?.any (seq ≤ ·.header.maxSeq)) 0
      l.segments.length = k := by
    refine search.eq_of_iff (Nat.zero_le _) hk.le fun m hm => ?_
    have hs' := getElem?_eq_getElem hm
    rw [hs']
    simp only [Option.any_some, decide_eq_true_eq]
    constructor
    case mp =>
      intro hle
      by_contra hlt
      have hz : ¬s.Zero := fun hz => by
        have := hzero k s hs hz
        omega
      by_cases hz' : (l.segments[m]).Zero
      case pos =>
        have hmax : (l.segments[m]).header.maxSeq = 0 := hz'
        have := (Sealed.bounds_of_not_zero hz).left
        have := hc.left
        omega
      case neg =>
        have := l.lt_of_lt hs' hs (by omega) hz' hz
        have := hc.left
        omega
    case mpr =>
      intro hle
      cases Nat.lt_or_eq_of_le hle with
      | inr heq =>
        subst heq
        rw [hs'] at hs
        exact Option.some.inj hs ▸ hc.right
      | inl hlt =>
        have hz' : ¬(l.segments[m]).Zero := fun hz => by
          have := hzero m _ hs' hz
          omega
        by_cases hz : s.Zero
        case pos =>
          have hmax : s.header.maxSeq = 0 := hz
          have := hc.right
          omega
        case neg =>
          have := l.lt_of_lt hs hs' hlt hz hz'
          have := (Sealed.bounds_of_not_zero hz').right
          have := hc.right
          omega
  simp only [segmentForSeq]
  rw [hsearch, hs]
  exact if_neg (Nat.not_lt.mpr hc.left)

end Seq

-- 0 lies in every segment with zeros for bounds, and its search ends at the first segment.
theorem zero_of_found
    (hfound : ∀ seq, ∀ s ∈ l.segments, s.Contains seq → segmentForSeq l.segments seq = some s)
    (hs : l.segments[k]? = some s) (hz : s.Zero) : k = 0 := by
  have hfirst := hfound 0 s (mem_of_getElem? hs) ⟨hz.minSeq_eq.le, Nat.zero_le _⟩
  have hsearch : search (fun i => l.segments[i]?.any (0 ≤ ·.header.maxSeq)) 0
      l.segments.length = 0 := by
    refine search.eq_of_iff (Nat.le_refl _) (Nat.zero_le _) fun m hm => ?_
    rw [getElem?_eq_getElem hm]
    simp
  simp only [segmentForSeq] at hfirst
  rw [hsearch] at hfirst
  split at hfirst <;> [cases hfirst; skip]
  case h_2 s₀ hs₀ =>
    split at hfirst <;> [cases hfirst; skip]
    cases hfirst
    exact l.eq_of_getElem? hs hs₀

section Time

def timeSearch (time : ℤ) : ℕ :=
  search (fun i => l.segments[i]?.any (time ≤ ·.maxWitnessedAt)) 0 l.segments.length

-- The search for a time does not pass a row that is not older.
theorem timeSearch_le (ht : TimesKept l.segments) (hs : l.segments[k]? = some s) (hr : r ∈ s.rows)
    (hle : time ≤ r.witnessedAt) : l.timeSearch time ≤ k := by
  have hself := hle.trans (s.covers r hr).right.right.right
  exact search.le_of_pairwise ht hs (decide_eq_true hself) fun s' h =>
    decide_eq_true (hle.trans (h r hr))

theorem minSeq_le_of_le (hi : l.segments[i]? = some s') (hs : l.segments[k]? = some s)
    (h : i ≤ k) (hr : r ∈ s.rows) : s'.header.minSeq ≤ r.seq := by
  have hcov := (s.covers r hr).left
  cases Nat.lt_or_eq_of_le h with
  | inr heq =>
    subst heq
    rw [hs] at hi
    exact Option.some.inj hi ▸ hcov
  | inl hlt =>
    by_cases hz' : s'.Zero
    case pos => exact hz'.minSeq_eq ▸ Nat.zero_le _
    case neg =>
      have hz : ¬s.Zero := fun hz => by simp [hz.rows_eq] at hr
      have := l.lt_of_lt hi hs hlt hz' hz
      have := (Sealed.bounds_of_not_zero hz').right
      omega

theorem floor_le (hs : l.segments[k]? = some s) (hr : r ∈ s.rows)
    (hle : l.timeSearch (now - lookback) ≤ k) :
    (lookbackFloor l.segments now lookback).fst ≤ r.seq := by
  have hk := (List.getElem?_eq_some_iff.mp hs).choose
  have ⟨s', hs'⟩ : ∃ s', l.segments[l.timeSearch (now - lookback)]? = some s' :=
    ⟨_, getElem?_eq_getElem (lt_of_le_of_lt hle hk)⟩
  have hmin := l.minSeq_le_of_le hs' hs hle hr
  rw [timeSearch] at hs'
  simp only [lookbackFloor, hs']
  exact hmin

end Time

end Listing

def lookupSegment (g : Gloom) (idx : ℕ) (minSeq maxSeq : ℕ) (rows : List RetainedRow)
    (witnessedAt : ℤ)
    (covers : ∀ r ∈ rows, minSeq ≤ r.seq ∧ r.seq ≤ maxSeq ∧ r.witnessedAt = witnessedAt)
    (envelope : minSeq = 0 ∧ maxSeq = 0 ∧ rows = [] ∨ 1 ≤ minSeq ∧ minSeq ≤ maxSeq) :
    Sealed g where
  idx := idx
  checksum := 0
  header := ⟨rows.length, minSeq, maxSeq⟩
  footerOffset := 0
  blocks := []
  segmentBloom := none
  blockBlooms := []
  collections := []
  blockCollections := []
  minWitnessedAt := witnessedAt
  maxWitnessedAt := witnessedAt
  rows := rows
  count := rfl
  covers r hr := by
    have ⟨hmin, hmax, hw⟩ := covers r hr
    exact ⟨hmin, hmax, hw.ge, hw.le⟩
  envelope := envelope

def lookupSegments (g : Gloom) : List (Sealed g) :=
  [lookupSegment g 0 1 10 [⟨5, 100⟩] 100 (by simp) (by decide),
   lookupSegment g 1 0 0 [] 0 (by simp) (.inl ⟨rfl, rfl, rfl⟩),
   lookupSegment g 2 11 20 [⟨15, 200⟩] 200 (by simp) (by decide)]

end Jetstream.Manifest
