import HypercertsRelay.Library.Numbered
import HypercertsRelay.Jetstream.Event

namespace Jetstream

open List Option

-- All that is used of a bloom filter, which belongs to another library, is that it tests positive
-- on the strings it was built from.
structure Gloom where
  Filter : Type
  ofList : List String → Filter
  testString : Filter → String → Bool
  test_ofList : ∀ {l s}, s ∈ l → testString (ofList l) s

def Gloom.exact : Gloom where
  Filter := List String
  ofList := id
  testString := fun l s => l.contains s
  test_ofList := by simp

structure BlockInfo where
  eventCount : ℕ
  minSeq : ℕ
  maxSeq : ℕ
  deriving DecidableEq, Repr

def minSeq (rows : List Event) : ℕ :=
  (rows.map (·.seq)).min?.getD 0

def maxSeq (rows : List Event) : ℕ :=
  (rows.map (·.seq)).max?.getD 0

theorem minSeq_le (h : ev ∈ rows) : minSeq rows ≤ ev.seq := by
  have hm : ev.seq ∈ rows.map (·.seq) := mem_map_of_mem h
  cases hn : (rows.map (·.seq)).min? with
  | none => simp [min?_eq_none_iff.mp hn] at hm
  | some n =>
    simp only [minSeq, hn, getD_some]
    exact (min?_eq_some_iff.mp hn).right _ hm

theorem le_maxSeq (h : ev ∈ rows) : ev.seq ≤ maxSeq rows := by
  have hm : ev.seq ∈ rows.map (·.seq) := mem_map_of_mem h
  cases hn : (rows.map (·.seq)).max? with
  | none => simp [max?_eq_none_iff.mp hn] at hm
  | some n =>
    simp only [maxSeq, hn, getD_some]
    exact (max?_eq_some_iff.mp hn).right _ hm

theorem exists_minSeq (h : rows ≠ []) : ∃ ev ∈ rows, ev.seq = minSeq rows := by
  cases hn : (rows.map (·.seq)).min? with
  | none => exact absurd (map_eq_nil_iff.mp (min?_eq_none_iff.mp hn)) h
  | some n =>
    simp only [minSeq, hn, getD_some]
    exact mem_map.mp (min?_eq_some_iff.mp hn).left

theorem exists_maxSeq (h : rows ≠ []) : ∃ ev ∈ rows, ev.seq = maxSeq rows := by
  cases hn : (rows.map (·.seq)).max? with
  | none => exact absurd (map_eq_nil_iff.mp (max?_eq_none_iff.mp hn)) h
  | some n =>
    simp only [maxSeq, hn, getD_some]
    exact mem_map.mp (max?_eq_some_iff.mp hn).left

theorem seq_bounds (h : Numbered Event.seq n rows) (hne : rows ≠ []) :
    minSeq rows = n ∧ maxSeq rows + 1 = n + rows.length := by
  have hpos : 0 < rows.length := length_pos_iff.mpr hne
  have ⟨lo, hlo, hmin⟩ := exists_minSeq hne
  have ⟨hi, hhi, hmax⟩ := exists_maxSeq hne
  have ⟨a, ha, hn⟩ := h.exists_mem (k := n) (Nat.le_refl _) (by omega)
  have ⟨b, hb, hl⟩ := h.exists_mem (k := n + rows.length - 1) (by omega) (by omega)
  have := minSeq_le ha
  have := le_maxSeq hb
  have := h.bounds hlo
  have := h.bounds hhi
  omega

structure Header where
  eventCount : ℕ
  minSeq : ℕ
  maxSeq : ℕ
  deriving DecidableEq, Repr

-- A block of a sealed segment with its index entry.
@[ext]
structure Block where
  info : BlockInfo
  events : List Event
  count : info.eventCount = events.length
  covers : ∀ ev ∈ events, info.minSeq ≤ ev.seq ∧ ev.seq ≤ info.maxSeq

-- The envelopes of the header cover the rows, and the bloom filter, if any, knows all DIDs.
structure Segment (g : Gloom) where
  header : Header
  blocks : List Block
  bloom : Option g.Filter
  count : header.eventCount = (blocks.map (·.info.eventCount)).sum
  covers : ∀ b ∈ blocks, ∀ ev ∈ b.events, header.minSeq ≤ ev.seq ∧ ev.seq ≤ header.maxSeq
  probes : ∀ b ∈ blocks, ∀ ev ∈ b.events, ev.did ≠ "" → ∀ f ∈ bloom, g.testString f ev.did

namespace Block

def ofRows (rows : List Event) : Block where
  info := ⟨rows.length, Jetstream.minSeq rows, Jetstream.maxSeq rows⟩
  events := rows
  count := rfl
  covers := fun _ hev => ⟨minSeq_le hev, le_maxSeq hev⟩

-- A rewrite keeps the envelope of a block and drops rows from it.
def filter (b : Block) (keep : Event → Bool) : Block where
  info := { b.info with eventCount := (b.events.filter keep).length }
  events := b.events.filter keep
  count := rfl
  covers := fun ev hev => b.covers ev (mem_filter.mp hev).left

end Block

namespace Segment

def rows (s : Segment g) : List Event :=
  s.blocks.flatMap (·.events)

theorem mem_rows {s : Segment g} : ev ∈ s.rows ↔ ∃ b ∈ s.blocks, ev ∈ b.events :=
  mem_flatMap

theorem covers_rows (s : Segment g) (h : ev ∈ s.rows) :
    s.header.minSeq ≤ ev.seq ∧ ev.seq ≤ s.header.maxSeq :=
  have ⟨b, hb, hev⟩ := mem_rows.mp h
  s.covers b hb ev hev

theorem eventCount_eq (s : Segment g) : s.header.eventCount = s.rows.length := by
  simp [s.count, rows, length_flatMap, Block.count]

def bloomMayContainAny (s : Segment g) (dids : List String) : Bool :=
  match s.bloom with
  | none => true
  | some f => dids.any fun did => did ≠ "" && g.testString f did

theorem bloomMayContainAny_of_mem (s : Segment g)
    (hev : ev ∈ s.rows) (hne : ev.did ≠ "") (hd : ev.did ∈ dids) : s.bloomMayContainAny dids := by
  have ⟨b, hb, hev⟩ := mem_rows.mp hev
  cases h : s.bloom <;> simp only [bloomMayContainAny, h]
  case some f => exact any_eq_true.mpr ⟨_, hd, by simpa [hne] using s.probes b hb ev hev hne f h⟩

def uniqueDIDs (rows : List Event) : List String :=
  (rows.map (·.did)).filter (· ≠ "") |>.dedup

theorem mem_uniqueDIDs {rows} (h : ev ∈ rows) (hne : ev.did ≠ "") :
    ev.did ∈ uniqueDIDs rows := by
  simp only [uniqueDIDs, mem_dedup, mem_filter, List.mem_map, decide_eq_true hne, and_true]
  exact ⟨ev, h, rfl⟩

-- The active segment is closed: the rows stay, and bounds, counts and the filter are derived.
def sealAfterFlush (g : Gloom) (blocks : List (List Event)) : Segment g where
  header := ⟨blocks.flatten.length, Jetstream.minSeq blocks.flatten, Jetstream.maxSeq blocks.flatten⟩
  blocks := blocks.map Block.ofRows
  bloom := some (g.ofList (uniqueDIDs blocks.flatten))
  count := by simp [length_flatten, Block.ofRows, Function.comp_def]
  covers := by
    intro b hb ev hev
    have ⟨rows, hr, h⟩ := mem_map.mp hb
    subst h
    have hmem : ev ∈ blocks.flatten := mem_flatten.mpr ⟨rows, hr, hev⟩
    exact ⟨minSeq_le hmem, le_maxSeq hmem⟩
  probes := by
    intro b hb ev hev hne f hf
    have ⟨rows, hr, h⟩ := mem_map.mp hb
    subst h
    cases hf
    exact g.test_ofList (mem_uniqueDIDs (mem_flatten.mpr ⟨rows, hr, hev⟩) hne)

def keepRows (s : Segment g) (keep : Event → Bool) : Segment g :=
  let blocks := s.blocks.map (·.filter keep)
  { header := { s.header with eventCount := (blocks.map (·.info.eventCount)).sum }
    blocks := blocks
    bloom := some (g.ofList (uniqueDIDs (blocks.flatMap (·.events))))
    count := rfl
    covers := by
      intro b hb ev hev
      have ⟨b', hb', h⟩ := mem_map.mp hb
      subst h
      exact s.covers b' hb' ev (mem_filter.mp hev).left
    probes := by
      intro b hb ev hev hne f hf
      cases hf
      exact g.test_ofList (mem_uniqueDIDs (mem_flatMap.mpr ⟨b, hb, hev⟩) hne) }

-- `drop` decides about one row. A segment whose filter rules out all candidates is not read, and
-- one from which nothing is dropped is left as it is.
def rewrite (s : Segment g) (drop : Event → Bool) (candidateDIDs : List String) : Segment g :=
  if candidateDIDs ≠ [] ∧ !s.bloomMayContainAny candidateDIDs then
    s
  else if s.rows.all (!drop ·) then
    s
  else
    s.keepRows (!drop ·)

@[simp]
theorem rows_sealAfterFlush (g : Gloom) (blocks : List (List Event)) :
    (sealAfterFlush g blocks).rows = blocks.flatten := by
  simp [rows, sealAfterFlush, flatMap_map, Block.ofRows, flatMap_id']

@[simp]
theorem rows_keepRows (s : Segment g) (keep : Event → Bool) :
    (s.keepRows keep).rows = s.rows.filter keep := by
  simp [rows, keepRows, flatMap_map, filter_flatMap, Block.filter]

section

variable (s : Segment g) (drop : Event → Bool) (dids : List String)

theorem rewrite_cases : s.rewrite drop dids = s ∨ s.rewrite drop dids = s.keepRows (!drop ·) := by
  simp only [rewrite]
  split <;> [skip; split] <;> simp

@[simp]
theorem rewrite_minSeq : (s.rewrite drop dids).header.minSeq = s.header.minSeq := by
  cases s.rewrite_cases drop dids <;> simp_all [keepRows]

@[simp]
theorem rewrite_maxSeq : (s.rewrite drop dids).header.maxSeq = s.header.maxSeq := by
  cases s.rewrite_cases drop dids <;> simp_all [keepRows]

-- The prefilter is harmless as long as it asks for every DID of which a row may be dropped.
theorem rows_rewrite (h : ∀ ev ∈ s.rows, drop ev → dids ≠ [] → ev.did ≠ "" ∧ ev.did ∈ dids) :
    (s.rewrite drop dids).rows = s.rows.filter (!drop ·) := by
  have hself (hk : ∀ ev ∈ s.rows, !drop ev) : s.rows.filter (!drop ·) = s.rows :=
    filter_eq_self.mpr hk
  simp only [rewrite]
  split
  case isTrue hb =>
    refine (hself fun ev hev => ?_).symm
    by_contra hd
    have ⟨hne, hmem⟩ := h ev hev (by simpa using hd) hb.left
    simp [s.bloomMayContainAny_of_mem hev hne hmem] at hb
  · split
    case isTrue hk => exact (hself <| all_eq_true.mp hk).symm
    · exact s.rows_keepRows _

end

end Segment
end Jetstream
