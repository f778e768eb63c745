import HypercertsRelay.Jetstream.Sealed.Reader

-- What is gathered from the rows of the blocks for the footer.
namespace Jetstream.Sealed

open List

-- The table of the collections, and the numbers of those of the block at hand.
structure Interned where
  stringTable : List Bytes
  eventCounts : List UInt32
  ids : List ℕ

-- The collections to list for an event, and whether it counts there.
def marks (ev : Event) : List (Bytes × Bool) :=
  [(ev.collection, true), (didMarkerSentinel ev.kind, false)].filter (·.1 ≠ [])

namespace Interned

-- A collection gets its number when it is first seen.
def enter (s : Interned) (collection : Bytes) : Except String Interned :=
  if collection ∈ s.stringTable then .ok s else do
    require (s.stringTable.length < 2 ^ 32 - 1)
      s!"{errInvalidFooter}: too many distinct collections"
    return { s with
      stringTable := s.stringTable ++ [collection]
      eventCounts := s.eventCounts ++ [0] }

def note (s : Interned) (mark : Bytes × Bool) : Interned :=
  let id := s.stringTable.idxOf mark.1
  { s with
    eventCounts := if mark.2 then s.eventCounts.modify id (· + 1) else s.eventCounts
    ids := s.ids.insert id }

def internCollection (s : Interned) (mark : Bytes × Bool) : Except String Interned := do
  let s ← s.enter mark.1
  return s.note mark

def indexEventCollection (s : Interned) (ev : Event) : Except String Interned :=
  (marks ev).foldlM internCollection s

-- The table after the marks that were made so far, of which those in `block` are of this block.
structure Lists (s : Interned) (all block : List (Bytes × Bool)) : Prop where
  nodup : s.stringTable.Nodup
  covers : ∀ m ∈ all, m.1 ∈ s.stringTable
  subset : ∀ m ∈ block, m ∈ all
  length : s.eventCounts.length = s.stringTable.length
  counts : ∀ (i : ℕ) (c : Bytes), s.stringTable[i]? = some c →
    s.eventCounts[i]? = some (UInt32.ofNat (all.countP (· = (c, true))))
  ids : ∀ i : ℕ, i ∈ s.ids ↔ ∃ c, s.stringTable[i]? = some c ∧ ∃ m ∈ block, m.1 = c

variable {s : Interned} {all block : List (Bytes × Bool)}

theorem Lists.append (h : s.Lists all block) (hc : c ∉ s.stringTable) : Lists { s with
    stringTable := s.stringTable ++ [c]
    eventCounts := s.eventCounts ++ [0] } all block where
  nodup := h.nodup.append (nodup_singleton c) (disjoint_singleton.mpr hc)
  covers := fun m hm => mem_append_left _ (h.covers m hm)
  subset := h.subset
  length := by simp [h.length]
  counts := by
    intro i c' hi
    -- No mark was made for the collection so far.
    rw [getElem?_append] at hi ⊢
    by_cases hlt : i < s.stringTable.length
    · rw [if_pos hlt] at hi
      rw [if_pos (h.length ▸ hlt), h.counts i c' hi]
    rw [if_neg hlt, getElem?_singleton] at hi
    rw [if_neg (h.length ▸ hlt), getElem?_singleton, h.length]
    split at hi
    case isFalse => cases hi
    case isTrue hz =>
      cases hi
      have hzero : all.countP (· = (c, true)) = 0 := by
        rw [countP_eq_zero]
        intro m hm hmc
        have hcovers := h.covers m hm
        rw [decide_eq_true_eq.mp hmc] at hcovers
        exact hc hcovers
      rw [if_pos hz, hzero]
      rfl
  ids := by
    intro i
    rw [h.ids]
    refine exists_congr fun c' => and_congr_left fun ⟨m, hm, hmc⟩ => ?_
    have hmem : c' ∈ s.stringTable := hmc ▸ h.covers m (h.subset m hm)
    rw [getElem?_append]
    by_cases hlt : i < s.stringTable.length
    · rw [if_pos hlt]
    · rw [if_neg hlt, getElem?_singleton, getElem?_eq_none (Nat.not_lt.mp hlt)]
      simp only [reduceCtorEq, false_iff, Option.ite_none_right_eq_some, Option.some.injEq, not_and]
      exact fun _ hcc => hc (hcc ▸ hmem)

theorem Lists.note (h : s.Lists all block) (hmem : mark.1 ∈ s.stringTable) :
    (s.note mark).Lists (all ++ [mark]) (block ++ [mark]) := by
  have hid : s.stringTable[s.stringTable.idxOf mark.1]? = some mark.1 := getElem?_idxOf hmem
  have hinj {i} {c'} (hi : s.stringTable[i]? = some c') :
      s.stringTable.idxOf mark.1 = i ↔ mark.1 = c' := by
    constructor
    · rintro rfl
      exact Option.some.inj (hid.symm.trans hi)
    · rintro rfl
      have ⟨hlt, hget⟩ := List.getElem?_eq_some_iff.mp hi
      rw [←hget, h.nodup.idxOf_getElem]
  refine ⟨h.nodup, ?_, ?_, ?_, ?_, ?_⟩
  · intro m hm
    rcases mem_append.mp hm with hm | hm
    · exact h.covers m hm
    · rwa [mem_singleton.mp hm]
  · intro m hm
    rcases mem_append.mp hm with hm | hm
    · exact mem_append_left _ (h.subset m hm)
    · exact mem_append_right _ hm
  · simp only [Interned.note]
    split <;> simp [h.length]
  · intro i c' hi
    have hold := h.counts i c' hi
    have ⟨c, count⟩ := mark
    simp only [Interned.note, countP_append, countP_singleton, decide_eq_true_eq, Prod.mk.injEq]
    cases count with
    | false => simpa using hold
    | true =>
      simp only [if_true, getElem?_modify, hold, hinj hi, and_true]
      by_cases hc : c = c'
      · simp [hc, UInt32.ofNat_add]
      · simp [hc]
  · intro i
    simp only [Interned.note, mem_insert_iff, h.ids, mem_append, mem_singleton]
    constructor
    · rintro (rfl | ⟨c', hc', m, hm, hmc⟩)
      · exact ⟨_, hid, mark, .inr rfl, rfl⟩
      · exact ⟨c', hc', m, .inl hm, hmc⟩
    · rintro ⟨c', hc', m, hm | rfl, hmc⟩
      · exact .inr ⟨c', hc', m, hm, hmc⟩
      · exact .inl ((hinj hc').mpr hmc).symm

-- The table has no other collections.
def Only (s : Interned) (all : List (Bytes × Bool)) : Prop :=
  ∀ c ∈ s.stringTable, ∃ m ∈ all, m.1 = c

section Bounded

-- All the collections there are.
variable {T : List Bytes} (hlen : T.length ≤ 2 ^ 32 - 1)

theorem Lists.length_le (h : s.Lists all block) (honly : s.Only all) (hT : ∀ m ∈ all, m.1 ∈ T) :
    s.stringTable.length ≤ T.length := by
  refine (subperm_of_subset h.nodup fun c hc => ?_).length_le
  have ⟨m, hm, hmc⟩ := honly c hc
  exact hmc ▸ hT m hm

include hlen

theorem Lists.internCollection (h : s.Lists all block) (honly : s.Only all)
    (hT : ∀ m ∈ all, m.1 ∈ T) (hmark : mark.1 ∈ T) : ∃ t, s.internCollection mark = .ok t ∧
      t.Lists (all ++ [mark]) (block ++ [mark]) ∧ t.Only (all ++ [mark]) ∧
      s.stringTable <+: t.stringTable := by
  have honly' : ∀ c ∈ s.stringTable, ∃ m ∈ all ++ [mark], m.1 = c := fun c hc =>
    have ⟨m, hm, hmc⟩ := honly c hc
    ⟨m, mem_append_left _ hm, hmc⟩
  by_cases hmem : mark.1 ∈ s.stringTable
  · refine ⟨s.note mark, ?_, h.note hmem, honly', prefix_refl _⟩
    simp [Interned.internCollection, enter, hmem]
  have hlists := (h.append hmem).note (mem_append_right _ (.head _))
  have honly'' : ∀ c ∈ s.stringTable ++ [mark.1], ∃ m ∈ all ++ [mark], m.1 = c := by
    intro c hc
    rcases mem_append.mp hc with hc | hc
    · exact honly' c hc
    · exact ⟨mark, mem_append_right _ (.head _), (mem_singleton.mp hc).symm⟩
  have hle := hlists.length_le honly'' (forall_mem_append.mpr ⟨hT, by simpa using hmark⟩)
  refine ⟨_, ?_, hlists, honly'', prefix_append ..⟩
  have hlt : s.stringTable.length < 2 ^ 32 - 1 := by
    simp only [Interned.note, length_append, length_singleton] at hle
    omega
  simp only [Interned.internCollection, enter, if_neg hmem, require, if_pos hlt]
  rfl

variable {events : List Event}

theorem Lists.indexEvents (h : s.Lists all []) (honly : s.Only all) (hT : ∀ m ∈ all, m.1 ∈ T)
    (hT' : ∀ m ∈ events.flatMap marks, m.1 ∈ T) :
    ∃ t, events.foldlM indexEventCollection s = .ok t ∧
      t.Lists (all ++ events.flatMap marks) (events.flatMap marks) ∧
      t.Only (all ++ events.flatMap marks) ∧ s.stringTable <+: t.stringTable := by
  have hflat (s : Interned) : events.foldlM indexEventCollection s =
      (events.flatMap marks).foldlM Interned.internCollection s := by
    clear h honly hT hT'
    induction events generalizing s with
    | nil => rfl
    | cons ev events ih =>
      rw [foldlM_cons, flatMap_cons, foldlM_append]
      exact congrArg _ (funext ih)
  rw [hflat]
  have hrun : ∃ t, (events.flatMap marks).foldlM Interned.internCollection s = .ok t ∧
      t.Lists (all ++ events.flatMap marks) (events.flatMap marks) ∧
      t.Only (all ++ events.flatMap marks) ∧ s.stringTable <+: t.stringTable ∧
      ∀ m ∈ events.flatMap marks, m.1 ∈ T := by
    apply Except.foldlM_progress (P := fun (done : List (Bytes × Bool)) (t : Interned) =>
      t.Lists (all ++ done) done ∧ t.Only (all ++ done) ∧ s.stringTable <+: t.stringTable ∧ ∀ m ∈ done, m.1 ∈ T)
    · exact ⟨by rwa [append_nil], by rwa [append_nil], prefix_refl _, nofun⟩
    rintro done m t hm ⟨hlists, honly', hgrow, hdone⟩
    have hT'' : ∀ m ∈ all ++ done, m.1 ∈ T := fun m hm => (mem_append.mp hm).elim (hT m) (hdone m)
    have ⟨t', ht', hlists', honly'', hgrow'⟩ := hlists.internCollection hlen honly' hT'' (hT' m hm)
    rw [append_assoc] at hlists' honly''
    refine ⟨t', ht', hlists', honly'', hgrow.trans hgrow', fun m' hm' => ?_⟩
    rcases mem_append.mp hm' with hm' | hm'
    · exact hdone m' hm'
    · exact mem_singleton.mp hm' ▸ hT' m hm
  have ⟨t, ht, hlists, honly', hgrow, _⟩ := hrun
  exact ⟨t, ht, hlists, honly', hgrow⟩

end Bounded

end Interned

section Marks

theorem map_fst_marks (ev : Event) : (marks ev).map Prod.fst = collectionsOf ev := by
  by_cases hnil : ev.collection = [] <;> by_cases hs : didMarkerSentinel ev.kind = [] <;>
    simp [marks, collectionsOf, hnil, hs]

theorem exists_mem_marks {rows : List Event} :
    (∃ m ∈ rows.flatMap marks, m.1 = c) ↔ ∃ ev ∈ rows, c ∈ collectionsOf ev := by
  simp only [mem_flatMap, ←map_fst_marks, mem_map]
  exact ⟨fun ⟨m, ⟨ev, hev, hm⟩, hc⟩ => ⟨ev, hev, m, hm, hc⟩,
    fun ⟨ev, hev, m, hm, hc⟩ => ⟨m, ⟨ev, hev, hm⟩, hc⟩⟩

theorem countP_marks (rows : List Event) (c : Bytes) :
    UInt32.ofNat ((rows.flatMap marks).countP (· = (c, true))) = collectionEventCount rows c := by
  congr 1
  induction rows with
  | nil => rfl
  | cons ev rows ih =>
    rw [flatMap_cons, countP_append, countP_cons, ih, add_comm]
    by_cases hnil : ev.collection = [] <;> by_cases hs : didMarkerSentinel ev.kind = [] <;>
      by_cases hc : ev.collection = c <;> simp_all [marks]

end Marks

structure BlockWalkResult where
  uniqueDIDs : List Bytes
  perBlockDIDs : List (List Bytes)
  perBlockCollections : List (List ℕ)
  collectionStringTable : List Bytes
  collectionEventCounts : List UInt32
  totalEventCount : UInt32

namespace BlockWalkResult

def empty : BlockWalkResult :=
  ⟨[], [], [], [], [], 0⟩

def interned (w : BlockWalkResult) : Interned :=
  ⟨w.collectionStringTable, w.collectionEventCounts, []⟩

def accumulateRewriteBlock (w : BlockWalkResult) (events : List Event) :
    Except String BlockWalkResult := do
  let s ← events.foldlM Interned.indexEventCollection w.interned
  return {
    uniqueDIDs := events.foldl addDID w.uniqueDIDs
    perBlockDIDs := w.perBlockDIDs ++ [Sealed.uniqueDIDs events]
    perBlockCollections := w.perBlockCollections ++ [s.ids.mergeSort]
    collectionStringTable := s.stringTable
    collectionEventCounts := s.eventCounts
    totalEventCount := w.totalEventCount + .ofNat events.length }

-- The numbers are those of the collections of the rows.
structure Indexes (table : List Bytes) (events : List Event) (ids : List ℕ) : Prop where
  covers : ∀ m ∈ events.flatMap marks, m.1 ∈ table
  ids : ∀ i : ℕ, i ∈ ids ↔ ∃ c, table[i]? = some c ∧ ∃ m ∈ events.flatMap marks, m.1 = c

structure Describes (w : BlockWalkResult) (blocks : List (List Event)) : Prop where
  uniqueDIDs : w.uniqueDIDs = Sealed.uniqueDIDs blocks.flatten
  perBlockDIDs : w.perBlockDIDs = blocks.map Sealed.uniqueDIDs
  total : w.totalEventCount = .ofNat blocks.flatten.length
  lists : w.interned.Lists (blocks.flatten.flatMap marks) []
  only : w.interned.Only (blocks.flatten.flatMap marks)
  collections : List.Forall₂ (Indexes w.collectionStringTable) blocks w.perBlockCollections

theorem describes_empty : empty.Describes [] where
  uniqueDIDs := rfl
  perBlockDIDs := rfl
  total := rfl
  lists := ⟨nodup_nil, nofun, nofun, rfl, nofun, by simp [interned, empty]⟩
  only := nofun
  collections := .nil

-- The numbers that were given stay when the table grows.
theorem Indexes.mono {ids}
    (h : Indexes table events ids) (hgrow : table <+: table') (hnodup : table'.Nodup) :
    Indexes table' events ids := by
  refine ⟨fun m hm => hgrow.subset (h.covers m hm), fun i => ?_⟩
  rw [h.ids i]
  refine exists_congr fun c => and_congr_left fun ⟨m, hm, hmc⟩ => ?_
  obtain ⟨rest, rfl⟩ := hgrow
  have hmem : c ∈ table := hmc ▸ h.covers m hm
  rw [getElem?_append]
  by_cases hlt : i < table.length
  · rw [if_pos hlt]
  · rw [if_neg hlt, getElem?_eq_none (Nat.not_lt.mp hlt)]
    refine ⟨nofun, fun hi => ?_⟩
    exact absurd (mem_of_getElem? hi) (disjoint_of_nodup_append hnodup hmem)

variable {blocks : List (List Event)} {T : List Bytes}

theorem Describes.accumulate {w : BlockWalkResult}
    (hlen : T.length ≤ 2 ^ 32 - 1) (h : w.Describes blocks)
    (hT : ∀ m ∈ blocks.flatten.flatMap marks, m.1 ∈ T) (hT' : ∀ m ∈ events.flatMap marks, m.1 ∈ T) :
    ∃ t, w.accumulateRewriteBlock events = .ok t ∧ t.Describes (blocks ++ [events]) := by
  obtain ⟨s, hs, hlists, honly, hgrow⟩ := h.lists.indexEvents hlen h.only hT hT'
  have hflat : (blocks ++ [events]).flatten.flatMap marks =
      blocks.flatten.flatMap marks ++ events.flatMap marks := by simp
  refine ⟨_, Except.bind_eq_ok.mpr ⟨s, hs, rfl⟩, ?_, ?_, ?_, ?_, ?_, ?_⟩
  · simp [h.uniqueDIDs, Sealed.uniqueDIDs]
  · simp [h.perBlockDIDs]
  · simp [h.total, UInt32.ofNat_add]
  · rw [hflat]
    exact ⟨hlists.nodup, hlists.covers, by simp, hlists.length, hlists.counts, by simp [interned]⟩
  · rw [hflat]
    exact honly
  · refine rel_append (h.collections.imp fun _ _ hi => hi.mono hgrow hlists.nodup)
      (.cons ⟨fun m hm => hlists.covers m (mem_append_right _ hm), fun i => ?_⟩ .nil)
    rw [mem_mergeSort]
    exact hlists.ids i

theorem exists_describes (hlen : T.length ≤ 2 ^ 32 - 1)
    (hT : ∀ rows ∈ blocks, ∀ m ∈ rows.flatMap marks, m.1 ∈ T) :
    ∃ w, blocks.foldlM accumulateRewriteBlock empty = .ok w ∧ w.Describes blocks := by
  have hrun : ∃ w, blocks.foldlM accumulateRewriteBlock empty = .ok w ∧ w.Describes blocks ∧
      ∀ rows ∈ blocks, ∀ m ∈ rows.flatMap marks, m.1 ∈ T := by
    apply Except.foldlM_progress (P := fun (done : List (List Event)) (w : BlockWalkResult) =>
      w.Describes done ∧ ∀ rows ∈ done, ∀ m ∈ rows.flatMap marks, m.1 ∈ T)
    · exact ⟨describes_empty, nofun⟩
    rintro done rows w hrows ⟨hw, hdone⟩
    have hflat : ∀ m ∈ done.flatten.flatMap marks, m.1 ∈ T := by
      intro m hm
      have ⟨ev, hev, hm⟩ := mem_flatMap.mp hm
      have ⟨rows', hrows', hev⟩ := mem_flatten.mp hev
      exact hdone rows' hrows' m (mem_flatMap.mpr ⟨ev, hev, hm⟩)
    have ⟨t, ht, h⟩ := hw.accumulate hlen hflat (hT rows hrows)
    refine ⟨t, ht, h, fun rows' hrows' => ?_⟩
    rcases mem_append.mp hrows' with hrows' | hrows'
    · exact hdone rows' hrows'
    · exact mem_singleton.mp hrows' ▸ hT rows hrows
  have ⟨w, hw, h, _⟩ := hrun
  exact ⟨w, hw, h⟩

end BlockWalkResult

end Jetstream.Sealed
