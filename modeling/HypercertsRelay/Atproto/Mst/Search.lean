import HypercertsRelay.Atproto.Mst.Layer

namespace Atproto.Mst

open List
open NodeEntry Ascending Mst

variable {sub : NodeEntry Cid → Pairs Cid → Prop}

section Entries

theorem isAbove_value {k v d} : isAbove key (value k v d : NodeEntry Cid) ↔ k ≠ [] ∧ key < k := by
  simp [isAbove]

theorem skipsChild_value {k v d} : skipsChild key (value k v d :: R : List (NodeEntry Cid)) ↔
    k ≠ [] ∧ k < key := by
  simp [skipsChild, isBelow]

theorem After.not_skipsChild (hb : After H sub h key B lb) : ¬skipsChild key B := by
  cases hb with
  | nil => simp [skipsChild]
  | value _ _ hle _ => simp [skipsChild, isBelow, hle.not_gt]

end Entries

-- What the loops do with the entries before the key: they pass them by.
section Before

variable (ha : Before H sub h key A la)

include ha

theorem Before.existingChild : existingChild key i idx (A ++ R) =
      existingChild key (i + A.length) (if A = [] then idx else none) R := by
  induction ha generalizing i idx with
  | nil => rfl
  | value hk _ hlt _ ih =>
    simp only [cons_append, Mst.existingChild, hk, hlt.not_ge, ih, length_cons]
    simp only [if_false, ite_self, reduceCtorEq]
    congr 1
    omega
  | @child e _ _ _ _ _ _ he _ hk _ hlt _ ih =>
    cases e <;> simp only [isChild, Bool.false_eq_true] at he
    all_goals
      simp only [cons_append, Mst.existingChild, hk, hlt.not_ge, ih, length_cons]
      simp only [if_false, ite_self, reduceCtorEq]
      congr 1
      omega

theorem Before.insertionIndex :
    insertionIndex key i (A ++ R) = insertionIndex key (i + A.length) R := by
  induction ha generalizing i with
  | nil => rfl
  | value _ _ hlt _ ih =>
    simp only [cons_append, Mst.insertionIndex, isAbove_value, hlt.not_gt, ih,
      length_cons, and_false, if_false]
    congr 1
    omega
  | @child e _ k v d _ _ he _ hk _ hlt _ ih =>
    cases e <;> simp only [isChild, Bool.false_eq_true] at he
    all_goals
      simp only [cons_append, Mst.insertionIndex, skipsChild_value, isAbove_value, hk, hlt,
        hlt.not_gt, ih, length_cons, and_false, if_false, ne_eq, not_false_eq_true, and_self,
        if_true]
      congr 1
      omega

theorem Before.compareEntries : compareEntries key markDirty first (A ++ R) =
      (compareEntries key markDirty (first && A.isEmpty) R).map id (A ++ ·) := by
  induction ha generalizing first with
  | nil => simp [Prod.map]
  | value _ _ hlt _ ih => simp [Mst.compareEntries, isAbove, hlt.not_gt, ih, Prod.map]
  | @child e _ k v d _ _ he _ hk _ hlt _ ih =>
    have hskip : ∀ es, skipsChild key (NodeEntry.value k v d :: es) := fun _ =>
      skipsChild_value.mpr ⟨hk, hlt⟩
    cases e <;> simp_all [Mst.compareEntries, isAbove, hlt.not_gt, isChild, Prod.map]

theorem Before.proveMutation :
    proveMutation key (A ++ R) = (proveMutation key R).map id (A ++ ·) := by
  induction ha with
  | nil => simp [Prod.map]
  | value _ _ hlt _ ih => simp [Mst.proveMutation, isAbove, hlt.not_gt, ih, Prod.map]
  | @child e _ k v d _ _ he _ hk _ hlt _ ih =>
    have hskip : ∀ es, skipsChild key (NodeEntry.value k v d :: es) := fun _ =>
      skipsChild_value.mpr ⟨hk, hlt⟩
    cases e <;> simp_all [Mst.proveMutation, isAbove, hlt.not_gt, isChild, Prod.map]

theorem Before.findExistingEntry : findExistingEntry key (A ++ R) =
      (findExistingEntry key R).map (·.map (· + A.length) id) := by
  induction ha with
  | nil => simp [Prod.map]
  | value _ _ hlt _ ih =>
    simp [Mst.findExistingEntry, hlt.ne', ih, Prod.map, Function.comp_def, Nat.add_assoc]
  | @child e _ k v d _ _ he _ hk _ hlt _ ih =>
    cases e <;>
      simp_all [Mst.findExistingEntry, hlt.ne', isChild, Prod.map, Function.comp_def, Nat.add_assoc]

end Before

-- What they do at the first value above the key.
section After

variable (hb : After H sub h key B lb)

include hb

theorem After.existingChild : existingChild key i idx B = idx := by
  cases hb with
  | nil => rfl
  | value hk _ hle _ => simp [existingChild, hk, hle]

variable (hne : ∀ p ∈ lb, p.1 ≠ key)

include hne

theorem After.insertionIndex : insertionIndex key i B = .ok (i, false) := by
  cases hb with
  | nil => rfl
  | value hk _ hle _ =>
    have hlt := hle.lt_of_ne (hne _ mem_cons_self).symm
    simp [insertionIndex, isAbove, hk, hlt]

theorem After.compareEntries : compareEntries key markDirty first B = (.ok .eq, B) := by
  cases hb with
  | nil => simp [compareEntries]
  | value hk _ hle _ =>
    have hlt := hle.lt_of_ne (hne _ mem_cons_self).symm
    simp [compareEntries, isAbove, hk, hlt]

theorem After.proveMutation : proveMutation key B = (.ok (), B) := by
  cases hb with
  | nil => simp [proveMutation]
  | value hk _ hle _ =>
    have hlt := hle.lt_of_ne (hne _ mem_cons_self).symm
    simp [proveMutation, isAbove, hk, hlt]

end After

theorem Layer.findExistingEntry_eq_none (hl : Layer H sub h es l)
    (hne : ∀ p ∈ l, p.1 ≠ key) : findExistingEntry key es = none := by
  induction hl with
  | nil => rfl
  | value _ _ _ ih =>
    have hk := (hne _ mem_cons_self).symm
    have hrest := ih fun p hp => hne p <| mem_cons_of_mem _ hp
    simp [findExistingEntry, hk, hrest]
  | @last e _ he _ => cases e <;> simp_all [findExistingEntry, isChild]
  | @child e l₁ k v d es l₂ he _ _ _ _ ih =>
    have hk := (hne (k, v) (by simp)).symm
    cases e <;> simp_all [findExistingEntry, isChild]

theorem findExistingChild_cut (ha : Before H sub h key A la) (hg : Gap sub G lg)
    (hb : After H sub h key B lb) :
    findExistingChild key (A ++ (G ++ B)) = if G = [] then none else some A.length := by
  rw [findExistingChild, ha.existingChild]
  cases hg with
  | none => simp [hb.existingChild]
  | @child e _ he _ => cases e <;> simp_all [existingChild, hb.existingChild, isChild]

end Atproto.Mst
