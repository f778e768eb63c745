import HypercertsRelay.Atproto.Mst.Root

namespace Atproto.Mst

open List
open NodeEntry Ascending

variable {N : Naming Cid} {h : ℕ} {key : Key}

section Entries

theorem verifyEntries_value (hk : k ≠ []) (hh : H k = h) (hlt : key < k) :
    verifyEntries H h key last (value k v d :: es) = verifyEntries H h k false es := by
  simp [verifyEntries, hk, hh, hlt.ne, hlt.le]

-- Every child passes the check by itself, below a key that is not above it.
def ChecksBelow (N : Naming Cid) (h : ℕ) : Prop :=
  ∀ e l key es, N.Below h e l → IsAscending Prod.fst l → (∀ p ∈ l, key < p.1) →
    verifyEntries N.heightForKey h key false (e :: es) = verifyEntries N.heightForKey h key true es

theorem Layer.verifyEntries (hchild : ChecksBelow N h)
    (hl : Layer N.heightForKey (N.Below h) h es l) (hs : IsAscending Prod.fst l)
    (hlt : ∀ p ∈ l, key < p.1) : verifyEntries N.heightForKey h key false es = .ok () := by
  induction hl generalizing key with
  | nil => rfl
  | value hk hh _ ih =>
    have ⟨hx, hs⟩ := pairwise_cons.mp hs
    rw [verifyEntries_value hk hh (hlt _ mem_cons_self)]
    exact ih hs hx
  | last _ hb =>
    rw [hchild _ _ _ _ hb hs hlt]
    rfl
  | child _ hb hk hh _ ih =>
    have ⟨hs₁, hs₂, _⟩ := pairwise_append.mp hs
    have ⟨hx, hs₂⟩ := pairwise_cons.mp hs₂
    have ⟨hlt₁, hlt₂⟩ := forall_mem_append.mp hlt
    rw [hchild _ _ _ _ hb hs₁ hlt₁, verifyEntries_value hk hh (hlt₂ _ mem_cons_self)]
    exact ih hs₂ hx

end Entries

section Node

theorem Naming.NodeAt.not_missingCID (hr : N.Rep h n l) : ¬(n.cid.isNone ∧ !n.dirty) := by
  rintro ⟨hc, hd⟩
  have ⟨c, hsome, _⟩ := hr.cached (by simpa using hd)
  simp [hsome] at hc

theorem Node.verifyStructure_eq {n : Node Cid} {i} (hs : n.stub = false)
    (hc : ¬(n.cid.isNone ∧ !n.dirty)) :
    n.verifyStructure H i key = if n.entries = [] then
        if 0 ≤ i then .error .emptyNode else .ok ()
      else
        let height := if i < 0 then valueHeight H n.entries else i
        if height < 0 then
          .error .pointerTop
        else if n.height ≠ height then
          .error .nodeHeight
        else
          verifyEntries H n.height key false n.entries := by
  cases n
  simp only at hs hc
  rw [verifyStructure, hs, if_neg Bool.false_ne_true, if_neg hc]
  simp only [List.isEmpty_iff]
  grind

theorem Naming.NodeAt.verifyStructure_nil (hr : N.Rep h n []) :
    n.verifyStructure N.heightForKey (-1) key = .ok () := by
  rw [Node.verifyStructure_eq hr.stub hr.not_missingCID, if_pos (hr.layer.eq_nil_iff.mpr rfl)]
  rfl

theorem Naming.NodeAt.verifyStructure_eq (hr : N.Rep h n l) (hl : l ≠ []) {height}
    (hheight : (if height < 0 then valueHeight N.heightForKey n.entries else height) = h) :
    n.verifyStructure N.heightForKey height key =
      verifyEntries N.heightForKey h key false n.entries := by
  have hes : n.entries ≠ [] := mt hr.layer.eq_nil_iff.mp hl
  rw [Node.verifyStructure_eq hr.stub hr.not_missingCID, if_neg hes]
  simp [hheight, hr.height]

theorem checksBelow (h : ℕ) : ChecksBelow N h := by
  intro e l key es hb hs hlt
  induction h generalizing e l key es with
  | zero => exact hb.elim
  | succ h ih =>
    have hpos : ((h + 1 : ℕ) : ℤ) ≠ 0 := by omega
    cases e with
    | value => exact hb.elim
    | link c => simp only [verifyEntries, hpos, Bool.false_eq_true, if_false]
    | child c n d =>
      have hheight : ¬((h + 1 : ℕ) : ℤ) - 1 < 0 ∧ ((h + 1 : ℕ) : ℤ) - 1 = h := by omega
      have hnode : n.verifyStructure N.heightForKey ((h + 1 : ℕ) - 1) key = .ok () := by
        rw [hb.right.left.verifyStructure_eq hb.left (by rw [if_neg hheight.left, hheight.right])]
        exact hb.right.left.layer.verifyEntries ih hs hlt
      simp only [verifyEntries, hpos, Bool.false_eq_true, if_false, hnode]
      rfl

end Node

section Top

theorem nil_lt (hk : key ≠ []) : [] < key := by
  cases key with
  | nil => exact absurd rfl hk
  | cons => exact nil_lt_cons ..

theorem Layer.valueHeight (hl : Layer N.heightForKey (N.Below h) h es l) :
    valueHeight N.heightForKey es = if ∃ p ∈ l, N.heightForKey p.1 = h then (h : ℤ) else -1 := by
  cases hl with
  | nil => simp [Mst.valueHeight]
  | value hk hh _ => simp [Mst.valueHeight, hk, hh]
  | @last e _ he hb =>
    have hnone : ¬∃ p ∈ l, N.heightForKey p.1 = h := fun ⟨p, hp, hh⟩ => (hb.height_lt p hp).ne hh
    rw [if_neg hnone]
    cases e <;> simp_all [Mst.valueHeight, isChild]
  | @child e _ k v _ _ _ he _ hk hh _ =>
    rw [if_pos ⟨(k, v), by simp, hh⟩]
    cases e <;> simp_all [Mst.valueHeight, isChild]

theorem Naming.NodeAt.topHeight_eq_iff (hr : N.Rep h n l) (hl : l ≠ []) :
    topHeight N.heightForKey l = h ↔ ∃ p ∈ l, N.heightForKey p.1 = h := by
  constructor
  case mp => exact fun htop => htop ▸ exists_topHeight _ hl
  case mpr => exact fun ⟨p, hp, hh⟩ => hr.topHeight_eq hp hh

theorem Naming.NodeAt.verifyStructure_pointer (hr : N.Rep h n l) (hl : l ≠ [])
    (hp : ¬∃ p ∈ l, N.heightForKey p.1 = h) :
    n.verifyStructure N.heightForKey (-1) key = .error .pointerTop := by
  have hes : n.entries ≠ [] := mt hr.layer.eq_nil_iff.mp hl
  have hvalue : valueHeight N.heightForKey n.entries = -1 := by rw [hr.layer.valueHeight, if_neg hp]
  rw [Node.verifyStructure_eq hr.stub hr.not_missingCID, if_neg hes]
  simp [hvalue]

-- `Verify` passes a tree that holds the pairs unless its root is above the highest of the keys.
theorem Naming.NodeAt.verifyStructure_top (hr : N.Rep h n l) (hs : IsAscending Prod.fst l)
    (hk : ∀ p ∈ l, p.1 ≠ []) :
    n.verifyStructure N.heightForKey (-1) [] =
      if l = [] ∨ topHeight N.heightForKey l = h then .ok () else .error .pointerTop := by
  by_cases hl : l = []
  · subst hl
    rw [hr.verifyStructure_nil, if_pos (.inl rfl)]
  have htop := hr.topHeight_eq_iff hl
  by_cases hp : ∃ p ∈ l, N.heightForKey p.1 = h
  · have hheight : (if (-1 : ℤ) < 0 then valueHeight N.heightForKey n.entries else -1) = h := by
      rw [if_pos (by decide), hr.layer.valueHeight, if_pos hp]
    rw [if_pos (.inr (htop.mpr hp)), hr.verifyStructure_eq hl hheight]
    exact hr.layer.verifyEntries (checksBelow h) hs fun p hp => nil_lt (hk p hp)
  · rw [if_neg (not_or.mpr ⟨hl, mt htop.mp hp⟩), hr.verifyStructure_pointer hl hp]

end Top

end Atproto.Mst
