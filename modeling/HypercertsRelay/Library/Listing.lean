import HypercertsRelay.Library.Ascending

-- Maps listed by their pairs in ascending order of the keys.
namespace Listing

open List Function
open Ascending

variable {κ α : Type*}

section Enumerates

structure Enumerates (pairs : List (κ × α)) (m : κ → Option α) : Prop where
  nodup : (pairs.map Prod.fst).Nodup
  mem_iff (k : κ) (v : α) : (k, v) ∈ pairs ↔ m k = some v

def put [DecidableEq κ] (m : κ → Option α) (kv : κ × α) : κ → Option α :=
  update m kv.1 (some kv.2)

variable [DecidableEq κ] {pairs : List (κ × α)}

theorem foldl_put_of_not_mem (hk : k ∉ pairs.map Prod.fst) : pairs.foldl put m k = m k := by
  induction pairs generalizing m with
  | nil => rfl
  | cons kv pairs ih =>
    have ⟨hne, hk⟩ := not_or.mp (mt mem_cons.mpr hk)
    rw [foldl_cons, ih hk, put, update_of_ne hne]

theorem foldl_put_of_mem (hnodup : (pairs.map Prod.fst).Nodup) (hm : (k, v) ∈ pairs) :
    pairs.foldl put m k = some v := by
  induction pairs generalizing m with
  | nil => simp at hm
  | cons kv pairs ih =>
    have ⟨hnot, hnodup⟩ := nodup_cons.mp hnodup
    rw [foldl_cons]
    cases mem_cons.mp hm
    case inl heq =>
      subst heq
      rw [foldl_put_of_not_mem hnot, put, update_self]
    case inr hm => exact ih hnodup hm

theorem Enumerates.foldl_put (hp : Enumerates pairs m) : pairs.foldl put (fun _ => none) = m := by
  funext k
  cases hk : m k with
  | none =>
    refine foldl_put_of_not_mem fun hmem => ?_
    have ⟨⟨_, v⟩, hm, heq⟩ := mem_map.mp hmem
    subst heq
    simp [(hp.mem_iff _ v).mp hm] at hk
  | some v => exact foldl_put_of_mem hp.nodup ((hp.mem_iff k v).mpr hk)

end Enumerates

variable [LinearOrder κ]

structure Lists (l : List (κ × α)) (m : κ → Option α) : Prop where
  ascending : IsAscending Prod.fst l
  mem_iff (k : κ) (v : α) : (k, v) ∈ l ↔ m k = some v

variable {l l' l₁ l₂ : List (κ × α)}

theorem lists_nil : Lists ([] : List (κ × α)) fun _ => none :=
  ⟨.nil, by simp⟩

namespace Lists

theorem eq_nil_iff (h : Lists l m) : l = [] ↔ ∀ k, m k = none := by
  constructor
  case mp =>
    rintro rfl k
    cases hk : m k with
    | none => rfl
    | some v => simpa using (h.mem_iff k v).mpr hk
  case mpr =>
    intro hm
    refine eq_nil_iff_forall_not_mem.mpr fun ⟨k, v⟩ hp => ?_
    simpa [hm] using (h.mem_iff k v).mp hp

theorem absent (h : Lists l m) (hm : m k = none) : ∀ p ∈ l, p.1 ≠ k := by
  rintro ⟨k', v⟩ hp rfl
  simp [(h.mem_iff k' v).mp hp] at hm

theorem split (h : Lists (l₁ ++ (k, u) :: l₂) m) : (∀ p ∈ l₁, p.1 < k) ∧ ∀ p ∈ l₂, k < p.1 := by
  have ⟨_, hs, hx⟩ := pairwise_append.mp h.ascending
  exact ⟨fun p hp => hx p hp _ mem_cons_self, (pairwise_cons.mp hs).left⟩

theorem ascending_cons (hs : IsAscending Prod.fst (l₁ ++ l₂)) (h₁ : ∀ p ∈ l₁, p.1 < k)
    (h₂ : ∀ p ∈ l₂, k < p.1) : IsAscending Prod.fst (l₁ ++ (k, v) :: l₂) := by
  have ⟨hs₁, hs₂, hx⟩ := pairwise_append.mp hs
  refine pairwise_append.mpr ⟨hs₁, pairwise_cons.mpr ⟨h₂, hs₂⟩, fun p hp q hq => ?_⟩
  cases mem_cons.mp hq
  case inl hq => exact hq ▸ h₁ p hp
  case inr hq => exact hx p hp q hq

variable [DecidableEq κ]

-- What the pairs beside a key say about the map.
theorem mem_beside (h₁ : ∀ p ∈ l₁, p.1 < k) (h₂ : ∀ p ∈ l₂, k < p.1)
    (h : ∀ k' v, k' ≠ k → ((k', v) ∈ l₁ ++ l₂ ↔ m k' = some v)) :
    (k', v) ∈ l₁ ++ l₂ ∨ (k' = k ∧ w = some v) ↔ update m k w k' = some v := by
  by_cases hk : k' = k
  · subst hk
    have h₁ : (k', v) ∉ l₁ := fun hp => (h₁ _ hp).false
    have h₂ : (k', v) ∉ l₂ := fun hp => (h₂ _ hp).false
    simp [h₁, h₂]
  · simpa [hk] using h k' v hk

theorem insert (h : Lists (l₁ ++ l₂) m) (h₁ : ∀ p ∈ l₁, p.1 < k) (h₂ : ∀ p ∈ l₂, k < p.1) :
    Lists (l₁ ++ (k, v) :: l₂) (update m k (some v)) := by
  refine ⟨ascending_cons h.ascending h₁ h₂, fun k' v' => ?_⟩
  rw [←mem_beside h₁ h₂ fun k' v' _ => h.mem_iff k' v']
  grind

theorem replace (h : Lists (l₁ ++ (k, u) :: l₂) m) :
    Lists (l₁ ++ (k, v) :: l₂) (update m k (some v)) := by
  have ⟨h₁, h₂⟩ := h.split
  have hs : IsAscending Prod.fst (l₁ ++ l₂) := h.ascending.sublist (by simp)
  refine ⟨ascending_cons hs h₁ h₂, fun k' v' => ?_⟩
  rw [←mem_beside h₁ h₂ fun k' v' hk => by rw [←h.mem_iff k' v']; simp [hk]]
  grind

theorem erase (h : Lists (l₁ ++ (k, u) :: l₂) m) : Lists (l₁ ++ l₂) (update m k none) := by
  have ⟨h₁, h₂⟩ := h.split
  refine ⟨h.ascending.sublist (by simp), fun k' v' => ?_⟩
  rw [←mem_beside h₁ h₂ fun k' v' hk => by rw [←h.mem_iff k' v']; simp [hk]]
  simp

omit [DecidableEq κ] in
theorem unique (h : Lists l m) (h' : Lists l' m) : l = l' := by
  have hnodup (l : List (κ × α)) (hl : Lists l m) : l.Nodup :=
    hl.ascending.imp fun hlt heq => (heq ▸ hlt).false
  have hperm : l.Perm l' := (perm_ext_iff_of_nodup (hnodup l h) (hnodup l' h')).mpr
    fun ⟨k, v⟩ => (h.mem_iff k v).trans (h'.mem_iff k v).symm
  exact hperm.eq_of_pairwise (fun a b _ _ hab hba => (hab.trans hba).false.elim) h.ascending
    h'.ascending

end Lists

end Listing
