import Mathlib

-- Binary search. Nothing is assumed about the predicate.
def search (p : ℕ → Bool) (i j : ℕ) : ℕ :=
  if i < j then
    if p ((i + j) / 2) then search p i ((i + j) / 2) else search p ((i + j) / 2 + 1) j
  else
    i
termination_by j - i

namespace search

theorem left (h : i < j) (hp : p ((i + j) / 2)) : search p i j = search p i ((i + j) / 2) := by
  rw [search, if_pos h, if_pos hp]

theorem right (h : i < j) (hp : ¬p ((i + j) / 2)) :
    search p i j = search p ((i + j) / 2 + 1) j := by
  rw [search, if_pos h, if_neg hp]

theorem stop (h : ¬i < j) : search p i j = i := by
  rw [search, if_neg h]

theorem le_end (h : i ≤ j) : search p i j ≤ j := by
  induction i, j using search.induct p with
  | case1 i j hlt hp ih =>
    rw [left hlt hp]
    have := ih (by omega)
    omega
  | case2 i j hlt hp ih =>
    rw [right hlt hp]
    exact ih (by omega)
  | case3 i j hge => rwa [stop hge]

-- A place from which on the predicate holds is not passed.
theorem le_of_forall (h : i ≤ k) (hp : ∀ m < j, k ≤ m → p m) : search p i j ≤ k := by
  induction i, j using search.induct p with
  | case1 i j hlt hm ih =>
    rw [left hlt hm]
    exact ih h fun m hm => hp m (by omega)
  | case2 i j hlt hm ih =>
    have hlow : (i + j) / 2 < k := Nat.lt_of_not_le fun hk => hm (hp _ (by omega) hk)
    rw [right hlt hm]
    exact ih hlow hp
  | case3 i j hge => rwa [stop hge]

-- In a list: an element is not passed that has the property, as have all behind it.
theorem le_of_pairwise {l : List α} {q} {R} (hp : l.Pairwise R)
    (ha : l[k]? = some a) (hself : q a) (hq : ∀ b, R a b → q b) :
    search (fun i => l[i]?.any q) 0 l.length ≤ k := by
  refine le_of_forall (Nat.zero_le _) fun m hm hkm => ?_
  have ⟨hk, hak⟩ := List.getElem?_eq_some_iff.mp ha
  rw [List.getElem?_eq_getElem hm, Option.any_some]
  obtain hlt | heq := hkm.lt_or_eq
  · exact hq _ (hak ▸ List.pairwise_iff_getElem.mp hp k m hk hm hlt)
  · subst heq
    exact hak ▸ hself

-- Where the search ends before the end, the predicate holds.
theorem holds (h : i ≤ j) (hlt : search p i j < j) : p (search p i j) := by
  induction i, j using search.induct p with
  | case1 i j hij hp ih =>
    rw [left hij hp] at hlt ⊢
    have hle := le_end (p := p) (show i ≤ (i + j) / 2 by omega)
    by_cases heq : search p i ((i + j) / 2) = (i + j) / 2
    case pos => rwa [heq]
    case neg => exact ih (by omega) (by omega)
  | case2 i j hij hp ih =>
    rw [right hij hp] at hlt ⊢
    exact ih (by omega) hlt
  | case3 i j hge =>
    rw [stop hge] at hlt
    exact absurd hlt hge

theorem eq_of_iff (hi : i ≤ k) (hj : k ≤ j) (h : ∀ m < j, p m ↔ k ≤ m) : search p i j = k := by
  have hle : search p i j ≤ k := le_of_forall hi fun m hm hk => (h m hm).mpr hk
  by_contra hne
  have hlt : search p i j < j := by omega
  have hk := (h _ hlt).mp (holds (Nat.le_trans hi hj) hlt)
  omega

end search
