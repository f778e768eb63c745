import Mathlib

-- Lists whose keys go up, and what comes after a key in them.
namespace Ascending

open List

variable {α κ : Type*} [LinearOrder κ] (f : α → κ)

abbrev IsAscending (l : List α) : Prop :=
  l.Pairwise (f · < f ·)

def after (l : List α) (k : κ) : List α :=
  l.filter (k < f ·)

variable {f}

theorem IsAscending.snoc (h : IsAscending f l) (ha : ∀ b ∈ l, f b < f a) :
    IsAscending f (l ++ [a]) :=
  pairwise_append.mpr ⟨h, pairwise_singleton _ _, by simpa using ha⟩

theorem after_append : after f (l₁ ++ l₂) k = after f l₁ k ++ after f l₂ k :=
  filter_append ..

theorem mem_after : a ∈ after f l k ↔ a ∈ l ∧ k < f a := by
  simp [after]

theorem after_sublist : (after f l k).Sublist l :=
  filter_sublist

theorem after_isPrefix_of_isPrefix (h : l₁ <+: l₂) : after f l₁ k <+: after f l₂ k :=
  h.filter _

theorem after_eq_self (h : ∀ a ∈ l, k < f a) : after f l k = l :=
  filter_eq_self.mpr (by simpa using h)

theorem after_after (h : k ≤ k') : after f (after f l k) k' = after f l k' := by
  rw [after, after, filter_filter, after]
  apply filter_congr
  intro a _
  by_cases hk : k' < f a
  · simp [hk, h.trans_lt hk]
  · simp [hk]

-- What comes after the first of those that come after a key.
theorem after_head (hl : IsAscending f l) (h : after f l k = a :: l₁) : after f l (f a) = l₁ := by
  have hmem := mem_after.mp (h ▸ mem_cons_self : a ∈ after f l k)
  have hasc := pairwise_cons.mp (h ▸ hl.sublist after_sublist)
  rw [←after_after hmem.right.le, h, after, filter_cons_of_neg (by simp)]
  exact after_eq_self hasc.left

-- The elements up to the one at a place are those whose keys are not above its key.
theorem take_succ_eq_filter (hl : IsAscending f l) (h : l[i]? = some a) :
    l.take (i + 1) = l.filter (f · ≤ f a) := by
  have hsplit := take_append_drop (i + 1) l
  have htake : l.take (i + 1) = l.take i ++ [a] := by rw [take_add_one, h]; rfl
  have hasc := pairwise_append.mp (hsplit.symm ▸ hl)
  have hasc' := pairwise_append.mp (htake ▸ hasc.left)
  nth_rewrite 2 [←hsplit]
  rw [filter_append, filter_eq_self.mpr, filter_eq_nil_iff.mpr, append_nil]
  · intro b hb
    simpa using hasc.right.right a (by simp [htake]) b hb
  intro b hb
  rw [htake, mem_append, mem_singleton] at hb
  obtain hb | hb := hb
  · simpa using (hasc'.right.right b hb a (mem_singleton_self a)).le
  · simp [hb]

-- A part at the front of what comes after a key comes after it in a part at the front.
theorem exists_take_of_isPrefix (h : l₁ <+: after f l k) :
    ∃ n ≤ l.length, l₁ = after f (l.take n) k := by
  induction l generalizing l₁ with
  | nil =>
    rw [prefix_nil.mp h]
    exact ⟨0, Nat.zero_le _, rfl⟩
  | cons b l ih =>
    by_cases hb : k < f b
    case neg =>
      rw [after, filter_cons_of_neg (by simpa using hb)] at h
      have ⟨n, hn, he⟩ := ih h
      refine ⟨n + 1, Nat.succ_le_succ hn, ?_⟩
      rw [take_succ_cons, after, filter_cons_of_neg (by simpa using hb)]
      exact he
    case pos =>
      rw [after, filter_cons_of_pos (by simpa using hb)] at h
      cases l₁ with
      | nil => exact ⟨0, Nat.zero_le _, rfl⟩
      | cons c l₁ =>
        have ⟨hc, h⟩ := cons_prefix_cons.mp h
        have ⟨n, hn, he⟩ := ih h
        refine ⟨n + 1, Nat.succ_le_succ hn, ?_⟩
        rw [take_succ_cons, after, filter_cons_of_pos (by simpa using hb), hc, he, after]

theorem lt_of_getElem? {i j : ℕ} (hl : IsAscending f l) (hij : i < j) (ha : l[i]? = some a)
    (hb : l[j]? = some b) : f a < f b := by
  have ⟨hi, ha⟩ := List.getElem?_eq_some_iff.mp ha
  have ⟨hj, hb⟩ := List.getElem?_eq_some_iff.mp hb
  rw [←ha, ←hb]
  exact pairwise_iff_getElem.mp hl i j hi hj hij

end Ascending
