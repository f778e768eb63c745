import Mathlib

-- Lists whose entries carry consecutive numbers.
def Numbered (seq : α → ℕ) : ℕ → List α → Prop
  | _, [] => True
  | n, a :: l => seq a = n ∧ Numbered seq (n + 1) l

namespace Numbered

open List

variable {seq : α → ℕ}

theorem append_iff :
    Numbered seq n (l ++ l') ↔ Numbered seq n l ∧ Numbered seq (n + l.length) l' := by
  induction l generalizing n with
  | nil => simp [Numbered]
  | cons a l ih =>
    simp only [cons_append, Numbered, ih, length_cons, and_assoc]
    rw [Nat.add_right_comm, Nat.add_assoc]

section

variable (h : Numbered seq n l)

include h

theorem snoc (ha : seq a = n + l.length) : Numbered seq n (l ++ [a]) :=
  append_iff.mpr ⟨h, ha, trivial⟩

theorem map (hf : ∀ a, seq' (f a) = seq a) : Numbered seq' n (l.map f) := by
  induction l generalizing n with
  | nil => trivial
  | cons a l ih => exact ⟨(hf a).trans h.left, ih h.right⟩

theorem drop (hk : k ≤ l.length) : Numbered seq (n + k) (l.drop k) := by
  rw [←take_append_drop k l, append_iff, length_take, Nat.min_eq_left hk] at h
  exact h.right

theorem take (k : ℕ) : Numbered seq n (l.take k) := by
  rw [←take_append_drop k l, append_iff] at h
  exact h.left

theorem bounds (ha : a ∈ l) : n ≤ seq a ∧ seq a < n + l.length := by
  induction l generalizing n with
  | nil => cases ha
  | cons b l ih =>
    rw [length_cons]
    cases ha with
    | head => have := h.left; omega
    | tail _ ha => have := ih h.right ha; omega

theorem exists_mem (hn : n ≤ k) (hk : k < n + l.length) : ∃ a ∈ l, seq a = k := by
  induction l generalizing n with
  | nil => simp at hk; omega
  | cons b l ih =>
    by_cases hb : k = n
    · exact ⟨b, .head _, h.left.trans hb.symm⟩
    · rw [length_cons] at hk
      have ⟨a, ha, hs⟩ := ih h.right (by omega) (by omega)
      exact ⟨a, .tail _ ha, hs⟩

theorem filter_le (k : ℕ) : l.filter (k ≤ seq ·) = l.drop (k - n) := by
  induction l generalizing n with
  | nil => simp
  | cons a l ih =>
    have ha := h.left
    have ih := ih h.right
    by_cases hk : k ≤ n
    · rw [show k - (n + 1) = 0 by omega] at ih
      rw [show k - n = 0 by omega, filter_cons_of_pos (by simpa [ha] using hk), ih]
      rfl
    · rw [show k - n = (k - (n + 1)) + 1 by omega, filter_cons_of_neg (by simpa [ha] using hk), ih]
      rfl

theorem filter_lt (k : ℕ) : l.filter (k < seq ·) = l.drop (k + 1 - n) :=
  h.filter_le (k + 1)

theorem map_seq : l.map seq = List.range' n l.length := by
  induction l generalizing n with
  | nil => rfl
  | cons a l ih => rw [map_cons, h.left, ih h.right, length_cons, range'_succ]

theorem pairwise : l.Pairwise (seq · < seq ·) := by
  induction l generalizing n with
  | nil => exact .nil
  | cons a l ih =>
    refine .cons (fun b hb => ?_) (ih h.right)
    have := h.left
    have := (bounds h.right hb).left
    omega

theorem inj (ha : a ∈ l) (hb : b ∈ l) (hs : seq a = seq b) : a = b := by
  induction l generalizing n with
  | nil => cases ha
  | cons c l ih =>
    have hc := h.left
    cases ha with
    | head =>
      cases hb with
      | head => rfl
      | tail _ hb => have := (bounds h.right hb).left; omega
    | tail _ ha =>
      cases hb with
      | head => have := (bounds h.right ha).left; omega
      | tail _ hb => exact ih h.right ha hb

end

end Numbered
