import HypercertsRelay.Library.Numbered

-- A list is a sweep from `lo` to `hi` if it ascends, stays between the two and misses no member of
-- the set that lies there.
structure Swept (seq : α → ℕ) (F : Set α) (lo hi : ℕ) (l : List α) : Prop where
  ascending : l.Pairwise (seq · < seq ·)
  bounds : ∀ a ∈ l, lo ≤ seq a ∧ seq a < hi
  complete : ∀ a ∈ F, lo ≤ seq a → seq a < hi → a ∈ l

namespace Swept

open List

theorem nil (seq : α → ℕ) (F : Set α) (lo : ℕ) : Swept seq F lo lo [] where
  ascending := .nil
  bounds := by simp
  complete := by intros; omega

-- Nothing is lost on the way over a range that has no members.
theorem advance (h : Swept seq F lo hi l) (hle : hi ≤ hi')
    (hF : ∀ a ∈ F, hi ≤ seq a → hi' ≤ seq a) : Swept seq F lo hi' l where
  ascending := h.ascending
  bounds a ha := ⟨(h.bounds a ha).left, (h.bounds a ha).right.trans_le hle⟩
  complete a ha hlo hhi := by
    by_cases hlt : seq a < hi
    · exact h.complete a ha hlo hlt
    · have := hF a ha (by omega); omega

-- The range may shrink to the last entry.
theorem retreat (h : Swept seq F lo hi l) (ha : l.getLast? = some a) :
    Swept seq F lo (seq a + 1) l where
  ascending := h.ascending
  bounds b hb := by
    refine ⟨(h.bounds b hb).left, ?_⟩
    have ⟨l', hl⟩ := getLast?_eq_some_iff.mp ha
    rw [hl, mem_append, mem_singleton] at hb
    have hlt := (pairwise_append.mp (hl ▸ h.ascending)).right.right
    obtain hb | hb := hb
    · have := hlt b hb a (by simp); omega
    · rw [hb]; omega
  complete b hb hlo hhi := by
    have hlast : a ∈ l := mem_of_getLast? ha
    exact h.complete b hb hlo (by have := (h.bounds a hlast).right; omega)

theorem append (h : Swept seq F lo mid l) (h' : Swept seq F mid hi l') (hlo : lo ≤ mid)
    (hhi : mid ≤ hi) : Swept seq F lo hi (l ++ l') where
  ascending := by
    refine pairwise_append.mpr ⟨h.ascending, h'.ascending, fun a ha b hb => ?_⟩
    exact (h.bounds a ha).right.trans_le (h'.bounds b hb).left
  bounds a ha := by
    obtain ha | ha := mem_append.mp ha
    · have := h.bounds a ha; omega
    · have := h'.bounds a ha; omega
  complete a ha hlo hhi := by
    by_cases hlt : seq a < mid
    · exact mem_append_left _ (h.complete a ha hlo hlt)
    · exact mem_append_right _ (h'.complete a ha (by omega) hhi)

theorem singleton (ha : ∀ b ∈ F, seq b = seq a → b = a) : Swept seq F (seq a) (seq a + 1) [a] where
  ascending := pairwise_singleton _ _
  bounds b hb := by rw [mem_singleton.mp hb]; omega
  complete b hb hlo hhi := by
    rw [ha b hb (by omega)]
    exact mem_singleton_self a

theorem mono (h : Swept seq F lo hi l) (hF : ∀ a ∈ F', lo ≤ seq a → seq a < hi → a ∈ F) :
    Swept seq F' lo hi l :=
  ⟨h.ascending, h.bounds, fun a ha hlo hhi => h.complete a (hF a ha hlo hhi) hlo hhi⟩

theorem numbered (h : Numbered seq n l) (hF : ∀ a ∈ F, n ≤ seq a → seq a < n + l.length → a ∈ l) :
    Swept seq F n (n + l.length) l :=
  ⟨h.pairwise, fun _ ha => h.bounds ha, hF⟩

end Swept
