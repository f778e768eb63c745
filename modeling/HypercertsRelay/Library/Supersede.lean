import Mathlib

-- Some rows supersede others of smaller rank. A superseder of a superseder is one, so a row on its
-- way out can be forgotten.
structure Superseding (ρ : Type*) where
  seq : ρ → ℕ
  sup : ρ → ρ → Prop
  lt : ∀ {t r}, sup t r → seq r < seq t
  trans : ∀ {u t r}, sup u t → sup t r → sup u r

namespace Superseding

variable (S : Superseding ρ)

def Superseded (A : Set ρ) (n : ℕ) (r : ρ) : Prop :=
  ∃ t ∈ A, S.sup t r ∧ S.seq t ≤ n

def survivors (A : Set ρ) (n : ℕ) : Set ρ :=
  { r ∈ A | ¬S.Superseded A n r }

variable {S}

theorem Superseded.mono (h : S.Superseded A n r) (hnm : n ≤ m) : S.Superseded A m r :=
  have ⟨t, ht, hs, hle⟩ := h
  ⟨t, ht, hs, hle.trans hnm⟩

theorem survivors_anti (h : n ≤ m) : S.survivors A m ⊆ S.survivors A n :=
  fun _ ⟨hr, hn⟩ => ⟨hr, fun hs => hn <| hs.mono h⟩

-- The topmost superseder of a row within a bound survives that bound.
theorem Superseded.exists_survivor (h : S.Superseded A n r) :
    ∃ t ∈ S.survivors A n, S.sup t r ∧ S.seq t ≤ n := by
  have ⟨t, ht, hs, hle⟩ := h
  induction hd : n - S.seq t using Nat.strong_induction_on generalizing t with
  | _ d ih =>
    by_cases hu : S.Superseded A n t
    · have ⟨u, hu, hut, hun⟩ := hu
      have := S.lt hut
      exact ih (n - S.seq u) (by omega) u hu (S.trans hut hs) hun rfl
    · exact ⟨t, ⟨ht, hu⟩, hs, hle⟩

-- Everything superseded up to `lo` is gone and nothing that survives `hi` is.
structure Between (S : Superseding ρ) (A R : Set ρ) (lo hi : ℕ) : Prop where
  lower : R ⊆ S.survivors A lo
  upper : S.survivors A hi ⊆ R

namespace Between

theorem subset (h : S.Between A R lo hi) : R ⊆ A :=
  fun _ hr => (h.lower hr).left

theorem mono (h : S.Between A R lo hi) (hn : hi ≤ n) : S.Between A R lo n where
  lower := h.lower
  upper := (survivors_anti hn).trans h.upper

-- Sweeping with the superseders still there, as far as the abandoned sweep, finds everything.
theorem superseded_iff (h : S.Between A R lo hi) (hn : hi ≤ n) (hr : r ∈ R) :
    S.Superseded A n r ↔ ∃ t ∈ R, S.sup t r ∧ lo < S.seq t ∧ S.seq t ≤ n where
  mp hs := by
    have ⟨t, ht, hs, hle⟩ := hs.exists_survivor
    have hlo : lo < S.seq t := by
      by_contra hlo
      exact (h.lower hr).right ⟨t, ht.left, hs, by omega⟩
    exact ⟨t, (h.mono hn).upper ht, hs, hlo, hle⟩
  mpr := fun ⟨t, ht, hs, _, hle⟩ => ⟨t, h.subset ht, hs, hle⟩

-- One step of a sweep to `n`: rows may go, but only superseded ones.
theorem shrink (h : S.Between A R lo hi) (hn : hi ≤ n) (hsub : R' ⊆ R)
    (hkeep : ∀ r ∈ R, r ∉ R' → S.Superseded A n r) : S.Between A R' lo n where
  lower := hsub.trans h.lower
  upper r hr := by
    by_contra hr'
    exact hr.right <| hkeep r ((h.mono hn).upper hr) hr'

-- A sweep to `n` that is complete.
theorem complete (h : S.Between A R lo hi) (hdrop : ∀ r ∈ R, ¬S.Superseded A n r) :
    S.Between A R n hi where
  lower r hr := ⟨h.subset hr, hdrop r hr⟩
  upper := h.upper

end Between

theorem between_self (h : ∀ r ∈ A, ¬S.Superseded A n r) : S.Between A A n n where
  lower r hr := ⟨hr, h r hr⟩
  upper := fun _ hr => hr.left

end Superseding
