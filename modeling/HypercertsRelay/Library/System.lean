import Mathlib

-- Transition systems and the two rules of every safety argument here: an invariant of all reachable
-- states, and a quantity that only moves one way.
structure System (σ : Type*) where
  init : σ → Prop
  step : σ → σ → Prop

namespace System

variable {σ : Type*} {S : System σ}

inductive Reachable (S : System σ) : σ → Prop
  | init : S.init s → Reachable S s
  | step : Reachable S s → S.step s t → Reachable S t

def Runs (S : System σ) : σ → σ → Prop :=
  Relation.ReflTransGen S.step

namespace Reachable

-- The source of the step is itself reachable, so an invariant can rest on an earlier one.
theorem invariant {P : σ → Prop} (hi : ∀ s, S.init s → P s)
    (hs : ∀ s t, S.Reachable s → P s → S.step s t → P t) {s} (h : S.Reachable s) : P s := by
  induction h with
  | init h => exact hi _ h
  | step hr e ih => exact hs _ _ hr ih e

theorem runs (h : S.Reachable s) (e : S.Runs s t) : S.Reachable t := by
  induction e with
  | refl => exact h
  | tail _ e ih => exact ih.step e

end Reachable

theorem Runs.mono [Preorder α] {f : σ → α}
    (hf : ∀ s t, S.Reachable s → S.step s t → f s ≤ f t) {s t}
    (h : S.Reachable s) (e : S.Runs s t) : f s ≤ f t := by
  induction e with
  | refl => exact le_refl _
  | tail e' e'' ih => exact ih.trans <| hf _ _ (h.runs e') e''

-- The runs all of whose steps meet a condition.
def restrict (S : System σ) (C : σ → σ → Prop) : System σ where
  init := S.init
  step s t := S.step s t ∧ C s t

theorem Reachable.of_restrict (h : (S.restrict C).Reachable s) :
    S.Reachable s := by
  induction h with
  | init h => exact .init h
  | step _ e ih => exact ih.step e.left

theorem Reachable.restrict_mono (hCD : ∀ s t, C s t → D s t) {s}
    (h : (S.restrict C).Reachable s) : (S.restrict D).Reachable s := by
  induction h with
  | init h => exact .init h
  | step _ e ih => exact ih.step ⟨e.left, hCD _ _ e.right⟩

def extend (S : System σ) (T : σ → σ → Prop) : System σ where
  init := S.init
  step s t := S.step s t ∨ T s t

theorem Reachable.extend (h : S.Reachable s) : (S.extend T).Reachable s := by
  induction h with
  | init h => exact .init h
  | step _ e ih => exact ih.step (.inl e)

-- If some kind of step is taken again and again, each lowers a rank and no other step raises it,
-- then the run gets where the rank stops to count.
theorem eventually_of_rank [Preorder α] [WellFoundedLT α] {run : ℕ → σ}
    {taken : σ → σ → Prop} (goal : σ → Prop) (rank : σ → α)
    (hfair : ∀ n, ∃ i ≥ n, taken (run i) (run (i + 1)))
    (hle : ∀ i, ¬goal (run i) → ¬goal (run (i + 1)) → rank (run (i + 1)) ≤ rank (run i))
    (hlt : ∀ i, ¬goal (run i) → ¬goal (run (i + 1)) → taken (run i) (run (i + 1)) →
      rank (run (i + 1)) < rank (run i)) : ∃ i, goal (run i) := by
  by_contra hg
  have hg (i : ℕ) : ¬goal (run i) := fun h => hg ⟨i, h⟩
  have hmono (n i : ℕ) : rank (run (n + i)) ≤ rank (run n) := by
    induction i with
    | zero => exact le_refl _
    | succ i ih => exact (hle _ (hg _) (hg _)).trans ih
  suffices ∀ a n, rank (run n) = a → False from this _ 0 rfl
  intro a
  induction a using WellFoundedLT.induction with
  | ind a ih =>
    intro n hn
    have ⟨i, hi, ht⟩ := hfair n
    have hle := hmono n (i - n)
    rw [Nat.add_sub_cancel' hi, hn] at hle
    exact ih _ ((hlt i (hg i) (hg _) ht).trans_le hle) (i + 1) rfl

end System
