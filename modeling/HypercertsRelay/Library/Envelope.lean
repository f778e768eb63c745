import Mathlib

-- Items with an envelope of sequence numbers, some of them empty. A check that remembers the upper
-- bound of the last non-empty item makes the envelopes ascending.
structure Envelope (α : Type*) where
  empty : α → Prop
  lo : α → ℕ
  hi : α → ℕ

namespace Envelope

variable (E : Envelope α)

def Below (a b : α) : Prop :=
  ¬E.empty a → ¬E.empty b → E.hi a < E.lo b

def Threaded : Option ℕ → List α → Prop
  | _, [] => True
  | prev, a :: l =>
    E.empty a ∧ Threaded prev l ∨
    ¬E.empty a ∧ (∀ p ∈ prev, p < E.lo a) ∧ Threaded (some (E.hi a)) l

variable {E}

theorem Threaded.ascending (h : E.Threaded prev l) (hle : ∀ a ∈ l, ¬E.empty a → E.lo a ≤ E.hi a) :
    l.Pairwise E.Below ∧ ∀ p ∈ prev, ∀ a ∈ l, ¬E.empty a → p < E.lo a := by
  induction l generalizing prev with
  | nil => simp
  | cons a l ih =>
    have hle' : ∀ b ∈ l, ¬E.empty b → E.lo b ≤ E.hi b := fun b hb => hle b (.tail _ hb)
    obtain h | h := h
    · have ⟨hasc, hprev⟩ := ih h.right hle'
      refine ⟨List.pairwise_cons.mpr ⟨fun _ _ hne => absurd h.left hne, hasc⟩, ?_⟩
      intro p hp b hb hne
      cases hb with
      | head => exact absurd h.left hne
      | tail _ hb => exact hprev p hp b hb hne
    · have ⟨hne, hlt, ht⟩ := h
      have ⟨hasc, hprev⟩ := ih ht hle'
      refine ⟨List.pairwise_cons.mpr ⟨fun b hb _ => hprev _ rfl b hb, hasc⟩, ?_⟩
      intro p hp b hb hne'
      cases hb with
      | head => exact hlt p hp
      | tail _ hb => exact (hlt p hp).trans ((hle a (.head _) hne).trans_lt (hprev _ rfl b hb hne'))

-- Items may be emptied.
theorem Threaded.mono {E' : Envelope β} {l'}
    (h : E.Threaded prev l) (hprev : ∀ p' ∈ prev', ∃ p ∈ prev, p' ≤ p)
    (hl : List.Forall₂ (fun a b => E'.lo b = E.lo a ∧ E'.hi b = E.hi a ∧
      (¬E'.empty b → ¬E.empty a) ∧ E.lo a ≤ E.hi a) l l') : E'.Threaded prev' l' := by
  induction hl generalizing prev prev' with
  | nil => trivial
  | @cons a b l l' hab _ ih =>
    have ⟨hlo, hhi, hne, hle⟩ := hab
    by_cases hb : E'.empty b
    · refine .inl ⟨hb, ?_⟩
      obtain h | h := h
      · exact ih h.right hprev
      · refine ih h.right.right fun p' hp' => ?_
        have ⟨p, hp, hpp⟩ := hprev p' hp'
        have := h.right.left p hp
        exact ⟨_, rfl, by omega⟩
    · have ha := hne hb
      have ⟨_, hlt, ht⟩ := h.resolve_left fun h => ha h.left
      refine .inr ⟨hb, fun p' hp' => ?_, ih ht fun p' hp' => ?_⟩
      · have ⟨p, hp, hpp⟩ := hprev p' hp'
        have := hlt p hp
        omega
      · cases hp'
        exact ⟨_, rfl, hhi.le⟩

end Envelope
