import HypercertsRelay.Library.Ascending

-- Of an ordered collection, the keys in view and the stretches of keys out of view.
namespace Outline

open List

variable {κ : Type*}

inductive Piece (κ : Type*) where
  | key (k : κ)
  | stretch (ks : List κ)

open Piece

def keys : List (Piece κ) → List κ
  | [] => []
  | key k :: o => k :: keys o
  | stretch ks :: o => ks ++ keys o

@[simp]
theorem keys_nil : keys ([] : List (Piece κ)) = [] := rfl

@[simp]
theorem keys_key : keys (key k :: o) = k :: keys o := rfl

@[simp]
theorem keys_stretch : keys (stretch ks :: o) = ks ++ keys o := rfl

variable {k : κ}

@[simp]
theorem keys_append : keys (o₁ ++ o₂) = keys o₁ ++ keys o₂ := by
  induction o₁ with
  | nil => rfl
  | cons e o ih => cases e <;> simp [ih]

theorem mem_keys (h : key k ∈ o) : k ∈ keys o := by
  have ⟨x, y, hxy⟩ := append_of_mem h
  simp [hxy]

theorem mem_of_mem_keys (h : ∀ e ∈ o, ∃ p, e = key p) (hk : k ∈ keys o) : key k ∈ o := by
  induction o with
  | nil => simp at hk
  | cons e o ih =>
    have ⟨⟨p, hp⟩, ho⟩ := forall_mem_cons.mp h
    subst hp
    cases mem_cons.mp hk
    case inl hk => exact hk ▸ mem_cons_self
    case inr hk => exact mem_cons_of_mem _ (ih ho hk)

-- An element of two lists put together is in the second or in the first of them.
theorem append_eq_append_cons (h : x ++ y = a ++ e :: b) :
    (∃ c, a = x ++ c ∧ y = c ++ e :: b) ∨ ∃ c, x = a ++ e :: c ∧ b = c ++ y := by
  rcases append_eq_append_iff.mp h with ⟨c, ha, hy⟩ | ⟨c, hx, hb⟩
  · exact .inl ⟨c, ha, hy⟩
  cases c with
  | nil => exact .inl ⟨[], by simpa using hx.symm, by simpa using hb.symm⟩
  | cons e c =>
    simp only [cons_append, List.cons.injEq] at hb
    exact .inr ⟨c, by rw [hx, hb.left], hb.right⟩

section Expands

-- Some of the hidden stretches come into view, wholly or in part.
inductive Expands : List (Piece κ) → List (Piece κ) → Prop where
  | nil : Expands [] []
  | key {k o o'} : Expands o o' → Expands (key k :: o) (key k :: o')
  | stretch {x o o'} : Expands o o' → Expands (stretch (keys x) :: o) (x ++ o')

theorem Expands.refl : ∀ o : List (Piece κ), Expands o o
  | [] => .nil
  | .key _ :: o => .key (.refl o)
  | .stretch ks :: o => by
    have := stretch (x := [Piece.stretch ks]) (refl o)
    simpa using this

theorem Expands.keys_eq (h : Expands o o') : keys o' = keys o := by
  induction h with
  | nil => rfl
  | key _ ih => simp [ih]
  | stretch _ ih => simp [ih]

theorem Expands.append (h₁ : Expands o₁ x) (h₂ : Expands o₂ y) : Expands (o₁ ++ o₂) (x ++ y) := by
  induction h₁ with
  | nil => exact h₂
  | key _ ih => exact .key ih
  | stretch _ ih =>
    rw [append_assoc]
    exact .stretch ih

theorem Expands.reveal : Expands [Piece.stretch (keys x)] x := by
  simpa using stretch (x := x) nil

theorem Expands.split (h : Expands (o₁ ++ o₂) z) :
    ∃ z₁ z₂, z = z₁ ++ z₂ ∧ Expands o₁ z₁ ∧ Expands o₂ z₂ := by
  induction o₁ generalizing z with
  | nil => exact ⟨[], z, rfl, .nil, h⟩
  | cons e o ih =>
    cases h
    case key z h =>
      have ⟨z₁, z₂, hz, h₁, h₂⟩ := ih h
      exact ⟨_, z₂, by rw [hz]; rfl, .key h₁, h₂⟩
    case stretch x z h =>
      have ⟨z₁, z₂, hz, h₁, h₂⟩ := ih h
      exact ⟨x ++ z₁, z₂, by rw [hz, append_assoc], .stretch h₁, h₂⟩

theorem Expands.trans (h₁ : Expands o₁ o₂) (h₂ : Expands o₂ o₃) : Expands o₁ o₃ := by
  induction h₁ generalizing o₃ with
  | nil => exact h₂
  | key _ ih =>
    cases h₂ with
    | key h => exact .key (ih h)
  | stretch _ ih =>
    have ⟨z₁, z₂, hz, hx, h⟩ := h₂.split
    rw [hz, ←hx.keys_eq]
    exact .stretch (ih h)

theorem Expands.mem (h : Expands o o') (hk : Piece.key k ∈ o) : Piece.key k ∈ o' := by
  induction h <;> simp_all
  case key ih => cases hk <;> simp_all

-- A stretch still hidden was in a hidden one before, with at most as much in view around it.
theorem Expands.stretch_inv (h : Expands o (x ++ Piece.stretch ks :: y)) :
    ∃ x' ks' y', o = x' ++ Piece.stretch ks' :: y' ∧
      (∀ p, Piece.key p ∈ x' → Piece.key p ∈ x) ∧ ∀ q, Piece.key q ∈ y' → Piece.key q ∈ y := by
  generalize hz : x ++ Piece.stretch ks :: y = z at h
  induction h generalizing x with
  | nil => simp at hz
  | @key k o o' h ih =>
    cases x with
    | nil => simp at hz
    | cons e x =>
      simp only [cons_append, List.cons.injEq] at hz
      have ⟨x', ks', y', ho, hx, hy⟩ := ih hz.right
      refine ⟨Piece.key k :: x', ks', y', by rw [ho]; rfl, ?_, hy⟩
      intro p hp
      cases mem_cons.mp hp
      case inl hp => simp [hp, hz.left]
      case inr hp => simp [hx p hp]
  | @stretch x₀ o o' h ih =>
    cases append_eq_append_cons hz.symm
    case inl hz =>
      have ⟨c, hc, ho'⟩ := hz
      have ⟨x', ks', y', ho, hx, hy⟩ := ih ho'.symm
      refine ⟨_ :: x', ks', y', by rw [ho]; rfl, fun p hp => ?_, hy⟩
      simp [hc, hx p (by simpa using hp)]
    case inr hz =>
      have ⟨c, hx, hy⟩ := hz
      refine ⟨[], _, o, rfl, by simp, fun q hq => ?_⟩
      simp [hy, h.mem hq]

end Expands

section Clear

variable [LinearOrder κ]

-- Every hidden stretch is cut off from the key by a key in view.
def Clear (k : κ) (o : List (Piece κ)) : Prop :=
  ∀ x ks y, o = x ++ stretch ks :: y → (∃ p, key p ∈ x ∧ k < p) ∨ ∃ q, key q ∈ y ∧ q < k

theorem clear_of_forall_key (h : ∀ e ∈ o, ∃ p, e = key p) : Clear k o := by
  intro x ks y ho
  have := h (stretch ks) (by simp [ho])
  simp at this

theorem Clear.expands (h : Clear k o) (he : Expands o o') : Clear k o' := by
  rintro x ks y rfl
  have ⟨x', ks', y', ho, hx, hy⟩ := he.stretch_inv
  cases h x' ks' y' ho
  case inl h => exact .inl ⟨_, hx _ h.choose_spec.left, h.choose_spec.right⟩
  case inr h => exact .inr ⟨_, hy _ h.choose_spec.left, h.choose_spec.right⟩

theorem not_clear_stretch : ¬Clear k [stretch ks] := by
  intro h
  cases h [] ks [] rfl <;> simp_all

theorem clear_snoc_of_lt (h : p < k) : Clear k (o ++ [key p]) := by
  intro x ks y ho
  cases append_eq_append_cons ho
  case inl ho =>
    have ⟨c, _, hc⟩ := ho
    cases c <;> simp at hc
  case inr ho =>
    have ⟨c, _, hy⟩ := ho
    exact .inr ⟨p, by simp [hy], h⟩

theorem clear_cons_of_lt (h : k < p) : Clear k (key p :: o) := by
  intro x ks y ho
  cases x with
  | nil => simp at ho
  | cons e x =>
    simp only [cons_append, List.cons.injEq] at ho
    exact .inl ⟨p, by simp [←ho.left], h⟩

theorem Clear.append (h₁ : Clear k o₁) (h₂ : Clear k o₂) : Clear k (o₁ ++ o₂) := by
  intro x ks y ho
  cases append_eq_append_cons ho
  case inl ho =>
    have ⟨c, hx, ho⟩ := ho
    cases h₂ c ks y ho
    case inl h => exact .inl ⟨_, by simp [hx, h.choose_spec.left], h.choose_spec.right⟩
    case inr h => exact .inr h
  case inr ho =>
    have ⟨c, ho, hy⟩ := ho
    cases h₁ x ks c ho
    case inl h => exact .inl h
    case inr h => exact .inr ⟨_, by simp [hy, h.choose_spec.left], h.choose_spec.right⟩

-- Keys that are not after `k` cut nothing off that comes after them.
theorem Clear.right (h : Clear k (o₁ ++ o₂)) (h₁ : ∀ p ∈ keys o₁, p ≤ k) : Clear k o₂ := by
  rintro x ks y rfl
  cases h (o₁ ++ x) ks y (by simp)
  case inr h => exact .inr h
  case inl h =>
    have ⟨p, hp, hlt⟩ := h
    cases mem_append.mp hp
    case inl hp => exact absurd hlt (h₁ p <| mem_keys hp).not_gt
    case inr hp => exact .inl ⟨p, hp, hlt⟩

theorem Clear.left (h : Clear k (o₁ ++ o₂)) (h₂ : ∀ q ∈ keys o₂, k ≤ q) : Clear k o₁ := by
  rintro x ks y rfl
  cases h x ks (y ++ o₂) (by simp)
  case inl h => exact .inl h
  case inr h =>
    have ⟨q, hq, hlt⟩ := h
    cases mem_append.mp hq
    case inl hq => exact .inr ⟨q, hq, hlt⟩
    case inr hq => exact absurd hlt (h₂ q <| mem_keys hq).not_gt

theorem Clear.insert (h : Clear k (x ++ y)) : Clear k (x ++ key d :: y) := by
  intro a ks b hab
  cases append_eq_append_cons hab
  case inl hab =>
    have ⟨c, ha, hy⟩ := hab
    cases c with
    | nil => simp at hy
    | cons e c =>
      simp only [cons_append, List.cons.injEq] at hy
      cases h (x ++ c) ks b (by simp [hy.right])
      case inl h =>
        have ⟨p, hp, hlt⟩ := h
        refine .inl ⟨p, ?_, hlt⟩
        cases mem_append.mp hp <;> simp [*]
      case inr h => exact .inr h
  case inr hab =>
    have ⟨c, hx, hb⟩ := hab
    cases h a ks (c ++ y) (by simp [hx])
    case inl h => exact .inl h
    case inr h =>
      have ⟨q, hq, hlt⟩ := h
      refine .inr ⟨q, ?_, hlt⟩
      cases mem_append.mp hq <;> simp [*]

-- A key goes. The stretches it cut off from `k` are cut off from the key itself by others.
theorem Clear.erase (h : Clear k (x ++ key d :: y)) (hd : Clear d (x ++ y))
    (hx : ∀ p ∈ keys x, p < d) (hy : ∀ q ∈ keys y, d < q) : Clear k (x ++ y) := by
  intro a ks b hab
  cases append_eq_append_cons hab
  case inl hab' =>
    -- The stretch comes after the key, so the key it is cut off by comes before.
    have ⟨c, ha, hc⟩ := hab'
    have hle : ∀ q, key q ∈ b → ¬q < d := fun q hq => (hy q <| mem_keys <| by simp [hc, hq]).not_gt
    cases h (x ++ key d :: c) ks b (by simp [hc])
    case inr h => exact .inr h
    case inl h =>
      have ⟨p, hp, hlt⟩ := h
      by_cases hpd : p = d
      case neg => exact .inl ⟨p, by simpa [ha, hpd] using hp, hlt⟩
      case pos =>
        cases hd a ks b hab
        case inl hd =>
          have ⟨p', hp', hlt'⟩ := hd
          exact .inl ⟨p', hp', hlt.trans (hpd ▸ hlt')⟩
        case inr hd => exact absurd hd.choose_spec.right (hle _ hd.choose_spec.left)
  case inr hab' =>
    have ⟨c, hc, hb⟩ := hab'
    have hle : ∀ p, key p ∈ a → ¬d < p := fun p hp => (hx p <| mem_keys <| by simp [hc, hp]).not_gt
    cases h a ks (c ++ key d :: y) (by simp [hc])
    case inl h => exact .inl h
    case inr h =>
      have ⟨q, hq, hlt⟩ := h
      by_cases hqd : q = d
      case neg => exact .inr ⟨q, by simpa [hb, hqd] using hq, hlt⟩
      case pos =>
        cases hd a ks b hab
        case inl hd => exact absurd hd.choose_spec.right (hle _ hd.choose_spec.left)
        case inr hd =>
          have ⟨q', hq', hlt'⟩ := hd
          exact .inr ⟨q', hq', (hqd ▸ hlt').trans hlt⟩

end Clear

end Outline
