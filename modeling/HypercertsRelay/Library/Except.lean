import Mathlib

-- Computations that can fail: what their success says about their parts.
namespace Except

open List

universe u v

variable {f : σ → α → Except ε σ} {x : Except ε α} {log : List α}
  {P : List α → σ → Prop} {l : List α}

@[simp]
theorem bind_eq_ok {f} : x >>= f = .ok b ↔ ∃ a, x = .ok a ∧ f a = .ok b := by
  cases x with
  | error _ => exact ⟨nofun, fun ⟨_, h, _⟩ => nomatch h⟩
  | ok a => exact ⟨fun h => ⟨a, rfl, h⟩, fun ⟨_, h, hb⟩ => by cases h; exact hb⟩

@[simp]
theorem map_eq_ok {f} : f <$> x = .ok b ↔ ∃ a, x = .ok a ∧ f a = b := by
  cases x with
  | error _ => exact ⟨nofun, fun ⟨_, h, _⟩ => nomatch h⟩
  | ok a => simp [Functor.map, Except.map]

@[simp]
theorem pure_eq_ok : (pure a : Except ε α) = .ok b ↔ a = b :=
  Except.ok.injEq a b ▸ Iff.rfl

@[simp]
theorem mapError_eq_ok {f : ε → ε'} : x.mapError f = .ok a ↔ x = .ok a := by
  cases x <;> simp [Except.mapError]

-- What every step keeps holds of the result, together with the part of the list that was consumed.
theorem foldlM_invariant (hi : P [] s)
    (hs : ∀ l a s t, a ∈ log → P l s → f s a = .ok t → P (l ++ [a]) t)
    (h : log.foldlM f s = .ok t) : P log t := by
  suffices ∀ l, P l s → P (l ++ log) t from this [] hi
  clear hi
  induction log generalizing s with
  | nil =>
    intro l hl
    cases h
    rwa [append_nil]
  | cons a log ih =>
    intro l hl
    rw [foldlM_cons, bind_eq_ok] at h
    have ⟨s', hs', ht⟩ := h
    have hl' := hs l a s s' (.head _) hl hs'
    simpa using ih (fun l b s t hb => hs l b s t (.tail _ hb)) ht (l ++ [a]) hl'

theorem exists_foldlM
    (h : ∀ a ∈ log, ∀ s, ∃ t, f s a = .ok t) (s : σ) : ∃ t, log.foldlM f s = .ok t := by
  induction log generalizing s with
  | nil => exact ⟨s, rfl⟩
  | cons a log ih =>
    have ⟨ha, h⟩ := forall_mem_cons.mp h
    have ⟨s', hs'⟩ := ha s
    have ⟨t, ht⟩ := ih h s'
    exact ⟨t, by rw [foldlM_cons]; exact bind_eq_ok.mpr ⟨s', hs', ht⟩⟩

-- Steps that succeed wherever the invariant holds, and keep it.
theorem foldlM_progress
    (hi : P [] s) (hs : ∀ l a s, a ∈ log → P l s → ∃ t, f s a = .ok t ∧ P (l ++ [a]) t) :
    ∃ t, log.foldlM f s = .ok t ∧ P log t := by
  suffices ∀ l, P l s → ∃ t, log.foldlM f s = .ok t ∧ P (l ++ log) t from this [] hi
  clear hi
  induction log generalizing s with
  | nil =>
    intro l hl
    exact ⟨s, rfl, by rwa [append_nil]⟩
  | cons a log ih =>
    intro l hl
    have ⟨s', hs', hl'⟩ := hs l a s (.head _) hl
    have ⟨t, ht, hlog⟩ := ih (fun l b s hb => hs l b s (.tail _ hb)) (l ++ [a]) hl'
    refine ⟨t, ?_, by simpa using hlog⟩
    exact bind_eq_ok.mpr ⟨s', hs', ht⟩

theorem mapM_eq_ok {f : α → Except ε β} :
    l.mapM f = .ok l' ↔ List.Forall₂ (fun a b => f a = .ok b) l l' := by
  induction l generalizing l' with
  | nil =>
    rw [mapM_nil, pure_eq_ok, forall₂_nil_left_iff]
    exact eq_comm
  | cons a l ih =>
    rw [mapM_cons, forall₂_cons_left_iff]
    simp only [bind_eq_ok, pure_eq_ok, ih]
    exact exists_congr fun b => ⟨fun ⟨hb, l'', hl, h⟩ => ⟨l'', hb, hl, h.symm⟩,
      fun ⟨l'', hb, hl, h⟩ => ⟨hb, l'', hl, h.symm⟩⟩

theorem forM_eq_ok {f : α → Except ε PUnit} : l.forM f = .ok ⟨⟩ ↔ ∀ a ∈ l, f a = .ok ⟨⟩ := by
  induction l with
  | nil => exact ⟨nofun, fun _ => rfl⟩
  | cons a l ih =>
    rw [forall_mem_cons, ←ih]
    exact bind_eq_ok.trans ⟨fun ⟨_, ha, hl⟩ => ⟨ha, hl⟩, fun ⟨ha, hl⟩ => ⟨_, ha, hl⟩⟩

end Except
