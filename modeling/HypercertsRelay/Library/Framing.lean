import Mathlib

-- Records that tell their own size. `size` is that of the first record, if all of it is there. What
-- a crash leaves behind the last complete record can be cut off.
structure Framing (β : Type*) where
  size : List β → Option ℕ
  size_bounds : ∀ {l n}, size l = some n → 0 < n ∧ n ≤ l.length
  size_append : ∀ {l n} (l' : List β), size l = some n → size (l ++ l') = some n
  size_take : ∀ {l n}, size l = some n → size (l.take n) = some n

namespace Framing

open List

variable (F : Framing β)

def split : ℕ → List β → List (List β)
  | 0, _ => []
  | fuel + 1, l =>
    match F.size l with
    | none => []
    | some n => l.take n :: split fuel (l.drop n)

def records (l : List β) : List (List β) :=
  F.split l.length l

def IsRecord (r : List β) : Prop :=
  F.size r = some r.length

variable {F}

theorem IsRecord.pos (h : F.IsRecord r) : 0 < r.length :=
  (F.size_bounds h).left

theorem split_eq (h : l.length ≤ fuel) : F.split fuel l = F.records l := by
  suffices ∀ fuel fuel' l, l.length ≤ fuel → l.length ≤ fuel' → F.split fuel l = F.split fuel' l from
    this _ _ _ h (Nat.le_refl _)
  intro fuel
  induction fuel with
  | zero =>
    intro fuel' l h _
    have hnone : F.size l = none := by
      cases hs : F.size l with
      | none => rfl
      | some n => have := F.size_bounds hs; omega
    cases fuel' <;> simp [split, hnone]
  | succ fuel ih =>
    intro fuel' l h h'
    cases hs : F.size l with
    | none => cases fuel' <;> simp [split, hs]
    | some n =>
      have hb := F.size_bounds hs
      cases fuel' with
      | zero => omega
      | succ fuel' =>
        have hd : (l.drop n).length = l.length - n := length_drop
        simp only [split, hs, ih fuel' (l.drop n) (by omega) (by omega)]

theorem records_cons (h : F.IsRecord r) (l : List β) : F.records (r ++ l) = r :: F.records l := by
  have hs := F.size_append l h
  have hpos := h.pos
  rw [records]
  cases hn : (r ++ l).length with
  | zero => rw [length_append] at hn; omega
  | succ n =>
    rw [length_append] at hn
    simp only [split, hs, drop_left, take_left]
    rw [split_eq (by omega)]

theorem records_append (h : ∀ r ∈ rs, F.IsRecord r) (l : List β) :
    F.records (rs.flatten ++ l) = rs ++ F.records l := by
  induction rs with
  | nil => rfl
  | cons r rs ih =>
    have ⟨hr, hrs⟩ := forall_mem_cons.mp h
    rw [flatten_cons, append_assoc, records_cons hr, ih hrs, cons_append]

theorem flatten_records_isPrefix (l : List β) : (F.records l).flatten <+: l := by
  rw [records]
  generalize l.length = fuel
  induction fuel generalizing l with
  | zero => exact nil_prefix
  | succ fuel ih =>
    simp only [split]
    split
    case h_1 => exact nil_prefix
    case h_2 n _ =>
      have hp := (prefix_append_right_inj (l.take n)).mpr (ih (l.drop n))
      rwa [take_append_drop, ←flatten_cons] at hp

theorem isRecord_take (h : F.size l = some n) : F.IsRecord (l.take n) := by
  rw [IsRecord, F.size_take h, length_take, Nat.min_eq_left (F.size_bounds h).right]

theorem records_of_size_some (h : F.size l = some n) :
    F.records l = l.take n :: F.records (l.drop n) := by
  rw [←records_cons (isRecord_take h), take_append_drop]

theorem isRecord_of_mem_records (h : r ∈ F.records l) : F.IsRecord r := by
  rw [records] at h
  generalize l.length = fuel at h
  induction fuel generalizing l with
  | zero => cases h
  | succ fuel ih =>
    simp only [split] at h
    split at h
    case h_1 => cases h
    case h_2 n hs =>
      cases h with
      | head => exact isRecord_take hs
      | tail _ hr => exact ih hr

theorem records_flatten_records (l : List β) : F.records (F.records l).flatten = F.records l := by
  have hnil : F.records [] = [] := rfl
  have h := records_append (F := F) (fun r hr => isRecord_of_mem_records (l := l) hr) []
  rwa [append_nil, hnil, append_nil] at h

theorem records_of_size_none (h : F.size l = none) : F.records l = [] := by
  simp only [records]
  cases l.length <;> simp [split, h]

-- A record that was cut off is not taken for one.
theorem size_of_cut (h : F.IsRecord r) (hp : p <+: r) (hne : p ≠ r) : F.size p = none := by
  have ⟨rest, hr⟩ := hp
  cases hs : F.size p with
  | none => rfl
  | some n =>
    have hn := F.size_append rest hs
    rw [hr, h, Option.some_inj] at hn
    have hle := (F.size_bounds hs).right
    have hlen := congrArg List.length hr
    rw [length_append] at hlen
    have hnil : rest = [] := eq_nil_of_length_eq_zero (by omega)
    rw [hnil, append_nil] at hr
    exact absurd hr hne

end Framing
