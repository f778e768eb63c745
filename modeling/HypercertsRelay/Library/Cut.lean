import HypercertsRelay.Library.LittleEndian

-- Lists of parts laid end to end, and their recovery from the lengths.
namespace Cut

open List LittleEndian

variable {β : Type}

def cut : List ℕ → List β → List (List β)
  | [], _ => []
  | n :: ns, l => l.take n :: cut ns (l.drop n)

-- A slice as a program takes it: none when it reaches outside.
def slice (l : List β) (i j : ℕ) : Option (List β) :=
  if i ≤ j ∧ j ≤ l.length then some ((l.drop i).take (j - i)) else none

-- One slice after the other, with a running offset.
def slices (l : List β) : ℕ → List ℕ → Option (List (List β))
  | _, [] => some []
  | off, n :: ns => do
    let part ← slice l off (off + n)
    let parts ← slices l (off + n) ns
    return part :: parts

variable {parts : List (List β)}

-- No slice reaches outside when the lengths add up.
theorem slices_eq (h : off + lens.sum ≤ l.length) :
    slices l off lens = some (cut lens (l.drop off)) := by
  induction lens generalizing off with
  | nil => rfl
  | cons n lens ih =>
    rw [sum_cons] at h
    have hle : off ≤ off + n ∧ off + n ≤ l.length := by omega
    rw [slices, slice, if_pos hle, ih (by omega), cut, drop_drop, Nat.add_sub_cancel_left]
    rfl

theorem cut_flatten (parts : List (List β)) :
    cut (parts.map List.length) parts.flatten = parts := by
  induction parts with
  | nil => rfl
  | cons p parts ih => rw [map_cons, flatten_cons, cut, take_left, drop_left, ih]

theorem flatten_cut (h : lens.sum = l.length) : (cut lens l).flatten = l := by
  induction lens generalizing l with
  | nil => exact (eq_nil_of_length_eq_zero h.symm).symm
  | cons n lens ih =>
    rw [sum_cons] at h
    have hrest : lens.sum = (l.drop n).length := by
      rw [length_drop]
      omega
    rw [cut, flatten_cons, ih hrest, take_append_drop]

theorem map_length_cut (h : lens.sum ≤ l.length) : (cut lens l).map List.length = lens := by
  induction lens generalizing l with
  | nil => rfl
  | cons n lens ih =>
    rw [sum_cons] at h
    have hrest : lens.sum ≤ (l.drop n).length := by
      rw [length_drop]
      omega
    rw [cut, map_cons, ih hrest, length_take, Nat.min_eq_left (by omega)]

-- Cutting finds the parts that were laid end to end, and no others.
theorem slices_eq_some (h : lens.sum = l.length) :
    slices l 0 lens = some parts ↔ parts.map List.length = lens ∧ parts.flatten = l := by
  rw [slices_eq (by omega), Option.some.injEq, drop_zero]
  constructor
  · rintro rfl
    exact ⟨map_length_cut (Nat.le_of_eq h), flatten_cut h⟩
  · rintro ⟨rfl, rfl⟩
    exact cut_flatten parts

theorem length_flatten_le (h : ∀ p ∈ parts, p.length ≤ b) :
    parts.flatten.length ≤ parts.length * b := by
  induction parts with
  | nil => exact Nat.zero_le _
  | cons p parts ih =>
    have ⟨hp, hrest⟩ := forall_mem_cons.mp h
    have hle := ih hrest
    rw [flatten_cons, length_append, length_cons, Nat.succ_mul]
    omega

def encodeColumn (w : ℕ) (values : List ℕ) : List UInt8 :=
  (values.map (LittleEndian.encode w)).flatten

def decodeColumn (w n : ℕ) (chunk : List UInt8) : Option (List ℕ) :=
  (slices chunk 0 (List.replicate n w)).map (·.map LittleEndian.decode)

theorem length_encodeColumn : (encodeColumn w values).length = values.length * w := by
  rw [encodeColumn, length_flatten, map_map]
  have hw : (List.length ∘ encode w) = fun _ => w := by
    funext v
    exact length_encode w v
  rw [hw, map_const', sum_replicate_nat]

theorem decodeColumn_eq_some (h : chunk.length = n * w) : decodeColumn w n chunk = some values ↔
    values.length = n ∧ (∀ v ∈ values, v < 256 ^ w) ∧ encodeColumn w values = chunk := by
  have hsum : (List.replicate n w).sum = chunk.length := by rw [sum_replicate_nat, h]
  rw [decodeColumn, Option.map_eq_some_iff]
  constructor
  · rintro ⟨parts, hp, rfl⟩
    have ⟨hlen, hflat⟩ := (slices_eq_some hsum).mp hp
    have hw : ∀ p ∈ parts, p.length = w := fun p hp =>
      (mem_replicate.mp (hlen ▸ mem_map_of_mem hp)).right
    refine ⟨?_, fun v hv => ?_, ?_⟩
    · have hn := congrArg List.length hlen
      rwa [length_map, length_replicate, ←length_map (f := decode)] at hn
    · obtain ⟨p, hp, rfl⟩ := mem_map.mp hv
      exact hw p hp ▸ decode_lt p
    · have hid : ∀ p ∈ parts, (encode w ∘ decode) p = id p := by
        intro p hp
        rw [Function.comp_apply, ←hw p hp, encode_decode, id]
      rw [encodeColumn, map_map, map_congr_left hid, map_id, hflat]
  · rintro ⟨hlen, hlt, rfl⟩
    refine ⟨values.map (encode w), (slices_eq_some hsum).mpr ⟨?_, rfl⟩, ?_⟩
    · rw [map_map, ←hlen, eq_replicate_iff]
      exact ⟨length_map _, by simp⟩
    · have hid : ∀ v ∈ values, (decode ∘ encode w) v = id v := fun v hv => decode_encode (hlt v hv)
      rw [map_map, map_congr_left hid, map_id]

-- A column with the right length is always read.
theorem exists_decodeColumn (h : chunk.length = n * w) :
    ∃ values, decodeColumn w n chunk = some values := by
  refine ⟨_, by rw [decodeColumn, slices_eq (by simp [h]), Option.map_some]⟩

end Cut
