import HypercertsRelay.Library.LittleEndian

-- Records of numbers of fixed widths, one behind the other.
namespace LittleEndian

def encodeFields : List (ℕ × ℕ) → List UInt8
  | [] => []
  | (w, n) :: fields => encode w n ++ encodeFields fields

def decodeFields : List ℕ → List UInt8 → List ℕ
  | [], _ => []
  | w :: ws, bs => decode (bs.take w) :: decodeFields ws (bs.drop w)

@[simp]
theorem length_encodeFields (fields : List (ℕ × ℕ)) :
    (encodeFields fields).length = (fields.map Prod.fst).sum := by
  induction fields with
  | nil => rfl
  | cons f fields ih => simp [encodeFields, ih]

theorem decodeFields_encodeFields (h : ∀ f ∈ fields, f.2 < 256 ^ f.1) (rest : List UInt8) :
    decodeFields (fields.map Prod.fst) (encodeFields fields ++ rest) = fields.map Prod.snd := by
  induction fields with
  | nil => rfl
  | cons f fields ih =>
    have ⟨hf, h⟩ := List.forall_mem_cons.mp h
    have hlen : (encode f.1 f.2).length = f.1 := length_encode ..
    simp only [encodeFields, List.map_cons, decodeFields, List.append_assoc]
    rw [List.take_left' hlen, List.drop_left' hlen, decode_encode hf, ih h]

theorem encodeFields_decodeFields {ws : List ℕ} {bs} (h : ws.sum ≤ bs.length) :
    encodeFields (ws.zip (decodeFields ws bs)) = bs.take ws.sum := by
  induction ws generalizing bs with
  | nil => rfl
  | cons w ws ih =>
    rw [List.sum_cons] at h ⊢
    rw [decodeFields, List.zip_cons_cons, encodeFields, encode_take (by omega),
      ih (by rw [List.length_drop]; omega), List.take_add]

end LittleEndian
