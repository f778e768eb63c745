import HypercertsRelay.Library.Cut
import HypercertsRelay.Library.Except

-- The columnar body of a block: how events are laid out in bytes, and read back.
namespace Jetstream.BlockCodec

open List LittleEndian Cut
open Except (bind_eq_ok pure_eq_ok)
open Cut (encodeColumn decodeColumn slices)
open List (length range)

abbrev Bytes := List UInt8

-- Strings are their bytes; a payload may be nil.
structure Event where
  seq : UInt64
  witnessedAt : Int64
  indexedAt : Int64
  upstreamRelayCursor : Int64
  kind : UInt8
  did : Bytes
  collection : Bytes
  rkey : Bytes
  rev : Bytes
  payload : Option Bytes
  deriving DecidableEq

def Event.payloadBytes (e : Event) : Bytes :=
  e.payload.getD []

-- From KindCreate to KindCreateResync.
def validKind (k : UInt8) : Bool :=
  1 ≤ k ∧ k ≤ 7

inductive Field where
  | did
  | collection
  | rkey
  | rev
  | payload
  deriving DecidableEq

inductive EventError where
  | errInvalidKind (kind : UInt8)
  | errFieldTooLong (field : Field) (length max : ℕ)
  deriving DecidableEq

def maxUint8 := 2 ^ 8 - 1
def maxUint16 := 2 ^ 16 - 1
def maxUint32 := 2 ^ 32 - 1

def checkLength (field : Field) (value : Bytes) (max : ℕ) : Except EventError Unit :=
  if max < value.length then .error (.errFieldTooLong field value.length max) else .ok ()

def validateEvent (e : Event) : Except EventError Unit := do
  if !validKind e.kind then .error (.errInvalidKind e.kind) else .ok ()
  checkLength .did e.did maxUint16
  checkLength .collection e.collection maxUint8
  checkLength .rkey e.rkey maxUint8
  checkLength .rev e.rev maxUint8
  checkLength .payload e.payloadBytes maxUint32

-- The layout behind the count. Numbers are cut to the width of their column.
def encodeColumns (events : List Event) : Bytes :=
  encodeColumn 8 (events.map (·.seq.toNat)) ++
  (encodeColumn 8 (events.map (·.witnessedAt.toUInt64.toNat)) ++
  (encodeColumn 8 (events.map (·.indexedAt.toUInt64.toNat)) ++
  (encodeColumn 1 (events.map (·.kind.toNat)) ++
  (encodeColumn 1 (events.map (·.collection.length)) ++
  (encodeColumn 2 (events.map (·.did.length)) ++
  (encodeColumn 1 (events.map (·.rkey.length)) ++
  (encodeColumn 1 (events.map (·.rev.length)) ++
  (encodeColumn 4 (events.map (·.payloadBytes.length)) ++
  ((events.map (·.collection)).flatten ++
  ((events.map (·.did)).flatten ++
  ((events.map (·.rkey)).flatten ++
  ((events.map (·.rev)).flatten ++
  (events.map (·.payloadBytes)).flatten))))))))))))

def encodeBlockInto (dst : Bytes) (events : List Event) : Bytes :=
  dst ++ (LittleEndian.encode 4 events.length ++ encodeColumns events)

-- None is the error on a call with zero events.
def encodeBlock (events : List Event) : Option Bytes :=
  if events.length = 0 then none else some (encodeBlockInto [] events)

def encodeEmptyBlock : Bytes :=
  [0, 0, 0, 0]

-- An index outside its slice would be a panic, not an error.
inductive DecodeError where
  | errTruncatedBlock
  | indexOutOfRange
  deriving DecidableEq

def maxBlockEventsLimit := 2 ^ 18
def fixedPerEvent := 8 + 8 + 8 + 1 + 1 + 2 + 1 + 1 + 4
def maxInt := 2 ^ 63 - 1

def require (p : Prop) [Decidable p] : Except DecodeError Unit :=
  if p then .ok () else .error .errTruncatedBlock

def index {α : Type} (x : Option α) : Except DecodeError α :=
  x.elim (.error .indexOutOfRange) .ok

-- The next bytes of the buffer, and what is behind them.
def read (n : ℕ) (rest : Bytes) : Except DecodeError (Bytes × Bytes) :=
  if rest.length < n then .error .errTruncatedBlock else .ok (rest.take n, rest.drop n)

-- The sum of a column of lengths, with a trap on overflow.
def sumU (w : ℕ) (b : Bytes) : Except DecodeError ℕ := do
  let values ← index (decodeColumn w (b.length / w) b)
  values.foldlM (fun t v => if maxInt < t + v then .error .errTruncatedBlock else .ok (t + v)) 0

def sumU8 := sumU 1
def sumU16 := sumU 2
def sumU32 := sumU 4

-- The strings of a column, by the lengths in another.
def cutBlob (w n : ℕ) (lens blob : Bytes) : Except DecodeError (List Bytes) := do
  let lens ← index (decodeColumn w n lens)
  index (slices blob 0 lens)

def eventAt (seqs witnessed indexed kinds : List ℕ)
    (collections dids rkeys revs payloads : List Bytes) (i : ℕ) : Event where
  seq := .ofNat (seqs.getD i 0)
  witnessedAt := (UInt64.ofNat (witnessed.getD i 0)).toInt64
  indexedAt := (UInt64.ofNat (indexed.getD i 0)).toInt64
  upstreamRelayCursor := 0
  kind := .ofNat (kinds.getD i 0)
  did := dids.getD i []
  collection := collections.getD i []
  rkey := rkeys.getD i []
  rev := revs.getD i []
  payload := if (payloads.getD i []).length = 0 then none else some (payloads.getD i [])

def decodeEvents (n : ℕ) (rest : Bytes) : Except DecodeError (List Event) := do
  let (chunk, rest) ← read (n * 8) rest
  let seqs ← index (decodeColumn 8 n chunk)
  let (chunk, rest) ← read (n * 8) rest
  let witnessed ← index (decodeColumn 8 n chunk)
  let (chunk, rest) ← read (n * 8) rest
  let indexed ← index (decodeColumn 8 n chunk)
  let (chunk, rest) ← read n rest
  let kinds ← index (decodeColumn 1 n chunk)
  require (∀ k ∈ kinds, validKind (.ofNat k))
  let (collLen, rest) ← read n rest
  let (didLen, rest) ← read (n * 2) rest
  let (rkeyLen, rest) ← read n rest
  let (revLen, rest) ← read n rest
  let (eventLen, rest) ← read (n * 4) rest
  let totalColl ← sumU8 collLen
  let totalDid ← sumU16 didLen
  let totalRkey ← sumU8 rkeyLen
  let totalRev ← sumU8 revLen
  let totalPayload ← sumU32 eventLen
  let (collBlob, rest) ← read totalColl rest
  let (didBlob, rest) ← read totalDid rest
  let (rkeyBlob, rest) ← read totalRkey rest
  let (revBlob, rest) ← read totalRev rest
  let (payloadBlob, rest) ← read totalPayload rest
  require (rest = [])
  let collections ← cutBlob 1 n collLen collBlob
  let dids ← cutBlob 2 n didLen didBlob
  let rkeys ← cutBlob 1 n rkeyLen rkeyBlob
  let revs ← cutBlob 1 n revLen revBlob
  let payloads ← cutBlob 4 n eventLen payloadBlob
  return (range n).map (eventAt seqs witnessed indexed kinds collections dids rkeys revs payloads)

def decodeBlock (buf : Bytes) : Except DecodeError (List Event) := do
  let (header, rest) ← read 4 buf
  let n := LittleEndian.decode header
  require (n ≤ maxBlockEventsLimit)
  require (n * fixedPerEvent ≤ rest.length)
  if n = 0 then
    require (rest = [])
    return []
  decodeEvents n rest

-- What is left of an event on disk.
def Event.stored (e : Event) : Event :=
  { e with
    upstreamRelayCursor := 0
    payload := if e.payloadBytes = [] then none else e.payload }

open Event (stored)

theorem index_eq_ok : index x = .ok a ↔ x = some a := by
  cases x <;> simp [index]

theorem require_eq_ok [Decidable p] : require p = .ok u ↔ p := by
  by_cases h : p <;> simp [require, h]

variable {l : List ℕ}

theorem read_eq_ok : read n rest = .ok r ↔ r.1.length = n ∧ r.1 ++ r.2 = rest := by
  have ⟨chunk, tail⟩ := r
  by_cases h : rest.length < n
  · simp only [read, h, if_true, reduceCtorEq, false_iff, not_and]
    rintro rfl rfl
    rw [length_append] at h
    omega
  · simp only [read, h, if_false, Except.ok.injEq, Prod.mk.injEq]
    constructor
    · rintro ⟨rfl, rfl⟩
      exact ⟨by rw [length_take]; omega, take_append_drop ..⟩
    · rintro ⟨rfl, rfl⟩
      exact ⟨take_left, drop_left⟩

theorem validateEvent_eq_ok : validateEvent e = .ok u ↔
    validKind e.kind ∧ e.did.length ≤ maxUint16 ∧ e.collection.length ≤ maxUint8 ∧
      e.rkey.length ≤ maxUint8 ∧ e.rev.length ≤ maxUint8 ∧
      e.payloadBytes.length ≤ maxUint32 := by
  have hcheck {f} {b} {max} :
      checkLength f b max = .ok u ↔ b.length ≤ max := by
    by_cases h : max < b.length
    · simp only [checkLength, h, if_true, reduceCtorEq, false_iff, not_le]
    · simp only [checkLength, h, if_false, true_iff]
      omega
  cases hk : validKind e.kind <;> simp [validateEvent, hk, hcheck]

section Columns

variable {parts : List Bytes}

theorem foldlM_sum (s : ℕ) :
    lens.foldlM (fun t v => if maxInt < t + v then .error .errTruncatedBlock
      else .ok (t + v) : ℕ → ℕ → Except DecodeError ℕ) s = .ok t ↔
      s + lens.sum = t ∧ (lens ≠ [] → t ≤ maxInt) := by
  induction lens generalizing s with
  | nil => simp [pure, Except.pure]
  | cons v lens ih =>
    rw [foldlM_cons, bind_eq_ok]
    by_cases h : maxInt < s + v
    · simp only [h, if_true, reduceCtorEq, false_and, exists_false, false_iff, sum_cons]
      rintro ⟨rfl, hle⟩
      have := hle nofun
      omega
    · simp only [h, if_false, Except.ok.injEq, exists_eq_left', ih, sum_cons]
      constructor
      · rintro ⟨rfl, hle⟩
        refine ⟨by omega, fun _ => ?_⟩
        cases lens with
        | nil => simpa using h
        | cons v' rest => exact hle nofun
      · rintro ⟨rfl, hle⟩
        exact ⟨by omega, fun _ => hle nofun⟩

theorem sumU_eq_ok (hw : 0 < w) (hlen : chunk.length = n * w)
    (hdec : decodeColumn w n chunk = some lens) :
    sumU w chunk = .ok t ↔ lens.sum = t ∧ t ≤ maxInt := by
  have hn : chunk.length / w = n := by rw [hlen, Nat.mul_div_cancel _ hw]
  rw [sumU, bind_eq_ok, hn, hdec]
  simp only [index_eq_ok, Option.some.injEq, exists_eq_left', foldlM_sum, Nat.zero_add]
  refine and_congr_right fun hsum => ⟨fun hle => ?_, fun hle _ => hle⟩
  by_cases hnil : lens = []
  · rw [←hsum, hnil]
    exact Nat.zero_le _
  · exact hle hnil

-- A column of strings: its lengths add up to its bytes, and the strings are found again.
theorem cutBlob_eq_ok (hw : 0 < w) (hlen : chunk.length = n * w)
    (hsum : sumU w chunk = .ok blob.length) : cutBlob w n chunk blob = .ok parts ↔
      parts.length = n ∧ (∀ p ∈ parts, p.length < 256 ^ w) ∧
      encodeColumn w (parts.map length) = chunk ∧ parts.flatten = blob := by
  obtain ⟨lens, hdec⟩ := exists_decodeColumn hlen
  obtain ⟨htotal, _⟩ := (sumU_eq_ok hw hlen hdec).mp hsum
  simp only [cutBlob, bind_eq_ok, index_eq_ok, hdec, Option.some.injEq, exists_eq_left',
    slices_eq_some htotal]
  obtain ⟨hn, hlt, henc⟩ := (decodeColumn_eq_some hlen).mp hdec
  constructor
  · rintro ⟨rfl, hflat⟩
    rw [length_map] at hn
    exact ⟨hn, fun p hp => hlt _ (mem_map_of_mem hp), henc, hflat⟩
  rintro ⟨hn', hlt', henc', hflat⟩
  refine ⟨?_, hflat⟩
  have hdec' : decodeColumn w n chunk = some (parts.map length) := (decodeColumn_eq_some hlen).mpr
      ⟨by rw [length_map, hn'], by simpa using hlt', henc'⟩
  exact Option.some.inj (hdec'.symm.trans hdec)

-- The lengths of a column that was laid out are within the trap.
theorem sumU_encodeColumn (hw : 0 < w) (hlt : ∀ p ∈ parts, p.length < 256 ^ w)
    (hle : parts.flatten.length ≤ maxInt) :
    sumU w (encodeColumn w (parts.map length)) = .ok parts.flatten.length := by
  have hlen : (encodeColumn w (parts.map length)).length = _ := length_encodeColumn
  have hdec : decodeColumn w _ (encodeColumn w (parts.map length)) = some _ :=
    (decodeColumn_eq_some hlen).mpr ⟨rfl, by simpa using hlt, rfl⟩
  exact (sumU_eq_ok hw hlen hdec).mpr ⟨length_flatten.symm, hle⟩

end Columns

section Rows

theorem map_map_range {f : Event → γ} {l} (d : γ)
    (hn : l.length = n) (h : ∀ i, f (g i) = l.getD i d) : ((range n).map g).map f = l := by
  apply ext_getElem
  · rw [length_map, length_map, length_range, hn]
  · intro i _ hi
    rw [getElem_map, getElem_map, getElem_range, h, getD_eq_getElem?_getD,
      getElem?_eq_getElem hi, Option.getD_some]

theorem getD_lt (hb : 0 < b) (h : ∀ v ∈ l, v < b) (i : ℕ) : l.getD i 0 < b := by
  rw [getD_eq_getElem?_getD]
  cases hi : l[i]? with
  | none => exact hb
  | some v => exact h v (mem_of_getElem? hi)

end Rows

theorem encodeColumns_eq (events : List Event) : encodeColumns events =
    encodeColumn 8 (events.map (·.seq.toNat)) ++
    (encodeColumn 8 (events.map (·.witnessedAt.toUInt64.toNat)) ++
    (encodeColumn 8 (events.map (·.indexedAt.toUInt64.toNat)) ++
    (encodeColumn 1 (events.map (·.kind.toNat)) ++
    (encodeColumn 1 ((events.map (·.collection)).map length) ++
    (encodeColumn 2 ((events.map (·.did)).map length) ++
    (encodeColumn 1 ((events.map (·.rkey)).map length) ++
    (encodeColumn 1 ((events.map (·.rev)).map length) ++
    (encodeColumn 4 ((events.map (·.payloadBytes)).map length) ++
    ((events.map (·.collection)).flatten ++
    ((events.map (·.did)).flatten ++
    ((events.map (·.rkey)).flatten ++
    ((events.map (·.rev)).flatten ++
    (events.map (·.payloadBytes)).flatten)))))))))))) := by
  simp only [encodeColumns, map_map, Function.comp_def]

theorem stored_eventAt (seqs wits idxs kinds : List ℕ) (colls dids rkeys revs payloads : List Bytes)
    (i : ℕ) : (eventAt seqs wits idxs kinds colls dids rkeys revs payloads i).stored =
      eventAt seqs wits idxs kinds colls dids rkeys revs payloads i := by
  by_cases h : payloads.getD i [] = []
  · simp only [stored, eventAt, Event.payloadBytes, h, length_nil, if_true, Option.getD_none]
  · have hpos : (payloads.getD i []).length ≠ 0 := fun hz => h (eq_nil_of_length_eq_zero hz)
    simp only [stored, eventAt, Event.payloadBytes, hpos, if_false, Option.getD_some, h]

variable {events : List Event}

-- What is read back is what was laid out, byte for byte. It passes validation.
theorem encodeColumns_of_decodeEvents
    (h : decodeEvents n rest = .ok events) : events.length = n ∧ encodeColumns events = rest ∧
      ∀ e ∈ events, validateEvent e = .ok () ∧ e.stored = e := by
  simp only [decodeEvents, bind_eq_ok, Prod.exists, read_eq_ok, index_eq_ok, require_eq_ok,
    pure_eq_ok, sumU8, sumU16, sumU32] at h
  obtain ⟨c₁, r₁, ⟨h₁, q₁⟩, seqs, hseqs, h⟩ := h
  obtain ⟨c₂, r₂, ⟨h₂, q₂⟩, wits, hwits, h⟩ := h
  obtain ⟨c₃, r₃, ⟨h₃, q₃⟩, idxs, hidxs, h⟩ := h
  obtain ⟨c₄, r₄, ⟨h₄, q₄⟩, kinds, hkinds, _, hvalid, h⟩ := h
  obtain ⟨c₅, r₅, ⟨h₅, q₅⟩, c₆, r₆, ⟨h₆, q₆⟩, c₇, r₇, ⟨h₇, q₇⟩, h⟩ := h
  obtain ⟨c₈, r₈, ⟨h₈, q₈⟩, c₉, r₉, ⟨h₉, q₉⟩, h⟩ := h
  obtain ⟨t₁, ht₁, t₂, ht₂, t₃, ht₃, t₄, ht₄, t₅, ht₅, h⟩ := h
  obtain ⟨b₁, s₁, ⟨k₁, p₁⟩, b₂, s₂, ⟨k₂, p₂⟩, b₃, s₃, ⟨k₃, p₃⟩, h⟩ := h
  obtain ⟨b₄, s₄, ⟨k₄, p₄⟩, b₅, s₅, ⟨k₅, p₅⟩, _, hend, h⟩ := h
  obtain ⟨colls, hcolls, dids, hdids, rkeys, hrkeys, revs, hrevs, payloads, hpayloads, hev⟩ := h
  have hone {c : Bytes} (hc : c.length = n) : c.length = n * 1 := by rw [hc, Nat.mul_one]
  obtain ⟨n₁, l₁, e₁⟩ := (decodeColumn_eq_some h₁).mp hseqs
  obtain ⟨n₂, l₂, e₂⟩ := (decodeColumn_eq_some h₂).mp hwits
  obtain ⟨n₃, l₃, e₃⟩ := (decodeColumn_eq_some h₃).mp hidxs
  obtain ⟨n₄, l₄, e₄⟩ := (decodeColumn_eq_some (hone h₄)).mp hkinds
  obtain ⟨n₅, l₅, e₅, f₅⟩ := (cutBlob_eq_ok Nat.one_pos (hone h₅) (k₁ ▸ ht₁)).mp hcolls
  obtain ⟨n₆, l₆, e₆, f₆⟩ := (cutBlob_eq_ok Nat.two_pos h₆ (k₂ ▸ ht₂)).mp hdids
  obtain ⟨n₇, l₇, e₇, f₇⟩ := (cutBlob_eq_ok Nat.one_pos (hone h₇) (k₃ ▸ ht₃)).mp hrkeys
  obtain ⟨n₈, l₈, e₈, f₈⟩ := (cutBlob_eq_ok Nat.one_pos (hone h₈) (k₄ ▸ ht₄)).mp hrevs
  obtain ⟨n₉, l₉, e₉, f₉⟩ := (cutBlob_eq_ok (by decide) h₉ (k₅ ▸ ht₅)).mp hpayloads
  have hmap {γ} {f} {l : List γ} (d : γ) (hn : l.length = n)
      (hf : ∀ i, f (eventAt seqs wits idxs kinds colls dids rkeys revs payloads i) = l.getD i d) :
      events.map f = l :=
    hev ▸ map_map_range d hn hf
  have m₁ : events.map (·.seq.toNat) = seqs := hmap 0 n₁ fun i =>
    UInt64.toNat_ofNat_of_lt' (getD_lt (by decide) l₁ i)
  have m₂ : events.map (·.witnessedAt.toUInt64.toNat) = wits := hmap 0 n₂ fun i =>
    UInt64.toNat_ofNat_of_lt' (getD_lt (by decide) l₂ i)
  have m₃ : events.map (·.indexedAt.toUInt64.toNat) = idxs := hmap 0 n₃ fun i =>
    UInt64.toNat_ofNat_of_lt' (getD_lt (by decide) l₃ i)
  have m₄ : events.map (·.kind.toNat) = kinds := hmap 0 n₄ fun i =>
    UInt8.toNat_ofNat_of_lt' (getD_lt (by decide) l₄ i)
  have m₅ : events.map (·.collection) = colls := hmap [] n₅ fun _ => rfl
  have m₆ : events.map (·.did) = dids := hmap [] n₆ fun _ => rfl
  have m₇ : events.map (·.rkey) = rkeys := hmap [] n₇ fun _ => rfl
  have m₈ : events.map (·.rev) = revs := hmap [] n₈ fun _ => rfl
  have m₉ : events.map (·.payloadBytes) = payloads := hmap [] n₉ fun i => by
    simp only [Event.payloadBytes, eventAt]
    split
    case isTrue hz => exact (eq_nil_of_length_eq_zero hz).symm
    case isFalse hz => rfl
  refine ⟨by rw [←hev, length_map, length_range], ?_, fun e he => ?_⟩
  · rw [encodeColumns_eq, m₁, m₂, m₃, m₄, m₅, m₆, m₇, m₈, m₉, e₁, e₂, e₃, e₄, e₅, e₆, e₇, e₈, e₉,
      f₅, f₆, f₇, f₈, f₉, ←q₁, ←q₂, ←q₃, ←q₄, ←q₅, ←q₆, ←q₇, ←q₈, ←q₉, ←p₁, ←p₂, ←p₃,
      ← p₄, ←p₅, hend, append_nil]
  have hlt {γ} {f} {l : List γ} (hm : events.map f = l) : f e ∈ l :=
    hm ▸ mem_map_of_mem he
  have hkind := hvalid _ (hlt m₄)
  rw [UInt8.ofNat_toNat] at hkind
  refine ⟨validateEvent_eq_ok.mpr ⟨hkind, Nat.le_sub_one_of_lt (l₆ _ (hlt m₆)),
    Nat.le_sub_one_of_lt (l₅ _ (hlt m₅)), Nat.le_sub_one_of_lt (l₇ _ (hlt m₇)),
    Nat.le_sub_one_of_lt (l₈ _ (hlt m₈)), Nat.le_sub_one_of_lt (l₉ _ (hlt m₉))⟩, ?_⟩
  rw [←hev] at he
  obtain ⟨i, _, hi⟩ := mem_map.mp he
  rw [←hi, stored_eventAt]

theorem payload_eq (e : Event) : (if e.payloadBytes = [] then none else some e.payloadBytes) =
    if e.payloadBytes = [] then none else e.payload := by
  cases hp : e.payload with
  | none => simp only [Event.payloadBytes, hp, Option.getD_none, if_true]
  | some b => simp only [Event.payloadBytes, hp, Option.getD_some]

-- The rows that are read from the columns of some events.
theorem map_eventAt (events : List Event) :
    (range events.length).map (eventAt (events.map (·.seq.toNat))
      (events.map (·.witnessedAt.toUInt64.toNat)) (events.map (·.indexedAt.toUInt64.toNat))
      (events.map (·.kind.toNat)) (events.map (·.collection)) (events.map (·.did))
      (events.map (·.rkey)) (events.map (·.rev)) (events.map (·.payloadBytes))) =
    events.map stored := by
  apply ext_getElem
  · rw [length_map, length_map, length_range]
  intro i hi _
  rw [length_map, length_range] at hi
  have hget {γ : Type} (f : Event → γ) (d : γ) : (events.map f).getD i d = f events[i] := by
    rw [getD_eq_getElem?_getD, getElem?_map, getElem?_eq_getElem hi]
    rfl
  rw [getElem_map, getElem_range, getElem_map]
  simp only [eventAt, hget, stored, UInt64.ofNat_toNat, UInt8.ofNat_toNat,
    length_eq_zero_iff, payload_eq]
  rfl

section Layout

variable {f : Event → Bytes}

theorem length_column (hl : l.length = events.length) :
    (encodeColumn w l).length = events.length * w := by
  rw [length_encodeColumn, hl]

theorem length_column_one (hl : l.length = events.length) :
    (encodeColumn 1 l).length = events.length := by
  rw [length_column hl, Nat.mul_one]

theorem decodeColumn_map {f} (hf : ∀ e ∈ events, f e < 256 ^ w) :
    decodeColumn w events.length (encodeColumn w (events.map f)) = some (events.map f) :=
  (decodeColumn_eq_some (length_column (length_map _))).mpr ⟨length_map _, by simpa using hf, rfl⟩

-- Four-byte lengths of that many events cannot overflow.
theorem sumU_map (hn : events.length ≤ maxBlockEventsLimit) (hw : 0 < w)
    (hf : ∀ e ∈ events, (f e).length < 256 ^ w) (hmax : ∀ e ∈ events, (f e).length ≤ maxUint32) :
    sumU w (encodeColumn w ((events.map f).map length)) = .ok (events.map f).flatten.length := by
  refine sumU_encodeColumn hw (by simpa using hf) ?_
  have hle : (events.map f).flatten.length ≤ (events.map f).length * maxUint32 :=
    length_flatten_le (by simpa using hmax)
  rw [length_map] at hle
  calc (events.map f).flatten.length
    _ ≤ events.length * maxUint32 := hle
    _ ≤ maxBlockEventsLimit * maxUint32 := Nat.mul_le_mul_right _ hn
    _ ≤ maxInt := by decide

theorem cutBlob_map (hw : 0 < w) (hf : ∀ e ∈ events, (f e).length < 256 ^ w)
    (hsum : sumU w (encodeColumn w ((events.map f).map length)) =
      .ok (events.map f).flatten.length) :
    cutBlob w events.length (encodeColumn w ((events.map f).map length))
      (events.map f).flatten = .ok (events.map f) :=
  (cutBlob_eq_ok hw (length_column (by rw [length_map, length_map])) hsum).mpr
    ⟨length_map _, by simpa using hf, rfl, rfl⟩

theorem decodeEvents_encodeColumns (hn : events.length ≤ maxBlockEventsLimit)
    (hv : ∀ e ∈ events, validateEvent e = .ok ()) :
    decodeEvents events.length (encodeColumns events) = .ok (events.map stored) := by
  have hvalid := fun e he => validateEvent_eq_ok.mp (hv e he)
  have hcoll : ∀ e ∈ events, e.collection.length < 256 ^ 1 := fun e he =>
    lt_of_le_of_lt (hvalid e he).2.2.1 (by decide)
  have hdid : ∀ e ∈ events, e.did.length < 256 ^ 2 := fun e he =>
    lt_of_le_of_lt (hvalid e he).2.1 (by decide)
  have hrkey : ∀ e ∈ events, e.rkey.length < 256 ^ 1 := fun e he =>
    lt_of_le_of_lt (hvalid e he).2.2.2.1 (by decide)
  have hrev : ∀ e ∈ events, e.rev.length < 256 ^ 1 := fun e he =>
    lt_of_le_of_lt (hvalid e he).2.2.2.2.1 (by decide)
  have hpayload : ∀ e ∈ events, e.payloadBytes.length < 256 ^ 4 := fun e he =>
    lt_of_le_of_lt (hvalid e he).2.2.2.2.2 (by decide)
  have hmax {w} {f : Event → Bytes} (hw : w ≤ 4) (hf : ∀ e ∈ events, (f e).length < 256 ^ w) :
      ∀ e ∈ events, (f e).length ≤ maxUint32 := fun e he =>
    Nat.le_sub_one_of_lt (lt_of_lt_of_le (hf e he) (Nat.pow_le_pow_right (by decide) hw))
  have hkinds : ∀ k ∈ events.map (·.kind.toNat), validKind (.ofNat k) := by
    intro k hk
    obtain ⟨e, he, rfl⟩ := mem_map.mp hk
    rw [UInt8.ofNat_toNat]
    exact (hvalid e he).1
  have s₁ := sumU_map hn Nat.one_pos hcoll (hmax (by decide) hcoll)
  have s₂ := sumU_map hn Nat.two_pos hdid (hmax (by decide) hdid)
  have s₃ := sumU_map hn Nat.one_pos hrkey (hmax (by decide) hrkey)
  have s₄ := sumU_map hn Nat.one_pos hrev (hmax (by decide) hrev)
  have s₅ := sumU_map hn (by decide) hpayload (hmax (by decide) hpayload)
  have hl {γ} {f : Event → γ} : (events.map f).length = events.length := length_map _
  have hll {γ} {f : Event → List γ} :
      ((events.map f).map length).length = events.length := by
    rw [length_map, hl]
  rw [encodeColumns_eq]
  simp only [decodeEvents, bind_eq_ok, Prod.exists, read_eq_ok, index_eq_ok, require_eq_ok,
    pure_eq_ok, sumU8, sumU16, sumU32]
  exact ⟨_, _, ⟨length_column hl, rfl⟩, _, decodeColumn_map fun e _ => e.seq.toNat_lt,
    _, _, ⟨length_column hl, rfl⟩, _, decodeColumn_map fun e _ => e.witnessedAt.toUInt64.toNat_lt,
    _, _, ⟨length_column hl, rfl⟩, _, decodeColumn_map fun e _ => e.indexedAt.toUInt64.toNat_lt,
    _, _, ⟨length_column_one hl, rfl⟩, _, decodeColumn_map fun e _ => e.kind.toNat_lt, (), hkinds,
    _, _, ⟨length_column_one hll, rfl⟩, _, _, ⟨length_column hll, rfl⟩,
    _, _, ⟨length_column_one hll, rfl⟩, _, _, ⟨length_column_one hll, rfl⟩,
    _, _, ⟨length_column hll, rfl⟩, _, s₁, _, s₂, _, s₃, _, s₄, _, s₅,
    _, _, ⟨rfl, rfl⟩, _, _, ⟨rfl, rfl⟩, _, _, ⟨rfl, rfl⟩, _, _, ⟨rfl, rfl⟩,
    _, _, ⟨rfl, append_nil _⟩, (), rfl, _, cutBlob_map Nat.one_pos hcoll s₁,
    _, cutBlob_map Nat.two_pos hdid s₂, _, cutBlob_map Nat.one_pos hrkey s₃,
    _, cutBlob_map Nat.one_pos hrev s₄, _, cutBlob_map (by decide) hpayload s₅,
    map_eventAt events⟩

end Layout

-- No index of the decoder is outside its slice.
def Total {α : Type} (x : Except DecodeError α) : Prop :=
  x ≠ .error .indexOutOfRange

theorem Total.bind (hx : Total x) (hf : ∀ a, x = .ok a → Total (f a)) : Total (x >>= f) := by
  cases x with
  | ok a => exact hf a rfl
  | error e => exact fun h => hx (congrArg _ (Except.error.inj h))

theorem total_require [Decidable p] : Total (require p) := by
  by_cases h : p <;> simp [Total, require, h]

theorem total_read : Total (read n rest) := by
  by_cases h : rest.length < n <;> simp [Total, read, h]

theorem total_column (h : chunk.length = n * w) : Total (index (decodeColumn w n chunk)) := by
  have ⟨values, hv⟩ := exists_decodeColumn h
  simp [Total, index, hv]

theorem total_foldlM {lens : List ℕ} (t : ℕ) :
    Total (lens.foldlM (fun t v => if maxInt < t + v then .error .errTruncatedBlock
      else .ok (t + v) : ℕ → ℕ → Except DecodeError ℕ) t) := by
  induction lens generalizing t with
  | nil => exact nofun
  | cons v lens ih =>
    refine Total.bind ?_ fun a _ => ih a
    by_cases h : maxInt < t + v <;> simp [Total, h]

theorem total_sumU (hw : 0 < w) (h : chunk.length = n * w) : Total (sumU w chunk) := by
  refine Total.bind (total_column ?_) fun lens _ => total_foldlM 0
  rw [h, Nat.mul_div_cancel _ hw]

theorem total_cutBlob (hw : 0 < w) (h : chunk.length = n * w)
    (hsum : sumU w chunk = .ok blob.length) : Total (cutBlob w n chunk blob) := by
  refine (total_column h).bind fun lens hdec => ?_
  have ⟨htotal, _⟩ := (sumU_eq_ok hw h (index_eq_ok.mp hdec)).mp hsum
  rw [slices_eq (by omega)]
  exact nofun

theorem total_decodeEvents (n : ℕ) (rest : Bytes) : Total (decodeEvents n rest) := by
  have hlen {k} {rest} {r} (h : read k rest = .ok r) :
      r.1.length = k := (read_eq_ok.mp h).left
  have hone {rest} {r} (h : read n rest = .ok r) :
      r.1.length = n * 1 := by rw [hlen h, Nat.mul_one]
  refine total_read.bind fun ⟨c₁, r₁⟩ h₁ => (total_column (hlen h₁)).bind fun seqs _ => ?_
  refine total_read.bind fun ⟨c₂, r₂⟩ h₂ => (total_column (hlen h₂)).bind fun witnessed _ => ?_
  refine total_read.bind fun ⟨c₃, r₃⟩ h₃ => (total_column (hlen h₃)).bind fun indexed _ => ?_
  refine total_read.bind fun ⟨c₄, r₄⟩ h₄ => (total_column (hone h₄)).bind fun kinds _ => ?_
  refine total_require.bind fun _ _ => ?_
  refine total_read.bind fun ⟨c₅, r₅⟩ h₅ => total_read.bind fun ⟨c₆, r₆⟩ h₆ => ?_
  refine total_read.bind fun ⟨c₇, r₇⟩ h₇ => total_read.bind fun ⟨c₈, r₈⟩ h₈ => ?_
  refine total_read.bind fun ⟨c₉, r₉⟩ h₉ => ?_
  refine (total_sumU Nat.one_pos (hone h₅)).bind fun t₁ s₁ => ?_
  refine (total_sumU Nat.two_pos (hlen h₆)).bind fun t₂ s₂ => ?_
  refine (total_sumU Nat.one_pos (hone h₇)).bind fun t₃ s₃ => ?_
  refine (total_sumU Nat.one_pos (hone h₈)).bind fun t₄ s₄ => ?_
  refine (total_sumU (by decide) (hlen h₉)).bind fun t₅ s₅ => ?_
  refine total_read.bind fun ⟨b₁, q₁⟩ k₁ => total_read.bind fun ⟨b₂, q₂⟩ k₂ => ?_
  refine total_read.bind fun ⟨b₃, q₃⟩ k₃ => total_read.bind fun ⟨b₄, q₄⟩ k₄ => ?_
  refine total_read.bind fun ⟨b₅, q₅⟩ k₅ => total_require.bind fun _ _ => ?_
  refine (total_cutBlob Nat.one_pos (hone h₅) (hlen k₁ ▸ s₁)).bind fun _ _ => ?_
  refine (total_cutBlob Nat.two_pos (hlen h₆) (hlen k₂ ▸ s₂)).bind fun _ _ => ?_
  refine (total_cutBlob Nat.one_pos (hone h₇) (hlen k₃ ▸ s₃)).bind fun _ _ => ?_
  refine (total_cutBlob Nat.one_pos (hone h₈) (hlen k₄ ▸ s₄)).bind fun _ _ => ?_
  refine (total_cutBlob (by decide) (hlen h₉) (hlen k₅ ▸ s₅)).bind fun _ _ => ?_
  exact nofun

theorem total_decodeBlock (buf : Bytes) : Total (decodeBlock buf) := by
  refine total_read.bind fun ⟨header, rest⟩ _ => ?_
  refine total_require.bind fun _ _ => total_require.bind fun _ _ => ?_
  split
  · exact total_require.bind fun _ _ => nofun
  · exact total_decodeEvents _ rest

theorem decodeBlock_eq_ok : decodeBlock buf = .ok events ↔
    ∃ header rest, header.length = 4 ∧ header ++ rest = buf ∧ decode header ≤ maxBlockEventsLimit ∧
      decode header * fixedPerEvent ≤ rest.length ∧
      if decode header = 0 then rest = [] ∧ events = []
      else decodeEvents (decode header) rest = .ok events := by
  simp only [decodeBlock, bind_eq_ok, Prod.exists, read_eq_ok, require_eq_ok, and_assoc,
    exists_and_left, exists_const]
  refine exists_congr fun header => and_congr_right fun _ => exists_congr fun rest => ?_
  by_cases h : decode header = 0
  · simp only [h, if_true, bind_eq_ok, require_eq_ok, pure_eq_ok, exists_const,
      eq_comm (a := events)]
  · simp [h]

theorem fixed_le_length (events : List Event) :
    events.length * fixedPerEvent ≤ (encodeColumns events).length := by
  simp only [encodeColumns, length_append, length_encodeColumn, length_map, fixedPerEvent]
  omega

theorem header_eq (h : header.length = 4) : encode 4 (decode header) = header :=
  h ▸ encode_decode header

theorem length_encodeColumns (events : List Event) : (encodeColumns events).length =
    (events.map fun e => fixedPerEvent + e.collection.length + e.did.length + e.rkey.length +
      e.rev.length + e.payloadBytes.length).sum := by
  induction events with
  | nil => rfl
  | cons e events ih =>
    simp only [encodeColumns, length_append, length_encodeColumn, length_map,
      map_cons, flatten_cons, length_cons, sum_cons, fixedPerEvent] at ih ⊢
    omega

theorem length_encodeColumns_filter (keep : Event → Bool) (events : List Event) :
    (encodeColumns (events.filter keep)).length ≤ (encodeColumns events).length := by
  rw [length_encodeColumns, length_encodeColumns]
  induction events with
  | nil => exact le_rfl
  | cons e events ih =>
    rw [filter_cons]
    split <;> simp only [map_cons, sum_cons] <;> omega

-- Some of the rows of a block make a block again, and it takes no more bytes.
theorem decodeBlock_filter (h : decodeBlock buf = .ok events)
    (keep : Event → Bool) : ∃ body, body.length ≤ buf.length ∧
      (events.filter keep = [] → encodeEmptyBlock = body) ∧
      (events.filter keep ≠ [] → encodeBlock (events.filter keep) = some body) ∧
      decodeBlock body = .ok (events.filter keep) := by
  have ⟨header, rest, hlen, hbuf, hn, _, hrest⟩ := decodeBlock_eq_ok.mp h
  have hbuflen : buf.length = 4 + rest.length := by rw [←hbuf, length_append, hlen]
  by_cases hnil : events.filter keep = []
  · refine ⟨encodeEmptyBlock, ?_, fun _ => rfl, fun hne => absurd hnil hne, hnil ▸ rfl⟩
    rw [hbuflen]
    exact Nat.le_add_right ..
  have hzero : decode header ≠ 0 := by
    intro hzero
    rw [if_pos hzero] at hrest
    exact hnil (by rw [hrest.right]; rfl)
  rw [if_neg hzero] at hrest
  have ⟨hcount, henc, hvalid⟩ := encodeColumns_of_decodeEvents hrest
  have hkept : ∀ e ∈ events.filter keep, e ∈ events := fun _ he => mem_of_mem_filter he
  have hle : (events.filter keep).length ≤ 2 ^ 18 := (length_filter_le ..).trans (hcount ▸ hn)
  have hpos : (events.filter keep).length ≠ 0 := fun hz => hnil (eq_nil_of_length_eq_zero hz)
  have hdec : decode (encode 4 (events.filter keep).length) = (events.filter keep).length :=
    decode_encode (Nat.lt_of_le_of_lt hle (by decide))
  refine ⟨_, ?_, fun h => absurd h hnil, fun _ => if_neg hpos,
    decodeBlock_eq_ok.mpr ⟨_, _, length_encode .., rfl, ?_⟩⟩
  · have := length_encodeColumns_filter keep events
    rw [henc] at this
    simp only [encodeBlockInto, nil_append, length_append, length_encode]
    omega
  · rw [hdec, if_neg hpos]
    refine ⟨hle, fixed_le_length _, ?_⟩
    rw [decodeEvents_encodeColumns hle fun e he => (hvalid e (hkept e he)).left]
    refine congrArg _ ((map_congr_left fun e he => ?_).trans (map_id _))
    exact (hvalid e (hkept e he)).right

theorem payloadBytes_stored (e : Event) : e.stored.payloadBytes = e.payloadBytes := by
  by_cases h : e.payloadBytes = []
  · simp only [stored, h, if_true]
    rfl
  · simp only [stored, h, if_false]
    rfl

-- The encoding has only what is stored.
theorem encodeBlock_stored (events : List Event) :
    encodeBlock (events.map stored) = encodeBlock events := by
  have hcolumns : encodeColumns (events.map stored) = encodeColumns events := by
    simp only [encodeColumns, map_map, Function.comp_def, payloadBytes_stored]
    rfl
  rw [encodeBlock, encodeBlock, encodeBlockInto, encodeBlockInto, hcolumns, length_map]

theorem stored_of_decodeBlock (h : decodeBlock buf = .ok events) : ∀ e ∈ events, e.stored = e := by
  have ⟨header, rest, _, _, _, _, hrest⟩ := decodeBlock_eq_ok.mp h
  by_cases hzero : decode header = 0
  · rw [if_pos hzero] at hrest
    rw [hrest.right]
    exact nofun
  · rw [if_neg hzero] at hrest
    exact fun e he => ((encodeColumns_of_decodeEvents hrest).right.right e he).right

def Event.retime (t : Event → Int64) (e : Event) : Event :=
  { e with indexedAt := t e }

-- The display times have a column of their own, and of a fixed width.
theorem decodeBlock_retime (h : decodeBlock buf = .ok events)
    (hne : events ≠ []) (t : Event → Int64) : ∃ body,
      encodeBlock (events.map (Event.retime t)) = some body ∧ body.length = buf.length ∧
      decodeBlock body = .ok (events.map (Event.retime t)) := by
  have ⟨header, rest, hlen, hbuf, hn, _, hrest⟩ := decodeBlock_eq_ok.mp h
  have hzero : decode header ≠ 0 := by
    intro hzero
    rw [if_pos hzero] at hrest
    exact hne hrest.right
  rw [if_neg hzero] at hrest
  have ⟨hcount, henc, hvalid⟩ := encodeColumns_of_decodeEvents hrest
  have hmap : (events.map (Event.retime t)).length = events.length := length_map _
  have hpos : (events.map (Event.retime t)).length ≠ 0 := by
    rw [hmap, hcount]
    exact hzero
  have hle : (events.map (Event.retime t)).length ≤ maxBlockEventsLimit := by
    rw [hmap, hcount]
    exact hn
  have hdec : decode (encode 4 (events.map (Event.retime t)).length) =
      (events.map (Event.retime t)).length :=
    decode_encode (lt_of_le_of_lt hle (by decide))
  refine ⟨_, if_neg hpos, ?_, decodeBlock_eq_ok.mpr ⟨_, _, length_encode .., rfl, ?_⟩⟩
  · rw [←hbuf, encodeBlockInto, nil_append, length_append, length_append, hlen,
      length_encode, ←henc, length_encodeColumns, length_encodeColumns, map_map]
    rfl
  rw [hdec, if_neg hpos]
  refine ⟨hle, fixed_le_length _, ?_⟩
  rw [decodeEvents_encodeColumns hle (forall_mem_map.mpr fun e he => (hvalid e he).left), map_map]
  refine congrArg _ (map_congr_left fun e he => ?_)
  exact congrArg (Event.retime fun _ => t e) (hvalid e he).right

theorem length_of_decodeBlock
    (h : decodeBlock buf = .ok events) : events.length ≤ maxBlockEventsLimit := by
  have ⟨header, rest, _, _, hn, _, hrest⟩ := decodeBlock_eq_ok.mp h
  by_cases hzero : decode header = 0
  · rw [if_pos hzero] at hrest
    rw [hrest.right]
    exact Nat.zero_le _
  · rw [if_neg hzero] at hrest
    exact (encodeColumns_of_decodeEvents hrest).left ▸ hn

theorem codec_bijective : (∀ events : List Event, events ≠ [] → events.length ≤ 2 ^ 18 →
      (∀ e ∈ events, validateEvent e = .ok ()) →
      ∃ buf, encodeBlock events = some buf ∧ decodeBlock buf = .ok (events.map stored)) ∧
    ∀ buf, decodeBlock buf = .error .errTruncatedBlock ∨ ∃ events, decodeBlock buf = .ok events ∧
      if events = [] then encodeEmptyBlock = buf else encodeBlock events = some buf := by
  refine ⟨fun events hne hn hv => ?_, fun buf => ?_⟩
  · have hpos : events.length ≠ 0 := fun h => hne (eq_nil_of_length_eq_zero h)
    have hdec : decode (encode 4 events.length) = events.length :=
      decode_encode (lt_of_le_of_lt hn (by decide))
    refine ⟨_, if_neg hpos, decodeBlock_eq_ok.mpr ⟨encode 4 events.length,
      encodeColumns events, length_encode .., rfl, ?_⟩⟩
    rw [hdec, if_neg hpos]
    exact ⟨hn, fixed_le_length events, decodeEvents_encodeColumns hn hv⟩
  · cases hb : decodeBlock buf with
    | error e =>
      cases e with
      | errTruncatedBlock => exact .inl rfl
      | indexOutOfRange => exact absurd hb (total_decodeBlock buf)
    | ok events =>
      obtain ⟨header, rest, hlen, rfl, _, _, hrest⟩ := decodeBlock_eq_ok.mp hb
      refine .inr ⟨events, rfl, ?_⟩
      have hheader := header_eq hlen
      by_cases hzero : decode header = 0
      · rw [if_pos hzero] at hrest
        rw [if_pos hrest.right, hrest.left, append_nil, ←hheader, hzero]
        rfl
      rw [if_neg hzero] at hrest
      have ⟨hn, henc, _⟩ := encodeColumns_of_decodeEvents hrest
      have hpos : events.length ≠ 0 := hn.symm ▸ hzero
      rw [if_neg (fun h => hpos (congrArg length h)), encodeBlock, if_neg hpos,
        encodeBlockInto, hn, hheader, henc]
      rfl

end Jetstream.BlockCodec
