import HypercertsRelay.Jetstream.Sealed.Format

-- The collections with their counts, and for each block the numbers of those in it.
namespace Jetstream.Sealed

open List Except LittleEndian
open LittleEndian (encode decode encodeFields decodeFields)

structure CollectionIndex where
  stringTable : List Bytes
  eventCounts : List UInt32
  blockBitmasks : List (List ℕ)
  deriving DecidableEq

def collectionIndexHeaderSize := 16

def bitmaskLen (collectionCount : ℕ) : ℕ :=
  (collectionCount + 7) / 8

section Mask

def setBit (mask : Bytes) (id : ℕ) : Bytes :=
  mask.modify (id / 8) (· ||| UInt8.ofNat (2 ^ (id % 8)))

def testBit (mask : Bytes) (id : ℕ) : Bool :=
  (mask.getD (id / 8) 0).toNat.testBit (id % 8)

def encodeMask (len : ℕ) (ids : List ℕ) : Bytes :=
  ids.foldl setBit (List.replicate len 0)

def decodeMask (collectionCount i : ℕ) (mask : Bytes) : Except String (List ℕ) := do
  let ids := (List.range (8 * mask.length)).filter (testBit mask)
  require (∀ id ∈ ids, id < collectionCount)
    s!"{errInvalidFooter}: block {i} bitmask references a collection id past the table ({collectionCount})"
  return ids

variable {ids : List ℕ} {id len : ℕ}

@[simp]
theorem length_setBit : (setBit mask id).length = mask.length := by
  simp [setBit]

theorem testBit_setBit (h : id / 8 < mask.length) :
    testBit (setBit mask id) id' = (testBit mask id' || id == id') := by
  have hbit : (UInt8.ofNat (2 ^ (id % 8))).toNat = 2 ^ (id % 8) := by
    apply UInt8.toNat_ofNat_of_lt'
    exact Nat.pow_lt_pow_right (by decide) (Nat.mod_lt _ (by decide))
  simp only [testBit, setBit, getD_eq_getElem?_getD, getElem?_modify]
  by_cases hd : id / 8 = id' / 8
  · have hlt : id' / 8 < mask.length := hd ▸ h
    simp only [hd, if_true, getElem?_eq_getElem hlt, Option.map_eq_map, Option.map_some, Option.getD_some,
      UInt8.toNat_or, Nat.testBit_or, hbit, Nat.testBit_two_pow]
    by_cases hm : id % 8 = id' % 8
    · have : id = id' := by omega
      simp [this]
    · have : id ≠ id' := fun h => hm (h ▸ rfl)
      simp [hm, this]
  · have hne : id ≠ id' := fun h => hd (h ▸ rfl)
    simp [hd, hne]

theorem length_foldl_setBit : (ids.foldl setBit mask).length = mask.length := by
  induction ids generalizing mask with
  | nil => rfl
  | cons id ids ih => rw [foldl_cons, ih, length_setBit]

theorem testBit_foldl (h : ∀ id ∈ ids, id / 8 < mask.length) :
    testBit (ids.foldl setBit mask) id = (testBit mask id || decide (id ∈ ids)) := by
  induction ids generalizing mask with
  | nil => simp
  | cons a ids ih =>
    have ⟨ha, h⟩ := forall_mem_cons.mp h
    rw [foldl_cons, ih (by simpa using h), testBit_setBit ha, Bool.or_assoc]
    congr 1
    by_cases hid : a = id
    · simp [hid]
    · simp [hid, Ne.symm hid]

@[simp]
theorem length_encodeMask : (encodeMask len ids).length = len := by
  rw [encodeMask, length_foldl_setBit, length_replicate]

theorem testBit_encodeMask (h : ∀ id ∈ ids, id / 8 < len) :
    testBit (encodeMask len ids) id = decide (id ∈ ids) := by
  rw [encodeMask, testBit_foldl (by simpa using h)]
  have : testBit (List.replicate len 0) id = false := by
    simp only [testBit, getD_eq_getElem?_getD, getElem?_replicate]
    split <;> simp
  rw [this, Bool.false_or]

-- The numbers of a mask in order.
def inOrder (len : ℕ) (ids : List ℕ) : List ℕ :=
  (List.range (8 * len)).filter (· ∈ ids)

theorem mem_inOrder (h : ∀ id ∈ ids, id / 8 < len) : id ∈ inOrder len ids ↔ id ∈ ids := by
  simp only [inOrder, mem_filter, mem_range, decide_eq_true_eq]
  refine and_iff_right_of_imp fun hid => ?_
  have := h id hid
  omega

theorem div_lt_bitmaskLen {count} (h : id < count) : id / 8 < bitmaskLen count := by
  rw [bitmaskLen]
  omega

theorem decodeMask_encodeMask {count i} (h : ∀ id ∈ ids, id < count) :
    decodeMask count i (encodeMask (bitmaskLen count) ids) =
      .ok (inOrder (bitmaskLen count) ids) := by
  have hlt : ∀ id ∈ ids, id / 8 < bitmaskLen count := fun id hid => div_lt_bitmaskLen (h id hid)
  have hfilter : (List.range (8 * bitmaskLen count)).filter
      (testBit (encodeMask (bitmaskLen count) ids)) = inOrder (bitmaskLen count) ids :=
    filter_congr fun _ _ => testBit_encodeMask hlt
  have hall : ∀ id ∈ inOrder (bitmaskLen count) ids, id < count := by
    intro id hid
    rw [mem_inOrder hlt] at hid
    exact h id hid
  simp [decodeMask, hfilter, require, if_pos hall]

end Mask

section Body

def encodeRow (nsid : Bytes) (count : UInt32) : Bytes :=
  encode 1 nsid.length ++ (encode 4 count.toNat ++ nsid)

def encodeBody (idx : CollectionIndex) : Bytes :=
  (List.zipWith encodeRow idx.stringTable idx.eventCounts).flatten ++
    (idx.blockBitmasks.map (encodeMask (bitmaskLen idx.stringTable.length))).flatten

-- Reads the rows of the table and gives what is left of the body.
def readRows : ℕ → ℕ → Bytes → Except String (List (Bytes × UInt32) × Bytes)
  | _, 0, body => .ok ([], body)
  | i, n + 1, body => do
    require (1 ≤ body.length) s!"{errInvalidFooter}: truncated NSID length at i={i}"
    let strLen := decode (body.take 1)
    let body := body.drop 1
    require (4 ≤ body.length) s!"{errInvalidFooter}: truncated event count at i={i}"
    let count := UInt32.ofNat (decode (body.take 4))
    let body := body.drop 4
    require (strLen ≤ body.length) s!"{errInvalidFooter}: truncated NSID body at i={i}"
    let (rows, rest) ← readRows (i + 1) n (body.drop strLen)
    return ((body.take strLen, count) :: rows, rest)

def readMasks (collectionCount : ℕ) : ℕ → ℕ → Bytes → Except String (List (List ℕ) × Bytes)
  | _, 0, body => .ok ([], body)
  | i, n + 1, body => do
    let len := bitmaskLen collectionCount
    require (len ≤ body.length) s!"{errInvalidFooter}: truncated bitmask at block {i}"
    let ids ← decodeMask collectionCount i (body.take len)
    let (masks, rest) ← readMasks collectionCount (i + 1) n (body.drop len)
    return (ids :: masks, rest)

-- How many bytes the body takes.
def bodySize (table : List Bytes) (blockCount : ℕ) : ℕ :=
  (table.map fun nsid => 5 + nsid.length).sum + blockCount * bitmaskLen table.length

theorem readRows_encode (hlen : counts.length = table.length)
    (hshort : ∀ nsid ∈ table, nsid.length < 256) (i : ℕ) (rest : Bytes) :
    readRows i table.length ((List.zipWith encodeRow table counts).flatten ++ rest) =
      .ok (table.zip counts, rest) := by
  induction table generalizing counts i with
  | nil => rfl
  | cons nsid table ih =>
    cases counts with
    | nil => cases hlen
    | cons count counts =>
      have ⟨hn, hshort⟩ := forall_mem_cons.mp hshort
      have hrec := ih (Nat.succ.inj hlen) hshort (i + 1)
      have h1 : (encode 1 nsid.length).length = 1 := length_encode ..
      have h4 : (encode 4 count.toNat).length = 4 := length_encode ..
      simp only [zipWith_cons_cons, flatten_cons, encodeRow, append_assoc,
        length_cons, readRows, take_left' h1, drop_left' h1, take_left' h4,
        drop_left' h4, decode_encode (w := 1) hn, take_left,
        decode_encode (w := 4) count.toNat_lt, drop_left, hrec]
      simp [require]

variable {masks : List (List ℕ)}

theorem readMasks_encode {count} (h : ∀ ids ∈ masks, ∀ id ∈ ids, id < count) (i : ℕ) :
    readMasks count i masks.length ((masks.map (encodeMask (bitmaskLen count))).flatten) =
      .ok (masks.map (inOrder (bitmaskLen count)), []) := by
  induction masks generalizing i with
  | nil => rfl
  | cons ids masks ih =>
    have ⟨hids, h⟩ := forall_mem_cons.mp h
    have hlen : (encodeMask (bitmaskLen count) ids).length = bitmaskLen count := length_encodeMask
    simp only [map_cons, flatten_cons, length_cons, readMasks, take_left' hlen,
      drop_left' hlen, decodeMask_encodeMask hids, ih h (i + 1)]
    simp [require]

theorem readRows_length (h : readRows i n body = .ok (rows, rest)) :
    rows.length = n ∧ (∀ row ∈ rows, row.1.length < 256) ∧
      body.length = ((rows.map Prod.fst).map fun nsid => 5 + nsid.length).sum + rest.length := by
  induction n generalizing i body rows with
  | zero =>
    cases h
    exact ⟨rfl, by simp, (zero_add _).symm⟩
  | succ n ih =>
    simp only [readRows, bind_eq_ok, require_eq_ok, pure_eq_ok, Prod.exists] at h
    obtain ⟨_, h1, _, h4, _, hstr, rows', rest', hrec, heq⟩ := h
    cases heq
    obtain ⟨hn, hshort, hlen⟩ := ih hrec
    have hlt : decode (body.take 1) < 256 ^ 1 :=
      (decode_lt _).trans_le (Nat.pow_le_pow_right (by decide) (length_take_le ..))
    refine ⟨by rw [length_cons, hn], forall_mem_cons.mpr ⟨?_, hshort⟩, ?_⟩
    · exact (length_take_le ..).trans_lt hlt
    · simp only [map_cons, sum_cons, length_take, length_drop] at hlen h4 hstr ⊢
      omega

theorem readMasks_length {count n} (h : readMasks count i n body = .ok (masks, rest)) :
    masks.length = n ∧ body.length = n * bitmaskLen count + rest.length := by
  induction n generalizing i body masks with
  | zero =>
    cases h
    exact ⟨rfl, by rw [Nat.zero_mul, zero_add]⟩
  | succ n ih =>
    simp only [readMasks, bind_eq_ok, require_eq_ok, pure_eq_ok, Prod.exists] at h
    obtain ⟨_, hle, _, _, masks', rest', hrec, heq⟩ := h
    cases heq
    obtain ⟨hn, hlen⟩ := ih hrec
    refine ⟨by rw [length_cons, hn], ?_⟩
    rw [length_drop] at hlen
    rw [Nat.succ_mul]
    omega

end Body

variable (l : Libraries)

def encodeCollectionIndex (idx : CollectionIndex) : Except String Bytes := do
  let collectionCount := idx.stringTable.length
  let blockCount := idx.blockBitmasks.length
  require (collectionCount < 2 ^ 32 ∧ blockCount < 2 ^ 32)
    s!"{errInvalidFooter}: collection or block count overflows uint32"
  require (idx.eventCounts.length = collectionCount)
    s!"{errInvalidFooter}: eventCounts len != stringTable len {collectionCount}"
  require (∀ nsid ∈ idx.stringTable, nsid.length < 256)
    s!"{errFieldTooLong}: NSID exceeds 255 bytes"
  require (∀ ids ∈ idx.blockBitmasks, ∀ id ∈ ids, id < collectionCount)
    s!"{errInvalidFooter}: block references a collection id past the table ({collectionCount})"
  let body := encodeBody idx
  return encodeFields [(4, collectionCount), (4, blockCount), (4, bitmaskLen collectionCount),
    (4, (UInt32.ofNat body.length).toNat)] ++ l.encodeAll body

def decodeCollectionIndex (buf : Bytes) : Except String CollectionIndex := do
  require (collectionIndexHeaderSize ≤ buf.length)
    s!"{errInvalidFooter}: collection index header is {buf.length} bytes"
  match decodeFields [4, 4, 4, 4] buf with
  | [collectionCount, blockCount, maskLen, uncompressedSize] => do
    require (collectionCount ≤ maxCollectionCountLimit)
      s!"{errInvalidFooter}: collection_count {collectionCount} exceeds limit"
    require (blockCount ≤ maxBlockCountLimit)
      s!"{errInvalidFooter}: block_count {blockCount} exceeds limit"
    require (uncompressedSize ≤ maxDecodedBlockBytes)
      s!"{errInvalidFooter}: uncompressed_size {uncompressedSize} exceeds limit"
    require (maskLen = bitmaskLen collectionCount) s!"{errInvalidFooter}: bitmask_len {maskLen}"
    let body ← (l.decodeAll (buf.drop collectionIndexHeaderSize)).mapError
      ("segment: collection index decompress: " ++ ·)
    require (body.length % 2 ^ 32 = uncompressedSize)
      s!"{errInvalidFooter}: collection body decompressed to {body.length} bytes"
    let (rows, rest) ← readRows 0 collectionCount body
    let (masks, rest) ← readMasks collectionCount 0 blockCount rest
    require (rest = []) s!"{errInvalidFooter}: trailing bytes in collection body"
    return {
      stringTable := rows.map Prod.fst
      eventCounts := rows.map Prod.snd
      blockBitmasks := masks }
  | _ => .error errInvalidFooter

theorem length_encodeRows
    (h : counts.length = table.length) : (List.zipWith encodeRow table counts).flatten.length =
      (table.map fun nsid => 5 + nsid.length).sum := by
  induction table generalizing counts with
  | nil => rfl
  | cons nsid table ih =>
    cases counts with
    | nil => cases h
    | cons count counts =>
      have := ih (Nat.succ.inj h)
      simp only [zipWith_cons_cons, flatten_cons, length_append, map_cons,
        sum_cons, this, encodeRow, length_encode]
      omega

theorem length_encodeBody (h : idx.eventCounts.length = idx.stringTable.length) :
    (encodeBody idx).length = bodySize idx.stringTable idx.blockBitmasks.length := by
  have hmask : ∀ p ∈ idx.blockBitmasks.map (encodeMask (bitmaskLen idx.stringTable.length)),
      p.length = bitmaskLen idx.stringTable.length := by simp
  rw [encodeBody, length_append, length_encodeRows h, length_flatten_replicate hmask,
    length_map, bodySize]

-- An index within the limits is written, and read back with the numbers of every block in order.
theorem decodeCollectionIndex_encode (hcount : idx.stringTable.length ≤ maxCollectionCountLimit)
    (hblocks : idx.blockBitmasks.length ≤ maxBlockCountLimit)
    (hlen : idx.eventCounts.length = idx.stringTable.length)
    (hshort : ∀ nsid ∈ idx.stringTable, nsid.length < 256)
    (hids : ∀ ids ∈ idx.blockBitmasks, ∀ id ∈ ids, id < idx.stringTable.length)
    (hsize : bodySize idx.stringTable idx.blockBitmasks.length ≤ maxDecodedBlockBytes) :
    ∃ buf, encodeCollectionIndex l idx = .ok buf ∧ collectionIndexHeaderSize ≤ buf.length ∧
      decodeCollectionIndex l buf = .ok { idx with
        blockBitmasks := idx.blockBitmasks.map (inOrder (bitmaskLen idx.stringTable.length)) } := by
  have hbody := length_encodeBody hlen
  simp only [maxCollectionCountLimit, maxBlockCountLimit] at hcount hblocks
  have hbound : (encodeBody idx).length < 2 ^ 32 := by
    simp only [maxDecodedBlockBytes] at hsize
    omega
  have hmask : bitmaskLen idx.stringTable.length < 2 ^ 32 := by
    rw [bitmaskLen]
    omega
  have hcount' : idx.stringTable.length < 256 ^ 4 := by omega
  have hblocks' : idx.blockBitmasks.length < 256 ^ 4 := by omega
  have hfields := @decodeFields_encodeFields
    [(4, idx.stringTable.length), (4, idx.blockBitmasks.length),
      (4, bitmaskLen idx.stringTable.length), (4, (encodeBody idx).length)]
    (by simp only [forall_mem_cons]; exact ⟨hcount', hblocks', hmask, hbound, nofun⟩)
  generalize hbuf : encodeFields [(4, idx.stringTable.length), (4, idx.blockBitmasks.length),
    (4, bitmaskLen idx.stringTable.length), (4, (encodeBody idx).length)] = fields at hfields
  have hlength : fields.length = collectionIndexHeaderSize := by
    rw [←hbuf, length_encodeFields]
    rfl
  refine ⟨fields ++ l.encodeAll (encodeBody idx), ?_, ?_, ?_⟩
  · simp only [encodeCollectionIndex, require, if_pos hlen, if_pos hshort, if_pos hids]
    rw [if_pos ⟨by omega, by omega⟩, UInt32.toNat_ofNat_of_lt' hbound, hbuf]
    rfl
  · rw [length_append]
    omega
  have hdecode : l.decodeAll (l.encodeAll (encodeBody idx)) = .ok (encodeBody idx) :=
    l.decode_encode (hbody ▸ hsize)
  have hrows := readRows_encode hlen hshort 0
    (idx.blockBitmasks.map (encodeMask (bitmaskLen idx.stringTable.length))).flatten
  have hmasks := readMasks_encode hids 0
  simp only [map_cons, map_nil] at hfields
  simp only [decodeCollectionIndex, hfields, drop_left' hlength, bind_eq_ok,
    mapError_eq_ok, require_eq_ok, pure_eq_ok, Prod.exists]
  refine ⟨(), ?_, (), hcount, (), hblocks, (), hbody ▸ hsize, (), trivial, encodeBody idx, hdecode,
    (), Nat.mod_eq_of_lt hbound, _, _, hrows, _, _, hmasks, (), rfl, ?_⟩
  · rw [length_append]
    omega
  · rw [map_fst_zip hlen.ge, map_snd_zip hlen.le]

-- The size of the body is that of the table and the masks that were read from it.
theorem bodySize_of_decode (h : decodeCollectionIndex l buf = .ok idx) :
    idx.stringTable.length ≤ maxCollectionCountLimit ∧
      (∀ nsid ∈ idx.stringTable, nsid.length < 256) ∧
      bodySize idx.stringTable idx.blockBitmasks.length ≤ maxDecodedBlockBytes := by
  obtain ⟨collectionCount, blockCount, maskLen, size, hfields⟩ :
      ∃ a b c d, decodeFields [4, 4, 4, 4] buf = [a, b, c, d] := ⟨_, _, _, _, rfl⟩
  simp only [decodeCollectionIndex, hfields, bind_eq_ok, mapError_eq_ok,
    require_eq_ok, pure_eq_ok, Prod.exists] at h
  obtain ⟨_, _, _, hcount, _, _, _, _, _, _, body, hbody, _, _, rows, rest, hrows, masks, rest',
    hmasks, _, hnil, hidx⟩ := h
  obtain ⟨hlen, hshort, hsize⟩ := readRows_length hrows
  obtain ⟨hlen', hsize'⟩ := readMasks_length hmasks
  have hlimit := l.length_decode hbody
  subst hidx
  simp only [bodySize, length_map, hlen, hlen']
  exact ⟨hcount, forall_mem_map.mpr hshort, by omega⟩

theorem bodySize_le (hnodup : table.Nodup)
    (hsubset : table ⊆ table') : bodySize table n ≤ bodySize table' n := by
  have ⟨sub, hperm, hsub⟩ := subperm_of_subset hnodup hsubset
  have hlen : bitmaskLen table.length ≤ bitmaskLen table'.length := by
    have := hperm.length_eq
    have := hsub.length_le
    simp only [bitmaskLen]
    omega
  have hsum : (table.map fun nsid => 5 + nsid.length).sum ≤
      (table'.map fun nsid => 5 + nsid.length).sum := by
    rw [←(hperm.map _).sum_nat]
    exact (hsub.map _).sum_le_sum fun _ _ => Nat.zero_le _
  exact Nat.add_le_add hsum (Nat.mul_le_mul_left n hlen)

end Jetstream.Sealed
