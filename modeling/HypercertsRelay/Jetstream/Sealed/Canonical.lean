import HypercertsRelay.Jetstream.Sealed.Rewrite

-- What is read from an index is what it was written from.
namespace Jetstream.Sealed

open List Except LittleEndian

variable {count : ℕ} {l : Libraries}

-- A mask is given by its length and its bits.
theorem mask_ext (hlen : mask.length = mask'.length)
    (h : ∀ id, testBit mask id = testBit mask' id) : mask = mask' := by
  refine ext_getElem hlen fun i hi hi' => UInt8.toNat_inj.mp (Nat.eq_of_testBit_eq fun j => ?_)
  by_cases hj : j < 8
  · have hbit := h (8 * i + j)
    have hdiv : (8 * i + j) / 8 = i := by omega
    have hmod : (8 * i + j) % 8 = j := by omega
    simpa [testBit, hdiv, hmod, hi, hi'] using hbit
  · have hlt (b : UInt8) : b.toNat < 2 ^ j :=
      b.toNat_lt.trans_le (Nat.pow_le_pow_right (by decide) (not_lt.mp hj))
    rw [Nat.testBit_lt_two_pow (hlt _), Nat.testBit_lt_two_pow (hlt _)]

theorem encodeMask_decodeMask (h : decodeMask count i mask = .ok ids) :
    encodeMask mask.length ids = mask ∧ ∀ id ∈ ids, id < count := by
  simp only [decodeMask, bind_eq_ok, require_eq_ok, pure_eq_ok] at h
  obtain ⟨_, hall, hids⟩ := h
  have hmem (id : ℕ) : id ∈ ids ↔ id < 8 * mask.length ∧ testBit mask id := by
    rw [←hids, mem_filter, mem_range]
  refine ⟨mask_ext length_encodeMask fun id => ?_, hids ▸ hall⟩
  rw [testBit_encodeMask fun id hid => Nat.div_lt_of_lt_mul ((hmem id).mp hid).left,
    Bool.eq_iff_iff, decide_eq_true_iff, hmem]
  refine and_iff_right_of_imp fun hbit => ?_
  by_contra hge
  have hnone : mask.length ≤ id / 8 := by omega
  simp [testBit, getElem?_eq_none hnone] at hbit

theorem encodeRows_readRows (h : readRows i n body = .ok (rows, rest)) :
    body = (List.zipWith encodeRow (rows.map Prod.fst) (rows.map Prod.snd)).flatten ++ rest := by
  induction n generalizing i body rows with
  | zero =>
    cases h
    rfl
  | succ n ih =>
    simp only [readRows, bind_eq_ok, require_eq_ok, pure_eq_ok, Prod.exists] at h
    have ⟨_, h1, _, h4, _, hstr, rows', rest', hrec, heq⟩ := h
    cases heq
    have hlt := decode_lt ((body.drop 1).take 4)
    rw [length_take_of_le h4] at hlt
    rw [map_cons, map_cons, zipWith_cons_cons, flatten_cons, encodeRow, length_take_of_le hstr,
      encode_take h1, UInt32.toNat_ofNat_of_lt' hlt, encode_take h4]
    simp only [append_assoc, ←ih hrec, take_append_drop]

theorem encodeMasks_readMasks (h : readMasks count i n body = .ok (masks, rest)) :
    body = (masks.map (encodeMask (bitmaskLen count))).flatten ++ rest ∧
      ∀ ids ∈ masks, ∀ id ∈ ids, id < count := by
  induction n generalizing i body masks with
  | zero =>
    cases h
    exact ⟨rfl, nofun⟩
  | succ n ih =>
    simp only [readMasks, bind_eq_ok, require_eq_ok, pure_eq_ok, Prod.exists] at h
    have ⟨_, hle, ids, hids, masks', rest', hrec, heq⟩ := h
    cases heq
    have ⟨hmask, hlt⟩ := encodeMask_decodeMask hids
    have ⟨hbody, hall⟩ := ih hrec
    rw [length_take_of_le hle] at hmask
    refine ⟨?_, forall_mem_cons.mpr ⟨hlt, hall⟩⟩
    rw [map_cons, flatten_cons, hmask, append_assoc, ←hbody, take_append_drop]

theorem encodeCollectionIndex_decode (h : decodeCollectionIndex l buf = .ok idx) :
    ∃ body, l.decodeAll (buf.drop collectionIndexHeaderSize) = .ok body ∧
      encodeCollectionIndex l idx =
        .ok (buf.take collectionIndexHeaderSize ++ l.encodeAll body) := by
  obtain ⟨collectionCount, blockCount, maskLen, size, hfields⟩ :
      ∃ a b c d, decodeFields [4, 4, 4, 4] buf = [a, b, c, d] := ⟨_, _, _, _, rfl⟩
  simp only [decodeCollectionIndex, hfields, bind_eq_ok, mapError_eq_ok,
    require_eq_ok, pure_eq_ok, Prod.exists] at h
  obtain ⟨_, hheader, _, hcount, _, hblocks, _, _, _, hmask, body, hbody, _, hsize, rows, rest,
    hrows, masks, rest', hmasks, _, hnil, hidx⟩ := h
  obtain ⟨hlen, hshort, _⟩ := readRows_length hrows
  obtain ⟨hlen', _⟩ := readMasks_length hmasks
  obtain ⟨hrest, hids⟩ := encodeMasks_readMasks hmasks
  subst hidx hnil
  have heq : encodeBody ⟨rows.map Prod.fst, rows.map Prod.snd, masks⟩ = body := by
    rw [encodeRows_readRows hrows, hrest, encodeBody, length_map, hlen, append_nil]
  have hhead := @encodeFields_decodeFields [4, 4, 4, 4] buf hheader
  rw [hfields] at hhead
  simp only [maxCollectionCountLimit, maxBlockCountLimit] at hcount hblocks
  simp only [encodeCollectionIndex, length_map, hlen, hlen', heq, bind_eq_ok, require_eq_ok,
    pure_eq_ok]
  refine ⟨body, hbody, (), ⟨by omega, by omega⟩, (), trivial, (), forall_mem_map.mpr hshort, (),
    hids, ?_⟩
  rw [UInt32.toNat_ofNat', hsize, ←hmask]
  exact congrArg (· ++ _) hhead

-- An index that the reader takes and the writer can write.
structure CollectionIndex.Fits (idx : CollectionIndex) : Prop where
  collections : idx.stringTable.length ≤ maxCollectionCountLimit
  blocks : idx.blockBitmasks.length ≤ maxBlockCountLimit
  size : bodySize idx.stringTable idx.blockBitmasks.length ≤ maxDecodedBlockBytes
  counts : idx.eventCounts.length = idx.stringTable.length
  short : ∀ nsid ∈ idx.stringTable, nsid.length < 256
  inRange : ∀ ids ∈ idx.blockBitmasks, ∀ id ∈ ids, id < idx.stringTable.length
  ascending : ∀ ids ∈ idx.blockBitmasks, ids.Pairwise (· < ·)

theorem inOrder_eq_self (h : ∀ id ∈ ids, id / 8 < len) (hids : ids.Pairwise (· < ·)) :
    inOrder len ids = ids :=
  (pairwise_lt_range.filter _).eq_of_mem_iff hids fun _ => mem_inOrder h

theorem collectionIndex_codec : (∀ idx : CollectionIndex, idx.Fits →
      ∃ buf, encodeCollectionIndex l idx = .ok buf ∧ decodeCollectionIndex l buf = .ok idx) ∧
    ∀ buf idx, decodeCollectionIndex l buf = .ok idx →
      ∃ body, l.decodeAll (buf.drop collectionIndexHeaderSize) = .ok body ∧
        encodeCollectionIndex l idx =
          .ok (buf.take collectionIndexHeaderSize ++ l.encodeAll body) := by
  refine ⟨fun idx h => ?_, fun buf idx => encodeCollectionIndex_decode⟩
  have ⟨buf, hencode, _, hdecode⟩ :=
    decodeCollectionIndex_encode l h.collections h.blocks h.counts h.short h.inRange h.size
  have hsame : idx.blockBitmasks.map (inOrder (bitmaskLen idx.stringTable.length)) =
      idx.blockBitmasks := by
    refine .trans (map_congr_left fun ids hids => inOrder_eq_self ?_ (h.ascending ids hids))
      (map_id' _)
    exact fun id hid => div_lt_bitmaskLen (h.inRange ids hids id hid)
  rw [hsame] at hdecode
  exact ⟨buf, hencode, hdecode⟩

theorem collectionIndex_codec_sample : ∃ buf,
    encodeCollectionIndex plainLibraries ⟨[[97], [98, 99]], [3, 1], [[0], [0, 1]]⟩ = .ok buf ∧
      decodeCollectionIndex plainLibraries buf = .ok ⟨[[97], [98, 99]], [3, 1], [[0], [0, 1]]⟩ :=
  collectionIndex_codec.left _
    ⟨by decide, by decide, by decide, rfl, by decide, by decide, by decide⟩

-- A compressor whose frames start with a byte that is not looked at.
def taggedLibraries : Libraries :=
  { plainLibraries with
    encodeAll b := 0 :: plainLibraries.encodeAll b
    decodeAll f := plainLibraries.decodeAll f.tail
    decode_encode := plainLibraries.decode_encode
    length_decode := plainLibraries.length_decode
    length_encode h := by
      simp only [plainLibraries, if_pos h, length_cons]
      exact (Nat.succ_le_succ h).trans_lt (by decide) }

theorem collectionIndex_other_frame : let buf := List.replicate 16 0 ++ [1]
    decodeCollectionIndex taggedLibraries buf = .ok ⟨[], [], []⟩ ∧
      encodeCollectionIndex taggedLibraries ⟨[], [], []⟩ = .ok (List.replicate 16 0 ++ [0]) :=
  ⟨rfl, rfl⟩

end Jetstream.Sealed
