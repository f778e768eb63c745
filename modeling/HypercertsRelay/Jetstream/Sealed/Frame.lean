import HypercertsRelay.Jetstream.Sealed.Rewrite

-- Reading the stored frame of a block by the fixed header of its file alone.
namespace Jetstream.Sealed

open List Except
open UInt64 (le_iff_toNat_le ofNat toNat_add toNat_mul toNat_ofNat' toNat_sub_of_le)
open LittleEndian (decode)
open ActiveSegment (reservedHeaderBytes)

-- What can be read at an offset, which is a signed number there, and a length.
abbrev ReaderAt := Int64 → ℕ → Except String Bytes

def fileAt (file : Bytes) : ReaderAt := fun off n =>
  if off < 0 then .error "negative offset" else readAt file off.toInt.toNat n

def maxInt64 : UInt64 := .ofNat (2 ^ 63 - 1)

-- Where the entry of a block stands in the block index.
def entryOffset (hdr : Header) (idx : ℤ) : Except String UInt64 := do
  require (0 ≤ idx ∧ idx < hdr.blockCount.toNat)
    s!"{errBlockOutOfRange}: idx {idx}, block_count {hdr.blockCount}"
  require (256 ≤ hdr.footerOffset)
    s!"{errInvalidFooter}: footer_offset {hdr.footerOffset} < reserved header"
  require (hdr.blockIndexOffset = hdr.footerOffset)
    s!"{errInvalidFooter}: block_index_offset {hdr.blockIndexOffset} != footer_offset {hdr.footerOffset}"
  let entryDelta := UInt64.ofNat idx.toNat * UInt64.ofNat blockIndexEntrySize
  require (hdr.blockIndexOffset ≤ maxInt64 ∧ entryDelta ≤ maxInt64 - hdr.blockIndexOffset)
    s!"{errInvalidFooter}: block {idx} index entry offset overflows int64"
  return hdr.blockIndexOffset + entryDelta

-- Where a frame ends that an entry tells of, behind the eight bytes of its length.
def frameEnd (offset : UInt64) (compressedSize : UInt32) : UInt64 :=
  offset + 8 + compressedSize.toUInt64

def checkFrame (hdr : Header) (idx : ℤ) (offset : UInt64) (compressedSize : UInt32) :
    Except String Unit := do
  require (compressedSize.toUInt64 ≤ hdr.footerOffset)
    s!"{Manifest.errInvalidBlockIndex}: block {idx} compressed_size {compressedSize} > footer_offset {hdr.footerOffset}"
  require (offset ≤ hdr.footerOffset - 8 ∧ compressedSize.toUInt64 ≤ hdr.footerOffset - offset - 8)
    s!"{Manifest.errInvalidBlockIndex}: block {idx} range overflows or exceeds footer"
  require (256 ≤ offset ∧ frameEnd offset compressedSize ≤ hdr.footerOffset)
    s!"{Manifest.errInvalidBlockIndex}: block {idx} range [{offset}, {frameEnd offset compressedSize}) outside [{reservedHeaderBytes}, {hdr.footerOffset})"

def readBlockFrame (r : ReaderAt) (hdr : Header) (idx : ℤ) : Except String Bytes := do
  let entryOff ← entryOffset hdr idx
  let entry ← (r entryOff.toInt64 blockIndexEntrySize).mapError
    (s!"segment: read block {idx} index entry: " ++ ·)
  let offset := UInt64.ofNat (decode (entry.take 8))
  let compressedSize := UInt32.ofNat (decode ((entry.drop 8).take 4))
  checkFrame hdr idx offset compressedSize
  (r (offset.toInt64 + 8) compressedSize.toNat).mapError (s!"segment: read block {idx} frame: " ++ ·)

section Bounds

variable {offset off : UInt64}

theorem frameEnd_toNat (h : offset.toNat < 2 ^ 63) :
    (frameEnd offset compressedSize).toNat = offset.toNat + 8 + compressedSize.toNat := by
  have := compressedSize.toNat_lt
  change ((offset.toNat + 8) % 2 ^ 64 + compressedSize.toNat) % 2 ^ 64 = _
  omega

theorem toInt_toInt64 (h : offset.toNat < 2 ^ 63) : offset.toInt64.toInt = offset.toNat := by
  have hlt : 2 * offset.toBitVec.toNat < 2 ^ 64 := by
    change 2 * offset.toNat < 2 ^ 64
    omega
  exact BitVec.toInt_eq_toNat_of_lt hlt

theorem toInt_add_eight (offset : UInt64) (h : offset.toNat + 8 < 2 ^ 63) :
    (offset.toInt64 + 8).toInt = offset.toNat + 8 := by
  have h8 : (8 : Int64).toInt = 8 := rfl
  rw [Int64.toInt_add, toInt_toInt64 (by omega), h8]
  exact Int.bmod_eq_of_le (by omega) (by omega)

-- The sums and products are those of unbounded numbers.
theorem entryOffset_eq_ok : entryOffset hdr idx = .ok off ↔
    0 ≤ idx ∧ idx < hdr.blockCount.toNat ∧ 256 ≤ hdr.footerOffset.toNat ∧
      hdr.blockIndexOffset = hdr.footerOffset ∧
      (off.toNat : ℤ) = hdr.footerOffset.toNat + idx * blockIndexEntrySize ∧ off.toNat < 2 ^ 63 := by
  have hcount := hdr.blockCount.toNat_lt
  have hmax : maxInt64.toNat = 2 ^ 63 - 1 := UInt64.toNat_ofNat_of_lt' (by decide)
  have h256 : (256 : UInt64).toNat = 256 := rfl
  simp only [entryOffset, bind_eq_ok, require_eq_ok, pure_eq_ok, blockIndexEntrySize,
    le_iff_toNat_le, hmax, h256]
  constructor
  · rintro ⟨_, ⟨hpos, hlt⟩, _, hfooter, _, heq, _, ⟨hle, hdelta⟩, rfl⟩
    rw [toNat_sub_of_le _ _ (le_iff_toNat_le.mpr hle), toNat_mul,
      toNat_ofNat', toNat_ofNat', hmax] at hdelta
    rw [toNat_add, toNat_mul, toNat_ofNat', toNat_ofNat', heq] at *
    refine ⟨hpos, hlt, hfooter, rfl, ?_, ?_⟩ <;> omega
  · rintro ⟨hpos, hlt, hfooter, heq, hoff, hlt'⟩
    rw [heq]
    refine ⟨(), ⟨hpos, hlt⟩, (), hfooter, (), rfl, (), ⟨by omega, ?_⟩, ?_⟩
    · rw [toNat_sub_of_le _ _ (le_iff_toNat_le.mpr (by omega)), toNat_mul,
        toNat_ofNat', toNat_ofNat', hmax]
      omega
    · rw [←UInt64.toNat_inj, toNat_add, toNat_mul, toNat_ofNat', toNat_ofNat']
      omega

theorem checkFrame_eq_ok (hfooter : 256 ≤ hdr.footerOffset.toNat) :
    checkFrame hdr idx offset compressedSize = .ok () ↔
      256 ≤ offset.toNat ∧ offset.toNat + 8 + compressedSize.toNat ≤ hdr.footerOffset.toNat := by
  have h256 : (256 : UInt64).toNat = 256 := rfl
  have h8 : (8 : UInt64).toNat = 8 := rfl
  have hsub : (hdr.footerOffset - 8).toNat = hdr.footerOffset.toNat - 8 :=
    toNat_sub_of_le _ _ (le_iff_toNat_le.mpr (by rw [h8]; omega))
  simp only [checkFrame, bind_eq_ok, require_eq_ok, le_iff_toNat_le, h256, hsub,
    UInt32.toNat_toUInt64, frameEnd, toNat_add, h8]
  have hroom (hle : offset.toNat ≤ hdr.footerOffset.toNat - 8) :
      (hdr.footerOffset - offset - 8).toNat = hdr.footerOffset.toNat - offset.toNat - 8 := by
    have hsub' : (hdr.footerOffset - offset).toNat = hdr.footerOffset.toNat - offset.toNat :=
      toNat_sub_of_le _ _ (le_iff_toNat_le.mpr (by omega))
    rw [toNat_sub_of_le _ _ (le_iff_toNat_le.mpr (by rw [h8, hsub']; omega)), hsub', h8]
  constructor
  · rintro ⟨_, _, _, ⟨hle, hsize⟩, hlow, _⟩
    omega
  · rintro ⟨hlow, hend⟩
    have hle : offset.toNat ≤ hdr.footerOffset.toNat - 8 := by omega
    exact ⟨(), by omega, (), by omega, hlow, by omega⟩

end Bounds

section Reads

-- The outcome depends on nothing else that could be read.
def ReadsOnly (f : ReaderAt → Except String Bytes) (allowed : ℤ → ℕ → Prop) : Prop :=
  ∀ r r' : ReaderAt, (∀ off n, allowed off.toInt n → r off n = r' off n) → f r = f r'

theorem readsOnly_readBlockFrame (hdr : Header) (idx : ℤ) :
    ReadsOnly (readBlockFrame · hdr idx) fun off n =>
      (off = hdr.footerOffset.toNat + idx * blockIndexEntrySize ∧ n = blockIndexEntrySize) ∨
      256 ≤ off ∧ off + n ≤ hdr.footerOffset.toNat := by
  intro r r' hagree
  simp only [readBlockFrame]
  cases hentry : entryOffset hdr idx with
  | error err => rfl
  | ok off =>
    have ⟨_, _, hfooter, _, hoff, hlt⟩ := entryOffset_eq_ok.mp hentry
    have hread := hagree off.toInt64 blockIndexEntrySize
      (.inl ⟨(toInt_toInt64 hlt).trans hoff, rfl⟩)
    simp only [bind, Except.bind, hread]
    cases r' off.toInt64 blockIndexEntrySize with
    | error err => rfl
    | ok entry =>
      simp only [Except.mapError]
      cases hcheck : checkFrame hdr idx (.ofNat (decode (entry.take 8)))
          (.ofNat (decode ((entry.drop 8).take 4))) with
      | error err => rfl
      | ok _ =>
        have ⟨hlow, hend⟩ := (checkFrame_eq_ok hfooter).mp hcheck
        rw [blockIndexEntrySize] at hoff
        have hsum := toInt_add_eight (.ofNat (decode (entry.take 8))) (by omega)
        rw [hagree _ _ (.inr ⟨by omega, by omega⟩)]

end Reads

section Open

theorem getElem?_cut (hi : i < n) (b : Bytes) :
    (Cut.cut (List.replicate n size) b)[i]? = some ((b.drop (i * size)).take size) := by
  induction n generalizing i b with
  | zero => cases hi
  | succ n ih =>
    rw [replicate_succ, Cut.cut]
    cases i with
    | zero => simp
    | succ i =>
      rw [getElem?_cons_succ, ih (Nat.lt_of_succ_lt_succ hi), drop_drop, Nat.succ_mul, add_comm]

theorem readAt_part (h : readAt file off n = .ok b)
    (hle : i + m ≤ n) : readAt file (off + i) m = .ok ((b.drop i).take m) := by
  have ⟨hin, heq⟩ := readAt_eq_ok.mp h
  refine readAt_eq_ok.mpr ⟨by omega, ?_⟩
  rw [←heq, drop_take, take_take, drop_drop, min_eq_left (by omega)]

theorem fileAt_of_toInt (file : Bytes) {off : Int64} {k : ℕ} (h : off.toInt = k) (n : ℕ) :
    fileAt file off n = readAt file k n := by
  have hneg : ¬off < 0 := by
    rw [Int64.lt_iff_toInt_lt, h]
    exact Int.not_lt.mpr (Int.natCast_nonneg k)
  rw [fileAt, if_neg hneg, h, Int.toNat_natCast]

theorem readBlockFrame_of_open {r : Reader l} (ho : r.Opened file)
    (hsize : file.length < 2 ^ 63) {i : ℕ} (hb : r.blocks[i]? = some b) :
    ∃ frame, readBlockFrame (fileAt file) r.header i = .ok frame ∧
      readSealedFrame file b = .ok frame := by
  have hvalid := ho.offsets
  simp only [validateHeaderOffsets, bind_eq_ok, require_eq_ok] at hvalid
  have ⟨_, hlow, _, hfooter, _, heq, _⟩ := hvalid
  have ⟨index, hindex, hinfos⟩ := ho.index
  have hi : i < r.header.blockCount.toNat := ho.length_blocks ▸ (List.getElem?_eq_some_iff.mp hb).1
  have ⟨hlen, _⟩ := readAt_eq_ok.mp hindex
  have hmul : i * blockIndexEntrySize + blockIndexEntrySize ≤
      r.header.blockCount.toNat * blockIndexEntrySize := by
    rw [←Nat.succ_mul]
    exact Nat.mul_le_mul_right _ hi
  have hentry := readAt_part hindex hmul
  -- The entry of the block, by its bytes.
  have hinfo : b = .ofFields (LittleEndian.decodeFields BlockInfo.widths
      ((index.drop (i * blockIndexEntrySize)).take blockIndexEntrySize)) := by
    simp only [decodeBlockIndex, bind_eq_ok, require_eq_ok, pure_eq_ok] at hinfos
    have ⟨_, _, hinfos⟩ := hinfos
    rw [←hinfos, getElem?_map, getElem?_cut hi] at hb
    exact (Option.some.inj hb).symm
  generalize (index.drop (i * blockIndexEntrySize)).take blockIndexEntrySize = entry at hentry hinfo
  have hrange := (Manifest.validateBlockOffsetsFrom_ranges ho.blocks).right b.entry
    (mem_map_of_mem (mem_of_getElem? hb))
  have hmin : 256 ≤ b.offset.toNat := hrange.right.left
  have hmax : b.offset.toNat + 8 + b.compressedSize.toNat ≤ r.header.footerOffset.toNat :=
    hrange.right.right
  rw [heq] at hlen hentry
  generalize hoff : r.header.footerOffset.toNat + i * blockIndexEntrySize = off at hentry
  have hlt : off < 2 ^ 63 := by omega
  have hofNat : (ofNat off).toNat = off := UInt64.toNat_ofNat_of_lt' (hlt.trans (by decide))
  have hat : entryOffset r.header i = .ok (.ofNat off) := by
    refine entryOffset_eq_ok.mpr ⟨by omega, by omega, hlow, heq, ?_, by omega⟩
    rw [hofNat, ←hoff, Int.natCast_add, Int.natCast_mul]
  have hframe : readSealedFrame file b = .ok ((file.drop (b.offset.toNat + 8)).take
      b.compressedSize.toNat) := readAt_eq_ok.mpr ⟨by omega, rfl⟩
  refine ⟨_, ?_, hframe⟩
  have hcheck : checkFrame r.header i b.offset b.compressedSize = .ok () :=
    (checkFrame_eq_ok hlow).mpr ⟨hmin, hmax⟩
  have hentryAt := fileAt_of_toInt file ((toInt_toInt64 (by omega)).trans
    (congrArg Nat.cast hofNat)) blockIndexEntrySize
  have hframeAt := fileAt_of_toInt file (k := b.offset.toNat + 8)
    (toInt_add_eight b.offset (by omega)) b.compressedSize.toNat
  simp only [readBlockFrame, bind_eq_ok, mapError_eq_ok]
  refine ⟨_, hat, entry, hentryAt.trans hentry, (), ?_, ?_⟩
  · rw [hinfo] at hcheck
    exact hcheck
  · rw [hinfo] at hframeAt hframe ⊢
    exact hframeAt.trans hframe

end Open

section Exact

-- The bounds hold for any header and any entry, and the only other read is that of the entry. All
-- sums are those of unbounded numbers.
theorem readBlockFrame_exact : (∀ hdr idx, ReadsOnly (readBlockFrame · hdr idx) fun off n =>
      (off = hdr.footerOffset.toNat + idx * blockIndexEntrySize ∧ n = blockIndexEntrySize) ∨
      256 ≤ off ∧ off + n ≤ hdr.footerOffset.toNat) ∧
    (∀ hdr idx off offset compressedSize, entryOffset hdr idx = .ok off →
      hdr.footerOffset.toNat < 2 ^ 63 ∧
      off.toInt64.toInt = hdr.footerOffset.toNat + idx * blockIndexEntrySize ∧
      (checkFrame hdr idx offset compressedSize = .ok () ↔ 256 ≤ offset.toNat ∧
        offset.toNat + 8 + compressedSize.toNat ≤ hdr.footerOffset.toNat) ∧
      (checkFrame hdr idx offset compressedSize = .ok () →
        (offset.toInt64 + 8).toInt = offset.toNat + 8)) ∧
    (∀ offset compressedSize, offset.toNat < 2 ^ 63 →
      (frameEnd offset compressedSize).toNat = offset.toNat + 8 + compressedSize.toNat) ∧
    (∀ l file r, openReader l file = .ok r → file.length < 2 ^ 63 →
      ∀ (i : ℕ) b, r.blocks[i]? = some b →
        ∃ frame, readBlockFrame (fileAt file) r.header i = .ok frame ∧
          r.decodeBlock b = (decodeBlockCompressedSized l frame).map Prod.fst) ∧
    ∀ (blocks : List BlockInfo) footerOffset,
      Manifest.validateBlockOffsets (blocks.map BlockInfo.entry) footerOffset = .ok () →
      blocks.Pairwise (fun a b => a.offset.toNat + 8 + a.compressedSize.toNat ≤ b.offset.toNat) ∧
      ∀ b ∈ blocks, 256 ≤ b.offset.toNat ∧
        b.offset.toNat + 8 + b.compressedSize.toNat ≤ footerOffset := by
  refine ⟨readsOnly_readBlockFrame, fun hdr idx off offset compressedSize hentry => ?_,
    fun _ _ => frameEnd_toNat, fun l file r hopen hsize i b hb => ?_, fun blocks footerOffset h => ?_⟩
  · obtain ⟨hpos, _, hfooter, _, hoff, hlt⟩ := entryOffset_eq_ok.mp hentry
    have hbound : hdr.footerOffset.toNat < 2 ^ 63 := by
      rw [blockIndexEntrySize] at hoff
      omega
    refine ⟨hbound, (toInt_toInt64 hlt).trans hoff, checkFrame_eq_ok hfooter, fun hok => ?_⟩
    have := (checkFrame_eq_ok hfooter).mp hok
    exact toInt_add_eight _ (by omega)
  · have ho := opened_of_open hopen
    obtain ⟨frame, hread, hsealed⟩ := readBlockFrame_of_open ho hsize hb
    refine ⟨frame, hread, ?_⟩
    rw [Reader.decodeBlock, ho.bytes, hsealed]
    rfl
  · obtain ⟨hpair, hall⟩ := Manifest.validateBlockOffsetsFrom_ranges h
    exact ⟨pairwise_map.mp hpair, fun b hb => (hall b.entry (mem_map_of_mem hb)).right⟩

-- A file of zeros, but for an entry of the block index with a frame of `size` bytes.
def indexReader (size : ℕ) : ReaderAt := fun off n =>
  if off = 337 ∧ n = blockIndexEntrySize then
    .ok (LittleEndian.encodeFields [(8, 256), (4, size)] ++ List.replicate 40 0)
  else .ok (List.replicate n 0)

-- The entry itself lies in the footer.
theorem readBlockFrame_index : ¬ReadsOnly (readBlockFrame · strayHeader 0) fun off n =>
    256 ≤ off ∧ off + n ≤ strayHeader.footerOffset.toNat := by
  intro h
  have hagree (off : Int64) (n : ℕ) (hin : 256 ≤ off.toInt ∧ off.toInt + n ≤ 337) :
      indexReader 1 off n = indexReader 2 off n := by
    have hne : ¬(off = 337 ∧ n = blockIndexEntrySize) := by
      rintro ⟨rfl, rfl⟩
      exact absurd hin.right (by decide)
    rw [indexReader, indexReader, if_neg hne, if_neg hne]
  have hdiffer : readBlockFrame (indexReader 1) strayHeader 0 ≠
      readBlockFrame (indexReader 2) strayHeader 0 := by
    decide +kernel
  exact hdiffer (h _ _ hagree)

theorem readBlockFrame_exact_stray : ∃ r, openReader plainLibraries strayDisk.path = .ok r ∧
    ∀ (i : ℕ) b, r.blocks[i]? = some b →
      ∃ frame, readBlockFrame (fileAt strayDisk.path) r.header i = .ok frame ∧
        r.decodeBlock b = (decodeBlockCompressedSized plainLibraries frame).map Prod.fst := by
  have ⟨r, hopen, _⟩ := valid_strayDisk
  have ⟨_, _, _, hfiles, _⟩ := readBlockFrame_exact
  exact ⟨r, hopen, hfiles plainLibraries strayDisk.path r hopen (by decide +kernel)⟩

end Exact

end Jetstream.Sealed
