import HypercertsRelay.Library.Fields
import HypercertsRelay.Jetstream.ActiveSegment
import HypercertsRelay.Jetstream.BlockCodec
import HypercertsRelay.Jetstream.Manifest.Basic

-- The header, the block index, the block blooms and the collection index, byte by byte.
namespace Jetstream.Sealed

open List LittleEndian
open LittleEndian (encode decode encodeFields decodeFields)
open ActiveSegment (reservedHeaderBytes segmentMagic errCorruptSegment)

abbrev Bytes := BlockCodec.Bytes
abbrev Event := BlockCodec.Event

scoped instance : LawfulBEq Bytes := inferInstance

def errInvalidFooter := "segment: invalid footer"
def errActiveSegment := "segment: active (unsealed)"
def errChecksumMismatch := "segment: checksum mismatch"
def errFieldTooLong := "segment: event field exceeds column width"
def errBlockOutOfRange := "segment: block index out of range"

def maxBlockCountLimit := 2 ^ 20
def maxCollectionCountLimit := 2 ^ 20
def maxDecodedBlockBytes := 2 ^ 30

def require (p : Prop) [Decidable p] (err : String) : Except String Unit :=
  if p then .ok () else .error err

@[simp]
theorem require_eq_ok [Decidable p] : require p err = .ok u ↔ p := by
  by_cases h : p <;> simp [require, h]

-- Blooms, compression and checksums belong to other libraries. `newFilter n` is a filter for `n`
-- strings, whose size does not depend on what is added. The decoder refuses what exceeds its limit.
structure Libraries where
  encodeAll : Bytes → Bytes
  decodeAll : Bytes → Except String Bytes
  decode_encode : ∀ {b}, b.length ≤ maxDecodedBlockBytes → decodeAll (encodeAll b) = .ok b
  length_decode : ∀ {f b}, decodeAll f = .ok b → b.length ≤ maxDecodedBlockBytes
  length_encode : ∀ {b}, b.length ≤ maxDecodedBlockBytes → (encodeAll b).length < 2 ^ 32
  Filter : Type
  newFilter : ℕ → Filter
  addString : Filter → Bytes → Filter
  testString : Filter → Bytes → Bool
  marshalBinary : Filter → Bytes
  unmarshalBinary : Bytes → Except String Filter
  test_add : ∀ {f s}, testString (addString f s) s
  test_add_of_test : ∀ {f s t}, testString f t → testString (addString f s) t
  unmarshal : ∀ {f}, unmarshalBinary (marshalBinary f) = .ok f
  length_add : ∀ {f s}, (marshalBinary (addString f s)).length = (marshalBinary f).length
  length_pos : ∀ {n}, 0 < (marshalBinary (newFilter n)).length
  length_le : ∀ {n}, (marshalBinary (newFilter n)).length ≤ 64 * (n + 2)
  sum64 : Bytes → UInt64

section Header

structure Header where
  checksum : UInt64
  version : UInt16
  blockCount : UInt32
  eventCount : UInt32
  uniqueDIDCount : UInt32
  minSeq : UInt64
  maxSeq : UInt64
  minWitnessedAt : Int64
  maxWitnessedAt : Int64
  footerOffset : UInt64
  didBloomOffset : UInt64
  blockDIDBloomOffset : UInt64
  collectionIndexOffset : UInt64
  blockIndexOffset : UInt64
  deriving DecidableEq

def currentHeaderVersion : UInt16 := 1

-- The fields with their widths, from the fourth byte on.
def Header.fields (h : Header) : List (ℕ × ℕ) := [
  (8, h.checksum.toNat),
  (2, h.version.toNat),
  (4, h.blockCount.toNat),
  (4, h.eventCount.toNat),
  (4, h.uniqueDIDCount.toNat),
  (8, h.minSeq.toNat),
  (8, h.maxSeq.toNat),
  (8, h.minWitnessedAt.toUInt64.toNat),
  (8, h.maxWitnessedAt.toUInt64.toNat),
  (8, h.footerOffset.toNat),
  (8, h.didBloomOffset.toNat),
  (8, h.blockDIDBloomOffset.toNat),
  (8, h.collectionIndexOffset.toNat),
  (8, h.blockIndexOffset.toNat)]

def headerWidths := [8, 2, 4, 4, 4, 8, 8, 8, 8, 8, 8, 8, 8, 8]

def encodeHeader (h : Header) : Bytes :=
  segmentMagic ++ (encodeFields h.fields ++ List.replicate (reservedHeaderBytes - 98) 0)

def decodeHeader (buf : Bytes) : Except String Header := do
  require (buf.length = reservedHeaderBytes)
    s!"{errInvalidFooter}: header is {buf.length} bytes, want {reservedHeaderBytes}"
  require (buf.take 4 = segmentMagic) s!"{errCorruptSegment}: bad magic"
  match decodeFields headerWidths (buf.drop 4) with
  | [checksum, version, blockCount, eventCount, uniqueDIDCount, minSeq, maxSeq, minWitnessedAt,
      maxWitnessedAt, footerOffset, didBloomOffset, blockDIDBloomOffset, collectionIndexOffset,
      blockIndexOffset] => do
    require (checksum ≠ 0) s!"{errActiveSegment}: checksum field at offset 4 is zero"
    require (UInt16.ofNat version = currentHeaderVersion)
      s!"{errInvalidFooter}: header version {version}, want {currentHeaderVersion}"
    return {
      checksum := .ofNat checksum
      version := .ofNat version
      blockCount := .ofNat blockCount
      eventCount := .ofNat eventCount
      uniqueDIDCount := .ofNat uniqueDIDCount
      minSeq := .ofNat minSeq
      maxSeq := .ofNat maxSeq
      minWitnessedAt := (UInt64.ofNat minWitnessedAt).toInt64
      maxWitnessedAt := (UInt64.ofNat maxWitnessedAt).toInt64
      footerOffset := .ofNat footerOffset
      didBloomOffset := .ofNat didBloomOffset
      blockDIDBloomOffset := .ofNat blockDIDBloomOffset
      collectionIndexOffset := .ofNat collectionIndexOffset
      blockIndexOffset := .ofNat blockIndexOffset }
  | _ => .error errInvalidFooter

@[simp]
theorem length_encodeHeader (h : Header) : (encodeHeader h).length = 256 := by
  have hmagic : segmentMagic.length = 4 := rfl
  have hfields : (h.fields.map Prod.fst).sum = 94 := rfl
  rw [encodeHeader, length_append, length_append, length_encodeFields,
    length_replicate, hmagic, hfields, reservedHeaderBytes]

theorem Header.fields_lt (h : Header) : ∀ f ∈ h.fields, f.2 < 256 ^ f.1 := by
  simp only [fields, forall_mem_cons, not_mem_nil, false_imp_iff, implies_true, and_true]
  exact ⟨h.checksum.toNat_lt, h.version.toNat_lt, h.blockCount.toNat_lt, h.eventCount.toNat_lt,
    h.uniqueDIDCount.toNat_lt, h.minSeq.toNat_lt, h.maxSeq.toNat_lt, UInt64.toNat_lt _,
    UInt64.toNat_lt _, h.footerOffset.toNat_lt, h.didBloomOffset.toNat_lt,
    h.blockDIDBloomOffset.toNat_lt, h.collectionIndexOffset.toNat_lt, h.blockIndexOffset.toNat_lt⟩

theorem decodeHeader_encodeHeader (hsum : h.checksum ≠ 0)
    (hversion : h.version = currentHeaderVersion) : decodeHeader (encodeHeader h) = .ok h := by
  have hfields : decodeFields headerWidths ((encodeHeader h).drop 4) = h.fields.map Prod.snd :=
    decodeFields_encodeFields h.fields_lt _
  have hsum' : h.checksum.toNat ≠ 0 := fun h0 => hsum (UInt64.toNat_inj.mp h0)
  have hmagic : (encodeHeader h).take 4 = segmentMagic := rfl
  rw [decodeHeader, hfields]
  simp [Header.fields, hmagic, reservedHeaderBytes, require, hsum', hversion]
  rw [←hversion]

end Header

section BlockIndex

structure BlockInfo where
  offset : UInt64
  compressedSize : UInt32
  uncompressedSize : UInt32
  eventCount : UInt32
  minSeq : UInt64
  maxSeq : UInt64
  minWitnessedAt : Int64
  maxWitnessedAt : Int64
  deriving DecidableEq

def blockIndexEntrySize := 52

namespace BlockInfo

def fields (b : BlockInfo) : List (ℕ × ℕ) := [
  (8, b.offset.toNat),
  (4, b.compressedSize.toNat),
  (4, b.uncompressedSize.toNat),
  (4, b.eventCount.toNat),
  (8, b.minSeq.toNat),
  (8, b.maxSeq.toNat),
  (8, b.minWitnessedAt.toUInt64.toNat),
  (8, b.maxWitnessedAt.toUInt64.toNat)]

def widths := [8, 4, 4, 4, 8, 8, 8, 8]

def ofFields : List ℕ → BlockInfo
  | l => {
    offset := .ofNat (l.getD 0 0)
    compressedSize := .ofNat (l.getD 1 0)
    uncompressedSize := .ofNat (l.getD 2 0)
    eventCount := .ofNat (l.getD 3 0)
    minSeq := .ofNat (l.getD 4 0)
    maxSeq := .ofNat (l.getD 5 0)
    minWitnessedAt := (UInt64.ofNat (l.getD 6 0)).toInt64
    maxWitnessedAt := (UInt64.ofNat (l.getD 7 0)).toInt64 }

def entry (b : BlockInfo) : Manifest.IndexEntry where
  eventCount := b.eventCount.toNat
  minSeq := b.minSeq.toNat
  maxSeq := b.maxSeq.toNat
  offset := b.offset.toNat
  compressedSize := b.compressedSize.toNat
  minWitnessedAt := b.minWitnessedAt.toInt
  maxWitnessedAt := b.maxWitnessedAt.toInt

theorem fields_lt (b : BlockInfo) : ∀ f ∈ b.fields, f.2 < 256 ^ f.1 := by
  simp only [fields, forall_mem_cons, not_mem_nil, false_imp_iff, implies_true, and_true]
  exact ⟨b.offset.toNat_lt, b.compressedSize.toNat_lt, b.uncompressedSize.toNat_lt,
    b.eventCount.toNat_lt, b.minSeq.toNat_lt, b.maxSeq.toNat_lt, UInt64.toNat_lt _,
    UInt64.toNat_lt _⟩

theorem ofFields_fields (b : BlockInfo) : ofFields (b.fields.map Prod.snd) = b := by
  simp [ofFields, fields]

end BlockInfo

def encodeBlockIndex (infos : List BlockInfo) : Bytes :=
  (infos.map fun b => encodeFields b.fields).flatten

def decodeBlockIndex (buf : Bytes) (count : UInt32) : Except String (List BlockInfo) := do
  require (buf.length = count.toNat * blockIndexEntrySize)
    s!"{Manifest.errInvalidBlockIndex}: have {buf.length} bytes (count={count})"
  return (Cut.cut (List.replicate count.toNat blockIndexEntrySize) buf).map fun e =>
    .ofFields (decodeFields BlockInfo.widths e)

variable {parts : List Bytes}

-- The parts of one size are found again by that size.
theorem cut_replicate (h : ∀ p ∈ parts, p.length = size) :
    Cut.cut (List.replicate parts.length size) parts.flatten = parts := by
  have hlens : parts.map List.length = List.replicate parts.length size :=
    eq_replicate_iff.mpr ⟨length_map .., by simpa using h⟩
  rw [←hlens, Cut.cut_flatten]

theorem length_flatten_replicate (h : ∀ p ∈ parts, p.length = size) :
    parts.flatten.length = parts.length * size := by
  have hlens : parts.map List.length = List.replicate parts.length size :=
    eq_replicate_iff.mpr ⟨length_map .., by simpa using h⟩
  rw [length_flatten, hlens, sum_replicate_nat]

theorem length_entries (infos : List BlockInfo) :
    ∀ p ∈ infos.map fun b => encodeFields b.fields, p.length = blockIndexEntrySize := by
  simp [BlockInfo.fields, blockIndexEntrySize]

@[simp]
theorem length_encodeBlockIndex (infos : List BlockInfo) :
    (encodeBlockIndex infos).length = infos.length * blockIndexEntrySize := by
  rw [encodeBlockIndex, length_flatten_replicate (length_entries infos), length_map]

variable {count : UInt32}

theorem decodeBlockIndex_encodeBlockIndex (h : count.toNat = infos.length) :
    decodeBlockIndex (encodeBlockIndex infos) count = .ok infos := by
  have hcut := cut_replicate (length_entries infos)
  rw [length_map] at hcut
  have hentry (b : BlockInfo) :
      BlockInfo.ofFields (decodeFields BlockInfo.widths (encodeFields b.fields)) = b := by
    have := decodeFields_encodeFields b.fields_lt []
    exact (congrArg _ this).trans b.ofFields_fields
  rw [decodeBlockIndex, h, length_encodeBlockIndex, encodeBlockIndex, hcut, map_map]
  simp [require, Function.comp_def, hentry]

theorem length_decodeBlockIndex
    (h : decodeBlockIndex buf count = .ok infos) : infos.length = count.toNat := by
  simp only [decodeBlockIndex, Except.bind_eq_ok, require_eq_ok, Except.pure_eq_ok] at h
  obtain ⟨_, hlen, hinfos⟩ := h
  have hcut := @Cut.map_length_cut (List.replicate count.toNat blockIndexEntrySize) _ buf
    (by rw [sum_replicate_nat, hlen])
  rw [←hinfos, length_map, ←length_map, hcut, length_replicate]

end BlockIndex

section BlockBlooms

def blockBloomsRegionHeaderSize := 8

variable (l : Libraries)

-- All filters have to take the size of the first.
def encodeBlockBloomsRegion (filters : List l.Filter) : Except String Bytes :=
  match filters with
  | [] => .ok (encodeFields [(4, 0), (4, 0)])
  | first :: _ => do
    let size := (l.marshalBinary first).length
    let sizeBytes := UInt32.ofNat size
    require (∀ f ∈ filters, UInt32.ofNat (l.marshalBinary f).length = sizeBytes)
      s!"segment: per-block bloom size mismatch: want {sizeBytes}"
    return encodeFields [(4, (UInt32.ofNat filters.length).toNat), (4, sizeBytes.toNat)] ++
      (filters.map l.marshalBinary).flatten

def decodeBlockBloomsRegionHeader (buf : Bytes) : ℕ × ℕ :=
  (decode (buf.take 4), decode ((buf.drop 4).take 4))

variable {l}

theorem encodeBlockBloomsRegion_eq (hsize : size < 2 ^ 32) (hcount : filters.length < 2 ^ 32)
    (hne : filters ≠ []) (h : ∀ f ∈ filters, (l.marshalBinary f).length = size) :
    encodeBlockBloomsRegion l filters = .ok (encodeFields [(4, filters.length), (4, size)] ++
        (filters.map l.marshalBinary).flatten) := by
  cases filters with
  | nil => exact absurd rfl hne
  | cons f fs =>
    have hf := h f (.head _)
    have hall : ∀ f' ∈ f :: fs, UInt32.ofNat (l.marshalBinary f').length = UInt32.ofNat size :=
      fun f' hf' => congrArg _ (h f' hf')
    simp only [encodeBlockBloomsRegion, hf, require, if_pos hall]
    rw [UInt32.toNat_ofNat_of_lt' hsize, UInt32.toNat_ofNat_of_lt' hcount]
    rfl

end BlockBlooms

end Jetstream.Sealed
