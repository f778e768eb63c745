import HypercertsRelay.Jetstream.Sealed.Collections

-- Opening a sealed segment file, and the check of its metadata against its rows.
namespace Jetstream.Sealed

open List
open LittleEndian (encode decode)
open ActiveSegment (reservedHeaderBytes errCorruptSegment)

-- The bytes at a place of a file. It is an error when there are not enough of them.
def readAt (file : Bytes) (off n : ℕ) : Except String Bytes :=
  if off + n ≤ file.length then .ok ((file.drop off).take n) else .error "EOF"

theorem readAt_eq_ok :
    readAt file off n = .ok b ↔ off + n ≤ file.length ∧ (file.drop off).take n = b := by
  by_cases h : off + n ≤ file.length <;> simp [readAt, h]

theorem readAt_append (ha : a.length = off) (hb : b.length = n) :
    readAt (a ++ (b ++ c)) off n = .ok b := by
  rw [readAt_eq_ok, drop_left' ha, take_left' hb]
  refine ⟨?_, rfl⟩
  simp only [length_append]
  omega

variable (l : Libraries)

structure Reader where
  file : Bytes
  header : Header
  blocks : List BlockInfo
  segmentBloom : Option l.Filter
  parsedCollections : CollectionIndex
  perBlockBloomSize : ℕ

variable {l}

def validateHeaderOffsets (h : Header) (fileSize : ℕ) : Except String Unit := do
  require (reservedHeaderBytes ≤ h.footerOffset.toNat)
    s!"{errInvalidFooter}: footer_offset {h.footerOffset} < reserved header"
  require (h.footerOffset.toNat ≤ fileSize)
    s!"{errInvalidFooter}: footer_offset {h.footerOffset} > file size {fileSize}"
  require (h.blockIndexOffset = h.footerOffset)
    s!"{errInvalidFooter}: block_index_offset {h.blockIndexOffset} != footer_offset {h.footerOffset}"
  require (h.blockIndexOffset.toNat ≤ h.didBloomOffset.toNat ∧
      h.didBloomOffset.toNat ≤ h.blockDIDBloomOffset.toNat ∧
      h.blockDIDBloomOffset.toNat ≤ h.collectionIndexOffset.toNat ∧
      h.collectionIndexOffset.toNat ≤ fileSize)
    s!"{errInvalidFooter}: footer section offsets out of order"

variable (l) in
def readSegmentBloom (file : Bytes) (h : Header) : Except String (Option l.Filter) :=
  let segmentBloomLen := h.blockDIDBloomOffset.toNat - h.didBloomOffset.toNat
  if segmentBloomLen = 0 then .ok none else do
    let bytes ← readAt file h.didBloomOffset.toNat segmentBloomLen
    let filter ← (l.unmarshalBinary bytes).mapError ("segment: unmarshal segment bloom: " ++ ·)
    return some filter

-- The size of a block bloom, which all of them together have to fill their region with.
def readBloomRegion (file : Bytes) (h : Header) : Except String ℕ := do
  let bloomRegionHeader ← readAt file h.blockDIDBloomOffset.toNat blockBloomsRegionHeaderSize
  let (regionCount, perBlockSize) := decodeBlockBloomsRegionHeader bloomRegionHeader
  require (regionCount = h.blockCount.toNat)
    s!"{errInvalidFooter}: bloom region count {regionCount}, header block_count {h.blockCount}"
  require (blockBloomsRegionHeaderSize + regionCount * perBlockSize =
      h.collectionIndexOffset.toNat - h.blockDIDBloomOffset.toNat)
    s!"{errInvalidFooter}: per-block-blooms region (body={regionCount}×{perBlockSize})"
  return perBlockSize

variable (l) in
def xxh3HeaderFooter (headerBytes footerBytes : Bytes) : UInt64 :=
  l.sum64 (headerBytes.drop 12 ++ footerBytes)

variable (l) in
def readCollectionIndex (file : Bytes) (h : Header) : Except String CollectionIndex := do
  let collectionLen := file.length - h.collectionIndexOffset.toNat
  require (collectionIndexHeaderSize ≤ collectionLen)
    s!"{errInvalidFooter}: collection index region too small"
  let collectionBytes ← readAt file h.collectionIndexOffset.toNat collectionLen
  let colIdx ← decodeCollectionIndex l collectionBytes
  require (colIdx.blockBitmasks.length = h.blockCount.toNat)
    s!"{errInvalidFooter}: collection index block_count != header block_count {h.blockCount}"
  return colIdx

variable (l) in
-- The source calls this Open.
def openReader (file : Bytes) : Except String (Reader l) := do
  require (reservedHeaderBytes ≤ file.length) s!"{errCorruptSegment}: is {file.length} bytes"
  let headerBytes ← readAt file 0 reservedHeaderBytes
  let header ← decodeHeader headerBytes
  validateHeaderOffsets header file.length
  require (header.blockCount.toNat ≤ maxBlockCountLimit)
    s!"{errInvalidFooter}: block_count {header.blockCount} exceeds limit {maxBlockCountLimit}"
  let blockIndexBytes ← readAt file header.blockIndexOffset.toNat
    (header.blockCount.toNat * blockIndexEntrySize)
  let blocks ← decodeBlockIndex blockIndexBytes header.blockCount
  Manifest.validateBlockOffsets (blocks.map BlockInfo.entry) header.footerOffset.toNat
  let segmentBloom ← readSegmentBloom l file header
  let perBlockBloomSize ← readBloomRegion file header
  let footerBytes ← readAt file header.footerOffset.toNat (file.length - header.footerOffset.toNat)
  require (xxh3HeaderFooter l headerBytes footerBytes = header.checksum) errChecksumMismatch
  let parsedCollections ← readCollectionIndex l file header
  return { file, header, blocks, segmentBloom, parsedCollections, perBlockBloomSize }

variable (l) in
def decodeBlockCompressedSized (frame : Bytes) : Except String (List Event × ℕ) := do
  let body ← (l.decodeAll frame).mapError ("segment: zstd decompress: " ++ ·)
  let events ← (BlockCodec.decodeBlock body).mapError fun _ => "segment: truncated block"
  return (events, body.length)

variable (l) in
-- The frame begins behind the eight bytes of its length.
def readSealedFrame (file : Bytes) (b : BlockInfo) : Except String Bytes :=
  readAt file (b.offset.toNat + 8) b.compressedSize.toNat

namespace Reader

def decodeBlock (r : Reader l) (b : BlockInfo) : Except String (List Event) := do
  let frame ← readSealedFrame r.file b
  let (events, _) ← decodeBlockCompressedSized l frame
  return events

def loadAllBlockBlooms (r : Reader l) : Except String (List l.Filter) :=
  if r.blocks.length = 0 then .ok [] else do
    require (r.perBlockBloomSize ≠ 0) s!"{errBlockOutOfRange}: no per-block blooms in this segment"
    let bodyLen := r.blocks.length * r.perBlockBloomSize
    require (bodyLen < 2 ^ 63) s!"{errInvalidFooter}: per-block bloom body too large: {bodyLen} bytes"
    let off := r.header.blockDIDBloomOffset.toNat + blockBloomsRegionHeaderSize
    let buf ← readAt r.file off bodyLen
    (Cut.cut (List.replicate r.blocks.length r.perBlockBloomSize) buf).mapM l.unmarshalBinary

end Reader

section Rows

def sentinelCollectionAccount : Bytes := [36, 97, 99, 99, 111, 117, 110, 116]
def sentinelCollectionIdentity : Bytes := [36, 105, 100, 101, 110, 116, 105, 116, 121]
def sentinelCollectionSync : Bytes := [36, 115, 121, 110, 99]

example : sentinelCollectionAccount = "$account".toUTF8.data.toList := by decide
example : sentinelCollectionIdentity = "$identity".toUTF8.data.toList := by decide
example : sentinelCollectionSync = "$sync".toUTF8.data.toList := by decide

-- The collection under which an event about a whole account is listed. Other events have none.
def didMarkerSentinel (kind : UInt8) : Bytes :=
  match kind with
  | 5 => sentinelCollectionAccount
  | 4 => sentinelCollectionIdentity
  | 6 => sentinelCollectionSync
  | _ => []

-- The collections an event is listed under.
def collectionsOf (ev : Event) : List Bytes :=
  [ev.collection, didMarkerSentinel ev.kind].filter (· ≠ [])

def addDID (dids : List Bytes) (ev : Event) : List Bytes :=
  if ev.did = [] then dids else dids.insert ev.did

-- The DIDs of some rows, without the empty one.
def uniqueDIDs (rows : List Event) : List Bytes :=
  rows.foldl addDID []

def collectionEventCount (rows : List Event) (collection : Bytes) : UInt32 :=
  .ofNat (rows.countP fun ev => ev.collection ≠ [] ∧ ev.collection = collection)

variable {rows : List Event}

theorem mem_foldl_addDID :
    did ∈ rows.foldl addDID dids ↔ did ∈ dids ∨ did ≠ [] ∧ ∃ ev ∈ rows, ev.did = did := by
  induction rows generalizing dids with
  | nil => simp
  | cons ev rows ih =>
    rw [foldl_cons, ih, addDID]
    by_cases h : ev.did = []
    · simp only [h, if_true, mem_cons, exists_eq_or_imp]
      grind
    · simp only [h, if_false, mem_insert_iff, mem_cons, exists_eq_or_imp]
      grind

theorem mem_uniqueDIDs : did ∈ uniqueDIDs rows ↔ did ≠ [] ∧ ∃ ev ∈ rows, ev.did = did := by
  simp [uniqueDIDs, mem_foldl_addDID]

theorem length_foldl_addDID (dids : List Bytes) (rows : List Event) :
    (rows.foldl addDID dids).length ≤ dids.length + rows.length := by
  induction rows generalizing dids with
  | nil => exact le_rfl
  | cons ev rows ih =>
    have hadd : (addDID dids ev).length ≤ dids.length + 1 := by
      rw [addDID]
      split
      · exact Nat.le_succ _
      · rw [length_insert]
        split <;> omega
    have := ih (addDID dids ev)
    rw [foldl_cons, length_cons]
    omega

end Rows

namespace Reader

-- Every row has to lie within the bounds of its block, and there are as many as the index says.
def addBlock (info : BlockInfo) (events : List Event) : Except String Unit := do
  require (UInt32.ofNat events.length = info.eventCount)
    s!"segment: verify: event_count mismatch: footer={info.eventCount}"
  require (info.eventCount = 0 ∨ ∀ ev ∈ events, info.minSeq ≤ ev.seq ∧ ev.seq ≤ info.maxSeq)
    s!"segment: verify: seq outside footer envelope [{info.minSeq},{info.maxSeq}]"
  require (info.eventCount = 0 ∨
      ∀ ev ∈ events, info.minWitnessedAt ≤ ev.witnessedAt ∧ ev.witnessedAt ≤ info.maxWitnessedAt)
    "segment: verify: witnessed_at outside footer envelope"

def checkHeaderEnvelope (h : Header) (rows : List Event) : Except String Unit := do
  require (∀ ev ∈ rows, h.minSeq ≤ ev.seq ∧ ev.seq ≤ h.maxSeq)
    s!"segment: verify: decoded seq range outside header envelope [{h.minSeq},{h.maxSeq}]"
  require (∀ ev ∈ rows, h.minWitnessedAt ≤ ev.witnessedAt ∧ ev.witnessedAt ≤ h.maxWitnessedAt)
    "segment: verify: decoded witnessed_at range outside header envelope"

-- The table lists the collections of the rows once each, with the number of their events.
def verifyCollectionCounts (idx : CollectionIndex) (rows : List Event) : Except String Unit := do
  require idx.stringTable.Nodup "segment: verify: duplicate footer collection"
  require (∀ c ∈ idx.stringTable, ∃ ev ∈ rows, c ∈ collectionsOf ev)
    "segment: verify: footer collection is absent from decoded rows"
  require (∀ p ∈ idx.stringTable.zip idx.eventCounts, p.2 = collectionEventCount rows p.1)
    "segment: verify: collection count mismatch"
  require (∀ ev ∈ rows, ∀ c ∈ collectionsOf ev, c ∈ idx.stringTable)
    "segment: verify: decoded collection missing from footer index"

def verifyBlockCollections (idx : CollectionIndex) (blocks : List (List Event)) :
    Except String Unit := do
  require (∀ ids ∈ idx.blockBitmasks, ∀ id ∈ ids, id < idx.stringTable.length)
    "segment: verify: block references collection id beyond table len"
  require (∀ p ∈ blocks.zip idx.blockBitmasks, ∀ ev ∈ p.1, ∀ c ∈ collectionsOf ev,
      ∃ id ∈ p.2, idx.stringTable[id]? = some c)
    "segment: verify: block missing collection in footer index"
  require (∀ p ∈ blocks.zip idx.blockBitmasks, ∀ id ∈ p.2, ∃ ev ∈ p.1, ∃ c ∈ collectionsOf ev,
      idx.stringTable[id]? = some c)
    "segment: verify: block footer index has extra collection"

def verifyDIDBlooms (segmentBloom : Option l.Filter) (blockBlooms : List l.Filter)
    (blocks : List (List Event)) : Except String Unit := do
  require (segmentBloom.isSome ∨ uniqueDIDs blocks.flatten = [])
    "segment: verify: missing segment DID bloom with decoded DIDs"
  require (∀ f ∈ segmentBloom, ∀ did ∈ uniqueDIDs blocks.flatten, l.testString f did)
    "segment: verify: segment DID bloom false negative"
  require (∀ p ∈ blocks.zip blockBlooms, ∀ did ∈ uniqueDIDs p.1, l.testString p.2 did)
    "segment: verify: block DID bloom false negative"

def verifySealedMetadata (r : Reader l) : Except String Unit := do
  require (r.blocks.length = r.header.blockCount.toNat) "segment: verify: block count mismatch"
  require (r.parsedCollections.eventCounts.length = r.parsedCollections.stringTable.length)
    "segment: verify: collection count table length mismatch"
  let blockBlooms ← r.loadAllBlockBlooms
  require (blockBlooms.length = r.blocks.length) "segment: verify: block bloom count mismatch"
  let blocks ← r.blocks.mapM fun info => do
    let events ← r.decodeBlock info
    addBlock info events
    return events
  let rows := blocks.flatten
  require (UInt32.ofNat rows.length = r.header.eventCount)
    s!"segment: verify: header event_count mismatch: footer={r.header.eventCount}"
  require (UInt32.ofNat (uniqueDIDs rows).length = r.header.uniqueDIDCount)
    s!"segment: verify: header unique_did_count mismatch: footer={r.header.uniqueDIDCount}"
  checkHeaderEnvelope r.header rows
  verifyCollectionCounts r.parsedCollections rows
  verifyBlockCollections r.parsedCollections blocks
  verifyDIDBlooms r.segmentBloom blockBlooms blocks

-- The rows of the blocks as a sequential reader finds them.
def decodeBlocks (r : Reader l) : Except String (List (List Event)) :=
  r.blocks.mapM r.decodeBlock

end Reader

end Jetstream.Sealed
