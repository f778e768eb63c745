import HypercertsRelay.Jetstream.Sealed.Walk

-- A sealed file put together from its sections, and opened again.
namespace Jetstream.Sealed

open List Except LittleEndian
open LittleEndian (encode decode encodeFields decodeFields)
open ActiveSegment (reservedHeaderBytes segmentMagic)

section Blooms

variable (l : Libraries)

def filterOf (capacity : ℕ) (dids : List Bytes) : l.Filter :=
  dids.foldl l.addString (l.newFilter capacity)

variable {l} {dids : List Bytes}

theorem test_foldl
    (h : did ∈ dids ∨ l.testString f did) : l.testString (dids.foldl l.addString f) did := by
  induction dids generalizing f with
  | nil => simpa using h
  | cons d dids ih =>
    refine ih ?_
    rcases h with h | h
    · cases h with
      | head => exact .inr l.test_add
      | tail _ hd => exact .inl hd
    · exact .inr (l.test_add_of_test h)

theorem test_filterOf (h : did ∈ dids) : l.testString (filterOf l n dids) did :=
  test_foldl (.inl h)

theorem length_filterOf (n : ℕ) (dids : List Bytes) :
    (l.marshalBinary (filterOf l n dids)).length = (l.marshalBinary (l.newFilter n)).length := by
  rw [filterOf]
  generalize l.newFilter n = f
  induction dids generalizing f with
  | nil => rfl
  | cons d dids ih => rw [foldl_cons, ih, l.length_add]

end Blooms

variable (l : Libraries)

-- The bounds are put in afterwards, like the checksum.
def buildFooter (infos : List BlockInfo) (walk : BlockWalkResult) (footerOffset : ℕ) :
    Except String (Bytes × Header) := do
  let blockIndexBytes := encodeBlockIndex infos
  let segmentBloomBytes := l.marshalBinary (filterOf l walk.uniqueDIDs.length walk.uniqueDIDs)
  let perBlockCapacity := (walk.perBlockDIDs.map List.length).foldl max 1
  let perBlockBloomsRegion ←
    encodeBlockBloomsRegion l (walk.perBlockDIDs.map (filterOf l perBlockCapacity))
  let collectionIndexBytes ← encodeCollectionIndex l {
    stringTable := walk.collectionStringTable
    eventCounts := walk.collectionEventCounts
    blockBitmasks := walk.perBlockCollections }
  let didBloomOffset := footerOffset + blockIndexBytes.length
  let blockDIDBloomOffset := didBloomOffset + segmentBloomBytes.length
  let collectionIndexOffset := blockDIDBloomOffset + perBlockBloomsRegion.length
  return (blockIndexBytes ++ (segmentBloomBytes ++ (perBlockBloomsRegion ++ collectionIndexBytes)), {
    checksum := 0
    version := currentHeaderVersion
    blockCount := .ofNat infos.length
    eventCount := walk.totalEventCount
    uniqueDIDCount := .ofNat walk.uniqueDIDs.length
    minSeq := 0
    maxSeq := 0
    minWitnessedAt := 0
    maxWitnessedAt := 0
    footerOffset := .ofNat footerOffset
    didBloomOffset := .ofNat didBloomOffset
    blockDIDBloomOffset := .ofNat blockDIDBloomOffset
    collectionIndexOffset := .ofNat collectionIndexOffset
    blockIndexOffset := .ofNat footerOffset })

-- The checksum is that of the header from the version on and of the footer.
def Header.sealed (h : Header) (footer : Bytes) : Header :=
  { h with checksum := xxh3HeaderFooter l (encodeHeader h) footer }

theorem xxh3HeaderFooter_sealed (h : Header) (footer : Bytes) :
    xxh3HeaderFooter l (encodeHeader (h.sealed l footer)) footer = (h.sealed l footer).checksum := by
  have hdrop (h : Header) : (encodeHeader h).drop 12 =
      encodeFields h.fields.tail ++ List.replicate (reservedHeaderBytes - 98) 0 := by
    have h8 : (encode 8 h.checksum.toNat).length = 8 := length_encode ..
    change ((encode 8 h.checksum.toNat ++ encodeFields h.fields.tail) ++ _).drop 8 = _
    rw [append_assoc, drop_left' h8]
  rfl

theorem decodeBlockBloomsRegionHeader_encode (hn : n < 2 ^ 32) (hsize : size < 2 ^ 32) :
    decodeBlockBloomsRegionHeader (encodeFields [(4, n), (4, size)]) = (n, size) := by
  have h₁ : (encode 4 n).length = 4 := length_encode ..
  have h₂ : (encode 4 size).length = 4 := length_encode ..
  simp only [decodeBlockBloomsRegionHeader, encodeFields, take_left' h₁, drop_left' h₁,
    take_left' h₂]
  rw [decode_encode hn, decode_encode hsize]

section Layout

variable {l} {h : Header} {head frames index bloom region coll : Bytes}

structure Header.Places (h : Header) (frames index bloom region coll : Bytes) : Prop where
  footer : h.footerOffset.toNat = 256 + frames.length
  blockIndex : h.blockIndexOffset = h.footerOffset
  didBloom : h.didBloomOffset.toNat = h.footerOffset.toNat + index.length
  blockBloom : h.blockDIDBloomOffset.toNat = h.didBloomOffset.toNat + bloom.length
  collection : h.collectionIndexOffset.toNat = h.blockDIDBloomOffset.toNat + region.length

def sealedFile (head frames index bloom region coll : Bytes) : Bytes :=
  head ++ (frames ++ (index ++ (bloom ++ (region ++ coll))))

variable (hhead : head.length = 256) (hp : h.Places frames index bloom region coll)

include hhead

theorem length_sealedFile : (sealedFile head frames index bloom region coll).length =
    256 + frames.length + index.length + bloom.length + region.length + coll.length := by
  simp only [sealedFile, length_append, hhead]
  omega

include hp

theorem validateHeaderOffsets_sealedFile : validateHeaderOffsets h
    (sealedFile head frames index bloom region coll).length = .ok () := by
  have ⟨h₁, h₂, h₃, h₄, h₅⟩ := hp
  simp only [validateHeaderOffsets, bind_eq_ok, require_eq_ok, length_sealedFile hhead]
  refine ⟨(), ?_, (), by omega, (), h₂, by rw [h₂]; omega⟩
  rw [h₁]
  exact Nat.le_add_right ..

theorem readAt_index : readAt (sealedFile head frames index bloom region coll)
    h.blockIndexOffset.toNat index.length = .ok index := by
  have hfile : sealedFile head frames index bloom region coll =
      (head ++ frames) ++ (index ++ (bloom ++ (region ++ coll))) := by
    simp [sealedFile]
  rw [hfile, hp.blockIndex, hp.footer]
  exact readAt_append (by simp [hhead]) rfl

theorem readAt_bloom : readAt (sealedFile head frames index bloom region coll)
    h.didBloomOffset.toNat bloom.length = .ok bloom := by
  have hfile : sealedFile head frames index bloom region coll =
      (head ++ (frames ++ index)) ++ (bloom ++ (region ++ coll)) := by
    simp [sealedFile]
  rw [hfile, hp.didBloom, hp.footer]
  exact readAt_append (by simp [hhead, add_assoc]) rfl

theorem readAt_region (hregion : region = a ++ (b ++ c)) :
    readAt (sealedFile head frames index bloom region coll)
      (h.blockDIDBloomOffset.toNat + a.length) b.length = .ok b := by
  have hfile : sealedFile head frames index bloom region coll =
      (head ++ (frames ++ (index ++ (bloom ++ a)))) ++ (b ++ (c ++ coll)) := by
    simp [sealedFile, hregion]
  rw [hfile, hp.blockBloom, hp.didBloom, hp.footer]
  exact readAt_append (by simp [hhead, add_assoc]) rfl

theorem readAt_coll : readAt (sealedFile head frames index bloom region coll)
    h.collectionIndexOffset.toNat coll.length = .ok coll := by
  have hfile : sealedFile head frames index bloom region coll =
      (head ++ (frames ++ (index ++ (bloom ++ region)))) ++ (coll ++ []) := by
    simp [sealedFile]
  rw [hfile, hp.collection, hp.blockBloom, hp.didBloom, hp.footer]
  exact readAt_append (by simp [hhead, add_assoc]) rfl

theorem readAt_footer : readAt (sealedFile head frames index bloom region coll) h.footerOffset.toNat
    ((sealedFile head frames index bloom region coll).length - h.footerOffset.toNat) =
      .ok (index ++ (bloom ++ (region ++ coll))) := by
  have hfile : sealedFile head frames index bloom region coll =
      (head ++ frames) ++ ((index ++ (bloom ++ (region ++ coll))) ++ []) := by
    simp [sealedFile]
  have hlen : (sealedFile head frames index bloom region coll).length - h.footerOffset.toNat =
      (index ++ (bloom ++ (region ++ coll))).length := by
    rw [length_sealedFile hhead, hp.footer]
    simp only [length_append]
    omega
  rw [hlen, hfile, hp.footer]
  exact readAt_append (by simp [hhead]) rfl

end Layout

section Sections

variable {l} {h : Header} {head frames index bloom region coll : Bytes}

variable (l) in
-- What is read of each section by its bytes alone.
def segmentBloomOf (bloom : Bytes) : Except String (Option l.Filter) :=
  if bloom.length = 0 then .ok none else do
    let filter ← (l.unmarshalBinary bloom).mapError ("segment: unmarshal segment bloom: " ++ ·)
    return some filter

theorem segmentBloomOf_marshal (hpos : 0 < (l.marshalBinary f).length) :
    segmentBloomOf l (l.marshalBinary f) = .ok (some f) := by
  rw [segmentBloomOf, if_neg hpos.ne', l.unmarshal]
  rfl

def BloomRegion (blockCount : ℕ) (region : Bytes) (size : ℕ) : Prop :=
  8 ≤ region.length ∧ decodeBlockBloomsRegionHeader (region.take 8) = (blockCount, size) ∧
    8 + blockCount * size = region.length

variable (hhead : head.length = 256) (hp : h.Places frames index bloom region coll)

include hhead hp

theorem readSegmentBloom_sealedFile :
    readSegmentBloom l (sealedFile head frames index bloom region coll) h =
      segmentBloomOf l bloom := by
  have hsub : h.blockDIDBloomOffset.toNat - h.didBloomOffset.toNat = bloom.length := by
    rw [hp.blockBloom]
    omega
  rw [readSegmentBloom, segmentBloomOf, hsub, readAt_bloom hhead hp]
  rfl

theorem readBloomRegion_sealedFile (hr : BloomRegion h.blockCount.toNat region size) :
    readBloomRegion (sealedFile head frames index bloom region coll) h = .ok size := by
  have ⟨hle, heq, hlen⟩ := hr
  have hsub : h.collectionIndexOffset.toNat - h.blockDIDBloomOffset.toNat = region.length := by
    rw [hp.collection]
    omega
  have hread : readAt (sealedFile head frames index bloom region coll)
      h.blockDIDBloomOffset.toNat 8 = .ok (region.take 8) := by
    have := readAt_region hhead hp (a := []) (b := region.take 8) (c := region.drop 8)
      (take_append_drop ..).symm
    rwa [length_take, min_eq_left hle] at this
  simp only [readBloomRegion, hread, Except.bind_eq_ok, Except.ok.injEq, exists_eq_left',
    require_eq_ok, Except.pure_eq_ok, hsub, blockBloomsRegionHeaderSize, heq]
  exact ⟨(), trivial, (), hlen, trivial⟩

theorem readCollectionIndex_sealedFile
    (hlen : collectionIndexHeaderSize ≤ coll.length) (hdec : decodeCollectionIndex l coll = .ok idx)
    (hmasks : idx.blockBitmasks.length = h.blockCount.toNat) :
    readCollectionIndex l (sealedFile head frames index bloom region coll) h = .ok idx := by
  have hsub : (sealedFile head frames index bloom region coll).length -
      h.collectionIndexOffset.toNat = coll.length := by
    rw [length_sealedFile hhead, hp.collection, hp.blockBloom, hp.didBloom, hp.footer]
    omega
  simp only [readCollectionIndex, Except.bind_eq_ok, require_eq_ok, Except.pure_eq_ok, hsub,
    readAt_coll hhead hp, Except.ok.injEq, exists_eq_left']
  exact ⟨(), hlen, idx, hdec, (), hmasks, rfl⟩

-- What a file needs to be opened, section by section.
theorem openReader_sealedFile {filter}
    (hheader : decodeHeader head = .ok h) (hlimit : h.blockCount.toNat ≤ maxBlockCountLimit)
    (hindexLen : index.length = h.blockCount.toNat * blockIndexEntrySize)
    (hblocks : decodeBlockIndex index h.blockCount = .ok blocks)
    (hoffsets : Manifest.validateBlockOffsets (blocks.map BlockInfo.entry) h.footerOffset.toNat =
      .ok ()) (hfilter : segmentBloomOf l bloom = .ok filter)
    (hregion : BloomRegion h.blockCount.toNat region size)
    (hsum : xxh3HeaderFooter l head (index ++ (bloom ++ (region ++ coll))) = h.checksum)
    (hlen : collectionIndexHeaderSize ≤ coll.length) (hdec : decodeCollectionIndex l coll = .ok idx)
    (hmasks : idx.blockBitmasks.length = h.blockCount.toNat) :
    openReader l (sealedFile head frames index bloom region coll) = .ok {
      file := sealedFile head frames index bloom region coll
      header := h
      blocks := blocks
      segmentBloom := filter
      parsedCollections := idx
      perBlockBloomSize := size } := by
  have hfile : reservedHeaderBytes ≤ (sealedFile head frames index bloom region coll).length := by
    rw [length_sealedFile hhead, reservedHeaderBytes]
    omega
  have hindex := readAt_index hhead hp
  rw [hindexLen] at hindex
  simp only [openReader, Except.bind_eq_ok, require_eq_ok, Except.pure_eq_ok]
  exact ⟨(), hfile, head, readAt_append (a := []) rfl hhead, h, hheader, (),
    validateHeaderOffsets_sealedFile hhead hp, (), hlimit, index, hindex, blocks, hblocks, (),
    hoffsets, filter, (readSegmentBloom_sealedFile hhead hp).trans hfilter, size,
    readBloomRegion_sealedFile hhead hp hregion, _, readAt_footer hhead hp, (), hsum, idx,
    readCollectionIndex_sealedFile hhead hp hlen hdec hmasks, rfl⟩

end Sections

section Build

variable {l}

theorem exists_mem_of_mem_right (h : List.Forall₂ R as bs) (hb : b ∈ bs) : ∃ a ∈ as, R a b := by
  induction h with
  | nil => cases hb
  | cons hab _ ih =>
    cases hb with
    | head => exact ⟨_, .head _, hab⟩
    | tail _ hb =>
      have ⟨a, ha, hR⟩ := ih hb
      exact ⟨a, .tail _ ha, hR⟩

theorem foldl_max_le {lens : List ℕ} (hm : m ≤ b) (h : ∀ n ∈ lens, n ≤ b) :
    lens.foldl max m ≤ b := by
  induction lens generalizing m with
  | nil => exact hm
  | cons n lens ih =>
    have ⟨hn, h⟩ := forall_mem_cons.mp h
    exact ih (Nat.max_le.mpr ⟨hm, hn⟩) h

-- The sections of the footer that was built, as they are read again.
structure Built (l : Libraries) (w : BlockWalkResult) (infos : List BlockInfo) (frames : Bytes)
    (header : Header) (filters : List l.Filter) (region coll : Bytes) (size : ℕ) : Prop where
  places : header.Places frames (encodeBlockIndex infos)
    (l.marshalBinary (filterOf l w.uniqueDIDs.length w.uniqueDIDs)) region coll
  version : header.version = currentHeaderVersion
  blockCount : header.blockCount.toNat = infos.length
  eventCount : header.eventCount = w.totalEventCount
  didCount : header.uniqueDIDCount = .ofNat w.uniqueDIDs.length
  blooms : List.Forall₂ (fun dids f => ∃ n, f = filterOf l n dids) w.perBlockDIDs filters
  bloomsIn : region = encodeFields [(4, infos.length), (4, size)] ++
    (filters.map l.marshalBinary).flatten
  sizes : ∀ f ∈ filters, (l.marshalBinary f).length = size
  pos : 0 < size
  lt : size < 2 ^ 32
  long : collectionIndexHeaderSize ≤ coll.length
  decoded : decodeCollectionIndex l coll = .ok {
    stringTable := w.collectionStringTable
    eventCounts := w.collectionEventCounts
    blockBitmasks := w.perBlockCollections.map
      (inOrder (bitmaskLen w.collectionStringTable.length)) }

theorem Built.bloomRegion (h : Built l w infos frames header filters region coll size)
    (hlen : filters.length = infos.length) (hcount : infos.length < 2 ^ 32) :
    BloomRegion infos.length region size := by
  have h8 : (encodeFields [(4, infos.length), (4, size)]).length = 8 := rfl
  refine ⟨?_, ?_, ?_⟩
  · rw [h.bloomsIn, length_append, h8]
    omega
  · rw [h.bloomsIn, take_left' h8, decodeBlockBloomsRegionHeader_encode hcount h.lt]
  · rw [h.bloomsIn, length_append, h8,
      length_flatten_replicate (forall_mem_map.mpr h.sizes), length_map, hlen]

theorem Built.drop_region (h : Built l w infos frames header filters region coll size) :
    region.drop 8 = (filters.map l.marshalBinary).flatten := by
  rw [h.bloomsIn]
  exact drop_left' rfl

theorem buildFooter_built (hw : w.Describes blocks) (hinfos : infos.length = blocks.length)
    (hne : blocks ≠ []) (hcount : blocks.length ≤ maxBlockCountLimit)
    (hrows : ∀ rows ∈ blocks, rows.length ≤ 2 ^ 18)
    (hframes : frames.length ≤ blocks.length * 2 ^ 33) (hshort : ∀ c ∈ T, c.length < 256)
    (hT : ∀ m ∈ blocks.flatten.flatMap marks, m.1 ∈ T) (htable : T.length ≤ maxCollectionCountLimit)
    (hbody : bodySize T blocks.length ≤ maxDecodedBlockBytes) :
    ∃ header filters region coll size,
      buildFooter l infos w (256 + frames.length) = .ok (encodeBlockIndex infos ++
        (l.marshalBinary (filterOf l w.uniqueDIDs.length w.uniqueDIDs) ++ (region ++ coll)), header) ∧
      Built l w infos frames header filters region coll size := by
  have hsubset : w.collectionStringTable ⊆ T := fun c hc =>
    have ⟨m, hm, hmc⟩ := hw.only c hc
    hmc ▸ hT m hm
  have hmasks : w.perBlockCollections.length = blocks.length := hw.collections.length_eq.symm
  have hlt : ∀ ids ∈ w.perBlockCollections, ∀ id ∈ ids, id < w.collectionStringTable.length := by
    intro ids hids id hid
    have ⟨_, _, hrows⟩ := exists_mem_of_mem_right hw.collections hids
    have ⟨c, hc, _⟩ := (hrows.ids id).mp hid
    exact (List.getElem?_eq_some_iff.mp hc).1
  have ⟨coll, hencode, hcoll, hdecode⟩ := @decodeCollectionIndex_encode l
    ⟨w.collectionStringTable, w.collectionEventCounts, w.perBlockCollections⟩
    ((hw.lists.length_le hw.only hT).trans htable) (hmasks ▸ hcount) hw.lists.length
    (fun c hc => hshort c (hsubset hc)) hlt
    (hmasks ▸ (bodySize_le hw.lists.nodup hsubset).trans hbody)
  -- Every block bloom has the capacity of the largest.
  generalize hcap : (w.perBlockDIDs.map List.length).foldl max 1 = cap
  have hcapLe : cap ≤ 2 ^ 18 := by
    rw [←hcap]
    refine foldl_max_le (by decide) ?_
    rw [hw.perBlockDIDs]
    simp only [map_map, forall_mem_map, Function.comp_apply]
    intro rows hr
    have := length_foldl_addDID [] rows
    rw [length_nil, zero_add] at this
    exact this.trans (hrows rows hr)
  generalize hsize : (l.marshalBinary (l.newFilter cap)).length = size
  have hsizeLe : size ≤ 64 * (2 ^ 18 + 2) := by
    have := @Libraries.length_le l cap
    omega
  have hsizes : ∀ f ∈ w.perBlockDIDs.map (filterOf l cap), (l.marshalBinary f).length = size := by
    simp [length_filterOf, hsize]
  have hfilters : (w.perBlockDIDs.map (filterOf l cap)).length = infos.length := by
    rw [length_map, hw.perBlockDIDs, length_map, hinfos]
  simp only [maxBlockCountLimit] at hcount
  have hregion := @encodeBlockBloomsRegion_eq l size (w.perBlockDIDs.map (filterOf l cap))
    (by omega) (by rw [hfilters]; omega) (by simpa [hw.perBlockDIDs] using hne) hsizes
  rw [hfilters] at hregion
  have hregionLen : (encodeFields [(4, infos.length), (4, size)] ++
      ((w.perBlockDIDs.map (filterOf l cap)).map l.marshalBinary).flatten).length =
        8 + infos.length * size := by
    rw [length_append, length_flatten_replicate (forall_mem_map.mpr hsizes), length_map, hfilters]
    rfl
  have hbodyLen : infos.length * size ≤ 2 ^ 20 * (64 * (2 ^ 18 + 2)) :=
    Nat.mul_le_mul (hinfos ▸ hcount) hsizeLe
  have hbloomLen : (l.marshalBinary (filterOf l w.uniqueDIDs.length w.uniqueDIDs)).length ≤
      64 * (2 ^ 20 * 2 ^ 18 + 2) := by
    have hdids := length_foldl_addDID [] blocks.flatten
    have hflat := (Cut.length_flatten_le hrows).trans (Nat.mul_le_mul_right _ hcount)
    have hle := @Libraries.length_le l w.uniqueDIDs.length
    rw [length_filterOf]
    rw [hw.uniqueDIDs, Sealed.uniqueDIDs] at hle ⊢
    rw [length_nil, zero_add] at hdids
    omega
  have hindexLen := length_encodeBlockIndex infos
  rw [blockIndexEntrySize] at hindexLen
  have hnat {n} (hn : n < 2 ^ 63) : (UInt64.ofNat n).toNat = n :=
    UInt64.toNat_ofNat_of_lt' (hn.trans (by decide))
  refine ⟨?header, w.perBlockDIDs.map (filterOf l cap), ?region, coll, size, ?build, ?built⟩
  case build =>
    simp only [buildFooter, hcap, hregion, hencode]
    rfl
  case built =>
    refine ⟨⟨hnat (by omega), rfl, ?_, ?_, ?_⟩, rfl, ?_, rfl, rfl, ?_, rfl, hsizes,
      hsize ▸ l.length_pos, by omega, hcoll, hdecode⟩
    · simp only
      rw [hnat (by omega), hnat (by omega)]
    · simp only
      rw [hnat (by omega), hnat (by omega)]
    · simp only
      rw [hnat (by omega), hnat (by omega)]
    · exact UInt32.toNat_ofNat_of_lt' (lt_of_le_of_lt (hinfos ▸ hcount) (by decide))
    · rw [forall₂_map_right_iff]
      exact forall₂_same.mpr fun dids _ => ⟨cap, rfl⟩

end Build

section Verified

variable {l} {w : BlockWalkResult}

theorem mem_zip_iff {as : List α} {bs} {p : α × β} :
    p ∈ as.zip bs ↔ ∃ i : ℕ, as[i]? = some p.1 ∧ bs[i]? = some p.2 := by
  rw [mem_iff_getElem?]
  simp only [getElem?_zip_eq_some]

-- The index that is read back, with the numbers in order.
def BlockWalkResult.index (w : BlockWalkResult) : CollectionIndex where
  stringTable := w.collectionStringTable
  eventCounts := w.collectionEventCounts
  blockBitmasks := w.perBlockCollections.map (inOrder (bitmaskLen w.collectionStringTable.length))

section

variable (hw : w.Describes blocks)

include hw

theorem verifyCollectionCounts_index :
    Reader.verifyCollectionCounts w.index blocks.flatten = .ok () := by
  simp only [Reader.verifyCollectionCounts, bind_eq_ok, require_eq_ok]
  refine ⟨(), hw.lists.nodup, (), fun c hc => ?_, (), fun p hp => ?_, fun ev hev c hc => ?_⟩
  · exact exists_mem_marks.mp (hw.only c hc)
  · obtain ⟨i, hi, hcount⟩ := mem_zip_iff.mp hp
    have heq := (hw.lists.counts i p.1 hi).symm.trans hcount
    rw [countP_marks] at heq
    exact (Option.some.inj heq).symm
  · obtain ⟨m, hm, hmc⟩ := exists_mem_marks.mpr ⟨ev, hev, hc⟩
    exact hmc ▸ hw.lists.covers m hm

theorem indexes_inOrder :
    List.Forall₂ (BlockWalkResult.Indexes w.collectionStringTable) blocks w.index.blockBitmasks := by
  rw [BlockWalkResult.index, forall₂_map_right_iff]
  refine hw.collections.imp fun rows ids h => ⟨h.covers, fun i => ?_⟩
  rw [mem_inOrder, h.ids]
  intro id hid
  have ⟨c, hc, _⟩ := (h.ids id).mp hid
  exact div_lt_bitmaskLen (List.getElem?_eq_some_iff.mp hc).1

theorem verifyBlockCollections_index : Reader.verifyBlockCollections w.index blocks = .ok () := by
  have hidx := indexes_inOrder hw
  have hzip : ∀ p ∈ blocks.zip w.index.blockBitmasks,
      BlockWalkResult.Indexes w.collectionStringTable p.1 p.2 :=
    fun p hp => (forall₂_iff_zip.mp hidx).right hp
  simp only [Reader.verifyBlockCollections, bind_eq_ok, require_eq_ok]
  refine ⟨(), fun ids hids id hid => ?_, (), fun p hp ev hev c hc => ?_, fun p hp id hid => ?_⟩
  · obtain ⟨_, _, hrows⟩ := exists_mem_of_mem_right hidx hids
    obtain ⟨c, hc, _⟩ := (hrows.ids id).mp hid
    exact (List.getElem?_eq_some_iff.mp hc).1
  · obtain ⟨m, hm, hmc⟩ := exists_mem_marks.mpr ⟨ev, hev, hc⟩
    have hcovers := (hzip p hp).covers m hm
    obtain ⟨i, hi⟩ := mem_iff_getElem?.mp hcovers
    exact ⟨i, ((hzip p hp).ids i).mpr ⟨_, hi, m, hm, rfl⟩, hmc ▸ hi⟩
  · obtain ⟨c, hc, hm⟩ := ((hzip p hp).ids id).mp hid
    obtain ⟨ev, hev, hmem⟩ := exists_mem_marks.mp hm
    exact ⟨ev, hev, c, hmem, hc⟩

theorem verifyDIDBlooms_filters
    (h : List.Forall₂ (fun dids f => ∃ n, f = filterOf l n dids) w.perBlockDIDs filters) :
    Reader.verifyDIDBlooms (some (filterOf l n w.uniqueDIDs)) filters blocks = .ok () := by
  simp only [Reader.verifyDIDBlooms, bind_eq_ok, require_eq_ok]
  refine ⟨(), .inl rfl, (), fun f hf did hdid => ?_, fun p hp did hdid => ?_⟩
  · cases hf
    exact test_filterOf (hw.uniqueDIDs ▸ hdid)
  · rw [hw.perBlockDIDs, forall₂_map_left_iff] at h
    obtain ⟨m, hm⟩ := (forall₂_iff_zip.mp h).right hp
    rw [hm]
    exact test_filterOf hdid

end

theorem loadAllBlockBlooms_sealedFile {r : Reader l} {head frames index bloom region coll}
    (hfile : r.file = sealedFile head frames index bloom region coll) (hhead : head.length = 256)
    (hp : r.header.Places frames index bloom region coll)
    (hregion : BloomRegion r.blocks.length region r.perBlockBloomSize) (hne : r.blocks ≠ [])
    (hpos : r.perBlockBloomSize ≠ 0) (hlt : r.blocks.length * r.perBlockBloomSize < 2 ^ 63) :
    r.loadAllBlockBlooms = (Cut.cut (List.replicate r.blocks.length r.perBlockBloomSize)
      (region.drop 8)).mapM l.unmarshalBinary := by
  have ⟨hle, _, hlen⟩ := hregion
  have hne' : r.blocks.length ≠ 0 := fun h => hne (eq_nil_of_length_eq_zero h)
  have hread : readAt r.file (r.header.blockDIDBloomOffset.toNat + blockBloomsRegionHeaderSize)
      (r.blocks.length * r.perBlockBloomSize) = .ok (region.drop 8) := by
    have := readAt_region hhead hp (a := region.take 8) (b := region.drop 8) (c := [])
      (by rw [append_nil, take_append_drop])
    rw [length_take, min_eq_left hle, length_drop] at this
    rw [hfile, ←this]
    congr 1
    omega
  simp only [Reader.loadAllBlockBlooms, if_neg hne', require, if_pos hpos, if_pos hlt, hread]
  rfl

theorem mapM_unmarshal (hsizes : ∀ f ∈ filters, (l.marshalBinary f).length = size) :
    (Cut.cut (List.replicate filters.length size)
      (filters.map l.marshalBinary).flatten).mapM l.unmarshalBinary = .ok filters := by
  have hcut := cut_replicate (forall_mem_map.mpr hsizes : ∀ b ∈ filters.map l.marshalBinary, _)
  rw [length_map] at hcut
  rw [hcut, mapM_eq_ok, forall₂_map_left_iff]
  exact forall₂_same.mpr fun f _ => l.unmarshal

end Verified

end Jetstream.Sealed
