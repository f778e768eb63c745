import HypercertsRelay.Jetstream.Sealed.Rewrite

-- Changing the display time of rows in a sealed segment file.
namespace Jetstream.Sealed

open List BlockCodec.Event BlockCodec
open List (map)
open Except (bind_eq_ok forM_eq_ok mapM_eq_ok pure_eq_ok)
open LittleEndian (encode decode encodeFields)
open ActiveSegment (reservedHeaderBytes)
open OutBlock (frames index infos)

def errInvalidConfig := "segment: invalid config"

variable {l : Libraries} {tail : Bytes}

variable (l) in
-- What must stay of an event. Of the payload the length and the hash are compared. The relay cursor
-- is not stored, and not guarded.
def guardVerify (old new : Event) : Except String Unit := do
  require (new.seq = old.seq) s!"{errInvalidConfig}: mutate changed Seq {old.seq}->{new.seq}"
  require (new.witnessedAt = old.witnessedAt)
    s!"{errInvalidConfig}: mutate changed WitnessedAt {old.witnessedAt}->{new.witnessedAt}"
  require (new.kind = old.kind) s!"{errInvalidConfig}: mutate changed Kind {old.kind}->{new.kind}"
  require (new.did = old.did) s!"{errInvalidConfig}: mutate changed DID"
  require (new.collection = old.collection) s!"{errInvalidConfig}: mutate changed Collection"
  require (new.rkey = old.rkey) s!"{errInvalidConfig}: mutate changed Rkey"
  require (new.rev = old.rev) s!"{errInvalidConfig}: mutate changed Rev"
  require (new.payloadBytes.length = old.payloadBytes.length)
    s!"{errInvalidConfig}: mutate changed Payload length {old.payloadBytes.length}->{new.payloadBytes.length}"
  require (l.sum64 new.payloadBytes = l.sum64 old.payloadBytes)
    s!"{errInvalidConfig}: mutate changed Payload content"

-- What a file has of an event that was changed.
def written (mutate : Event → Event) (ev : Event) : Event :=
  (mutate ev).stored

namespace Reader

variable (l) in
-- A block in which no display time changes is copied as it is.
def patchEvents (mutate : Event → Event) (orig : BlockInfo) (frame : Bytes) (uncompressedSize : ℕ)
    (events : List Event) : Except String OutBlock := do
  let rows := events.map (written mutate)
  let changes := events.countP fun ev => (mutate ev).indexedAt ≠ ev.indexedAt
  events.forM fun ev => guardVerify l ev (mutate ev)
  if changes = 0 then
    return { orig, frame, uncompressedSize, rows, changes }
  else
    match BlockCodec.encodeBlock (events.map mutate) with
    | none => .error "segment: patch encode block: no events"
    | some body => do
      require (body.length = uncompressedSize)
        s!"{Manifest.errInvalidBlockIndex}: uncompressed size changed under patch"
      return { orig, frame := l.encodeAll body, uncompressedSize := body.length, rows, changes }

def patchBlock (r : Reader l) (mutate : Event → Event) (orig : BlockInfo) :
    Except String OutBlock := do
  let frame ← readSealedFrame r.file orig
  let (events, uncompressedSize) ← decodeBlockCompressedSized l frame
  require (UInt32.ofNat events.length = orig.eventCount)
    s!"{Manifest.errInvalidBlockIndex}: index claims {orig.eventCount} events"
  patchEvents l mutate orig frame uncompressedSize events

-- The footer behind the block index, which is copied.
def footerTail (r : Reader l) : Except String Bytes := do
  let srcFooter ← readAt r.file r.header.footerOffset.toNat
    (r.file.length - r.header.footerOffset.toNat)
  let blockIndexLen := r.header.blockCount.toNat * blockIndexEntrySize
  require (blockIndexLen ≤ srcFooter.length)
    s!"{errInvalidFooter}: block index {blockIndexLen} bytes exceeds footer"
  require (r.header.didBloomOffset.toNat = r.header.footerOffset.toNat + blockIndexLen)
    s!"{errInvalidFooter}: did_bloom_offset {r.header.didBloomOffset} != footer_offset+block_index_len"
  return srcFooter.drop blockIndexLen

-- The new file. The sections of its footer are as long as they were.
def patchFile (r : Reader l) (footerTail : Bytes) (out : List OutBlock) : Bytes :=
  let frames := (out.map OutBlock.wire).flatten
  let blockIndexBytes := encodeBlockIndex (infos reservedHeaderBytes out)
  let footerOffset := reservedHeaderBytes + frames.length
  let segmentBloomLen := r.header.blockDIDBloomOffset.toNat - r.header.didBloomOffset.toNat
  let perBlockBloomsLen := r.header.collectionIndexOffset.toNat - r.header.blockDIDBloomOffset.toNat
  let didBloomOffset := footerOffset + blockIndexBytes.length
  let header := Header.sealed l { r.header with
    checksum := 0
    footerOffset := .ofNat footerOffset
    blockIndexOffset := .ofNat footerOffset
    didBloomOffset := .ofNat didBloomOffset
    blockDIDBloomOffset := .ofNat (didBloomOffset + segmentBloomLen)
    collectionIndexOffset := .ofNat (didBloomOffset + segmentBloomLen + perBlockBloomsLen) }
    (blockIndexBytes ++ footerTail)
  encodeHeader header ++ (frames ++ (blockIndexBytes ++ footerTail))

end Reader

variable (l) in
-- Whether the file was patched.
def patch (fault : CommitStep → Option String) (candidateDIDs : List Bytes) (mutate : Event → Event)
    (d : Disk) : Except String Bool × Disk :=
  match openReader l d.path with
  | .error err => (.error err, d)
  | .ok r =>
    if candidateDIDs ≠ [] ∧ !r.segmentBloomMayContainAny candidateDIDs then (.ok false, d) else
    match r.footerTail with
    | .error err => (.error err, d)
    | .ok footerTail =>
      match r.blocks.mapM (r.patchBlock mutate) with
      | .error err => (.error err, d)
      | .ok out =>
        if (out.map OutBlock.changes).sum = 0 then (.ok false, d) else
        d.commit fault out.length (.ok (r.patchFile footerTail out))

section Retime

variable {blocks : List (List Event)}

theorem uniqueDIDs_retime (t : Event → Int64) (rows : List Event) :
    uniqueDIDs (rows.map (retime t)) = uniqueDIDs rows := by
  rw [uniqueDIDs, foldl_map]
  rfl

theorem collectionEventCount_retime (t : Event → Int64) (rows : List Event) (c : Bytes) :
    collectionEventCount (rows.map (retime t)) c = collectionEventCount rows c := by
  rw [collectionEventCount, countP_map]
  rfl

theorem flatten_retime (t : Event → Int64) (blocks : List (List Event)) :
    (blocks.map (map (retime t))).flatten = blocks.flatten.map (retime t) :=
  map_flatten.symm

theorem mem_zip_retime {bs} {P : List Event × β → Prop}
    (h : ∀ p ∈ blocks.zip bs, P (p.1.map (retime t), p.2)) :
    ∀ p ∈ (blocks.map (map (retime t))).zip bs, P p := by
  rw [zip_map_left]
  exact forall_mem_map.mpr h

theorem checkHeaderEnvelope_retime (hok : Reader.checkHeaderEnvelope h rows = .ok ()) :
    Reader.checkHeaderEnvelope h (rows.map (retime t)) = .ok () := by
  simp only [Reader.checkHeaderEnvelope, bind_eq_ok, require_eq_ok, forall_mem_map] at hok ⊢
  exact hok

theorem verifyCollectionCounts_retime (hok : Reader.verifyCollectionCounts idx rows = .ok ()) :
    Reader.verifyCollectionCounts idx (rows.map (retime t)) = .ok () := by
  simp only [Reader.verifyCollectionCounts, bind_eq_ok, require_eq_ok,
    forall_mem_map, collectionEventCount_retime] at hok ⊢
  have ⟨_, hnodup, _, honly, _, hcounts, hcovers⟩ := hok
  refine ⟨(), hnodup, (), fun c hc => ?_, (), hcounts, hcovers⟩
  have ⟨ev, hev, hmem⟩ := honly c hc
  exact ⟨_, mem_map_of_mem hev, hmem⟩

theorem verifyBlockCollections_retime (hok : Reader.verifyBlockCollections idx blocks = .ok ()) :
    Reader.verifyBlockCollections idx (blocks.map (map (retime t))) = .ok () := by
  simp only [Reader.verifyBlockCollections, bind_eq_ok, require_eq_ok] at hok ⊢
  have ⟨_, hids, _, hmissing, hextra⟩ := hok
  refine ⟨(), hids, (), mem_zip_retime fun p hp => ?_, mem_zip_retime fun p hp id hid => ?_⟩
  · exact forall_mem_map.mpr (hmissing p hp)
  · have ⟨ev, hev, hmem⟩ := hextra p hp id hid
    exact ⟨_, mem_map_of_mem hev, hmem⟩

theorem verifyDIDBlooms_retime (hok : Reader.verifyDIDBlooms bloom blooms blocks = .ok ()) :
    Reader.verifyDIDBlooms bloom blooms (blocks.map (map (retime t))) = .ok () := by
  simp only [Reader.verifyDIDBlooms, bind_eq_ok, require_eq_ok, flatten_retime,
    uniqueDIDs_retime] at hok ⊢
  have ⟨_, hsome, _, hsegment, hblocks⟩ := hok
  refine ⟨(), hsome, (), hsegment, mem_zip_retime fun p hp => ?_⟩
  rw [uniqueDIDs_retime]
  exact hblocks p hp

end Retime

section Blocks

variable {r : Reader l}

abbrev OutBlock.Retimes (t : Event → Int64) : OutBlock → List Event → Prop :=
  OutBlock.Edits (List.map (BlockCodec.Event.retime t)) (List.countP fun ev => t ev ≠ ev.indexedAt)

theorem retime_eq_self_iff (t : Event → Int64) (events : List Event) :
    (events.countP fun ev => t ev ≠ ev.indexedAt) = 0 ↔ events.map (retime t) = events := by
  have hid : events.map (retime t) = events ↔ ∀ ev ∈ events, retime t ev = id ev := by
    rw [←map_inj_left, map_id]
  rw [hid, countP_eq_zero]
  refine forall₂_congr fun ev _ => ?_
  simp only [ne_eq, decide_not, Bool.not_eq_true', decide_eq_false_iff_not, not_not]
  exact ⟨fun h => by rw [retime, h]; rfl, congrArg indexedAt⟩

theorem guardVerify_of_written (h : written mutate ev = ev.retime t) :
    guardVerify l ev (mutate ev) = .ok () := by
  have hfield {α} (f : Event → α) (hf : ∀ e : Event, f e.stored = f e) :
      f (mutate ev) = f (ev.retime t) :=
    (hf _).symm.trans (congrArg f h)
  have hpayload : (mutate ev).payloadBytes = ev.payloadBytes := hfield _ payloadBytes_stored
  simp only [guardVerify, bind_eq_ok, require_eq_ok]
  exact ⟨(), hfield (·.seq) fun _ => rfl, (), hfield (·.witnessedAt) fun _ => rfl,
    (), hfield (·.kind) fun _ => rfl, (), hfield (·.did) fun _ => rfl,
    (), hfield (·.collection) fun _ => rfl, (), hfield (·.rkey) fun _ => rfl,
    (), hfield (·.rev) fun _ => rfl, (), congrArg _ hpayload, congrArg _ hpayload⟩

theorem guardVerify_of_patchBlock (h : r.patchBlock mutate info = .ok b)
    (hdec : r.decodeBlock info = .ok events) :
    ∀ ev ∈ events, guardVerify l ev (mutate ev) = .ok () := by
  obtain ⟨frame, size, hframe, hdec⟩ := decodeBlock_eq_ok.mp hdec
  simp only [Reader.patchBlock, hframe, hdec, bind_eq_ok, Except.ok.injEq, exists_eq_left',
    require_eq_ok, Reader.patchEvents] at h
  obtain ⟨_, _, _, hguard, _⟩ := h
  exact forM_eq_ok.mp hguard

theorem patchBlock_of_decodeBlock (h : r.decodeBlock info = .ok events)
    (hadd : Reader.addBlock info events = .ok ())
    (hmutate : ∀ ev ∈ events, written mutate ev = ev.retime t) :
    ∃ b, r.patchBlock mutate info = .ok b ∧ b.orig = info ∧ b.Retimes t events ∧ b.Fits l := by
  have ⟨frame, size, hframe, hdec⟩ := decodeBlock_eq_ok.mp h
  have ⟨body, hbody, hevents, hsize⟩ := decodeBlockCompressedSized_eq_ok.mp hdec
  have hlen := length_of_decodeBlock hevents
  have hmap : events.map (written mutate) = events.map (retime t) := map_congr_left hmutate
  have hguard : events.forM (fun ev => guardVerify l ev (mutate ev)) = .ok () :=
    forM_eq_ok.mpr fun ev hev => guardVerify_of_written (hmutate ev hev)
  have hcount : (events.countP fun ev => (mutate ev).indexedAt ≠ ev.indexedAt) =
      events.countP fun ev => t ev ≠ ev.indexedAt := by
    refine countP_congr fun ev hev => ?_
    have hindexed : (mutate ev).indexedAt = t ev := congrArg (·.indexedAt) (hmutate ev hev)
    rw [hindexed]
  suffices ∃ b, Reader.patchEvents l mutate info frame size events = .ok b ∧ b.orig = info ∧
      b.Retimes t events ∧ b.frame.length < 2 ^ 32 ∧
      decodeBlockCompressedSized l b.frame = .ok (b.rows, b.uncompressedSize) by
    have ⟨b, hb, horig, hretimes, hsmall, hdecode⟩ := this
    refine ⟨b, ?_, horig, hretimes, OutBlock.fits_of_rows hsmall hdecode hlen (horig ▸ hadd) ?_⟩
    · simp only [Reader.addBlock, bind_eq_ok, require_eq_ok] at hadd
      have ⟨_, heventCount, _⟩ := hadd
      simp only [Reader.patchBlock, hframe, hdec, bind_eq_ok, Except.ok.injEq,
        exists_eq_left', require_eq_ok]
      exact ⟨(), heventCount, hb⟩
    · rw [hretimes.rows]
      exact forall_mem_map.mpr fun ev hev => ⟨ev, hev, rfl, rfl⟩
  simp only [Reader.patchEvents, hguard, hmap, hcount]
  by_cases hzero : (events.countP fun ev => t ev ≠ ev.indexedAt) = 0
  · have hsame := (retime_eq_self_iff t events).mp hzero
    refine ⟨⟨info, frame, size, _, _⟩, if_pos hzero, rfl, ⟨rfl, rfl⟩, ?_, hsame.symm ▸ hdec⟩
    have ⟨hin, htake⟩ := readAt_eq_ok.mp hframe
    rw [←htake, length_take]
    exact lt_of_le_of_lt (min_le_left ..) info.compressedSize.toNat_lt
  · have hne : events ≠ [] := by
      rintro rfl
      exact hzero rfl
    have ⟨body', hencode, hlen', hdecode⟩ := decodeBlock_retime hevents hne t
    have hle : body'.length ≤ maxDecodedBlockBytes := hlen' ▸ l.length_decode hbody
    refine ⟨⟨info, l.encodeAll body', body'.length, _, _⟩, (if_neg hzero).trans ?_, rfl, ⟨rfl, rfl⟩,
      l.length_encode hle, ?_⟩
    · have hwritten : events.map (written mutate) = (events.map mutate).map stored := map_map.symm
      rw [←encodeBlock_stored, ←hwritten, hmap, hencode]
      simp only [bind_eq_ok, require_eq_ok]
      exact ⟨(), hlen'.trans hsize, rfl⟩
    · exact decodeBlockCompressedSized_eq_ok.mpr ⟨body', l.decode_encode hle, hdecode, rfl⟩

end Blocks

section File

theorem version_of_decodeHeader (hdec : decodeHeader buf = .ok h) :
    h.version = currentHeaderVersion := by
  simp only [decodeHeader, bind_eq_ok, require_eq_ok] at hdec
  obtain ⟨_, _, _, _, hdec⟩ := hdec
  split at hdec
  · simp only [bind_eq_ok, require_eq_ok, pure_eq_ok] at hdec
    obtain ⟨_, _, _, hversion, heq⟩ := hdec
    exact heq ▸ hversion
  · cases hdec

section Tail

variable {r : Reader l} (ho : r.Opened file)

include ho

theorem footerTail_of_tight (htight : r.Tight) :
    r.footerTail = .ok (file.drop r.header.didBloomOffset.toNat) := by
  have hvalid := ho.offsets
  simp only [validateHeaderOffsets, bind_eq_ok, require_eq_ok] at hvalid
  rw [Reader.Tight, ho.length_blocks] at htight
  have hread : readAt file r.header.footerOffset.toNat (file.length - r.header.footerOffset.toNat) =
      .ok (file.drop r.header.footerOffset.toNat) := by
    refine readAt_eq_ok.mpr ⟨by omega, take_of_length_le ?_⟩
    rw [length_drop]
  simp only [Reader.footerTail, ho.bytes, hread, bind_eq_ok, Except.ok.injEq, exists_eq_left',
    require_eq_ok, pure_eq_ok, length_drop, drop_drop, ←htight]
  exact ⟨(), by omega, (), trivial, trivial⟩

theorem tight_of_footerTail (h : r.footerTail = .ok tail) : r.Tight := by
  simp only [Reader.footerTail, bind_eq_ok, require_eq_ok] at h
  obtain ⟨_, _, _, _, _, hoffset, _⟩ := h
  rw [Reader.Tight, ho.length_blocks]
  exact hoffset

end Tail

section Moves

-- The files agree behind the block index, and the offsets move with what they point to.
structure Moves (old new : Bytes) (h h' : Header) : Prop where
  tail : new.drop h'.didBloomOffset.toNat = old.drop h.didBloomOffset.toNat
  block : h'.blockDIDBloomOffset.toNat =
    h'.didBloomOffset.toNat + (h.blockDIDBloomOffset.toNat - h.didBloomOffset.toNat)
  coll : h'.collectionIndexOffset.toNat =
    h'.didBloomOffset.toNat + (h.collectionIndexOffset.toNat - h.didBloomOffset.toNat)
  order : h.didBloomOffset.toNat ≤ h.blockDIDBloomOffset.toNat ∧
    h.blockDIDBloomOffset.toNat ≤ h.collectionIndexOffset.toNat ∧
    h.collectionIndexOffset.toNat ≤ old.length
  inside : h'.didBloomOffset.toNat ≤ new.length
  count : h'.blockCount = h.blockCount

variable (hm : Moves old new h h')

include hm

theorem Moves.length : new.length - h'.didBloomOffset.toNat = old.length - h.didBloomOffset.toNat := by
  have := congrArg List.length hm.tail
  rwa [length_drop, length_drop] at this

theorem Moves.readAt (hoff : h.didBloomOffset.toNat ≤ off) (n : ℕ) :
    readAt new (h'.didBloomOffset.toNat + (off - h.didBloomOffset.toNat)) n = readAt old off n := by
  have hlen := hm.length
  have hin := hm.inside
  have ⟨_, _, hle⟩ := hm.order
  have hdrop : new.drop (h'.didBloomOffset.toNat + (off - h.didBloomOffset.toNat)) =
      old.drop off := by
    rw [←drop_drop, hm.tail, drop_drop, Nat.add_sub_cancel' hoff]
  rw [Sealed.readAt, Sealed.readAt, hdrop]
  exact if_congr (by omega) rfl rfl

theorem Moves.readSegmentBloom : readSegmentBloom l new h' = readSegmentBloom l old h := by
  have hlen : h'.blockDIDBloomOffset.toNat - h'.didBloomOffset.toNat =
      h.blockDIDBloomOffset.toNat - h.didBloomOffset.toNat := by
    rw [hm.block, Nat.add_sub_cancel_left]
  have hread := hm.readAt (le_rfl) (h.blockDIDBloomOffset.toNat - h.didBloomOffset.toNat)
  rw [Nat.sub_self, add_zero] at hread
  rw [Sealed.readSegmentBloom, Sealed.readSegmentBloom, hlen, hread]

theorem Moves.readBloomRegion : readBloomRegion new h' = readBloomRegion old h := by
  have ⟨hle, _, _⟩ := hm.order
  have hlen : h'.collectionIndexOffset.toNat - h'.blockDIDBloomOffset.toNat =
      h.collectionIndexOffset.toNat - h.blockDIDBloomOffset.toNat := by
    rw [hm.coll, hm.block]
    omega
  rw [Sealed.readBloomRegion, Sealed.readBloomRegion, hlen, hm.block, hm.readAt hle, hm.count]

theorem Moves.readCollectionIndex : readCollectionIndex l new h' = readCollectionIndex l old h := by
  have ⟨hle, hle', _⟩ := hm.order
  have hlen : new.length - h'.collectionIndexOffset.toNat =
      old.length - h.collectionIndexOffset.toNat := by
    have := hm.length
    rw [hm.coll]
    omega
  rw [Sealed.readCollectionIndex, Sealed.readCollectionIndex, hlen, hm.coll,
    hm.readAt (hle.trans hle'), hm.count]

theorem Moves.loadAllBlockBlooms {r r' : Reader l} (hfile : r.file = old) (hfile' : r'.file = new)
    (hheader : r.header = h) (hheader' : r'.header = h')
    (hblocks : r'.blocks.length = r.blocks.length)
    (hsize : r'.perBlockBloomSize = r.perBlockBloomSize) :
    r'.loadAllBlockBlooms = r.loadAllBlockBlooms := by
  have ⟨hle, _, _⟩ := hm.order
  have hoff : h'.blockDIDBloomOffset.toNat + blockBloomsRegionHeaderSize = h'.didBloomOffset.toNat +
      (h.blockDIDBloomOffset.toNat + blockBloomsRegionHeaderSize - h.didBloomOffset.toNat) := by
    rw [hm.block]
    omega
  simp only [Reader.loadAllBlockBlooms, hblocks, hsize, hfile, hfile', hheader, hheader', hoff]
  rw [hm.readAt (hle.trans (Nat.le_add_right ..))]

end Moves

section Patched

-- The reader of the new file.
def Reader.patched (r : Reader l) (tail : Bytes) (out : List OutBlock) : Reader l :=
  let footer := 256 + (frames out).length
  let didBloom := footer + (index out).length
  let blockBloom := didBloom + (r.header.blockDIDBloomOffset.toNat - r.header.didBloomOffset.toNat)
  { r with
    file := r.patchFile tail out
    header := Header.sealed l { r.header with
      checksum := 0
      footerOffset := .ofNat footer
      blockIndexOffset := .ofNat footer
      didBloomOffset := .ofNat didBloom
      blockDIDBloomOffset := .ofNat blockBloom
      collectionIndexOffset := .ofNat (blockBloom +
        (r.header.collectionIndexOffset.toNat - r.header.blockDIDBloomOffset.toNat)) }
      (index out ++ tail)
    blocks := infos 256 out }

variable {r : Reader l} {out : List OutBlock}

section Opened

variable (ho : r.Opened file) (horig : out.map OutBlock.orig = r.blocks)

include ho horig

theorem length_patched : (infos 256 out).length = r.header.blockCount.toNat := by
  rw [OutBlock.length_infos, ←length_map (f := OutBlock.orig), horig, ho.length_blocks]

theorem length_index : (index out).length = r.header.blockCount.toNat * blockIndexEntrySize := by
  rw [length_encodeBlockIndex, length_patched ho horig]

variable (hfits : ∀ b ∈ out, b.Fits l) (hsize : file.length < 2 ^ 63)
  (htail : file.drop r.header.didBloomOffset.toNat = tail)

include hfits hsize htail

-- The first sections lie behind each other, and the others keep their places in what is copied.
theorem patched_moves : (r.patched tail out).header.footerOffset.toNat = 256 + (frames out).length ∧
    (r.patched tail out).header.didBloomOffset.toNat =
      256 + (frames out).length + (index out).length ∧
    Moves file (r.patchFile tail out) r.header (r.patched tail out).header := by
  have hvalid := ho.offsets
  simp only [validateHeaderOffsets, bind_eq_ok, require_eq_ok] at hvalid
  have ⟨_, _, _, _, _, _, _, hleBloom, hleBlock, hleColl⟩ := hvalid
  have hle : (frames out).length ≤ out.length * 2 ^ 33 := length_frames hfits
  have hlen := length_patched ho horig
  have hindex := length_index ho horig
  have hlimit := ho.limit
  rw [OutBlock.length_infos] at hlen
  rw [blockIndexEntrySize] at hindex
  rw [maxBlockCountLimit] at hlimit
  have hofNat {n} (hn : n < 2 ^ 64) : (UInt64.ofNat n).toNat = n := UInt64.toNat_ofNat_of_lt' hn
  have hdid : (r.patched tail out).header.didBloomOffset.toNat = _ := hofNat (by omega)
  have hsplit : r.patchFile tail out = (encodeHeader (r.patched tail out).header ++
      (frames out ++ index out)) ++ tail := by
    rw [append_assoc, append_assoc]
    rfl
  have hbefore : (encodeHeader (r.patched tail out).header ++ (frames out ++ index out)).length =
      (r.patched tail out).header.didBloomOffset.toNat := by
    rw [length_append, length_append, length_encodeHeader, hdid, Nat.add_assoc]
  refine ⟨hofNat (by omega), hdid, ?_, ?_, ?_, ⟨hleBloom, hleBlock, hleColl⟩, ?_, rfl⟩
  · rw [hsplit, drop_left' hbefore, htail]
  · rw [hdid]
    exact hofNat (by omega)
  · rw [hdid]
    exact (hofNat (by omega)).trans (by omega)
  · rw [hsplit, length_append, hbefore]
    exact Nat.le_add_right ..

theorem openReader_patchFile (hs : r.Sound blocks) (hsum : checksumField (r.patchFile tail out) ≠ 0)
    :
    openReader l (r.patchFile tail out) = .ok (r.patched tail out) := by
  have ⟨hfooter, hdid, hm⟩ := patched_moves ho horig hfits hsize htail
  have hindex := length_index ho horig
  have ⟨_, hheader⟩ := ho.header
  have hversion : r.header.version = currentHeaderVersion := version_of_decodeHeader hheader
  have hhead := length_encodeHeader (r.patched tail out).header
  have hbefore : (encodeHeader (r.patched tail out).header ++ frames out).length =
      256 + (frames out).length := by
    rw [length_append, hhead]
  have hsplit : r.patchFile tail out = (encodeHeader (r.patched tail out).header ++
      frames out) ++ (index out ++ tail) := by
    rw [append_assoc]
    rfl
  have hlen : (r.patchFile tail out).length =
      256 + (frames out).length + (index out ++ tail).length := by
    rw [hsplit, length_append, hbefore]
  simp only [openReader, bind_eq_ok, require_eq_ok, pure_eq_ok]
  refine ⟨(), by rw [hlen, reservedHeaderBytes]; omega, encodeHeader (r.patched tail out).header,
    readAt_append (a := []) rfl hhead, _,
    decodeHeader_encodeHeader (checksum_ne_zero hsum) hversion, (), ?_, (), ho.limit,
    index out, ?_, _, decodeBlockIndex_encodeBlockIndex (length_patched ho horig).symm, (),
    ?_, r.segmentBloom, hm.readSegmentBloom.trans ho.bloom, r.perBlockBloomSize,
    hm.readBloomRegion.trans ho.region, index out ++ tail, ?_, (),
    xxh3HeaderFooter_sealed .., r.parsedCollections, hm.readCollectionIndex.trans ho.collections, rfl⟩
  · have := hm.order
    have := hm.block
    have := hm.coll
    have := hm.length
    have := hm.inside
    simp only [validateHeaderOffsets, bind_eq_ok, require_eq_ok, hfooter, reservedHeaderBytes]
    exact ⟨(), by omega, (), by omega, (), rfl, hfooter.le.trans (by omega), by omega⟩
  · rw [hsplit]
    exact readAt_append (hbefore.trans hfooter.symm) hindex
  · rw [hfooter]
    exact validateBlockOffsets_infos hfits hs horig
  · have hread := readAt_append (c := []) hbefore (Eq.refl (index out ++ tail).length)
    rw [append_nil] at hread
    rw [hlen, hfooter, Nat.add_sub_cancel_left, hsplit, hread]

end Opened

theorem patchFile_verified (hopen : openReader l file = .ok r) (hs : r.Sound blocks)
    (hverify : r.verifySealedMetadata = .ok ()) (hsize : file.length < 2 ^ 63)
    (hretimes : List.Forall₂ (OutBlock.Retimes t) out blocks) (hfits : ∀ b ∈ out, b.Fits l)
    (horig : out.map OutBlock.orig = r.blocks)
    (htail : file.drop r.header.didBloomOffset.toNat = tail)
    (hsum : checksumField (r.patchFile tail out) ≠ 0) :
    ∃ r', openReader l (r.patchFile tail out) = .ok r' ∧ r'.verifySealedMetadata = .ok () ∧
      r'.decodeBlocks = .ok (out.map OutBlock.rows) ∧ r'.envelopes = r.envelopes ∧ r'.Tight := by
  have ho := opened_of_open hopen
  have hlen := length_patched ho horig
  obtain ⟨hfooter, hdid, hm⟩ := patched_moves ho horig hfits hsize htail
  have hdecode : List.Forall₂ (fun info events => (r.patched tail out).decodeBlock info = .ok events ∧
      Reader.addBlock info events = .ok ()) (infos 256 out) (out.map OutBlock.rows) :=
    decode_infos hfits (length_encodeHeader _) ((footer_lt hfits hs horig).trans (by decide)) rfl
  refine ⟨_, openReader_patchFile ho horig hfits hsize htail hs hsum, ?_, ?_, ?_, ?_⟩
  · have hrows : r.blocks.mapM (fun info => do
        let events ← r.decodeBlock info
        Reader.addBlock info events
        return events) = .ok blocks := by
      refine mapM_eq_ok.mpr (hs.rows.imp fun info events h => ?_)
      simp only [bind_eq_ok, pure_eq_ok]
      exact ⟨events, h.left, (), h.right, rfl⟩
    have hload : (r.patched tail out).loadAllBlockBlooms = r.loadAllBlockBlooms :=
      hm.loadAllBlockBlooms ho.bytes rfl rfl rfl (hlen.trans ho.length_blocks.symm) rfl
    simp only [Reader.verifySealedMetadata, hrows] at hverify
    simp only [Reader.verifySealedMetadata, bind_eq_ok, require_eq_ok, mapM_eq_ok,
      pure_eq_ok, Except.ok.injEq, exists_eq_left'] at hverify ⊢
    obtain ⟨_, _, _, hcounts, filters, hfilters, _, hbloomCount, _, htotal, _, hdids, _, hbounds, _,
      hcollections, _, hmasks, hverify⟩ := hverify
    refine ⟨(), hlen, (), hcounts, filters, hload.trans hfilters, (),
      hbloomCount.trans (ho.length_blocks.trans hlen.symm), out.map OutBlock.rows, ?_, ?_⟩
    · exact hdecode.imp fun info events h => ⟨events, h.left, (), h.right, rfl⟩
    · rw [map_rows hretimes, flatten_retime, length_map, uniqueDIDs_retime]
      exact ⟨(), htotal, (), hdids, (), checkHeaderEnvelope_retime hbounds, (),
        verifyCollectionCounts_retime hcollections, (), verifyBlockCollections_retime hmasks,
        verifyDIDBlooms_retime hverify⟩
  · exact mapM_eq_ok.mpr (hdecode.imp fun _ _ h => h.left)
  · have henv := @envelopes_infos out 256
    rw [horig] at henv
    exact congrArg (List.cons _) henv
  · rw [Reader.Tight, hdid, hfooter, length_encodeBlockIndex]
    rfl

end Patched

end File

section Exact

-- The candidates account for every row that is to be changed.
def CoversChanges (dids : List Bytes) (mutate : Event → Event) (rows : List Event) : Prop :=
  dids = [] ∨ ∀ ev ∈ rows, mutate ev ≠ ev → ev.did ∈ dids ∧ ev.did ≠ []

-- Of each row, the file gets another display time at most.
def ChangesIndexedAt (mutate : Event → Event) (rows : List Event) : Prop :=
  ∀ ev ∈ rows, written mutate ev = ev.retime fun ev => (mutate ev).indexedAt

variable {d : Disk} {r : Reader l} {blocks : List (List Event)}

theorem patch_error (hopen : openReader l d.path = .ok r) (hs : r.Sound blocks)
    (hcovers : CoversChanges dids mutate blocks.flatten)
    (hguard : ∃ ev ∈ blocks.flatten, guardVerify l ev (mutate ev) ≠ .ok ())
    (fault : CommitStep → Option String) :
    ∃ err, patch l fault dids mutate d = (.error err, d) := by
  obtain ⟨ev, hev, hguard⟩ := hguard
  have hchanged : mutate ev ≠ ev := by
    intro heq
    refine hguard ?_
    simp [guardVerify, heq, require]
  have hskip : ¬(dids ≠ [] ∧ !r.segmentBloomMayContainAny dids) := by
    rintro ⟨hne, hpass⟩
    obtain ⟨hmem, hdid⟩ := hcovers.resolve_left hne ev hev hchanged
    exact hdid (did_eq_nil_of_passed hs (by simpa using hpass) ev hev hmem)
  cases htail : r.footerTail with
  | error err => exact ⟨err, by simp only [patch, hopen, if_neg hskip, htail]⟩
  | ok tail =>
    cases hmap : r.blocks.mapM (r.patchBlock mutate) with
    | error err => exact ⟨err, by simp only [patch, hopen, if_neg hskip, htail, hmap]⟩
    | ok out =>
      obtain ⟨events, hevents, hev⟩ := mem_flatten.mp hev
      obtain ⟨info, hinfo, hdec, _⟩ := exists_mem_of_mem_right hs.rows hevents
      obtain ⟨b, _, hb⟩ := exists_mem_of_mem_right (mapM_eq_ok.mp hmap).flip hinfo
      exact absurd (guardVerify_of_patchBlock hb hdec ev hev) hguard

theorem map_written_eq_self (hmutate : ChangesIndexedAt mutate blocks.flatten)
    (h : ∀ ev ∈ blocks.flatten, (mutate ev).indexedAt = ev.indexedAt) :
    blocks.map (map (written mutate)) = blocks := by
  refine (map_congr_left fun events hevents => ?_).trans (map_id _)
  refine (map_congr_left fun ev hev => ?_).trans (map_id _)
  have hev := mem_flatten_of_mem hevents hev
  rw [hmutate ev hev, retime, h ev hev]
  rfl

theorem patch_of_sound (hopen : openReader l d.path = .ok r)
    (hverify : r.verifySealedMetadata = .ok ()) (hs : r.Sound blocks) (htight : r.Tight)
    (hsize : d.path.length < 2 ^ 63) (hcovers : CoversChanges dids mutate blocks.flatten)
    (hmutate : ChangesIndexedAt mutate blocks.flatten) :
    Edited r d blocks (blocks.map (map (written mutate)))
      (patch l (fun _ => none) dids mutate d) := by
  have hmap : blocks.map (map (written mutate)) =
      blocks.map (map (retime fun ev => (mutate ev).indexedAt)) :=
    map_congr_left fun events hevents => map_congr_left fun ev hev =>
      hmutate ev (mem_flatten_of_mem hevents hev)
  by_cases hskip : dids ≠ [] ∧ !r.segmentBloomMayContainAny dids
  · refine .inl ⟨by simp only [patch, hopen, if_pos hskip], ?_⟩
    refine map_written_eq_self hmutate fun ev hev => ?_
    by_contra hchange
    have ⟨hmem, hne⟩ := hcovers.resolve_left hskip.left ev hev fun heq => hchange (by rw [heq])
    exact hne (did_eq_nil_of_passed hs (by simpa using hskip.right) ev hev hmem)
  · have ⟨out, hout, horig, hretimes, hfits⟩ := mapM_edits hs.rows fun info events hevents hdec hadd =>
      patchBlock_of_decodeBlock hdec hadd fun ev hev => hmutate ev (mem_flatten_of_mem hevents hev)
    have htail := footerTail_of_tight (opened_of_open hopen) htight
    have hsum := sum_changes hretimes (retime_eq_self_iff _)
    rw [hmap]
    by_cases hzero : (out.map OutBlock.changes).sum = 0
    · exact .inl ⟨by simp only [patch, hopen, if_neg hskip, htail, hout, if_pos hzero],
        hsum.mp hzero⟩
    · refine .inr ⟨_, ?_, fun heq => hzero (hsum.mpr heq), map_rows hretimes ▸
        patchFile_verified hopen hs hverify hsize hretimes hfits horig rfl⟩
      simp only [patch, hopen, if_neg hskip, htail, hout, if_neg hzero, commit_none]

-- A patch in which nothing fails.
theorem patch_written (hvalid : Valid l d.path) (htight : TightFile l d.path)
    (hsize : d.path.length < 2 ^ 63) {rows} (hrows : rowsOf l d.path = .ok rows)
    (hcovers : CoversChanges dids mutate rows) (hmutate : ChangesIndexedAt mutate rows) :
    ∃ patched d', patch l (fun _ => none) dids mutate d = (.ok patched, d') ∧
      ((∀ ev ∈ rows, (mutate ev).indexedAt = ev.indexedAt) → d'.path = d.path) ∧
      (checksumField d'.path ≠ 0 → rowsOf l d'.path = .ok (rows.map (written mutate)) ∧
        envelopesOf l d'.path = envelopesOf l d.path ∧ Valid l d'.path ∧
        (TightFile l d.path → TightFile l d'.path)) := by
  have ⟨r, hopen, hverify⟩ := hvalid
  have ⟨blocks, hs⟩ := sound_of_verified hopen hverify
  have heq : blocks.flatten = rows := Except.ok.inj ((rowsOf_of_sound hopen hs).symm.trans hrows)
  subst heq
  have ⟨r₀, hopen₀, htight₀⟩ := htight
  cases hopen.symm.trans hopen₀
  have ⟨done, d', hres, hsame, hout⟩ :=
    (patch_of_sound hopen hverify hs htight₀ hsize hcovers hmutate).result hopen hverify hs
  rw [←map_flatten] at hout
  exact ⟨done, d', hres, fun h => hsame (map_written_eq_self hmutate h), hout⟩

theorem stored_of_sound (hs : r.Sound blocks) : ∀ ev ∈ blocks.flatten, ev.stored = ev := by
  intro ev hev
  have ⟨events, hevents, hev⟩ := mem_flatten.mp hev
  have ⟨info, _, hdec, _⟩ := exists_mem_of_mem_right hs.rows hevents
  have ⟨_, _, _, hdec⟩ := decodeBlock_eq_ok.mp hdec
  have ⟨_, _, hdec, _⟩ := decodeBlockCompressedSized_eq_ok.mp hdec
  exact stored_of_decodeBlock hdec ev hev

section Written

variable (hmutate : ChangesIndexedAt mutate rows)

include hmutate

theorem did_written (hev : ev ∈ rows) : (written mutate ev).did = ev.did :=
  congrArg (·.did) (hmutate ev hev)

theorem CoversChanges.map_written (hcovers : CoversChanges dids mutate rows)
    (hstored : ∀ ev ∈ rows, ev.stored = ev) :
    CoversChanges dids mutate (rows.map (written mutate)) := by
  refine hcovers.imp id fun hcovers => forall_mem_map.mpr fun ev hev hne => ?_
  rw [did_written hmutate hev]
  refine hcovers ev hev fun heq => hne ?_
  rw [written, heq, hstored ev hev, heq]

omit hmutate in
theorem indexedAt_written (hidem : written mutate (written mutate ev) = written mutate ev) :
    (mutate (written mutate ev)).indexedAt = (written mutate ev).indexedAt :=
  congrArg (·.indexedAt) hidem

omit hmutate in
theorem ChangesIndexedAt.map_written
    (hidem : ∀ ev ∈ rows, written mutate (written mutate ev) = written mutate ev) :
    ChangesIndexedAt mutate (rows.map (written mutate)) := by
  refine forall_mem_map.mpr fun ev hev => ?_
  rw [retime, indexedAt_written (hidem ev hev)]
  exact hidem ev hev

variable {decision : Event → RowDecision}
  (hdecision : ∀ ev t, decision (BlockCodec.Event.retime t ev) = decision ev)

include hdecision

theorem decision_written (hev : ev ∈ rows) : decision (written mutate ev) = decision ev := by
  rw [hmutate ev hev]
  exact hdecision ev _

theorem Covers.map_written (hcovers : Covers dids decision rows) :
    Covers dids decision (rows.map (written mutate)) := by
  refine hcovers.imp id fun hcovers => forall_mem_map.mpr fun ev hev hdrop => ?_
  rw [did_written hmutate hev]
  exact hcovers ev hev (decision_written hmutate hdecision hev ▸ hdrop)

-- Dropping rows and changing their times is the same in either order.
theorem filter_map_written : (rows.map (written mutate)).filter (decision · ≠ .rowDrop) =
    (rows.filter (decision · ≠ .rowDrop)).map (written mutate) := by
  rw [filter_map]
  refine congrArg _ (filter_congr fun ev hev => ?_)
  rw [Function.comp_apply, decision_written hmutate hdecision hev]

end Written

def Storable (file : Bytes) : Prop :=
  checksumField file ≠ 0 ∧ file.length < 2 ^ 63

variable (l) in
-- By its bloom the file may have rows of the candidates, if there are any.
def MayHold (file : Bytes) (dids : List Bytes) : Prop :=
  dids = [] ∨ ∃ r, openReader l file = .ok r ∧ r.segmentBloomMayContainAny dids

theorem patch_displaced (hopen : openReader l d.path = .ok r) (htight : ¬TightFile l d.path)
    (fault : CommitStep → Option String) (hmay : MayHold l d.path dids) :
    ∃ err, patch l fault dids mutate d = (.error err, d) := by
  have hskip : ¬(dids ≠ [] ∧ !r.segmentBloomMayContainAny dids) := by
    rintro ⟨hne, hpass⟩
    obtain ⟨r', hopen', hmay⟩ := hmay.resolve_left hne
    cases hopen.symm.trans hopen'
    simp [hmay] at hpass
  cases htail : r.footerTail with
  | error err => exact ⟨err, by simp only [patch, hopen, if_neg hskip, htail]⟩
  | ok tail => exact absurd ⟨r, hopen, tight_of_footerTail (opened_of_open hopen) htail⟩ htight

theorem patch_passed (hopen : openReader l d.path = .ok r) (fault : CommitStep → Option String)
    (hmay : ¬MayHold l d.path dids) : patch l fault dids mutate d = (.ok false, d) := by
  have hskip : dids ≠ [] ∧ !r.segmentBloomMayContainAny dids :=
    ⟨fun hnil => hmay (.inl hnil), by simpa using fun hpass => hmay (.inr ⟨r, hopen, hpass⟩)⟩
  simp only [patch, hopen, if_pos hskip]

variable (l) in
theorem patch_exact (d : Disk) (hvalid : Valid l d.path) (hsize : d.path.length < 2 ^ 63) :
    ∃ rows, rowsOf l d.path = .ok rows ∧ (∀ ev ∈ rows, ev.stored = ev) ∧
    (∀ fault dids mutate, CoversChanges dids mutate rows →
      (∃ ev ∈ rows, guardVerify l ev (mutate ev) ≠ .ok ()) →
      ∃ err, patch l fault dids mutate d = (.error err, d)) ∧
    (¬TightFile l d.path → ∀ fault dids mutate,
      (MayHold l d.path dids → ∃ err, patch l fault dids mutate d = (.error err, d)) ∧
      (¬MayHold l d.path dids → patch l fault dids mutate d = (.ok false, d))) ∧
    (TightFile l d.path → ∀ dids mutate, CoversChanges dids mutate rows →
      ChangesIndexedAt mutate rows →
      (∃ patched d', patch l (fun _ => none) dids mutate d = (.ok patched, d') ∧
        (Storable d'.path → rowsOf l d'.path = .ok (rows.map (written mutate)) ∧
          envelopesOf l d'.path = envelopesOf l d.path ∧ Valid l d'.path ∧
          ((∀ ev ∈ rows, written mutate (written mutate ev) = written mutate ev) →
            (patch l (fun _ => none) dids mutate d').2.path = d'.path))) ∧
      ∀ dids' decision, Covers dids' decision rows →
        (∀ ev t, decision (BlockCodec.Event.retime t ev) = decision ev) →
        ∀ patched rewritten both both', patched = (patch l (fun _ => none) dids mutate d).2 →
          rewritten = (rewrite l (fun _ => none) dids' decision d).2 →
          both = (rewrite l (fun _ => none) dids' decision patched).2 →
          both' = (patch l (fun _ => none) dids mutate rewritten).2 →
          Storable patched.path → Storable rewritten.path → Storable both.path →
          Storable both'.path → rowsOf l both.path = rowsOf l both'.path) := by
  have ⟨r, hopen, hverify⟩ := hvalid
  have ⟨blocks, hs⟩ := sound_of_verified hopen hverify
  have hrows := rowsOf_of_sound hopen hs
  have hstored := stored_of_sound hs
  refine ⟨blocks.flatten, hrows, hstored, fun fault dids mutate hcovers hguard => ?_,
    fun htight fault _ _ => ⟨patch_displaced hopen htight fault, patch_passed hopen fault⟩,
    fun htight dids mutate hcovers hmutate => ⟨?_, ?_⟩⟩
  · exact patch_error hopen hs hcovers hguard fault
  · have ⟨patched, d', hpatch, _, hout⟩ := patch_written hvalid htight hsize hrows hcovers hmutate
    refine ⟨patched, d', hpatch, fun hstorable => ?_⟩
    have ⟨hrows', henv, hvalid', htight'⟩ := hout hstorable.left
    refine ⟨hrows', henv, hvalid', fun hidem => ?_⟩
    have ⟨_, d'', hpatch', hsame, _⟩ := patch_written hvalid' (htight' htight) hstorable.right hrows'
      (hcovers.map_written hmutate hstored) (.map_written hidem)
    rw [hpatch']
    exact hsame (forall_mem_map.mpr fun ev hev => indexedAt_written (hidem ev hev))
  · rintro dids' decision hcovers' hdecision patched rewritten both both' rfl rfl rfl rfl hpatched
      hrewritten hboth hboth'
    have ⟨_, d₁, hpatch₁, _, hout₁⟩ := patch_written hvalid htight hsize hrows hcovers hmutate
    have ⟨_, d₂, hrewrite₂, _, hout₂⟩ := rewrite_filters hvalid hrows hcovers'
    rw [hpatch₁] at hpatched hboth ⊢
    rw [hrewrite₂] at hrewritten hboth' ⊢
    have ⟨hrows₁, _, hvalid₁, _⟩ := hout₁ hpatched.left
    have ⟨hrows₂, _, hvalid₂, htight₂⟩ := hout₂ hrewritten.left
    have hsub {ev} (hev : ev ∈ blocks.flatten.filter (decision · ≠ .rowDrop)) :
        ev ∈ blocks.flatten := mem_of_mem_filter hev
    have ⟨_, d₃, hrewrite₃, _, hout₃⟩ := rewrite_filters hvalid₁ hrows₁
      (hcovers'.map_written hmutate hdecision)
    have ⟨_, d₄, hpatch₄, _, hout₄⟩ := @patch_written l d₂ dids mutate hvalid₂ (htight₂ htight)
      hrewritten.right _ hrows₂ (hcovers.imp id fun h ev hev => h ev (hsub hev))
      fun ev hev => hmutate ev (hsub hev)
    rw [hrewrite₃] at hboth ⊢
    rw [hpatch₄] at hboth' ⊢
    rw [(hout₃ hboth.left).left, (hout₄ hboth'.left).left, filter_map_written hmutate hdecision]

def moveCursor (ev : Event) : Event :=
  { ev with upstreamRelayCursor := 1 }

def renumber (ev : Event) : Event :=
  { ev with seq := 8 }

def touch (ev : Event) : Event :=
  { ev with indexedAt := 5 }

-- A byte lies between the block index and the bloom.
def paddedDisk : Disk where
  path := sealedFile (encodeHeader { strayHeader with
      didBloomOffset := 390
      blockDIDBloomOffset := 391
      collectionIndexOffset := 400 })
    (encode 8 73 ++ BlockCodec.encodeBlockInto [] [strayRow, ownedRow])
    (encodeBlockIndex [strayInfo] ++ [0]) [0] (encodeFields [(4, 1), (4, 1)] ++ [0])
    (encodeFields [(4, 0), (4, 1), (4, 0), (4, 0)])
  tmp := none

-- The relay cursor may change, a row without a DID is passed over, and a valid file with padding is
-- rejected.
theorem patch_unguarded : Valid plainLibraries strayDisk.path ∧
    rowsOf plainLibraries strayDisk.path = .ok [strayRow, ownedRow] ∧
    (moveCursor strayRow).upstreamRelayCursor ≠ strayRow.upstreamRelayCursor ∧
    patch plainLibraries (fun _ => none) [] moveCursor strayDisk = (.ok false, strayDisk) ∧
    (renumber strayRow).seq ≠ strayRow.seq ∧
    patch plainLibraries (fun _ => none) [[]] renumber strayDisk = (.ok false, strayDisk) ∧
    Valid plainLibraries paddedDisk.path ∧
    (patch plainLibraries (fun _ => none) [] touch paddedDisk).1.toOption = none :=
  ⟨valid_strayDisk, by decide +kernel, by decide, by decide +kernel, by decide, by decide +kernel,
    valid_of_verify (by decide +kernel), by decide +kernel⟩

theorem tight_strayDisk : TightFile plainLibraries strayDisk.path := by
  have htail : openReader plainLibraries strayDisk.path >>= Reader.footerTail =
      .ok ([0] ++ ((encodeFields [(4, 1), (4, 1)] ++ [0]) ++
        encodeFields [(4, 0), (4, 1), (4, 0), (4, 0)])) := by
    decide +kernel
  have ⟨r, hopen, htail⟩ := bind_eq_ok.mp htail
  exact ⟨r, hopen, tight_of_footerTail (opened_of_open hopen) htail⟩

theorem patch_exact_stray : ∃ rows, rowsOf plainLibraries strayDisk.path = .ok rows ∧
    ∃ patched d', patch plainLibraries (fun _ => none) [] touch strayDisk = (.ok patched, d') ∧
      rowsOf plainLibraries d'.path = .ok (rows.map (written touch)) ∧
      (patch plainLibraries (fun _ => none) [] touch d').2.path = d'.path := by
  have ⟨rows, hrows, hstored, _, _, hpatch⟩ :=
    patch_exact plainLibraries strayDisk valid_strayDisk (by decide +kernel)
  have hwritten : ∀ ev ∈ rows, written touch ev = touch ev :=
    fun ev hev => congrArg touch (hstored ev hev)
  have ⟨⟨patched, d', heq, hout⟩, _⟩ := hpatch tight_strayDisk [] touch (.inl rfl) hwritten
  have hdisk : d' = (patch plainLibraries (fun _ => none) [] touch strayDisk).2 := by rw [heq]
  have hstorable : Storable d'.path := by
    rw [hdisk]
    exact ⟨by decide +kernel, by decide +kernel⟩
  have ⟨hrows', _, _, hidem⟩ := hout hstorable
  refine ⟨rows, hrows, patched, d', heq, hrows', hidem fun ev hev => ?_⟩
  rw [hwritten ev hev]
  exact hwritten ev hev

end Exact

end Jetstream.Sealed
