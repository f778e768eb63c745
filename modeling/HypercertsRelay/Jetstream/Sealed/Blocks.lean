import HypercertsRelay.Jetstream.Sealed.Footer

-- The blocks of a file that takes the place of a sealed one, and how it gets there.
namespace Jetstream.Sealed

open List Except Reader UInt32
open Manifest (blockEnvelope blockError)
open LittleEndian (encode decode encodeFields)
open ActiveSegment (reservedHeaderBytes)

-- With the number of rows that were dropped or changed. The index entry keeps its bounds.
structure OutBlock where
  orig : BlockInfo
  frame : Bytes
  uncompressedSize : ℕ
  rows : List Event
  changes : ℕ

namespace OutBlock

def info (b : OutBlock) (nextOffset : ℕ) : BlockInfo := { b.orig with
  offset := .ofNat nextOffset
  compressedSize := .ofNat b.frame.length
  uncompressedSize := .ofNat b.uncompressedSize
  eventCount := .ofNat b.rows.length }

def wire (b : OutBlock) : Bytes :=
  encode 8 b.frame.length ++ b.frame

def infos : ℕ → List OutBlock → List BlockInfo
  | _, [] => []
  | nextOffset, b :: bs => b.info nextOffset :: infos (nextOffset + (8 + b.frame.length)) bs

abbrev frames (out : List OutBlock) : Bytes :=
  (out.map wire).flatten

abbrev index (out : List OutBlock) : Bytes :=
  encodeBlockIndex (infos 256 out)

end OutBlock

variable {l : Libraries} {r : Reader l} {events : List Event} {blocks : List (List Event)}
  {info : BlockInfo} {frame : Bytes} {b : OutBlock} {size : ℕ} {d : Disk}

namespace Reader

def segmentBloomMayContainAny (r : Reader l) (dids : List Bytes) : Bool :=
  match r.segmentBloom with
  | none => true
  | some bloom => dids.any fun did => did ≠ [] && l.testString bloom did

end Reader

structure Disk where
  path : Bytes
  tmp : Option Bytes
  deriving DecidableEq

-- What can fail while the new file is put in place. There is one write for the first bytes, two for
-- each block, and one for the footer and the header each.
inductive CommitStep where
  | removeTmp
  | createTmp
  | write (i : ℕ)
  | tempWritten
  | syncTmp
  | tempSynced
  | closeTmp
  | rename
  | renamed
  | syncDir
  | dirSynced
  deriving DecidableEq

def CommitStep.beforeRename (blockCount : ℕ) : List CommitStep :=
  .createTmp :: (List.range (2 * blockCount + 3)).map .write ++
    [.tempWritten, .syncTmp, .tempSynced, .closeTmp, .rename]

def CommitStep.afterRename : List CommitStep :=
  [.renamed, .syncDir, .dirSynced]

-- The temporary file is removed on every error.
def Disk.commit (d : Disk) (fault : CommitStep → Option String) (blockCount : ℕ)
    (contents : Except String Bytes) : Except String Bool × Disk :=
  match fault .removeTmp with
  | some err => (.error err, d)
  | none =>
    match contents, (CommitStep.beforeRename blockCount).findSome? fault with
    | .error err, _ => (.error err, { d with tmp := none })
    | .ok _, some err => (.error err, { d with tmp := none })
    | .ok contents, none =>
      match CommitStep.afterRename.findSome? fault with
      | some err => (.error err, { path := contents, tmp := none })
      | none => (.ok true, { path := contents, tmp := none })

-- An error before the rename leaves the old file in its place.
theorem commit_error (h : (d.commit fault n contents).1 = .error err)
    (hafter : ∀ s ∈ CommitStep.afterRename, fault s = none) :
    (d.commit fault n contents).2.path = d.path := by
  have hnone : CommitStep.afterRename.findSome? fault = none := findSome?_eq_none_iff.mpr hafter
  cases hremove : fault .removeTmp with
  | some e => simp only [Disk.commit, hremove]
  | none =>
    cases contents with
    | error e => simp only [Disk.commit, hremove]
    | ok file =>
      cases hbefore : (CommitStep.beforeRename n).findSome? fault with
      | some e => simp only [Disk.commit, hremove, hbefore]
      | none => simp only [Disk.commit, hremove, hbefore, hnone, reduceCtorEq] at h

theorem commit_none (d : Disk) (n : ℕ) (file : Bytes) :
    d.commit (fun _ => none) n (.ok file) = (.ok true, ⟨file, none⟩) := by
  have hnone (steps : List CommitStep) : steps.findSome? (fun _ => (none : Option String)) = none :=
    findSome?_eq_none_iff.mpr fun _ _ => rfl
  simp only [Disk.commit, hnone]

section Layout

theorem OutBlock.length_wire (b : OutBlock) : b.wire.length = 8 + b.frame.length := by
  simp [wire]

theorem OutBlock.length_infos (off : ℕ) (out : List OutBlock) :
    (infos off out).length = out.length := by
  induction out generalizing off with
  | nil => rfl
  | cons b out ih => rw [infos, length_cons, ih, length_cons]

theorem readSealedFrame_infos (hlen : ∀ b ∈ out, b.frame.length < 2 ^ 32)
    (hoff : off + (out.map OutBlock.wire).flatten.length < 2 ^ 64)
    (hpre : pre.length = off) (rest : Bytes) :
    List.Forall₂ (fun b info => (∃ off, info = b.info off) ∧
      readSealedFrame (pre ++ ((out.map OutBlock.wire).flatten ++ rest)) info = .ok b.frame)
      out (OutBlock.infos off out) := by
  induction out generalizing off pre with
  | nil => exact .nil
  | cons b out ih =>
    have ⟨hb, hlen⟩ := forall_mem_cons.mp hlen
    rw [map_cons, flatten_cons, length_append, b.length_wire] at hoff
    have hlt : off < 2 ^ 64 := by omega
    have hoffset : (UInt64.ofNat off).toNat = off := UInt64.toNat_ofNat_of_lt' hlt
    have hsize : (ofNat b.frame.length).toNat = b.frame.length := toNat_ofNat_of_lt' hb
    refine .cons ⟨⟨off, rfl⟩, ?_⟩ ?_
    · have hfile : pre ++ (((b :: out).map OutBlock.wire).flatten ++ rest) =
          (pre ++ encode 8 b.frame.length) ++
            (b.frame ++ ((out.map OutBlock.wire).flatten ++ rest)) := by
        simp [OutBlock.wire]
      simp only [readSealedFrame, OutBlock.info, hoffset, hsize]
      rw [hfile]
      exact readAt_append (by simp [hpre]) rfl
    · have hfile : pre ++ (((b :: out).map OutBlock.wire).flatten ++ rest) =
          (pre ++ b.wire) ++ ((out.map OutBlock.wire).flatten ++ rest) := by
        simp
      rw [hfile]
      exact ih hlen (by omega) (by rw [length_append, hpre, b.length_wire])

-- The entries lie one behind the other, so they pass when their bounds are ascending.
theorem validateBlockOffsetsFrom_infos {prev} (hlen : ∀ b ∈ out, b.frame.length < 2 ^ 32)
    (hfooter : off + (out.map OutBlock.wire).flatten.length ≤ footerOffset)
    (hlimit : footerOffset < 2 ^ 64) (hoff : reservedHeaderBytes ≤ off)
    (hbounds : ∀ b ∈ out, b.orig.minSeq.toNat ≤ b.orig.maxSeq.toNat ∧
      b.orig.minWitnessedAt.toInt ≤ b.orig.maxWitnessedAt.toInt)
    (ht : blockEnvelope.Threaded prev ((OutBlock.infos off out).map BlockInfo.entry)) :
    Manifest.validateBlockOffsetsFrom footerOffset i off prev
      ((OutBlock.infos off out).map BlockInfo.entry) = .ok () := by
  induction out generalizing off i prev with
  | nil => rfl
  | cons b out ih =>
    have ⟨hb, hlen⟩ := forall_mem_cons.mp hlen
    have ⟨hbound, hbounds⟩ := forall_mem_cons.mp hbounds
    have hseq : (b.info off).entry.minSeq ≤ (b.info off).entry.maxSeq := hbound.left
    have htime : (b.info off).entry.minWitnessedAt ≤ (b.info off).entry.maxWitnessedAt :=
      hbound.right
    rw [map_cons, flatten_cons, length_append, b.length_wire] at hfooter
    have hlt : off < 2 ^ 64 := by omega
    have hoffset : (b.info off).entry.offset = off := UInt64.toNat_ofNat_of_lt' hlt
    have hsize : (b.info off).entry.compressedSize = b.frame.length := toNat_ofNat_of_lt' hb
    have hnone : blockError footerOffset i off (b.info off).entry = none := by
      simp only [blockError, hoffset, hsize]
      rw [if_neg (by omega), if_neg (by simp only [Manifest.reservedHeaderBytes,
        reservedHeaderBytes] at hoff ⊢; omega), if_neg (by omega), if_neg (Nat.not_lt.mpr hseq),
        if_neg (Int.not_lt.mpr htime)]
    rw [OutBlock.infos, map_cons] at ht ⊢
    have hrec {prev} (ht : blockEnvelope.Threaded prev
        ((OutBlock.infos (off + (8 + b.frame.length)) out).map BlockInfo.entry)) :=
      ih (i := i + 1) hlen (by omega) (by omega) hbounds ht
    have hend : off + 8 + b.frame.length = off + (8 + b.frame.length) := add_assoc ..
    simp only [Manifest.validateBlockOffsetsFrom, hnone, hoffset, hsize, hend]
    rcases ht with ⟨hempty, ht⟩ | ⟨hne, hprev, ht⟩
    · have hempty : (b.info off).entry.eventCount = 0 := hempty
      rw [if_pos hempty]
      exact hrec ht
    have hne : (b.info off).entry.eventCount ≠ 0 := hne
    have hprev : ∀ p ∈ prev, p < (b.info off).entry.minSeq := hprev
    have hfilter : prev.filter ((b.info off).entry.minSeq ≤ ·) = none := by
      simpa [Option.filter_eq_none_iff] using hprev
    rw [if_neg hne, hfilter]
    exact hrec ht

end Layout

section Sound

def Reader.envelopes (r : Reader l) : List (UInt64 × UInt64 × Int64 × Int64) :=
  (r.header.minSeq, r.header.maxSeq, r.header.minWitnessedAt, r.header.maxWitnessedAt) ::
    r.blocks.map fun b => (b.minSeq, b.maxSeq, b.minWitnessedAt, b.maxWitnessedAt)

def checksumField (file : Bytes) : ℕ :=
  decode ((file.drop 4).take 8)

theorem checksumField_encodeHeader (h : Header) (rest : Bytes) :
    checksumField (encodeHeader h ++ rest) = h.checksum.toNat := by
  have h8 : (encode 8 h.checksum.toNat).length = 8 := LittleEndian.length_encode ..
  have hbytes : encodeHeader h ++ rest = ActiveSegment.segmentMagic ++
      (encode 8 h.checksum.toNat ++ (encodeFields h.fields.tail ++
        (List.replicate (reservedHeaderBytes - 98) 0 ++ rest))) := by
    simp only [encodeHeader, Header.fields, encodeFields, append_assoc, tail_cons]
  have h4 : ActiveSegment.segmentMagic.length = 4 := rfl
  rw [checksumField, hbytes, drop_left' h4, take_left' h8]
  exact LittleEndian.decode_encode h.checksum.toNat_lt

theorem checksum_ne_zero (hsum : checksumField (encodeHeader h ++ rest) ≠ 0) : h.checksum ≠ 0 := by
  intro hzero
  rw [checksumField_encodeHeader, hzero] at hsum
  exact hsum rfl

-- What opening a file and verifying it says about the rows of its blocks.
structure Reader.Sound (r : Reader l) (blocks : List (List Event)) : Prop where
  count : r.blocks.length ≤ maxBlockCountLimit
  threaded : Manifest.blockEnvelope.Threaded none (r.blocks.map BlockInfo.entry)
  bounds : ∀ b ∈ r.blocks, b.minSeq.toNat ≤ b.maxSeq.toNat ∧
    b.minWitnessedAt.toInt ≤ b.maxWitnessedAt.toInt
  rows : List.Forall₂ (fun info events => r.decodeBlock info = .ok events ∧
    Reader.addBlock info events = .ok ()) r.blocks blocks
  header : Reader.checkHeaderEnvelope r.header blocks.flatten = .ok ()
  covers : ∀ ev ∈ blocks.flatten, ∀ c ∈ collectionsOf ev, c ∈ r.parsedCollections.stringTable
  table : r.parsedCollections.stringTable.length ≤ maxCollectionCountLimit
  short : ∀ nsid ∈ r.parsedCollections.stringTable, nsid.length < 256
  size : bodySize r.parsedCollections.stringTable r.blocks.length ≤ maxDecodedBlockBytes
  bloom : ∀ f ∈ r.segmentBloom, ∀ did ∈ uniqueDIDs blocks.flatten, l.testString f did

structure Reader.Opened (r : Reader l) (file : Bytes) : Prop where
  bytes : r.file = file
  header : ∃ buf, decodeHeader buf = .ok r.header
  offsets : validateHeaderOffsets r.header file.length = .ok ()
  limit : r.header.blockCount.toNat ≤ maxBlockCountLimit
  index : ∃ buf, readAt file r.header.blockIndexOffset.toNat
    (r.header.blockCount.toNat * blockIndexEntrySize) = .ok buf ∧
      decodeBlockIndex buf r.header.blockCount = .ok r.blocks
  blocks : Manifest.validateBlockOffsets (r.blocks.map BlockInfo.entry)
    r.header.footerOffset.toNat = .ok ()
  bloom : readSegmentBloom l file r.header = .ok r.segmentBloom
  region : readBloomRegion file r.header = .ok r.perBlockBloomSize
  collections : readCollectionIndex l file r.header = .ok r.parsedCollections

variable {file : Bytes}

theorem opened_of_open (h : openReader l file = .ok r) : r.Opened file := by
  simp only [openReader, bind_eq_ok, require_eq_ok, pure_eq_ok] at h
  obtain ⟨_, _, buf, _, header, hheader, _, hoffsets, _, hlimit, index, hindex, infos, hinfos, _,
    hblocks, _, hbloom, _, hregion, _, _, _, _, _, hcollections, hr⟩ := h
  subst hr
  exact ⟨rfl, ⟨buf, hheader⟩, hoffsets, hlimit, ⟨index, hindex, hinfos⟩, hblocks, hbloom, hregion,
    hcollections⟩

theorem Reader.Opened.length_blocks (h : r.Opened file) :
    r.blocks.length = r.header.blockCount.toNat :=
  have ⟨_, _, hinfos⟩ := h.index
  length_decodeBlockIndex hinfos

theorem sound_of_verified (hopen : openReader l file = .ok r)
    (hverify : r.verifySealedMetadata = .ok ()) : ∃ blocks, r.Sound blocks := by
  have ho := opened_of_open hopen
  obtain ⟨hthread, hbounds⟩ := Manifest.validateBlockOffsetsFrom_ok ho.blocks
  have hidx := ho.collections
  simp only [readCollectionIndex, bind_eq_ok, require_eq_ok, pure_eq_ok] at hidx
  obtain ⟨_, _, _, _, idx, hdecode, _, hmasks, heq⟩ := hidx
  subst heq
  obtain ⟨htable, hshort, hbody⟩ := bodySize_of_decode l hdecode
  simp only [verifySealedMetadata, bind_eq_ok, require_eq_ok, mapM_eq_ok, pure_eq_ok] at hverify
  obtain ⟨_, _, _, _, blooms, _, _, _, blocks, hrows, _, _, _, _, _, hheader, _, hcounts, _, _,
    hblooms⟩ := hverify
  refine ⟨blocks, ho.length_blocks ▸ ho.limit, hthread, ?_, ?_, hheader, ?_, htable, hshort, ?_, ?_⟩
  · intro b hb
    exact hbounds b.entry (mem_map_of_mem hb)
  · refine hrows.imp fun info events h => ?_
    obtain ⟨events', hdec, _, hadd, heq⟩ := h
    exact heq ▸ ⟨hdec, hadd⟩
  · simp only [verifyCollectionCounts, bind_eq_ok, require_eq_ok] at hcounts
    obtain ⟨_, _, _, _, _, _, hcovers⟩ := hcounts
    exact hcovers
  · rw [ho.length_blocks, ←hmasks]
    exact hbody
  · simp only [verifyDIDBlooms, bind_eq_ok, require_eq_ok] at hblooms
    obtain ⟨_, _, _, hbloom, _⟩ := hblooms
    exact hbloom

theorem decodeBlockCompressedSized_eq_ok : decodeBlockCompressedSized l frame = .ok (events, size) ↔
      ∃ body, l.decodeAll frame = .ok body ∧ BlockCodec.decodeBlock body = .ok events ∧
        body.length = size := by
  simp only [decodeBlockCompressedSized, bind_eq_ok, mapError_eq_ok, pure_eq_ok, Prod.mk.injEq]
  constructor
  · rintro ⟨body, hb, _, he, rfl, hs⟩
    exact ⟨body, hb, he, hs⟩
  · rintro ⟨body, hb, he, hs⟩
    exact ⟨body, hb, _, he, rfl, hs⟩

theorem decodeBlock_eq_ok : r.decodeBlock info = .ok events ↔
    ∃ frame size, readSealedFrame r.file info = .ok frame ∧
      decodeBlockCompressedSized l frame = .ok (events, size) := by
  simp only [decodeBlock, bind_eq_ok, pure_eq_ok, Prod.exists]
  constructor
  · rintro ⟨f, hf, _, s, hd, rfl⟩
    exact ⟨f, s, hf, hd⟩
  · rintro ⟨f, s, hf, hd⟩
    exact ⟨f, hf, _, s, hd, rfl⟩

variable (l) in
def Valid (file : Bytes) : Prop :=
  ∃ r, openReader l file = .ok r ∧ r.verifySealedMetadata = .ok ()

variable (l) in
def rowsOf (file : Bytes) : Except String (List Event) := do
  let r ← openReader l file
  let blocks ← r.decodeBlocks
  return blocks.flatten

variable (l) in
def envelopesOf (file : Bytes) : Except String (List (UInt64 × UInt64 × Int64 × Int64)) := do
  let r ← openReader l file
  return r.envelopes

theorem rowsOf_of_sound (hopen : openReader l file = .ok r) (hs : r.Sound blocks) :
    rowsOf l file = .ok blocks.flatten := by
  refine bind_eq_ok.mpr ⟨r, hopen, bind_eq_ok.mpr ⟨blocks, ?_, rfl⟩⟩
  exact mapM_eq_ok.mpr (hs.rows.imp fun _ _ h => h.left)

-- What is passed over has no row of a candidate.
theorem did_eq_nil_of_passed (hs : r.Sound blocks)
    (hpass : r.segmentBloomMayContainAny dids = false) :
    ∀ ev ∈ blocks.flatten, ev.did ∈ dids → ev.did = [] := by
  intro ev hev hmem
  by_contra hne
  rw [segmentBloomMayContainAny] at hpass
  cases hb : r.segmentBloom with
  | none => simp [hb] at hpass
  | some f =>
    have htest := hs.bloom f hb ev.did (mem_uniqueDIDs.mpr ⟨hne, ev, hev, rfl⟩)
    simp only [hb, any_eq_false] at hpass
    exact hpass ev.did hmem (by simp [hne, htest])

-- The blooms begin right behind the block index. Opening a file does not ask for this.
def Reader.Tight (r : Reader l) : Prop :=
  r.header.didBloomOffset.toNat = r.header.footerOffset.toNat + r.blocks.length * blockIndexEntrySize

variable (l) in
def TightFile (file : Bytes) : Prop :=
  ∃ r, openReader l file = .ok r ∧ r.Tight

end Sound

section Fits

-- The block can be read back, and its rows lie within the bounds it keeps.
structure OutBlock.Fits (l : Libraries) (b : OutBlock) : Prop where
  frame : b.frame.length < 2 ^ 32
  decode : decodeBlockCompressedSized l b.frame = .ok (b.rows, b.uncompressedSize)
  seq : ∀ ev ∈ b.rows, b.orig.minSeq ≤ ev.seq ∧ ev.seq ≤ b.orig.maxSeq
  time : ∀ ev ∈ b.rows,
    b.orig.minWitnessedAt ≤ ev.witnessedAt ∧ ev.witnessedAt ≤ b.orig.maxWitnessedAt
  empty : b.orig.eventCount = 0 → b.rows = []

theorem length_of_decodeBlockCompressedSized
    (h : decodeBlockCompressedSized l frame = .ok (events, size)) : events.length ≤ 2 ^ 18 := by
  have ⟨_, _, hdec, _⟩ := decodeBlockCompressedSized_eq_ok.mp h
  exact BlockCodec.length_of_decodeBlock hdec

theorem eq_nil_of_eventCount (hlen : events.length ≤ 2 ^ 18)
    (h : addBlock info events = .ok ()) (hzero : info.eventCount = 0) : events = [] := by
  simp only [addBlock, bind_eq_ok, require_eq_ok] at h
  obtain ⟨_, hcount, _⟩ := h
  have := congrArg toNat (hcount.trans hzero)
  rw [toNat_ofNat_of_lt' (lt_of_le_of_lt hlen (by decide))] at this
  exact eq_nil_of_length_eq_zero this

-- Rows that stem from those of the block fit its entry as these did.
theorem OutBlock.fits_of_rows (hframe : b.frame.length < 2 ^ 32)
    (hdecode : decodeBlockCompressedSized l b.frame = .ok (b.rows, b.uncompressedSize))
    (hlen : events.length ≤ 2 ^ 18) (h : addBlock b.orig events = .ok ())
    (hrows : ∀ ev ∈ b.rows, ∃ ev' ∈ events, ev'.seq = ev.seq ∧ ev'.witnessedAt = ev.witnessedAt) :
    b.Fits l := by
  have hnil := eq_nil_of_eventCount hlen h
  have hne {ev} (hev : ev ∈ b.rows) : b.orig.eventCount ≠ 0 := by
    intro hzero
    obtain ⟨ev', hev', _⟩ := hrows ev hev
    rw [hnil hzero] at hev'
    cases hev'
  simp only [addBlock, bind_eq_ok, require_eq_ok] at h
  obtain ⟨_, _, _, hseq, htime⟩ := h
  refine ⟨hframe, hdecode, fun ev hev => ?_, fun ev hev => ?_, fun hzero => ?_⟩
  · obtain ⟨ev', hev', heq, _⟩ := hrows ev hev
    exact heq ▸ hseq.resolve_left (hne hev) ev' hev'
  · obtain ⟨ev', hev', _, heq⟩ := hrows ev hev
    exact heq ▸ htime.resolve_left (hne hev) ev' hev'
  · exact eq_nil_iff_forall_not_mem.mpr fun ev hev => hne hev hzero

theorem OutBlock.Fits.addBlock (h : b.Fits l) (off : ℕ) :
    Reader.addBlock (b.info off) b.rows = .ok () := by
  simp only [Reader.addBlock, bind_eq_ok, require_eq_ok]
  exact ⟨(), rfl, (), .inr h.seq, .inr h.time⟩

-- What a block of the new file is, for the rows of the old one.
structure OutBlock.Edits (f : List Event → List Event) (n : List Event → ℕ) (b : OutBlock)
    (events : List Event) : Prop where
  rows : b.rows = f events
  changes : b.changes = n events

section Edits

theorem mapM_edits {edit : BlockInfo → Except String OutBlock}
    (h : List.Forall₂ (fun info events => r.decodeBlock info = .ok events ∧
      addBlock info events = .ok ()) infos blocks)
    (hedit : ∀ info, ∀ events ∈ blocks, r.decodeBlock info = .ok events →
      addBlock info events = .ok () →
      ∃ b, edit info = .ok b ∧ b.orig = info ∧ b.Edits f n events ∧ b.Fits l) :
    ∃ out, infos.mapM edit = .ok out ∧ out.map OutBlock.orig = infos ∧
      List.Forall₂ (OutBlock.Edits f n) out blocks ∧ ∀ b ∈ out, b.Fits l := by
  induction h with
  | nil => exact ⟨[], rfl, rfl, .nil, nofun⟩
  | @cons info events infos blocks hinfo _ ih =>
    have ⟨b, hb, horig, hedits, hfits⟩ := hedit info events (.head _) hinfo.left hinfo.right
    have ⟨out, hout, horigs, hedits', hfits'⟩ := ih fun info events hev =>
      hedit info events (.tail _ hev)
    refine ⟨b :: out, ?_, by rw [map_cons, horig, horigs], .cons hedits hedits',
      forall_mem_cons.mpr ⟨hfits, hfits'⟩⟩
    rw [mapM_eq_ok] at hout ⊢
    exact .cons hb hout

variable (hedits : List.Forall₂ (OutBlock.Edits f n) out blocks)

include hedits

theorem map_rows : out.map OutBlock.rows = blocks.map f := by
  induction hedits with
  | nil => rfl
  | cons hb _ ih => rw [map_cons, map_cons, ih, hb.rows]

theorem sum_changes (hn : ∀ events, n events = 0 ↔ f events = events) :
    (out.map OutBlock.changes).sum = 0 ↔ blocks.map f = blocks := by
  induction hedits with
  | nil => simp
  | cons hb _ ih =>
    rw [map_cons, map_cons, sum_cons, Nat.add_eq_zero_iff, ih, hb.changes, hn, List.cons.injEq]

end Edits

-- What a call that changes the blocks of a file comes to when nothing fails.
def Edited (r : Reader l) (d : Disk) (blocks blocks' : List (List Event))
    (res : Except String Bool × Disk) : Prop :=
  (res = (.ok false, d) ∧ blocks' = blocks) ∨
  ∃ file, res = (.ok true, ⟨file, none⟩) ∧ blocks' ≠ blocks ∧
    (checksumField file ≠ 0 → ∃ r', openReader l file = .ok r' ∧ r'.verifySealedMetadata = .ok () ∧
      r'.decodeBlocks = .ok blocks' ∧ r'.envelopes = r.envelopes ∧ r'.Tight)

theorem Edited.result (h : Edited r d blocks blocks' res) (hopen : openReader l d.path = .ok r)
    (hverify : r.verifySealedMetadata = .ok ()) (hs : r.Sound blocks) :
    ∃ done d', res = (.ok done, d') ∧ (blocks' = blocks → d'.path = d.path) ∧
      (checksumField d'.path ≠ 0 → rowsOf l d'.path = .ok blocks'.flatten ∧
        envelopesOf l d'.path = envelopesOf l d.path ∧ Valid l d'.path ∧
        (TightFile l d.path → TightFile l d'.path)) := by
  rcases h with ⟨hres, rfl⟩ | ⟨file, hres, hne, hfile⟩
  · exact ⟨false, d, hres, fun _ => rfl, fun _ =>
      ⟨rowsOf_of_sound hopen hs, rfl, ⟨r, hopen, hverify⟩, id⟩⟩
  refine ⟨true, _, hres, fun heq => absurd heq hne, fun hsum => ?_⟩
  have ⟨r', hopen', hverify', hdecode, henv, htight⟩ := hfile hsum
  refine ⟨?_, ?_, ⟨r', hopen', hverify'⟩, fun _ => ⟨r', hopen', htight⟩⟩
  · exact bind_eq_ok.mpr ⟨r', hopen', bind_eq_ok.mpr ⟨_, hdecode, rfl⟩⟩
  · simp only [envelopesOf, hopen, hopen']
    exact congrArg _ henv

variable {out : List OutBlock} (hfits : ∀ b ∈ out, b.Fits l)

include hfits

theorem length_frames : (OutBlock.frames out).length ≤ out.length * 2 ^ 33 := by
  have hwire : ∀ b ∈ out.map OutBlock.wire, b.length ≤ 2 ^ 33 := by
    rw [forall_mem_map]
    intro b hb
    have := (hfits b hb).frame
    rw [b.length_wire]
    omega
  have := Cut.length_flatten_le hwire
  rwa [length_map] at this

theorem decode_infos (hpre : pre.length = off) (hoff : off + (OutBlock.frames out).length < 2 ^ 64)
    {r' : Reader l} (hfile : r'.file = pre ++ (OutBlock.frames out ++ rest)) :
    List.Forall₂ (fun info events => r'.decodeBlock info = .ok events ∧
      addBlock info events = .ok ()) (OutBlock.infos off out) (out.map OutBlock.rows) := by
  have hread := readSealedFrame_infos (fun b hb => (hfits b hb).frame) hoff hpre rest
  rw [forall₂_map_right_iff]
  refine ((forall₂_and_left _ _).mpr ⟨hfits, hread⟩).flip.imp ?_
  rintro info b ⟨hfit, ⟨off', rfl⟩, hframe⟩
  refine ⟨decodeBlock_eq_ok.mpr ⟨b.frame, _, ?_, hfit.decode⟩, hfit.addBlock off'⟩
  rwa [hfile]

theorem threaded_infos (hthread : blockEnvelope.Threaded none
      ((out.map OutBlock.orig).map BlockInfo.entry))
    (hbounds : ∀ b ∈ out, b.orig.minSeq.toNat ≤ b.orig.maxSeq.toNat) (off : ℕ) :
    blockEnvelope.Threaded none ((OutBlock.infos off out).map BlockInfo.entry) := by
  refine hthread.mono nofun ?_
  clear hthread
  induction out generalizing off with
  | nil => exact .nil
  | cons b out ih =>
    have ⟨hb, hbounds⟩ := forall_mem_cons.mp hbounds
    have ⟨hfit, hfits⟩ := forall_mem_cons.mp hfits
    refine .cons ⟨rfl, rfl, fun hne hzero => hne ?_, hb⟩ (ih hfits hbounds _)
    change (UInt32.ofNat b.rows.length).toNat = 0
    rw [hfit.empty (UInt32.toNat_inj.mp hzero)]
    rfl

omit hfits in
theorem envelopes_infos (off : ℕ) : (OutBlock.infos off out).map
      (fun b => (b.minSeq, b.maxSeq, b.minWitnessedAt, b.maxWitnessedAt)) =
    (out.map OutBlock.orig).map fun b => (b.minSeq, b.maxSeq, b.minWitnessedAt, b.maxWitnessedAt) := by
  induction out generalizing off with
  | nil => rfl
  | cons b out ih =>
    rw [OutBlock.infos, map_cons, map_cons, map_cons, ih]
    rfl

variable (hs : r.Sound blocks) (horig : out.map OutBlock.orig = r.blocks)

include hs horig

theorem footer_lt : 256 + (OutBlock.frames out).length < 2 ^ 63 := by
  have hlen : out.length = r.blocks.length := by rw [←horig, length_map]
  have hcount := hs.count
  rw [maxBlockCountLimit] at hcount
  have := (length_frames hfits).trans (Nat.mul_le_mul_right _ (hlen ▸ hcount))
  omega

theorem validateBlockOffsets_infos : Manifest.validateBlockOffsets
    ((OutBlock.infos 256 out).map BlockInfo.entry) (256 + (OutBlock.frames out).length) =
      .ok () := by
  have hbounds : ∀ b ∈ out, b.orig.minSeq.toNat ≤ b.orig.maxSeq.toNat ∧
      b.orig.minWitnessedAt.toInt ≤ b.orig.maxWitnessedAt.toInt :=
    fun b hb => hs.bounds b.orig (horig ▸ mem_map_of_mem hb)
  refine validateBlockOffsetsFrom_infos (fun b hb => (hfits b hb).frame) (le_rfl)
    ((footer_lt hfits hs horig).trans (by decide)) (le_rfl) hbounds ?_
  exact threaded_infos hfits (horig ▸ hs.threaded) (fun b hb => (hbounds b hb).left) 256

end Fits

end Jetstream.Sealed
