import HypercertsRelay.Jetstream.Sealed.Blocks

-- Dropping rows from a sealed segment file.
namespace Jetstream.Sealed

open List Except
open OutBlock (index infos length_infos)
open LittleEndian (encode encodeFields)
open ActiveSegment (reservedHeaderBytes)
open OutBlock (frames infos)

inductive RowDecision where
  | rowKeep
  | rowDrop
  deriving DecidableEq

namespace Reader

-- A block from which nothing is dropped is copied as it is.
def rewriteEvents (l : Libraries) (decision : Event → RowDecision) (orig : BlockInfo)
    (frame : Bytes) (uncompressedSize : ℕ) (events : List Event) : Except String OutBlock :=
  let rows := events.filter (decision · ≠ .rowDrop)
  let changes := events.countP (decision · = .rowDrop)
  if changes = 0 then
    .ok { orig, frame, uncompressedSize, rows, changes }
  else if rows = [] then
    let body := BlockCodec.encodeEmptyBlock
    .ok { orig, frame := l.encodeAll body, uncompressedSize := body.length, rows, changes }
  else
    match BlockCodec.encodeBlock rows with
    | none => .error "segment: rewrite encode block: no events"
    | some body =>
      .ok { orig, frame := l.encodeAll body, uncompressedSize := body.length, rows, changes }

def rewriteBlock (r : Reader l) (decision : Event → RowDecision) (orig : BlockInfo) :
    Except String OutBlock := do
  let frame ← readSealedFrame r.file orig
  let (events, uncompressedSize) ← decodeBlockCompressedSized l frame
  rewriteEvents l decision orig frame uncompressedSize events

-- The new file. Its header keeps the bounds of the old one.
def rewriteFile (r : Reader l) (out : List OutBlock) (walk : BlockWalkResult) :
    Except String Bytes := do
  let frames := (out.map OutBlock.wire).flatten
  let (footer, header) ← buildFooter l (infos reservedHeaderBytes out) walk
    (reservedHeaderBytes + frames.length)
  let header := Header.sealed l { header with
    minSeq := r.header.minSeq
    maxSeq := r.header.maxSeq
    minWitnessedAt := r.header.minWitnessedAt
    maxWitnessedAt := r.header.maxWitnessedAt } footer
  return encodeHeader header ++ (frames ++ footer)

end Reader

variable (l) in
-- Whether the file was rewritten.
def rewrite (fault : CommitStep → Option String) (candidateDIDs : List Bytes)
    (decision : Event → RowDecision) (d : Disk) : Except String Bool × Disk :=
  match openReader l d.path with
  | .error err => (.error err, d)
  | .ok r =>
    if candidateDIDs ≠ [] ∧ !r.segmentBloomMayContainAny candidateDIDs then (.ok false, d) else
    match r.blocks.mapM (r.rewriteBlock decision) with
    | .error err => (.error err, d)
    | .ok out =>
      match (out.map OutBlock.rows).foldlM BlockWalkResult.accumulateRewriteBlock .empty with
      | .error err => (.error err, d)
      | .ok walk =>
        if (out.map OutBlock.changes).sum = 0 then (.ok false, d) else
        d.commit fault out.length (r.rewriteFile out walk)

section Blocks

variable {r : Reader l}

abbrev OutBlock.Drops (decision : Event → RowDecision) : OutBlock → List Event → Prop :=
  OutBlock.Edits (List.filter (decision · ≠ .rowDrop)) (List.countP (decision · = .rowDrop))

theorem OutBlock.Drops.fits {b : OutBlock} (hdrops : b.Drops decision events)
    (hframe : b.frame.length < 2 ^ 32)
    (hdecode : decodeBlockCompressedSized l b.frame = .ok (b.rows, b.uncompressedSize))
    (hlen : events.length ≤ 2 ^ 18) (hadd : Reader.addBlock b.orig events = .ok ()) : b.Fits l := by
  refine fits_of_rows hframe hdecode hlen hadd fun ev hev => ?_
  rw [hdrops.rows] at hev
  exact ⟨ev, mem_of_mem_filter hev, rfl, rfl⟩

theorem rewriteBlock_of_decodeBlock (decision : Event → RowDecision)
    (h : r.decodeBlock info = .ok events) (hadd : Reader.addBlock info events = .ok ()) :
    ∃ b, r.rewriteBlock decision info = .ok b ∧ b.orig = info ∧ b.Drops decision events ∧
      b.Fits l := by
  have ⟨frame, size, hframe, hdec⟩ := decodeBlock_eq_ok.mp h
  have ⟨body, hbody, hevents, _⟩ := decodeBlockCompressedSized_eq_ok.mp hdec
  have hlen := BlockCodec.length_of_decodeBlock hevents
  have ⟨body', hle, hempty, hfull, hdec'⟩ :=
    BlockCodec.decodeBlock_filter hevents (decision · ≠ .rowDrop)
  have hlen' : body'.length ≤ maxDecodedBlockBytes := hle.trans (l.length_decode hbody)
  have hback : decodeBlockCompressedSized l (l.encodeAll body') =
      .ok (events.filter (decision · ≠ .rowDrop), body'.length) :=
    decodeBlockCompressedSized_eq_ok.mpr ⟨body', l.decode_encode hlen', hdec', rfl⟩
  suffices ∃ b, Reader.rewriteEvents l decision info frame size events = .ok b ∧ b.orig = info ∧
      b.Drops decision events ∧ b.frame.length < 2 ^ 32 ∧
      decodeBlockCompressedSized l b.frame = .ok (b.rows, b.uncompressedSize) by
    have ⟨b, hb, horig, hdrops, hsmall, hdecode⟩ := this
    refine ⟨b, bind_eq_ok.mpr ⟨frame, hframe, ?_⟩, horig, hdrops,
      hdrops.fits hsmall hdecode hlen (horig ▸ hadd)⟩
    exact bind_eq_ok.mpr ⟨(events, size), hdec, hb⟩
  by_cases hzero : events.countP (decision · = .rowDrop) = 0
  · have hall : events.filter (decision · ≠ .rowDrop) = events := by
      rw [countP_eq_zero] at hzero
      exact filter_eq_self.mpr fun ev hev => by simpa using hzero ev hev
    refine ⟨_, if_pos hzero, rfl, ⟨rfl, rfl⟩, ?_, hall.symm ▸ hdec⟩
    have ⟨hin, htake⟩ := readAt_eq_ok.mp hframe
    rw [←htake, length_take]
    exact lt_of_le_of_lt (min_le_left ..) info.compressedSize.toNat_lt
  · by_cases hnil : events.filter (decision · ≠ .rowDrop) = []
    · have heq := hempty hnil
      refine ⟨_, (if_neg hzero).trans (if_pos hnil), rfl, ⟨rfl, rfl⟩, ?_, ?_⟩
      · exact heq ▸ l.length_encode hlen'
      · exact heq ▸ hback
    · have heq := hfull hnil
      refine ⟨⟨info, l.encodeAll body', body'.length, _, _⟩, (if_neg hzero).trans
        ((if_neg hnil).trans ?_), rfl, ⟨rfl, rfl⟩, l.length_encode hlen', hback⟩
      rw [heq]
      rfl

theorem filter_eq_self_iff (decision : Event → RowDecision) (events : List Event) :
    events.countP (decision · = .rowDrop) = 0 ↔ events.filter (decision · ≠ .rowDrop) = events := by
  simp [countP_eq_zero, filter_eq_self]

end Blocks

section File

variable {r : Reader l}

-- The reader of the new file, given the sections of its footer.
def Reader.rewritten (r : Reader l) (out : List OutBlock) (w : BlockWalkResult) (header : Header)
    (region coll : Bytes) (size : ℕ) : Reader l :=
  let filter := filterOf l w.uniqueDIDs.length w.uniqueDIDs
  let bloom := l.marshalBinary filter
  let header := Header.sealed l { header with
    minSeq := r.header.minSeq
    maxSeq := r.header.maxSeq
    minWitnessedAt := r.header.minWitnessedAt
    maxWitnessedAt := r.header.maxWitnessedAt } (OutBlock.index out ++ (bloom ++ (region ++ coll)))
  { file := sealedFile (encodeHeader header) (frames out) (OutBlock.index out) bloom region coll
    header
    blocks := infos 256 out
    segmentBloom := some filter
    parsedCollections := w.index
    perBlockBloomSize := size }

section Built

variable {filters : List l.Filter}
  (hb : Built l w (infos 256 out) (frames out) header filters region coll size)

include hb

theorem Built.rewritten_places (r : Reader l) :
    (r.rewritten out w header region coll size).header.Places (frames out)
      (index out) (l.marshalBinary (filterOf l w.uniqueDIDs.length w.uniqueDIDs)) region
      coll :=
  ⟨hb.places.footer, hb.places.blockIndex, hb.places.didBloom, hb.places.blockBloom,
    hb.places.collection⟩

variable (hw : w.Describes (out.map OutBlock.rows))

include hw

theorem Built.length_filters : filters.length = (infos 256 out).length := by
  rw [←hb.blooms.length_eq, hw.perBlockDIDs, length_map, length_map, length_infos]

variable (hcount : (infos 256 out).length ≤ maxBlockCountLimit)

include hcount

theorem Built.rewritten_region : BloomRegion (infos 256 out).length region size := by
  refine hb.bloomRegion (hb.length_filters hw) ?_
  rw [maxBlockCountLimit] at hcount
  omega

theorem openReader_rewritten
    (hoffsets : Manifest.validateBlockOffsets ((infos 256 out).map BlockInfo.entry)
      (256 + (frames out).length) = .ok ())
    (hsum : checksumField (r.rewritten out w header region coll size).file ≠ 0) :
    openReader l (r.rewritten out w header region coll size).file =
      .ok (r.rewritten out w header region coll size) := by
  have hp := hb.rewritten_places r
  refine openReader_sealedFile (length_encodeHeader _) hp
    (decodeHeader_encodeHeader (checksum_ne_zero hsum) hb.version) (hb.blockCount ▸ hcount) ?_
    (decodeBlockIndex_encodeBlockIndex hb.blockCount) ?_
    (segmentBloomOf_marshal (length_filterOf (l := l) _ _ ▸ l.length_pos))
    (hb.blockCount ▸ hb.rewritten_region hw hcount) (xxh3HeaderFooter_sealed ..) hb.long hb.decoded ?_
  · rw [length_encodeBlockIndex, ←hb.blockCount]
    rfl
  · rw [hp.footer]
    exact hoffsets
  · rw [←(indexes_inOrder hw).length_eq, length_map, ←length_infos 256 out]
    exact hb.blockCount.symm

theorem loadAllBlockBlooms_rewritten (hne : infos 256 out ≠ []) :
    (r.rewritten out w header region coll size).loadAllBlockBlooms = .ok filters := by
  have hbody : (infos 256 out).length * size < 2 ^ 63 :=
    lt_of_le_of_lt (Nat.mul_le_mul hcount hb.lt.le) (by decide)
  rw [loadAllBlockBlooms_sealedFile rfl (length_encodeHeader _) (hb.rewritten_places r)
    (hb.rewritten_region hw hcount) hne hb.pos.ne' hbody, hb.drop_region]
  have hread := mapM_unmarshal hb.sizes
  rwa [hb.length_filters hw] at hread

end Built

variable (hdrops : List.Forall₂ (OutBlock.Drops decision) out blocks)

include hdrops

theorem mem_rows (h : ev ∈ (out.map OutBlock.rows).flatten) : ev ∈ blocks.flatten := by
  rw [map_rows hdrops, ←filter_flatten] at h
  exact mem_of_mem_filter h

-- The file that is written opens, passes the check and has the rows that were kept.
theorem rewriteFile_verified (hs : r.Sound blocks)
    (hfits : ∀ b ∈ out, b.Fits l) (horig : out.map OutBlock.orig = r.blocks)
    (hw : w.Describes (out.map OutBlock.rows)) (hne : out ≠ []) :
    ∃ file, r.rewriteFile out w = .ok file ∧ (checksumField file ≠ 0 →
      ∃ r', openReader l file = .ok r' ∧ r'.verifySealedMetadata = .ok () ∧
        r'.decodeBlocks = .ok (out.map OutBlock.rows) ∧ r'.envelopes = r.envelopes ∧
        r'.Tight) := by
  have hlen : out.length = r.blocks.length := by rw [←horig, length_map]
  have hrowsLen : (out.map OutBlock.rows).length = r.blocks.length := by rw [length_map, hlen]
  have hcount : (infos 256 out).length ≤ maxBlockCountLimit := by
    rw [length_infos, hlen]
    exact hs.count
  have hrows : ∀ rows ∈ out.map OutBlock.rows, rows.length ≤ 2 ^ 18 := by
    rw [forall_mem_map]
    exact fun b hb => length_of_decodeBlockCompressedSized (hfits b hb).decode
  have hframes := length_frames hfits
  rw [←length_map (f := OutBlock.rows)] at hframes
  have hT : ∀ m ∈ (out.map OutBlock.rows).flatten.flatMap marks,
      m.1 ∈ r.parsedCollections.stringTable := by
    intro m hm
    obtain ⟨ev, hev, hc⟩ := exists_mem_marks.mp ⟨m, hm, rfl⟩
    exact hs.covers ev (mem_rows hdrops hev) m.1 hc
  obtain ⟨header, filters, region, coll, size, hbuild, hb⟩ := @buildFooter_built l _
    r.parsedCollections.stringTable (infos 256 out) w (frames out) hw
    (by rw [length_infos, length_map]) (by simpa using hne) (hrowsLen ▸ hs.count)
    hrows hframes hs.short hT hs.table (hrowsLen ▸ hs.size)
  have hinfosNe : infos 256 out ≠ [] := by
    intro hnil
    rw [←length_eq_zero_iff, length_infos, length_eq_zero_iff] at hnil
    exact hne hnil
  have hdecode : List.Forall₂ (fun info events =>
      (r.rewritten out w header region coll size).decodeBlock info = .ok events ∧
      Reader.addBlock info events = .ok ()) (infos 256 out) (out.map OutBlock.rows) :=
    decode_infos hfits (length_encodeHeader _) ((footer_lt hfits hs horig).trans (by decide)) rfl
  refine ⟨_, bind_eq_ok.mpr ⟨_, hbuild, rfl⟩, fun hsum => ⟨_, openReader_rewritten hb hw hcount
    (validateBlockOffsets_infos hfits hs horig) hsum, ?_, ?_, ?_, ?_⟩⟩
  · simp only [Reader.verifySealedMetadata, bind_eq_ok, require_eq_ok, mapM_eq_ok, pure_eq_ok]
    refine ⟨(), hb.blockCount.symm, (), hw.lists.length, filters,
      loadAllBlockBlooms_rewritten hb hw hcount hinfosNe, (), hb.length_filters hw,
      out.map OutBlock.rows, ?_, (), ?_, (), ?_, (), ?_, (), verifyCollectionCounts_index hw, (),
      verifyBlockCollections_index hw, verifyDIDBlooms_filters hw hb.blooms⟩
    · exact hdecode.imp fun info events h => ⟨events, h.left, (), h.right, rfl⟩
    · exact hw.total.symm.trans hb.eventCount.symm
    · exact (hw.uniqueDIDs ▸ hb.didCount).symm
    have hheader := hs.header
    simp only [Reader.checkHeaderEnvelope, bind_eq_ok, require_eq_ok] at hheader ⊢
    obtain ⟨_, hseq, htime⟩ := hheader
    exact ⟨(), fun ev hev => hseq ev (mem_rows hdrops hev),
      fun ev hev => htime ev (mem_rows hdrops hev)⟩
  · exact mapM_eq_ok.mpr (hdecode.imp fun _ _ h => h.left)
  · have henv := @envelopes_infos out 256
    rw [horig] at henv
    exact congrArg (List.cons _) henv
  · rw [Reader.Tight, (hb.rewritten_places r).didBloom, length_encodeBlockIndex]
    rfl

end File

section Exact

-- The candidates account for every dropped row. A row without a DID is in no bloom.
def Covers (dids : List Bytes) (decision : Event → RowDecision) (rows : List Event) : Prop :=
  dids = [] ∨ ∀ ev ∈ rows, decision ev = .rowDrop → ev.did ∈ dids ∧ ev.did ≠ []

variable {decision : Event → RowDecision} {blocks : List (List Event)}

theorem map_filter_eq_self (h : ∀ ev ∈ blocks.flatten, decision ev ≠ .rowDrop) :
    blocks.map (List.filter (decision · ≠ .rowDrop)) = blocks := by
  refine (map_congr_left fun events hevents => ?_).trans (map_id _)
  exact filter_eq_self.mpr fun ev hev => decide_eq_true (h ev (mem_flatten_of_mem hevents hev))

theorem rewrite_of_sound (hopen : openReader l d.path = .ok r) (hs : r.Sound blocks)
    (hdids : Covers dids decision blocks.flatten) :
    Edited r d blocks (blocks.map (List.filter (decision · ≠ .rowDrop)))
      (rewrite l (fun _ => none) dids decision d) := by
  by_cases hskip : dids ≠ [] ∧ !r.segmentBloomMayContainAny dids
  · refine .inl ⟨by simp only [rewrite, hopen, if_pos hskip], ?_⟩
    refine map_filter_eq_self fun ev hev hdrop => ?_
    have ⟨hmem, hne⟩ := hdids.resolve_left hskip.left ev hev hdrop
    exact hne (did_eq_nil_of_passed hs (by simpa using hskip.right) ev hev hmem)
  · have ⟨out, hmap, horig, hdrops, hfits⟩ := mapM_edits hs.rows fun _ _ _ =>
      rewriteBlock_of_decodeBlock decision
    have hT : ∀ rows ∈ out.map OutBlock.rows, ∀ m ∈ rows.flatMap marks,
        m.1 ∈ r.parsedCollections.stringTable := by
      intro rows hrows m hm
      have ⟨ev, hev, hc⟩ := exists_mem_marks.mp ⟨m, hm, rfl⟩
      exact hs.covers ev (mem_rows hdrops (mem_flatten_of_mem hrows hev)) m.1 hc
    have ⟨w, hw, hdesc⟩ := BlockWalkResult.exists_describes (hs.table.trans (by decide)) hT
    have hsum := sum_changes hdrops (filter_eq_self_iff decision)
    by_cases hzero : (out.map OutBlock.changes).sum = 0
    · exact .inl ⟨by simp only [rewrite, hopen, if_neg hskip, hmap, hw, if_pos hzero], hsum.mp hzero⟩
    · have hne : out ≠ [] := fun hnil => hzero (by rw [hnil]; rfl)
      have ⟨file, hfile, hver⟩ := rewriteFile_verified hdrops hs hfits horig hdesc hne
      refine .inr ⟨file, ?_, fun heq => hzero (hsum.mpr heq), map_rows hdrops ▸ hver⟩
      simp only [rewrite, hopen, if_neg hskip, hmap, hw, if_neg hzero, hfile, commit_none]

theorem rewrite_cases (fault : CommitStep → Option String) (dids : List Bytes)
    (decision : Event → RowDecision) (d : Disk) :
    (∃ res, rewrite l fault dids decision d = (res, d)) ∨
      ∃ n contents, rewrite l fault dids decision d = d.commit fault n contents := by
  rw [rewrite]
  repeat' split
  all_goals first | exact .inl ⟨_, rfl⟩ | exact .inr ⟨_, _, rfl⟩

def RowDecision.or (decision decision' : Event → RowDecision) (ev : Event) : RowDecision :=
  if decision ev = .rowDrop then .rowDrop else decision' ev

theorem filter_or (decision decision' : Event → RowDecision) (rows : List Event) :
    rows.filter (RowDecision.or decision decision' · ≠ .rowDrop) =
      (rows.filter (decision · ≠ .rowDrop)).filter (decision' · ≠ .rowDrop) := by
  rw [filter_filter]
  refine filter_congr fun ev _ => ?_
  by_cases h : decision ev = .rowDrop <;> simp [RowDecision.or, h]

theorem Covers.or (h : Covers dids decision rows) (h' : Covers dids decision' rows) :
    Covers dids (RowDecision.or decision decision') rows := by
  rcases h with h | h
  · exact .inl h
  rcases h' with h' | h'
  · exact .inl h'
  refine .inr fun ev hev hdrop => ?_
  by_cases hd : decision ev = .rowDrop
  · exact h ev hev hd
  · rw [RowDecision.or, if_neg hd] at hdrop
    exact h' ev hev hdrop

theorem Covers.filter (h : Covers dids decision rows) (keep : Event → Bool) :
    Covers dids decision (rows.filter keep) :=
  h.imp id fun h ev hev => h ev (mem_of_mem_filter hev)

theorem rewrite_filters (hvalid : Valid l d.path)
    (hrows : rowsOf l d.path = .ok rows) (hcovers : Covers dids decision rows) :
    ∃ rewritten d', rewrite l (fun _ => none) dids decision d = (.ok rewritten, d') ∧
      ((∀ ev ∈ rows, decision ev ≠ .rowDrop) → d'.path = d.path) ∧ (checksumField d'.path ≠ 0 →
        rowsOf l d'.path = .ok (rows.filter (decision · ≠ .rowDrop)) ∧
        envelopesOf l d'.path = envelopesOf l d.path ∧ Valid l d'.path ∧
        (TightFile l d.path → TightFile l d'.path)) := by
  have ⟨r, hopen, hverify⟩ := hvalid
  have ⟨blocks, hs⟩ := sound_of_verified hopen hverify
  have heq : blocks.flatten = rows := Except.ok.inj ((rowsOf_of_sound hopen hs).symm.trans hrows)
  subst heq
  have ⟨done, d', hres, hsame, hout⟩ := (rewrite_of_sound hopen hs hcovers).result hopen hverify hs
  rw [←filter_flatten] at hout
  exact ⟨done, d', hres, fun hkeep => hsame (map_filter_eq_self hkeep), hout⟩

variable (l) in
theorem rewrite_exact (d : Disk) (hvalid : Valid l d.path) : ∃ rows, rowsOf l d.path = .ok rows ∧
    (∀ dids decision, Covers dids decision rows →
      ∃ rewritten d', rewrite l (fun _ => none) dids decision d = (.ok rewritten, d') ∧
        ((∀ ev ∈ rows, decision ev ≠ .rowDrop) → d'.path = d.path) ∧
        (checksumField d'.path ≠ 0 → rowsOf l d'.path = .ok (rows.filter (decision · ≠ .rowDrop)) ∧
          envelopesOf l d'.path = envelopesOf l d.path ∧ Valid l d'.path)) ∧
    (∀ dids decision decision', Covers dids decision rows → Covers dids decision' rows →
      ∀ first second once, first = (rewrite l (fun _ => none) dids decision d).2 →
        second = (rewrite l (fun _ => none) dids decision' first).2 →
        once = (rewrite l (fun _ => none) dids (RowDecision.or decision decision') d).2 →
        checksumField first.path ≠ 0 → checksumField second.path ≠ 0 →
        checksumField once.path ≠ 0 → rowsOf l second.path = rowsOf l once.path) ∧
    (∀ dids r, openReader l d.path = .ok r → r.segmentBloomMayContainAny dids = false →
      ∀ ev ∈ rows, ev.did ∈ dids → ev.did = []) ∧
    ∀ fault dids decision err, (rewrite l fault dids decision d).1 = .error err →
      (∀ s ∈ CommitStep.afterRename, fault s = none) →
      (rewrite l fault dids decision d).2.path = d.path := by
  have ⟨r, hopen, hverify⟩ := hvalid
  have ⟨blocks, hs⟩ := sound_of_verified hopen hverify
  have hrows := rowsOf_of_sound hopen hs
  refine ⟨blocks.flatten, hrows, fun dids decision hcovers => ?_, ?_, ?_, ?_⟩
  · have ⟨rewritten, d', hrw, hsame, hout⟩ := rewrite_filters hvalid hrows hcovers
    refine ⟨rewritten, d', hrw, hsame, fun hsum => ?_⟩
    have ⟨hrows', henv, hvalid', _⟩ := hout hsum
    exact ⟨hrows', henv, hvalid'⟩
  · rintro dids decision decision' hcovers hcovers' first second once rfl rfl rfl hfirst hsecond honce
    have ⟨_, d₁, hrw₁, _, hout₁⟩ := rewrite_filters hvalid hrows hcovers
    have ⟨_, d₂, hrw₂, _, hout₂⟩ := rewrite_filters hvalid hrows (hcovers.or hcovers')
    rw [hrw₁] at hfirst hsecond ⊢
    rw [hrw₂] at honce ⊢
    have ⟨hrows₁, _, hvalid₁, _⟩ := hout₁ hfirst
    have ⟨_, d₃, hrw₃, _, hout₃⟩ := rewrite_filters hvalid₁ hrows₁ (hcovers'.filter _)
    rw [hrw₃] at hsecond ⊢
    rw [(hout₃ hsecond).left, (hout₂ honce).left, filter_or]
  · intro dids r' hopen' hpass
    cases hopen.symm.trans hopen'
    exact did_eq_nil_of_passed hs hpass
  · intro fault dids decision err h hafter
    rcases rewrite_cases fault dids decision d with ⟨res, hres⟩ | ⟨n, contents, hres⟩
    · rw [hres]
    · rw [hres] at h ⊢
      exact commit_error h hafter

-- Libraries that compress nothing, with a filter that rules out nothing.
def plainLibraries : Libraries where
  encodeAll := fun b => if b.length ≤ maxDecodedBlockBytes then b else []
  decodeAll := fun f => if f.length ≤ maxDecodedBlockBytes then .ok f else .error "too large"
  decode_encode := fun h => by simp [h]
  length_decode := by
    intro f b h
    split at h
    · cases h
      assumption
    · cases h
  length_encode := fun h => by rw [if_pos h]; exact Nat.lt_of_le_of_lt h (by decide)
  Filter := Unit
  newFilter := fun _ => ()
  addString := fun _ _ => ()
  testString := fun _ _ => true
  marshalBinary := fun _ => [0]
  unmarshalBinary := fun _ => .ok ()
  test_add := rfl
  test_add_of_test := fun _ => rfl
  unmarshal := rfl
  length_add := rfl
  length_pos := Nat.one_pos
  length_le := by simp; omega
  sum64 := fun _ => 1

def strayRow : Event where
  seq := 7
  witnessedAt := 3
  indexedAt := 0
  upstreamRelayCursor := 0
  kind := 1
  did := []
  collection := []
  rkey := []
  rev := []
  payload := none

def ownedRow : Event :=
  { strayRow with seq := 8, did := [100] }

def strayInfo : BlockInfo where
  offset := 256
  compressedSize := 73
  uncompressedSize := 73
  eventCount := 2
  minSeq := 7
  maxSeq := 8
  minWitnessedAt := 3
  maxWitnessedAt := 3

def strayHeader : Header where
  checksum := 1
  version := currentHeaderVersion
  blockCount := 1
  eventCount := 2
  uniqueDIDCount := 1
  minSeq := 7
  maxSeq := 8
  minWitnessedAt := 3
  maxWitnessedAt := 3
  footerOffset := 337
  didBloomOffset := 389
  blockDIDBloomOffset := 390
  collectionIndexOffset := 399
  blockIndexOffset := 337

def strayDisk : Disk where
  path := sealedFile (encodeHeader strayHeader)
    (encode 8 73 ++ BlockCodec.encodeBlockInto [] [strayRow, ownedRow])
    (encodeBlockIndex [strayInfo]) [0] (encodeFields [(4, 1), (4, 1)] ++ [0])
    (encodeFields [(4, 0), (4, 1), (4, 0), (4, 0)])
  tmp := none

def dropDID (did : Bytes) (ev : Event) : RowDecision :=
  if ev.did = did then .rowDrop else .rowKeep

theorem valid_of_verify
    (h : openReader l file >>= Reader.verifySealedMetadata = .ok ()) : Valid l file :=
  bind_eq_ok.mp h

theorem valid_strayDisk : Valid plainLibraries strayDisk.path :=
  valid_of_verify (by decide +kernel)

-- The bloom is not asked about an empty DID, so the file is passed over with such a row in it.
theorem rewrite_emptyDID : Valid plainLibraries strayDisk.path ∧
    rowsOf plainLibraries strayDisk.path = .ok [strayRow, ownedRow] ∧
    (∀ ev, dropDID [] ev = .rowDrop → ev.did ∈ [([] : Bytes)]) ∧ dropDID [] strayRow = .rowDrop ∧
    rewrite plainLibraries (fun _ => none) [[]] (dropDID []) strayDisk = (.ok false, strayDisk) :=
  ⟨valid_strayDisk, by decide +kernel, fun ev => by simp [dropDID], rfl, by decide +kernel⟩

theorem rewrite_exact_stray : ∃ rewritten d',
    rewrite plainLibraries (fun _ => none) [[100]] (dropDID [100]) strayDisk = (.ok rewritten, d') ∧
      rowsOf plainLibraries d'.path = .ok [strayRow] ∧ Valid plainLibraries d'.path := by
  have hrows : rowsOf plainLibraries strayDisk.path = .ok [strayRow, ownedRow] := by decide +kernel
  have ⟨rows, hrows', hfilters, _⟩ := rewrite_exact plainLibraries strayDisk valid_strayDisk
  cases hrows.symm.trans hrows'
  have ⟨rewritten, d', hrw, _, hout⟩ := hfilters [[100]] (dropDID [100]) (.inr (by decide))
  have hdisk : d' =
      (rewrite plainLibraries (fun _ => none) [[100]] (dropDID [100]) strayDisk).2 := by rw [hrw]
  have ⟨hkept, _, hvalid⟩ := hout (by rw [hdisk]; decide +kernel)
  exact ⟨rewritten, d', hrw, hkept, hvalid⟩

end Exact

end Jetstream.Sealed
