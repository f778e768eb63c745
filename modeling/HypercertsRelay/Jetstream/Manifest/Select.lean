import HypercertsRelay.Jetstream.Manifest.Plan

namespace Jetstream.Manifest

open List CollectionCandidates

-- The sentinel collection a marker row is indexed under.
def didMarkerSentinel : Kind → Option String
  | .account => some sentinelCollectionAccount
  | .identity => some sentinelCollectionIdentity
  | .sync => some sentinelCollectionSync
  | .create | .update | .delete | .createResync => none

-- The kind a client sees.
def kindMask : Kind → KindMask
  | .account => .account
  | .identity => .identity
  | .sync => .sync
  | .create | .update | .delete | .createResync => .commit

-- The filter of a request. Collections only narrow commits.
def PlanSnapshotRequest.selects (req : PlanSnapshotRequest) (ev : Event) : Bool :=
  req.kinds.admits (kindMask ev.kind) && (req.didMatchAll || ev.did ∈ req.dids) &&
  (!ev.kind.isCommit || req.collectionMatchAll ||
    (ev.collection ∈ req.collections || req.collectionPrefixes.any (·.isPrefixOf ev.collection)))

structure PlanSnapshotRequest.InScope (req : PlanSnapshotRequest) (ev : Event) : Prop where
  selects : req.selects ev
  after : ∀ a ∈ req.after, a < ev.seq
  before : ∀ b ∈ req.before, ev.seq ≤ b

def Indexed (seg : SegmentMetadata g) (ids : List ℕ) (name : String) : Prop :=
  ∃ id ∈ ids, id ≤ maxUint32 ∧ seg.collections[id]? = some name

-- The metadata of a segment tells the truth about its rows, given block by block.
structure CoversRows (seg : SegmentMetadata g) (rows : List (List Event)) : Prop where
  length : rows.length = seg.blocks.length
  headerCount : seg.header.eventCount = (rows.map List.length).sum
  headerCovers : ∀ es ∈ rows, ∀ ev ∈ es, seg.header.minSeq ≤ ev.seq ∧ ev.seq ≤ seg.header.maxSeq
  count : ∀ {j : ℕ} {b es}, seg.blocks[j]? = some b → rows[j]? = some es → b.eventCount = es.length
  covers : ∀ {j : ℕ} {b es}, seg.blocks[j]? = some b → rows[j]? = some es →
    ∀ ev ∈ es, b.minSeq ≤ ev.seq ∧ ev.seq ≤ b.maxSeq
  segmentBloom : ∀ f ∈ seg.segmentBloom, ∀ es ∈ rows, ∀ ev ∈ es, g.testString f ev.did
  blockBloom : ∀ {j : ℕ} {f es}, seg.blockBlooms[j]? = some (some f) → rows[j]? = some es →
    ∀ ev ∈ es, g.testString f ev.did
  collections : ∀ {j : ℕ} {es}, rows[j]? = some es → ∀ ev ∈ es,
    ∃ ids, seg.blockCollections[j]? = some ids ∧
      (ev.collection ≠ "" → Indexed seg ids ev.collection) ∧
      ∀ name ∈ didMarkerSentinel ev.kind, Indexed seg ids name

-- A commit row has a collection, and not one of the reserved names.
structure ProperCollection (ev : Event) : Prop where
  ne_empty : ev.kind.isCommit → ev.collection ≠ ""
  not_sentinel : ev.kind.isCommit → sentinelKind ev.collection = 0

section Candidates

variable {id : ℕ}

def Includes (req : PlanSnapshotRequest) (entry : ℕ × String) : Prop :=
  entry.1 ≤ maxUint32 ∧
  if sentinelKind entry.2 = 0 then
    req.kinds.admits .commit ∧ !req.collectionMatchAll ∧
      (entry.2 ∈ req.collections ∨ req.collectionPrefixes.any (·.isPrefixOf entry.2))
  else
    req.kinds.admits (sentinelKind entry.2)

section Add

variable (out : CollectionCandidates) (entry : ℕ × String)

theorem mem_included_add :
    id ∈ (out.add req entry).included ↔ id ∈ out.included ∨ id = entry.1 ∧ Includes req entry := by
  simp only [add, Includes]
  grind

theorem mem_sentinels_add : id ∈ (out.add req entry).sentinels ↔
      id ∈ out.sentinels ∨ id = entry.1 ∧ entry.1 ≤ maxUint32 ∧ sentinelKind entry.2 ≠ 0 := by
  simp only [add]
  grind

theorem allReal_add : (out.add req entry).allReal = out.allReal := by
  simp only [add]
  grind

theorem hasReal_add : (out.add req entry).hasReal ↔ out.hasReal ∨
      entry.1 ≤ maxUint32 ∧ sentinelKind entry.2 = 0 ∧ req.kinds.admits .commit := by
  simp only [add]
  grind

end Add

variable (out : CollectionCandidates) (l : List (ℕ × String))

theorem mem_included_foldl : id ∈ (l.foldl (.add req) out).included ↔
      id ∈ out.included ∨ ∃ entry ∈ l, id = entry.1 ∧ Includes req entry := by
  induction l generalizing out <;> simp_all [mem_included_add, or_assoc]

theorem mem_sentinels_foldl : id ∈ (l.foldl (.add req) out).sentinels ↔ id ∈ out.sentinels ∨
        ∃ entry ∈ l, id = entry.1 ∧ entry.1 ≤ maxUint32 ∧ sentinelKind entry.2 ≠ 0 := by
  induction l generalizing out <;> simp_all [mem_sentinels_add, or_assoc]

theorem allReal_foldl : (l.foldl (.add req) out).allReal = out.allReal := by
  induction l generalizing out <;> simp_all [allReal_add]

theorem hasReal_foldl : (l.foldl (.add req) out).hasReal ↔ out.hasReal ∨
      ∃ entry ∈ l, entry.1 ≤ maxUint32 ∧ sentinelKind entry.2 = 0 ∧ req.kinds.admits .commit := by
  induction l generalizing out <;> simp_all [hasReal_add, or_assoc]

variable {seg : SegmentMetadata g}

theorem mem_table :
    (id, name) ∈ seg.collections.zipIdx.map Prod.swap ↔ seg.collections[id]? = some name := by
  simp [mem_zipIdx_iff_getElem?]

theorem mem_included (hn : seg.collections[id]? = some name)
    (hi : Includes req (id, name)) : id ∈ (collectionCandidatesForSegment seg req).included :=
  (mem_included_foldl _ _).mpr <| .inr ⟨(id, name), mem_table.mpr hn, rfl, hi⟩

-- A name stands for a sentinel or for a real collection, never for both.
theorem not_mem_sentinels (hn : seg.collections[id]? = some name)
    (hr : sentinelKind name = 0) : id ∉ (collectionCandidatesForSegment seg req).sentinels := by
  intro h
  simp only [collectionCandidatesForSegment, mem_sentinels_foldl, not_mem_nil, false_or] at h
  have ⟨⟨id', name'⟩, hmem, hid, _, hne⟩ := h
  subst hid
  rw [mem_table.mp hmem, Option.some_inj] at hn
  exact hne (hn ▸ hr)

-- The entry of the collection index through which a row is found: its sentinel or its collection.
theorem exists_candidate (hp : ProperCollection ev) (hs : req.selects ev)
    (hc : ev.collection ≠ "" → Indexed seg ids ev.collection)
    (hm : ∀ name ∈ didMarkerSentinel ev.kind, Indexed seg ids name) :
    ∃ id ∈ ids, id ∈ (collectionCandidatesForSegment seg req).included ∨
      (collectionCandidatesForSegment seg req).allReal ∧
      (collectionCandidatesForSegment seg req).hasReal ∧
      id ∉ (collectionCandidatesForSegment seg req).sentinels := by
  simp only [PlanSnapshotRequest.selects, Bool.and_eq_true] at hs
  have ⟨⟨hk, _⟩, hcol⟩ := hs
  by_cases hcommit : ev.kind.isCommit
  case neg =>
    have ⟨name, hname, hsk⟩ : ∃ name ∈ didMarkerSentinel ev.kind, sentinelKind name = kindMask ev.kind ∧
        sentinelKind name ≠ 0 := by
      cases h : ev.kind <;> simp_all [Kind.isCommit] <;> decide
    have ⟨id, hid, hle, hget⟩ := hm name hname
    refine ⟨id, hid, .inl (mem_included hget ⟨hle, ?_⟩)⟩
    rwa [if_neg hsk.right, hsk.left]
  case pos =>
    have hr := hp.not_sentinel hcommit
    have hk : req.kinds.admits .commit := by cases h : ev.kind <;> simp_all [Kind.isCommit, kindMask]
    have ⟨id, hid, hle, hget⟩ := hc (hp.ne_empty hcommit)
    refine ⟨id, hid, ?_⟩
    by_cases hall : req.collectionMatchAll
    case pos =>
      refine .inr ⟨?_, ?_, not_mem_sentinels hget hr⟩
      · simp [collectionCandidatesForSegment, allReal_foldl, hall, hk]
      · exact (hasReal_foldl _ _).mpr <| .inr ⟨_, mem_table.mpr hget, hle, hr, hk⟩
    case neg =>
      refine .inl (mem_included hget ⟨hle, ?_⟩)
      simpa [hr, hk, hall, hcommit] using hcol

end Candidates

section Select

variable {req : PlanSnapshotRequest} {seg : SegmentMetadata g} {j : ℕ}

theorem CoversRows.exists_block (h : CoversRows seg rows) (hes : rows[j]? = some es) :
    ∃ b, seg.blocks[j]? = some b := by
  have hj : j < seg.blocks.length := h.length ▸ (List.getElem?_eq_some_iff.mp hes).1
  exact ⟨_, getElem?_eq_getElem hj⟩

theorem CoversRows.eventCount_pos (h : CoversRows seg rows) (hes : rows[j]? = some es)
    (hev : ev ∈ es) : 0 < seg.header.eventCount := by
  have hmem : es.length ∈ rows.map List.length := mem_map.mpr ⟨es, mem_of_getElem? hes, rfl⟩
  exact h.headerCount ▸ List.sum_pos_iff_exists_pos_nat.mpr ⟨_, hmem, length_pos_of_mem hev⟩

-- An envelope that covers a row in scope overlaps with the window of the request.
theorem PlanSnapshotRequest.InScope.overlaps (hs : req.InScope ev)
    (hcov : lo ≤ ev.seq ∧ ev.seq ≤ hi) :
    req.after.any (hi ≤ ·) = false ∧ req.before.any (· < lo) = false := by
  have ha := hs.after
  have hb := hs.before
  constructor
  · cases hreq : req.after with
    | none => rfl
    | some a => have := ha a (by simp [hreq]); simp; omega
  · cases hreq : req.before with
    | none => rfl
    | some b => have := hb b (by simp [hreq]); simp; omega

theorem CoversRows.segmentOverlapsSeq (h : CoversRows seg rows) (hes : rows[j]? = some es)
    (hev : ev ∈ es) (hs : req.InScope ev) : segmentOverlapsSeq seg req := by
  have ⟨b, hb⟩ := h.exists_block hes
  have hne : seg.blocks ≠ [] := ne_nil_of_mem (mem_of_getElem? hb)
  have hpos := h.eventCount_pos hes hev
  have ⟨ha, hb⟩ := hs.overlaps (h.headerCovers es (mem_of_getElem? hes) ev hev)
  simp [Manifest.segmentOverlapsSeq, hne, hpos.ne', ha, hb]

theorem CoversRows.blockOverlapsSeq (h : CoversRows seg rows) (hes : rows[j]? = some es)
    (hev : ev ∈ es) (hs : req.InScope ev) (hb : seg.blocks[j]? = some b) :
    blockOverlapsSeq req b := by
  have hpos : b.eventCount ≠ 0 := h.count hb hes ▸ (length_pos_of_mem hev).ne'
  have ⟨ha, hb⟩ := hs.overlaps (h.covers hb hes ev hev)
  simp [Manifest.blockOverlapsSeq, hpos, ha, hb]

theorem PlanSnapshotRequest.InScope.did_mem (hs : req.InScope ev) (hd : req.didMatchAll = false) :
    ev.did ∈ req.dids := by
  have := hs.selects
  simp_all [PlanSnapshotRequest.selects]

-- No layer of the planner loses a row: the envelopes, the collection index and the bloom filters.
theorem CoversRows.mem_selectPlanBlocks (h : CoversRows seg rows) (hes : rows[j]? = some es)
    (hev : ev ∈ es) (hp : ProperCollection ev) (hs : req.InScope ev) :
    j ∈ selectPlanBlocks seg req := by
  have ⟨b, hb⟩ := h.exists_block hes
  have hmem := mem_of_getElem? hes
  have ⟨ids, hids, hc, hm⟩ := h.collections hes ev hev
  have ⟨id, hid, hcand⟩ := exists_candidate hp hs.selects hc hm
  have hbloom : req.didMatchAll ∨ segmentBloomMayContainAny seg req.dids := by
    by_cases hd : req.didMatchAll
    · exact .inl hd
    · refine .inr (Option.all_eq_true _ _ |>.mpr fun f hf => any_eq_true.mpr ⟨ev.did, ?_, ?_⟩)
      · exact hs.did_mem (by simpa using hd)
      · exact h.segmentBloom f hf es hmem ev hev
  have hblock : req.didMatchAll ∨ blockBloomMayContainAny seg j req.dids := by
    by_cases hd : req.didMatchAll
    · exact .inl hd
    refine .inr ?_
    cases hbl : seg.blockBlooms[j]? <;> simp only [blockBloomMayContainAny, hbl]
    refine Option.all_eq_true _ _ |>.mpr fun f hf => any_eq_true.mpr ⟨ev.did, ?_, ?_⟩
    · exact hs.did_mem (by simpa using hd)
    · exact h.blockBloom (hf ▸ hbl) hes ev hev
  have hne : (collectionCandidatesForSegment seg req).isEmpty = false := by
    obtain hi | hr := hcand
    · simp [CollectionCandidates.isEmpty, ne_nil_of_mem hi]
    · simp [CollectionCandidates.isEmpty, hr.left, hr.right.left]
  have hany : blockHasAnyCandidate seg j (collectionCandidatesForSegment seg req) := by
    simp only [blockHasAnyCandidate, hids]
    refine any_eq_true.mpr ⟨id, hid, ?_⟩
    obtain hi | hr := hcand
    · simp [hi]
    · simp [hr.left, hr.right.right]
  have hsel : selectBlock seg req (collectionCandidatesForSegment seg req) (b, j) := by
    simp [selectBlock, h.blockOverlapsSeq hes hev hs hb, hany, hblock]
  simp only [selectPlanBlocks, hne, Bool.and_false, Bool.false_eq_true, if_false]
  rw [if_neg (by cases hbloom <;> simp [*]), mem_map]
  exact ⟨(b, j), mem_filter.mpr ⟨mem_zipIdx_iff_getElem?.mpr hb, hsel⟩, rfl⟩

variable (seg req) in
theorem selectPlanBlocks_cases : selectPlanBlocks seg req = [] ∨ selectPlanBlocks seg req =
    (seg.blocks.zipIdx.filter
      (selectBlock seg req (collectionCandidatesForSegment seg req))).map Prod.snd := by
  simp only [selectPlanBlocks]
  split <;> [skip; split] <;> simp

-- What is selected is not empty and reaches beyond the cursor.
theorem exists_of_mem_selectPlanBlocks (hj : j ∈ selectPlanBlocks seg req) :
    ∃ b, seg.blocks[j]? = some b ∧ 0 < b.eventCount ∧ ∀ a ∈ req.after, a < b.maxSeq := by
  obtain h | h := selectPlanBlocks_cases req seg
  · simp [h] at hj
  rw [h, mem_map] at hj
  have ⟨⟨b, _⟩, hmem, hj⟩ := hj
  subst hj
  have ⟨hz, hsel⟩ := mem_filter.mp hmem
  refine ⟨b, mem_zipIdx_iff_getElem?.mp hz, ?_⟩
  simp only [selectBlock, Manifest.blockOverlapsSeq, Bool.and_eq_true] at hsel
  have ⟨⟨⟨⟨hc, ha⟩, _⟩, _⟩, _⟩ := hsel
  refine ⟨Nat.pos_of_ne_zero (by simpa using hc), fun a h => ?_⟩
  simpa [Option.mem_def.mp h] using ha

theorem selectPlanBlocks_sorted : (selectPlanBlocks seg req).Pairwise (· < ·) := by
  obtain h | h := selectPlanBlocks_cases req seg
  · simp [h]
  · rw [h]
    refine List.Pairwise.sublist (filter_sublist.map _) ?_
    rw [zipIdx_map_snd]
    exact pairwise_lt_range'

end Select

end Jetstream.Manifest
