import HypercertsRelay.Jetstream.Manifest.Select

namespace Jetstream.Manifest

open List
open Prod (fst)

section Coalesce

def BlockRange.Contains (br : BlockRange) (j : ℕ) : Prop :=
  br.first ≤ j ∧ j ≤ br.last

-- Ranges that cover the blocks in `bs`, end in blocks of `bs` and come one after the other.
structure Coalesced (bs : List ℕ) (brs : List BlockRange) : Prop where
  covers : ∀ j ∈ bs, ∃ br ∈ brs, br.Contains j
  last : ∀ br ∈ brs, br.last ∈ bs
  ordered : brs.Pairwise fun a b => a.last < b.first

theorem extendRange_spec (cur : BlockRange) (hle : cur.first ≤ cur.last)
    (hs : (cur.last :: bs).Pairwise (· < ·)) :
    Coalesced (cur.last :: bs) (extendRange cur bs) ∧
    (∀ j, cur.Contains j → ∃ br ∈ extendRange cur bs, br.Contains j) ∧
    ∀ br ∈ extendRange cur bs, cur.first ≤ br.first := by
  induction bs generalizing cur with
  | nil => refine ⟨⟨?_, ?_, ?_⟩, ?_, ?_⟩ <;> simp_all [extendRange, BlockRange.Contains]
  | cons b bs ih =>
    have ⟨hlt, hs'⟩ := pairwise_cons.mp hs
    have hb : cur.last < b := hlt b (.head _)
    simp only [extendRange]
    split
    case isTrue heq =>
      have ⟨hco, hcur, hfirst⟩ := ih { cur with last := b } (hle.trans hb.le) hs'
      have hcur' (j : ℕ) (hj : cur.Contains j) := hcur j ⟨hj.left, hj.right.trans hb.le⟩
      refine ⟨⟨?_, fun br hbr => .tail _ (hco.last br hbr), hco.ordered⟩, hcur', hfirst⟩
      exact forall_mem_cons.mpr ⟨hcur' _ ⟨hle, le_refl _⟩, hco.covers⟩
    case isFalse hne =>
      have ⟨hco, _, hfirst⟩ := ih { first := b, last := b } (le_refl _) hs'
      have hcur (j : ℕ) (hj : cur.Contains j) := (⟨cur, .head _, hj⟩ :
        ∃ br ∈ cur :: extendRange { first := b, last := b } bs, br.Contains j)
      refine ⟨⟨?_, ?_, ?_⟩, hcur, ?_⟩
      · refine forall_mem_cons.mpr ⟨hcur _ ⟨hle, le_refl _⟩, fun j hj => ?_⟩
        have ⟨br, hbr, hc⟩ := hco.covers j hj
        exact ⟨br, .tail _ hbr, hc⟩
      · exact forall_mem_cons.mpr ⟨.head _, fun br hbr => .tail _ (hco.last br hbr)⟩
      · exact pairwise_cons.mpr ⟨fun br hbr => hb.trans_le (hfirst br hbr), hco.ordered⟩
      · exact forall_mem_cons.mpr ⟨le_refl _, fun br hbr => (hle.trans hb.le).trans (hfirst br hbr)⟩

theorem coalesceBlocks_spec (hs : bs.Pairwise (· < ·)) : Coalesced bs (coalesceBlocks bs) := by
  cases bs with
  | nil => constructor <;> simp [coalesceBlocks]
  | cons b bs => exact (extendRange_spec { first := b, last := b } (le_refl _) hs).left

end Coalesce

section Page

def PlannedSegment.Covers (p : PlannedSegment) (seg : SegmentMetadata g) (j : ℕ) : Prop :=
  p.idx = seg.idx ∧ (p.mode = .segment ∨ ∃ br ∈ p.blocks, br.Contains j)

def lastSeq (seg : SegmentMetadata g) (br : BlockRange) : ℕ :=
  (seg.blocks[br.last]?).elim 0 (·.maxSeq)

theorem atCap_entries (h : atCap req p) : 0 < p.stats.entries := by
  simp only [atCap, Bool.and_eq_true, decide_eq_true_eq] at h
  omega

variable (req) in
theorem admitRanges_spec (seg : SegmentMetadata g) (brs : List BlockRange) (p : Page)
    (blocks : List BlockRange) :
    ∃ p' admitted rest truncated,
      admitRanges req seg brs p blocks = (p', blocks ++ admitted, truncated) ∧
      brs = admitted ++ rest ∧ p'.segments = p.segments ∧
      p'.stats.entries = p.stats.entries + admitted.length ∧
      p'.lastUnitMaxSeq = admitted.getLast?.elim p.lastUnitMaxSeq (lastSeq seg) ∧
      (truncated = false → rest = []) ∧ (truncated → 0 < p'.stats.entries) := by
  induction brs generalizing p blocks with
  | nil => exact ⟨p, [], [], false, by simp [admitRanges]⟩
  | cons br brs ih =>
    simp only [admitRanges]
    split
    case isTrue hcap => exact ⟨p, [], br :: brs, true, by simpa using atCap_entries hcap⟩
    · have ⟨p', admitted, rest, truncated, heq, hbrs, hseg, hent, hlast, hrest, htr⟩ :=
        ih (admitRange seg br p) (blocks ++ [br])
      refine ⟨p', br :: admitted, rest, truncated, heq.trans (by simp), by simp [hbrs], hseg, ?_, ?_,
        hrest, htr⟩
      · simp [hent, admitRange]; omega
      · rw [hlast]
        cases admitted <;> simp [admitRange, lastSeq, getLast?_cons]

end Page

-- The segments with their rows, block by block.
abbrev Archive (g : Gloom) := List (SegmentMetadata g × List (List Event))

def IsRow (s : SegmentMetadata g × List (List Event)) (j : ℕ) (ev : Event) : Prop :=
  ∃ es, s.2[j]? = some es ∧ ev ∈ es

structure Accepted (archive : Archive g) : Prop where
  blocks : ∀ s ∈ archive, validateBlockOffsets s.1.blocks s.1.footerOffset = .ok ()
  segments : validateSegmentSeqMonotonicity (archive.map Prod.fst) = .ok ()
  covers : ∀ s ∈ archive, CoversRows s.1 s.2

-- What the checks do not say: segments include their blocks, and commits avoid the sentinels.
structure Regular (archive : Archive g) : Prop where
  maxSeq_le : ∀ s ∈ archive, ∀ b ∈ s.1.blocks, b.eventCount ≠ 0 → b.maxSeq ≤ s.1.header.maxSeq
  proper : ∀ s ∈ archive, ∀ es ∈ s.2, ∀ ev ∈ es, ProperCollection ev

structure Ordered (archive : Archive g) : Prop extends Regular archive where
  segments : archive.Pairwise fun a b => (segmentEnvelope g).Below a.1 b.1
  blocks : ∀ s ∈ archive, s.1.blocks.Pairwise blockEnvelope.Below
  covers : ∀ s ∈ archive, CoversRows s.1 s.2

section Loop

variable {s : SegmentMetadata g × List (List Event)}

theorem Ordered.tail (h : Ordered (s :: archive)) : Ordered archive where
  maxSeq_le := fun s' hs' => h.maxSeq_le s' (.tail _ hs')
  proper := fun s' hs' => h.proper s' (.tail _ hs')
  segments := h.segments.of_cons
  blocks := fun s' hs' => h.blocks s' (.tail _ hs')
  covers := fun s' hs' => h.covers s' (.tail _ hs')

theorem Accepted.ordered (h : Accepted archive) (hr : Regular archive) : Ordered archive := by
  refine ⟨hr, ?_, fun s hs => validateBlockOffsets_ok (h.blocks s hs), h.covers⟩
  refine pairwise_map.mp (validateSegmentSeqMonotonicity_ok h.segments fun seg hseg hne => ?_)
  have ⟨s, hs, he⟩ := mem_map.mp hseg
  subst he
  have hc := h.covers s hs
  -- A segment that counts rows has one, and its envelope covers that.
  have ⟨_, hn, hpos⟩ := List.sum_pos_iff_exists_pos_nat.mp (hc.headerCount ▸ Nat.pos_of_ne_zero hne)
  have ⟨es, hes, hlen⟩ := mem_map.mp hn
  have ⟨ev, hev⟩ := exists_mem_of_length_pos (hlen ▸ hpos)
  have := hc.headerCovers es hes ev hev
  omega

theorem IsRow.eventCount_ne (hc : CoversRows s.1 s.2) (hr : IsRow s j ev) :
    s.1.header.eventCount ≠ 0 :=
  have ⟨_, hes, hev⟩ := hr
  (hc.eventCount_pos hes hev).ne'

theorem Ordered.lt_of_isRow (h : Ordered (s :: archive)) (hne : s.1.header.eventCount ≠ 0)
    (hs' : s' ∈ archive) (hr : IsRow s' j ev) :
    s.1.header.maxSeq < ev.seq := by
  have hc := h.covers s' (.tail _ hs')
  have hlt := (pairwise_cons.mp h.segments).left s' hs' hne (hr.eventCount_ne hc)
  have ⟨es, hes, hev⟩ := hr
  exact lt_of_lt_of_le hlt (hc.headerCovers es (mem_of_getElem? hes) ev hev).left

-- A page with entries ends beyond the cursor and before all rows that are still to come.
def PageOk (req : PlanSnapshotRequest) (p : Page) (rest : Archive g) : Prop :=
  0 < p.stats.entries → (∀ a ∈ req.after, a < p.lastUnitMaxSeq) ∧
    ∀ s ∈ rest, ∀ j ev, IsRow s j ev → p.lastUnitMaxSeq < ev.seq

theorem PageOk.tail (h : PageOk req p (s :: archive)) : PageOk req p archive :=
  fun hpos => ⟨(h hpos).left, fun s' hs' => (h hpos).right s' (.tail _ hs')⟩

structure Planned (req : PlanSnapshotRequest) (archive : Archive g) (p p' : Page)
    (truncated : Bool) : Prop where
  keeps : ∀ q ∈ p.segments, q ∈ p'.segments
  advances : truncated → ∀ a ∈ req.after, a < p'.lastUnitMaxSeq
  covers : ∀ s ∈ archive, ∀ j ev, IsRow s j ev → req.InScope ev →
    (∃ q ∈ p'.segments, q.Covers s.1 j) ∨ truncated ∧ p'.lastUnitMaxSeq < ev.seq

namespace Planned

theorem nil (p : Page) : Planned req ([] : Archive g) p p false where
  keeps _ h := h
  advances h := by cases h
  covers _ hs := by cases hs

theorem of_examine (h : Planned req archive (examine p) p' truncated) :
    Planned req archive p p' truncated :=
  ⟨h.keeps, h.advances, h.covers⟩

theorem cons (h : Planned req archive p₁ p' truncated) (hk : ∀ q ∈ p.segments, q ∈ p₁.segments)
    (hs : ∀ j ev, IsRow s j ev → req.InScope ev → ∃ q ∈ p₁.segments, q.Covers s.1 j) :
    Planned req (s :: archive) p p' truncated where
  keeps q hq := h.keeps q (hk q hq)
  advances := h.advances
  covers s' hs' j ev hr hsc := by
    cases hs' with
    | head =>
      have ⟨q, hq, hc⟩ := hs j ev hr hsc
      exact .inl ⟨q, h.keeps q hq, hc⟩
    | tail _ hs' => exact h.covers s' hs' j ev hr hsc

theorem full (hp : PageOk req p₁ archive) (hcap : 0 < p₁.stats.entries)
    (hk : ∀ q ∈ p.segments, q ∈ p₁.segments) (hs : ∀ j ev, IsRow s j ev → req.InScope ev →
      (∃ q ∈ p₁.segments, q.Covers s.1 j) ∨ p₁.lastUnitMaxSeq < ev.seq) :
    Planned req (s :: archive) p p₁ true where
  keeps := hk
  advances _ := (hp hcap).left
  covers s' hs' j ev hr hsc := by
    cases hs' with
    | head => exact (hs j ev hr hsc).imp_right fun h => ⟨rfl, h⟩
    | tail _ hs' => exact .inr ⟨rfl, (hp hcap).right s' hs' j ev hr⟩

end Planned

section

variable (h : Ordered (s :: archive))

include h

theorem Ordered.mem_selectPlanBlocks (hr : IsRow s j ev)
    (hs : req.InScope ev) : j ∈ selectPlanBlocks s.1 req :=
  have ⟨es, hes, hev⟩ := hr
  (h.covers s (.head _)).mem_selectPlanBlocks hes hev
    (h.proper s (.head _) es (mem_of_getElem? hes) ev hev) hs

theorem Ordered.block_lt
    (hb : s.1.blocks[i]? = some b) (hne : b.eventCount ≠ 0) (hij : i < j) (hr : IsRow s j ev) :
    b.maxSeq < ev.seq := by
  have hc := h.covers s (.head _)
  have ⟨es, hes, hev⟩ := hr
  have ⟨b', hb'⟩ := hc.exists_block hes
  have hne' : b'.eventCount ≠ 0 := hc.count hb' hes ▸ (length_pos_of_mem hev).ne'
  have ⟨hi, hbi⟩ := List.getElem?_eq_some_iff.mp hb
  have ⟨hj, hbj⟩ := List.getElem?_eq_some_iff.mp hb'
  have hlt := pairwise_iff_getElem.mp (h.blocks s (.head _)) i j hi hj hij
  rw [hbi, hbj] at hlt
  exact lt_of_lt_of_le (hlt hne hne') (hc.covers hb' hes ev hev).left

theorem pageOk_admitSegment
    (ho : segmentOverlapsSeq s.1 req) : PageOk req (admitSegment s.1 selected p) archive := by
  simp only [segmentOverlapsSeq, Bool.and_eq_true] at ho
  obtain ⟨⟨hne, ha⟩, _⟩ := ho
  refine fun _ => ⟨fun a hmem => ?_, fun s' hs' j ev hr => ?_⟩
  · show a < s.1.header.maxSeq
    simpa [Option.mem_def.mp hmem] using ha
  · exact h.lt_of_isRow (by simp_all) hs' hr

-- A page after some block ranges: a row in none of them is behind the end of the last one.
theorem pageOk_admitRanges {p₁ : Page} (hs : s.1.header.eventCount ≠ 0)
    (hp : PageOk req p (s :: archive))
    (hco : Coalesced (selectPlanBlocks s.1 req) (admitted ++ rest))
    (hent : p₁.stats.entries = p.stats.entries + admitted.length)
    (hlast : p₁.lastUnitMaxSeq = admitted.getLast?.elim p.lastUnitMaxSeq (lastSeq s.1))
    (hpos : 0 < p₁.stats.entries) : ((∀ a ∈ req.after, a < p₁.lastUnitMaxSeq) ∧
      ∀ s ∈ archive, ∀ j ev, IsRow s j ev → p₁.lastUnitMaxSeq < ev.seq) ∧
    ∀ j ev, IsRow s j ev → req.InScope ev →
      (∃ br ∈ admitted, br.Contains j) ∨ p₁.lastUnitMaxSeq < ev.seq := by
  cases hl : admitted.getLast? with
  | none =>
    rw [getLast?_eq_none_iff] at hl
    subst hl
    have ⟨ha, hrows⟩ := hp (by simpa [hent] using hpos)
    rw [show p₁.lastUnitMaxSeq = p.lastUnitMaxSeq from hlast]
    exact ⟨⟨ha, fun s' hs' => hrows s' (.tail _ hs')⟩, fun j ev hr _ => .inr (hrows s (.head _) j ev hr)⟩
  | some br =>
    have hbr : br ∈ admitted := mem_of_getLast? hl
    have ⟨b, hb, hne, ha⟩ := exists_of_mem_selectPlanBlocks (hco.last br (mem_append_left _ hbr))
    have hlast : p₁.lastUnitMaxSeq = b.maxSeq := by simp [hlast, hl, lastSeq, hb]
    have hle := h.maxSeq_le s (.head _) b (mem_of_getElem? hb) hne.ne'
    rw [hlast]
    refine ⟨⟨ha, fun s' hs' j ev hr => hle.trans_lt (h.lt_of_isRow hs hs' hr)⟩, fun j ev hr hsc => ?_⟩
    have ⟨br', hbr', hj⟩ := hco.covers j (h.mem_selectPlanBlocks hr hsc)
    obtain hbr' | hbr' := mem_append.mp hbr'
    · exact .inl ⟨br', hbr', hj⟩
    · have hlt := (pairwise_append.mp hco.ordered).right.right br hbr br' hbr'
      exact .inr (h.block_lt hb hne.ne' (hlt.trans_le hj.left) hr)

end

theorem mem_addBlocks (hq : q ∈ p.segments) : q ∈ (addBlocks s.1 blocks p).segments := by
  simp only [addBlocks]
  split <;> simp [hq]

theorem covers_addBlocks (hbr : br ∈ blocks)
    (hj : br.Contains j) : ∃ q ∈ (addBlocks s.1 blocks p).segments, q.Covers s.1 j := by
  have hne : blocks.isEmpty = false := by simpa using ne_nil_of_mem hbr
  refine ⟨plannedSegment s.1 .blocks blocks, by simp [addBlocks, hne], rfl, .inr ⟨br, hbr, hj⟩⟩

@[simp]
theorem addBlocks_entries (seg : SegmentMetadata g) (blocks : List BlockRange) (p : Page) :
    (addBlocks seg blocks p).stats.entries = p.stats.entries := by
  simp only [addBlocks]
  split <;> rfl

@[simp]
theorem addBlocks_lastUnitMaxSeq (seg : SegmentMetadata g) (blocks : List BlockRange) (p : Page) :
    (addBlocks seg blocks p).lastUnitMaxSeq = p.lastUnitMaxSeq := by
  simp only [addBlocks]
  split <;> rfl

-- What `planSegments` does with the segments behind, for any page it gets there with.
def PlansRest (req : PlanSnapshotRequest) (quot : ℕ → ℕ → ℚ) (archive : Archive g) : Prop :=
  ∀ p, PageOk req p archive → ∃ p' truncated,
    planSegments req quot (archive.map Prod.fst) p = (p', truncated) ∧
    Planned req archive p p' truncated

theorem PlansRest.blocks (hrest : PlansRest req quot archive) (h : Ordered (s :: archive))
    (hne : s.1.header.eventCount ≠ 0) (hp : PageOk req p (s :: archive)) :
    ∃ p' truncated, (match admitRanges req s.1 (coalesceBlocks (selectPlanBlocks s.1 req)) p [] with
        | (p, blocks, true) => (addBlocks s.1 blocks p, true)
        | (p, blocks, false) => planSegments req quot (archive.map fst) (addBlocks s.1 blocks p)) =
        (p', truncated) ∧
      Planned req (s :: archive) p p' truncated := by
  have ⟨p₁, admitted, rest, truncated, heq, hbrs, hseg, hent, hlast, hnil, htr⟩ :=
    admitRanges_spec req s.1 (coalesceBlocks (selectPlanBlocks s.1 req)) p []
  have hco : Coalesced (selectPlanBlocks s.1 req) (admitted ++ rest) :=
    hbrs ▸ coalesceBlocks_spec selectPlanBlocks_sorted
  have hok := pageOk_admitRanges h hne hp hco hent hlast
  have hkeep (q : PlannedSegment) (hq : q ∈ p.segments) :
      q ∈ (addBlocks s.1 admitted p₁).segments := mem_addBlocks (hseg ▸ hq)
  rw [heq]
  cases truncated <;> simp only [nil_append]
  case true =>
    have ⟨hpage, hrows⟩ := hok (htr rfl)
    refine ⟨_, true, rfl, .full (fun _ => by simpa using hpage) (by simpa using htr) hkeep ?_⟩
    intro j ev hr hs
    exact (hrows j ev hr hs).imp (fun ⟨br, hbr, hj⟩ => covers_addBlocks hbr hj) (by simp)
  case false =>
    have ⟨p', truncated, heq, hpl⟩ := hrest (addBlocks s.1 admitted p₁)
      fun hpos => by simpa using (hok (by simpa using hpos)).left
    refine ⟨p', truncated, heq, hpl.cons hkeep fun j ev hr hs => ?_⟩
    have ⟨br, hbr, hj⟩ := hco.covers j (h.mem_selectPlanBlocks hr hs)
    exact covers_addBlocks (by simpa [hnil rfl] using hbr) hj

theorem PlansRest.whole (hrest : PlansRest req quot archive) (h : Ordered (s :: archive))
    (ho : segmentOverlapsSeq s.1 req) (hp : PageOk req p (s :: archive)) (selected : List ℕ) :
    ∃ p' truncated, (if atCap req p then (p, true)
        else planSegments req quot (archive.map fst) (admitSegment s.1 selected p)) =
        (p', truncated) ∧
      Planned req (s :: archive) p p' truncated := by
  split
  case isTrue hcap =>
    have hpos := atCap_entries hcap
    refine ⟨p, true, rfl, .full hp.tail hpos (fun _ hq => hq) fun j ev hr _ => ?_⟩
    exact .inr ((hp hpos).right s (.head _) j ev hr)
  · have ⟨p', truncated, heq, hpl⟩ := hrest (admitSegment s.1 selected p) (pageOk_admitSegment h ho)
    refine ⟨p', truncated, heq, hpl.cons ?_ fun j ev _ _ => ?_⟩
    · exact fun q hq => mem_append_left _ hq
    · exact ⟨plannedSegment s.1 .segment [], by simp [admitSegment], rfl, .inl rfl⟩

theorem planSegments_spec (h : Ordered archive) : PlansRest req quot archive := by
  induction archive with
  | nil => exact fun p _ => ⟨p, false, rfl, .nil p⟩
  | cons s archive ih =>
    intro p hp
    have ih := ih h.tail
    have hp' : PageOk req (examine p) (s :: archive) := hp
    -- A segment without a row in scope is passed over.
    have hskip (hno : ∀ j ev, IsRow s j ev → ¬req.InScope ev) :
        ∃ p' truncated, planSegments req quot (archive.map fst) (examine p) = (p', truncated) ∧
          Planned req (s :: archive) p p' truncated := by
      obtain ⟨p', truncated, heq, hpl⟩ := ih (examine p) hp'.tail
      exact ⟨p', truncated, heq, hpl.cons (fun _ => id) fun j ev hr hs => absurd hs (hno j ev hr)⟩
    rw [map_cons, planSegments]
    by_cases ho : segmentOverlapsSeq s.1 req
    case neg =>
      simp only [ho, Bool.not_false, if_true]
      refine hskip fun j ev hr hs => ho ?_
      obtain ⟨es, hes, hev⟩ := hr
      exact (h.covers s (.head _)).segmentOverlapsSeq hes hev hs
    case pos =>
      have hne : s.1.header.eventCount ≠ 0 := by simp_all [segmentOverlapsSeq]
      simp only [ho, Bool.not_true, Bool.false_eq_true, if_false]
      split
      case isTrue hempty =>
        refine hskip fun j ev hr hs => ?_
        have := h.mem_selectPlanBlocks hr hs
        simp_all
      case isFalse =>
        split
        case isTrue =>
          obtain ⟨p', truncated, heq, hpl⟩ := ih.whole h ho hp' (selectPlanBlocks s.1 req)
          exact ⟨p', truncated, heq, hpl.of_examine⟩
        case isFalse =>
          obtain ⟨p', truncated, heq, hpl⟩ := ih.blocks h hne hp'
          exact ⟨p', truncated, heq, hpl.of_examine⟩

end Loop

-- The pages a client gets that follows the cursor until it has reached the tip.
inductive Paged (quot : ℕ → ℕ → ℚ) (segs : List (SegmentMetadata g)) :
    PlanSnapshotRequest → List PlanSnapshotResult → Prop
  | last {req r} :
    planSnapshot quot segs req = .ok r → r.sealedTipSeq ≤ r.plannedThroughSeq →
    Paged quot segs req [r]
  | more {req r rs} :
    planSnapshot quot segs req = .ok r → r.plannedThroughSeq < r.sealedTipSeq →
    Paged quot segs { req with after := some r.plannedThroughSeq } rs →
    Paged quot segs req (r :: rs)

-- The cursor of every page but the last is beyond the one before.
def CursorIncreases : Option ℕ → List PlanSnapshotResult → Prop
  | after, r :: r' :: rs =>
    (∀ a ∈ after, a < r.plannedThroughSeq) ∧ CursorIncreases (some r.plannedThroughSeq) (r' :: rs)
  | _, _ => True

def PlansAll (quot : ℕ → ℕ → ℚ) (archive : Archive g) (req : PlanSnapshotRequest) :
    Prop :=
  ∃ rs, Paged quot (archive.map Prod.fst) req rs ∧ CursorIncreases req.after rs ∧
    ∀ s ∈ archive, ∀ j ev, IsRow s j ev → req.InScope ev →
      ∃ r ∈ rs, ∃ q ∈ r.segments, q.Covers s.1 j

section Pages

variable {archive : Archive g} {req : PlanSnapshotRequest}

variable (quot) in
theorem planSnapshot_spec (h : Ordered archive) (hv : req.validate = .ok ()) :
    ∃ r truncated, planSnapshot quot (archive.map fst) req = .ok r ∧
      r.sealedTipSeq = sealedTipSeq (archive.map fst) req.before ∧
      (truncated = false → r.plannedThroughSeq = r.sealedTipSeq) ∧
      (truncated → ∀ a ∈ req.after, a < r.plannedThroughSeq) ∧
      ∀ s ∈ archive, ∀ j ev, IsRow s j ev → req.InScope ev →
        (∃ q ∈ r.segments, q.Covers s.1 j) ∨ truncated ∧ r.plannedThroughSeq < ev.seq := by
  have hrest : PlansRest req quot archive := planSegments_spec h
  have ⟨p, truncated, heq, hpl⟩ := hrest { segments := [], stats := {}, lastUnitMaxSeq := 0 }
    fun h => absurd h (lt_irrefl _)
  refine ⟨_, truncated, by rw [planSnapshot, hv, heq]; rfl, rfl, ?_, ?_, ?_⟩
  · intro ht; simp [ht]
  · intro ht; simpa [ht] using hpl.advances ht
  · intro s hs j ev hr hsc
    refine (hpl.covers s hs j ev hr hsc).imp_right fun ⟨ht, hlt⟩ => ⟨ht, by simpa [ht] using hlt⟩

theorem sealedTipSeq_le_before (segs : List (SegmentMetadata g)) :
    ∀ b ∈ before, sealedTipSeq segs before ≤ b := by
  intro b hb
  simp only [sealedTipSeq, Option.mem_def.mp hb, Option.elim]
  split <;> omega

theorem le_foldl_raiseTip (segs : List (SegmentMetadata g)) (n : ℕ) :
    n ≤ segs.foldl raiseTip n ∧ ∀ s ∈ segs, s.header.maxSeq ≤ segs.foldl raiseTip n := by
  induction segs generalizing n with
  | nil => simp
  | cons s segs ih =>
    have ⟨hle, hmem⟩ := ih (raiseTip n s)
    have hn : n ≤ raiseTip n s ∧ s.header.maxSeq ≤ raiseTip n s := by
      simp only [raiseTip]; split <;> omega
    exact ⟨hn.left.trans hle, forall_mem_cons.mpr ⟨hn.right.trans hle, hmem⟩⟩

theorem IsRow.seq_le_tip
    (hr : IsRow s j ev) (h : Ordered archive) (hs : s ∈ archive) (hsc : req.InScope ev) :
    ev.seq ≤ sealedTipSeq (archive.map fst) req.before := by
  have ⟨es, hes, hev⟩ := hr
  have hle := ((h.covers s hs).headerCovers es (mem_of_getElem? hes) ev hev).right
  have htip := (le_foldl_raiseTip (archive.map fst) 0).right s.1 (mem_map.mpr ⟨s, hs, rfl⟩)
  cases hb : req.before with
  | none => exact hle.trans htip
  | some b =>
    have := hsc.before b hb
    simp only [sealedTipSeq, Option.elim]
    split <;> omega

-- The request for the next page is as valid as the one before.
theorem validate_next (hv : req.validate = .ok ()) (hn : n < sealedTipSeq segs req.before) :
    { req with after := some n : PlanSnapshotRequest }.validate = .ok () := by
  have hb : ¬∃ a ∈ some n, ∃ b ∈ req.before, b ≤ a := by
    intro ⟨a, ha, b, hb, hle⟩
    cases ha
    have := sealedTipSeq_le_before segs b hb
    omega
  simp only [PlanSnapshotRequest.validate] at hv ⊢
  rw [if_neg hb]
  split at hv
  · cases hv
  · exact hv

section

variable (hok : planSnapshot quot (archive.map Prod.fst) req = .ok r)

include hok

theorem PlansAll.last (hle : r.sealedTipSeq ≤ r.plannedThroughSeq)
    (hc : ∀ s ∈ archive, ∀ j ev, IsRow s j ev → req.InScope ev → ∃ q ∈ r.segments, q.Covers s.1 j) :
    PlansAll quot archive req :=
  ⟨[r], .last hok hle, trivial, fun s hs j ev hr hsc => ⟨r, .head _, hc s hs j ev hr hsc⟩⟩

theorem PlansAll.more
    (hlt : r.plannedThroughSeq < r.sealedTipSeq) (ha : ∀ a ∈ req.after, a < r.plannedThroughSeq)
    (hc : ∀ s ∈ archive, ∀ j ev, IsRow s j ev → req.InScope ev →
      (∃ q ∈ r.segments, q.Covers s.1 j) ∨ r.plannedThroughSeq < ev.seq)
    (h : PlansAll quot archive { req with after := some r.plannedThroughSeq }) :
    PlansAll quot archive req := by
  have ⟨rs, hp, hci, hcov⟩ := h
  refine ⟨r :: rs, .more hok hlt hp, ?_, fun s hs j ev hr hsc => ?_⟩
  · cases rs with
    | nil => trivial
    | cons _ _ => exact ⟨ha, hci⟩
  · obtain hq | hlt := hc s hs j ev hr hsc
    · exact ⟨r, .head _, hq⟩
    · have ⟨r', hr', hq⟩ := hcov s hs j ev hr ⟨hsc.selects, by simpa using hlt, hsc.before⟩
      exact ⟨r', .tail _ hr', hq⟩

end

-- Every page but the last one moves the cursor towards the tip, which all pages agree on.
theorem plansAll_of_ordered (h : Ordered archive) (hv : req.validate = .ok ()) :
    PlansAll quot archive req := by
  induction hn : sealedTipSeq (archive.map fst) req.before + 1 - req.after.elim 0 (· + 1)
    using Nat.strong_induction_on generalizing req with
  | _ n ih =>
    have ⟨r, truncated, hok, htip, hfull, hadv, hc⟩ := planSnapshot_spec quot h hv
    by_cases hle : r.sealedTipSeq ≤ r.plannedThroughSeq
    · refine .last hok hle fun s hs j ev hr hsc => (hc s hs j ev hr hsc).resolve_right ?_
      have := hr.seq_le_tip h hs hsc
      omega
    have htr : truncated := by
      by_contra ht
      exact hle (hfull (by simpa using ht)).ge
    have hlt := Nat.lt_of_not_le hle
    refine .more hok hlt (hadv htr)
      (fun s hs j ev hr hsc => (hc s hs j ev hr hsc).imp_right And.right) ?_
    refine ih _ ?_ (validate_next hv (htip ▸ hlt)) rfl
    cases ha : req.after <;> simp_all
    all_goals omega

end Pages

-- Planning is complete and makes progress.
theorem planSnapshot_complete (quot : ℕ → ℕ → ℚ) {archive : Archive g}
    {req} (ha : Accepted archive) (hr : Regular archive)
    (hv : req.validate = .ok ()) : PlansAll quot archive req :=
  plansAll_of_ordered (ha.ordered hr) hv

section Samples

def sampleRow (seq : ℕ) (collection : String) : Event where
  seq := seq
  kind := .create
  did := "did:plc:a"
  collection := collection
  rkey := "r"
  rev := "1"
  payload := []

def sampleEntry (offset eventCount minSeq maxSeq : ℕ) : IndexEntry where
  eventCount := eventCount
  minSeq := minSeq
  maxSeq := maxSeq
  offset := offset
  compressedSize := 10
  minWitnessedAt := 0
  maxWitnessedAt := 0

-- A segment with one row in its first block and none in its second.
def sampleSegment (idx seq maxSeq : ℕ) (collection : String) : SegmentMetadata .exact where
  idx := idx
  checksum := 0
  header := { eventCount := 1, minSeq := seq, maxSeq := seq }
  footerOffset := 1000
  blocks := [sampleEntry 256 1 seq maxSeq, sampleEntry 300 0 maxSeq maxSeq]
  segmentBloom := none
  blockBlooms := []
  collections := [collection]
  blockCollections := [[0], []]

def sample (idx seq maxSeq : ℕ) (collection : String) :
    SegmentMetadata .exact × List (List Event) :=
  (sampleSegment idx seq maxSeq collection, [[sampleRow seq collection], []])

theorem coversRows_sample {idx seq maxSeq} (collection : String) (h : seq ≤ maxSeq) :
    CoversRows (sample idx seq maxSeq collection).1 (sample idx seq maxSeq collection).2 := by
  constructor <;> simp only [sample, sampleSegment, sampleEntry, sampleRow]
  case length => rfl
  case headerCount => rfl
  case headerCovers => simp
  case count => intro j b es hb hes; rcases j with _ | _ | j <;> grind
  case covers => intro j b es hb hes; rcases j with _ | _ | j <;> grind
  case segmentBloom => simp
  case blockBloom => simp
  case collections =>
    intro j es hes ev hev
    rcases j with _ | _ | j
    · cases hes
      cases mem_singleton.mp hev
      exact ⟨[0], rfl, fun _ => ⟨0, .head _, Nat.zero_le _, rfl⟩, fun _ hn => by cases hn⟩
    · cases hes
      cases hev
    · cases hes

def sampleRequest (kinds : KindMask) : PlanSnapshotRequest where
  kinds := kinds
  dids := []
  collections := []
  collectionPrefixes := []
  after := none
  before := none
  maxEntries := 1
  wholeSegmentThreshold := 1

def sampleQuot (m n : ℕ) : ℚ :=
  m / n

-- With one entry a page, the end of the first block becomes the cursor although it is beyond the
-- segment, and the next one falls behind.
theorem sample_overreach :
    planSnapshot sampleQuot ([sample 0 1 5 "app.c", sample 1 2 2 "app.c"].map Prod.fst)
      (sampleRequest 0) = .ok {
        plannedThroughSeq := 5
        sealedTipSeq := 2
        segments := [{
          idx := 0, checksum := 0, minSeq := 1, maxSeq := 1, mode := .blocks,
          blocks := [{ first := 0, last := 0 }] }]
        stats := {
          segmentsExamined := 2, segmentsMatched := 1, blocksMatched := 1, entries := 1 } } := by
  decide +kernel

-- A commit in a collection of the name of a sentinel is not found when only commits are asked for.
theorem sample_sentinel :
    planSnapshot sampleQuot ([sample 0 1 1 "$account"].map Prod.fst) (sampleRequest .commit) = .ok {
        plannedThroughSeq := 1
        sealedTipSeq := 1
        segments := []
        stats := { segmentsExamined := 1 } } := by
  rfl

theorem properCollection_sample {idx seq maxSeq} :
    ∀ es ∈ (sample idx seq maxSeq "app.c").2, ∀ ev ∈ es, ProperCollection ev := by
  simp only [sample, forall_mem_cons, not_mem_nil, false_implies, implies_true, and_true]
  exact ⟨fun _ => by simp [sampleRow], fun _ => (by decide : sentinelKind "app.c" = 0)⟩

theorem not_plansAll (hok : planSnapshot quot (archive.map fst) req = .ok r)
    (hle : r.sealedTipSeq ≤ r.plannedThroughSeq) (hs : s ∈ archive)
    (hr : IsRow s j ev) (hsc : req.InScope ev) (hidx : ∀ q ∈ r.segments, q.idx ≠ s.1.idx) :
    ¬PlansAll quot archive req := by
  intro ⟨rs, hp, _, hcov⟩
  have hrs : rs = [r] := by
    cases hp with
    | last hok' hle' => rw [Except.ok.inj (hok'.symm.trans hok)]
    | more hok' hlt' =>
      rw [Except.ok.inj (hok'.symm.trans hok)] at hlt'
      omega
  have ⟨r', hr', q, hq, hc⟩ := hcov s hs j ev hr hsc
  rw [hrs, mem_singleton] at hr'
  exact hidx q (hr' ▸ hq) hc.left

theorem planSnapshot_complete_sample :
    PlansAll sampleQuot [sample 0 1 1 "app.c", sample 1 2 2 "app.c"] (sampleRequest 0) := by
  refine planSnapshot_complete sampleQuot ⟨?_, rfl, ?_⟩ ⟨?_, ?_⟩ (by decide +kernel)
  all_goals
    simp only [forall_mem_cons, not_mem_nil, false_implies, implies_true, and_true]
  · exact ⟨rfl, rfl⟩
  · exact ⟨coversRows_sample _ (by decide), coversRows_sample _ (by decide)⟩
  · simp [sample, sampleSegment, sampleEntry]
  · exact ⟨properCollection_sample, properCollection_sample⟩

-- Neither condition on regular archives can be dropped.
theorem planSnapshot_incomplete :
    (∃ (archive : Archive .exact) (req : PlanSnapshotRequest), Accepted archive ∧
      (∀ s ∈ archive, ∀ es ∈ s.2, ∀ ev ∈ es, ProperCollection ev) ∧
      req.validate = .ok () ∧ ¬PlansAll sampleQuot archive req) ∧
    (∃ (archive : Archive .exact) (req : PlanSnapshotRequest), Accepted archive ∧
      (∀ s ∈ archive, ∀ b ∈ s.1.blocks, b.eventCount ≠ 0 → b.maxSeq ≤ s.1.header.maxSeq) ∧
      (∀ s ∈ archive, ∀ es ∈ s.2, ∀ ev ∈ es, ev.kind.isCommit → ev.collection ≠ "") ∧
      req.validate = .ok () ∧ ¬PlansAll sampleQuot archive req) := by
  constructor
  · refine ⟨[sample 0 1 5 "app.c", sample 1 2 2 "app.c"], sampleRequest 0, ⟨?_, rfl, ?_⟩, ?_,
      by decide +kernel, ?_⟩
    · simp only [forall_mem_cons, not_mem_nil, false_implies, implies_true, and_true]
      exact ⟨rfl, rfl⟩
    · simp only [forall_mem_cons, not_mem_nil, false_implies, implies_true, and_true]
      exact ⟨coversRows_sample _ (by decide), coversRows_sample _ (by decide)⟩
    · simp only [forall_mem_cons, not_mem_nil, false_implies, implies_true, and_true]
      exact ⟨properCollection_sample, properCollection_sample⟩
    · refine not_plansAll sample_overreach (by decide) (.tail _ (.head _)) (j := 0)
        ⟨_, rfl, .head _⟩ ⟨rfl, by simp [sampleRequest], by simp [sampleRequest]⟩ ?_
      simp [sample, sampleSegment]
  · refine ⟨[sample 0 1 1 "$account"], sampleRequest .commit, ⟨?_, rfl, ?_⟩, ?_, ?_,
      by decide +kernel, ?_⟩
    · simp only [forall_mem_cons, not_mem_nil, false_implies, implies_true, and_true]
      rfl
    · simp only [forall_mem_cons, not_mem_nil, false_implies, implies_true, and_true]
      exact coversRows_sample _ (by decide)
    · simp [sample, sampleSegment, sampleEntry]
    · simp [sample, sampleRow]
    · refine not_plansAll sample_sentinel (by decide) (.head _) (j := 0)
        ⟨_, rfl, .head _⟩ ⟨rfl, by simp [sampleRequest], by simp [sampleRequest]⟩ ?_
      simp

end Samples

end Jetstream.Manifest
