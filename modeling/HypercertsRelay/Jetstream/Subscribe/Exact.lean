import HypercertsRelay.Jetstream.Subscribe.Replay

-- What a reader delivers is what the files still have, in order and without gaps.
namespace Jetstream.Subscribe

open List
open Ingest Pc ReadableLog Listed

variable {a b : Archive g} {H H' : List Event}
variable {w : Walk} {blocks : List BlockInfo} {pc : Pc}

def Archive.fileSet (a : Archive g) : Set Event :=
  { ev | ev ∈ a.files }

-- `H` has everything the archive ever held.
def Covered (a : Archive g) (H : List Event) : Prop :=
  a.rows ⊆ H

theorem Covered.files (h : Covered a H) : a.fileSet ⊆ { ev | ev ∈ H } :=
  fun _ hev => h (mem_append_left _ (mem_append_left _ hev))

theorem Covered.entries (h : Covered a H) : a.log.entries ⊆ H :=
  fun _ hev => h (mem_append_right _ hev)

-- A walk in progress stays below the window, so that all it may come across is in a file.
structure Scanning (a : Archive g) (H : List Event) (cursor : ℕ) (c : Scan) : Prop where
  below : cursor < c.stop
  floor : c.stop ≤ a.log.baseSeq
  started : c.passStart ≤ c.walk.current
  collected : c.walk.Collected a.fileSet { ev | ev ∈ H } cursor c.stop

-- The segment at this index has these bounds and can serve the next row.
structure Located (a : Archive g) (c : Scan) (b : SegmentBounds) (maxSeqs : List ℕ) : Prop where
  envelope : a.envelopes[b.idx]? = some (b.minSeq, b.maxSeq, maxSeqs)
  min_le : b.minSeq ≤ c.walk.current
  le_max : c.walk.current ≤ b.maxSeq
  lt_stop : c.walk.current < c.stop

def At (a : Archive g) (H : List Event) (cursor : ℕ) : Pc → Prop
  | .idle => True
  | .cold _ => cursor < a.log.baseSeq
  | .sweep c => Scanning a H cursor c
  | .found c b => Scanning a H cursor c ∧ ∃ maxSeqs, Located a c b maxSeqs
  | .indexed c b blocks => Scanning a H cursor c ∧ Located a c b (blocks.map (·.maxSeq))
  | .active c => Scanning a H cursor c
  | .range c idx rows => Scanning a H cursor c ∧ idx ≤ a.sealed.length ∧
      (idx = a.sealed.length → rows ⊆ a.active.flatten)

structure Sound (start : ℕ) (a : Archive g) (H : List Event) (r : Reader) : Prop where
  start_le : start ≤ r.cursor
  le_max : r.cursor ≤ max start a.log.durable
  swept : Swept Event.seq a.fileSet start r.cursor r.delivered
  known : ∀ ev ∈ r.delivered, ev ∈ H
  pc : At a H r.cursor r.pc

section Evolve

variable (e : Archive.Evolves a b) (hH : H ⊆ H')

include e

theorem Located.evolve (h : Located a c bnd maxSeqs) : Located b c bnd maxSeqs :=
  { h with envelope := Archive.getElem?_of_isPrefix e.envelopes h.envelope }

include hH

theorem Scanning.evolve (h : Scanning a H cursor c) : Scanning b H' cursor c where
  below := h.below
  floor := h.floor.trans e.base
  started := h.started
  collected := by
    refine h.collected.mono (fun ev hev hlt => e.files ev hev ?_) hH
    exact hlt.trans_le (h.floor.trans a.log.base_le)

theorem At.evolve (h : At a H cursor pc) : At b H' cursor pc := by
  cases pc with
  | idle => trivial
  | cold max => exact lt_of_lt_of_le h e.base
  | sweep c => exact Scanning.evolve e hH h
  | active c => exact Scanning.evolve e hH h
  | found c bnd =>
    have ⟨hs, maxSeqs, hl⟩ := h
    exact ⟨hs.evolve e hH, maxSeqs, hl.evolve e⟩
  | indexed c bnd blocks => exact ⟨h.left.evolve e hH, h.right.evolve e⟩
  | range c idx rows =>
    have ⟨hs, hle, hrows⟩ := h
    have hlen : a.sealed.length ≤ b.sealed.length := by
      simpa only [Archive.envelopes_length] using e.envelopes.length_le
    refine ⟨hs.evolve e hH, hle.trans hlen, fun heq => ?_⟩
    -- a file that is still the active one has only grown
    have hsame : b.sealed.length = a.sealed.length := by omega
    exact List.Subset.trans (hrows (heq.trans hsame)) (e.active hsame)

theorem Sound.evolve (h : Sound start a H r) : Sound start b H' r where
  start_le := h.start_le
  le_max := by
    have := h.le_max
    have := e.durable
    omega
  known := fun ev hev => hH (h.known ev hev)
  pc := h.pc.evolve e hH
  swept := by
    refine h.swept.mono fun ev hev hlo hhi => e.files ev hev ?_
    have := h.le_max
    omega

end Evolve

section Deliver

section

variable (h : Sound start a H r)

include h

theorem Sound.fail : Sound start a H r.fail :=
  { h with pc := trivial }

theorem Sound.deliver (hs : Swept Event.seq a.fileSet r.cursor hi batch)
    (hle : r.cursor ≤ hi) (hd : hi ≤ a.log.durable) (hk : batch ⊆ H)
    (ho : batch = [] → otherwise = hi) : Sound start a H (r.deliver batch otherwise) := by
  have hknown : ∀ ev ∈ r.delivered ++ batch, ev ∈ H := by
    intro ev hev
    obtain hev | hev := mem_append.mp hev
    · exact h.known ev hev
    · exact hk hev
  cases hlast : batch.getLast? with
  | none =>
    have ho := ho (getLast?_eq_none_iff.mp hlast)
    constructor <;> simp only [Reader.deliver, hlast, ho]
    case start_le => exact h.start_le.trans hle
    case le_max => omega
    case swept => exact h.swept.append hs h.start_le hle
    case known => exact hknown
    case pc => trivial
  | some ev =>
    have hb := hs.bounds ev (mem_of_getLast? hlast)
    constructor <;> simp only [Reader.deliver, hlast]
    case start_le => have := h.start_le; omega
    case le_max => omega
    case swept => exact h.swept.append (hs.retreat hlast) h.start_le (by omega)
    case known => exact hknown
    case pc => trivial

theorem Sound.finish (hbelow : r.cursor < stop)
    (hfloor : stop ≤ a.log.baseSeq) (hw : w.Collected a.fileSet { ev | ev ∈ H } r.cursor stop)
    (hend : w.batch ≠ [] ∨ stop ≤ w.current) : Sound start a H (r.finish stop w.batch) := by
  have hle := hw.le
  have hbase := a.log.base_le
  refine h.deliver hw.swept (by omega) (by omega) hw.known fun hnil => ?_
  rw [if_pos hbelow, min_eq_right (hend.resolve_left (absurd hnil))]

theorem Sound.endPass (hs : Scanning a H r.cursor c) : Sound start a H (r.endPass c) := by
  simp only [Reader.endPass]
  split <;> [exact h.finish hs.below hs.floor hs.collected (.inr (by assumption)); skip]
  split <;> [split <;> [exact h.fail; skip]; skip]
  case isFalse.isTrue.isFalse => exact { h with pc := { hs with } }
  case isFalse.isFalse => exact { h with pc := { hs with started := le_rfl } }

theorem Sound.leaveSegment (hs : Scanning a H r.cursor c) (hc : c.walk.current ≤ w.current)
    (hw : w.Collected a.fileSet { ev | ev ∈ H } r.cursor c.stop)
    (hn : ∀ ev ∈ a.fileSet, w.current ≤ ev.seq → ev.seq ≤ bnd.maxSeq → c.stop ≤ ev.seq) :
    Sound start a H (r.leaveSegment c bnd w) := by
  have hle : w.current ≤ if w.current ≤ bnd.maxSeq then bnd.maxSeq + 1 else w.current := by
    split <;> omega
  refine { h with pc := ⟨hs.below, hs.floor, hs.started.trans (hc.trans hle), ?_⟩ }
  refine hw.advance hle fun ev hev hle hlt => ?_
  split at hlt
  · exact hn ev hev hle (by omega)
  · omega

end

end Deliver

section Progress

-- A pass that advances is worth more than what the next one may cost to begin, and a pass that does
-- not may happen once.
def Scan.left (c : Scan) : ℕ :=
  20 * (c.stop - c.walk.current) + 5 * (if c.passStart < c.walk.current then 3 else 2 - c.noProgress)

namespace Pc

def stage : Pc → ℕ
  | .idle => 2
  | .cold _ => 1
  | _ => 0

def work : Pc → ℕ
  | .idle | .cold _ => 0
  | .sweep c => c.left + 4
  | .found c _ => c.left + 3
  | .indexed c _ _ => c.left + 2
  | .active c => c.left + 2
  | .range c _ _ => c.left + 1

def rank (pc : Pc) : ℕ ×ₗ ℕ :=
  toLex (pc.stage, pc.work)

theorem rank_lt_of_stage {pc' : Pc} (h : pc.stage < pc'.stage) : pc.rank < pc'.rank :=
  Prod.Lex.toLex_lt_toLex.mpr (.inl h)

theorem rank_lt_of_work {pc' : Pc} (hs : pc.stage = pc'.stage) (h : pc.work < pc'.work) :
    pc.rank < pc'.rank :=
  Prod.Lex.toLex_lt_toLex.mpr (.inr ⟨hs, h⟩)

end Pc

-- What a step of the reader achieves.
inductive Progress (a : Archive g) (r r' : Reader) : Prop
  | failed : r' = r.fail → Progress a r r'
  | returned : r'.pc = .idle → r.cursor < r'.cursor → r'.failures = r.failures → Progress a r r'
  | waiting : r' = r → r.pc = .idle → a.log.durable ≤ r.cursor → Progress a r r'
  | going : r'.pc ≠ .idle → r'.cursor = r.cursor → r'.failures = r.failures →
      r'.pc.rank < r.pc.rank → Progress a r r'

namespace Progress

theorem move (hr : r.pc = pc) (hne : pc' ≠ .idle) (h : pc'.rank < pc.rank) :
    Progress a r { r with pc := pc' } :=
  .going hne rfl rfl (hr ▸ h)

theorem scan (hr : r.pc = pc) (hne : pc' ≠ .idle) (hs : pc'.stage = pc.stage)
    (h : pc'.work < pc.work) : Progress a r { r with pc := pc' } :=
  .move hr hne (rank_lt_of_work hs h)

theorem deliver (hb : ∀ ev ∈ batch, r.cursor ≤ ev.seq) (ho : batch = [] → r.cursor < otherwise) :
    Progress a r (r.deliver batch otherwise) := by
  refine .returned rfl ?_ rfl
  simp only [Reader.deliver]
  cases h : batch.getLast? with
  | none => exact ho (getLast?_eq_none_iff.mp h)
  | some ev => exact Nat.lt_succ_of_le (hb ev (mem_of_getLast? h))

theorem finish (hbelow : r.cursor < stop)
    (hw : w.Collected a.fileSet { ev | ev ∈ H } r.cursor stop) :
    Progress a r (r.finish stop w.batch) :=
  deliver (fun ev hev => (hw.swept.bounds ev hev).left) fun _ => by rwa [if_pos hbelow]

theorem endPass (hs : Scanning a H r.cursor c) (hle : c.walk.current ≤ w.current)
    (hw : w.Collected a.fileSet { ev | ev ∈ H } r.cursor c.stop)
    (hpc : r.pc.stage = 0) (hwork : c.left + 1 ≤ r.pc.work) :
    Progress a r (r.endPass { c with walk := w }) := by
  have hst := hs.started
  simp only [Reader.endPass]
  split <;> [exact finish hs.below hw; skip]
  split <;> [split <;> [exact .failed rfl; skip]; skip]
  all_goals
    refine .going (by simp) rfl rfl (rank_lt_of_work hpc.symm (lt_of_lt_of_le ?_ hwork))
    simp only [work, Scan.left]
    split <;> split <;> omega

theorem leaveSegment (hr : r.pc = .indexed c bnd blocks) (hl : Located a c bnd maxSeqs)
    (hle : c.walk.current ≤ w.current) : Progress a r (r.leaveSegment c bnd w) := by
  have := hl.le_max
  have := hl.lt_stop
  refine .scan hr nofun rfl ?_
  simp only [work, Scan.left]
  split <;> split <;> split <;> omega

end Progress

end Progress

section Step

variable (ht : Archive.Tiles first mid a)

include ht

-- The rows of a located segment are all that lies in front of the walk within its bounds.
theorem Located.ahead (h : Located a c bnd maxSeqs) (hs : a.sealed[bnd.idx]? = some seg) :
    c.walk.Ahead a.fileSet bnd.maxSeq seg.rows ∧ seg.blocks.map (·.info.maxSeq) = maxSeqs := by
  have he := h.envelope
  simp only [Archive.envelopes, getElem?_map, hs, Option.map_some, Option.some_inj, Listed.of,
    Listed.envelope, Prod.mk.injEq, map_map] at he
  obtain ⟨hmin, hmax, hmaxs⟩ := he
  have hmem : seg ∈ a.sealed := mem_of_getElem? hs
  refine ⟨⟨fun ev hev => ⟨?_, ?_⟩, ht.ascending seg hmem, fun ev hev hle hhi => ?_⟩, hmaxs⟩
  · exact Archive.mem_files.mpr (.inl ⟨seg, hmem, hev⟩)
  · exact hmax ▸ (seg.covers_rows hev).right
  · have := h.min_le
    exact ht.mem_rows hmem hev (by omega) (by omega)

variable (hc : Covered a H) {max : ℕ}

include hc

theorem Sound.hot (h : Sound start a H r)
    (he : a.log.readCommittedFrom r.cursor max = .entries es) :
    Sound start a H (r.deliver es r.cursor) := by
  have ⟨hbase, hnum, hne, hsub, hdur⟩ := readCommittedFrom_entries he
  refine h.deliver (Swept.numbered hnum ?_) (Nat.le_add_right _ _) hdur
    (List.Subset.trans hsub hc.entries) (absurd · hne)
  -- a row of the window is the row of the file with its number
  intro ev hev hlo hhi
  have ⟨row, hr, hseq⟩ := hnum.exists_mem hlo hhi
  have hres := ht.resident ev (mem_append_left _ hev) (hbase.trans hlo)
  exact a.log.numbered.inj hres (hsub hr) hseq.symm ▸ hr

theorem Scanning.readSegment (hs : Scanning a H cursor c)
    (hl : Located a c bnd (blocks.map (·.maxSeq))) (hseg : a.sealed[bnd.idx]? = some seg) :
    c.walk.Outcome a.fileSet { ev | ev ∈ H } cursor bnd.maxSeq c.stop []
      (c.walk.walkSealedSegment c.stop c.max (blocks.zip (seg.blocks.map (·.events)))) := by
  have ⟨hahead, hmaxs⟩ := hl.ahead ht hseg
  have ⟨hrows, hmax⟩ := zip_blocks hmaxs
  have hu : ∀ x ∈ a.fileSet, ∀ y ∈ a.fileSet, x.seq = y.seq → x = y :=
    fun x hx y hy => ht.files_inj hx hy
  exact Walk.walkSealedSegment_spec hu hc.files hs.collected (by rwa [hrows]) hmax

theorem Scanning.readActive (hs : Scanning a H cursor c) (hr : rows ⊆ a.active.flatten) :
    c.walk.Resumed a.fileSet { ev | ev ∈ H } cursor c.stop
      (c.walk.walkActiveRange c.stop c.max rows) := by
  have hu : ∀ x ∈ a.fileSet, ∀ y ∈ a.fileSet, x.seq = y.seq → x = y :=
    fun x hx y hy => ht.files_inj hx hy
  exact Walk.walkActiveRange_spec hu hc.files hs.collected
    fun ev hev => Archive.mem_files.mpr (.inr (hr hev))

theorem Sound.step (h : Sound start a H r) (e : r.step a max = some r') :
    Sound start a H r' ∧ Progress a r r' := by
  have hpc := h.pc
  simp only [Reader.step] at e
  cases hr : r.pc <;> simp only [hr] at e hpc
  case idle =>
    cases hread : a.log.readCommittedFrom r.cursor max <;> simp only [hread, Option.some_inj] at e
      <;> subst e
    case atTip => exact ⟨h, .waiting rfl hr (readCommittedFrom_atTip hread)⟩
    case entries es =>
      obtain ⟨_, hnum, hne, _, _⟩ := readCommittedFrom_entries hread
      exact ⟨h.hot ht hc hread, .deliver (fun _ hev => (hnum.bounds hev).left) (absurd · hne)⟩
    case cold =>
      have hcold := readCommittedFrom_cold hread
      exact ⟨{ h with pc := hcold }, .move hr (by rintro ⟨⟩) (rank_lt_of_stage Nat.one_lt_two)⟩
  case cold max' =>
    cases e
    refine ⟨{ h with pc := ⟨hpc, le_rfl, le_rfl, .start hpc.le⟩ }, ?_⟩
    exact .move hr (by rintro ⟨⟩) (rank_lt_of_stage Nat.zero_lt_one)
  case sweep c =>
    split at e <;> [skip; split at e] <;> cases e
    case isTrue.refl => exact ⟨{ h with pc := hpc }, .scan hr (by rintro ⟨⟩) rfl (by simp [work])⟩
    case h_1.refl => exact ⟨{ h with pc := hpc }, .scan hr (by rintro ⟨⟩) rfl (by simp [work])⟩
    case h_2.refl hlt _ bnd hb =>
      obtain ⟨m, hm, hmin, hmax, hle, hge⟩ := segmentForSeq_some hb
      have he := ht.envelope_listed hm
      rw [envelope, hmin, hmax] at he
      have hl : Located a c bnd _ := ⟨he, hle, hge, Nat.lt_of_not_le hlt⟩
      exact ⟨{ h with pc := ⟨hpc, _, hl⟩ }, .scan hr (by rintro ⟨⟩) rfl (by simp [work])⟩
  case found c bnd =>
    obtain ⟨hs, maxSeqs, hl⟩ := hpc
    split at e <;> cases e
    case h_1 => exact ⟨h.fail, .failed rfl⟩
    case h_2 m hm =>
      have he := ht.envelope_listed hm
      rw [hl.envelope, Option.some_inj, envelope, Prod.mk.injEq, Prod.mk.injEq] at he
      have hl := he.right.right ▸ hl
      exact ⟨{ h with pc := ⟨hs, hl⟩ }, .scan hr (by rintro ⟨⟩) rfl (by simp [work])⟩
  case indexed c bnd blocks =>
    obtain ⟨hs, hl⟩ := hpc
    cases hseg : a.sealed[bnd.idx]? <;> simp only [hseg] at e
    case none => cases e; exact ⟨h.fail, .failed rfl⟩
    case some seg =>
      have ho := hs.readSegment ht hc hl hseg
      split at e <;> rename_i w hw <;> rw [hw] at ho <;> cases e
      case h_1 =>
        refine ⟨h.leaveSegment hs ho.right.left ho.left fun ev hev hle hhi => ?_, ?_⟩
        cases ho.right.right.cover ev hev hle hhi
        exact .leaveSegment hr hl ho.right.left
      case h_2 =>
        obtain ⟨hw, hle, hn⟩ := ho
        exact ⟨h.leaveSegment hs hle hw hn, .leaveSegment hr hl hle⟩
      case h_3 =>
        have hend := h.finish hs.below hs.floor ho.left (.inl ho.right)
        exact ⟨hend, .finish hs.below ho.left⟩
  case active c =>
    split at e <;> [cases e; split at e <;> cases e]
    case h_1.refl =>
      have hst : r.pc.stage = 0 := by simp [hr, stage]
      have hwork : c.left + 1 ≤ r.pc.work := by simp [hr, work]
      exact ⟨h.endPass hpc, .endPass hpc (le_rfl) hpc.collected hst hwork⟩
    case h_2.refl rows hrows =>
      have hrows := flushedRangeFromSeq_subset hrows
      refine ⟨{ h with pc := ⟨hpc, le_rfl, fun _ => hrows⟩ }, ?_⟩
      exact .scan hr (by rintro ⟨⟩) rfl (by simp [work])
  case range c idx rows =>
    obtain ⟨hs, hle, hrows⟩ := hpc
    have hst : r.pc.stage = 0 := by simp [hr, stage]
    have hwork : c.left + 1 ≤ r.pc.work := by simp [hr, work]
    split at e <;> [skip; split at e] <;> cases e
    case isTrue.refl => exact ⟨h.endPass hs, .endPass hs (le_rfl) hs.collected hst hwork⟩
    all_goals
      rename_i w hw
      have ho := hs.readActive ht hc (hrows (by omega))
      rw [hw] at ho
    case h_1.refl | h_2.refl =>
      have hs' : Scanning a H r.cursor { c with walk := w } :=
        ⟨hs.below, hs.floor, hs.started.trans ho.right, ho.left⟩
      exact ⟨h.endPass hs', .endPass hs ho.right ho.left hst hwork⟩
    case h_3.refl =>
      have hend := h.finish hs.below hs.floor ho.left (.inl ho.right)
      exact ⟨hend, .finish hs.below ho.left⟩

end Step

end Jetstream.Subscribe
