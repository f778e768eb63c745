import HypercertsRelay.Jetstream.Ingest.Recovery

-- A writer that is opened again goes on where the durable rows end.
namespace Jetstream.Ingest.Recovery

open List
open ActiveSegment Proc Numbered Step Framing
open ActiveSegment (length_reservedHeader)
open Option (getD_some none_or some_inj some_or)
open BlockCodec (drop_wire new_short new_torn records_file resumeExistingSegment)

variable {c : BlockCodec} {d d' : Disk g} {s t : State g}

section Scan

theorem scanMaxSeq_nil : scanMaxSeq [] = none :=
  rfl

theorem scanMaxSeq_numbered (h : Numbered Event.seq n blocks.flatten) (hne : blocks.flatten ≠ []) :
    ∃ m, scanMaxSeq blocks = some m ∧ m + 1 = n + blocks.flatten.length := by
  have ⟨_, hmax⟩ := seq_bounds h hne
  cases hs : (blocks.flatten.map (·.seq)).max? with
  | none => exact absurd (map_eq_nil_iff.mp (max?_eq_none_iff.mp hs)) hne
  | some m =>
    rw [maxSeq, hs, getD_some] at hmax
    exact ⟨m, hs, hmax⟩

variable {segs : List (Segment g)}

theorem recoverSealedTailMaxSeq_snoc : recoverSealedTailMaxSeq (segs ++ [seg]) =
    (if 0 < seg.header.maxSeq then some seg.header.maxSeq else none).or
      (recoverSealedTailMaxSeq segs) := by
  by_cases h : 0 < seg.header.maxSeq <;> simp [recoverSealedTailMaxSeq, h]

-- Only the upper bounds count, which compaction leaves alone.
theorem recoverSealedTailMaxSeq_set (hi : segs[i]? = some seg)
    (he : seg'.header.maxSeq = seg.header.maxSeq) :
    recoverSealedTailMaxSeq (segs.set i seg') = recoverSealedTailMaxSeq segs := by
  have heq (l : List (Segment g)) :
      recoverSealedTailMaxSeq l = (l.map (·.header.maxSeq)).reverse.find? (0 < ·) := by
    rw [recoverSealedTailMaxSeq, ←map_reverse, find?_map]
    rfl
  have ⟨hlt, hseg⟩ := List.getElem?_eq_some_iff.mp hi
  have hself : segs.set i seg = segs := by rw [←hseg, set_getElem_self]
  have hmap := congrArg (List.map (·.header.maxSeq)) hself
  rw [map_set] at hmap
  rw [heq, heq, map_set, he, hmap]

end Scan

-- The numbers follow each other from `first` on, the last rows are in the active segment, and the
-- bounds of the sealed segments reach up to those.
structure Sound (c : BlockCodec) (first : ℕ) (sealed : List (Segment g)) (seqNext : ℕ) (history dropped : List Event)
    (blocks : List (List Event)) : Prop where
  isBlock : ∀ rows ∈ blocks, c.IsBlock rows
  pos : 1 ≤ first
  numbered : Numbered Event.seq first history
  removed : dropped ⊆ history
  rows : sealed.flatMap (·.rows) ++ blocks.flatten = history.filter (· ∉ dropped)
  recent : blocks.flatten <:+ history
  bounded : ∀ seg ∈ sealed, seg.header.maxSeq + blocks.flatten.length < first + history.length
  top : match recoverSealedTailMaxSeq sealed with
    | some m => m + 1 + blocks.flatten.length = first + history.length
    | none => blocks.flatten.length = history.length
  counter : first ≤ max seqNext 1 ∧ max seqNext 1 ≤ first + history.length

-- The forms an active file can have when no writer runs.
inductive Shape (c : BlockCodec) : Option Bytes → List (List Event) → Prop
  | missing : Shape c none []
  | short {p : Bytes} : p <+: reservedHeader → Shape c (some p) []
  | torn {p} :
    frameSize p = none → Shape c (some (c.file blocks ++ p)) blocks
  | orphaned {p : Bytes} {n} :
    p <+: c.footer blocks → frameSize p = some n → Shape c (some (c.file blocks ++ p)) blocks

def Phase.rows : Phase → List Event
  | .writing rows => rows
  | _ => []

def Proc.queue (p : Proc) : List Event :=
  p.phase.rows ++ p.prepared.flatten ++ p.pending

-- The active file of a running writer is sound, and a rotation waits until nothing is to be
-- written.
def Phase.Ok (c : BlockCodec) (next : ℕ) (active : Option Bytes) (blocks : List (List Event))
    (queue : List Event) : Phase → Prop
  | .ready => active = some (c.file blocks)
  | .writing rows => active = some (c.file blocks) ∧ c.IsBlock rows
  | .written n => active = some (c.file blocks) ∧ n = next
  | .footing => active = some (c.file blocks) ∧ queue = []
  | .heading => active = some (c.file blocks) ∧ queue = []
  | .sealed => active = none ∧ blocks = [] ∧ queue = []

structure Running (c : BlockCodec) (next : ℕ) (active : Option Bytes) (blocks : List (List Event))
    (p : Proc) : Prop where
  queue : Numbered Event.seq next p.queue
  nextSeq : p.nextSeq = next + p.queue.length
  prepared : ∀ rows ∈ p.prepared, c.IsBlock rows
  phase : p.phase.Ok c next active blocks p.queue

def Inv (c : BlockCodec) (first : ℕ) (s : State g) : Prop :=
  ∃ blocks, Sound c first s.disk.sealed s.disk.seqNext s.history s.dropped blocks ∧
    match s.proc with
    | none => Shape c s.disk.active blocks
    | some p => Running c (first + s.history.length) s.disk.active blocks p

section Open

-- The files no writer opens: a header that was cut off, and a segment with a footer but no header,
-- unless the footer passes for a torn block.
def Wrecked (c : BlockCodec) (d : Disk g) : Prop :=
  ∃ bytes, d.active = some bytes ∧ ((bytes ≠ [] ∧ bytes.length < reservedHeaderBytes) ∨
      ∃ blocks p, (∀ rows ∈ blocks, c.IsBlock rows) ∧ bytes = c.file blocks ++ p ∧
        p <+: c.footer blocks ∧ frameSize p ≠ none)

theorem openWriter_wrecked (h : Wrecked c d) : ∃ e, openWriter c d = .error e := by
  have ⟨bytes, ha, h⟩ := h
  suffices ∃ e, c.new bytes = .error e by
    have ⟨e, he⟩ := this
    refine ⟨e, ?_⟩
    simp only [openWriter, resume, ha, he]
    rfl
  obtain h | h := h
  · exact ⟨_, new_short h.left h.right⟩
  · have ⟨blocks, p, hb, hbytes, hp, hn⟩ := h
    have ⟨n, hn⟩ := Option.ne_none_iff_exists'.mp hn
    exact hbytes ▸ BlockCodec.new_orphaned hb hp hn

theorem resume_spec (hs : Shape c d.active blocks) (hb : ∀ rows ∈ blocks, c.IsBlock rows)
    (hw : ¬Wrecked c d) : ∃ found older, resume c d = .ok (c.file blocks, found, older) ∧
      found.or (recoverSealedTailMaxSeq older) =
        (scanMaxSeq blocks).or (recoverSealedTailMaxSeq d.sealed) := by
  have hnew (bytes : Bytes) (ha : d.active = some bytes)
      (h : c.new bytes = .ok (c.file blocks, blocks)) : ∃ found older,
        resume c d = .ok (c.file blocks, found, older) ∧ found.or (recoverSealedTailMaxSeq older) =
            (scanMaxSeq blocks).or (recoverSealedTailMaxSeq d.sealed) := by
    refine ⟨_, _, ?_, rfl⟩
    simp only [resume, ha, h]
    rfl
  have hfile : c.file [] = reservedHeader := by simp [BlockCodec.file]
  generalize ha : d.active = active at hs
  cases hs with
  | missing =>
    simp only [resume, ha, hfile]
    cases hl : d.sealed.getLast? with
    | none =>
      refine ⟨_, _, rfl, ?_⟩
      rw [getLast?_eq_none_iff.mp hl, scanMaxSeq_nil]
    | some seg =>
      obtain ⟨front, hf⟩ := getLast?_eq_some_iff.mp hl
      refine ⟨_, _, rfl, ?_⟩
      rw [hf, recoverSealedTailMaxSeq_snoc, dropLast_concat, scanMaxSeq_nil, none_or]
  | @short p hp =>
    refine hnew p ha ?_
    by_cases hne : p = []
    · rw [hne, hfile]
      rfl
    -- a header that is neither missing nor cut off is complete
    have hlen : reservedHeaderBytes ≤ p.length := by
      by_contra hlt
      exact hw ⟨p, ha, .inl ⟨hne, Nat.lt_of_not_le hlt⟩⟩
    have heq : p = c.file [] ++ [] := by
      rw [append_nil, hfile]
      exact hp.eq_of_length (hp.length_le.antisymm (length_reservedHeader ▸ hlen))
    rw [heq]
    exact new_torn hb rfl
  | @torn _ p hp => exact hnew _ ha (new_torn hb hp)
  | orphaned hp hn =>
    have hn : frameSize _ ≠ none := Option.ne_none_iff_exists'.mpr ⟨_, hn⟩
    exact absurd ⟨_, ha, .inr ⟨_, _, hb, rfl, hp, hn⟩⟩ hw

-- The counter, the active segment and the sealed segments agree on the next number.
theorem openWriter_spec (h : Sound c first s.disk.sealed s.disk.seqNext s.history s.dropped blocks)
    (hs : Shape c s.disk.active blocks) (hw : ¬Wrecked c s.disk) :
    ∃ seqNext, max seqNext 1 = first + s.history.length ∧ openWriter c s.disk =
        .ok ⟨⟨s.disk.sealed, some (c.file blocks), seqNext⟩, first + s.history.length⟩ := by
  obtain ⟨found, older, hres, hfound⟩ := resume_spec hs h.isBlock hw
  obtain ⟨hlo, hhi⟩ := h.counter
  have htop := h.top
  obtain ⟨rest, hrest⟩ := h.recent
  have hlen := congrArg List.length hrest
  rw [length_append] at hlen
  suffices hval : max (match (scanMaxSeq blocks).or (recoverSealedTailMaxSeq s.disk.sealed) with
      | some m => max s.disk.seqNext (m + 1)
      | none => s.disk.seqNext) 1 = first + s.history.length by
    refine ⟨_, hval, ?_⟩
    rw [←hval, ←hfound]
    simp only [openWriter, hres]
    rfl
  by_cases hne : blocks.flatten = []
  · have hscan : scanMaxSeq blocks = none := by rw [scanMaxSeq, hne]; rfl
    rw [hne, length_nil] at htop
    rw [hscan, none_or]
    cases hr : recoverSealedTailMaxSeq s.disk.sealed <;> simp only [hr] at htop ⊢ <;> omega
  · have hnum := h.numbered
    rw [←hrest, append_iff] at hnum
    obtain ⟨m, hm, heq⟩ := scanMaxSeq_numbered hnum.right hne
    rw [hm, some_or]
    simp only
    omega

end Open

section Filter

variable {rows rows' others : List Event}

theorem filter_survivors (hk : rows' = rows.filter keep) :
    rows.filter (· ∉ rows.filter (· ∉ rows')) = rows' := by
  refine (filter_congr fun row hr => ?_).trans hk.symm
  simp [hr, hk]

theorem filter_others (h : ∀ row ∈ others, row ∉ rows) :
    others.filter (· ∉ rows.filter (· ∉ rows')) = others := by
  refine filter_eq_self.mpr fun row hr => ?_
  simp [h row hr]

end Filter

namespace Sound

variable {sealed : List (Segment g)}
variable (h : Sound c first sealed seqNext history dropped blocks)

include h

theorem extend {rows} (hne : c.IsBlock rows)
    (hn : Numbered Event.seq (first + history.length) rows) :
    Sound c first sealed seqNext (history ++ rows) dropped (blocks ++ [rows]) := by
  have hlen : (blocks ++ [rows]).flatten.length = blocks.flatten.length + rows.length := by simp
  -- a new row has a number that no dropped row has
  have hfresh : rows.filter (· ∉ dropped) = rows := by
    refine filter_eq_self.mpr fun row hr => decide_eq_true fun hd => ?_
    have := (h.numbered.bounds (h.removed hd)).right
    have := (hn.bounds hr).left
    omega
  constructor
  case isBlock => simpa [or_imp, forall_and] using ⟨h.isBlock, hne⟩
  · exact h.pos
  case numbered => exact append_iff.mpr ⟨h.numbered, hn⟩
  case removed => exact List.Subset.trans h.removed (subset_append_left _ _)
  case rows =>
    rw [filter_append, hfresh, ←h.rows]
    simp
  case recent =>
    have ⟨rest, hr⟩ := h.recent
    exact ⟨rest, by simp [←hr]⟩
  case bounded =>
    intro seg hs
    have := h.bounded seg hs
    rw [hlen, length_append]
    omega
  case top =>
    have ht := h.top
    rw [hlen, length_append]
    cases hr : recoverSealedTailMaxSeq sealed <;> simp only [hr] at ht ⊢ <;> omega
  case counter =>
    have hc := h.counter
    rw [length_append]
    omega

theorem commit (hn : max n 1 = first + history.length) :
    Sound c first sealed n history dropped blocks :=
  { h with counter := by rw [hn]; omega }

theorem finalize :
    Sound c first (sealed ++ [.sealAfterFlush g blocks]) seqNext history dropped [] := by
  have ⟨rest, hrest⟩ := h.recent
  have hnum := h.numbered
  have hlen := congrArg List.length hrest
  rw [←hrest, append_iff] at hnum
  rw [length_append] at hlen
  have hmax : (Segment.sealAfterFlush g blocks).header.maxSeq = maxSeq blocks.flatten := rfl
  have hpos := h.pos
  have htop := h.top
  have hcases : (blocks.flatten = [] ∧ maxSeq blocks.flatten = 0) ∨
      (0 < maxSeq blocks.flatten ∧ maxSeq blocks.flatten + 1 = first + history.length) := by
    by_cases hne : blocks.flatten = []
    · exact .inl ⟨hne, by rw [hne]; rfl⟩
    · have := (seq_bounds hnum.right hne).right
      have := length_pos_iff.mpr hne
      exact .inr (by omega)
  refine { h with isBlock := by simp, rows := ?_, recent := nil_suffix, bounded := ?_, top := ?_ }
  · simp [h.rows]
  · intro seg hs
    rw [flatten_nil, length_nil]
    obtain hs | hs := mem_append.mp hs
    · have := h.bounded seg hs; omega
    · rw [mem_singleton.mp hs, hmax]
      omega
  · rw [recoverSealedTailMaxSeq_snoc, hmax, flatten_nil, length_nil]
    obtain hc | hc := hcases
    · rw [hc.left, length_nil] at htop
      rwa [hc.right, if_neg (lt_irrefl 0), none_or]
    · rw [if_pos hc.left, some_or]
      exact hc.right

theorem nodup : (sealed.flatMap (·.rows) ++ blocks.flatten).Nodup := by
  rw [h.rows]
  refine List.Nodup.filter _ (h.numbered.pairwise.imp fun {x y} hlt heq => ?_)
  rw [heq] at hlt
  exact lt_irrefl _ hlt

theorem compact (hi : sealed[i]? = some seg) (hmax : seg'.header.maxSeq = seg.header.maxSeq)
    (hkeep : seg'.rows = seg.rows.filter keep) :
    Sound c first (sealed.set i seg') seqNext history
      (dropped ++ seg.rows.filter (· ∉ seg'.rows)) blocks := by
  have ⟨pre, post, hsplit, hset⟩ : ∃ pre post, sealed = pre ++ seg :: post ∧
      sealed.set i seg' = pre ++ seg' :: post := by
    have ⟨hlt, hseg⟩ := List.getElem?_eq_some_iff.mp hi
    refine ⟨sealed.take i, sealed.drop (i + 1), ?_, set_eq_take_append_cons_drop.trans (if_pos hlt)⟩
    rw [←hseg, getElem_cons_drop, take_append_drop]
  have hmem : seg ∈ sealed := mem_of_getElem? hi
  have hnd := h.nodup
  have hrows : (sealed.flatMap (·.rows) ++ blocks.flatten).filter
      (· ∉ seg.rows.filter (· ∉ seg'.rows)) =
        (sealed.set i seg').flatMap (·.rows) ++ blocks.flatten := by
    rw [hset]
    rw [hsplit] at hnd ⊢
    simp only [flatMap_append, flatMap_cons, append_assoc] at hnd ⊢
    have ⟨_, hnd, hpre⟩ := nodup_append.mp hnd
    have ⟨_, _, hpost⟩ := nodup_append.mp hnd
    rw [filter_append, filter_append, filter_survivors hkeep,
      filter_others fun row hr hs => hpre row hr row (mem_append_left _ hs) rfl,
      filter_others fun row hr hs => hpost row hs row hr rfl]
  refine
    { h with removed := ?_, rows := ?_, bounded := ?_, top := ?_ }
  · intro row hr
    obtain hr | hr := mem_append.mp hr
    · exact h.removed hr
    · have hr : row ∈ sealed.flatMap (·.rows) ++ blocks.flatten :=
        mem_append_left _ (mem_flatMap.mpr ⟨seg, hmem, (mem_filter.mp hr).left⟩)
      rw [h.rows] at hr
      exact (mem_filter.mp hr).left
  · rw [←hrows, h.rows, filter_filter]
    simp [Bool.and_comm]
  · intro t ht
    obtain ht | ht := mem_or_eq_of_mem_set ht
    · exact h.bounded t ht
    · rw [ht, hmax]; exact h.bounded seg hmem
  · rw [recoverSealedTailMaxSeq_set hi hmax]
    exact h.top

end Sound

section Files

theorem file_snoc (c : BlockCodec) (blocks : List (List Event)) (rows : List Event) :
    c.file (blocks ++ [rows]) = c.file blocks ++ c.wire rows := by
  simp [BlockCodec.file]

theorem shape_file (c : BlockCodec) (blocks : List (List Event)) :
    Shape c (some (c.file blocks)) blocks := by
  have h : Shape c (some (c.file blocks ++ [])) blocks := .torn rfl
  rwa [append_nil] at h

theorem shape_footer (hp : p <+: c.footer blocks) : Shape c (some (c.file blocks ++ p)) blocks := by
  cases hn : frameSize p with
  | none => exact .torn hn
  | some n => exact .orphaned hp hn

theorem blocks_file (hb : ∀ rows ∈ blocks, c.IsBlock rows) :
    Blocks c (c.file blocks) bs ↔ bs = blocks := by
  have hdrop : (c.file blocks).drop reservedHeaderBytes = (blocks.map c.wire).flatten ++ [] := by
    rw [BlockCodec.file, drop_left' length_reservedHeader, append_nil]
  have hnil : frames.records [] = [] := rfl
  rw [Blocks, hdrop, records_file hb, hnil, BlockCodec.walkActiveFrames_wires hb]
  simp [BlockCodec.walkActiveFrames, eq_comm]

theorem file_ne_nil (c : BlockCodec) (blocks : List (List Event)) (p : Bytes) :
    c.file blocks ++ p ≠ [] := by
  simp [BlockCodec.file, reservedHeader, segmentMagic]

-- Cutting off what is behind the last frame changes nothing about the blocks.
theorem Shape.truncated (hs : Shape c (some bytes) blocks) (hb : ∀ rows ∈ blocks, c.IsBlock rows)
    (h : resumeExistingSegment bytes = .ok file) : Shape c (some file) blocks := by
  have hfile (p : Bytes) : resumeExistingSegment (c.file blocks ++ p) =
      .ok (c.file blocks ++ (frames.records p).flatten) := by
    rw [BlockCodec.file, append_assoc, BlockCodec.resumeExistingSegment_reserved,
      records_file hb, flatten_append, append_assoc]
  cases hs with
  | short hp =>
    have hlen : ¬bytes.length < reservedHeaderBytes := by
      intro hlt
      simp [resumeExistingSegment, hlt] at h
    have heq : bytes = c.file [] ++ [] := by
      rw [BlockCodec.file, map_nil, flatten_nil, append_nil, append_nil]
      refine hp.eq_of_length (hp.length_le.antisymm ?_)
      rw [length_reservedHeader]
      omega
    rw [heq, hfile] at h
    cases h
    exact .torn rfl
  | torn hp =>
    rw [hfile, records_of_size_none hp] at h
    cases h
    exact .torn rfl
  | @orphaned _ p n hp hn =>
    have hrec : frames.records p = p.take n :: frames.records (p.drop n) := records_of_size_some hn
    have hsize : frameSize (frames.records p).flatten = some n := by
      rw [hrec]
      exact frames.size_append _ (frames.size_take hn)
    rw [hfile] at h
    cases h
    exact .orphaned ((flatten_records_isPrefix p).trans hp) hsize

theorem Shape.interrupted (hs : Shape c d.active blocks) (hb : ∀ rows ∈ blocks, c.IsBlock rows)
    (h : Interrupted d d') :
    Shape c d'.active blocks ∧ d'.sealed = d.sealed ∧ d'.seqNext = d.seqNext := by
  cases h with
  | truncated ha hr =>
    rw [ha] at hs
    exact ⟨hs.truncated hb hr, rfl, rfl⟩
  | created ha hp =>
    refine ⟨?_, rfl, rfl⟩
    have hnil : blocks = [] := by
      generalize d.active = active at hs ha
      cases hs with
      | missing => rfl
      | short => rfl
      | torn => exact absurd ha (file_ne_nil _ _ _)
      | orphaned _ => exact absurd ha (file_ne_nil _ _ _)
    rw [hnil]
    exact .short hp

end Files

section Steps

theorem Sound.crash {rows}
    (h : Sound c first d.sealed d.seqNext history dropped blocks)
    (hr : Running c (first + history.length) d.active blocks proc)
    (e : Crash c d proc.phase d' rows) :
    ∃ blocks', Sound c first d'.sealed d'.seqNext (history ++ rows) dropped blocks' ∧
      Shape c d'.active blocks' := by
  have hph := hr.phase
  have hq := hr.queue
  rw [queue] at hq
  have hbytes {bytes} (ha : d.active = some bytes) (hf : d.active = some (c.file blocks)) :
      bytes = c.file blocks :=
    some_inj.mp (ha.symm.trans hf)
  generalize proc.phase = phase at e hph hq
  cases e with
  | ready =>
    rw [append_nil, show d.active = some (c.file blocks) from hph]
    exact ⟨blocks, h, shape_file c blocks⟩
  | written =>
    rw [append_nil, hph.left]
    exact ⟨blocks, h, shape_file c blocks⟩
  | torn ha hp hne =>
    rw [append_nil, hbytes ha hph.left]
    exact ⟨blocks, h, .torn (size_of_cut (BlockCodec.isRecord_wire hph.right) hp hne)⟩
  | whole ha =>
    rw [hbytes ha hph.left, ←file_snoc]
    have hn := (append_iff.mp (append_iff.mp hq).left).left
    exact ⟨_, h.extend hph.right hn, shape_file c _⟩
  | footer ha hb hp =>
    rw [hbytes ha hph.left] at hb ⊢
    rw [(blocks_file h.isBlock).mp hb] at hp
    rw [append_nil]
    exact ⟨blocks, h, shape_footer hp⟩
  | footed ha hb =>
    rw [hbytes ha hph.left] at hb ⊢
    rw [append_nil, (blocks_file h.isBlock).mp hb]
    exact ⟨blocks, h, shape_footer (prefix_refl _)⟩
  | unfooted =>
    rw [append_nil, hph.left]
    exact ⟨blocks, h, shape_file c blocks⟩
  | headed ha hb =>
    rw [hbytes ha hph.left] at hb
    rw [append_nil, (blocks_file h.isBlock).mp hb]
    exact ⟨[], h.finalize, .missing⟩
  | uncreated =>
    rw [append_nil, hph.left]
    exact ⟨[], hph.right.left ▸ h, .missing⟩
  | created hp =>
    rw [append_nil]
    exact ⟨[], hph.right.left ▸ h, .short hp⟩

theorem Running.start (next : ℕ) (c : BlockCodec) (blocks : List (List Event)) :
    Running c next (some (c.file blocks)) blocks ⟨next, [], [], .ready⟩ :=
  ⟨trivial, rfl, by simp, rfl⟩

namespace Running

variable {next : ℕ} (h : Running c next active blocks proc)

include h

theorem phase_at {ph} (hr : proc.phase = ph) : ph.Ok c next active blocks proc.queue :=
  hr ▸ h.phase

theorem append (hu : proc.phase.unlocked) (hev : ev.seq = proc.nextSeq) :
    Running c next active blocks
      { proc with pending := proc.pending ++ [ev], nextSeq := proc.nextSeq + 1 } := by
  have hq : Proc.queue { proc with pending := proc.pending ++ [ev], nextSeq := proc.nextSeq + 1 } =
      proc.queue ++ [ev] := by simp [Proc.queue]
  have hn := h.nextSeq
  have hph := h.phase
  refine ⟨?_, ?_, h.prepared, ?_⟩
  · exact hq ▸ h.queue.snoc (hev.trans hn)
  · rw [hq, length_append, length_singleton, ←Nat.add_assoc, ←hn]
  · cases hp : proc.phase <;> simp_all [Phase.unlocked, Phase.Ok]

theorem prepare (hu : proc.phase.unlocked) (hne : c.IsBlock proc.pending) :
    Running c next active blocks
      { proc with prepared := proc.prepared ++ [proc.pending], pending := [] } := by
  have hq : Proc.queue { proc with prepared := proc.prepared ++ [proc.pending], pending := [] } =
      proc.queue := by simp [Proc.queue]
  have hph := h.phase
  refine ⟨hq ▸ h.queue, hq ▸ h.nextSeq, ?_, ?_⟩
  · simpa [or_imp, forall_and] using ⟨h.prepared, hne⟩
  · cases hp : proc.phase <;> simp_all [Phase.unlocked, Phase.Ok]

theorem write (hr : proc.phase = .ready) (hp : proc.prepared = rows :: rest) :
    Running c next active blocks { proc with prepared := rest, phase := .writing rows } := by
  have hq : Proc.queue { proc with prepared := rest, phase := .writing rows } = proc.queue := by
    simp [Proc.queue, Phase.rows, hr, hp]
  have ⟨hne, hrest⟩ := forall_mem_cons.mp (hp ▸ h.prepared)
  exact ⟨hq ▸ h.queue, hq ▸ h.nextSeq, hrest, h.phase_at hr, hne⟩

theorem sync (hr : proc.phase = .writing rows) : c.IsBlock rows ∧ Numbered Event.seq next rows ∧
    Running c (next + rows.length) (some (c.file (blocks ++ [rows]))) (blocks ++ [rows])
      { proc with phase := .written (maxSeq rows + 1) } := by
  have hq : proc.queue = rows ++ Proc.queue { proc with phase := .written (maxSeq rows + 1) } := by
    simp [Proc.queue, Phase.rows, hr]
  have hnum := h.queue
  have hn := h.nextSeq
  have hph := h.phase_at hr
  rw [hq, append_iff] at hnum
  rw [hq, length_append, ←Nat.add_assoc] at hn
  exact ⟨hph.right, hnum.left, hnum.right, hn, h.prepared, rfl, (seq_bounds hnum.left hph.right.left).right⟩

-- From one phase to another while no block is being written.
theorem advance {phase}
    (hr : proc.phase.rows = phase.rows) (hph : phase.Ok c next active' blocks' proc.queue) :
    Running c next active' blocks' { proc with phase := phase } := by
  have hq : Proc.queue { proc with phase := phase } = proc.queue := by simp [Proc.queue, hr]
  exact ⟨hq ▸ h.queue, hq ▸ h.nextSeq, h.prepared, hq ▸ hph⟩

end Running

theorem Inv.step (h : Inv c first s) (e : Step c s t) : Inv c first t := by
  obtain ⟨blocks, hs, hp⟩ := h
  cases e with
  | @opened o hn ho =>
    simp only [hn] at hp
    have hw : ¬Wrecked c s.disk := fun hw => by
      obtain ⟨e, he⟩ := openWriter_wrecked hw
      rw [ho] at he
      cases he
    obtain ⟨seqNext, hmax, hopen⟩ := openWriter_spec hs hp hw
    rw [ho] at hopen
    cases hopen
    exact ⟨blocks, hs.commit hmax, .start _ c blocks⟩
  | @interrupted d hn hi =>
    simp only [hn] at hp
    obtain ⟨hshape, hsealed, hseq⟩ := hp.interrupted hs.isBlock hi
    refine ⟨blocks, ?_, ?_⟩
    · simpa only [hsealed, hseq] using hs
    · simpa only [hn] using hshape
  | append ev hn hu hev =>
    simp only [hn] at hp
    exact ⟨blocks, hs, hp.append hu hev⟩
  | prepare hn hu hne =>
    simp only [hn] at hp
    exact ⟨blocks, hs, hp.prepare hu hne⟩
  | write hn hr hq =>
    simp only [hn] at hp
    exact ⟨blocks, hs, hp.write hr hq⟩
  | @sync p rows bytes hn hr ha =>
    simp only [hn] at hp
    have hph := hp.phase_at hr
    have hbytes : bytes = c.file blocks := some_inj.mp (ha.symm.trans hph.left)
    obtain ⟨hne, hnum, hrun⟩ := hp.sync hr
    rw [file_snoc, ←hbytes, Nat.add_assoc, ←length_append] at hrun
    exact ⟨_, hs.extend hne hnum, hrun⟩
  | @commit p n hn hr =>
    simp only [hn] at hp
    have hph := hp.phase_at hr
    have hpos := hs.pos
    have hmax : max n 1 = first + s.history.length := by rw [hph.right]; omega
    exact ⟨blocks, hs.commit hmax, hp.advance (by rw [hr]; rfl) hph.left⟩
  | @rotate p hn hr hq hq' =>
    simp only [hn] at hp
    have hph := hp.phase_at hr
    have hnil : p.queue = [] := by simp [queue, Phase.rows, hr, hq, hq']
    exact ⟨blocks, hs, hp.advance (by rw [hr]; rfl) ⟨hph, hnil⟩⟩
  | footer hn hr =>
    simp only [hn] at hp
    have hph := hp.phase_at hr
    exact ⟨blocks, hs, hp.advance (by rw [hr]; rfl) hph⟩
  | header hn hr ha hb =>
    simp only [hn] at hp
    have hph := hp.phase_at hr
    rw [some_inj.mp (ha.symm.trans hph.left)] at hb
    rw [(blocks_file hs.isBlock).mp hb]
    exact ⟨[], hs.finalize, hp.advance (by rw [hr]; rfl) ⟨rfl, rfl, hph.right⟩⟩
  | create hn hr =>
    simp only [hn] at hp
    have hph := hp.phase_at hr
    have hfile : some reservedHeader = some (c.file []) := by simp [BlockCodec.file]
    exact ⟨[], hph.right.left ▸ hs, hp.advance (by rw [hr]; rfl) hfile⟩
  | @compact seg i drop dids hi =>
    have hmax := seg.rewrite_maxSeq drop dids
    obtain ⟨keep, hk⟩ : ∃ keep, (seg.rewrite drop dids).rows = seg.rows.filter keep := by
      obtain h | h := seg.rewrite_cases drop dids
      · exact ⟨fun _ => true, by rw [h]; simp⟩
      · exact ⟨_, by rw [h, Segment.rows_keepRows]⟩
    exact ⟨blocks, hs.compact hi hmax hk, hp⟩
  | crash hn hc =>
    simp only [hn] at hp
    exact hs.crash hp hc

end Steps

section Rows

theorem readBlocks_wires (hb : ∀ rows ∈ blocks, c.IsBlock rows) (fs : List Bytes) :
    readBlocks c (blocks.map c.wire ++ fs) = blocks ++ readBlocks c fs := by
  induction blocks with
  | nil => rfl
  | cons rows bs ih =>
    have ⟨hne, hbs⟩ := forall_mem_cons.mp hb
    cases rows with
    | nil => exact absurd rfl hne.left
    | cons row rows =>
      simp only [map_cons, cons_append, readBlocks, drop_wire, c.decode_encode hne.right, ih hbs]

theorem Shape.readBlocks_eq (hs : Shape c d.active blocks) (hb : ∀ rows ∈ blocks, c.IsBlock rows) :
    readBlocks c (frames.records ((d.active.getD []).drop reservedHeaderBytes)) = blocks := by
  have hfile (p : Bytes) (hp : readBlocks c (frames.records p) = []) :
      readBlocks c (frames.records ((c.file blocks ++ p).drop reservedHeaderBytes)) = blocks := by
    rw [BlockCodec.file, append_assoc, drop_left' length_reservedHeader,
      records_file hb, readBlocks_wires hb, hp, append_nil]
  generalize d.active = active at hs
  cases hs with
  | missing => rfl
  | short hp =>
    have hlen := hp.length_le
    rw [length_reservedHeader] at hlen
    rw [getD_some, drop_eq_nil_of_le hlen]
    rfl
  | torn hp =>
    refine hfile _ ?_
    rw [records_of_size_none hp]
    rfl
  | orphaned hp hn =>
    refine hfile _ ?_
    rw [records_of_size_some hn, readBlocks]
    cases hd : c.decodeBlock _ with
    | error e => rfl
    | ok rows => exact absurd hd (BlockCodec.footer_not_frame hb hp hn)

theorem Running.shape {next} (h : Running c next d.active blocks proc) :
    Shape c d.active blocks := by
  have hph := h.phase
  cases hp : proc.phase <;> rw [hp] at hph
  case ready => rw [show d.active = _ from hph]; exact shape_file c blocks
  case sealed => rw [hph.left, hph.right.left]; exact .missing
  all_goals rw [hph.left]; exact shape_file c blocks

theorem Inv.shape (h : Inv c first s) : ∃ blocks,
    Sound c first s.disk.sealed s.disk.seqNext s.history s.dropped blocks ∧
      Shape c s.disk.active blocks := by
  have ⟨blocks, hs, hp⟩ := h
  cases hn : s.proc <;> simp only [hn] at hp
  case none => exact ⟨blocks, hs, hp⟩
  case some p => exact ⟨blocks, hs, hp.shape⟩

end Rows

theorem inv_of_reachable (h : (system c g seqNext).Reachable s) : Inv c (max seqNext 1) s := by
  refine h.invariant (fun s hi => ?_) fun _ _ _ hs e => hs.step e
  subst hi
  refine ⟨[], ⟨by simp, by omega, trivial, by simp, by simp, by simp, by simp, rfl, ?_⟩, .missing⟩
  simp

-- Rows become durable in the order of their numbers, without a gap. A writer can be opened again
-- unless the newest file is beyond repair, and goes on behind the last durable row.
theorem reopen_continues (h : (system c g seqNext).Reachable s) :
    Numbered Event.seq (max seqNext 1) s.history ∧
    s.disk.rows c = s.history.filter (· ∉ s.dropped) ∧
    (s.proc = none → (Wrecked c s.disk → ∃ e, openWriter c s.disk = .error e) ∧
      (¬Wrecked c s.disk → ∃ o, openWriter c s.disk = .ok o ∧
        o.nextSeq = max seqNext 1 + s.history.length ∧ 1 ≤ o.nextSeq ∧
        (∀ row ∈ s.disk.rows c, row.seq < o.nextSeq) ∧
        ∀ seg ∈ s.disk.sealed, seg.header.maxSeq < o.nextSeq)) := by
  have ⟨blocks, hs, hshape⟩ := (inv_of_reachable h).shape
  have hrows : s.disk.rows c = s.history.filter (· ∉ s.dropped) := by
    rw [Disk.rows, hshape.readBlocks_eq hs.isBlock, hs.rows]
  refine ⟨hs.numbered, hrows, fun _ => ⟨openWriter_wrecked, fun hw => ?_⟩⟩
  have ⟨n, _, ho⟩ := openWriter_spec hs hshape hw
  refine ⟨_, ho, rfl, ?_, fun row hr => ?_, fun seg hseg => ?_⟩
  · have := hs.pos; show 1 ≤ max seqNext 1 + s.history.length; omega
  · rw [hrows] at hr
    exact (hs.numbered.bounds (mem_filter.mp hr).left).right
  · have := hs.bounded seg hseg; show _ < max seqNext 1 + s.history.length; omega

section Sample

def sampleRow (seq : ℕ) : Event where
  seq := seq
  kind := .create
  did := "did:plc:a"
  collection := "c"
  rkey := "k"
  rev := "3"
  payload := [7]

-- A coding for blocks that have only such rows, with a footer of zeros behind the index.
def sampleBlockCodec : BlockCodec where
  valid rows := rows.length < 256 ∧ ∀ row ∈ rows, row.seq < 256 ∧ row = sampleRow row.seq
  encodeBlock rows := LittleEndian.encode 4 zstdMagic ++ rows.map (UInt8.ofNat ·.seq)
  decodeBlock frame := if frame.take 4 = LittleEndian.encode 4 zstdMagic
    then .ok ((frame.drop 4).map (sampleRow ·.toNat))
    else .error "invalid magic number"
  decode_encode {rows} hv := by
    have hrow : ∀ row ∈ rows, sampleRow (UInt8.ofNat row.seq).toNat = row := fun row hr => by
      have ⟨hlt, he⟩ := hv.right row hr
      rw [UInt8.toNat_ofNat_of_lt' hlt, ←he]
    rw [take_left' (LittleEndian.length_encode _ _), if_pos rfl,
      drop_left' (LittleEndian.length_encode _ _), map_map]
    exact congrArg Except.ok ((map_congr_left hrow).trans (map_id _))
  encode_small {rows} hv := by
    have := hv.left
    rw [length_append, LittleEndian.length_encode, length_map, zstdMagic]
    omega
  decode_magic h := by
    split at h
    case isTrue hm => exact hm
    case isFalse => exact nomatch h
  indexEntry _ := List.replicate 40 0
  footerTail _ := List.replicate 256 0
  footerTail_nil {p n rows} hp _ hd := by
    have hm : (((p.take n).drop 8).take 4) = LittleEndian.encode 4 zstdMagic := by
      split at hd
      case isTrue hm => exact hm
      case isFalse => exact nomatch hd
    have hmem : (0x28 : UInt8) ∈ ((p.take n).drop 8).take 4 := by rw [hm]; decide
    have hz := hp.subset (mem_of_mem_take (mem_of_mem_drop (mem_of_mem_take hmem)))
    exact absurd (eq_of_mem_replicate hz) (by decide)

theorem sampleBlock (h : seq < 256) : sampleBlockCodec.IsBlock [sampleRow seq] := by
  refine ⟨cons_ne_nil _ _, by simp, fun row hr => ?_⟩
  rw [mem_singleton.mp hr]
  exact ⟨h, rfl⟩

theorem sampleBlocks : ∀ rows ∈ [[sampleRow 1]], sampleBlockCodec.IsBlock rows := fun rows hr => by
  rw [mem_singleton.mp hr]
  exact sampleBlock (by decide)

def sampleFile : Bytes :=
  sampleBlockCodec.file [[sampleRow 1]]

abbrev sampleState (active : Bytes) (seqNext : ℕ) (proc : Option Proc) (history : List Event) :
    State .exact :=
  ⟨⟨[], some active, seqNext⟩, proc, history, [], []⟩

def SampleReachable : State .exact → Prop :=
  (system sampleBlockCodec .exact 0).Reachable

-- A writer has its first row on the disk.
theorem sampleState_committed : SampleReachable
    (sampleState sampleFile 2 (some ⟨2, [], [], .ready⟩) [sampleRow 1]) := by
  have hopen : SampleReachable (sampleState reservedHeader 0 (some ⟨1, [], [], .ready⟩) []) :=
    .step (.init rfl) (opened (o := ⟨⟨[], some reservedHeader, 0⟩, 1⟩) rfl rfl)
  have happend : SampleReachable
      (sampleState reservedHeader 0 (some ⟨2, [sampleRow 1], [], .ready⟩) []) :=
    hopen.step (append (p := ⟨1, [], [], .ready⟩) (sampleRow 1) rfl rfl rfl)
  have hprepare : SampleReachable
      (sampleState reservedHeader 0 (some ⟨2, [], [[sampleRow 1]], .ready⟩) []) :=
    happend.step (prepare (p := ⟨2, [sampleRow 1], [], .ready⟩) rfl rfl (sampleBlock (by decide)))
  have hwrite : SampleReachable
      (sampleState reservedHeader 0 (some ⟨2, [], [], .writing [sampleRow 1]⟩) []) :=
    hprepare.step (write (p := ⟨2, [], [[sampleRow 1]], .ready⟩) rfl rfl rfl)
  have hsync : SampleReachable
      (sampleState sampleFile 0 (some ⟨2, [], [], .written 2⟩) [sampleRow 1]) :=
    hwrite.step (sync (p := ⟨2, [], [], .writing [sampleRow 1]⟩) rfl rfl rfl)
  exact hsync.step (commit (p := ⟨2, [], [], .written 2⟩) rfl rfl)

theorem sampleState_writing : SampleReachable
    (sampleState sampleFile 2 (some ⟨3, [], [], .writing [sampleRow 2]⟩) [sampleRow 1]) := by
  have happend : SampleReachable
      (sampleState sampleFile 2 (some ⟨3, [sampleRow 2], [], .ready⟩) [sampleRow 1]) :=
    sampleState_committed.step (append (p := ⟨2, [], [], .ready⟩) (sampleRow 2) rfl rfl rfl)
  have hprepare : SampleReachable
      (sampleState sampleFile 2 (some ⟨3, [], [[sampleRow 2]], .ready⟩) [sampleRow 1]) :=
    happend.step (prepare (p := ⟨3, [sampleRow 2], [], .ready⟩) rfl rfl (sampleBlock (by decide)))
  exact hprepare.step (write (p := ⟨3, [], [[sampleRow 2]], .ready⟩) rfl rfl rfl)

-- The next row gets into the file only in part.
theorem sampleState_torn : SampleReachable
    (sampleState (sampleFile ++ [5, 0, 0]) 2 none [sampleRow 1]) :=
  sampleState_writing.step (.crash rfl (.torn rfl (by decide) (by decide)))

theorem sampleState_footed : SampleReachable
    (sampleState (sampleFile ++ sampleBlockCodec.footer [[sampleRow 1]]) 2 none [sampleRow 1]) := by
  have hrotate : SampleReachable
      (sampleState sampleFile 2 (some ⟨2, [], [], .footing⟩) [sampleRow 1]) :=
    sampleState_committed.step (rotate (p := ⟨2, [], [], .ready⟩) rfl rfl rfl rfl)
  exact hrotate.step (.crash rfl (.footer rfl ((blocks_file sampleBlocks).mpr rfl) (prefix_refl _)))

theorem reopen_continues_torn : ∃ s o, SampleReachable s ∧
    s.disk.active = some (sampleFile ++ [5, 0, 0]) ∧ openWriter sampleBlockCodec s.disk = .ok o ∧
    o.nextSeq = 2 := by
  have ⟨_, _, h⟩ := reopen_continues sampleState_torn
  have hopens : (openWriter sampleBlockCodec
      (sampleState (sampleFile ++ [5, 0, 0]) 2 none [sampleRow 1]).disk).isOk = true := by
    decide +kernel
  have ⟨o, ho, hseq, _⟩ := (h rfl).right fun hw => by
    have ⟨e, he⟩ := openWriter_wrecked hw
    rw [he] at hopens
    exact nomatch hopens
  exact ⟨_, o, sampleState_torn, rfl, ho, hseq⟩

theorem openWriter_file (hb : ∀ rows ∈ blocks, c.IsBlock rows) (hm : scanMaxSeq blocks = some m) :
    openWriter c (⟨[], some (c.file blocks), n⟩ : Disk .exact) =
      .ok ⟨⟨[], some (c.file blocks), max n (m + 1)⟩, max (max n (m + 1)) 1⟩ := by
  have hnew : c.new (c.file blocks ++ []) = _ := new_torn hb rfl
  rw [append_nil] at hnew
  have hres : resume c (⟨[], some (c.file blocks), n⟩ : Disk .exact) =
      .ok (c.file blocks, some m, []) := by
    simp only [←hm, resume, hnew]
    rfl
  simp only [openWriter, hres]
  rfl

-- A writer is opened on the second row, which was not synced, and a crash takes the row back.
theorem sampleState_skipped : ∃ s, (machine sampleBlockCodec .exact 0).Reachable s ∧
    s.disk.rows sampleBlockCodec = [sampleRow 1, sampleRow 3] := by
  have hfile : sampleBlockCodec.file [[sampleRow 1], [sampleRow 2]] = sampleFile ++ _ :=
    file_snoc sampleBlockCodec [[sampleRow 1]] [sampleRow 2]
  have hblocks : ∀ rows ∈ [[sampleRow 1], [sampleRow 2]], sampleBlockCodec.IsBlock rows :=
    forall_mem_cons.mpr ⟨sampleBlock (by decide), forall_mem_singleton.mpr (sampleBlock (by decide))⟩
  have h₁ : (machine sampleBlockCodec .exact 0).Reachable _ :=
    (sampleState_writing.step (.crash rfl (.whole rfl))).extend
  rw [←hfile] at h₁
  have h₂ := h₁.step (.inl (.opened rfl (openWriter_file hblocks rfl)))
  have h₃ := h₂.step (.inl (.crash rfl .ready))
  have h₄ := h₃.step (.inr ⟨rfl, sampleFile, [sampleRow 2], by simp, by rw [hfile], rfl⟩)
  have h₅ := h₄.step (.inl (.opened rfl (openWriter_file sampleBlocks rfl)))
  have h₆ := h₅.step (.inl (.append (sampleRow 3) rfl rfl rfl))
  have h₇ := h₆.step (.inl (.prepare rfl rfl (sampleBlock (by decide))))
  have h₈ := h₇.step (.inl (.write rfl rfl rfl))
  exact ⟨_, h₈.step (.inl (.sync rfl rfl rfl)), by decide +kernel⟩

-- A crash between the footer and the header leaves a file that no writer opens, and one that takes
-- back what was not synced leaves a gap.
theorem openWriter_fails_or_skips : (∃ s, SampleReachable s ∧
      s.proc = none ∧ s.disk.rows sampleBlockCodec = [sampleRow 1] ∧
      ∃ e, openWriter sampleBlockCodec s.disk = .error e) ∧
    ∃ s, (machine sampleBlockCodec .exact 0).Reachable s ∧
      s.disk.rows sampleBlockCodec = [sampleRow 1, sampleRow 3] := by
  have hn : frameSize (sampleBlockCodec.footer [[sampleRow 1]]) ≠ none := by decide +kernel
  refine ⟨⟨_, sampleState_footed, rfl, by decide +kernel, openWriter_wrecked ⟨_, rfl, .inr ?_⟩⟩,
    sampleState_skipped⟩
  exact ⟨[[sampleRow 1]], _, sampleBlocks, rfl, prefix_refl _, hn⟩

end Sample

end Jetstream.Ingest.Recovery
