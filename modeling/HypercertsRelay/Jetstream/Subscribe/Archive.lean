import HypercertsRelay.Jetstream.Segment
import HypercertsRelay.Jetstream.Ingest.ReadLog

-- The archive a reader looks at while the writer, the rotation and the compaction go on.
namespace Jetstream.Subscribe

open List
open Ingest List.Subset Numbered Segment

-- What the manifest says about a segment.
structure Listed where
  minSeq : ℕ
  maxSeq : ℕ
  blocks : List BlockInfo
  deriving DecidableEq, Repr

def Listed.of (seg : Segment g) : Listed where
  minSeq := seg.header.minSeq
  maxSeq := seg.header.maxSeq
  blocks := seg.blocks.map (·.info)

-- The bounds of a segment and the upper bounds of its blocks, which a rewrite keeps.
def Listed.envelope (m : Listed) : ℕ × ℕ × List ℕ :=
  (m.minSeq, m.maxSeq, m.blocks.map (·.maxSeq))

open Listed (envelope of)

-- A rotation holds the lock from the seal until the index of the active segment has moved on.
inductive Rotation
  | none | sealed | published
  deriving DecidableEq, Repr

-- `active` has the flushed blocks of the active segment, whose index is the number of sealed ones.
structure Archive (g : Gloom) where
  sealed : List (Segment g)
  manifest : List Listed
  active : List (List Event)
  pending : List Event
  rotation : Rotation
  log : ReadableLog

namespace Archive

def files (a : Archive g) : List Event :=
  a.sealed.flatMap (·.rows) ++ a.active.flatten

def rows (a : Archive g) : List Event :=
  a.files ++ a.pending ++ a.log.entries

def envelopes (a : Archive g) : List (ℕ × ℕ × List ℕ) :=
  a.sealed.map fun seg => (of seg).envelope

inductive Step : Archive g → Archive g → Prop
  | append {a} (ev : Event) (hs : ev.seq = a.log.tipSeq) :
    a.rotation = .none →
    Step a { a with pending := a.pending ++ [ev], log := a.log.append ev hs }
  -- A block takes the first rows that wait. With asynchronous flushes others have come after them.
  | flush {a} (n : ℕ) :
    a.rotation = .none → 0 < n → n ≤ a.pending.length →
    Step a { a with active := a.active ++ [a.pending.take n], pending := a.pending.drop n }
  | commit {a} (n : ℕ) (hd : a.log.durable ≤ n) (ht : n ≤ a.log.tipSeq - a.pending.length) :
    a.rotation = .none →
    Step a { a with log := a.log.advanceDurable n hd (Nat.le_trans ht (Nat.sub_le _ _)) }
  | finalize {a} :
    a.rotation = .none → a.pending = [] → a.active ≠ [] →
    Step a
      { a with
        sealed := a.sealed ++ [.sealAfterFlush g a.active]
        active := []
        rotation := .sealed }
  | publish {a} (seg : Segment g) :
    a.rotation = .sealed → a.sealed.getLast? = some seg →
    Step a { a with manifest := a.manifest ++ [.of seg], rotation := .published }
  | bump {a} :
    a.rotation = .published → Step a { a with rotation := .none }
  -- Compaction replaces the file first and then the entry of the manifest.
  | rewrite {a} (i : ℕ) (seg : Segment g) (drop : Event → Bool) (dids : List String) :
    i < a.manifest.length → a.sealed[i]? = some seg →
    Step a { a with sealed := a.sealed.set i (seg.rewrite drop dids) }
  | refresh {a} (i : ℕ) (seg : Segment g) :
    i < a.manifest.length → a.sealed[i]? = some seg →
    Step a { a with manifest := a.manifest.set i (.of seg) }

-- The envelopes of the segments follow each other without a gap.
def Tiled : ℕ → List (ℕ × ℕ × List ℕ) → ℕ → Prop
  | lo, [], hi => lo = hi
  | lo, e :: es, hi => e.1 = lo ∧ lo ≤ e.2.1 ∧ Tiled (e.2.1 + 1) es hi

-- Without holes: sealed segments cover `first` to `mid`, the active one and what is not flushed the
-- rest.
structure Tiles (first mid : ℕ) (a : Archive g) : Prop where
  sealed : Tiled first a.envelopes mid
  ascending : ∀ seg ∈ a.sealed, seg.rows.Pairwise (·.seq < ·.seq)
  blocks : ∀ rows ∈ a.active, rows ≠ []
  active : Numbered Event.seq mid (a.active.flatten ++ a.pending)
  tip : a.log.tipSeq = mid + (a.active.flatten ++ a.pending).length
  durable : a.log.durable ≤ a.log.tipSeq - a.pending.length
  resident : ∀ ev ∈ a.files ++ a.pending, a.log.baseSeq ≤ ev.seq → ev ∈ a.log.entries
  listed : a.manifest.map envelope =
    if a.rotation = .sealed then a.envelopes.dropLast else a.envelopes

theorem envelope_rewrite (seg : Segment g) (drop : Event → Bool) (dids : List String) :
    (of (seg.rewrite drop dids)).envelope = (of seg).envelope := by
  have h := seg.rewrite_cases drop dids
  simp only [of, envelope, rewrite_minSeq, rewrite_maxSeq, map_map, Prod.mk.injEq, true_and]
  obtain h | h := h
  · rw [h]
  · simp [h, keepRows, Block.filter, Function.comp_def]

section Tiled

theorem Tiled.snoc (h : Tiled lo es mid) (he : e.1 = mid) (hle : mid ≤ e.2.1) :
    Tiled lo (es ++ [e]) (e.2.1 + 1) := by
  induction es generalizing lo with
  | nil => cases h; exact ⟨he, hle, rfl⟩
  | cons _ _ ih => exact ⟨h.left, h.right.left, ih h.right.right⟩

theorem Tiled.le (h : Tiled lo es hi) : lo ≤ hi := by
  induction es generalizing lo with
  | nil => exact Nat.le_of_eq h
  | cons _ _ ih => have := h.right.left; have := ih h.right.right; omega

theorem Tiled.bounds (h : Tiled lo es hi) (he : e ∈ es) : lo ≤ e.1 ∧ e.2.1 < hi := by
  induction es generalizing lo with
  | nil => cases he
  | cons e' es ih =>
    have ⟨hlo, hle, ht⟩ := h
    cases he with
    | head => have := ht.le; omega
    | tail _ he => have := ih ht he; omega

theorem Tiled.disjoint (h : Tiled lo es hi) : es.Pairwise (·.2.1 < ·.1) := by
  induction es generalizing lo with
  | nil => exact .nil
  | cons e es ih => exact .cons (fun _ he => (h.right.right.bounds he).left) (ih h.right.right)

end Tiled

section

variable {a b : Archive g} {i : ℕ}

theorem getElem?_of_isPrefix {l l'} (h : l <+: l') {x : α}
    (hx : l[i]? = some x) : l'[i]? = some x := by
  have ⟨rest, hr⟩ := h
  rw [←hr, getElem?_append_left (List.getElem?_eq_some_iff.mp hx).choose, hx]

theorem mem_files : ev ∈ a.files ↔ (∃ seg ∈ a.sealed, ev ∈ seg.rows) ∨ ev ∈ a.active.flatten := by
  simp only [files, mem_append, mem_flatMap]

namespace Tiles

variable (h : Tiles first mid a)

include h

theorem disjoint : a.sealed.Pairwise (·.header.maxSeq < ·.header.minSeq) :=
  pairwise_map.mp h.sealed.disjoint

theorem lt_mid (hs : seg ∈ a.sealed) (hev : ev ∈ seg.rows) : ev.seq < mid := by
  have hb := (h.sealed.bounds (mem_map_of_mem hs)).right
  have := (seg.covers_rows hev).right
  simp only [of, envelope] at hb
  omega

theorem files_ascending : a.files.Pairwise (·.seq < ·.seq) := by
  refine pairwise_append.mpr ⟨?_, (append_iff.mp h.active).left.pairwise, ?_⟩
  · refine pairwise_flatMap.mpr ⟨h.ascending, h.disjoint.imp ?_⟩
    intro s t hst x hx y hy
    have := (s.covers_rows hx).right
    have := (t.covers_rows hy).left
    omega
  · intro x hx y hy
    have ⟨seg, hs, hx⟩ := mem_flatMap.mp hx
    have hy := ((append_iff.mp h.active).left.bounds hy).left
    exact Nat.lt_of_lt_of_le (h.lt_mid hs hx) hy

theorem files_inj (hev : ev ∈ a.files) (hev' : ev' ∈ a.files)
    (hs : ev.seq = ev'.seq) : ev = ev' := by
  by_contra hne
  have hsym : Std.Symm fun x y : Event => x.seq ≠ y.seq := ⟨fun _ _ h => h.symm⟩
  have hp : a.files.Pairwise fun x y => x.seq ≠ y.seq := h.files_ascending.imp Nat.ne_of_lt
  exact hp.forall hev hev' hne hs

-- The envelope of a segment tells which rows are in it.
theorem mem_rows (hs : seg ∈ a.sealed) (hev : ev ∈ a.files) (hmin : seg.header.minSeq ≤ ev.seq)
    (hmax : ev.seq ≤ seg.header.maxSeq) : ev ∈ seg.rows := by
  cases mem_files.mp hev with
  | inr hev =>
    have hb := (h.sealed.bounds (mem_map_of_mem hs)).right
    have := ((append_iff.mp h.active).left.bounds hev).left
    simp only [of, envelope] at hb
    omega
  | inl hev =>
    have ⟨seg', hs', hev⟩ := hev
    by_contra hn
    have hsym : Std.Symm fun s t : Segment g =>
        s.header.maxSeq < t.header.minSeq ∨ t.header.maxSeq < s.header.minSeq :=
      ⟨fun _ _ h => h.symm⟩
    have hp : a.sealed.Pairwise fun s t =>
        s.header.maxSeq < t.header.minSeq ∨ t.header.maxSeq < s.header.minSeq :=
      h.disjoint.imp Or.inl
    have hd := hp.forall hs hs' fun heq => hn (heq ▸ hev)
    have := seg'.covers_rows hev
    omega

-- A row that is not in a file yet is not committed.
theorem durable_le_pending (hev : ev ∈ a.pending) : a.log.durable ≤ ev.seq := by
  have hb := ((append_iff.mp h.active).right.bounds hev).left
  have hd := h.durable
  have ht := h.tip
  rw [length_append] at ht
  omega

end Tiles

-- What a reader can rely on while the archive changes under it.
structure Evolves (a b : Archive g) : Prop where
  base : a.log.baseSeq ≤ b.log.baseSeq
  durable : a.log.durable ≤ b.log.durable
  files : ∀ ev ∈ b.files, ev.seq < a.log.durable → ev ∈ a.files
  envelopes : a.envelopes <+: b.envelopes
  active : b.sealed.length = a.sealed.length → a.active.flatten ⊆ b.active.flatten

theorem envelopes_length (a : Archive g) : a.envelopes.length = a.sealed.length :=
  length_map _

theorem mem_files_set (hi : a.sealed[i]? = some seg) (hr : seg'.rows ⊆ seg.rows)
    (hev : ev ∈ ({ a with sealed := a.sealed.set i seg' } : Archive g).files) : ev ∈ a.files := by
  cases mem_files.mp hev with
  | inr hev => exact mem_files.mpr (.inr hev)
  | inl hev =>
    have ⟨t, ht, hev⟩ := hev
    obtain ht | ht := mem_or_eq_of_mem_set ht
    · exact mem_files.mpr (.inl ⟨t, ht, hev⟩)
    · have hmem : seg ∈ a.sealed := mem_of_getElem? hi
      exact mem_files.mpr (.inl ⟨seg, hmem, hr (ht ▸ hev)⟩)

theorem envelopes_set (hi : a.sealed[i]? = some seg) (he : (of seg').envelope = (of seg).envelope) :
    ({ a with sealed := a.sealed.set i seg' } : Archive g).envelopes = a.envelopes := by
  have ⟨hlt, hseg⟩ := List.getElem?_eq_some_iff.mp hi
  have hself : a.sealed.set i seg = a.sealed := by rw [←hseg, set_getElem_self]
  rw [envelopes, map_set, he, ←map_set, hself, envelopes]

theorem rows_rewrite_sublist (seg : Segment g) (drop : Event → Bool) (dids : List String) :
    (seg.rewrite drop dids).rows.Sublist seg.rows := by
  obtain h | h := seg.rewrite_cases drop dids
  · rw [h]
  · rw [h, rows_keepRows]; exact filter_sublist

namespace Step

theorem evolves (h : Tiles first mid a) (e : Step a b) : Evolves a b := by
  cases e with
  | append ev hs hl =>
    have ⟨hd, _, hb, _⟩ := a.log.append_spec ev hs
    exact ⟨hb, Nat.le_of_eq hd.symm, fun _ hev _ => hev, prefix_refl _, fun _ => refl _⟩
  | flush n hl hn hp =>
    refine ⟨Nat.le_refl _, Nat.le_refl _, fun ev hev hlt => ?_, prefix_refl _, fun _ => ?_⟩
    · simp only [files, flatten_append, flatten_singleton, ←append_assoc] at hev
      obtain hev | hev := mem_append.mp hev
      · exact hev
      · have := h.durable_le_pending (mem_of_mem_take hev); omega
    · rw [flatten_append]
      exact subset_append_left _ _
  | commit n hd ht hl =>
    have ⟨hd', _, hb, _⟩ := a.log.advanceDurable_spec n hd (Nat.le_trans ht (Nat.sub_le _ _))
    have hle := Nat.le_trans hd (Nat.le_of_eq hd'.symm)
    exact ⟨hb, hle, fun _ hev _ => hev, prefix_refl _, fun _ => refl _⟩
  | finalize hl hp ha =>
    refine ⟨Nat.le_refl _, Nat.le_refl _, fun ev hev _ => ?_, ?_, fun hlen => ?_⟩
    · simpa [files] using hev
    · rw [envelopes, envelopes, map_append]
      exact prefix_append _ _
    · simp at hlen
  | publish seg hr hl =>
    exact ⟨Nat.le_refl _, Nat.le_refl _, fun _ hev _ => hev, prefix_refl _, fun _ => refl _⟩
  | bump hr =>
    exact ⟨Nat.le_refl _, Nat.le_refl _, fun _ hev _ => hev, prefix_refl _, fun _ => refl _⟩
  | rewrite i seg drop dids hi hs =>
    refine ⟨Nat.le_refl _, Nat.le_refl _, fun ev hev _ => ?_, ?_, fun _ => refl _⟩
    · exact mem_files_set hs (rows_rewrite_sublist seg drop dids).subset hev
    · have he := envelopes_set hs (envelope_rewrite seg drop dids)
      exact he.symm ▸ prefix_refl _
  | refresh i seg hi hs =>
    exact ⟨Nat.le_refl _, Nat.le_refl _, fun _ hev _ => hev, prefix_refl _, fun _ => refl _⟩

end Step

namespace Tiles

variable (h : Tiles first mid a)

include h

theorem append (hs : ev.seq = a.log.tipSeq) :
    Tiles first mid { a with pending := a.pending ++ [ev], log := a.log.append ev hs } := by
  have ⟨hd, ht, hb, hmem⟩ := a.log.append_spec ev hs
  have htip := h.tip
  refine { h with active := ?_, tip := ?_, durable := ?_, resident := ?_ }
  · rw [←append_assoc]
    exact h.active.snoc (hs.trans htip)
  · simp only [ht, htip, length_append, length_singleton]
    omega
  · have hdur := h.durable
    simp only [hd, ht, length_append, length_singleton]
    omega
  intro row hr hle
  refine hmem row ?_ hle
  rw [←append_assoc] at hr
  obtain hr | hr := mem_append.mp hr
  · exact mem_append_left _ (h.resident row hr (Nat.le_trans hb hle))
  · exact mem_append_right _ hr

theorem flush (hn : 0 < n) (hp : n ≤ a.pending.length) : Tiles first mid
      { a with active := a.active ++ [a.pending.take n], pending := a.pending.drop n } := by
  have hsplit : (a.active ++ [a.pending.take n]).flatten ++ a.pending.drop n =
      a.active.flatten ++ a.pending := by simp
  refine { h with blocks := ?_, active := ?_, tip := ?_, durable := ?_, resident := ?_ }
  · intro rows hr
    obtain hr | hr := mem_append.mp hr
    · exact h.blocks rows hr
    · rw [mem_singleton.mp hr]
      apply ne_nil_of_length_pos
      rw [length_take]
      omega
  · exact hsplit ▸ h.active
  · exact hsplit ▸ h.tip
  · have hdur := h.durable
    simp only [length_drop]
    omega
  · intro row hr
    refine h.resident row ?_
    rwa [files, append_assoc, hsplit, ←append_assoc] at hr

theorem commit (hd : a.log.durable ≤ n) (ht : n ≤ a.log.tipSeq - a.pending.length) : Tiles first mid
      { a with log := a.log.advanceDurable n hd (Nat.le_trans ht (Nat.sub_le _ _)) } := by
  have ⟨hd', ht', hb, hmem⟩ := a.log.advanceDurable_spec n hd (Nat.le_trans ht (Nat.sub_le _ _))
  refine { h with tip := ht'.trans h.tip, durable := ?_, resident := ?_ }
  · simp only [hd', ht']
    exact ht
  · intro row hr hle
    exact hmem row (h.resident row hr (Nat.le_trans hb hle)) hle

theorem finalize (hl : a.rotation = .none) (hp : a.pending = []) (ha : a.active ≠ []) :
    Tiles first (mid + a.active.flatten.length)
      { a with
        sealed := a.sealed ++ [.sealAfterFlush g a.active]
        active := []
        rotation := .sealed } := by
  have hne : a.active.flatten ≠ [] := by
    have ⟨rows, hr⟩ := exists_mem_of_ne_nil _ ha
    have ⟨ev, hev⟩ := exists_mem_of_ne_nil _ (h.blocks rows hr)
    exact ne_nil_of_mem (mem_flatten.mpr ⟨rows, hr, hev⟩)
  have hact := (append_iff.mp h.active).left
  have ⟨hmin, hmax⟩ := seq_bounds hact hne
  have hpos := length_pos_iff.mpr hne
  refine
    { sealed := ?_, ascending := ?_, blocks := by simp, active := ?_, tip := ?_, durable := h.durable,
      resident := ?_, listed := ?_ }
  · rw [←hmax, envelopes, map_append]
    refine h.sealed.snoc (e := (of (.sealAfterFlush g a.active)).envelope) hmin ?_
    show mid ≤ maxSeq a.active.flatten
    omega
  · intro seg hs
    obtain hs | hs := mem_append.mp hs
    · exact h.ascending seg hs
    · rw [mem_singleton.mp hs, rows_sealAfterFlush]
      exact hact.pairwise
  · simp [hp, Numbered]
  · simpa [hp] using h.tip
  · intro row hr
    refine h.resident row ?_
    simpa [files] using hr
  · have hl' := h.listed
    simp only [hl, reduceCtorEq, if_false] at hl'
    simp [hl', envelopes]

theorem publish (hr : a.rotation = .sealed) (hs : a.sealed.getLast? = some seg) :
    Tiles first mid { a with manifest := a.manifest ++ [.of seg], rotation := .published } := by
  refine { h with listed := ?_ }
  have hl := h.listed
  simp only [hr, if_true] at hl
  have ⟨front, hf⟩ := getLast?_eq_some_iff.mp hs
  simp [hl, envelopes, hf]

theorem bump (hr : a.rotation = .published) : Tiles first mid { a with rotation := .none } := by
  have hl := h.listed
  simp only [hr, reduceCtorEq, if_false] at hl
  exact { h with listed := hl }

theorem rewrite (hi : a.sealed[i]? = some seg) (drop : Event → Bool) (dids : List String) :
    Tiles first mid { a with sealed := a.sealed.set i (seg.rewrite drop dids) } := by
  have he := envelopes_set hi (envelope_rewrite seg drop dids)
  have hsub := rows_rewrite_sublist seg drop dids
  refine { h with sealed := ?_, ascending := ?_, resident := ?_, listed := ?_ }
  · exact he ▸ h.sealed
  · intro t ht
    obtain ht | ht := mem_or_eq_of_mem_set ht
    · exact h.ascending t ht
    · rw [ht]
      exact (h.ascending seg (mem_of_getElem? hi)).sublist hsub
  · intro row hr
    refine h.resident row ?_
    obtain hr | hr := mem_append.mp hr
    · exact mem_append_left _ (mem_files_set hi hsub.subset hr)
    · exact mem_append_right _ hr
  · exact he ▸ h.listed

theorem listed_isPrefix : a.manifest.map envelope <+: a.envelopes := by
  rw [h.listed]
  split
  · exact dropLast_prefix _
  · exact prefix_refl _

-- The manifest may be behind the file, but not about the envelope.
theorem envelope_listed (hm : a.manifest[i]? = some m) : a.envelopes[i]? = some m.envelope := by
  refine getElem?_of_isPrefix h.listed_isPrefix ?_
  rw [getElem?_map, hm, Option.map_some]

theorem refresh (hi : i < a.manifest.length) (hs : a.sealed[i]? = some seg) :
    Tiles first mid { a with manifest := a.manifest.set i (.of seg) } := by
  have he := h.envelope_listed (getElem?_eq_getElem hi)
  rw [envelopes, getElem?_map, hs, Option.map_some, Option.some_inj] at he
  have hsame : (a.manifest.set i (.of seg)).map envelope = a.manifest.map envelope := by
    rw [map_set, he, ←map_set, set_getElem_self]
  exact { h with listed := hsame.trans h.listed }

end Tiles

theorem Step.tiles (h : Tiles first mid a) (e : Step a b) : ∃ mid', Tiles first mid' b := by
  cases e with
  | append ev hs _ => exact ⟨_, h.append hs⟩
  | flush n _ hn hp => exact ⟨_, h.flush hn hp⟩
  | commit n hd ht _ => exact ⟨_, h.commit hd ht⟩
  | finalize hl hp ha => exact ⟨_, h.finalize hl hp ha⟩
  | publish seg hr hs => exact ⟨_, h.publish hr hs⟩
  | bump hr => exact ⟨_, h.bump hr⟩
  | rewrite i seg drop dids _ hs => exact ⟨_, h.rewrite hs drop dids⟩
  | refresh i seg hi hs => exact ⟨_, h.refresh hi hs⟩

end

end Archive
end Jetstream.Subscribe
