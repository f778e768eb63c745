import HypercertsRelay.Jetstream.Compaction.Collect

namespace Jetstream.Compaction

open List
open Tombstone Prod.Lex
open Option (some_inj)

-- Compaction can be started: everything superseded up to the stored watermark is gone.
structure Archive (cfg : Config) where
  segs : List (Segment cfg.gloom)
  watermark : Option ℕ
  ascending : Ascending segs
  did_ne : ∀ ev ∈ rowSet segs, ev.did ≠ ""
  decodable : ∀ ev ∈ rowSet segs, Decodable cfg.codec ev
  clean : ∀ ev ∈ rowSet segs,
    ¬(superseding cfg.codec).Superseded (rowSet segs) (watermark.getD 0) ev

namespace Archive

def rows (A : Archive cfg) : List Event :=
  A.segs.flatMap (·.rows)

def target (A : Archive cfg) : ℕ :=
  (listSealedCompactionSegments A.segs).2

-- The state a compactor is started in.
def initial (A : Archive cfg) : State cfg.gloom where
  segs := A.segs
  watermark := A.watermark
  phase := .idle

def system (A : Archive cfg) : System (State cfg.gloom) where
  init := (· = A.initial)
  step := Step cfg

end Archive

def superseded (c : Codec) (rows : List Event) (n : ℕ) (r : Event) : Bool :=
  rows.any fun t => supersedes c t r && t.seq ≤ n

variable {i : ℕ} {g : Gloom}

theorem mem_rowSet {segs : List (Segment g)} : ev ∈ rowSet segs ↔ ev ∈ segs.flatMap (·.rows) := by
  simp [rowSet]

theorem superseded_iff {segs : List (Segment g)} :
    superseded c (segs.flatMap (·.rows)) n r ↔ (superseding c).Superseded (rowSet segs) n r := by
  simp only [superseded, any_eq_true, Bool.and_eq_true, decide_eq_true_eq,
    Superseding.Superseded, mem_rowSet, superseding]

-- A segment after any number of rewrites: the envelope stays, and some of the rows.
structure Shrinks (s₀ s : Segment g) : Prop where
  minSeq : s.header.minSeq = s₀.header.minSeq
  maxSeq : s.header.maxSeq = s₀.header.maxSeq
  rows : ∃ keep : Event → Bool, s.rows = s₀.rows.filter keep

namespace Shrinks

variable {s₀ s s' : Segment g}

theorem refl (s : Segment g) : Shrinks s s :=
  ⟨rfl, rfl, fun _ => true, by simp⟩

section

variable (h : Shrinks s₀ s)

include h

theorem trans (h' : Shrinks s s') : Shrinks s₀ s' where
  minSeq := h'.minSeq.trans h.minSeq
  maxSeq := h'.maxSeq.trans h.maxSeq
  rows :=
    have ⟨p, hp⟩ := h.rows
    have ⟨q, hq⟩ := h'.rows
    ⟨_, by rw [hq, hp, filter_filter]⟩

theorem subset : s.rows ⊆ s₀.rows :=
  have ⟨_, hp⟩ := h.rows
  hp ▸ filter_subset_self _

theorem rows_ne (hne : s.rows ≠ []) : s₀.rows ≠ [] :=
  have ⟨_, hev⟩ := exists_mem_of_ne_nil _ hne
  ne_nil_of_mem (h.subset hev)

-- Which rows are left says all about what was kept.
theorem rows_eq (hp : ∀ ev ∈ s₀.rows, ev ∈ s.rows ↔ p ev) : s.rows = s₀.rows.filter p := by
  have ⟨q, hq⟩ := h.rows
  rw [hq]
  apply filter_congr
  intro ev hev
  have := hp ev hev
  simp only [hq, mem_filter, hev, true_and] at this
  exact Bool.eq_iff_iff.mpr this

end

end Shrinks

structure Shrunk (segs₀ segs : List (Segment g)) : Prop where
  length : segs.length = segs₀.length
  get : ∀ {i : ℕ} {s₀ s}, segs₀[i]? = some s₀ → segs[i]? = some s → Shrinks s₀ s

namespace Shrunk

theorem refl (segs : List (Segment g)) : Shrunk segs segs where
  length := rfl
  get h h' := some_inj.mp (h.symm.trans h') ▸ .refl _

theorem set (h : Shrunk segs₀ segs) (hs : segs[i]? = some s)
    (hs' : Shrinks s s') : Shrunk segs₀ (segs.set i s') where
  length := by simp [h.length]
  get {j t₀ t} ht₀ ht := by
    by_cases hij : i = j
    · subst hij
      have hi : i < segs.length := (List.getElem?_eq_some_iff.mp hs).1
      rw [getElem?_set_self hi, some_inj] at ht
      exact ht ▸ (h.get ht₀ hs).trans hs'
    · rw [getElem?_set_ne hij] at ht
      exact h.get ht₀ ht

theorem exists_origin (h : Shrunk segs₀ segs) (hs : segs[i]? = some s) :
    ∃ s₀, segs₀[i]? = some s₀ ∧ Shrinks s₀ s := by
  have hi : i < segs₀.length := h.length ▸ (List.getElem?_eq_some_iff.mp hs).1
  have hs₀ : segs₀[i]? = some segs₀[i] := getElem?_eq_getElem hi
  exact ⟨_, hs₀, h.get hs₀ hs⟩

theorem ascending (h : Shrunk segs₀ segs) (ha : Ascending segs₀) : Ascending segs := by
  rw [Ascending, pairwise_iff_getElem] at ha ⊢
  intro i j hi hj hij hne hne'
  have hsi := h.get (getElem?_eq_getElem (h.length ▸ hi)) (getElem?_eq_getElem hi)
  have hsj := h.get (getElem?_eq_getElem (h.length ▸ hj)) (getElem?_eq_getElem hj)
  have := ha i j (h.length ▸ hi) (h.length ▸ hj) hij (hsi.rows_ne hne) (hsj.rows_ne hne')
  rwa [hsi.maxSeq, hsj.minSeq]

end Shrunk

section Ascending

theorem Ascending.below (h : Ascending segs) (ha : segs[i]? = some a) (hb : segs[j]? = some b)
    (hij : i < j) : Below a b := by
  have ⟨hi, ha⟩ := List.getElem?_eq_some_iff.mp ha
  have ⟨hj, hb⟩ := List.getElem?_eq_some_iff.mp hb
  exact ha ▸ hb ▸ pairwise_iff_getElem.mp h i j hi hj hij

-- A row belongs to the one segment whose envelope covers it.
theorem Ascending.index_eq (h : Ascending segs) (ha : segs[i]? = some a) (hb : segs[j]? = some b)
    (hev : ev ∈ a.rows) (hev' : ev ∈ b.rows) : i = j := by
  have := a.covers_rows hev
  have := b.covers_rows hev'
  have hne := ne_nil_of_mem hev
  have hne' := ne_nil_of_mem hev'
  by_contra hij
  obtain hij | hij := lt_or_gt_of_ne hij
  · have := h.below ha hb hij hne hne'; omega
  · have := h.below hb ha hij hne' hne; omega

theorem Shrunk.mem_rowSet (h : Shrunk segs₀ segs) (hev : ev ∈ rowSet segs) :
    ∃ (i : ℕ) (s₀ s : Segment g), segs₀[i]? = some s₀ ∧ segs[i]? = some s ∧ Shrinks s₀ s ∧
      ev ∈ s.rows :=
  have ⟨s, hs, hev⟩ := hev
  have ⟨i, hi⟩ := getElem?_of_mem hs
  have ⟨s₀, hs₀, hsh⟩ := h.exists_origin hi
  ⟨i, s₀, s, hs₀, hi, hsh, hev⟩

theorem Shrunk.mem_of_mem (h : Shrunk segs₀ segs) (ha : Ascending segs₀) (hs₀ : segs₀[i]? = some s₀)
    (hs : segs[i]? = some s) (hev : ev ∈ rowSet segs) (hev₀ : ev ∈ s₀.rows) : ev ∈ s.rows := by
  have ⟨j, t₀, t, ht₀, ht, hsh, hevt⟩ := h.mem_rowSet hev
  have hij := ha.index_eq hs₀ ht₀ hev₀ (hsh.subset hevt)
  subst hij
  exact some_inj.mp (ht.symm.trans hs) ▸ hevt

end Ascending

namespace Archive

variable (A : Archive cfg)

abbrev Superseded (n : ℕ) (r : Event) : Prop :=
  (superseding cfg.codec).Superseded (rowSet A.segs) n r

abbrev Between (segs : List (Segment cfg.gloom)) (lo hi : ℕ) : Prop :=
  (superseding cfg.codec).Between (rowSet A.segs) (rowSet segs) lo hi

variable {A} {segs : List (Segment cfg.gloom)}

-- Nothing is above the topmost row of the segment that sets the target.
theorem not_superseded_top (hs : A.segs[i]? = some s) (hmax : s.header.maxSeq = A.target)
    (hr : r ∈ s.rows) (htop : ∀ ev ∈ s.rows, ev.seq ≤ r.seq) (n : ℕ) : ¬A.Superseded n r := by
  intro ⟨t, ⟨s', hs', ht⟩, hsup, _⟩
  have hlt : r.seq < t.seq := (superseding cfg.codec).lt hsup
  have hne : s.rows ≠ [] := ne_nil_of_mem hr
  have hne' : s'.rows ≠ [] := ne_nil_of_mem ht
  have := s.covers_rows hr
  have := s'.covers_rows ht
  have : s'.header.maxSeq ≤ A.target := maxSeq_le_target hs' hne'
  have ⟨j, hj⟩ := getElem?_of_mem hs'
  rcases lt_trichotomy i j with h | h | h
  · have := A.ascending.below hs hj h hne hne'
    omega
  · subst h
    exact absurd (htop t (some_inj.mp (hj.symm.trans hs) ▸ ht)) (Nat.not_le.mpr hlt)
  · have := A.ascending.below hj hs h hne' hne
    omega

theorem target_le_of_mem (h : Shrunk A.segs segs)
    (hs : s ∈ segs) (hne : s.rows ≠ []) : s.header.maxSeq ≤ A.target :=
  have ⟨_, hi⟩ := getElem?_of_mem hs
  have ⟨_, hs₀, hsh⟩ := h.exists_origin hi
  hsh.maxSeq ▸ maxSeq_le_target (mem_of_getElem? hs₀) (hsh.rows_ne hne)

-- A pass that is started over on a partly rewritten archive has the same target.
theorem target_eq (h : Shrunk A.segs segs)
    (hb : A.Between segs lo hi) : (listSealedCompactionSegments segs).2 = A.target := by
  apply le_antisymm
  · by_contra hlt
    have ⟨s, hs, hne, heq⟩ := exists_maxSeq_eq_target segs (by omega)
    have := target_le_of_mem h hs hne
    omega
  · by_contra hlt
    have ⟨s₀, hs₀, hne, heq⟩ := exists_maxSeq_eq_target A.segs
      (Nat.zero_lt_of_lt (Nat.lt_of_not_le hlt))
    have ⟨i, hi₀⟩ := getElem?_of_mem hs₀
    have ⟨r, hr, htop⟩ := s₀.rows.toFinset.exists_max_image Event.seq (by simpa using hne)
    simp only [mem_toFinset] at hr htop
    have hr' : r ∈ rowSet segs := hb.upper ⟨⟨s₀, hs₀, hr⟩, not_superseded_top hi₀ heq hr htop hi⟩
    have ⟨j, s₁, s, hs₁, hs, hsh, hrs⟩ := h.mem_rowSet hr'
    have hij := A.ascending.index_eq hi₀ hs₁ hr (hsh.subset hrs)
    subst hij
    have := maxSeq_le_target (mem_of_getElem? hs) (ne_nil_of_mem hrs)
    rw [hsh.maxSeq, ←some_inj.mp (hi₀.symm.trans hs₁), heq] at this
    exact hlt this

end Archive

-- `lo` is the stored watermark, and no row was dropped for a tombstone above `hi`. The chunk up to
-- `hi` may have been abandoned halfway; the next attempt cuts no earlier, since with fewer rows the
-- cap is not met earlier.
structure Progress (A : Archive cfg) (segs : List (Segment cfg.gloom))
    (lo hi : ℕ) : Prop where
  shrunk : Shrunk A.segs segs
  between : A.Between segs lo hi
  lo_le : lo ≤ hi
  hi_le : hi ≤ max lo A.target
  lo_ge : A.watermark.getD 0 ≤ lo
  lo_max : lo ≤ max (A.watermark.getD 0) A.target
  underCap : ∀ s ∈ segs, s.rows ≠ [] → lo < s.header.maxSeq → s.header.maxSeq < hi →
    UnderCap cfg.codec cfg.tombstoneCap (window (rowSet segs) lo s.header.maxSeq)

-- The headers the pass works with still tell the envelopes.
structure HeadersOk (headers : List Header) (segs : List (Segment g)) : Prop where
  length : headers.length = segs.length
  get : ∀ {i : ℕ} {h s}, headers[i]? = some h → segs[i]? = some s →
    h.minSeq = s.header.minSeq ∧ h.maxSeq = s.header.maxSeq

def PhaseOk (A : Archive cfg) (segs : List (Segment cfg.gloom)) (lo hi : ℕ) :
    Phase → Prop
  | .idle => True
  | .loop headers target current =>
    HeadersOk headers segs ∧ target = A.target ∧ 0 < target ∧ current = lo ∧ lo ≤ target
  | .rewriting headers target snap chunkEnd pending =>
    HeadersOk headers segs ∧ target = A.target ∧ hi = chunkEnd ∧ lo < hi ∧ hi ≤ target ∧
    (∀ i ∈ pending, i < segs.length) ∧
    (∀ r ∈ rowSet segs, (snap.shouldDrop r).isSome ↔ A.Superseded chunkEnd r) ∧
    ∀ (i : ℕ) (s : Segment cfg.gloom), segs[i]? = some s → i ∉ pending →
      ∀ r ∈ s.rows, ¬A.Superseded chunkEnd r
  | .saving headers target chunkEnd =>
    HeadersOk headers segs ∧ target = A.target ∧ hi = chunkEnd ∧ lo < hi ∧ hi ≤ target ∧
    ∀ r ∈ rowSet segs, ¬A.Superseded chunkEnd r
  | .committed headers target current =>
    HeadersOk headers segs ∧ target = A.target ∧ 0 < lo ∧ current = lo ∧ lo ≤ target ∧ hi = lo
  | .skipped target => target = A.target ∧ target ≤ lo
  | .done target => target = A.target ∧ 0 < target ∧ lo = target

def Inv (A : Archive cfg) (s : State cfg.gloom) : Prop :=
  ∃ hi, Progress A s.segs s.loadWatermark hi ∧ PhaseOk A s.segs s.loadWatermark hi s.phase

section Invariant

variable {A : Archive cfg}

theorem HeadersOk.refl (segs : List (Segment cfg.gloom)) :
    HeadersOk (segs.map (·.header)) segs where
  length := by simp
  get {i h s} hh hs := by
    rw [getElem?_map, hs] at hh
    cases hh
    exact ⟨rfl, rfl⟩

theorem HeadersOk.set (h : HeadersOk headers segs) (hs : segs[i]? = some s) (hs' : Shrinks s s') :
    HeadersOk headers (segs.set i s') where
  length := by simp [h.length]
  get {j hd t} hh ht := by
    by_cases hij : i = j
    · subst hij
      have hi : i < segs.length := (List.getElem?_eq_some_iff.mp hs).1
      rw [getElem?_set_self hi, some_inj] at ht
      subst ht
      rw [hs'.minSeq, hs'.maxSeq]
      exact h.get hh hs
    · rw [getElem?_set_ne hij] at ht
      exact h.get hh ht

theorem HeadersOk.map_snd_zip (h : HeadersOk headers segs) :
    (headers.zip segs).map Prod.snd = segs := by
  rw [List.map_snd_zip]
  exact h.length.ge

theorem Progress.filesOk (h : Progress A segs lo hi)
    (hh : HeadersOk headers segs) : FilesOk cfg.codec A.target (headers.zip segs) := by
  have hmem {f} (hf : f ∈ headers.zip segs) : f.2 ∈ segs :=
    (of_mem_zip hf).right
  have hget {f} (hf : f ∈ headers.zip segs) :
      f.1.minSeq = f.2.header.minSeq ∧ f.1.maxSeq = f.2.header.maxSeq := by
    have ⟨i, hi⟩ := getElem?_of_mem hf
    have hi := getElem?_zip_eq_some.mp hi
    exact hh.get hi.left hi.right
  constructor
  case ascending => exact pairwise_map.mp (hh.map_snd_zip.symm ▸ h.shrunk.ascending A.ascending)
  case minSeq => exact fun f hf => (hget hf).left
  case maxSeq => exact fun f hf => (hget hf).right
  case target => exact fun f hf hne => Archive.target_le_of_mem h.shrunk (hmem hf) hne
  case decodable => exact fun f hf ev hev => A.decodable ev (h.between.subset ⟨f.2, hmem hf, hev⟩)

theorem Progress.collect (h : Progress A segs lo hi)
    (hh : HeadersOk headers segs) (hlo : lo < A.target) (hcap : 0 < cfg.tombstoneCap) :
    ∃ snap chunkEnd, collectCompactionTombstones cfg.codec lo A.target cfg.tombstoneCap
      (headers.zip segs) .empty = .ok (snap, chunkEnd) ∧
      snap.Tracks cfg.codec (window (rowSet segs) lo chunkEnd) ∧
      lo < chunkEnd ∧ hi ≤ chunkEnd ∧ chunkEnd ≤ A.target ∧
      ∀ s ∈ segs, s.rows ≠ [] → lo < s.header.maxSeq → s.header.maxSeq < chunkEnd →
        UnderCap cfg.codec cfg.tombstoneCap (window (rowSet segs) lo s.header.maxSeq) := by
  have hempty : Snapshot.empty.Tracks cfg.codec (window ∅ lo A.target) := by
    simpa [window] using Snapshot.Tracks.empty
  obtain ⟨snap, chunkEnd, hok, hcol⟩ := collectCompactionTombstones_spec (h.filesOk hh) hempty hcap
    fun _ hev => hev.elim
  have hmem {s} (hs : s ∈ segs) : ∃ f ∈ headers.zip segs, f.2 = s := by
    rwa [←hh.map_snd_zip, mem_map] at hs
  have hrows : ∅ ∪ fileRows (headers.zip segs) = rowSet segs := by
    ext ev
    simp only [Set.empty_union]
    constructor
    · rintro ⟨f, hf, hev⟩; exact ⟨f.2, (of_mem_zip hf).right, hev⟩
    · rintro ⟨s, hs, hev⟩; obtain ⟨f, hf, he⟩ := hmem hs; exact ⟨f, hf, he ▸ hev⟩
  have htr := hrows ▸ hcol.tracks
  refine ⟨snap, chunkEnd, hok, htr, ?_, ?_, hcol.le, ?_⟩
  · obtain hc | hc := hcol.cut
    · exact hc ▸ hlo
    · obtain ⟨_, _, _, _, hc, _⟩ := hc; exact hc
  · obtain hc | hc := hcol.cut
    · exact hc ▸ (max_eq_right hlo.le ▸ h.hi_le)
    by_contra hlt
    obtain ⟨f, hf, hne, hmax, hlo, hlen⟩ := hc
    obtain ⟨snap', E, hE, ht', hlen'⟩ := h.underCap f.2 (of_mem_zip hf).right hne
      (hmax ▸ hlo) (hmax ▸ Nat.lt_of_not_le hlt)
    have := htr.length_le ht' (hmax ▸ hE)
    omega
  · intro s hs hne hlo hlt
    obtain ⟨f, hf, he⟩ := hmem hs
    subst he
    exact hrows ▸ hcol.underCap f hf hne hlo hlt

theorem mem_compactionCandidateDIDs (hne : ev.did ≠ "")
    (h : (snap.shouldDrop ev).isSome) : ev.did ∈ compactionCandidateDIDs snap := by
  simp only [compactionCandidateDIDs, mem_dedup, mem_append, mem_filter,
    decide_eq_true hne, and_true, mem_map]
  cases hd : snap.dids.lookup ev.did with
  | some ts => exact .inr (AList.lookup_isSome.mp (by simp [hd]))
  | none =>
    refine .inl ⟨ev.key, AList.lookup_isSome.mp ?_, rfl⟩
    cases hr : snap.records.lookup ev.key with
    | some _ => rfl
    | none => simp [Snapshot.shouldDrop, hd, hr] at h

section Rewrite

theorem rows_rewriteSegment (hd : ∀ ev ∈ s.rows, ev.did ≠ "") :
    (rewriteSegment cfg snap chunkEnd s).rows = s.rows.filter (!dropRow snap chunkEnd ·) := by
  apply s.rows_rewrite
  intro ev hev hdrop hne
  simp only [dropRow, Bool.and_eq_true] at hdrop
  have hmem := mem_compactionCandidateDIDs (hd ev hev) hdrop.right
  simp only [narrowedDIDs] at hne ⊢
  split <;> simp_all

variable (snap chunkEnd) in
theorem shrinks_rewriteSegment (hd : ∀ ev ∈ s.rows, ev.did ≠ "") :
    Shrinks s (rewriteSegment cfg snap chunkEnd s) where
  minSeq := s.rewrite_minSeq _ _
  maxSeq := s.rewrite_maxSeq _ _
  rows := ⟨_, rows_rewriteSegment hd⟩

end Rewrite

theorem mem_rowSet_of_getElem? (hs : segs[i]? = some s) (hev : ev ∈ s.rows) : ev ∈ rowSet segs :=
  ⟨s, mem_of_getElem? hs, hev⟩

theorem rowSet_set_subset (hs : segs[i]? = some s)
    (hs' : Shrinks s s') : rowSet (segs.set i s') ⊆ rowSet segs := by
  intro ev ⟨t, ht, hev⟩
  obtain ht | ht := mem_or_eq_of_mem_set ht
  · exact ⟨t, ht, hev⟩
  · exact mem_rowSet_of_getElem? hs (hs'.subset (ht ▸ hev))

theorem mem_of_not_mem_rowSet_set (hs : segs[i]? = some s)
    (hev : ev ∈ rowSet segs) (hev' : ev ∉ rowSet (segs.set i s')) :
    ev ∈ s.rows ∧ ev ∉ s'.rows := by
  have hi : i < segs.length := (List.getElem?_eq_some_iff.mp hs).1
  have hset : (segs.set i s')[i]? = some s' := getElem?_set_self hi
  refine ⟨?_, fun h => hev' (mem_rowSet_of_getElem? hset h)⟩
  have ⟨t, ht, hevt⟩ := hev
  have ⟨j, hj⟩ := getElem?_of_mem ht
  by_cases hij : i = j
  · subst hij
    exact some_inj.mp (hj.symm.trans hs) ▸ hevt
  · exact absurd (mem_rowSet_of_getElem? (getElem?_set_ne hij ▸ hj) hevt) hev'

theorem Progress.did_ne (h : Progress A segs lo hi)
    (hs : segs[i]? = some s) : ∀ ev ∈ s.rows, ev.did ≠ "" :=
  fun ev hev => A.did_ne ev (h.between.subset (mem_rowSet_of_getElem? hs hev))

theorem Progress.rewrite (h : Progress A segs lo hi) (hs : segs[i]? = some s)
    (hdrop : ∀ r ∈ rowSet segs, (snap.shouldDrop r).isSome ↔ A.Superseded hi r) :
    Progress A (segs.set i (rewriteSegment cfg snap hi s)) lo hi := by
  have hsh := shrinks_rewriteSegment snap hi (h.did_ne hs)
  have hsub := rowSet_set_subset hs hsh
  refine ⟨h.shrunk.set hs hsh, h.between.shrink (le_refl _) hsub ?_, h.lo_le, h.hi_le, h.lo_ge,
    h.lo_max, ?_⟩
  · intro r hr hr'
    have ⟨hrs, hrs'⟩ := mem_of_not_mem_rowSet_set hs hr hr'
    rw [rows_rewriteSegment (h.did_ne hs)] at hrs'
    simp only [mem_filter, hrs, true_and, Bool.not_eq_true', Bool.not_eq_false, dropRow,
      Bool.and_eq_true] at hrs'
    exact (hdrop r hr).mp hrs'.right
  · have hsubw (n : ℕ) : window (rowSet (segs.set i (rewriteSegment cfg snap hi s))) lo n ⊆
        window (rowSet segs) lo n := fun ev ⟨hev, hw⟩ => ⟨hsub hev, hw⟩
    intro t ht hne hlo hlt
    obtain ht | ht := mem_or_eq_of_mem_set ht
    · exact (h.underCap t ht hne hlo hlt).subset (hsubw _)
    · subst ht
      rw [hsh.maxSeq] at hlo hlt ⊢
      exact (h.underCap s (mem_of_getElem? hs) (hsh.rows_ne hne) hlo hlt).subset (hsubw _)

-- A chunk is complete when every segment was visited with its tombstones.
theorem not_superseded_rewriteSegment (hd : ∀ ev ∈ s.rows, ev.did ≠ "")
    (hdrop : ∀ r ∈ s.rows, A.Superseded hi r → (snap.shouldDrop r).isSome) :
    ∀ r ∈ (rewriteSegment cfg snap hi s).rows, ¬A.Superseded hi r := by
  intro r hr hsup
  rw [rows_rewriteSegment hd] at hr
  have ⟨hr, hkeep⟩ := mem_filter.mp hr
  have hle : ¬hi < r.seq := by
    have ⟨t, _, hs, hle⟩ := hsup
    have : r.seq < t.seq := (superseding cfg.codec).lt hs
    have : t.seq ≤ hi := hle
    omega
  simp [dropRow, hle, hdrop r hr hsup] at hkeep

theorem Progress.complete (h : Progress A segs lo hi) (hle : hi ≤ A.target)
    (hc : ∀ r ∈ rowSet segs, ¬A.Superseded hi r) : Progress A segs hi hi where
  shrunk := h.shrunk
  between := h.between.complete hc
  lo_le := le_refl _
  hi_le := hle.trans (le_max_right _ _)
  lo_ge := h.lo_ge.trans h.lo_le
  lo_max := hle.trans (le_max_right _ _)
  underCap := fun _ _ _ hlt hlt' => absurd (hlt.trans hlt') (lt_irrefl _)

theorem Inv.initial (A : Archive cfg) : Inv A A.initial :=
  ⟨A.watermark.getD 0,
    { shrunk := .refl _
      between := Superseding.between_self A.clean
      lo_le := le_refl _
      hi_le := le_max_left _ _
      lo_ge := le_refl _
      lo_max := le_max_left _ _
      underCap := fun _ _ _ hlt hlt' => absurd (hlt.trans hlt') (lt_irrefl _) },
    trivial⟩

theorem Progress.collected (h : Progress A segs lo hi)
    (hph : PhaseOk A segs lo hi (.loop headers A.target lo))
    (htr : snap.Tracks cfg.codec (window (rowSet segs) lo chunkEnd)) (hlo : lo < chunkEnd)
    (hhi : hi ≤ chunkEnd) (hle : chunkEnd ≤ A.target) :
    PhaseOk A segs lo chunkEnd (if snap.isEmpty then .saving headers A.target chunkEnd
        else .rewriting headers A.target snap chunkEnd (List.range segs.length)) := by
  split
  case isTrue he =>
    refine ⟨hph.left, rfl, rfl, hlo, hle, fun r hr hsup => ?_⟩
    have ⟨t, ht, hs, hw⟩ := (h.between.superseded_iff hhi hr).mp hsup
    exact absurd hs (Bool.not_eq_true _ ▸ htr.not_supersedes_of_isEmpty he ⟨ht, hw⟩)
  · refine ⟨hph.left, rfl, rfl, hlo, hle, fun _ => mem_range.mp, fun r hr => ?_,
      fun i seg hi hn => ?_⟩
    · refine htr.shouldDrop_iff.trans <| .trans ?_ (h.between.superseded_iff hhi hr).symm
      exact ⟨fun ⟨t, ht, hs⟩ => ⟨t, ht.left, hs, ht.right⟩, fun ⟨t, ht, hs, hw⟩ => ⟨t, ⟨ht, hw⟩, hs⟩⟩
    · exact absurd (mem_range.mpr (List.getElem?_eq_some_iff.mp hi).1) hn

theorem Progress.rewritten (h : Progress A segs lo hi)
    (hph : PhaseOk A segs lo hi (.rewriting headers target snap hi pending))
    (hget : segs[i]? = some seg) :
    PhaseOk A (segs.set i (rewriteSegment cfg snap hi seg)) lo hi
      (.rewriting headers target snap hi (pending.erase i)) := by
  have ⟨hh, ht, _, hlo, hle, hpend, hdrop, hdone⟩ := hph
  have hsh := shrinks_rewriteSegment snap hi (h.did_ne hget)
  refine ⟨hh.set hget hsh, ht, rfl, hlo, hle, ?_, ?_, ?_⟩
  · exact fun j hj => by simpa using hpend j (mem_of_mem_erase hj)
  · exact fun r hr => hdrop r (rowSet_set_subset hget hsh hr)
  intro j t htj hj
  by_cases hij : i = j
  · subst hij
    rw [getElem?_set_self (List.getElem?_eq_some_iff.mp hget).1, some_inj] at htj
    subst htj
    exact not_superseded_rewriteSegment (h.did_ne hget)
      fun r hr => (hdrop r (mem_rowSet_of_getElem? hget hr)).mpr
  · rw [getElem?_set_ne hij] at htj
    exact hdone j t htj fun hj' => hj ((mem_erase_of_ne (Ne.symm hij)).mpr hj')

section

variable (hcap : 0 < cfg.tombstoneCap)

include hcap

theorem Inv.passStep (h : Inv A s) (e : PassStep cfg s t) : Inv A t := by
  have ⟨hi, hp, hph⟩ := h
  have htarget := Archive.target_eq hp.shrunk hp.between
  cases e with
  | skip hs hl hle =>
    rw [hl] at htarget
    exact ⟨hi, hp, htarget, hle⟩
  | start hs hl hlt =>
    have hh := HeadersOk.refl s.segs
    rw [hl] at htarget
    rw [show s.segs.map (·.header) = _ from congrArg Prod.fst hl] at hh
    exact ⟨hi, hp, hh, htarget, Nat.zero_lt_of_lt hlt, rfl, hlt.le⟩
  | collect hs hlt hok hce =>
    rw [hs] at hph
    have ⟨hh, ht, _, hcur, _⟩ := hph
    subst ht hcur
    have ⟨snap', chunkEnd', hok', htr, hlo, hhi, hle, hu⟩ := hp.collect hh hlt hcap
    rw [hok'] at hok
    cases hok
    rw [if_neg (Nat.not_le.mpr hlo)] at hce
    subst hce
    exact ⟨_, ⟨hp.shrunk, hp.between.mono hhi, hlo.le, hle.trans (le_max_right _ _), hp.lo_ge,
      hp.lo_max, hu⟩, hp.collected hph htr hlo hhi hle⟩
  | collectFailed => exact ⟨hi, hp, trivial⟩
  | rewrite hs hmem hget =>
    rw [hs] at hph
    have ⟨_, _, hce, _, _, _, hdrop, _⟩ := hph
    subst hce
    exact ⟨hi, hp.rewrite hget hdrop, hp.rewritten hph hget⟩
  | applied hs =>
    rw [hs] at hph
    have ⟨hh, ht, hce, hlo, hle, _, _, hdone⟩ := hph
    refine ⟨hi, hp, hh, ht, hce, hlo, hle, fun r ⟨seg, hseg, hr⟩ => ?_⟩
    have ⟨i, hget⟩ := getElem?_of_mem hseg
    exact hdone i seg hget (by simp) r hr
  | save hs =>
    rw [hs] at hph
    have ⟨hh, ht, hce, hlo, hle, hc⟩ := hph
    subst hce
    exact ⟨hi, hp.complete (ht ▸ hle) hc, hh, ht, Nat.zero_lt_of_lt hlo, rfl, hle, rfl⟩
  | next hs =>
    rw [hs] at hph
    have ⟨hh, ht, hpos, hcur, hle, _⟩ := hph
    exact ⟨hi, hp, hh, ht, hpos.trans_le hle, hcur, hle⟩
  | finish hs hle =>
    rw [hs] at hph
    have ⟨_, ht, hpos, hcur, hle'⟩ := hph
    exact ⟨hi, hp, ht, hpos, hle'.antisymm (hcur ▸ hle)⟩

theorem Inv.step (h : Inv A s) : Step cfg s t → Inv A t
  | .pass e => h.passStep hcap e
  | .restart =>
    have ⟨hi, hp, _⟩ := h
    ⟨hi, hp, trivial⟩

theorem Inv.of_reachable (h : A.system.Reachable s) : Inv A s :=
  h.invariant (fun _ hi => hi ▸ .initial A) fun _ _ _ hinv e => hinv.step hcap e

end

-- Between two chunks the rows are exactly those that are not superseded, in their order.
theorem Progress.rows_eq (h : Progress A segs n n) :
    segs.flatMap (·.rows) = A.rows.filter (!superseded cfg.codec A.rows n ·) := by
  have hseg (i : ℕ) : (segs.map (·.rows))[i]? =
      (A.segs.map fun s => s.rows.filter (!superseded cfg.codec A.rows n ·))[i]? := by
    simp only [getElem?_map]
    cases hs : segs[i]? with
    | none =>
      rw [List.getElem?_eq_none_iff, h.shrunk.length, ←List.getElem?_eq_none_iff] at hs
      simp [hs]
    | some s =>
      have ⟨s₀, hs₀, hsh⟩ := h.shrunk.exists_origin hs
      simp only [hs₀, Option.map_some, some_inj]
      apply hsh.rows_eq
      intro ev hev
      have hev₀ : ev ∈ rowSet A.segs := mem_rowSet_of_getElem? hs₀ hev
      rw [Bool.not_eq_true', ←Bool.not_eq_true, Archive.rows, superseded_iff]
      constructor
      · exact fun hev => (h.between.lower (mem_rowSet_of_getElem? hs hev)).right
      · exact fun hn => h.shrunk.mem_of_mem A.ascending hs₀ hs (h.between.upper ⟨hev₀, hn⟩) hev
  rw [flatMap_def, ext_getElem? hseg, ←flatMap_def, Archive.rows, filter_flatMap]

theorem Step.loadWatermark_le (h : Inv A s) (e : Step cfg s t) :
    s.loadWatermark ≤ t.loadWatermark := by
  have ⟨hi, _, hph⟩ := h
  cases e with
  | restart => exact le_refl _
  | pass e => cases e with
    | save hs =>
      rw [hs] at hph
      have ⟨_, _, hce, hlo, _⟩ := hph
      exact hce ▸ hlo.le
    | _ => exact le_refl _

-- Every chunk moves the watermark, every rewrite takes a segment off the list.
def State.measure (target : ℕ) (s : State cfg.gloom) : ℕ ×ₗ ℕ :=
  match s.phase with
  | .idle => toLex (target + 1, 0)
  | .loop .. => toLex (target - s.loadWatermark, s.segs.length + 2)
  | .rewriting _ _ _ _ pending => toLex (target - s.loadWatermark, pending.length + 1)
  | .saving .. => toLex (target - s.loadWatermark, 0)
  | .committed .. => toLex (target - s.loadWatermark, s.segs.length + 3)
  | .skipped _ | .done _ => toLex (0, 0)

section

variable (hcap : 0 < cfg.tombstoneCap)

include hcap

theorem PassStep.measure_lt (h : Inv A s) (e : PassStep cfg s t) :
    t.measure A.target < s.measure A.target := by
  obtain ⟨hi, hp, hph⟩ := h
  cases e with
  | skip hs | start hs =>
    simp only [State.measure, hs, toLex_lt_toLex]
    omega
  | @collect headers target current snap _ _ hs =>
    by_cases he : snap.isEmpty <;> simp [State.measure, hs, he, State.loadWatermark, toLex_lt_toLex]
  | collectFailed hs hlt herr =>
    rw [hs] at hph
    obtain ⟨hh, ht, _, hcur, _⟩ := hph
    subst ht hcur
    obtain ⟨_, _, hok, _⟩ := hp.collect hh hlt hcap
    cases herr.symm.trans hok
  | rewrite hs hmem =>
    have := length_pos_of_mem hmem
    simp only [State.measure, hs, State.loadWatermark, toLex_lt_toLex, length_erase_of_mem hmem]
    exact .inr ⟨trivial, by omega⟩
  | applied hs | next hs => simp [State.measure, hs, State.loadWatermark, toLex_lt_toLex]
  | save hs =>
    rw [hs] at hph
    obtain ⟨_, ht, hce, hlo, hle, _⟩ := hph
    simp only [State.measure, hs, toLex_lt_toLex]
    simp only [State.loadWatermark, Option.getD_some] at hlo ⊢
    omega
  | finish hs => simp [State.measure, hs, toLex_lt_toLex]; omega

-- Left alone, a pass comes to an end.
theorem Inv.acc (h : Inv A s) : Acc (fun t s => PassStep cfg s t) s := by
  induction hm : s.measure A.target using WellFoundedLT.induction generalizing s with
  | _ m ih =>
    subst hm
    exact ⟨_, fun t e => ih _ (e.measure_lt hcap h) (h.passStep hcap e) rfl⟩

-- It does not stop before the loop has ended or was found to be unnecessary.
theorem Inv.exists_passStep (h : Inv A s) :
    (∃ t, PassStep cfg s t) ∨ (∃ target, s.phase = .done target) ∨
      ∃ target, s.phase = .skipped target := by
  have ⟨hi, hp, hph⟩ := h
  cases hs : s.phase with
  | skipped target => exact .inr (.inr ⟨target, rfl⟩)
  | done target => exact .inr (.inl ⟨target, rfl⟩)
  | idle =>
    by_cases hle : (listSealedCompactionSegments s.segs).2 ≤ s.loadWatermark
    · exact .inl ⟨_, .skip hs rfl hle⟩
    · exact .inl ⟨_, .start hs rfl (Nat.lt_of_not_le hle)⟩
  | loop headers target current =>
    rw [hs] at hph
    have ⟨hh, ht, _, hcur, _⟩ := hph
    subst ht hcur
    by_cases hle : A.target ≤ s.loadWatermark
    · exact .inl ⟨_, .finish hs hle⟩
    · have hlt := Nat.lt_of_not_le hle
      have ⟨_, _, hok, _⟩ := hp.collect hh hlt hcap
      exact .inl ⟨_, .collect hs hlt hok rfl⟩
  | rewriting headers target snap chunkEnd pending =>
    rw [hs] at hph
    have ⟨_, _, _, _, _, hpend, _⟩ := hph
    cases pending with
    | nil => exact .inl ⟨_, .applied hs⟩
    | cons i _ => exact .inl ⟨_, .rewrite hs (.head _) (getElem?_eq_getElem (hpend i (.head _)))⟩
  | saving => exact .inl ⟨_, .save hs⟩
  | committed => exact .inl ⟨_, .next hs⟩

theorem Inv.exists_finished (h : Inv A s) : ∃ t, A.system.Runs s t ∧
      ((∃ target, t.phase = .done target) ∨ ∃ target, t.phase = .skipped target) := by
  induction h.acc hcap with
  | intro s _ ih =>
    cases h.exists_passStep hcap with
    | inr hf => exact ⟨s, .refl, hf⟩
    | inl hs =>
      have ⟨t, e⟩ := hs
      have ⟨u, hu, hf⟩ := ih t e (h.passStep hcap e)
      exact ⟨u, .head (.pass e) hu, hf⟩

end

end Invariant

section

variable {A : Archive cfg}

-- No row is above the target, so nothing above it supersedes anything.
theorem Archive.superseded_of_target_le (hn : A.target ≤ n) (r : Event) :
    superseded cfg.codec A.rows n r = superseded cfg.codec A.rows A.target r := by
  apply Bool.eq_iff_iff.mpr
  simp only [rows, superseded_iff]
  refine ⟨fun ⟨t, ⟨s, hs, ht⟩, hsup, _⟩ => ⟨t, ⟨s, hs, ht⟩, hsup, ?_⟩, fun h => h.mono hn⟩
  exact (s.covers_rows ht).right.trans (maxSeq_le_target hs (ne_nil_of_mem ht))

end

-- Compaction converges, whatever is interrupted. A pass that is left alone ends at the target, and
-- at each committed watermark the rows are the original ones without what is superseded. The
-- watermark never moves back, and never past the target.
theorem compaction_converges (A : Archive cfg) (hcap : 1 ≤ cfg.tombstoneCap)
    {s} (h : A.system.Reachable s) :
    (Acc (fun t s => PassStep cfg s t) s ∧ ((∃ t, PassStep cfg s t) ∨
      (∃ target, s.phase = .done target) ∨ ∃ target, s.phase = .skipped target)) ∧
    (∀ target, s.phase = .done target → target = A.target ∧ s.watermark = some target ∧
      s.rows = A.rows.filter (!superseded cfg.codec A.rows target ·)) ∧
    (∀ headers target current, s.phase = .committed headers target current →
      s.watermark = some current ∧
      s.rows = A.rows.filter (!superseded cfg.codec A.rows current ·)) ∧
    (∀ target, s.phase = .skipped target → target = A.target ∧
      s.loadWatermark = max (A.watermark.getD 0) target ∧
      s.rows = A.rows.filter (!superseded cfg.codec A.rows target ·)) ∧
    (s.loadWatermark ≤ max (A.watermark.getD 0) A.target) ∧
    (∀ t, Step cfg s t → s.loadWatermark ≤ t.loadWatermark) := by
  have hinv := Inv.of_reachable hcap h
  have ⟨hi, hp, hph⟩ := hinv
  have hexact (hle : A.target ≤ s.loadWatermark) :
      s.rows = A.rows.filter (!superseded cfg.codec A.rows s.loadWatermark ·) := by
    have hhi : hi = s.loadWatermark := (max_eq_left hle ▸ hp.hi_le).antisymm hp.lo_le
    exact (hhi ▸ hp).rows_eq
  refine ⟨⟨hinv.acc hcap, hinv.exists_passStep hcap⟩, ?_, ?_, ?_, hp.lo_max, fun t e => e.loadWatermark_le hinv⟩
  · intro target hs
    rw [hs] at hph
    have ⟨ht, hpos, hlo⟩ := hph
    exact ⟨ht, s.watermark_eq_some hlo hpos, hlo ▸ hexact (hlo.trans ht).ge⟩
  · intro headers target current hs
    rw [hs] at hph
    have ⟨_, _, hpos, hcur, _, hhi⟩ := hph
    subst hcur hhi
    exact ⟨s.watermark_eq_some rfl hpos, hp.rows_eq⟩
  · intro target hs
    rw [hs] at hph
    have ⟨ht, hle⟩ := hph
    subst ht
    refine ⟨rfl, ?_, ?_⟩
    · have := hp.lo_ge
      have := hp.lo_max
      omega
    · rw [hexact hle]
      simp only [Archive.superseded_of_target_le hle]

-- A record that is created and deleted, with an exact filter for a bloom filter.
def sampleConfig : Config where
  codec := {
    unmarshal := fun _ => .ok (.map [])
    unmarshalAccount := fun _ => .ok { active := false, status := some "deleted" } }
  gloom := .exact
  tombstoneCap := 1
  bloomNarrowMaxDIDs := 0

def sampleCreate : Event where
  seq := 1
  kind := .create
  did := "did:plc:a"
  collection := "app.c"
  rkey := "r"
  rev := "1"
  payload := []

def sampleDelete : Event :=
  { sampleCreate with seq := 2, kind := .delete, rev := "2" }

def sampleSegment : Segment sampleConfig.gloom where
  header := { eventCount := 2, minSeq := 1, maxSeq := 2 }
  blocks := [{
    info := { eventCount := 2, minSeq := 1, maxSeq := 2 }
    events := [sampleCreate, sampleDelete]
    count := rfl
    covers := by decide }]
  bloom := some ["did:plc:a"]
  count := rfl
  covers := by decide
  probes := by
    intro b hb ev hev _ f hf
    cases mem_singleton.mp hb
    cases hf
    have : ∀ ev ∈ [sampleCreate, sampleDelete], ["did:plc:a"].contains ev.did := by decide
    exact this ev hev

def sampleArchive : Archive sampleConfig where
  segs := [sampleSegment]
  watermark := none
  ascending := pairwise_singleton _ _
  did_ne := by simp [mem_rowSet, sampleSegment, Segment.rows, sampleCreate, sampleDelete]
  decodable := by
    intro ev hev
    have hk : ev.kind = .create ∨ ev.kind = .delete := by
      simp only [mem_rowSet, sampleSegment, Segment.rows] at hev
      simp at hev
      obtain h | h := hev
      · exact .inl (h ▸ rfl)
      · exact .inr (h ▸ rfl)
    constructor <;> intro h <;> simp [h] at hk
  clean := by
    intro ev _ ⟨t, ⟨s, hs, ht⟩, _, hle⟩
    cases mem_singleton.mp hs
    have : 1 ≤ t.seq := (sampleSegment.covers_rows ht).left
    exact absurd (this.trans hle) (by decide)

theorem compaction_converges_sample :
    ∃ s, sampleArchive.system.Reachable s ∧ s.loadWatermark = 2 ∧ s.rows = [sampleDelete] := by
  obtain ⟨s, hr, hf⟩ := (Inv.initial sampleArchive).exists_finished (by decide)
  have hs : sampleArchive.system.Reachable s := (System.Reachable.init rfl).runs hr
  obtain ⟨_, hdone, _, hskip, _⟩ := compaction_converges sampleArchive (by decide) hs
  refine ⟨s, hs, ?_⟩
  obtain hf | hf := hf
  · obtain ⟨_, hf⟩ := hf
    obtain ⟨ht, hw, hrows⟩ := hdone _ hf
    subst ht
    exact ⟨by simp [State.loadWatermark, hw]; rfl, hrows.trans (by decide)⟩
  · obtain ⟨_, hf⟩ := hf
    obtain ⟨ht, hw, hrows⟩ := hskip _ hf
    subst ht
    exact ⟨hw.trans (by decide), hrows.trans (by decide)⟩

end Jetstream.Compaction
