import HypercertsRelay.Jetstream.Compaction.Basic

namespace Jetstream.Compaction

open List
open Tombstone

def rowSet (segs : List (Segment g)) : Set Event :=
  { ev | ∃ s ∈ segs, ev ∈ s.rows }

-- Envelopes of segments with rows are disjoint and ascending. Those of emptied ones do not matter.
def Below (a b : Segment g) : Prop :=
  a.rows ≠ [] → b.rows ≠ [] → a.header.maxSeq < b.header.minSeq

def Ascending (segs : List (Segment g)) : Prop :=
  segs.Pairwise Below

section Target

theorem foldl_raiseTarget (headers : List Header) (n : ℕ) :
    (∀ h ∈ headers, 0 < h.eventCount → h.maxSeq ≤ headers.foldl raiseTarget n) ∧
    n ≤ headers.foldl raiseTarget n ∧
    (headers.foldl raiseTarget n = n ∨
      ∃ h ∈ headers, 0 < h.eventCount ∧ h.maxSeq = headers.foldl raiseTarget n) := by
  induction headers generalizing n with
  | nil => simp
  | cons h headers ih =>
    have ⟨hmem, hle, heq⟩ := ih (raiseTarget n h)
    simp only [foldl_cons, forall_mem_cons, exists_mem_cons_iff]
    have hn : n ≤ raiseTarget n h := by simp only [raiseTarget]; split <;> omega
    have hh (hp : 0 < h.eventCount) : h.maxSeq ≤ raiseTarget n h := by
      simp only [raiseTarget]; split <;> omega
    refine ⟨⟨fun hp => (hh hp).trans hle, hmem⟩, hn.trans hle, ?_⟩
    cases heq with
    | inr heq => exact .inr (.inr heq)
    | inl heq =>
      rw [heq]
      simp only [raiseTarget]
      split
      case isTrue hc => exact .inr (.inl ⟨hc.left, rfl⟩)
      · exact .inl rfl

theorem eventCount_pos (s : Segment g) : 0 < s.header.eventCount ↔ s.rows ≠ [] := by
  simp [s.eventCount_eq, length_pos_iff]

theorem maxSeq_le_target (hs : s ∈ segs) (hne : s.rows ≠ []) :
    s.header.maxSeq ≤ (listSealedCompactionSegments segs).2 :=
  (foldl_raiseTarget _ 0).left _ (mem_map.mpr ⟨s, hs, rfl⟩) ((eventCount_pos s).mpr hne)

theorem exists_maxSeq_eq_target (segs : List (Segment g))
    (h : 0 < (listSealedCompactionSegments segs).2) :
    ∃ s ∈ segs, s.rows ≠ [] ∧ s.header.maxSeq = (listSealedCompactionSegments segs).2 := by
  obtain h' | h' := (foldl_raiseTarget (segs.map (·.header)) 0).right.right
  · exact absurd h' (ne_of_gt h)
  · have ⟨hd, hmem, hpos, heq⟩ := h'
    have ⟨s, hs, hsd⟩ := mem_map.mp hmem
    subst hsd
    exact ⟨s, hs, (eventCount_pos s).mp hpos, heq⟩

end Target

-- A set of rows holds fewer tombstones than the cap, even if some more rows are added to it.
def UnderCap (c : Codec) (cap : ℕ) (E : Set Event) : Prop :=
  ∃ (snap : Snapshot) (E' : Set Event), E ⊆ E' ∧ snap.Tracks c E' ∧ snap.length < cap

theorem UnderCap.subset (h : UnderCap c cap E') (hs : E ⊆ E') : UnderCap c cap E :=
  have ⟨snap, F, hF, ht, hl⟩ := h
  ⟨snap, F, hs.trans hF, ht, hl⟩

section Blocks

variable (watermark target : ℕ)

theorem collectBlock_tracks (h : snap.Tracks c E) (hd : ∀ ev ∈ b.events, Decodable c ev) :
    ∃ snap', collectBlock c watermark target snap b = .ok snap' ∧
      snap'.Tracks c (E ∪ window { ev | ev ∈ b.events } watermark target) := by
  by_cases hb : b.info.maxSeq ≤ watermark ∨ target < b.info.minSeq
  · have hw : window { ev | ev ∈ b.events } watermark target = ∅ := by
      ext ev
      have := b.covers ev
      simp [window]
      grind
    exact ⟨snap, if_pos hb, by simpa [hw] using h⟩
  · obtain ⟨part, hp, ht⟩ := foldRange_tracks watermark target hd
    refine ⟨snap.merge part, by rw [collectBlock, if_neg hb, hp]; rfl, h.merge ht ?_⟩
    intro ev hev
    exact Nat.zero_lt_of_lt hev.right.left

theorem collectBlocks_tracks {blocks : List Block} (h : snap.Tracks c E)
    (hd : ∀ b ∈ blocks, ∀ ev ∈ b.events, Decodable c ev) :
    ∃ snap', blocks.foldlM (collectBlock c watermark target) snap = .ok snap' ∧
      snap'.Tracks c (E ∪ window { ev | ∃ b ∈ blocks, ev ∈ b.events } watermark target) := by
  induction blocks generalizing snap E with
  | nil => exact ⟨snap, rfl, by simpa [window] using h⟩
  | cons b blocks ih =>
    obtain ⟨snap₁, hs₁, ht₁⟩ := collectBlock_tracks watermark target h (hd b (.head _))
    obtain ⟨snap₂, hs₂, ht₂⟩ := ih ht₁ fun b' hb' => hd b' (.tail _ hb')
    refine ⟨snap₂, by rw [foldlM_cons, hs₁]; exact hs₂, ?_⟩
    convert ht₂ using 1
    ext ev
    simp [window]
    grind

end Blocks

-- A window that is cut off at a segment contains nothing of the segments behind it.
section Files

variable {watermark target cap : ℕ} {f : Header × Segment g}

def fileRows (fs : Files g) : Set Event :=
  { ev | ∃ f ∈ fs, ev ∈ f.2.rows }

-- The headers agree with the envelopes on disk, and no segment with rows is above the target.
structure FilesOk (c : Codec) (target : ℕ) (fs : Files g) : Prop where
  ascending : fs.Pairwise fun f f' => Below f.2 f'.2
  minSeq : ∀ f ∈ fs, f.1.minSeq = f.2.header.minSeq
  maxSeq : ∀ f ∈ fs, f.1.maxSeq = f.2.header.maxSeq
  target : ∀ f ∈ fs, f.2.rows ≠ [] → f.2.header.maxSeq ≤ target
  decodable : ∀ f ∈ fs, ∀ ev ∈ f.2.rows, Decodable c ev

theorem FilesOk.tail (h : FilesOk c target (f :: fs)) : FilesOk c target fs where
  ascending := h.ascending.of_cons
  minSeq := fun f' hf' => h.minSeq f' (.tail _ hf')
  maxSeq := fun f' hf' => h.maxSeq f' (.tail _ hf')
  target := fun f' hf' => h.target f' (.tail _ hf')
  decodable := fun f' hf' => h.decodable f' (.tail _ hf')

-- The result of collecting over `fs`, when the rows in `P` were collected before.
structure Collected (c : Codec) (watermark target cap : ℕ) (P : Set Event) (fs : Files g)
    (snap : Snapshot) (chunkEnd : ℕ) : Prop where
  tracks : snap.Tracks c (window (P ∪ fileRows fs) watermark chunkEnd)
  le : chunkEnd ≤ target
  cut : chunkEnd = target ∨ ∃ f ∈ fs, f.2.rows ≠ [] ∧ f.2.header.maxSeq = chunkEnd ∧
    watermark < chunkEnd ∧ cap ≤ snap.length
  underCap : ∀ f ∈ fs, f.2.rows ≠ [] → watermark < f.2.header.maxSeq → f.2.header.maxSeq < chunkEnd →
    UnderCap c cap (window (P ∪ fileRows fs) watermark f.2.header.maxSeq)

theorem FilesOk.maxSeq_lt (h : FilesOk c target (f :: fs))
    (hne : f.2.rows ≠ []) (hev : ev ∈ fileRows fs) : f.2.header.maxSeq < ev.seq :=
  have ⟨f', hf', hr⟩ := hev
  have hb := (pairwise_cons.mp h.ascending).left f' hf' hne (ne_nil_of_mem hr)
  hb.trans_le (f'.2.covers_rows hr).left

theorem fileRows_cons (f : Header × Segment g) (fs : Files g) (P : Set Event) :
    P ∪ fileRows (f :: fs) = P ∪ { ev | ev ∈ f.2.rows } ∪ fileRows fs := by
  ext ev
  simp [fileRows, or_assoc]

-- The rows that precede the segments in `fs`, in the order of the sequence numbers.
def Precedes (P : Set Event) (fs : Files g) : Prop :=
  ∀ ev ∈ P, ∀ f ∈ fs, f.2.rows ≠ [] → ev.seq < f.2.header.minSeq

theorem Precedes.cons (hP : Precedes P (f :: fs)) (h : FilesOk c target (f :: fs)) :
    Precedes (P ∪ { ev | ev ∈ f.2.rows }) fs := by
  intro ev hev f' hf' hne
  obtain hev | hev := hev
  · exact hP ev hev f' (.tail _ hf') hne
  · have hb := (pairwise_cons.mp h.ascending).left f' hf' (ne_nil_of_mem hev) hne
    exact (f.2.covers_rows hev).right.trans_lt hb

-- Up to the end of a segment that has rows, the rows behind it are out of sight.
theorem window_maxSeq
    (h : FilesOk c target (f :: fs)) (hP : Precedes P (f :: fs)) (hne : f.2.rows ≠ []) :
    window (P ∪ fileRows (f :: fs)) watermark f.2.header.maxSeq =
      window (P ∪ { ev | ev ∈ f.2.rows }) watermark target := by
  have ht := h.target f (.head _) hne
  have ⟨ev₀, hev₀⟩ := exists_mem_of_ne_nil _ hne
  have hcov {ev} (hev : ev ∈ P ∪ { ev | ev ∈ f.2.rows }) : ev.seq ≤ f.2.header.maxSeq := by
    obtain hev | hev := hev
    · have := hP ev hev f (.head _) hne
      have := f.2.covers_rows hev₀
      omega
    · exact (f.2.covers_rows hev).right
  rw [fileRows_cons]
  ext ev
  constructor
  · intro ⟨hev, hlo, hhi⟩
    obtain hev | hev := hev
    · exact ⟨hev, hlo, hhi.trans ht⟩
    · exact absurd hhi (Nat.not_le.mpr (h.maxSeq_lt hne hev))
  · intro ⟨hev, hlo, _⟩
    exact ⟨.inl hev, hlo, hcov hev⟩

-- A segment that is passed over has no rows in the window.
theorem window_skip
    (h : FilesOk c target (f :: fs)) (hs : f.1.maxSeq ≤ watermark ∨ target < f.1.minSeq) :
    window (P ∪ { ev | ev ∈ f.2.rows }) watermark target = window P watermark target := by
  ext ev
  constructor
  · intro ⟨hev, hlo, hhi⟩
    obtain hev | hev := hev
    · exact ⟨hev, hlo, hhi⟩
    · have := f.2.covers_rows hev
      have := h.minSeq f (.head _)
      have := h.maxSeq f (.head _)
      omega
  · exact fun ⟨hev, hw⟩ => ⟨.inl hev, hw⟩

theorem Collected.cons
    (h : Collected c watermark target cap (P ∪ { ev | ev ∈ f.2.rows }) fs snap chunkEnd)
    (hu : f.2.rows ≠ [] → watermark < f.2.header.maxSeq →
      UnderCap c cap (window (P ∪ fileRows (f :: fs)) watermark f.2.header.maxSeq)) :
    Collected c watermark target cap P (f :: fs) snap chunkEnd where
  tracks := fileRows_cons f fs P ▸ h.tracks
  le := h.le
  cut := h.cut.imp_right fun ⟨f', hf', h⟩ => ⟨f', .tail _ hf', h⟩
  underCap := by
    intro f' hf' hne hlo hlt
    cases hf' with
    | head => exact hu hne hlo
    | tail _ hf' => exact fileRows_cons f fs P ▸ h.underCap f' hf' hne hlo hlt

theorem collectCompactionTombstones_spec (hf : FilesOk c target fs)
    (ht : snap.Tracks c (window P watermark target)) (hl : snap.length < cap) (hP : Precedes P fs) :
    ∃ snap' chunkEnd, collectCompactionTombstones c watermark target cap fs snap =
      .ok (snap', chunkEnd) ∧ Collected c watermark target cap P fs snap' chunkEnd := by
  induction fs generalizing snap P with
  | nil =>
    refine ⟨snap, target, rfl, ?_, le_refl _, .inl rfl, by simp⟩
    simpa [fileRows] using ht
  | cons f fs ih =>
    by_cases hs : f.1.maxSeq ≤ watermark ∨ target < f.1.minSeq
    · have ⟨snap', chunkEnd, hc, hcol⟩ := ih hf.tail (by rwa [window_skip hf hs]) hl (hP.cons hf)
      refine ⟨snap', chunkEnd, by simpa [collectCompactionTombstones, hs] using hc, hcol.cons ?_⟩
      intro hne hlo
      have ⟨ev, hev⟩ := exists_mem_of_ne_nil _ hne
      have := f.2.covers_rows hev
      have := hf.target f (.head _) hne
      have := hf.minSeq f (.head _)
      have := hf.maxSeq f (.head _)
      omega
    · have ⟨snap₁, hc₁, ht₁⟩ := collectBlocks_tracks watermark target ht
        fun b hb ev hev => hf.decodable f (.head _) ev (Segment.mem_rows.mpr ⟨b, hb, hev⟩)
      have ht₁ : snap₁.Tracks c (window (P ∪ { ev | ev ∈ f.2.rows }) watermark target) := by
        convert ht₁ using 1
        ext ev
        simp [window, Segment.mem_rows]
        grind
      by_cases hcap : cap ≤ snap₁.length
      · -- A segment without rows cannot be the one at which the cap is met.
        have hne : f.2.rows ≠ [] := by
          intro he
          have := ht₁.length_le ht (by simp [he])
          omega
        have hpos : 0 < cap ∧ cap ≤ snap₁.length := ⟨Nat.zero_lt_of_lt hl, hcap⟩
        have hmax := hf.maxSeq f (.head _)
        refine ⟨snap₁, min f.1.maxSeq target, ?_, ?_⟩
        · rw [collectCompactionTombstones, if_neg hs, hc₁]
          exact if_pos hpos
        rw [hmax, min_eq_left (hf.target f (.head _) hne)]
        constructor
        case tracks => exact window_maxSeq hf hP hne ▸ ht₁
        case le => exact hf.target f (.head _) hne
        case cut => exact .inr ⟨f, .head _, hne, rfl, by omega, hcap⟩
        case underCap =>
          intro f' hf' hne' _ hlt
          cases hf' with
          | head => exact absurd hlt (lt_irrefl _)
          | tail _ hf' =>
            have ⟨ev, hev⟩ := exists_mem_of_ne_nil _ hne'
            have := hf.maxSeq_lt hne ⟨f', hf', hev⟩
            have := f'.2.covers_rows hev
            omega
      · have ⟨snap', chunkEnd, hc, hcol⟩ := ih hf.tail ht₁ (by omega) (hP.cons hf)
        refine ⟨snap', chunkEnd, ?_, hcol.cons fun hne _ => ?_⟩
        · rw [collectCompactionTombstones, if_neg hs, hc₁]
          exact (if_neg fun h => hcap h.right).trans hc
        · exact ⟨snap₁, _, (window_maxSeq hf hP hne).le, ht₁, by omega⟩

end Files

end Jetstream.Compaction
