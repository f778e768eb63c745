import HypercertsRelay.Jetstream.Subscribe.Exact

-- A reader next to a running writer: what it has delivered at any time, and that it gets on.
namespace Jetstream.Subscribe

open Ingest

structure State (g : Gloom) where
  archive : Archive g
  reader : Reader
  history : List Event

-- A read may fail at any point, because of the disk or because its context is done.
def ReaderMoves (s t : State g) : Prop :=
  ∃ r, t = { s with reader := r } ∧
    ((∃ max, s.reader.step s.archive max = some r) ∨ (s.reader.pc ≠ .idle ∧ r = s.reader.fail))

inductive Step : State g → State g → Prop
  | archive :
    s.archive.Step b → Step s { s with archive := b, history := s.history ++ b.rows }
  | reader : ReaderMoves s t → Step s t

theorem Step.elim (e : Step s t) :
    (t.reader = s.reader ∧ s.archive.Step t.archive) ∨ ReaderMoves s t := by
  cases e with
  | archive e => exact .inl ⟨rfl, e⟩
  | reader e => exact .inr e

def system (g : Gloom) (start : ℕ) : System (State g) where
  init s := (∃ first mid, s.archive.Tiles first mid) ∧ s.reader = ⟨start, .idle, [], 0⟩ ∧
    s.history = s.archive.rows
  step := Step

-- A run in which the reader is not starved.
structure Fair (run : ℕ → State g) : Prop where
  step : ∀ i, Step (run i) (run (i + 1))
  moves : ∀ n, ∃ i ≥ n, ReaderMoves (run i) (run (i + 1))

structure Inv (start : ℕ) (s : State g) : Prop where
  tiles : ∃ first mid, s.archive.Tiles first mid
  covered : Covered s.archive s.history
  sound : Sound start s.archive s.history s.reader

theorem Inv.archive (h : Inv start s) (e : s.archive.Step b) :
    Inv start { s with archive := b, history := s.history ++ b.rows } := by
  have ⟨first, mid, ht⟩ := h.tiles
  refine ⟨⟨first, e.tiles ht⟩, List.subset_append_right _ _, ?_⟩
  exact h.sound.evolve (e.evolves ht) (List.subset_append_left _ _)

theorem Inv.reader (h : Inv start s) (e : ReaderMoves s t) :
    Inv start t ∧ t.archive = s.archive ∧ Progress s.archive s.reader t.reader := by
  have ⟨first, mid, ht⟩ := h.tiles
  have ⟨r, hr, hmove⟩ := e
  subst hr
  obtain hm | hm := hmove
  · have ⟨max, hm⟩ := hm
    have ⟨hs, hp⟩ := h.sound.step ht h.covered hm
    exact ⟨⟨h.tiles, h.covered, hs⟩, rfl, hp⟩
  · exact ⟨⟨h.tiles, h.covered, hm.right ▸ h.sound.fail⟩, rfl, .failed hm.right⟩

theorem Inv.step (h : Inv start s) (e : Step s t) : Inv start t := by
  cases e with
  | archive e => exact h.archive e
  | reader e => exact (h.reader e).left

theorem inv_of_reachable (h : (system g start).Reachable s) : Inv start s := by
  refine h.invariant (fun s hi => ?_) fun _ _ _ hs e => hs.step e
  have ⟨ht, hr, hh⟩ := hi
  refine ⟨ht, hh ▸ List.Subset.refl _, ?_⟩
  rw [hr]
  exact ⟨le_rfl, le_max_left _ _, .nil _ _ _, by simp, trivial⟩

-- Each delivered row once and in order, nothing that is not committed, and nothing left out below
-- the cursor that a file still has.
structure Exact (start : ℕ) (s : State g) : Prop where
  ascending : s.reader.delivered.Pairwise (·.seq < ·.seq)
  sound : ∀ ev ∈ s.reader.delivered,
    ev ∈ s.history ∧ start ≤ ev.seq ∧ ev.seq < s.archive.log.durable
  complete : ∀ ev ∈ s.archive.files, start ≤ ev.seq → ev.seq < s.reader.cursor →
    s.reader.delivered.count ev = 1

theorem Inv.exact (h : Inv start s) : Exact start s where
  ascending := h.sound.swept.ascending
  sound ev hev := by
    have hb := h.sound.swept.bounds ev hev
    have hm := h.sound.le_max
    exact ⟨h.sound.known ev hev, hb.left, by omega⟩
  complete ev hev hlo hhi := by
    have hnd : s.reader.delivered.Nodup := by
      refine h.sound.swept.ascending.imp fun {x y} hlt heq => ?_
      rw [heq] at hlt
      exact lt_irrefl _ hlt
    exact List.count_eq_one_of_mem hnd (h.sound.swept.complete ev hev hlo hhi)

section Liveness

variable {run : ℕ → State g} (hf : Fair run) (h0 : Inv start (run 0))

include hf h0

theorem Fair.inv (i : ℕ) : Inv start (run i) := by
  induction i with
  | zero => exact h0
  | succ i ih => exact ih.step (hf.step i)

theorem Fair.durable_le (i : ℕ) : (run 0).archive.log.durable ≤ (run i).archive.log.durable := by
  induction i with
  | zero => exact le_rfl
  | succ i ih =>
    have hi := hf.inv h0 i
    have ⟨_, _, ht⟩ := hi.tiles
    obtain e | e := (hf.step i).elim
    · exact ih.trans (e.right.evolves ht).durable
    · rw [(hi.reader e).right.left]
      exact ih

theorem Fair.terminates : ∃ i, (run i).reader.pc = .idle := by
  have hlt (i : ℕ) (hn : (run i).reader.pc ≠ .idle) (hn' : (run (i + 1)).reader.pc ≠ .idle)
      (e : ReaderMoves (run i) (run (i + 1))) :
      (run (i + 1)).reader.pc.rank < (run i).reader.pc.rank := by
    cases ((hf.inv h0 i).reader e).right.right with
    | failed he => exact absurd (he ▸ rfl) hn'
    | returned he _ _ => exact absurd he hn'
    | waiting _ he _ => exact absurd he hn
    | going _ _ _ hlt => exact hlt
  refine System.eventually_of_rank (·.reader.pc = .idle) (·.reader.pc.rank) hf.moves ?_ hlt
  intro i hn hn'
  obtain e | e := (hf.step i).elim
  · exact e.left ▸ le_refl _
  · exact (hlt i hn hn' e).le

-- The cursor comes closer to the row with every read that returns, and every read returns.
def distance (ev : Event) (r : Reader) : ℕ ×ₗ ℕ ×ₗ ℕ :=
  toLex (ev.seq + 1 - r.cursor, r.pc.rank)

theorem Fair.delivers (hok : ∀ i, (run i).reader.failures = (run 0).reader.failures)
    (hdur : ev.seq < (run 0).archive.log.durable) (hstart : start ≤ ev.seq) :
    ∃ i, ev ∈ (run i).reader.delivered ∨ ev ∉ (run i).archive.files := by
  have hlt (i : ℕ) (hn : ¬(ev ∈ (run i).reader.delivered ∨ ev ∉ (run i).archive.files))
      (e : ReaderMoves (run i) (run (i + 1))) :
      distance ev (run (i + 1)).reader < distance ev (run i).reader := by
    have hi := hf.inv h0 i
    have hcur : (run i).reader.cursor ≤ ev.seq := by
      by_contra hc
      push Not at hn hc
      exact hn.left (hi.sound.swept.complete ev hn.right hstart hc)
    have hdur := hdur.trans_le (hf.durable_le h0 i)
    cases (hi.reader e).right.right with
    | failed he =>
      have hfail := (hok (i + 1)).trans (hok i).symm
      rw [he, Reader.fail] at hfail
      exact absurd hfail (Nat.succ_ne_self _)
    | returned _ hc _ => exact Prod.Lex.toLex_lt_toLex.mpr (.inl (by simp only; omega))
    | waiting _ _ hc => omega
    | going _ hc _ hr => exact Prod.Lex.toLex_lt_toLex.mpr (.inr ⟨by simp only [hc], hr⟩)
  refine System.eventually_of_rank
    (fun s => ev ∈ s.reader.delivered ∨ ev ∉ s.archive.files) (fun s => distance ev s.reader)
    hf.moves (fun i hn _ => ?_) (fun i hn _ e => hlt i hn e)
  obtain e | e := (hf.step i).elim
  · exact e.left ▸ le_refl _
  · exact (hlt i hn e).le

end Liveness

theorem Fair.shift (hf : Fair run) (n : ℕ) : Fair fun i => run (n + i) where
  step i := hf.step (n + i)
  moves i := by
    have ⟨j, hj, e⟩ := hf.moves (n + i)
    refine ⟨j - n, by omega, ?_⟩
    rwa [←Nat.add_assoc, Nat.add_sub_cancel' (by omega)]

section Sample

def sampleRow (seq : ℕ) : Event :=
  ⟨seq, .create, "did:a", "c", "k", "r", []⟩

def sampleSegment : Segment .exact :=
  .sealAfterFlush .exact [[sampleRow 1], [sampleRow 2]]

-- Two rows are in a sealed segment and one in the active segment. The window is empty.
def sampleArchive : Archive .exact where
  sealed := [sampleSegment]
  manifest := [.of sampleSegment]
  active := [[sampleRow 3]]
  pending := []
  rotation := .none
  log := newReadableLog 4 0

theorem sampleArchive_tiles : sampleArchive.Tiles 1 3 where
  sealed := ⟨rfl, by decide, rfl⟩
  ascending := by decide
  blocks := by decide
  active := ⟨rfl, trivial⟩
  tip := rfl
  durable := le_rfl
  resident := by decide
  listed := rfl

def sampleReader : ℕ → Reader
  | 0 => ⟨1, .idle, [], 0⟩
  | n + 1 => ((sampleReader n).step sampleArchive 10).getD (sampleReader n)

def sampleRun (n : ℕ) : State .exact :=
  ⟨sampleArchive, sampleReader n, sampleArchive.rows⟩

theorem sampleReader_waits (n : ℕ) : sampleReader (8 + n) = sampleReader 8 := by
  have hwait : (sampleReader 8).step sampleArchive 10 = some (sampleReader 8) := by decide +kernel
  induction n with
  | zero => rfl
  | succ n ih => rw [←Nat.add_assoc, sampleReader, ih, hwait, Option.getD_some]

theorem sampleReader_step (n : ℕ) :
    (sampleReader n).step sampleArchive 10 = some (sampleReader (n + 1)) := by
  have hread : ∀ n < 9, (sampleReader n).step sampleArchive 10 = some (sampleReader (n + 1)) := by
    decide +kernel
  by_cases hn : n < 9
  · exact hread n hn
  · have hw (k : ℕ) (hk : 8 ≤ k) : sampleReader k = sampleReader 8 := by
      rw [←Nat.add_sub_cancel' hk, sampleReader_waits]
    rw [hw n (by omega), hw (n + 1) (by omega), hread 8 (by omega), hw 9 (by omega)]

theorem sampleRun_fair : Fair sampleRun := by
  have hm (n : ℕ) : ReaderMoves (sampleRun n) (sampleRun (n + 1)) :=
    ⟨_, rfl, .inl ⟨10, sampleReader_step n⟩⟩
  exact ⟨fun n => .reader (hm n), fun n => ⟨n, le_rfl, hm n⟩⟩

theorem sampleRun_reachable (n : ℕ) : (system .exact 1).Reachable (sampleRun n) := by
  induction n with
  | zero => exact .init ⟨⟨1, 3, sampleArchive_tiles⟩, rfl, rfl⟩
  | succ n ih => exact ih.step (sampleRun_fair.step n)

end Sample

end Jetstream.Subscribe
