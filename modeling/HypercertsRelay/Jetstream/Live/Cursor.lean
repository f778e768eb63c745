import HypercertsRelay.Library.System

-- The live consumer and the upstream cursor it persists.
namespace Jetstream.Live.Cursor

-- The events of the relay by their seqs, and whether the consumer has a collection policy.
structure Upstream (Did : Type) where
  seqs : Set ℕ
  did : ℕ → Did
  selected : Bool

structure State where
  -- The last seq the stream has read, and the events it has shed.
  received : ℕ
  shed : Finset ℕ
  -- The event the consumer is at, with the rows of it that are still to be appended.
  current : Option (ℕ × ℕ)
  -- Events that are done with; after a restart, those that are not asked for again.
  done : Finset ℕ
  -- The events of the rows that are not durable yet.
  buffered : List ℕ
  processedUpstream : ℕ
  -- The cursor that goes with a block whose rows are durable already.
  sample : Option ℕ
  cursor : ℕ

variable (U : Upstream Did)

-- Every event up to the seq is done.
def Covers (s : State) (c : ℕ) : Prop :=
  ∀ e ∈ U.seqs, e ≤ c → e ∈ s.done

-- The stream has read the event, and it is being verified or processed.
def InFlight (s : State) (e : ℕ) : Prop :=
  e ∈ U.seqs ∧ e ≤ s.received ∧ e ∉ s.shed ∧ e ∉ s.done

-- Events of one account come in their order, those of different accounts as they are verified.
-- `rows` is how many rows of the event are selected.
inductive Step : State → State → Prop where
  | receive (seq : ℕ) : seq ∈ U.seqs → s.received < seq →
    (∀ e ∈ U.seqs, s.received < e → seq ≤ e) → Step s { s with received := seq }
  -- One account has too many events that wait for their verification.
  | shed : InFlight U s seq → (∀ rows, s.current ≠ some (seq, rows)) →
    Step s { s with shed := insert seq s.shed }
  | yield (seq rows : ℕ) : s.current = none → InFlight U s seq →
    (∀ e, InFlight U s e → U.did e = U.did seq → seq ≤ e) →
    Step s { s with current := some (seq, rows) }
  | append {seq rows} : s.current = some (seq, rows + 1) →
    Step s { s with current := some (seq, rows), buffered := seq :: s.buffered }
  | process {seq} : s.current = some (seq, 0) →
    Step s { s with
      current := none
      done := insert seq s.done
      processedUpstream := max s.processedUpstream seq }
  -- Invalid, stale and replayed events, and the ones a snapshot takes care of.
  | skip {seq} : s.current = some (seq, 0) →
    Step s { s with current := none, done := insert seq s.done }
  -- A block becomes durable. Without a policy the sample is the watermark of the stream, behind
  -- every event in flight. It passes those that were shed.
  | flush : U.selected → Step s { s with
      buffered := [], sample := some s.processedUpstream }
  | flushWatermark {c} : ¬U.selected → c ≤ s.received →
    (∀ e, InFlight U s e → c < e) → Step s { s with buffered := [], sample := some c }
  | commit {c} : s.sample = some c →
    Step s { s with sample := none, cursor := if c = 0 then s.cursor else c }
  -- The stream goes on from the cursor.
  | crash : Step s { s with
      received := s.cursor
      shed := s.shed.filter (· ≤ s.cursor)
      current := none
      done := s.done.filter (· ≤ s.cursor)
      buffered := []
      processedUpstream := s.cursor
      sample := none }

def system : System State where
  init s := s = ⟨0, ∅, none, ∅, [], 0, none, 0⟩ ∧ 0 ∉ U.seqs
  step := Step U

-- Nothing up to the seq is left to do or only in memory.
def Resumable (s : State) (c : ℕ) : Prop :=
  ∀ e ∈ U.seqs, e ≤ c → e ∈ s.done ∧ e ∉ s.buffered

-- With a policy, an event is taken up only when all before it are done. Without one, no event is
-- shed.
structure Careful (s s' : State) : Prop where
  inOrder : U.selected → s.current = none → ∀ seq rows, s'.current = some (seq, rows) →
    ∀ e ∈ U.seqs, e < seq → e ∈ s.done
  kept : ¬U.selected → s'.shed = ∅

structure Inv (s : State) : Prop where
  current : ∀ seq rows, s.current = some (seq, rows) → seq ∉ s.done ∧
    (U.selected → ∀ e ∈ U.seqs, e < seq → e ∈ s.done)
  kept : ¬U.selected → s.shed = ∅
  processed : U.selected → Covers U s s.processedUpstream
  sample : ∀ c, s.sample = some c → Resumable U s c
  cursor : Resumable U s s.cursor

variable {U}

theorem Covers.insert (h : Covers U s c) (ht : t.done = insert seq s.done) : Covers U t c := by
  intro e he hle
  rw [ht]
  exact Finset.mem_insert_of_mem (h e he hle)

theorem Resumable.insert (h : Resumable U s c)
    (ht : t.done = Insert.insert seq s.done) (hb : t.buffered = s.buffered) :
    Resumable U t c := by
  intro e he hle
  have ⟨hd, hn⟩ := h e he hle
  rw [ht, hb]
  exact ⟨Finset.mem_insert_of_mem hd, hn⟩

theorem Resumable.of_covers (h : Covers U s c) (ht : t.done = s.done)
    (hb : t.buffered = []) : Resumable U t c := by
  intro e he hle
  rw [ht, hb]
  exact ⟨h e he hle, nofun⟩

theorem Resumable.covers (h : Resumable U s c) : Covers U s c :=
  fun e he hle => (h e he hle).left

namespace Inv

-- The row of an event that is not done is none of those the cursors cover.
theorem append (h : Inv U s) (hc : s.current = some (seq, rows + 1)) :
    Inv U { s with current := some (seq, rows), buffered := seq :: s.buffered } := by
  have ⟨hnew, hbefore⟩ := h.current _ _ hc
  have hkeep {c} (hr : Resumable U s c) :
      Resumable U { s with current := some (seq, rows), buffered := seq :: s.buffered } c := by
    intro e he hle
    have ⟨hd, hn⟩ := hr e he hle
    refine ⟨hd, fun hmem => ?_⟩
    obtain rfl | hmem := List.mem_cons.mp hmem
    · exact hnew hd
    · exact hn hmem
  refine ⟨fun seq' rows' hc' => ?_, h.kept, h.processed, fun c hs => hkeep (h.sample c hs),
    hkeep h.cursor⟩
  injection hc' with hc'
  injection hc' with hseq _
  exact hseq ▸ ⟨hnew, hbefore⟩

theorem process (h : Inv U s) (hc : s.current = some (seq, 0)) : Inv U { s with
      current := none
      done := insert seq s.done
      processedUpstream := max s.processedUpstream seq } := by
  refine ⟨nofun, h.kept, fun hsel e he hle => ?_, fun c hs => (h.sample c hs).insert rfl rfl,
    h.cursor.insert rfl rfl⟩
  have ⟨_, hbefore⟩ := h.current _ _ hc
  rcases lt_trichotomy e seq with hlt | rfl | hgt
  · exact Finset.mem_insert_of_mem (hbefore hsel e he hlt)
  · exact Finset.mem_insert_self ..
  · have hle : e ≤ s.processedUpstream := (le_max_iff.mp hle).resolve_right hgt.not_ge
    exact Finset.mem_insert_of_mem (h.processed hsel e he hle)

theorem flush (h : Inv U s) (hc : Covers U s c) :
    Inv U { s with buffered := [], sample := some c } := by
  refine ⟨h.current, h.kept, h.processed, fun c' hs => ?_,
    Resumable.of_covers h.cursor.covers rfl rfl⟩
  rw [←Option.some.inj hs]
  exact Resumable.of_covers hc rfl rfl

-- What the watermark has passed is done, as nothing was shed.
theorem covers_watermark (h : Inv U s) (hsel : ¬U.selected) (hc : c ≤ s.received)
    (hflight : ∀ e, InFlight U s e → c < e) : Covers U s c := by
  intro e he hle
  by_contra hd
  have hshed : e ∉ s.shed := by simp [h.kept hsel]
  exact hle.not_gt (hflight e ⟨he, hle.trans hc, hshed, hd⟩)

theorem crash (h : Inv U s) : Inv U { s with
    received := s.cursor
    shed := s.shed.filter (· ≤ s.cursor)
    current := none
    done := s.done.filter (· ≤ s.cursor)
    buffered := []
    processedUpstream := s.cursor
    sample := none } := by
  have hdone {e} (he : e ∈ U.seqs) (hle : e ≤ s.cursor) : e ∈ s.done.filter (· ≤ s.cursor) :=
    Finset.mem_filter.mpr ⟨(h.cursor e he hle).left, hle⟩
  exact ⟨nofun, fun hsel => by simp [h.kept hsel], fun _ _ he hle => hdone he hle, nofun,
    fun _ he hle => ⟨hdone he hle, nofun⟩⟩

theorem step (h : Inv U s) (hcare : Careful U s s') (e : Step U s s') : Inv U s' := by
  cases e with
  | receive => exact { h with }
  | shed => exact { h with kept := hcare.kept }
  | yield seq rows hnone hflight _ =>
    refine { h with current := fun seq' rows' hc => ?_ }
    have hbefore := fun hsel => hcare.inOrder hsel hnone seq' rows' hc
    injection hc with hc
    injection hc with hseq _
    subst hseq
    exact ⟨hflight.right.right.right, hbefore⟩
  | append hc => exact h.append hc
  | process hc => exact h.process hc
  | skip hc =>
    exact ⟨nofun, h.kept, fun hsel => (h.processed hsel).insert rfl,
      fun c hs => (h.sample c hs).insert rfl rfl, h.cursor.insert rfl rfl⟩
  | flush hsel => exact h.flush (h.processed hsel)
  | flushWatermark hsel hc hflight => exact h.flush (h.covers_watermark hsel hc hflight)
  | @commit c hs =>
    refine { h with sample := nofun, cursor := ?_ }
    by_cases hzero : c = 0
    · simp only [hzero, if_true]
      exact h.cursor
    · simp only [hzero, if_false]
      exact h.sample c hs
  | crash => exact h.crash

end Inv

theorem cursor_resumable (h : ((system U).restrict (Careful U)).Reachable s) :
    Resumable U s s.cursor := by
  suffices hinv : Inv U s from hinv.cursor
  refine h.invariant (P := Inv U) (fun s hi => ?_) fun s s' _ hinv e => ?_
  case refine_2 => exact hinv.step e.right e.left
  obtain ⟨rfl, hzero⟩ := hi
  have hnone {e} (he : e ∈ U.seqs) : ¬e ≤ 0 := fun hle => hzero (Nat.le_zero.mp hle ▸ he)
  exact ⟨nofun, fun _ => rfl, fun _ _ he hle => absurd hle (hnone he), nofun,
    fun _ he hle => absurd hle (hnone he)⟩

section Sample

-- One event of each of two accounts.
def sampleUpstream (selected : Bool) : Upstream Bool where
  seqs := { seq | seq = 1 ∨ seq = 2 }
  did seq := seq = 1
  selected := selected

theorem sampleUpstream_zero (selected : Bool) : 0 ∉ (sampleUpstream selected).seqs := by
  simp [sampleUpstream]

-- The two accounts do not wait for each other.
theorem sample_yield {selected} (he : e = 1 ∨ e = 2) :
    ∀ e', InFlight (sampleUpstream selected) s e' →
      (sampleUpstream selected).did e' = (sampleUpstream selected).did e → e ≤ e' := by
  rintro e' ⟨rfl | rfl, _⟩ hdid <;> obtain rfl | rfl := he <;> simp_all [sampleUpstream]

-- Without a policy: the second event is done first, and the watermark waits for the first one.
theorem cursor_resumable_sample : ∃ s, ((system (sampleUpstream false)).restrict
    (Careful (sampleUpstream false))).Reachable s ∧ s.cursor = 2 ∧
    Resumable (sampleUpstream false) s s.cursor := by
  have hcare {s s'} (h : s'.shed = ∅) : Careful (sampleUpstream false) s s' :=
    ⟨nofun, fun _ => h⟩
  have h := System.Reachable.step (.init ⟨rfl, sampleUpstream_zero false⟩)
    (S := (system (sampleUpstream false)).restrict (Careful (sampleUpstream false)))
    ⟨.receive 1 (.inl rfl) (by decide) fun _ _ hlt => hlt, hcare rfl⟩
  have h := h.step ⟨.receive 2 (.inr rfl) (by decide) fun _ _ hlt => hlt, hcare rfl⟩
  have h := h.step ⟨.yield 2 1 rfl ⟨.inr rfl, by decide⟩ (sample_yield (.inr rfl)), hcare rfl⟩
  have h := h.step ⟨.append rfl, hcare rfl⟩
  have h := h.step ⟨.process rfl, hcare rfl⟩
  have h := h.step ⟨.yield 1 1 rfl ⟨.inl rfl, by decide⟩ (sample_yield (.inl rfl)), hcare rfl⟩
  have h := h.step ⟨.append rfl, hcare rfl⟩
  have h := h.step ⟨.process rfl, hcare rfl⟩
  have h := h.step ⟨.flushWatermark (c := 2) nofun (by decide) (by
    rintro e ⟨rfl | rfl, _, _, hd⟩ <;> exact absurd (by decide) hd), hcare rfl⟩
  have h := h.step ⟨.commit rfl, hcare rfl⟩
  exact ⟨_, h, rfl, cursor_resumable h⟩

-- The second event is verified first, and its cursor passes the first one.
theorem cursor_not_resumable : ∃ s, (system (sampleUpstream true)).Reachable s ∧
    ¬Resumable (sampleUpstream true) s s.cursor := by
  have h := System.Reachable.step (.init ⟨rfl, sampleUpstream_zero true⟩)
    (S := system (sampleUpstream true)) (.receive 1 (.inl rfl) (by decide) fun _ _ hlt => hlt)
  have h := h.step (.receive 2 (.inr rfl) (by decide) fun _ _ hlt => hlt)
  have h := h.step (.yield 2 1 rfl ⟨.inr rfl, by decide⟩ (sample_yield (.inr rfl)))
  have h := h.step (.append rfl)
  have h := h.step (.process rfl)
  have h := h.step (.flush rfl)
  have h := h.step (.commit rfl)
  refine ⟨_, h, fun hr => ?_⟩
  exact absurd (hr 1 (.inl rfl) (by decide)).left (by decide)

end Sample

end Jetstream.Live.Cursor
