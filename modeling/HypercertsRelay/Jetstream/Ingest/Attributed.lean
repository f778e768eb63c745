import HypercertsRelay.Jetstream.Ingest.Attribution

-- Recovery after a crash leaves every durable row with its attribution, and nothing else.
namespace Jetstream.Ingest.Attribution

open List Store
open Option (bind_eq_some_iff)

variable {Body Meta F : Type} [DecidableEq Meta] [DecidableEq F]
variable {fp : Row Body → F}

section MaxSeq

variable {rows : List (Row Body)}

theorem le_maxSeq (h : r ∈ rows) : r.seq ≤ maxSeq rows := by
  induction rows with
  | nil => exact nomatch h
  | cons r' l ih =>
    rcases mem_cons.mp h with rfl | h
    · exact le_max_left _ _
    · exact (ih h).trans (le_max_right _ _)

theorem maxSeq_lt (hn : 0 < n) (h : ∀ r ∈ rows, r.seq < n) : maxSeq rows < n := by
  induction rows with
  | nil => exact hn
  | cons r' l ih =>
    have ⟨hr', hl⟩ := forall_mem_cons.mp h
    exact max_lt hr' (ih hl)

theorem lt_reconciled (seqNext : ℕ) (h : r ∈ rows) : r.seq < max 1 (reconciled rows seqNext) := by
  have hne : rows.isEmpty = false := by
    cases rows with
    | nil => exact nomatch h
    | cons _ _ => rfl
  refine lt_of_lt_of_le ?_ (le_max_right 1 _)
  rw [reconciled, hne]
  exact (Nat.lt_succ_of_le (le_maxSeq h)).trans_le (le_max_right _ _)

end MaxSeq

def Backed (fingerprintSegment : Row Body → F) (rows : List (Row Body)) (p : Prepared Meta F) :
    Prop :=
  ∃ r ∈ rows, r.seq = p.event.seq ∧ fingerprintSegment r = p.segmentFingerprint

omit [DecidableEq Meta] [DecidableEq F] in
theorem Backed.mono (h : Backed fp rows p) (hr : ∀ r ∈ rows, r ∈ rows') : Backed fp rows' p :=
  have ⟨r, hmem, hp⟩ := h
  ⟨r, hr r hmem, hp⟩

-- The committed events are about durable rows, and there is one event for a seq at most.
structure Sound (fingerprintSegment : Row Body → F) (rows : List (Row Body))
    (st : Store Meta F) : Prop where
  backed : ∀ e ∈ st.events, Backed fingerprintSegment rows e
  unique : st.events.Pairwise fun e e' => e.event.seq ≠ e'.event.seq

section Store

variable {st st' : Store Meta F} {ps : List (Prepared Meta F)}

theorem putCoordinate_events (h : st.putCoordinate p = some st') : st'.events = st.events := by
  rw [putCoordinate] at h
  split at h
  · split at h
    · injection h with h; rw [h]
    · exact nomatch h
  · injection h with h; rw [←h]

theorem discardPrepared_events : ((st.discardPrepared p).getD st).events = st.events := by
  rw [discardPrepared]
  split
  · split <;> rfl
  · rfl

section

omit [DecidableEq F]

theorem stagePreparedEntry_eq (h : st.stagePreparedEntry p = some st') :
    st' = { st.deletePrepared p.event.seq with
      events := p :: st.events.filter (·.event.seq ≠ p.event.seq) } := by
  simp only [stagePreparedEntry] at h
  split at h
  · split at h
    · exact (Option.some.inj h).symm
    · exact nomatch h
  · exact (Option.some.inj h).symm

theorem Sound.stage (h : Sound fp rows st)
    (hp : Backed fp rows p) (hst : st.stagePreparedEntry p = some st') :
    Sound fp rows st' := by
  rw [stagePreparedEntry_eq hst]
  refine ⟨forall_mem_cons.mpr ⟨hp, fun e he => h.backed e (mem_filter.mp he).left⟩, ?_⟩
  refine pairwise_cons.mpr ⟨fun e he => ?_, h.unique.filter _⟩
  exact (of_decide_eq_true (mem_filter.mp he).right).symm

theorem Sound.stageAll (h : Sound fp rows st) (hps : ∀ p ∈ ps, Backed fp rows p)
    (hst : ps.foldlM stagePreparedEntry st = some st') :
    Sound fp rows st' := by
  induction ps generalizing st with
  | nil => injection hst with hst; exact hst ▸ h
  | cons p ps ih =>
    have ⟨hp, hps⟩ := forall_mem_cons.mp hps
    have ⟨next, hnext, hst⟩ := bind_eq_some_iff.mp hst
    exact ih (h.stage hp hnext) hps hst

theorem Sound.commitBatch (h : Sound fp rows st)
    (hps : ∀ p ∈ ps, Backed fp rows p) (hst : st.commitBatch ps = some st') :
    Sound fp rows st' := by
  cases ps with
  | nil => exact nomatch hst
  | cons p ps =>
    have ⟨staged, hstaged, hst⟩ := bind_eq_some_iff.mp hst
    have hs := h.stageAll hps hstaged
    injection hst with hst
    exact hst ▸ ⟨hs.backed, hs.unique⟩

theorem Sound.commitDurableBatch (h : Sound fp rows st) (hps : ∀ p ∈ ps, Backed fp rows p)
    (hst : st.commitDurableBatch n ps = some st') : Sound fp rows st' := by
  rw [Store.commitDurableBatch] at hst
  split at hst
  · injection hst with hst
    exact hst ▸ ⟨h.backed, h.unique⟩
  · have ⟨next, hnext, hst⟩ := Option.map_eq_some_iff.mp hst
    have hs := h.commitBatch hps hnext
    exact hst ▸ ⟨hs.backed, hs.unique⟩

-- A batch of one entry removes the preparation it is committed from.
theorem commitBatch_prepared (h : st.commitBatch [p] = some st') :
    st'.prepared = st.prepared.filter (·.event.seq ≠ p.event.seq) := by
  have ⟨staged, hstaged, h⟩ := bind_eq_some_iff.mp h
  have ⟨next, hnext, hstaged⟩ := bind_eq_some_iff.mp hstaged
  injection hstaged with hstaged
  injection h with h
  rw [←h, ←hstaged, stagePreparedEntry_eq hnext]
  rfl

end

theorem recoverEntry_prepared (h : recoverEntry fp rows st p = some st') :
    st'.prepared = st.prepared.filter (·.event.seq ≠ p.event.seq) := by
  rw [recoverEntry] at h
  split at h
  · injection h with h; rw [←h]; rfl
  · split at h
    · exact commitBatch_prepared h
    · exact nomatch h

theorem Sound.recoverEntry (h : Sound fp rows st) (hst : recoverEntry fp rows st p = some st') :
    Sound fp rows st' := by
  rw [Attribution.recoverEntry] at hst
  split at hst
  · injection hst with hst
    exact hst ▸ ⟨h.backed, h.unique⟩
  case h_2 r hr =>
    split at hst
    case isFalse => exact nomatch hst
    case isTrue hf =>
      have hseq : r.seq = p.event.seq := of_decide_eq_true (find?_some hr :)
      refine h.commitBatch (forall_mem_singleton.mpr ?_) hst
      exact ⟨r, mem_of_find?_eq_some hr, hseq, hf⟩

-- The loop keeps the events sound, and what it leaves has a seq it did not come by.
theorem recover_foldlM (h : Sound fp rows st)
    (hst : ps.foldlM (recoverEntry fp rows) st = some st') :
    Sound fp rows st' ∧
      ∀ q ∈ st'.prepared, q ∈ st.prepared ∧ ∀ p ∈ ps, q.event.seq ≠ p.event.seq := by
  induction ps generalizing st with
  | nil =>
    injection hst with hst
    exact hst ▸ ⟨h, fun q hq => ⟨hq, nofun⟩⟩
  | cons p ps ih =>
    have ⟨next, hnext, hst⟩ := bind_eq_some_iff.mp hst
    have ⟨hs, hleft⟩ := ih (h.recoverEntry hnext) hst
    refine ⟨hs, fun q hq => ?_⟩
    have ⟨hq, hps⟩ := hleft q hq
    rw [recoverEntry_prepared hnext] at hq
    have ⟨hq, hne⟩ := mem_filter.mp hq
    exact ⟨hq, forall_mem_cons.mpr ⟨of_decide_eq_true hne, hps⟩⟩

structure Recovered (fingerprintSegment : Row Body → F) (rows : List (Row Body))
    (st : Store Meta F) : Prop extends Sound fingerprintSegment rows st where
  prepared : st.prepared = []
  audited : st.activation ≠ 0 → ∀ r ∈ rows, st.activation ≤ r.seq →
    ∃ e ∈ st.events, e.event.seq = r.seq

theorem Sound.recoverAttributions (h : Sound fp rows st)
    (hst : recoverAttributions fp rows st = some st') :
    Recovered fp rows st' := by
  rw [Attribution.recoverAttributions] at hst
  split at hst
  · exact nomatch hst
  have ⟨recovered, hrec, hst⟩ := bind_eq_some_iff.mp hst
  split at hst
  case isFalse => exact nomatch hst
  case isTrue haudit =>
    injection hst with hst
    subst hst
    have ⟨hs, hleft⟩ := recover_foldlM h hrec
    refine ⟨hs, eq_nil_iff_forall_not_mem.mpr fun q hq => ?_, fun hact r hr hle => ?_⟩
    · have ⟨hq, hne⟩ := hleft q hq
      exact hne q hq rfl
    rw [auditAttributions, Bool.or_eq_true, decide_eq_true_eq, all_eq_true] at haudit
    have hrow := haudit.resolve_left hact r hr
    rw [Bool.or_eq_true, decide_eq_true_eq, any_eq_true] at hrow
    have ⟨e, he, hseq⟩ := hrow.resolve_left (Nat.not_lt.mpr hle)
    exact ⟨e, he, of_decide_eq_true hseq⟩

omit [DecidableEq Meta] [DecidableEq F] in
theorem Sound.of_events (h : Sound fp rows st) (heq : st'.events = st.events) : Sound fp rows st' :=
  ⟨heq ▸ h.backed, heq ▸ h.unique⟩

omit [DecidableEq Meta] [DecidableEq F] in
theorem Sound.mono (h : Sound fp rows st) (hr : ∀ r ∈ rows, r ∈ rows') : Sound fp rows' st :=
  ⟨fun e he => (h.backed e he).mono hr, h.unique⟩

omit [DecidableEq F] in
theorem stageAll_prepared (h : ps.foldlM stagePreparedEntry st = some st') :
    ∀ q ∈ st'.prepared, q ∈ st.prepared := by
  induction ps generalizing st with
  | nil => injection h with h; exact h ▸ fun _ hq => hq
  | cons p ps ih =>
    have ⟨next, hnext, h⟩ := bind_eq_some_iff.mp h
    intro q hq
    have hq := ih h q hq
    rw [stagePreparedEntry_eq hnext] at hq
    exact (mem_filter.mp hq).left

omit [DecidableEq F] in
theorem commitDurableBatch_prepared
    (h : st.commitDurableBatch n ps = some st') : ∀ q ∈ st'.prepared, q ∈ st.prepared := by
  rw [commitDurableBatch] at h
  split at h
  · injection h with h
    exact h ▸ fun _ hq => hq
  have ⟨next, hnext, heq⟩ := Option.map_eq_some_iff.mp h
  cases ps with
  | nil => exact nomatch hnext
  | cons p ps =>
    have ⟨staged, hstaged, hstage⟩ := bind_eq_some_iff.mp hnext
    injection hstage with hstage
    rw [←heq, ←hstage]
    exact fun q hq => stageAll_prepared hstaged q hq

theorem putCoordinate_prepared (h : st.putCoordinate p = some st') :
    ∀ q ∈ st'.prepared, q = p ∨ q ∈ st.prepared := by
  rw [putCoordinate] at h
  split at h
  · split at h
    · injection h with h
      exact h ▸ fun _ hq => .inr hq
    · exact nomatch h
  · injection h with h
    exact h ▸ fun _ hq => mem_cons.mp hq

theorem putCoordinate_of_new (h : ∀ q ∈ st.prepared, q.event.seq ≠ p.event.seq) :
    (st.putCoordinate p).isSome := by
  have hfind : st.prepared.find? (·.event.seq = p.event.seq) = none :=
    find?_eq_none.mpr fun q hq => by simpa using h q hq
  rw [putCoordinate, hfind]
  rfl

-- When no other preparation has the seq, none is left after the discard.
theorem discardPrepared_prepared (h : ∀ q ∈ st.prepared, q.event.seq = p.event.seq → q = p) :
    ∀ q ∈ ((st.discardPrepared p).getD st).prepared, q ∈ st.prepared ∧
      q.event.seq ≠ p.event.seq := by
  rw [discardPrepared]
  split
  case h_1 existing hfind =>
    have hseq : existing.event.seq = p.event.seq := of_decide_eq_true (find?_some hfind :)
    rw [if_pos (h existing (mem_of_find?_eq_some hfind) hseq)]
    intro q hq
    have ⟨hq, hne⟩ := mem_filter.mp hq
    exact ⟨hq, of_decide_eq_true hne⟩
  case h_2 hfind =>
    intro q hq
    exact ⟨hq, by simpa using find?_eq_none.mp hfind q hq⟩

end Store

def Ahead (fingerprintSegment : Row Body → F) : ℕ → List (Candidate Body Meta F) → Prop
  | _, [] => True
  | n, c :: cs => c.row.seq = n ∧ c.prepared.event.seq = n ∧
    fingerprintSegment c.row = c.prepared.segmentFingerprint ∧ Ahead fingerprintSegment (n + 1) cs

section Ahead

omit [DecidableEq Meta] [DecidableEq F]

variable {c : Candidate Body Meta F}

theorem Ahead.candidates (events : List (Body × Meta)) : Ahead fp n (candidates fp n events) := by
  induction events generalizing n with
  | nil => trivial
  | cons e events ih => exact ⟨rfl, rfl, rfl, ih⟩

theorem Ahead.left (h : Ahead fp n (cs ++ cs')) : Ahead fp n cs := by
  induction cs generalizing n with
  | nil => trivial
  | cons c cs ih => exact ⟨h.1, h.2.1, h.2.2.1, ih h.2.2.2⟩

theorem Ahead.le (h : Ahead fp n cs) (hc : c ∈ cs) : n ≤ c.prepared.event.seq := by
  induction cs generalizing n with
  | nil => exact nomatch hc
  | cons c' cs ih =>
    rcases mem_cons.mp hc with rfl | hc
    · exact h.2.1.ge
    · exact (Nat.le_succ n).trans (ih h.2.2.2 hc)

theorem Ahead.lt (h : Ahead fp n (cs ++ c :: cs')) :
    (∀ d ∈ cs, d.prepared.event.seq < c.prepared.event.seq) ∧ n ≤ c.prepared.event.seq := by
  induction cs generalizing n with
  | nil => exact ⟨nofun, h.2.1.ge⟩
  | cons d cs ih =>
    have ⟨hlt, hle⟩ := ih h.2.2.2
    exact ⟨forall_mem_cons.mpr ⟨h.2.1 ▸ hle, hlt⟩, (Nat.le_succ n).trans hle⟩

end Ahead

def Writer.queue (w : Writer Body Meta F) : List (Row Body) :=
  w.jobs.flatMap (·.rows) ++ w.active

open Writer (queue)

-- The candidates that may have a preparation in the store.
def Work.held : Work Body Meta F → List (Candidate Body Meta F)
  | .preparing done _ => done
  | .writing todo => todo
  | .discarding rest => rest
  | .committing _ _ todo => todo

def Working (fingerprintSegment : Row Body → F) (rows : List (Row Body)) (nextSeq : ℕ) :
    Work Body Meta F → Prop
  | .preparing done todo => Ahead fingerprintSegment nextSeq (done ++ todo)
  | .writing todo => Ahead fingerprintSegment nextSeq todo
  | .discarding rest => ∃ n ≥ nextSeq, Ahead fingerprintSegment n rest
  | .committing n attributions todo =>
    (∀ p ∈ attributions, p.event.seq < n → Backed fingerprintSegment rows p) ∧
      Ahead fingerprintSegment nextSeq todo

structure Running (fingerprintSegment : Row Body → F) (rows : List (Row Body))
    (st : Store Meta F) (w : Writer Body Meta F) : Prop where
  sorted : (rows ++ w.queue).Pairwise fun r r' => r.seq < r'.seq
  below : ∀ r ∈ rows ++ w.queue, r.seq < w.nextSeq
  pending : ∀ p ∈ w.pendingAttributions, Backed fingerprintSegment (rows ++ w.queue) p
  jobs : ∀ job ∈ w.jobs, job.rows ≠ [] ∧ job.nextSeq = maxSeq job.rows + 1 ∧
    ∀ p ∈ job.attributions, Backed fingerprintSegment (rows ++ w.queue) p
  work : Working fingerprintSegment rows w.nextSeq w.work
  prepared : ∀ q ∈ st.prepared, w.nextSeq ≤ q.event.seq → ∃ c ∈ w.work.held, c.prepared = q

structure Inv (fingerprintSegment : Row Body → F) (s : State Body Meta F) : Prop where
  sorted : s.rows.Pairwise fun r r' => r.seq < r'.seq
  sound : Sound fingerprintSegment s.rows s.store
  running : ∀ w, s.writer = some w → Running fingerprintSegment s.rows s.store w

section Steps

variable {st st' : Store Meta F}

section

omit [DecidableEq Meta] [DecidableEq F]

theorem Running.withWork {work} (h : Running fp rows st w)
    (hw : Working fp rows w.nextSeq work)
    (hp : ∀ q ∈ st'.prepared, w.nextSeq ≤ q.event.seq → ∃ c ∈ work.held, c.prepared = q) :
    Running fp rows st' { w with work } :=
  { h with work := hw, prepared := hp }

theorem Running.rework {old work} (h : Running fp rows st w)
    (hw : w.work = old) (hheld : work.held = old.held)
    (hwork : Working fp rows w.nextSeq old → Working fp rows w.nextSeq work) :
    Running fp rows st { w with work } := by
  subst hw
  exact h.withWork (hwork h.work) (hheld ▸ h.prepared)

theorem Running.append (h : Running fp rows st w) (hw : w.work = .writing (c :: todo)) :
    Running fp rows st { w with
      active := w.active ++ [c.row]
      pendingAttributions := w.pendingAttributions ++ [c.prepared]
      nextSeq := w.nextSeq + 1
      work := .writing todo } := by
  have hwork := h.work
  rw [hw] at hwork
  have ⟨hrow, hseq, hfp, hahead⟩ := hwork
  have hq : rows ++ (w.jobs.flatMap (·.rows) ++ (w.active ++ [c.row])) =
      rows ++ w.queue ++ [c.row] := by
    simp only [queue, append_assoc]
  have hmono (r : Row Body) (hr : r ∈ rows ++ w.queue) : r ∈ rows ++ w.queue ++ [c.row] :=
    mem_append_left _ hr
  constructor
  case sorted =>
    rw [queue, hq]
    refine pairwise_append.mpr ⟨h.sorted, pairwise_singleton _ _, fun r hr r' hr' => ?_⟩
    obtain rfl := mem_singleton.mp hr'
    exact hrow ▸ h.below r hr
  case below =>
    rw [queue, hq]
    exact forall_mem_append.mpr ⟨fun r hr => Nat.lt_succ_of_lt (h.below r hr),
      forall_mem_singleton.mpr (hrow ▸ Nat.lt_succ_self _)⟩
  case pending =>
    rw [queue, hq]
    refine forall_mem_append.mpr ⟨fun p hp => (h.pending p hp).mono hmono,
      forall_mem_singleton.mpr ?_⟩
    exact ⟨c.row, mem_append_right _ (mem_singleton_self _), hrow.trans hseq.symm, hfp⟩
  case jobs =>
    rw [queue, hq]
    intro job hjob
    have ⟨hne, hnext, hattr⟩ := h.jobs job hjob
    exact ⟨hne, hnext, fun p hp => (hattr p hp).mono hmono⟩
  case work => exact hahead
  case prepared =>
    intro q hq hle
    have ⟨d, hd, hdq⟩ := h.prepared q hq (Nat.le_of_succ_le hle)
    rw [hw] at hd
    rcases mem_cons.mp hd with rfl | hd
    · rw [←hdq, hseq] at hle
      exact absurd hle (Nat.not_succ_le_self _)
    · exact ⟨d, hd, hdq⟩

theorem Running.flushBlock
    (h : Running fp rows st w) (hw : w.work = .writing todo) (hj : w.jobs = []) :
    Running fp (rows ++ w.active) st { w with
      active := [], work := .committing w.nextSeq (Attribution.pending w w.nextSeq) todo } := by
  have hwork := h.work
  rw [hw] at hwork
  have hq : rows ++ w.queue = rows ++ w.active := by rw [queue, hj]; rfl
  have hq' : rows ++ w.active ++ (w.jobs.flatMap (·.rows) ++ []) = rows ++ w.active := by
    rw [hj]; exact append_nil _
  constructor
  case sorted => rw [queue, hq', ←hq]; exact h.sorted
  case below => rw [queue, hq', ←hq]; exact h.below
  case pending => rw [queue, hq', ←hq]; exact h.pending
  case jobs => exact hj ▸ nofun
  case work =>
    refine ⟨fun p hp _ => ?_, hwork⟩
    exact hq ▸ h.pending p (mem_filter.mp hp).left
  case prepared =>
    have := h.prepared
    rwa [hw] at this

theorem Running.prepareAsyncFlush (h : Running fp rows st w)
    (ha : w.active ≠ []) : Running fp rows st { w with
      active := []
      jobs := w.jobs ++ [⟨w.active, maxSeq w.active + 1,
        Attribution.pending w (maxSeq w.active + 1)⟩] } := by
  have hq : (w.jobs ++ [(⟨w.active, maxSeq w.active + 1,
      Attribution.pending w (maxSeq w.active + 1)⟩ : Job Body Meta F)]).flatMap (·.rows) ++ [] =
      w.queue := by
    rw [append_nil, flatMap_append, flatMap_singleton, queue]
  constructor
  case sorted => rw [queue, hq]; exact h.sorted
  case below => rw [queue, hq]; exact h.below
  case pending => rw [queue, hq]; exact h.pending
  case jobs =>
    rw [queue, hq]
    refine forall_mem_append.mpr ⟨h.jobs, forall_mem_singleton.mpr ⟨ha, rfl, ?_⟩⟩
    exact fun p hp => h.pending p (mem_filter.mp hp).left
  case work => exact h.work
  case prepared => exact h.prepared

theorem Running.commitAsyncFlush {jobs}
    (h : Running fp rows st w) (hw : w.work = .writing [])
    (hj : w.jobs = job :: jobs) : Running fp (rows ++ job.rows) st { w with
      jobs, work := .committing job.nextSeq job.attributions [] } := by
  have hq : rows ++ w.queue = rows ++ job.rows ++ (jobs.flatMap (·.rows) ++ w.active) := by
    rw [queue, hj, flatMap_cons, append_assoc, append_assoc]
  have ⟨hne, hnext, hattr⟩ := h.jobs job (hj ▸ mem_cons_self)
  constructor
  case sorted => rw [queue, ←hq]; exact h.sorted
  case below => rw [queue, ←hq]; exact h.below
  case pending => rw [queue, ←hq]; exact h.pending
  case jobs =>
    rw [queue, ←hq]
    exact fun job' hjob' => h.jobs job' (hj ▸ mem_cons_of_mem _ hjob')
  case work =>
    refine ⟨fun p hp hlt => ?_, trivial⟩
    have ⟨r, hr, hseq, hfp⟩ := hattr p hp
    rw [hq] at hr
    rcases mem_append.mp hr with hr | hr
    · exact ⟨r, hr, hseq, hfp⟩
    -- The rows of later blocks are above all those of the job.
    have hsorted := hq ▸ h.sorted
    have hbelow (r' : Row Body) (hr' : r' ∈ job.rows) : r'.seq < r.seq :=
      (pairwise_append.mp hsorted).right.right r' (mem_append_right _ hr') r hr
    have ⟨r', hr'⟩ := exists_mem_of_ne_nil _ hne
    have hmax := maxSeq_lt ((Nat.zero_le _).trans_lt (hbelow r' hr')) hbelow
    omega
  case prepared =>
    have := h.prepared
    rwa [hw] at this

end

theorem Running.discard (h : Running fp rows st w) (hw : w.work = .discarding (c :: rest)) :
    Running fp rows ((st.discardPrepared c.prepared).getD st)
      { w with work := .discarding rest } := by
  have hwork := h.work
  have hprep := h.prepared
  rw [hw] at hwork hprep
  have ⟨n, hn, hahead⟩ := hwork
  have ⟨_, hseq, _, hrest⟩ := hahead
  -- A preparation with the seq of the candidate is the one of the candidate.
  have hown (q : Prepared Meta F) (hq : q ∈ st.prepared)
      (heq : q.event.seq = c.prepared.event.seq) : q = c.prepared := by
    have ⟨d, hd, hdq⟩ := hprep q hq (by rw [heq, hseq]; exact hn)
    rcases mem_cons.mp hd with rfl | hd
    · exact hdq.symm
    · have := hrest.le hd
      rw [hdq, heq, hseq] at this
      exact absurd this (Nat.not_succ_le_self n)
  refine h.withWork ⟨n + 1, hn.trans (Nat.le_succ n), hrest⟩ fun q hq hle => ?_
  have ⟨hq, hne⟩ := discardPrepared_prepared hown q hq
  have ⟨d, hd, hdq⟩ := hprep q hq hle
  rcases mem_cons.mp hd with rfl | hd
  · exact absurd (congrArg (·.event.seq) hdq).symm hne
  · exact ⟨d, hd, hdq⟩

omit [DecidableEq Meta] [DecidableEq F] in
-- A step of the writer that leaves the durable rows alone.
theorem Inv.run (h : Inv fp ⟨rows, st, some w⟩) (hsorted : rows.Pairwise fun r r' => r.seq < r'.seq)
    (hsound : Sound fp rows st')
    (hrun : Running fp rows st w → Running fp rows st' w') :
    Inv fp ⟨rows, st', some w'⟩ :=
  ⟨hsorted, hsound, fun _ hw => Option.some.inj hw ▸ hrun (h.running w rfl)⟩

theorem Inv.step {s s' : State Body Meta F} (h : Inv fp s) (e : Step fp s s') : Inv fp s' := by
  have hsorted := h.sorted
  have hsound := h.sound
  cases e with
  | crash => exact ⟨hsorted, hsound, nofun⟩
  | recoverEntry _ hst => exact ⟨hsorted, hsound.recoverEntry hst, nofun⟩
  | openWriter hst =>
    rename_i rows st st'
    have hrec := hsound.recoverAttributions hst
    refine ⟨hsorted, ⟨hrec.backed, hrec.unique⟩, fun w hw => ?_⟩
    cases hw
    refine ⟨?_, fun r hr => ?_, nofun, nofun, trivial, hrec.prepared ▸ nofun⟩
    · exact (append_nil rows).symm ▸ hsorted
    · exact lt_reconciled st'.seqNext (by simpa [queue, openWriter] using hr)
  | appendBatch events hw =>
    refine h.run hsorted hsound fun h => h.withWork (Ahead.candidates events) fun q hq hle => ?_
    have ⟨c, hc, _⟩ := h.prepared q hq hle
    rw [hw] at hc
    exact nomatch hc
  | prepare hw hst =>
    refine h.run hsorted (hsound.of_events (putCoordinate_events hst)) fun h => ?_
    have hwork := h.work
    have hprep := h.prepared
    rw [hw] at hwork hprep
    refine h.withWork ?_ fun q hq hle => ?_
    · rw [Working, append_assoc]
      exact hwork
    · rcases putCoordinate_prepared hst q hq with rfl | hq
      · exact ⟨_, mem_append_right _ (mem_singleton_self _), rfl⟩
      · have ⟨c, hc, hcq⟩ := hprep q hq hle
        exact ⟨c, mem_append_left _ hc, hcq⟩
  | prepareFails hw =>
    exact h.run hsorted hsound fun h => h.rework hw rfl fun hwork => ⟨_, le_refl _, hwork.left⟩
  | prepared hw => exact h.run hsorted hsound fun h => h.rework hw rfl fun hwork => hwork.left
  | append hw => exact h.run hsorted hsound fun h => h.append hw
  | appendFails hw =>
    exact h.run hsorted hsound fun h => h.rework hw rfl fun hwork => ⟨_, le_refl _, hwork⟩
  | discard hw =>
    exact h.run hsorted (hsound.of_events discardPrepared_events) fun h => h.discard hw
  | discarded hw => exact h.run hsorted hsound fun h => h.rework hw rfl fun _ => trivial
  | flushBlock hw hj =>
    have hrun := (h.running _ rfl).flushBlock hw hj
    refine ⟨(pairwise_append.mp hrun.sorted).left,
      hsound.mono fun r hr => mem_append_left _ hr, fun w hw => ?_⟩
    exact Option.some.inj hw ▸ hrun
  | drainPending hw hj ha =>
    refine h.run hsorted hsound fun h => h.rework hw rfl fun _ => ⟨fun p hp _ => ?_, trivial⟩
    have hback := h.pending p hp
    rwa [queue, hj, ha, flatMap_nil, append_nil, append_nil] at hback
  | prepareAsyncFlush _ ha => exact h.run hsorted hsound fun h => h.prepareAsyncFlush ha
  | commitAsyncFlush hw hj =>
    have hrun := (h.running _ rfl).commitAsyncFlush hw hj
    refine ⟨(pairwise_append.mp hrun.sorted).left,
      hsound.mono fun r hr => mem_append_left _ hr, fun w hw => ?_⟩
    exact Option.some.inj hw ▸ hrun
  | commitDurableBatch hw hst =>
    have hrun := h.running _ rfl
    have hwork := hrun.work
    have hprep := hrun.prepared
    rw [hw] at hwork hprep
    refine h.run hsorted (hsound.commitDurableBatch (fun p hp => ?_) hst) fun h => ?_
    · have ⟨hp, hlt⟩ := mem_filter.mp hp
      exact hwork.left p hp (of_decide_eq_true (Bool.and_eq_true_iff.mp hlt).right)
    · exact { h with
        pending := fun p hp => h.pending p (mem_filter.mp hp).left
        work := hwork.right
        prepared := fun q hq => hprep q (commitDurableBatch_prepared hst q hq) }
  | commitFails hw =>
    exact h.run hsorted hsound fun h => h.rework hw rfl fun hwork => ⟨_, le_refl _, hwork.right⟩

theorem Inv.of_reachable {s : State Body Meta F} (h : (system fp).Reachable s) : Inv fp s := by
  refine h.invariant (fun s hi => ?_) fun s s' _ hinv e => ?_
  · refine ⟨hi.rows, ⟨hi.events ▸ nofun, hi.events ▸ .nil⟩, fun w hw => ?_⟩
    exact nomatch hi.writer.symm.trans hw
  · exact hinv.step e

end Steps

theorem eq_of_seq {rows : List (Row Body)} (h : rows.Pairwise fun r r' => r.seq < r'.seq)
    (hr : r ∈ rows) (hr' : r' ∈ rows) (heq : r.seq = r'.seq) : r = r' := by
  induction rows with
  | nil => exact nomatch hr
  | cons r₀ l ih =>
    have ⟨hlt, hl⟩ := pairwise_cons.mp h
    rcases mem_cons.mp hr with rfl | hmem
    · rcases mem_cons.mp hr' with rfl | hmem'
      · rfl
      · exact absurd heq (hlt r' hmem').ne
    · rcases mem_cons.mp hr' with rfl | hmem'
      · exact absurd heq.symm (hlt r hmem).ne
      · exact ih hl hmem hmem'

omit [DecidableEq Meta] [DecidableEq F] in
theorem filter_seq {events : List (Prepared Meta F)}
    (h : events.Pairwise fun e e' => e.event.seq ≠ e'.event.seq) (he : e ∈ events) :
    events.filter (·.event.seq = e.event.seq) = [e] := by
  induction events with
  | nil => exact nomatch he
  | cons e' l ih =>
    have ⟨hne, hl⟩ := pairwise_cons.mp h
    rcases mem_cons.mp he with rfl | he
    · have hnil : l.filter (·.event.seq = e.event.seq) = [] :=
        filter_eq_nil_iff.mpr fun e' he' => by simpa using (hne e' he').symm
      rw [filter_cons_of_pos (by simp), hnil]
    · rw [filter_cons_of_neg (by simpa using hne e he), ih hl he]

-- A row that is durable when the process ends before its attribution is committed.
def sampleRow : Row Bool := ⟨1, true⟩

def samplePrepared : Prepared Bool ℕ := ⟨⟨1, false⟩, 1⟩

def sampleState : State Bool Bool ℕ := ⟨[sampleRow], ⟨[samplePrepared], [], 0, 0⟩, none⟩

theorem sampleState_reachable : (system (·.seq)).Reachable sampleState := by
  have h₀ : (system (·.seq)).Reachable (⟨[], ⟨[], [], 0, 0⟩, none⟩ : State Bool Bool ℕ) :=
    .init ⟨.nil, rfl, rfl, rfl, rfl⟩
  have h₁ := (h₀.step (.openWriter rfl)).step (.appendBatch [(true, false)] rfl)
  have h₂ := (h₁.step (.prepare rfl rfl)).step (.prepared rfl)
  exact ((h₂.step (.append rfl)).step (.flushBlock rfl rfl)).step .crash

end Jetstream.Ingest.Attribution
