import HypercertsRelay.Relay.Scheduler.Parallel

namespace Relay.Parallel

open List Function Worker
open Scheduler (acknowledge completeAndNext)
open Multiset (add_cons coe_eq_coe cons_add cons_coe cons_ne_zero)
open Relay.Stream (XRPCStreamEvent)

-- How far a task that was taken on is.
inductive Phase
  | waiting
  | running
  | succeeded
  | failed

def Phase.log (t : ConsumerTask) : Phase → List (Act ConsumerTask)
  | waiting => []
  | running => [.started t]
  | succeeded => [.started t, .succeeded t]
  | failed => [.started t, .failed t]

def Worker.token : Worker → Option (ConsumerTask × Phase)
  | idle | exited => none
  | next t => some (t, .waiting)
  | running t => some (t, .running)
  | succeeded t => some (t, .succeeded)
  | failed t _ => some (t, .failed)

namespace State

def waiting (l : List ConsumerTask) : Multiset (ConsumerTask × Phase) :=
  l.map (·, Phase.waiting)

def held (l : List Worker) : Multiset (ConsumerTask × Phase) :=
  l.filterMap Worker.token

-- The tasks on their way: a repository has at most one.
def tokens (s : State) : Multiset (ConsumerTask × Phase) :=
  waiting s.senders + waiting s.sched.feeder + held s.workers

def tokensOf (s : State) (r : String) : Multiset (ConsumerTask × Phase) :=
  s.tokens.filter (·.1.repo = r)

def addedOf (s : State) (r : String) : List ConsumerTask :=
  s.added.filter (·.repo = r)

def recordedOf (s : State) (r : String) : List ConsumerTask :=
  s.recorded.filter (·.repo = r)

def logOf (s : State) (r : String) : List (Act ConsumerTask) :=
  s.log.filter (·.task.repo = r)

def sequenced (s : State) : List ConsumerTask :=
  s.added.filter (0 < ·.seq)

-- The longest part at the front whose completions were recorded.
def finished (s : State) : List ConsumerTask :=
  s.sequenced.takeWhile s.recorded.contains

end State

section Lane

-- Of one repository: its task on the way, its queue, its tasks, those recorded, and the calls.
inductive Lane (stopped : Bool) : Multiset (ConsumerTask × Phase) → Option (List ConsumerTask) →
    List ConsumerTask → List ConsumerTask → List (Act ConsumerTask) → Prop
  | free (done : List ConsumerTask) : Lane stopped 0 none done done (Serial.runs done)
  | busy (done : List ConsumerTask) (t : ConsumerTask) (queue : List ConsumerTask) (ph : Phase) :
    Lane stopped {(t, ph)} (if stopped then none else some (t :: queue)) (done ++ t :: queue) done
      (Serial.runs done ++ ph.log t)
  | dropped (done : List ConsumerTask) {rest} {l} :
    stopped = true → Serial rest l →
    Lane stopped 0 none (done ++ rest) done (Serial.runs done ++ l)

theorem Phase.serial (ph : Phase) (t : ConsumerTask) (queue : List ConsumerTask) :
    Serial (t :: queue) (ph.log t) := by
  cases ph with
  | waiting => exact .rest _
  | running => exact .running _ _
  | succeeded => exact .next (.rest _)
  | failed => exact .failed _ _

namespace Lane

theorem serial (h : Lane stopped k a d r l) : Serial d l := by
  cases h with
  | free done => simpa using Serial.after_runs _ (.rest [])
  | busy done t queue ph => exact Serial.after_runs _ (ph.serial t queue)
  | dropped done _ hs => exact Serial.after_runs _ hs

theorem stop (h : Lane stopped k a d r l) : Lane true k none d r l := by
  cases h with
  | free done => exact .free _
  | busy done t queue ph => exact @Lane.busy true _ _ _ _
  | dropped done _ hs => exact .dropped _ rfl hs

theorem busy_inv (h : Lane stopped ((t, ph) ::ₘ k) a d r l) : k = 0 ∧ ∃ queue,
    d = r ++ t :: queue ∧ a = (if stopped then none else some (t :: queue)) ∧
    l = Serial.runs r ++ ph.log t := by
  generalize hk : (t, ph) ::ₘ k = k' at h
  cases h with
  | free done => cases cons_ne_zero hk
  | busy _ _ queue _ =>
    have ⟨ht, hk'⟩ := (Multiset.singleton_eq_cons_iff _).mp hk.symm
    cases ht
    exact ⟨hk', queue, rfl, rfl, rfl⟩
  | dropped done _ hs => cases cons_ne_zero hk

theorem advance (h : Lane stopped ((t, ph) ::ₘ k) a d r l) (hph : ph'.log t = ph.log t ++ l') :
    Lane stopped ((t, ph') ::ₘ k) a d r (l ++ l') := by
  have ⟨hk, queue, hd, ha, hl⟩ := h.busy_inv
  rw [hd, ha, hl, hk, append_assoc, ←hph]
  exact .busy _ _ _ _

theorem drop (h : Lane true ((t, ph) ::ₘ k) a d r l) : Lane true k a d r l := by
  have ⟨hk, queue, hd, ha, hl⟩ := h.busy_inv
  rw [hd, hl, hk, ha]
  exact .dropped _ rfl (ph.serial t queue)

-- A new task of the repository starts off if there is none on the way.
theorem add (h : Lane false k a d r l) (t : ConsumerTask) :
    a = none ∧ Lane false ((t, .waiting) ::ₘ k) (some [t]) (d ++ [t]) r l ∨
    ∃ queue, a = some queue ∧ Lane false k (some (queue ++ [t])) (d ++ [t]) r l := by
  generalize hs : false = stopped at h
  cases h with
  | free done =>
    have h : Lane false _ _ _ _ _ := .busy d t [] .waiting
    rw [Phase.log, append_nil] at h
    exact .inl ⟨rfl, hs ▸ h⟩
  | busy _ u queue ph =>
    have h : Lane false _ _ _ _ _ := .busy r u (queue ++ [t]) ph
    rw [←hs, append_assoc]
    exact .inr ⟨_, rfl, h⟩
  | dropped done hstop hs' => cases hs.trans hstop

theorem complete (h : Lane false ((t, .succeeded) ::ₘ k) a d r l) : ∃ queue,
    a = some (t :: queue) ∧ d = r ++ t :: queue ∧
    (queue = [] ∧ Lane false k none d (r ++ [t]) l ∨ ∃ u rest, queue = u :: rest ∧
        Lane false ((u, .waiting) ::ₘ k) (some (u :: rest)) d (r ++ [t]) l) := by
  have ⟨hk, queue, hd, ha, hl⟩ := h.busy_inv
  have hl : l = Serial.runs (r ++ [t]) := hl.trans (Serial.runs_snoc r t).symm
  refine ⟨queue, ha, hd, ?_⟩
  cases queue with
  | nil =>
    rw [hk, hd, hl]
    exact .inl ⟨rfl, .free _⟩
  | cons u rest =>
    have h : Lane false _ _ _ _ _ := .busy (r ++ [t]) u rest .waiting
    rw [Phase.log, append_nil, append_assoc] at h
    rw [hk, hd, hl]
    exact .inr ⟨u, rest, rfl, h⟩

theorem recorded_isPrefix (h : Lane stopped k a d r l) : r <+: d := by
  cases h with
  | free done => exact prefix_refl _
  | busy done t queue ph => exact prefix_append _ _
  | dropped done _ hs => exact prefix_append _ _

theorem queued (h : Lane stopped k (some queue) d r l) : d = r ++ queue := by
  generalize ha : some queue = a at h
  cases h with
  | free done => cases ha
  | busy done t queue ph =>
    split at ha
    · cases ha
    · cases ha
      rfl
  | dropped done _ hs => cases ha

theorem succeeded_mem (h : Lane stopped k a d r l) (ht : t ∈ r) : .succeeded t ∈ l := by
  cases h with
  | free done => exact Serial.succeeded_mem_runs ht
  | busy done t queue ph => exact mem_append_left _ (Serial.succeeded_mem_runs ht)
  | dropped done _ hs => exact mem_append_left _ (Serial.succeeded_mem_runs ht)

end Lane

end Lane

def State.lane (s : State) (r : String) : Prop :=
  Lane s.sched.stopped (s.tokensOf r) (s.sched.active r) (s.addedOf r) (s.recordedOf r) (s.logOf r)

open State (lane logOf tokens tokensOf)

section Tokens

variable {s s' : State}

open State

theorem waiting_middle : waiting (l₁ ++ t :: l₂) = (t, .waiting) ::ₘ waiting (l₁ ++ l₂) := by
  rw [waiting, waiting, cons_coe, coe_eq_coe, map_append, map_append]
  exact perm_middle

theorem held_middle (hw : w.token = some (t, ph)) :
    held (w₁ ++ w :: w₂) = (t, ph) ::ₘ held (w₁ ++ w₂) := by
  rw [held, held, cons_coe, coe_eq_coe, filterMap_append, filterMap_append, filterMap_cons_some hw]
  exact perm_middle

theorem held_middle_none (hw : w.token = none) : held (w₁ ++ w :: w₂) = held (w₁ ++ w₂) := by
  rw [held, held, filterMap_append, filterMap_append, filterMap_cons_none hw]

theorem waiting_cons (l : List ConsumerTask) : waiting (t :: l) = (t, .waiting) ::ₘ waiting l := rfl

theorem waiting_snoc (l : List ConsumerTask) :
    waiting (l ++ [t]) = (t, .waiting) ::ₘ waiting l := by
  rw [waiting_middle, append_nil]

theorem tokens_sender (h : s.senders = l₁ ++ t :: l₂) :
    s.tokens = (t, .waiting) ::ₘ tokens { s with senders := l₁ ++ l₂ } := by
  rw [tokens, h, waiting_middle, tokens, cons_add, cons_add]

theorem tokens_worker (h : s.workers = w₁ ++ w :: w₂) (hw : w.token = some (t, ph)) :
    s.tokens = (t, ph) ::ₘ tokens { s with workers := w₁ ++ w₂ } := by
  rw [tokens, h, held_middle hw, tokens, add_cons]

theorem tokens_worker_none (h : s.workers = w₁ ++ w :: w₂)
    (hw : w.token = none) : s.tokens = tokens { s with workers := w₁ ++ w₂ } := by
  rw [tokens, h, held_middle_none hw, tokens]

theorem tokensOf_pos (hk : s.tokens = (t, ph) ::ₘ k) (hr : t.repo = r) :
    s.tokensOf r = (t, ph) ::ₘ k.filter (·.1.repo = r) := by
  rw [tokensOf, hk, Multiset.filter_cons_of_pos _ (by exact hr)]

theorem tokensOf_neg (hk : s.tokens = (t, ph) ::ₘ k) (hr : t.repo ≠ r) :
    s.tokensOf r = k.filter (·.1.repo = r) := by
  rw [tokensOf, hk, Multiset.filter_cons_of_neg _ (by exact hr)]

theorem logOf_pos (hl : s'.log = s.log ++ l)
    (ht : ∀ a ∈ l, a.task = t) (hr : t.repo = r) : s'.logOf r = s.logOf r ++ l := by
  rw [logOf, logOf, hl, filter_append,
    show l.filter (·.task.repo = r) = l from filter_eq_self.mpr (by simp_all)]

theorem logOf_neg (hl : s'.log = s.log ++ l)
    (ht : ∀ a ∈ l, a.task = t) (hr : t.repo ≠ r) : s'.logOf r = s.logOf r := by
  rw [logOf, logOf, hl, filter_append,
    show l.filter (·.task.repo = r) = [] from filter_eq_nil_iff.mpr (by simp_all),
    append_nil]

theorem addedOf_pos (h : s'.added = s.added ++ [t]) (hr : t.repo = r) :
    s'.addedOf r = s.addedOf r ++ [t] := by
  simp [addedOf, h, hr]

theorem addedOf_neg (h : s'.added = s.added ++ [t]) (hr : t.repo ≠ r) :
    s'.addedOf r = s.addedOf r := by
  simp [addedOf, h, hr]

theorem recordedOf_pos (h : s'.recorded = s.recorded ++ [t]) (hr : t.repo = r) :
    s'.recordedOf r = s.recordedOf r ++ [t] := by
  simp [recordedOf, h, hr]

theorem recordedOf_neg (h : s'.recorded = s.recorded ++ [t]) (hr : t.repo ≠ r) :
    s'.recordedOf r = s.recordedOf r := by
  simp [recordedOf, h, hr]

end Tokens

section Lanes

variable {s s' : State}

-- What a step leaves alone that only moves tasks.
structure Kept (s s' : State) : Prop where
  active : s'.sched.active = s.sched.active
  added : s'.added = s.added
  recorded : s'.recorded = s.recorded

theorem Kept.addedOf (h : Kept s s') (r : String) : s'.addedOf r = s.addedOf r := by
  rw [State.addedOf, h.added, State.addedOf]

theorem Kept.recordedOf (h : Kept s s') (r : String) : s'.recordedOf r = s.recordedOf r := by
  rw [State.recordedOf, h.recorded, State.recordedOf]

theorem lane_advance (h : ∀ r, s.lane r) (hs : Kept s s')
    (hstop : s'.sched.stopped = s.sched.stopped) (hk : s.tokens = (t, ph) ::ₘ k)
    (hk' : s'.tokens = (t, ph') ::ₘ k) (hl : s'.log = s.log ++ l) (ht : ∀ a ∈ l, a.task = t)
    (hph : ph'.log t = ph.log t ++ l) (r : String) : s'.lane r := by
  have h := h r
  rw [lane] at h ⊢
  rw [hstop, hs.active, hs.addedOf, hs.recordedOf]
  by_cases hr : t.repo = r
  · rw [tokensOf_pos hk hr] at h
    rw [tokensOf_pos hk' hr, logOf_pos hl ht hr]
    exact h.advance hph
  · rw [tokensOf_neg hk hr] at h
    rw [tokensOf_neg hk' hr, logOf_neg hl ht hr]
    exact h

theorem lane_drop (h : ∀ r, s.lane r) (hs : Kept s s') (hstop : s.sched.stopped = true)
    (hstop' : s'.sched.stopped = true) (hk : s.tokens = (t, ph) ::ₘ s'.tokens)
    (hl : s'.log = s.log) (r : String) : s'.lane r := by
  have h := h r
  rw [lane] at h ⊢
  rw [hstop', hs.active, hs.addedOf, hs.recordedOf, logOf, hl]
  rw [hstop] at h
  by_cases hr : t.repo = r
  · rw [tokensOf_pos hk hr] at h
    exact h.drop
  · rw [tokensOf_neg hk hr] at h
    exact h

theorem lane_stop (h : ∀ r, s.lane r) (err : Option Error) (r : String) :
    lane { s with sched := s.sched.stop err } r := by
  have h := h r
  cases hs : s.sched.stopped with
  | true => simpa only [Scheduler.stop, hs, if_true] using h
  | false =>
    have h := h.stop
    simpa [Scheduler.stop, hs, lane, tokensOf, tokens, State.addedOf,
      State.recordedOf, logOf] using h

namespace Scheduler

variable {p p' : Scheduler}

theorem addWork_ok (h : p.addWork t = .ok (p', waits)) :
    p.stopped = false ∧ waits = (p.active t.repo).isNone ∧
    p' = { p with
        ackQueue := if 0 < t.seq then p.ackQueue ++ [t] else p.ackQueue
        active :=
          update p.active t.repo (some ((p.active t.repo).getD [] ++ [t])) } := by
  cases he : p.err with
  | some err => simp [addWork, he] at h
  | none =>
    cases hs : p.stopped with
    | true => simp [addWork, he, hs] at h
    | false =>
      by_cases ht : 0 < t.seq <;> cases ha : p.active t.repo
      all_goals
        simp only [addWork, he, hs, ha, ht, if_true, if_false, Except.ok.injEq, Prod.mk.injEq,
          Bool.false_eq_true] at h
        have ⟨hp, hw⟩ := h
        simp [←hp, ←hw, ht]

@[simp]
theorem stop_stopped (p : Scheduler) (err : Option Error) : (p.stop err).stopped = true := by
  rw [stop]
  split <;> first | assumption | rfl

theorem next_eq {tail} (h : p.active t.repo = some (t :: tail)) : p.next t =
      ({ p with
        active :=
          update p.active t.repo (if tail = [] then none else some tail) },
        tail.head?) := by
  cases tail <;> simp [next, h]

@[simp]
theorem complete_active (p : Scheduler) (t : ConsumerTask) : (p.complete t).active = p.active := by
  rw [complete]
  split <;> rfl

@[simp]
theorem complete_stopped (p : Scheduler) (t : ConsumerTask) :
    (p.complete t).stopped = p.stopped := by
  rw [complete]
  split <;> rfl

@[simp]
theorem complete_feeder (p : Scheduler) (t : ConsumerTask) : (p.complete t).feeder = p.feeder := by
  rw [complete]
  split <;> rfl

@[simp]
theorem complete_cancelled (p : Scheduler) (t : ConsumerTask) :
    (p.complete t).cancelled = p.cancelled := by
  rw [complete]
  split <;> rfl

end Scheduler

theorem lane_add (h : ∀ r, s.lane r) (hs : s.sched.stopped = false) (hs' : s'.sched.stopped = false)
    (hactive : s'.sched.active =
      update s.sched.active t.repo (some ((s.sched.active t.repo).getD [] ++ [t])))
    (hk : s'.tokens = if (s.sched.active t.repo).isNone then (t, .waiting) ::ₘ s.tokens
      else s.tokens) (hadd : s'.added = s.added ++ [t]) (hrec : s'.recorded = s.recorded)
    (hlog : s'.log = s.log) (r : String) : s'.lane r := by
  have h := h r
  have hrec : s'.recordedOf r = s.recordedOf r := by rw [State.recordedOf, hrec, State.recordedOf]
  have hlog : s'.logOf r = s.logOf r := by rw [logOf, hlog, logOf]
  rw [lane, hs] at h
  rw [lane, hs', hactive, hrec, hlog]
  by_cases hr : t.repo = r
  · rw [←hr] at h ⊢
    rw [addedOf_pos hadd rfl, update_self]
    obtain h | h := h.add t
    · have ⟨ha, h⟩ := h
      rw [if_pos (by simp [ha])] at hk
      rw [tokensOf_pos hk rfl, ha]
      exact h
    · have ⟨queue, ha, h⟩ := h
      rw [tokensOf, hk, ha]
      exact h
  · have hk : s'.tokensOf r = s.tokensOf r := by
      cases ha : s.sched.active t.repo with
      | none =>
        rw [if_pos (by simp [ha])] at hk
        exact tokensOf_neg hk hr
      | some q =>
        rw [if_neg (by simp [ha])] at hk
        rw [tokensOf, hk, tokensOf]
    rw [addedOf_neg hadd hr, hk, update_of_ne (Ne.symm hr)]
    exact h

theorem lane_complete (h : ∀ r, s.lane r) (hs : s.sched.stopped = false)
    (hs' : s'.sched.stopped = false) (hk : s.tokens = (t, .succeeded) ::ₘ k)
    (hqueue : s.sched.active t.repo = some (t :: queue)) (hactive : s'.sched.active =
      update s.sched.active t.repo (if queue = [] then none else some queue))
    (hk' : s'.tokens = queue.head?.elim k fun u => (u, .waiting) ::ₘ k) (hadd : s'.added = s.added)
    (hrec : s'.recorded = s.recorded ++ [t]) (hlog : s'.log = s.log) (r : String) : s'.lane r := by
  have h' := h t.repo
  have h := h r
  have haddr (r : String) : s'.addedOf r = s.addedOf r := by rw [State.addedOf, hadd, State.addedOf]
  have hlogr (r : String) : s'.logOf r = s.logOf r := by rw [logOf, hlog, logOf]
  rw [lane, hs, tokensOf_pos hk rfl] at h'
  have ⟨queue', ha, hd, hn⟩ := h'.complete
  cases hqueue.symm.trans ha
  -- The task that follows is one of the same repository.
  have hrepo : ∀ u ∈ queue, u.repo = t.repo := by
    intro u hu
    have : u ∈ s.addedOf t.repo := hd ▸ mem_append_right _ (mem_cons_of_mem _ hu)
    simpa using (mem_filter.mp this).right
  rw [lane, hs] at h
  rw [lane, hs', hactive, haddr, hlogr]
  by_cases hr : t.repo = r
  · rw [←hr] at h ⊢
    rw [recordedOf_pos hrec rfl, update_self]
    obtain hn | hn := hn
    · have ⟨hq, hlane⟩ := hn
      subst hq
      rw [tokensOf, hk', if_pos rfl]
      exact hlane
    · have ⟨u, rest, hq, hlane⟩ := hn
      subst hq
      rw [tokensOf_pos hk' (hrepo u mem_cons_self), if_neg (cons_ne_nil _ _)]
      exact hlane
  · have hk'' : s'.tokensOf r = k.filter (·.1.repo = r) := by
      cases queue with
      | nil => rw [tokensOf, hk', head?_nil, Option.elim_none]
      | cons u rest => exact tokensOf_neg hk' (hrepo u mem_cons_self ▸ hr)
    rw [tokensOf_neg hk hr] at h
    rw [recordedOf_neg hrec hr, hk'', update_of_ne (Ne.symm hr)]
    exact h

end Lanes

section Acknowledged

def lastSeqOf (l : List ConsumerTask) : ℤ :=
  (l.getLast?.map (·.seq)).getD 0

theorem acknowledge_eq (completed : ConsumerTask → Bool) (lastSeq : ℤ) (h : queue.Nodup) :
    acknowledge completed lastSeq queue = (fun t => completed t && t ∉ queue.takeWhile completed,
        ((queue.takeWhile completed).getLast?.map (·.seq)).getD lastSeq,
        queue.dropWhile completed) := by
  induction queue generalizing completed lastSeq with
  | nil => simp [acknowledge]
  | cons head rest ih =>
    have ⟨hn, h⟩ := nodup_cons.mp h
    cases hc : completed head with
    | false => simp [acknowledge, hc]
    | true =>
      -- Removing the head leaves alone what is said of the rest.
      have hrest : ∀ u ∈ rest, update completed head false u = completed u := by
        intro u hu
        have hne : u ≠ head := fun he => hn (he ▸ hu)
        exact update_of_ne hne _ _
      rw [acknowledge, if_pos hc, ih _ _ h, List.takeWhile_congr_mem hrest,
        List.dropWhile_congr_mem hrest, takeWhile_cons_of_pos hc,
        dropWhile_cons_of_pos hc, getLast?_cons]
      congr 1
      case e_fst =>
        funext u
        by_cases hu : u = head
        · simp [hu]
        · simp [hu]
      case e_snd => cases (rest.takeWhile completed).getLast? <;> rfl

-- What the queue of unacknowledged tasks is, as long as there is one.
structure Acked (p : Scheduler) (added recorded : List ConsumerTask) : Prop where
  lastSeq : p.lastSeq = lastSeqOf ((added.filter (0 < ·.seq)).takeWhile recorded.contains)
  ackQueue : p.stopped = false → p.ackQueue = (added.filter (0 < ·.seq)).dropWhile recorded.contains
  completed : p.stopped = false → ∀ t, p.completed t = true ↔ t ∈ p.ackQueue ∧ t ∈ recorded

namespace Acked

section

variable (h : Acked p added recorded)

include h

theorem stop (err : Option Error) : Acked (p.stop err) added recorded := by
  cases hs : p.stopped with
  | true => rwa [Scheduler.stop, if_pos hs]
  | false =>
    rw [Scheduler.stop, if_neg (by simp [hs])]
    exact ⟨h.lastSeq, nofun, nofun⟩

theorem add (ht : t ∉ recorded)
    (hp : p.addWork t = .ok (p', waits)) : Acked p' (added ++ [t]) recorded := by
  have ⟨hs, _, hp⟩ := Scheduler.addWork_ok hp
  rw [hp]
  by_cases hseq : 0 < t.seq
  case neg =>
    have hadd : (added ++ [t]).filter (0 < ·.seq) = added.filter (0 < ·.seq) := by simp [hseq]
    refine ⟨?_, ?_, ?_⟩
    · rw [hadd]; exact h.lastSeq
    · rw [hadd, if_neg hseq]
      exact h.ackQueue
    · rw [if_neg hseq]
      exact h.completed
  case pos =>
    have hadd : (added ++ [t]).filter (0 < ·.seq) = added.filter (0 < ·.seq) ++ [t] := by
      simp [hseq]
    have hrec : recorded.contains t = false := by simp [ht]
    refine ⟨?_, ?_, ?_⟩
    · rw [hadd, List.takeWhile_snoc hrec]
      exact h.lastSeq
    · intro _
      rw [hadd, List.dropWhile_snoc hrec, if_pos hseq, h.ackQueue hs]
    intro _ u
    rw [if_pos hseq, h.completed hs]
    simp only [mem_append, mem_singleton]
    constructor
    · exact fun ⟨hq, hu⟩ => ⟨.inl hq, hu⟩
    · rintro ⟨hq | rfl, hu⟩
      · exact ⟨hq, hu⟩
      · exact absurd hu ht

theorem complete (hs : p.stopped = false) (hn : added.Nodup)
    (hadd : t ∈ added) (ht : t ∉ recorded) :
    Acked (p.complete t) added (recorded ++ [t]) := by
  have himp : ∀ u, recorded.contains u = true → (recorded ++ [t]).contains u = true := by simp_all
  have htake := List.takeWhile_of_imp himp (added.filter (0 < ·.seq))
  have hdrop := List.dropWhile_of_imp himp (added.filter (0 < ·.seq))
  have hqueue := h.ackQueue hs
  rw [←hqueue] at htake hdrop
  by_cases hseq : 0 < t.seq
  case neg =>
    -- A task without a number is not in the queue.
    have hmem : ∀ u ∈ added.filter (0 < ·.seq),
        recorded.contains u = (recorded ++ [t]).contains u := by
      intro u hu
      have hu : 0 < u.seq := by simpa using (mem_filter.mp hu).right
      have hne : u ≠ t := fun he => hseq (he ▸ hu)
      simp [hne]
    rw [Scheduler.complete, if_neg hseq]
    refine ⟨?_, ?_, ?_⟩
    · rw [←List.takeWhile_congr_mem hmem]; exact h.lastSeq
    · rw [←List.dropWhile_congr_mem hmem]; exact h.ackQueue
    intro _ u
    rw [h.completed hs]
    have hmem (hu : u ∈ p.ackQueue) : u ∈ recorded ↔ u ∈ recorded ++ [t] := by
      have hu : u ∈ added.filter (0 < ·.seq) := (dropWhile_sublist _).subset (hqueue ▸ hu)
      simpa using hmem u hu
    exact and_congr_right hmem
  case pos =>
    have hsub : p.ackQueue.Sublist added := hqueue ▸ (dropWhile_sublist _).trans filter_sublist
    have hnodup := hsub.nodup hn
    have htq : t ∈ p.ackQueue := by
      have hmem : t ∈ added.filter (0 < ·.seq) := by simp [hadd, hseq]
      have hsplit := takeWhile_append_dropWhile (p := recorded.contains)
        (l := added.filter (0 < ·.seq))
      rw [←hsplit, mem_append] at hmem
      obtain hmem | hmem := hmem
      · exact absurd (by simpa using mem_takeWhile_imp hmem) ht
      · exact hqueue ▸ hmem
    have hcompleted : ∀ u ∈ p.ackQueue,
        update p.completed t true u = (recorded ++ [t]).contains u := by
      intro u hu
      by_cases hne : u = t
      case pos => simp [hne]
      case neg =>
        rw [update_of_ne hne, Bool.eq_iff_iff, h.completed hs]
        simp [hu, hne]
    rw [Scheduler.complete, if_pos hseq, acknowledge_eq _ _ hnodup,
      List.takeWhile_congr_mem hcompleted, List.dropWhile_congr_mem hcompleted]
    refine ⟨?_, ?_, ?_⟩
    · rw [htake, lastSeqOf, getLast?_append]
      cases (p.ackQueue.takeWhile (recorded ++ [t]).contains).getLast? with
      | none => simpa [lastSeqOf] using h.lastSeq
      | some u => rfl
    · exact fun _ => hdrop.symm
    · intro _ u
      have hsplit := takeWhile_append_dropWhile (p := (recorded ++ [t]).contains) (l := p.ackQueue)
      have hdisj := disjoint_of_nodup_append (hsplit.symm ▸ hnodup)
      have hin : update p.completed t true u = true ↔ u ∈ p.ackQueue ∧ u ∈ recorded ++ [t] := by
        by_cases hne : u = t
        case pos => simp [hne, htq]
        case neg => simp [hne, h.completed hs]
      rw [Bool.and_eq_true, hin, decide_eq_true_iff]
      constructor
      · intro ⟨⟨hu, hr⟩, hnot⟩
        have hu := mem_append.mp (hsplit.symm ▸ hu)
        exact ⟨hu.resolve_left hnot, hr⟩
      · intro ⟨hu, hr⟩
        exact ⟨⟨(dropWhile_sublist _).subset hu, hr⟩, fun hnot => hdisj hnot hu⟩

end

end Acked

end Acknowledged

structure Inv (s : State) : Prop where
  lanes : ∀ r, s.lane r
  acked : Acked s.sched s.added s.recorded
  addresses : s.added.map (·.address) = List.range s.added.length
  cancelled : s.sched.cancelled = true → s.sched.stopped = true

namespace Inv

theorem init (maxC : ℤ) : Inv (newScheduler maxC) := by
  have hheld : State.held (List.replicate (max maxC 1).toNat .idle) = 0 := by
    simp [State.held, filterMap_replicate, token]
  have htokens : (newScheduler maxC).tokens = 0 := by
    simpa [tokens, newScheduler, State.waiting, Scheduler.new] using hheld
  refine ⟨fun r => ?_, ⟨rfl, fun _ => rfl, ?_⟩, rfl, nofun⟩
  · rw [lane, tokensOf, htokens]
    exact .free []
  · simp [newScheduler, Scheduler.new]

section

variable (h : Inv s)

include h

theorem nodup : s.added.Nodup :=
  .of_map (·.address) (h.addresses ▸ nodup_range)

theorem mem_added (ht : t ∈ s.recorded) : t ∈ s.added := by
  have hmem : t ∈ s.recordedOf t.repo := by simp [State.recordedOf, ht]
  have hmem := (h.lanes t.repo).recorded_isPrefix.subset hmem
  exact (mem_filter.mp hmem).left

-- A task that is on its way was not recorded.
theorem not_mem_recorded (hk : (t, ph) ∈ s.tokens) : t ∈ s.added ∧ t ∉ s.recorded := by
  have ⟨k, hk⟩ := Multiset.exists_cons_of_mem hk
  have hlane := h.lanes t.repo
  rw [lane, tokensOf_pos hk rfl] at hlane
  have ⟨_, queue, hd, _⟩ := hlane.busy_inv
  have hn : (s.addedOf t.repo).Nodup := h.nodup.filter _
  have hmem : t ∈ s.addedOf t.repo := by simp [hd]
  refine ⟨(mem_filter.mp hmem).left, fun ht => ?_⟩
  have ht : t ∈ s.recordedOf t.repo := by simp [State.recordedOf, ht]
  rw [hd] at hn
  exact disjoint_of_nodup_append hn ht mem_cons_self

theorem advance (hs : Kept s s') (hk : s.tokens = (t, ph) ::ₘ k) (hk' : s'.tokens = (t, ph') ::ₘ k)
    (hl : s'.log = s.log ++ l) (ht : ∀ a ∈ l, a.task = t) (hph : ph'.log t = ph.log t ++ l)
    (hstop : s'.sched.stopped = s.sched.stopped) (hcancel : s'.sched.cancelled = s.sched.cancelled)
    (hacked : Acked s'.sched s.added s.recorded) : Inv s' where
  lanes := lane_advance h.lanes hs hstop hk hk' hl ht hph
  acked := by rwa [hs.added, hs.recorded]
  addresses := by rw [hs.added]; exact h.addresses
  cancelled := by rw [hcancel, hstop]; exact h.cancelled

-- The steps that only hand a task from one place to another.
theorem move (hs : Kept s s') (hk : s'.tokens = s.tokens) (hl : s'.log = s.log)
    (hstop : s'.sched.stopped = s.sched.stopped)
    (hcancel : s'.sched.cancelled = true → s.sched.stopped = true)
    (hacked : Acked s'.sched s.added s.recorded) : Inv s' where
  lanes r := by
    rw [lane, tokensOf, logOf, hk, hl, hstop, hs.active, hs.addedOf, hs.recordedOf]
    exact h.lanes r
  acked := by rwa [hs.added, hs.recorded]
  addresses := by rw [hs.added]; exact h.addresses
  cancelled := by rwa [hstop]

theorem drop (hs : Kept s s') (hk : s.tokens = (t, ph) ::ₘ s'.tokens)
    (hl : s'.log = s.log) (hstop : s.sched.stopped = true) (hsched : s'.sched = s.sched) :
    Inv s' where
  lanes := lane_drop h.lanes hs hstop (hsched ▸ hstop) hk hl
  acked := by rw [hs.added, hs.recorded, hsched]; exact h.acked
  addresses := by rw [hs.added]; exact h.addresses
  cancelled := by rw [hsched]; exact h.cancelled

theorem stop (err : Option Error) : Inv { s with sched := s.sched.stop err } where
  lanes := lane_stop h.lanes err
  acked := h.acked.stop err
  addresses := h.addresses
  cancelled := fun _ => s.sched.stop_stopped err

theorem add (ha : t.address = s.added.length) (hp : s.sched.addWork t = .ok (p, waits)) :
    Inv { s with
        sched := p
        senders := if waits then t :: s.senders else s.senders
        added := s.added ++ [t] } := by
  have hfresh : t ∉ s.recorded := by
    intro ht
    have hmem := mem_map_of_mem (f := (·.address)) (h.mem_added ht)
    rw [h.addresses, ha, mem_range] at hmem
    exact lt_irrefl _ hmem
  have hacked := h.acked.add hfresh hp
  have ⟨hs, hw, hp⟩ := Scheduler.addWork_ok hp
  refine ⟨lane_add h.lanes hs ?_ ?_ ?_ rfl rfl rfl, hacked, ?_, ?_⟩
  · rw [hp]; exact hs
  · rw [hp]
  · rw [hw, hp]
    cases (s.sched.active t.repo).isNone with
    | true => simp [tokens, State.waiting, ←cons_coe]
    | false => rfl
  · simp [h.addresses, ha, range_succ]
  · rw [hp]; exact h.cancelled

theorem complete (hw : s.workers = w₁ ++ .succeeded t :: w₂) : Inv
      { s with
        sched := (s.sched.completeAndNext t).1
        workers := w₁ ++ .ofNext (s.sched.completeAndNext t).2 :: w₂
        recorded := if s.sched.stopped then s.recorded else s.recorded ++ [t] } := by
  let k := State.waiting s.senders + State.waiting s.sched.feeder + State.held (w₁ ++ w₂)
  have hk : s.tokens = (t, .succeeded) ::ₘ k := by
    rw [tokens, hw, held_middle (show token (.succeeded t) = _ from rfl), add_cons]
  have ⟨hadd, hrec⟩ := h.not_mem_recorded (hk ▸ Multiset.mem_cons_self _ _)
  cases hs : s.sched.stopped with
  | true =>
    have hk' : tokens { s with workers := w₁ ++ .idle :: w₂ } = k := by
      rw [tokens, held_middle_none rfl]
    rw [completeAndNext, if_pos hs, if_pos rfl]
    exact h.drop ⟨rfl, rfl, rfl⟩ (hk.trans (congrArg _ hk'.symm)) rfl hs rfl
  | false =>
    have hlane := h.lanes t.repo
    rw [lane, tokensOf_pos hk rfl, hs] at hlane
    have ⟨queue, ha, _⟩ := hlane.complete
    have hnext := Scheduler.next_eq (p := s.sched.complete t) (by simpa using ha)
    rw [completeAndNext, if_neg (by simp [hs]), hnext]
    have hacked := h.acked.complete hs h.nodup hadd hrec
    refine ⟨lane_complete h.lanes hs ?_ hk ha ?_ ?_ rfl rfl rfl, ?_, h.addresses, ?_⟩
    · simpa using hs
    · simp
    · rw [tokens]
      cases queue with
      | nil => simp [ofNext, held_middle_none (show token .idle = _ from rfl), k]
      | cons u rest => simp [ofNext, held_middle (show token (.next u) = _ from rfl), k]
    · exact ⟨hacked.lastSeq, hacked.ackQueue, hacked.completed⟩
    · simpa using h.cancelled

theorem step (e : Step maxQ handler s s') : Inv s' := by
  have hacked := h.acked
  cases e with
  | addWork ha hp => exact h.add ha hp
  | complete w₁ hw => exact h.complete hw
  | shutdown => exact h.stop none
  | cancel hs => exact ⟨h.lanes, ⟨hacked.1, hacked.2, hacked.3⟩, h.addresses, fun _ => hs⟩
  | send l₁ ht =>
    refine h.move ⟨rfl, rfl, rfl⟩ ?_ rfl rfl h.cancelled ⟨hacked.1, hacked.2, hacked.3⟩
    rw [tokens_sender ht, tokens, tokens, waiting_snoc, add_cons, cons_add]
  | handOver l₁ w₁ ht _ hw =>
    refine h.move ⟨rfl, rfl, rfl⟩ ?_ rfl rfl h.cancelled hacked
    simp only [tokens, ht, hw, waiting_middle, held_middle (w := .next _) rfl,
      held_middle_none (w := .idle) rfl, add_cons, cons_add]
  | receive w₁ hf hw =>
    refine h.move ⟨rfl, rfl, rfl⟩ ?_ rfl rfl h.cancelled ⟨hacked.1, hacked.2, hacked.3⟩
    simp only [tokens, hf, hw, waiting_cons, held_middle (w := .next _) rfl,
      held_middle_none (w := .idle) rfl, add_cons, cons_add]
  | cancelSend l₁ ht =>
    have h := h.stop (some .context)
    exact h.drop ⟨rfl, rfl, rfl⟩ (tokens_sender ht) rfl (s.sched.stop_stopped _) rfl
  | abandonSend l₁ ht hc => exact h.drop ⟨rfl, rfl, rfl⟩ (tokens_sender ht) rfl (h.cancelled hc) rfl
  | exit w₁ hw hwork hc =>
    rcases hwork with rfl | ⟨t, rfl⟩
    · refine h.move ⟨rfl, rfl, rfl⟩ ?_ rfl rfl h.cancelled hacked
      rw [tokens_worker_none rfl rfl, tokens_worker_none hw rfl]
    · have hk := tokens_worker hw rfl
      rw [←tokens_worker_none (s := { s with workers := w₁ ++ .exited :: _ }) rfl rfl] at hk
      exact h.drop ⟨rfl, rfl, rfl⟩ hk rfl (h.cancelled hc) rfl
  | start w₁ hw =>
    exact h.advance ⟨rfl, rfl, rfl⟩ (tokens_worker hw rfl) (tokens_worker rfl rfl) rfl
      (by simp [Act.task]) rfl rfl rfl hacked
  | succeed w₁ hw _ =>
    exact h.advance ⟨rfl, rfl, rfl⟩ (tokens_worker hw rfl) (tokens_worker rfl rfl) rfl
      (by simp [Act.task]) rfl rfl rfl hacked
  | fail w₁ err hw _ =>
    exact h.advance ⟨rfl, rfl, rfl⟩ (tokens_worker hw rfl) (tokens_worker rfl rfl) rfl
      (by simp [Act.task]) rfl rfl rfl hacked
  | @stopFailed t err w₂ w₁ hw =>
    have hk : tokens { s with sched := s.sched.stop (some err) } = (t, Phase.failed) ::ₘ tokens
          { s with sched := s.sched.stop (some err), workers := w₁ ++ .exited :: w₂ } := by
      simp only [tokens, hw, held_middle (w := .failed _ _) rfl,
        held_middle_none (w := .exited) rfl, add_cons]
    exact (h.stop (some err)).drop ⟨rfl, rfl, rfl⟩ hk rfl (s.sched.stop_stopped _) rfl

end

theorem reachable (h : (system maxC maxQ handler).Reachable s) : Inv s := by
  apply h.invariant
  case hi =>
    intro s hs
    exact hs ▸ init maxC
  case hs =>
    intro s s' _ h e
    exact h.step e

end Inv

section Results

-- A task is pending while it is queued for its repository or on its way through the workers.
def State.Pending (s : State) (t : ConsumerTask) : Prop :=
  (∃ ph, (t, ph) ∈ s.tokens) ∨ ∃ queue, s.sched.active t.repo = some queue ∧ t ∈ queue

theorem Inv.not_pending (h : Inv s) (ht : t ∈ s.recorded) : ¬s.Pending t := by
  rintro (⟨ph, hk⟩ | ⟨queue, ha, hq⟩)
  · exact (h.not_mem_recorded hk).right ht
  have hlane := h.lanes t.repo
  have hn : (s.addedOf t.repo).Nodup := h.nodup.filter _
  have ht : t ∈ s.recordedOf t.repo := by simp [State.recordedOf, ht]
  rw [lane, ha] at hlane
  rw [hlane.queued] at hn
  exact disjoint_of_nodup_append hn ht hq

theorem Inv.succeeded (h : Inv s) (ht : t ∈ s.recorded) :
    .succeeded t ∈ s.log ∧ .failed t ∉ s.log := by
  have hlane := h.lanes t.repo
  have hn : (s.addedOf t.repo).Nodup := h.nodup.filter _
  have ht : t ∈ s.recordedOf t.repo := by simp [State.recordedOf, ht]
  have hsucc := hlane.succeeded_mem ht
  have hfail := hlane.serial.not_failed hn hsucc
  refine ⟨(mem_filter.mp hsucc).left, fun hf => hfail ?_⟩
  simp [logOf, hf, Act.task]

theorem log_step (e : Step maxQ handler s s') : ∃ l, s'.log = s.log ++ l := by
  cases e with
  | start | succeed | fail => exact ⟨_, rfl⟩
  | _ => exact ⟨[], (append_nil _).symm⟩

-- What succeeded was found good by the handler.
theorem handled_step (e : Step maxQ handler s s')
    (h : ∀ t, .succeeded t ∈ s.log → handler t.val (.ok ())) :
    ∀ t, .succeeded t ∈ s'.log → handler t.val (.ok ()) := by
  cases e with
  | succeed w₁ hw hok =>
    intro t ht
    rw [mem_append, mem_singleton, Act.succeeded.injEq] at ht
    obtain ht | ht := ht
    · exact h t ht
    · exact ht ▸ hok
  | start | fail => simpa using h
  | _ => exact h

theorem stopped_step (e : Step maxQ handler s s') (hs : s.sched.stopped = true) :
    s'.sched.stopped = true ∧ s'.sched.lastSeq = s.sched.lastSeq := by
  cases e with
  | addWork ha hp => cases hs.symm.trans (Scheduler.addWork_ok hp).left
  | _ => simp_all [Scheduler.stop, completeAndNext]

theorem stopped_runs (e : (system maxC maxQ handler).Runs s s') (hs : s.sched.stopped = true) :
    s'.sched.stopped = true ∧ s'.sched.lastSeq = s.sched.lastSeq := by
  induction e with
  | refl => exact ⟨hs, rfl⟩
  | tail _ e ih =>
    have ⟨hstop, hseq⟩ := stopped_step e ih.left
    exact ⟨hstop, hseq.trans ih.right⟩

theorem ordered_and_acknowledged (h : (system maxC maxQ handler).Reachable s) : s.added.Nodup ∧
    (∀ r, Serial (s.addedOf r) (s.logOf r) ∧ (s.logOf r).Nodup) ∧
    s.sched.lastSeq = lastSeqOf s.finished ∧
    (∀ t ∈ s.finished, .succeeded t ∈ s.log ∧ .failed t ∉ s.log ∧ ¬s.Pending t) ∧
    (s.sched.stopped = true → ∀ s', (system maxC maxQ handler).Runs s s' →
      s'.sched.lastSeq = s.sched.lastSeq) := by
  have h := Inv.reachable h
  refine ⟨h.nodup, fun r => ?_, h.acked.lastSeq, fun t ht => ?_, fun hs s' e => ?_⟩
  · have hserial := (h.lanes r).serial
    exact ⟨hserial, hserial.nodup (h.nodup.filter _)⟩
  · have ht : t ∈ s.recorded := by simpa using mem_takeWhile_imp ht
    have ⟨hsucc, hfail⟩ := h.succeeded ht
    exact ⟨hsucc, hfail, h.not_pending ht⟩
  · exact (stopped_runs e hs).right

def sampleTask (n : ℕ) (repo : String) : ConsumerTask :=
  ⟨n, repo, .repoCommit repo "" (n + 1)⟩

-- The second task is done before the first, and a third one waits behind the first.
theorem sample_reachable : ∃ s, (system 2 0 fun _ _ => True).Reachable s ∧ s.sched.lastSeq = 2 ∧
    s.added = [sampleTask 0 "a", sampleTask 1 "b", sampleTask 2 "a"] := by
  have h : (system 2 0 fun _ _ => True).Reachable (newScheduler 2) := .init rfl
  have h := h.step <| .addWork (t := sampleTask 0 "a") rfl rfl
  have h := h.step <| .addWork (t := sampleTask 1 "b") rfl rfl
  have h := h.step <| .addWork (t := sampleTask 2 "a") rfl rfl
  have h := h.step <| .handOver [] [] rfl rfl rfl
  have h := h.step <| .handOver [] [_] rfl rfl rfl
  have h := h.step <| .start [] rfl rfl
  have h := h.step <| .succeed [] rfl trivial
  have h := h.step <| .complete [] rfl
  have h := h.step <| .start [_] rfl rfl
  have h := h.step <| .succeed [_] rfl trivial
  have h := h.step <| .complete [_] rfl
  exact ⟨_, h, by decide, rfl⟩

theorem ordered_and_acknowledged_sample : ∃ s, (system 2 0 fun _ _ => True).Reachable s ∧ s.sched.lastSeq = 2 ∧
    lastSeqOf s.finished = 2 ∧ ∀ r, Serial (s.addedOf r) (s.logOf r) := by
  have ⟨s, h, hseq, _⟩ := sample_reachable
  have ⟨_, hserial, hfin, _⟩ := ordered_and_acknowledged h
  exact ⟨s, h, hseq, hfin.symm.trans hseq, fun r => (hserial r).left⟩

end Results

end Relay.Parallel
