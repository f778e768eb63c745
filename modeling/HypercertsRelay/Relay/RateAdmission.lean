import HypercertsRelay.Library.System

-- The lease that lets one Relay process at a time admit frames.
namespace Relay.RateAdmission

open Function

variable [DecidableEq Holder]

-- The one row of the table.
structure Lease (Holder : Type) where
  holder : Holder
  expiresAt : ℤ
deriving DecidableEq

section Statements

variable (holder : Holder)

-- The statements on the row, with whether they affect it. `dbNow` is the time of the database.
def insertOrTake (expiresAt dbNow : ℤ) : Option (Lease Holder) → Option (Lease Holder) × Bool
  | none => (some ⟨holder, expiresAt⟩, true)
  | some l =>
    if l.expiresAt ≤ dbNow ∨ l.holder = holder then (some ⟨holder, expiresAt⟩, true)
    else (some l, false)

def extend (expiresAt dbNow : ℤ) : Option (Lease Holder) → Option (Lease Holder) × Bool
  | none => (none, false)
  | some l =>
    if l.holder = holder ∧ dbNow < l.expiresAt then (some { l with expiresAt }, true)
    else (some l, false)

def delete : Option (Lease Holder) → Option (Lease Holder)
  | none => none
  | some l => if l.holder = holder then none else some l

end Statements

inductive Call where
  | acquire
  | renew
deriving DecidableEq

def Call.statement (call : Call) (holder : Holder) (expiresAt dbNow : ℤ) :
    Option (Lease Holder) → Option (Lease Holder) × Bool :=
  match call with
  | acquire => insertOrTake holder expiresAt dbNow
  | renew => extend holder expiresAt dbNow

-- The baseline of the deadline is read first, then the time of the database, then the row is
-- written, and the deadline is set last.
inductive Phase where
  | idle
  | started (call : Call) (ttl deadlineBase : ℤ)
  | read (call : Call) (ttl deadlineBase now : ℤ)
  | written (call : Call) (ttl deadlineBase : ℤ)
  | lost
  | releasing
deriving DecidableEq

-- The clocks differ from the common time by fixed offsets.
structure Clocks (Holder : Type) where
  offset : Holder → ℤ
  database : ℤ

structure State (Holder : Type) where
  time : ℤ
  row : Option (Lease Holder)
  -- The deadline of each process, as long as it has a holder set.
  deadline : Holder → Option ℤ
  phase : Holder → Phase

namespace State

variable (K : Clocks Holder) (s : State Holder) (p : Holder)

def clock : ℤ := s.time + K.offset p

def databaseClock : ℤ := s.time + K.database

def setPhase (phase : Phase) : State Holder :=
  { s with phase := update s.phase p phase }

def setDeadline (deadline : Option ℤ) : State Holder :=
  { s with deadline := update s.deadline p deadline }

-- What the database answers to the statement of a call.
def write (call : Call) (ttl deadlineBase now dbNow : ℤ) : State Holder :=
  match call.statement p (now + ttl) dbNow s.row with
  | (row, true) => { s with row }.setPhase p (.written call ttl deadlineBase)
  | (row, false) =>
    { s with row }.setPhase p (match call with
      | .acquire => .idle
      | .renew => .lost)

-- A renewal sets the deadline only if the process still has its holder set.
def finish (call : Call) (ttl deadlineBase : ℤ) : State Holder :=
  match call with
  | .acquire => (s.setDeadline p (some (deadlineBase + ttl))).setPhase p .idle
  | .renew =>
    (s.setDeadline p ((s.deadline p).map fun _ => deadlineBase + ttl)).setPhase p .idle

-- `lockRateAdmission` succeeds.
def Admits : Prop :=
  ∃ d, s.deadline p = some d ∧ s.clock K p < d

end State

-- The database time may be rounded down. A call may end with an error after any step, also one that
-- took effect.
inductive Step (K : Clocks Holder) : State Holder → State Holder → Prop where
  | tick {d} : 0 ≤ d → Step K s { s with time := s.time + d }
  | start {ttl} :
    s.phase p = .idle → 0 < ttl → Step K s (s.setPhase p (.started call ttl (s.clock K p)))
  | read {ttl base now} :
    s.phase p = .started call ttl base → now ≤ s.databaseClock K →
    Step K s (s.setPhase p (.read call ttl base now))
  | write {ttl base now dbNow} :
    s.phase p = .read call ttl base now → dbNow ≤ s.databaseClock K →
    Step K s (s.write p call ttl base now dbNow)
  | finish :
    s.phase p = .written call ttl base → Step K s (s.finish p call ttl base)
  | clear :
    s.phase p = .lost → Step K s ((s.setDeadline p none).setPhase p .idle)
  | release :
    s.phase p = .idle → Step K s ((s.setDeadline p none).setPhase p .releasing)
  | delete :
    s.phase p = .releasing → Step K s ({ s with row := delete p s.row }.setPhase p .idle)
  | error : Step K s (s.setPhase p .idle)
  | expire :
    ¬s.Admits K p → Step K s (s.setDeadline p none)
  | crash :
    Step K s ((s.setDeadline p none).setPhase p .idle)

def system (K : Clocks Holder) : System (State Holder) where
  init s := s.row = none ∧ ∀ p, s.deadline p = none ∧ s.phase p = .idle
  step := Step K

-- No call asks for an earlier deadline, and the time is not rounded down to before the baseline.
structure Prudent (K : Clocks Holder) (s s' : State Holder) : Prop where
  start : ∀ p call ttl base, s.phase p = .idle → s'.phase p = .started call ttl base →
    ∀ d, s.deadline p = some d → d ≤ base + ttl
  read : ∀ p call ttl base now, s'.phase p = .read call ttl base now →
    base - K.offset p ≤ now - K.database

section Inv

variable {K : Clocks Holder}

-- Until the deadline the row belongs to the process, and it does not expire before.
def Backed (K : Clocks Holder) (s : State Holder) (p : Holder) (d : ℤ) : Prop :=
  s.clock K p < d → ∃ e, s.row = some ⟨p, e⟩ ∧ d - K.offset p ≤ e - K.database

-- What is known of a process from how far it is.
def PhaseInv (K : Clocks Holder) (s : State Holder) (p : Holder) : Phase → Prop
  | .idle | .lost => True
  | .started _ ttl base => ∀ d, s.deadline p = some d → d ≤ base + ttl
  | .read _ ttl base now =>
    (∀ d, s.deadline p = some d → d ≤ base + ttl) ∧ base - K.offset p ≤ now - K.database
  | .written _ ttl base => Backed K s p (base + ttl)
  | .releasing => s.deadline p = none

structure Inv (K : Clocks Holder) (s : State Holder) : Prop where
  backed : ∀ p d, s.deadline p = some d → Backed K s p d
  phase : ∀ p, PhaseInv K s p (s.phase p)

omit [DecidableEq Holder] in
-- A process that is admitted excludes any other.
theorem Inv.exclusive (hi : Inv K s) (hp : s.Admits K p) (hq : s.Admits K q) : p = q := by
  have ⟨d, hd, hlt⟩ := hp
  have ⟨d', hd', hlt'⟩ := hq
  have ⟨e, hrow, _⟩ := hi.backed p d hd hlt
  have ⟨e', hrow', _⟩ := hi.backed q d' hd' hlt'
  cases hrow.symm.trans hrow'
  rfl

omit [DecidableEq Holder] in
theorem Backed.mono (hb : Backed K s p d) (htime : s.time ≤ s'.time)
    (hrow : ∀ e, s.row = some ⟨p, e⟩ → s.databaseClock K < e → s'.row = some ⟨p, e⟩) :
    Backed K s' p d := by
  intro hlt
  have hlt₀ : s.clock K p < d := by
    rw [State.clock] at hlt ⊢
    omega
  have ⟨e, he, hle⟩ := hb hlt₀
  refine ⟨e, hrow e he ?_, hle⟩
  rw [State.clock] at hlt₀
  rw [State.databaseClock]
  omega

-- A step of one process, which takes nothing from the others.
structure Keeps (K : Clocks Holder) (s s' : State Holder) (p : Holder) : Prop where
  time : s'.time = s.time
  deadline : ∀ q ≠ p, s'.deadline q = s.deadline q
  phase : ∀ q ≠ p, s'.phase q = s.phase q
  row : ∀ q ≠ p, ∀ e, s.row = some ⟨q, e⟩ → s.databaseClock K < e → s'.row = some ⟨q, e⟩

omit [DecidableEq Holder] in
theorem Keeps.phaseInv (hk : Keeps K s s' p) (hq : q ≠ p) (hi : PhaseInv K s q (s.phase q)) :
    PhaseInv K s' q (s'.phase q) := by
  rw [hk.phase q hq]
  cases hphase : s.phase q with
  | idle => trivial
  | lost => trivial
  | started _ ttl base =>
    rw [hphase] at hi
    rwa [PhaseInv, hk.deadline q hq]
  | read _ ttl base now =>
    rw [hphase] at hi
    rwa [PhaseInv, hk.deadline q hq]
  | written _ ttl base =>
    rw [hphase] at hi
    exact Backed.mono hi hk.time.ge (hk.row q hq)
  | releasing =>
    rw [hphase] at hi
    rwa [PhaseInv, hk.deadline q hq]

theorem Inv.of_keeps (hi : Inv K s) (hk : Keeps K s s' p)
    (hbacked : ∀ d, s'.deadline p = some d → Backed K s' p d)
    (hphase : PhaseInv K s' p (s'.phase p)) : Inv K s' := by
  constructor
  case backed =>
    intro q d hd
    by_cases hq : q = p
    · exact hq ▸ hbacked d (hq ▸ hd)
    · exact (hi.backed q d (hk.deadline q hq ▸ hd)).mono hk.time.ge (hk.row q hq)
  case phase =>
    intro q
    by_cases hq : q = p
    · exact hq ▸ hphase
    · exact hk.phaseInv hq (hi.phase q)

end Inv

section Statement

variable {p q : Holder} {call : Call}

-- A lease that has not expired is not taken from another process.
theorem statement_other (hq : q ≠ p) (hlt : dbNow < e) :
    call.statement p expiresAt dbNow (some ⟨q, e⟩) = (some ⟨q, e⟩, false) := by
  cases call with
  | acquire => simp [Call.statement, insertOrTake, hq, hlt]
  | renew => simp [Call.statement, extend, hq]

theorem statement_of_true (h : call.statement p expiresAt dbNow row = (row', true)) :
    row' = some ⟨p, expiresAt⟩ := by
  cases row with
  | none => cases call <;> simp_all [Call.statement, insertOrTake, extend]
  | some l =>
    cases call with
    | acquire =>
      simp only [Call.statement, insertOrTake] at h
      split_ifs at h
      · cases h
        rfl
      · cases h
    | renew =>
      simp only [Call.statement, extend] at h
      split_ifs at h with hl
      · cases h
        rw [←hl.left]
      · cases h

theorem statement_of_false (h : call.statement p expiresAt dbNow row = (row', false)) :
    row' = row := by
  cases row with
  | none => cases call <;> simp_all [Call.statement, insertOrTake, extend]
  | some l =>
    cases call <;> simp only [Call.statement, insertOrTake, extend] at h <;> split_ifs at h <;>
      cases h <;> rfl

theorem delete_other (hq : q ≠ p) : delete p (some ⟨q, e⟩) = some ⟨q, e⟩ := by
  simp [delete, hq]

end Statement

section Run

variable {K : Clocks Holder} {s s' : State Holder}

@[simp]
theorem setPhase_phase (s : State Holder) (phase : Phase) : (s.setPhase p phase).phase p = phase :=
  update_self ..

@[simp]
theorem setDeadline_deadline (s : State Holder) (d : Option ℤ) :
    (s.setDeadline p d).deadline p = d :=
  update_self ..

theorem keeps_set (d : Option ℤ) (phase : Phase) :
    Keeps K s ((s.setDeadline p d).setPhase p phase) p :=
  ⟨rfl, fun _ hq => update_of_ne hq .., fun _ hq => update_of_ne hq .., fun _ _ _ he _ => he⟩

theorem keeps_setPhase (phase : Phase) : Keeps K s (s.setPhase p phase) p :=
  ⟨rfl, fun _ _ => rfl, fun _ hq => update_of_ne hq .., fun _ _ _ he _ => he⟩

theorem keeps_setDeadline (d : Option ℤ) : Keeps K s (s.setDeadline p d) p :=
  ⟨rfl, fun _ hq => update_of_ne hq .., fun _ _ => rfl, fun _ _ _ he _ => he⟩

section

variable (hi : Inv K s) {phase : Phase}

include hi

theorem Inv.setPhase (hphase : PhaseInv K (s.setPhase p phase) p phase) :
    Inv K (s.setPhase p phase) := by
  refine hi.of_keeps (keeps_setPhase phase) (hi.backed p) ?_
  rwa [setPhase_phase]

theorem Inv.clear (hphase : PhaseInv K ((s.setDeadline p none).setPhase p phase) p phase) :
    Inv K ((s.setDeadline p none).setPhase p phase) := by
  refine hi.of_keeps (keeps_set none phase) (fun d hd => ?_) ?_
  · simp [State.setPhase, State.setDeadline] at hd
  · rwa [setPhase_phase]

-- The row is written while the process reads its new deadline off an earlier time.
theorem Inv.write (hphase : s.phase p = .read call ttl base now)
    (hnow : dbNow ≤ s.databaseClock K) : Inv K (s.write p call ttl base now dbNow) := by
  have hp := hi.phase p
  rw [hphase] at hp
  have ⟨hdeadline, hbase⟩ := hp
  unfold State.write
  generalize hst : call.statement p (now + ttl) dbNow s.row = st
  have ⟨row', taken⟩ := st
  cases taken with
  | false =>
    have hrow := statement_of_false hst
    subst hrow
    exact hi.setPhase (by cases call <;> trivial)
  | true =>
    have hrow := statement_of_true hst
    subst hrow
    have hbacked (d : ℤ) (hd : d ≤ base + ttl) :
        Backed K ({ s with row := some ⟨p, now + ttl⟩ }.setPhase p (.written call ttl base)) p d :=
      fun _ => ⟨now + ttl, rfl, by omega⟩
    refine hi.of_keeps ⟨rfl, fun _ _ => rfl, fun _ hq => update_of_ne hq .., ?_⟩ ?_ ?_
    · intro q hq e he hlt
      rw [he, statement_other hq (hnow.trans_lt hlt)] at hst
      cases hst
    · exact fun d hd => hbacked d (hdeadline d hd)
    · rw [setPhase_phase]
      exact hbacked _ (le_refl _)

theorem Inv.finish (hphase : s.phase p = .written call ttl base) :
    Inv K (s.finish p call ttl base) := by
  have hp : Backed K s p (base + ttl) := by
    have hp := hi.phase p
    rwa [hphase] at hp
  have hset (d : Option ℤ) (hd : ∀ d', d = some d' → d' = base + ttl) :
      Inv K ((s.setDeadline p d).setPhase p .idle) := by
    refine hi.of_keeps (keeps_set d .idle) (fun d' hd' => ?_) ?_
    · rw [hd d' (by simpa [State.setPhase, State.setDeadline] using hd')]
      exact hp
    · rw [setPhase_phase]
      trivial
  cases call with
  | acquire => exact hset _ (by simp)
  | renew => exact hset _ (by simp)

theorem Inv.step (hs : Step K s s') (hc : Prudent K s s') : Inv K s' := by
  cases hs with
  | @tick d hd =>
    have hrow {q} {d'} (hb : Backed K s q d') :
        Backed K { s with time := s.time + d } q d' :=
      hb.mono (by simpa using hd) fun _ he _ => he
    refine ⟨fun q d' hd' => hrow (hi.backed q d' hd'), fun q => ?_⟩
    have hq := hi.phase q
    cases hphase : s.phase q <;> rw [hphase] at hq
    case written => exact hrow hq
    all_goals exact hq
  | @start p call ttl hidle _ =>
    refine hi.setPhase fun d hd => ?_
    exact hc.start p call ttl _ hidle (update_self ..) d hd
  | @read p call ttl base now hphase _ =>
    have hp := hi.phase p
    rw [hphase] at hp
    exact hi.setPhase ⟨hp, hc.read p call ttl base now (update_self ..)⟩
  | write hphase hnow => exact hi.write hphase hnow
  | finish hphase => exact hi.finish hphase
  | clear _ => exact hi.clear trivial
  | release _ => exact hi.clear (by simp [PhaseInv, State.setPhase, State.setDeadline])
  | @delete p hphase =>
    have hp : s.deadline p = none := by
      have hp := hi.phase p
      rwa [hphase] at hp
    refine hi.of_keeps ⟨rfl, fun _ _ => rfl, fun _ hq => update_of_ne hq .., ?_⟩ ?_ ?_
    · intro q hq e he _
      rw [State.setPhase, he]
      exact delete_other hq
    · intro d hd
      cases hp.symm.trans hd
    · rw [setPhase_phase]
      trivial
  | error => exact hi.setPhase trivial
  | @expire p _ =>
    refine hi.of_keeps (keeps_setDeadline none) (fun d hd => ?_) ?_
    · simp [State.setDeadline] at hd
    have hp := hi.phase p
    have hsame : (s.setDeadline p none).phase p = s.phase p := rfl
    rw [hsame]
    cases hphase : s.phase p <;> rw [hphase] at hp
    case written => exact hp
    case read => exact ⟨by simp, hp.right⟩
    all_goals simp [PhaseInv]
  | crash => exact hi.clear trivial

end

theorem inv_of_reachable (h : ((system K).restrict (Prudent K)).Reachable s) : Inv K s := by
  refine h.invariant (fun s hs => ?_) fun s t _ hi hst => hi.step hst.left hst.right
  refine ⟨fun p d hd => ?_, fun p => ?_⟩
  · cases (hs.right p).left.symm.trans hd
  · rw [(hs.right p).right]
    trivial

end Run

section Sample

def sampleClocks : Clocks Bool := ⟨fun _ => 0, 0⟩

def sampleStart : State Bool := ⟨0, none, fun _ => none, fun _ => .idle⟩

end Sample

end Relay.RateAdmission
