import HypercertsRelay.Library.Serial
import HypercertsRelay.Library.System
import HypercertsRelay.Relay.Stream

-- The scheduler that hands the events of a connection to a fixed number of workers.
namespace Relay.Parallel

open Function
open Relay.Stream (XRPCStreamEvent)

-- Tasks are compared by address.
structure ConsumerTask where
  address : ℕ
  repo : String
  val : XRPCStreamEvent
  deriving DecidableEq, Repr

abbrev ConsumerTask.seq (t : ConsumerTask) : ℤ :=
  t.val.sequence

inductive Error
  | handler (msg : String)
  | context
  | schedulerStopped
  deriving DecidableEq, Repr

-- `cancelled` is the state of the context the workers share.
structure Scheduler where
  feeder : List ConsumerTask
  active : String → Option (List ConsumerTask)
  stopped : Bool
  err : Option Error
  ackQueue : List ConsumerTask
  completed : ConsumerTask → Bool
  lastSeq : ℤ
  cancelled : Bool

namespace Scheduler

def new : Scheduler where
  feeder := []
  active := fun _ => none
  stopped := false
  err := none
  ackQueue := []
  completed := fun _ => false
  lastSeq := 0
  cancelled := false

-- The part under the lock. The caller of a first task of its repository goes on to the feeder.
def addWork (p : Scheduler) (t : ConsumerTask) : Except Error (Scheduler × Bool) :=
  match p.err with
  | some err => .error err
  | none =>
    if p.stopped then .error .schedulerStopped
    else
      let p := if 0 < t.seq then { p with ackQueue := p.ackQueue ++ [t] } else p
      match p.active t.repo with
      | some a =>
        .ok ({ p with active := update p.active t.repo (some (a ++ [t])) }, false)
      | none =>
        .ok ({ p with active := update p.active t.repo (some [t]) }, true)

-- Once only, and before the context is cancelled.
def stop (p : Scheduler) (err : Option Error) : Scheduler :=
  if p.stopped then p
  else
    { p with
      stopped := true
      err := err
      active := fun _ => none
      ackQueue := []
      completed := fun _ => false }

-- The loop over the head of the queue.
def acknowledge (completed : ConsumerTask → Bool) (lastSeq : ℤ) :
    List ConsumerTask → (ConsumerTask → Bool) × ℤ × List ConsumerTask
  | [] => (completed, lastSeq, [])
  | head :: rest =>
    if completed head then acknowledge (update completed head false) head.seq rest
    else (completed, lastSeq, head :: rest)

def complete (p : Scheduler) (work : ConsumerTask) : Scheduler :=
  if 0 < work.seq then
    let (completed, lastSeq, ackQueue) :=
      acknowledge (update p.completed work true) p.lastSeq p.ackQueue
    { p with completed := completed, lastSeq := lastSeq, ackQueue := ackQueue }
  else p

def next (p : Scheduler) (work : ConsumerTask) : Scheduler × Option ConsumerTask :=
  match p.active work.repo with
  | some (head :: tail) =>
    if head = work then
      match tail with
      | [] => ({ p with active := update p.active work.repo none }, none)
      | task :: _ =>
        ({ p with active := update p.active work.repo (some tail) }, some task)
    else ({ p with active := update p.active work.repo none }, none)
  | _ => ({ p with active := update p.active work.repo none }, none)

def completeAndNext (p : Scheduler) (work : ConsumerTask) : Scheduler × Option ConsumerTask :=
  if p.stopped then (p, none) else (p.complete work).next work

end Scheduler

-- What a worker does: it waits, has a task in hand, is in the handler, or is behind it.
inductive Worker
  | idle
  | next (t : ConsumerTask)
  | running (t : ConsumerTask)
  | succeeded (t : ConsumerTask)
  | failed (t : ConsumerTask) (err : Error)
  | exited
  deriving DecidableEq, Repr

def Worker.ofNext : Option ConsumerTask → Worker
  | none => idle
  | some t => next t

-- `senders` wait for the feeder. The last three fields are what has happened: the tasks as they
-- were added, the calls of the handler, and the recorded completions.
structure State where
  sched : Scheduler
  senders : List ConsumerTask
  workers : List Worker
  added : List ConsumerTask
  log : List (Act ConsumerTask)
  recorded : List ConsumerTask

def newScheduler (maxC : ℤ) : State :=
  ⟨.new, [], List.replicate (max maxC 1).toNat .idle, [], [], []⟩

section Step

-- What the handler may return for an event.
variable (maxQ : ℤ) (handler : XRPCStreamEvent → Except Error Unit → Prop)

inductive Step : State → State → Prop
  | addWork {s t p waits} :
    t.address = s.added.length → s.sched.addWork t = .ok (p, waits) →
    Step s
      { s with
        sched := p
        senders := if waits then t :: s.senders else s.senders
        added := s.added ++ [t] }
  | send {s t l₂} (l₁ : List ConsumerTask) :
    s.senders = l₁ ++ t :: l₂ → s.sched.feeder.length < maxQ.toNat →
    Step s
      { s with
        sched := { s.sched with feeder := s.sched.feeder ++ [t] }
        senders := l₁ ++ l₂ }
  -- Sender and receiver meet.
  | handOver {s t l₂ w₂} (l₁ : List ConsumerTask) (w₁ : List Worker) :
    s.senders = l₁ ++ t :: l₂ → s.sched.feeder = [] → s.workers = w₁ ++ .idle :: w₂ →
    Step s { s with senders := l₁ ++ l₂, workers := w₁ ++ .next t :: w₂ }
  | cancelSend {s t l₂} (l₁ : List ConsumerTask) :
    s.senders = l₁ ++ t :: l₂ →
    Step s { s with sched := s.sched.stop (some .context), senders := l₁ ++ l₂ }
  | abandonSend {s t l₂} (l₁ : List ConsumerTask) :
    s.senders = l₁ ++ t :: l₂ → s.sched.cancelled = true →
    Step s { s with senders := l₁ ++ l₂ }
  | receive {s t feeder w₂} (w₁ : List Worker) :
    s.sched.feeder = t :: feeder → s.workers = w₁ ++ .idle :: w₂ →
    Step s
      { s with sched := { s.sched with feeder := feeder }, workers := w₁ ++ .next t :: w₂ }
  | exit {s w w₂} (w₁ : List Worker) :
    s.workers = w₁ ++ w :: w₂ → w = .idle ∨ (∃ t, w = .next t) → s.sched.cancelled = true →
    Step s { s with workers := w₁ ++ .exited :: w₂ }
  | start {s t w₂} (w₁ : List Worker) :
    s.workers = w₁ ++ .next t :: w₂ → s.sched.cancelled = false →
    Step s { s with workers := w₁ ++ .running t :: w₂, log := s.log ++ [.started t] }
  | succeed {s t w₂} (w₁ : List Worker) :
    s.workers = w₁ ++ .running t :: w₂ → handler t.val (.ok ()) →
    Step s { s with workers := w₁ ++ .succeeded t :: w₂, log := s.log ++ [.succeeded t] }
  | fail {s t w₂} (w₁ : List Worker) (err : Error) :
    s.workers = w₁ ++ .running t :: w₂ → handler t.val (.error err) →
    Step s { s with workers := w₁ ++ .failed t err :: w₂, log := s.log ++ [.failed t] }
  | stopFailed {s t err w₂} (w₁ : List Worker) :
    s.workers = w₁ ++ .failed t err :: w₂ →
    Step s { s with sched := s.sched.stop (some err), workers := w₁ ++ .exited :: w₂ }
  | complete {s t w₂} (w₁ : List Worker) :
    s.workers = w₁ ++ .succeeded t :: w₂ →
    Step s
      { s with
        sched := (s.sched.completeAndNext t).1
        workers := w₁ ++ .ofNext (s.sched.completeAndNext t).2 :: w₂
        recorded := if s.sched.stopped then s.recorded else s.recorded ++ [t] }
  | shutdown {s} :
    Step s { s with sched := s.sched.stop none }
  | cancel {s} :
    s.sched.stopped = true →
    Step s { s with sched := { s.sched with cancelled := true } }

end Step

def system (maxC maxQ : ℤ) (handler : XRPCStreamEvent → Except Error Unit → Prop) :
    System State where
  init s := s = newScheduler maxC
  step := Step maxQ handler

end Relay.Parallel
