import HypercertsRelay.Relay.Ingest
import HypercertsRelay.Relay.Scheduler.Parallel

-- The subscription to one host, from its stream to the row in the database. Other hosts have their
-- own.
namespace Relay.Slurper

open Relay.Stream (XRPCStreamEvent)
open Parallel (ConsumerTask)

structure Config where
  concurrencyPerHost : ℤ
  queueDepthPerHost : ℤ

-- The scheduler sees no more of the handler than whether it failed.
def handler (e : XRPCStreamEvent) : Except Parallel.Error Unit → Prop
  | .ok _ => ∃ a d, Ingest.eventHandler a e = .ok d
  | .error _ => ∃ a err, Ingest.eventHandler a e = .error err

-- `adding` was read and is not scheduled yet. The host was asked to go on from the cursor.
structure Connection where
  cursor : Option ℤ
  sched : Parallel.State
  start : ℕ
  pos : ℕ
  lastSeq : ℤ
  adding : Option XRPCStreamEvent
  closed : Bool

-- `returned` is set between the end of a connection and the look at what it has brought.
structure Subscription where
  lastSeq : ℤ
  cursor : ℤ
  returned : Bool

-- `host` is what the host has said so far and `lastSeq` its row. In memory there are rows that were
-- read, the subscription, numbers read from a scheduler, and cursors on their way to the database.
-- `delivered` are the positions sent to the relay, `past` the calls of the handler in earlier
-- connections.
structure State where
  host : List XRPCStreamEvent
  lastSeq : ℤ
  rows : List ℤ
  sub : Option Subscription
  conn : Option Connection
  reads : List ℤ
  saving : List ℤ
  delivered : List ℕ
  past : List (Act ConsumerTask)

namespace State

variable (s : State)

def log : List (Act ConsumerTask) :=
  s.past ++ (s.conn.map (·.sched.log)).getD []

def numberAt (i : ℕ) : Option ℤ :=
  s.host[i]?.bind (·.number)

end State

-- The query of the next dial.
def Subscription.query (sub : Subscription) : Option ℤ :=
  if 0 < sub.cursor then some sub.cursor else none

def updateSeq (lastSeq seq : ℤ) : ℤ :=
  if 0 < seq ∧ lastSeq < seq then seq else lastSeq

-- The row changes only to a higher number.
def persistHostCursor (lastSeq cursor : ℤ) : ℤ :=
  if cursor ≤ 0 then lastSeq else if lastSeq < cursor then cursor else lastSeq

-- An event out of order is passed over.
def Connection.accepts (conn : Connection) (e : XRPCStreamEvent) : Bool :=
  e.number.all (conn.lastSeq < ·)

def Connection.read (conn : Connection) (e : XRPCStreamEvent) : Connection :=
  if conn.accepts e then
    { conn with
      pos := conn.pos + 1
      lastSeq := e.number.getD conn.lastSeq
      adding := some e }
  else { conn with pos := conn.pos + 1 }

section Step

variable (o : Config)

inductive Step : State → State → Prop
  -- The numbers of a host go up.
  | publish {s} (e : XRPCStreamEvent) :
    (∀ q ∈ e.number, ∀ f ∈ s.host, ∀ p ∈ f.number, p < q) →
    Step s { s with host := s.host ++ [e] }
  | load {s} :
    Step s { s with rows := s.lastSeq :: s.rows }
  | subscribe {s c} :
    s.sub = none → c ∈ s.rows →
    Step s { s with sub := some ⟨c, c, false⟩ }
  -- Where the stream begins is up to the host.
  | dial {s sub} (start : ℕ) :
    s.sub = some sub → s.conn = none → sub.returned = false → start ≤ s.host.length →
    Step s
      { s with
        conn := some
          ⟨sub.query, Parallel.newScheduler o.concurrencyPerHost, start, start, -1, none, false⟩ }
  | read {s conn e} :
    s.conn = some conn → conn.closed = false → conn.adding = none → conn.sched.senders = [] →
    s.host[conn.pos]? = some e →
    Step s
      { s with conn := some (conn.read e), delivered := s.delivered ++ [conn.pos] }
  | addWork {s conn e sched} :
    s.conn = some conn → conn.closed = false → conn.adding = some e →
    Parallel.Step o.queueDepthPerHost handler conn.sched sched →
    sched.added = conn.sched.added ++ [⟨conn.sched.added.length, e.repo, e⟩] →
    Step s { s with conn := some { conn with sched := sched, adding := none } }
  | schedule {s conn sched} :
    s.conn = some conn → Parallel.Step o.queueDepthPerHost handler conn.sched sched →
    sched.added = conn.sched.added →
    Step s { s with conn := some { conn with sched := sched } }
  -- The connection breaks, is cancelled, or an event is not taken.
  | close {s conn} :
    s.conn = some conn → Step s { s with conn := some { conn with closed := true } }
  | finish {s sub conn} :
    s.sub = some sub → s.conn = some conn → conn.closed = true →
    conn.sched.sched.stopped = true → (∀ w ∈ conn.sched.workers, w = .exited) →
    Step s
      { s with
        sub := some
          { sub with
            lastSeq := updateSeq sub.lastSeq conn.sched.sched.lastSeq
            returned := true }
        conn := none
        past := s.past ++ conn.sched.log }
  | progress {s sub} :
    s.sub = some sub → sub.returned = true → sub.cursor < sub.lastSeq →
    Step s
      { s with
        sub := some ⟨sub.lastSeq, sub.lastSeq, false⟩
        saving := sub.lastSeq :: s.saving }
  | noProgress {s sub} :
    s.sub = some sub → sub.returned = true → sub.lastSeq ≤ sub.cursor →
    Step s { s with sub := some { sub with returned := false } }
  | readSeq {s conn} :
    s.conn = some conn → Step s { s with reads := conn.sched.sched.lastSeq :: s.reads }
  | storeSeq {s sub seq} :
    s.sub = some sub → seq ∈ s.reads →
    Step s { s with sub := some { sub with lastSeq := updateSeq sub.lastSeq seq } }
  | hostCursor {s sub} :
    s.sub = some sub → Step s { s with saving := sub.lastSeq :: s.saving }
  | persist {s c} (l₁ l₂ : List ℤ) :
    s.saving = l₁ ++ c :: l₂ →
    Step s { s with lastSeq := persistHostCursor s.lastSeq c, saving := l₁ ++ l₂ }
  | notPersisted {s c} (l₁ l₂ : List ℤ) :
    s.saving = l₁ ++ c :: l₂ → Step s { s with saving := l₁ ++ l₂ }
  -- The source is stopped, or the host is given up.
  | unsubscribe {s sub} :
    s.sub = some sub → s.conn = none →
    Step s { s with sub := none, saving := sub.lastSeq :: s.saving }
  | crash {s} :
    Step s
      { s with
        rows := []
        sub := none
        conn := none
        reads := []
        saving := []
        past := s.log }

end Step

def defaultLastSeq : ℤ := -1

def system (o : Config) : System State where
  init s := s = ⟨[], defaultLastSeq, [], none, none, [], [], [], []⟩
  step := Step o

end Relay.Slurper
