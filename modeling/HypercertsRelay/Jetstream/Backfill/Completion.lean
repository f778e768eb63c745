import HypercertsRelay.Library.System

-- The bootstrap's completions and listing cursors, and how they become durable with the blocks.
namespace Jetstream.Backfill

open Function

-- A completed download. `id` tells two of them apart, and `rows` are the seqs of its rows.
structure Completion (Host Did : Type) where
  id : ℕ
  did : Did
  host : Host
  lastSeq : ℕ
  appended : Bool
  rows : List ℕ
  deriving DecidableEq

inductive HostState where
  | running
  | drained
  | exhausted
  deriving DecidableEq

-- A checkpoint of a host. `passed` is how many of its repositories it is behind.
structure HostCursor (Host Did : Type) where
  id : ℕ
  state : HostState
  passed : Option ℕ
  deps : List (Completion Host Did)

inductive Status (Host Did : Type) where
  | notStarted
  | failed
  | complete (completion : Completion Host Did)

structure State (Host Did : Type) where
  -- The repositories each host's pages have led to, and the host one is downloaded for.
  dispatched : Host → List Did
  inflight : Did → Option Host
  -- The rows of the download, latest first.
  rows : Did → List ℕ
  watermarks : Did → Option (ℕ × Bool × List ℕ)
  queued : List (Completion Host Did)
  cursors : Host → Option (HostCursor Host Did)
  nextId : ℕ
  -- What the batch under way holds.
  staged : Option (List (Completion Host Did) × (Host → Option (HostCursor Host Did)))
  nextSeq : ℕ
  durableNextSeq : ℕ
  -- On disk.
  status : Did → Status Host Did
  -- Where listing resumes; a drained host is behind all it has led to and resumes nowhere.
  passed : Host → ℕ
  drained : Host → Bool

variable [DecidableEq Host] [DecidableEq Did]

def Status.Settled : Status Host Did → Prop
  | .notStarted => False
  | _ => True

namespace State

def recordWatermark (s : State Host Did) (did : Did) : State Host Did :=
  { s with
    rows := update s.rows did []
    watermarks := update s.watermarks did
      (some ((s.rows did).headD 0, !(s.rows did).isEmpty, s.rows did)) }

-- A completion of the same repository that is still queued is replaced.
def enqueue (queued : List (Completion Host Did)) (c : Completion Host Did) :
    List (Completion Host Did) :=
  if queued.any (·.did = c.did) then queued.map fun q => if q.did = c.did then c else q
  else queued ++ [c]

def queueComplete (s : State Host Did) (did : Did) (host : Host)
    (watermark : ℕ × Bool × List ℕ) : State Host Did :=
  { s with
    inflight := update s.inflight did none
    watermarks := update s.watermarks did none
    queued := enqueue s.queued ⟨s.nextId, did, host, watermark.1, watermark.2.1, watermark.2.2⟩
    nextId := s.nextId + 1 }

def onFail (s : State Host Did) (did : Did) : State Host Did :=
  { s with
    inflight := update s.inflight did none
    rows := update s.rows did []
    watermarks := update s.watermarks did none
    status := update s.status did .failed }

-- The checkpoint waits for the queued completions of its host, and keeps a cursor to be staged.
def queueHostState (s : State Host Did) (host : Host) (state : HostState) (passed : Option ℕ) :
    State Host Did :=
  let pending := match s.cursors host with
    | some prev => if prev.state = .running then prev.passed else none
    | none => none
  { s with
    nextId := s.nextId + 1
    cursors := update s.cursors host (some
      { id := s.nextId
        state := state
        passed := if state = .exhausted then pending else passed
        deps := s.queued.filter (·.host = host) }) }

def stagedCompletions (s : State Host Did) (nextSeq : ℕ) : List (Completion Host Did) :=
  s.queued.filter fun c => !c.appended || c.lastSeq < nextSeq

-- Every dependency is durable or goes with this batch.
def ready (s : State Host Did) (staged : List (Completion Host Did))
    (cursor : HostCursor Host Did) : Bool :=
  cursor.deps.all fun dep =>
    s.queued.all (·.did ≠ dep.did) || (s.queued.contains dep && staged.contains dep)

def stageDurable (s : State Host Did) (nextSeq : ℕ) : State Host Did :=
  let staged := s.stagedCompletions nextSeq
  { s with
    staged := some (staged, fun host => (s.cursors host).filter (s.ready staged)) }

def commitHost (drained : Bool) (passed : ℕ) : Option (HostCursor Host Did) → ℕ × Bool
  | none => (passed, drained)
  | some c =>
    match c.state with
    | .running => (c.passed.getD 0, false)
    | .drained => (c.passed.getD 0, true)
    | .exhausted => (c.passed.getD (if drained then 0 else passed), false)

def commitStatus (status : Did → Status Host Did) (staged : List (Completion Host Did))
    (did : Did) : Status Host Did :=
  match staged.find? (·.did = did) with
  | some c => .complete c
  | none => status did

def commit (s : State Host Did) (completions : List (Completion Host Did))
    (cursors : Host → Option (HostCursor Host Did)) : State Host Did :=
  { s with
    staged := none
    queued := s.queued.filter (· ∉ completions)
    cursors := fun host =>
      (s.cursors host).filter fun c => (cursors host).all (·.id ≠ c.id)
    status := commitStatus s.status completions
    passed := fun host => (commitHost (s.drained host) (s.passed host) (cursors host)).1
    drained := fun host => (commitHost (s.drained host) (s.passed host) (cursors host)).2 }

-- Listing goes on from what the hosts' records say.
def crash (s : State Host Did) : State Host Did where
  dispatched := fun host => (s.dispatched host).take (s.passed host)
  inflight := fun _ => none
  rows := fun _ => []
  watermarks := fun _ => none
  queued := []
  cursors := fun _ => none
  nextId := s.nextId
  staged := none
  nextSeq := s.durableNextSeq
  durableNextSeq := s.durableNextSeq
  status := s.status
  passed := s.passed
  drained := s.drained

-- All repositories the host's first pages have led to are returned.
def Returned (s : State Host Did) (host : Host) (n : ℕ) : Prop :=
  n ≤ (s.dispatched host).length ∧ ∀ did ∈ (s.dispatched host).take n, s.inflight did ≠ some host

end State

open State

-- Repositories are downloaded for one host at a time. A synchronous flush commits the batch with
-- all appended rows under the mutex; an asynchronous one when its block is done.
inductive Step (async : Bool) : State Host Did → State Host Did → Prop where
  | dispatch (host : Host) (did : Did) : s.inflight did = none →
    Step async s { s with
      dispatched := update s.dispatched host (s.dispatched host ++ [did])
      inflight := update s.inflight did (some host) }
  | append (did : Did) {host} : s.inflight did = some host →
    Step async s { s with
      rows := update s.rows did (s.nextSeq :: s.rows did)
      nextSeq := s.nextSeq + 1 }
  | record (did : Did) {host} : s.inflight did = some host →
    s.watermarks did = none → Step async s (s.recordWatermark did)
  | complete (did : Did) {host} (served : Host)
    {watermark} : s.inflight did = some host →
    s.watermarks did = some watermark → s.rows did = [] →
    Step async s (s.queueComplete did served watermark)
  | fail (did : Did) {host} : s.inflight did = some host →
    Step async s (s.onFail did)
  | saveHostCursor (host : Host) (n : ℕ) : s.Returned host n →
    Step async s (s.queueHostState host .running (some n))
  | onHostDrained (host : Host) :
    s.Returned host (s.dispatched host).length →
    Step async s (s.queueHostState host .drained (some (s.dispatched host).length))
  | onHostExhausted (host : Host) :
    Step async s (s.queueHostState host .exhausted none)
  | flush {n} : s.durableNextSeq ≤ n → n ≤ s.nextSeq →
    Step async s { s with durableNextSeq := n }
  | stage {n} : n ≤ s.durableNextSeq → (async = false → n = s.nextSeq) →
    s.staged = none → Step async s (s.stageDurable n)
  | commit {completions cursors} : s.staged = some (completions, cursors) →
    Step async s (s.commit completions cursors)
  | crash : Step async s s.crash

def system (async : Bool) : System (State Host Did) where
  init s := (∀ host, s.dispatched host = []) ∧ (∀ did, s.inflight did = none) ∧
    (∀ did, s.rows did = []) ∧ (∀ did, s.watermarks did = none) ∧ s.queued = [] ∧
    (∀ host, s.cursors host = none) ∧ s.staged = none ∧ s.durableNextSeq ≤ s.nextSeq ∧
    (∀ did, s.status did = .notStarted) ∧ ∀ host, s.passed host = 0
  step := Step async

end Jetstream.Backfill
