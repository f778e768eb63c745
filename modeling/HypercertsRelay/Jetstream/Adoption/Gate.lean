import HypercertsRelay.Jetstream.Jobs.Commands
import HypercertsRelay.Library.System

-- The gate between the admission of rows and the adoption of collection policies.
namespace Jetstream.Adoption

open Jobs (Data)

-- `Collections` are normalised lists of collections.
structure Policy (Collections : Type) where
  revision : ℕ
  collections : Collections
deriving DecidableEq

structure Recorded (Collections : Type) extends Policy Collections where
  effectiveAfterSeq : Option ℕ
deriving DecidableEq

-- The policy of an attributed event goes by its revision.
structure Event where
  seq : ℕ
  revision : ℕ
deriving DecidableEq

-- What is durable next to the segments: the selection, the job document and the policy history.
structure Disk (Pds Collections : Type) where
  selection : Policy Collections
  jobs : Data Pds
  history : List (Recorded Collections)

-- Who holds the token. A new process has no gate before its policy is in the history.
inductive Holder (Pds Collections : Type) where
  | unbound
  | free
  | admitted (policy : Policy Collections)
  | adopting (boundary : Option ℕ)
  -- The batch of the adoption is committed, and the managers are about to take it over.
  | committed (next : Disk Pds Collections)

structure State (Pds Collections : Type) where
  events : List Event
  nextSeq : ℕ
  -- The rows below it are durable.
  durableSeq : ℕ
  holder : Holder Pds Collections
  policy : Policy Collections
  data : Data Pds
  disk : Disk Pds Collections

def boundary (nextSeq : ℕ) : Option ℕ :=
  if 1 < nextSeq then some (nextSeq - 1) else none

variable [DecidableEq Pds] [DecidableEq Collections]

def stagePolicy (history : List (Recorded Collections)) (policy : Recorded Collections) :
    Option (List (Recorded Collections)) :=
  match history.find? (·.revision = policy.revision) with
  | some prior => if prior = policy then some history else none
  | none => some (history ++ [policy])

def ensureInitialPolicyHistory (history : List (Recorded Collections))
    (current : Policy Collections) (boundary : Option ℕ) : Option (List (Recorded Collections)) :=
  match history.find? (·.revision = current.revision) with
  | some prior => if prior.collections = current.collections then some history else none
  | none => stagePolicy history { current with effectiveAfterSeq := boundary }

-- The batch with the policy, its history entry and its jobs, when the policy changes at all.
def setPolicyLocked (s : State Pds Collections) (expected : ℕ) (collections : Collections)
    (boundary : Option ℕ) : Option (Disk Pds Collections) :=
  if expected ≠ s.policy.revision then none
  else if collections = s.policy.collections then none
  else if expected = 2 ^ 64 - 1 then none
  else do
    let next : Policy Collections := ⟨expected + 1, collections⟩
    let history ← stagePolicy s.disk.history { next with effectiveAfterSeq := boundary }
    let jobs ← s.data.stagePolicyJobs next.revision
    some ⟨next, jobs, history⟩

inductive Step : State Pds Collections → State Pds Collections → Prop where
  -- The startup adoption, on a writer that has recovered its rows.
  | initializePolicyGate {history} :
    s.holder = .unbound →
    ensureInitialPolicyHistory s.disk.history s.policy (boundary s.nextSeq) = some history →
    Step s { s with
      durableSeq := s.nextSeq, holder := .free, disk := { s.disk with history } }
  | enter : s.holder = .free →
    Step s { s with holder := .admitted s.policy }
  -- A callback appends a row under the policy it was given.
  | append :
    s.holder = .admitted policy →
    Step s { s with
      events := s.events ++ [⟨s.nextSeq, policy.revision⟩], nextSeq := s.nextSeq + 1 }
  | leave :
    s.holder = .admitted policy → Step s { s with holder := .free }
  | flush (seq : ℕ) : s.durableSeq ≤ seq → seq ≤ s.nextSeq →
    Step s { s with durableSeq := seq }
  | adopt : s.holder = .free →
    Step s { s with durableSeq := s.nextSeq, holder := .adopting (boundary s.nextSeq) }
  -- The ends without a commit: the same policy, another revision than expected, an error.
  | abandon : s.holder = .adopting b →
    Step s { s with holder := .free }
  | commit (expected : ℕ) (collections : Collections) : s.holder = .adopting b →
    setPolicyLocked s expected collections b = some next →
    Step s { s with holder := .committed next, disk := next }
  | publish :
    s.holder = .committed next →
    Step s { s with holder := .free, policy := next.selection, data := next.jobs }
  -- The process ends, and the next one opens the stores and recovers the durable rows.
  | crash : Step s { s with
      events := s.events.filter (·.seq < s.durableSeq)
      nextSeq := s.durableSeq
      holder := .unbound
      policy := s.disk.selection
      data := s.disk.jobs.resumePersistedJobs
      disk := { s.disk with jobs := s.disk.jobs.resumePersistedJobs } }

-- The unfinished jobs are of the revision, and every enabled source has a job of it.
structure AtRevision (revision : ℕ) (d : Data Pds) : Prop where
  unfinished : ∀ job ∈ d.jobs, job.state.unfinished → job.policyRevision = revision
  scheduled : ∀ pds, d.enabled pds → ∃ job ∈ d.jobs, job.pds = pds ∧ job.policyRevision = revision

-- A store with a policy and without a history. The rows that are there are not attributed.
structure Initial (s : State Pds Collections) : Prop where
  events : s.events = []
  nextSeq : 0 < s.nextSeq
  durableSeq : s.durableSeq = s.nextSeq
  holder : s.holder = .unbound
  policy : s.policy = s.disk.selection
  data : s.data = s.disk.jobs
  jobs : AtRevision s.disk.selection.revision s.disk.jobs
  history : s.disk.history = []

def system (Pds Collections : Type) [DecidableEq Pds] [DecidableEq Collections] :
    System (State Pds Collections) where
  init := Initial
  step := Step

end Jetstream.Adoption
