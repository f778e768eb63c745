import HypercertsRelay.Jetstream.Jobs.Commands
import HypercertsRelay.Library.System

-- The worker lists the repositories of a claimed job, reconciles them one by one and reports an
-- outcome, while the manager goes on serving commands.
namespace Jetstream.Jobs.Acquisition

open Function

abbrev Id (Pds : Type) := Pds × ℕ × Reason × ℕ

-- What a job has of its listing. Revisions stand for the integers of their TIDs.
structure Inventory (Did : Type) where
  entries : AList fun _ : Did => ℕ
  totalReposKnown : Bool
  completedRepos : Did → Option ℕ

def Inventory.empty (Did : Type) : Inventory Did :=
  ⟨∅, false, fun _ => none⟩

def completedRevisionAtLeast (completed : Option ℕ) (listed : ℕ) : Bool :=
  completed.any (listed ≤ ·)

variable [DecidableEq Pds] [DecidableEq Did]

namespace Inventory

-- A page with a repository at another revision than before is refused. The last page drops the
-- checkpoints without use.
def checkpoint (inv : Inventory Did) (page : List (Did × ℕ)) (complete : Bool) :
    Option (Inventory Did) :=
  if page.any fun e => (inv.entries.lookup e.1).any (· ≠ e.2) then none
  else
    let entries := page.foldl (fun entries e => entries.insert e.1 e.2) inv.entries
    some {
      entries
      totalReposKnown := inv.totalReposKnown || complete
      completedRepos := fun did =>
        if !complete || (entries.lookup did).any (completedRevisionAtLeast (inv.completedRepos did))
        then inv.completedRepos did
        else none }

-- The frozen listing.
def listed (inv : Inventory Did) : List (Did × ℕ) :=
  inv.entries.entries.map fun e => (e.1, e.2)

def checkpointRepository (inv : Inventory Did) (did : Did) (revision : ℕ) : Inventory Did :=
  { inv with completedRepos := update inv.completedRepos did (some revision) }

-- A retry of a failed job lists the source anew and keeps the checkpoints.
def resetRetry (inv : Inventory Did) : Inventory Did :=
  { inv with entries := ∅, totalReposKnown := false }

end Inventory

-- What became of a frozen repository. All of it is unset when the repository was acquired.
structure RepositoryOutcome where
  retryPending : Bool
  stop : Bool
  unavailable : Bool
  permanent : Bool
deriving DecidableEq

def RepositoryOutcome.acquired : RepositoryOutcome :=
  ⟨false, false, false, false⟩

def mergeFrozenRepositoryOutcome (total current : RepositoryOutcome) : RepositoryOutcome where
  retryPending := total.retryPending || current.retryPending
  stop := total.stop
  unavailable := total.unavailable || current.unavailable
  permanent := total.permanent || current.permanent

def RepositoryOutcome.result (total : RepositoryOutcome) : Manager.Outcome :=
  if total.retryPending then .yielded
  else if total.permanent then .rejected
  else if total.unavailable then .unavailable
  else .completed

-- It works on the checkpoints as they were when the frozen inventory was read.
inductive Worker (Pds Did : Type) where
  | enumerating (id : Id Pds)
  | scanning (id : Id Pds) (completed : Did → Option ℕ) (left : List (Did × ℕ))
    (total : RepositoryOutcome)
  -- The repository is in the archive and its checkpoint is not there yet.
  | reconciled (id : Id Pds) (completed : Did → Option ℕ) (left : List (Did × ℕ))
    (total : RepositoryOutcome) (did : Did) (listed revision : ℕ)
  | finished (id : Id Pds) (outcome : Manager.Outcome)

def Worker.id : Worker Pds Did → Id Pds
  | enumerating id | scanning id _ _ _
  | reconciled id _ _ _ _ _ _ | finished id _ => id

structure State (Pds Did : Type) where
  manager : Manager Pds
  inventory : Id Pds → Inventory Did
  -- The successful reconciliations: policy revision, repository and its revision.
  archive : List (ℕ × Did × ℕ)
  worker : Option (Worker Pds Did)

def Active (m : Manager Pds) (id : Id Pds) : Prop :=
  ∃ job ∈ m.data.jobs, job.id = id ∧ m.active job

def Running (d : Data Pds) (id : Id Pds) : Prop :=
  ∃ job ∈ d.jobs, job.id = id ∧ job.state = .running

def startScan (s : State Pds Did) (id : Id Pds) : Worker Pds Did :=
  .scanning id (s.inventory id).completedRepos (s.inventory id).listed .acquired

def transition (d : Data Pds) (id : Id Pds) (state : JobState) : Data Pds :=
  d.mapJobs fun job => if job.id = id then job.setState state else job

inductive Step : State Pds Did → State Pds Did → Prop where
  | command (pds : Pds) (c : Command) :
    Step s { s with manager := s.manager.apply (.command pds c) }
  | setPolicy : Step s { s with manager := s.manager.commitPolicy }
  | cancel {job} : job ∈ s.manager.data.jobs →
    job.state.unfinished →
    Step s { s with manager.data := transition s.manager.data job.id .canceled }
  | retry {job} : job ∈ s.manager.data.jobs →
    s.manager.data.enabled job.pds → job.policyRevision = s.manager.policy →
    ¬Running s.manager.data job.id →
    Step s { s with
      manager.data := transition s.manager.data job.id .pending
      inventory := if job.state = .failed then
          update s.inventory job.id (s.inventory job.id).resetRetry
        else s.inventory }
  | restart : Step s { s with manager := s.manager.restart, worker := none }
  -- The one runner claims a job when it has none.
  | claim {id} : s.worker = none →
    Running (s.manager.claim id).data id → ¬Running s.manager.data id →
    Step s { s with
      manager := s.manager.claim id
      worker := some (if (s.inventory id).totalReposKnown then startScan s id
        else .enumerating id) }
  -- A pending job of another source revision is canceled.
  | claimStale {id} : s.worker = none →
    ¬Running (s.manager.claim id).data id → Step s { s with manager := s.manager.claim id }
  | checkpointInventory {id inv}
    (page : List (Did × ℕ)) (complete : Bool) : s.worker = some (.enumerating id) →
    Active s.manager id → (s.inventory id).checkpoint page complete = some inv →
    Step s { s with
      inventory := update s.inventory id inv
      worker := some (if complete then
          .scanning id inv.completedRepos inv.listed .acquired
        else .enumerating id) }
  | skip {id completed left total did listed} :
    s.worker = some (.scanning id completed ((did, listed) :: left) total) →
    completedRevisionAtLeast (completed did) listed →
    Step s { s with worker := some (.scanning id completed left total) }
  -- A repository that is cooling down, fails or is rejected, whatever the source answers.
  | repositoryFails {id completed left total entry}
    (current : RepositoryOutcome) :
    s.worker = some (.scanning id completed (entry :: left) total) →
    current.retryPending ∨ current.unavailable ∨ current.permanent →
    Step s { s with worker := some (.scanning id completed (if current.stop then [] else left)
      (mergeFrozenRepositoryOutcome total current)) }
  -- The download is verified against the listing, and taken while the job is active.
  | apply {id completed left total did listed}
    (revision : ℕ) : s.worker = some (.scanning id completed ((did, listed) :: left) total) →
    Active s.manager id → listed ≤ revision →
    Step s { s with
      archive := (s.manager.policy, did, revision) :: s.archive
      worker := some (.reconciled id completed left total did listed revision) }
  | checkpointRepository {id completed left total did listed revision} :
    s.worker = some (.reconciled id completed left total did listed revision) →
    Active s.manager id → (s.inventory id).entries.lookup did = some listed → listed ≤ revision →
    Step s { s with
      inventory := update s.inventory id ((s.inventory id).checkpointRepository did revision)
      worker := some (.scanning id completed left total) }
  -- The listing fails or is invalid, an operation is refused, or the job is canceled.
  | abort {w} (outcome : Manager.Outcome) :
    s.worker = some w → outcome ≠ .completed →
    Step s { s with worker := some (.finished w.id outcome) }
  | scanned {id completed total} : s.worker = some (.scanning id completed [] total) →
    Step s { s with worker := some (.finished id total.result) }
  | persistJobOutcome {id : Id Pds} {outcome} :
    s.worker = some (.finished id outcome) →
    Step s { s with manager := s.manager.persistJobOutcome id outcome, worker := none }

structure Initial (s : State Pds Did) : Prop where
  jobs : s.manager.data.jobs = []
  inventory : s.inventory = fun _ => .empty Did
  archive : s.archive = []
  worker : s.worker = none

def system (Pds Did : Type) [DecidableEq Pds] [DecidableEq Did] : System (State Pds Did) where
  init := Initial
  step := Step

-- The job with the id is not complete before and complete after.
def Completes (d d' : Data Pds) (id : Id Pds) : Prop :=
  (∀ job ∈ d.jobs, job.id = id → job.state ≠ .complete) ∧
    ∃ job ∈ d'.jobs, job.id = id ∧ job.state = .complete

end Jetstream.Jobs.Acquisition
