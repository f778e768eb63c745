import Mathlib

-- The job document: the sources with their lifecycle revisions, and the acquisition jobs.
namespace Jetstream.Jobs

inductive JobState where
  | pending
  | running
  | complete
  | failed
  | canceled
  | incomplete
deriving DecidableEq

def JobState.unfinished : JobState → Bool
  | pending | running => true
  | _ => false

inductive Reason where
  | sourceAdded
  | policyChanged
deriving DecidableEq

structure Job (Pds : Type) where
  pds : Pds
  policyRevision : ℕ
  reason : Reason
  sourceRevision : ℕ
  state : JobState
  acquisitionGeneration : ℕ
deriving DecidableEq

namespace Job

-- The document keys its jobs by a hash of these four.
def id (job : Job Pds) : Pds × ℕ × Reason × ℕ :=
  (job.pds, job.policyRevision, job.reason, job.sourceRevision)

def setState (job : Job Pds) (state : JobState) : Job Pds :=
  { job with state }

@[simp]
theorem setState_id (job : Job Pds) (state : JobState) : (job.setState state).id = job.id := rfl

end Job

def newJob (pds : Pds) (policyRevision : ℕ) (reason : Reason)
    (sourceRevision : ℕ) : Job Pds where
  pds
  policyRevision
  reason
  sourceRevision
  state := .pending
  acquisitionGeneration := 0

-- An entry that is missing in a map of numbers reads as zero.
structure Data (Pds : Type) where
  sources : AList fun _ : Pds => Bool
  sourceRevisions : Pds → ℕ
  sourceTombstones : Pds → ℕ
  jobs : List (Job Pds)

inductive Error where
  | conflict
deriving DecidableEq

variable [DecidableEq Pds]

namespace Data

def enabled (d : Data Pds) (pds : Pds) : Bool :=
  (d.sources.lookup pds).getD false

def setSource (d : Data Pds) (pds : Pds) (enabled : Bool) : Data Pds :=
  { d with sources := d.sources.insert pds enabled }

def setRevision (d : Data Pds) (pds : Pds) (revision : ℕ) : Data Pds :=
  { d with sourceRevisions := Function.update d.sourceRevisions pds revision }

def setTombstone (d : Data Pds) (pds : Pds) (revision : ℕ) : Data Pds :=
  { d with sourceTombstones := Function.update d.sourceTombstones pds revision }

def setJob (d : Data Pds) (job : Job Pds) : Data Pds :=
  { d with jobs := job :: d.jobs.filter fun other => other.id ≠ job.id }

def mapJobs (d : Data Pds) (f : Job Pds → Job Pds) : Data Pds :=
  { d with jobs := d.jobs.map f }

def cancelStaleSourceJobs (next : Data Pds) (pds : Pds) (sourceRevision : ℕ) : Data Pds :=
  next.mapJobs fun job =>
    if job.pds ≠ pds ∨ ¬job.state.unfinished ∨ job.sourceRevision = sourceRevision then job
    else job.setState .canceled

def beginAcquisition (next : Data Pds) (job : Job Pds) : Option (Job Pds) :=
  let generation := next.jobs.foldl (fun generation existing =>
    if existing.pds = job.pds ∧ existing.policyRevision = job.policyRevision ∧
      existing.sourceRevision = job.sourceRevision ∧
      generation < existing.acquisitionGeneration then existing.acquisitionGeneration
    else generation) 0
  if generation = 2 ^ 64 - 1 then none
  else some { job with acquisitionGeneration := generation + 1 }

def cancelPolicyJobs (next : Data Pds) : Data Pds :=
  next.mapJobs fun job => if job.state.unfinished then job.setState .canceled else job

def schedulePolicyJobs (next : Data Pds) (policy : ℕ) : Option (Data Pds) :=
  next.sources.entries.foldlM (fun next ⟨pds, enabled⟩ =>
    if enabled then
      (next.beginAcquisition (newJob pds policy .policyChanged (next.sourceRevisions pds))).map
        next.setJob
    else some next) next

def stagePolicyJobs (next : Data Pds) (policy : ℕ) : Option (Data Pds) :=
  next.cancelPolicyJobs.schedulePolicyJobs policy

-- Jobs that were running when the process ended are pending again.
def resumePersistedJobs (d : Data Pds) : Data Pds :=
  d.mapJobs fun job => if job.state = .running then job.setState .pending else job

-- The changes that adding a source makes before it looks for a job of the same coordinate.
def register (d : Data Pds) (pds : Pds) (sourceRevision : ℕ) : Data Pds :=
  if sourceRevision = 0 then
    if d.sourceRevisions pds = 0 ∧ d.sourceTombstones pds = 0 then d.setSource pds true else d
  else
    let next := d.setRevision pds sourceRevision
    if d.sourceRevisions pds < sourceRevision then
      next.cancelStaleSourceJobs pds sourceRevision
    else next

-- The job that a repeated request is answered with.
def acknowledged (next : Data Pds) (pds : Pds) (sourceRevision : ℕ) (job : Job Pds) :
    Option (Job Pds) :=
  if ¬next.enabled pds then none
  else
    let existing := if 0 < sourceRevision ∧ sourceRevision = next.sourceRevisions pds then
        next.jobs.find? fun existing => existing.pds = pds ∧
          existing.sourceRevision = sourceRevision ∧ existing.reason = .sourceAdded
      else none
    existing.or (next.jobs.find? fun existing => existing.id = job.id)

end Data

-- `policy` is the revision of the current collection policy.
structure Manager (Pds : Type) where
  data : Data Pds
  policy : ℕ

namespace Manager

def addSourceWithRevision (m : Manager Pds) (pds : Pds) (sourceRevision : ℕ) :
    Except Error (Job Pds) × Manager Pds :=
  if sourceRevision = 0 ∧ 0 < m.data.sourceTombstones pds ∨
      0 < sourceRevision ∧ (sourceRevision < m.data.sourceRevisions pds ∨
        sourceRevision ≤ m.data.sourceTombstones pds) then
    (.error .conflict, m)
  else
    let next := m.data.register pds sourceRevision
    let job := newJob pds m.policy .sourceAdded (next.sourceRevisions pds)
    match next.acknowledged pds sourceRevision job with
    | some existing => (.ok existing, m)
    | none =>
      let next := next.setSource pds true
      let next := if next.sourceTombstones pds < sourceRevision then next.setTombstone pds 0
        else next
      match next.beginAcquisition job with
      | none => (.error .conflict, m)
      | some job => (.ok job, { m with data := next.setJob job })

def removeSourceWithRevision (m : Manager Pds) (pds : Pds) (sourceRevision : ℕ) :
    Except Error Unit × Manager Pds :=
  let sourceRevision := if sourceRevision = 0 then (m.data.sourceRevisions pds + 1) % 2 ^ 64
    else sourceRevision
  if sourceRevision < m.data.sourceRevisions pds ∨ sourceRevision < m.data.sourceTombstones pds then
    (.error .conflict, m)
  else
    let next := m.data.setTombstone pds sourceRevision
    let next := if next.sourceRevisions pds < sourceRevision then
        next.setRevision pds sourceRevision
      else next
    let next := next.setSource pds false
    (.ok (), { m with data := next.mapJobs fun job =>
      if job.pds = pds ∧ job.state.unfinished then job.setState .canceled else job })

def active (m : Manager Pds) (job : Job Pds) : Prop :=
  job.state = .running ∧ m.data.enabled job.pds ∧ job.policyRevision = m.policy ∧
    (m.data.sourceRevisions job.pds = 0 ∨ job.sourceRevision = m.data.sourceRevisions job.pds)

instance (m : Manager Pds) (job : Job Pds) : Decidable (m.active job) :=
  inferInstanceAs (Decidable (_ ∧ _))

-- The loop over the pending jobs that are due, for one of them.
def claim (m : Manager Pds) (id : Pds × ℕ × Reason × ℕ) : Manager Pds :=
  { m with data := m.data.mapJobs fun job =>
      if job.id = id ∧ job.state = .pending then
        if 0 < m.data.sourceRevisions job.pds ∧
            job.sourceRevision ≠ m.data.sourceRevisions job.pds then
          job.setState .canceled
        else job.setState .running
      else job }

-- What a processor reports. A canceled one gives its job back, as one that yields does.
inductive Outcome where
  | yielded
  | completed
  | unavailable
  | rejected
deriving DecidableEq

def Outcome.state : Outcome → JobState
  | yielded => .pending
  | completed => .complete
  | unavailable => .incomplete
  | rejected => .failed

def persistJobOutcome (m : Manager Pds) (id : Pds × ℕ × Reason × ℕ) (outcome : Outcome) :
    Manager Pds :=
  { m with data := m.data.mapJobs fun job =>
      if job.id = id ∧ m.active job then job.setState outcome.state else job }

-- The commit of the next policy, with its jobs.
def commitPolicy (m : Manager Pds) : Manager Pds :=
  match m.data.stagePolicyJobs (m.policy + 1) with
  | some data => { data, policy := m.policy + 1 }
  | none => m

def restart (m : Manager Pds) : Manager Pds :=
  { m with data := m.data.resumePersistedJobs }

end Manager

end Jetstream.Jobs
