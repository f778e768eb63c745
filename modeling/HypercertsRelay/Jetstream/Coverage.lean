import Mathlib

-- For every enabled source the newest acquisition at its present source and policy revision, and
-- over all of them one verdict.
namespace Jetstream.Coverage

open List

-- An instant, counted from the zero time.
abbrev Time := ℤ

def isZero (t : Time) : Bool :=
  t = 0

structure Policy where
  revision : ℕ
  collections : List String
  deriving DecidableEq

inductive JobState
  | pending | running | failed | canceled | incomplete | complete
  | other (name : String)
  deriving DecidableEq

structure AcquisitionEvidence where
  scanned : ℤ
  matching : ℤ
  noMatch : ℤ
  attributableRecords : ℤ
  lastProgressAt : Time
  deriving DecidableEq

structure Job where
  lastProgressAt : Option Time
  lastFailureCategory : Option String
  acquisitionGeneration : ℕ
  evidence : Option AcquisitionEvidence
  failureRepository : String
  id : String
  pds : String
  policy : Policy
  reason : String
  sourceRevision : ℕ
  state : JobState
  attempts : ℤ
  completedRepos : ℕ
  totalRepos : ℤ
  totalReposKnown : Bool
  errorCode : String
  createdAt : Time
  startedAt : Time
  deriving DecidableEq

inductive JobExecution
  | queued | running | waiting | stopped | complete
  deriving DecidableEq

structure JobDiagnosticSnapshot where
  job : Job
  execution : JobExecution
  reason : String
  retryAt : Option Time
  pdsCooldownUntil : Option Time

structure Counts where
  initialInventory : Option ℤ := none
  scanned : Option ℤ := none
  matching : Option ℤ := none
  noMatch : Option ℤ := none
  unresolved : Option ℤ := none
  attributableRecords : Option ℤ := none

structure Diagnostics where
  failureCategory : String := ""
  lastProgressAt : Option Time := none
  attempts : ℤ := 0
  affectedRepository : String := ""
  retryAction : String := ""
  retryAt : Option Time := none
  pdsCooldownUntil : Option Time := none
  waitReason : String := ""

inductive AcquisitionState
  | unknown | running | retryWaiting | stoppedIncomplete | failed | canceled | complete
  deriving DecidableEq

structure Acquisition where
  state : AcquisitionState
  counts : Counts := {}
  diagnostics : Diagnostics := {}
  progressScope : String := "job_inventory"

structure LegacyProgress where
  reason : String := ""
  state : JobState
  completedRepos : Option ℕ := none
  totalRepos : Option ℤ := none
  totalReposKnown : Bool := false
  errorCode : String := ""
  createdAt : Time := 0
  coverage : String := "current_state"

structure Source where
  legacyProgress : LegacyProgress
  pds : String
  sourceRevision : ℕ
  policy : Policy
  matchingJob : Bool
  jobID : String
  acquisition : Acquisition
  history : String := "unknown"
  live : String := "unknown"

inductive AggregateState
  | complete | incomplete | unknown
  deriving DecidableEq

structure Aggregate where
  scope : String
  policy : Policy
  enabledSources : ℕ
  state : AggregateState

structure Snapshot where
  schemaVersion : ℕ
  scope : String
  policy : Policy
  items : List Source
  aggregate : Aggregate

def boundedCategory (code : String) : String :=
  if code = "" then ""
  else if 64 < code.utf8ByteSize ∨
      code.toList.any fun r => ¬('a' ≤ r ∧ r ≤ 'z' ∨ '0' ≤ r ∧ r ≤ '9' ∨ r = '_') then
    "unknown_failure"
  else code

def knownCategories : List String :=
  ["timeout", "cancel", "body_read", "http", "transport", "unknown"]

def matchingSnapshot (j : Job) (snapshot : JobDiagnosticSnapshot) : Bool :=
  j.id = snapshot.job.id ∧ j.pds = snapshot.job.pds ∧
    j.sourceRevision = snapshot.job.sourceRevision ∧
    j.policy.revision = snapshot.job.policy.revision ∧
    j.acquisitionGeneration = snapshot.job.acquisitionGeneration

namespace Acquisition

def projectEvidence (a : Acquisition) (j : Job) : Acquisition :=
  let a := if j.totalReposKnown then
    { a with counts := { a.counts with initialInventory := some j.totalRepos } } else a
  match j.evidence with
  | none => a
  | some e =>
    let counts := { a.counts with
      scanned := some e.scanned
      matching := some e.matching
      noMatch := some e.noMatch
      attributableRecords := some e.attributableRecords }
    let counts := if j.totalReposKnown then
      { counts with unresolved := some (max 0 (j.totalRepos - e.scanned)) } else counts
    let later := ¬isZero e.lastProgressAt ∧ ∀ t ∈ a.diagnostics.lastProgressAt, t < e.lastProgressAt
    let diagnostics := if later then
      { a.diagnostics with lastProgressAt := some e.lastProgressAt } else a.diagnostics
    { a with counts := counts, diagnostics := diagnostics }

def projectWait (a : Acquisition) (j : Job) (snapshot : JobDiagnosticSnapshot) : Acquisition :=
  if j.state = .pending ∧ snapshot.execution = .waiting then
    { a with
      state := .retryWaiting
      diagnostics := { a.diagnostics with
        retryAction := "automatic_retry"
        retryAt := (snapshot.retryAt.filter (¬isZero ·)).or a.diagnostics.retryAt
        pdsCooldownUntil :=
          (snapshot.pdsCooldownUntil.filter (¬isZero ·)).or a.diagnostics.pdsCooldownUntil
        waitReason :=
          if snapshot.reason ∈ ["repository_retry", "pds_cooldown"] then snapshot.reason
          else a.diagnostics.waitReason } }
  else
    a

end Acquisition

-- The latest of the times at which an attempt is known to have been worked on.
def acquisitionTime (j : Job) : Time :=
  let latest := if j.createdAt < j.startedAt then j.startedAt else j.createdAt
  match j.evidence with
  | some e => if latest < e.lastProgressAt then e.lastProgressAt else latest
  | none => latest

def newerAcquisition (a b : Job) : Bool :=
  if a.acquisitionGeneration ≠ b.acquisitionGeneration then
    b.acquisitionGeneration < a.acquisitionGeneration
  else
    acquisitionTime b < acquisitionTime a ∨ acquisitionTime a = acquisitionTime b ∧ b.id < a.id

def Job.At (j : Job) (pds : String) (sourceRevision policyRevision : ℕ) : Prop :=
  j.pds = pds ∧ j.sourceRevision = sourceRevision ∧ j.policy.revision = policyRevision

instance (j : Job) (pds : String) (sourceRevision policyRevision : ℕ) :
    Decidable (j.At pds sourceRevision policyRevision) :=
  inferInstanceAs (Decidable (_ ∧ _))

def latestMatchingAcquisition (pds : String) (sourceRevision policyRevision : ℕ)
    (history : List Job) : Option Job :=
  history.foldl (fun selected j =>
    if ¬j.At pds sourceRevision policyRevision then
      selected
    else
      match selected with
      | none => some j
      | some s => if newerAcquisition j s then some j else some s) none

section

-- The check of the DID library.
variable (parseDID : String → Bool)

def safeRepository (did : String) : String :=
  if 2048 < did.utf8ByteSize then "" else if parseDID did then did else ""

def jobDiagnostics (j : Job) : Diagnostics where
  attempts := j.attempts
  failureCategory :=
    (j.lastFailureCategory.filter (· ∈ knownCategories)).getD (boundedCategory j.errorCode)
  affectedRepository := safeRepository parseDID j.failureRepository
  lastProgressAt := j.lastProgressAt.filter (¬isZero ·)

def jobState (a : Acquisition) : JobState → Acquisition
  | .pending | .running => { a with state := .running }
  | .incomplete => { a with
      state := .stoppedIncomplete
      diagnostics := { a.diagnostics with retryAction := "explicit_retry" } }
  | .failed => { a with
      state := .failed
      diagnostics := { a.diagnostics with retryAction := "explicit_retry" } }
  | .canceled => { a with state := .canceled }
  | .complete => { a with state := .complete }
  | .other _ => a

def jobAcquisition (j : Job) (snapshots : List JobDiagnosticSnapshot) : Acquisition :=
  let a : Acquisition := { state := .unknown, diagnostics := jobDiagnostics parseDID j }
  let a := (jobState a j.state).projectEvidence j
  match snapshots.find? (matchingSnapshot j) with
  | some snapshot => a.projectWait j snapshot
  | none => a

variable (policy : Policy) (snapshots : List JobDiagnosticSnapshot)

def sourceRow (pds : String) (sourceRevision : ℕ) : Option Job → Source
  | none => {
      legacyProgress := { state := .other "unknown" }
      pds := pds
      sourceRevision := sourceRevision
      policy := policy
      matchingJob := false
      jobID := ""
      acquisition := { state := .unknown } }
  | some selected => {
      legacyProgress := {
        reason := selected.reason
        state := selected.state
        completedRepos := some selected.completedRepos
        totalRepos := some selected.totalRepos
        totalReposKnown := selected.totalReposKnown
        errorCode := selected.errorCode
        createdAt := selected.createdAt }
      pds := pds
      sourceRevision := sourceRevision
      policy := policy
      matchingJob := true
      jobID := selected.id
      acquisition := jobAcquisition parseDID selected snapshots }

def Source.isUnknown (row : Source) : Bool :=
  ¬row.matchingJob ∨ row.acquisition.state = .unknown

def Source.isIncomplete (row : Source) : Bool :=
  row.acquisition.state ≠ .complete ∨ ∃ n ∈ row.acquisition.counts.unresolved, 0 < n

def aggregateState (items : List Source) : AggregateState :=
  if items.isEmpty ∨ items.any (·.isUnknown) then .unknown
  else if items.any (·.isIncomplete) then .incomplete
  else .complete

variable (enabled : AList fun _ : String => Bool) (revisions : AList fun _ : String => ℕ)

-- A source that has no revision yet is at revision zero.
def currentRevision (pds : String) : ℕ :=
  (revisions.lookup pds).getD 0

def selectedAcquisition (history : List Job) (pds : String) : Option Job :=
  latestMatchingAcquisition pds (currentRevision revisions pds) policy.revision history

def rows (history : List Job) : List Source :=
  (enabled.entries.filter (·.snd)).map fun e =>
    sourceRow parseDID policy snapshots e.fst (currentRevision revisions e.fst)
      (selectedAcquisition policy revisions history e.fst)

def new (history : List Job) : Snapshot :=
  let items := (rows parseDID policy snapshots enabled revisions history).mergeSort (·.pds ≤ ·.pds)
  { schemaVersion := 1
    scope := "enabled_sources_current_policy"
    policy := policy
    items := items
    aggregate := {
      scope := "enabled_sources_current_policy"
      policy := policy
      enabledSources := items.length
      state := aggregateState items } }

end

-- The comparison is the order of a key, and jobs with different IDs have different keys.
def rank (j : Job) : ℕ ×ₗ ℤ ×ₗ String :=
  toLex (j.acquisitionGeneration, toLex (acquisitionTime j, j.id))

theorem newerAcquisition_iff : newerAcquisition a b ↔ rank b < rank a := by
  rw [newerAcquisition, rank, rank, Prod.Lex.toLex_lt_toLex, Prod.Lex.toLex_lt_toLex]
  split
  case isTrue hne =>
    rw [decide_eq_true_eq]
    exact ⟨.inl, fun h => h.resolve_right fun h => hne h.left.symm⟩
  case isFalse heq =>
    have heq := not_not.mp heq
    rw [decide_eq_true_eq, heq]
    simp only [lt_irrefl, false_or, true_and, eq_comm]

theorem rank_inj (h : rank a = rank b) : a.id = b.id := by
  simp only [rank, EmbeddingLike.apply_eq_iff_eq, Prod.mk.injEq] at h
  exact h.right.right

section Selection

variable {history history' : List Job}

theorem latestMatchingAcquisition_eq_argmax :
    latestMatchingAcquisition pds sourceRevision policyRevision history =
      (history.filter (·.At pds sourceRevision policyRevision)).argmax rank := by
  rw [List.argmax, foldl_filter, latestMatchingAcquisition]
  congr 1
  funext selected j
  by_cases hj : j.At pds sourceRevision policyRevision
  case neg => simp [hj]
  case pos =>
    cases selected with
    | none => simp [hj, List.argAux]
    | some s => simp [hj, List.argAux, newerAcquisition_iff]

theorem latestMatchingAcquisition_none :
    latestMatchingAcquisition pds sourceRevision policyRevision history = none ↔
      ∀ j ∈ history, ¬j.At pds sourceRevision policyRevision := by
  rw [latestMatchingAcquisition_eq_argmax, argmax_eq_none, filter_eq_nil_iff]
  simp

theorem latestMatchingAcquisition_maximal
    (h : latestMatchingAcquisition pds sourceRevision policyRevision history = some j) :
    j ∈ history ∧ j.At pds sourceRevision policyRevision ∧
      ∀ k ∈ history, k.At pds sourceRevision policyRevision → ¬newerAcquisition k j := by
  rw [latestMatchingAcquisition_eq_argmax, ←Option.mem_def] at h
  have hmem := mem_filter.mp (argmax_mem h)
  refine ⟨hmem.left, by simpa using hmem.right, fun k hk hat => ?_⟩
  rw [newerAcquisition_iff, not_lt]
  exact le_of_mem_argmax (mem_filter.mpr ⟨hk, by simpa using hat⟩) h

section

variable (hids : (history.map (·.id)).Nodup)

include hids

theorem eq_of_id_eq (hj : j ∈ history) (hk : k ∈ history) (h : j.id = k.id) : j = k :=
  inj_on_of_nodup_map hids hj hk h

theorem latestMatchingAcquisition_newest
    (h : latestMatchingAcquisition pds sourceRevision policyRevision history = some j)
    (hk : k ∈ history) (hat : k.At pds sourceRevision policyRevision) (hne : k ≠ j) :
    newerAcquisition j k := by
  have ⟨hj, _, hmax⟩ := latestMatchingAcquisition_maximal h
  have hle := hmax k hk hat
  rw [newerAcquisition_iff, not_lt] at hle
  rw [newerAcquisition_iff]
  exact lt_of_le_of_ne hle fun heq => hne (eq_of_id_eq hids hk hj (rank_inj heq))

theorem latestMatchingAcquisition_perm (hp : history'.Perm history) :
    latestMatchingAcquisition pds sourceRevision policyRevision history' =
      latestMatchingAcquisition pds sourceRevision policyRevision history := by
  cases h : latestMatchingAcquisition pds sourceRevision policyRevision history with
  | none =>
    rw [latestMatchingAcquisition_none] at h ⊢
    exact fun k hk => h k (hp.mem_iff.mp hk)
  | some j =>
    have ⟨hj, hat, hmax⟩ := latestMatchingAcquisition_maximal h
    cases h' : latestMatchingAcquisition pds sourceRevision policyRevision history' with
    | none =>
      rw [latestMatchingAcquisition_none] at h'
      exact absurd hat (h' j (hp.mem_iff.mpr hj))
    | some k =>
      have ⟨hk, hat', hmax'⟩ := latestMatchingAcquisition_maximal h'
      by_contra hne
      have hnewer := latestMatchingAcquisition_newest hids h (hp.mem_iff.mp hk) hat'
        fun heq => hne (congrArg some heq)
      exact hmax' j (hp.mem_iff.mpr hj) hat hnewer

end

end Selection

section Verdict

variable {parseDID : String → Bool} {snapshots : List JobDiagnosticSnapshot}

theorem projectEvidence_state (a : Acquisition) (j : Job) :
    (a.projectEvidence j).state = a.state := by
  simp only [Acquisition.projectEvidence]
  split
  case h_1 => split <;> rfl
  case h_2 => split <;> rfl

-- Waiting concerns pending jobs only.
theorem jobAcquisition_complete :
    (jobAcquisition parseDID j snapshots).state = .complete ↔ j.state = .complete := by
  simp only [jobAcquisition]
  split
  case h_1 =>
    rw [Acquisition.projectWait]
    split
    case isTrue hwait => simp [hwait.left]
    · rw [projectEvidence_state]
      cases j.state <;> simp [jobState]
  case h_2 =>
    rw [projectEvidence_state]
    cases j.state <;> simp [jobState]

theorem mem_rows : row ∈ rows parseDID policy snapshots enabled revisions history ↔
      ∃ pds, enabled.lookup pds = some true ∧
        row = sourceRow parseDID policy snapshots pds (currentRevision revisions pds)
          (selectedAcquisition policy revisions history pds) := by
  simp only [rows, mem_map, mem_filter]
  constructor
  case mp =>
    rintro ⟨⟨pds, active⟩, ⟨he, ha⟩, hrow⟩
    exact ⟨pds, AList.mem_lookup_iff.mpr (ha ▸ he), hrow.symm⟩
  case mpr =>
    intro ⟨pds, he, hrow⟩
    exact ⟨⟨pds, true⟩, ⟨AList.mem_lookup_iff.mp he, rfl⟩, hrow.symm⟩

-- A source whose row is neither unknown nor incomplete.
theorem complete_row_iff :
    (sourceRow parseDID policy snapshots pds sourceRevision selected).isUnknown = false ∧
        (sourceRow parseDID policy snapshots pds sourceRevision selected).isIncomplete = false ↔
      ∃ j, selected = some j ∧ j.state = .complete ∧
        ∀ n ∈ (jobAcquisition parseDID j snapshots).counts.unresolved, n ≤ 0 := by
  cases selected with
  | none => simp [sourceRow, Source.isUnknown]
  | some j =>
    have hstate := @jobAcquisition_complete parseDID snapshots j
    simp only [sourceRow, Source.isUnknown, Source.isIncomplete, Option.some.injEq,
      exists_eq_left', ←hstate]
    by_cases hc : (jobAcquisition parseDID j snapshots).state = .complete
    · simp [hc]
    · simp [hc]

theorem aggregateState_complete : aggregateState items = .complete ↔
    items ≠ [] ∧ ∀ row ∈ items, row.isUnknown = false ∧ row.isIncomplete = false := by
  simp only [aggregateState]
  split
  case isTrue h =>
    refine iff_of_false nofun fun ⟨hne, hall⟩ => ?_
    obtain h | h := h
    · exact hne (List.isEmpty_iff.mp h)
    · have ⟨row, hrow, hunknown⟩ := any_eq_true.mp h
      exact absurd hunknown (by simp [(hall row hrow).left])
  case isFalse h =>
    have ⟨hne, hunknown⟩ := not_or.mp h
    rw [List.isEmpty_iff] at hne
    simp only [any_eq_true, not_exists, not_and, Bool.not_eq_true] at hunknown
    split
    case isTrue hinc =>
      have ⟨row, hrow, hinc⟩ := any_eq_true.mp hinc
      exact iff_of_false nofun fun ⟨_, hall⟩ => absurd hinc (by simp [(hall row hrow).right])
    case isFalse hinc =>
      simp only [any_eq_true, not_exists, not_and, Bool.not_eq_true] at hinc
      exact iff_of_true rfl ⟨hne, fun row hrow => ⟨hunknown row hrow, hinc row hrow⟩⟩

theorem mem_items : row ∈ (new parseDID policy snapshots enabled revisions history).items ↔
      row ∈ rows parseDID policy snapshots enabled revisions history :=
  mem_mergeSort

end Verdict

end Jetstream.Coverage
