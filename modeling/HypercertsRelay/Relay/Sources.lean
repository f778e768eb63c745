import Mathlib

-- The rows of one host and its source in the database of the Relay.
namespace Relay.Sources

open Option

inductive SourceState where
  | enabled
  | disabled
  | removed
deriving DecidableEq

inductive ValidationStatus where
  | pending
  | passed
  | failed
deriving DecidableEq

inductive HostStatus where
  | active
  | idle
  | offline
  | throttled
  | banned
deriving DecidableEq

inductive Operation where
  | add
  | migration
  | validate
  | state (state : SourceState)
  | block
  | ban
deriving DecidableEq

structure Source where
  state : SourceState
  revision : ℕ
  lastOperation : Operation
  validationStatus : ValidationStatus
  recoveryRequired : Bool
  recoveryPolicyRevision : ℕ
deriving DecidableEq

structure Handoff where
  sourceRevision : ℕ
  state : SourceState
  attempts : ℕ
deriving DecidableEq

structure Receipt (JobId : Type) where
  sourceRevision : ℕ
  policyRevision : ℕ
  jobId : JobId
deriving DecidableEq

structure Db (JobId : Type) where
  host : Option HostStatus
  source : Option Source
  handoff : Option Handoff
  receipts : List (Receipt JobId)

inductive Error where
  | sourceNotFound
  | recoveryReceiptConflict
  | invalidRecoveryReceipt
deriving DecidableEq

variable {s : Source}

-- What a source is for Jetstream.
def Source.effective (source : Source) (host : Option HostStatus) : Bool :=
  source.state = .enabled ∧ source.validationStatus = .passed ∧ host ≠ some .banned

-- Every change of a source counts its revision up and requires recovery.
def Source.change (source : Source) (state : SourceState) (validation : ValidationStatus)
    (operation : Operation) : Source :=
  { source with
    state
    revision := source.revision + 1
    lastOperation := operation
    validationStatus := validation
    recoveryRequired := true }

open Source (change effective)

namespace Db

def enqueueSourceHandoff (db : Db JobId) (revision : ℕ) (state : SourceState) : Db JobId :=
  match db.handoff with
  | some existing =>
    if existing.sourceRevision = revision ∧ existing.state = state then db
    else { db with handoff := some ⟨revision, state, 0⟩ }
  | none => { db with handoff := some ⟨revision, state, 0⟩ }

def addSource (db : Db JobId) (domainBanned : Bool) : Db JobId :=
  if domainBanned then db
  else
    match db.source with
    | some _ => db
    | none =>
      let host := db.host.getD .active
      { db with
        host := some host
        source := some {
          state := if host = .banned then .disabled else .enabled
          revision := 1
          lastOperation := .add
          validationStatus := .pending
          recoveryRequired := true
          recoveryPolicyRevision := 0 } }

-- The end of a validation that began at `revision`. `passed` is the answer of the host check.
def finalizeSourceValidation (db : Db JobId) (revision : ℕ) (passed : Bool) : Db JobId :=
  match db.source with
  | none => db
  | some current =>
    if current.revision ≠ revision ∨ current.state ≠ .enabled then
      if current.state ≠ .enabled then db.enqueueSourceHandoff current.revision current.state
      else db
    else
      let status := if passed then .passed else .failed
      let source := current.change current.state status .validate
      { db with source := some source }.enqueueSourceHandoff (revision + 1)
        (if passed then .enabled else .disabled)

-- `validUrl` and `domainBanned` are what the checks of the host name say.
def checkSourceEnablement (db : Db JobId) (source : Source) (validUrl domainBanned : Bool) : Bool :=
  validUrl ∧ source.validationStatus = .passed ∧ ¬domainBanned ∧ db.host ≠ some .banned

def setSourceState (db : Db JobId) (expectedRevision : ℕ) (state : SourceState)
    (validUrl domainBanned : Bool) : Db JobId :=
  match db.source with
  | none => db
  | some source =>
    if source.revision ≠ expectedRevision ∧
        ¬(source.revision = expectedRevision + 1 ∧ source.lastOperation = .state state) then db
    else if state = .enabled ∧ ¬db.checkSourceEnablement source validUrl domainBanned then db
    else if source.state = state then
      if state = .enabled ∧ source.validationStatus = .passed then
        db.enqueueSourceHandoff source.revision state
      else db
    else
      { db with
        source := some (source.change state source.validationStatus (.state state)) }
          |>.enqueueSourceHandoff (source.revision + 1) state

def setSourceBlocked (db : Db JobId) (blocked domainBanned : Bool) : Db JobId :=
  match db.source with
  | none => db
  | some source =>
    let state := if blocked then SourceState.disabled else .enabled
    let status := if blocked then HostStatus.banned else .active
    if ¬blocked ∧ (domainBanned ∨ source.validationStatus ≠ .passed) then db
    else if source.state = state ∧ db.host = some status then
      if blocked then db else db.enqueueSourceHandoff source.revision state
    else
      { db with
        host := some status
        source := some (source.change state source.validationStatus .block) }
          |>.enqueueSourceHandoff (source.revision + 1) state

-- A ban disables the source; it queues nothing.
def updateHostStatus (db : Db JobId) (status : HostStatus) : Db JobId :=
  let source := db.source.map fun source =>
    if status = .banned ∧ source.state = .enabled then
      source.change .disabled source.validationStatus .ban
    else source
  { db with source, host := db.host.map fun _ => status }

def acknowledgeSourceRecovery [DecidableEq JobId] (db : Db JobId) (input : Receipt JobId) :
    Except Error (Db JobId) :=
  if input.sourceRevision = 0 ∨ input.policyRevision = 0 then .error .invalidRecoveryReceipt
  else
    match db.source with
    | none => .error .sourceNotFound
    | some source =>
      if source.state ≠ .enabled ∨ source.revision ≠ input.sourceRevision ∨
          source.recoveryPolicyRevision ≠ 0 ∧
            source.recoveryPolicyRevision ≠ input.policyRevision then
        .error .recoveryReceiptConflict
      else
        .ok { db with
          source := some { source with recoveryRequired := false }
          receipts := if input ∈ db.receipts then db.receipts else input :: db.receipts }

def advanceSourceRecoveryPolicy (db : Db JobId) (sourceRevision policyRevision : ℕ) :
    Except Error (Db JobId) :=
  if sourceRevision = 0 ∨ policyRevision = 0 then .error .invalidRecoveryReceipt
  else
    match db.source with
    | none => .error .sourceNotFound
    | some source =>
      if source.state ≠ .enabled ∨ source.revision ≠ sourceRevision ∨
          policyRevision < source.recoveryPolicyRevision then
        .error .recoveryReceiptConflict
      else if source.recoveryPolicyRevision < policyRevision then
        .ok { db with source := some { source with
          recoveryPolicyRevision := policyRevision
          recoveryRequired := true } }
      else .ok db

end Db

-- The administrative operations on the source.
inductive Op where
  | addSource (domainBanned : Bool)
  | validateSource (revision : ℕ) (passed : Bool)
  | setSourceState (expectedRevision : ℕ) (state : SourceState) (validUrl domainBanned : Bool)
  | setSourceBlocked (blocked domainBanned : Bool)
  | updateHostStatus (status : HostStatus)

def Db.apply (db : Db JobId) : Op → Db JobId
  | .addSource domainBanned => db.addSource domainBanned
  | .validateSource revision passed =>
    db.finalizeSourceValidation revision passed
  | .setSourceState expectedRevision state validUrl domainBanned =>
    db.setSourceState expectedRevision state validUrl domainBanned
  | .setSourceBlocked blocked domainBanned => db.setSourceBlocked blocked domainBanned
  | .updateHostStatus status => db.updateHostStatus status

namespace Db

-- The host of a source exists, and an enabled source is not one of a banned host.
def Ok (db : Db JobId) : Prop :=
  ∀ s, db.source = some s → 0 < s.revision ∧ db.host ≠ none ∧
    (s.state = .enabled → db.host ≠ some .banned)

-- The queued row is what Jetstream is to know about the source.
def Queued (db : Db JobId) : Prop :=
  ∃ h s, db.handoff = some h ∧ db.source = some s ∧ h.sourceRevision = s.revision ∧
    (h.state = .enabled ↔ s.effective db.host)

-- What an operation can do to the rows.
inductive Change (op : Op) (db db' : Db JobId) : Prop where
  | same : db'.source = db.source →
    (∀ s, db.source = some s → s.effective db'.host = s.effective db.host) →
    db'.handoff = db.handoff ∨ db'.Queued → Change op db db'
  | create : db.source = none → db'.source = some s' → s'.revision = 1 →
    s'.recoveryRequired → s'.recoveryPolicyRevision = 0 → db'.handoff = db.handoff →
    Change op db db'
  | revise {s s'} : db.source = some s → db'.source = some s' →
    s'.revision = s.revision + 1 → s'.recoveryRequired →
    s'.recoveryPolicyRevision = s.recoveryPolicyRevision → db'.Queued → Change op db db'
  | ban {s s'} : op = .updateHostStatus .banned → s.state = .enabled →
    db.source = some s → db'.source = some s' → s'.revision = s.revision + 1 →
    s'.recoveryRequired → s'.recoveryPolicyRevision = s.recoveryPolicyRevision →
    db'.handoff = db.handoff → Change op db db'

section Enqueue

variable (db : Db JobId) (revision : ℕ) (state : SourceState)

theorem enqueue_eq : ∃ h : Handoff, h.sourceRevision = revision ∧ h.state = state ∧
    db.enqueueSourceHandoff revision state = { db with handoff := some h } := by
  unfold enqueueSourceHandoff
  split
  case h_1 existing hrow =>
    split
    case isTrue h => exact ⟨existing, h.left, h.right, by rw [←hrow]⟩
    · exact ⟨_, rfl, rfl, rfl⟩
  case h_2 => exact ⟨_, rfl, rfl, rfl⟩

@[simp]
theorem enqueue_source : (db.enqueueSourceHandoff revision state).source = db.source := by
  have ⟨_, _, _, heq⟩ := enqueue_eq db revision state
  rw [heq]

@[simp]
theorem enqueue_host : (db.enqueueSourceHandoff revision state).host = db.host := by
  have ⟨_, _, _, heq⟩ := enqueue_eq db revision state
  rw [heq]

@[simp]
theorem enqueue_receipts : (db.enqueueSourceHandoff revision state).receipts = db.receipts := by
  have ⟨_, _, _, heq⟩ := enqueue_eq db revision state
  rw [heq]

variable {db revision state}

theorem enqueue_queued (hs : db.source = some s) (hr : revision = s.revision)
    (he : state = .enabled ↔ s.effective db.host) :
    (db.enqueueSourceHandoff revision state).Queued := by
  have ⟨h, hrev, hstate, heq⟩ := enqueue_eq db revision state
  rw [heq]
  exact ⟨h, s, rfl, hs, hrev.trans hr, hstate ▸ he⟩

theorem ok_enqueue (h : db.Ok) : (db.enqueueSourceHandoff revision state).Ok := by
  intro s hs
  rw [enqueue_source] at hs
  rw [enqueue_host]
  exact h s hs

end Enqueue

namespace Change

theorem refl (op : Op) (db : Db JobId) : Change op db db :=
  .same rfl (fun _ _ => rfl) (.inl rfl)

theorem enqueue (hs : db.source = some s) (he : state = .enabled ↔ s.effective db.host) :
    Change op db (db.enqueueSourceHandoff s.revision state) := by
  refine .same (enqueue_source ..) (fun _ _ => ?_) (.inr <| enqueue_queued hs rfl he)
  rw [enqueue_host]

theorem change_enqueue {host} (hs : db.source = some s)
    (he : state' = .enabled ↔ (s.change state validation operation).effective host) :
    Change op db ({ db with
      host
      source := some (s.change state validation operation) }.enqueueSourceHandoff
        (s.revision + 1) state') :=
  .revise hs (enqueue_source ..) rfl rfl rfl (enqueue_queued rfl rfl he)

end Change

variable {db db' : Db JobId}

theorem Ok.ne_banned (h : db.Ok) (hs : db.source = some s)
    (he : s.state = .enabled) : db.host ≠ some .banned :=
  (h s hs).right.right he

theorem addSource_change (domainBanned : Bool) :
    Change (.addSource domainBanned) db (db.addSource domainBanned) := by
  rw [addSource]
  split
  · exact .refl _ _
  split
  case h_1 => exact .refl _ _
  case h_2 hs => exact .create hs rfl rfl rfl rfl rfl

theorem finalizeSourceValidation_change (h : db.Ok) (revision : ℕ) (passed : Bool) :
    Change (.validateSource revision passed) db (db.finalizeSourceValidation revision passed) := by
  rw [finalizeSourceValidation]
  split
  case h_1 => exact .refl _ _
  case h_2 current hs =>
    split
    · split
      case isTrue hstate => exact .enqueue hs (by simp [effective, hstate])
      · exact .refl _ _
    case isFalse hg =>
      simp only [ne_eq, not_or, not_not] at hg
      obtain ⟨rfl, hstate⟩ := hg
      have hhost := h.ne_banned hs hstate
      refine .change_enqueue hs ?_
      cases passed <;> simp [effective, change, hstate, hhost]

theorem setSourceState_change (expectedRevision : ℕ) (state : SourceState)
    (validUrl domainBanned : Bool) :
    Change (.setSourceState expectedRevision state validUrl domainBanned) db
      (db.setSourceState expectedRevision state validUrl domainBanned) := by
  rw [setSourceState]
  split
  case h_1 => exact .refl _ _
  case h_2 source hs =>
    split
    · exact .refl _ _
    split
    · exact .refl _ _
    case isFalse hcheck =>
      have hcheck (he : state = .enabled) :
          source.validationStatus = .passed ∧ db.host ≠ some .banned := by
        have hcheck : db.checkSourceEnablement source validUrl domainBanned :=
          not_not.mp fun hc => hcheck ⟨he, hc⟩
        have hcheck := of_decide_eq_true hcheck
        exact ⟨hcheck.right.left, hcheck.right.right.right⟩
      split
      case isTrue hstate =>
        split
        case isTrue he =>
          have ⟨hpassed, hhost⟩ := hcheck he.left
          refine .enqueue hs ?_
          simp [effective, hstate, he.left, hpassed, hhost]
        · exact .refl _ _
      · refine .change_enqueue hs ?_
        by_cases he : state = .enabled
        · have ⟨hpassed, hhost⟩ := hcheck he
          simp [effective, change, he, hpassed, hhost]
        · simp [effective, change, he]

theorem setSourceBlocked_change (blocked domainBanned : Bool) :
    Change (.setSourceBlocked blocked domainBanned) db
      (db.setSourceBlocked blocked domainBanned) := by
  rw [setSourceBlocked]
  split
  case h_1 => exact .refl _ _
  case h_2 source hs =>
    simp only
    split
    · exact .refl _ _
    case isFalse hvalid =>
      cases blocked with
      | true =>
        simp only [↓reduceIte]
        split
        · exact .refl _ _
        · exact .change_enqueue hs (by simp [effective, change])
      | false =>
        have hpassed : source.validationStatus = .passed :=
          not_not.mp fun hc => hvalid ⟨nofun, .inr hc⟩
        simp only [Bool.false_eq_true, ↓reduceIte]
        split
        case isTrue hsame =>
          refine .enqueue hs ?_
          simp_all [effective]
        · exact .change_enqueue hs (by simp [effective, change, hpassed])

theorem updateHostStatus_change (h : db.Ok) (status : HostStatus) :
    Change (.updateHostStatus status) db (db.updateHostStatus status) := by
  cases hs : db.source with
  | none =>
    refine .same ?_ (fun s h => ?_) (.inl rfl)
    · rw [updateHostStatus, hs]
      rfl
    · rw [hs] at h
      exact nomatch h
  | some source =>
    have hsource : (db.updateHostStatus status).source = some
        (if status = .banned ∧ source.state = .enabled then
          source.change .disabled source.validationStatus .ban
        else source) := by
      rw [updateHostStatus, hs]
      rfl
    by_cases hban : status = .banned ∧ source.state = .enabled
    · rw [if_pos hban] at hsource
      exact .ban (by rw [hban.left]) hban.right hs hsource rfl rfl rfl rfl
    rw [if_neg hban] at hsource
    refine .same (hsource.trans hs.symm) (fun s hs' => ?_) (.inl rfl)
    have hhost := h.ne_banned hs
    have hnone := (h source hs).right.left
    have ⟨host, hhost'⟩ := ne_none_iff_exists'.mp hnone
    simp only [updateHostStatus, effective, hhost', map_some]
    by_cases hstate : source.state = .enabled <;> simp_all

theorem apply_change (h : db.Ok) (op : Op) : Change op db (db.apply op) := by
  cases op with
  | addSource => exact addSource_change _
  | validateSource => exact finalizeSourceValidation_change h _ _
  | setSourceState => exact setSourceState_change _ _ _ _
  | setSourceBlocked => exact setSourceBlocked_change _ _
  | updateHostStatus => exact updateHostStatus_change h _

theorem Ok.of_change {host handoff}
    {receipts : List (Receipt JobId)} (h : state = .enabled → host ≠ .banned) :
    Ok ⟨some host, some (s.change state validation operation), handoff, receipts⟩ := by
  intro s' hs'
  injection hs' with hs'
  subst hs'
  exact ⟨Nat.succ_pos _, nofun, fun he hb => h he (Option.some.inj hb)⟩

theorem setSourceState_ok (h : db.Ok) (expectedRevision : ℕ) (state : SourceState)
    (validUrl domainBanned : Bool) :
    (db.setSourceState expectedRevision state validUrl domainBanned).Ok := by
  rw [setSourceState]
  split
  case h_1 => exact h
  case h_2 source hs =>
    split
    · exact h
    split
    · exact h
    case isFalse hcheck =>
      split
      · split
        · exact ok_enqueue h
        · exact h
      apply ok_enqueue
      have ⟨host, hhost⟩ := ne_none_iff_exists'.mp (h source hs).right.left
      rw [hhost]
      refine Ok.of_change fun he hb => hcheck ⟨he, ?_⟩
      simp [checkSourceEnablement, hhost, hb]

theorem setSourceBlocked_ok (h : db.Ok) (blocked domainBanned : Bool) :
    (db.setSourceBlocked blocked domainBanned).Ok := by
  rw [setSourceBlocked]
  split
  case h_1 => exact h
  case h_2 source hs =>
    simp only
    split
    · exact h
    cases blocked with
    | true =>
      simp only [↓reduceIte]
      split
      · exact h
      · exact ok_enqueue (Ok.of_change nofun)
    | false =>
      simp only [Bool.false_eq_true, ↓reduceIte]
      split
      · exact ok_enqueue h
      · exact ok_enqueue (Ok.of_change fun _ => nofun)

theorem updateHostStatus_ok (h : db.Ok) (status : HostStatus) :
    (db.updateHostStatus status).Ok := by
  intro s' hs'
  obtain ⟨source, hs, rfl⟩ := map_eq_some_iff.mp hs'
  have ⟨hpos, hnone, _⟩ := h source hs
  have ⟨host, hhost⟩ := ne_none_iff_exists'.mp hnone
  simp only [updateHostStatus, hhost, map_some]
  split
  · exact ⟨Nat.succ_pos _, nofun, nofun⟩
  case isFalse hban => exact ⟨hpos, nofun, fun he hb => hban ⟨Option.some.inj hb, he⟩⟩

theorem apply_ok (h : db.Ok) (op : Op) : (db.apply op).Ok := by
  cases op with
  | addSource domainBanned =>
    rw [apply, addSource]
    split
    · exact h
    split
    · exact h
    intro s hs
    injection hs with hs
    subst hs
    simp_all
  | validateSource revision passed =>
    rw [apply, finalizeSourceValidation]
    split
    case h_1 => exact h
    case h_2 current hs =>
      split
      · split
        · exact ok_enqueue h
        · exact h
      apply ok_enqueue
      have ⟨host, hhost⟩ := ne_none_iff_exists'.mp (h current hs).right.left
      rw [hhost]
      exact Ok.of_change fun he hb => h.ne_banned hs he (hhost.trans (congrArg some hb))
  | setSourceState => exact setSourceState_ok h _ _ _ _
  | setSourceBlocked => exact setSourceBlocked_ok h _ _
  | updateHostStatus status => exact updateHostStatus_ok h _

theorem apply_receipts (op : Op) : (db.apply op).receipts = db.receipts := by
  cases op with
  | addSource =>
    rw [apply, addSource]
    split
    · rfl
    · split <;> rfl
  | validateSource =>
    rw [apply, finalizeSourceValidation]
    repeat' split
    all_goals first | rfl | exact enqueue_receipts ..
  | setSourceState =>
    rw [apply, setSourceState]
    repeat' split
    all_goals first | rfl | exact enqueue_receipts ..
  | setSourceBlocked =>
    rw [apply, setSourceBlocked]
    simp only
    repeat' split
    all_goals first | rfl | exact enqueue_receipts ..
  | updateHostStatus => rfl

section Stuck

-- An operation with the current revision, while the host check succeeds and nothing bans the host.
inductive Attempt where
  | addSource
  | validateSource
  | setSourceState (state : SourceState)
  | setSourceBlocked (blocked : Bool)

def attempt (db : Db JobId) (a : Attempt) : Db JobId :=
  let revision := (db.source.map (·.revision)).getD 0
  db.apply <| match a with
    | .addSource => .addSource false
    | .validateSource => .validateSource revision true
    | .setSourceState state => .setSourceState revision state true false
    | .setSourceBlocked blocked => .setSourceBlocked blocked false

def Admitted (db : Db JobId) : Prop :=
  ∃ s, db.source = some s ∧ s.state = .enabled ∧ s.validationStatus = .passed

-- Only an enabled source is validated, and only a validated one is enabled.
def Stuck (db : Db JobId) : Prop :=
  ∃ s, db.source = some s ∧ s.state ≠ .enabled ∧ s.validationStatus ≠ .passed

theorem Stuck.of_source (h : db.Stuck) (hs : db'.source = db.source) : db'.Stuck := by
  rwa [Stuck, hs]

theorem Stuck.attempt (h : db.Stuck) (a : Attempt) : (db.attempt a).Stuck := by
  have ⟨s, hs, hstate, hvalid⟩ := h
  cases a with
  | addSource => exact h.of_source (by simp [Db.attempt, apply, addSource, hs])
  | validateSource =>
    exact h.of_source (by simp [Db.attempt, apply, finalizeSourceValidation, hs, hstate])
  | setSourceState state =>
    simp only [Db.attempt, apply, setSourceState, hs]
    split
    · exact h
    split
    · exact h
    case isFalse hcheck =>
      split
      · split
        · exact h.of_source (enqueue_source ..)
        · exact h
      · refine ⟨_, enqueue_source .., fun he => hcheck ⟨he, ?_⟩, hvalid⟩
        simp [checkSourceEnablement, hvalid]
  | setSourceBlocked blocked =>
    simp only [Db.attempt, apply, setSourceBlocked, hs]
    cases blocked with
    | false =>
      rw [if_pos ⟨nofun, .inr hvalid⟩]
      exact h
    | true =>
      simp only [not_true, false_and, ↓reduceIte]
      split
      · exact h
      · exact ⟨_, enqueue_source .., nofun, hvalid⟩

theorem Stuck.not_admitted (h : db.Stuck) (attempts : List Attempt) :
    ¬(attempts.foldl Db.attempt db).Admitted := by
  induction attempts generalizing db with
  | nil =>
    intro ⟨s, hs, hstate, _⟩
    have ⟨s', hs', hne, _⟩ := h
    cases hs.symm.trans hs'
    exact hne hstate
  | cons a attempts ih => exact ih (h.attempt a)

theorem validate_admitted (hs : db.source = some s) (hstate : s.state = .enabled) :
    (db.attempt .validateSource).Admitted := by
  have heq : (db.attempt .validateSource).source = some (s.change s.state .passed .validate) := by
    simp [Db.attempt, apply, finalizeSourceValidation, hs, hstate]
  exact ⟨_, heq, hstate, rfl⟩

theorem admitted_iff_not_stuck (hhost : db.host ≠ some .banned) :
    (∃ attempts : List Attempt, (attempts.foldl Db.attempt db).Admitted) ↔ ¬db.Stuck := by
  refine ⟨fun ⟨attempts, h⟩ hstuck => hstuck.not_admitted attempts h, fun h => ?_⟩
  cases hs : db.source with
  | none =>
    have hadd : (db.attempt .addSource).source = some ⟨.enabled, 1, .add, .pending, true, 0⟩ := by
      have hne : db.host.getD .active ≠ .banned := by
        cases hb : db.host <;> simp_all
      simp [attempt, apply, addSource, hs, hne]
    exact ⟨[.addSource, .validateSource], validate_admitted hadd rfl⟩
  | some s =>
    by_cases hstate : s.state = .enabled
    · exact ⟨[.validateSource], validate_admitted hs hstate⟩
    have hvalid : s.validationStatus = .passed := not_not.mp fun hv => h ⟨s, hs, hstate, hv⟩
    have heq : (db.attempt (.setSourceState .enabled)).source =
        some (s.change .enabled s.validationStatus (.state .enabled)) := by
      simp [attempt, apply, setSourceState, hs, hstate, checkSourceEnablement, hvalid, hhost]
    exact ⟨[.setSourceState .enabled], _, heq, rfl, hvalid⟩

theorem admitted_iff_not_stuck_added : let db : Db ℕ := Db.addSource ⟨none, none, none, []⟩ false
    db.host ≠ some .banned ∧ ∃ attempts : List Attempt, (attempts.foldl Db.attempt db).Admitted := by
  refine ⟨by decide, (admitted_iff_not_stuck (by decide)).mpr ?_⟩
  rintro ⟨_, ⟨⟩, hstate, _⟩
  exact hstate rfl

-- A source that is disabled before its first validation.
theorem disabled_before_validation_stuck :
    let ops : List Op := [.addSource false, .setSourceState 1 .disabled true false]
    let db : Db ℕ := ops.foldl Db.apply ⟨none, none, none, []⟩
    db.host = some .active ∧ ∀ attempts : List Attempt, ¬(attempts.foldl Db.attempt db).Admitted :=
  ⟨rfl, Stuck.not_admitted ⟨_, rfl, by decide, by decide⟩⟩

end Stuck

end Db

end Relay.Sources
