import HypercertsRelay.Library.Except
import HypercertsRelay.Relay.Stream

-- What becomes of an event of a source.
namespace Relay.Ingest

open Except
open Relay.Stream (XRPCStreamEvent)

-- Only an error that says so is for ever.
inductive EventError
  | permanent (reasonCode : String)
  | transient (msg : String)
  deriving DecidableEq, Repr

def rejectionReasonMalformedEvent := "malformed_event"

-- The ways in which an event is dealt with.
inductive Disposition
  | emitted
  | inactiveAccount
  | oldRev
  | rejected (reasonCode : String)
  | rejectedBefore
  | noRepoEvent
  deriving DecidableEq, Repr

-- What the calls that are made for an event come back with.
structure Answers where
  waitForLimiters : Except EventError Unit
  wasRejectedEvent : Except EventError Bool
  parseDID : Except EventError Unit
  purge : Except EventError Unit
  preProcessEvent : Except EventError Unit
  ensureAccountActive : Except EventError Bool
  getAccountRepo : Except EventError (Option String)
  verifyRepo : Except EventError Unit
  updateUpstreamStatus : Except EventError Unit
  addEvent : Except EventError Unit
  upsertAccountRepo : Except EventError Unit
  persistRejectedEvent : Except EventError Unit

section Process

variable (a : Answers)

-- The quick check for a revision that is not new.
def stale (rev : String) : Option String → Bool
  | none => false
  | some prev => prev ≠ "" ∧ rev ≠ "" ∧ rev ≤ prev

def processCommitEvent (rev : String) : Except EventError Disposition := do
  a.preProcessEvent
  if !(← a.ensureAccountActive) then return .inactiveAccount
  if stale rev (← a.getAccountRepo) then return .oldRev
  a.verifyRepo
  a.addEvent
  a.upsertAccountRepo
  return .emitted

def processSyncEvent : Except EventError Disposition := do
  a.preProcessEvent
  if !(← a.ensureAccountActive) then return .inactiveAccount
  a.verifyRepo
  a.addEvent
  a.upsertAccountRepo
  return .emitted

def processIdentityEvent : Except EventError Disposition := do
  a.parseDID.mapError fun _ => .permanent rejectionReasonMalformedEvent
  a.purge
  a.preProcessEvent
  a.addEvent
  return .emitted

def processAccountEvent (active : Bool) (status : Option String) :
    Except EventError Disposition := do
  a.preProcessEvent
  if !active && status.isNone then throw (.permanent rejectionReasonMalformedEvent)
  a.updateUpstreamStatus
  a.addEvent
  return .emitted

def processEvent : XRPCStreamEvent → Except EventError Disposition
  | .repoCommit _ rev _ => processCommitEvent a rev
  | .repoSync _ _ => processSyncEvent a
  | .repoIdentity _ _ => processIdentityEvent a
  | .repoAccount _ active status _ => processAccountEvent a active status
  | _ => .error (.transient "unhandled repo stream event type")

def processRepoEvent (e : XRPCStreamEvent) : Except EventError Disposition := do
  if ← a.wasRejectedEvent then return .rejectedBefore
  match processEvent a e with
  | .ok d => return d
  | .error (.transient msg) => throw (.transient msg)
  | .error (.permanent reasonCode) =>
    a.persistRejectedEvent
    return .rejected reasonCode

-- The callbacks of a connection, behind the limits of the host.
def eventHandler (e : XRPCStreamEvent) : Except EventError Disposition := do
  a.waitForLimiters
  match e with
  | .error => throw (.transient "error frame")
  | .repoInfo | .labelLabels _ => return .noRepoEvent
  | e => processRepoEvent a e

-- What a way to deal with an event rests on.
def Accounted (e : XRPCStreamEvent) : Disposition → Prop
  | .emitted => a.addEvent = .ok ()
  | .inactiveAccount => a.ensureAccountActive = .ok false
  | .oldRev =>
    ∃ repo rev seq prev, e = .repoCommit repo rev seq ∧ a.getAccountRepo = .ok (some prev) ∧
      rev ≤ prev
  | .rejected _ => a.persistRejectedEvent = .ok ()
  | .rejectedBefore => a.wasRejectedEvent = .ok true
  | .noRepoEvent => e = .repoInfo ∨ ∃ seq, e = .labelLabels seq

variable {a : Answers}

theorem processCommitEvent_accounted
    (h : processCommitEvent a rev = .ok d) : Accounted a (.repoCommit repo rev seq) d := by
  simp only [processCommitEvent, bind_eq_ok] at h
  obtain ⟨_, _, active, hactive, h⟩ := h
  cases active with
  | false =>
    cases h
    exact hactive
  | true =>
    obtain ⟨prev, hprev, h⟩ := bind_eq_ok.mp h
    cases hs : stale rev prev with
    | true =>
      simp only [hs, if_true] at h
      cases h
      cases prev with
      | none => cases hs
      | some prev =>
        simp only [stale, decide_eq_true_eq] at hs
        exact ⟨repo, rev, seq, prev, rfl, hprev, hs.right.right⟩
    | false =>
      simp only [hs, Bool.false_eq_true, if_false, bind_eq_ok] at h
      obtain ⟨_, _, _, hadd, _, _, hd⟩ := h
      cases hd
      exact hadd

theorem processSyncEvent_accounted (h : processSyncEvent a = .ok d) : Accounted a e d := by
  simp only [processSyncEvent, bind_eq_ok] at h
  obtain ⟨_, _, active, hactive, h⟩ := h
  cases active with
  | false =>
    cases h
    exact hactive
  | true =>
    simp only [Bool.not_true, Bool.false_eq_true, if_false, bind_eq_ok] at h
    obtain ⟨_, _, _, hadd, _, _, hd⟩ := h
    cases hd
    exact hadd

theorem processIdentityEvent_accounted (h : processIdentityEvent a = .ok d) : Accounted a e d := by
  simp only [processIdentityEvent, bind_eq_ok] at h
  obtain ⟨_, _, _, _, _, _, _, hadd, hd⟩ := h
  cases hd
  exact hadd

theorem processAccountEvent_accounted (h : processAccountEvent a active status = .ok d) :
    Accounted a e d := by
  obtain ⟨_, _, h⟩ := bind_eq_ok.mp h
  split at h
  · cases h
  · simp only [bind_eq_ok] at h
    obtain ⟨_, _, _, hadd, hd⟩ := h
    cases hd
    exact hadd

theorem processEvent_accounted (h : processEvent a e = .ok d) : Accounted a e d := by
  cases e with
  | repoCommit => exact processCommitEvent_accounted h
  | repoSync => exact processSyncEvent_accounted h
  | repoIdentity => exact processIdentityEvent_accounted h
  | repoAccount => exact processAccountEvent_accounted h
  | _ => cases h

theorem processRepoEvent_accounted (h : processRepoEvent a e = .ok d) : Accounted a e d := by
  simp only [processRepoEvent, bind_eq_ok] at h
  obtain ⟨rejected, hrejected, h⟩ := h
  cases rejected with
  | true =>
    cases h
    exact hrejected
  | false =>
    simp only [Bool.false_eq_true, if_false] at h
    split at h
    case h_1 d' hd =>
      cases h
      exact processEvent_accounted hd
    case h_2 => cases h
    case h_3 =>
      obtain ⟨_, hpersist, h⟩ := bind_eq_ok.mp h
      cases h
      exact hpersist

-- A handler that returns without an error has done, dropped or rejected the event.
theorem eventHandler_accounted (h : eventHandler a e = .ok d) : Accounted a e d := by
  have ⟨_, _, h⟩ := bind_eq_ok.mp h
  cases e with
  | error => cases h
  | repoInfo =>
    cases h
    exact .inl rfl
  | labelLabels seq =>
    cases h
    exact .inr ⟨seq, rfl⟩
  | _ => exact processRepoEvent_accounted h

end Process

end Relay.Ingest
