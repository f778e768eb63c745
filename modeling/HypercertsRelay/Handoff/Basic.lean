import HypercertsRelay.Jetstream.Jobs.Convergence
import HypercertsRelay.Library.System
import HypercertsRelay.Relay.Sources

-- One source as the Relay and Jetstream hold it, and what they exchange about it.
namespace Handoff

open List Function Jetstream.Jobs
open Jetstream.Jobs (Command Event Job Kind Manager Reason)
open Relay.Sources (Db Op Receipt Source)

def JobId (Pds : Type) : Type :=
  Pds × ℕ × Reason × ℕ

instance [DecidableEq Pds] : DecidableEq (JobId Pds) :=
  inferInstanceAs (DecidableEq (Pds × ℕ × Reason × ℕ))

def kindOf (effective : Bool) : Kind :=
  if effective then .add else .remove

def command (row : Relay.Sources.Handoff) : Command :=
  ⟨kindOf (row.state = .enabled), row.sourceRevision⟩

def receipt (job : Job Pds) : Receipt (JobId Pds) :=
  ⟨job.sourceRevision, job.policyRevision, job.id⟩

structure State (Pds : Type) where
  relay : Db (JobId Pds)
  manager : Manager Pds
  -- Rows whose delivery the Relay is waiting for.
  sending : List Relay.Sources.Handoff
  -- Requests on the way to Jetstream, and the ones it has accepted.
  requests : List Command
  accepted : List Command
  receipts : List (Receipt (JobId Pds))
  -- Source and policy revisions on the way to the Relay.
  advances : List (ℕ × ℕ)
  -- A policy change that holds the lock, and whether the Relay has acknowledged it for the source.
  policyChange : Option Bool
  -- What has happened: whether a row was ever queued, and what Jetstream has received.
  queued : Bool
  delivered : List Command

-- The row is still what the source is.
def Matches (relay : Db (JobId Pds)) (row : Relay.Sources.Handoff) : Prop :=
  ∃ source, relay.source = some source ∧ source.revision = row.sourceRevision ∧
    source.effective relay.host = (row.state = .enabled : Bool)

instance (relay : Db (JobId Pds)) (row : Relay.Sources.Handoff) : Decidable (Matches relay row) :=
  match hs : relay.source with
  | none => isFalse fun ⟨_, h, _⟩ => nomatch hs.symm.trans h
  | some source =>
    decidable_of_iff (source.revision = row.sourceRevision ∧
        source.effective relay.host = (row.state = .enabled : Bool))
      ⟨fun h => ⟨source, hs, h⟩, fun ⟨_, hs', h⟩ => Option.some.inj (hs.symm.trans hs') ▸ h⟩

-- The end of a delivery.
def settle (relay : Db (JobId Pds)) (row : Relay.Sources.Handoff) (ok : Bool) :
    Db (JobId Pds) :=
  if relay.handoff = some row then
    if ok ∧ Matches relay row then { relay with handoff := none }
    else { relay with handoff := some { row with attempts := row.attempts + 1 } }
  else relay

namespace State

def operate (s : State Pds) (op : Op) : State Pds :=
  { s with
    relay := s.relay.apply op
    queued := s.queued || (s.relay.apply op).handoff.isSome }

variable [DecidableEq Pds]

def deliver (s : State Pds) (p : Pds) (c : Command) : State Pds :=
  { s with
    manager := (s.manager.deliver p c).2
    accepted := if (s.manager.deliver p c).1 = none then c :: s.accepted else s.accepted
    delivered := s.delivered ++ [c] }

end State

variable [DecidableEq Pds]

-- Messages stay on the way until they are lost, so each can arrive late and more than once. While a
-- policy changes, the manager does nothing else.
inductive Step (p : Pds) : State Pds → State Pds → Prop where
  | operate (op : Op) : Step p s (s.operate op)
  | supersede {row} : s.relay.handoff = some row →
    ¬Matches s.relay row → Step p s { s with relay := { s.relay with handoff := none } }
  | send {row} : s.relay.handoff = some row →
    Matches s.relay row →
    Step p s { s with sending := row :: s.sending, requests := command row :: s.requests }
  | acknowledge {row} : row ∈ s.sending →
    command row ∈ s.accepted →
    Step p s { s with relay := settle s.relay row true, sending := s.sending.erase row }
  | fail {row} : row ∈ s.sending →
    Step p s { s with relay := settle s.relay row false, sending := s.sending.erase row }
  | deliver {c} : c ∈ s.requests → s.policyChange = none →
    Step p s (s.deliver p c)
  | lose (c : Command) : Step p s { s with requests := s.requests.erase c }
  | process {event} : event.command? p = none →
    event ≠ .setPolicy → s.policyChange = none →
    Step p s { s with manager := s.manager.apply event }
  | submit {job} : job ∈ s.manager.data.jobs → job.pds = p →
    job.state = .complete → 0 < job.sourceRevision →
    Step p s { s with receipts := receipt job :: s.receipts }
  | receive {r relay} :
    r ∈ s.receipts → s.relay.acknowledgeSourceRecovery r = .ok relay → Step p s { s with relay }
  | begin : s.policyChange = none → Step p s { s with policyChange := some false }
  | request {b} : s.policyChange = some b →
    s.manager.data.enabled p → 0 < s.manager.data.sourceRevisions p →
    Step p s { s with
      advances := (s.manager.data.sourceRevisions p, s.manager.policy + 1) :: s.advances }
  | advance {a relay} : a ∈ s.advances →
    s.relay.advanceSourceRecoveryPolicy a.1 a.2 = .ok relay → Step p s { s with relay }
  | advanced {b relay} : s.policyChange = some b →
    s.relay.advanceSourceRecoveryPolicy (s.manager.data.sourceRevisions p)
      (s.manager.policy + 1) = .ok relay →
    Step p s { s with relay, policyChange := some true }
  | commit {b : Bool} : s.policyChange = some b →
    (s.manager.data.enabled p → 0 < s.manager.data.sourceRevisions p → b) →
    Step p s { s with manager := s.manager.commitPolicy, policyChange := none }
  | abort {b} : s.policyChange = some b →
    Step p s { s with policyChange := none }
  | crashRelay : Step p s { s with sending := [] }
  | crashJetstream :
    Step p s { s with manager := s.manager.restart, policyChange := none }

-- Neither side has anything about the source yet, except that the Relay may know its host.
structure Init (p : Pds) (s : State Pds) : Prop where
  ok : s.relay.Ok
  required : ∀ source, s.relay.source = some source → source.recoveryRequired
  mirror : ∀ source, s.relay.source = some source → source.recoveryPolicyRevision = 0
  row : s.relay.handoff = none
  fresh : Jetstream.Jobs.Fresh p s.manager.data
  policies : ∀ j ∈ s.manager.data.jobs, j.policyRevision ≤ s.manager.policy
  policy : 0 < s.manager.policy
  sending : s.sending = []
  requests : s.requests = []
  accepted : s.accepted = []
  receipts : s.receipts = []
  advances : s.advances = []
  change : s.policyChange = none
  queued : s.queued = false
  received : s.delivered = []

def system (p : Pds) : System (State Pds) where
  init := Init p
  step := Step p

-- The effective state is a function of the revision: `E` gives the kind of its command.
structure Inv (p : Pds) (E : ℕ → Kind) (s : State Pds) : Prop where
  ok : s.relay.Ok
  current : ∀ source, s.relay.source = some source →
    E source.revision = kindOf (source.effective s.relay.host)
  commands : ∀ c, c ∈ s.requests ∨ c ∈ s.delivered → c.kind = E c.revision ∧ 0 < c.revision ∧
    ∃ source, s.relay.source = some source ∧ c.revision ≤ source.revision
  after : Jetstream.Jobs.After p s.delivered s.manager.data
  accepted : ∀ c ∈ s.accepted, c ∈ s.delivered

section Core

-- What the recovery of a source does not touch.
def core (source : Source) :
    Relay.Sources.SourceState × ℕ × Relay.Sources.ValidationStatus :=
  (source.state, source.revision, source.validationStatus)

theorem exists_of_core (h : o'.map core = o.map core)
    (hs : o' = some source) : ∃ source', o = some source' ∧ core source' = core source := by
  rw [hs] at h
  exact Option.map_eq_some_iff.mp h.symm

section

variable (h : core source' = core source)

include h

theorem state_of_core : source'.state = source.state :=
  congrArg Prod.fst h

theorem revision_of_core : source'.revision = source.revision :=
  congrArg (fun c => c.2.1) h

theorem effective_of_core : source'.effective host = source.effective host := by
  have hvalid : source'.validationStatus = source.validationStatus := congrArg (fun c => c.2.2) h
  rw [Source.effective, Source.effective, state_of_core h, hvalid]

end

end Core

namespace Inv

variable {p : Pds}

section

variable (h : Inv p E s)

include h

theorem versioned
    (hl : ∀ c ∈ l, c ∈ s.requests ∨ c ∈ s.delivered) : Jetstream.Jobs.Versioned l := by
  refine ⟨fun c hc => (h.commands c (hl c hc)).right.left, fun c hc c' hc' he => ?_⟩
  have hkind := (h.commands c (hl c hc)).left
  have hkind' := (h.commands c' (hl c' hc')).left
  rw [←he, ←hkind] at hkind'
  have ⟨kind, rev⟩ := c
  cases hkind'
  cases he
  rfl

-- Steps that leave the coordinate of the source as it is and send no new command.
theorem of_core (hsource : s'.relay.source.map core = s.relay.source.map core)
    (hhost : s'.relay.host = s.relay.host) (hreq : ∀ c ∈ s'.requests, c ∈ s.requests)
    (hdel : s'.delivered = s.delivered) (hacc : s'.accepted = s.accepted)
    (hafter : Jetstream.Jobs.After p s.delivered s'.manager.data) : Inv p E s' where
  ok source hs := by
    have ⟨source', hs', hcore⟩ := exists_of_core hsource hs
    rw [hhost, ←revision_of_core hcore, ←state_of_core hcore]
    exact h.ok source' hs'
  current source hs := by
    have ⟨source', hs', hcore⟩ := exists_of_core hsource hs
    rw [hhost, ←revision_of_core hcore, ←effective_of_core hcore]
    exact h.current source' hs'
  commands c hc := by
    rw [hdel] at hc
    have ⟨hkind, hpos, source, hs, hle⟩ := h.commands c (hc.imp (hreq c) fun h => h)
    have ⟨source', hs', hcore⟩ := exists_of_core hsource.symm hs
    exact ⟨hkind, hpos, source', hs', revision_of_core hcore ▸ hle⟩
  after := hdel ▸ hafter
  accepted c hc := hdel ▸ h.accepted c (hacc ▸ hc)

theorem command_mem (hm : Matches s.relay row) :
    (command row).kind = E (command row).revision ∧ 0 < (command row).revision ∧
      ∃ source, s.relay.source = some source ∧ (command row).revision ≤ source.revision := by
  have ⟨source, hs, hrev, heff⟩ := hm
  have hcur := h.current source hs
  have hpos := (h.ok source hs).left
  rw [hrev, heff] at hcur
  exact ⟨hcur.symm, hpos.trans_eq hrev, source, hs, hrev.ge⟩

theorem send (hm : Matches s.relay row) :
    Inv p E { s with sending := row :: s.sending, requests := command row :: s.requests } where
  ok := h.ok
  current := h.current
  commands c hc := by
    obtain hc | hc := hc
    · obtain rfl | hc := mem_cons.mp hc
      · exact h.command_mem hm
      · exact h.commands c (.inl hc)
    · exact h.commands c (.inr hc)
  after := h.after
  accepted := h.accepted

theorem deliver (hc : c ∈ s.requests) : Inv p E (s.deliver p c) where
  ok := h.ok
  current := h.current
  commands c' hc' := by
    obtain hc' | hc' := hc'
    · exact h.commands c' (.inl hc')
    · obtain hc' | hc' := mem_append.mp hc'
      · exact h.commands c' (.inr hc')
      · exact h.commands c' (.inl <| mem_singleton.mp hc' ▸ hc)
  after := by
    have hv : Jetstream.Jobs.Versioned (s.delivered ++ [c]) := by
      refine h.versioned fun c' hc' => (mem_append.mp hc').symm.imp_left fun hc' => ?_
      rwa [mem_singleton.mp hc']
    have hmem : c ∈ s.delivered ++ [c] := mem_append_right _ (.head _)
    exact h.after.command hv.left fun c' hc' => hv.right c' hc' c hmem
  accepted c' hc' := by
    simp only [State.deliver] at hc' ⊢
    split at hc'
    · obtain rfl | hc' := mem_cons.mp hc'
      · exact mem_append_right _ (.head _)
      · exact mem_append_left _ (h.accepted c' hc')
    · exact mem_append_left _ (h.accepted c' hc')

-- An operation of the Relay. A new revision gets its kind here.
theorem operate (op : Op) : ∃ E', Inv p E' (s.operate op) := by
  have hok := Relay.Sources.Db.apply_ok h.ok op
  -- What a source that was there before keeps, once the kind of its new revision is set.
  have hrevise {source source'} (hs : s.relay.source = some source)
      (hs' : (s.relay.apply op).source = some source')
      (hr : source'.revision = source.revision + 1) : ∃ E', Inv p E' (s.operate op) := by
    refine ⟨update E source'.revision
      (kindOf (source'.effective (s.relay.apply op).host)), hok, fun t ht => ?_, fun c hc => ?_,
      h.after, h.accepted⟩
    · cases hs'.symm.trans ht
      exact update_self ..
    have ⟨hkind, hpos, t, ht, hle⟩ := h.commands c hc
    cases hs.symm.trans ht
    have hne : c.revision ≠ source'.revision := by omega
    rw [update_of_ne hne]
    exact ⟨hkind, hpos, source', hs', by omega⟩
  cases Relay.Sources.Db.apply_change h.ok op with
  | same hs he _ =>
    refine ⟨E, hok, fun t ht => ?_, fun c hc => ?_, h.after, h.accepted⟩
    · have ht' : s.relay.source = some t := hs ▸ ht
      exact (h.current t ht').trans (congrArg kindOf (he t ht').symm)
    · have ⟨hkind, hpos, t, ht, hle⟩ := h.commands c hc
      exact ⟨hkind, hpos, t, hs.trans ht, hle⟩
  | @create source' hs hs' hr _ _ _ =>
    refine ⟨update E source'.revision
      (kindOf (source'.effective (s.relay.apply op).host)), hok, fun t ht => ?_, fun c hc => ?_,
      h.after, h.accepted⟩
    · cases hs'.symm.trans ht
      exact update_self ..
    · have ⟨_, _, t, ht, _⟩ := h.commands c hc
      exact nomatch hs.symm.trans ht
  | revise hs hs' hr _ _ _ => exact hrevise hs hs' hr
  | ban _ _ hs hs' hr _ _ _ => exact hrevise hs hs' hr

end

end Inv

section Steps

variable {p : Pds}

omit [DecidableEq Pds] in
theorem settle_source (relay : Db (JobId Pds)) (row : Relay.Sources.Handoff) (ok : Bool) :
    (settle relay row ok).source = relay.source ∧ (settle relay row ok).host = relay.host ∧
      (settle relay row ok).receipts = relay.receipts := by
  rw [settle]
  split
  · split <;> exact ⟨rfl, rfl, rfl⟩
  · exact ⟨rfl, rfl, rfl⟩

theorem acknowledge_core {relay relay' : Db (JobId Pds)}
    (h : relay.acknowledgeSourceRecovery r = .ok relay') :
    relay'.source.map core = relay.source.map core ∧ relay'.host = relay.host ∧
      relay'.handoff = relay.handoff := by
  rw [Db.acknowledgeSourceRecovery] at h
  split at h
  · exact nomatch h
  split at h
  · exact nomatch h
  case h_2 source hs =>
    split at h
    · exact nomatch h
    · injection h with h
      subst h
      exact ⟨by rw [hs]; rfl, rfl, rfl⟩

omit [DecidableEq Pds] in
theorem advance_core {relay relay' : Db (JobId Pds)}
    (h : relay.advanceSourceRecoveryPolicy sourceRevision policyRevision = .ok relay') :
    relay'.source.map core = relay.source.map core ∧ relay'.host = relay.host ∧
      relay'.handoff = relay.handoff := by
  rw [Db.advanceSourceRecoveryPolicy] at h
  split at h
  · exact nomatch h
  split at h
  · exact nomatch h
  case h_2 source hs =>
    split at h
    · exact nomatch h
    split at h
    · injection h with h
      subst h
      exact ⟨by rw [hs]; rfl, rfl, rfl⟩
    · injection h with h
      subst h
      exact ⟨rfl, rfl, rfl⟩

theorem Inv.step (h : Inv p E s) (e : Step p s s') : ∃ E', Inv p E' s' := by
  cases e with
  | operate op => exact h.operate op
  | supersede _ _ => exact ⟨E, h.of_core rfl rfl (fun _ h => h) rfl rfl h.after⟩
  | send _ hm => exact ⟨E, h.send hm⟩
  | @acknowledge row _ _ =>
    have ⟨hs, hh, _⟩ := settle_source s.relay row true
    exact ⟨E, h.of_core (congrArg _ hs) hh (fun _ h => h) rfl rfl h.after⟩
  | @fail row _ =>
    have ⟨hs, hh, _⟩ := settle_source s.relay row false
    exact ⟨E, h.of_core (congrArg _ hs) hh (fun _ h => h) rfl rfl h.after⟩
  | deliver hc _ => exact ⟨E, h.deliver hc⟩
  | lose c => exact ⟨E, h.of_core rfl rfl (fun _ => mem_of_mem_erase) rfl rfl h.after⟩
  | process he _ _ =>
    have hframe := frame_apply (m := s.manager) he
    exact ⟨E, h.of_core rfl rfl (fun _ h => h) rfl rfl (h.after.of_frame hframe)⟩
  | submit _ _ _ _ => exact ⟨E, h.of_core rfl rfl (fun _ h => h) rfl rfl h.after⟩
  | receive _ hr =>
    have ⟨hs, hh, _⟩ := acknowledge_core hr
    exact ⟨E, h.of_core hs hh (fun _ h => h) rfl rfl h.after⟩
  | begin _ => exact ⟨E, h.of_core rfl rfl (fun _ h => h) rfl rfl h.after⟩
  | request _ _ _ => exact ⟨E, h.of_core rfl rfl (fun _ h => h) rfl rfl h.after⟩
  | advance _ ha =>
    have ⟨hs, hh, _⟩ := advance_core ha
    exact ⟨E, h.of_core hs hh (fun _ h => h) rfl rfl h.after⟩
  | advanced _ ha =>
    have ⟨hs, hh, _⟩ := advance_core ha
    exact ⟨E, h.of_core hs hh (fun _ h => h) rfl rfl h.after⟩
  | commit _ _ =>
    have hframe := frame_commitPolicy (m := s.manager) (p := p)
    exact ⟨E, h.of_core rfl rfl (fun _ h => h) rfl rfl (h.after.of_frame hframe)⟩
  | abort _ => exact ⟨E, h.of_core rfl rfl (fun _ h => h) rfl rfl h.after⟩
  | crashRelay => exact ⟨E, h.of_core rfl rfl (fun _ h => h) rfl rfl h.after⟩
  | crashJetstream =>
    have hframe := Jetstream.Jobs.Frame.mapJobs p s.manager.data touches_restart
    exact ⟨E, h.of_core rfl rfl (fun _ h => h) rfl rfl (h.after.of_frame hframe)⟩

theorem Inv.init (h : Init p s) : ∃ E, Inv p E s := by
  refine ⟨fun _ => (s.relay.source.map fun source => kindOf (source.effective s.relay.host)).getD .add,
    h.ok, fun source hs => by simp [hs], fun c hc => ?_,
    ⟨h.fresh.current, .inl ⟨h.received, h.fresh.revision, h.fresh.tombstone⟩⟩, fun c hc => ?_⟩
  · rw [h.requests, h.received] at hc
    exact hc.elim (by rintro ⟨⟩) (by rintro ⟨⟩)
  · rw [h.accepted] at hc
    cases hc

theorem inv_of_reachable (h : (system p).Reachable s) : ∃ E, Inv p E s :=
  h.invariant (fun _ => Inv.init) fun _ _ _ ⟨_, hinv⟩ => hinv.step

-- The command of the current revision is the highest that Jetstream can have received.
theorem Inv.at_current (h : Inv p E s) (hs : s.relay.source = some source) (hmem : c ∈ s.delivered)
    (hc : c.revision = source.revision) : Jetstream.Jobs.At p c s.manager.data := by
  obtain ⟨hnil, _, _⟩ | ⟨c', hhigh, hat⟩ := h.after.latest
  · rw [hnil] at hmem
    exact nomatch hmem
  have ⟨_, _, source', hs', hle⟩ := h.commands c' (.inr hhigh.left)
  cases hs.symm.trans hs'
  have heq : c' = c := by
    have hversioned := h.versioned (fun _ => Or.inr)
    refine hversioned.right c' hhigh.left c hmem (le_antisymm ?_ (hhigh.right c hmem))
    exact hle.trans_eq hc.symm
  exact heq ▸ hat

-- Jetstream is never ahead of the Relay.
theorem Inv.sourceRevisions_le (h : Inv p E s) (hs : s.relay.source = some source) :
    s.manager.data.sourceRevisions p ≤ source.revision := by
  obtain ⟨_, hr, _⟩ | ⟨c, hhigh, hat⟩ := h.after.latest
  · exact hr.trans_le (Nat.zero_le _)
  · have ⟨_, _, source', hs', hle⟩ := h.commands c (.inr hhigh.left)
    cases hs.symm.trans hs'
    exact hat.revision.trans_le hle

theorem Inv.sourceRevisions_eq_zero (h : Inv p E s)
    (hs : s.relay.source = none) : s.manager.data.sourceRevisions p = 0 := by
  obtain ⟨_, hr, _⟩ | ⟨c, hhigh, _⟩ := h.after.latest
  · exact hr
  · have ⟨_, _, source, hs', _⟩ := h.commands c (.inr hhigh.left)
    exact nomatch hs.symm.trans hs'

end Steps

end Handoff
