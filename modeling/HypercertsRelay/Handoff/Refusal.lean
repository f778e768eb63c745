import HypercertsRelay.Handoff.Recovery

-- A current completion is accepted with the policy Jetstream has committed.
namespace Handoff

open Jetstream.Jobs

open Jetstream.Jobs (Job Kind)
open Relay.Sources (Db Op Receipt Source)

variable [DecidableEq Pds]

-- The receipt of a current completion is accepted and clears the requirement.
def AcceptsCurrent (p : Pds) (s : State Pds) : Prop :=
  ∀ source j, s.relay.source = some source → source.state = .enabled →
    j ∈ s.manager.data.jobs → j.pds = p → j.state = .complete →
    j.policyRevision = s.manager.policy → j.sourceRevision = source.revision →
    s.manager.data.sourceRevisions p = source.revision →
      ∃ relay, s.relay.acknowledgeSourceRecovery (receipt j) = .ok relay ∧
        ∃ source', relay.source = some source' ∧ source'.recoveryRequired = false

-- No step leaves the Relay with a policy Jetstream does not get to, or behind its own.
structure Keeps (s s' : State Pds) : Prop where
  -- The Relay records a policy only for a change that hears of it.
  advance : recoveryPolicyRevision s < recoveryPolicyRevision s' → s'.policyChange = some true
  -- A change the Relay has recorded is committed.
  change : s.policyChange = some true → s'.policyChange ≠ some true →
    s'.manager.policy = s.manager.policy + 1
  -- A policy is committed without the Relay only if that holds none.
  commit : s.manager.policy < s'.manager.policy → s.policyChange = some true ∨
    recoveryPolicyRevision s = 0

-- The copy is none, or the committed policy, or the one that is about to be committed.
structure Copied (s : State Pds) : Prop where
  changing : s.policyChange = some true → recoveryPolicyRevision s = s.manager.policy + 1
  settled : s.policyChange ≠ some true →
    recoveryPolicyRevision s = 0 ∨ recoveryPolicyRevision s = s.manager.policy
  advances : ∀ a ∈ s.advances, a.2 ≤ s.manager.policy + 1

section Copies

variable {s s' : State Pds}

section

omit [DecidableEq Pds]

theorem recoveryPolicyRevision_eq (hs : s.relay.source = some source) :
    recoveryPolicyRevision s = source.recoveryPolicyRevision := by
  rw [recoveryPolicyRevision, hs]
  rfl

theorem recoveryPolicyRevision_congr (h : s'.relay.source = s.relay.source) :
    recoveryPolicyRevision s' = recoveryPolicyRevision s := by
  rw [recoveryPolicyRevision, h]
  rfl

theorem operate_recoveryPolicyRevision (hok : s.relay.Ok) (op : Op) :
    recoveryPolicyRevision (s.operate op) = recoveryPolicyRevision s := by
  have heq {source'} (hs : (s.relay.apply op).source = some source') :
      recoveryPolicyRevision (s.operate op) = source'.recoveryPolicyRevision :=
    recoveryPolicyRevision_eq hs
  cases Relay.Sources.Db.apply_change hok op with
  | same hs _ _ => exact recoveryPolicyRevision_congr hs
  | create hs hs' _ _ hp _ =>
    rw [heq hs', hp, recoveryPolicyRevision, hs]
    rfl
  | revise hs hs' _ _ hp _ => rw [heq hs', hp, recoveryPolicyRevision_eq hs]
  | ban _ _ hs hs' _ _ hp _ => rw [heq hs', hp, recoveryPolicyRevision_eq hs]

end

namespace Copied

section

omit [DecidableEq Pds]

theorem of_eq (h : Copied s) (hr : recoveryPolicyRevision s' = recoveryPolicyRevision s)
    (hc : s'.policyChange = s.policyChange) (hm : s'.manager.policy = s.manager.policy)
    (ha : s'.advances = s.advances) : Copied s' where
  changing hc' := by
    rw [hr, hm]
    exact h.changing (hc ▸ hc')
  settled hc' := by
    rw [hr, hm]
    exact h.settled (hc ▸ hc')
  advances := by
    rw [hm, ha]
    exact h.advances

theorem of_abandon (h : Copied s) (hk : Keeps s s')
    (hr : recoveryPolicyRevision s' = recoveryPolicyRevision s) (hc : s'.policyChange ≠ some true)
    (hm : s'.manager.policy = s.manager.policy) (ha : s'.advances = s.advances) : Copied s' := by
  refine ⟨fun hc' => absurd hc' hc, fun _ => ?_, by rw [hm, ha]; exact h.advances⟩
  by_cases hchange : s.policyChange = some true
  · have := hk.change hchange hc
    omega
  · rw [hr, hm]
    exact h.settled hchange

theorem advance (h : Copied s) (hmem : a ∈ s.advances)
    (ha : s.relay.advanceSourceRecoveryPolicy a.1 a.2 = .ok relay)
    (hk : Keeps s { s with relay }) : Copied { s with relay } := by
  refine h.of_eq ?_ rfl rfl rfl
  have ⟨source, hs, _, hle, source', hs', _, hpol, _⟩ := advance_spec ha
  have heq : recoveryPolicyRevision { s with relay } = a.2 :=
    (recoveryPolicyRevision_eq hs').trans hpol
  have hlow : recoveryPolicyRevision s ≤ a.2 := (recoveryPolicyRevision_eq hs).trans_le hle
  have hhigh := h.advances a hmem
  -- A copy that grows would have to pass the policy of the change under way.
  by_contra hne
  have hlt : recoveryPolicyRevision s < recoveryPolicyRevision { s with relay } := by omega
  have := h.changing (hk.advance hlt)
  omega

end

theorem commit (h : Copied s)
    (hk : Keeps s { s with manager := s.manager.commitPolicy, policyChange := none }) :
    Copied { s with manager := s.manager.commitPolicy, policyChange := none } := by
  obtain hpolicy | hsame := commitPolicy_policy (m := s.manager)
  · have hadv : ∀ a ∈ s.advances, a.2 ≤ s.manager.commitPolicy.policy + 1 := by
      intro a ha
      have := h.advances a ha
      omega
    refine ⟨nofun, fun _ => ?_, hadv⟩
    have hlt : s.manager.policy < s.manager.commitPolicy.policy := by omega
    obtain hchange | hzero := hk.commit hlt
    · exact .inr ((h.changing hchange).trans hpolicy.symm)
    · exact .inl hzero
  · exact h.of_abandon hk rfl nofun (congrArg _ hsame) rfl

theorem step (h : Copied s) (hinv : Inv p E s) (hk : Keeps s s') (e : Step p s s') : Copied s' := by
  cases e with
  | operate op => exact h.of_eq (operate_recoveryPolicyRevision hinv.ok op) rfl rfl rfl
  | acknowledge _ _ =>
    exact h.of_eq (recoveryPolicyRevision_congr (settle_source ..).left) rfl rfl rfl
  | fail _ => exact h.of_eq (recoveryPolicyRevision_congr (settle_source ..).left) rfl rfl rfl
  | deliver _ _ => exact h.of_eq rfl rfl deliver_policy rfl
  | process _ hp _ => exact h.of_eq rfl rfl (apply_policy hp) rfl
  | receive _ hack =>
    obtain ⟨source, hs, _, _, _, hs', _⟩ := acknowledge_spec hack
    refine h.of_eq ?_ rfl rfl rfl
    rw [recoveryPolicyRevision_eq hs, recoveryPolicyRevision, hs']
    rfl
  | begin _ => exact h.of_abandon hk rfl (by rintro ⟨⟩) rfl rfl
  | request _ _ _ =>
    refine ⟨h.changing, h.settled, fun a ha => ?_⟩
    obtain rfl | ha := List.mem_cons.mp ha
    · exact le_rfl
    · exact h.advances a ha
  | advance hmem ha => exact h.advance hmem ha hk
  | advanced _ ha =>
    obtain ⟨_, _, _, _, source', hs', _, hpol, _⟩ := advance_spec ha
    refine ⟨fun _ => ?_, fun hc => absurd rfl hc, h.advances⟩
    exact (recoveryPolicyRevision_eq hs').trans hpol
  | commit _ _ => exact h.commit hk
  | abort _ => exact h.of_abandon hk rfl (by rintro ⟨⟩) rfl rfl
  | crashJetstream => exact h.of_abandon hk rfl (by rintro ⟨⟩) rfl rfl
  | _ => exact h.of_eq rfl rfl rfl rfl

end Copied

end Copies

theorem copied_of_reachable {p : Pds} (h : ((system p).restrict Keeps).Reachable s) : Copied s := by
  refine h.invariant (P := Copied) (fun s hi => ?_) fun s s' hr hcopied e => ?_
  · refine ⟨fun hc => (by cases hi.change.symm.trans hc), fun _ => .inl ?_, fun a ha => ?_⟩
    · cases hs : s.relay.source with
      | none => rw [recoveryPolicyRevision, hs]; rfl
      | some source => exact (recoveryPolicyRevision_eq hs).trans (hi.mirror source hs)
    · rw [hi.advances] at ha
      cases ha
  · obtain ⟨_, hinv⟩ := inv_of_reachable hr.of_restrict
    exact hcopied.step hinv e.right e.left

-- A copy that is in step with Jetstream refuses nothing that is current.
theorem acceptsCurrent_of_keeps {s : State Pds}
    (h : ((system p).restrict Keeps).Reachable s) (hchange : s.policyChange ≠ some true) :
    AcceptsCurrent p s := by
  intro source j hs hen _ _ _ hpol hrev _
  have ⟨_, hinv⟩ := inv_of_reachable h.of_restrict
  have hpolicy := (recovery_of_reachable h.of_restrict).policy
  have hpos := (hinv.ok source hs).left
  have hcopy := (copied_of_reachable h).settled hchange
  rw [recoveryPolicyRevision_eq hs] at hcopy
  have hvalid : ¬((receipt j).sourceRevision = 0 ∨ (receipt j).policyRevision = 0) := by
    simp only [receipt]
    omega
  have hcurrent : ¬(source.state ≠ .enabled ∨ source.revision ≠ (receipt j).sourceRevision ∨
      source.recoveryPolicyRevision ≠ 0 ∧
        source.recoveryPolicyRevision ≠ (receipt j).policyRevision) := by
    rintro (hd | hd | ⟨hd, hd'⟩)
    · exact hd hen
    · exact hd hrev.symm
    · exact hd' ((hcopy.resolve_left hd).trans hpol.symm)
  rw [Db.acknowledgeSourceRecovery, if_neg hvalid, hs]
  simp only [if_neg hcurrent]
  exact ⟨_, rfl, _, rfl, rfl⟩

section Sample

def changedJob : Job Unit :=
  ⟨(), 2, .policyChanged, 2, .complete, 1⟩

theorem Quiet.keeps (h : Quiet s s') : Keeps s s' := by
  have hmirror : recoveryPolicyRevision s' = 0 := by
    rw [recoveryPolicyRevision, h.mirror]
    rfl
  refine ⟨fun hlt => ?_, fun hc => (by cases h.change.symm.trans hc), fun hlt => ?_⟩
  · omega
  · have := h.policy
    omega

-- The policy is changed, and the job this creates runs to its end.
theorem acceptsCurrent_of_keeps_sample : ∃ s : State Unit,
    ((system ()).restrict Keeps).Reachable s ∧ s.manager.policy = 2 ∧ ∃ relay,
      s.relay.acknowledgeSourceRecovery (receipt changedJob) = .ok relay := by
  have h₀ := sampleComplete_reachable.restrict_mono fun _ _ => Quiet.keeps
  have h₁ := h₀.step ⟨.begin rfl, by decide, by decide, by decide⟩
  have h₂ := h₁.step ⟨.advanced rfl rfl, by decide, by decide, by decide⟩
  have h₃ := h₂.step ⟨.commit rfl fun _ _ => rfl, by decide, by decide, by decide⟩
  have h₄ := h₃.step ⟨.process (rfl : Event.command? () (.claim changedJob.id) = none) nofun rfl,
    by decide, by decide, by decide⟩
  have h₅ := h₄.step ⟨.process (rfl : Event.command? () (.outcome changedJob.id .completed) = none)
    nofun rfl, by decide, by decide, by decide⟩
  have ⟨relay, hack, _⟩ := acceptsCurrent_of_keeps h₅ nofun _ changedJob rfl rfl (by decide) rfl rfl
    rfl rfl rfl
  exact ⟨_, h₅, rfl, relay, hack⟩

-- The Relay has recorded the next policy, and the change fails for another source.
theorem refusesCurrent : ∃ s : State Unit, (system ()).Reachable s ∧ s.policyChange = none ∧
    ¬AcceptsCurrent () s := by
  have h₁ := sampleComplete_reachable.of_restrict.step (.begin rfl)
  have h₂ := h₁.step (.advanced rfl rfl)
  have h₃ := h₂.step (.abort rfl)
  refine ⟨_, h₃, rfl, fun haccepts => ?_⟩
  have ⟨relay, hack, _⟩ := haccepts _ sampleJob rfl rfl sampleComplete_mem rfl rfl rfl rfl rfl
  exact nomatch hack

end Sample

end Handoff
