import HypercertsRelay.Handoff.Agreement
import HypercertsRelay.Jetstream.Jobs.Completed

-- Recovery of a source is cleared only by a completion that is still current.
namespace Handoff

open Jetstream.Jobs Relay.Sources.Db

open Jetstream.Jobs (Command Data Grows Job Kind)
open Relay.Sources (Db Op Receipt Source)

variable [DecidableEq Pds]

-- A job of the source is durably complete with the coordinate of the receipt.
def Completed (p : Pds) (s : State Pds) (r : Receipt (JobId Pds)) : Prop :=
  ∃ j ∈ s.manager.data.jobs, j.pds = p ∧ j.state = .complete ∧ receipt j = r

structure Recovery (p : Pds) (s : State Pds) : Prop where
  policy : 0 < s.manager.policy
  policies : ∀ j ∈ s.manager.data.jobs, j.pds = p → j.policyRevision ≤ s.manager.policy
  origin : ∀ j ∈ s.manager.data.jobs, j.pds = p → 0 < j.sourceRevision →
    ⟨.add, j.sourceRevision⟩ ∈ s.delivered
  -- The Relay knows of the current policy if there are jobs of an earlier one.
  behind : ∀ j ∈ s.manager.data.jobs, j.pds = p → 0 < j.sourceRevision →
    j.policyRevision < s.manager.policy → ∀ source, s.relay.source = some source →
      j.sourceRevision = source.revision → s.manager.policy ≤ source.recoveryPolicyRevision
  change : s.policyChange = some true → ∀ source, s.relay.source = some source →
    s.manager.data.sourceRevisions p = source.revision →
      s.manager.policy + 1 ≤ source.recoveryPolicyRevision
  receipts : ∀ r ∈ s.receipts, Completed p s r
  cleared : ∀ source, s.relay.source = some source → source.recoveryRequired = false →
    source.state = .enabled ∧ ∃ r ∈ s.relay.receipts, r.sourceRevision = source.revision ∧
      (source.recoveryPolicyRevision ≠ 0 → r.policyRevision = source.recoveryPolicyRevision) ∧
      Completed p s r

section Specs

variable {relay relay' : Db (JobId Pds)}

theorem acknowledge_spec (h : relay.acknowledgeSourceRecovery r = .ok relay') :
    ∃ source, relay.source = some source ∧ source.state = .enabled ∧
      source.revision = r.sourceRevision ∧
      (source.recoveryPolicyRevision ≠ 0 → source.recoveryPolicyRevision = r.policyRevision) ∧
      relay'.source = some { source with recoveryRequired := false } ∧ r ∈ relay'.receipts ∧
      ∀ r' ∈ relay.receipts, r' ∈ relay'.receipts := by
  rw [Db.acknowledgeSourceRecovery] at h
  split at h
  · cases h
  split at h
  · cases h
  case h_2 source hs =>
    split at h
    · cases h
    case isFalse hg =>
      injection h with h
      subst h
      simp only [ne_eq, not_or, not_and, not_not] at hg
      refine ⟨source, hs, hg.left, hg.right.left, hg.right.right, rfl, ?_⟩
      split
      case isTrue hmem => exact ⟨hmem, fun _ h => h⟩
      · exact ⟨.head _, fun _ => List.mem_cons_of_mem _⟩

omit [DecidableEq Pds] in
theorem advance_spec
    (h : relay.advanceSourceRecoveryPolicy sourceRevision policyRevision = .ok relay') :
    ∃ source, relay.source = some source ∧ source.revision = sourceRevision ∧
      source.recoveryPolicyRevision ≤ policyRevision ∧ ∃ source', relay'.source = some source' ∧
      source'.revision = source.revision ∧ source'.recoveryPolicyRevision = policyRevision ∧
      (source'.recoveryRequired = false → source' = source) ∧
      relay'.receipts = relay.receipts := by
  rw [Db.advanceSourceRecoveryPolicy] at h
  split at h
  · cases h
  split at h
  · cases h
  case h_2 source hs =>
    split at h
    · cases h
    case isFalse hg =>
      simp only [ne_eq, not_or, not_not, not_lt] at hg
      refine ⟨source, hs, hg.right.left, hg.right.right, ?_⟩
      split at h
      · injection h with h
        subst h
        exact ⟨_, rfl, rfl, rfl, by rintro ⟨⟩, rfl⟩
      case isFalse hlt =>
        injection h with h
        subst h
        exact ⟨source, hs, rfl, hg.right.right.antisymm (not_lt.mp hlt), fun _ => rfl, rfl⟩

end Specs

namespace Recovery

variable {p : Pds} {s s' : State Pds}

section

variable (h : Recovery p s)

include h

theorem of_grows (hinv : Inv p E s')
    (hgrows : Grows p s'.manager.policy s.manager.data s'.manager.data)
    (hrelay : s'.relay = s.relay) (hreceipts : s'.receipts = s.receipts)
    (hdel : ∀ c ∈ s.delivered, c ∈ s'.delivered)
    (hpolicy : s.manager.policy ≤ s'.manager.policy) (hchange : s'.policyChange = none)
    (hbehind : s.manager.policy < s'.manager.policy → ∀ j ∈ s.manager.data.jobs, j.pds = p →
      0 < j.sourceRevision → ∀ source, s.relay.source = some source →
        j.sourceRevision = source.revision →
          s'.manager.policy ≤ source.recoveryPolicyRevision) : Recovery p s' := by
  have hcompleted {r} (hr : Completed p s r) : Completed p s' r := by
    obtain ⟨j, hj, hp, hc, hr⟩ := hr
    exact ⟨j, hgrows.complete j hj hp hc, hp, hc, hr⟩
  have hold {j} (hj : j ∈ s'.manager.data.jobs) (hp : j.pds = p) :
      (∃ i ∈ s.manager.data.jobs, i.pds = p ∧ i.policyRevision = j.policyRevision ∧
        i.sourceRevision = j.sourceRevision) ∨
      j.policyRevision = s'.manager.policy ∧ j.sourceRevision = s'.manager.data.sourceRevisions p ∧
        s'.manager.data.sources.lookup p = some true := by
    obtain ⟨i, hi, hid⟩ | hnew := hgrows.origin j hj hp
    · simp only [Job.id, Prod.mk.injEq] at hid
      exact .inl ⟨i, hi, hid.left.trans hp, hid.right.left, hid.right.right.right⟩
    · exact .inr hnew
  refine ⟨h.policy.trans_le hpolicy, fun j hj hp => ?_, fun j hj hp hpos => ?_,
    fun j hj hp hpos hlt source hs hr => ?_, fun hc => ?_, fun r hr => ?_, fun source hs hr => ?_⟩
  · obtain ⟨i, hi, hip, hpol, _⟩ | ⟨hpol, _⟩ := hold hj hp
    · exact hpol ▸ (h.policies i hi hip).trans hpolicy
    · exact hpol.le
  · obtain ⟨i, hi, hip, _, hrev⟩ | ⟨_, hrev, hs⟩ := hold hj hp
    · exact hrev ▸ hdel _ (h.origin i hi hip (hrev ▸ hpos))
    obtain ⟨_, hzero, _⟩ | ⟨c, hhigh, hat⟩ := hinv.after.latest
    · omega
    have hkind : c.kind = .add := by
      have := hat.source.symm.trans hs
      exact of_decide_eq_true (Option.some.inj this)
    have hc : c = ⟨.add, j.sourceRevision⟩ := by rw [hrev, hat.revision, ←hkind]
    exact hc ▸ hhigh.left
  · rw [hrelay] at hs
    obtain ⟨i, hi, hip, hpol, hrev⟩ | ⟨hpol, _⟩ := hold hj hp
    · obtain hpolicy | hpolicy := hpolicy.lt_or_eq
      · exact hbehind hpolicy i hi hip (hrev ▸ hpos) source hs (hrev.trans hr)
      · rw [←hpolicy] at hlt ⊢
        exact h.behind i hi hip (hrev ▸ hpos) (hpol ▸ hlt) source hs (hrev.trans hr)
    · omega
  · rw [hchange] at hc
    cases hc
  · rw [hreceipts] at hr
    exact hcompleted (h.receipts r hr)
  · rw [hrelay] at hs ⊢
    obtain ⟨hen, r, hr, hrev, hpol, hc⟩ := h.cleared source hs hr
    exact ⟨hen, r, hr, hrev, hpol, hcompleted hc⟩

-- A step of the Relay that clears nothing: the source keeps its revision, or has a new one.
theorem of_relay (hinv : Inv p E s) (hmanager : s'.manager = s.manager)
    (hdel : s'.delivered = s.delivered) (hflight : s'.receipts = s.receipts)
    (hreceipts : s'.relay.receipts = s.relay.receipts) (hchange : s'.policyChange = s.policyChange)
    (hsource : ∀ source', s'.relay.source = some source' →
      (∃ source, s.relay.source = some source ∧ source'.revision = source.revision ∧
        source.recoveryPolicyRevision ≤ source'.recoveryPolicyRevision ∧
        (source'.recoveryRequired = false → source' = source)) ∨
      source'.recoveryRequired = true ∧
        s.manager.data.sourceRevisions p < source'.revision) : Recovery p s' := by
  have hcompleted {r} (hr : Completed p s r) : Completed p s' r := by
    rw [Completed, hmanager]
    exact hr
  refine ⟨hmanager ▸ h.policy, ?_, ?_, ?_, ?_, fun r hr => ?_, fun source' hs' hr => ?_⟩
  · rw [hmanager]
    exact h.policies
  · rw [hmanager, hdel]
    exact h.origin
  · intro j hj hp hpos hlt source' hs' hrev
    rw [hmanager] at hj hlt ⊢
    obtain ⟨source, hs, hr, hle, _⟩ | ⟨_, hnew⟩ := hsource source' hs'
    · exact (h.behind j hj hp hpos hlt source hs (hrev.trans hr)).trans hle
    · have := (hinv.after.current j hj hp).left
      omega
  · intro hc source' hs' hrev
    rw [hmanager] at hrev ⊢
    obtain ⟨source, hs, hr, hle, _⟩ | ⟨_, hnew⟩ := hsource source' hs'
    · exact (h.change (hchange ▸ hc) source hs (hrev.trans hr)).trans hle
    · omega
  · exact hcompleted (h.receipts r (hflight ▸ hr))
  · obtain ⟨source, hs, _, _, hsame⟩ | ⟨hreq, _⟩ := hsource source' hs'
    · obtain rfl := hsame hr
      have ⟨hen, r, hr, hrev, hpol, hc⟩ := h.cleared source' hs hr
      exact ⟨hen, r, hreceipts ▸ hr, hrev, hpol, hcompleted hc⟩
    · exact nomatch hreq.symm.trans hr

theorem of_same (hinv : Inv p E s) (hmanager : s'.manager = s.manager)
    (hdel : s'.delivered = s.delivered) (hflight : s'.receipts = s.receipts)
    (hreceipts : s'.relay.receipts = s.relay.receipts) (hchange : s'.policyChange = s.policyChange)
    (hsource : s'.relay.source = s.relay.source) : Recovery p s' :=
  h.of_relay hinv hmanager hdel hflight hreceipts hchange fun source' hs' =>
    .inl ⟨source', hsource ▸ hs', rfl, le_rfl, fun _ => rfl⟩

theorem operate (hinv : Inv p E s) (op : Op) : Recovery p (s.operate op) := by
  refine h.of_relay hinv rfl rfl rfl (apply_receipts op) rfl fun source' hs' => ?_
  cases apply_change hinv.ok op with
  | same hs _ _ => exact .inl ⟨source', hs ▸ hs', rfl, le_rfl, fun _ => rfl⟩
  | create hs ht hr hreq _ _ =>
    cases ht.symm.trans hs'
    have := hinv.sourceRevisions_eq_zero hs
    exact .inr ⟨hreq, by omega⟩
  | revise hs ht hr hreq _ _ =>
    cases ht.symm.trans hs'
    have := hinv.sourceRevisions_le hs
    exact .inr ⟨hreq, by omega⟩
  | ban _ _ hs ht hr hreq _ _ =>
    cases ht.symm.trans hs'
    have := hinv.sourceRevisions_le hs
    exact .inr ⟨hreq, by omega⟩

theorem receive (hr : r ∈ s.receipts) (hack : s.relay.acknowledgeSourceRecovery r = .ok relay) :
    Recovery p { s with relay } := by
  have ⟨source, hs, hen, hrev, hpol, hs', hmem, _⟩ := acknowledge_spec hack
  have hsource {source'} (h : relay.source = some source') :
      source' = { source with recoveryRequired := false } := Option.some.inj (h.symm.trans hs')
  refine ⟨h.policy, h.policies, h.origin, fun j hj hp hpos hlt source' ht hjr => ?_,
    fun hc source' ht hjr => ?_, h.receipts, fun source' ht _ => ?_⟩
  · rw [hsource ht] at hjr ⊢
    exact h.behind j hj hp hpos hlt source hs hjr
  · rw [hsource ht] at hjr ⊢
    exact h.change hc source hs hjr
  · rw [hsource ht]
    exact ⟨hen, r, hmem, hrev.symm, fun hne => (hpol hne).symm, h.receipts r hr⟩

theorem advance (hinv : Inv p E s)
    (ha : s.relay.advanceSourceRecoveryPolicy sourceRevision policyRevision = .ok relay) :
    Recovery p { s with relay } := by
  have ⟨source, hs, _, hle, source', hs', hr, hpol, hsame, hreceipts⟩ := advance_spec ha
  refine h.of_relay hinv rfl rfl rfl hreceipts rfl fun t ht => .inl ⟨source, hs, ?_⟩
  cases hs'.symm.trans ht
  exact ⟨hr, hle.trans_eq hpol.symm, hsame⟩

theorem advanced (hinv : Inv p E s)
    (ha : s.relay.advanceSourceRecoveryPolicy (s.manager.data.sourceRevisions p)
      (s.manager.policy + 1) = .ok relay) :
    Recovery p { s with relay, policyChange := some true } := by
  have h' := h.advance hinv ha
  refine ⟨h'.policy, h'.policies, h'.origin, h'.behind, fun _ t ht _ => ?_, h'.receipts, h'.cleared⟩
  have ⟨_, _, _, _, source', hs', _, hpol, _⟩ := advance_spec ha
  cases hs'.symm.trans ht
  exact hpol.ge

-- Every source that has jobs was acknowledged by the Relay before the policy is committed.
theorem commit (hinv : Inv p E s)
    (hinv' : Inv p E' { s with manager := s.manager.commitPolicy, policyChange := none })
    (hchange : s.policyChange = some b)
    (hb : s.manager.data.enabled p → 0 < s.manager.data.sourceRevisions p → b) :
    Recovery p { s with manager := s.manager.commitPolicy, policyChange := none } := by
  have hpolicy := commitPolicy_policy (m := s.manager)
  refine h.of_grows hinv' (grows_commitPolicy h.policies) rfl rfl (fun _ h => h) ?_
    rfl fun hlt j hj hp hpos source hs hr => ?_
  · obtain hpolicy | hpolicy := hpolicy
    · exact hpolicy ▸ Nat.le_succ _
    · exact (congrArg Jetstream.Jobs.Manager.policy hpolicy).ge
  have hat := hinv.at_current hs (h.origin j hj hp hpos) hr
  have hen : s.manager.data.enabled p := by
    rw [Jetstream.Jobs.Data.enabled, hat.source]
    rfl
  have hb := hb hen (hat.revision.symm ▸ hpos)
  rw [hb] at hchange
  have hle := h.change hchange source hs (hat.revision.trans hr)
  obtain hpolicy | hpolicy := hpolicy
  · exact hpolicy ▸ hle
  · exact absurd hlt (by rw [hpolicy]; exact lt_irrefl _)

end

omit [DecidableEq Pds] in
theorem submit (h : Recovery p s) (hj : job ∈ s.manager.data.jobs)
    (hp : job.pds = p) (hc : job.state = .complete) :
    Recovery p { s with receipts := receipt job :: s.receipts } := by
  refine ⟨h.policy, h.policies, h.origin, h.behind, h.change, fun r hr => ?_, h.cleared⟩
  obtain rfl | hr := List.mem_cons.mp hr
  · exact ⟨job, hj, hp, hc, rfl⟩
  · exact h.receipts r hr

omit [DecidableEq Pds] in
theorem setChange (h : Recovery p s) {change} (hc : change ≠ some true) :
    Recovery p { s with policyChange := change } :=
  ⟨h.policy, h.policies, h.origin, h.behind, fun he => absurd he hc, h.receipts, h.cleared⟩

theorem step (h : Recovery p s) (hinv : Inv p E s) (e : Step p s s') : Recovery p s' := by
  have ⟨E', hinv'⟩ := hinv.step e
  cases e with
  | operate op => exact h.operate hinv op
  | supersede _ _ => exact h.of_same hinv rfl rfl rfl rfl rfl rfl
  | send _ _ => exact h.of_same hinv rfl rfl rfl rfl rfl rfl
  | @acknowledge row _ _ =>
    have ⟨hs, _, hr⟩ := settle_source s.relay row true
    exact h.of_same hinv rfl rfl rfl hr rfl hs
  | @fail row _ =>
    have ⟨hs, _, hr⟩ := settle_source s.relay row false
    exact h.of_same hinv rfl rfl rfl hr rfl hs
  | @deliver c hc hnone =>
    have hpos := (hinv.commands c (.inl hc)).right.left
    have hgrows := grows_deliver hinv.after hpos
    have hpolicy : (s.manager.deliver p c).2.policy = s.manager.policy := deliver_policy
    refine h.of_grows hinv' (hpolicy.symm ▸ hgrows) rfl rfl (fun _ => List.mem_append_left _)
      hpolicy.ge hnone fun hlt => ?_
    exact absurd hlt hpolicy.le.not_gt
  | lose c => exact h.of_same hinv rfl rfl rfl rfl rfl rfl
  | @process event he hpol hnone =>
    have hgrows := grows_process (m := s.manager) he hpol
    have hpolicy : (s.manager.apply event).policy = s.manager.policy := apply_policy hpol
    refine h.of_grows hinv' (hpolicy.symm ▸ hgrows) rfl rfl (fun _ h => h) hpolicy.ge hnone
      fun hlt => ?_
    exact absurd hlt hpolicy.le.not_gt
  | submit hj hp hc _ => exact h.submit hj hp hc
  | receive hr hack => exact h.receive hr hack
  | begin _ => exact h.setChange nofun
  | request _ _ _ => exact h.of_same hinv rfl rfl rfl rfl rfl rfl
  | advance _ ha => exact h.advance hinv ha
  | advanced _ ha => exact h.advanced hinv ha
  | commit hc hb => exact h.commit hinv hinv' hc hb
  | abort _ => exact h.setChange nofun
  | crashRelay => exact h.of_same hinv rfl rfl rfl rfl rfl rfl
  | crashJetstream =>
    refine h.of_grows hinv' touches_restart.grows rfl rfl (fun _ h => h) le_rfl rfl fun hlt => ?_
    exact absurd hlt (lt_irrefl _)

theorem init (h : Init p s) : Recovery p s where
  policy := h.policy
  policies j hj _ := h.policies j hj
  origin j hj hp hpos := by
    have hle := (h.fresh.current j hj hp).left
    rw [h.fresh.revision] at hle
    omega
  behind j hj hp hpos := by
    have hle := (h.fresh.current j hj hp).left
    rw [h.fresh.revision] at hle
    omega
  change hc := nomatch h.change.symm.trans hc
  receipts r hr := by
    rw [h.receipts] at hr
    exact nomatch hr
  cleared source hs hr := nomatch (h.required source hs).symm.trans hr

end Recovery

variable {p : Pds} {s s' : State Pds}

theorem recovery_of_reachable (h : (system p).Reachable s) : Recovery p s :=
  h.invariant (fun _ => Recovery.init) fun _ _ hr hrec e =>
    have ⟨_, hinv⟩ := inv_of_reachable hr
    hrec.step hinv e

-- The revisions the Relay holds for the source. Without a source they are zero.
def revision (s : State Pds) : ℕ :=
  (s.relay.source.map Source.revision).getD 0

def recoveryPolicyRevision (s : State Pds) : ℕ :=
  (s.relay.source.map Source.recoveryPolicyRevision).getD 0

section

omit [DecidableEq Pds]

theorem revisions_le (h : ∀ source, s.relay.source = some source →
      ∃ source', s'.relay.source = some source' ∧ source.revision ≤ source'.revision ∧
        source.recoveryPolicyRevision ≤ source'.recoveryPolicyRevision) :
    revision s ≤ revision s' ∧ recoveryPolicyRevision s ≤ recoveryPolicyRevision s' := by
  rw [revision, revision, recoveryPolicyRevision, recoveryPolicyRevision]
  cases hs : s.relay.source with
  | none => exact ⟨Nat.zero_le _, Nat.zero_le _⟩
  | some source =>
    have ⟨source', hs', hr, hp⟩ := h source hs
    rw [hs']
    exact ⟨hr, hp⟩

theorem revisions_le_of_eq (h : s'.relay.source = s.relay.source) :
    revision s ≤ revision s' ∧ recoveryPolicyRevision s ≤ recoveryPolicyRevision s' :=
  revisions_le fun source hs => ⟨source, h.trans hs, le_rfl, le_rfl⟩

theorem advance_revisions_le
    (h : s.relay.advanceSourceRecoveryPolicy sourceRevision policyRevision = .ok s'.relay) :
    revision s ≤ revision s' ∧ recoveryPolicyRevision s ≤ recoveryPolicyRevision s' := by
  refine revisions_le fun t ht => ?_
  have ⟨source, hs, _, hle, source', hs', hr, hpol, _⟩ := advance_spec h
  cases hs.symm.trans ht
  exact ⟨source', hs', hr.ge, hle.trans_eq hpol.symm⟩

end

theorem step_revisions_le (hinv : Inv p E s) (e : Step p s s') :
    revision s ≤ revision s' ∧ recoveryPolicyRevision s ≤ recoveryPolicyRevision s' := by
  cases e with
  | operate op =>
    refine revisions_le fun t ht => ?_
    cases apply_change hinv.ok op with
    | same hs _ _ => exact ⟨t, hs.trans ht, le_rfl, le_rfl⟩
    | create hs _ _ _ _ _ => cases hs.symm.trans ht
    | revise hs hs' hr _ hp _ =>
      cases hs.symm.trans ht
      exact ⟨_, hs', by omega, hp.ge⟩
    | ban _ _ hs hs' hr _ hp _ =>
      cases hs.symm.trans ht
      exact ⟨_, hs', by omega, hp.ge⟩
  | acknowledge _ _ => exact revisions_le_of_eq (settle_source ..).left
  | fail _ => exact revisions_le_of_eq (settle_source ..).left
  | receive _ hack =>
    refine revisions_le fun t ht => ?_
    obtain ⟨source, hs, _, _, _, hs', _⟩ := acknowledge_spec hack
    cases hs.symm.trans ht
    exact ⟨_, hs', le_rfl, le_rfl⟩
  | advance _ ha => exact advance_revisions_le ha
  | advanced _ ha => exact advance_revisions_le ha
  | _ => exact revisions_le_of_eq rfl

theorem recovery_exact (h : (system p).Reachable s) :
    (∀ source, s.relay.source = some source → source.recoveryRequired = false →
      source.state = .enabled ∧ ∃ r ∈ s.relay.receipts, r.sourceRevision = source.revision ∧
        (source.recoveryPolicyRevision ≠ 0 → r.policyRevision = source.recoveryPolicyRevision) ∧
        (∃ j ∈ s.manager.data.jobs, j.id = r.jobId ∧ j.state = .complete ∧
          j.sourceRevision = r.sourceRevision ∧ j.policyRevision = r.policyRevision) ∧
        s.manager.policy ≤ r.policyRevision) ∧
    ∀ s', (system p).Runs s s' →
      revision s ≤ revision s' ∧ recoveryPolicyRevision s ≤ recoveryPolicyRevision s' := by
  have hrec := recovery_of_reachable h
  have ⟨_, hinv⟩ := inv_of_reachable h
  refine ⟨fun source hs hr => ?_, fun s' e => ?_⟩
  · obtain ⟨hen, _, hmem, hrev, hpol, j, hj, hp, hc, rfl⟩ := hrec.cleared source hs hr
    refine ⟨hen, _, hmem, hrev, hpol, ⟨j, hj, rfl, hc, rfl, rfl⟩, ?_⟩
    -- An older completion would need a Relay that does not know of the policy.
    by_contra hlt
    have hlt : j.policyRevision < s.manager.policy := not_le.mp hlt
    have hrev : j.sourceRevision = source.revision := hrev
    have hpos : 0 < j.sourceRevision := hrev ▸ (hinv.ok source hs).left
    have hle := hrec.behind j hj hp hpos hlt source hs hrev
    omega
  · have hmono (s s' : State Pds) (hr : (system p).Reachable s) (e : Step p s s') :=
      have ⟨_, hinv⟩ := inv_of_reachable hr
      step_revisions_le hinv e
    exact ⟨System.Runs.mono (fun s s' hr e => (hmono s s' hr e).left) h e,
      System.Runs.mono (fun s s' hr e => (hmono s s' hr e).right) h e⟩

section Sample

def sampleJob : Job Unit :=
  ⟨(), 1, .sourceAdded, 2, .complete, 1⟩

-- The job that the handoff created runs to its end.
def sampleComplete : State Unit :=
  let s := { sampleAgreed with manager := sampleAgreed.manager.apply (.claim sampleJob.id) }
  { s with manager := s.manager.apply (.outcome sampleJob.id .completed) }

theorem sampleComplete_reachable : ((system ()).restrict Quiet).Reachable sampleComplete := by
  have h : ((system ()).restrict Quiet).Reachable
      { sampleAgreed with manager := sampleAgreed.manager.apply (.claim sampleJob.id) } :=
    sampleAgreed_reachable.step ⟨.process rfl nofun rfl, rfl, rfl, rfl, rfl, rfl⟩
  have hevent : Jetstream.Jobs.Event.command? ()
      (.outcome sampleJob.id .completed : Jetstream.Jobs.Event Unit) = none := rfl
  exact h.step ⟨.process hevent nofun rfl, rfl, rfl, rfl, rfl, rfl⟩

theorem sampleComplete_mem : sampleJob ∈ sampleComplete.manager.data.jobs := by
  decide

theorem recovery_exact_sample : ∃ s : State Unit, (system ()).Reachable s ∧
    ∃ source, s.relay.source = some source ∧ source.recoveryRequired = false ∧
      ∃ r ∈ s.relay.receipts, s.manager.policy ≤ r.policyRevision := by
  have h₁ := sampleComplete_reachable.of_restrict.step (.submit sampleComplete_mem rfl rfl (by decide))
  have h₂ := h₁.step (.receive (.head _) rfl)
  have ⟨_, r, hr, _, _, _, hle⟩ := (recovery_exact h₂).left _ rfl rfl
  exact ⟨_, h₂, _, rfl, rfl, r, hr, hle⟩

end Sample

end Handoff
