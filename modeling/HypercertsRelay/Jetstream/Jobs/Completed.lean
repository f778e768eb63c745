import HypercertsRelay.Jetstream.Jobs.Convergence

-- Jobs come from their source at its revision and the current policy, and complete jobs stay.
namespace Jetstream.Jobs

open List Data
open Manager (apply commitPolicy deliver_add deliver_remove)

variable [DecidableEq Pds]

-- What a change of the document does to the jobs of a source.
structure Grows (p : Pds) (policy : ℕ) (d d' : Data Pds) : Prop where
  origin : ∀ j' ∈ d'.jobs, j'.pds = p → (∃ j ∈ d.jobs, j.id = j'.id) ∨
    j'.policyRevision = policy ∧ j'.sourceRevision = d'.sourceRevisions p ∧
      d'.sources.lookup p = some true
  complete : ∀ j ∈ d.jobs, j.pds = p → j.state = .complete → j ∈ d'.jobs

namespace Grows

variable {p q : Pds}

theorem of_jobs_eq (h : d'.jobs = d.jobs) : Grows p policy d d' where
  origin j hj _ := .inl ⟨j, h ▸ hj, rfl⟩
  complete _ hj _ _ := h ▸ hj

theorem refl (d : Data Pds) : Grows p policy d d :=
  of_jobs_eq rfl

theorem trans (h : Grows p policy d d') (h' : Grows p policy d' d'')
    (hkeep : ∀ j ∈ d'.jobs, ∃ i ∈ d.jobs, i.id = j.id) : Grows p policy d d'' where
  origin j hj hp := by
    obtain ⟨i, hi, hid⟩ | hnew := h'.origin j hj hp
    · have ⟨k, hk, hkid⟩ := hkeep i hi
      exact .inl ⟨k, hk, hkid.trans hid⟩
    · exact .inr hnew
  complete j hj hp hc := h'.complete j (h.complete j hj hp hc) hp hc

end Grows

section Touch

variable {d : Data Pds}

omit [DecidableEq Pds] in
theorem Touches.mem_id (hf : Touches f) : ∀ j ∈ (d.mapJobs f).jobs, ∃ i ∈ d.jobs, i.id = j.id := by
  intro j hj
  obtain ⟨i, hi, rfl⟩ := mem_map.mp hj
  exact ⟨i, hi, (hf.id i).symm⟩

theorem Touches.grows (hf : Touches f) : Grows p policy d (d.mapJobs f) where
  origin j hj _ := .inl (hf.mem_id j hj)
  complete j hj _ hc := by
    obtain h | ⟨hu, _⟩ := hf j
    · exact h ▸ mem_map_of_mem hj
    · rw [hc] at hu
      exact nomatch hu

end Touch

section Steps

variable {m : Manager Pds} {p q : Pds}

theorem grows_setJob (hnew : job.pds = p → job.policyRevision = policy ∧
      job.sourceRevision = d.sourceRevisions p ∧ d.sources.lookup p = some true)
    (hid : ∀ j ∈ d.jobs, j.pds = p → j.state = .complete → j.id ≠ job.id) :
    Grows p policy d (d.setJob job) where
  origin j hj hp := by
    obtain rfl | hj := mem_cons.mp hj
    · exact .inr (hnew hp)
    · exact .inl ⟨j, mem_of_mem_filter hj, rfl⟩
  complete j hj hp hc := mem_cons_of_mem _ <| mem_filter.mpr ⟨hj, decide_eq_true (hid j hj hp hc)⟩

theorem register_jobs (d : Data Pds) (q : Pds) (rev : ℕ) : (d.register q rev).jobs = d.jobs ∨
      (d.register q rev).jobs = (d.cancelStaleSourceJobs q rev).jobs := by
  rw [register]
  split
  · split <;> exact .inl rfl
  · simp only
    split
    · exact .inr rfl
    · exact .inl rfl

theorem register_mem_id (d : Data Pds) (q : Pds) (rev : ℕ) :
    ∀ j ∈ (d.register q rev).jobs, ∃ i ∈ d.jobs, i.id = j.id := by
  intro j hj
  obtain h | h := register_jobs d q rev
  · exact ⟨j, h ▸ hj, rfl⟩
  · exact (touches_cancelStale q rev).mem_id j (h ▸ hj)

theorem grows_register (d : Data Pds) (q : Pds) (rev : ℕ) :
    Grows p policy d (d.register q rev) := by
  refine ⟨fun j hj _ => .inl (register_mem_id d q rev j hj), fun j hj hp hc => ?_⟩
  obtain h | h := register_jobs d q rev
  · exact h ▸ hj
  · have hgrows : Grows p policy d (d.cancelStaleSourceJobs q rev) :=
      (touches_cancelStale q rev).grows
    exact h ▸ hgrows.complete j hj hp hc

theorem grows_addSource (revision : ℕ) (h : q = p → 0 < revision ∧ Current p m.data ∧
      (m.data.sources.lookup p ≠ some true →
        m.data.sourceRevisions p ≤ m.data.sourceTombstones p)) :
    Grows p m.policy m.data (m.addSourceWithRevision q revision).2.data := by
  rw [Manager.addSourceWithRevision]
  split
  · exact .refl _
  case isFalse hguard =>
    simp only
    split
    case h_1 => exact .refl _
    case h_2 hack =>
      split
      case h_1 => exact .refl _
      case h_2 job hbegin =>
        have hjob := beginAcquisition_eq hbegin
        have hregister : Grows p m.policy m.data (m.data.register q revision) := grows_register ..
        have hids := register_mem_id m.data q revision
        -- The tombstone may be dropped before the job is put in.
        set next := if ((m.data.register q revision).setSource q true).sourceTombstones q < revision
          then ((m.data.register q revision).setSource q true).setTombstone q 0
          else (m.data.register q revision).setSource q true with hnext
        have hjobs : next.jobs = (m.data.register q revision).jobs := by
          rw [hnext]
          split <;> rfl
        have hfirst : Grows p m.policy m.data next := hregister.trans (.of_jobs_eq hjobs) hids
        refine hfirst.trans (grows_setJob (fun hp => ?_) fun j hj hp hc => ?_) (hjobs ▸ hids)
        · have hq : q = p := by rw [hjob] at hp; exact hp
          subst hq
          refine ⟨by rw [hjob]; rfl, ?_, ?_⟩
          · rw [hjob, hnext]
            split <;> rfl
          · rw [hnext]
            split <;> exact AList.lookup_insert _
        · intro hid
          rw [hjobs] at hj
          have hq : q = p := by
            rw [hjob] at hid
            exact (congrArg Prod.fst hid).symm.trans hp
          subst hq
          obtain ⟨hpos, hcur, hfence⟩ := h rfl
          have hsources : (m.data.register q revision).sources = m.data.sources := by
            rw [register, if_neg hpos.ne']
            split <;> rfl
          have hrev : (m.data.register q revision).sourceRevisions q = revision := by
            rw [register, if_neg hpos.ne']
            split <;> exact Function.update_self ..
          by_cases hs : m.data.sources.lookup q = some true
          · -- An enabled source is answered with the job that is there.
            have hsome : ((m.data.register q revision).jobs.find? fun existing =>
                existing.id = (newJob q m.policy .sourceAdded
                  ((m.data.register q revision).sourceRevisions q)).id).isSome :=
              find?_isSome.mpr ⟨j, hj, decide_eq_true (hid.trans (by rw [hjob]; rfl))⟩
            have hen : (m.data.register q revision).enabled q = true := by
              rw [enabled, hsources, hs]
              rfl
            rw [acknowledged, if_neg (not_not.mpr hen)] at hack
            simp only [Option.or_eq_none_iff] at hack
            rw [hack.right] at hsome
            cases hsome
          · -- A disabled one has no job of so late a revision.
            obtain ⟨i, hi, hii⟩ := hids j hj
            have hlt : m.data.sourceRevisions q < revision := by
              have := hfence hs
              omega
            have hid := hii.trans hid
            rw [hjob] at hid
            simp only [Job.id, Prod.mk.injEq] at hid
            have hle := (hcur i hi hid.left).left
            have heq : i.sourceRevision = revision := hid.right.right.right.trans hrev
            omega

theorem grows_removeSource (policy rev : ℕ) :
    Grows p policy m.data (m.removeSourceWithRevision q rev).2.data := by
  rw [Manager.removeSourceWithRevision]
  generalize (if rev = 0 then _ else rev) = rev
  split
  · exact .refl _
  refine (Grows.of_jobs_eq ?_).trans
    (Touches.grows (.ite _ _ fun _ hc => hc.right)) fun j hj => ⟨j, ?_, rfl⟩
  · split <;> rfl
  · revert hj
    split <;> exact fun h => h

theorem grows_deliver (h : After p l m.data)
    (hpos : 0 < c.revision) : Grows p m.policy m.data (m.deliver p c).2.data := by
  have ⟨kind, rev⟩ := c
  cases kind with
  | add =>
    rw [deliver_add]
    refine grows_addSource rev fun _ => ⟨hpos, h.current, fun hs => ?_⟩
    obtain ⟨_, hr, _⟩ | ⟨c, _, hat⟩ := h.latest
    · exact hr.trans_le (Nat.zero_le _)
    · have hkind : c.kind ≠ .add := fun hk => hs (by rw [hat.source, hk]; rfl)
      rw [hat.revision, hat.tombstone, if_neg hkind]
  | remove =>
    rw [deliver_remove]
    exact grows_removeSource m.policy rev

theorem grows_process (h : event.command? p = none)
    (hpolicy : event ≠ .setPolicy) : Grows p m.policy m.data (m.apply event).data := by
  cases event with
  | command q c =>
    have hne : q ≠ p := fun hq => by simp [Event.command?, hq] at h
    obtain ⟨kind, rev⟩ := c
    cases kind with
    | add =>
      rw [apply, deliver_add]
      exact grows_addSource rev fun hq => absurd hq hne
    | remove =>
      rw [apply, deliver_remove]
      exact grows_removeSource m.policy rev
  | claim id => exact (touches_claim id).grows
  | outcome id outcome => exact (touches_persistJobOutcome id outcome).grows
  | setPolicy => exact absurd rfl hpolicy
  | restart => exact touches_restart.grows

theorem addSource_policy (rev : ℕ) : (m.addSourceWithRevision q rev).2.policy = m.policy := by
  rw [Manager.addSourceWithRevision]
  simp only
  repeat' split
  all_goals rfl

theorem removeSource_policy (rev : ℕ) : (m.removeSourceWithRevision q rev).2.policy = m.policy := by
  rw [Manager.removeSourceWithRevision]
  generalize (if rev = 0 then _ else rev) = rev
  split <;> rfl

theorem deliver_policy : (m.deliver q c).2.policy = m.policy := by
  have ⟨kind, rev⟩ := c
  cases kind with
  | add => rw [deliver_add, addSource_policy]
  | remove => rw [deliver_remove, removeSource_policy]

theorem apply_policy (h : event ≠ .setPolicy) : (m.apply event).policy = m.policy := by
  cases event with
  | command q c => exact deliver_policy
  | claim id => rfl
  | outcome id outcome => rfl
  | setPolicy => exact absurd rfl h
  | restart => rfl

theorem grows_schedule (l : List (Sigma fun _ : Pds => Bool))
    (hl : ∀ e ∈ l, e.2 = true → d.sources.lookup e.1 = some true)
    (h : scheduleJobs policy l d = some d') :
    (∀ j' ∈ d'.jobs, j'.pds = p → j' ∈ d.jobs ∨ j'.policyRevision = policy ∧
      j'.sourceRevision = d.sourceRevisions p ∧ d.sources.lookup p = some true) ∧
    ∀ j ∈ d.jobs, j.policyRevision ≠ policy → j ∈ d'.jobs := by
  refine schedule_induction (motive := fun l d d' =>
    (∀ e ∈ l, e.2 = true → d.sources.lookup e.1 = some true) →
      (∀ j' ∈ d'.jobs, j'.pds = p → j' ∈ d.jobs ∨ j'.policyRevision = policy ∧
        j'.sourceRevision = d.sourceRevisions p ∧ d.sources.lookup p = some true) ∧
      ∀ j ∈ d.jobs, j.policyRevision ≠ policy → j ∈ d'.jobs)
    (fun d _ => ⟨fun j hj _ => .inl hj, fun j hj _ => hj⟩) (fun pds l d d' ih hl => ?_)
    (fun pds l d d' job hjob ih hl => ?_) l h hl
  · exact ih (forall_mem_cons.mp hl).right
  have ⟨he, htail⟩ := forall_mem_cons.mp hl
  have ⟨horigin, hkeep⟩ := ih htail
  refine ⟨fun j hj hp => ?_, fun j hj hne => hkeep j ?_ hne⟩
  · obtain hj | hnew := horigin j hj hp
    · obtain rfl | hj := mem_cons.mp hj
      · have hpds : pds = p := by rw [hjob] at hp; exact hp
        subst hpds
        exact .inr ⟨by rw [hjob]; rfl, by rw [hjob]; rfl, he rfl⟩
      · exact .inl (mem_of_mem_filter hj)
    · exact .inr hnew
  · have hid : j.id ≠ job.id := by
      intro hid
      rw [hjob] at hid
      exact hne (congrArg (fun i => i.2.1) hid)
    exact mem_cons_of_mem _ (mem_filter.mpr ⟨hj, decide_eq_true hid⟩)

theorem commitPolicy_policy : m.commitPolicy.policy = m.policy + 1 ∨ m.commitPolicy = m := by
  rw [commitPolicy]
  split
  · exact .inl rfl
  · exact .inr rfl

theorem grows_commitPolicy (h : ∀ j ∈ m.data.jobs, j.pds = p → j.policyRevision ≤ m.policy) :
    Grows p m.commitPolicy.policy m.data m.commitPolicy.data := by
  rw [commitPolicy]
  split
  case h_2 => exact .refl _
  case h_1 next hnext =>
    have htouch : Touches fun job : Job Pds =>
        if job.state.unfinished then job.setState .canceled else job := .ite _ _ fun _ hu => hu
    obtain ⟨horigin, hkeep⟩ := grows_schedule (p := p) _ (fun e he hen => by
      obtain ⟨pds, enabled⟩ := e
      obtain rfl : enabled = true := hen
      exact AList.mem_lookup_iff.mpr he) hnext
    have hframe := frame_commitPolicy (m := m) (p := p)
    rw [commitPolicy, hnext] at hframe
    refine Grows.trans htouch.grows ⟨fun j hj hp => ?_, fun j hj hp hc => ?_⟩ htouch.mem_id
    · obtain hj | ⟨hpol, hrev, hs⟩ := horigin j hj hp
      · exact .inl ⟨j, hj, rfl⟩
      · exact .inr ⟨hpol, hrev.trans hframe.revision.symm, hframe.source.trans hs⟩
    refine hkeep j hj fun hpol => ?_
    obtain ⟨i, hi, hid⟩ := htouch.mem_id j hj
    have heq : i.policyRevision = j.policyRevision := congrArg (fun i => i.2.1) hid
    have hle := h i hi ((congrArg Prod.fst hid).trans hp)
    omega

end Steps

end Jetstream.Jobs
