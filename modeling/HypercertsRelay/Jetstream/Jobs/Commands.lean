import HypercertsRelay.Jetstream.Jobs.Document

-- Versioned commands on the sources, delivered in any order and more than once.
namespace Jetstream.Jobs

open List

variable [DecidableEq Pds]

inductive Kind where
  | add
  | remove
deriving DecidableEq

structure Command where
  kind : Kind
  revision : ℕ
deriving DecidableEq

inductive Event (Pds : Type) where
  | command (pds : Pds) (c : Command)
  | claim (id : Pds × ℕ × Reason × ℕ)
  | outcome (id : Pds × ℕ × Reason × ℕ) (outcome : Manager.Outcome)
  | setPolicy
  | restart

namespace Manager

-- Whether the command is rejected, and the manager after it.
def deliver (m : Manager Pds) (pds : Pds) : Command → Option Error × Manager Pds
  | ⟨.add, revision⟩ =>
    match m.addSourceWithRevision pds revision with
    | (.error e, m) => (some e, m)
    | (.ok _, m) => (none, m)
  | ⟨.remove, revision⟩ =>
    match m.removeSourceWithRevision pds revision with
    | (.error e, m) => (some e, m)
    | (.ok _, m) => (none, m)

section Deliver

variable (m : Manager Pds) (pds : Pds) (rev : ℕ)

theorem deliver_add : (m.deliver pds ⟨.add, rev⟩).2 = (m.addSourceWithRevision pds rev).2 := by
  rw [deliver]
  split <;> rename_i h <;> rw [h]

theorem deliver_remove :
    (m.deliver pds ⟨.remove, rev⟩).2 = (m.removeSourceWithRevision pds rev).2 := by
  rw [deliver]
  split <;> rename_i h <;> rw [h]

end Deliver

def apply (m : Manager Pds) : Event Pds → Manager Pds
  | .command pds c => (m.deliver pds c).2
  | .claim id => m.claim id
  | .outcome id outcome => m.persistJobOutcome id outcome
  | .setPolicy => m.commitPolicy
  | .restart => m.restart

def run (m : Manager Pds) (events : List (Event Pds)) : Manager Pds :=
  events.foldl apply m

theorem run_append (m : Manager Pds) (l l' : List (Event Pds)) :
    m.run (l ++ l') = (m.run l).run l' :=
  foldl_append

end Manager

def Event.command? (pds : Pds) : Event Pds → Option Command
  | .command q c => if q = pds then some c else none
  | _ => none

def delivered (pds : Pds) (events : List (Event Pds)) : List Command :=
  events.filterMap (Event.command? pds)

-- Only the states of unfinished jobs are changed.
def Touches (f : Job Pds → Job Pds) : Prop :=
  ∀ j, f j = j ∨ j.state.unfinished ∧ ∃ state, f j = j.setState state

section Touch

omit [DecidableEq Pds]

theorem Touches.id (hf : Touches f) (j : Job Pds) : (f j).id = j.id := by
  obtain h | ⟨_, _, h⟩ := hf j <;> rw [h]
  exact j.setState_id _

theorem Touches.ite (c : Job Pds → Prop) [DecidablePred c] (state : Job Pds → JobState)
    (h : ∀ j, c j → j.state.unfinished) :
    Touches fun j => if c j then j.setState (state j) else j := by
  intro j
  by_cases hc : c j
  · exact .inr ⟨h j hc, state j, if_pos hc⟩
  · exact .inl (if_neg hc)

end Touch

theorem touches_cancelStale (q : Pds) (rev : ℕ) : Touches fun job : Job Pds =>
      if job.pds ≠ q ∨ ¬job.state.unfinished ∨ job.sourceRevision = rev then job
      else job.setState .canceled := by
  intro j
  simp only
  split
  · exact .inl rfl
  case isFalse h =>
    have hu : j.state.unfinished := not_not.mp fun hu => h (.inr (.inl hu))
    exact .inr ⟨hu, _, rfl⟩

-- What another change leaves of the source. New jobs are of an enabled source at its revision.
structure Frame (p : Pds) (d d' : Data Pds) : Prop where
  source : d'.sources.lookup p = d.sources.lookup p
  revision : d'.sourceRevisions p = d.sourceRevisions p
  tombstone : d'.sourceTombstones p = d.sourceTombstones p
  jobs : ∀ j ∈ d'.jobs, j.pds = p → (∃ i ∈ d.jobs, i.pds = p ∧ i.sourceRevision = j.sourceRevision ∧
      (j.state.unfinished → i.state.unfinished)) ∨
    d.sources.lookup p = some true ∧ j.sourceRevision = d.sourceRevisions p
  added : ∀ j ∈ d.jobs, j.pds = p → j.reason = .sourceAdded →
    ∃ i ∈ d'.jobs, i.pds = p ∧ i.reason = .sourceAdded ∧ i.sourceRevision = j.sourceRevision

namespace Frame

variable {p q : Pds}

theorem of_jobs_eq (hs : d'.sources.lookup p = d.sources.lookup p)
    (hr : d'.sourceRevisions p = d.sourceRevisions p)
    (ht : d'.sourceTombstones p = d.sourceTombstones p) (hj : d'.jobs = d.jobs) :
    Frame p d d' where
  source := hs
  revision := hr
  tombstone := ht
  jobs j h hp := .inl ⟨j, hj ▸ h, hp, rfl, fun h => h⟩
  added j h hp hr := ⟨j, hj ▸ h, hp, hr, rfl⟩

theorem refl (p : Pds) (d : Data Pds) : Frame p d d :=
  of_jobs_eq rfl rfl rfl rfl

theorem trans (h : Frame p d d') (h' : Frame p d' d'') : Frame p d d'' where
  source := h'.source.trans h.source
  revision := h'.revision.trans h.revision
  tombstone := h'.tombstone.trans h.tombstone
  jobs j hj hp := by
    obtain ⟨i, hi, hip, hir, hiu⟩ | ⟨hs, hr⟩ := h'.jobs j hj hp
    · obtain ⟨k, hk, hkp, hkr, hku⟩ | ⟨hs, hr⟩ := h.jobs i hi hip
      · exact .inl ⟨k, hk, hkp, hkr.trans hir, hku ∘ hiu⟩
      · exact .inr ⟨hs, hir ▸ hr⟩
    · exact .inr ⟨h.source ▸ hs, h.revision ▸ hr⟩
  added j hj hp hr := by
    have ⟨i, hi, hip, hia, hir⟩ := h.added j hj hp hr
    have ⟨k, hk, hkp, hka, hkr⟩ := h'.added i hi hip hia
    exact ⟨k, hk, hkp, hka, hkr.trans hir⟩

theorem mapJobs (p : Pds) (d : Data Pds) (hf : Touches f) : Frame p d (d.mapJobs f) := by
  have key := hf.id
  simp only [Job.id, Prod.mk.injEq] at key
  refine ⟨rfl, rfl, rfl, fun j hj hp => ?_, fun j hj hp hr => ?_⟩
  · obtain ⟨i, hi, rfl⟩ := mem_map.mp hj
    have ⟨hip, _, _, hir⟩ := key i
    refine .inl ⟨i, hi, hip ▸ hp, hir.symm, fun hu => ?_⟩
    obtain h | ⟨hu, _⟩ := hf i
    · exact h ▸ hu
    · exact hu
  · have ⟨hip, _, hia, hir⟩ := key j
    exact ⟨f j, mem_map_of_mem hj, hip.trans hp, hia.trans hr, hir⟩

theorem setJob (h : job.pds = p → job.reason = .policyChanged ∧
      d.sources.lookup p = some true ∧ job.sourceRevision = d.sourceRevisions p) :
    Frame p d (d.setJob job) := by
  refine ⟨rfl, rfl, rfl, fun j hj hp => ?_, fun j hj hp hr => ?_⟩
  · obtain rfl | hj := mem_cons.mp hj
    · exact .inr (h hp).right
    · exact .inl ⟨j, mem_of_mem_filter hj, hp, rfl, fun h => h⟩
  refine ⟨j, mem_cons_of_mem _ <| mem_filter.mpr ⟨hj, ?_⟩, hp, hr, rfl⟩
  have hne : j.id ≠ job.id := by
    intro he
    simp only [Job.id, Prod.mk.injEq] at he
    have hchanged := (h <| he.left ▸ hp).left
    rw [←he.right.right.left, hr] at hchanged
    exact nomatch hchanged
  exact decide_eq_true hne

theorem setSource (h : q ≠ p) (enabled : Bool) : Frame p d (d.setSource q enabled) :=
  of_jobs_eq (AList.lookup_insert_ne h.symm) rfl rfl rfl

theorem setRevision (h : q ≠ p) (rev : ℕ) : Frame p d (d.setRevision q rev) :=
  of_jobs_eq rfl (Function.update_of_ne h.symm ..) rfl rfl

theorem setTombstone (h : q ≠ p) (rev : ℕ) : Frame p d (d.setTombstone q rev) :=
  of_jobs_eq rfl rfl (Function.update_of_ne h.symm ..) rfl

theorem cancelStaleSourceJobs (q : Pds) (rev : ℕ) : Frame p d (d.cancelStaleSourceJobs q rev) :=
  mapJobs p d (touches_cancelStale q rev)

theorem register (h : q ≠ p) (rev : ℕ) : Frame p d (d.register q rev) := by
  rw [Data.register]
  split
  · split
    · exact setSource h _
    · exact refl _ _
  · simp only
    split
    · exact (setRevision h _).trans (cancelStaleSourceJobs _ _)
    · exact setRevision h _

end Frame

theorem Data.beginAcquisition_eq {d : Data Pds} (h : d.beginAcquisition job = some job') :
    job' = { job with acquisitionGeneration := job'.acquisitionGeneration } := by
  simp only [beginAcquisition] at h
  split at h
  · exact nomatch h
  · injection h with h
    rw [←h]

-- The loop of `schedulePolicyJobs`.
abbrev Data.scheduleJobs (policy : ℕ) (l : List (Sigma fun _ : Pds => Bool)) (d : Data Pds) :
    Option (Data Pds) :=
  l.foldlM (fun next ⟨pds, enabled⟩ =>
    if enabled then
      (next.beginAcquisition (newJob pds policy .policyChanged (next.sourceRevisions pds))).map
        next.setJob
    else some next) d

theorem Data.schedule_induction
    {motive : List (Sigma fun _ : Pds => Bool) → Data Pds → Data Pds → Prop}
    (nil : ∀ d, motive [] d d)
    (disabled : ∀ pds l d d', motive l d d' → motive (⟨pds, false⟩ :: l) d d')
    (enabled : ∀ pds l d d' (job : Job Pds),
      job = { newJob pds policy .policyChanged (d.sourceRevisions pds) with
        acquisitionGeneration := job.acquisitionGeneration } →
      motive l (d.setJob job) d' → motive (⟨pds, true⟩ :: l) d d')
    (l : List (Sigma fun _ : Pds => Bool))
    (h : scheduleJobs policy l d = some d') : motive l d d' := by
  induction l generalizing d with
  | nil => injection h with h; exact h ▸ nil d
  | cons e l ih =>
    have ⟨pds, isEnabled⟩ := e
    have ⟨next, hnext, h⟩ := Option.bind_eq_some_iff.mp h
    cases isEnabled with
    | false => injection hnext with hnext; exact disabled pds l d d' (ih (hnext ▸ h))
    | true =>
      obtain ⟨job, hjob, rfl⟩ := Option.map_eq_some_iff.mp hnext
      exact enabled pds l d d' job (beginAcquisition_eq hjob) (ih h)

section Frames

variable {m : Manager Pds}

theorem frame_addSource (h : q ≠ p) (rev : ℕ) :
    Frame p m.data (m.addSourceWithRevision q rev).2.data := by
  rw [Manager.addSourceWithRevision]
  split
  · exact Frame.refl _ _
  simp only
  split
  case h_1 => exact Frame.refl _ _
  split
  case h_1 => exact Frame.refl _ _
  case h_2 job hjob =>
    have hpds : job.pds = q := by rw [Data.beginAcquisition_eq hjob]; rfl
    refine Frame.trans ?_ (Frame.setJob fun hp => absurd (hpds ▸ hp) h)
    have hnext : Frame p m.data ((m.data.register q rev).setSource q true) :=
      (Frame.register h rev).trans (Frame.setSource h true)
    split
    · exact hnext.trans (Frame.setTombstone h 0)
    · exact hnext

theorem frame_removeSource (h : q ≠ p) (rev : ℕ) :
    Frame p m.data (m.removeSourceWithRevision q rev).2.data := by
  rw [Manager.removeSourceWithRevision]
  generalize (if rev = 0 then _ else rev) = rev
  split
  · exact Frame.refl _ _
  refine Frame.trans ?_ (Frame.mapJobs _ _ (.ite _ _ fun _ hc => hc.right))
  refine Frame.trans ?_ (Frame.setSource h false)
  split
  · exact (Frame.setTombstone h _).trans (Frame.setRevision h _)
  · exact Frame.setTombstone h _

theorem frame_schedule (l : List (Sigma fun _ : Pds => Bool))
    (hl : ∀ e ∈ l, e.2 = true → d.sources.lookup e.1 = some true)
    (h : Data.scheduleJobs policy l d = some d') : Frame p d d' := by
  refine Data.schedule_induction (motive := fun l d d' =>
    (∀ e ∈ l, e.2 = true → d.sources.lookup e.1 = some true) → Frame p d d')
    (fun d _ => Frame.refl p d) (fun pds l d d' ih hl => ?_) (fun pds l d d' job hjob ih hl => ?_)
    l h hl
  · exact ih (forall_mem_cons.mp hl).right
  have ⟨he, htail⟩ := forall_mem_cons.mp hl
  refine Frame.trans (Frame.setJob fun hp => ?_) (ih htail)
  rw [hjob] at hp ⊢
  obtain rfl : pds = p := hp
  exact ⟨rfl, he rfl, rfl⟩

theorem frame_commitPolicy : Frame p m.data m.commitPolicy.data := by
  rw [Manager.commitPolicy]
  split
  case h_1 next hnext =>
    refine Frame.trans (Frame.mapJobs _ _ (.ite _ _ fun _ hc => hc))
      (frame_schedule _ (fun e he hen => ?_) hnext)
    have ⟨pds, enabled⟩ := e
    obtain rfl : enabled = true := hen
    exact AList.mem_lookup_iff.mpr he
  case h_2 => exact Frame.refl _ _

theorem touches_claim (id : Pds × ℕ × Reason × ℕ) : Touches fun job : Job Pds =>
    if job.id = id ∧ job.state = .pending then
      if 0 < m.data.sourceRevisions job.pds ∧
          job.sourceRevision ≠ m.data.sourceRevisions job.pds then
        job.setState .canceled
      else job.setState .running
    else job := by
  intro j
  simp only
  split
  case isTrue h =>
    have hu : j.state.unfinished := by rw [h.right]; rfl
    right
    split <;> exact ⟨hu, _, rfl⟩
  · exact .inl rfl

theorem touches_persistJobOutcome (id : Pds × ℕ × Reason × ℕ) (outcome : Manager.Outcome) :
    Touches fun job : Job Pds =>
      if job.id = id ∧ m.active job then job.setState outcome.state else job :=
  .ite _ _ fun _ hc => by rw [hc.right.left]; rfl

omit [DecidableEq Pds] in
theorem touches_restart : Touches fun job : Job Pds =>
    if job.state = .running then job.setState .pending else job :=
  .ite _ _ fun _ hc => by rw [hc]; rfl

theorem frame_deliver (h : q ≠ p) (c : Command) : Frame p m.data (m.deliver q c).2.data := by
  have ⟨kind, rev⟩ := c
  cases kind with
  | add => exact m.deliver_add q rev ▸ frame_addSource h rev
  | remove => exact m.deliver_remove q rev ▸ frame_removeSource h rev

-- Every event but a command on the source itself leaves the source as it is.
theorem frame_apply (h : event.command? p = none) : Frame p m.data (m.apply event).data := by
  cases event with
  | command q c =>
    have hne : q ≠ p := fun hq => by simp [Event.command?, hq] at h
    exact frame_deliver hne c
  | claim id => exact Frame.mapJobs p _ (touches_claim id)
  | outcome id o => exact Frame.mapJobs p _ (touches_persistJobOutcome id o)
  | setPolicy => exact frame_commitPolicy
  | restart => exact Frame.mapJobs p _ touches_restart

end Frames

end Jetstream.Jobs
