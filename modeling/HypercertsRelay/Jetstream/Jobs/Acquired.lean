import HypercertsRelay.Jetstream.Jobs.Acquisition

-- A job is complete only when every repository of its frozen inventory is acquired.
namespace Jetstream.Jobs.Acquisition

open List Function Data

variable [DecidableEq Pds] [DecidableEq Did] {id : Id Pds}
  {archive : List (ℕ × Did × ℕ)} {d : Data Pds} {job : Job Pds}

-- Source revisions go up, no job becomes complete, and only the claimed one becomes running.
structure Evolves (claimed : Option (Id Pds)) (d d' : Data Pds) : Prop where
  revisions : ∀ p, d.sourceRevisions p ≤ d'.sourceRevisions p
  jobs : ∀ j ∈ d'.jobs, (∃ i ∈ d.jobs, i.id = j.id ∧ (j.state = .complete → i.state = .complete) ∧
      (j.state = .running → i.state = .running ∨ claimed = some j.id)) ∨
    (j.state ≠ .complete ∧ (j.state = .running → claimed = some j.id) ∧
      j.sourceRevision ≤ d'.sourceRevisions j.pds)

namespace Evolves

section

omit [DecidableEq Pds]

theorem of_jobs_eq (hr : ∀ p, d.sourceRevisions p ≤ d'.sourceRevisions p)
    (hj : d'.jobs = d.jobs) : Evolves claimed d d' where
  revisions := hr
  jobs j hmem := .inl ⟨j, hj ▸ hmem, rfl, id, .inl⟩

theorem refl (d : Data Pds) : Evolves claimed d d :=
  of_jobs_eq (fun _ => le_refl _) rfl

theorem trans (h : Evolves claimed d d') (h' : Evolves claimed d' d'') : Evolves claimed d d'' where
  revisions p := (h.revisions p).trans (h'.revisions p)
  jobs j hj := by
    rcases h'.jobs j hj with ⟨i, hi, hid, hc, hr⟩ | hnew
    · have hpds : i.pds = j.pds := congrArg (·.1) hid
      have hrev : i.sourceRevision = j.sourceRevision := congrArg (·.2.2.2) hid
      rcases h.jobs i hi with ⟨k, hk, hkid, hkc, hkr⟩ | ⟨hic, hir, hle⟩
      · refine .inl ⟨k, hk, hkid.trans hid, fun h => hkc (hc h), fun h => ?_⟩
        exact (hr h).elim (fun h => hid ▸ hkr h) .inr
      · refine .inr ⟨fun h => hic (hc h), fun h => (hr h).elim (fun h => hid ▸ hir h) id, ?_⟩
        rw [←hrev, ←hpds]
        exact hle.trans (h'.revisions _)
    · exact .inr hnew

theorem mapJobs (hid : ∀ j, (f j).id = j.id)
    (hc : ∀ j, (f j).state = .complete → j.state = .complete)
    (hr : ∀ j, (f j).state = .running → j.state = .running ∨ claimed = some j.id) :
    Evolves claimed d (d.mapJobs f) where
  revisions _ := le_refl _
  jobs j hj := by
    obtain ⟨i, hi, rfl⟩ := mem_map.mp hj
    exact .inl ⟨i, hi, (hid i).symm, hc i, fun h => hid i ▸ hr i h⟩

theorem setState (c : Job Pds → Prop) [DecidablePred c] (hc : state ≠ .complete)
    (hr : state ≠ .running) :
    Evolves claimed d (d.mapJobs fun j => if c j then j.setState state else j) := by
  refine mapJobs (fun j => ?_) (fun j => ?_) (fun j => ?_)
  · split <;> rfl
  · split
    · exact fun h => absurd h hc
    · exact id
  · split
    · exact fun h => absurd h hr
    · exact .inl

end

theorem setJob (hs : job.state = .pending) (hle : job.sourceRevision ≤ d.sourceRevisions job.pds) :
    Evolves claimed d (d.setJob job) where
  revisions _ := le_refl _
  jobs j hj := by
    rcases mem_cons.mp hj with rfl | hj
    · refine .inr ⟨?_, ?_, hle⟩ <;> rw [hs] <;> exact nofun
    · exact .inl ⟨j, (mem_filter.mp hj).left, rfl, id, .inl⟩

theorem setRevision (h : d.sourceRevisions pds ≤ revision) :
    Evolves claimed d (d.setRevision pds revision) := by
  refine of_jobs_eq (fun p => ?_) rfl
  by_cases hp : p = pds
  · rw [hp, Data.setRevision]
    dsimp only
    rwa [update_self]
  · rw [Data.setRevision]
    dsimp only
    rw [update_of_ne hp]

theorem cancelStaleSourceJobs (pds : Pds) (revision : ℕ) :
    Evolves claimed d (d.cancelStaleSourceJobs pds revision) := by
  refine mapJobs (fun j => ?_) (fun j => ?_) (fun j => ?_)
  · split <;> rfl
  · split
    · exact id
    · exact nofun
  · split
    · exact .inl
    · exact nofun

theorem register (h : revision = 0 ∨ d.sourceRevisions pds ≤ revision) :
    Evolves claimed d (d.register pds revision) := by
  rw [Data.register]
  split
  · split
    · exact of_jobs_eq (fun _ => le_refl _) rfl
    · exact refl d
  case isFalse hne =>
    have hset : Evolves claimed d (d.setRevision pds revision) := setRevision (h.resolve_left hne)
    split
    · exact hset.trans (cancelStaleSourceJobs pds revision)
    · exact hset

end Evolves

section Manager

variable {m : Manager Pds}

theorem evolves_addSource (pds : Pds) (revision : ℕ) :
    Evolves claimed m.data (m.addSourceWithRevision pds revision).2.data := by
  rw [Manager.addSourceWithRevision]
  split
  · exact .refl _
  case isFalse hok =>
    have hreg : Evolves claimed m.data (m.data.register pds revision) := .register (by omega)
    dsimp only
    split
    · exact .refl _
    split
    · exact .refl _
    case h_2 job hjob =>
      have hjob := beginAcquisition_eq hjob
      have hstate : job.state = .pending := by rw [hjob]; rfl
      have hrev : job.sourceRevision = (m.data.register pds revision).sourceRevisions job.pds := by
        rw [hjob]; rfl
      refine hreg.trans (.trans ?_ (.setJob hstate ?_))
      · split <;> exact .of_jobs_eq (fun _ => le_refl _) rfl
      · rw [hrev]
        split <;> exact le_refl _

theorem evolves_removeSource (pds : Pds) (revision : ℕ) :
    Evolves claimed m.data (m.removeSourceWithRevision pds revision).2.data := by
  rw [Manager.removeSourceWithRevision]
  generalize (if revision = 0 then _ else revision) = revision
  split
  · exact .refl _
  case isFalse hok =>
    refine .trans ?_ (.setState (fun job => job.pds = pds ∧ job.state.unfinished)
      (by rintro ⟨⟩) (by rintro ⟨⟩))
    split
    case isTrue hlt => exact .trans (.of_jobs_eq (fun _ => le_refl _) rfl) (.trans
      (.setRevision (le_of_lt hlt)) (.of_jobs_eq (fun _ => le_refl _) rfl))
    · exact .of_jobs_eq (fun _ => le_refl _) rfl

theorem evolves_deliver (pds : Pds) (c : Command) :
    Evolves claimed m.data (m.deliver pds c).2.data := by
  have ⟨kind, revision⟩ := c
  cases kind with
  | add => exact m.deliver_add pds revision ▸ evolves_addSource pds revision
  | remove => exact m.deliver_remove pds revision ▸ evolves_removeSource pds revision

theorem evolves_schedule (l : List (Sigma fun _ : Pds => Bool))
    (h : scheduleJobs policy l d = some d') : Evolves claimed d d' := by
  refine schedule_induction (motive := fun _ d d' => Evolves claimed d d') .refl
    (fun pds l d d' ih => ih) (fun pds l d d' job hjob ih => .trans (.setJob ?_ ?_) ih) l h
  · rw [hjob]; rfl
  · rw [hjob]; exact le_refl _

theorem evolves_commitPolicy : Evolves claimed m.data m.commitPolicy.data := by
  rw [Manager.commitPolicy]
  split
  case h_1 next hnext =>
    have hcancel : Evolves claimed m.data (m.data.mapJobs fun job =>
        if job.state.unfinished then job.setState .canceled else job) :=
      .setState _ (by rintro ⟨⟩) (by rintro ⟨⟩)
    exact hcancel.trans (evolves_schedule _ hnext)
  case h_2 => exact .refl _

omit [DecidableEq Pds] in
theorem evolves_restart : Evolves claimed m.data m.restart.data :=
  .setState _ nofun nofun

theorem evolves_claim (id : Id Pds) : Evolves (some id) m.data (m.claim id).data := by
  refine .mapJobs (fun j => ?_) (fun j => ?_) (fun j => ?_)
  · split
    · split <;> rfl
    · rfl
  · split
    · split <;> exact nofun
    · exact fun h => h
  · split
    case isTrue h => exact fun _ => .inr (congrArg some h.left.symm)
    · exact .inl

theorem evolves_transition (id : Id Pds) (hc : state ≠ .complete) (hr : state ≠ .running) :
    Evolves claimed d (transition d id state) :=
  .setState _ hc hr

omit [DecidableEq Pds] in
theorem Evolves.running (h : Evolves claimed d d')
    (hne : claimed ≠ some id) (hr : Running d' id) : Running d id := by
  obtain ⟨j, hj, rfl, hs⟩ := hr
  rcases h.jobs j hj with ⟨i, hi, hid, _, hrun⟩ | ⟨_, hrun, _⟩
  · exact ⟨i, hi, hid, (hrun hs).resolve_right hne⟩
  · exact absurd (hrun hs) hne

omit [DecidableEq Pds] in
theorem Evolves.not_completes (h : Evolves claimed d d') : ¬Completes d d' id := by
  rintro ⟨hbefore, j, hj, rfl, hs⟩
  rcases h.jobs j hj with ⟨i, hi, hid, hc, _⟩ | ⟨hne, _⟩
  · exact hbefore i hi hid (hc hs)
  · exact hne hs

end Manager

-- Every repository of the frozen inventory has a checkpoint that reaches the listing.
structure Frozen (inv : Inventory Did) : Prop where
  known : inv.totalReposKnown
  completed : ∀ did listed, inv.entries.lookup did = some listed →
    completedRevisionAtLeast (inv.completedRepos did) listed

-- An entry is still to come, or has its checkpoint, or the outcome is not that of a complete job.
structure Scan (inv : Inventory Did) (completed : Did → Option ℕ) (left : List (Did × ℕ))
    (total : RepositoryOutcome) : Prop where
  known : inv.totalReposKnown
  snapshot : ∀ did listed, inv.entries.lookup did = some listed →
    completedRevisionAtLeast (completed did) listed →
    completedRevisionAtLeast (inv.completedRepos did) listed
  entries : ∀ did listed, inv.entries.lookup did = some listed →
    (did, listed) ∈ left ∨ completedRevisionAtLeast (inv.completedRepos did) listed ∨
      total.result ≠ .completed

section Scan

variable {inv inv' : Inventory Did}
variable {total current : RepositoryOutcome}

theorem Scan.start (h : inv.totalReposKnown) :
    Scan inv inv.completedRepos inv.listed .acquired where
  known := h
  snapshot _ _ _ := id
  entries did listed hl := .inl <| mem_map.mpr ⟨⟨did, listed⟩, AList.mem_lookup_iff.mp hl, rfl⟩

theorem Scan.skip (h : Scan inv completed ((did, listed) :: left) total)
    (hc : completedRevisionAtLeast (completed did) listed) : Scan inv completed left total where
  known := h.known
  snapshot := h.snapshot
  entries did' listed' hl := by
    rcases h.entries did' listed' hl with hmem | hdone
    · rcases mem_cons.mp hmem with heq | hmem
      · obtain ⟨rfl, rfl⟩ := Prod.mk.inj heq
        exact .inr (.inl (h.snapshot _ _ hl hc))
      · exact .inl hmem
    · exact .inr hdone

theorem result_eq_completed (h : total.result = .completed) :
    total.retryPending = false ∧ total.permanent = false ∧ total.unavailable = false := by
  rw [RepositoryOutcome.result] at h
  cases hr : total.retryPending <;> cases hp : total.permanent <;> cases hu : total.unavailable <;>
    simp_all

theorem result_merge (h : current.retryPending ∨ current.unavailable ∨ current.permanent) :
    (mergeFrozenRepositoryOutcome total current).result ≠ .completed := by
  intro hr
  have ⟨hretry, hperm, hun⟩ := result_eq_completed hr
  rcases h with h | h | h
  · exact nomatch h.symm.trans (Bool.or_eq_false_iff.mp hretry).right
  · exact nomatch h.symm.trans (Bool.or_eq_false_iff.mp hun).right
  · exact nomatch h.symm.trans (Bool.or_eq_false_iff.mp hperm).right

theorem Scan.fails (h : Scan inv completed left total)
    (hf : current.retryPending ∨ current.unavailable ∨ current.permanent) :
    Scan inv completed left' (mergeFrozenRepositoryOutcome total current) where
  known := h.known
  snapshot := h.snapshot
  entries _ _ _ := .inr (.inr (result_merge hf))

theorem Scan.checkpointRepository (h : Scan inv completed ((did, listed) :: left) total)
    (hl : inv.entries.lookup did = some listed) (hle : listed ≤ revision) :
    Scan (inv.checkpointRepository did revision) completed left total := by
  have hkeep (did' : Did) (listed' : ℕ) (hl' : inv.entries.lookup did' = some listed')
      (hc : did' ≠ did → completedRevisionAtLeast (inv.completedRepos did') listed') :
      completedRevisionAtLeast
        ((inv.checkpointRepository did revision).completedRepos did') listed' := by
    rw [Inventory.checkpointRepository]
    dsimp only
    by_cases hd : did' = did
    · subst hd
      cases hl.symm.trans hl'
      rw [update_self]
      exact decide_eq_true hle
    · rw [update_of_ne hd]
      exact hc hd
  refine ⟨h.known, fun did' listed' hl' hc => ?_, fun did' listed' hl' => ?_⟩
  · exact hkeep did' listed' hl' fun _ => h.snapshot did' listed' hl' hc
  rcases h.entries did' listed' hl' with hmem | hdone | htotal
  · rcases mem_cons.mp hmem with heq | hmem
    · obtain ⟨rfl, rfl⟩ := Prod.mk.inj heq
      exact .inr (.inl (hkeep _ _ hl' fun hne => absurd rfl hne))
    · exact .inl hmem
  · exact .inr (.inl (hkeep did' listed' hl' fun _ => hdone))
  · exact .inr (.inr htotal)

theorem Scan.frozen (h : Scan inv completed [] total) (hr : total.result = .completed) :
    Frozen inv where
  known := h.known
  completed did listed hl := by
    rcases h.entries did listed hl with hmem | hdone | htotal
    · exact nomatch hmem
    · exact hdone
    · exact absurd hr htotal

theorem checkpoint_known (h : inv.checkpoint page true = some inv') : inv'.totalReposKnown := by
  rw [Inventory.checkpoint] at h
  split at h
  · exact nomatch h
  · injection h with h
    rw [←h]
    exact Bool.or_true _

theorem checkpoint_completed
    (h : inv.checkpoint page complete = some inv') (hc : inv'.completedRepos did = some revision) :
    inv.completedRepos did = some revision := by
  rw [Inventory.checkpoint] at h
  split at h
  · exact nomatch h
  injection h with h
  rw [←h] at hc
  dsimp only at hc
  split at hc
  · exact hc
  · exact nomatch hc

end Scan

def Works (inventory : Id Pds → Inventory Did) (archive : List (ℕ × Did × ℕ)) :
    Worker Pds Did → Prop
  | .enumerating _ => True
  | .scanning id completed left total => Scan (inventory id) completed left total
  | .reconciled id completed left total did listed revision =>
    Scan (inventory id) completed ((did, listed) :: left) total ∧ (id.2.1, did, revision) ∈ archive
  | .finished id outcome => outcome = .completed → Frozen (inventory id)

omit [DecidableEq Pds] in
theorem Works.congr (h : Works inventory archive w)
    (heq : inventory' w.id = inventory w.id) : Works inventory' archive w := by
  cases w <;> rw [Worker.id] at heq <;> rw [Works] at h ⊢ <;> first | trivial | rwa [heq]

structure Inv (s : State Pds Did) : Prop where
  revisions : ∀ j ∈ s.manager.data.jobs, j.sourceRevision ≤ s.manager.data.sourceRevisions j.pds
  archived : ∀ id did revision, (s.inventory id).completedRepos did = some revision →
    (id.2.1, did, revision) ∈ s.archive
  worker : ∀ w, s.worker = some w → Running s.manager.data w.id → Works s.inventory s.archive w

variable {s s' : State Pds Did} {m : Manager Pds}

omit [DecidableEq Pds] in
theorem Inv.evolve (h : Inv s) (he : Evolves claimed s.manager.data m.data) :
    ∀ j ∈ m.data.jobs, j.sourceRevision ≤ m.data.sourceRevisions j.pds := by
  intro j hj
  rcases he.jobs j hj with ⟨i, hi, hid, _⟩ | ⟨_, _, hle⟩
  · have hle := h.revisions i hi
    have hpds : i.pds = j.pds := congrArg (·.1) hid
    have hrev : i.sourceRevision = j.sourceRevision := congrArg (·.2.2.2) hid
    rw [←hrev, ←hpds]
    exact hle.trans (he.revisions _)
  · exact hle

omit [DecidableEq Pds] in
-- An operation of the manager that claims nothing.
theorem Inv.manage (h : Inv s) (he : Evolves none s.manager.data m.data) :
    Inv { s with manager := m } where
  revisions := h.evolve he
  archived := h.archived
  worker w hw hr := h.worker w hw (he.running nofun hr)

theorem active_running (h : Active m id) : Running m.data id :=
  have ⟨job, hjob, hid, hact⟩ := h
  ⟨job, hjob, hid, hact.left⟩

theorem transition_not_running (h : state ≠ .running) : ¬Running (transition d id state) id := by
  rintro ⟨j, hj, hid, hs⟩
  obtain ⟨i, _, rfl⟩ := mem_map.mp hj
  by_cases hi : i.id = id
  · rw [if_pos hi] at hs
    exact h hs
  · rw [if_neg hi] at hid
    exact hi hid

omit [DecidableEq Pds] in
theorem Inv.work (h : Inv s) (hw : s.worker = some w) (hid : w'.id = w.id)
    (ha : ∀ id did revision, (inventory id).completedRepos did = some revision →
      (id.2.1, did, revision) ∈ archive)
    (hwork : Running s.manager.data w.id → Works s.inventory s.archive w →
      Works inventory archive w') :
    Inv { s with inventory, archive, worker := some w' } where
  revisions := h.revisions
  archived := ha
  worker w'' hw'' hr := by
    obtain rfl := Option.some.inj hw''
    have hr : Running s.manager.data w.id := hid ▸ hr
    exact hwork hr (h.worker w hw hr)

theorem Inv.retry (h : Inv s) : Inv { s with
    manager.data := transition s.manager.data job.id .pending
    inventory := if job.state = .failed then
        update s.inventory job.id (s.inventory job.id).resetRetry
      else s.inventory } := by
  have he : Evolves none s.manager.data (transition s.manager.data job.id .pending) :=
    evolves_transition job.id nofun nofun
  refine ⟨h.evolve (m := ⟨_, s.manager.policy⟩) he, fun id did revision hc => ?_, fun w hw hr => ?_⟩
  · apply h.archived id did revision
    dsimp only at hc
    split at hc
    · by_cases hid : id = job.id
      · subst hid
        rwa [update_self] at hc
      · rwa [update_of_ne hid] at hc
    · exact hc
  · have hnot : ¬Running (transition s.manager.data job.id .pending) job.id :=
      transition_not_running nofun
    have hne : w.id ≠ job.id := fun heq => hnot (heq ▸ hr)
    have hworks := h.worker w hw (he.running nofun hr)
    split
    · -- The worker is at another job, whose inventory is the same.
      have hsame : update s.inventory job.id (s.inventory job.id).resetRetry w.id =
          s.inventory w.id := update_of_ne hne _ _
      exact hworks.congr hsame
    · exact hworks

theorem Inv.step (h : Inv s) (e : Step s s') : Inv s' := by
  cases e with
  | command pds c => exact h.manage (evolves_deliver pds c)
  | setPolicy => exact h.manage evolves_commitPolicy
  | cancel hj hu => exact h.manage (m := ⟨_, s.manager.policy⟩) (evolves_transition _ nofun nofun)
  | retry => exact h.retry
  | restart =>
    have he : Evolves none s.manager.data s.manager.restart.data := evolves_restart
    exact ⟨h.evolve he, h.archived, nofun⟩
  | claim hw hrun hnot =>
    rename_i id
    refine ⟨h.evolve (evolves_claim id), h.archived, fun w hw' hr => ?_⟩
    obtain rfl := Option.some.inj hw'
    by_cases hk : (s.inventory id).totalReposKnown
    · rw [if_pos hk]
      exact Scan.start hk
    · rw [if_neg hk]
      trivial
  | claimStale hw hnot =>
    refine ⟨h.evolve (evolves_claim _), h.archived, fun w hw' => ?_⟩
    exact nomatch hw.symm.trans hw'
  | checkpointInventory page complete hw hact hcp =>
    rename_i id inv
    refine h.work hw ?_ (fun id' did revision hc => ?_) fun _ _ => ?_
    · split <;> rfl
    · by_cases hid : id' = id
      · subst hid
        rw [update_self] at hc
        exact h.archived _ _ _ (checkpoint_completed hcp hc)
      · rw [update_of_ne hid] at hc
        exact h.archived _ _ _ hc
    · cases complete with
      | false => trivial
      | true =>
        rw [if_pos rfl, Works, update_self]
        exact Scan.start (checkpoint_known hcp)
  | skip hw hc => exact h.work hw rfl h.archived fun _ hwork => Scan.skip hwork hc
  | repositoryFails current hw hf =>
    exact h.work hw rfl h.archived fun _ hwork => Scan.fails hwork hf
  | apply revision hw hact hle =>
    refine h.work hw rfl (fun id did rev hc => mem_cons_of_mem _ (h.archived id did rev hc))
      fun _ hwork => ⟨hwork, ?_⟩
    have ⟨job, hjob, hid, hactive⟩ := hact
    have hpol : job.policyRevision = s.manager.policy := hactive.right.right.left
    rw [←hid, ←hpol]
    exact mem_cons_self
  | checkpointRepository hw hact hl hle =>
    rename_i id completed left total did listed revision
    have hworks := h.worker _ hw (active_running hact)
    refine h.work hw rfl (fun id' did' rev hc => ?_) fun _ hwork => ?_
    · by_cases hid : id' = id
      · subst hid
        rw [update_self, Inventory.checkpointRepository] at hc
        dsimp only at hc
        by_cases hd : did' = did
        · subst hd
          rw [update_self] at hc
          exact Option.some.inj hc ▸ hworks.right
        · rw [update_of_ne hd] at hc
          exact h.archived _ _ _ hc
      · rw [update_of_ne hid] at hc
        exact h.archived _ _ _ hc
    · rw [Works, update_self]
      exact Scan.checkpointRepository hwork.left hl hle
  | abort outcome hw hne => exact h.work hw rfl h.archived fun _ _ ho => absurd ho hne
  | scanned hw => exact h.work hw rfl h.archived fun _ hwork => hwork.frozen
  | persistJobOutcome hw =>
    refine ⟨fun j hj => ?_, h.archived, nofun⟩
    obtain ⟨i, hi, rfl⟩ := mem_map.mp hj
    split <;> exact h.revisions i hi

theorem Inv.of_reachable (h : (system Pds Did).Reachable s) : Inv s := by
  refine h.invariant (fun s hi => ?_) fun s s' _ hinv e => ?_
  · refine ⟨hi.jobs ▸ nofun, fun id did revision hc => ?_, fun w hw => ?_⟩
    · rw [hi.inventory] at hc
      exact nomatch hc
    · exact nomatch hi.worker.symm.trans hw
  · exact hinv.step e

theorem completes_persist (h : Completes m.data (m.persistJobOutcome id' outcome).data id) :
    id = id' ∧ outcome = .completed ∧ Active m id := by
  have ⟨hbefore, j, hj, hid, hs⟩ := h
  obtain ⟨i, hi, rfl⟩ := mem_map.mp hj
  by_cases hc : i.id = id' ∧ m.active i
  · rw [if_pos hc] at hs hid
    refine ⟨hid.symm.trans hc.left, ?_, i, hi, hid, hc.right⟩
    cases outcome with
    | completed => rfl
    | _ => exact nomatch hs
  · rw [if_neg hc] at hs hid
    exact absurd hs (hbefore i hi hid)

-- A job is completed by a worker that went through the whole frozen inventory.
theorem complete_acquired {id} (h : (system Pds Did).Reachable s) (e : Step s s')
    (hc : Completes s.manager.data s'.manager.data id) :
    s'.manager.data.enabled id.1 ∧ id.2.1 = s'.manager.policy ∧
    id.2.2.2 = s'.manager.data.sourceRevisions id.1 ∧ (s'.inventory id).totalReposKnown ∧
    ∀ did listed, (s'.inventory id).entries.lookup did = some listed →
      ∃ revision, (s'.inventory id).completedRepos did = some revision ∧ listed ≤ revision ∧
        (id.2.1, did, revision) ∈ s'.archive := by
  have hi := Inv.of_reachable h
  cases e with
  | command pds c =>
    have he : Evolves none s.manager.data _ := evolves_deliver pds c
    exact absurd hc he.not_completes
  | setPolicy =>
    have he : Evolves none s.manager.data _ := evolves_commitPolicy
    exact absurd hc he.not_completes
  | cancel =>
    rename_i job _ _
    have he : Evolves none s.manager.data (transition s.manager.data job.id .canceled) :=
      evolves_transition job.id nofun nofun
    exact absurd hc he.not_completes
  | retry =>
    rename_i job _ _ _ _
    have he : Evolves none s.manager.data (transition s.manager.data job.id .pending) :=
      evolves_transition job.id nofun nofun
    exact absurd hc he.not_completes
  | restart =>
    have he : Evolves none s.manager.data _ := evolves_restart
    exact absurd hc he.not_completes
  | claim | claimStale => exact absurd hc (evolves_claim _).not_completes
  | persistJobOutcome hw =>
    obtain ⟨rfl, rfl, hact⟩ := completes_persist hc
    have hfrozen : Frozen (s.inventory id) := hi.worker _ hw (active_running hact) rfl
    have ⟨job, hjob, hid, _, hen, hpol, hrev⟩ := hact
    subst hid
    refine ⟨hen, hpol, ?_, hfrozen.known, fun did listed hl => ?_⟩
    · -- A source without a revision has jobs without one.
      rcases hrev with hzero | heq
      · have hle := hi.revisions job hjob
        exact Nat.le_antisymm hle (hzero ▸ Nat.zero_le _)
      · exact heq
    · have hdone := hfrozen.completed did listed hl
      have ⟨revision, hr, hle⟩ := (Option.any_eq_true _ _).mp hdone
      exact ⟨revision, hr, of_decide_eq_true hle, hi.archived _ _ _ hr⟩
  | _ =>
    have he : Evolves none s.manager.data _ := .refl _
    exact absurd hc he.not_completes

-- A source with one repository, which is acquired at a later revision than the listed one.
def sampleInitial : State Bool Bool where
  manager := ⟨⟨∅, fun _ => 0, fun _ => 0, []⟩, 1⟩
  inventory _ := .empty Bool
  archive := []
  worker := none

def sampleId : Id Bool :=
  (true, 1, .sourceAdded, 1)

theorem complete_acquired_sample : ∃ s s' : State Bool Bool, (system Bool Bool).Reachable s ∧
    Completes s.manager.data s'.manager.data sampleId ∧ (s'.inventory sampleId).totalReposKnown ∧
      ∃ revision ≥ 5, (1, false, revision) ∈ s'.archive := by
  obtain ⟨s, h, hw, hc, hl⟩ : ∃ s : State Bool Bool, (system Bool Bool).Reachable s ∧
      s.worker = some (.finished sampleId .completed) ∧
      Completes s.manager.data (s.manager.persistJobOutcome sampleId .completed).data sampleId ∧
      (s.inventory sampleId).entries.lookup false = some 5 := by
    have h₀ : (system Bool Bool).Reachable sampleInitial := .init ⟨rfl, rfl, rfl, rfl⟩
    have h₁ := h₀.step (.command true ⟨.add, 1⟩)
    have hnot : ¬Running (sampleInitial.manager.apply (.command true ⟨.add, 1⟩)).data sampleId := by
      rintro ⟨j, hj, _, hs⟩
      obtain rfl := mem_singleton.mp hj
      exact nomatch hs
    have h₂ := h₁.step (.claim rfl ⟨_, mem_cons_self, rfl, rfl⟩ hnot)
    have h₃ := h₂.step (.checkpointInventory [(false, 5)] true rfl
      ⟨_, mem_cons_self, rfl, rfl, rfl, rfl, .inr rfl⟩ rfl)
    have h₄ := h₃.step (.apply 7 rfl ⟨_, mem_cons_self, rfl, rfl, rfl, rfl, .inr rfl⟩ (by decide))
    have h₅ := h₄.step (.checkpointRepository rfl
      ⟨_, mem_cons_self, rfl, rfl, rfl, rfl, .inr rfl⟩ rfl (by decide))
    refine ⟨_, h₅.step (.scanned rfl), rfl, ⟨fun j hj _ => ?_, _, mem_cons_self, rfl, rfl⟩, rfl⟩
    obtain rfl := mem_singleton.mp hj
    exact nofun
  have ⟨_, _, _, hknown, hall⟩ := complete_acquired h (.persistJobOutcome hw) hc
  have ⟨revision, _, hle, hmem⟩ := hall false 5 hl
  exact ⟨s, _, h, hc, hknown, revision, hle, hmem⟩

end Jetstream.Jobs.Acquisition
