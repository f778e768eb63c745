import HypercertsRelay.Jetstream.Adoption.Gate

-- Each revision takes effect at the boundary it is recorded with.
namespace Jetstream.Adoption

open List Option
open Jobs (Data Job)

section Jobs

variable [DecidableEq Pds] {d d' : Data Pds}

theorem AtRevision.mapJobs (h : AtRevision rev d)
    (hp : ∀ job, (f job).pds = job.pds) (hr : ∀ job, (f job).policyRevision = job.policyRevision)
    (hu : ∀ job, (f job).state.unfinished → job.state.unfinished) :
    AtRevision rev (d.mapJobs f) where
  unfinished job hjob hun := by
    obtain ⟨job, hmem, rfl⟩ := mem_map.mp hjob
    exact (hr job).trans (h.unfinished job hmem (hu job hun))
  scheduled pds hen := by
    have ⟨job, hjob, hpds, hrev⟩ := h.scheduled pds hen
    exact ⟨f job, mem_map_of_mem hjob, (hp job).trans hpds, (hr job).trans hrev⟩

theorem AtRevision.resumePersistedJobs (h : AtRevision rev d) :
    AtRevision rev d.resumePersistedJobs := by
  refine h.mapJobs (fun job => ?_) (fun job => ?_) (fun job => ?_)
  · split <;> rfl
  · split <;> rfl
  · split
    case isTrue hs => exact fun _ => hs ▸ rfl
    · exact id

structure Scheduled (revision : ℕ) (l : List (Sigma fun _ : Pds => Bool)) (d d' : Data Pds) :
    Prop where
  sources : d'.sources = d.sources
  unfinished : (∀ job ∈ d.jobs, job.state.unfinished → job.policyRevision = revision) →
    ∀ job ∈ d'.jobs, job.state.unfinished → job.policyRevision = revision
  kept : ∀ pds, (∃ job ∈ d.jobs, job.pds = pds ∧ job.policyRevision = revision) →
    ∃ job ∈ d'.jobs, job.pds = pds ∧ job.policyRevision = revision
  scheduled : ∀ e ∈ l, e.2 = true → ∃ job ∈ d'.jobs, job.pds = e.1 ∧ job.policyRevision = revision

omit [DecidableEq Pds] in
theorem scheduled_nil (d : Data Pds) : Scheduled rev [] d d where
  sources := rfl
  unfinished := id
  kept _ := id
  scheduled := nofun

omit [DecidableEq Pds] in
theorem Scheduled.disabled (h : Scheduled rev l d d') : Scheduled rev (⟨pds, false⟩ :: l) d d' where
  sources := h.sources
  unfinished := h.unfinished
  kept := h.kept
  scheduled := forall_mem_cons.mpr ⟨nofun, h.scheduled⟩

theorem Scheduled.enabled (hr : job.policyRevision = rev) (h : Scheduled rev l (d.setJob job) d') :
    Scheduled rev (⟨job.pds, true⟩ :: l) d d' where
  sources := h.sources
  unfinished hd := h.unfinished <| forall_mem_cons.mpr
    ⟨fun _ => hr, fun other ho => hd other (mem_filter.mp ho).left⟩
  kept pds := by
    intro ⟨other, ho, hpds, hrev⟩
    apply h.kept
    -- The new job takes the place of one of its own coordinate only.
    by_cases hid : other.id = job.id
    · have hjob : job.pds = other.pds := (congrArg Prod.fst hid).symm
      exact ⟨job, mem_cons_self, hjob.trans hpds, hr⟩
    · exact ⟨other, mem_cons_of_mem _ (mem_filter.mpr ⟨ho, by simpa using hid⟩), hpds, hrev⟩
  scheduled := forall_mem_cons.mpr ⟨fun _ => h.kept _ ⟨job, mem_cons_self, rfl, hr⟩, h.scheduled⟩

theorem scheduled_foldlM (l : List (Sigma fun _ : Pds => Bool))
    (h : l.foldlM (fun next ⟨pds, enabled⟩ =>
      if enabled then
        (next.beginAcquisition
          (Jobs.newJob pds revision .policyChanged (next.sourceRevisions pds))).map next.setJob
      else some next) d = some d') : Scheduled revision l d d' := by
  refine Data.schedule_induction (motive := Scheduled revision) scheduled_nil
    (fun pds l d d' ih => ih.disabled) (fun pds l d d' job hjob ih => ?_) l h
  have hpds : job.pds = pds := by rw [hjob]; rfl
  have hrev : job.policyRevision = revision := by rw [hjob]; rfl
  exact hpds ▸ ih.enabled hrev

theorem AtRevision.of_stagePolicyJobs (h : d.stagePolicyJobs rev = some d') :
    AtRevision rev d' := by
  have hs := scheduled_foldlM _ h
  refine ⟨hs.unfinished fun job hjob hun => ?_, fun pds hen => ?_⟩
  · -- No job is unfinished once those of the policy before are canceled.
    obtain ⟨job, _, rfl⟩ := mem_map.mp hjob
    split at hun
    · exact nomatch hun
    case isFalse h => exact absurd hun h
  · have hsources : d'.sources = d.sources := hs.sources
    rw [Data.enabled, hsources] at hen
    cases hl : d.sources.lookup pds with
    | none =>
      rw [hl] at hen
      exact nomatch hen
    | some b =>
      rw [hl] at hen
      exact hs.scheduled ⟨pds, b⟩ (AList.mem_lookup_iff.mp hl) hen

end Jobs

-- The last seq that a recorded boundary covers. Seqs start at one, so null covers none.
def position (boundary : Option ℕ) : ℕ :=
  boundary.getD 0

theorem position_boundary (h : 0 < n) : position (boundary n) + 1 = n := by
  rw [boundary]
  split
  · exact Nat.sub_add_cancel h
  · exact (show n = 1 by omega).symm

-- The revision takes effect right after the boundary.
def Exact (revision : ℕ) (boundary : Option ℕ) (events : List Event) : Prop :=
  ∀ e ∈ events, (e.seq ≤ position boundary → e.revision < revision) ∧
    (position boundary < e.seq → revision ≤ e.revision)

variable [DecidableEq Pds] [DecidableEq Collections]

-- The durable policy, job document and history are all at the revision of the policy.
structure Disk.AtOneRevision (disk : Disk Pds Collections) : Prop where
  jobs : AtRevision disk.selection.revision disk.jobs
  history : disk.history.getLast?.map (·.revision) = some disk.selection.revision

-- What the managers hold in memory is what is durable.
def Synced (s : State Pds Collections) : Prop :=
  s.policy = s.disk.selection ∧ s.data = s.disk.jobs

def Held (s : State Pds Collections) : Prop :=
  match s.holder with
  | .unbound | .free => Synced s
  | .admitted policy => policy = s.policy ∧ Synced s
  | .adopting b => b = boundary s.nextSeq ∧ s.durableSeq = s.nextSeq ∧ Synced s
  | .committed next => next = s.disk ∧ s.policy.revision ≤ s.disk.selection.revision

-- The history is not there yet, or its last entry is the one of the durable policy.
def Latest (s : State Pds Collections) : Prop :=
  (s.disk.history = [] ∧ s.holder = .unbound ∧ s.events = []) ∨
    s.disk.history.getLast?.map (·.revision) = some s.disk.selection.revision

structure Inv (s : State Pds Collections) : Prop where
  seqs : ∀ e ∈ s.events, 0 < e.seq ∧ e.seq < s.nextSeq
  sorted : s.events.Pairwise fun e e' => e.seq < e'.seq ∧ e.revision ≤ e'.revision
  durable : 0 < s.durableSeq ∧ s.durableSeq ≤ s.nextSeq
  policy : ∀ e ∈ s.events, e.revision ≤ s.policy.revision
  jobs : AtRevision s.disk.selection.revision s.disk.jobs
  held : Held s
  latest : Latest s
  recorded : ∀ r ∈ s.disk.history, r.revision ≤ s.disk.selection.revision ∧
    position r.effectiveAfterSeq < s.durableSeq ∧ Exact r.revision r.effectiveAfterSeq s.events
  ordered : s.disk.history.Pairwise fun r r' => r.revision < r'.revision ∧
    position r.effectiveAfterSeq ≤ position r'.effectiveAfterSeq

variable {s s' : State Pds Collections} {next : Disk Pds Collections} {r : Recorded Collections}

section

omit [DecidableEq Collections]

theorem Inv.of_initial (h : Initial s) : Inv s where
  seqs := h.events ▸ nofun
  sorted := h.events ▸ .nil
  durable := ⟨h.durableSeq ▸ h.nextSeq, h.durableSeq.le⟩
  policy := h.events ▸ nofun
  jobs := h.jobs
  held := by rw [Held, h.holder]; exact ⟨h.policy, h.data⟩
  latest := .inl ⟨h.history, h.holder, h.events⟩
  recorded := h.history ▸ nofun
  ordered := h.history ▸ .nil

-- An entry for a boundary that every row is behind, of a revision above all that are in use.
theorem Inv.record (h : Inv s) (hr : ∀ e ∈ s.events, e.revision < r.revision)
    (hh : ∀ r' ∈ s.disk.history, r'.revision < r.revision)
    (hb : r.effectiveAfterSeq = boundary s.nextSeq) :
    (Exact r.revision r.effectiveAfterSeq s.events ∧ position r.effectiveAfterSeq + 1 = s.nextSeq) ∧
    (s.disk.history ++ [r]).Pairwise fun r r' => r.revision < r'.revision ∧
      position r.effectiveAfterSeq ≤ position r'.effectiveAfterSeq := by
  have hpos : position r.effectiveAfterSeq + 1 = s.nextSeq := by
    rw [hb]
    exact position_boundary (h.durable.left.trans_le h.durable.right)
  refine ⟨⟨fun e he => ⟨fun _ => hr e he, fun hlt => ?_⟩, hpos⟩, ?_⟩
  · have := (h.seqs e he).right
    omega
  refine pairwise_append.mpr ⟨h.ordered, pairwise_singleton _ _, fun r' hr' t ht => ?_⟩
  obtain rfl := mem_singleton.mp ht
  have := (h.recorded r' hr').right.left
  have := h.durable.right
  exact ⟨hh r' hr', by omega⟩

theorem Inv.last_recorded (h : Inv s) (hu : s.holder ≠ .unbound) :
    s.disk.history.getLast?.map (·.revision) = some s.disk.selection.revision :=
  h.latest.resolve_left fun h' => hu h'.right.left

end

theorem stagePolicy_of_new (hn : ∀ r' ∈ history, r'.revision ≠ r.revision)
    (h : stagePolicy history r = some history') : history' = history ++ [r] := by
  have hfind : history.find? (·.revision = r.revision) = none :=
    find?_eq_none.mpr fun r' hr' => by simpa using hn r' hr'
  rw [stagePolicy, hfind] at h
  exact (Option.some.inj h).symm

theorem setPolicyLocked_eq (hn : ∀ r ∈ s.disk.history, r.revision ≤ s.policy.revision)
    (h : setPolicyLocked s expected collections b = some next) :
    next.selection.revision = s.policy.revision + 1 ∧
      next.history = s.disk.history ++ [⟨next.selection, b⟩] ∧
      AtRevision next.selection.revision next.jobs := by
  rw [setPolicyLocked] at h
  split at h
  · exact nomatch h
  split at h
  · exact nomatch h
  split at h
  · exact nomatch h
  case isFalse hexp _ _ =>
    have hexp : expected = s.policy.revision := not_not.mp hexp
    have ⟨history, hhistory, h⟩ := bind_eq_some_iff.mp h
    have ⟨jobs, hjobs, h⟩ := bind_eq_some_iff.mp h
    injection h with h
    subst h hexp
    refine ⟨rfl, stagePolicy_of_new (fun r hr => ?_) hhistory, .of_stagePolicyJobs hjobs⟩
    exact (Nat.lt_succ_of_le (hn r hr)).ne

theorem Inv.initializePolicyGate (h : Inv s) (hu : s.holder = .unbound)
    (hh : ensureInitialPolicyHistory s.disk.history s.policy (boundary s.nextSeq) = some history) :
    Inv { s with
      durableSeq := s.nextSeq, holder := .free, disk := { s.disk with history } } := by
  have hsync : Synced s := by have := h.held; rwa [Held, hu] at this
  have hpos := h.durable.left.trans_le h.durable.right
  rw [ensureInitialPolicyHistory] at hh
  rcases h.latest with ⟨hnil, _, hev⟩ | hlast
  · -- The first entry of the history, for the policy the store was opened with.
    rw [hnil, find?_nil] at hh
    have hnew : ∀ r' ∈ ([] : List (Recorded Collections)), r'.revision ≠ s.policy.revision := nofun
    obtain rfl := stagePolicy_of_new hnew hh
    have hrec := h.record (r := ⟨s.policy, boundary s.nextSeq⟩) (hev ▸ nofun) (hnil ▸ nofun) rfl
    exact {
      seqs := h.seqs
      sorted := h.sorted
      durable := ⟨hpos, le_refl _⟩
      policy := h.policy
      jobs := h.jobs
      held := hsync
      latest := .inr (by rw [hsync.left]; rfl)
      recorded := by
        intro r hr
        obtain rfl := mem_singleton.mp hr
        exact ⟨hsync.left ▸ le_refl _, Nat.lt_of_succ_le hrec.left.right.le, hrec.left.left⟩
      ordered := pairwise_singleton _ _ }
  · -- The history has the policy already.
    have ⟨last, hl, hrev⟩ := map_eq_some_iff.mp hlast
    have hmem := mem_of_getLast? hl
    have hcur : last.revision = s.policy.revision := hsync.left ▸ hrev
    have hfind : (s.disk.history.find? (·.revision = s.policy.revision)).isSome :=
      find?_isSome.mpr ⟨last, hmem, decide_eq_true hcur⟩
    have ⟨prior, hprior⟩ := isSome_iff_exists.mp hfind
    rw [hprior] at hh
    dsimp only at hh
    split at hh
    case isFalse => exact nomatch hh
    case isTrue =>
      cases hh
      exact {
        seqs := h.seqs
        sorted := h.sorted
        durable := ⟨hpos, le_refl _⟩
        policy := h.policy
        jobs := h.jobs
        held := hsync
        latest := .inr hlast
        recorded := fun r hr => have ⟨hle, hb, hex⟩ := h.recorded r hr
          ⟨hle, hb.trans_le h.durable.right, hex⟩
        ordered := h.ordered }

omit [DecidableEq Collections] in
theorem Inv.append {policy} (h : Inv s) (ha : s.holder = .admitted policy) :
    Inv { s with
      events := s.events ++ [⟨s.nextSeq, policy.revision⟩], nextSeq := s.nextSeq + 1 } := by
  have ⟨hp, hsync⟩ : policy = s.policy ∧ Synced s := by have := h.held; rwa [Held, ha] at this
  subst hp
  have hpos := h.durable.left.trans_le h.durable.right
  exact {
    seqs := forall_mem_append.mpr ⟨fun e he => ⟨(h.seqs e he).left,
      Nat.lt_succ_of_lt (h.seqs e he).right⟩, forall_mem_singleton.mpr ⟨hpos, Nat.lt_succ_self _⟩⟩
    sorted := by
      refine pairwise_append.mpr ⟨h.sorted, pairwise_singleton _ _, fun e he e' he' => ?_⟩
      obtain rfl := mem_singleton.mp he'
      exact ⟨(h.seqs e he).right, h.policy e he⟩
    durable := ⟨h.durable.left, Nat.le_succ_of_le h.durable.right⟩
    policy := forall_mem_append.mpr ⟨h.policy, forall_mem_singleton.mpr (le_refl _)⟩
    jobs := h.jobs
    held := by rw [Held, ha]; exact ⟨rfl, hsync⟩
    latest := .inr (h.last_recorded (ha ▸ nofun))
    recorded := by
      intro r hr
      have ⟨hle, hb, hex⟩ := h.recorded r hr
      -- The row is past every boundary, which are all durable, and of the latest revision.
      refine ⟨hle, hb, forall_mem_append.mpr ⟨hex, forall_mem_singleton.mpr ⟨?_, ?_⟩⟩⟩
      · exact fun hle => absurd (hb.trans_le h.durable.right) hle.not_gt
      · exact fun _ => hsync.left ▸ hle
    ordered := h.ordered }

theorem Inv.commit (h : Inv s) (ha : s.holder = .adopting b)
    (hset : setPolicyLocked s expected collections b = some next) :
    Inv { s with holder := .committed next, disk := next } := by
  have ⟨hb, hdur, hsync⟩ : b = boundary s.nextSeq ∧ s.durableSeq = s.nextSeq ∧ Synced s := by
    have := h.held
    rwa [Held, ha] at this
  have hle (r : Recorded Collections) (hr : r ∈ s.disk.history) : r.revision ≤ s.policy.revision :=
    hsync.left ▸ (h.recorded r hr).left
  have ⟨hrev, hhist, hjobs⟩ := setPolicyLocked_eq hle hset
  have hrec := h.record (r := ⟨next.selection, b⟩)
    (fun e he => hrev ▸ Nat.lt_succ_of_le (h.policy e he))
    (fun r hr => hrev ▸ Nat.lt_succ_of_le (hle r hr)) hb
  exact {
    seqs := h.seqs
    sorted := h.sorted
    durable := h.durable
    policy := h.policy
    jobs := hjobs
    held := ⟨rfl, hrev ▸ Nat.le_succ _⟩
    latest := .inr (by dsimp only; rw [hhist, getLast?_concat]; rfl)
    recorded := by
      dsimp only
      rw [hhist]
      refine forall_mem_append.mpr ⟨fun r hr => ?_, forall_mem_singleton.mpr ?_⟩
      · have ⟨_, hpos, hex⟩ := h.recorded r hr
        exact ⟨hrev ▸ Nat.le_succ_of_le (hle r hr), hpos, hex⟩
      · exact ⟨le_refl _, hdur ▸ Nat.lt_of_succ_le hrec.left.right.le, hrec.left.left⟩
    ordered := by dsimp only; rw [hhist]; exact hrec.right }

section

omit [DecidableEq Collections]

theorem Inv.publish (h : Inv s) (hc : s.holder = .committed next) :
    Inv { s with holder := .free, policy := next.selection, data := next.jobs } := by
  have ⟨hn, hle⟩ : next = s.disk ∧ s.policy.revision ≤ s.disk.selection.revision := by
    have := h.held
    rwa [Held, hc] at this
  subst hn
  exact {
    seqs := h.seqs
    sorted := h.sorted
    durable := h.durable
    policy := fun e he => (h.policy e he).trans hle
    jobs := h.jobs
    held := ⟨rfl, rfl⟩
    latest := .inr (h.last_recorded (hc ▸ nofun))
    recorded := h.recorded
    ordered := h.ordered }

theorem Inv.policy_le (h : Inv s) : s.policy.revision ≤ s.disk.selection.revision := by
  have hheld := h.held
  rw [Held] at hheld
  split at hheld
  · exact hheld.left ▸ le_refl _
  · exact hheld.left ▸ le_refl _
  · exact hheld.right.left ▸ le_refl _
  · exact hheld.right.right.left ▸ le_refl _
  · exact hheld.right

-- The rows that are lost are past every boundary.
theorem Inv.crash (h : Inv s) : Inv { s with
    events := s.events.filter (·.seq < s.durableSeq)
    nextSeq := s.durableSeq
    holder := .unbound
    policy := s.disk.selection
    data := s.disk.jobs.resumePersistedJobs
    disk := { s.disk with jobs := s.disk.jobs.resumePersistedJobs } } where
  seqs e he := by
    have ⟨he, hlt⟩ := mem_filter.mp he
    exact ⟨(h.seqs e he).left, of_decide_eq_true hlt⟩
  sorted := h.sorted.filter _
  durable := ⟨h.durable.left, le_refl _⟩
  policy e he := (h.policy e (mem_filter.mp he).left).trans h.policy_le
  jobs := h.jobs.resumePersistedJobs
  held := ⟨rfl, rfl⟩
  latest := h.latest.imp (fun ⟨hh, _, he⟩ => ⟨hh, rfl, by dsimp only; rw [he]; rfl⟩) id
  recorded r hr := have ⟨hle, hb, hex⟩ := h.recorded r hr
    ⟨hle, hb, fun e he => hex e (mem_filter.mp he).left⟩
  ordered := h.ordered

end

theorem Inv.step (h : Inv s) (e : Step s s') : Inv s' := by
  have hheld := h.held
  rw [Held] at hheld
  cases e with
  | initializePolicyGate hu hh => exact h.initializePolicyGate hu hh
  | append ha => exact h.append ha
  | commit expected coll ha hset => exact h.commit ha hset
  | publish hc => exact h.publish hc
  | crash => exact h.crash
  | enter hf =>
    rw [hf] at hheld
    exact { h with
      held := ⟨rfl, hheld⟩
      latest := .inr (h.last_recorded (hf ▸ nofun)) }
  | leave ha =>
    rw [ha] at hheld
    exact { h with
      held := hheld.right
      latest := .inr (h.last_recorded (ha ▸ nofun)) }
  | abandon ha =>
    rw [ha] at hheld
    exact { h with
      held := hheld.right.right
      latest := .inr (h.last_recorded (ha ▸ nofun)) }
  | adopt hf =>
    rw [hf] at hheld
    exact { h with
      durable := ⟨h.durable.left.trans_le h.durable.right, le_refl _⟩
      held := ⟨rfl, rfl, hheld⟩
      latest := .inr (h.last_recorded (hf ▸ nofun))
      recorded := fun r hr => have ⟨hle, hb, hex⟩ := h.recorded r hr
        ⟨hle, hb.trans_le h.durable.right, hex⟩ }
  | flush seq hle hle' =>
    exact { h with
      durable := ⟨h.durable.left.trans_le hle, hle'⟩
      held := by
        cases hh : s.holder with
        | adopting b =>
          rw [hh] at hheld
          exact ⟨hheld.left, le_antisymm hle' (hheld.right.left ▸ hle), hheld.right.right⟩
        | _ => rw [hh] at hheld; exact hheld
      recorded := fun r hr => have ⟨hr, hb, hex⟩ := h.recorded r hr
        ⟨hr, hb.trans_le hle, hex⟩ }

theorem Inv.of_reachable (h : (system Pds Collections).Reachable s) : Inv s :=
  h.invariant (fun _ => .of_initial) fun _ _ _ => .step

-- From the first entry of the history on the disk is at one revision, after a restart as well.
theorem policy_boundaries (h : (system Pds Collections).Reachable s) :
    (s.events.Pairwise fun e e' => e.seq < e'.seq ∧ e.revision ≤ e'.revision) ∧
    (∀ e ∈ s.events, 0 < e.seq) ∧
    (∀ r ∈ s.disk.history, Exact r.revision r.effectiveAfterSeq s.events) ∧
    (s.disk.history.Pairwise fun r r' => r.revision < r'.revision ∧
      position r.effectiveAfterSeq ≤ position r'.effectiveAfterSeq) ∧
    (s.holder = .unbound ∧ s.disk.history = [] ∨ s.disk.AtOneRevision) ∧
    (s.holder = .free → Synced s) := by
  have hi := Inv.of_reachable h
  refine ⟨hi.sorted, fun e he => (hi.seqs e he).left, fun r hr => (hi.recorded r hr).right.right,
    hi.ordered, ?_, fun hf => ?_⟩
  · exact hi.latest.imp (fun ⟨hnil, hu, _⟩ => ⟨hu, hnil⟩) fun hlast => ⟨hi.jobs, hlast⟩
  · have := hi.held
    rwa [Held, hf] at this

-- A store as it is opened first, and one with a row on either side of a change of the policy.
def sampleInitial : State Bool Bool where
  events := []
  nextSeq := 1
  durableSeq := 1
  holder := .unbound
  policy := ⟨1, false⟩
  data := ⟨∅, fun _ => 0, fun _ => 0, []⟩
  disk := ⟨⟨1, false⟩, ⟨∅, fun _ => 0, fun _ => 0, []⟩, []⟩

def sampleState : State Bool Bool where
  events := [⟨1, 1⟩, ⟨2, 2⟩]
  nextSeq := 3
  durableSeq := 2
  holder := .free
  policy := ⟨2, true⟩
  data := ⟨∅, fun _ => 0, fun _ => 0, []⟩
  disk := ⟨⟨2, true⟩, ⟨∅, fun _ => 0, fun _ => 0, []⟩, [⟨⟨1, false⟩, none⟩, ⟨⟨2, true⟩, some 1⟩]⟩

theorem sampleState_reachable : (system Bool Bool).Reachable sampleState := by
  have h₀ : (system Bool Bool).Reachable sampleInitial :=
    .init ⟨rfl, Nat.one_pos, rfl, rfl, rfl, rfl, ⟨nofun, nofun⟩, rfl⟩
  have h₁ := h₀.step (.initializePolicyGate rfl rfl)
  have h₂ := ((h₁.step (.enter rfl)).step (.append rfl)).step (.leave rfl)
  have h₃ := (h₂.step (.adopt rfl)).step (.commit 1 true rfl rfl)
  exact (((h₃.step (.publish rfl)).step (.enter rfl)).step (.append rfl)).step (.leave rfl)

theorem policy_boundaries_sample :
    (system Bool Bool).Reachable sampleState ∧ Exact 2 (some 1) sampleState.events ∧
      sampleState.disk.AtOneRevision :=
  have ⟨_, _, hexact, _, hone, _⟩ := policy_boundaries sampleState_reachable
  ⟨sampleState_reachable, hexact ⟨⟨2, true⟩, some 1⟩ (by decide), hone.resolve_left (nomatch ·.left)⟩

end Jetstream.Adoption
