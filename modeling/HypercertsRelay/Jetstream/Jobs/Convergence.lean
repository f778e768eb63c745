import HypercertsRelay.Jetstream.Jobs.Commands

-- The commands with the highest revision decide.
namespace Jetstream.Jobs

open List Function Manager Data

variable [DecidableEq Pds]

structure At (p : Pds) (c : Command) (d : Data Pds) : Prop where
  source : d.sources.lookup p = some (decide (c.kind = .add))
  revision : d.sourceRevisions p = c.revision
  tombstone : d.sourceTombstones p = if c.kind = .add then 0 else c.revision
  added : c.kind = .add → ∃ j ∈ d.jobs, j.pds = p ∧ j.reason = .sourceAdded ∧
    j.sourceRevision = c.revision

-- Unfinished jobs are of an enabled source and of its current revision.
def Current (p : Pds) (d : Data Pds) : Prop :=
  ∀ j ∈ d.jobs, j.pds = p → j.sourceRevision ≤ d.sourceRevisions p ∧ (j.state.unfinished →
      d.sources.lookup p = some true ∧ j.sourceRevision = d.sourceRevisions p)

section Keep

variable {p : Pds}

theorem At.of_frame (h : At p c d) (hf : Frame p d d') : At p c d' where
  source := hf.source.trans h.source
  revision := hf.revision.trans h.revision
  tombstone := hf.tombstone.trans h.tombstone
  added hk := by
    have ⟨j, hj, hp, ha, hr⟩ := h.added hk
    have ⟨i, hi, hip, hia, hir⟩ := hf.added j hj hp ha
    exact ⟨i, hi, hip, hia, hir.trans hr⟩

theorem Current.of_frame (h : Current p d) (hf : Frame p d d') : Current p d' := by
  intro j hj hp
  rw [hf.source, hf.revision]
  obtain ⟨i, hi, hip, hir, hiu⟩ | ⟨hs, hr⟩ := hf.jobs j hj hp
  · have ⟨hle, hun⟩ := h i hi hip
    exact ⟨hir ▸ hle, fun hu => hir ▸ hun (hiu hu)⟩
  · exact ⟨hr.le, fun _ => ⟨hs, hr⟩⟩

end Keep

namespace Data

variable {d : Data Pds}

theorem acknowledged_eq_none (hp : job.pds = p) (hr : job.sourceRevision = rev)
    (h : ∀ j ∈ d.jobs, j.pds = p → j.sourceRevision ≠ rev) :
    d.acknowledged p rev job = none := by
  have hfirst : (d.jobs.find? fun j => j.pds = p ∧ j.sourceRevision = rev ∧
      j.reason = .sourceAdded) = none := by
    rw [find?_eq_none]
    intro j hj he
    have he := of_decide_eq_true he
    exact h j hj he.left he.right.left
  have hsecond : (d.jobs.find? fun j => j.id = job.id) = none := by
    rw [find?_eq_none]
    intro j hj he
    have he := of_decide_eq_true he
    simp only [Job.id, Prod.mk.injEq] at he
    exact h j hj (he.left.trans hp) (he.right.right.right.trans hr)
  rw [acknowledged, hfirst, hsecond, ite_self]
  simp

theorem beginAcquisition_of_new
    (h : ∀ j ∈ d.jobs, j.pds = job.pds → j.sourceRevision ≠ job.sourceRevision) :
    d.beginAcquisition job = some { job with acquisitionGeneration := 1 } := by
  have hfold : ∀ l : List (Job Pds), (∀ j ∈ l, j ∈ d.jobs) → l.foldl (fun generation existing =>
        if existing.pds = job.pds ∧ existing.policyRevision = job.policyRevision ∧
          existing.sourceRevision = job.sourceRevision ∧
          generation < existing.acquisitionGeneration then existing.acquisitionGeneration
        else generation) 0 = 0 := by
    intro l hl
    induction l with
    | nil => rfl
    | cons j l ih =>
      have ⟨hj, hl⟩ := forall_mem_cons.mp hl
      rw [foldl_cons, if_neg fun he => h j hj he.left he.right.right.left]
      exact ih hl
  rw [beginAcquisition, hfold d.jobs fun _ h => h]
  rfl

theorem acknowledged_eq_some (job : Job Pds) (hs : d.sources.lookup p = some true)
    (hpos : 0 < rev) (hr : d.sourceRevisions p = rev)
    (h : ∃ j ∈ d.jobs, j.pds = p ∧ j.reason = .sourceAdded ∧ j.sourceRevision = rev) :
    ∃ existing, d.acknowledged p rev job = some existing := by
  have ⟨j, hj, hp, ha, hjr⟩ := h
  have hsome : (d.jobs.find? fun j => j.pds = p ∧ j.sourceRevision = rev ∧
      j.reason = .sourceAdded).isSome :=
    find?_isSome.mpr ⟨j, hj, decide_eq_true ⟨hp, hjr, ha⟩⟩
  have ⟨existing, hex⟩ := Option.isSome_iff_exists.mp hsome
  have hen : d.enabled p = true := by rw [enabled, hs]; rfl
  refine ⟨existing, ?_⟩
  rw [acknowledged, if_neg (not_not.mpr hen), if_pos ⟨hpos, hr.symm⟩, hex]
  rfl

end Data

section Commands

variable {m : Manager Pds}

theorem addSource_advances (hr : m.data.sourceRevisions p < revision)
    (ht : m.data.sourceTombstones p < revision) (hc : Current p m.data) :
    At p ⟨.add, revision⟩ (m.addSourceWithRevision p revision).2.data ∧
      Current p (m.addSourceWithRevision p revision).2.data := by
  set next := (m.data.setRevision p revision).cancelStaleSourceJobs p revision with hnext
  have hrev : next.sourceRevisions p = revision := update_self ..
  have hregister : m.data.register p revision = next := by
    rw [register, if_neg (by omega)]
    exact if_pos hr
  -- No job has the new revision yet, and the ones left of the source are finished.
  have hjobs : ∀ j ∈ next.jobs, j.pds = p → j.sourceRevision < revision ∧ ¬j.state.unfinished := by
    intro j hj hp
    obtain ⟨i, hi, rfl⟩ := mem_map.mp hj
    split at hp
    case isTrue h =>
      obtain ⟨hle, _⟩ := hc i hi hp
      have hlt := hle.trans_lt hr
      rw [if_pos h]
      obtain h | h | h := h
      · exact absurd hp h
      · exact ⟨hlt, h⟩
      · exact absurd h hlt.ne
    case isFalse h =>
      obtain ⟨hle, _⟩ := hc i hi hp
      rw [if_neg h]
      exact ⟨hle.trans_lt hr, by rintro ⟨⟩⟩
  have hnew (job : Job Pds) (hp : job.pds = p) (hj : job.sourceRevision = revision) :
      ∀ j ∈ next.jobs, j.pds = job.pds → j.sourceRevision ≠ job.sourceRevision := by
    intro j hj' hjp
    rw [hj]
    exact (hjobs j hj' (hjp.trans hp)).left.ne
  set job : Job Pds := newJob p m.policy .sourceAdded revision with hjob
  have hack : next.acknowledged p revision job = none :=
    acknowledged_eq_none rfl rfl (hnew job rfl rfl)
  have hbegin : ((next.setSource p true).setTombstone p 0).beginAcquisition job =
      some { job with acquisitionGeneration := 1 } :=
    beginAcquisition_of_new (hnew job rfl rfl)
  have htomb : (next.setSource p true).sourceTombstones p < revision := ht
  set final := ((next.setSource p true).setTombstone p 0).setJob
    { job with acquisitionGeneration := 1 } with hfinal
  have heq : (m.addSourceWithRevision p revision).2.data = final := by
    rw [addSourceWithRevision, if_neg (by omega)]
    simp only [hregister, hrev, ←hjob, hack, if_pos htomb, hbegin]
    rfl
  rw [heq]
  have hsource : final.sources.lookup p = some true := AList.lookup_insert _
  refine ⟨⟨hsource, hrev, update_self .., fun _ => ⟨_, .head _, rfl, rfl, rfl⟩⟩, ?_⟩
  intro j hj hp
  have hfrev : final.sourceRevisions p = revision := hrev
  rw [hfrev]
  obtain rfl | hj := mem_cons.mp hj
  · exact ⟨le_refl _, fun _ => ⟨hsource, rfl⟩⟩
  · obtain ⟨hlt, hun⟩ := hjobs j (mem_of_mem_filter hj) hp
    exact ⟨hlt.le, fun hu => absurd hu hun⟩

theorem removeSource_advances (hpos : 0 < revision) (hr : m.data.sourceRevisions p ≤ revision)
    (ht : m.data.sourceTombstones p ≤ revision) (hc : Current p m.data) :
    At p ⟨.remove, revision⟩ (m.removeSourceWithRevision p revision).2.data ∧
      Current p (m.removeSourceWithRevision p revision).2.data := by
  rw [removeSourceWithRevision, if_neg hpos.ne']
  rw [if_neg (by omega)]
  set next := if (m.data.setTombstone p revision).sourceRevisions p < revision then
      (m.data.setTombstone p revision).setRevision p revision
    else m.data.setTombstone p revision with hnext
  have hrev : next.sourceRevisions p = revision := by
    rw [hnext]
    split
    · exact update_self ..
    case isFalse h => exact hr.antisymm (not_lt.mp h)
  have htomb : next.sourceTombstones p = revision := by
    rw [hnext]
    split <;> exact update_self ..
  have hjobs : next.jobs = m.data.jobs := by
    rw [hnext]
    split <;> rfl
  refine ⟨⟨AList.lookup_insert _, hrev, htomb, by rintro ⟨⟩⟩, ?_⟩
  intro j hj hp
  obtain ⟨i, hi, rfl⟩ := mem_map.mp hj
  rw [show (next.setSource p false).jobs = m.data.jobs from hjobs] at hi
  have hle (hp : i.pds = p) : i.sourceRevision ≤ revision := (hc i hi hp).left.trans hr
  split at hp
  case isTrue h =>
    rw [if_pos h]
    exact ⟨(hle h.left).trans_eq hrev.symm, by rintro ⟨⟩⟩
  case isFalse h =>
    rw [if_neg h]
    exact ⟨(hle hp).trans_eq hrev.symm, fun hu => absurd ⟨hp, hu⟩ h⟩

theorem deliver_advances (hr : m.data.sourceRevisions p < c.revision)
    (ht : m.data.sourceTombstones p < c.revision) (hc : Current p m.data) :
    At p c (m.deliver p c).2.data ∧ Current p (m.deliver p c).2.data := by
  have ⟨kind, rev⟩ := c
  cases kind with
  | add => exact m.deliver_add p rev ▸ addSource_advances hr ht hc
  | remove =>
    rw [deliver_remove]
    exact removeSource_advances (Nat.zero_lt_of_lt hr) hr.le ht.le hc

-- The latest command once more, and one before it.

theorem deliver_again (hpos : 0 < c.revision) (h : At p c m.data) (hc : Current p m.data) :
    At p c (m.deliver p c).2.data ∧ Current p (m.deliver p c).2.data := by
  obtain ⟨kind, revision⟩ := c
  have hrev : m.data.sourceRevisions p = revision := h.revision
  cases kind with
  | add =>
    have htomb : m.data.sourceTombstones p = 0 := h.tombstone
    have hsame : (m.addSourceWithRevision p revision).2 = m := by
      rw [addSourceWithRevision, if_neg (by omega)]
      have hregister : m.data.register p revision = m.data.setRevision p revision := by
        rw [register, if_neg hpos.ne']
        exact if_neg hrev.ge.not_gt
      obtain ⟨_, hack⟩ := acknowledged_eq_some (d := m.data.setRevision p revision)
        (newJob p m.policy .sourceAdded ((m.data.setRevision p revision).sourceRevisions p))
        h.source hpos (update_self ..) (h.added rfl)
      simp only [hregister, hack]
    rw [deliver_add, hsame]
    exact ⟨h, hc⟩
  | remove =>
    have htomb : m.data.sourceTombstones p = revision := h.tombstone
    rw [deliver_remove]
    exact removeSource_advances hpos hrev.le htomb.le hc

theorem deliver_earlier (hr : c.revision < m.data.sourceRevisions p) (hpos : 0 < c.revision) :
    (m.deliver p c).2 = m := by
  have ⟨kind, rev⟩ := c
  cases kind with
  | add => rw [deliver_add, addSourceWithRevision, if_pos (.inr ⟨hpos, .inl hr⟩)]
  | remove =>
    rw [deliver_remove, removeSourceWithRevision, if_neg hpos.ne']
    rw [if_pos (.inl hr)]

theorem addSource_rejected (h : (m.addSourceWithRevision p rev).1 = .error e) :
    (m.addSourceWithRevision p rev).2 = m := by
  rw [addSourceWithRevision] at h ⊢
  split
  · rfl
  case isFalse hg =>
    rw [if_neg hg] at h
    simp only at h ⊢
    split
    case h_1 => rfl
    case h_2 hack =>
      rw [hack] at h
      split
      case h_1 => rfl
      case h_2 hbegin =>
        rw [hbegin] at h
        cases h

theorem removeSource_rejected (h : (m.removeSourceWithRevision p rev).1 = .error e) :
    (m.removeSourceWithRevision p rev).2 = m := by
  rw [removeSourceWithRevision] at h ⊢
  generalize (if rev = 0 then _ else rev) = rev at h ⊢
  split
  · rfl
  case isFalse hg =>
    rw [if_neg hg] at h
    cases h

theorem deliver_rejected (h : (m.deliver p c).1 = some e) : (m.deliver p c).2 = m := by
  have ⟨kind, rev⟩ := c
  cases kind with
  | add =>
    have hrejected (h : (m.addSourceWithRevision p rev).1 = .error e) := addSource_rejected h
    rw [deliver] at h ⊢
    split at h <;> simp_all
  | remove =>
    have hrejected (h : (m.removeSourceWithRevision p rev).1 = .error e) := removeSource_rejected h
    rw [deliver] at h ⊢
    split at h <;> simp_all

end Commands

section Runs

variable {m : Manager Pds} {p : Pds}

-- A document that has seen no versioned command on the source. It may have been configured.
structure Fresh (p : Pds) (d : Data Pds) : Prop where
  revision : d.sourceRevisions p = 0
  tombstone : d.sourceTombstones p = 0
  current : Current p d

def Highest (c : Command) (l : List Command) : Prop :=
  c ∈ l ∧ ∀ c' ∈ l, c'.revision ≤ c.revision

structure After (p : Pds) (l : List Command) (d : Data Pds) : Prop where
  current : Current p d
  latest : l = [] ∧ d.sourceRevisions p = 0 ∧ d.sourceTombstones p = 0 ∨ ∃ c, Highest c l ∧ At p c d

theorem After.of_frame (h : After p l d) (hf : Frame p d d') : After p l d' := by
  refine ⟨h.current.of_frame hf, ?_⟩
  obtain ⟨hl, hr, ht⟩ | ⟨c, hc, hat⟩ := h.latest
  · exact .inl ⟨hl, hf.revision.trans hr, hf.tombstone.trans ht⟩
  · exact .inr ⟨c, hc, hat.of_frame hf⟩

theorem After.command (h : After p l m.data) (hpos : ∀ c' ∈ l ++ [c], 0 < c'.revision)
    (hd : ∀ c' ∈ l ++ [c], c'.revision = c.revision → c' = c) :
    After p (l ++ [c]) (m.deliver p c).2.data := by
  have hc : c ∈ l ++ [c] := mem_append_right _ (.head _)
  have hall {c₀ : Command} (h₀ : ∀ c' ∈ l, c'.revision ≤ c₀.revision)
      (hle : c.revision ≤ c₀.revision) : ∀ c' ∈ l ++ [c], c'.revision ≤ c₀.revision := by
    intro c' hc'
    obtain hc' | hc' := mem_append.mp hc'
    · exact h₀ c' hc'
    · rwa [mem_singleton.mp hc']
  obtain ⟨rfl, hr, ht⟩ | ⟨c₀, ⟨hmem, hmax⟩, hat⟩ := h.latest
  · have hpos := hpos c hc
    have ⟨hat, hcur⟩ := deliver_advances (hr.trans_lt hpos) (ht.trans_lt hpos) h.current
    exact ⟨hcur, .inr ⟨c, ⟨hc, hall nofun le_rfl⟩, hat⟩⟩
  have hmem' : c₀ ∈ l ++ [c] := mem_append_left _ hmem
  rcases lt_trichotomy c₀.revision c.revision with hlt | heq | hgt
  · have ht : m.data.sourceTombstones p < c.revision := by
      rw [hat.tombstone]
      split
      · exact hpos c hc
      · exact hlt
    have ⟨hat, hcur⟩ := deliver_advances (hat.revision.trans_lt hlt) ht h.current
    exact ⟨hcur, .inr ⟨c, ⟨hc, hall (fun c' hc' => (hmax c' hc').trans hlt.le) le_rfl⟩, hat⟩⟩
  · obtain rfl := hd c₀ hmem' heq
    have ⟨hat, hcur⟩ := deliver_again (hpos c₀ hc) hat h.current
    exact ⟨hcur, .inr ⟨c₀, ⟨hmem', hall hmax le_rfl⟩, hat⟩⟩
  · rw [deliver_earlier (hgt.trans_eq hat.revision.symm) (hpos c hc)]
    exact ⟨h.current, .inr ⟨c₀, ⟨hmem', hall hmax hgt.le⟩, hat⟩⟩

def Versioned (l : List Command) : Prop :=
  (∀ c ∈ l, 0 < c.revision) ∧ ∀ c ∈ l, ∀ c' ∈ l, c.revision = c'.revision → c = c'

theorem Versioned.of_append (h : Versioned (l ++ l')) : Versioned l :=
  ⟨fun c hc => h.left c (mem_append_left _ hc),
   fun c hc c' hc' => h.right c (mem_append_left _ hc) c' (mem_append_left _ hc')⟩

theorem delivered_append (p : Pds) (l l' : List (Event Pds)) :
    delivered p (l ++ l') = delivered p l ++ delivered p l' :=
  filterMap_append

theorem After.run (hm : Fresh p m.data) (h : Versioned (delivered p events)) :
    After p (delivered p events) (m.run events).data := by
  induction events using List.reverseRecOn with
  | nil => exact ⟨hm.current, .inl ⟨rfl, hm.revision, hm.tombstone⟩⟩
  | append_singleton events event ih =>
    rw [delivered_append] at h ⊢
    rw [run_append]
    have ih := ih h.of_append
    cases hevent : event.command? p with
    | none =>
      have hdelivered : delivered p [event] = [] := by simp [delivered, hevent]
      rw [hdelivered, append_nil]
      exact ih.of_frame (frame_apply hevent)
    | some c =>
      have hdelivered : delivered p [event] = [c] := by simp [delivered, hevent]
      rw [hdelivered] at h ⊢
      obtain rfl : event = .command p c := by
        cases event with
        | command q c' =>
          simp only [Event.command?, Option.ite_none_right_eq_some, Option.some.injEq] at hevent
          rw [hevent.left, hevent.right]
        | _ => cases hevent
      exact ih.command h.left fun c' hc' => h.right c' hc' c (mem_append_right _ (.head _))

theorem sourceRevisions_le (hm : Fresh p m.data) (h : Versioned (delivered p (pre ++ post))) :
    (m.run pre).data.sourceRevisions p ≤ (m.run (pre ++ post)).data.sourceRevisions p := by
  have hpost := After.run hm h
  rw [delivered_append] at h hpost
  have hpre := After.run hm h.of_append
  obtain ⟨_, hr, _⟩ | ⟨c, hc, hat⟩ := hpre.latest
  · exact hr.trans_le (Nat.zero_le _)
  obtain ⟨hnil, _, _⟩ | ⟨c', hc', hat'⟩ := hpost.latest
  · rw [append_eq_nil_iff.mp hnil |>.left] at hc
    exact nomatch hc.left
  · rw [hat.revision, hat'.revision]
    exact hc'.right c (mem_append_left _ hc.left)

theorem sourceCommands_converge (hm : Fresh p m.data) (h : Versioned (delivered p events)) :
    (∀ c, Highest c (delivered p events) →
      (m.run events).data.sources.lookup p = some (decide (c.kind = .add))) ∧
    (∀ pre post, pre ++ post = events →
      (m.run pre).data.sourceRevisions p ≤ (m.run events).data.sourceRevisions p) ∧
    (∀ pre c post e, pre ++ .command p c :: post = events → ((m.run pre).deliver p c).1 = some e →
        (m.run (pre ++ [.command p c])).data = (m.run pre).data) ∧
    ¬∃ j ∈ (m.run events).data.jobs, j.pds = p ∧ j.state.unfinished ∧
      ((m.run events).data.enabled p = false ∨
        j.sourceRevision < (m.run events).data.sourceRevisions p) := by
  have hafter := After.run hm h
  refine ⟨fun c hc => ?_, fun pre post hevents => ?_, fun pre c post e _ he => ?_, ?_⟩
  · obtain ⟨hnil, _, _⟩ | ⟨c', hc', hat⟩ := hafter.latest
    · rw [hnil] at hc
      exact nomatch hc.left
    · rw [hat.source]
      have heq : c'.revision = c.revision := (hc.right c' hc'.left).antisymm (hc'.right c hc.left)
      rw [h.right c' hc'.left c hc.left heq]
  · subst hevents
    exact sourceRevisions_le hm h
  · rw [run_append]
    exact congrArg data (deliver_rejected he)
  · rintro ⟨j, hj, hp, hu, hbad⟩
    have ⟨hs, hr⟩ := (hafter.current j hj hp).right hu
    obtain hbad | hbad := hbad
    · rw [enabled, hs] at hbad
      exact nomatch hbad
    · exact hbad.ne hr

section Sample

-- The removal with revision 2 is overtaken by the later addition.
def sampleManager : Manager Bool where
  data := ⟨∅, fun _ => 0, fun _ => 0, []⟩
  policy := 1

def sampleEvents : List (Event Bool) :=
  [.command true ⟨.add, 1⟩, .claim (true, 1, .sourceAdded, 1), .command true ⟨.add, 3⟩, .restart,
   .command true ⟨.remove, 2⟩, .command true ⟨.add, 3⟩]

theorem sourceCommands_converge_sample : Highest ⟨.add, 3⟩ (delivered true sampleEvents) ∧
    (sampleManager.run sampleEvents).data.sources.lookup true = some true := by
  have hhigh : Highest ⟨.add, 3⟩ (delivered true sampleEvents) := by
    rw [Highest]
    decide
  have hversioned : Versioned (delivered true sampleEvents) := by
    rw [Versioned]
    decide
  have hfresh : Fresh true sampleManager.data := ⟨rfl, rfl, nofun⟩
  exact ⟨hhigh, (sourceCommands_converge hfresh hversioned).left _ hhigh⟩

end Sample

end Runs

end Jetstream.Jobs
