import HypercertsRelay.Jetstream.Ingest.Fence

-- A call for a snapshot after an earlier one scans, plans and prepares as that did, without the
-- paths that are written.
namespace Jetstream.Ingest

open List Except
open Tombstone SnapshotArchiveState AttributionMetadata

def AttributionMetadata.renumber (n : ℕ) (m : AttributionMetadata) : AttributionMetadata :=
  { m with boundary.seq := m.boundary.seq.map fun _ => n }

-- Recovery leaves no prepared coordinate, and the numbers of a batch are new, so the store's answer
-- does not depend on them.
def Config.Renumbers (cfg : Config) : Prop :=
  ∀ a ∈ cfg.attribution, ∀ m ev n seq, 0 < seq → a.prepareSegment m ev = .ok () →
    a.prepareSegment (m.renumber n) { ev with seq } = .ok ()

section Scan

variable {s t : SnapshotArchiveState}

-- What the scan makes of rows that others, or an earlier call for the same snapshot, have written.
structure Resumes (snapshot : Snapshot) (more : List Event) (s t : SnapshotArchiveState) :
    Prop where
  syncRev : t.syncRev = s.syncRev
  accountUnavailable : t.accountUnavailable = s.accountUnavailable
  kept : ∀ p, (∀ n ∈ more, n.did = snapshot.did → n.path ≠ p) →
    t.latest.lookup p = s.latest.lookup p
  raised : ∀ n ∈ more, n.did = snapshot.did →
    ∃ v, t.latest.lookup n.path = some v ∧ snapshot.rev ≤ v.rev

theorem observe_of_covers (h : snap.Covers row) :
    s.observe c snap row = .ok (s.observeRecord row) := by
  have ⟨hd, hc, hm⟩ := h
  have ha : ¬(row.kind = .account ∧ s.accountSeq < row.seq) := by
    intro ha
    rw [ha.left] at hc
    cases hc
  have hs : ¬(row.kind = .sync ∧ s.syncRev < row.rev) := by
    intro hs
    rw [hs.left] at hc
    cases hc
  rw [observe, if_neg (not_not.mpr hd)]
  refine bind_eq_ok.mpr ⟨s, if_neg ha, ?_⟩
  exact bind_eq_ok.mpr ⟨s, if_neg hs, if_pos ⟨hc, hm⟩⟩

theorem observeRecord_accountUnavailable :
    (s.observeRecord row).accountUnavailable = s.accountUnavailable := by
  unfold observeRecord
  repeat' split
  all_goals rfl

theorem observeRecord_lookup_ne (h : row.path ≠ p) :
    (s.observeRecord row).latest.lookup p = s.latest.lookup p := by
  unfold observeRecord
  repeat' split
  all_goals first | rfl | exact AList.lookup_insert_ne h.symm

theorem Resumes.other (h : Resumes snap more s t) (hd : row.did ≠ snap.did) :
    Resumes snap (more ++ [row]) s t where
  syncRev := h.syncRev
  accountUnavailable := h.accountUnavailable
  kept p hp := h.kept p fun n hn => hp n (mem_append_left _ hn)
  raised n hn hdn := by
    obtain hn | hn := mem_append.mp hn
    · exact h.raised n hn hdn
    · exact absurd (mem_singleton.mp hn ▸ hdn) hd

theorem lookup_observeRecord_self (s : SnapshotArchiveState) (row : Event) :
    ∃ v, (s.observeRecord row).latest.lookup row.path = some v ∧ row.rev ≤ v.rev ∧
      ∀ old, s.latest.lookup row.path = some old → old.rev ≤ v.rev := by
  unfold observeRecord
  split
  case h_1 old hl =>
    split
    case isTrue hr =>
      refine ⟨_, AList.lookup_insert _, le_refl _, fun old' hl' => ?_⟩
      cases hl.symm.trans hl'
      exact hr.elim le_of_lt (·.left.ge)
    case isFalse hr =>
      refine ⟨old, hl, ?_, fun old' hl' => ?_⟩
      · exact le_of_not_gt fun hlt => hr (.inl hlt)
      · cases hl.symm.trans hl'
        exact le_refl _
  case h_2 hl =>
    refine ⟨_, AList.lookup_insert _, le_refl _, fun old hl' => ?_⟩
    cases hl.symm.trans hl'

theorem Resumes.record (h : Resumes snap more s t) (hr : row.rev = snap.rev)
    (hd : row.did = snap.did) : Resumes snap (more ++ [row]) s (t.observeRecord row) where
  syncRev := (observeRecord_syncRev t row).trans h.syncRev
  accountUnavailable := observeRecord_accountUnavailable.trans h.accountUnavailable
  kept p hp := by
    rw [observeRecord_lookup_ne (hp row (by simp) hd)]
    exact h.kept p fun n hn => hp n (mem_append_left _ hn)
  raised n hn hdn := by
    have ⟨v, hv, hle, hold⟩ := lookup_observeRecord_self t row
    by_cases hp : row.path = n.path
    · exact ⟨v, hp ▸ hv, hr ▸ hle⟩
    · rw [observeRecord_lookup_ne hp]
      obtain hn | hn := mem_append.mp hn
      · exact h.raised n hn hdn
      · exact absurd (congrArg Event.path (mem_singleton.mp hn)).symm hp

theorem scanSnapshotArchive_concat (h : scanSnapshotArchive c rows snap = .ok s)
    (hr : s.observe c snap row = .ok t) :
    scanSnapshotArchive c (rows ++ [row]) snap = .ok t := by
  refine mapError_eq_ok.mpr ?_
  rw [foldlM_append]
  refine bind_eq_ok.mpr ⟨s, mapError_eq_ok.mp h, ?_⟩
  exact bind_eq_ok.mpr ⟨t, hr, rfl⟩

theorem exists_resumes (h : scanSnapshotArchive c rows snap = .ok s)
    (hm : ∀ row ∈ more, row.did = snap.did → snap.Covers row ∧ row.rev = snap.rev) :
    ∃ t, scanSnapshotArchive c (rows ++ more) snap = .ok t ∧ Resumes snap more s t := by
  induction more using List.reverseRecOn with
  | nil => exact ⟨s, by rwa [append_nil], rfl, rfl, fun _ _ => rfl, nofun⟩
  | append_singleton more row ih =>
    have ⟨t, ht, hr⟩ := ih fun row hr => hm row (mem_append_left _ hr)
    rw [←append_assoc]
    by_cases hd : row.did = snap.did
    · have ⟨hcov, hrev⟩ := hm row (by simp) hd
      exact ⟨_, scanSnapshotArchive_concat ht (observe_of_covers hcov), hr.record hrev hd⟩
    · exact ⟨t, scanSnapshotArchive_concat ht (if_pos hd), hr.other hd⟩

end Scan

section Plan

variable {s t : SnapshotArchiveState} {archive rows rows' more : List Event}

theorem Scanned.key_eq_path (h : Scanned c snap archive s)
    (hl : s.latest.lookup key = some old) : key = old.path := by
  have ⟨row, _, _, hp, he⟩ := h.sound hl
  rw [he, ←hp]
  rfl

def Untouched (snapshot : Snapshot) (more : List Event) (path : String) : Prop :=
  ∀ n ∈ more, n.did = snapshot.did → n.path ≠ path

section

variable (h : Resumes snap more s t)

include h

theorem Resumes.untouched_of_lt (hp : ∀ v, t.latest.lookup p = some v → v.rev < snap.rev) :
    Untouched snap more p := by
  intro n hn hd he
  have ⟨v, hv, hle⟩ := h.raised n hn hd
  exact absurd (hp v (he ▸ hv)) hle.not_gt

theorem Resumes.outdated_iff (hr : r.rev = snap.rev) :
    Outdated t r ↔ Outdated s r ∧ Untouched snap more r.path := by
  constructor
  · intro ho
    have hu : Untouched snap more r.path := h.untouched_of_lt fun v hv => hr ▸ ho v hv
    exact ⟨fun old hold => ho old (h.kept _ hu ▸ hold), hu⟩
  · intro ⟨ho, hu⟩ old hold
    exact ho old (h.kept _ hu ▸ hold)

theorem Resumes.missing_iff (hs : Scanned c snap archive s) {keys} :
    Missing t snap keys old ↔ Missing s snap keys old ∧ Untouched snap more old.path := by
  constructor
  · intro ⟨key, hl, hk, hd, hlt, hsync⟩
    have hu : Untouched snap more key := h.untouched_of_lt fun v hv => by
      cases hl.symm.trans hv
      exact hlt
    rw [h.kept _ hu] at hl
    exact ⟨⟨key, hl, hk, hd, hlt, h.syncRev ▸ hsync⟩, hs.key_eq_path hl ▸ hu⟩
  · intro ⟨⟨key, hl, hk, hd, hlt, hsync⟩, hu⟩
    refine ⟨key, ?_, hk, hd, hlt, h.syncRev ▸ hsync⟩
    rw [h.kept _ (hs.key_eq_path hl ▸ hu), hl]

-- The second call plans the rows of the first one that are not in the archive.
theorem Resumes.mem_iff (hs : Scanned c snap archive s)
    (hp : Planned s snap rows) (hp' : Planned t snap rows') (row : Event) :
    row ∈ rows' ↔ row ∈ rows ∧ Untouched snap more row.path := by
  rw [hp.rows, hp'.rows, or_and_right]
  refine or_congr ?_ ?_
  · constructor
    · intro ⟨r, hr, ho, he⟩
      have ⟨ho, hu⟩ := (h.outdated_iff (inside_of_not_outside (hp.inside r hr)).rev).mp ho
      exact ⟨⟨r, hr, ho, he⟩, he ▸ hu⟩
    · intro ⟨⟨r, hr, ho, he⟩, hu⟩
      subst he
      exact ⟨r, hr, (h.outdated_iff (inside_of_not_outside (hp.inside r hr)).rev).mpr ⟨ho, hu⟩, rfl⟩
  · constructor
    · intro ⟨old, hm, he⟩
      have ⟨hm, hu⟩ := (h.missing_iff hs).mp hm
      exact ⟨⟨old, hm, he⟩, he ▸ hu⟩
    · intro ⟨⟨old, hm, he⟩, hu⟩
      subst he
      exact ⟨old, (h.missing_iff hs).mpr ⟨hm, hu⟩, rfl⟩

end

-- Whether a record is accepted does not depend on the archive.
theorem exists_planRecord {keys keys'}
    (h : s.planRecord snap (keys, l) r = .ok (keys', l')) (t : SnapshotArchiveState)
    (m : List Event) : ∃ m', t.planRecord snap (keys, m) r = .ok (keys', m') := by
  unfold planRecord at h ⊢
  split at h
  · cases h
  case isFalse hout =>
    split at h
    · cases h
    case isFalse hdup =>
      have hk : keys' = r.path :: keys := by
        repeat' split at h
        all_goals exact (Prod.mk.inj (Except.ok.inj h)).left.symm
      rw [if_neg hout, if_neg hdup, hk]
      repeat' split
      all_goals exact ⟨_, rfl⟩

theorem exists_planRecords {records : List Event} {keys keys'}
    (h : records.foldlM (s.planRecord snap) (keys, l) = .ok (keys', l'))
    (t : SnapshotArchiveState) (m : List Event) :
    ∃ m', records.foldlM (t.planRecord snap) (keys, m) = .ok (keys', m') := by
  induction records generalizing keys l m with
  | nil =>
    cases h
    exact ⟨m, rfl⟩
  | cons r records ih =>
    have ⟨⟨keys₁, l₁⟩, h₁, h⟩ := bind_eq_ok.mp h
    have ⟨m₁, hm₁⟩ := exists_planRecord h₁ t m
    have ⟨m', hm'⟩ := ih h m₁
    exact ⟨m', bind_eq_ok.mpr ⟨_, hm₁, hm'⟩⟩

theorem planReplacement_valid (h : s.planReplacement snap = .ok rows) :
    ∀ row ∈ rows, validateEvent row = .ok () := by
  have ⟨_, _, h⟩ := bind_eq_ok.mp h
  have ⟨_, hv, h⟩ := bind_eq_ok.mp h
  cases h
  exact forM_eq_ok.mp hv

theorem Resumes.exists_plan (h : Resumes snap more s t) (hs : Scanned c snap archive s)
    (hp : s.planReplacement snap = .ok rows) :
    ∃ rows', t.planReplacement snap = .ok rows' ∧
      ∀ row, row ∈ rows' ↔ row ∈ rows ∧ Untouched snap more row.path := by
  have ⟨plan, hplan, _⟩ := bind_eq_ok.mp hp
  have ⟨m, hm⟩ := exists_planRecords hplan t []
  have hmem := h.mem_iff hs (planReplacement_planned hp) (planned_of_records hm)
  refine ⟨_, bind_eq_ok.mpr ⟨_, hm, bind_eq_ok.mpr ⟨(), ?_, rfl⟩⟩, hmem⟩
  exact forM_eq_ok.mpr fun row hr => planReplacement_valid hp row ((hmem row).mp hr).left

-- At most one row is planned for a path.
theorem Planned.eq_of_path (h : Planned s snap rows) (hs : Scanned c snap archive s)
    (ha : a ∈ rows) (hb : b ∈ rows) (hp : a.path = b.path) : a = b := by
  have hrec {r old} (hr : r ∈ snap.records)
      (hm : Missing s snap snap.keys old) : r.path ≠ old.path := by
    intro he
    have ⟨key, hl, hk, _⟩ := hm
    exact hk (.inr ⟨r, hr, he.trans (hs.key_eq_path hl).symm⟩)
  rcases (h.rows a).mp ha with ⟨r, hr, _, rfl⟩ | ⟨old, hm, rfl⟩ <;>
    rcases (h.rows b).mp hb with ⟨r', hr', _, rfl⟩ | ⟨old', hm', rfl⟩
  · have hsymm : Std.Symm fun a b : Event => a.path ≠ b.path := ⟨fun _ _ h => h.symm⟩
    by_contra hne
    exact h.distinct.forall hr hr' (fun he => hne (congrArg updateRow he)) hp
  · exact absurd (show r.path = old'.path from hp) (hrec hr hm')
  · exact absurd (show r'.path = old.path from hp.symm) (hrec hr' hm)
  have ⟨key, hl, _⟩ := hm
  have ⟨key', hl', _⟩ := hm'
  have : key = key' := (hs.key_eq_path hl).trans (hp.trans (hs.key_eq_path hl').symm)
  subst this
  cases hl.symm.trans hl'
  rfl

end Plan

section Metadata

variable {m : AttributionMetadata}

theorem Boundary.renumber_self (b : Boundary) (n : ℕ) :
    { b with seq := b.seq.map fun _ => b.seq.getD n } = b := by
  match b with
  | ⟨none, _⟩ | ⟨some _, _⟩ => rfl

theorem validate_renumber (n k : ℕ) : (m.renumber n).validate k = m.validate k := by
  simp [validate, renumber]

theorem validate_pos (h : 0 < n) : m.validate n = m.validate 1 := by
  simp [validate, h.ne']

theorem validateSegment_renumber (h : m.validateSegment ev = .ok ()) (hseq : 0 < seq) (n : ℕ) :
    (m.renumber n).validateSegment { ev with seq } = .ok () := by
  unfold validateSegment at h ⊢
  split at h
  · cases h
  case isFalse hn =>
    simp only [not_or] at hn
    rw [validate_pos (Nat.pos_of_ne_zero hn.right.left)] at h
    rw [if_neg (by simp only [not_or]; exact ⟨hn.left, hseq.ne', hn.right.right⟩), validate_renumber,
      validate_pos hseq]
    exact h

theorem exists_prepareSnapshotMetadata (w₂ : Writer)
    (h : prepareSnapshotMetadata w snap = .ok metadata) :
    ∃ n, prepareSnapshotMetadata w₂ snap = .ok (metadata.map (·.renumber n)) := by
  unfold prepareSnapshotMetadata at h ⊢
  cases hm : snap.appendMetadata with
  | none =>
    rw [hm] at h
    cases h
    exact ⟨0, rfl⟩
  | some m =>
    rw [hm] at h
    have ⟨_, hv, h⟩ := bind_eq_ok.mp h
    cases h
    refine ⟨m.boundary.seq.getD w₂.nextSeq, ?_⟩
    simp only [Option.map_some]
    by_cases hp : m.provenance = .snapshot ∨ m.provenance = .reconciliation
    · rw [if_pos hp] at hv ⊢
      exact bind_eq_ok.mpr ⟨(), hv, by rw [if_pos hp]; rfl⟩
    · rw [if_neg hp] at hv ⊢
      refine bind_eq_ok.mpr ⟨(), hv, ?_⟩
      rw [if_neg hp, renumber, Boundary.renumber_self]
      rfl

theorem checkMetadata_renumber (h : Writer.checkMetadata metadata = .ok ()) (n : ℕ) :
    Writer.checkMetadata (metadata.map (·.renumber n)) = .ok () := by
  cases metadata with
  | none => rfl
  | some m => exact h

theorem validateCandidate_renumber (h : Writer.validateCandidate cfg ev k metadata = .ok ())
    (hseq : 0 < seq) (n : ℕ) :
    Writer.validateCandidate cfg ev seq (metadata.map (·.renumber n)) = .ok () := by
  cases metadata with
  | none => rfl
  | some m =>
    unfold Writer.validateCandidate at h ⊢
    simp only [Option.map_some] at h ⊢
    split at h
    · cases h
    case isFalse hsrc =>
      rw [if_neg (by exact hsrc)]
      exact mapError_eq_ok.mpr (validateSegment_renumber (mapError_eq_ok.mp h) hseq n)

theorem prepareAttribution_renumber (hcfg : cfg.Renumbers)
    (h : Writer.prepareAttribution cfg ev metadata = .ok ()) (hseq : 0 < seq) (n : ℕ) :
    Writer.prepareAttribution cfg { ev with seq } (metadata.map (·.renumber n)) = .ok () := by
  unfold Writer.prepareAttribution at h ⊢
  cases ha : cfg.attribution with
  | none => cases metadata <;> rfl
  | some a =>
    cases metadata with
    | none => rfl
    | some m =>
      rw [ha] at h
      have hok := hcfg a ha m ev n seq hseq (mapError_eq_ok.mp h)
      exact mapError_eq_ok.mpr hok

end Metadata

section Batch

variable {cfg : Config} {w : Writer} {metadata : Option AttributionMetadata}

-- What a row that is appended has to pass.
structure Accepted (cfg : Config) (metadata : Option AttributionMetadata) (ev : Event) (n : ℕ) :
    Prop where
  validate : Writer.validateCandidate cfg ev n metadata = .ok ()
  prepare : Writer.prepareAttribution cfg { ev with seq := n } metadata = .ok ()

theorem exists_snapshotSupersedes (w : Writer) (hc : ev.kind.isCommit) :
    ∃ b, w.snapshotSupersedes cfg ev metadata = .ok b := by
  unfold Writer.snapshotSupersedes
  split
  · exact ⟨_, rfl⟩
  · split
    · exact ⟨_, rfl⟩
    · exact ⟨_, rfl⟩

theorem batchCandidate_accepted (hc : ev.kind.isCommit)
    (h : w.batchCandidate cfg ev n metadata = .ok candidate) (ha : w.allows ev)
    (hf : ¬w.Fenced ev) : Writer.validateCandidate cfg ev n metadata = .ok () := by
  unfold Writer.batchCandidate at h
  rw [ha] at h
  have ⟨b, hb, h⟩ := bind_eq_ok.mp h
  have hb' : b = false := by
    rw [←Bool.not_eq_true]
    exact (snapshotSupersedes_iff hc hb).not.mpr hf
  subst hb'
  have ⟨_, hv, _⟩ := bind_eq_ok.mp h
  exact hv

theorem exists_batchCandidate (hc : ev.kind.isCommit)
    (h : w.allows ev → ¬w.Fenced ev → Writer.validateCandidate cfg ev n metadata = .ok ()) :
    ∃ candidate, w.batchCandidate cfg ev n metadata = .ok candidate := by
  have ⟨b, hb⟩ := @exists_snapshotSupersedes cfg metadata ev w hc
  unfold Writer.batchCandidate
  split
  · exact ⟨none, rfl⟩
  case isFalse ha =>
    have hiff := snapshotSupersedes_iff hc hb
    cases b with
    | true => exact ⟨none, bind_eq_ok.mpr ⟨true, hb, rfl⟩⟩
    | false =>
      have hv := h (by simpa using ha) (by simpa using hiff)
      exact ⟨_, bind_eq_ok.mpr ⟨false, hb, bind_eq_ok.mpr ⟨(), hv, rfl⟩⟩⟩

-- The candidates of a batch and what they have passed.
structure Prepared (cfg : Config) (w : Writer) (metadata : Option AttributionMetadata)
    (events candidates : List Event) : Prop extends Admitted w events candidates where
  number : ∀ c ∈ candidates, w.nextSeq ≤ c.seq
  validate : ∀ ev ∈ events, w.allows ev → ¬w.Fenced ev → ∃ n,
    Writer.validateCandidate cfg ev n metadata = .ok () ∧ { ev with seq := n } ∈ candidates

theorem Prepared.empty : Prepared cfg w metadata [] [] :=
  ⟨⟨by simp, by simp⟩, by simp, by simp⟩

theorem Prepared.prepareBatchCandidate
    (h : Prepared cfg w metadata events candidates) (hc : ev.kind.isCommit)
    (hp : w.prepareBatchCandidate cfg metadata candidates ev = .ok candidates') :
    Prepared cfg w metadata (events ++ [ev]) candidates' := by
  refine ⟨h.toAdmitted.prepareBatchCandidate hc hp, ?_, ?_⟩
  all_goals
    have ⟨_, _, hp⟩ := bind_eq_ok.mp hp
    have ⟨candidate, hcand, hp⟩ := bind_eq_ok.mp hp
  · obtain hn | hs := batchCandidate_iff hc hcand
    · rw [hn.left] at hp
      cases hp
      exact h.number
    rw [hs.left] at hp
    cases hp
    intro c hm
    obtain hm | hm := mem_append.mp hm
    · exact h.number c hm
    · exact mem_singleton.mp hm ▸ Nat.le_add_right _ _
  · have hsub : ∀ c ∈ candidates, c ∈ candidates' := by
      cases candidate <;> cases hp
      · exact fun _ => id
      · exact fun _ => mem_append_left _
    intro ev' hev' ha hf
    obtain hev' | hev' := mem_append.mp hev'
    · have ⟨n, hv, hn⟩ := h.validate ev' hev' ha hf
      exact ⟨n, hv, hsub _ hn⟩
    cases mem_singleton.mp hev'
    refine ⟨_, batchCandidate_accepted hc hcand ha hf, ?_⟩
    obtain hn | hs := batchCandidate_iff hc hcand
    · exact absurd ⟨ha, hf⟩ hn.right
    · rw [hs.left] at hp
      cases hp
      simp

theorem foldlM_prepared (hc : ∀ ev ∈ events, ev.kind.isCommit)
    (h : events.foldlM (w.prepareBatchCandidate cfg metadata) [] = .ok candidates) :
    Prepared cfg w metadata events candidates :=
  foldlM_invariant .empty (fun _ ev _ _ hev h hp => h.prepareBatchCandidate (hc ev hev) hp) h

structure Appendable (cfg : Config) (w : Writer) (metadata : Option AttributionMetadata) :
    Prop where
  closed : w.closed = false
  managed : ¬(cfg.attribution.isSome ∧ metadata.isNone)
  metadata : Writer.checkMetadata metadata = .ok ()

theorem batchCandidates_spec (hc : ∀ ev ∈ events, ev.kind.isCommit)
    (h : w.batchCandidates cfg events metadata = .ok candidates) :
    Appendable cfg w metadata ∧ Prepared cfg w metadata events candidates ∧
      ∀ ev ∈ events, w.allows ev → ¬w.Fenced ev → ∃ n, Accepted cfg metadata ev n := by
  unfold Writer.batchCandidates at h
  split at h
  · cases h
  case isFalse hclosed =>
    split at h
    · cases h
    case isFalse hm =>
      have ⟨_, hcheck, h⟩ := bind_eq_ok.mp h
      have ⟨candidates, hfold, h⟩ := bind_eq_ok.mp h
      have ⟨_, hprep, h⟩ := bind_eq_ok.mp h
      cases h
      have hp := foldlM_prepared hc hfold
      refine ⟨⟨by simpa using hclosed, hm, hcheck⟩, hp, fun ev hev ha hf => ?_⟩
      have ⟨n, hv, hn⟩ := hp.validate ev hev ha hf
      exact ⟨n, hv, forM_eq_ok.mp hprep _ hn⟩

theorem exists_batchCandidates (hw : Appendable cfg w metadata)
    (hc : ∀ ev ∈ events, ev.kind.isCommit) (hv : ∀ ev ∈ events, validateEvent ev = .ok ())
    (ha : ∀ ev ∈ events, w.allows ev → ¬w.Fenced ev → ∀ n ≥ w.nextSeq, Accepted cfg metadata ev n) :
    ∃ candidates, w.batchCandidates cfg events metadata = .ok candidates := by
  have ⟨candidates, hfold⟩ : ∃ candidates,
      events.foldlM (w.prepareBatchCandidate cfg metadata) [] = .ok candidates := by
    refine exists_foldlM (fun ev hev l => ?_) []
    have ⟨candidate, hcand⟩ := exists_batchCandidate (hc ev hev) fun hal hf =>
      (ha ev hev hal hf (w.nextSeq + l.length) (Nat.le_add_right _ _)).validate
    refine ⟨l ++ candidate.toList, bind_eq_ok.mpr ⟨(), hv ev hev, ?_⟩⟩
    refine bind_eq_ok.mpr ⟨_, hcand, ?_⟩
    cases candidate with
    | none => exact congrArg Except.ok (append_nil l).symm
    | some c => rfl
  have hp := foldlM_prepared hc hfold
  refine ⟨candidates, ?_⟩
  unfold Writer.batchCandidates
  rw [if_neg (by simp [hw.closed]), if_neg hw.managed]
  refine bind_eq_ok.mpr ⟨(), hw.metadata, bind_eq_ok.mpr ⟨candidates, hfold, ?_⟩⟩
  refine bind_eq_ok.mpr ⟨(), forM_eq_ok.mpr fun c hcand => ?_, rfl⟩
  have ⟨ev, hev, hs, hal, hf⟩ := hp.sound c hcand
  have hok := (ha ev hev hal hf c.seq (hp.number c hcand)).prepare
  rwa [←show c = { ev with seq := c.seq } from hs] at hok

end Batch

end Jetstream.Ingest
