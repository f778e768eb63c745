import HypercertsRelay.Jetstream.Ingest.Resume

-- After a crash in the publication, the second call writes what the first did not get to the disk.
namespace Jetstream.Ingest

open List Except
open Tombstone SnapshotArchiveState Replay Fence

-- The writer opened after a crash in `publishSnapshotLocked`: some rows are on the disk, the
-- boundary is not.
inductive Interrupted (cfg : Config) (w : Writer) (snapshot : Snapshot) : Writer → Prop
  | crash {rows candidates metadata} (n nextSeq : ℕ)
      (h : ∀ row ∈ ((w.flush.writeBatchCandidates candidates).flushRows n).durable,
        row.seq < nextSeq) :
      0 < nextSeq → replacementRows cfg w.flush snapshot = .ok (some (rows, metadata)) →
      w.flush.batchCandidates cfg rows metadata = .ok candidates →
      Interrupted cfg w snapshot
        (((w.flush.writeBatchCandidates candidates).flushRows n).reopen nextSeq h)

-- Between the two writers only other repositories have got rows and boundaries.
structure Undisturbed (did : String) (w w' : Writer) : Prop where
  closed : w'.closed = w.closed
  rows : ∃ others, w'.rows = w.rows ++ others ∧ ∀ row ∈ others, row.did ≠ did
  boundaries : w'.boundaries.lookup did = w.boundaries.lookup did
  collectionPolicy : w'.collectionPolicy = w.collectionPolicy
  nextSeq : w.nextSeq ≤ w'.nextSeq

theorem Undisturbed.refl (did : String) (w : Writer) : Undisturbed did w w :=
  ⟨rfl, ⟨[], (append_nil _).symm, nofun⟩, rfl, rfl, le_refl _⟩

theorem Undisturbed.trans (h : Undisturbed did w w₁)
    (h' : Undisturbed did w₁ w₂) : Undisturbed did w w₂ := by
  have ⟨others, hrows, hd⟩ := h.rows
  have ⟨others', hrows', hd'⟩ := h'.rows
  refine ⟨h'.closed.trans h.closed, ⟨others ++ others', ?_, ?_⟩,
    h'.boundaries.trans h.boundaries, h'.collectionPolicy.trans h.collectionPolicy,
    h.nextSeq.trans h'.nextSeq⟩
  · rw [hrows', hrows, append_assoc]
  · exact fun row hr => (mem_append.mp hr).elim (hd row) (hd' row)

theorem undisturbed_flush (did : String) (w : Writer) : Undisturbed did w w.flush :=
  ⟨rfl, ⟨[], by rw [rows_flush, append_nil], nofun⟩, rfl, rfl, le_refl _⟩

theorem undisturbed_append (hd : ev.did ≠ did)
    (h : w.appendAttributedLocked cfg ev metadata = .ok w') : Undisturbed did w w' := by
  obtain h | h := appendAttributedLocked_spec h
  · exact h ▸ .refl did w
  · rw [h.left]
    refine ⟨rfl, ⟨_, rows_push w ev, fun row hr => ?_⟩, rfl, rfl, Nat.le_succ _⟩
    rw [mem_singleton.mp hr]
    exact hd

section Publish

variable {w w' w₂ : Writer}

-- A call that gets as far as publishing: the scan, the planned rows, and their candidates.
structure Published (cfg : Config) (w : Writer) (snapshot : Snapshot) (s : SnapshotArchiveState)
    (rows candidates : List Event) (metadata : Option AttributionMetadata) : Prop where
  scan : scanSnapshotArchive cfg.codec w.rows snapshot = .ok s
  available : s.accountUnavailable = false
  current : ¬snapshot.rev < s.syncRev
  managed : ¬(cfg.attribution.isSome ∧ snapshot.appendMetadata.isNone)
  unmanaged : ¬(snapshot.appendMetadata.isSome ∧ cfg.attribution.isNone)
  plan : s.planReplacement snapshot = .ok rows
  prepared : prepareSnapshotMetadata w.flush snapshot = .ok metadata
  batch : w.flush.batchCandidates cfg rows metadata = .ok candidates

theorem published_of_replacementRows
    (h : replacementRows cfg w.flush snap = .ok (some (rows, metadata)))
    (hb : w.flush.batchCandidates cfg rows metadata = .ok cands) :
    ∃ s, Published cfg w snap s rows cands metadata := by
  have ⟨s, hs, h⟩ := bind_eq_ok.mp h
  split at h
  · cases h
  case isFalse ha =>
    split at h
    · cases h
    case isFalse hc =>
      split at h
      · cases h
      case isFalse hm =>
        split at h
        · cases h
        case isFalse hu =>
          have ⟨_, hp, h⟩ := bind_eq_ok.mp h
          have ⟨_, hmeta, h⟩ := bind_eq_ok.mp h
          cases h
          exact ⟨s, hs, by simpa using ha, hc, hm, hu, hp, hmeta, hb⟩

section

variable (h : Published cfg w snap s rows cands metadata)

include h

theorem Published.replacementRows :
    replacementRows cfg w.flush snap = .ok (some (rows, metadata)) := by
  refine bind_eq_ok.mpr ⟨s, h.scan, ?_⟩
  rw [if_neg (by simp [h.available]), if_neg h.current, if_neg h.managed, if_neg h.unmanaged]
  exact bind_eq_ok.mpr ⟨_, h.plan, bind_eq_ok.mpr ⟨_, h.prepared, rfl⟩⟩

theorem Published.scanned : Scanned cfg.codec snap w.rows s :=
  scanSnapshotArchive_scanned h.scan

theorem Published.planned : Planned s snap rows :=
  planReplacement_planned h.plan

theorem Published.ofSnapshot (hr : ev ∈ rows) : Fence.OfSnapshot snap ev :=
  (ofSnapshot_of_planned h.scanned h.planned hr).left

theorem Published.batch_spec :
    Appendable cfg w.flush metadata ∧ Prepared cfg w.flush metadata rows cands ∧
      ∀ ev ∈ rows, w.allows ev → ¬w.Fenced ev → ∃ n, Accepted cfg metadata ev n :=
  batchCandidates_spec h.planned.isCommit h.batch

theorem Published.closed : w.closed = false :=
  h.batch_spec.left.closed

end

theorem flush_flush (w : Writer) : w.flush.flush = w.flush := by
  simp [Writer.flush]

theorem persistSnapshotBoundary_congr (h : w'.boundaries = w.boundaries) :
    (w'.persistSnapshotBoundary snap).boundaries = (w.persistSnapshotBoundary snap).boundaries := by
  simp only [Writer.persistSnapshotBoundary, h]

-- The writer after a call that has written these rows.
structure Adopted (w : Writer) (snapshot : Snapshot) (rows new : List Event) (w' : Writer) :
    Prop where
  admitted : Admitted w rows new
  rows : w'.rows = w.rows ++ new
  boundaries : w'.boundaries = (w.persistSnapshotBoundary snapshot).boundaries
  collectionPolicy : w'.collectionPolicy = w.collectionPolicy
  closed : w'.closed = false

theorem writeBatchCandidates_closed (w : Writer) (cands : List Event) :
    (w.writeBatchCandidates cands).closed = w.closed := by
  induction cands generalizing w with
  | nil => rfl
  | cons c _ ih => exact ih (w.push c)

theorem Published.reconcileSnapshot (h : Published cfg w snap s rows cands metadata) :
    ∃ w' new, w.reconcileSnapshot cfg snap = .ok w' ∧ Adopted w snap rows new w' := by
  have ⟨new, hext⟩ := writeBatchCandidates_extends w.flush cands
  have hadm : Admitted w rows new := h.batch_spec.right.left.toAdmitted.of_flush.written hext
  have hrows : (w.flush.writeBatchCandidates cands).rows = w.rows ++ new := by
    rw [Writer.rows, hext.durable, hext.pending]
    rfl
  have hclosed : (w.flush.writeBatchCandidates cands).closed = false :=
    (writeBatchCandidates_closed _ _).trans h.closed
  let w₁ := w.flush.writeBatchCandidates cands
  refine ⟨(if rows = [] then w₁ else w₁.flush).persistSnapshotBoundary snap, new, ?_, hadm,
    ?_, ?_, ?_, ?_⟩
  · unfold Writer.reconcileSnapshot
    rw [if_neg (by simp [h.closed])]
    refine bind_eq_ok.mpr ⟨_, h.replacementRows, bind_eq_ok.mpr ⟨w₁, ?_, rfl⟩⟩
    rw [flush_flush]
    exact map_eq_ok.mpr ⟨_, h.batch, rfl⟩
  · split
    · exact hrows
    · rw [←hrows]
      exact append_nil _
  · split <;> exact persistSnapshotBoundary_congr hext.boundaries
  · split <;> exact hext.collectionPolicy
  · split <;> exact hclosed

theorem fenced_mono (hp : w₂.collectionPolicy = w.collectionPolicy)
    (hb : w.boundary ev.did ev.collection ≤ w₂.boundary ev.did ev.collection)
    (h : w.Fenced ev) : w₂.Fenced ev :=
  ⟨hp ▸ h.left, h.right.left, h.right.right.trans hb⟩

theorem boundary_congr (h : w₂.boundaries.lookup did = w.boundaries.lookup did)
    (c : String) : w₂.boundary did c = w.boundary did c := by
  simp only [Writer.boundary, h]

theorem allows_congr (hp : w₂.collectionPolicy = w.collectionPolicy) (ev : Event) :
    w₂.allows ev = w.allows ev := by
  simp only [Writer.allows, hp]

-- A later writer, with what was written for the snapshot and for other repositories since.
structure Continues (w : Writer) (snapshot : Snapshot) (planned more : List Event) (w₂ : Writer) :
    Prop where
  closed : w₂.closed = false
  rows : w₂.rows = w.rows ++ more
  written : ∀ n ∈ more, n.did = snapshot.did →
    ∃ ev ∈ planned, SameBody n ev ∧ w.allows ev ∧ ¬w.Fenced ev
  collectionPolicy : w₂.collectionPolicy = w.collectionPolicy
  boundary : ∀ c, w.boundary snapshot.did c ≤ w₂.boundary snapshot.did c

-- The next call for the snapshot gets as far as publishing and plans what is not yet written.
theorem Published.resume (h : Published cfg w snap s rows cands metadata)
    (hw : Continues w snap rows more w₂) (hcfg : cfg.Renumbers)
    (hseq : ∀ ev ∈ rows, Untouched snap more ev.path → w₂.allows ev → ¬w₂.Fenced ev →
      0 < w₂.nextSeq) :
    ∃ t rows₂ candidates₂ metadata₂, Published cfg w₂ snap t rows₂ candidates₂ metadata₂ ∧
      ∀ row, row ∈ rows₂ ↔ row ∈ rows ∧ Untouched snap more row.path := by
  have hmore : ∀ n ∈ more, n.did = snap.did → snap.Covers n ∧ n.rev = snap.rev := by
    intro n hn hd
    have ⟨ev, hev, hs, _⟩ := hw.written n hn hd
    have ho := (h.ofSnapshot hev).of_sameBody hs
    have hk : n.kind = ev.kind := by rw [hs]
    exact ⟨⟨hd, hk ▸ h.planned.isCommit ev hev, ho.collection⟩, ho.rev⟩
  have ⟨t, ht, hres⟩ := exists_resumes h.scan hmore
  have ⟨rows₂, hplan, hmem⟩ := hres.exists_plan h.scanned h.plan
  have ⟨n, hmeta⟩ := exists_prepareSnapshotMetadata w₂.flush h.prepared
  have ⟨happ, _, hacc⟩ := h.batch_spec
  have happ₂ : Appendable cfg w₂.flush (metadata.map (·.renumber n)) :=
    ⟨hw.closed, by simpa using happ.managed, checkMetadata_renumber happ.metadata n⟩
  have ⟨candidates₂, hbatch⟩ : ∃ candidates₂,
      w₂.flush.batchCandidates cfg rows₂ (metadata.map (·.renumber n)) = .ok candidates₂ := by
    refine exists_batchCandidates happ₂ ?_ ?_ fun ev hev ha hf k hk => ?_
    · exact fun ev hev => h.planned.isCommit ev ((hmem ev).mp hev).left
    · exact fun ev hev => planReplacement_valid h.plan ev ((hmem ev).mp hev).left
    have ⟨hev, hu⟩ := (hmem ev).mp hev
    have hpos : 0 < k := (hseq ev hev hu ha hf).trans_le hk
    have hf' : ¬w.Fenced ev := fun hf' =>
      hf (fenced_mono hw.collectionPolicy ((h.ofSnapshot hev).did ▸ hw.boundary _) hf')
    have ⟨m, hm⟩ := hacc ev hev (allows_congr hw.collectionPolicy ev ▸ ha) hf'
    exact ⟨validateCandidate_renumber hm.validate hpos n,
      prepareAttribution_renumber hcfg hm.prepare hpos n⟩
  refine ⟨t, rows₂, candidates₂, _, ⟨?_, ?_, ?_, h.managed, h.unmanaged, hplan, hmeta, hbatch⟩, hmem⟩
  · rw [hw.rows]
    exact ht
  · exact hres.accountUnavailable.trans h.available
  · rw [hres.syncRev]
    exact h.current

end Publish

section View

-- Of the repository, exactly the planned rows that the writer admits are written.
structure Writes (w : Writer) (snapshot : Snapshot) (rows l : List Event) : Prop where
  sound : ∀ n ∈ l, n.did = snapshot.did → ∃ ev ∈ rows, SameBody n ev ∧ w.allows ev ∧ ¬w.Fenced ev
  complete : ∀ ev ∈ rows, w.allows ev → ¬w.Fenced ev → ∃ n ∈ l, SameBody n ev

theorem Admitted.writes (h : Admitted w rows l) : Writes w snap rows l :=
  ⟨fun n hn _ => h.sound n hn, h.complete⟩

theorem action_sameBody (h : SameBody a b) : action c did a = action c did b := by
  rw [h]
  rfl

theorem action_key?_did (h : (action c did a).key? = some k) : a.did = did :=
  (action_key?_iff.mp h).left

theorem Writes.exists_action_iff (h : Writes w snap rows l) (hk : x.key? = some k) :
    (∃ n ∈ l, action c snap.did n = x) ↔
      ∃ ev ∈ rows, w.allows ev ∧ ¬w.Fenced ev ∧ action c snap.did ev = x := by
  constructor
  · intro ⟨n, hn, hx⟩
    have ⟨ev, hev, hs, ha, hf⟩ := h.sound n hn (action_key?_did (hx ▸ hk))
    exact ⟨ev, hev, ha, hf, (action_sameBody hs).symm.trans hx⟩
  · intro ⟨ev, hev, ha, hf, hx⟩
    have ⟨n, hn, hs⟩ := h.complete ev hev ha hf
    exact ⟨n, hn, (action_sameBody hs).trans hx⟩

theorem Writes.action_ne_clear (h : Writes w snap rows l)
    (hc : ∀ ev ∈ rows, ev.kind.isCommit) : ∀ n ∈ l, action c snap.did n ≠ .clear := by
  intro n hn hx
  have hd := (action_eq_clear_iff.mp hx).left
  have ⟨ev, hev, hs, _⟩ := h.sound n hn hd
  have hk : n.kind = ev.kind := by rw [hs]
  rw [←hd] at hx
  exact @action_ne_clear_of_isCommit n.key c n (hk ▸ hc ev hev) hx

-- What was written in which order, and what was written of other repositories, does not matter.
theorem Published.view_eq (h : Published cfg w snap s rows cands metadata)
    (hl : Writes w snap rows l) (hl' : Writes w snap rows l') :
    view cfg.codec snap.did (archive ++ l) = view cfg.codec snap.did (archive ++ l') := by
  have hc := h.planned.isCommit
  funext k
  rw [view, view, replay_append, replay_append]
  refine replay_congr (hl.action_ne_clear hc) (hl'.action_ne_clear hc) (fun x hx => ?_) ?_
  · rw [hl.exists_action_iff hx, hl'.exists_action_iff hx]
  intro a ha b hb hka hkb
  obtain ⟨hda, _, hka⟩ := action_key?_iff.mp hka
  obtain ⟨hdb, _, hkb⟩ := action_key?_iff.mp hkb
  obtain ⟨ev, hev, hs, _⟩ := hl.sound a ha hda
  obtain ⟨ev', hev', hs', _⟩ := hl.sound b hb hdb
  have hkey : ev.key = ev'.key := by rw [←hs.key_eq, ←hs'.key_eq, hka, hkb]
  have := h.planned.eq_of_path h.scanned hev hev' (Event.path_eq hkey)
  rw [action_sameBody hs, action_sameBody hs', this]

end View

section Retry

variable {cfg : Config} {w w' w₁ w₂ : Writer} {rows cands more new : List Event}

theorem Interrupted.continues (h : Interrupted cfg w snap w₁) :
    ∃ s rows cands metadata more, Published cfg w snap s rows cands metadata ∧
      Continues w snap rows more w₁ ∧ w₁.boundaries = w.boundaries ∧ 0 < w₁.nextSeq := by
  have @crash _ _ _ rows cands metadata n nextSeq _ hpos hrows hbatch := h
  have ⟨s, hpub⟩ := published_of_replacementRows hrows hbatch
  have ⟨new, hext⟩ := writeBatchCandidates_extends w.flush cands
  have hadm : Admitted w rows new := hpub.batch_spec.right.left.toAdmitted.of_flush.written hext
  refine ⟨s, rows, cands, metadata, new.take n, hpub, ⟨rfl, ?_, ?_, ?_, ?_⟩, ?_, hpos⟩
  · refine (append_nil _).trans ?_
    simp only [Writer.flushRows, hext.durable, hext.pending]
    rfl
  · exact fun n hn _ => hadm.sound n (mem_of_mem_take hn)
  · exact hext.collectionPolicy
  · exact fun c => (boundary_congr (congrArg _ hext.boundaries) c).ge
  · exact hext.boundaries

theorem Continues.undisturbed (h : Continues w snap rows more w₁)
    (hw : Undisturbed snap.did w₁ w₂) :
    ∃ others, (∀ row ∈ others, row.did ≠ snap.did) ∧ Continues w snap rows (more ++ others) w₂ := by
  have ⟨others, hrows, hd⟩ := hw.rows
  refine ⟨others, hd, hw.closed.trans h.closed, ?_, ?_, ?_, ?_⟩
  · rw [hrows, h.rows, append_assoc]
  · intro n hn hdn
    obtain hn | hn := mem_append.mp hn
    · exact h.written n hn hdn
    · exact absurd hdn (hd n hn)
  · exact hw.collectionPolicy.trans h.collectionPolicy
  · exact fun c => (h.boundary c).trans (boundary_congr hw.boundaries c).ge

-- A row that was not written by an earlier call for the snapshot is written by the next one.
theorem Published.retry (h : Published cfg w snap s rows cands metadata)
    (hw : Continues w snap rows more w₂) (hcfg : cfg.Renumbers)
    (hb : w₂.boundaries.lookup snap.did = w.boundaries.lookup snap.did)
    (hpos : 0 < w₂.nextSeq) :
    ∃ w₃ new, w₂.reconcileSnapshot cfg snap = .ok w₃ ∧ Writes w snap rows (more ++ new) ∧
      w₃.rows = w.rows ++ (more ++ new) ∧
      w₃.boundaries = (w₂.persistSnapshotBoundary snap).boundaries ∧
      w₃.collectionPolicy = w.collectionPolicy ∧ w₃.closed = false := by
  have ⟨_, rows₂, _, _, hpub, hmem⟩ := h.resume hw hcfg fun _ _ _ _ _ => hpos
  have ⟨w₃, new, hok, had⟩ := hpub.reconcileSnapshot
  have hallow := allows_congr hw.collectionPolicy
  have hfence {ev} (hev : ev ∈ rows) : w₂.Fenced ev ↔ w.Fenced ev := by
    have hd := (h.ofSnapshot hev).did
    have he := boundary_congr hb ev.collection
    constructor
    · exact fenced_mono hw.collectionPolicy.symm (hd ▸ he.le)
    · exact fenced_mono hw.collectionPolicy (hd ▸ he.ge)
  refine ⟨w₃, new, hok, ⟨fun n hn hd => ?_, fun ev hev ha hf => ?_⟩, ?_, had.boundaries,
    had.collectionPolicy.trans hw.collectionPolicy, had.closed⟩
  · obtain hn | hn := mem_append.mp hn
    · exact hw.written n hn hd
    · have ⟨ev, hev, hs, ha, hf⟩ := had.admitted.sound n hn
      have hev := ((hmem ev).mp hev).left
      exact ⟨ev, hev, hs, hallow ev ▸ ha, (hfence hev).not.mp hf⟩
  · by_cases hu : Untouched snap more ev.path
    · have ⟨n, hn, hs⟩ := had.admitted.complete ev ((hmem ev).mpr ⟨hev, hu⟩) (hallow ev ▸ ha)
        ((hfence hev).not.mpr hf)
      exact ⟨n, mem_append_right _ hn, hs⟩
    simp only [Untouched, not_forall, ne_eq, not_not] at hu
    have ⟨n, hn, hd, hp⟩ := hu
    have ⟨ev', hev', hs, _⟩ := hw.written n hn hd
    have : ev' = ev :=
      h.planned.eq_of_path h.scanned hev' hev ((Event.path_eq hs.key_eq).symm.trans hp)
    exact ⟨n, mem_append_left _ hn, this ▸ hs⟩
  · rw [had.rows, hw.rows, append_assoc]

def Reconciles (cfg : Config) (snapshot : Snapshot) (w : Writer) : Prop :=
  ∃ w', w.reconcileSnapshot cfg snapshot = .ok w' ∧ w'.rows = w.rows ∧
    w'.boundaries.lookup snapshot.did = w.boundaries.lookup snapshot.did

theorem foldl_raiseRevision_self
    {collections : List String} (h : ∀ c ∈ collections, rev ≤ revisionOf revisions c) :
    collections.foldl (raiseRevision rev) revisions = revisions := by
  induction collections with
  | nil => rfl
  | cons c collections ih =>
    have ⟨hc, h⟩ := forall_mem_cons.mp h
    have : raiseRevision rev revisions c = revisions := if_neg hc.not_gt
    rw [foldl_cons, this, ih h]

theorem persistSnapshotBoundary_twice (w : Writer) (h : w₂.boundaries.lookup snap.did =
      (w.persistSnapshotBoundary snap).boundaries.lookup snap.did) :
    (w₂.persistSnapshotBoundary snap).boundaries.lookup snap.did =
      w₂.boundaries.lookup snap.did := by
  simp only [Writer.persistSnapshotBoundary, AList.lookup_insert] at h ⊢
  rw [h, Option.getD_some, foldl_raiseRevision_self]
  exact fun c => (le_foldl_raiseRevision _ _ _ c).right

theorem Published.reconciles (h : Published cfg w snap s rows cands metadata)
    (hw : Continues w snap rows more w₂) (hcfg : cfg.Renumbers)
    (hl : Writes w snap rows more) (hb : w₂.boundaries.lookup snap.did =
      (w₁.persistSnapshotBoundary snap).boundaries.lookup snap.did) :
    Reconciles cfg snap w₂ := by
  have hnone {ev} (hev : ev ∈ rows) (hu : Untouched snap more ev.path)
      (ha : w₂.allows ev) : w₂.Fenced ev := by
    by_contra hf
    have hf' : ¬w.Fenced ev := fun hf' =>
      hf (fenced_mono hw.collectionPolicy ((h.ofSnapshot hev).did ▸ hw.boundary _) hf')
    have ⟨n, hn, hs⟩ := hl.complete ev hev (allows_congr hw.collectionPolicy ev ▸ ha) hf'
    have hd : n.did = ev.did := by rw [hs]
    exact hu n hn (hd.trans (h.ofSnapshot hev).did) (Event.path_eq hs.key_eq)
  have ⟨_, rows₂, _, _, hpub, hmem⟩ := h.resume hw hcfg fun _ hev hu ha hf =>
    absurd (hnone hev hu ha) hf
  have ⟨w₃, new, hok, had⟩ := hpub.reconcileSnapshot
  refine ⟨w₃, hok, ?_, ?_⟩
  · have hnil : new = [] := by
      refine eq_nil_iff_forall_not_mem.mpr fun n hn => ?_
      have ⟨ev, hev, _, ha, hf⟩ := had.admitted.sound n hn
      have ⟨hev, hu⟩ := (hmem ev).mp hev
      exact hf (hnone hev hu ha)
    rw [had.rows, hnil, append_nil]
  · rw [had.boundaries]
    exact persistSnapshotBoundary_twice w₁ hb

-- A call that finds a later replacement of the whole repository finds it again.
theorem reconciles_of_none (h : replacementRows cfg w.flush snap = .ok none)
    (hclosed : w.closed = false) (hw : Undisturbed snap.did w.flush w₂) :
    Reconciles cfg snap w₂ := by
  have ⟨others, hrows, hd⟩ := hw.rows
  have ⟨row, hr, hsync, hlt⟩ := replacementRows_none h
  have ⟨s, hs, h⟩ := bind_eq_ok.mp h
  have hlt : snap.rev < s.syncRev :=
    ((scanSnapshotArchive_scanned hs).syncRev _).mpr ⟨row, hr, hsync, hlt⟩
  have ⟨t, ht, hres⟩ := exists_resumes hs fun row hr hdr => absurd hdr (hd row hr)
  have hnone : replacementRows cfg w₂.flush snap = .ok none := by
    refine bind_eq_ok.mpr ⟨t, ?_, ?_⟩
    · rw [show w₂.flush.durable = w.flush.durable ++ others by
        rw [show w₂.flush.durable = w₂.rows from rfl, hrows, rows_flush]; rfl]
      exact ht
    split at h
    · cases h
    case isFalse ha =>
      rw [if_neg (hres.accountUnavailable ▸ ha), if_pos (hres.syncRev ▸ hlt)]
      rfl
  refine ⟨w₂.flush, ?_, rows_flush w₂, rfl⟩
  unfold Writer.reconcileSnapshot
  rw [if_neg (by simp [hw.closed.trans hclosed])]
  exact bind_eq_ok.mpr ⟨none, hnone, rfl⟩

theorem reconcileSnapshot_cases (h : w.reconcileSnapshot cfg snap = .ok w') :
    w.closed = false ∧ (replacementRows cfg w.flush snap = .ok none ∧ w' = w.flush ∨
      ∃ s rows cands metadata, Published cfg w snap s rows cands metadata) := by
  unfold Writer.reconcileSnapshot at h
  split at h
  · cases h
  case isFalse hclosed =>
    refine ⟨by simpa using hclosed, ?_⟩
    have ⟨plan, hplan, h⟩ := bind_eq_ok.mp h
    cases plan with
    | none =>
      cases h
      exact .inl ⟨hplan, rfl⟩
    | some plan =>
      have ⟨_, hbatch, _⟩ := bind_eq_ok.mp h
      have ⟨cands, hbatch, _⟩ := map_eq_ok.mp hbatch
      have ⟨s, hpub⟩ := published_of_replacementRows hplan hbatch
      exact .inr ⟨s, _, _, _, hpub⟩

theorem Adopted.continues (h : Adopted w snap rows new w') : Continues w snap rows new w' where
  closed := h.closed
  rows := h.rows
  written n hn _ := h.admitted.sound n hn
  collectionPolicy := h.collectionPolicy
  boundary c := by
    have := @boundary_le_persist w snap snap.did c
    rwa [←boundary_congr (congrArg _ h.boundaries) c] at this

theorem Writes.others {others} (h : Writes w snap rows more)
    (hd : ∀ row ∈ others, row.did ≠ snap.did) : Writes w snap rows (more ++ others) where
  sound n hn hdn := by
    obtain hn | hn := mem_append.mp hn
    · exact h.sound n hn hdn
    · exact absurd hdn (hd n hn)
  complete ev hev ha hf := by
    have ⟨n, hn, hs⟩ := h.complete ev hev ha hf
    exact ⟨n, mem_append_left _ hn, hs⟩

theorem Published.reconciles_undisturbed (h : Published cfg w snap s rows cands metadata)
    (hw : Continues w snap rows more w') (hcfg : cfg.Renumbers)
    (hl : Writes w snap rows more)
    (hb : w'.boundaries = (w₁.persistSnapshotBoundary snap).boundaries)
    (hu : Undisturbed snap.did w' w₂) : Reconciles cfg snap w₂ := by
  have ⟨_, hd, hw⟩ := hw.undisturbed hu
  exact h.reconciles hw hcfg (hl.others hd) (hu.boundaries.trans (congrArg _ hb))

-- A snapshot reconciled at once or in two calls with a crash between them is the same to readers,
-- and once more changes nothing.
theorem reconcileSnapshot_retry (hcfg : cfg.Renumbers)
    (h : w.reconcileSnapshot cfg snapshot = .ok w') :
    (∀ w₂, Undisturbed snapshot.did w' w₂ → Reconciles cfg snapshot w₂) ∧
    ∀ w₁ w₂, Interrupted cfg w snapshot w₁ → Undisturbed snapshot.did w₁ w₂ →
      ∃ w₃, w₂.reconcileSnapshot cfg snapshot = .ok w₃ ∧
        view cfg.codec snapshot.did w₃.rows = view cfg.codec snapshot.did w'.rows ∧
        w₃.boundaries.lookup snapshot.did = w'.boundaries.lookup snapshot.did ∧
        ∀ w₄, Undisturbed snapshot.did w₃ w₄ → Reconciles cfg snapshot w₄ := by
  constructor
  · intro w₂ hw₂
    have ⟨hclosed, hcases⟩ := reconcileSnapshot_cases h
    rcases hcases with ⟨hnone, he⟩ | ⟨_, _, _, _, hpub⟩
    · exact reconciles_of_none hnone hclosed (he ▸ hw₂)
    · have ⟨_, _, hok, had⟩ := hpub.reconcileSnapshot
      cases hok.symm.trans h
      exact hpub.reconciles_undisturbed had.continues hcfg had.admitted.writes had.boundaries hw₂
  · intro w₁ w₂ hw₁ hw₂
    have ⟨_, _, _, _, _, hpub, hcont, hb₁, hpos⟩ := hw₁.continues
    have ⟨_, _, hcont₂⟩ := hcont.undisturbed hw₂
    have hb₂ : w₂.boundaries.lookup snapshot.did = w.boundaries.lookup snapshot.did :=
      hw₂.boundaries.trans (congrArg _ hb₁)
    have ⟨w₃, _, hok₃, hl, hrows, hb₃, hpolicy, hclosed⟩ :=
      hpub.retry hcont₂ hcfg hb₂ (hpos.trans_le hw₂.nextSeq)
    have ⟨_, _, hok, had⟩ := hpub.reconcileSnapshot
    cases hok.symm.trans h
    refine ⟨w₃, hok₃, ?_, ?_, fun w₄ hw₄ => ?_⟩
    · rw [hrows, had.rows]
      exact hpub.view_eq hl had.admitted.writes
    · rw [hb₃, had.boundaries]
      simp only [Writer.persistSnapshotBoundary, AList.lookup_insert, hb₂]
    refine hpub.reconciles_undisturbed ⟨hclosed, hrows, hl.sound, hpolicy, fun c => ?_⟩ hcfg hl
      hb₃ hw₄
    calc w.boundary snapshot.did c
      _ = w₂.boundary snapshot.did c := (boundary_congr hb₂ c).symm
      _ ≤ (w₂.persistSnapshotBoundary snapshot).boundary snapshot.did c := boundary_le_persist _ _
      _ = w₃.boundary snapshot.did c := (boundary_congr (congrArg _ hb₃) c).symm

end Retry

section Samples

-- The update of the record has reached the disk, the boundary is not stored.
def sampleInterrupted : Writer :=
  ((outdated.flush.writeBatchCandidates [sampleRecord 2 .update "6" [8]]).flushRows 1).reopen 3
    (by decide)

theorem interrupted_sample :
    Interrupted sampleConfig outdated (sampleSnapshot "6" [8]) sampleInterrupted := by
  have hr : replacementRows sampleConfig outdated.flush (sampleSnapshot "6" [8]) =
      .ok (some ([sampleRecord 0 .update "6" [8]], none)) := by decide +kernel
  exact .crash 1 3 _ (by decide) hr (by decide +kernel)

theorem reconcileSnapshot_retry_sample :
    ∃ w' w₃, outdated.reconcileSnapshot sampleConfig (sampleSnapshot "6" [8]) = .ok w' ∧
      sampleInterrupted.reconcileSnapshot sampleConfig (sampleSnapshot "6" [8]) = .ok w₃ ∧
      view sampleCodec "did:plc:a" w₃.rows = view sampleCodec "did:plc:a" w'.rows ∧
      Reconciles sampleConfig (sampleSnapshot "6" [8]) w₃ := by
  have ⟨w', hok, _⟩ := map_eq_ok.mp reconcile_outdated
  have hcfg : sampleConfig.Renumbers := fun _ ha => absurd ha (Option.not_mem_none _)
  have ⟨w₃, hok₃, hview, _, hagain⟩ :=
    (reconcileSnapshot_retry hcfg hok).right _ _ interrupted_sample (.refl _ _)
  exact ⟨w', w₃, hok, hok₃, hview, hagain w₃ (.refl _ _)⟩

end Samples

end Jetstream.Ingest
