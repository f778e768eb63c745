import HypercertsRelay.Library.Except
import HypercertsRelay.Jetstream.Tombstone

-- The live tombstone set, which observes the rows one by one and forgets those that were compacted,
-- against what is folded from the archive.
namespace Jetstream.Tombstone

open MaxMap List Snapshot

def fold (c : Codec) (events : List Event) (watermark : ℕ) : Except String Snapshot :=
  foldRange c events watermark (2 ^ 64 - 1)

def Snapshot.entryBytes (s : Snapshot) : ℤ :=
  keysBytes (recordEntryBytes ·) s.records + keysBytes (didEntryBytes ·) s.dids

structure LiveSet where
  snapshot : Snapshot
  bytes : ℤ

namespace LiveSet

def new : LiveSet :=
  ⟨.empty, 0⟩

-- A row that cannot be decoded leaves the set as it is.
def observe (c : Codec) (s : LiveSet) (ev : Event) : LiveSet :=
  match observeLocked c s.snapshot ev with
  | .ok (snapshot, added) => ⟨snapshot, s.bytes + added⟩
  | .error _ => s

def evict (s : LiveSet) (maxSeq : ℕ) : LiveSet where
  snapshot := {
    records := MaxMap.evict id s.snapshot.records maxSeq
    dids := MaxMap.evict DIDTombstone.seq s.snapshot.dids maxSeq }
  bytes := s.bytes -
    ((s.snapshot.records.entries.filter (·.2 ≤ maxSeq)).map (recordEntryBytes ·.1 : _ → ℤ)).sum -
    ((s.snapshot.dids.entries.filter (·.2.seq ≤ maxSeq)).map (didEntryBytes ·.1 : _ → ℤ)).sum

def replace (snapshot : Snapshot) : LiveSet where
  snapshot := snapshot
  bytes := snapshot.entryBytes

end LiveSet

inductive Call
  | observe (ev : Event)
  | evict (maxSeq : ℕ)
  | replace (snapshot : Snapshot)

def Call.apply (c : Codec) (s : LiveSet) : Call → LiveSet
  | .observe ev => s.observe c ev
  | .evict maxSeq => s.evict maxSeq
  | .replace snapshot => .replace snapshot

def run (c : Codec) (calls : List Call) : LiveSet :=
  calls.foldl (Call.apply c) .new

def observed (calls : List Call) : List Event :=
  calls.filterMap fun
    | .observe ev => some ev
    | _ => none

-- Only evictions up to a watermark, besides the rows.
def Call.Below (W : ℕ) : Call → Prop
  | .observe _ => True
  | .evict maxSeq => maxSeq ≤ W
  | .replace _ => False

def Snapshot.Same (s s' : Snapshot) : Prop :=
  (∀ k, s.records.lookup k = s'.records.lookup k) ∧ ∀ did, s.dids.lookup did = s'.dids.lookup did

-- The rows have numbers of their own, and their bodies can be decoded.
structure Observable (c : Codec) (events : List Event) : Prop where
  distinct : ∀ ev ∈ events, ∀ ev' ∈ events, ev.seq = ev'.seq → ev = ev'
  range : ∀ ev ∈ events, 1 ≤ ev.seq ∧ ev.seq < 2 ^ 64
  decodable : ∀ ev ∈ events, Decodable c ev

def didTombstone (ev : Event) : DIDTombstone :=
  ⟨ev.seq, if ev.kind = .sync then .sync else .account⟩

-- Every tombstone of a repository is that of one of the rows.
def Snapshot.From (s : Snapshot) (events : List Event) : Prop :=
  ∀ did ts, s.dids.lookup did = some ts → ∃ ev ∈ events, ts = didTombstone ev

section Observe

variable {s s' : Snapshot}

theorem observeLocked_cases (h : observeLocked c s ev = .ok (s', n)) : s' = s ∧ n = 0 ∨
    s' = { s with records := raise id s.records ev.key ev.seq } ∧ n = addedRecordBytes s ev.key ∨
    s' = { s with dids := raise DIDTombstone.seq s.dids ev.did (didTombstone ev) } ∧
      n = addedDIDBytes s ev.did := by
  cases hk : ev.kind <;> simp only [observeLocked, hk] at h
  case delete | update =>
    cases h
    exact .inr (.inl ⟨rfl, rfl⟩)
  case sync =>
    obtain ⟨scope, _, h⟩ := Except.bind_eq_ok.mp h
    cases scope <;> cases h
    · exact .inr (.inr ⟨by simp [didTombstone, hk], rfl⟩)
    · exact .inl ⟨rfl, rfl⟩
  case account =>
    split at h <;> cases h
    · exact .inl ⟨rfl, rfl⟩
    · exact .inr (.inr ⟨by simp [didTombstone, hk], rfl⟩)
  all_goals
    cases h
    exact .inl ⟨rfl, rfl⟩

theorem Snapshot.From.observeLocked (h : s.From events) (hev : ev ∈ events)
    (ho : observeLocked c s ev = .ok (s', n)) : s'.From events := by
  obtain ⟨rfl, _⟩ | ⟨rfl, _⟩ | ⟨rfl, _⟩ := observeLocked_cases ho
  · exact h
  · exact h
  · intro did ts hl
    obtain ⟨_, rfl⟩ | hl := lookup_raise hl
    · exact ⟨ev, hev, rfl⟩
    · exact h did ts hl

theorem entryBytes_observeLocked (ho : observeLocked c s ev = .ok (s', n)) :
    s'.entryBytes = s.entryBytes + n := by
  obtain ⟨rfl, rfl⟩ | ⟨rfl, rfl⟩ | ⟨rfl, rfl⟩ := observeLocked_cases ho
  · simp
  · rw [entryBytes, entryBytes, keysBytes_raise, addedRecordBytes]
    split
    · simp
    · simp
      omega
  · rw [entryBytes, entryBytes, keysBytes_raise, addedDIDBytes]
    split
    · simp
    · simp
      omega

theorem offers_above : offers p key { ev ∈ E | n < ev.seq } = { x ∈ offers p key E | n < x.2 } := by
  ext x
  constructor
  · rintro ⟨ev, ⟨hev, hlt⟩, hp, rfl⟩
    exact ⟨⟨ev, hev, hp, rfl⟩, hlt⟩
  · rintro ⟨⟨ev, hev, hp, rfl⟩, hlt⟩
    exact ⟨ev, ⟨hev, hlt⟩, hp, rfl⟩

theorem Snapshot.Tracks.evict {s : LiveSet} (h : s.snapshot.Tracks c E) (n : ℕ) :
    (s.evict n).snapshot.Tracks c { ev ∈ E | n < ev.seq } where
  records := offers_above ▸ h.records.evict n
  dids := offers_above ▸ h.dids.evict n

theorem Snapshot.Tracks.same (h : s.Tracks c E) (h' : s'.Tracks c E)
    (ho : Observable c events) (hf : s.From events) (hf' : s'.From events) : s.Same s' := by
  refine ⟨fun k => by simpa using h.records.map_rank h'.records k, fun did => ?_⟩
  have hrank := h.dids.map_rank h'.dids did
  cases hl : s.dids.lookup did with
  | none =>
    rw [hl, Option.map_none, eq_comm, Option.map_eq_none_iff] at hrank
    exact hrank.symm
  | some ts =>
    cases hl' : s'.dids.lookup did with
    | none => simp [hl, hl'] at hrank
    | some ts' =>
      have ⟨ev, hev, hts⟩ := hf did ts hl
      have ⟨ev', hev', hts'⟩ := hf' did ts' hl'
      have hseq : ev.seq = ev'.seq := by simpa [hl, hl', hts, hts', didTombstone] using hrank
      rw [hts, hts', ho.distinct ev hev ev' hev' hseq]

theorem Snapshot.Same.shouldDrop (h : s.Same s') (r : Event) :
    s.shouldDrop r = s'.shouldDrop r := by
  rw [Snapshot.shouldDrop, Snapshot.shouldDrop, h.left, h.right]

end Observe

section Fold

variable {events all : List Event} (ho : Observable c all)

def above (events : List Event) (W : ℕ) : Set Event :=
  { ev | ev ∈ events ∧ W < ev.seq }

theorem above_append (l l' : List Event) (W : ℕ) : above (l ++ l') W = above l W ∪ above l' W := by
  ext ev
  simp [above, or_and_right]

theorem above_perm (hp : l.Perm l') (W : ℕ) : above l W = above l' W := by
  ext ev
  rw [above, above, Set.mem_ofPred_eq, Set.mem_ofPred_eq, hp.mem_iff]

include ho

-- The fold holds the rows above the watermark, in whatever order they come.
theorem fold_spec (hsub : events ⊆ all) (W : ℕ) :
    ∃ s, fold c events W = .ok s ∧ s.Tracks c (above events W) ∧ s.From all := by
  obtain ⟨s, hs, ht⟩ := foldRange_tracks W (2 ^ 64 - 1) fun ev hev => ho.decodable ev (hsub hev)
  have hw : window { ev | ev ∈ events } W (2 ^ 64 - 1) = above events W := by
    ext ev
    refine and_congr_right fun hev => and_iff_left ?_
    have := (ho.range ev (hsub hev)).right
    omega
  refine ⟨s, hs, hw ▸ ht, ?_⟩
  refine Except.foldlM_invariant (P := fun _ s => s.From all) (fun _ _ => by rintro ⟨⟩) ?_ hs
  intro _ ev s t hev hf hstep
  rw [observeRange] at hstep
  split at hstep
  · cases hstep
    exact hf
  · obtain ⟨⟨s', n⟩, hok, hst⟩ := Except.map_eq_ok.mp hstep
    exact hst ▸ hf.observeLocked (hsub hev) hok

theorem merge_spec {chunks : List (List Event)} (hsub : chunks.flatten ⊆ all) (W : ℕ)
    (ht : s.Tracks c E) (hf : s.From all) :
    ∃ parts, chunks.mapM (fold c · W) = .ok parts ∧
      (parts.foldl merge s).Tracks c (E ∪ above chunks.flatten W) ∧
      (parts.foldl merge s).From all := by
  induction chunks generalizing s E with
  | nil => exact ⟨[], rfl, by simpa [above] using ht, hf⟩
  | cons chunk chunks ih =>
    rw [flatten_cons, append_subset] at hsub
    have ⟨part, hpart, htp, hfp⟩ := fold_spec ho hsub.left W
    have hmerge := ht.merge htp fun ev hev => (ho.range ev (hsub.left hev.left)).left
    have hfm : (s.merge part).From all := fun did ts hl =>
      (lookup_merge hl).elim (hf did ts) (hfp did ts)
    have ⟨parts, hparts, ht, hf⟩ := ih hsub.right hmerge hfm
    refine ⟨part :: parts, ?_, ?_, hf⟩
    · rw [mapM_cons, hpart, hparts]
      rfl
    · rwa [flatten_cons, above_append, ←Set.union_assoc]

end Fold

section Run

theorem bytes_apply (h : s.bytes = s.snapshot.entryBytes) (x : Call) :
    (x.apply c s).bytes = (x.apply c s).snapshot.entryBytes := by
  cases x with
  | observe ev =>
    simp only [Call.apply, LiveSet.observe]
    split
    case h_1 snap added hok => rw [entryBytes_observeLocked hok, h]
    case h_2 => exact h
  | evict maxSeq =>
    simp only [Call.apply, LiveSet.evict, entryBytes, keysBytes_evict, h]
    simp only [id]
    omega
  | replace snap => rfl

theorem run_append (calls : List Call) (x : Call) :
    run c (calls ++ [x]) = x.apply c (run c calls) := by
  rw [run, foldl_append]
  rfl

theorem run_bytes (calls : List Call) :
    (run c calls).bytes = (run c calls).snapshot.entryBytes := by
  induction calls using reverseRecOn with
  | nil => rfl
  | append_singleton calls x ih =>
    rw [run_append]
    exact bytes_apply ih x

theorem run_tracks {all} (ho : Observable c all) (hsub : observed calls ⊆ all)
    (hbelow : ∀ x ∈ calls, x.Below W) : ∃ E : Set Event, (run c calls).snapshot.Tracks c E ∧
      (run c calls).snapshot.From all ∧
      ∀ ev, (ev ∈ E → ev ∈ observed calls) ∧ (ev ∈ observed calls → W < ev.seq → ev ∈ E) := by
  induction calls using reverseRecOn with
  | nil => exact ⟨∅, .empty, nofun, fun ev => ⟨nofun, nofun⟩⟩
  | append_singleton calls x ih =>
    have happ : observed (calls ++ [x]) = observed calls ++ observed [x] := filterMap_append
    rw [happ] at hsub ⊢
    have ⟨hcalls, hx⟩ := append_subset.mp hsub
    have ⟨hbelow, hxW⟩ := forall_mem_append.mp hbelow
    have ⟨E, ht, hf, hE⟩ := ih hcalls hbelow
    rw [run_append]
    cases x with
    | observe ev =>
      have hev : ev ∈ all := hx (.head _)
      have ⟨s', n, hok, ht'⟩ := ht.observeLocked (ho.decodable ev hev)
      refine ⟨insert ev E, ?_⟩
      simp only [Call.apply, LiveSet.observe, hok]
      refine ⟨ht', hf.observeLocked hev hok, fun ev' => ?_⟩
      have := hE ev'
      simp only [observed, filterMap_cons, filterMap_nil, mem_append, mem_singleton,
        Set.mem_insert_iff]
      tauto
    | evict maxSeq =>
      have hle : maxSeq ≤ W := hxW _ (.head _)
      refine ⟨_, ht.evict maxSeq, fun did ts hl => hf did ts (lookup_evict.mp hl).left, fun ev => ?_⟩
      have ⟨hsound, hcomplete⟩ := hE ev
      rw [show observed [Call.evict maxSeq] = [] from rfl, append_nil]
      exact ⟨fun hev => hsound hev.left, fun hev hlt => ⟨hcomplete hev hlt, by omega⟩⟩
    | replace snap => exact (hxW _ (.head _)).elim

end Run

theorem liveSet_exact (c : Codec) :
    (∀ calls W, Observable c (observed calls) → (∀ x ∈ calls, Call.Below W x) →
      ∀ events, events.Perm (observed calls) → ∃ s, fold c events W = .ok s ∧
        ∀ r, ((run c calls).evict W).snapshot.shouldDrop r = s.shouldDrop r) ∧
    (∀ events W chunks, Observable c events → events.Perm (flatten chunks) →
      ∃ s parts, fold c events W = .ok s ∧ chunks.mapM (fold c · W) = .ok parts ∧
        (parts.foldl Snapshot.merge .empty).Same s) ∧
    ∀ calls, (run c calls).bytes = (run c calls).snapshot.entryBytes := by
  refine ⟨fun calls W ho hbelow events hp => ?_, fun events W chunks ho hp => ?_, run_bytes⟩
  · have ⟨s, hs, ht, hf⟩ := fold_spec ho hp.subset W
    have ⟨E, hrun, hfrun, hE⟩ := run_tracks ho (Subset.refl _) hbelow
    have hset : { ev ∈ E | W < ev.seq } = above events W := by
      ext ev
      rw [above_perm hp]
      exact ⟨fun h => ⟨(hE ev).left h.left, h.right⟩, fun h => ⟨(hE ev).right h.left h.right, h.right⟩⟩
    have hlive := hrun.evict W
    rw [hset] at hlive
    have hflive : ((run c calls).evict W).snapshot.From (observed calls) := fun did ts hl =>
      hfrun did ts (lookup_evict.mp hl).left
    exact ⟨s, hs, (hlive.same ht ho hflive hf).shouldDrop⟩
  · have ⟨s, hs, ht, hf⟩ := fold_spec ho (Subset.refl _) W
    have ⟨parts, hparts, htp, hfp⟩ := merge_spec ho hp.symm.subset W .empty nofun
    rw [Set.empty_union, ←above_perm hp] at htp
    exact ⟨s, parts, hs, hparts, htp.same ht ho hfp hf⟩

def noCodec : Codec :=
  ⟨fun _ => .error "", fun _ => .error ""⟩

def deletion (seq : ℕ) : Event :=
  ⟨seq, .delete, "did", "collection", "rkey", "", []⟩

def deletions : List Call :=
  [.observe (deletion 1), .evict 1, .observe (deletion 2)]

theorem liveSet_exact_deletions : ∃ s, fold noCodec [deletion 2, deletion 1] 1 = .ok s ∧
    ∀ r, ((run noCodec deletions).evict 1).snapshot.shouldDrop r = s.shouldDrop r := by
  refine (liveSet_exact noCodec).left deletions 1 ⟨?_, ?_, ?_⟩ ?_ _ (.swap ..)
  · simp [observed, deletions, deletion]
  · simp [observed, deletions, deletion]
  · exact forall_mem_cons.mpr ⟨⟨nofun, nofun⟩, forall_mem_cons.mpr ⟨⟨nofun, nofun⟩, nofun⟩⟩
  · simp [deletions, Call.Below]

-- Behind the evictions, a row is dropped iff an observed one supersedes it.
theorem run_shouldDrop_iff (ho : Observable c (observed calls)) (hW : ∀ x ∈ calls, x.Below W)
    (hr : W ≤ r.seq) : ((run c calls).snapshot.shouldDrop r).isSome ↔
      ∃ t ∈ observed calls, supersedes c t r := by
  obtain ⟨E, ht, _, hE⟩ := run_tracks ho (Subset.refl _) hW
  rw [ht.shouldDrop_iff]
  refine exists_congr fun t => and_congr_left fun hs => ⟨(hE t).left, fun ht => ?_⟩
  exact (hE t).right ht (hr.trans_lt (supersedes_iff.mp hs).right.left)

theorem run_shouldDrop_update : ((run noCodec [.observe (deletion 1), .evict 2,
      .observe (deletion 3), .evict 2]).snapshot.shouldDrop
    { deletion 2 with kind := .update }).isSome := by
  refine (run_shouldDrop_iff (W := 2) ⟨?_, ?_, forall_mem_cons.mpr ⟨⟨?_, ?_⟩,
    forall_mem_singleton.mpr ⟨?_, ?_⟩⟩⟩ ?_ le_rfl).mpr ⟨_, .tail _ (.head _), rfl⟩ <;>
    simp [observed, deletion, Call.Below]

end Jetstream.Tombstone
