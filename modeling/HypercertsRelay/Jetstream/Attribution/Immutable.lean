import HypercertsRelay.Library.Except
import HypercertsRelay.Jetstream.Attribution.Manager

-- What is committed stays: operations only add events and policy records, and the activation is the
-- least committed sequence number.
namespace Jetstream.Attribution

open List Function Except Option Store

namespace Store

def seqs (st : Store Payload Source) : Set ℕ :=
  { n | (st.events n).isSome }

def Consistent (streamID : String) (st : Store Payload Source) : Prop :=
  match st.activation with
  | none => st.seqs = ∅
  | some (id, n) => id = streamID ∧ IsLeast st.seqs n

structure Extends (streamID : String) (st st' : Store Payload Source) : Prop where
  events : ∀ n e, st.events n = some e → st'.events n = some e
  policies : ∀ r p, st.policies r = some p → st'.policies r = some p
  consistent : st.Consistent streamID → st'.Consistent streamID

namespace Extends

variable {st st' st'' : Store Payload Source}

theorem refl (st : Store Payload Source) : st.Extends streamID st where
  events _ _ h := h
  policies _ _ h := h
  consistent h := h

theorem trans (h : st.Extends streamID st') (h' : st'.Extends streamID st'') :
    st.Extends streamID st'' where
  events n e he := h'.events n e (h.events n e he)
  policies r p hp := h'.policies r p (h.policies r p hp)
  consistent hc := h'.consistent (h.consistent hc)

theorem of_events_eq (he : st'.events = st.events) (ha : st'.activation = st.activation)
    (hp : ∀ r p, st.policies r = some p → st'.policies r = some p) :
    st.Extends streamID st' where
  events n e h := by rw [he, h]
  policies := hp
  consistent h := by
    simp only [Consistent, seqs, he, ha] at h ⊢
    exact h

-- The least of more sequence numbers is not greater.
theorem activation_le (h : st.Extends streamID st') (hc : st.Consistent streamID)
    (hn : st.activation = some (streamID, n)) :
    ∃ n' ≤ n, st'.activation = some (streamID, n') := by
  have hleast : IsLeast st.seqs n := by
    simp only [Consistent, hn] at hc
    exact hc.right
  have hmem : n ∈ st'.seqs := by
    have ⟨e, he⟩ := isSome_iff_exists.mp hleast.left
    exact isSome_iff_exists.mpr ⟨e, h.events n e he⟩
  have hc' := h.consistent hc
  cases ha : st'.activation with
  | none =>
    simp only [Consistent, ha] at hc'
    rw [hc'] at hmem
    exact hmem.elim
  | some act =>
    have ⟨id, n'⟩ := act
    simp only [Consistent, ha] at hc'
    exact ⟨n', hc'.right.right hmem, by rw [hc'.left]⟩

end Extends

section Commit

variable [DecidableEq Payload] [DecidableEq Source] {st st' : Store Payload Source}
  {lookup}

structure Staged (st : Store Payload Source) (ps : List (Prepared Payload Source))
    (b : Batch Payload Source) : Prop where
  isSome : ∀ n, (b.events n).isSome ↔ ∃ p ∈ ps, p.event.seq = n
  events : ∀ n e, st.events n = some e → ∀ e' ∈ b.events n, e' = e
  policies : ∀ r p, st.policies r = some p → ∀ p' ∈ b.policies r, p' = p

omit [DecidableEq Payload] [DecidableEq Source] in
theorem staged_empty (st : Store Payload Source) : st.Staged [] .empty where
  isSome := by simp [Batch.empty]
  events := by simp [Batch.empty]
  policies := by simp [Batch.empty]

theorem free_eq_true [DecidableEq α] {old} {new} (h : free old new)
    {a : α} (ha : old = some a) : a = new :=
  of_decide_eq_true h a ha

theorem Staged.stage (h : st.Staged ps b)
    (hp : stagePreparedEntry streamID codec st b p = .ok b') : st.Staged (ps ++ [p]) b' := by
  simp only [stagePreparedEntry] at hp
  split at hp <;> [cases hp; skip]
  split at hp <;> [cases hp; skip]
  split at hp <;> [cases hp; skip]
  split at hp <;> [cases hp; skip]
  split at hp <;> [cases hp; skip]
  case isFalse.isFalse.isFalse.isFalse.isFalse _ _ _ hevent hpolicy =>
    obtain rfl := Except.ok.inj hp
    have hevent := not_not.mp hevent
    constructor
    case isSome =>
      intro n
      by_cases hn : n = p.event.seq
      · simp [hn]
      · simp only [update_of_ne hn, h.isSome, mem_append, mem_singleton]
        simp only [or_and_right, exists_or, exists_eq_left, Ne.symm hn, or_false]
    case events =>
      intro n e he e' he'
      by_cases hn : n = p.event.seq
      · subst hn
        simp only [update_self, mem_some_iff] at he'
        exact he' ▸ (free_eq_true hevent he).symm
      · dsimp only at he'
        rw [update_of_ne hn] at he'
        exact h.events n e he e' he'
    case policies =>
      intro r q hq q' hq'
      cases hpp : p.policy with
      | none =>
        rw [hpp] at hq'
        exact h.policies r q hq q' hq'
      | some policy =>
        rw [hpp] at hq'
        dsimp only at hq'
        by_cases hr : r = policy.revision
        · subst hr
          simp only [update_self, mem_some_iff] at hq'
          have hfree : free (st.policies policy.revision) policy := by
            by_contra hfree
            exact hpolicy ⟨policy, hpp, hfree⟩
          exact hq' ▸ (free_eq_true hfree hq).symm
        · rw [update_of_ne hr] at hq'
          exact h.policies r q hq q' hq'

section

omit [DecidableEq Payload] [DecidableEq Source]

theorem minimumPreparedSeq_isLeast (p : Prepared Payload Source)
    (ps : List (Prepared Payload Source)) :
    IsLeast { n | ∃ q ∈ p :: ps, q.event.seq = n } (minimumPreparedSeq p ps) := by
  suffices h : ∀ m : ℕ, IsLeast ({m} ∪ { n | ∃ q ∈ ps, q.event.seq = n })
      (ps.foldl (fun minimum q => if q.event.seq < minimum then q.event.seq else minimum) m) by
    have hset : { n | ∃ q ∈ p :: ps, q.event.seq = n } =
        {p.event.seq} ∪ { n | ∃ q ∈ ps, q.event.seq = n } := by
      ext n
      simp [eq_comm]
    rw [hset]
    exact h p.event.seq
  induction ps with
  | nil => simp
  | cons q ps ih =>
    intro m
    rw [foldl_cons, ←min_def_lt, min_comm]
    have ⟨hmem, hle⟩ := ih (min m q.event.seq)
    constructor
    case left =>
      obtain hmem | hmem := hmem
      · rw [Set.mem_singleton_iff.mp hmem]
        obtain hm | hq := min_choice m q.event.seq
        · exact .inl hm
        · exact .inr ⟨q, mem_cons_self, hq.symm⟩
      · have ⟨q', hq', hseq⟩ := hmem
        exact .inr ⟨q', mem_cons_of_mem _ hq', hseq⟩
    case right =>
      intro n hn
      have hfirst := hle (.inl rfl)
      obtain hn | hn := hn
      · exact hfirst.trans (hn ▸ min_le_left _ _)
      · have ⟨q', hq', hseq⟩ := hn
        obtain heq | hq' := mem_cons.mp hq'
        · exact hfirst.trans (hseq ▸ heq ▸ min_le_right _ _)
        · exact hle (.inr ⟨q', hq', hseq⟩)

theorem stageActivation_isLeast (hc : st.Consistent streamID) (hS : IsLeast S first)
    (h : st.stageActivation streamID first = .ok act) :
    act.fst = streamID ∧ IsLeast (S ∪ st.seqs) act.snd := by
  simp only [stageActivation] at h
  simp only [Consistent] at hc
  split at h
  case h_1 hnone =>
    obtain rfl := Except.ok.inj h
    rw [hnone] at hc
    simp only [hc, Set.union_empty]
    exact ⟨trivial, hS⟩
  case h_2 id stored hsome =>
    rw [hsome] at hc
    split at h <;> [cases h; skip]
    obtain rfl := Except.ok.inj h
    refine ⟨rfl, ?_⟩
    rw [←min_def_lt, min_comm]
    exact hS.union hc.right

theorem Staged.apply (h : st.Staged ps b) (hfirst : IsLeast { n | ∃ q ∈ ps, q.event.seq = n } first)
    (hact : st.stageActivation streamID first = .ok act) :
    st.Extends streamID (st.apply b act) where
  events n e he := by
    simp only [Store.apply]
    cases hb : b.events n with
    | none => exact he
    | some e' => exact congrArg some (h.events n e he e' hb)
  policies r p hp := by
    simp only [Store.apply]
    cases hb : b.policies r with
    | none => exact hp
    | some p' => exact congrArg some (h.policies r p hp p' hb)
  consistent hc := by
    have hseqs : (st.apply b act).seqs = { n | ∃ q ∈ ps, q.event.seq = n } ∪ st.seqs := by
      ext n
      simp only [seqs, Store.apply, Set.mem_ofPred_eq, Set.mem_union, isSome_or,
        Bool.or_eq_true, h.isSome]
    simp only [Consistent]
    rw [hseqs]
    exact stageActivation_isLeast hc hfirst hact

end

theorem commitBatch_extends
    (h : st.commitBatch streamID codec ps cb = .ok st') : st.Extends streamID st' := by
  cases ps with
  | nil => cases h
  | cons p ps =>
    simp only [commitBatch] at h
    split at h <;> [cases h; skip]
    simp only [bind_eq_ok] at h
    obtain ⟨b, hb, act, hact, _, _, hst⟩ := h
    obtain rfl := Except.ok.inj hst
    have hstaged : st.Staged (p :: ps) b := foldlM_invariant (P := st.Staged) st.staged_empty
        (fun l q b b' _ hl hq => hl.stage hq) hb
    exact hstaged.apply (minimumPreparedSeq_isLeast p ps) hact

theorem commit_extends
    (h : st.commit streamID codec p policy cb = .ok st') : st.Extends streamID st' := by
  simp only [commit] at h
  split at h
  · exact commitBatch_extends h
  · cases h

theorem commitLocked_extends
    (h : st.commitLocked streamID codec p policy = .ok st') : st.Extends streamID st' := by
  simp only [commitLocked] at h
  split at h <;> split at h
  case h_1.isTrue => exact commitBatch_extends h
  case h_1.isFalse => cases h
  case h_2.isTrue => exact commitBatch_extends h
  case h_2.isFalse => cases h

theorem recoverEntry_extends (h : st.recoverEntry streamID codec lookup policyFor p = .ok st') :
    st.Extends streamID st' := by
  simp only [recoverEntry] at h
  split at h <;> [cases h; skip]
  split at h <;> [cases h; skip]
  have ⟨found, _, h⟩ := bind_eq_ok.mp h
  split at h
  · obtain rfl := Except.ok.inj h
    exact .of_events_eq rfl rfl fun _ _ hp => hp
  split at h <;> [cases h; skip]
  split at h
  · exact commitLocked_extends h
  · have ⟨policy, _, h⟩ := bind_eq_ok.mp h
    exact commitLocked_extends h

-- Each entry that is recovered is a commit of its own, also when a later one fails.
theorem recoverFrom_extends (ps : List (Prepared Payload Source)) :
    st.Extends streamID (recoverFrom streamID codec lookup policyFor st ps).fst := by
  induction ps generalizing st with
  | nil => exact .refl st
  | cons p ps ih =>
    rw [recoverFrom]
    split
    case h_1 st' h => exact (recoverEntry_extends h).trans ih
    case h_2 => exact .refl st

end Commit

section Policy

variable {st : Store Payload Source}

theorem stagePolicy_new (h : st.stagePolicy policy = .ok (some record)) :
    record = policy ∧ st.policies policy.revision = none := by
  simp only [stagePolicy] at h
  split at h
  case h_1 hnone => exact ⟨(Option.some.inj (Except.ok.inj h)).symm, hnone⟩
  case h_2 =>
    split at h <;> [cases h; skip]
    split at h <;> [cases h; skip]
    cases h

theorem setPolicy_policies (h : st.policies policy.revision = none) (r : ℕ)
    (p : Policy) (hp : st.policies r = some p) : (st.setPolicy policy).policies r = some p := by
  have hne : r ≠ policy.revision := by
    rintro rfl
    rw [h] at hp
    cases hp
  simpa only [setPolicy, update_of_ne hne] using hp

-- At most one record is added, and nothing else is touched.
theorem withPolicyCommit_keeps (policy : Policy) (fn : Option PolicyCallback) :
    (st.withPolicyCommit policy fn).fst.events = st.events ∧
    (st.withPolicyCommit policy fn).fst.activation = st.activation ∧
    ∀ r p, st.policies r = some p → (st.withPolicyCommit policy fn).fst.policies r = some p := by
  have hsame : st.events = st.events ∧ st.activation = st.activation ∧
      ∀ r p, st.policies r = some p → st.policies r = some p :=
    ⟨rfl, rfl, fun _ _ h => h⟩
  cases fn with
  | none => exact hsame
  | some cb =>
    simp only [withPolicyCommit]
    split
    · exact hsame
    split
    case h_1 => exact hsame
    case h_2 => exact hsame
    case h_3 after =>
      split <;> [skip; exact hsame]
      split <;> [skip; exact hsame; exact hsame]
      case h_1 record hrecord =>
        have ⟨heq, hnone⟩ := stagePolicy_new hrecord
        rw [←heq] at hnone
        exact ⟨rfl, rfl, setPolicy_policies hnone⟩

theorem ensureInitialPolicyHistory_keeps (current : Policy) (boundary : Option ℕ) :
    (st.ensureInitialPolicyHistory current boundary).fst.events = st.events ∧
    (st.ensureInitialPolicyHistory current boundary).fst.activation = st.activation ∧
    ∀ r p, st.policies r = some p →
      (st.ensureInitialPolicyHistory current boundary).fst.policies r = some p := by
  simp only [ensureInitialPolicyHistory]
  split
  · exact ⟨rfl, rfl, fun _ _ h => h⟩
  · split
    case h_1 => exact ⟨rfl, rfl, fun _ _ h => h⟩
    case h_2 => exact withPolicyCommit_keeps _ _

theorem ensureInitialPolicyHistory_error
    (h : (st.ensureInitialPolicyHistory current boundary).snd = .error e) :
    (st.ensureInitialPolicyHistory current boundary).fst = st := by
  simp only [ensureInitialPolicyHistory] at h ⊢
  split
  · rfl
  case isFalse hv =>
    rw [if_neg hv] at h
    split
    case h_1 => rfl
    case h_2 hlookup =>
      simp only [hlookup, withPolicyCommit, commitStaged] at h ⊢
      split
      · rfl
      case isFalse hvalid =>
        rw [if_neg hvalid] at h
        cases hs : st.stagePolicy
            ⟨current.revision, current.collections.insertionSort (· ≤ ·), boundary⟩ with
        | error e' => rfl
        | ok record =>
          rw [hs] at h
          cases h

end Policy

section Run

variable [DecidableEq Payload] [DecidableEq Source] {st : Store Payload Source}

-- Preparing and discarding touch nothing that is committed.
def SameCommitted (st st' : Store Payload Source) : Prop :=
  st'.events = st.events ∧ st'.policies = st.policies ∧ st'.activation = st.activation

section

omit [DecidableEq Payload] [DecidableEq Source]

theorem SameCommitted.refl (st : Store Payload Source) : st.SameCommitted st :=
  ⟨rfl, rfl, rfl⟩

theorem SameCommitted.extends (h : st.SameCommitted st') : st.Extends streamID st' :=
  .of_events_eq h.left h.right.right fun r p hp => by rw [h.right.left, hp]

end

theorem putCoordinate_same (p : Prepared Payload Source) :
    st.SameCommitted (st.putCoordinate p).fst := by
  simp only [putCoordinate]
  split
  case h_1 => exact .refl st
  case h_2 => exact ⟨rfl, rfl, rfl⟩

theorem prepare_same (e : Event Payload Source) (policies : List Policy) :
    st.SameCommitted (st.prepare streamID codec e policies).fst := by
  simp only [prepare]
  split
  · exact .refl st
  · split
    case h_1 => split <;> [exact putCoordinate_same _; exact .refl st]
    case h_2 => split <;> [exact putCoordinate_same _; exact .refl st]
    case h_3 => exact .refl st

theorem prepareSegment_same (seq : ℕ) (payload : Payload) (fp id : String) (policy : Policy)
    (provenance : Provenance) (boundary : Boundary) (source : Option Source) :
    st.SameCommitted (st.prepareSegment streamID codec seq payload fp id policy provenance
      boundary source).fst := by
  simp only [prepareSegment]
  split
  · exact .refl st
  · exact putCoordinate_same _

omit [DecidableEq Payload] [DecidableEq Source] in
theorem discardPrepared_same (p : Prepared Payload Source) :
    st.SameCommitted (st.discardPrepared p).fst := by
  simp only [discardPrepared]
  split
  case h_1 => exact .refl st
  case h_2 => split <;> [exact .refl st; exact ⟨rfl, rfl, rfl⟩]

theorem run_extends (op : Op Payload Source) :
    st.Extends streamID (st.run streamID codec op).fst := by
  cases op with
  | prepare e policies => exact (prepare_same e policies).extends
  | prepareSegment seq payload fp id policy provenance boundary source =>
    exact (prepareSegment_same ..).extends
  | commit p policy cb =>
    simp only [run]
    cases h : st.commit streamID codec p policy cb with
    | ok st' => exact commit_extends h
    | error e => exact .refl st
  | commitBatch ps cb =>
    simp only [run]
    cases h : st.commitBatch streamID codec ps cb with
    | ok st' => exact commitBatch_extends h
    | error e => exact .refl st
  | discard p => exact (discardPrepared_same p).extends
  | recover lookup policyFor =>
    cases lookup with
    | none => exact .refl st
    | some lookup => exact recoverFrom_extends st.prepared
  | withPolicyCommit policy fn =>
    have ⟨he, ha, hp⟩ := st.withPolicyCommit_keeps policy fn
    exact .of_events_eq he ha hp
  | ensureInitialPolicyHistory current boundary =>
    have ⟨he, ha, hp⟩ := st.ensureInitialPolicyHistory_keeps current boundary
    exact .of_events_eq he ha hp

theorem run_error (h : (st.run streamID codec op).snd = .error e)
    (hrecover : ∀ lookup policyFor, op ≠ .recover lookup policyFor) :
    (st.run streamID codec op).fst.events = st.events ∧
    (st.run streamID codec op).fst.activation = st.activation ∧
    ((∀ policy fn, op ≠ .withPolicyCommit policy fn) →
      (st.run streamID codec op).fst.policies = st.policies) := by
  have hsame {st'} (hs : st.SameCommitted st') :
      st'.events = st.events ∧ st'.activation = st.activation ∧
        ((∀ policy fn, op ≠ .withPolicyCommit policy fn) → st'.policies = st.policies) :=
    ⟨hs.left, hs.right.right, fun _ => hs.right.left⟩
  cases op with
  | prepare e policies => exact hsame (prepare_same e policies)
  | prepareSegment seq payload fp id policy provenance boundary source =>
    exact hsame (prepareSegment_same ..)
  | commit p policy cb =>
    simp only [run] at h ⊢
    cases hc : st.commit streamID codec p policy cb with
    | ok st' => simp [hc, orElse] at h
    | error e => exact hsame (.refl st)
  | commitBatch ps cb =>
    simp only [run] at h ⊢
    cases hc : st.commitBatch streamID codec ps cb with
    | ok st' => simp [hc, orElse] at h
    | error e => exact hsame (.refl st)
  | discard p => exact hsame (discardPrepared_same p)
  | recover lookup policyFor => exact absurd rfl (hrecover lookup policyFor)
  | withPolicyCommit policy fn =>
    have ⟨he, ha, _⟩ := st.withPolicyCommit_keeps policy fn
    exact ⟨he, ha, fun hne => absurd rfl (hne policy fn)⟩
  | ensureInitialPolicyHistory current boundary =>
    have heq := ensureInitialPolicyHistory_error h
    exact hsame (heq.symm ▸ .refl st)

end Run
end Store

section

variable [DecidableEq Payload] [DecidableEq Source] {streamID : String}
  {codec : Codec Payload Source}

theorem runs_extends (h : (system streamID codec).Runs st st') : st.Extends streamID st' := by
  induction h with
  | refl => exact .refl st
  | tail _ e ih =>
    have ⟨op, hop⟩ := e
    exact ih.trans (hop ▸ run_extends op)

theorem reachable_consistent
    (h : (system streamID codec).Reachable st) : st.Consistent streamID := by
  refine h.invariant (fun st hi => ?_) fun st st' _ hc e => ?_
  · rw [hi]
    simp [Store.Consistent, seqs]
  · have ⟨op, hop⟩ := e
    exact hop ▸ (run_extends op).consistent hc

theorem attribution_immutable
    (h : (system streamID codec).Reachable st) :
    st.Consistent streamID ∧
    (∀ st', (system streamID codec).Runs st st' →
      (∀ n e, st.events n = some e → st'.events n = some e) ∧
      (∀ r p, st.policies r = some p → st'.policies r = some p) ∧
      ∀ n, st.activation = some (streamID, n) → ∃ n' ≤ n, st'.activation = some (streamID, n')) ∧
    ∀ op e, (st.run streamID codec op).snd = .error e →
      (∀ lookup policyFor, op ≠ .recover lookup policyFor) →
        (st.run streamID codec op).fst.events = st.events ∧
        (st.run streamID codec op).fst.activation = st.activation ∧
        ((∀ policy fn, op ≠ .withPolicyCommit policy fn) →
          (st.run streamID codec op).fst.policies = st.policies) := by
  have hc := reachable_consistent h
  refine ⟨hc, fun st' hr => ?_, fun op e he hne => run_error he hne⟩
  have hx := runs_extends hr
  exact ⟨hx.events, hx.policies, fun n hn => hx.activation_le hc hn⟩

end

-- Two events without a policy are prepared, and only the first is durable as it was prepared.
def sampleCodec : Codec Unit Unit where
  validPayload _ := true
  fingerprint e := if e.seq = 1 then "one" else "two"
  validSource _ := true

def sampleEvent (seq : ℕ) : Event Unit Unit :=
  ⟨"stream", seq, none, .legacyUnknown, ⟨none, none⟩, (), none⟩

def sampleStore : Store Unit Unit :=
  let start : Store Unit Unit := ⟨[], fun _ => none, fun _ => none, none⟩
  let first := (start.run "stream" sampleCodec (.prepare (sampleEvent 1) [])).fst
  (first.run "stream" sampleCodec (.prepare (sampleEvent 2) [])).fst

def sampleEntry (seq : ℕ) (collection : String) : Prepared Unit Unit where
  event := ⟨"stream", seq, some 1, .live, ⟨none, none⟩, (), none⟩
  policy := some ⟨1, [collection], none⟩
  fingerprint := if seq = 1 then "one" else "two"
  segmentFingerprint := ""

-- After the event with seq 2, one with another policy of the same revision is refused, and one with
-- the same policy and a lower seq is committed.
theorem attribution_immutable_sample :
    let run (st : Store Unit Unit) (p : Prepared Unit Unit) :=
      st.run "stream" sampleCodec (.commitBatch [p] none)
    let st := (run ⟨[], fun _ => none, fun _ => none, none⟩ (sampleEntry 2 "a")).fst
    st.activation = some ("stream", 2) ∧ (run st (sampleEntry 1 "b")).snd = .error .conflict ∧
      (run st (sampleEntry 1 "b")).fst.events = st.events ∧
      (run st (sampleEntry 1 "a")).fst.events 2 = some (sampleEntry 2 "a").event ∧
      (run st (sampleEntry 1 "a")).fst.policies 1 = some ⟨1, ["a"], none⟩ ∧
      ∃ n ≤ 2, (run st (sampleEntry 1 "a")).fst.activation = some ("stream", n) := by
  intro run st
  have hst : (system "stream" sampleCodec).Reachable st := .step (.init rfl) ⟨_, rfl⟩
  have ⟨_, hruns, herror⟩ := attribution_immutable hst
  have ⟨hevents, hpolicies, hactivation⟩ := hruns _ (.single
    ⟨.commitBatch [sampleEntry 1 "a"] none, rfl⟩)
  have hconflict : (run st (sampleEntry 1 "b")).snd = .error .conflict := rfl
  exact ⟨rfl, hconflict, (herror _ _ hconflict nofun).left, hevents 2 _ rfl, hpolicies 1 _ rfl,
    hactivation 2 rfl⟩

-- A recovery that fails at its second entry has committed the first one.
theorem recover_error_activates :
    let op : Op Unit Unit := .recover (some fun _ => .ok ⟨"one", "", true⟩) none
    (system "stream" sampleCodec).Reachable sampleStore ∧ sampleStore.activation = none ∧
      (sampleStore.run "stream" sampleCodec op).snd = .error .fingerprint ∧
      (sampleStore.run "stream" sampleCodec op).fst.activation = some ("stream", 1) ∧
      (sampleStore.run "stream" sampleCodec op).fst.events 1 = some (sampleEvent 1) := by
  refine ⟨.step (.step (.init rfl) ⟨_, rfl⟩) ⟨_, rfl⟩, rfl, rfl, rfl, rfl⟩

end Jetstream.Attribution
