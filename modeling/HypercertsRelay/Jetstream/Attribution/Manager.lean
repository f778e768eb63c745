import HypercertsRelay.Library.System

-- Prepared coordinates, the events and policy records committed from them, and the sequence number
-- from which on events are attributed. A stored value is the record it encodes, a batch what it
-- does to the manager's own keys.
namespace Jetstream.Attribution

inductive Err
  | invalid | conflict | fingerprint
  | callback (message : String)
  deriving DecidableEq

inductive Provenance
  | live | snapshot | reconciliation | legacyUnknown
  | other (name : String)
  deriving DecidableEq

structure Boundary where
  seq : Option ℕ
  snapshotID : Option String
  deriving DecidableEq

structure Policy where
  revision : ℕ
  collections : List String
  effectiveAfterSeq : Option ℕ
  deriving DecidableEq

-- `Payload` are JSON values, `Source` what is kept of an imported event.
structure Event (Payload Source : Type) where
  streamID : String
  seq : ℕ
  policyRev : Option ℕ
  provenance : Provenance
  boundary : Boundary
  payload : Payload
  source : Option Source
  deriving DecidableEq

structure Prepared (Payload Source : Type) where
  event : Event Payload Source
  policy : Option Policy
  fingerprint : String
  segmentFingerprint : String
  deriving DecidableEq

-- The prepared coordinates stand in the order of their keys.
structure Store (Payload Source : Type) where
  prepared : List (Prepared Payload Source)
  events : ℕ → Option (Event Payload Source)
  policies : ℕ → Option Policy
  activation : Option (String × ℕ)

structure DurableEvent where
  fingerprint : String
  segmentFingerprint : String
  found : Bool

def validPolicy (p : Policy) : Bool :=
  p.revision ≠ 0 ∧ "" ∉ p.collections ∧ p.collections.Nodup

-- What the functions of the standard library tell about an event.
structure Codec (Payload Source : Type) where
  validPayload : Payload → Bool
  fingerprint : Event Payload Source → String
  validSource : Source → Bool

-- What a callback does with its batch. It writes nothing under the keys of the manager.
abbrev Callback := Option (Except Err Unit)

def Callback.run : Callback → Except Err Unit
  | none => .ok ()
  | some r => r

-- A caller may fail before it stages the policy; then it knows the outcome, commits its batch or
-- not, and succeeds or fails.
inductive PolicyCallback
  | skip (result : Except Err Unit)
  | stage (after : Except Err Unit → Bool × Except Err Unit)

section

def validBoundary (e : Event Payload Source) : Bool :=
  match e.provenance with
  | .legacyUnknown =>
    e.policyRev.isNone && e.boundary.seq.isNone && e.boundary.snapshotID.isNone
  | .live => e.boundary.seq.isNone && e.boundary.snapshotID.isNone
  | .snapshot | .reconciliation =>
    e.boundary.seq.isSome && e.boundary.snapshotID.isSome && e.boundary.snapshotID ≠ some ""
  | .other _ => false

def validate (codec : Codec Payload Source) (e : Event Payload Source) : Bool :=
  e.streamID ≠ "" ∧ e.seq ≠ 0 ∧ e.policyRev ≠ some 0 ∧ codec.validPayload e.payload ∧
    validBoundary e

def validEventPolicy (e : Event Payload Source) : Option Policy → Bool
  | none => e.policyRev.isNone ∧ e.provenance = .legacyUnknown
  | some policy => validPolicy policy ∧ e.policyRev = some policy.revision

-- A staged batch: the events and policies it sets, and the prepared coordinates it deletes.
structure Batch (Payload Source : Type) where
  events : ℕ → Option (Event Payload Source)
  policies : ℕ → Option Policy
  deletes : List ℕ

def Batch.empty : Batch Payload Source where
  events _ := none
  policies _ := none
  deletes := []

end

namespace Store

section

def deletePrepared (st : Store Payload Source) (seq : ℕ) : Store Payload Source :=
  { st with prepared := st.prepared.filter (·.event.seq ≠ seq) }

def apply (st : Store Payload Source) (b : Batch Payload Source) (activation : String × ℕ) :
    Store Payload Source where
  prepared := st.prepared.filter (·.event.seq ∉ b.deletes)
  events n := (b.events n).or (st.events n)
  policies r := (b.policies r).or (st.policies r)
  activation := some activation

def setPolicy (st : Store Payload Source) (policy : Policy) : Store Payload Source :=
  { st with policies := Function.update st.policies policy.revision (some policy) }

def lookupPolicy (st : Store Payload Source) (revision : ℕ) : Except Err Policy :=
  if revision = 0 then
    .error .invalid
  else
    match st.policies revision with
    | none => .error .invalid
    | some policy =>
      if validPolicy policy ∧ policy.revision = revision then .ok policy else .error .invalid

-- The record that is staged, if there is one to write.
def stagePolicy (st : Store Payload Source) (policy : Policy) : Except Err (Option Policy) :=
  match st.policies policy.revision with
  | none => .ok (some policy)
  | some prior =>
    if ¬validPolicy prior then .error .invalid
    else if prior ≠ policy then .error .conflict
    else .ok none

def withPolicyCommit (st : Store Payload Source) (policy : Policy) :
    Option PolicyCallback → Store Payload Source × Except Err Unit
  | none => (st, .error .invalid)
  | some callback =>
    let sorted := { policy with collections := policy.collections.insertionSort (· ≤ ·) }
    if ¬validPolicy policy ∨ ¬validPolicy sorted then
      (st, .error .invalid)
    else
      match callback with
      -- A callback that does not stage is an error even when it succeeds.
      | .skip (.error e) => (st, .error e)
      | .skip (.ok ()) => (st, .error .invalid)
      | .stage after =>
        let staged := st.stagePolicy sorted
        let outcome := after (staged.map fun _ => ())
        let committed := if outcome.fst then
            match staged with
            | .ok (some record) => st.setPolicy record
            | .ok none | .error _ => st
          else
            st
        (committed, outcome.snd)

-- The batch of the initial policy is committed when it could be staged.
def commitStaged : PolicyCallback :=
  .stage fun staged => (staged.toBool, staged)

def ensureInitialPolicyHistory (st : Store Payload Source) (current : Policy)
    (boundary : Option ℕ) : Store Payload Source × Except Err Unit :=
  if ¬validPolicy current then
    (st, .error .invalid)
  else
    match st.lookupPolicy current.revision with
    | .ok prior =>
      (st, if prior.collections = current.collections then .ok () else .error .conflict)
    | .error _ =>
      st.withPolicyCommit { current with effectiveAfterSeq := boundary } (some commitStaged)

end

variable [DecidableEq Payload] [DecidableEq Source]
  (streamID : String) (codec : Codec Payload Source)

def putCoordinate (st : Store Payload Source) (p : Prepared Payload Source) :
    Store Payload Source × Except Err Unit :=
  match st.prepared.find? (·.event.seq = p.event.seq) with
  | some old => (st, if old = p then .ok () else .error .conflict)
  | none =>
    ({ st with prepared := st.prepared.orderedInsert (·.event.seq ≤ ·.event.seq) p }, .ok ())

def prepare (st : Store Payload Source) (e : Event Payload Source) (policies : List Policy) :
    Store Payload Source × Except Err Unit :=
  if e.streamID ≠ streamID ∨ ¬validate codec e then
    (st, .error .invalid)
  else
    match policies with
    | [] =>
      if validEventPolicy e none then st.putCoordinate ⟨e, none, codec.fingerprint e, ""⟩
      else (st, .error .invalid)
    | [policy] =>
      if validEventPolicy e (some policy) then
        st.putCoordinate ⟨e, some policy, codec.fingerprint e, ""⟩
      else
        (st, .error .invalid)
    | _ => (st, .error .invalid)

def prepareSegment (st : Store Payload Source) (seq : ℕ) (payload : Payload)
    (segmentFingerprint eventStreamID : String) (policy : Policy) (provenance : Provenance)
    (boundary : Boundary) (source : Option Source) : Store Payload Source × Except Err Unit :=
  let e : Event Payload Source :=
    ⟨eventStreamID, seq, some policy.revision, provenance, boundary, payload, source⟩
  if (∃ s ∈ source, ¬codec.validSource s) ∨ eventStreamID ≠ streamID ∨ ¬validate codec e ∨
      ¬validPolicy policy then
    (st, .error .invalid)
  else
    st.putCoordinate ⟨e, some policy, codec.fingerprint e, segmentFingerprint⟩

def discardPrepared (st : Store Payload Source) (p : Prepared Payload Source) :
    Store Payload Source × Except Err Unit :=
  match st.prepared.find? (·.event.seq = p.event.seq) with
  | none => (st, .ok ())
  | some existing =>
    if existing.fingerprint ≠ p.fingerprint ∨
        existing.segmentFingerprint ≠ p.segmentFingerprint then
      (st, .error .conflict)
    else
      (st.deletePrepared p.event.seq, .ok ())

def validEntry (p : Prepared Payload Source) : Bool :=
  p.event.streamID = streamID ∧ validate codec p.event ∧
    p.fingerprint = codec.fingerprint p.event ∧ validEventPolicy p.event p.policy

-- A value may be set where there is none or where there is the same one.
def free {α : Type} [DecidableEq α] (old : Option α) (new : α) : Bool :=
  ∀ a ∈ old, a = new

def stagePreparedEntry (st : Store Payload Source) (b : Batch Payload Source)
    (p : Prepared Payload Source) : Except Err (Batch Payload Source) :=
  if ¬validEntry streamID codec p then
    .error .invalid
  else if ¬free (b.events p.event.seq) p.event then
    .error .conflict
  else if ∃ policy ∈ p.policy, ¬free (b.policies policy.revision) policy then
    .error .conflict
  else if ¬free (st.events p.event.seq) p.event then
    .error .conflict
  else if ∃ policy ∈ p.policy, ¬free (st.policies policy.revision) policy then
    .error .conflict
  else
    .ok {
      events := Function.update b.events p.event.seq (some p.event)
      policies := match p.policy with
        | some policy => Function.update b.policies policy.revision (some policy)
        | none => b.policies
      deletes := p.event.seq :: b.deletes }

def minimumPreparedSeq (p : Prepared Payload Source) (ps : List (Prepared Payload Source)) : ℕ :=
  ps.foldl (fun minimum q => if q.event.seq < minimum then q.event.seq else minimum) p.event.seq

def stageActivation (st : Store Payload Source) (first : ℕ) : Except Err (String × ℕ) :=
  match st.activation with
  | none => .ok (streamID, first)
  | some (id, stored) =>
    if id ≠ streamID then .error .invalid
    else .ok (streamID, if stored < first then stored else first)

def commitBatch (st : Store Payload Source) (prepared : List (Prepared Payload Source))
    (commitMetadata : Callback) : Except Err (Store Payload Source) :=
  match prepared with
  | [] => .error .invalid
  | p :: ps =>
    if ∃ q ∈ p :: ps, q.event.seq = 0 then
      .error .invalid
    else do
      let staged ← (p :: ps).foldlM (stagePreparedEntry streamID codec st) .empty
      let activation ← st.stageActivation streamID (minimumPreparedSeq p ps)
      commitMetadata.run
      .ok (st.apply staged activation)

def samePolicy (p : Prepared Payload Source) (policy : Policy) : Bool :=
  validPolicy policy ∧ p.event.policyRev = some policy.revision ∧ p.policy = some policy

def commit (st : Store Payload Source) (p : Prepared Payload Source) (policy : Policy)
    (commitMetadata : Callback) : Except Err (Store Payload Source) :=
  if samePolicy p policy then st.commitBatch streamID codec [p] commitMetadata
  else .error .invalid

def commitLocked (st : Store Payload Source) (p : Prepared Payload Source) (policy : Policy) :
    Except Err (Store Payload Source) :=
  match p.policy with
  | none =>
    if validEventPolicy p.event none then st.commitBatch streamID codec [p] none
    else .error .invalid
  | some _ =>
    if samePolicy p policy then st.commitBatch streamID codec [p] none else .error .invalid

-- The policy of a preparation, or of a preparation of an older version, which has none.
def recoveryPolicy (p : Prepared Payload Source) (policyFor : Option (ℕ → Except Err Policy)) :
    Except Err Policy :=
  match p.event.policyRev with
  | none => .error .invalid
  | some rev =>
    let policy := p.policy.getD ⟨0, [], none⟩
    if validPolicy policy ∧ policy.revision = rev then
      .ok policy
    else if policy.collections ≠ [] ∨ policy.revision ≠ 0 then
      .error .invalid
    else
      match policyFor with
      | none => .error .invalid
      | some f => do
        let policy ← f rev
        if validPolicy policy ∧ policy.revision = rev then .ok policy else .error .invalid

def validateDurableFingerprint (p : Prepared Payload Source) (found : DurableEvent) : Bool :=
  if p.segmentFingerprint ≠ "" then found.segmentFingerprint = p.segmentFingerprint
  else found.fingerprint = p.fingerprint

def recoverEntry (st : Store Payload Source) (durableLookup : ℕ → Except Err DurableEvent)
    (policyFor : Option (ℕ → Except Err Policy)) (p : Prepared Payload Source) :
    Except Err (Store Payload Source) :=
  if p.event.streamID ≠ streamID ∨ ¬validate codec p.event then
    .error .invalid
  else if p.fingerprint ≠ codec.fingerprint p.event then
    .error .fingerprint
  else do
    let found ← durableLookup p.event.seq
    if ¬found.found then
      .ok (st.deletePrepared p.event.seq)
    else if ¬validateDurableFingerprint p found then
      .error .fingerprint
    else if p.event.policyRev.isNone ∧ p.policy.isNone ∧ p.event.provenance = .legacyUnknown then
      st.commitLocked streamID codec p ⟨0, [], none⟩
    else
      let policy ← recoveryPolicy p policyFor
      st.commitLocked streamID codec { p with policy := some policy } policy

-- The entries that were read before the first is recovered.
def recoverFrom (durableLookup : ℕ → Except Err DurableEvent)
    (policyFor : Option (ℕ → Except Err Policy)) (st : Store Payload Source) :
    List (Prepared Payload Source) → Store Payload Source × Except Err Unit
  | [] => (st, .ok ())
  | p :: ps =>
    match st.recoverEntry streamID codec durableLookup policyFor p with
    | .ok st' => recoverFrom durableLookup policyFor st' ps
    | .error e => (st, .error e)

def recover (st : Store Payload Source) (durableLookup : Option (ℕ → Except Err DurableEvent))
    (policyFor : Option (ℕ → Except Err Policy)) : Store Payload Source × Except Err Unit :=
  match durableLookup with
  | none => (st, .error .invalid)
  | some lookup => recoverFrom streamID codec lookup policyFor st st.prepared

end Store

-- The operations with their arguments.
inductive Op (Payload Source : Type)
  | prepare (e : Event Payload Source) (policies : List Policy)
  | prepareSegment (seq : ℕ) (payload : Payload) (segmentFingerprint eventStreamID : String)
    (policy : Policy) (provenance : Provenance) (boundary : Boundary) (source : Option Source)
  | commit (p : Prepared Payload Source) (policy : Policy) (commitMetadata : Callback)
  | commitBatch (prepared : List (Prepared Payload Source)) (commitMetadata : Callback)
  | discard (p : Prepared Payload Source)
  | recover (durableLookup : Option (ℕ → Except Err DurableEvent))
    (policyFor : Option (ℕ → Except Err Policy))
  | withPolicyCommit (policy : Policy) (fn : Option PolicyCallback)
  | ensureInitialPolicyHistory (current : Policy) (boundary : Option ℕ)

section

variable [DecidableEq Payload] [DecidableEq Source]
  (streamID : String) (codec : Codec Payload Source)

-- A commit that fails has written nothing.
def Store.orElse (st : Store Payload Source) :
    Except Err (Store Payload Source) → Store Payload Source × Except Err Unit
  | .ok st' => (st', .ok ())
  | .error e => (st, .error e)

def Store.run (st : Store Payload Source) : Op Payload Source →
    Store Payload Source × Except Err Unit
  | .prepare e policies => st.prepare streamID codec e policies
  | .prepareSegment seq payload fp id policy provenance boundary source =>
    st.prepareSegment streamID codec seq payload fp id policy provenance boundary source
  | .commit p policy commitMetadata => st.orElse (st.commit streamID codec p policy commitMetadata)
  | .commitBatch prepared commitMetadata =>
    st.orElse (st.commitBatch streamID codec prepared commitMetadata)
  | .discard p => st.discardPrepared p
  | .recover durableLookup policyFor => st.recover streamID codec durableLookup policyFor
  | .withPolicyCommit policy fn => st.withPolicyCommit policy fn
  | .ensureInitialPolicyHistory current boundary => st.ensureInitialPolicyHistory current boundary

def system : System (Store Payload Source) where
  init st := st = ⟨[], fun _ => none, fun _ => none, none⟩
  step st st' := ∃ op, st' = (st.run streamID codec op).fst

end

end Jetstream.Attribution
