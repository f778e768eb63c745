import HypercertsRelay.Jetstream.Tombstone

-- The rows an ingest writer admits, and where the fence of a snapshot is asked.
namespace Jetstream.Ingest

open List
open Tombstone

def tooLong (field : String) (size max : ℕ) : Except String Unit :=
  if max < size then
    .error s!"segment: event field exceeds column width: {field} is {size} bytes (max {max})"
  else
    .ok ()

def validateEvent (ev : Event) : Except String Unit := do
  tooLong "did" ev.did.utf8ByteSize (2 ^ 16 - 1)
  tooLong "collection" ev.collection.utf8ByteSize (2 ^ 8 - 1)
  tooLong "rkey" ev.rkey.utf8ByteSize (2 ^ 8 - 1)
  tooLong "rev" ev.rev.utf8ByteSize (2 ^ 8 - 1)
  tooLong "payload" ev.payload.length (2 ^ 32 - 1)

inductive Provenance
  | live | snapshot | reconciliation | legacyUnknown
  deriving DecidableEq, Repr

structure Policy where
  revision : ℕ
  collections : List String
  deriving DecidableEq, Repr

structure Boundary where
  seq : Option ℕ
  snapshotID : Option String
  deriving DecidableEq, Repr

structure ImportedSource where
  seq : ℕ
  segmentFingerprint : String
  deriving DecidableEq, Repr

structure AttributionMetadata where
  streamID : String
  policy : Policy
  provenance : Provenance
  boundary : Boundary
  source : Option ImportedSource
  deriving DecidableEq, Repr

-- What the store of attributions answers. Its records do not bear on the rows.
structure Attribution where
  prepareSegment : AttributionMetadata → Event → Except String Unit

def errInvalid := "invalid attribution"

def validPolicy (p : Policy) : Bool :=
  p.revision != 0 && !p.collections.contains "" && p.collections.Nodup

-- The payloads that are validated in this package are never empty.
def AttributionMetadata.validate (m : AttributionMetadata) (seq : ℕ) : Except String Unit :=
  if m.streamID = "" ∨ seq = 0 ∨ m.policy.revision = 0 then
    .error errInvalid
  else match m.provenance with
    | .legacyUnknown => .error errInvalid
    | .live =>
      if m.boundary.seq.isSome ∨ m.boundary.snapshotID.isSome then .error errInvalid else .ok ()
    | .snapshot | .reconciliation =>
      if m.boundary.seq.isNone ∨ m.boundary.snapshotID.isNone ∨ m.boundary.snapshotID = some "" then
        .error errInvalid
      else
        .ok ()

def AttributionMetadata.validateSegment (m : AttributionMetadata) (ev : Event) :
    Except String Unit :=
  if m.streamID = "" ∨ ev.seq = 0 ∨ !validPolicy m.policy then .error errInvalid
  else m.validate ev.seq

structure Config where
  codec : Codec
  attribution : Option Attribution
  fingerprintSegment : Event → String

-- The archive in the order of its files, then the rows no block holds yet. A snapshot boundary
-- gives a revision for each collection of a repository.
structure Writer where
  closed : Bool
  durable : List Event
  pending : List Event
  nextSeq : ℕ
  boundaries : AList fun _ : String => AList fun _ : String => String
  collectionPolicy : Option (List String)
  ascending : (durable ++ pending).Pairwise (·.seq < ·.seq)
  below : ∀ row ∈ durable ++ pending, row.seq < nextSeq

namespace Writer

def rows (w : Writer) : List Event :=
  w.durable ++ w.pending

theorem rows_ascending (w : Writer) : w.rows.Pairwise (·.seq < ·.seq) :=
  w.ascending

-- The row gets the next sequence number.
def push (w : Writer) (ev : Event) : Writer :=
  { w with
    pending := w.pending ++ [{ ev with seq := w.nextSeq }]
    nextSeq := w.nextSeq + 1
    ascending := by
      rw [←append_assoc, pairwise_append]
      exact ⟨w.ascending, pairwise_singleton _ _, by simpa using w.below⟩
    below := by
      intro row hr
      rw [←append_assoc, mem_append, mem_singleton] at hr
      obtain hr | hr := hr
      · exact (w.below row hr).trans (Nat.lt_succ_self _)
      · exact hr ▸ Nat.lt_succ_self _ }

def flush (w : Writer) : Writer :=
  { w with
    durable := w.durable ++ w.pending
    pending := []
    ascending := by simpa using w.ascending
    below := by simpa using w.below }

-- The rows of a repository and collection up to this revision are fenced off.
def boundary (w : Writer) (did collection : String) : String :=
  ((w.boundaries.lookup did).bind (·.lookup collection)).getD ""

def allows (w : Writer) (ev : Event) : Bool :=
  match w.collectionPolicy with
  | none => true
  | some collections => !ev.kind.isCommit || collections.contains ev.collection

def snapshotSupersedes (cfg : Config) (w : Writer) (ev : Event)
    (metadata : Option AttributionMetadata) : Except String Bool :=
  if w.collectionPolicy = none ∨ ev.rev = "" then
    .ok false
  else match w.boundaries.lookup ev.did with
    | none => .ok false
    | some revisions =>
      if ev.kind.isCommit then
        .ok (ev.rev ≤ (revisions.lookup ev.collection).getD "")
      else if ev.kind = .sync then do
        match ← decodeScopedSync cfg.codec ev with
        | some _ => return false
        | none =>
          match metadata with
          | some m =>
            if m.provenance = .live ∧ m.source = none then return false
            else .error "whole-repo sync requires scoped reconciliation after a snapshot"
          | none => .error "whole-repo sync requires scoped reconciliation after a snapshot"
      else
        .ok false

def errClosed := "ingest: writer is closed"

def checkMetadata (metadata : Option AttributionMetadata) : Except String Unit :=
  match metadata with
  | some m =>
    if m.streamID = "" ∨ m.policy.revision = 0 then
      .error s!"ingest: invalid attribution metadata: {errInvalid}"
    else
      .ok ()
  | none => .ok ()

def validateAppendMetadata (cfg : Config) (metadata : Option AttributionMetadata) :
    Except String Unit :=
  if metadata.isSome ∧ cfg.attribution.isNone then
    .error "ingest: attribution manager is required"
  else if cfg.attribution.isSome ∧ metadata.isNone then
    .error "ingest: attributed writer requires AppendAttributed metadata"
  else
    checkMetadata metadata

def prepareAttribution (cfg : Config) (candidate : Event) (metadata : Option AttributionMetadata) :
    Except String Unit :=
  match cfg.attribution, metadata with
  | some a, some m =>
    (a.prepareSegment m candidate).mapError fun err => s!"ingest: prepare attribution: {err}"
  | _, _ => .ok ()

-- A row that is filtered out or fenced off is accepted and leaves no trace.
def appendAttributedLocked (cfg : Config) (w : Writer) (ev : Event)
    (metadata : Option AttributionMetadata) : Except String Writer := do
  validateAppendMetadata cfg metadata
  if w.closed then
    .error errClosed
  else if !w.allows ev then
    return w
  else if ← w.snapshotSupersedes cfg ev metadata then
    return w
  else if ∃ m ∈ metadata, ∃ src ∈ m.source, src.seq ≠ ev.seq then
    .error s!"ingest: imported source sequence mismatch: {errInvalid}"
  else
    prepareAttribution cfg { ev with seq := w.nextSeq } metadata
    (validateEvent ev).mapError fun err => s!"ingest: append: {err}"
    return w.push ev

def validateCandidate (cfg : Config) (ev : Event) (nextSeq : ℕ)
    (metadata : Option AttributionMetadata) : Except String Unit :=
  match metadata with
  | some m => do
    if ∃ src ∈ m.source, src.seq ≠ ev.seq ∨ src.segmentFingerprint ≠ cfg.fingerprintSegment ev then
      .error s!"ingest: imported source sequence mismatch: {errInvalid}"
    (m.validateSegment { ev with seq := nextSeq }).mapError
      fun err => s!"ingest: validate attribution: {err}"
  | none => .ok ()

def batchCandidate (cfg : Config) (w : Writer) (ev : Event) (nextSeq : ℕ)
    (metadata : Option AttributionMetadata) : Except String (Option Event) := do
  if !w.allows ev then
    return none
  else if ← w.snapshotSupersedes cfg ev metadata then
    return none
  else
    validateCandidate cfg ev nextSeq metadata
    return some { ev with seq := nextSeq }

def prepareBatchCandidate (cfg : Config) (w : Writer) (metadata : Option AttributionMetadata)
    (candidates : List Event) (ev : Event) : Except String (List Event) := do
  validateEvent ev
  match ← w.batchCandidate cfg ev (w.nextSeq + candidates.length) metadata with
  | none => return candidates
  | some candidate => return candidates ++ [candidate]

def prepareBatchCandidates (cfg : Config) (w : Writer) (events : List Event)
    (metadata : Option AttributionMetadata) : Except String (List Event) := do
  let candidates ← events.foldlM (w.prepareBatchCandidate cfg metadata) []
  candidates.forM fun candidate => prepareAttribution cfg candidate metadata
  return candidates

-- The candidates of a batch are all prepared before the first of them is written.
def batchCandidates (cfg : Config) (w : Writer) (events : List Event)
    (metadata : Option AttributionMetadata) : Except String (List Event) := do
  if w.closed then
    .error errClosed
  else if cfg.attribution.isSome ∧ metadata.isNone then
    .error "ingest: attributed writer requires batch metadata"
  else
    checkMetadata metadata
    w.prepareBatchCandidates cfg events metadata

-- A candidate was numbered from the same counter, so publishing it keeps its number.
def writeBatchCandidates (w : Writer) (candidates : List Event) : Writer :=
  candidates.foldl push w

def appendBatchCoreLocked (cfg : Config) (w : Writer) (events : List Event)
    (metadata : Option AttributionMetadata) : Except String Writer :=
  w.writeBatchCandidates <$> w.batchCandidates cfg events metadata

end Writer

end Jetstream.Ingest
