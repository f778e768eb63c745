import HypercertsRelay.Jetstream.Ingest.Writer

-- Replacing what the archive holds of a repository by a snapshot of it.
namespace Jetstream

-- Records are told apart by this path when a snapshot is compared with the archive.
def Event.path (ev : Event) : String :=
  ev.collection ++ "/" ++ ev.rkey

namespace Ingest

open Tombstone

-- A verified repository within the given collections. It comes without the records of
-- `presentPaths`.
structure Snapshot where
  did : String
  rev : String
  collections : List String
  records : List Event
  presentPaths : List String
  appendMetadata : Option AttributionMetadata

structure SnapshotArchiveState where
  latest : AList fun _ : String => Event
  syncRev : String
  accountSeq : ℕ
  accountUnavailable : Bool

namespace SnapshotArchiveState

def empty : SnapshotArchiveState where
  latest := ∅
  syncRev := ""
  accountSeq := 0
  accountUnavailable := false

def observeAccount (c : Codec) (s : SnapshotArchiveState) (row : Event) :
    Except String SnapshotArchiveState := do
  if row.kind = .account ∧ s.accountSeq < row.seq then
    let account ← c.unmarshalAccount row.payload
    return { s with accountSeq := row.seq, accountUnavailable := !account.active }
  else
    return s

def observeSync (c : Codec) (s : SnapshotArchiveState) (row : Event) :
    Except String SnapshotArchiveState := do
  if row.kind = .sync ∧ s.syncRev < row.rev then
    match ← decodeScopedSync c row with
    | none => return { s with syncRev := row.rev }
    | some _ => return s
  else
    return s

def observeRecord (s : SnapshotArchiveState) (row : Event) : SnapshotArchiveState :=
  match s.latest.lookup row.path with
  | some old =>
    if old.rev < row.rev ∨ row.rev = old.rev ∧ old.seq < row.seq then
      { s with latest := s.latest.insert row.path { row with payload := [] } }
    else
      s
  | none => { s with latest := s.latest.insert row.path { row with payload := [] } }

def observe (c : Codec) (snapshot : Snapshot) (s : SnapshotArchiveState) (row : Event) :
    Except String SnapshotArchiveState := do
  if row.did ≠ snapshot.did then
    return s
  else
    let s ← s.observeAccount c row
    let s ← s.observeSync c row
    if row.kind.isCommit ∧ row.collection ∈ snapshot.collections then
      return s.observeRecord row
    else
      return s

def recordOutside (snapshot : Snapshot) (row : Event) : Bool :=
  row.did ≠ snapshot.did || row.rev ≠ snapshot.rev || row.collection ∉ snapshot.collections ||
    !row.kind.isMaterialization

-- The keys seen so far and the rows planned so far.
def planRecord (s : SnapshotArchiveState) (snapshot : Snapshot)
    (plan : List String × List Event) (row : Event) : Except String (List String × List Event) :=
  if recordOutside snapshot row then
    .error "snapshot record outside verified scope"
  else if row.path ∈ plan.1 then
    .error "duplicate snapshot record"
  else match s.latest.lookup row.path with
    | some old =>
      if row.rev ≤ old.rev then .ok (row.path :: plan.1, plan.2)
      else .ok (row.path :: plan.1, plan.2 ++ [{ row with kind := .update }])
    | none => .ok (row.path :: plan.1, plan.2 ++ [{ row with kind := .update }])

-- The row that deletes what the archive has at a path and the snapshot has not.
def missingRecordDelete (s : SnapshotArchiveState) (snapshot : Snapshot) (keys : List String)
    (key : String) (old : Event) : Option Event :=
  if key ∈ keys ∨ old.kind = .delete ∨ snapshot.rev ≤ old.rev ∨ old.rev < s.syncRev then
    none
  else
    some {
      seq := 0
      kind := .delete
      did := snapshot.did
      collection := old.collection
      rkey := old.rkey
      rev := snapshot.rev
      payload := [] }

def missingRecordDeletes (s : SnapshotArchiveState) (snapshot : Snapshot) (keys : List String) :
    List Event :=
  s.latest.entries.filterMap fun e => s.missingRecordDelete snapshot keys e.1 e.2

def replacementLe (a b : Event) : Bool :=
  a.collection < b.collection || a.collection == b.collection && a.rkey ≤ b.rkey

def planReplacement (s : SnapshotArchiveState) (snapshot : Snapshot) :
    Except String (List Event) := do
  let plan ← snapshot.records.foldlM (s.planRecord snapshot) (snapshot.presentPaths, [])
  let rows := (plan.2 ++ s.missingRecordDeletes snapshot plan.1).mergeSort replacementLe
  rows.forM validateEvent
  return rows

end SnapshotArchiveState

open SnapshotArchiveState

def scanSnapshotArchive (c : Codec) (rows : List Event) (snapshot : Snapshot) :
    Except String SnapshotArchiveState :=
  (rows.foldlM (observe c snapshot) .empty).mapError fun err => s!"snapshot archive scan: {err}"

-- Snapshot rows of a managed writer name the boundary they were published at.
def prepareSnapshotMetadata (w : Writer) (snapshot : Snapshot) :
    Except String (Option AttributionMetadata) :=
  match snapshot.appendMetadata with
  | none => .ok none
  | some m => do
    let boundary : Boundary := if m.provenance = .snapshot ∨ m.provenance = .reconciliation then {
        seq := m.boundary.seq.getD w.nextSeq
        snapshotID := m.boundary.snapshotID.getD (snapshot.did ++ "/" ++ snapshot.rev) }
      else
        m.boundary
    let m := { m with boundary }
    (m.validate 1).mapError fun err => s!"ingest: invalid snapshot attribution: {err}"
    return some m

-- The revisions of the repository after the snapshot was adopted.
def raiseRevision (rev : String) (revisions : AList fun _ : String => String)
    (collection : String) : AList fun _ : String => String :=
  if (revisions.lookup collection).getD "" < rev then revisions.insert collection rev
  else revisions

def Writer.persistSnapshotBoundary (w : Writer) (snapshot : Snapshot) : Writer :=
  { w with
    boundaries := w.boundaries.insert snapshot.did <|
      snapshot.collections.foldl (raiseRevision snapshot.rev)
        ((w.boundaries.lookup snapshot.did).getD ∅) }

def Writer.publishSnapshotLocked (cfg : Config) (w : Writer) (snapshot : Snapshot)
    (rows : List Event) (metadata : Option AttributionMetadata) : Except String Writer := do
  let w ← w.flush.appendBatchCoreLocked cfg rows metadata
  let w := if rows = [] then w else w.flush
  return w.persistSnapshotBoundary snapshot

-- What to publish, or nothing if a later replacement of the whole repository has won already.
def replacementRows (cfg : Config) (w : Writer) (snapshot : Snapshot) :
    Except String (Option (List Event × Option AttributionMetadata)) := do
  let state ← scanSnapshotArchive cfg.codec w.durable snapshot
  if state.accountUnavailable then
    .error "snapshot account unavailable"
  else if snapshot.rev < state.syncRev then
    return none
  else if cfg.attribution.isSome ∧ snapshot.appendMetadata.isNone then
    .error s!"ingest: managed snapshot requires append metadata: {errInvalid}"
  else if snapshot.appendMetadata.isSome ∧ cfg.attribution.isNone then
    .error s!"ingest: snapshot append metadata requires attribution manager: {errInvalid}"
  else
    let rows ← state.planReplacement snapshot
    let metadata ← prepareSnapshotMetadata w snapshot
    return some (rows, metadata)

-- A disk or a store that fails ends the call, as in `Fence`. Here all of them succeed.
def Writer.reconcileSnapshot (cfg : Config) (w : Writer) (snapshot : Snapshot) :
    Except String Writer := do
  if w.closed then
    .error Writer.errClosed
  else match ← replacementRows cfg w.flush snapshot with
    | none => return w.flush
    | some (rows, metadata) => w.flush.publishSnapshotLocked cfg snapshot rows metadata

end Ingest
end Jetstream
