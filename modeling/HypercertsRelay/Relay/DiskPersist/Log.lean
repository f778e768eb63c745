import HypercertsRelay.Library.Except
import HypercertsRelay.Library.System
import HypercertsRelay.Relay.DiskPersist.Format

-- The log as it is opened, written and rotated, with everything that may go wrong on the way.
namespace Relay.DiskPersist

structure Options where
  initialSeq : ℕ
  eventsPerFile : ℕ
  initialSeq_pos : 0 < initialSeq
  eventsPerFile_pos : 0 < eventsPerFile

-- The path is the number behind `evts-`.
structure LogFileRef where
  path : ℕ
  seqStart : ℕ
  deriving DecidableEq, Repr

-- The references are in the order in which they were created. `unsynced` is how many bytes at the
-- end of a file are not durable though no process is about to sync them.
structure Disk where
  refs : List LogFileRef
  files : ℕ → Option Bytes
  unsynced : ℕ → ℕ

-- The file is synced.
def Disk.write (d : Disk) (path : ℕ) (bytes : Bytes) : Disk :=
  { d with
    files := Function.update d.files path (some bytes)
    unsynced := Function.update d.unsynced path 0 }

-- The file is not synced.
def Disk.append (d : Disk) (path : ℕ) (t : Bytes) : Disk :=
  { d with
    files := Function.update d.files path ((d.files path).map (· ++ t))
    unsynced := Function.update d.unsynced path (d.unsynced path + t.length) }

-- A file is synced if there is something to cut off.
def Disk.truncate (d : Disk) (path : ℕ) (fi : Bytes) (offset : ℕ) : Disk :=
  if offset < fi.length then d.write path (fi.take offset) else d

def Disk.register (d : Disk) (seqStart : ℕ) : Disk :=
  { d with refs := d.refs ++ [⟨seqStart, seqStart⟩] }

section

variable {d : Disk}

@[simp]
theorem Disk.refs_write : (d.write path bytes).refs = d.refs :=
  rfl

@[simp]
theorem Disk.files_register : (d.register n).files = d.files :=
  rfl

theorem Disk.files_write_self : (d.write path bytes).files path = some bytes :=
  Function.update_self ..

theorem Disk.append_empty : d.append path [] = d := by
  simp [Disk.append, Function.update_eq_self]

theorem Disk.files_write_of_ne (h : path' ≠ path) :
    (d.write path bytes).files path' = d.files path' :=
  Function.update_of_ne h ..

end

-- The first reference by descending start.
def latest : List LogFileRef → Option LogFileRef
  | [] => none
  | ref :: rs =>
    match latest rs with
    | none => some ref
    | some ref' => if ref.seqStart ≤ ref'.seqStart then some ref' else some ref

section Scan

structure Scan where
  lastSeq : Option ℕ
  offset : ℕ
  deriving DecidableEq, Repr

-- An incomplete entry at the end is cut off, but only when the log is opened.
def recoverIncompleteTail (upTo : Option ℕ) (offset : ℕ) (lastSeq : Option ℕ) :
    Except String Scan :=
  if upTo.isSome then .error "unexpected EOF" else .ok ⟨lastSeq, offset⟩

def scanEntries (upTo : Option ℕ) (torn : Bool) :
    List Bytes → Option ℕ → ℕ → Except String Scan
  | [], lastSeq, offset =>
    if torn then recoverIncompleteTail upTo offset lastSeq else .ok ⟨lastSeq, offset⟩
  | r :: rs, _, offset =>
    let eh := readHeader r
    if upTo.any (· < eh.seq)
    then .ok ⟨some eh.seq, offset⟩
    else scanEntries upTo torn rs (some eh.seq) (offset + r.length)

-- Without a bound the whole file is scanned.
def scanForLastSeq (l : Bytes) (upTo : Option ℕ) : Except String Scan :=
  let rs := entries.records l
  scanEntries upTo (rs.flatten.length < l.length) rs none 0

end Scan

-- What the mutex is held for.
inductive Phase
  | idle
  | rotating (r : Stored)
  | created (r : Stored)
  | writing (r : Stored) (rest : Bytes)
  | syncing (r : Stored)
  deriving DecidableEq, Repr

-- `tail` are the bytes behind the file that were written and not synced.
structure DiskPersistence where
  logfi : ℕ
  curSeq : ℕ
  eventCounter : ℕ
  failed : Bool
  tail : Bytes
  phase : Phase

section Open

variable (o : Options)

def initLogFile (d : Disk) : Disk × DiskPersistence :=
  ((d.write 0 []).register 0, ⟨0, o.initialSeq, 0, false, [], .idle⟩)

-- The number to go on with. An empty file leaves that to its start, unless it is the first one.
def resumeSeq (seqStart : ℕ) (lastSeq : Option ℕ) : ℕ :=
  let seq := match lastSeq with
    | none => if seqStart = 0 then o.initialSeq else seqStart
    | some n => n + 1
  max seq o.initialSeq

def resumeLog (d : Disk) : Except String (Disk × DiskPersistence) :=
  match latest d.refs with
  | none => .ok (initLogFile o d)
  | some lfr =>
    match d.files lfr.path with
    | none => .error "no such file or directory"
    | some fi => do
      let scan ← (scanForLastSeq fi none).mapError ("failed to scan log file for last seqno: " ++ ·)
      let seq := resumeSeq o lfr.seqStart scan.lastSeq
      let seqStart := max lfr.seqStart o.initialSeq
      return (d.truncate lfr.path fi scan.offset, ⟨lfr.path, seq, seq - seqStart, false, [], .idle⟩)

-- What is on the disk when opening failed half way.
inductive Unopened (d : Disk) : Disk → Prop
  | created : latest d.refs = none → Unopened d (d.write 0 [])
  | registered : latest d.refs = none → Unopened d ((d.write 0 []).register 0)
  | truncated {d' dp} : resumeLog o d = .ok (d', dp) → latest d.refs ≠ none → Unopened d d'

end Open

-- An event found complete in the log, whether its caller was told so, and its incarnation.
structure Entry where
  event : XRPCStreamEvent
  acked : Bool
  run : ℕ
  deriving DecidableEq, Repr

-- `acked` are the events that were acknowledged and broadcast.
structure State where
  disk : Disk
  proc : Option DiskPersistence
  opened : ℕ
  history : List Entry
  acked : List XRPCStreamEvent

section Step

variable (c : EventCodec) (o : Options)

def DiskPersistence.full (dp : DiskPersistence) : Prop :=
  0 < dp.eventCounter ∧ dp.eventCounter % o.eventsPerFile = 0

instance (dp : DiskPersistence) : Decidable (dp.full o) :=
  inferInstanceAs (Decidable (_ ∧ _))

def swapLog (d : Disk) (dp : DiskPersistence) : Disk × DiskPersistence :=
  ((d.write dp.curSeq []).register dp.curSeq, { dp with logfi := dp.curSeq, eventCounter := 0 })

def persistLocked (d : Disk) (dp : DiskPersistence) (r : Stored) : Disk × DiskPersistence :=
  let (d, dp) := if dp.full o then swapLog d dp else (d, dp)
  (d.write dp.logfi ((d.files dp.logfi).getD [] ++ r.bytes c),
    { dp with curSeq := dp.curSeq + 1, eventCounter := dp.eventCounter + 1 })

-- Every later call is refused until a restart.
def DiskPersistence.failLocked (dp : DiskPersistence) : DiskPersistence :=
  { dp with failed := true, phase := .idle }

-- Of what was not synced any part may be left. Files no reference leads to do not matter.
structure Stopped (d : Disk) (dp : DiskPersistence) (t : Bytes) (d' : Disk) : Prop where
  prefix_tail : t <+: dp.tail
  refs : d'.refs = d.refs
  logfi : d'.files dp.logfi = (d.files dp.logfi).map (· ++ t)
  others : ∀ ref ∈ d.refs, ref.path ≠ dp.logfi → d'.files ref.path = d.files ref.path
  unsynced : d'.unsynced = (d.append dp.logfi t).unsynced

-- A crash of the machine takes back bytes that an earlier process has left and not synced.
structure Lost (d d' : Disk) : Prop where
  refs : d'.refs = d.refs
  files : ∀ ref ∈ d.refs, ∃ n ≤ d.unsynced ref.path,
    d'.files ref.path = (d.files ref.path).map (·.rdrop n)
  unsynced : d'.unsynced = 0

inductive Step : State → State → Prop
  | opened {s d dp} :
    s.proc = none → resumeLog o s.disk = .ok (d, dp) →
    Step s { s with disk := d, proc := some dp, opened := s.opened + 1 }
  | unopened {s d} :
    s.proc = none → Unopened o s.disk d → Step s { s with disk := d }
  -- Returns at once: the log has failed, the context is done, or the event cannot be kept.
  | returned {s dp} :
    s.proc = some dp → Step s s
  | persist {s dp} (r : Stored) :
    s.proc = some dp → dp.failed = false → dp.phase = .idle → ¬dp.full o →
    r.Fits c → r.seq = dp.curSeq →
    Step s { s with proc := some { dp with phase := .writing r (r.bytes c) } }
  | rotate {s dp} (r : Stored) :
    s.proc = some dp → dp.failed = false → dp.phase = .idle → dp.full o →
    r.Fits c → r.seq = dp.curSeq →
    Step s { s with proc := some { dp with phase := .rotating r } }
  | create {s dp r} :
    s.proc = some dp → dp.phase = .rotating r →
    Step s
      { s with
        disk := s.disk.write dp.curSeq []
        proc := some { dp with phase := .created r } }
  | register {s dp r} :
    s.proc = some dp → dp.phase = .created r →
    Step s
      { s with
        disk := s.disk.register dp.curSeq
        proc := some
          { dp with logfi := dp.curSeq, eventCounter := 0, phase := .writing r (r.bytes c) } }
  | unrotated {s dp r} :
    s.proc = some dp → dp.phase = .rotating r ∨ dp.phase = .created r →
    Step s { s with proc := some dp.failLocked }
  -- The reference is there though creating it returned an error.
  | unregistered {s dp r} :
    s.proc = some dp → dp.phase = .created r →
    Step s { s with disk := s.disk.register dp.curSeq, proc := some dp.failLocked }
  | write {s dp r rest} (n : ℕ) :
    s.proc = some dp → dp.phase = .writing r rest → 0 < n → n < rest.length →
    Step s
      { s with
        proc := some
          { dp with tail := dp.tail ++ rest.take n, phase := .writing r (rest.drop n) } }
  | writeAll {s dp r rest} :
    s.proc = some dp → dp.phase = .writing r rest →
    Step s { s with proc := some { dp with tail := dp.tail ++ rest, phase := .syncing r } }
  | unwritten {s dp r rest} (n : ℕ) :
    s.proc = some dp → dp.phase = .writing r rest →
    Step s { s with proc := some { dp.failLocked with tail := dp.tail ++ rest.take n } }
  | sync {s dp r fi} :
    s.proc = some dp → dp.phase = .syncing r → s.disk.files dp.logfi = some fi →
    Step s
      { s with
        disk := s.disk.write dp.logfi (fi ++ dp.tail)
        proc := some
          { dp with
            curSeq := dp.curSeq + 1
            eventCounter := dp.eventCounter + 1
            tail := []
            phase := .idle }
        history := s.history ++ [⟨r.emitted, true, s.opened⟩]
        acked := s.acked ++ [r.emitted] }
  | unsynced {s dp r} :
    s.proc = some dp → dp.phase = .syncing r →
    Step s { s with proc := some dp.failLocked }
  -- A crash or the end of the process.
  | stop {s dp d t} :
    s.proc = some dp → Stopped s.disk dp t d →
    Step s
      { s with
        disk := d
        proc := none
        history := s.history ++ (readEntries c t).map (⟨·, false, s.opened⟩) }

-- What one process leaves to the next stays.
def system : System State where
  init s := s = ⟨⟨[], fun _ => none, 0⟩, none, 0, [], []⟩
  step := Step c o

def machine : System State :=
  (system c o).extend fun s s' => s.proc = none ∧ ∃ d, Lost s.disk d ∧ s' = { s with disk := d }

-- The events of all files.
def Disk.events (d : Disk) : List XRPCStreamEvent :=
  d.refs.flatMap fun ref => readEntries c ((d.files ref.path).getD [])

end Step

end Relay.DiskPersist
