import HypercertsRelay.Library.System
import HypercertsRelay.Jetstream.ActiveSegment

-- The files of a writer and its counter, what a crash may leave of them, and how the next sequence
-- number is found.
namespace Jetstream.Ingest.Recovery

open ActiveSegment

-- The sealed segments by index, the file behind them, and the stored counter, zero if absent.
structure Disk (g : Gloom) where
  sealed : List (Segment g)
  active : Option Bytes
  seqNext : ℕ

structure Opened (g : Gloom) where
  disk : Disk g
  nextSeq : ℕ

section Open

variable {g : Gloom} (c : BlockCodec)

def scanMaxSeq (blocks : List (List Event)) : Option ℕ :=
  (blocks.flatten.map (·.seq)).max?

-- The upper bound of the newest segment that ever had a row.
def recoverSealedTailMaxSeq (segs : List (Segment g)) : Option ℕ :=
  (segs.reverse.find? (0 < ·.header.maxSeq)).map (·.header.maxSeq)

-- The file to go on with, the largest number the newest segment knows of, and the older segments.
def resume (d : Disk g) : Except String (Bytes × Option ℕ × List (Segment g)) :=
  match d.active with
  | some bytes => do
    let (file, blocks) ← c.new bytes
    return (file, scanMaxSeq blocks, d.sealed)
  | none =>
    match d.sealed.getLast? with
    | none => return (reservedHeader, none, [])
    | some seg =>
      let maxSeq := if 0 < seg.header.maxSeq then some seg.header.maxSeq else none
      return (reservedHeader, maxSeq, d.sealed.dropLast)

def openWriter (d : Disk g) : Except String (Opened g) := do
  let (file, found, older) ← resume c d
  let reconciled := match found.or (recoverSealedTailMaxSeq older) with
    | some m => max d.seqNext (m + 1)
    | none => d.seqNext
  return ⟨⟨d.sealed, some file, reconciled⟩, max reconciled 1⟩

def readBlocks : List Bytes → List (List Event)
  | [] => []
  | frame :: fs =>
    match c.decodeBlock (frame.drop 8) with
    | .ok (row :: rows) => (row :: rows) :: readBlocks fs
    | _ => []

def Disk.rows (d : Disk g) : List Event :=
  d.sealed.flatMap (·.rows) ++
    (readBlocks c (frames.records ((d.active.getD []).drop reservedHeaderBytes))).flatten

end Open

-- What the writer is about to do. From `footing` on it holds its lock to the end of the rotation.
inductive Phase
  | ready
  | writing (rows : List Event)
  | written (nextSeq : ℕ)
  | footing
  | heading
  | sealed
  deriving DecidableEq, Repr

def Phase.unlocked : Phase → Bool
  | .ready | .writing _ | .written _ => true
  | .footing | .heading | .sealed => false

-- `pending` are the rows of the block being filled, `prepared` the blocks to be written.
structure Proc where
  nextSeq : ℕ
  pending : List Event
  prepared : List (List Event)
  phase : Phase

-- `history` are the rows as they became durable, `dropped` those compaction has removed, and
-- `unsynced` the last ones in the file if a crash has left them there and nothing was synced since.
structure State (g : Gloom) where
  disk : Disk g
  proc : Option Proc
  history : List Event
  dropped : List Event
  unsynced : List Event

section Step

variable {g : Gloom} (c : BlockCodec)

def Blocks (bytes : Bytes) (blocks : List (List Event)) : Prop :=
  c.walkActiveFrames (frames.records (bytes.drop reservedHeaderBytes)) = .ok blocks

-- What a crash leaves on the disk. Of a write that was not synced any part may be there.
inductive Crash (d : Disk g) : Phase → Disk g → List Event → Prop
  | ready : Crash d .ready d []
  | written {n} : Crash d (.written n) d []
  | torn {rows bytes p} :
    d.active = some bytes → p <+: c.wire rows → p ≠ c.wire rows →
    Crash d (.writing rows) { d with active := some (bytes ++ p) } []
  | whole {rows bytes} :
    d.active = some bytes →
    Crash d (.writing rows) { d with active := some (bytes ++ c.wire rows) } rows
  | footer {bytes blocks p} :
    d.active = some bytes → Blocks c bytes blocks → p <+: c.footer blocks →
    Crash d .footing { d with active := some (bytes ++ p) } []
  | footed {bytes blocks} :
    d.active = some bytes → Blocks c bytes blocks →
    Crash d .heading { d with active := some (bytes ++ c.footer blocks) } []
  -- The footer is taken back when the header cannot be written.
  | unfooted : Crash d .heading d []
  | headed {bytes blocks} :
    d.active = some bytes → Blocks c bytes blocks →
    Crash d .heading { d with sealed := d.sealed ++ [.sealAfterFlush g blocks], active := none } []
  | uncreated : Crash d .sealed d []
  | created {p} : p <+: reservedHeader → Crash d .sealed { d with active := some p } []

-- What is left on the disk when the writer is not opened to the end.
inductive Interrupted (d : Disk g) : Disk g → Prop
  | truncated {bytes file} :
    d.active = some bytes → BlockCodec.resumeExistingSegment bytes = .ok file →
    Interrupted d { d with active := some file }
  | created {p} :
    d.active.getD [] = [] → p <+: reservedHeader → Interrupted d { d with active := some p }

inductive Step : State g → State g → Prop
  | opened {s o} :
    s.proc = none → openWriter c s.disk = .ok o →
    Step s
      { s with
        disk := o.disk
        proc := some ⟨o.nextSeq, [], [], .ready⟩
        -- The file is synced only where a torn end is cut off.
        unsynced := if o.disk.active = s.disk.active then s.unsynced else [] }
  | interrupted {s d} :
    s.proc = none → Interrupted s.disk d → Step s { s with disk := d }
  | append {s p} (ev : Event) :
    s.proc = some p → p.phase.unlocked → ev.seq = p.nextSeq →
    Step s
      { s with proc := some { p with pending := p.pending ++ [ev], nextSeq := p.nextSeq + 1 } }
  | prepare {s p} :
    s.proc = some p → p.phase.unlocked → c.IsBlock p.pending →
    Step s { s with proc := some { p with prepared := p.prepared ++ [p.pending], pending := [] } }
  | write {s p rows rest} :
    s.proc = some p → p.phase = .ready → p.prepared = rows :: rest →
    Step s { s with proc := some { p with prepared := rest, phase := .writing rows } }
  | sync {s p rows bytes} :
    s.proc = some p → p.phase = .writing rows → s.disk.active = some bytes →
    Step s
      { s with
        disk := { s.disk with active := some (bytes ++ c.wire rows) }
        proc := some { p with phase := .written (maxSeq rows + 1) }
        history := s.history ++ rows
        unsynced := [] }
  | commit {s p n} :
    s.proc = some p → p.phase = .written n →
    Step s
      { s with disk := { s.disk with seqNext := n }, proc := some { p with phase := .ready } }
  -- Nothing waits to be written when a rotation begins.
  | rotate {s p} :
    s.proc = some p → p.phase = .ready → p.pending = [] → p.prepared = [] →
    Step s { s with proc := some { p with phase := .footing } }
  | footer {s p} :
    s.proc = some p → p.phase = .footing →
    Step s { s with proc := some { p with phase := .heading }, unsynced := [] }
  | header {s p bytes blocks} :
    s.proc = some p → p.phase = .heading → s.disk.active = some bytes → Blocks c bytes blocks →
    Step s
      { s with
        disk := { s.disk with
          sealed := s.disk.sealed ++ [.sealAfterFlush g blocks], active := none }
        proc := some { p with phase := .sealed } }
  | create {s p} :
    s.proc = some p → p.phase = .sealed →
    Step s
      { s with
        disk := { s.disk with active := some reservedHeader }
        proc := some { p with phase := .ready } }
  | compact {s seg} (i : ℕ) (drop : Event → Bool) (dids : List String) :
    s.disk.sealed[i]? = some seg →
    Step s
      { s with
        disk := { s.disk with sealed := s.disk.sealed.set i (seg.rewrite drop dids) }
        dropped := s.dropped ++ seg.rows.filter (· ∉ (seg.rewrite drop dids).rows) }
  | crash {s p d rows} :
    s.proc = some p → Crash c s.disk p.phase d rows →
    Step s
      { s with
        disk := d, proc := none, history := s.history ++ rows, unsynced := s.unsynced ++ rows }

-- A data directory without segments. The counter may have been set by a merge before. What one
-- process leaves to the next stays.
def system (g : Gloom) (seqNext : ℕ) : System (State g) where
  init s := s = ⟨⟨[], none, seqNext⟩, none, [], [], []⟩
  step := Step c

-- A crash of the machine may take back a block that was not synced.
def machine (g : Gloom) (seqNext : ℕ) : System (State g) :=
  (system c g seqNext).extend fun s s' => s.proc = none ∧ ∃ bytes, ∃ rows, rows <:+ s.unsynced ∧
    s.disk.active = some (bytes ++ c.wire rows) ∧
    s' = { s with disk := { s.disk with active := some bytes }, unsynced := [] }

end Step

end Jetstream.Ingest.Recovery
