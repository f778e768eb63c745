import HypercertsRelay.Library.System

-- A row is prepared in the key-value store before it is appended, and its preparation becomes a
-- committed event once its block is durable.
namespace Jetstream.Ingest.Attribution

-- `Body` is what a row holds next to its seq.
structure Row (Body : Type) where
  seq : ℕ
  body : Body

-- `Meta` is the policy, the provenance, the boundary and the source of an event.
structure Event (Meta : Type) where
  seq : ℕ
  info : Meta
deriving DecidableEq

structure Prepared (Meta F : Type) where
  event : Event Meta
  segmentFingerprint : F
deriving DecidableEq

-- Committed events stand with their preparations. The activation is zero while it is absent.
structure Store (Meta F : Type) where
  prepared : List (Prepared Meta F)
  events : List (Prepared Meta F)
  activation : ℕ
  seqNext : ℕ

variable {Body Meta F : Type} [DecidableEq Meta] [DecidableEq F]

namespace Store

def putCoordinate (st : Store Meta F) (p : Prepared Meta F) : Option (Store Meta F) :=
  match st.prepared.find? (·.event.seq = p.event.seq) with
  | some old => if old = p then some st else none
  | none => some { st with prepared := p :: st.prepared }

def deletePrepared (st : Store Meta F) (seq : ℕ) : Store Meta F :=
  { st with prepared := st.prepared.filter (·.event.seq ≠ seq) }

def discardPrepared (st : Store Meta F) (p : Prepared Meta F) : Option (Store Meta F) :=
  match st.prepared.find? (·.event.seq = p.event.seq) with
  | some existing => if existing = p then some (st.deletePrepared p.event.seq) else none
  | none => some st

def stagePreparedEntry (st : Store Meta F) (p : Prepared Meta F) : Option (Store Meta F) :=
  let staged : Store Meta F := { st.deletePrepared p.event.seq with
    events := p :: st.events.filter (·.event.seq ≠ p.event.seq) }
  match st.events.find? (·.event.seq = p.event.seq) with
  | some prior => if prior.event = p.event then some staged else none
  | none => some staged

def stageActivation (st : Store Meta F) (first : ℕ) : Store Meta F :=
  { st with activation := if st.activation = 0 then first else min st.activation first }

def commitBatch (st : Store Meta F) : List (Prepared Meta F) → Option (Store Meta F)
  | [] => none
  | p :: ps => do
    let staged ← (p :: ps).foldlM stagePreparedEntry st
    some (staged.stageActivation (ps.foldl (fun first p => min first p.event.seq) p.event.seq))

-- The metadata batch of a block.
def commitDurableBatch (st : Store Meta F) (nextSeq : ℕ) (filtered : List (Prepared Meta F)) :
    Option (Store Meta F) :=
  if filtered = [] then some { st with seqNext := nextSeq }
  else (st.commitBatch filtered).map fun st => { st with seqNext := nextSeq }

end Store

def maxSeq (rows : List (Row Body)) : ℕ :=
  (rows.map (·.seq)).foldr max 0

section Recover

variable (fingerprintSegment : Row Body → F) (rows : List (Row Body))

def recoverEntry (st : Store Meta F) (p : Prepared Meta F) : Option (Store Meta F) :=
  match rows.find? (·.seq = p.event.seq) with
  | none => some (st.deletePrepared p.event.seq)
  | some row =>
    if fingerprintSegment row = p.segmentFingerprint then st.commitBatch [p] else none

def auditAttributions (st : Store Meta F) : Bool :=
  st.activation = 0 || rows.all fun row =>
    row.seq < st.activation || st.events.any (·.event.seq = row.seq)

def recoverAttributions (st : Store Meta F) : Option (Store Meta F) := do
  -- A seq that is prepared is found in the segments once at most.
  if st.prepared.any fun p => 1 < rows.countP (·.seq = p.event.seq) then none
  let recovered ← st.prepared.foldlM (recoverEntry fingerprintSegment rows) st
  if auditAttributions rows recovered then some recovered else none

end Recover

structure Candidate (Body Meta F : Type) where
  row : Row Body
  prepared : Prepared Meta F

structure Job (Body Meta F : Type) where
  rows : List (Row Body)
  nextSeq : ℕ
  attributions : List (Prepared Meta F)

-- What the writer does while it holds its lock. With nothing left to write the lock is free.
inductive Work (Body Meta F : Type) where
  | preparing (done todo : List (Candidate Body Meta F))
  | writing (todo : List (Candidate Body Meta F))
  | discarding (rest : List (Candidate Body Meta F))
  -- A block is durable and the metadata that goes with it is not.
  | committing (nextSeq : ℕ) (attributions : List (Prepared Meta F))
    (todo : List (Candidate Body Meta F))

structure Writer (Body Meta F : Type) where
  -- The rows of the block that is being filled, and of the blocks that are being compressed.
  active : List (Row Body)
  jobs : List (Job Body Meta F)
  pendingAttributions : List (Prepared Meta F)
  nextSeq : ℕ
  durableNextSeq : ℕ
  work : Work Body Meta F

structure State (Body Meta F : Type) where
  -- The durable rows.
  rows : List (Row Body)
  store : Store Meta F
  writer : Option (Writer Body Meta F)

variable (fingerprintSegment : Row Body → F)

def candidates (nextSeq : ℕ) : List (Body × Meta) → List (Candidate Body Meta F)
  | [] => []
  | (body, info) :: l =>
    ⟨⟨nextSeq, body⟩, ⟨nextSeq, info⟩, fingerprintSegment ⟨nextSeq, body⟩⟩ ::
      candidates (nextSeq + 1) l

def pending (w : Writer Body Meta F) (nextSeq : ℕ) : List (Prepared Meta F) :=
  w.pendingAttributions.filter fun p => w.durableNextSeq ≤ p.event.seq && p.event.seq < nextSeq

def reconciled (rows : List (Row Body)) (seqNext : ℕ) : ℕ :=
  if rows.isEmpty then seqNext else max seqNext (maxSeq rows + 1)

-- The writer that is opened on the durable rows once the attributions are recovered.
def openWriter (rows : List (Row Body)) (seqNext : ℕ) : Writer Body Meta F :=
  let nextSeq := max 1 (reconciled rows seqNext)
  ⟨[], [], [], nextSeq, nextSeq, .writing []⟩

inductive Step : State Body Meta F → State Body Meta F → Prop where
  -- A batch of rows, or a single one, with its attributions.
  | appendBatch (events : List (Body × Meta)) : w.work = .writing [] →
    Step ⟨rows, st, some w⟩ ⟨rows, st, some { w with
      work := .preparing [] (candidates fingerprintSegment w.nextSeq events) }⟩
  | prepare {st st' w done todo c} :
    w.work = .preparing done (c :: todo) → st.putCoordinate c.prepared = some st' →
    Step ⟨rows, st, some w⟩ ⟨rows, st', some { w with work := .preparing (done ++ [c]) todo }⟩
  | prepareFails : w.work = .preparing done todo →
    Step ⟨rows, st, some w⟩ ⟨rows, st, some { w with work := .discarding done }⟩
  | prepared : w.work = .preparing done [] →
    Step ⟨rows, st, some w⟩ ⟨rows, st, some { w with work := .writing done }⟩
  | append : w.work = .writing (c :: todo) →
    Step ⟨rows, st, some w⟩ ⟨rows, st, some { w with
      active := w.active ++ [c.row]
      pendingAttributions := w.pendingAttributions ++ [c.prepared]
      nextSeq := w.nextSeq + 1
      work := .writing todo }⟩
  -- The segment refuses a row, or a callback fails after one.
  | appendFails : w.work = .writing todo →
    Step ⟨rows, st, some w⟩ ⟨rows, st, some { w with work := .discarding todo }⟩
  | discard : w.work = .discarding (c :: rest) →
    Step ⟨rows, st, some w⟩ ⟨rows, (st.discardPrepared c.prepared).getD st,
      some { w with work := .discarding rest }⟩
  | discarded : w.work = .discarding [] →
    Step ⟨rows, st, some w⟩ ⟨rows, st, some { w with work := .writing [] }⟩
  -- The block becomes durable within the append or the flush that fills it.
  | flushBlock : w.work = .writing todo → w.jobs = [] →
    Step ⟨rows, st, some w⟩ ⟨rows ++ w.active, st, some { w with
      active := [], work := .committing w.nextSeq (pending w w.nextSeq) todo }⟩
  -- A drain that finds preparations of rows which are durable already.
  | drainPending : w.work = .writing [] → w.jobs = [] → w.active = [] →
    Step ⟨rows, st, some w⟩ ⟨rows, st, some { w with
      work := .committing w.nextSeq w.pendingAttributions [] }⟩
  | prepareAsyncFlush : w.work = .writing todo → w.active ≠ [] →
    Step ⟨rows, st, some w⟩ ⟨rows, st, some { w with
      active := []
      jobs := w.jobs ++ [⟨w.active, maxSeq w.active + 1, pending w (maxSeq w.active + 1)⟩] }⟩
  -- The blocks are committed in the order they were prepared in.
  | commitAsyncFlush {job jobs} : w.work = .writing [] →
    w.jobs = job :: jobs →
    Step ⟨rows, st, some w⟩ ⟨rows ++ job.rows, st, some { w with
      jobs, work := .committing job.nextSeq job.attributions [] }⟩
  | commitDurableBatch {st st' w nextSeq attributions todo} :
    w.work = .committing nextSeq attributions todo →
    st.commitDurableBatch nextSeq (attributions.filter fun p =>
      w.durableNextSeq ≤ p.event.seq && p.event.seq < nextSeq) = some st' →
    Step ⟨rows, st, some w⟩ ⟨rows, st', some { w with
      pendingAttributions := w.pendingAttributions.filter fun p =>
        attributions.all (·.event.seq ≠ p.event.seq)
      durableNextSeq := nextSeq
      work := .writing todo }⟩
  | commitFails {todo} :
    w.work = .committing nextSeq attributions todo →
    Step ⟨rows, st, some w⟩ ⟨rows, st, some { w with work := .discarding todo }⟩
  | crash : Step ⟨rows, st, some w⟩ ⟨rows, st, none⟩
  -- Each entry is recovered in a batch of its own, and the process may end between two of them.
  | recoverEntry : p ∈ st.prepared → recoverEntry fingerprintSegment rows st p = some st' →
    Step ⟨rows, st, none⟩ ⟨rows, st', none⟩
  | openWriter :
    recoverAttributions fingerprintSegment rows st = some st' →
    Step ⟨rows, st, none⟩ ⟨rows, { st' with seqNext := reconciled rows st'.seqNext },
      some (openWriter rows st'.seqNext)⟩

-- Rows without attributions may be there when the first writer with attribution is opened.
structure Initial (s : State Body Meta F) : Prop where
  rows : s.rows.Pairwise fun r r' => r.seq < r'.seq
  prepared : s.store.prepared = []
  events : s.store.events = []
  activation : s.store.activation = 0
  writer : s.writer = none

def system : System (State Body Meta F) where
  init := Initial
  step := Step fingerprintSegment

end Jetstream.Ingest.Attribution
