import HypercertsRelay.Jetstream.Live.Syncstate
import HypercertsRelay.Library.System

-- Events are verified ahead, their rows appended one by one, and blocks flushed at any time.
namespace Jetstream.Live

open List Slot

-- A #commit or #sync with its rev, an #account or an #identity.
inductive Kind (Rev : Type) where
  | repo (rev : Rev)
  | account
  | identity
  deriving DecidableEq

structure Event (Rev : Type) where
  seq : ℕ
  kind : Kind Rev
  deriving DecidableEq

variable [LinearOrder Rev] [DecidableEq Did]

-- The keys that chain and hosting state are promoted by.
def Event.rev? (e : Event Rev) : Option Rev :=
  match e.kind with
  | .repo rev => some rev
  | _ => none

def Event.accountSeq? (e : Event Rev) : Option ℕ :=
  match e.kind with
  | .account => some e.seq
  | _ => none

-- What concerns one account.
structure Account (Rev : Type) where
  -- Events that are verified and not yielded yet.
  queue : List (Event Rev)
  -- The event the consumer is at, with the rows of it that are still to be appended.
  current : Option (Event Rev × ℕ)
  chain : Slot Rev (Event Rev)
  host : Slot ℕ (Event Rev)
  acct : Ratchet
  ident : Ratchet
  -- The rows of the open block and of the flushed ones, by their events.
  buffered : List (Event Rev)
  rows : List (Event Rev)
  -- Events all of whose rows were appended, and none lost.
  finished : List (Event Rev)

namespace Account

def empty : Account Rev :=
  ⟨[], none, .empty, .empty, .empty, .empty, [], [], []⟩

def enqueue (a : Account Rev) (e : Event Rev) : Account Rev :=
  { a with queue := a.queue ++ [e] }

-- The verifier saves its state long before the rows are appended. A seq it has seen moves no
-- hosting state, but the event flows on.
def verify (a : Account Rev) (e : Event Rev) : Account Rev :=
  match e.kind with
  | .repo rev => { a.enqueue e with chain := a.chain.save rev e }
  | .account =>
    if a.host.load.all (·.1 < e.seq) then { a.enqueue e with host := a.host.save e.seq e }
    else a.enqueue e
  | .identity => a.enqueue e

-- The verifier drops a #commit or #sync whose rev is not new.
def Verifiable (a : Account Rev) (e : Event Rev) : Prop :=
  0 < e.seq ∧ ∀ rev, e.kind = .repo rev → ∀ q, a.chain.load = some q → q.1 < rev

def appliedSeq (a : Account Rev) : Kind Rev → ℕ
  | .repo _ => 0
  | .account => max a.acct.loadApplied (a.host.loadApplied.elim 0 (·.1))
  | .identity => a.ident.loadApplied

-- The guards on replayed #account and #identity events.
def dropReplayed (a : Account Rev) (e : Event Rev) : Bool :=
  a.appliedSeq e.kind ≠ 0 ∧ e.seq ≤ a.appliedSeq e.kind

-- The hook that runs under the writer's mutex, before the block can be flushed.
def liveAppendObserver (a : Account Rev) (e : Event Rev) : Account Rev :=
  match e.kind with
  | .repo _ => a
  | .account => { a with acct := a.acct.record e.seq }
  | .identity => { a with ident := a.ident.record e.seq }

def append (a : Account Rev) (e : Event Rev) (left : ℕ) : Account Rev :=
  { a.liveAppendObserver e with current := some (e, left), buffered := e :: a.buffered }

def promoteSyncState (a : Account Rev) (e : Event Rev) : Account Rev :=
  match e.kind with
  | .repo rev => { a with chain := a.chain.promote rev }
  | .account => { a with host := a.host.promote e.seq }
  | .identity => a

def finish (a : Account Rev) (e : Event Rev) : Account Rev :=
  { a.promoteSyncState e with current := none, finished := e :: a.finished }

-- The frame of the block is durable.
def sync (a : Account Rev) : Account Rev :=
  { a with rows := a.buffered ++ a.rows, buffered := [] }

def stageFlush (a : Account Rev) : Account Rev :=
  { a with
    chain := a.chain.stageFlush
    host := a.host.stageFlush
    acct := a.acct.stageFlush
    ident := a.ident.stageFlush }

def commitStaged (a : Account Rev) : Account Rev :=
  { a with
    chain := a.chain.commitStaged
    host := a.host.commitStaged
    acct := a.acct.commitStaged
    ident := a.ident.commitStaged }

-- Blocks that were synced are kept when the writer is opened again.
def crash (a : Account Rev) : Account Rev where
  queue := []
  current := none
  chain := a.chain.crash
  host := a.host.crash
  acct := a.acct.crash
  ident := a.ident.crash
  buffered := []
  rows := a.rows
  finished := a.finished.filter (· ∉ a.buffered)

-- What needs no mutex. Rows that are left out or do not fit are passed over; an #account or
-- #identity event is one row.
inductive Step : Account Rev → Account Rev → Prop where
  | verify : a.Verifiable e → Step a (a.verify e)
  | drop {e} : a.current = none → e ∈ a.queue →
    Step a { a with queue := a.queue.erase e }
  | take {e} (rows : ℕ) : a.current = none → e ∈ a.queue →
    0 < e.seq → a.dropReplayed e = false → (e.rev? = none → rows ≤ 1) →
    Step a { a with queue := a.queue.erase e, current := some (e, rows) }
  | skipRow {e left} : a.current = some (e, left + 1) →
    Step a { a with current := some (e, left) }
  | finish {e} : a.current = some (e, 0) → Step a (a.finish e)

-- The events between verification and their last row.
def opened (a : Account Rev) : List (Event Rev) :=
  a.current.toList.map Prod.fst ++ a.queue

end Account

-- Where a flush stands. The writer's mutex is held outside `idle`.
inductive Phase where
  | idle
  | written
  | synced
  | staged
  deriving DecidableEq

structure Consumer (Rev Did : Type) where
  accounts : Did → Account Rev
  phase : Phase

namespace Consumer

def each (c : Consumer Rev Did) (f : Account Rev → Account Rev) (φ : Phase) : Consumer Rev Did :=
  ⟨fun did => f (c.accounts did), φ⟩

def crash (c : Consumer Rev Did) : Consumer Rev Did :=
  c.each .crash .idle

inductive Step : Consumer Rev Did → Consumer Rev Did → Prop where
  | one (did : Did) {a} :
    (c.accounts did).Step a → Step c { c with accounts := Function.update c.accounts did a }
  | append (did : Did) {e} {left} : c.phase = .idle →
    (c.accounts did).current = some (e, left + 1) →
    Step c { c with
      accounts := Function.update c.accounts did ((c.accounts did).append e left) }
  | write : c.phase = .idle → Step c { c with phase := .written }
  | sync : c.phase = .written → Step c (c.each .sync .synced)
  | stage : c.phase = .synced → Step c (c.each .stageFlush .staged)
  | commit : c.phase = .staged → Step c (c.each .commitStaged .idle)
  | crash : Step c c.crash
  -- The process is killed before the sync, and the whole frame is found again.
  | crashWritten : c.phase = .written →
    Step c (c.each .sync .synced).crash

def system : System (Consumer Rev Did) where
  init c := c.phase = .idle ∧ ∀ did, c.accounts did = .empty
  step := Step

end Consumer

-- The entries of a verifier state come from events whose rows are all there.
structure Traced [LinearOrder κ] (key : Event Rev → Option κ)
    (σ : Slot κ (Event Rev)) (a : Account Rev) : Prop where
  ordered : σ.Ordered
  keyed : ∀ p, σ.pending = some p ∨ p ∈ σ.entries → key p.2 = some p.1
  opened : ∀ e ∈ a.opened, ∀ k, key e = some k → ∃ q, σ.load = some q ∧ k ≤ q.1
  unique : ∀ p, σ.pending = some p → ∀ e ∈ a.opened, key e = some p.1 → e = p.2
  finished : ∀ p ∈ σ.entries, p.2 ∈ a.finished
  durable : ∀ p, σ.durable = some p → p.2 ∉ a.buffered
  fresh : ∀ e left, a.current = some (e, left + 1) → ∀ p ∈ σ.entries, p.2 ≠ e

namespace Traced

variable [LinearOrder κ] {key : Event Rev → Option κ}
variable {a a' : Account Rev}

section

omit [LinearOrder Rev]

theorem mono (h : Traced key σ a) (ho : ∀ e ∈ a'.opened, e ∈ a.opened)
    (hf : ∀ e ∈ a.finished, e ∈ a'.finished) (hb : a'.buffered = a.buffered)
    (hc : ∀ e left, a'.current = some (e, left + 1) → ∀ p ∈ σ.entries, p.2 ≠ e) :
    Traced key σ a' where
  ordered := h.ordered
  keyed := h.keyed
  opened := fun e he => h.opened e (ho e he)
  unique := fun p hp e he => h.unique p hp e (ho e he)
  finished := fun p hp => hf _ (h.finished p hp)
  durable := fun p hp => hb ▸ h.durable p hp
  fresh := hc

theorem of_eq (h : Traced key σ a) (hq : a'.queue = a.queue) (hc : a'.current = a.current)
    (hf : a'.finished = a.finished) (hb : a'.buffered = a.buffered) : Traced key σ a' := by
  have ho : a'.opened = a.opened := by rw [Account.opened, hq, hc, Account.opened]
  exact h.mono (fun e he => ho ▸ he) (fun e he => hf ▸ he) hb (hc ▸ h.fresh)

theorem opened_enqueue : (a.enqueue e).opened = a.opened ++ [e] := by
  simp only [Account.opened, Account.enqueue, append_assoc]

theorem enqueue (h : Traced key σ a) (ho : ∀ k, key e = some k → ∃ q, σ.load = some q ∧ k ≤ q.1)
    (hu : ∀ p, σ.pending = some p → key e = some p.1 → e = p.2) :
    Traced key σ (a.enqueue e) where
  ordered := h.ordered
  keyed := h.keyed
  opened := by
    intro e' he'
    rw [opened_enqueue, mem_append, mem_singleton] at he'
    obtain he' | rfl := he'
    · exact h.opened e' he'
    · exact ho
  unique := by
    intro p hp e' he'
    rw [opened_enqueue, mem_append, mem_singleton] at he'
    obtain he' | rfl := he'
    · exact h.unique p hp e' he'
    · exact hu p hp
  finished := h.finished
  durable := h.durable
  fresh := h.fresh

-- An event that the state is not about.
theorem enqueue_of_none (h : Traced key σ a) (hnone : key e = none) : Traced key σ (a.enqueue e) :=
  h.enqueue (fun _ hc => nomatch hnone.symm.trans hc) fun _ _ hc => nomatch hnone.symm.trans hc

theorem sync (h : Traced key σ a) : Traced key σ a.sync :=
  { h with durable := fun _ _ => not_mem_nil }

theorem empty : Traced key .empty (Account.empty : Account Rev) :=
  ⟨⟨nofun, nofun, nofun⟩, fun _ h => h.elim nofun nofun, nofun, nofun, nofun, nofun, nofun⟩

-- The state is later than that of every event before it.
theorem save (h : Traced key σ a) (hkey : key e = some k) (hlt : ∀ q, σ.load = some q → q.1 < k) :
    Traced key (σ.save k e) (a.enqueue e) where
  ordered := h.ordered.save hlt
  keyed := by
    rintro p (hp | hp)
    · cases hp
      exact hkey
    · exact h.keyed p (.inr hp)
  opened := by
    intro e' he' k' hk'
    rw [opened_enqueue, mem_append, mem_singleton] at he'
    obtain he' | rfl := he'
    · have ⟨q, hq, hle⟩ := h.opened e' he' k' hk'
      exact ⟨_, rfl, hle.trans (hlt q hq).le⟩
    · exact ⟨_, rfl, (Option.some.inj (hk'.symm.trans hkey)).le⟩
  unique := by
    intro p hp e' he' hk'
    cases hp
    rw [opened_enqueue, mem_append, mem_singleton] at he'
    obtain he' | rfl := he'
    · have ⟨q, hq, hle⟩ := h.opened e' he' k hk'
      exact absurd (hlt q hq) hle.not_gt
    · rfl
  finished := h.finished
  durable := h.durable
  fresh := h.fresh

theorem opened_eq (hc : a.current = some (e, left)) (hc' : a'.current = some (e, left'))
    (hq : a'.queue = a.queue) : a'.opened = a.opened := by
  simp only [Account.opened, hc, hc', hq, Option.toList_some, List.map]

theorem append (h : Traced key σ a) (hc : a.current = some (e, left + 1))
    (hc' : a'.current = some (e, left)) (hq : a'.queue = a.queue)
    (hf : a'.finished = a.finished) (hb : a'.buffered = e :: a.buffered) : Traced key σ a' where
  ordered := h.ordered
  keyed := h.keyed
  opened := opened_eq hc hc' hq ▸ h.opened
  unique := opened_eq hc hc' hq ▸ h.unique
  finished := hf ▸ h.finished
  durable := by
    intro p hp hmem
    rw [hb] at hmem
    obtain heq | hmem := mem_cons.mp hmem
    · exact h.fresh e left hc p (mem_entries.mpr (.inr (.inr hp))) heq
    · exact h.durable p hp hmem
  fresh := by
    intro e' left' hc''
    rw [hc', Option.some.injEq, Prod.mk.injEq] at hc''
    exact hc''.left ▸ h.fresh e left hc

-- A promoted entry is the one of the event whose rows have just been appended.
theorem entries_promote (h : Traced key σ a) (he : e ∈ a.opened) (hkey : key e = some k)
    (hp : p ∈ (σ.promote k).entries) : p = (k, e) ∨ p ∈ σ.entries := by
  obtain ⟨hpend, hle⟩ | hp := Slot.entries_promote hp
  · have ⟨q, hq, hge⟩ := h.opened e he k hkey
    cases (Slot.load_of_pending hpend).symm.trans hq
    obtain rfl := le_antisymm hle hge
    exact .inl (Prod.ext rfl (h.unique p hpend e he hkey).symm)
  · exact .inr hp

theorem promote (h : Traced key σ a) (he : e ∈ a.opened) (hkey : key e = some k)
    (ho : ∀ e ∈ a'.opened, e ∈ a.opened) (hf : a'.finished = e :: a.finished)
    (hb : a'.buffered = a.buffered) (hc : a'.current = none) :
    Traced key (σ.promote k) a' where
  ordered := h.ordered.promote
  keyed := by
    rintro p (hp | hp)
    · exact h.keyed p (.inl (pending_promote hp))
    · obtain rfl | hp := h.entries_promote he hkey hp
      · exact hkey
      · exact h.keyed p (.inr hp)
  opened := by
    rw [load_promote]
    exact fun e' he' => h.opened e' (ho e' he')
  unique := fun p hp e' he' => h.unique p (pending_promote hp) e' (ho e' he')
  finished := by
    intro p hp
    rw [hf]
    obtain rfl | hp := h.entries_promote he hkey hp
    · exact mem_cons_self
    · exact mem_cons_of_mem _ (h.finished p hp)
  durable := by
    rw [durable_promote, hb]
    exact h.durable
  fresh := fun _ _ hc' => nomatch hc.symm.trans hc'

theorem stageFlush (h : Traced key σ a) (ho : a'.opened = a.opened) (hf : a'.finished = a.finished)
    (hb : a'.buffered = a.buffered) (hc : a'.current = a.current) : Traced key σ.stageFlush a' where
  ordered := h.ordered.stageFlush
  keyed := fun p hp => h.keyed p (hp.imp_right entries_stageFlush)
  opened := ho ▸ h.opened
  unique := ho ▸ h.unique
  finished := fun p hp => hf ▸ h.finished p (entries_stageFlush hp)
  durable := hb ▸ h.durable
  fresh := fun e left hc' p hp => h.fresh e left (hc ▸ hc') p (entries_stageFlush hp)

end

-- No row is in the open block when the batch is committed.
theorem commitStaged (h : Traced key σ a) (ho : a'.opened = a.opened)
    (hf : a'.finished = a.finished) (hb : a'.buffered = [])
    (hc : a'.current = a.current) : Traced key σ.commitStaged a' where
  ordered := h.ordered.commitStaged
  keyed := fun p hp => h.keyed p (hp.imp_right entries_commitStaged)
  opened := by
    rw [ho, load_commitStaged h.ordered]
    exact h.opened
  unique := ho ▸ h.unique
  finished := fun p hp => hf ▸ h.finished p (entries_commitStaged hp)
  durable := fun p hp => hb ▸ not_mem_nil
  fresh := fun e left hc' p hp => h.fresh e left (hc ▸ hc') p (entries_commitStaged hp)

theorem crash (h : Traced key σ a) : Traced key σ.crash a.crash where
  ordered := .crash
  keyed := by
    rintro p (hp | hp)
    · exact nomatch hp
    · exact h.keyed p (.inr (mem_entries.mpr (.inr (.inr (entries_crash hp)))))
  opened := nofun
  unique := nofun
  finished := by
    intro p hp
    have hp := entries_crash hp
    have hf := h.finished p (mem_entries.mpr (.inr (.inr hp)))
    exact mem_filter.mpr ⟨hf, decide_eq_true (h.durable p hp)⟩
  durable := fun _ _ => not_mem_nil
  fresh := nofun

theorem load_crash (h : Traced key σ a) (p : κ × Event Rev) (hp : σ.crash.load = some p) :
    p.2 ∈ a.crash.finished :=
  h.crash.finished p (mem_entries.mpr (.inr (.inr hp)))

end Traced

end Jetstream.Live
