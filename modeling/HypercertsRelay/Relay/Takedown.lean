import HypercertsRelay.Library.System

-- One account: its row, the cached copy of it, and the operations that hold its event lock.
namespace Relay.Takedown

open Option (some)

-- Hosts report statuses as text.
inductive AccountStatus where
  | active
  | throttled
  | hostThrottled
  | takendown
  | other (name : String)
deriving DecidableEq

structure Account where
  hostId : Nat
  status : AccountStatus
  upstreamStatus : AccountStatus
deriving DecidableEq

def Account.IsActive (a : Account) : Prop :=
  (a.status = .active ∨ a.status = .throttled) ∧ a.upstreamStatus = .active

instance (a : Account) : Decidable a.IsActive :=
  inferInstanceAs (Decidable (_ ∧ _))

-- An account that moves to another host is admitted anew, unless it is restricted otherwise.
def Account.move (a : Account) (hostId : Nat) (full : Bool) : Account :=
  { a with
    hostId
    status := if a.status = .active ∨ a.status = .hostThrottled then
        if full then .hostThrottled else .active
      else a.status }

-- How far the operation with the event lock is. Rows are written before the copy is removed.
inductive Holder where
  | free
  | updating (status : AccountStatus)
  | updated (status : AccountStatus)
  | evicted (status : AccountStatus)
  | event
  | loaded (a : Account)
  | account (a : Account)
  | moved (a : Account)
  | upstream (a : Account)
  | active (a : Account)
  | recovering
  | recovered
deriving DecidableEq

structure State where
  db : Option Account
  cache : Option Account
  -- Rows that operations without the lock have read and not yet put in the cache.
  readers : List Account
  holder : Holder
  -- The last status set by a returned call is the takedown, and whether content was emitted then.
  takendown : Bool
  leaked : Bool

inductive Step : State → State → Prop where
  -- `GetAccount` without the lock, and the cache dropping an entry on its own.
  | read {a} : s.db = some a →
    Step s { s with readers := a :: s.readers }
  | fill {a} : a ∈ s.readers →
    Step s { s with cache := some a, readers := s.readers.erase a }
  | drop : Step s { s with cache := none }
  -- `UpdateAccountLocalStatus`.
  | update {a} (status : AccountStatus) : s.holder = .free →
    s.db = some a → Step s { s with holder := .updating status }
  | lookup {a status} : s.holder = .updating status →
    s.db = some a → Step s { s with cache := some a }
  | write {a status} : s.holder = .updating status →
    s.db = some a →
    Step s { s with
      db := some { a with status }
      holder := .updated status
      takendown := s.takendown && status = .takendown }
  | evict : s.holder = .updated status →
    Step s { s with cache := none, holder := .evicted status }
  | finish : s.holder = .evicted status →
    Step s { s with holder := .free, takendown := s.takendown || status = .takendown }
  -- The processing of an event.
  | begin : s.holder = .free → Step s { s with holder := .event }
  | hit {a} : s.holder = .event → s.cache = some a →
    Step s { s with holder := .account a }
  | miss {a} : s.holder = .event → s.cache = none → s.db = some a →
    Step s { s with holder := .loaded a }
  | add : s.holder = .loaded a →
    Step s { s with cache := some a, holder := .account a }
  | create : s.holder = .event → s.cache = none → s.db = none →
    a.status = .active ∨ a.status = .hostThrottled → a.upstreamStatus = .active →
    Step s { s with db := some a, cache := some a, holder := .account a }
  | move (hostId : Nat) (full : Bool) : s.holder = .account a →
    Step s { s with
      db := s.db.map fun d => { d with hostId, status := (a.move hostId full).status }
      holder := .moved (a.move hostId full) }
  | moved : s.holder = .moved a →
    Step s { s with cache := none, holder := .account a }
  | upstream (status : AccountStatus) : s.holder = .account a →
    Step s { s with
      db := s.db.map fun d => { d with upstreamStatus := status }
      holder := .upstream { a with upstreamStatus := status } }
  | purge : s.holder = .upstream a →
    Step s { s with cache := none, holder := .account a }
  | check : s.holder = .account a → a.IsActive →
    Step s { s with holder := .active a }
  | emit : s.holder = .active a →
    Step s { s with holder := .free, leaked := s.leaked || s.takendown }
  -- The recovery of an account that was over the quota of its host.
  | recover {a} : s.holder = .free → s.db = some a →
    a.status = .hostThrottled → a.upstreamStatus = .active →
    Step s { s with holder := .recovering }
  | reactivate {a} : s.holder = .recovering → s.db = some a →
    a.status = .hostThrottled → a.upstreamStatus = .active →
    Step s { s with db := some { a with status := .active }, holder := .recovered }
  | reactivated : s.holder = .recovered →
    Step s { s with cache := none, holder := .free }
  -- An operation ends early where it has written nothing since it last removed the copy.
  | quit : (∀ status, s.holder ≠ .updated status) → (∀ a, s.holder ≠ .moved a) →
    (∀ a, s.holder ≠ .upstream a) → s.holder ≠ .recovered →
    (∀ status, s.holder ≠ .evicted status) → Step s { s with holder := .free }
  | crash : Step s { s with cache := none, readers := [], holder := .free }

def system : System State where
  init s := s.cache = none ∧ s.readers = [] ∧ s.holder = .free ∧ s.takendown = false ∧
    s.leaked = false
  step := Step

-- A step of a reader without the lock does not bring back a local status that has been changed.
def FreshFill (s s' : State) : Prop :=
  ∀ a ∈ s.readers, s' = { s with cache := some a, readers := s.readers.erase a } →
    s.db.map Account.status = some a.status

-- The copy of the account that the operation works with.
def Holder.copy : Holder → Option Account
  | loaded a | account a | moved a | upstream a | active a => some a
  | _ => none

-- The local status was written and the cached copy not yet removed.
def Holder.Dirty : Holder → Prop
  | updated _ | moved _ | recovered => True
  | _ => False

structure Inv (s : State) : Prop where
  cache : ¬s.holder.Dirty → ∀ a, s.cache = some a → s.db.map Account.status = some a.status
  copy : ∀ a, s.holder.copy = some a → s.db.map Account.status = some a.status
  active : ∀ a, s.holder = .active a → a.IsActive
  down : s.takendown → s.db.map Account.status = some .takendown
  evicted : s.holder = .evicted .takendown → s.db.map Account.status = some .takendown
  updated : ∀ status, s.holder = .updated status → s.db.map Account.status = some status
  leaked : s.leaked = false

section Holders

variable {a : Account}

theorem Inv.of_idle (h : Inv s) (hdb : s'.db = s.db) (hcopy : s'.holder.copy = none)
    (hholder : ∀ status, s'.holder ≠ .updated status ∧ s'.holder ≠ .evicted status)
    (hcache : ∀ a, s'.cache = some a → s.db.map Account.status = some a.status)
    (htakendown : s'.takendown = s.takendown) (hleaked : s'.leaked = s.leaked) : Inv s' where
  cache _ a ha := hdb ▸ hcache a ha
  copy a ha := nomatch hcopy.symm.trans ha
  active a ha := by
    rw [ha] at hcopy
    exact nomatch hcopy
  down hd := hdb ▸ h.down (htakendown ▸ hd)
  evicted he := absurd he (hholder _).right
  updated _ he := absurd he (hholder _).left
  leaked := hleaked.trans h.leaked

theorem Inv.of_copy (h : Inv s) (hcopy : s'.holder.copy = some a)
    (ha : s'.db.map Account.status = some a.status)
    (hactive : ∀ a, s'.holder = .active a → a.IsActive)
    (hcache : ¬s'.holder.Dirty → ∀ a, s'.cache = some a → s'.db.map Account.status = some a.status)
    (hdown : s.takendown → s'.db.map Account.status = some .takendown)
    (htakendown : s'.takendown = s.takendown) (hleaked : s'.leaked = s.leaked) : Inv s' where
  cache := hcache
  copy b hb := by
    rw [←some.inj (hcopy.symm.trans hb)]
    exact ha
  active := hactive
  down hd := hdown (htakendown ▸ hd)
  evicted he := by
    rw [he] at hcopy
    exact nomatch hcopy
  updated _ he := by
    rw [he] at hcopy
    exact nomatch hcopy
  leaked := hleaked.trans h.leaked

theorem Account.move_status_of_takendown (hostId : Nat) (full : Bool)
    (h : a.status = .takendown) : (a.move hostId full).status = .takendown := by
  simp [move, h]

end Holders

namespace Inv

variable {a : Account}

section

variable (h : Inv s)

include h

theorem cached (hh : s.holder = holder) (hd : ¬holder.Dirty) :
    ∀ a, s.cache = some a → s.db.map Account.status = some a.status :=
  h.cache (hh ▸ hd)

theorem write : Inv { s with
    db := some { a with status }
    holder := .updated status
    takendown := s.takendown && status = .takendown } where
  cache hd := absurd trivial hd
  copy _ hc := nomatch hc
  active _ hc := nomatch hc
  down hd := by
    rw [Bool.and_eq_true, decide_eq_true_iff] at hd
    rw [hd.right]
    rfl
  evicted he := nomatch he
  updated _ he := by
    injection he with he
    rw [←he]
    rfl
  leaked := h.leaked

theorem evict (hh : s.holder = .updated status) :
    Inv { s with cache := none, holder := .evicted status } where
  cache _ _ hc := nomatch hc
  copy _ hc := nomatch hc
  active _ hc := nomatch hc
  down := h.down
  evicted he := by
    injection he with he
    rw [h.updated status hh, he]
  updated _ he := nomatch he
  leaked := h.leaked

theorem finish (hh : s.holder = .evicted status) :
    Inv { s with holder := .free, takendown := s.takendown || status = .takendown } where
  cache _ a ha := h.cached hh id a ha
  copy _ hc := nomatch hc
  active _ hc := nomatch hc
  down hd := by
    rw [Bool.or_eq_true, decide_eq_true_iff] at hd
    obtain hd | rfl := hd
    · exact h.down hd
    · exact h.evicted hh
  evicted he := nomatch he
  updated _ he := nomatch he
  leaked := h.leaked

-- An active account is not taken down.
theorem emit (hh : s.holder = .active a) :
    Inv { s with holder := .free, leaked := s.leaked || s.takendown } where
  cache _ a ha := h.cached hh id a ha
  copy _ hc := nomatch hc
  active _ hc := nomatch hc
  down := h.down
  evicted he := nomatch he
  updated _ he := nomatch he
  leaked := by
    have hactive := h.active a hh
    have hcopy := h.copy a (by rw [hh]; rfl)
    cases hdown : s.takendown with
    | false => rw [h.leaked]; rfl
    | true =>
      have hstatus := some.inj (hcopy.symm.trans (h.down hdown))
      rw [Account.IsActive, hstatus] at hactive
      exact absurd hactive.left (by decide)

theorem move (hh : s.holder = .account a) (hostId : Nat) (full : Bool) : Inv { s with
      db := s.db.map fun d => { d with hostId, status := (a.move hostId full).status }
      holder := .moved (a.move hostId full) } := by
  have hcopy := h.copy a (by rw [hh]; rfl)
  have ⟨d, hd, hstatus⟩ := Option.map_eq_some_iff.mp hcopy
  refine h.of_copy rfl (by rw [hd]; rfl) nofun (fun hd => absurd trivial hd) (fun hdown => ?_)
    rfl rfl
  have htakendown := some.inj (hcopy.symm.trans (h.down hdown))
  rw [hd]
  exact congrArg some (Account.move_status_of_takendown hostId full htakendown)

theorem reactivate (hdb : s.db = some a) (hstatus : a.status = .hostThrottled) :
    Inv { s with db := some { a with status := .active }, holder := .recovered } where
  cache hd := absurd trivial hd
  copy _ hc := nomatch hc
  active _ hc := nomatch hc
  down hd := by
    have := h.down hd
    rw [hdb, Option.map_some, hstatus] at this
    exact nomatch this
  evicted he := nomatch he
  updated _ he := nomatch he
  leaked := h.leaked

theorem step (hfill : FreshFill s s') (e : Step s s') : Inv s' := by
  cases e with
  | read hdb => exact ⟨h.cache, h.copy, h.active, h.down, h.evicted, h.updated, h.leaked⟩
  | @fill a ha =>
    refine ⟨fun _ b hb => ?_, h.copy, h.active, h.down, h.evicted, h.updated, h.leaked⟩
    rw [←some.inj hb]
    exact hfill a ha rfl
  | drop => exact ⟨nofun, h.copy, h.active, h.down, h.evicted, h.updated, h.leaked⟩
  | update status hh hdb =>
    have hcached := h.cached hh id
    exact h.of_idle rfl rfl (fun _ => ⟨nofun, nofun⟩) hcached rfl rfl
  | lookup hh hdb =>
    refine h.of_idle rfl (by rw [hh]; rfl) (fun _ => ?_) (fun b hb => ?_) rfl rfl
    · rw [hh]
      exact ⟨nofun, nofun⟩
    · rw [hdb, ←some.inj hb]
      rfl
  | write hh hdb => exact h.write
  | evict hh => exact h.evict hh
  | finish hh => exact h.finish hh
  | begin hh =>
    have hcached := h.cached hh id
    exact h.of_idle rfl rfl (fun _ => ⟨nofun, nofun⟩) hcached rfl rfl
  | hit hh hc =>
    have hcached := h.cached hh id
    exact h.of_copy rfl (hcached _ hc) nofun (fun _ => hcached) h.down rfl rfl
  | miss hh hc hdb =>
    refine h.of_copy rfl (by rw [hdb]; rfl) nofun (fun _ b hb => ?_) h.down rfl rfl
    exact nomatch hc.symm.trans hb
  | @add a hh =>
    have hcopy := h.copy a (by rw [hh]; rfl)
    refine h.of_copy rfl hcopy nofun (fun _ b hb => ?_) h.down rfl rfl
    rw [←some.inj hb]
    exact hcopy
  | create hh hc hdb _ _ =>
    refine h.of_copy rfl rfl nofun (fun _ b hb => ?_) (fun hd => ?_) rfl rfl
    · rw [←some.inj hb]
      rfl
    · have := h.down hd
      rw [hdb] at this
      exact nomatch this
  | move hostId full hh => exact h.move hh hostId full
  | @moved a hh => exact h.of_copy rfl (h.copy a (by rw [hh]; rfl)) nofun nofun h.down rfl rfl
  | @upstream a status hh =>
    have hstatus : (s.db.map fun d => { d with upstreamStatus := status }).map Account.status =
        s.db.map Account.status := by
      rw [Option.map_map]
      rfl
    refine h.of_copy rfl (hstatus.trans (h.copy a (by rw [hh]; rfl))) nofun (fun _ b hb => ?_)
      (fun hd => hstatus.trans (h.down hd)) rfl rfl
    exact hstatus.trans (h.cached hh id b hb)
  | @purge a hh => exact h.of_copy rfl (h.copy a (by rw [hh]; rfl)) nofun nofun h.down rfl rfl
  | @check a hh hactive =>
    refine h.of_copy rfl (h.copy a (by rw [hh]; rfl)) (fun b hb => ?_)
      (fun _ => h.cached hh id) h.down rfl rfl
    injection hb with hb
    exact hb ▸ hactive
  | emit hh => exact h.emit hh
  | recover hh _ _ _ =>
    have hcached := h.cached hh id
    exact h.of_idle rfl rfl (fun _ => ⟨nofun, nofun⟩) hcached rfl rfl
  | reactivate _ hdb hstatus _ => exact h.reactivate hdb hstatus
  | reactivated hh => exact h.of_idle rfl rfl (fun _ => ⟨nofun, nofun⟩) nofun rfl rfl
  | quit hu hm _ hr _ =>
    refine h.of_idle rfl rfl (fun _ => ⟨nofun, nofun⟩) (h.cache fun hd => ?_) rfl rfl
    cases hh : s.holder with
    | updated status => exact hu status hh
    | moved a => exact hm a hh
    | recovered => exact hr hh
    | _ => rw [hh] at hd; exact hd
  | crash => exact h.of_idle rfl rfl (fun _ => ⟨nofun, nofun⟩) nofun rfl rfl

end

end Inv

theorem not_leaked (h : (system.restrict FreshFill).Reachable s) :
    s.leaked = false := by
  suffices hinv : Inv s from hinv.leaked
  refine h.invariant (P := Inv) (fun s hi => ?_) fun s s' _ hinv e => ?_
  case refine_2 => exact hinv.step e.right e.left
  have ⟨hc, _, hh, ht, hl⟩ := hi
  refine ⟨fun _ a ha => ?_, fun a ha => ?_, fun a ha => ?_, fun hd => ?_, fun he => ?_,
    fun _ he => ?_, hl⟩
  · exact nomatch hc.symm.trans ha
  · rw [hh] at ha
    exact nomatch ha
  · exact nomatch hh.symm.trans ha
  · exact nomatch ht.symm.trans hd
  · exact nomatch hh.symm.trans he
  · exact nomatch hh.symm.trans he

section Sample

def sampleAccount : Account :=
  ⟨1, .active, .active⟩

def sampleStart : State :=
  ⟨some sampleAccount, none, [], .free, false, false⟩

theorem sampleStart_init : system.init sampleStart :=
  ⟨rfl, rfl, rfl, rfl, rfl⟩

-- A reader has the row in hand while the account is taken down.
def sampleRead : State :=
  { sampleStart with readers := [sampleAccount] }

def sampleTaken : State :=
  { sampleRead with db := some { sampleAccount with status := .takendown }, takendown := true }

theorem freshFill_of_readers (h : s'.readers.length = s.readers.length) : FreshFill s s' := by
  rintro a ha rfl
  have := List.length_erase_of_mem ha
  have := List.length_pos_of_mem ha
  simp only at h
  omega

theorem sampleTaken_reachable : (system.restrict FreshFill).Reachable sampleTaken := by
  have h₁ : (system.restrict FreshFill).Reachable sampleRead :=
    .step (.init sampleStart_init) ⟨.read rfl, nofun⟩
  have h₂ := h₁.step ⟨.update .takendown rfl rfl, freshFill_of_readers rfl⟩
  have h₃ := h₂.step ⟨.write rfl rfl, freshFill_of_readers rfl⟩
  have h₄ := h₃.step ⟨.evict rfl, freshFill_of_readers rfl⟩
  have h₅ := h₄.step ⟨.finish rfl, freshFill_of_readers rfl⟩
  exact h₅

-- An event after the takedown finds the account as it is now, and goes no further.
theorem not_leaked_sample : ∃ s, (system.restrict FreshFill).Reachable s ∧ s.takendown ∧
    s.cache = some { sampleAccount with status := .takendown } ∧ s.leaked = false := by
  have h₁ := sampleTaken_reachable.step ⟨.begin rfl, freshFill_of_readers rfl⟩
  have h₂ := h₁.step ⟨.miss rfl rfl rfl, freshFill_of_readers rfl⟩
  have h₃ := h₂.step ⟨.add rfl, freshFill_of_readers rfl⟩
  have h₄ := h₃.step ⟨.quit nofun nofun nofun nofun nofun, freshFill_of_readers rfl⟩
  exact ⟨_, h₄, rfl, rfl, not_leaked h₄⟩

-- The reader puts the old row into the cache after the takedown has removed the entry.
theorem leaked_of_stale_fill : ∃ s, system.Reachable s ∧ s.leaked = true := by
  have h₁ := sampleTaken_reachable.of_restrict.step (.fill (.head _))
  have h₂ := h₁.step (.begin rfl)
  have h₃ := h₂.step (.hit rfl rfl)
  have h₄ := h₃.step (.check rfl (by decide))
  exact ⟨_, h₄.step (.emit rfl), rfl⟩

end Sample

end Relay.Takedown
