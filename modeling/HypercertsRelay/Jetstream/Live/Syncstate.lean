import Mathlib

-- Verifier state of one account, staged, promoted once the rows of its event are appended, and
-- flushed with the cursor; and the applied seq ratchets.
namespace Jetstream.Live

-- One verifier state by the key it is promoted by, with the event it comes from.
structure Slot (κ ε : Type) where
  pending : Option (κ × ε)
  promoted : Option (κ × ε)
  captured : Option (κ × ε)
  durable : Option (κ × ε)

namespace Slot

variable [LinearOrder κ] [DecidableEq ε]

def empty : Slot κ ε :=
  ⟨none, none, none, none⟩

-- What the verifier sees: its own writes first.
def load (σ : Slot κ ε) : Option (κ × ε) :=
  σ.pending.or (σ.promoted.or σ.durable)

-- The view without the pending entry.
def loadApplied (σ : Slot κ ε) : Option (κ × ε) :=
  σ.promoted.or σ.durable

def save (σ : Slot κ ε) (key : κ) (e : ε) : Slot κ ε :=
  { σ with pending := some (key, e) }

-- A pending entry with a later key stays where it is.
def promote (σ : Slot κ ε) (max : κ) : Slot κ ε :=
  match σ.pending with
  | none => σ
  | some p => if max < p.1 then σ else { σ with promoted := some p, pending := none }

def stageFlush (σ : Slot κ ε) : Slot κ ε :=
  { σ with captured := σ.promoted }

-- The batch is durable; a promotion that came after the capture stays for the next one.
def commitStaged (σ : Slot κ ε) : Slot κ ε where
  pending := σ.pending
  promoted := if σ.promoted = σ.captured then none else σ.promoted
  captured := none
  durable := σ.captured.or σ.durable

def crash (σ : Slot κ ε) : Slot κ ε where
  pending := none
  promoted := none
  captured := none
  durable := σ.durable

-- The entries that have left the pending map.
def entries (σ : Slot κ ε) : List (κ × ε) :=
  σ.promoted.toList ++ σ.captured.toList ++ σ.durable.toList

-- The pending entry is the latest, and what a batch has captured is still promoted.
structure Ordered (σ : Slot κ ε) : Prop where
  entries : ∀ p ∈ σ.entries, ∃ q, σ.load = some q ∧ p.1 ≤ q.1
  captured : ∀ p, σ.captured = some p → ∃ q, σ.promoted = some q ∧ p.1 ≤ q.1
  durable : ∀ p q, σ.durable = some p → σ.promoted = some q → p.1 ≤ q.1

variable {σ : Slot κ ε}

omit [LinearOrder κ] [DecidableEq ε] in
theorem mem_entries :
    p ∈ σ.entries ↔ σ.promoted = some p ∨ σ.captured = some p ∨ σ.durable = some p := by
  simp only [entries, List.mem_append, Option.mem_toList, or_assoc]

section

omit [DecidableEq ε]

theorem promote_eq (hp : σ.pending = some p) (hle : p.1 ≤ key) :
    σ.promote key = { σ with promoted := some p, pending := none } := by
  simp only [promote, hp, hle.not_gt, if_false]

theorem promote_cases (key : κ) : σ.promote key = σ ∨ ∃ p, σ.pending = some p ∧ p.1 ≤ key ∧
    σ.promote key = { σ with promoted := some p, pending := none } := by
  cases hp : σ.pending with
  | none => exact .inl (by simp only [promote, hp])
  | some p =>
    by_cases hlt : key < p.1
    · exact .inl (by simp only [promote, hp, hlt, if_true])
    · exact .inr ⟨p, rfl, not_lt.mp hlt, promote_eq hp (not_lt.mp hlt)⟩

theorem pending_promote (hp : (σ.promote key).pending = some p) : σ.pending = some p := by
  obtain heq | ⟨_, _, _, heq⟩ := promote_cases (σ := σ) key
  · exact heq ▸ hp
  · rw [heq] at hp
    exact nomatch hp

theorem durable_promote : (σ.promote key).durable = σ.durable := by
  obtain heq | ⟨_, _, _, heq⟩ := promote_cases (σ := σ) key <;> rw [heq]

end

omit [DecidableEq ε] in
@[simp]
theorem load_promote : (σ.promote key).load = σ.load := by
  obtain h | ⟨p, hp, _, h⟩ := promote_cases (σ := σ) key
  · rw [h]
  · rw [h, load, load, hp]
    rfl

theorem load_commitStaged (h : σ.Ordered) : σ.commitStaged.load = σ.load := by
  simp only [load, commitStaged]
  by_cases heq : σ.promoted = σ.captured
  · rw [if_pos heq, heq]
    rfl
  rw [if_neg heq]
  cases hc : σ.captured with
  | none => rfl
  | some p =>
    have ⟨q, hq, _⟩ := h.captured p hc
    rw [hq]
    rfl

omit [DecidableEq ε] in
theorem entries_promote (hp : p ∈ (σ.promote key).entries) :
    (σ.pending = some p ∧ p.1 ≤ key) ∨ p ∈ σ.entries := by
  obtain heq | ⟨q, hq, hle, heq⟩ := promote_cases (σ := σ) key
  · exact .inr (heq ▸ hp)
  rw [heq, mem_entries] at hp
  obtain hp | hp := hp
  · cases hp
    exact .inl ⟨hq, hle⟩
  · exact .inr (mem_entries.mpr (.inr hp))

omit [LinearOrder κ] [DecidableEq ε] in
theorem entries_stageFlush (hp : p ∈ σ.stageFlush.entries) : p ∈ σ.entries := by
  simp only [mem_entries, stageFlush] at hp ⊢
  tauto

theorem entries_commitStaged (hp : p ∈ σ.commitStaged.entries) : p ∈ σ.entries := by
  simp only [mem_entries, commitStaged] at hp ⊢
  obtain hp | hp | hp := hp
  · by_cases heq : σ.promoted = σ.captured
    · simp only [heq, if_true, reduceCtorEq] at hp
    · rw [if_neg heq] at hp
      exact .inl hp
  · exact nomatch hp
  · obtain hp | ⟨_, hp⟩ := Option.or_eq_some_iff.mp hp
    · exact .inr (.inl hp)
    · exact .inr (.inr hp)

omit [LinearOrder κ] [DecidableEq ε] in
theorem entries_crash (hp : p ∈ σ.crash.entries) : σ.durable = some p := by
  simpa only [mem_entries, crash, reduceCtorEq, false_or] using hp

omit [LinearOrder κ] [DecidableEq ε] in
theorem load_of_pending (hp : σ.pending = some p) : σ.load = some p := by
  rw [load, hp]
  rfl

namespace Ordered

section

omit [DecidableEq ε]

theorem save (h : σ.Ordered) (hkey : ∀ q, σ.load = some q → q.1 < key) :
    (σ.save key e).Ordered := by
  refine ⟨fun p hp => ?_, h.captured, h.durable⟩
  have ⟨q, hq, hle⟩ := h.entries p hp
  exact ⟨_, rfl, hle.trans (hkey q hq).le⟩

theorem pending_le (h : σ.Ordered) (hp : σ.pending = some p) : ∀ q ∈ σ.entries, q.1 ≤ p.1 := by
  intro q hq
  have ⟨r, hr, hle⟩ := h.entries q hq
  cases (load_of_pending hp).symm.trans hr
  exact hle

theorem promote (h : σ.Ordered) : (σ.promote key).Ordered := by
  obtain heq | ⟨p, hp, _, heq⟩ := promote_cases (σ := σ) key
  · rw [heq]
    exact h
  refine ⟨fun q hq => ?_, fun q hq => ?_, fun q r hq hr => ?_⟩
  · rw [load_promote]
    rw [heq, mem_entries] at hq
    have hload := load_of_pending hp
    obtain hq | hq := hq
    · cases hq
      exact ⟨_, hload, le_rfl⟩
    · exact ⟨_, hload, h.pending_le hp q (mem_entries.mpr (.inr hq))⟩
  · rw [heq] at hq ⊢
    exact ⟨p, rfl, h.pending_le hp q (mem_entries.mpr (.inr (.inl hq)))⟩
  · rw [heq] at hq hr
    cases hr
    exact h.pending_le hp q (mem_entries.mpr (.inr (.inr hq)))

theorem stageFlush (h : σ.Ordered) : σ.stageFlush.Ordered :=
  ⟨fun p hp => h.entries p (entries_stageFlush hp), fun p hp => ⟨p, hp, le_rfl⟩, h.durable⟩

end

theorem commitStaged (h : σ.Ordered) : σ.commitStaged.Ordered := by
  refine ⟨fun p hp => ?_, nofun, fun p q hp hq => ?_⟩
  · rw [load_commitStaged h]
    exact h.entries p (entries_commitStaged hp)
  have hq : σ.promoted = some q := (Option.ite_none_left_eq_some.mp hq).right
  obtain hp | ⟨_, hp⟩ := Option.or_eq_some_iff.mp hp
  · have ⟨q', hq', hle⟩ := h.captured p hp
    exact Option.some.inj (hq'.symm.trans hq) ▸ hle
  · exact h.durable p q hp hq

omit [DecidableEq ε] in
theorem crash : σ.crash.Ordered :=
  ⟨fun p hp => ⟨p, entries_crash hp, le_rfl⟩, nofun, nofun⟩

omit [DecidableEq ε] in
theorem le_loadApplied (h : σ.Ordered) (hp : p ∈ σ.entries) :
    ∃ q, σ.loadApplied = some q ∧ p.1 ≤ q.1 := by
  obtain hp | hp | hp := mem_entries.mp hp
  · exact ⟨p, by rw [loadApplied, hp]; rfl, le_rfl⟩
  · have ⟨q, hq, hle⟩ := h.captured p hp
    exact ⟨q, by rw [loadApplied, hq]; rfl, hle⟩
  · cases hq : σ.promoted with
    | none => exact ⟨p, by rw [loadApplied, hq, hp]; rfl, le_rfl⟩
    | some q => exact ⟨q, by rw [loadApplied, hq]; rfl, h.durable p q hp hq⟩

end Ordered

end Slot

-- The highest seq of a kind whose row has been appended; 0 stands for none.
structure Ratchet where
  promoted : Option ℕ
  captured : Option ℕ
  durable : ℕ

namespace Ratchet

def empty : Ratchet :=
  ⟨none, none, 0⟩

def loadApplied (r : Ratchet) : ℕ :=
  r.promoted.getD r.durable

def record (r : Ratchet) (seq : ℕ) : Ratchet :=
  match r.promoted with
  | none => { r with promoted := some seq }
  | some cur => if seq ≤ cur then r else { r with promoted := some seq }

def stageFlush (r : Ratchet) : Ratchet :=
  { r with captured := r.promoted }

def commitStaged (r : Ratchet) : Ratchet where
  promoted := if r.promoted = r.captured then none else r.promoted
  captured := none
  durable := r.captured.getD r.durable

def crash (r : Ratchet) : Ratchet :=
  ⟨none, none, r.durable⟩

variable {r : Ratchet}

theorem record_eq (h : r.loadApplied < seq) : r.record seq = { r with promoted := some seq } := by
  cases hp : r.promoted with
  | none => simp only [record, hp]
  | some cur =>
    simp only [loadApplied, hp, Option.getD_some] at h
    simp only [record, hp, Nat.not_le.mpr h, if_false]

-- Nothing is recorded between the capture and the end of its batch.
theorem commitStaged_eq (h : r.captured = r.promoted) :
    r.commitStaged = ⟨none, none, r.loadApplied⟩ := by
  simp only [commitStaged, h, if_true, loadApplied]

end Ratchet

end Jetstream.Live
