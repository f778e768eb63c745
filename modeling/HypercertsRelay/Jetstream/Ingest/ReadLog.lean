import HypercertsRelay.Library.Numbered
import HypercertsRelay.Jetstream.Event

-- The window of rows that the writer keeps in memory for its readers.
namespace Jetstream.Ingest

open List

-- The rows from `baseSeq` on, committed below `durable`. The window never moves beyond `durable`,
-- so a row that is not resident any more is in a file.
structure ReadableLog where
  entries : List Event
  baseSeq : ℕ
  durable : ℕ
  maxBytes : ℕ
  numbered : Numbered Event.seq baseSeq entries
  base_le : baseSeq ≤ durable
  le_tip : durable ≤ baseSeq + entries.length

def newReadableLog (nextSeq maxBytes : ℕ) : ReadableLog where
  entries := []
  baseSeq := nextSeq
  durable := nextSeq
  maxBytes := maxBytes
  numbered := trivial
  base_le := Nat.le_refl _
  le_tip := Nat.le_refl _

namespace ReadableLog

def tipSeq (log : ReadableLog) : ℕ :=
  log.baseSeq + log.entries.length

def floorSeq (log : ReadableLog) : ℕ :=
  log.baseSeq

def entryBytes (ev : Event) : ℕ :=
  ev.payload.length + ev.did.utf8ByteSize + ev.collection.utf8ByteSize + ev.rkey.utf8ByteSize +
    ev.rev.utf8ByteSize + 128

def curBytes (log : ReadableLog) : ℕ :=
  (log.entries.map entryBytes).sum

-- Only a committed row can be evicted, so there is one.
def evictFirst (log : ReadableLog) (h : log.baseSeq < log.durable) : ReadableLog :=
  { log with
    entries := log.entries.tail
    baseSeq := log.baseSeq + 1
    numbered := by
      have hle := log.le_tip
      rw [←drop_one]
      exact log.numbered.drop (by omega)
    base_le := h
    le_tip := by
      have hle := log.le_tip
      rw [length_tail]
      omega }

def evictLocked (log : ReadableLog) : ReadableLog :=
  if h : log.baseSeq < log.durable ∧ log.maxBytes < log.curBytes then
    (log.evictFirst h.left).evictLocked
  else
    log
termination_by log.durable - log.baseSeq
decreasing_by exact Nat.sub_succ_lt_self _ _ h.left

def push (log : ReadableLog) (ev : Event) (h : ev.seq = log.tipSeq) : ReadableLog :=
  { log with
    entries := log.entries ++ [ev]
    numbered := log.numbered.snoc h
    le_tip := by
      have hle := log.le_tip
      rw [length_append]
      omega }

def setDurable (log : ReadableLog) (nextSeq : ℕ) (h : log.durable ≤ nextSeq)
    (ht : nextSeq ≤ log.tipSeq) : ReadableLog :=
  { log with durable := nextSeq, base_le := Nat.le_trans log.base_le h, le_tip := ht }

def append (log : ReadableLog) (ev : Event) (h : ev.seq = log.tipSeq) : ReadableLog :=
  (log.push ev h).evictLocked

-- The watermark neither falls back nor overtakes the tip.
def advanceDurable (log : ReadableLog) (nextSeq : ℕ) (h : log.durable ≤ nextSeq)
    (ht : nextSeq ≤ log.tipSeq) : ReadableLog :=
  (log.setDurable nextSeq h ht).evictLocked

inductive Resident
  | entries (es : List Event)
  | cold
  | atTip

def readCommittedFrom (log : ReadableLog) (cursor maxEntries : ℕ) : Resident :=
  if log.durable ≤ cursor then
    .atTip
  else if cursor < log.baseSeq then
    .cold
  else
    let out := (log.entries.take (log.durable - log.baseSeq)).drop (cursor - log.baseSeq)
    .entries (out.take (if maxEntries = 0 then 1 else maxEntries))

section

variable (log : ReadableLog)

-- Eviction takes rows from the front and nothing else.
theorem evictLocked_spec : log.evictLocked.durable = log.durable ∧
    log.evictLocked.tipSeq = log.tipSeq ∧ log.baseSeq ≤ log.evictLocked.baseSeq ∧
    log.evictLocked.entries <:+ log.entries := by
  induction log using evictLocked.induct with
  | case1 log h ih =>
    rw [evictLocked, dif_pos h]
    have ⟨hd, ht, hb, he⟩ := ih
    refine ⟨hd, ht.trans ?_, Nat.le_trans (Nat.le_succ _) hb, he.trans (tail_suffix _)⟩
    have hle := log.le_tip
    simp only [tipSeq, evictFirst, length_tail]
    omega
  | case2 log h =>
    rw [evictLocked, dif_neg h]
    exact ⟨rfl, rfl, Nat.le_refl _, suffix_refl _⟩

-- A row of the window that is above its new floor is still there.
theorem mem_evictLocked (hev : ev ∈ log.entries)
    (hb : log.evictLocked.baseSeq ≤ ev.seq) : ev ∈ log.evictLocked.entries := by
  have ⟨_, ht, hle, ⟨evicted, he⟩⟩ := log.evictLocked_spec
  rw [←he, mem_append] at hev
  cases hev with
  | inr hev => exact hev
  | inl hev =>
    have hn := log.numbered
    rw [←he, Numbered.append_iff] at hn
    have hlt := (hn.left.bounds hev).right
    have hlen := congrArg List.length he
    rw [length_append] at hlen
    simp only [tipSeq] at ht
    omega

theorem append_spec (ev : Event) (h : ev.seq = log.tipSeq) :
    (log.append ev h).durable = log.durable ∧ (log.append ev h).tipSeq = log.tipSeq + 1 ∧
    log.baseSeq ≤ (log.append ev h).baseSeq ∧
    ∀ row ∈ log.entries ++ [ev], (log.append ev h).baseSeq ≤ row.seq →
      row ∈ (log.append ev h).entries := by
  have ⟨hd, ht, hb, _⟩ := (log.push ev h).evictLocked_spec
  refine ⟨hd, ht.trans ?_, hb, fun row hr hb => mem_evictLocked _ hr hb⟩
  simp only [tipSeq, push, length_append, length_singleton, Nat.add_assoc]

theorem advanceDurable_spec (n : ℕ) (h : log.durable ≤ n) (ht : n ≤ log.tipSeq) :
    (log.advanceDurable n h ht).durable = n ∧
    (log.advanceDurable n h ht).tipSeq = log.tipSeq ∧
    log.baseSeq ≤ (log.advanceDurable n h ht).baseSeq ∧
    ∀ row ∈ log.entries, (log.advanceDurable n h ht).baseSeq ≤ row.seq →
      row ∈ (log.advanceDurable n h ht).entries := by
  have ⟨hd, ht', hb, _⟩ := (log.setDurable n h ht).evictLocked_spec
  exact ⟨hd, ht', hb, fun row hr hb => mem_evictLocked _ hr hb⟩

end

variable {log : ReadableLog}

-- What a read returns starts at the cursor, leaves nothing out and is committed.
theorem readCommittedFrom_entries (h : log.readCommittedFrom cursor maxEntries = .entries es) :
    log.baseSeq ≤ cursor ∧ Numbered Event.seq cursor es ∧ es ≠ [] ∧ es ⊆ log.entries ∧
      cursor + es.length ≤ log.durable := by
  simp only [readCommittedFrom] at h
  split at h <;> [cases h; split at h <;> [cases h; skip]]
  case isFalse.isFalse hd hb =>
    have hbase : log.baseSeq ≤ cursor := Nat.le_of_not_lt hb
    have htip := log.le_tip
    have hmax : 1 ≤ if maxEntries = 0 then 1 else maxEntries := by split <;> omega
    rw [Resident.entries.injEq] at h
    subst h
    refine ⟨hbase, ?_, ?_, ?_, ?_⟩
    · have hn := (log.numbered.take (log.durable - log.baseSeq)).drop
        (k := cursor - log.baseSeq) (by rw [length_take]; omega)
      rw [Nat.add_sub_cancel' hbase] at hn
      exact hn.take _
    · apply ne_nil_of_length_pos
      rw [length_take, length_drop, length_take]
      omega
    · intro ev hev
      exact mem_of_mem_take (mem_of_mem_drop (mem_of_mem_take hev))
    · rw [length_take, length_drop, length_take]
      omega

theorem readCommittedFrom_cold
    (h : log.readCommittedFrom cursor maxEntries = .cold) : cursor < log.baseSeq := by
  simp only [readCommittedFrom] at h
  split at h <;> [cases h; split at h <;> [assumption; cases h]]

theorem readCommittedFrom_atTip
    (h : log.readCommittedFrom cursor maxEntries = .atTip) : log.durable ≤ cursor := by
  simp only [readCommittedFrom] at h
  split at h <;> [assumption; split at h <;> cases h]

end ReadableLog
end Jetstream.Ingest
