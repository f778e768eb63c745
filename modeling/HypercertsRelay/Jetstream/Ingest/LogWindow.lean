import HypercertsRelay.Library.System
import HypercertsRelay.Jetstream.Ingest.ReadLog

-- The readable log as the writer keeps it, with counters for both ends of the window and checks
-- that panic. It represents a `ReadableLog`, so that none of them fails.
namespace Jetstream.Ingest

open List
open ReadableLog (push)

structure ReadLogEntry where
  event : Event
  bytes : ℤ

def newReadLogEntry (ev : Event) : ReadLogEntry where
  event := ev
  bytes := ReadableLog.entryBytes ev

inductive Panic
  | appendSeq (seq want : ℕ)
  | durableRegression (durable next : ℕ)
  | durableBeyondTip (next tip : ℕ)
  | floorBeyondDurable (floor durable : ℕ)
  | corruptIndex (idx len base tip : ℕ)
  | durableRange (stop len : ℕ)

-- `notify` is the number of the channel that readers at the tip wait on.
structure LogWindow where
  entries : List ReadLogEntry
  baseSeq : ℕ
  tipSeq : ℕ
  durable : ℕ
  curBytes : ℤ
  pinnedBytes : ℤ
  maxBytes : ℤ
  notify : ℕ

def newLogWindow (nextSeq : ℕ) (maxBytes : ℤ) : LogWindow where
  entries := []
  baseSeq := nextSeq
  tipSeq := nextSeq
  durable := nextSeq
  curBytes := 0
  pinnedBytes := 0
  maxBytes := if maxBytes < 0 then 0 else maxBytes
  notify := 0

namespace LogWindow

-- The loop of an eviction, over the entries that are left.
def evictFrom : List ReadLogEntry → LogWindow → LogWindow
  | [], w => w
  | e :: rest, w =>
    if w.baseSeq < w.durable ∧ w.maxBytes < w.curBytes then
      evictFrom rest
        { w with curBytes := w.curBytes - e.bytes, entries := rest, baseSeq := w.baseSeq + 1 }
    else
      w

def evictLocked (w : LogWindow) : Except Panic LogWindow :=
  let w := evictFrom w.entries w
  let w := if w.entries.isEmpty then { w with baseSeq := w.tipSeq } else w
  if w.durable < w.baseSeq then .error (.floorBeyondDurable w.baseSeq w.durable) else .ok w

def renotify (w : LogWindow) : LogWindow :=
  { w with notify := w.notify + 1 }

def append (w : LogWindow) (ev : Event) : Except Panic LogWindow :=
  let entry := newReadLogEntry ev
  if ev.seq ≠ w.tipSeq then
    .error (.appendSeq ev.seq w.tipSeq)
  else
    LogWindow.renotify <$> evictLocked { w with
      entries := w.entries ++ [entry]
      tipSeq := w.tipSeq + 1
      curBytes := w.curBytes + entry.bytes
      pinnedBytes := w.pinnedBytes + entry.bytes }

-- The bytes that stay pinned when the `n` rows from `seq` on become durable.
def unpinFrom (w : LogWindow) : ℕ → ℕ → ℤ → ℤ
  | 0, _, pinned => pinned
  | n + 1, seq, pinned =>
    unpinFrom w n (seq + 1) <|
      if seq < w.baseSeq then
        pinned
      else
        match w.entries[seq - w.baseSeq]? with
        | some e => pinned - e.bytes
        | none => pinned

def advanceDurable (w : LogWindow) (nextSeq : ℕ) : Except Panic LogWindow :=
  if nextSeq < w.durable then
    .error (.durableRegression w.durable nextSeq)
  else if w.tipSeq < nextSeq then
    .error (.durableBeyondTip nextSeq w.tipSeq)
  else
    LogWindow.renotify <$> evictLocked { w with
      pinnedBytes := w.unpinFrom (nextSeq - w.durable) w.durable w.pinnedBytes
      durable := nextSeq }

inductive Read
  | entries (es : List ReadLogEntry)
  | cold
  | atTip (notify : ℕ)

-- A request for no entry at all is a request for one.
def requested (max : ℤ) : ℕ :=
  if max ≤ 0 then 1 else max.toNat

def corruptIndex (w : LogWindow) (idx : ℕ) : Panic :=
  .corruptIndex idx w.entries.length w.baseSeq w.tipSeq

def readCommittedFrom (w : LogWindow) (cursor : ℕ) (maxEntries : ℤ) : Except Panic Read :=
  if w.durable ≤ cursor then
    .ok (.atTip w.notify)
  else if cursor < w.baseSeq then
    .ok .cold
  else if w.entries.length ≤ cursor - w.baseSeq then
    .error (w.corruptIndex (cursor - w.baseSeq))
  else if w.entries.length < w.durable - w.baseSeq then
    .error (.durableRange (w.durable - w.baseSeq) w.entries.length)
  else
    let out := (w.entries.take (w.durable - w.baseSeq)).drop (cursor - w.baseSeq)
    .ok (.entries (out.take (requested maxEntries)))

def readFrom (w : LogWindow) (cursor : ℕ) (max : ℤ) : Except Panic Read :=
  if w.baseSeq ≤ cursor ∧ cursor < w.tipSeq then
    if w.entries.length ≤ cursor - w.baseSeq then
      .error (w.corruptIndex (cursor - w.baseSeq))
    else
      .ok (.entries ((w.entries.drop (cursor - w.baseSeq)).take (requested max)))
  else if w.tipSeq ≤ cursor then
    .ok (.atTip w.notify)
  else
    .ok .cold

end LogWindow

namespace ReadableLog

def bytesFrom (log : ReadableLog) (seq : ℕ) : ℕ :=
  ((log.entries.filter (seq ≤ ·.seq)).map entryBytes).sum

variable {log : ReadableLog}

theorem bytesFrom_eq_drop (seq : ℕ) :
    log.bytesFrom seq = ((log.entries.drop (seq - log.baseSeq)).map entryBytes).sum := by
  rw [bytesFrom, log.numbered.filter_le]

theorem bytesFrom_succ (hb : log.baseSeq ≤ seq) (ht : seq < log.tipSeq) :
    ∃ ev, log.entries[seq - log.baseSeq]? = some ev ∧
      log.bytesFrom seq = entryBytes ev + log.bytesFrom (seq + 1) := by
  have hlt : seq - log.baseSeq < log.entries.length := by
    simp only [tipSeq] at ht
    omega
  refine ⟨_, getElem?_eq_getElem hlt, ?_⟩
  rw [bytesFrom_eq_drop, bytesFrom_eq_drop, drop_eq_getElem_cons hlt, map_cons,
    sum_cons, Nat.succ_sub hb]

theorem exists_first (h : log.baseSeq < log.durable) :
    ∃ ev rest, log.entries = ev :: rest ∧ ev.seq = log.baseSeq := by
  have hle := log.le_tip
  have hn := log.numbered
  cases he : log.entries with
  | nil =>
    rw [he, length_nil] at hle
    omega
  | cons ev rest =>
    rw [he] at hn
    exact ⟨ev, rest, rfl, hn.left⟩

end ReadableLog

namespace LogWindow

-- The counters are those of the rows, and the log keeps its window in order by construction.
structure Represents (w : LogWindow) (log : ReadableLog) : Prop where
  entries : w.entries = log.entries.map newReadLogEntry
  baseSeq : w.baseSeq = log.baseSeq
  tipSeq : w.tipSeq = log.tipSeq
  durable : w.durable = log.durable
  maxBytes : w.maxBytes = log.maxBytes
  curBytes : w.curBytes = log.curBytes
  pinnedBytes : w.pinnedBytes = log.bytesFrom log.durable

section

variable {w : LogWindow}

theorem represents_new (nextSeq : ℕ) (maxBytes : ℤ) :
    (newLogWindow nextSeq maxBytes).Represents (newReadableLog nextSeq maxBytes.toNat) where
  entries := rfl
  baseSeq := rfl
  tipSeq := rfl
  durable := rfl
  maxBytes := by
    simp only [newLogWindow, newReadableLog]
    split <;> omega
  curBytes := rfl
  pinnedBytes := rfl

namespace Represents

section

variable (h : w.Represents log)

include h

theorem renotify : w.renotify.Represents log :=
  { h with }

-- The row that leaves is committed, so its bytes were not pinned any more.
theorem evictFirst (hb : log.baseSeq < log.durable) (he : w.entries = e :: rest) :
    Represents { w with curBytes := w.curBytes - e.bytes, entries := rest, baseSeq := w.baseSeq + 1 }
      (log.evictFirst hb) := by
  have ⟨ev, evs, hev, hseq⟩ := ReadableLog.exists_first hb
  have hent := h.entries
  rw [he, hev, map_cons, List.cons.injEq] at hent
  have hcur := h.curBytes
  have htip := h.tipSeq
  have hpin := h.pinnedBytes
  simp only [ReadableLog.curBytes, ReadableLog.tipSeq, ReadableLog.bytesFrom, hev, map_cons,
    sum_cons, length_cons] at hcur htip hpin
  rw [filter_cons_of_neg (by simpa [hseq] using hb)] at hpin
  constructor
  case entries => simpa [ReadableLog.evictFirst, hev] using hent.right
  case baseSeq => exact congrArg (· + 1) h.baseSeq
  case tipSeq =>
    simp only [ReadableLog.evictFirst, ReadableLog.tipSeq, hev, tail_cons]
    omega
  case durable => exact h.durable
  case maxBytes => exact h.maxBytes
  case curBytes =>
    have hbytes : e.bytes = ReadableLog.entryBytes ev := congrArg ReadLogEntry.bytes hent.left
    simp only [ReadableLog.evictFirst, ReadableLog.curBytes, hev, tail_cons]
    omega
  case pinnedBytes =>
    simpa only [ReadableLog.evictFirst, ReadableLog.bytesFrom, hev, tail_cons] using hpin

theorem evictFrom : (evictFrom w.entries w).Represents log.evictLocked := by
  induction log using ReadableLog.evictLocked.induct generalizing w with
  | case1 log hc ih =>
    obtain ⟨ev, evs, hev, _⟩ := ReadableLog.exists_first hc.left
    have hent := h.entries
    rw [hev, map_cons] at hent
    rw [ReadableLog.evictLocked, dif_pos hc, hent, LogWindow.evictFrom, if_pos]
    case hc =>
      rw [h.baseSeq, h.durable, h.maxBytes, h.curBytes]
      exact ⟨hc.left, Int.ofNat_lt.mpr hc.right⟩
    exact ih (h.evictFirst hc.left hent)
  | case2 log hc =>
    rw [ReadableLog.evictLocked, dif_neg hc]
    cases hent : w.entries with
    | nil => exact h
    | cons e rest =>
      rw [LogWindow.evictFrom, if_neg]
      case hnc =>
        rw [h.baseSeq, h.durable, h.maxBytes, h.curBytes]
        exact fun hc' => hc ⟨hc'.left, Int.ofNat_lt.mp hc'.right⟩
      exact h

-- An empty window is already at the tip, and the floor of a window is not above the watermark.
theorem evictLocked : ∃ w', w.evictLocked = .ok w' ∧ w'.Represents log.evictLocked := by
  have h' := h.evictFrom
  have hbase : (if (LogWindow.evictFrom w.entries w).entries.isEmpty then
      { LogWindow.evictFrom w.entries w with
        baseSeq := (LogWindow.evictFrom w.entries w).tipSeq }
      else LogWindow.evictFrom w.entries w) = LogWindow.evictFrom w.entries w := by
    split
    case isTrue hemp =>
      have hnil : log.evictLocked.entries = [] := by simpa [h'.entries] using hemp
      have htip := h'.tipSeq.trans (congrArg (log.evictLocked.baseSeq + ·.length) hnil)
      rw [htip, length_nil, add_zero, ←h'.baseSeq]
    · rfl
  refine ⟨_, ?_, h'⟩
  simp only [LogWindow.evictLocked]
  rw [hbase, if_neg]
  rw [h'.baseSeq, h'.durable]
  exact Nat.not_lt.mpr log.evictLocked.base_le

theorem append (hev : ev.seq = log.tipSeq) :
    ∃ w', w.append ev = .ok w' ∧ w'.Represents (log.append ev hev) := by
  have hpush : Represents { w with
      entries := w.entries ++ [newReadLogEntry ev]
      tipSeq := w.tipSeq + 1
      curBytes := w.curBytes + (newReadLogEntry ev).bytes
      pinnedBytes := w.pinnedBytes + (newReadLogEntry ev).bytes } (log.push ev hev) := by
    constructor
    case entries => simp [push, h.entries]
    case baseSeq => exact h.baseSeq
    case tipSeq => simp [push, ReadableLog.tipSeq, h.tipSeq, add_assoc]
    case durable => exact h.durable
    case maxBytes => exact h.maxBytes
    case curBytes => simp [push, ReadableLog.curBytes, h.curBytes, newReadLogEntry]
    case pinnedBytes =>
      have hle : log.durable ≤ ev.seq := hev ▸ log.le_tip
      simp [push, ReadableLog.bytesFrom, h.pinnedBytes, newReadLogEntry, hle]
      rfl
  obtain ⟨w', hw, hr⟩ := hpush.evictLocked
  refine ⟨w'.renotify, ?_, hr.renotify⟩
  rw [LogWindow.append, if_neg (by simp [hev, h.tipSeq]), hw]
  rfl

theorem unpinFrom (hb : log.baseSeq ≤ seq) (ht : seq + n ≤ log.tipSeq) :
    w.unpinFrom n seq (log.bytesFrom seq) = log.bytesFrom (seq + n) := by
  induction n generalizing seq with
  | zero => rfl
  | succ n ih =>
    have ⟨ev, hget, hbytes⟩ := ReadableLog.bytesFrom_succ hb (show seq < log.tipSeq by omega)
    have hw : w.entries[seq - w.baseSeq]? = some (newReadLogEntry ev) := by
      rw [h.entries, h.baseSeq, getElem?_map, hget]
      rfl
    have hseq : ¬seq < w.baseSeq := by
      rw [h.baseSeq]
      omega
    simp only [LogWindow.unpinFrom, hw, if_neg hseq]
    have hstep : (log.bytesFrom seq : ℤ) - (newReadLogEntry ev).bytes = log.bytesFrom (seq + 1) := by
      simp only [hbytes, newReadLogEntry]
      omega
    rw [hstep, ih (by omega) (by omega), add_right_comm, add_assoc]

theorem advanceDurable (hd : log.durable ≤ n) (ht : n ≤ log.tipSeq) :
    ∃ w', w.advanceDurable n = .ok w' ∧ w'.Represents (log.advanceDurable n hd ht) := by
  have hset : Represents { w with
      pinnedBytes := w.unpinFrom (n - w.durable) w.durable w.pinnedBytes
      durable := n } (log.setDurable n hd ht) := by
    refine { h with durable := rfl, pinnedBytes := ?_ }
    have hun := h.unpinFrom log.base_le (show log.durable + (n - log.durable) ≤ log.tipSeq by omega)
    rw [Nat.add_sub_cancel' hd] at hun
    rw [h.durable, h.pinnedBytes]
    exact hun
  have ⟨w', hw, hr⟩ := hset.evictLocked
  refine ⟨w'.renotify, ?_, hr.renotify⟩
  rw [LogWindow.advanceDurable, if_neg (by rw [h.durable]; omega),
    if_neg (by rw [h.tipSeq]; omega), hw]
  rfl

end

end Represents
end

-- The operations of the writer: the next row is appended, or the watermark moves up to the tip.
inductive Step : Except Panic LogWindow → Except Panic LogWindow → Prop
  | append : ev.seq = w.tipSeq → Step (.ok w) (w.append ev)
  | advanceDurable {n} :
    w.durable ≤ n → n ≤ w.tipSeq → Step (.ok w) (w.advanceDurable n)

def system (nextSeq : ℕ) (maxBytes : ℤ) : System (Except Panic LogWindow) where
  init s := s = .ok (newLogWindow nextSeq maxBytes)
  step := Step

theorem reachable_represents {maxBytes} (h : (system nextSeq maxBytes).Reachable s) :
    ∃ w log, s = .ok w ∧ w.Represents log := by
  refine h.invariant (P := fun s => ∃ w log, s = .ok w ∧ Represents w log)
    (fun s hi => ⟨_, _, hi, represents_new _ _⟩) fun s s' _ hinv e => ?_
  have ⟨w, log, hs, hr⟩ := hinv
  subst hs
  cases e with
  | append hseq =>
    have ⟨w', hw, hr'⟩ := hr.append (hseq.trans hr.tipSeq)
    exact ⟨w', _, hw, hr'⟩
  | advanceDurable hd ht =>
    have ⟨w', hw, hr'⟩ := hr.advanceDurable (hr.durable ▸ hd) (hr.tipSeq ▸ ht)
    exact ⟨w', _, hw, hr'⟩

structure Exact (w : LogWindow) : Prop where
  base_le_durable : w.baseSeq ≤ w.durable
  durable_le_tip : w.durable ≤ w.tipSeq
  seqs : w.entries.map (·.event.seq) = List.range' w.baseSeq (w.tipSeq - w.baseSeq)
  bytes : ∀ e ∈ w.entries, e = newReadLogEntry e.event
  curBytes : w.curBytes = (w.entries.map (·.bytes)).sum
  pinnedBytes : w.pinnedBytes = ((w.entries.filter (w.durable ≤ ·.event.seq)).map (·.bytes)).sum

-- The run of rows from the cursor on, below `stop` and as long as it was asked for.
inductive Reads (w : LogWindow) (stop cursor : ℕ) (max : ℤ) : Except Panic Read → Prop
  | atTip : stop ≤ cursor → Reads w stop cursor max (.ok (.atTip w.notify))
  | cold : cursor < stop → cursor < w.baseSeq → Reads w stop cursor max (.ok .cold)
  | entries :
    w.baseSeq ≤ cursor → cursor < stop → es <:+: w.entries →
    es.map (·.event.seq) = List.range' cursor (min (requested max) (stop - cursor)) →
    Reads w stop cursor max (.ok (.entries es))

section

variable {w : LogWindow}

section

variable (h : w.Represents log)

include h

theorem Represents.numbered : Numbered (·.event.seq) w.baseSeq w.entries := by
  rw [h.entries, h.baseSeq]
  exact log.numbered.map fun _ => rfl

theorem Represents.tipSeq_eq : w.tipSeq = w.baseSeq + w.entries.length := by
  rw [h.tipSeq, h.baseSeq, h.entries, length_map]
  rfl

theorem Represents.exact : w.Exact where
  base_le_durable := by
    rw [h.baseSeq, h.durable]
    exact log.base_le
  durable_le_tip := by
    rw [h.durable, h.tipSeq]
    exact log.le_tip
  seqs := by rw [h.numbered.map_seq, h.tipSeq_eq, Nat.add_sub_cancel_left]
  bytes := by
    intro e he
    rw [h.entries] at he
    have ⟨ev, _, hev⟩ := mem_map.mp he
    exact hev ▸ rfl
  curBytes := by
    rw [h.curBytes, h.entries, map_map, ReadableLog.curBytes, Nat.cast_list_sum, map_map]
    rfl
  pinnedBytes := by
    rw [h.pinnedBytes, h.durable, h.entries, filter_map, map_map, ReadableLog.bytesFrom,
      Nat.cast_list_sum, map_map]
    rfl

-- The run that both reads cut out of the window.
theorem Represents.run (hb : w.baseSeq ≤ cursor)
    (hc : cursor < stop) (hs : stop ≤ w.tipSeq) (max : ℤ) :
    Reads w stop cursor max (.ok (.entries
      (((w.entries.take (stop - w.baseSeq)).drop (cursor - w.baseSeq)).take (requested max)))) := by
  have htip := h.tipSeq_eq
  refine .entries hb hc ?_ ?_
  · exact ((List.take_prefix _ _).isInfix.trans (drop_suffix _ _).isInfix).trans
      (List.take_prefix _ _).isInfix
  have hn := ((h.numbered.take (stop - w.baseSeq)).drop
    (k := cursor - w.baseSeq) (by rw [length_take]; omega)).take (requested max)
  rw [Nat.add_sub_cancel' hb] at hn
  rw [hn.map_seq, length_take, length_drop, length_take]
  congr 2
  omega

theorem Represents.readCommittedFrom (cursor : ℕ) (max : ℤ) :
    Reads w w.durable cursor max (w.readCommittedFrom cursor max) := by
  have hex := h.exact
  have htip := h.tipSeq_eq
  have hle := hex.durable_le_tip
  simp only [LogWindow.readCommittedFrom]
  split
  case isTrue hd => exact .atTip hd
  case isFalse hd =>
    split
    case isTrue hb => exact .cold (Nat.lt_of_not_le hd) hb
    case isFalse hb =>
      rw [if_neg (by omega), if_neg (by omega)]
      exact h.run (Nat.le_of_not_lt hb) (Nat.lt_of_not_le hd) hle max

theorem Represents.readFrom (cursor : ℕ) (max : ℤ) :
    Reads w w.tipSeq cursor max (w.readFrom cursor max) := by
  have htip := h.tipSeq_eq
  simp only [LogWindow.readFrom]
  split
  case isTrue hc =>
    rw [if_neg (by omega)]
    have hrun := h.run hc.left hc.right (le_rfl) max
    rwa [take_of_length_le (i := w.tipSeq - w.baseSeq) (by omega)] at hrun
  case isFalse hc =>
    split
    case isTrue ht => exact .atTip ht
    case isFalse ht => exact .cold (Nat.lt_of_not_le ht) (by omega)

end

theorem Reads.seq_lt {max} (h : Reads w stop cursor max (.ok (.entries es))) (he : e ∈ es) :
    e.event.seq < stop := by
  cases h with
  | entries hb hc _ hseq =>
    have hmem := mem_map_of_mem (f := (·.event.seq)) he
    rw [hseq, mem_range'_1] at hmem
    omega

end

theorem window_exact {maxBytes s}
    (h : (system nextSeq maxBytes).Reachable s) :
    ∃ w, s = .ok w ∧ w.Exact ∧ ∀ cursor max, Reads w w.tipSeq cursor max (w.readFrom cursor max) ∧
      Reads w w.durable cursor max (w.readCommittedFrom cursor max) ∧
      ∀ es, w.readCommittedFrom cursor max = .ok (.entries es) →
        ∀ e ∈ es, e.event.seq < w.durable := by
  have ⟨w, log, hs, hr⟩ := reachable_represents h
  refine ⟨w, hs, hr.exact, fun cursor max => ⟨hr.readFrom cursor max, ?_⟩⟩
  have hread := hr.readCommittedFrom cursor max
  refine ⟨hread, fun es hes e he => ?_⟩
  rw [hes] at hread
  exact hread.seq_lt he

-- A row of 128 bytes is appended, becomes durable and leaves a window without a budget.
theorem window_exact_evicted :
    ∃ w, (LogWindow.append (newLogWindow 7 (-1)) ⟨7, .sync, "", "", "", "", []⟩ >>=
        fun w => w.advanceDurable 8) = .ok w ∧ w.Exact ∧ w.baseSeq = 8 := by
  have hstep₁ : Step (.ok (newLogWindow 7 (-1)))
      (LogWindow.append (newLogWindow 7 (-1)) ⟨7, .sync, "", "", "", "", []⟩) := .append rfl
  have hstep₂ : Step (.ok _) _ := .advanceDurable (n := 8)
    (w := ⟨[newReadLogEntry ⟨7, .sync, "", "", "", "", []⟩], 7, 8, 7, 128, 128, 0, 1⟩)
    (by decide) (by decide)
  have ⟨w, hw, hex, _⟩ := window_exact ((System.Reachable.init (S := system 7 (-1)) rfl).step
    hstep₁ |>.step hstep₂)
  exact ⟨w, hw, hex, by cases hw; rfl⟩

end LogWindow
end Jetstream.Ingest
