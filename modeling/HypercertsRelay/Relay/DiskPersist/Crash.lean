import HypercertsRelay.Relay.DiskPersist.Layout

-- What the log keeps across failures, crashes and restarts.
namespace Relay.DiskPersist

open List Disk Entry
open LogFile (push ref)

variable {c : EventCodec} {o : Options} {d d' : Disk}
variable {older : List LogFile} {last last' : LogFile} {next : ℕ}

def storedOf (older : List LogFile) (last : LogFile) : List Stored :=
  (older ++ [last]).flatMap (·.stored)

theorem storedOf_push : storedOf older (last.push r) = storedOf older last ++ [r] := by
  simp [storedOf, push]

theorem storedOf_rotate : storedOf (older ++ [last]) ⟨n, []⟩ = storedOf older last := by
  simp [storedOf]

theorem arranged_first (c : EventCodec) (o : Options) : Arranged c o [] ⟨0, []⟩ where
  starts {i f} hi := by
    rw [nil_append, getElem?_singleton] at hi
    split at hi
    case isTrue h => cases hi; rw [h]; rfl
    case isFalse h => cases hi
  full _ hf := nomatch hf
  bounded := Nat.zero_le _
  fits f hf r hr := by
    rw [mem_singleton.mp hf] at hr
    exact nomatch hr
  numbered := trivial

-- The entries that were seen, up to the incarnation before `bound`.
structure Recorded (stored : List Stored) (history : List Entry) (acked : List XRPCStreamEvent)
    (bound : ℕ) : Prop where
  events : history.map Entry.event = stored.map Stored.emitted
  acked : (history.filter Entry.acked).map Entry.event = acked
  once : ∀ n, (history.filter fun e => !e.acked && e.run == n).length ≤ 1
  runs : ∀ e ∈ history, e.acked = false → e.run < bound

namespace Recorded

variable {acked : List XRPCStreamEvent}

section

variable (h : Recorded stored history acked bound)

include h

theorem mono (hle : bound ≤ bound') : Recorded stored history acked bound' :=
  { h with runs := fun e he ha => lt_of_lt_of_le (h.runs e he ha) hle }

theorem ack (r : Stored) :
    Recorded (stored ++ [r]) (history ++ [⟨r.emitted, true, bound⟩]) (acked ++ [r.emitted]) bound where
  events := by simp [h.events]
  acked := by simp [h.acked]
  once n := by simpa using h.once n
  runs e he ha := by
    rw [mem_append, mem_singleton] at he
    obtain he | he := he
    · exact h.runs e he ha
    · rw [he] at ha; cases ha

-- The one entry an incarnation may leave without having acknowledged it.
theorem leave (r : Stored) :
    Recorded (stored ++ [r]) (history ++ [⟨r.emitted, false, bound⟩]) acked (bound + 1) where
  events := by simp [h.events]
  acked := by simp [h.acked]
  once n := by
    rw [filter_append, length_append]
    by_cases hn : bound = n
    · have hnil : history.filter (fun e => !e.acked && e.run == n) = [] := by
        refine filter_eq_nil_iff.mpr fun e he hf => ?_
        simp only [Bool.and_eq_true, Bool.not_eq_true', beq_iff_eq] at hf
        have := h.runs e he hf.left
        omega
      rw [hnil]
      simp [hn]
    · simpa [hn] using h.once n
  runs e he ha := by
    rw [mem_append, mem_singleton] at he
    obtain he | he := he
    · exact Nat.lt_succ_of_lt (h.runs e he ha)
    · rw [he]; exact Nat.lt_succ_self _

end

end Recorded

-- What a running writer is about, with `next` the number of the next entry.
inductive Doing (c : EventCodec) (o : Options) (d : Disk) (last : LogFile) (next : ℕ) :
    DiskPersistence → Prop
  | idle : Doing c o d last next ⟨last.start, next, last.stored.length, false, [], .idle⟩
  | rotating :
    r.Fits c → r.seq = next → last.stored.length = o.eventsPerFile →
    Doing c o d last next ⟨last.start, next, last.stored.length, false, [], .rotating r⟩
  | created :
    r.Fits c → r.seq = next → last.stored.length = o.eventsPerFile → d.files next = some [] →
    Doing c o d last next ⟨last.start, next, last.stored.length, false, [], .created r⟩
  | writing {tail rest} :
    r.Fits c → r.seq = next → last.stored.length < o.eventsPerFile → tail ++ rest = r.bytes c →
    Doing c o d last next ⟨last.start, next, last.stored.length, false, tail, .writing r rest⟩
  | syncing :
    r.Fits c → r.seq = next → last.stored.length < o.eventsPerFile →
    Doing c o d last next ⟨last.start, next, last.stored.length, false, r.bytes c, .syncing r⟩
  -- A rotation failed. The newest file may already be another one.
  | unrotated : Doing c o d last next ⟨logfi, next, n, true, [], .idle⟩
  -- An entry was written in part, or was not synced.
  | torn {r : Stored} {tail : Bytes} :
    r.Fits c → r.seq = next → last.stored.length < o.eventsPerFile → tail <+: r.bytes c →
    Doing c o d last next ⟨last.start, next, last.stored.length, true, tail, .idle⟩

namespace Doing

section

variable (h : Doing c o d last next dp)

include h

theorem idle_inv (hf : dp.failed = false) (hp : dp.phase = .idle) :
    dp = ⟨last.start, next, last.stored.length, false, [], .idle⟩ := by
  cases h with
  | idle => rfl
  | unrotated | torn => cases hf
  | _ => cases hp

theorem rotating_inv (hp : dp.phase = .rotating r) :
    dp = ⟨last.start, next, last.stored.length, false, [], .rotating r⟩ ∧ r.Fits c ∧
      r.seq = next ∧ last.stored.length = o.eventsPerFile := by
  cases h <;> cases hp
  case rotating.refl => exact ⟨rfl, ‹_›, ‹_›, ‹_›⟩

theorem created_inv (hp : dp.phase = .created r) :
    dp = ⟨last.start, next, last.stored.length, false, [], .created r⟩ ∧ r.Fits c ∧
      r.seq = next ∧ last.stored.length = o.eventsPerFile ∧ d.files next = some [] := by
  cases h <;> cases hp
  case created.refl => exact ⟨rfl, ‹_›, ‹_›, ‹_›, ‹_›⟩

theorem writing_inv (hp : dp.phase = .writing r rest) :
    dp = ⟨last.start, next, last.stored.length, false, dp.tail, .writing r rest⟩ ∧ r.Fits c ∧
      r.seq = next ∧ last.stored.length < o.eventsPerFile ∧ dp.tail ++ rest = r.bytes c := by
  cases h <;> cases hp
  case writing.refl => exact ⟨rfl, ‹_›, ‹_›, ‹_›, ‹_›⟩

theorem syncing_inv (hp : dp.phase = .syncing r) :
    dp = ⟨last.start, next, last.stored.length, false, r.bytes c, .syncing r⟩ ∧ r.Fits c ∧
      r.seq = next ∧ last.stored.length < o.eventsPerFile := by
  cases h <;> cases hp
  case syncing.refl => exact ⟨rfl, ‹_›, ‹_›, ‹_›⟩

-- What is not synced is part of one entry.
theorem tail_inv : dp.tail = [] ∨ dp.logfi = last.start ∧ ∃ r : Stored, r.Fits c ∧ r.seq = next ∧
      last.stored.length < o.eventsPerFile ∧ dp.tail <+: r.bytes c := by
  cases h with
  | writing hfits hseq hlt hbytes =>
    exact .inr ⟨rfl, _, hfits, hseq, hlt, hbytes ▸ prefix_append _ _⟩
  | syncing hfits hseq hlt => exact .inr ⟨rfl, _, hfits, hseq, hlt, prefix_refl _⟩
  | torn hfits hseq hlt hp => exact .inr ⟨rfl, _, hfits, hseq, hlt, hp⟩
  | _ => exact .inl rfl

theorem failLocked (hp : dp.phase = .rotating r ∨ dp.phase = .created r) :
    Doing c o d' last' next dp.failLocked := by
  obtain hp | hp := hp
  · rw [(h.rotating_inv hp).left]; exact .unrotated
  · rw [(h.created_inv hp).left]; exact .unrotated

end

theorem pushed (c : EventCodec) (o : Options) (d : Disk) (last : LogFile) (r : Stored) (next : ℕ) :
    Doing c o d (last.push r) (next + 1)
      ⟨last.start, next + 1, last.stored.length + 1, false, [], .idle⟩ := by
  have h : last.stored.length + 1 = (last.push r).stored.length := by simp [push]
  rw [h]
  exact .idle

theorem failed_inv (h : Doing c o d last next dp) (hf : dp.failed = true) : dp.phase = .idle := by
  cases h with
  | unrotated | torn => rfl
  | _ => cases hf

end Doing

-- Between two incarnations the newest file may end in an incomplete entry.
inductive Inv (c : EventCodec) (o : Options) (s : State) : Prop
  | fresh :
    s.disk.refs = [] → s.proc = none → s.history = [] → s.acked = [] → Inv c o s
  | stopped {older : List LogFile} {last} {t} :
    Arranged c o older last → OnDisk c s.disk older last t → entrySize t = none →
    Recorded (storedOf older last) s.history s.acked (s.opened + 1) → s.proc = none → Inv c o s
  | live {older : List LogFile} {last} {dp} :
    Arranged c o older last → OnDisk c s.disk older last [] →
    Recorded (storedOf older last) s.history s.acked s.opened → s.proc = some dp →
    Doing c o s.disk last (o.initialSeq + (storedOf older last).length) dp → Inv c o s

section Steps

theorem entrySize_nil : entrySize [] = none :=
  rfl

theorem onDisk_first (h : d.refs = []) : OnDisk c ((d.write 0 []).register 0) [] ⟨0, []⟩ [] where
  refs := by simp [register, h, ref]
  older _ h := nomatch h
  last := by
    rw [files_register]
    exact files_write_self

theorem recorded_nil (n : ℕ) : Recorded (storedOf [] ⟨0, []⟩) [] [] n where
  events := rfl
  acked := rfl
  once _ := Nat.zero_le _
  runs _ h _ := nomatch h

theorem resumeLog_fresh (h : d.refs = []) : resumeLog o d = .ok (initLogFile o d) := by
  rw [resumeLog, h]
  rfl

-- A file that is created for the next number is none of those that exist.
theorem OnDisk.create (hd : OnDisk c d older last []) (ha : Arranged c o older last)
    (hn : last.start < n) : OnDisk c (d.write n []) older last [] where
  refs := hd.refs
  older f hf := by
    have := ha.start_older hf
    rw [files_write_of_ne (by omega), hd.older f hf]
  last := by rw [files_write_of_ne (by omega), hd.last]

theorem OnDisk.register (hd : OnDisk c d older last []) (hn : d.files n = some []) :
    OnDisk c (d.register n) (older ++ [last]) ⟨n, []⟩ [] where
  refs := by simp [Disk.register, hd.refs, ref]
  older f hf := by
    rw [mem_append, mem_singleton] at hf
    obtain hf | hf := hf
    · exact hd.older f hf
    · rw [hf, Disk.files_register, hd.last, append_nil]
  last := hn

theorem Arranged.next_eq (ha : Arranged c o older last)
    (hfull : last.stored.length = o.eventsPerFile) :
    o.initialSeq + (storedOf older last).length = fileStart o (older.length + 1) := by
  rw [storedOf, ha.length, hfull, fileStart, Nat.succ_mul]

theorem OnDisk.push (hd : OnDisk c d older last []) (ha : Arranged c o older last) (r : Stored) :
    OnDisk c (d.write last.start (wire c last.stored ++ r.bytes c)) older (last.push r) [] := by
  have h := hd.write ha (last.stored ++ [r]) []
  simp only [wire_append, wire_cons, wire_nil, append_nil] at h
  exact h

theorem OnDisk.rotate (hd : OnDisk c d older last []) (ha : Arranged c o older last)
    (hfull : last.stored.length = o.eventsPerFile)
    (hn : d.files (o.initialSeq + (storedOf older last).length) = some []) :
    OnDisk c (d.register (o.initialSeq + (storedOf older last).length)) (older ++ [last])
      ⟨fileStart o (older.length + 1), []⟩ [] := by
  rw [ha.next_eq hfull] at hn ⊢
  exact hd.register hn

-- Whatever part of an entry is left, the log is arranged as before, or has one entry more.
theorem Stopped.onDisk (h : Stopped d dp t d') (hd : OnDisk c d older last [])
    (ha : Arranged c o older last)
    (hl : t = [] ∨ dp.logfi = last.start) : OnDisk c d' older last t where
  refs := by rw [h.refs, hd.refs]
  older f hf := by
    have hne := ne_of_lt (ha.start_older hf)
    by_cases he : f.start = dp.logfi
    · obtain ht | hl := hl
      · rw [he, h.logfi, ←he, hd.older f hf, ht]; simp
      · exact absurd (he.trans hl) hne
    · have href : f.ref ∈ d.refs := hd.refs ▸ mem_map_of_mem (mem_append_left _ hf)
      rw [←hd.older f hf]
      exact h.others f.ref href he
  last := by
    by_cases he : last.start = dp.logfi
    · rw [he, h.logfi, ←he, hd.last]; simp
    obtain ht | hl := hl
    · have href : last.ref ∈ d.refs := hd.refs ▸ mem_map_of_mem (by simp)
      rw [ht, ←hd.last]
      exact h.others last.ref href he
    · exact absurd hl.symm he

theorem Inv.opened (h : Inv c o s) (hp : s.proc = none) (hr : resumeLog o s.disk = .ok (d, dp)) :
    Inv c o { s with disk := d, proc := some dp, opened := s.opened + 1 } := by
  cases h with
  | fresh hrefs _ hh hacked =>
    rw [resumeLog_fresh hrefs] at hr
    cases hr
    refine .live (arranged_first c o) (onDisk_first hrefs) ?_ rfl .idle
    rw [hh, hacked]
    exact recorded_nil _
  | stopped ha hd ht hrec _ =>
    rw [resumeLog_spec hd ha ht] at hr
    cases hr
    exact .live ha (hd.resumed ha) hrec rfl .idle
  | live _ _ _ hp' _ => rw [hp] at hp'; cases hp'

theorem Inv.unopened (h : Inv c o s) (hp : s.proc = none) (hu : Unopened o s.disk d) :
    Inv c o { s with disk := d } := by
  cases h with
  | fresh hrefs _ hh hacked =>
    cases hu with
    | created _ => exact .fresh hrefs hp hh hacked
    | registered _ =>
      refine .stopped (arranged_first c o) (onDisk_first hrefs) entrySize_nil ?_ hp
      rw [hh, hacked]
      exact recorded_nil _
    | truncated _ hl => rw [hrefs] at hl; exact absurd rfl hl
  | stopped ha hd ht hrec _ =>
    cases hu with
    | created hl | registered hl => rw [hd.latest ha] at hl; cases hl
    | truncated hr _ =>
      rw [resumeLog_spec hd ha ht] at hr
      cases hr
      exact .stopped ha (hd.resumed ha) entrySize_nil hrec hp
  | live _ _ _ hp' _ => rw [hp] at hp'; cases hp'

theorem full_iff (hn : n ≤ o.eventsPerFile) :
    0 < n ∧ n % o.eventsPerFile = 0 ↔ n = o.eventsPerFile := by
  have hpos := o.eventsPerFile_pos
  constructor
  case mp =>
    intro ⟨hn0, hmod⟩
    by_cases hlt : n < o.eventsPerFile
    · rw [Nat.mod_eq_of_lt hlt] at hmod; omega
    · omega
  case mpr =>
    intro he
    rw [he, Nat.mod_self]
    exact ⟨hpos, rfl⟩

-- The process ends, and leaves part of what it has not synced.
theorem Inv.stop (h : Inv c o s) (hp : s.proc = some dp) (hst : Stopped s.disk dp t d) :
    Inv c o { s with
        disk := d
        proc := none
        history := s.history ++ (readEntries c t).map (⟨·, false, s.opened⟩) } := by
  cases h with
  | fresh _ hp' | stopped _ _ _ _ hp' => rw [hp] at hp'; cases hp'
  | live ha hd hrec hp' hdo =>
    cases hp.symm.trans hp'
    obtain htail | hr := hdo.tail_inv
    · have ht : t = [] := prefix_nil.mp (htail ▸ hst.prefix_tail)
      subst ht
      have hnil : s.history ++ (readEntries c []).map (⟨·, false, s.opened⟩) = s.history :=
        append_nil _
      rw [hnil]
      exact .stopped ha (hst.onDisk hd ha (.inl rfl)) entrySize_nil (hrec.mono (Nat.le_succ _)) rfl
    · have ⟨hlogfi, r, hfits, hseq, hlt, htail⟩ := hr
      have hd' := hst.onDisk hd ha (.inr hlogfi)
      by_cases he : t = r.bytes c
      · have hread : readEntries c (wire c [r] ++ []) = _ :=
          readEntries_wire (by simpa using hfits) []
        rw [wire_cons, wire_nil, append_nil, append_nil, ←he] at hread
        rw [hread]
        refine .stopped (ha.push hfits hlt hseq) (t := []) ⟨?_, hd'.older, ?_⟩ entrySize_nil ?_ rfl
        · rw [hd'.refs]; simp [ref, push]
        · rw [push, hd'.last, he]
          simp
        · rw [storedOf_push]; exact hrec.leave r
      · have ht : entrySize t = none := Framing.size_of_cut (F := entries) (Stored.isRecord hfits)
            (hst.prefix_tail.trans htail) he
        have hread : readEntries c t = [] := by
          rw [readEntries, show entries.records t = [] from Framing.records_of_size_none ht]
          rfl
        rw [hread, map_nil, append_nil]
        exact .stopped ha hd' ht (hrec.mono (Nat.le_succ _)) rfl

-- What a step of the running writer does to the files.
theorem Inv.working (h : Inv c o s) (hp : s.proc = some dp) :
    ∃ older last, Arranged c o older last ∧ OnDisk c s.disk older last [] ∧
      Recorded (storedOf older last) s.history s.acked s.opened ∧
      Doing c o s.disk last (o.initialSeq + (storedOf older last).length) dp := by
  cases h with
  | fresh _ hp' | stopped _ _ _ _ hp' => rw [hp] at hp'; cases hp'
  | live ha hd hrec hp' hdo =>
    cases hp.symm.trans hp'
    exact ⟨_, _, ha, hd, hrec, hdo⟩

theorem Inv.step (h : Inv c o s) (e : Step c o s s') : Inv c o s' := by
  cases e with
  | opened hp hr => exact h.opened hp hr
  | unopened hp hu => exact h.unopened hp hu
  | returned => exact h
  | persist r hp hf hph hfull hfits hseq =>
    have ⟨older, last, ha, hd, hrec, hdo⟩ := h.working hp
    cases hdo.idle_inv hf hph
    have hne := mt (full_iff ha.bounded).mpr hfull
    have hlt : last.stored.length < o.eventsPerFile := Nat.lt_of_le_of_ne ha.bounded hne
    exact .live ha hd hrec rfl (.writing hfits hseq hlt rfl)
  | rotate r hp hf hph hfull hfits hseq =>
    have ⟨older, last, ha, hd, hrec, hdo⟩ := h.working hp
    cases hdo.idle_inv hf hph
    exact .live ha hd hrec rfl (.rotating hfits hseq ((full_iff ha.bounded).mp hfull))
  | create hp hph =>
    have ⟨older, last, ha, hd, hrec, hdo⟩ := h.working hp
    have ⟨hdp, hfits, hseq, hfull⟩ := hdo.rotating_inv hph
    subst hdp
    have hlt : last.start < o.initialSeq + (storedOf older last).length := by
      rw [ha.next_eq hfull, ha.start_last]
      exact fileStart_lt (Nat.lt_succ_self _)
    exact .live ha (hd.create ha hlt) hrec rfl (.created hfits hseq hfull files_write_self)
  | register hp hph =>
    have ⟨older, last, ha, hd, hrec, hdo⟩ := h.working hp
    have ⟨hdp, hfits, hseq, hfull, hfile⟩ := hdo.created_inv hph
    rw [hdp]
    refine .live (ha.rotate hfull) (hd.rotate ha hfull hfile) ?_ rfl ?_
    · rw [storedOf_rotate]; exact hrec
    · simp only [storedOf_rotate]
      rw [ha.next_eq hfull] at hseq ⊢
      exact .writing hfits hseq o.eventsPerFile_pos rfl
  | unrotated hp hph =>
    have ⟨older, last, ha, hd, hrec, hdo⟩ := h.working hp
    exact .live ha hd hrec rfl (hdo.failLocked hph)
  | unregistered hp hph =>
    have ⟨older, last, ha, hd, hrec, hdo⟩ := h.working hp
    have ⟨hdp, _, _, hfull, hfile⟩ := hdo.created_inv hph
    rw [hdp]
    refine .live (ha.rotate hfull) (hd.rotate ha hfull hfile) ?_ rfl ?_
    · rw [storedOf_rotate]; exact hrec
    · rw [storedOf_rotate]; exact .unrotated
  | write n hp hph hpos hn =>
    have ⟨older, last, ha, hd, hrec, hdo⟩ := h.working hp
    have ⟨hdp, hfits, hseq, hlt, hbytes⟩ := hdo.writing_inv hph
    rw [hdp]
    refine .live ha hd hrec rfl (.writing hfits hseq hlt ?_)
    rw [append_assoc, take_append_drop, hbytes]
  | writeAll hp hph =>
    have ⟨older, last, ha, hd, hrec, hdo⟩ := h.working hp
    have ⟨hdp, hfits, hseq, hlt, hbytes⟩ := hdo.writing_inv hph
    rw [hdp]
    simp only [hbytes]
    exact .live ha hd hrec rfl (.syncing hfits hseq hlt)
  | unwritten n hp hph =>
    have ⟨older, last, ha, hd, hrec, hdo⟩ := h.working hp
    have ⟨hdp, hfits, hseq, hlt, hbytes⟩ := hdo.writing_inv hph
    rw [hdp]
    refine .live ha hd hrec rfl (.torn hfits hseq hlt ?_)
    rw [←hbytes]
    exact (prefix_append_right_inj _).mpr <| take_prefix _ _
  | sync hp hph hfi =>
    have ⟨older, last, ha, hd, hrec, hdo⟩ := h.working hp
    have ⟨hdp, hfits, hseq, hlt⟩ := hdo.syncing_inv hph
    subst hdp
    have hfi := hfi.symm.trans hd.last
    rw [Option.some_inj, append_nil] at hfi
    subst hfi
    refine .live (ha.push hfits hlt hseq) (hd.push ha _) ?_ rfl ?_
    · rw [storedOf_push]; exact hrec.ack _
    · rw [storedOf_push, length_append, length_singleton, ←Nat.add_assoc]
      exact .pushed ..
  | unsynced hp hph =>
    have ⟨older, last, ha, hd, hrec, hdo⟩ := h.working hp
    have ⟨hdp, hfits, hseq, hlt⟩ := hdo.syncing_inv hph
    subst hdp
    exact .live ha hd hrec rfl (.torn hfits hseq hlt (prefix_refl _))
  | stop hp hst => exact h.stop hp hst

end Steps

theorem inv_of_reachable (h : (system c o).Reachable s) : Inv c o s := by
  refine h.invariant (fun s hi => ?_) fun _ _ _ hs e => hs.step e
  subst hi
  exact .fresh rfl rfl rfl rfl

-- The files as they are in any reachable state.
theorem Inv.recorded (h : Inv c o s) : s.disk.events c = s.history.map event ∧
    (s.history.filter acked).map event = s.acked ∧
    (∀ n, (s.history.filter fun e => !e.acked && e.run == n).length ≤ 1) ∧
    Numbered XRPCStreamEvent.seq o.initialSeq (s.disk.events c) := by
  have hfiled {older last t bound} (ha : Arranged c o older last)
      (hd : OnDisk c s.disk older last t) (ht : entrySize t = none)
      (hrec : Recorded (storedOf older last) s.history s.acked bound) :
      s.disk.events c = s.history.map event ∧
      (s.history.filter acked).map event = s.acked ∧
      (∀ n, (s.history.filter fun e => !e.acked && e.run == n).length ≤ 1) ∧
      Numbered XRPCStreamEvent.seq o.initialSeq (s.disk.events c) := by
    have hev := hd.events ha ht
    refine ⟨hev.trans hrec.events.symm, hrec.acked, hrec.once, ?_⟩
    rw [hev]
    exact ha.numbered.map fun _ => rfl
  cases h with
  | fresh hrefs _ hh hacked =>
    have hev : s.disk.events c = [] := by rw [events, hrefs]; rfl
    rw [hev, hh, hacked]
    exact ⟨rfl, rfl, fun _ => Nat.zero_le _, trivial⟩
  | stopped ha hd ht hrec _ => exact hfiled ha hd ht hrec
  | live ha hd hrec _ _ => exact hfiled ha hd entrySize_nil hrec

theorem Inv.reopen (h : Inv c o s) (hp : s.proc = none) : ∃ d dp,
    resumeLog o s.disk = .ok (d, dp) ∧ d.events c = s.disk.events c ∧
      dp.curSeq = o.initialSeq + (s.disk.events c).length := by
  cases h with
  | fresh hrefs =>
    have hev : s.disk.events c = [] := by rw [events, hrefs]; rfl
    refine ⟨_, _, resumeLog_fresh hrefs, ?_, ?_⟩
    · rw [hev]
      exact (onDisk_first hrefs).events (arranged_first c o) entrySize_nil
    · rw [hev]; rfl
  | stopped ha hd ht =>
    refine ⟨_, _, resumeLog_spec hd ha ht, ?_, ?_⟩
    · rw [(hd.resumed ha).events ha entrySize_nil, hd.events ha ht]
    · rw [hd.events ha ht, length_map]
  | live _ _ _ hp' => rw [hp] at hp'; cases hp'

-- Nothing that was found complete is ever lost or replaced.
theorem history_extends (h : (system c o).Runs s s') : s.history <+: s'.history := by
  induction h with
  | refl => exact prefix_refl _
  | tail _ e ih =>
    refine ih.trans ?_
    cases e with
    | sync | stop => exact prefix_append _ _
    | _ => exact prefix_refl _

-- The log has not been opened again since it failed, and nothing was acknowledged.
structure Silent (n : ℕ) (acked : List XRPCStreamEvent) (s : State) : Prop where
  opened : s.opened = n
  acked : s.acked = acked
  failed : ∀ {dp}, s.proc = some dp → dp.failed = true ∧ dp.phase = .idle

theorem Silent.step {acked} (h : Silent n acked s)
    (e : Step c o s s') : n < s'.opened ∨ Silent n acked s' := by
  have hbusy {dp ph} (hp : s.proc = some dp) (hph : dp.phase = ph) (hne : ph ≠ .idle) : False :=
    hne (hph.symm.trans (h.failed hp).right)
  cases e with
  | opened => exact .inl (h.opened ▸ Nat.lt_succ_self _)
  | unopened hp =>
    refine .inr ⟨h.opened, h.acked, fun hp' => ?_⟩
    exact nomatch hp.symm.trans hp'
  | returned => exact .inr h
  | persist _ hp hf | rotate _ hp hf =>
    rw [(h.failed hp).left] at hf
    cases hf
  | unrotated hp hph =>
    cases hph with
    | inl hph | inr hph => exact (hbusy hp hph nofun).elim
  | write _ hp hph | unwritten _ hp hph => exact (hbusy hp hph nofun).elim
  | stop => exact .inr ⟨h.opened, h.acked, nofun⟩
  | create hp hph | register hp hph | unregistered hp hph | writeAll hp hph | sync hp hph
  | unsynced hp hph => exact (hbusy hp hph nofun).elim

theorem opened_mono (h : (system c o).Runs s s') : s.opened ≤ s'.opened := by
  induction h with
  | refl => exact le_rfl
  | tail _ e ih =>
    refine le_trans ih ?_
    cases e with
    | opened => exact Nat.le_succ _
    | _ => exact le_rfl

-- A writer that has failed acknowledges nothing more until the log is opened again.
theorem failed_silent (hs : (system c o).Reachable s) (hp : s.proc = some dp)
    (hf : dp.failed = true) (h : (system c o).Runs s s') (ho : s'.opened = s.opened) :
    s'.acked = s.acked := by
  suffices s.opened < s'.opened ∨ Silent s.opened s.acked s' by
    obtain hlt | h := this
    · omega
    · exact h.acked
  clear ho
  induction h with
  | refl =>
    have ⟨_, _, _, _, _, hdo⟩ := (inv_of_reachable hs).working hp
    refine .inr ⟨rfl, rfl, fun hp' => ?_⟩
    cases hp.symm.trans hp'
    exact ⟨hf, hdo.failed_inv hf⟩
  | tail _ e ih =>
    obtain hlt | h := ih
    · exact .inl (lt_of_lt_of_le hlt (opened_mono (.single e)))
    · exact h.step e

def State.persist (c : EventCodec) (o : Options) (s : State) (dp : DiskPersistence) (r : Stored) :
    State :=
  { s with
    disk := (persistLocked c o s.disk dp r).1
    proc := some (persistLocked c o s.disk dp r).2
    history := s.history ++ [⟨r.emitted, true, s.opened⟩]
    acked := s.acked ++ [r.emitted] }

theorem persist_reachable (h : (system c o).Reachable s) (hp : s.proc = some dp)
    (hf : dp.failed = false) (hph : dp.phase = .idle) (hfits : r.Fits c) (hseq : r.seq = dp.curSeq)
    :
    (system c o).Reachable (s.persist c o dp r) := by
  have ⟨older, last, ha, hd, _, hdo⟩ := (inv_of_reachable h).working hp
  have hdp := hdo.idle_inv hf hph
  by_cases hfull : dp.full o <;> subst hdp
  · have hrotate := h.step (Step.rotate r hp rfl rfl hfull hfits hseq)
    have hregister := (hrotate.step (Step.create rfl rfl)).step (Step.register rfl rfl)
    have hsync := (hregister.step (Step.writeAll rfl rfl)).step (Step.sync rfl rfl files_write_self)
    simpa [State.persist, persistLocked, hfull, swapLog, files_write_self] using hsync
  · have hpersist := h.step (Step.persist r hp rfl rfl hfull hfits hseq)
    have hsync := (hpersist.step (Step.writeAll rfl rfl)).step (Step.sync rfl rfl hd.last)
    simpa [State.persist, persistLocked, hfull, hd.last] using hsync

theorem stopped_append (ht : t <+: dp.tail) : Stopped d dp t (d.append dp.logfi t) where
  prefix_tail := ht
  refs := rfl
  logfi := Function.update_self ..
  others _ _ hne := Function.update_of_ne hne ..
  unsynced := rfl

def State.leave (c : EventCodec) (s : State) (dp : DiskPersistence) (r : Stored) : State :=
  { s with
    disk := s.disk.append dp.logfi (r.bytes c)
    proc := none
    history := s.history ++ [⟨r.emitted, false, s.opened⟩] }

theorem leave_reachable (h : (system c o).Reachable s) (hp : s.proc = some dp)
    (hf : dp.failed = false) (hph : dp.phase = .idle) (hfull : ¬dp.full o) (hfits : r.Fits c)
    (hseq : r.seq = dp.curSeq) : (system c o).Reachable (s.leave c dp r) := by
  have ⟨older, last, ha, hd, _, hdo⟩ := (inv_of_reachable h).working hp
  have hdp := hdo.idle_inv hf hph
  subst hdp
  have hpersist := h.step (Step.persist r hp rfl rfl hfull hfits hseq)
  have hunsynced := (hpersist.step (Step.writeAll rfl rfl)).step (Step.unsynced rfl rfl)
  have hread : readEntries c (wire c [r] ++ []) = _ := readEntries_wire (by simpa using hfits) []
  simp only [wire_cons, wire_nil, append_nil] at hread
  have hstop := hunsynced.step (Step.stop rfl (stopped_append (prefix_refl _)))
  simpa [State.leave, DiskPersistence.failLocked, hread] using hstop

-- The log has every acknowledged event, in order, and for each incarnation at most one other. It
-- can always be opened, and goes on with a new number.
theorem crash_safe (h : (system c o).Reachable s) : s.disk.events c = s.history.map Entry.event ∧
    (s.history.filter Entry.acked).map Entry.event = s.acked ∧
    (∀ n, (s.history.filter fun e => !e.acked && e.run == n).length ≤ 1) ∧
    (s.disk.events c).Pairwise (·.seq < ·.seq) ∧
    (∀ ev ∈ s.disk.events c, o.initialSeq ≤ ev.seq) ∧
    (s.proc = none → ∃ d dp, resumeLog o s.disk = .ok (d, dp) ∧
      d.events c = s.disk.events c ∧ o.initialSeq ≤ dp.curSeq ∧
      ∀ ev ∈ s.disk.events c, ev.seq < dp.curSeq) ∧
    ∀ s', (system c o).Runs s s' → s.history <+: s'.history ∧
      ∀ dp, s.proc = some dp → dp.failed = true → s'.opened = s.opened → s'.acked = s.acked := by
  have hinv := inv_of_reachable h
  have ⟨hevents, hacked, honce, hnum⟩ := hinv.recorded
  refine ⟨hevents, hacked, honce, hnum.pairwise, fun ev he => (hnum.bounds he).left, fun hp => ?_,
    fun s' hr => ⟨history_extends hr, fun dp hp hf ho => failed_silent h hp hf hr ho⟩⟩
  have ⟨d, dp, hopen, hsame, hseq⟩ := hinv.reopen hp
  refine ⟨d, dp, hopen, hsame, ?_, fun ev he => ?_⟩
  · omega
  · have := (hnum.bounds he).right; omega

section Sample

def sampleCodec : EventCodec where
  valid ev := ev.seq = 0 ∧ ev.body.length < 256 ^ 4
  marshal ev := ev.body
  unmarshal kind b := .ok (⟨kind, 0, b⟩, b.length)
  unmarshal_marshal {ev} h := by
    have ⟨kind, seq, body⟩ := ev
    rw [show seq = 0 from h.left]
  marshal_small h := h.right

def sampleOptions : Options :=
  ⟨1, 2, by decide, by decide⟩

def sampleStored (n : ℕ) : Stored :=
  ⟨⟨.commit, 0, [UInt8.ofNat n]⟩, 7, n⟩

theorem sampleStored_fits (h : n < 2 ^ 63) : (sampleStored n).Fits sampleCodec :=
  ⟨⟨rfl, by simp [sampleStored]⟩, nofun, by simp [sampleStored], h⟩

def samplePersist (s : State) (n : ℕ) : State :=
  match s.proc with
  | none => s
  | some dp => s.persist sampleCodec sampleOptions dp (sampleStored n)

def sampleLog : ℕ → State
  | 0 =>
    let (d, dp) := initLogFile sampleOptions ⟨[], fun _ => none, 0⟩
    ⟨d, some dp, 1, [], []⟩
  | n + 1 => samplePersist (sampleLog n) (n + 1)

theorem sampleLog_reachable (h : n < 2 ^ 63) :
    (system sampleCodec sampleOptions).Reachable (sampleLog n) ∧ ∃ dp,
      (sampleLog n).proc = some dp ∧ dp.failed = false ∧ dp.phase = .idle ∧ dp.curSeq = n + 1 := by
  induction n with
  | zero => exact ⟨.step (.init rfl) (Step.opened rfl rfl), _, rfl, rfl, rfl, rfl⟩
  | succ n ih =>
    have ⟨hr, dp, hp, hf, hph, hseq⟩ := ih (by omega)
    have hlog : sampleLog (n + 1) =
        (sampleLog n).persist sampleCodec sampleOptions dp (sampleStored (n + 1)) := by
      simp only [sampleLog, samplePersist, hp]
    rw [hlog]
    refine ⟨persist_reachable hr hp hf hph (sampleStored_fits h) hseq.symm, _, rfl, ?_⟩
    by_cases hfull : dp.full sampleOptions <;> simp [persistLocked, hfull, swapLog, hf, hph, hseq]

-- The second event is written and not synced, and is found when the process is gone.
theorem crash_safe_unsynced : ∃ s, (system sampleCodec sampleOptions).Reachable s ∧
    s.acked = [(sampleStored 1).emitted] ∧
    s.disk.events sampleCodec = [(sampleStored 1).emitted, (sampleStored 2).emitted] ∧
    ∃ d dp, resumeLog sampleOptions s.disk = .ok (d, dp) ∧
      ∀ ev ∈ s.disk.events sampleCodec, ev.seq < dp.curSeq := by
  have ⟨hlog, dp, hp, hf, hph, hseq⟩ := sampleLog_reachable (n := 1) (by decide)
  have hfull : ¬dp.full sampleOptions := by cases hp; decide
  have hstop := leave_reachable hlog hp hf hph hfull (sampleStored_fits (n := 2) (by decide))
    hseq.symm
  have ⟨hevents, _, _, _, _, hopen, _⟩ := crash_safe hstop
  have ⟨d, dp, hresume, _, _, hlt⟩ := hopen rfl
  exact ⟨_, hstop, rfl, hevents, d, dp, hresume, hlt⟩

-- The log is opened with an event that was never synced, a crash takes it back, and another event is
-- acknowledged under its number.
theorem seq_reused : ∃ s s', (machine sampleCodec sampleOptions).Reachable s ∧ s.proc.isSome ∧
    s.disk.events sampleCodec = [⟨.commit, 1, [1]⟩] ∧
    (machine sampleCodec sampleOptions).Runs s s' ∧ s'.acked = [⟨.commit, 1, [2]⟩] := by
  have hfits := sampleStored_fits (n := 1) (by decide)
  have ha := arranged_first sampleCodec sampleOptions
  have ha' := ha.push hfits (by decide) rfl
  have hd : OnDisk sampleCodec (sampleLog 0).disk [] ⟨0, []⟩ [] := onDisk_first rfl
  have hd' : OnDisk sampleCodec ((sampleLog 0).disk.append 0 ((sampleStored 1).bytes sampleCodec)) []
      (push ⟨0, []⟩ (sampleStored 1)) [] := ⟨rfl, by simp, rfl⟩
  have hresume := resumeLog_spec hd ha rfl
  have hresume' := resumeLog_spec hd' ha' rfl
  simp only [append_nil, Disk.truncate, lt_irrefl, if_false] at hresume hresume'
  have hleft := leave_reachable (sampleLog_reachable (n := 0) (by decide)).left rfl rfl rfl
    (by decide) hfits rfl
  have hopen := (hleft.extend : (machine _ _).Reachable _).step (.inl (.opened rfl hresume'))
  have hlost : Lost (((sampleLog 0).disk.append 0 ((sampleStored 1).bytes sampleCodec)).append 0 [])
      (sampleLog 0).disk := by
    refine ⟨rfl, fun ref href => ?_, Function.update_eq_self ..⟩
    rw [mem_singleton.mp href]
    exact ⟨_, le_rfl, rfl⟩
  refine ⟨_, _, hopen, rfl, hd'.events ha' rfl, .tail (.tail (.tail (.tail (.tail (.single
    (.inl (.stop (t := []) rfl (stopped_append nil_prefix))))
    (.inr ⟨rfl, _, hlost, rfl⟩))
    (.inl (.opened rfl hresume)))
    (.inl (.persist ⟨(sampleStored 2).event, 7, 1⟩ rfl rfl rfl (by decide)
      ⟨⟨rfl, by simp [sampleStored]⟩, by rintro ⟨⟩, by simp, by decide⟩ rfl)))
    (.inl (.writeAll rfl rfl)))
    (.inl (.sync rfl rfl hd.last)), rfl⟩

end Sample

end Relay.DiskPersist
