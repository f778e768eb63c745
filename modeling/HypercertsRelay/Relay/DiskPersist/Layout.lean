import HypercertsRelay.Library.Numbered
import HypercertsRelay.Relay.DiskPersist.Log

-- How the log is spread over its files, and what is found when it is opened again.
namespace Relay.DiskPersist

open List Option Stored

variable {o : Options}

structure LogFile where
  start : ℕ
  stored : List Stored

namespace LogFile

def ref (f : LogFile) : LogFileRef :=
  ⟨f.start, f.start⟩

def push (f : LogFile) (r : Stored) : LogFile :=
  { f with stored := f.stored ++ [r] }

end LogFile

-- The first file starts at zero, though the first number is another.
def fileStart (o : Options) : ℕ → ℕ
  | 0 => 0
  | i + 1 => o.initialSeq + (i + 1) * o.eventsPerFile

theorem fileStart_lt (h : i < j) : fileStart o i < fileStart o j := by
  have hI := o.initialSeq_pos
  cases j with
  | zero => omega
  | succ j =>
    cases i with
    | zero => rw [fileStart, fileStart]; omega
    | succ i =>
      have := Nat.mul_lt_mul_of_pos_right h o.eventsPerFile_pos
      rw [fileStart, fileStart]
      omega

theorem fileStart_inj (h : fileStart o i = fileStart o j) : i = j := by
  obtain hlt | h' := lt_trichotomy i j
  · have := fileStart_lt (o := o) hlt; omega
  · obtain he | hlt := h'
    · exact he
    · have := fileStart_lt (o := o) hlt; omega

-- Numbers of a file begin at its start, with the exception of the first one.
theorem max_fileStart (o : Options) (i : ℕ) :
    max (fileStart o i) o.initialSeq = o.initialSeq + i * o.eventsPerFile := by
  cases i with
  | zero => simp [fileStart]
  | succ i => rw [fileStart, Nat.max_eq_left (Nat.le_add_right _ _)]

theorem length_flatMap_full {fs : List LogFile} (h : ∀ f ∈ fs, f.stored.length = o.eventsPerFile) :
    (fs.flatMap (·.stored)).length = fs.length * o.eventsPerFile := by
  induction fs with
  | nil => simp
  | cons f fs ih =>
    have ⟨hf, hfs⟩ := forall_mem_cons.mp h
    rw [flatMap_cons, length_append, hf, ih hfs, length_cons, Nat.succ_mul]
    omega

-- The files in the order of their starts. All but the newest are full.
structure Arranged (c : EventCodec) (o : Options) (older : List LogFile) (last : LogFile) : Prop where
  starts : ∀ {i f}, (older ++ [last])[i]? = some f → f.start = fileStart o i
  full : ∀ f ∈ older, f.stored.length = o.eventsPerFile
  bounded : last.stored.length ≤ o.eventsPerFile
  fits : ∀ f ∈ older ++ [last], ∀ r ∈ f.stored, r.Fits c
  numbered : Numbered Stored.seq o.initialSeq ((older ++ [last]).flatMap (·.stored))

-- The bytes of the files, with those of an incomplete entry at the end of the newest one.
structure OnDisk (c : EventCodec) (d : Disk) (older : List LogFile) (last : LogFile) (t : Bytes) :
    Prop where
  refs : d.refs = (older ++ [last]).map LogFile.ref
  older : ∀ f ∈ older, d.files f.start = some (wire c f.stored)
  last : d.files last.start = some (wire c last.stored ++ t)

namespace Arranged

section

variable (h : Arranged c o older last)

include h

theorem length_older : (older.flatMap (·.stored)).length = older.length * o.eventsPerFile :=
  length_flatMap_full h.full

theorem length : ((older ++ [last]).flatMap (·.stored)).length =
    older.length * o.eventsPerFile + last.stored.length := by
  rw [flatMap_append, length_append, h.length_older]
  simp

theorem start_last : last.start = fileStart o older.length :=
  h.starts (by simp)

theorem start_older (hf : f ∈ older) : f.start < last.start := by
  have ⟨i, hi, hf⟩ := getElem_of_mem hf
  have hs := h.starts (i := i) (f := f) (by rw [getElem?_append_left hi, ←hf]; simp)
  rw [hs, h.start_last]
  exact fileStart_lt hi

theorem push (hr : r.Fits c) (hlt : last.stored.length < o.eventsPerFile)
    (hseq : r.seq = o.initialSeq + ((older ++ [last]).flatMap (·.stored)).length) :
    Arranged c o older (last.push r) where
  starts {i f} hi := by
    by_cases hlast : i < older.length
    · rw [getElem?_append_left hlast] at hi
      exact h.starts (by rw [getElem?_append_left hlast, hi])
    · rw [getElem?_append_right (by omega), getElem?_singleton] at hi
      split at hi <;> cases hi
      have hidx : i = older.length := by omega
      exact hidx ▸ h.start_last
  full := h.full
  bounded := by
    rw [LogFile.push, length_append]
    exact hlt
  fits f hf r' hr' := by
    rw [mem_append, mem_singleton] at hf
    obtain hf | hf := hf
    · exact h.fits f (mem_append_left _ hf) r' hr'
    subst hf
    rw [LogFile.push, mem_append, mem_singleton] at hr'
    obtain hr' | he := hr'
    · exact h.fits last (by simp) r' hr'
    · exact he ▸ hr
  numbered := by
    have hn := h.numbered.snoc hseq
    simpa [LogFile.push] using hn

-- A full file is followed by an empty one.
theorem rotate (hfull : last.stored.length = o.eventsPerFile) :
    Arranged c o (older ++ [last]) ⟨fileStart o (older.length + 1), []⟩ where
  starts {i f} hi := by
    by_cases hlast : i < (older ++ [last]).length
    · rw [getElem?_append_left hlast] at hi
      exact h.starts hi
    · rw [getElem?_append_right (by omega), getElem?_singleton] at hi
      split at hi <;> cases hi
      simp only [length_append, length_singleton] at *
      rw [show i = older.length + 1 by omega]
  full f hf := by
    rw [mem_append, mem_singleton] at hf
    obtain hf | hf := hf
    · exact h.full f hf
    · exact hf ▸ hfull
  bounded := Nat.zero_le _
  fits f hf r hr := by
    rw [mem_append, mem_singleton] at hf
    obtain hf | hf := hf
    · exact h.fits f hf r hr
    · subst hf; cases hr
  numbered := by simpa using h.numbered

end

end Arranged

section Scan

theorem scanEntries_none (hf : ∀ r ∈ rs, r.Fits c) (torn : Bool) (lastSeq : Option ℕ) (n : ℕ) :
    scanEntries none torn (rs.map (·.bytes c)) lastSeq n =
      .ok ⟨(rs.getLast?.map seq).or lastSeq, n + (wire c rs).length⟩ := by
  induction rs generalizing lastSeq n with
  | nil => cases torn <;> simp [scanEntries, recoverIncompleteTail]
  | cons r rs ih =>
    have ⟨hr, hrs⟩ := forall_mem_cons.mp hf
    simp only [map_cons, scanEntries, any_none, Bool.false_eq_true, if_false,
      readHeader_self hr, ih hrs, wire_cons, length_append, Nat.add_assoc, getLast?_cons]
    cases rs.getLast? <;> rfl

-- What is behind the last complete entry is cut off.
theorem scanForLastSeq_none (hf : ∀ r ∈ rs, r.Fits c) (ht : entrySize t = none) :
    scanForLastSeq (wire c rs ++ t) none = .ok ⟨rs.getLast?.map seq, (wire c rs).length⟩ := by
  have hnil : entries.records t = [] := Framing.records_of_size_none ht
  rw [scanForLastSeq, records_wire hf, hnil, append_nil, scanEntries_none hf]
  simp

end Scan

section Resume

variable {older : List LogFile} {last : LogFile}

theorem latest_snoc
    (h : ∀ ref' ∈ refs, ref'.seqStart ≤ ref.seqStart) : latest (refs ++ [ref]) = some ref := by
  induction refs with
  | nil => rfl
  | cons r' rs ih =>
    have ⟨hr, hrs⟩ := forall_mem_cons.mp h
    rw [cons_append, latest, ih hrs]
    exact if_pos hr

theorem OnDisk.latest (hd : OnDisk c d older last t) (ha : Arranged c o older last) :
    latest d.refs = some last.ref := by
  rw [hd.refs, map_append]
  refine latest_snoc fun ref' h => ?_
  have ⟨f, hf, he⟩ := mem_map.mp h
  exact he ▸ le_of_lt (ha.start_older hf)

theorem OnDisk.write (hd : OnDisk c d older last t) (ha : Arranged c o older last)
    (rs : List Stored) (t' : Bytes) :
    OnDisk c (d.write last.start (wire c rs ++ t')) older { last with stored := rs } t' where
  refs := by
    rw [Disk.refs_write, hd.refs]
    simp [LogFile.ref]
  older f hf := by
    have hne : f.start ≠ last.start := ne_of_lt (ha.start_older hf)
    rw [Disk.files_write_of_ne hne, hd.older f hf]
  last := Disk.files_write_self

theorem resumeSeq_eq (ha : Arranged c o older last) :
    resumeSeq o last.start (last.stored.getLast?.map seq) =
      o.initialSeq + ((older ++ [last]).flatMap (·.stored)).length := by
  have hlen := ha.length
  have hmax := max_fileStart o older.length
  rw [←ha.start_last] at hmax
  have hn := ha.numbered
  rw [flatMap_append, Numbered.append_iff, ha.length_older] at hn
  cases hl : last.stored.getLast? with
  | none =>
    have hnil := getLast?_eq_none_iff.mp hl
    rw [hlen, hnil, length_nil, map_none, resumeSeq]
    split <;> omega
  | some r =>
    have ⟨init, hr⟩ := getLast?_eq_some_iff.mp hl
    have hn := hn.right
    rw [flatMap_singleton, hr, Numbered.append_iff] at hn
    have hseq := hn.right.left
    rw [hlen, hr, length_append, length_singleton, map_some, resumeSeq]
    omega

section

variable (hd : OnDisk c d older last t)

include hd

-- The writer that is opened goes on behind the last complete entry.
theorem resumeLog_spec (ha : Arranged c o older last) (ht : entrySize t = none) : resumeLog o d =
    .ok (d.truncate last.start (wire c last.stored ++ t) (wire c last.stored).length,
      ⟨last.start, o.initialSeq + ((older ++ [last]).flatMap (·.stored)).length,
        last.stored.length, false, [], .idle⟩) := by
  have hfits : ∀ r ∈ last.stored, r.Fits c := ha.fits last (by simp)
  have hmax := max_fileStart o older.length
  rw [←ha.start_last] at hmax
  have hcount : o.initialSeq + ((older ++ [last]).flatMap (·.stored)).length -
      max last.start o.initialSeq = last.stored.length := by
    rw [ha.length, hmax]
    omega
  simp only [resumeLog, hd.latest ha, LogFile.ref, hd.last, scanForLastSeq_none hfits ht,
    Except.mapError, bind, Except.bind, resumeSeq_eq ha, hcount]
  rfl

theorem OnDisk.resumed (ha : Arranged c o older last) : OnDisk c
    (d.truncate last.start (wire c last.stored ++ t) (wire c last.stored).length) older last [] := by
  rw [Disk.truncate]
  split
  case isTrue =>
    have h := hd.write ha last.stored []
    have htake : (wire c last.stored ++ t).take (wire c last.stored).length = _ := take_left
    rwa [append_nil, ←htake] at h
  case isFalse hle =>
    have ht : t = [] := by simpa using hle
    exact ht ▸ hd

theorem OnDisk.events (ha : Arranged c o older last) (ht : entrySize t = none) :
    d.events c = ((older ++ [last]).flatMap (·.stored)).map emitted := by
  have hnil : readEntries c t = [] := by
    rw [readEntries, show entries.records t = [] from Framing.records_of_size_none ht]
    rfl
  have hread : ∀ f ∈ older ++ [last], readEntries c ((d.files f.ref.path).getD []) =
      f.stored.map emitted := fun f hf => by
    have hfits := ha.fits f hf
    rw [mem_append, mem_singleton] at hf
    obtain hf | hf := hf
    · have hw := readEntries_wire hfits []
      rw [append_nil] at hw
      rw [LogFile.ref, hd.older f hf, getD_some, hw]
      exact append_nil _
    · subst hf
      rw [LogFile.ref, hd.last, getD_some, readEntries_wire hfits, hnil, append_nil]
  rw [Disk.events, hd.refs, flatMap_map, map_flatMap]
  exact flatMap_congr hread

end

end Resume

end Relay.DiskPersist
