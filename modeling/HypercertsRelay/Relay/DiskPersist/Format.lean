import HypercertsRelay.Library.Framing
import HypercertsRelay.Library.LittleEndian

-- The entries of the files in which the relay keeps its output stream.
namespace Relay.DiskPersist

open List LittleEndian
open LittleEndian (encode decode)

abbrev Bytes := List UInt8

-- Only events about a repository are kept.
inductive EventKind
  | commit
  | sync
  | identity
  | account
  | other
  deriving DecidableEq, Repr

-- The event without its sequence number is left as it comes.
structure XRPCStreamEvent where
  kind : EventKind
  seq : ℕ
  body : Bytes
  deriving DecidableEq, Repr

def evtKindCommit := 1
def evtKindIdentity := 4
def evtKindAccount := 5
def evtKindSync := 6

def EventKind.evtKind : EventKind → ℕ
  | .commit => evtKindCommit
  | .sync => evtKindSync
  | .identity => evtKindIdentity
  | .account => evtKindAccount
  | .other => 0

def EventKind.ofEvtKind (n : ℕ) : Option EventKind :=
  if n = evtKindCommit then some .commit
  else if n = evtKindSync then some .sync
  else if n = evtKindIdentity then some .identity
  else if n = evtKindAccount then some .account
  else none

theorem EventKind.ofEvtKind_evtKind (h : k ≠ .other) : ofEvtKind k.evtKind = some k := by
  cases k <;> first | rfl | exact absurd rfl h

def evtFlagTakedown := 1
def evtFlagRebased := 2

def postDoNotEmit (flags : ℕ) : Bool :=
  flags &&& (evtFlagRebased ||| evtFlagTakedown) ≠ 0

structure EvtHeader where
  flags : ℕ
  kind : ℕ
  len : ℕ
  usr : ℕ
  seq : ℕ
  deriving DecidableEq, Repr

def headerSize := 4 + 4 + 4 + 8 + 8

namespace EvtHeader

def bytes (h : EvtHeader) : Bytes :=
  encode 4 h.flags ++ encode 4 h.kind ++ encode 4 h.len ++ encode 8 h.usr ++ encode 8 h.seq

structure Fits (h : EvtHeader) : Prop where
  flags : h.flags < 256 ^ 4
  kind : h.kind < 256 ^ 4
  len : h.len < 256 ^ 4
  usr : h.usr < 256 ^ 8
  seq : h.seq < 256 ^ 8

@[simp]
theorem length_bytes (h : EvtHeader) : h.bytes.length = headerSize := by
  simp [bytes, headerSize]

end EvtHeader

-- The header at the front of at least as many bytes as it has.
def readHeader (l : Bytes) : EvtHeader where
  flags := decode (l.take 4)
  kind := decode ((l.drop 4).take 4)
  len := decode ((l.drop 8).take 4)
  usr := decode ((l.drop 12).take 8)
  seq := decode ((l.drop 20).take 8)

theorem take_drop_append (h : i + n ≤ l.length) (l' : Bytes) :
    ((l ++ l').drop i).take n = (l.drop i).take n := by
  rw [drop_append_of_le_length (by omega), take_append_of_le_length]
  rw [length_drop]
  omega

theorem readHeader_append (h : headerSize ≤ l.length) (l' : Bytes) :
    readHeader (l ++ l') = readHeader l := by
  rw [headerSize] at h
  have hflags : (l ++ l').take 4 = l.take 4 := take_append_of_le_length (by omega)
  simp only [readHeader, hflags, take_drop_append (show 4 + 4 ≤ l.length by omega),
    take_drop_append (show 8 + 4 ≤ l.length by omega),
    take_drop_append (show 12 + 8 ≤ l.length by omega),
    take_drop_append (show 20 + 8 ≤ l.length by omega)]

theorem readHeader_take (h : headerSize ≤ n) (hn : n ≤ l.length) :
    readHeader (l.take n) = readHeader l := by
  have hlen : headerSize ≤ (l.take n).length := by
    rw [length_take]
    omega
  have happ := readHeader_append hlen (l.drop n)
  rwa [take_append_drop, eq_comm] at happ

-- A field of the header stands behind those before it.
theorem take_drop_field {a b c : Bytes} (ha : a.length = i) (hb : b.length = n) :
    ((a ++ (b ++ c)).drop i).take n = b := by
  rw [drop_left' ha, take_left' hb]

theorem readHeader_bytes (hf : h.Fits) (l : Bytes) : readHeader (h.bytes ++ l) = h := by
  have hflags : decode ((h.bytes ++ l).take 4) = h.flags := by
    simp only [EvtHeader.bytes, append_assoc]
    rw [take_left' (length_encode _ _), decode_encode hf.flags]
  have hkind : decode (((h.bytes ++ l).drop 4).take 4) = h.kind := by
    simp only [EvtHeader.bytes, append_assoc]
    rw [take_drop_field (by simp) (by simp), decode_encode hf.kind]
  have hlen : decode (((h.bytes ++ l).drop 8).take 4) = h.len := by
    rw [EvtHeader.bytes, append_assoc, append_assoc, append_assoc,
      take_drop_field (by simp) (by simp), decode_encode hf.len]
  have husr : decode (((h.bytes ++ l).drop 12).take 8) = h.usr := by
    rw [EvtHeader.bytes, append_assoc, append_assoc, take_drop_field (by simp) (by simp),
      decode_encode hf.usr]
  have hseq : decode (((h.bytes ++ l).drop 20).take 8) = h.seq := by
    rw [EvtHeader.bytes, append_assoc, take_drop_field (by simp) (by simp), decode_encode hf.seq]
  simp only [readHeader, hflags, hkind, hlen, husr, hseq]

def entrySize (l : Bytes) : Option ℕ :=
  if l.length < headerSize then none
  else if l.length < headerSize + (readHeader l).len then none
  else some (headerSize + (readHeader l).len)

theorem entrySize_eq_some :
    entrySize l = some n ↔ n = headerSize + (readHeader l).len ∧ n ≤ l.length := by
  simp only [entrySize]
  split <;> [skip; split] <;> simp <;> omega

def entries : Framing UInt8 where
  size := entrySize
  size_bounds := by
    intro l n h
    have ⟨hn, hle⟩ := entrySize_eq_some.mp h
    have : 0 < headerSize := by decide
    omega
  size_append := by
    intro l n l' h
    have ⟨hn, hle⟩ := entrySize_eq_some.mp h
    rw [entrySize_eq_some, readHeader_append (by omega), length_append]
    omega
  size_take := by
    intro l n h
    have ⟨hn, hle⟩ := entrySize_eq_some.mp h
    rw [entrySize_eq_some, readHeader_take (by omega) hle, length_take]
    omega

theorem isRecord_iff : entries.IsRecord r ↔ entrySize r = some r.length :=
  Iff.rfl

-- The CBOR coding of an event is that of another library. Reading tells how many bytes it took.
structure EventCodec where
  valid : XRPCStreamEvent → Prop
  marshal : XRPCStreamEvent → Bytes
  unmarshal : EventKind → Bytes → Except String (XRPCStreamEvent × ℕ)
  unmarshal_marshal : ∀ {ev}, valid ev →
    unmarshal ev.kind (marshal ev) = .ok (ev, (marshal ev).length)
  marshal_small : ∀ {ev}, valid ev → (marshal ev).length < 256 ^ 4

-- An event as it came, with the number it got in the log.
structure Stored where
  event : XRPCStreamEvent
  usr : ℕ
  seq : ℕ
  deriving DecidableEq, Repr

namespace Stored

def emitted (r : Stored) : XRPCStreamEvent :=
  { r.event with seq := r.seq }

variable (c : EventCodec)

def header (r : Stored) : EvtHeader where
  flags := 0
  kind := r.event.kind.evtKind
  len := (c.marshal r.event).length
  usr := r.usr
  seq := r.seq

def bytes (r : Stored) : Bytes :=
  (r.header c).bytes ++ c.marshal r.event

-- Sequence numbers are signed in the program.
structure Fits (r : Stored) : Prop where
  valid : c.valid r.event
  kind : r.event.kind ≠ .other
  usr : r.usr < 2 ^ 64
  seq : r.seq < 2 ^ 63

variable {c} {r : Stored}

theorem Fits.header (h : r.Fits c) : (r.header c).Fits where
  flags := by simp [Stored.header]
  kind := by cases hk : r.event.kind <;> simp [Stored.header, hk, EventKind.evtKind,
    evtKindCommit, evtKindSync, evtKindIdentity, evtKindAccount]
  len := c.marshal_small h.valid
  usr := h.usr
  seq := Nat.lt_trans h.seq (by decide)

theorem readHeader_bytes (h : r.Fits c) (l : Bytes) : readHeader (r.bytes c ++ l) = r.header c := by
  rw [bytes, append_assoc, DiskPersist.readHeader_bytes h.header]

theorem readHeader_self (h : r.Fits c) : readHeader (r.bytes c) = r.header c := by
  have hh := readHeader_bytes h []
  rwa [append_nil] at hh

theorem length_bytes : (r.bytes c).length = headerSize + (c.marshal r.event).length := by
  simp [bytes]

theorem isRecord (h : r.Fits c) : entries.IsRecord (r.bytes c) := by
  rw [isRecord_iff, entrySize_eq_some, readHeader_self h, length_bytes]
  exact ⟨rfl, Nat.le_refl _⟩

theorem drop_bytes (l : Bytes) : (r.bytes c ++ l).drop headerSize = c.marshal r.event ++ l := by
  rw [bytes, append_assoc, drop_left' (EvtHeader.length_bytes _)]

end Stored

section Read

variable (c : EventCodec)

-- Reads a file to its end. The events before an error have been handed on.
def readEvents : ℕ → Bytes → ℕ → List XRPCStreamEvent × Except String ℕ
  | 0, _, lastSeq => ([], .ok lastSeq)
  | fuel + 1, l, lastSeq =>
    if l = [] then
      ([], .ok lastSeq)
    else if l.length < headerSize then
      ([], .error "reading header: unexpected EOF")
    else
      let h := readHeader l
      let data := l.drop headerSize
      if postDoNotEmit h.flags then
        if data.length < h.len
        then ([], .error ("failed while skipping event (seq: " ++ toString h.seq ++ ")"))
        else readEvents fuel (data.drop h.len) h.seq
      else
        match EventKind.ofEvtKind h.kind with
        | none => ([], .error "halting on unrecognized event kind")
        | some kind =>
          match c.unmarshal kind (data.take h.len) with
          | .error e => ([], .error e)
          | .ok (ev, n) =>
            let (evs, res) := readEvents fuel (data.drop n) h.seq
            ({ ev with seq := h.seq } :: evs, res)

-- The events of the complete entries of a file.
def readEntry (r : Bytes) : Option XRPCStreamEvent := do
  let kind ← EventKind.ofEvtKind (readHeader r).kind
  let (ev, _) ← (c.unmarshal kind (r.drop headerSize)).toOption
  return { ev with seq := (readHeader r).seq }

def readEntries (l : Bytes) : List XRPCStreamEvent :=
  (entries.records l).filterMap (readEntry c)

-- The contents of a file with these entries.
def wire (rs : List Stored) : Bytes :=
  (rs.map (·.bytes c)).flatten

end Read

section

variable {r : Stored}

@[simp]
theorem wire_nil : wire c [] = [] :=
  rfl

@[simp]
theorem wire_cons : wire c (r :: rs) = r.bytes c ++ wire c rs :=
  rfl

@[simp]
theorem wire_append (rs rs' : List Stored) : wire c (rs ++ rs') = wire c rs ++ wire c rs' := by
  simp [wire]

theorem records_wire (h : ∀ r ∈ rs, r.Fits c) (t : Bytes) :
    entries.records (wire c rs ++ t) = rs.map (·.bytes c) ++ entries.records t := by
  refine Framing.records_append (fun b hb => ?_) t
  have ⟨r, hr, hb⟩ := mem_map.mp hb
  exact hb ▸ Stored.isRecord (h r hr)

theorem records_wire_self (h : ∀ r ∈ rs, r.Fits c) :
    entries.records (wire c rs) = rs.map (·.bytes c) := by
  have hrec := records_wire h []
  have hnil : entries.records [] = [] := rfl
  rwa [append_nil, hnil, append_nil] at hrec

@[simp]
theorem readEntries_nil : readEntries c [] = [] :=
  rfl

theorem readEntry_bytes (h : r.Fits c) : readEntry c (r.bytes c) = some r.emitted := by
  have hd := Stored.drop_bytes (c := c) (r := r) []
  rw [append_nil, append_nil] at hd
  simp only [readEntry, Stored.readHeader_self h, hd, Stored.header, EventKind.ofEvtKind_evtKind h.kind,
    c.unmarshal_marshal h.valid, Option.bind_eq_bind, Option.bind_some, Except.toOption]
  rfl

theorem readEntries_wire (h : ∀ r ∈ rs, r.Fits c) (t : Bytes) :
    readEntries c (wire c rs ++ t) = rs.map Stored.emitted ++ readEntries c t := by
  rw [readEntries, records_wire h, filterMap_append, filterMap_map]
  have hmap : rs.filterMap (readEntry c ∘ (·.bytes c)) = rs.map Stored.emitted := by
    rw [←filterMap_eq_map]
    exact filterMap_congr fun r hr => readEntry_bytes (h r hr)
  rw [hmap, readEntries]

theorem readEvents_wire (h : ∀ r ∈ rs, r.Fits c) (hf : rs.length < fuel) (n : ℕ) :
    readEvents c fuel (wire c rs) n =
      (rs.map Stored.emitted, .ok ((rs.getLast?.map Stored.seq).getD n)) := by
  induction rs generalizing fuel n with
  | nil => cases fuel <;> simp [readEvents]
  | cons r rs ih =>
    cases fuel with
    | zero => simp at hf
    | succ fuel =>
      have ⟨hr, hrs⟩ := forall_mem_cons.mp h
      have hlen : (r.bytes c ++ wire c rs).length =
          headerSize + (c.marshal r.event).length + (wire c rs).length := by
        rw [length_append, Stored.length_bytes]
      have hne : r.bytes c ++ wire c rs ≠ [] := by
        intro he
        rw [he, headerSize, length_nil] at hlen
        omega
      have hh := Stored.readHeader_bytes hr (wire c rs)
      have ih := ih hrs (Nat.lt_of_succ_lt_succ hf) r.seq
      rw [wire_cons, readEvents, if_neg hne, if_neg (by omega)]
      simp only [hh, Stored.drop_bytes, Stored.header, EventKind.ofEvtKind_evtKind hr.kind,
        take_left, drop_left, c.unmarshal_marshal hr.valid, ih]
      simp [postDoNotEmit, Stored.emitted, getLast?_cons]

end

end Relay.DiskPersist
