import HypercertsRelay.Library.Except
import HypercertsRelay.Library.Framing
import HypercertsRelay.Library.LittleEndian
import HypercertsRelay.Jetstream.Segment

-- The bytes of an active segment file, and what is made of them when it is opened again.
namespace Jetstream.ActiveSegment

open List LittleEndian Framing
open LittleEndian (encode decode)

def reservedHeaderBytes := 256

def segmentMagic : Bytes := [0x6a, 0x73, 0x73, 0x30]

def reservedHeader : Bytes :=
  segmentMagic ++ List.replicate (reservedHeaderBytes - segmentMagic.length) 0

theorem length_reservedHeader : reservedHeader.length = reservedHeaderBytes := by
  rw [reservedHeader, length_append, length_replicate]
  rfl

theorem checksum_reserved (q : Bytes) : decode (((reservedHeader ++ q).drop 4).take 8) = 0 := by
  have hpad : 8 ≤ (List.replicate (reservedHeaderBytes - segmentMagic.length) (0 : UInt8)).length := by
    rw [length_replicate]
    decide
  rw [reservedHeader, append_assoc, drop_left' (show segmentMagic.length = 4 from rfl),
    take_append_of_le_length hpad]
  rfl

def errCorruptSegment := "segment: file is corrupt"
def errSegmentSealed := "segment: file is already sealed"

-- A frame is preceded by its length in eight bytes.
def frameSize (l : Bytes) : Option ℕ :=
  if l.length < 8 then none
  else if l.length - 8 < decode (l.take 8) then none
  else some (8 + decode (l.take 8))

theorem frameSize_eq_some : frameSize l = some n ↔ n = 8 + decode (l.take 8) ∧ n ≤ l.length := by
  simp only [frameSize]
  split <;> [skip; split] <;> simp <;> omega

def frames : Framing UInt8 where
  size := frameSize
  size_bounds := by
    intro l n h
    have := frameSize_eq_some.mp h
    omega
  size_append := by
    intro l n l' h
    have ⟨hn, hle⟩ := frameSize_eq_some.mp h
    rw [frameSize_eq_some, take_append_of_le_length (by omega), length_append]
    omega
  size_take := by
    intro l n h
    have ⟨hn, hle⟩ := frameSize_eq_some.mp h
    rw [frameSize_eq_some, take_take, Nat.min_eq_left (by omega), length_take]
    omega

theorem isRecord_iff : frames.IsRecord r ↔ frameSize r = some r.length :=
  Iff.rfl

theorem isRecord_frame (h : frame.length < 256 ^ 8) :
    frames.IsRecord (encode 8 frame.length ++ frame) := by
  rw [isRecord_iff, frameSize_eq_some, take_left' (length_encode _ _),
    decode_encode h, length_append, length_encode]
  exact ⟨rfl, Nat.le_refl _⟩

-- Frames are those of zstd, and begin with its magic number.
def zstdMagic := 0xfd2fb528

-- The compressed coding of a block is that of another library. The rest of an index entry and what
-- stands behind the index are left open. In the footer of a segment without blocks these come
-- first, and they are no frame.
structure BlockCodec where
  valid : List Event → Prop
  encodeBlock : List Event → Bytes
  decodeBlock : Bytes → Except String (List Event)
  decode_encode : ∀ {rows}, valid rows → decodeBlock (encodeBlock rows) = .ok rows
  encode_small : ∀ {rows}, valid rows → (encodeBlock rows).length < zstdMagic
  decode_magic : ∀ {frame rows}, decodeBlock frame = .ok rows → frame.take 4 = encode 4 zstdMagic
  indexEntry : List Event → Bytes
  footerTail : List (List Event) → Bytes
  footerTail_nil : ∀ {p n rows}, p <+: footerTail [] → frameSize p = some n →
    decodeBlock ((p.take n).drop 8) ≠ .ok rows

namespace BlockCodec

variable (c : BlockCodec)

def wire (rows : List Event) : Bytes :=
  encode 8 (c.encodeBlock rows).length ++ c.encodeBlock rows

def IsBlock (rows : List Event) : Prop :=
  rows ≠ [] ∧ c.valid rows

-- The index gives the place and the size of each block, then the counts and bounds.
def encodeBlockIndex : ℕ → List (List Event) → Bytes
  | _, [] => []
  | offset, rows :: rest =>
    encode 8 offset ++ encode 4 (c.encodeBlock rows).length ++ c.indexEntry rows ++
      encodeBlockIndex (offset + (c.wire rows).length) rest

def footer (blocks : List (List Event)) : Bytes :=
  c.encodeBlockIndex reservedHeaderBytes blocks ++ c.footerTail blocks

def file (blocks : List (List Event)) : Bytes :=
  reservedHeader ++ (blocks.map c.wire).flatten

-- The blocks of a file up to the first that is empty.
def walkActiveFrames : List Bytes → Except String (List (List Event))
  | [] => .ok []
  | frame :: fs => do
    let rows ← (c.decodeBlock (frame.drop 8)).mapError ("segment: decode block: " ++ ·)
    if rows = [] then return []
    return rows :: (← walkActiveFrames fs)

-- What is left of a file after the torn bytes at its end were cut off.
def resumeExistingSegment (bytes : Bytes) : Except String Bytes :=
  if bytes.length < reservedHeaderBytes then
    .error errCorruptSegment
  else if bytes.take segmentMagic.length ≠ segmentMagic then
    .error errCorruptSegment
  else if decode ((bytes.drop 4).take 8) ≠ 0 then
    .error errSegmentSealed
  else
    .ok (bytes.take reservedHeaderBytes ++ (frames.records (bytes.drop reservedHeaderBytes)).flatten)

-- Opens a file that may be new, which is one without bytes.
def new (bytes : Bytes) : Except String (Bytes × List (List Event)) := do
  if bytes = [] then
    return (reservedHeader, [])
  let bytes ← resumeExistingSegment bytes
  return (bytes, ← c.walkActiveFrames (frames.records (bytes.drop reservedHeaderBytes)))

section

variable {c} {blocks : List (List Event)}

theorem isRecord_wire (h : c.IsBlock rows) : frames.IsRecord (c.wire rows) :=
  isRecord_frame (Nat.lt_trans (c.encode_small h.right) (by decide))

theorem records_file (hb : ∀ rows ∈ blocks, c.IsBlock rows) (p : Bytes) :
    frames.records ((blocks.map c.wire).flatten ++ p) = blocks.map c.wire ++ frames.records p := by
  refine records_append (fun r hr => ?_) p
  have ⟨rows, hrows, hr⟩ := mem_map.mp hr
  exact hr ▸ isRecord_wire (hb rows hrows)

theorem drop_wire (c : BlockCodec) (rows : List Event) :
    (c.wire rows).drop 8 = c.encodeBlock rows :=
  drop_left' (length_encode _ _)

theorem walkActiveFrames_wires (hb : ∀ rows ∈ blocks, c.IsBlock rows) (fs : List Bytes) :
    c.walkActiveFrames (blocks.map c.wire ++ fs) = (blocks ++ ·) <$> c.walkActiveFrames fs := by
  induction blocks with
  | nil => simp
  | cons rows bs ih =>
    have ⟨hne, hb⟩ := forall_mem_cons.mp hb
    simp only [map_cons, cons_append, walkActiveFrames, drop_wire,
      c.decode_encode hne.right, ih hb, Except.mapError, bind, Except.bind, if_neg hne.left]
    cases c.walkActiveFrames fs <;> rfl

theorem footer_cons (b : List Event) (bs : List (List Event)) : c.footer (b :: bs) =
    encode 8 reservedHeaderBytes ++ (encode 4 (c.encodeBlock b).length ++ (c.indexEntry b ++
      (c.encodeBlockIndex (reservedHeaderBytes + (c.wire b).length) bs ++
        c.footerTail (b :: bs)))) := by
  simp only [footer, encodeBlockIndex, append_assoc]

-- The first eight bytes are the offset of the first block.
theorem take_footer_eight (hp : p <+: c.footer (b :: bs)) (hle : 8 ≤ p.length) :
    p.take 8 = encode 8 reservedHeaderBytes := by
  have ⟨rest, hrest⟩ := hp
  have happ : (p ++ rest).take 8 = p.take 8 := take_append_of_le_length hle
  rw [←happ, hrest, footer_cons, take_left' (length_encode _ _)]

-- No part of a footer can be read as a block: its first eight bytes are the offset of the first
-- block.
theorem footer_not_frame (hb : ∀ rows ∈ blocks, c.IsBlock rows) (hp : p <+: c.footer blocks)
    (hn : frameSize p = some n) : c.decodeBlock ((p.take n).drop 8) ≠ .ok rows := by
  cases blocks with
  | nil => exact c.footerTail_nil hp hn
  | cons b bs =>
    intro hd
    have ⟨hsize, hle⟩ := frameSize_eq_some.mp hn
    have hn : n = 264 := by rw [hsize, take_footer_eight hp (by omega)]; decide
    -- the four bytes behind are the size of that block
    have hmagic : ((p.take n).drop 8).take 4 = encode 4 (c.encodeBlock b).length := by
      have ⟨rest, hrest⟩ := hp
      have h12 : 12 ≤ p.length := by omega
      have : (p ++ rest).take 12 = p.take 12 := take_append_of_le_length h12
      rw [take_drop, take_take, hn, Nat.min_eq_left (by decide), ←this, hrest, footer_cons,
        ←append_assoc, take_left' (by simp), drop_left' (by simp)]
    have hsame := congrArg decode (hmagic.symm.trans (c.decode_magic hd))
    have hsmall := c.encode_small (hb b (.head _)).right
    rw [LittleEndian.decode_encode (Nat.lt_trans hsmall (by decide)),
      LittleEndian.decode_encode (by decide)] at hsame
    omega

-- Only bytes behind the last complete frame are cut off.
theorem resumeExistingSegment_reserved (q : Bytes) : resumeExistingSegment (reservedHeader ++ q) =
      .ok (reservedHeader ++ (frames.records q).flatten) := by
  have hlen : ¬(reservedHeader ++ q).length < reservedHeaderBytes := by
    rw [length_append, length_reservedHeader]
    omega
  have hmagic : (reservedHeader ++ q).take segmentMagic.length = segmentMagic := by
    rw [reservedHeader, append_assoc, take_left]
  rw [resumeExistingSegment, if_neg hlen, if_neg (not_not.mpr hmagic), if_neg (not_not.mpr (checksum_reserved q)),
    take_left' length_reservedHeader, drop_left' length_reservedHeader]

section

variable (hb : ∀ rows ∈ blocks, c.IsBlock rows)

include hb

theorem new_file (p : Bytes) : c.new (c.file blocks ++ p) =
      (fun bs => (c.file blocks ++ (frames.records p).flatten, blocks ++ bs)) <$>
        c.walkActiveFrames (frames.records p) := by
  have hne : reservedHeader ++ ((blocks.map c.wire).flatten ++ p) ≠ [] := by
    simp [reservedHeader, segmentMagic]
  simp only [new, file, append_assoc, if_neg hne, resumeExistingSegment_reserved, bind,
    Except.bind, drop_left' length_reservedHeader, records_flatten_records, records_file hb,
    walkActiveFrames_wires hb, flatten_append]
  cases c.walkActiveFrames (frames.records p) <;> rfl

-- An incomplete frame at the end is cut off, and the blocks are found again.
theorem new_torn (hp : frameSize p = none) :
    c.new (c.file blocks ++ p) = .ok (c.file blocks, blocks) := by
  have hrec : frames.records p = [] := records_of_size_none hp
  rw [new_file hb, hrec]
  simp [walkActiveFrames]

-- A whole frame at the end that is none makes the file unreadable.
theorem new_orphaned (hp : p <+: c.footer blocks)
    (hn : frameSize p = some n) : ∃ e, c.new (c.file blocks ++ p) = .error e := by
  have hrec : frames.records p = p.take n :: frames.records (p.drop n) := records_of_size_some hn
  rw [new_file hb, hrec, walkActiveFrames]
  cases hd : c.decodeBlock ((p.take n).drop 8) with
  | error e => exact ⟨_, rfl⟩
  | ok rows => exact absurd hd (footer_not_frame hb hp hn)

end

-- A reserved header that was not written to its end.
theorem new_short (hp : p ≠ []) (hlt : p.length < reservedHeaderBytes) :
    c.new p = .error errCorruptSegment := by
  simp only [new, if_neg hp, resumeExistingSegment, if_pos hlt]
  rfl

end

end BlockCodec
end Jetstream.ActiveSegment
