import HypercertsRelay.Jetstream.Ingest.Reopen

-- A seal that does not get to the header, and what is made of the file when it is opened again.
namespace Jetstream.ActiveSegment.BlockCodec

open LittleEndian (encode decode)

-- Where the seal ended, by a failure or a crash.
inductive SealFault
  | walk
  | footer (written : ℕ)
  -- A seal that sees its write of the header fail cuts the footer off again, which may fail too.
  | header (truncated : Bool)

variable (c : BlockCodec)

def SealFault.orphan (blocks : List (List Event)) : SealFault → Bytes
  | walk => []
  | footer written => (c.footer blocks).take written
  | header true => []
  | header false => c.footer blocks

-- The file of the segment, whose header is still that of an active one.
def sealAfterFlush (blocks : List (List Event)) (fault : SealFault) : Bytes :=
  c.file blocks ++ fault.orphan c blocks

variable {c}

theorem SealFault.orphan_isPrefix (fault : SealFault) :
    fault.orphan c blocks <+: c.footer blocks := by
  cases fault with
  | walk => exact List.nil_prefix
  | footer written => exact List.take_prefix _ _
  | header truncated =>
    cases truncated with
    | true => exact List.nil_prefix
    | false => exact List.prefix_refl _

-- Behind blocks, a footer is torn while shorter than the offset of the first block makes it out to
-- be.
theorem frameSize_footer (hne : blocks ≠ []) (hp : p <+: c.footer blocks) :
    frameSize p = none ↔ p.length < 8 + reservedHeaderBytes := by
  cases blocks with
  | nil => exact absurd rfl hne
  | cons b bs =>
    simp only [frameSize]
    split
    case isTrue hlt => exact iff_of_true rfl (Nat.lt_add_right _ hlt)
    case isFalse hge =>
      have hlen : decode (p.take 8) = reservedHeaderBytes := by
        rw [take_footer_eight hp (by omega), LittleEndian.decode_encode (by decide)]
      split
      case isTrue hlt => exact iff_of_true rfl (by omega)
      case isFalse hge => exact iff_of_false (by rintro ⟨⟩) (by omega)

theorem new_interrupted_seal (hb : ∀ rows ∈ blocks, c.IsBlock rows) (fault : SealFault) :
    (frameSize (fault.orphan c blocks) = none →
      c.new (c.sealAfterFlush blocks fault) = .ok (c.file blocks, blocks)) ∧
    (frameSize (fault.orphan c blocks) ≠ none →
      ∃ e, c.new (c.sealAfterFlush blocks fault) = .error e) ∧
    (blocks ≠ [] → (frameSize (fault.orphan c blocks) = none ↔
      (fault.orphan c blocks).length < 264)) := by
  refine ⟨new_torn hb, fun hne => ?_, fun hne => frameSize_footer hne fault.orphan_isPrefix⟩
  have ⟨n, hn⟩ := Option.ne_none_iff_exists'.mp hne
  exact new_orphaned hb fault.orphan_isPrefix hn

end Jetstream.ActiveSegment.BlockCodec

namespace Jetstream.Ingest.Recovery

open ActiveSegment BlockCodec

theorem new_interrupted_seal_torn :
    sampleBlockCodec.new (sampleBlockCodec.sealAfterFlush [[sampleRow 1]] (.footer 100)) =
      .ok (sampleBlockCodec.file [[sampleRow 1]], [[sampleRow 1]]) :=
  (new_interrupted_seal sampleBlocks (.footer 100)).left (by decide +kernel)

-- The whole footer is on the disk, and the segment cannot be opened any more.
theorem new_orphan_footer_fails :
    ∃ e, sampleBlockCodec.new (sampleBlockCodec.sealAfterFlush [[sampleRow 1]] (.header false)) =
      .error e := by
  have hn : frameSize (sampleBlockCodec.footer [[sampleRow 1]]) = some 264 := by decide +kernel
  exact new_orphaned sampleBlocks (List.prefix_refl _) hn

end Jetstream.Ingest.Recovery
