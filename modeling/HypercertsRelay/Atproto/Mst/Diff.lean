import HypercertsRelay.Atproto.Mst.History
import HypercertsRelay.Atproto.Mst.Load

-- A tree loaded from the blocks that were written for another one.
namespace Atproto.Mst

open NodeEntry Outline

variable {codec : Codec Cid Block} {heightForKey : Key → ℕ} {c : Cid}

section Blocks

theorem writeBlock_sum (n : Node Cid) : ∀ x ∈ (n.writeBlock codec).blocks, codec.sum x.2 = x.1 := by
  rw [Node.writeBlock]
  cases hd : nodeData n.entries with
  | error => simp [bind, Except.bind]
  | ok d => cases hb : codec.marshalCBOR d <;> simp [NodeData.bytes, hb, bind, Except.bind]

mutual

-- Blocks are written under their own CIDs.
theorem Node.writeBlocks_sum (codec : Codec Cid Block) :
    ∀ n : Node Cid, ∀ x ∈ (n.writeBlocks codec).blocks, codec.sum x.2 = x.1
  | ⟨es, h, d, c, stub⟩ => by
    have hes := writeEntries_sum codec es
    have hall (n : Node Cid) : ∀ x ∈ (writeEntries codec es).blocks ++ (n.writeBlock codec).blocks,
        codec.sum x.2 = x.1 := List.forall_mem_append.mpr ⟨hes, writeBlock_sum n⟩
    rw [Node.writeBlocks.eq_def]
    match stub, d, c with
    | true, _, _ => simp
    | false, false, some _ => simp
    | false, true, _ =>
      cases hw : (writeEntries codec es).result with
      | error => simpa only [hw, Bool.false_eq_true, if_false] using hes
      | ok => simpa only [hw, Bool.false_eq_true, if_false] using hall _
    | false, false, none =>
      cases hw : (writeEntries codec es).result with
      | error => simpa only [hw, Bool.false_eq_true, if_false] using hes
      | ok => simpa only [hw, Bool.false_eq_true, if_false] using hall _

theorem writeEntries_sum (codec : Codec Cid Block) :
    ∀ es : List (NodeEntry Cid), ∀ x ∈ (writeEntries codec es).blocks, codec.sum x.2 = x.1
  | [] => by simp [writeEntries]
  | value k v d :: es => writeEntries_sum codec es
  | link c :: es => writeEntries_sum codec es
  | child c n d :: es => by
    have hn := n.writeBlocks_sum codec
    have hes := writeEntries_sum codec es
    rw [writeEntries]
    split_ifs
    case neg => exact hes
    case pos =>
      cases hw : (n.writeBlocks codec).result with
      | error er => simpa [hw] using hn
      | ok c =>
        simp only [hw]
        exact List.forall_mem_append.mpr ⟨hn, hes⟩

end

variable [DecidableEq Cid]

def storeOf (blocks : List (Cid × Block)) (c : Cid) : Option Block :=
  (blocks.find? (·.1 = c)).map (·.2)

theorem mem_of_storeOf (hb : storeOf blocks c = some b) : (c, b) ∈ blocks := by
  have ⟨⟨c', b'⟩, hfind, heq⟩ := Option.map_eq_some_iff.mp hb
  have hc : c' = c := by simpa using List.find?_some hfind
  subst hc heq
  exact List.mem_of_find?_eq_some hfind

theorem honest_storeOf (n : Node Cid) : Honest codec (storeOf (n.writeBlocks codec).blocks) :=
  fun _ _ hb => n.writeBlocks_sum codec _ (mem_of_storeOf hb)

theorem stored_storeOf (hlaw : codec.Lawful) (n : Node Cid) :
    Stored codec (storeOf (n.writeBlocks codec).blocks) n := by
  intro c b hmem
  cases hs : storeOf (n.writeBlocks codec).blocks c with
  | none =>
    have hnone := List.find?_eq_none.mp (Option.map_eq_none_iff.mp hs) _ hmem
    simp at hnone
  | some b' =>
    have hsum : codec.sum b = c := n.writeBlocks_sum codec _ hmem
    have hsum' : codec.sum b' = c := n.writeBlocks_sum codec _ (mem_of_storeOf hs)
    rw [hlaw.sum_injective (hsum'.trans hsum.symm)]

end Blocks

section Whole

variable (hlaw : codec.Lawful)

-- A tree all of whose nodes are there is one of which some nodes may be missing.
theorem Naming.NodeAt.linked (hr : (whole codec H).Rep h n l) : (linked hlaw H).Rep h n l := by
  induction h using Nat.strongRecOn generalizing n l with
  | ind h ih =>
    refine ⟨hr.stub, hr.height, hr.cached, ?_⟩
    have hlayer : Layer H ((whole codec H).Below h) h n.entries l := hr.layer
    refine hlayer.mono fun e l hb => ?_
    cases h with
    | zero => exact hb.elim
    | succ h =>
      cases e with
      | value => exact hb.elim
      | link c => exact hb.right.elim
      | child c n d => exact ⟨hb.left, ih h (Nat.lt_succ_self h) hb.right.left, hb.right.right⟩

theorem Rooted.linked (hr : Rooted (.whole codec H) top n l) : Rooted (.linked hlaw H) top n l := by
  cases hr with
  | rep hr => exact .rep (hr.linked hlaw)
  | unknown hs hh hes => exact .unknown hs hh hes

end Whole

section Load

variable (hlaw : codec.Lawful)

-- The tree loaded from what was written for another, deep enough. Its root is as high, unless no
-- key is in view.
structure LoadsTree (heightForKey : Key → ℕ) (h : ℕ) (l : Pairs Cid) (t t' : Tree Cid) : Prop where
  rooted : (∀ ks, t'.root.outline (keysOf codec heightForKey) true ≠ [.stretch ks]) →
    Rooted (.linked hlaw heightForKey) (if l = [] then -1 else h) t'.root l
  expands : Expands (t.root.outline (keysOf codec heightForKey) false)
    (t'.root.outline (keysOf codec heightForKey) true)

theorem loadTreeFromStore_written [DecidableEq Cid]
    (hr : (Naming.linked hlaw H).Rep h t.root l) (hd : t.root.dirty)
    (hk : ∀ p ∈ l, p.1 ≠ []) (hres : (t.writeDiffBlocks codec).result = .ok root)
    (hdepth : h < depth) :
    ∃ t', Tree.loadTreeFromStore codec H (storeOf (t.writeDiffBlocks codec).blocks) depth
        root = some (.ok t') ∧ LoadsTree hlaw H h l t t' := by
  have hc : cidAt codec H h l = .ok root :=
    (hr.writeBlocks (Naming.linked_sound hlaw)).result.symm.trans hres
  have hstored : Stored codec (storeOf (t.root.writeBlocks codec).blocks) t.root :=
    stored_storeOf hlaw t.root
  have hload := loadNodeFromStore_spec hlaw (honest_storeOf t.root) hk hc hdepth
  rw [Tree.writeDiffBlocks, Tree.loadTreeFromStore]
  generalize loadNodeFromStore H codec (storeOf (t.root.writeBlocks codec).blocks) depth
    root = r at hload
  cases hload with
  | missing hnone => exact absurd hnone (hstored.root hr.stub hd hres)
  | @found n hloose hexp =>
    refine ⟨⟨n.ensureHeights n.height⟩, rfl, fun hview => ?_, ?_⟩
    case refine_2 =>
      rw [n.outline_ensureHeights]
      exact hexp t.root hr hd hstored
    case refine_1 =>
      rw [n.outline_ensureHeights] at hview
      rcases hloose.height with ⟨hh, hne⟩ | ⟨hh, hnil | ⟨ks, hks⟩⟩
      · rw [if_neg hne, hh]
        exact .rep hloose.ensureHeights
      case inr.inl =>
        subst hnil
        have ⟨es, i, d, c, stub⟩ := n
        have hes : es = [] := hloose.layer.eq_nil fun e l hb => hb.ne_nil
        subst hh hes
        exact .unknown hloose.stub rfl rfl
      case inr.inr => exact absurd hks (hview ks)

end Load

end Atproto.Mst
