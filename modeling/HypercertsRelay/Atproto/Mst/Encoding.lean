import HypercertsRelay.Atproto.Mst.Edit

namespace Atproto.Mst

open NodeEntry

variable {Cid Block : Type}

structure EntryData (Cid : Type) where
  prefixLen : Int
  keySuffix : List (Fin 256)
  value : Cid
  right : Option Cid
deriving DecidableEq

structure NodeData (Cid : Type) where
  left : Option Cid
  entries : List (EntryData Cid)
deriving DecidableEq

-- The CBOR code generated for `NodeData`, with its limits, and the CID of the bytes.
structure Codec (Cid Block : Type) where
  marshalCBOR : NodeData Cid → Option Block
  unmarshalCBOR : Block → Option (NodeData Cid)
  sum : Block → Cid

def countPrefixLen : Key → Key → ℕ
  | x :: a, y :: b => if x = y then countPrefixLen a b + 1 else 0
  | _, _ => 0

section NodeData

def NodeEntry.childCID? : NodeEntry Cid → Option Cid
  | value _ _ _ => none
  | link c => some c
  | child c _ _ => c

-- The right pointer of the last entry, overwritten.
def setLastRight (c : Option Cid) : List (EntryData Cid) → List (EntryData Cid)
  | [] => []
  | [e] => [{ e with right := c }]
  | e :: es => e :: setLastRight c es

-- The loop of `NodeData` after the first entry, with the entries written so far.
def dataEntries (written : List (EntryData Cid)) (prevKey : Key) :
    List (NodeEntry Cid) → Except Error (List (EntryData Cid))
  | [] => .ok written
  | value k v _ :: es =>
    if k = [] then
      dataEntries written prevKey es
    else
      let idx := countPrefixLen prevKey k
      dataEntries (written ++ [⟨idx, k.drop idx, v, none⟩]) k es
  | e :: es =>
    if written.isEmpty then .error .panic
    else dataEntries (setLastRight e.childCID? written) prevKey es

-- `NodeData` of a node with these entries.
def nodeData : List (NodeEntry Cid) → Except Error (NodeData Cid)
  | link c :: es => (dataEntries [] [] es).map (⟨some c, ·⟩)
  | child c _ _ :: es => (dataEntries [] [] es).map (⟨c, ·⟩)
  | es => (dataEntries [] [] es).map (⟨none, ·⟩)

end NodeData

section Write

variable (codec : Codec Cid Block)

def NodeData.bytes (d : NodeData Cid) : Except Error (Block × Cid) :=
  match codec.marshalCBOR d with
  | some b => .ok (b, codec.sum b)
  | none => .error .unencodable

-- What `writeBlocks` returns: the cleaned node or entries and the blocks put into the store.
structure Written (Cid Block α β : Type) where
  result : Except Error α
  left : β
  blocks : List (Cid × Block)

-- The block of a node whose children are written.
def Node.writeBlock (n : Node Cid) : Written Cid Block Cid (Node Cid) :=
  match nodeData n.entries >>= NodeData.bytes codec with
  | .error e => ⟨.error e, n, []⟩
  | .ok (b, c) => ⟨.ok c, { n with cid := some c, dirty := false }, [(c, b)]⟩

mutual

-- Only nodes that are dirty or have no CID are written.
def Node.writeBlocks : Node Cid → Written Cid Block Cid (Node Cid)
  | ⟨es, h, d, c, stub⟩ =>
    if stub then
      ⟨.error .invalidTree, ⟨es, h, d, c, stub⟩, []⟩
    else match d, c with
      | false, some cid => ⟨.ok cid, ⟨es, h, false, some cid, stub⟩, []⟩
      | _, _ =>
        let children := writeEntries es
        let n : Node Cid := ⟨children.left, h, d, c, stub⟩
        match children.result with
        | .error e => ⟨.error e, n, children.blocks⟩
        | .ok () =>
          let w := n.writeBlock codec
          { w with blocks := children.blocks ++ w.blocks }

def writeEntries : List (NodeEntry Cid) → Written Cid Block Unit (List (NodeEntry Cid))
  | [] => ⟨.ok (), [], []⟩
  | value k v d :: es =>
    let w := writeEntries es
    { w with left := value k v d :: w.left }
  | link c :: es =>
    let w := writeEntries es
    { w with left := link c :: w.left }
  | child c n d :: es =>
    if d || n.dirty then
      let w := n.writeBlocks
      match w.result with
      | .error e => ⟨.error e, child c w.left d :: es, w.blocks⟩
      | .ok cc =>
        let w' := writeEntries es
        ⟨w'.result, child (some cc) w.left false :: w'.left, w.blocks ++ w'.blocks⟩
    else
      let w := writeEntries es
      { w with left := child c n d :: w.left }

end

end Write

section Load

variable (heightForKey : Key → ℕ)

-- The entries decoded after `prevKey`.
def NodeData.nodeEntries (prevKey : Key) :
    List (EntryData Cid) → Except Error (List (NodeEntry Cid))
  | [] => .ok []
  | e :: es =>
    if e.prefixLen < 0 ∨ prevKey.length < e.prefixLen then
      .error .invalidTree
    else
      let key := prevKey.take e.prefixLen.toNat ++ e.keySuffix
      (nodeEntries key es).map fun rest =>
        value key e.value false :: e.right.toList.map link ++ rest

-- The height of the first key, or -1 while it is not known.
def keyHeight : List (NodeEntry Cid) → Int
  | [] => -1
  | value k _ _ :: _ => heightForKey k
  | _ :: es => keyHeight es

def NodeData.node (c : Option Cid) (d : NodeData Cid) : Except Error (Node Cid) :=
  (nodeEntries [] d.entries).map fun es =>
    let entries := d.left.toList.map link ++ es
    ⟨entries, keyHeight heightForKey entries, c.isNone, c, false⟩

variable (codec : Codec Cid Block) (bs : Cid → Option Block)

-- The children in the store, and the height of the node, read off the first child of a known height
-- if there is no key. `none` while the loading is not over.
def loadChildren (load : Cid → Option (Except Error (Node Cid))) (height : Int) :
    List (NodeEntry Cid) → Option (Except Error (List (NodeEntry Cid) × Int))
  | [] => some (.ok ([], height))
  | link c :: es =>
    match load c with
    | none => none
    | some (.error .notFound) =>
      (loadChildren load height es).map (·.map (·.map (link c :: ·) id))
    | some (.error e) => some (.error e)
    | some (.ok n) =>
      let height := if height = -1 ∧ 0 ≤ n.height then n.height + 1 else height
      (loadChildren load height es).map (·.map (·.map (child (some c) n false :: ·) id))
  | e :: es => (loadChildren load height es).map (·.map (·.map (e :: ·) id))

-- The recursion follows the links from block to block; `none` if it is not over at this depth.
def loadNodeFromStore : ℕ → Cid → Option (Except Error (Node Cid))
  | 0, _ => none
  | depth + 1, c =>
    match bs c with
    | none => some (.error .notFound)
    | some b =>
      match codec.unmarshalCBOR b with
      | none => some (.error .undecodable)
      | some d =>
        match d.node heightForKey (some c) with
        | .error e => some (.error e)
        | .ok n =>
          (loadChildren (loadNodeFromStore depth) n.height n.entries).map
            (·.map fun (es, h) => { n with entries := es, height := h })

mutual

-- `ensureHeights` of a node whose height is known by now.
def Node.ensureHeights (height : Int) : Node Cid → Node Cid
  | ⟨es, _, d, c, stub⟩ =>
    ⟨if height ≤ 0 then es else ensureEntryHeights (height - 1) es, height, d, c, stub⟩

def ensureEntryHeights (height : Int) : List (NodeEntry Cid) → List (NodeEntry Cid)
  | [] => []
  | child c n d :: es =>
    child c (n.ensureHeights (if n.height < 0 then height else n.height)) d ::
      ensureEntryHeights height es
  | e :: es => e :: ensureEntryHeights height es

end

end Load

end Atproto.Mst
