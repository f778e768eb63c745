import HypercertsRelay.Atproto.Mst.Encoding

namespace Atproto.Mst

open NodeEntry

variable {Cid Block : Type}

-- The tree is its root: a copy of it is the same value.
structure Tree (Cid : Type) where
  root : Node Cid

def isValidKey (key : Key) : Bool :=
  key.length ≠ 0 ∧ key.length ≤ 1024

section Verify

inductive VerifyError where
  | stub
  | missingCID
  | emptyNode
  | pointerTop
  | nodeHeight
  | siblingChildren
  | childBelowZero
  | duplicateKey
  | outOfOrder
  | keyHeight
  | neither
deriving DecidableEq

variable (heightForKey : Key → ℕ)

-- The height of the first value, or -1 if the node has none.
def valueHeight : List (NodeEntry Cid) → Int
  | [] => -1
  | value k _ _ :: es => if k = [] then valueHeight es else heightForKey k
  | _ :: es => valueHeight es

mutual

def Node.verifyStructure (height : Int) (key : Key) : Node Cid → Except VerifyError Unit
  | ⟨es, h, d, c, stub⟩ =>
    if stub then
      .error .stub
    else if c.isNone ∧ !d then
      .error .missingCID
    else if es.isEmpty then
      if 0 ≤ height then .error .emptyNode else .ok ()
    else
      let height := if height < 0 then valueHeight heightForKey es else height
      if height < 0 then
        .error .pointerTop
      else if h = -1 ∨ h ≠ height then
        .error .nodeHeight
      else
        verifyEntries height key false es

def verifyEntries (height : Int) (key : Key) (lastWasChild : Bool) :
    List (NodeEntry Cid) → Except VerifyError Unit
  | [] => .ok ()
  | value k _ _ :: es =>
    if k = [] then
      .error .neither
    else if key = k then
      .error .duplicateKey
    else if k < key then
      .error .outOfOrder
    else if height ≠ heightForKey k then
      .error .keyHeight
    else
      verifyEntries height k false es
  | link _ :: es =>
    if lastWasChild then
      .error .siblingChildren
    else if height = 0 then
      .error .childBelowZero
    else
      verifyEntries height key true es
  | child _ n _ :: es =>
    if lastWasChild then
      .error .siblingChildren
    else if height = 0 then
      .error .childBelowZero
    else do
      n.verifyStructure (height - 1) key
      verifyEntries height key true es

end

end Verify

namespace Tree

def newEmptyTree : Tree Cid :=
  ⟨.fresh 0 []⟩

def walk (t : Tree Cid) : List (Key × Cid) :=
  t.root.walk

section

variable (heightForKey : Key → ℕ)

def insert [DecidableEq Cid] (t : Tree Cid) (key : Key) (val : Cid) :
    Except Error (Tree Cid × Option Cid) :=
  if isValidKey key then
    (t.root.insert key val (heightForKey key)).map (·.map Tree.mk id)
  else
    .error .invalidKey

-- The top of the tree is pruned only by a removal at its own layer.
def remove (t : Tree Cid) (key : Key) : Except Error (Tree Cid × Option Cid) :=
  if isValidKey key then
    (t.root.remove key (heightForKey key) true).map (·.map Tree.mk id)
  else
    .error .invalidKey

def get (t : Tree Cid) (key : Key) : Except Error (Option Cid) :=
  if isValidKey key then
    t.root.getCID key (heightForKey key)
  else
    .error .invalidKey

def verify (t : Tree Cid) : Except VerifyError Unit :=
  t.root.verifyStructure heightForKey (-1) []

-- The map is given by its pairs in the order in which they are visited.
def loadTreeFromMap [DecidableEq Cid] (m : List (Key × Cid)) : Except Error (Tree Cid) :=
  m.foldlM (fun t kv => (t.insert heightForKey kv.1 kv.2).map (·.1)) newEmptyTree

end

section

variable (codec : Codec Cid Block)

-- The CID of the root, and the tree with every flag cleared on the way.
def rootCID (t : Tree Cid) : Except Error Cid × Tree Cid :=
  if t.root.stub ∧ !t.root.dirty then
    match t.root.cid with
    | some c => (.ok c, t)
    | none => (.error .invalidTree, t)
  else
    let w := t.root.writeBlocks codec
    (w.result, ⟨w.left⟩)

def writeDiffBlocks (t : Tree Cid) : Written Cid Block Cid (Node Cid) :=
  t.root.writeBlocks codec

def loadTreeFromStore (heightForKey : Key → ℕ) (bs : Cid → Option Block) (depth : ℕ) (root : Cid) :
    Option (Except Error (Tree Cid)) :=
  (loadNodeFromStore heightForKey codec bs depth root).map
    (·.map fun n => ⟨n.ensureHeights n.height⟩)

end

end Tree

end Atproto.Mst
