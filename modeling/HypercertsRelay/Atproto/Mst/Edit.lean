import HypercertsRelay.Atproto.Mst.Node

namespace Atproto.Mst

open NodeEntry

variable {Cid : Type}

-- A node the code has just built: no CID was computed for it yet.
def Node.fresh (height : Int) (entries : List (NodeEntry Cid)) : Node Cid where
  entries := entries
  height := height
  dirty := true
  cid := none
  stub := false

-- What `insert` and `remove` make of the end of `proveMutation`: a partial tree is no error there.
def ignorePartial : Except Error Unit → Except Error Unit
  | .error .partialTree => .ok ()
  | r => r

section Insert

variable (key : Key)

def splitEntries (height : Int) (es : List (NodeEntry Cid)) (idx : ℕ) :
    Except Error (Node Cid × Node Cid) :=
  if idx = 0 ∨ es.length ≤ idx then
    .error .splitAtEnd
  else
    .ok (.fresh height (es.take idx), .fresh height (es.drop idx))

mutual

def Node.split : Node Cid → Except Error (Node Cid × Node Cid)
  | ⟨es, h, d, c, stub⟩ =>
    if es.isEmpty then
      .error .splitEmpty
    else match Node.findInsertionIndex key ⟨es, h, d, c, stub⟩ with
      | .error e => .error e
      | .ok (idx, false) => splitEntries h es idx
      | .ok (idx, true) =>
        (splitChild idx es).map fun (left, right) =>
          (.fresh h <| es.take idx ++ [child none left true],
            .fresh h <| child none right true :: es.drop (idx + 1))

-- `split` of the child at an index.
def splitChild : ℕ → List (NodeEntry Cid) → Except Error (Node Cid × Node Cid)
  | 0, child _ n _ :: _ => n.split
  | 0, _ => .error .panic
  | _, [] => .error .panic
  | i + 1, _ :: es => splitChild i es

end

variable [DecidableEq Cid] (val : Cid)

-- `insert` at the layer of the key.
def Node.insertEntry (n : Node Cid) : Except Error (Node Cid × Option Cid) :=
  match findExistingEntry key n.entries with
  | some (idx, prev) =>
    if prev = val then
      .ok (n, some val)
    else
      .ok ({ n with entries := n.entries.set idx (value key val true), dirty := true }, some prev)
  | none => do
    let (idx, split) ← n.findInsertionIndex key
    -- The covering proof of the operation is marked before the entries change.
    let (proof, es) := proveMutation key n.entries
    ignorePartial proof
    if split then
      let (left, right) ← splitChild key idx es
      let three := [child none left true, value key val true, child none right true]
      pure ({ n with entries := es.take idx ++ three ++ es.drop (idx + 1), dirty := true }, none)
    else
      let entries := es.take idx ++ value key val true :: es.drop idx
      pure ({ n with entries, dirty := true }, none)

-- The parent `insertParent` puts above a node that is not empty.
def Node.pushLayer (n : Node Cid) : Node Cid :=
  .fresh (n.height + 1) [child none n true]

-- `insert` pushes a layer and tries again, up to the layer of the key.
def Node.insertParent (height : Int) (n : Node Cid) : Except Error (Node Cid × Option Cid) :=
  if n.isEmpty then
    (Node.fresh height []).insertEntry key val
  else
    (Node.pushLayer^[(height - n.height).toNat] n).insertEntry key val

-- The new child of `insertChild`: an empty node filled by the same insertion.
def Node.newChild (height : Int) : ℕ → Node Cid
  | 0 => .fresh height [value key val true]
  | i + 1 => .fresh (height + i + 1) [child none (newChild height i) true]

mutual

def Node.insert (height : Int) : Node Cid → Except Error (Node Cid × Option Cid)
  | ⟨es, h, d, c, stub⟩ =>
    if stub then
      .error .partialTree
    else if h < height then
      Node.insertParent key val height ⟨es, h, d, c, stub⟩
    else if height < h then
      match findExistingChild key es with
      | some idx =>
        (insertChild height idx es).map fun (es', prev) =>
          if prev = some val then (⟨es, h, d, c, stub⟩, some val)
          else (⟨es', h, true, c, stub⟩, prev)
      | none => do
        let (idx, split) ← Node.findInsertionIndex key ⟨es, h, d, c, stub⟩
        if split then
          .error .unexpectedSplit
        else
          let n := Node.newChild key val height (h - 1 - height).toNat
          pure (⟨es.take idx ++ child none n true :: es.drop idx, h, true, c, stub⟩, none)
    else
      Node.insertEntry key val ⟨es, h, d, c, stub⟩

-- `insert` into the child at an index.
def insertChild (height : Int) :
    ℕ → List (NodeEntry Cid) → Except Error (List (NodeEntry Cid) × Option Cid)
  | 0, child c n _ :: es => (n.insert height).map (·.map (child c · true :: es) id)
  | 0, link _ :: _ => .error .partialTree
  | 0, _ => .error .panic
  | _, [] => .error .panic
  | i + 1, e :: es => (insertChild height i es).map (·.map (e :: ·) id)

end

end Insert

section Remove

variable (key : Key)

mutual

def Node.mergeNodes : Node Cid → Node Cid → Except Error (Node Cid)
  | ⟨es, h, _, _, _⟩, right => (mergeEntries es right.entries).map (.fresh h)

-- The entries of both nodes, with the children merged where one ends and the other starts.
def mergeEntries :
    List (NodeEntry Cid) → List (NodeEntry Cid) → Except Error (List (NodeEntry Cid))
  -- The last entry on the left is read even if there is none.
  | [], _ => .error .panic
  | [value k v d], right => .ok (value k v d :: right)
  | [_], [] => .error .panic
  | [e], value k v d :: right => .ok (e :: value k v d :: right)
  | [child _ n _], child _ n' _ :: right =>
    (n.mergeNodes n').map (child none · true :: right)
  | [_], _ => .error .partialTree
  | e :: es, right => (mergeEntries es right).map (e :: ·)

end

-- The entries without the one at an index, the children beside it merged if there are two.
def deleteEntry (es : List (NodeEntry Cid)) (idx : ℕ) : Except Error (List (NodeEntry Cid)) :=
  let left := es.take idx
  let right := es.drop (idx + 1)
  match left.getLast?, right.head? with
  | some (child _ n _), some (child _ n' _) =>
    (n.mergeNodes n').map fun merged => left.dropLast ++ child none merged true :: right.tail
  | some e, some e' =>
    if e.isChild ∧ e'.isChild then .error .partialTree else .ok (left ++ right)
  | _, _ => .ok (left ++ right)

-- A top that is just a pointer is dropped; one whose child is missing leaves a stub of it.
def Node.pruneTop : Node Cid → Node Cid
  | ⟨[child _ n _], _, _, _, _⟩ => n.pruneTop
  | ⟨[link c], h, _, _, _⟩ => ⟨[], h - 1, false, some c, true⟩
  | n => n

-- `remove` at the layer of the key.
def Node.removeEntry (top : Bool) (n : Node Cid) : Except Error (Node Cid × Option Cid) :=
  match findExistingEntry key n.entries with
  | none => .ok (n, none)
  | some (idx, prev) => do
    let entries ← deleteEntry n.entries idx
    let (proof, entries) := proveMutation key entries
    ignorePartial proof
    let n := { n with entries, dirty := true }
    pure (if top then n.pruneTop else n, some prev)

mutual

def Node.remove (height : Int) (top : Bool) : Node Cid → Except Error (Node Cid × Option Cid)
  | ⟨es, h, d, c, stub⟩ =>
    if stub then
      .error .partialTree
    else if h < height then
      .ok (⟨es, h, d, c, stub⟩, none)
    else if height < h then
      match findExistingChild key es with
      | none => .ok (⟨es, h, d, c, stub⟩, none)
      | some idx =>
        (removeChild height idx es).map fun
          | (_, none) => (⟨es, h, d, c, stub⟩, none)
          | (es', some prev) => (⟨es', h, true, c, stub⟩, some prev)
    else
      Node.removeEntry key top ⟨es, h, d, c, stub⟩

-- `remove` from the child at an index; a child that ends up empty goes with its entry.
def removeChild (height : Int) :
    ℕ → List (NodeEntry Cid) → Except Error (List (NodeEntry Cid) × Option Cid)
  | 0, child c n _ :: es =>
    (n.remove height false).map fun (n', prev) =>
      (if n'.isEmpty then es else child c n' true :: es, prev)
  | 0, link _ :: _ => .error .partialTree
  | 0, _ => .error .panic
  | _, [] => .error .panic
  | i + 1, e :: es => (removeChild height i es).map (·.map (e :: ·) id)

end

end Remove

end Atproto.Mst
