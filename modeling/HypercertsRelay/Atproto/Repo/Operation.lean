import HypercertsRelay.Atproto.Mst.Tree
import HypercertsRelay.Library.Insertion

namespace Atproto.Repo

open Mst

-- The path of a record is the key of the tree, as bytes.
structure Operation (Cid : Type) where
  path : Key
  value : Option Cid
  prev : Option Cid
deriving DecidableEq

namespace Operation

def isCreate (op : Operation Cid) : Bool :=
  op.value.isSome && op.prev.isNone

def isUpdate [DecidableEq Cid] (op : Operation Cid) : Bool :=
  op.value.isSome && op.prev.isSome && op.value ≠ op.prev

def isDelete (op : Operation Cid) : Bool :=
  op.value.isNone && op.prev.isSome

-- Deletions first, then by path.
def less (a b : Operation Cid) : Bool :=
  if a.isDelete && !b.isDelete then true else a.path < b.path

end Operation

inductive OpError where
  | tree (err : Error)
  | creationMismatch
  | updateMismatch
  | deletionPresent
  | invalidOperation
  | duplicatePath
deriving DecidableEq

section Normalize

-- `sort.Sort` sorts up to twelve elements by insertion. For more, the result of a comparison that
-- is no order is left open: `sortLong`.
variable (sortLong : List (Operation Cid) → List (Operation Cid))

def sortOps (list : List (Operation Cid)) : List (Operation Cid) :=
  if list.length ≤ 12 then Insertion.sort Operation.less list else sortLong list

def normalizeOps (list : List (Operation Cid)) : Except OpError (List (Operation Cid)) :=
  if (list.map (·.path)).Nodup then .ok (sortOps sortLong list) else .error .duplicatePath

end Normalize

variable [DecidableEq Cid] (heightForKey : Key → ℕ)

def applyOp (tree : Mst.Tree Cid) (path : Key) (val : Option Cid) :
    Except Error (Mst.Tree Cid × Operation Cid) :=
  match val with
  | some v => (tree.insert heightForKey path v).map fun (tree, prev) => (tree, ⟨path, val, prev⟩)
  | none => (tree.remove heightForKey path).map fun (tree, prev) => (tree, ⟨path, val, prev⟩)

-- One change after the other, with the operations they amount to.
def applyOps (tree : Mst.Tree Cid) :
    List (Key × Option Cid) → Except Error (Mst.Tree Cid × List (Operation Cid))
  | [] => .ok (tree, [])
  | (path, val) :: rest => do
    let (tree, op) ← applyOp heightForKey tree path val
    let (tree, ops) ← applyOps tree rest
    pure (tree, op :: ops)

def invertOp (tree : Mst.Tree Cid) (op : Operation Cid) : Except OpError (Mst.Tree Cid) :=
  if op.isCreate then do
    let (tree, prev) ← (tree.remove heightForKey op.path).mapError .tree
    if prev = none ∨ prev ≠ op.value then .error .creationMismatch else pure tree
  else match op.prev with
    | some p =>
      if op.isUpdate then do
        let (tree, prev) ← (tree.insert heightForKey op.path p).mapError .tree
        if prev = none ∨ prev ≠ op.value then .error .updateMismatch else pure tree
      else if op.isDelete then do
        let (tree, prev) ← (tree.insert heightForKey op.path p).mapError .tree
        if prev ≠ none then .error .deletionPresent else pure tree
      else
        .error .invalidOperation
    | none => .error .invalidOperation

def invertOps (tree : Mst.Tree Cid) (ops : List (Operation Cid)) : Except OpError (Mst.Tree Cid) :=
  ops.foldlM (invertOp heightForKey) tree

end Atproto.Repo
