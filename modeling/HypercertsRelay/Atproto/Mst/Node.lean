import Mathlib

namespace Atproto.Mst

-- A key is a byte string; `bytes.Compare` orders them lexicographically.
abbrev Key := List (Fin 256)

scoped instance neZero : NeZero 256 := ⟨by decide⟩

inductive Error where
  | invalidKey
  | invalidTree
  -- Every error that wraps `ErrPartialTree`.
  | partialTree
  -- `findInsertionIndex` reports a missing child without wrapping `ErrPartialTree`.
  | insertionOrder
  | emptyRange
  | splitEmpty
  | splitAtEnd
  | unexpectedSplit
  | notFound
  | undecodable
  | unencodable
  -- The code panics: an index out of range, a nil pointer or the explicit `panic` of `NodeData`.
  | panic
deriving DecidableEq

mutual

structure Node (Cid : Type) where
  entries : List (NodeEntry Cid)
  height : Int
  dirty : Bool
  cid : Option Cid
  stub : Bool

-- The source has one record for both kinds of entry: a key and a value, or a child as its CID alone
-- (`link`) or as the node itself.
inductive NodeEntry (Cid : Type) where
  | value (key : Key) (value : Cid) (dirty : Bool)
  | link (childCID : Cid)
  | child (childCID : Option Cid) (child : Node Cid) (dirty : Bool)

end

namespace NodeEntry

-- An entry decoded with an empty key is neither a value nor a child.
def isValue : NodeEntry Cid → Bool
  | value key _ _ => key ≠ []
  | _ => false

def isChild : NodeEntry Cid → Bool
  | value _ _ _ => false
  | _ => true

def isAbove (key : Key) : NodeEntry Cid → Bool
  | value k _ _ => k ≠ [] ∧ key < k
  | _ => false

def isBelow (key : Key) : NodeEntry Cid → Bool
  | value k _ _ => k ≠ [] ∧ k < key
  | _ => false

end NodeEntry

open NodeEntry

def Node.isEmpty (n : Node Cid) : Bool :=
  n.entries.isEmpty

-- The index of the value entry with exactly this key, with the value it holds.
def findExistingEntry (key : Key) : List (NodeEntry Cid) → Option (ℕ × Cid)
  | [] => none
  | value k v _ :: es =>
    if k ≠ [] ∧ key = k then some (0, v) else (findExistingEntry key es).map (·.map (· + 1) id)
  | _ :: es => (findExistingEntry key es).map (·.map (· + 1) id)

-- The loop of `findExistingChild`, at index `i` with the child seen last.
def existingChild (key : Key) (i : ℕ) (idx : Option ℕ) : List (NodeEntry Cid) → Option ℕ
  | [] => idx
  | value k _ _ :: es =>
    if k = [] then existingChild key (i + 1) idx es
    else if key ≤ k then idx
    else existingChild key (i + 1) none es
  | _ :: es => existingChild key (i + 1) (some i) es

def findExistingChild (key : Key) (es : List (NodeEntry Cid)) : Option ℕ :=
  existingChild key 0 none es

-- The next entry is a value which the key would be after, so the child before it can be skipped.
def skipsChild (key : Key) (rest : List (NodeEntry Cid)) : Bool :=
  rest.head?.any (isBelow key)

-- The order of a key within a node, from its order within the child at one end of the node.
def childOrder (first last : Bool) : Ordering → Ordering
  | .lt => if first then .lt else .eq
  | .gt => if last then .gt else .eq
  | .eq => .eq

mutual

-- The order of the key relative to the keys of the node, and the node with the marks left in it.
def Node.compareKey (key : Key) (markDirty : Bool) :
    Node Cid → Except Error Ordering × Node Cid
  | ⟨es, h, d, c, stub⟩ =>
    if stub then
      (.error .partialTree, ⟨es, h, d, c, stub⟩)
    else if es.isEmpty then
      (.error .emptyRange, ⟨es, h, d, c, stub⟩)
    else if es.head?.any (isAbove key) then
      (.ok .lt, ⟨es, h, d || markDirty, c, stub⟩)
    else if es.getLast?.any (isBelow key) then
      (.ok .gt, ⟨es, h, d || markDirty, c, stub⟩)
    else
      (compareEntries key markDirty true es).map id (⟨·, h, d || markDirty, c, stub⟩)

-- The loop of `compareKey`.
def compareEntries (key : Key) (markDirty first : Bool) :
    List (NodeEntry Cid) → Except Error Ordering × List (NodeEntry Cid)
  | [] => (.ok .eq, [])
  | value k v d :: es =>
    if isAbove key (value k v d) then
      (.ok .eq, value k v d :: es)
    else
      (compareEntries key markDirty false es).map id (value k v d :: ·)
  | link c :: es =>
    if skipsChild key es then
      (compareEntries key markDirty false es).map id (link c :: ·)
    else
      (.error .partialTree, link c :: es)
  | child c n d :: es =>
    if skipsChild key es then
      (compareEntries key markDirty false es).map id (child c n d :: ·)
    else
      (n.compareKey key markDirty).map (·.map <| childOrder first es.isEmpty) (child c · d :: es)

end

-- The loop of `findInsertionIndex`, at index `i`.
def insertionIndex (key : Key) (i : ℕ) : List (NodeEntry Cid) → Except Error (ℕ × Bool)
  | [] => .ok (i, false)
  | value k v d :: es =>
    if isAbove key (value k v d) then .ok (i, false) else insertionIndex key (i + 1) es
  | link _ :: es =>
    if skipsChild key es then insertionIndex key (i + 1) es else .error .insertionOrder
  | child _ n _ :: es =>
    if skipsChild key es then insertionIndex key (i + 1) es
    else match (n.compareKey key false).1 with
      | .error e => .error e
      | .ok .lt => .ok (i, false)
      | .ok .gt => insertionIndex key (i + 1) es
      | .ok .eq => .ok (i, true)

def Node.findInsertionIndex (key : Key) (n : Node Cid) : Except Error (ℕ × Bool) :=
  if n.stub then .error .insertionOrder else insertionIndex key 0 n.entries

section Size

-- Bounds the recursion of `proveMutation`, which descends after `compareKey` has marked a child.

mutual

def Node.size : Node Cid → ℕ
  | ⟨es, _, _, _, _⟩ => sizeEntries es + 1

def sizeEntries : List (NodeEntry Cid) → ℕ
  | [] => 0
  | value _ _ _ :: es => sizeEntries es + 1
  | link _ :: es => sizeEntries es + 1
  | child _ n _ :: es => n.size + sizeEntries es + 1

end

mutual

theorem Node.compareKey_size (key : Key) (markDirty : Bool) :
    ∀ n : Node Cid, (n.compareKey key markDirty).2.size = n.size
  | ⟨es, h, d, c, stub⟩ => by
    have := compareEntries_size key markDirty true es
    simp only [Node.compareKey]
    split_ifs <;> simp_all [Node.size]

theorem compareEntries_size (key : Key) (markDirty first : Bool) : ∀ es : List (NodeEntry Cid),
      sizeEntries (compareEntries key markDirty first es).2 = sizeEntries es
  | [] => by simp [compareEntries]
  | value k v d :: es => by
    have := compareEntries_size key markDirty false es
    simp only [compareEntries]
    split_ifs <;> simp_all [sizeEntries]
  | link c :: es => by
    have := compareEntries_size key markDirty false es
    simp only [compareEntries]
    split_ifs <;> simp_all [sizeEntries]
  | child c n d :: es => by
    have := compareEntries_size key markDirty false es
    have := n.compareKey_size key markDirty
    simp only [compareEntries]
    split_ifs <;> simp_all [sizeEntries]

end

theorem sizeEntries_entries (n : Node Cid) : sizeEntries n.entries < n.size := by
  cases n
  simp [Node.size]

theorem sizeEntries_compareKey (key : Key) (n : Node Cid) :
    sizeEntries (n.compareKey key true).2.entries < n.size := by
  rw [←n.compareKey_size key true]
  exact sizeEntries_entries _

end Size

-- The marks `proveMutation` leaves in the children of a node, and how it ends.
def proveMutation (key : Key) (es : List (NodeEntry Cid)) :
    Except Error Unit × List (NodeEntry Cid) :=
  match es with
  | [] => (.ok (), [])
  | value k v d :: es =>
    if isAbove key (value k v d) then
      (.ok (), value k v d :: es)
    else
      (proveMutation key es).map id (value k v d :: ·)
  | link c :: es =>
    if skipsChild key es then
      (proveMutation key es).map id (link c :: ·)
    else
      (.error .partialTree, link c :: es)
  | child c n d :: es =>
    if skipsChild key es then
      (proveMutation key es).map id (child c n d :: ·)
    else match n.compareKey key true with
      | (.error e, n') => (.error e, child c n' d :: es)
      | (.ok .lt, n') => (.ok (), child c n' d :: es)
      | (.ok .gt, n') => (proveMutation key es).map id (child c n' d :: ·)
      | (.ok .eq, _) =>
        (proveMutation key (n.compareKey key true).2.entries).map id
          fun es' => child c { (n.compareKey key true).2 with entries := es' } d :: es
termination_by sizeEntries es
decreasing_by
  all_goals simp only [sizeEntries]
  iterate 4 omega
  have hlt := sizeEntries_compareKey key n
  omega

mutual

-- The pairs `walk` visits, in its order.
def Node.walk : Node Cid → List (Key × Cid)
  | ⟨es, _, _, _, _⟩ => walkEntries es

def walkEntries : List (NodeEntry Cid) → List (Key × Cid)
  | [] => []
  | value k v _ :: es => if k = [] then walkEntries es else (k, v) :: walkEntries es
  | link _ :: es => walkEntries es
  | child _ n _ :: es => n.walk ++ walkEntries es

end

mutual

def Node.getCID (key : Key) (height : Int) : Node Cid → Except Error (Option Cid)
  | ⟨es, h, _, _, stub⟩ =>
    if stub then
      .error .partialTree
    else if h < height then
      .ok none
    else if height < h then
      match findExistingChild key es with
      | some idx => getChildCID key height idx es
      | none => .ok none
    else
      .ok <| (findExistingEntry key es).map (·.2)

-- `getCID` of the child at an index.
def getChildCID (key : Key) (height : Int) : ℕ → List (NodeEntry Cid) → Except Error (Option Cid)
  | 0, child _ n _ :: _ => n.getCID key height
  | 0, link _ :: _ => .error .partialTree
  | 0, _ => .error .panic
  | _, [] => .error .panic
  | i + 1, _ :: es => getChildCID key height i es

end

end Atproto.Mst
