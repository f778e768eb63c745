import HypercertsRelay.Atproto.Mst.Search

namespace Atproto.Mst

open NodeEntry Ascending Outline

-- `names h c l` if `c` is the CID of the node at height `h` with the pairs `l`, and `links`
-- likewise for children of which a tree has only the CIDs.
structure Naming (Cid : Type) where
  heightForKey : Key → ℕ
  names : ℕ → Cid → Pairs Cid → Prop
  links : ℕ → Cid → Pairs Cid → Prop
  keys : Cid → List Key
  names_of_links {h c l} : links h c l → names h c l
  keys_of_links {h c l} : links h c l → keys c = l.map Prod.fst
  height_of_links {h c l} : links h c l → ∀ p ∈ l, heightForKey p.1 ≤ h

namespace Naming

variable (N : Naming Cid)

-- A node at height `h` that holds the pairs `l`. A node that is not dirty has its CID.
structure NodeAt (sub : NodeEntry Cid → Pairs Cid → Prop) (h : ℕ) (n : Node Cid)
    (l : Pairs Cid) : Prop where
  stub : n.stub = false
  height : n.height = h
  cached : n.dirty = false → ∃ c, n.cid = some c ∧ N.names h c l
  layer : Layer N.heightForKey sub h n.entries l

-- The pairs a child of a node at some height stands for.
def Below : ℕ → NodeEntry Cid → Pairs Cid → Prop
  | h + 1, link c, l => l ≠ [] ∧ N.links h c l
  | h + 1, child c n d, l =>
    l ≠ [] ∧ N.NodeAt (Below h) h n l ∧
      (d = false → n.dirty = false → ∃ c', c = some c' ∧ N.names h c' l)
  | _, _, _ => False

-- The node holds the pairs, and is at its height as are all nodes below it.
abbrev Rep (h : ℕ) (n : Node Cid) (l : Pairs Cid) : Prop :=
  N.NodeAt (N.Below h) h n l

variable {N}

theorem NodeAt.exists_eq (hr : N.NodeAt sub h n l) : ∃ es d c, n = ⟨es, h, d, c, false⟩ := by
  have ⟨es, i, d, c, stub⟩ := n
  exact ⟨es, d, c, by rw [show i = h from hr.height, show stub = false from hr.stub]⟩

theorem Below.ne_nil (hb : N.Below h e l) : l ≠ [] := by
  cases h <;> cases e <;> simp only [Below] at hb <;> exact hb.left

theorem Below.isChild (hb : N.Below h e l) : e.isChild := by
  cases h <;> cases e <;> simp_all [Below, NodeEntry.isChild]

end Naming

section Outline

variable (keys : Cid → List Key)

mutual

def Node.keysUnder : Node Cid → List Key
  | ⟨es, _, _, _, _⟩ => keysEntries es

def keysEntries : List (NodeEntry Cid) → List Key
  | [] => []
  | value k _ _ :: es => k :: keysEntries es
  | link c :: es => keys c ++ keysEntries es
  | child _ n _ :: es => n.keysUnder ++ keysEntries es

end

mutual

-- The keys in view: those reached through dirty nodes, or through `all` nodes that are there.
def Node.outline (all : Bool) : Node Cid → List (Piece Key)
  | ⟨es, _, _, _, _⟩ => outlineEntries all es

def outlineEntries (all : Bool) : List (NodeEntry Cid) → List (Piece Key)
  | [] => []
  | value k _ _ :: es => .key k :: outlineEntries all es
  | link c :: es => .stretch (keys c) :: outlineEntries all es
  | child _ n _ :: es =>
    (if all || n.dirty then n.outline all else [.stretch (n.keysUnder keys)]) ++
      outlineEntries all es

end

variable {keys}

theorem Node.outline_eq (n : Node Cid) :
    n.outline keys all = outlineEntries keys all n.entries := by
  cases n
  rfl

theorem outlineEntries_append :
    outlineEntries keys all (es ++ es') = outlineEntries keys all es ++ outlineEntries keys all es' := by
  induction es with
  | nil => rfl
  | cons e es ih => cases e <;> simp [outlineEntries, ih]

mutual

theorem Node.keys_outline (all : Bool) :
    ∀ n : Node Cid, Outline.keys (n.outline keys all) = n.keysUnder keys
  | ⟨es, _, _, _, _⟩ => keys_outlineEntries all es

theorem keys_outlineEntries (all : Bool) :
    ∀ es : List (NodeEntry Cid), Outline.keys (outlineEntries keys all es) = keysEntries keys es
  | [] => rfl
  | value k _ _ :: es => by simp [outlineEntries, keysEntries, keys_outlineEntries all es]
  | link c :: es => by simp [outlineEntries, keysEntries, keys_outlineEntries all es]
  | child _ n _ :: es => by
    simp only [outlineEntries, keysEntries, keys_append, keys_outlineEntries all es]
    split_ifs <;> simp [n.keys_outline all]

end

-- A child comes into view when its node is marked.
theorem expands_outline_child (c : Option Cid) (n : Node Cid) (d : Bool) :
    Expands (outlineEntries keys all [child c n d]) (n.outline keys all) := by
  simp only [outlineEntries, List.append_nil]
  split_ifs
  · exact .refl _
  · rw [←n.keys_outline all]
    exact .reveal

theorem outline_cons_value :
    outlineEntries keys all (value k v d :: es) = .key k :: outlineEntries keys all es := by
  simp [outlineEntries]

theorem outline_cons_of_dirty (hd : n.dirty) : outlineEntries keys all (child c n d :: es) =
      n.outline keys all ++ outlineEntries keys all es := by
  simp [outlineEntries, hd]

theorem outline_child_of_dirty (hd : n.dirty) :
    outlineEntries keys all [child c n d] = n.outline keys all := by
  simp [outlineEntries, hd]

theorem outlineEntries_cons : outlineEntries keys all (e :: es) =
      outlineEntries keys all [e] ++ outlineEntries keys all es := by
  rw [←outlineEntries_append]
  rfl

theorem dirty_of_clear (hc : Clear key (outlineEntries keys false [child c n d])) : n.dirty := by
  by_contra hd
  have hclean : outlineEntries keys false [child c n d] = [.stretch (n.keysUnder keys)] := by
    simp [outlineEntries, hd]
  exact not_clear_stretch (hclean ▸ hc)

theorem outline_child_all : outlineEntries keys true [child c n d] = n.outline keys true := by
  simp [outlineEntries]

end Outline

section Keys

variable {N : Naming Cid} {sub : NodeEntry Cid → Pairs Cid → Prop}

theorem Layer.keysEntries (hsub : ∀ e l, sub e l → keysEntries N.keys [e] = l.map Prod.fst)
    (hl : Layer N.heightForKey sub h es l) : keysEntries N.keys es = l.map Prod.fst := by
  induction hl with
  | nil => rfl
  | value _ _ _ ih => simp [Mst.keysEntries, ih]
  | last _ he => exact hsub _ _ he
  | @child e _ _ _ _ _ _ _ he _ _ _ ih =>
    have := hsub _ _ he
    cases e <;> simp_all [Mst.keysEntries, isChild]

theorem Naming.Below.keysEntries (hb : N.Below h e l) :
    keysEntries N.keys [e] = l.map Prod.fst := by
  induction h generalizing e l with
  | zero => simp [Naming.Below] at hb
  | succ h ih =>
    cases e with
    | value k v d => simp [Naming.Below] at hb
    | link c => simpa [Mst.keysEntries] using N.keys_of_links hb.right
    | child c n d =>
      have := hb.right.left.layer.keysEntries fun e l => ih
      cases n
      simpa [Mst.keysEntries, Node.keysUnder] using this

theorem Layer.keys_outlineEntries (all : Bool) (hl : Layer N.heightForKey (N.Below h) h es l) :
    Outline.keys (outlineEntries N.keys all es) = l.map Prod.fst := by
  rw [Mst.keys_outlineEntries]
  exact hl.keysEntries fun _ _ => Naming.Below.keysEntries

theorem Naming.NodeAt.keys_outline (hr : N.Rep h n l) :
    Outline.keys (n.outline N.keys all) = l.map Prod.fst := by
  rw [n.outline_eq]
  exact hr.layer.keys_outlineEntries all

theorem Layer.height_le (hsub : ∀ e l, sub e l → ∀ p ∈ l, H p.1 < h)
    (hl : Layer H sub h es l) : ∀ p ∈ l, H p.1 ≤ h := by
  induction hl with
  | nil => simp
  | value _ hh _ ih => simpa [hh] using ih
  | last _ he => exact fun p hp => (hsub _ _ he p hp).le
  | child _ he _ hh _ ih =>
    refine List.forall_mem_append.mpr ⟨fun p hp => (hsub _ _ he p hp).le, ?_⟩
    simpa [hh] using ih

theorem Naming.Below.height_lt (hb : N.Below h e l) : ∀ p ∈ l, N.heightForKey p.1 < h := by
  induction h generalizing e l with
  | zero => simp [Naming.Below] at hb
  | succ h ih =>
    intro p hp
    refine Nat.lt_succ_of_le ?_
    cases e with
    | value k v d => simp [Naming.Below] at hb
    | link c => exact N.height_of_links hb.right p hp
    | child c n d => exact hb.right.left.layer.height_le (fun _ _ => ih) p hp

theorem Naming.NodeAt.height_le (hr : N.Rep h n l) : ∀ p ∈ l, N.heightForKey p.1 ≤ h :=
  hr.layer.height_le fun _ _ => Naming.Below.height_lt

end Keys

end Atproto.Mst
