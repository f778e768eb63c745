import HypercertsRelay.Atproto.Mst.Root

-- The CID of the node at a height that holds given pairs, as a function of the pairs alone.
namespace Atproto.Mst

open List
open NodeEntry

variable {Cid Block : Type}

section Data

-- Entries that `NodeData` does not tell apart.
def SameData : NodeEntry Cid → NodeEntry Cid → Prop
  | value k v _, value k' v' _ => k = k' ∧ v = v'
  | e, e' => e.isChild ∧ e'.isChild ∧ e.childCID? = e'.childCID?

theorem dataEntries_congr (hs : List.Forall₂ SameData es es') (written : List (EntryData Cid))
    (prevKey : Key) : dataEntries written prevKey es = dataEntries written prevKey es' := by
  induction hs generalizing written prevKey with
  | nil => rfl
  | @cons e e' _ _ h _ ih => cases e <;> cases e' <;> simp_all [SameData, dataEntries, isChild]

theorem nodeData_congr (hs : List.Forall₂ SameData es es') : nodeData es = nodeData es' := by
  cases hs with
  | nil => rfl
  | @cons e e' es es' h htail =>
    have hrest := dataEntries_congr htail [] []
    have hall := dataEntries_congr (.cons h htail) [] []
    cases e <;> cases e' <;> simp_all [SameData, nodeData, isChild, childCID?]

end Data

section Cid

variable (codec : Codec Cid Block) (heightForKey : Key → ℕ)

def entriesCID (es : List (NodeEntry Cid)) : Except Error Cid :=
  (nodeData es >>= NodeData.bytes codec).map (·.2)

section

variable (cidBelow : Pairs Cid → Except Error Cid)

def linkBelow : Pairs Cid → Except Error (List (NodeEntry Cid))
  | [] => .ok []
  | l => (cidBelow l).map fun c => [link c]

-- The entries for the pairs at a height. `below` are the pairs since the last key of this height.
def linkEntries (h : ℕ) (below : Pairs Cid) : Pairs Cid → Except Error (List (NodeEntry Cid))
  | [] => linkBelow cidBelow below
  | (k, v) :: l =>
    if heightForKey k = h then do
      let child ← linkBelow cidBelow below
      let es ← linkEntries h [] l
      pure (child ++ value k v false :: es)
    else
      linkEntries h (below ++ [(k, v)]) l

end

def cidAt : ℕ → Pairs Cid → Except Error Cid
  | 0, l => linkEntries heightForKey (fun _ => .error .invalidTree) 0 [] l >>= entriesCID codec
  | h + 1, l => linkEntries heightForKey (cidAt h) (h + 1) [] l >>= entriesCID codec

def cidBelow : ℕ → Pairs Cid → Except Error Cid
  | 0, _ => .error .invalidTree
  | h + 1, l => cidAt codec heightForKey h l

-- The entries of the node at a height that holds the pairs, with links for its children.
def linksAt (h : ℕ) (l : Pairs Cid) : Except Error (List (NodeEntry Cid)) :=
  linkEntries heightForKey (cidBelow codec heightForKey h) h [] l

theorem cidAt_eq (h : ℕ) (l : Pairs Cid) :
    cidAt codec H h l = linksAt codec H h l >>= entriesCID codec := by
  cases h <;> rfl

end Cid

section Link

variable {cidBelow : Pairs Cid → Except Error Cid}

theorem linkBelow_of_ne_nil (hl : l ≠ []) :
    linkBelow cidBelow l = (cidBelow l).map fun c => [link c] := by
  cases l with
  | nil => exact absurd rfl hl
  | cons => rfl

theorem linkEntries_append (hl : ∀ p ∈ l₁, H p.1 ≠ h) : linkEntries H cidBelow h below (l₁ ++ l₂) =
      linkEntries H cidBelow h (below ++ l₁) l₂ := by
  induction l₁ generalizing below with
  | nil => simp
  | cons p l₁ ih =>
    have ⟨hp, hl⟩ := forall_mem_cons.mp hl
    simp only [cons_append, linkEntries, if_neg hp, ih hl, append_assoc, nil_append]

theorem linkEntries_value (hk : H k = h) : linkEntries H cidBelow h [] ((k, v) :: l) =
      (linkEntries H cidBelow h [] l).map (value k v false :: ·) := by
  simp only [linkEntries, if_pos hk, linkBelow]
  rfl

theorem linkEntries_last (hne : l ≠ []) (hl : ∀ p ∈ l, H p.1 ≠ h) :
    linkEntries H cidBelow h [] l = (cidBelow l).map fun c => [link c] := by
  have happ : linkEntries H cidBelow h [] (l ++ []) =
      linkEntries H cidBelow h ([] ++ l) [] := linkEntries_append hl
  rw [append_nil, nil_append] at happ
  rw [happ, linkEntries, linkBelow_of_ne_nil hne]

theorem linkEntries_child (hne : l₁ ≠ []) (hl : ∀ p ∈ l₁, H p.1 ≠ h) (hk : H k = h) :
    linkEntries H cidBelow h [] (l₁ ++ (k, v) :: l₂) = (do
      let c ← cidBelow l₁
      let es ← linkEntries H cidBelow h [] l₂
      pure (link c :: value k v false :: es)) := by
  rw [linkEntries_append hl, nil_append, linkEntries, if_pos hk, linkBelow_of_ne_nil hne]
  cases cidBelow l₁ <;> rfl

end Link

end Atproto.Mst
