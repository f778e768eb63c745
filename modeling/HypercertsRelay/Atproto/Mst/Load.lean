import HypercertsRelay.Atproto.Mst.Decode
import HypercertsRelay.Atproto.Mst.Written

namespace Atproto.Mst

open List
open NodeEntry Outline Outline
open Prod (fst)

variable {N : Naming Cid} {H : Key → ℕ} {n : Node Cid} {l l₁ l₂ : Pairs Cid}

section Align

-- Entries at one place of two nodes that hold the same pairs.
def Aligned (sub sub' : NodeEntry Cid → Pairs Cid → Prop) (e e' : NodeEntry Cid) : Prop :=
  (∃ k v d d', e = value k v d ∧ e' = value k v d') ∨
    (e.isChild ∧ e'.isChild ∧ ∃ l, sub e l ∧ sub' e' l)

-- Pairs of lower heights up to one of this height: there is one way to split them off.
theorem split_unique (hl : ∀ q ∈ l₁, H q.1 < h) (hl' : ∀ q ∈ l₁', H q.1 < h)
    (hp : H p.1 = h) (hp' : H p'.1 = h)
    (heq : l₁ ++ p :: l₂ = l₁' ++ p' :: l₂') : l₁ = l₁' ∧ p = p' ∧ l₂ = l₂' := by
  induction l₁ generalizing l₁' with
  | nil =>
    cases l₁' with
    | nil => simpa using heq
    | cons q l₁' =>
      have ⟨hq, _⟩ := List.cons.inj heq
      exact absurd hp (hq ▸ (hl' q mem_cons_self).ne)
  | cons q l₁ ih =>
    cases l₁' with
    | nil =>
      have ⟨hq, _⟩ := List.cons.inj heq
      exact absurd hp' (hq ▸ (hl q mem_cons_self).ne)
    | cons q' l₁' =>
      have ⟨hq, heq⟩ := List.cons.inj heq
      have ⟨hl₁, hpp, hl₂⟩ := ih (forall_mem_cons.mp hl).right (forall_mem_cons.mp hl').right heq
      exact ⟨by rw [hq, hl₁], hpp, hl₂⟩

theorem Layer.align (hsub : ∀ e l, sub e l → l ≠ [] ∧ ∀ p ∈ l, H p.1 < h)
    (hsub' : ∀ e l, sub' e l → l ≠ [] ∧ ∀ p ∈ l, H p.1 < h)
    (hl : Layer H sub h es l) (hl' : Layer H sub' h es' l) :
    List.Forall₂ (Aligned sub sub') es es' := by
  induction hl generalizing es' with
  | nil =>
    generalize hnil : ([] : Pairs Cid) = l at hl'
    cases hl' with
    | nil => exact .nil
    | value => cases hnil
    | last _ hs => exact absurd hnil.symm (hsub' _ _ hs).left
    | child => simp at hnil
  | @value k v d es l hk hh htail ih =>
    generalize heq : (k, v) :: l = l' at hl'
    cases hl' with
    | nil => cases heq
    | value _ _ hl' =>
      cases heq
      exact .cons (.inl ⟨_, _, _, _, rfl, rfl⟩) (ih hl')
    | last _ hs =>
      have hlt := (hsub' _ _ hs).right (k, v) (heq ▸ mem_cons_self)
      exact absurd hh hlt.ne
    | @child e₁ l₁ k' v' _ _ l₂ _ hs _ hh' _ =>
      have heq : [] ++ (k, v) :: l = l₁ ++ (k', v') :: l₂ := heq
      have ⟨hnil, _, _⟩ := split_unique (by simp) (hsub' _ _ hs).right hh hh' heq
      exact absurd hnil.symm (hsub' _ _ hs).left
  | @last e l he hs =>
    cases hl' with
    | nil => exact absurd rfl (hsub _ _ hs).left
    | value _ hh _ => exact absurd hh ((hsub _ _ hs).right _ mem_cons_self).ne
    | last he' hs' => exact .cons (.inr ⟨he, he', _, hs, hs'⟩) .nil
    | @child _ _ k v _ _ _ _ _ _ hh _ => exact absurd hh ((hsub _ _ hs).right (k, v) (by simp)).ne
  | @child e l₁ k v d es l₂ he hs hk hh htail ih =>
    generalize heq : l₁ ++ (k, v) :: l₂ = l' at hl'
    cases hl' with
    | nil => simp at heq
    | @value k' v' _ _ l' _ hh' _ =>
      have heq : l₁ ++ (k, v) :: l₂ = [] ++ (k', v') :: l' := heq
      have ⟨hnil, _, _⟩ := split_unique (hsub _ _ hs).right (by simp) hh hh' heq
      exact absurd hnil (hsub _ _ hs).left
    | last _ hs' =>
      have hlt := (hsub' _ _ hs').right (k, v) (heq ▸ by simp)
      exact absurd hh hlt.ne
    | child he' hs' _ hh' hl' =>
      have ⟨hl₁, hp, hl₂⟩ := split_unique (hsub _ _ hs).right (hsub' _ _ hs').right hh hh' heq
      cases hp
      subst hl₁ hl₂
      exact .cons (.inr ⟨he, he', _, hs, hs'⟩) (.cons (.inl ⟨_, _, _, _, rfl, rfl⟩) (ih hl'))

end Align

section Children

-- What becomes of an entry when the children in the store are loaded.
inductive Loads (load : Cid → Option (Except Error (Node Cid))) :
    NodeEntry Cid → NodeEntry Cid → Prop where
  | value {k v d} : Loads load (value k v d) (value k v d)
  | missing {c} : load c = some (.error .notFound) → Loads load (link c) (link c)
  | found {c n} : load c = some (.ok n) → Loads load (link c) (child (some c) n false)

theorem Loads.isChild (hl : Loads load e e') : e'.isChild = e.isChild := by
  cases hl <;> rfl

theorem loadChildren_known (hh : height ≠ -1) (hload : ∀ e ∈ es, ∃ e', Loads load e e') :
    ∃ es₂, loadChildren load height es = some (.ok (es₂, height)) ∧
      List.Forall₂ (Loads load) es es₂ := by
  induction es with
  | nil => exact ⟨[], rfl, .nil⟩
  | cons e es ih =>
    have ⟨⟨e', he⟩, hload⟩ := forall_mem_cons.mp hload
    have ⟨es₂, heq, hes⟩ := ih hload
    refine ⟨e' :: es₂, ?_, .cons he hes⟩
    cases he with
    | value => simp [loadChildren, heq, Except.map]
    | missing hmissing => simp [loadChildren, hmissing, heq, Except.map]
    | found hfound => simp [loadChildren, hfound, heq, hh, Except.map]

theorem Layer.replace (hsub : ∀ e e₂ l, sub e l → Loads load e e₂ → sub₂ e₂ l)
    (hl : Layer H sub h es l) (hes : List.Forall₂ (Loads load) es es₂) :
    Layer H sub₂ h es₂ l := by
  induction hl generalizing es₂ with
  | nil => cases hes; exact .nil
  | value hk hh _ ih =>
    cases hes with
    | cons he hes =>
      cases he
      exact .value hk hh (ih hes)
  | last he hs =>
    cases hes with
    | cons hload hnil =>
      cases hnil
      exact .last (hload.isChild.trans he) (hsub _ _ _ hs hload)
  | child he hs hk hh _ ih =>
    cases hes with
    | cons hload hes =>
      cases hes with
      | cons hv hes =>
        cases hv
        exact .child (hload.isChild.trans he) (hsub _ _ _ hs hload) hk hh (ih hes)

end Children

section Loose

-- A node as it is loaded: one without keys may not know its height yet.
structure LooseAt (N : Naming Cid) (sub : NodeEntry Cid → Pairs Cid → Prop) (h : ℕ) (n : Node Cid)
    (l : Pairs Cid) : Prop where
  stub : n.stub = false
  cached : ∃ c, n.cid = some c ∧ N.names h c l
  layer : Layer N.heightForKey sub h n.entries l
  height : n.height = h ∧ l ≠ [] ∨
    n.height = -1 ∧ (l = [] ∨ ∃ ks, n.outline N.keys true = [.stretch ks])

def LooseBelow (N : Naming Cid) : ℕ → NodeEntry Cid → Pairs Cid → Prop
  | h + 1, link c, l => l ≠ [] ∧ N.links h c l
  | h + 1, child c n _, l =>
    l ≠ [] ∧ LooseAt N (LooseBelow N h) h n l ∧ ∃ c', c = some c' ∧ N.names h c' l
  | _, _, _ => False

theorem LooseAt.height_eq (hl : LooseAt N sub h n l) :
    (if n.height < 0 then (h : ℤ) else n.height) = h := by
  rcases hl.height with ⟨hh, _⟩ | ⟨hh, _⟩
  · simp [hh]
  · simp [hh]

theorem LooseBelow.ne_nil (hb : LooseBelow N h e l) : l ≠ [] := by
  cases h <;> cases e <;> simp only [LooseBelow] at hb <;> exact hb.left

theorem ensureHeights_dirty : (n.ensureHeights height).dirty = n.dirty := by
  cases n
  rfl

mutual

theorem Node.outline_ensureHeights (keys : Cid → List Key) (all : Bool) (height : ℤ) :
    ∀ n : Node Cid, (n.ensureHeights height).outline keys all = n.outline keys all
  | ⟨es, _, d, c, stub⟩ => by
    rw [Node.ensureHeights, Node.outline, Node.outline]
    split_ifs
    · rfl
    · exact outline_ensureEntryHeights keys all (height - 1) es

theorem outline_ensureEntryHeights (keys : Cid → List Key) (all : Bool) (height : ℤ) :
    ∀ es : List (NodeEntry Cid),
      outlineEntries keys all (ensureEntryHeights height es) = outlineEntries keys all es
  | [] => rfl
  | value k v d :: es => by
    simp only [ensureEntryHeights, outlineEntries, outline_ensureEntryHeights keys all height es]
  | link c :: es => by
    simp only [ensureEntryHeights, outlineEntries, outline_ensureEntryHeights keys all height es]
  | child c n d :: es => by
    have ho := n.outline_ensureHeights keys all (if n.height < 0 then height else n.height)
    have hk := congrArg Outline.keys ho
    rw [Node.keys_outline, Node.keys_outline] at hk
    simp only [ensureEntryHeights, outlineEntries, outline_ensureEntryHeights keys all height es,
      ensureHeights_dirty, ho, hk]

end

section

variable (hnode : ∀ n l, LooseAt N (LooseBelow N h) h n l → N.Rep h (n.ensureHeights h) l)

include hnode

-- The heights are known once that of the root is.
theorem LooseBelow.ensureHeights (hb : LooseBelow N (h + 1) e l) :
    ∃ e', (∀ es, ensureEntryHeights h (e :: es) = e' :: ensureEntryHeights h es) ∧
      N.Below (h + 1) e' l := by
  cases e with
  | value => exact hb.elim
  | link c => exact ⟨link c, fun _ => rfl, hb⟩
  | child c n d =>
    have ⟨hne, hloose, hc⟩ := hb
    refine ⟨child c (n.ensureHeights h) d, fun es => ?_, hne, hnode n l hloose, fun _ _ => hc⟩
    rw [ensureEntryHeights, hloose.height_eq]

theorem Layer.ensureEntryHeights (hl : Layer N.heightForKey (LooseBelow N (h + 1)) (h + 1) es l) :
    Layer N.heightForKey (N.Below (h + 1)) (h + 1) (ensureEntryHeights h es) l := by
  induction hl with
  | nil => exact .nil
  | value hk hh _ ih => exact .value hk hh ih
  | last _ hb =>
    have ⟨e', heq, hb'⟩ := hb.ensureHeights hnode
    rw [heq]
    exact .last hb'.isChild hb'
  | child _ hb hk hh _ ih =>
    have ⟨e', heq, hb'⟩ := hb.ensureHeights hnode
    rw [heq]
    exact .child hb'.isChild hb' hk hh ih

end

theorem LooseAt.ensureHeights (hl : LooseAt N (LooseBelow N h) h n l) :
    N.Rep h (n.ensureHeights h) l := by
  induction h generalizing n l with
  | zero =>
    have ⟨es, i, d, c, stub⟩ := n
    have hlayer : Layer N.heightForKey (LooseBelow N 0) 0 es l := hl.layer
    exact ⟨hl.stub, rfl, fun _ => hl.cached, hlayer.mono fun _ _ => False.elim⟩
  | succ h ih =>
    have ⟨es, i, d, c, stub⟩ := n
    have hlayer : Layer N.heightForKey (LooseBelow N (h + 1)) (h + 1) es l := hl.layer
    have hpos : ¬((h + 1 : ℕ) : ℤ) ≤ 0 ∧ ((h + 1 : ℕ) : ℤ) - 1 = h := by omega
    refine ⟨hl.stub, rfl, fun _ => hl.cached, ?_⟩
    simp only [Node.ensureHeights, hpos, if_false]
    exact hlayer.ensureEntryHeights fun n l => ih

end Loose

section Store

variable {codec : Codec Cid Block} {bs : Cid → Option Block}

theorem Naming.Rep.align (hr : N.Rep h n l) (hl : Linked codec N.heightForKey h es l) :
    List.Forall₂ (Aligned (N.Below h) (LinkTo codec N.heightForKey h)) n.entries es :=
  hr.layer.align (fun _ _ hb => ⟨hb.ne_nil, hb.height_lt⟩) (fun _ _ hl => ⟨hl.left, hl.height_lt⟩)
    hl.layer

-- Every block of the store is under its own CID.
def Honest (codec : Codec Cid Block) (bs : Cid → Option Block) : Prop :=
  ∀ c b, bs c = some b → codec.sum b = c

-- All that a diff has for a node is in the store.
def Stored (codec : Codec Cid Block) (bs : Cid → Option Block) (n : Node Cid) : Prop :=
  ∀ c b, (c, b) ∈ (n.writeBlocks codec).blocks → bs c = some b

-- Loading the node that stands for the pairs: nodes marked in the written tree are in view.
inductive LoadsNode (codec : Codec Cid Block) (N : Naming Cid) (bs : Cid → Option Block) (h : ℕ)
    (l : Pairs Cid) (c : Cid) : Option (Except Error (Node Cid)) → Prop where
  | missing : bs c = none → LoadsNode codec N bs h l c (some (.error .notFound))
  | found {n : Node Cid} :
    LooseAt N (LooseBelow N h) h n l →
    (∀ n₀ : Node Cid, N.Rep h n₀ l → n₀.dirty → Stored codec bs n₀ →
      Expands (n₀.outline N.keys false) (n.outline N.keys true)) →
    LoadsNode codec N bs h l c (some (.ok n))

theorem keyHeight_of_layer (hl : Layer H sub h es l) : keyHeight H es = h ∧ l ≠ [] ∨
      keyHeight H es = -1 ∧ (es = [] ∨ ∃ e, es = [e] ∧ sub e l) := by
  cases hl with
  | nil => exact .inr ⟨rfl, .inl rfl⟩
  | value _ hh _ => exact .inl ⟨by rw [keyHeight, hh], by simp⟩
  | @last e _ he hs => cases e <;> simp_all [keyHeight, isChild]
  | @child e _ _ _ _ _ _ he _ _ hh _ => cases e <;> simp_all [keyHeight, isChild]

theorem blocks_of_ok (hs : n.stub = false) (hd : n.dirty)
    (hres : (n.writeBlocks codec).result = .ok c) :
    (writeEntries codec n.entries).result = .ok () ∧
      ∃ b, (n.writeBlocks codec).blocks = (writeEntries codec n.entries).blocks ++ [(c, b)] := by
  cases hw : (writeEntries codec n.entries).result with
  | error er =>
    rw [writeBlocks_of_children_error hs hd rfl hw] at hres
    cases hres
  | ok u =>
    rcases entriesCID_eq codec (writeEntries codec n.entries).left with
      ⟨b, c', hb, _⟩ | ⟨er, hb, _⟩
    · rw [writeBlocks_of_ok hs hd rfl hw hb] at hres ⊢
      cases hres
      exact ⟨rfl, b, rfl⟩
    · rw [writeBlocks_of_error hs hd rfl hw hb] at hres
      cases hres

theorem blocks_of_child (hw : (writeEntries codec es).result = .ok ())
    (hm : child cc n d ∈ es) (hd : n.dirty) :
    ∀ x ∈ (n.writeBlocks codec).blocks, x ∈ (writeEntries codec es).blocks := by
  intro x hx
  induction es with
  | nil => simp at hm
  | cons e es ih =>
    cases e with
    | value => exact ih hw (by simpa using hm)
    | link => exact ih hw (by simpa using hm)
    | child c' n' d' =>
      by_cases hd' : d' || n'.dirty
      case neg =>
        have hm : child cc n d ∈ es := by
          rcases mem_cons.mp hm with heq | hm
          case inl =>
            cases heq
            simp [hd] at hd'
          case inr => exact hm
        simp only [writeEntries, if_neg hd'] at hw ⊢
        exact ih hw hm
      case pos =>
        cases hres : (n'.writeBlocks codec).result with
        | error er =>
          simp only [writeEntries, if_pos hd', hres] at hw
          cases hw
        | ok c'' =>
          simp only [writeEntries, if_pos hd', hres] at hw ⊢
          rcases mem_cons.mp hm with heq | hm
          case inl =>
            cases heq
            exact mem_append_left _ hx
          case inr => exact mem_append_right _ (ih hw hm)

theorem Stored.child (hst : Stored codec bs n)
    (hs : n.stub = false) (hd : n.dirty) (hres : (n.writeBlocks codec).result = .ok c)
    (hm : NodeEntry.child cc n₁ d ∈ n.entries) (hd₁ : n₁.dirty) : Stored codec bs n₁ := by
  have ⟨hw, b, hblocks⟩ := blocks_of_ok hs hd hres
  intro c' b' hmem
  refine hst c' b' ?_
  rw [hblocks]
  exact mem_append_left _ (blocks_of_child hw hm hd₁ _ hmem)

theorem Stored.root (hst : Stored codec bs n) (hs : n.stub = false) (hd : n.dirty)
    (hres : (n.writeBlocks codec).result = .ok c) : bs c ≠ none := by
  have ⟨_, b, hblocks⟩ := blocks_of_ok hs hd hres
  rw [hst c b (by simp [hblocks])]
  exact Option.some_ne_none b

theorem LooseAt.keys_outline (hl : LooseAt N (LooseBelow N h) h n l) :
    keys (n.outline N.keys true) = l.map fst := by
  have hrep : keys ((n.ensureHeights h).outline N.keys true) = l.map fst :=
    hl.ensureHeights.keys_outline
  rwa [n.outline_ensureHeights] at hrep

theorem LooseBelow.keys_outline (hb : LooseBelow N h e l) :
    keys (outlineEntries N.keys true [e]) = l.map fst := by
  cases h with
  | zero => exact hb.elim
  | succ h =>
    cases e with
    | value => exact hb.elim
    | link c => simpa [outlineEntries] using N.keys_of_links hb.right
    | child c n d =>
      rw [outline_child_all]
      exact hb.right.left.keys_outline

variable (hlaw : codec.Lawful)

section Step

variable {load : Cid → Option (Except Error (Node Cid))}
  (hload : ∀ c l, LinkTo codec H h (link c) l →
    ∃ h', h = h' + 1 ∧ LoadsNode codec (.linked hlaw H) bs h' l c (load c))

include hload

theorem LinkTo.loads (hl : LinkTo codec H h e l) : ∃ e', Loads load e e' := by
  have ⟨_, _, c, he, _⟩ := hl
  subst he
  have ⟨h', _, hn⟩ := hload c l hl
  generalize hres : load c = r at hn
  cases hn with
  | missing => exact ⟨_, .missing hres⟩
  | found => exact ⟨_, .found hres⟩

theorem LinkTo.looseBelow (hl : LinkTo codec H h e l) (he : Loads load e e') :
    LooseBelow (.linked hlaw H) h e' l := by
  have ⟨hne, hk, c, heq, hc⟩ := hl
  subst heq
  have ⟨h', hh, hn⟩ := hload c l hl
  subst hh
  cases he with
  | missing => exact ⟨hne, hc, hk⟩
  | found hfound =>
    rw [hfound] at hn
    cases hn with
    | found hloose _ => exact ⟨hne, hloose, c, rfl, hc⟩

theorem Linked.loads (hl : Linked codec H h es l) : ∀ e ∈ es, ∃ e', Loads load e e' := by
  have hlayer := hl.layer
  clear hl
  induction hlayer with
  | nil => simp
  | value _ _ _ ih => exact forall_mem_cons.mpr ⟨⟨_, .value⟩, ih⟩
  | last _ hs => simpa using hs.loads hlaw hload
  | child _ hs _ _ _ ih =>
    exact forall_mem_cons.mpr ⟨hs.loads hlaw hload, forall_mem_cons.mpr ⟨⟨_, .value⟩, ih⟩⟩

theorem Linked.loadChildren (hl : Linked codec H h es l) :
    ∃ es₂ height, loadChildren load (keyHeight H es) es = some (.ok (es₂, height)) ∧
      List.Forall₂ (Loads load) es es₂ ∧
      (height = h ∧ l ≠ [] ∨ height = -1 ∧ (l = [] ∨
        ∃ ks, outlineEntries (keysOf codec H) true es₂ = [.stretch ks])) := by
  rcases keyHeight_of_layer hl.layer with ⟨hh, hne⟩ | ⟨hh, rfl | ⟨e, rfl, hs⟩⟩
  · rw [hh]
    have hknown : (h : ℤ) ≠ -1 := by omega
    have ⟨es₂, heq, hes⟩ := loadChildren_known hknown (hl.loads hlaw hload)
    exact ⟨es₂, h, heq, hes, .inl ⟨rfl, hne⟩⟩
  case inr.inl =>
    have hnil : l = [] := by
      have hlayer := hl.layer
      cases hlayer
      rfl
    exact ⟨[], -1, rfl, .nil, .inr ⟨rfl, .inl hnil⟩⟩
  case inr.inr =>
    have ⟨hne, _, c, he, _⟩ := hs
    subst he
    have ⟨h', hh', hn⟩ := hload c l hs
    subst hh'
    rw [hh]
    generalize hres : load c = r at hn
    cases hn with
    | missing =>
      refine ⟨[link c], -1, by simp [Mst.loadChildren, hres, Except.map], .cons (.missing hres) .nil,
        .inr ⟨rfl, .inr ⟨_, rfl⟩⟩⟩
    | @found n hloose _ =>
      have hes : List.Forall₂ (Loads load) [link c] [child (some c) n false] :=
        .cons (.found hres) .nil
      rcases hloose.height with ⟨hn, _⟩ | ⟨hn, hout⟩
      · refine ⟨_, ((h' + 1 : ℕ) : ℤ), ?_, hes, .inl ⟨rfl, hne⟩⟩
        simp [Mst.loadChildren, hres, hn, Except.map]
      · refine ⟨_, -1, ?_, hes, .inr ⟨rfl, .inr ?_⟩⟩
        · simp [Mst.loadChildren, hres, hn, Except.map]
        · have ⟨ks, hks⟩ := hout.resolve_left hne
          exact ⟨ks, by rw [outline_child_all]; exact hks⟩

theorem Naming.Below.expands (hb : (linked hlaw H).Below h e₀ l)
    (hl : LinkTo codec H h e l) (he : Loads load e e₂)
    (hst : ∀ c n d, e₀ = child c n d → n.dirty → Stored codec bs n) :
    Expands (outlineEntries (keysOf codec H) false [e₀])
      (outlineEntries (keysOf codec H) true [e₂]) := by
  have hloose := hl.looseBelow hlaw hload he
  have ⟨_, _, c, heq, hc⟩ := hl
  subst heq
  have ⟨h', hh, hn⟩ := hload c l hl
  subst hh
  have hkeys : Outline.keys (outlineEntries (keysOf codec H) true [e₂]) =
      l.map fst := hloose.keys_outline
  have hkeys₀ : Outline.keys (outlineEntries (keysOf codec H) false [e₀]) =
      l.map fst := (Mst.keys_outlineEntries false [e₀]).trans hb.keysEntries
  -- A child out of view comes into view as far as it is loaded.
  have hstretch (ks : List Key) (ho : outlineEntries (keysOf codec H) false [e₀] = [.stretch ks]) :
      Expands (outlineEntries (keysOf codec H) false [e₀])
        (outlineEntries (keysOf codec H) true [e₂]) := by
    rw [ho] at hkeys₀
    have hks : ks = l.map fst := by simpa using hkeys₀
    rw [ho, hks, ←hkeys]
    exact .reveal
  cases e₀ with
  | value => exact hb.elim
  | link c' => exact hstretch _ rfl
  | child c' n₁ d =>
    by_cases hd : n₁.dirty
    case neg => exact hstretch (n₁.keysUnder (keysOf codec H)) (by simp [outlineEntries, hd])
    case pos =>
      have hres := (hb.right.left.writeBlocks (linked_sound hlaw)).result.trans hc
      have hst₁ := hst c' n₁ d rfl hd
      rw [outline_child_of_dirty hd]
      cases he with
      | missing hmissing =>
        rw [hmissing] at hn
        cases hn with
        | missing hnone => exact absurd hnone (hst₁.root hb.right.left.stub hd hres)
      | found hfound =>
        rw [hfound] at hn
        cases hn with
        | found _ hexp =>
          rw [outline_child_all]
          exact hexp n₁ hb.right.left hd hst₁

theorem Aligned.expands (hal : List.Forall₂ (Aligned ((Naming.linked hlaw H).Below h)
      (LinkTo codec H h)) es₀ es) (hes : List.Forall₂ (Loads load) es es₂)
    (hst : ∀ c n d, child c n d ∈ es₀ → n.dirty → Stored codec bs n) :
    Expands (outlineEntries (keysOf codec H) false es₀)
      (outlineEntries (keysOf codec H) true es₂) := by
  induction hal generalizing es₂ with
  | nil =>
    cases hes
    exact .nil
  | @cons e₀ e es₀ es ha _ ih =>
    cases hes with
    | @cons _ e₂ _ es₂ he hes =>
      have htail := ih hes fun c n d hm => hst c n d (mem_cons_of_mem _ hm)
      rcases ha with ⟨k, v, d, d', rfl, rfl⟩ | ⟨_, _, l, hb, hl⟩
      · cases he
        exact .key htail
      · rw [outlineEntries_cons, outlineEntries_cons (e := e₂)]
        refine (hb.expands hlaw hload hl he fun c n d heq => ?_).append htail
        subst heq
        exact hst c n d mem_cons_self

theorem loadNodeFromStore_step (hbs : Honest codec bs) (hk : ∀ p ∈ l, p.1 ≠ [])
    (hc : cidAt codec H h l = .ok c)
    (hdepth : load = loadNodeFromStore H codec bs depth) :
    LoadsNode codec (.linked hlaw H) bs h l c (loadNodeFromStore H codec bs (depth + 1) c) := by
  have ⟨es, d, b, hlinked, _, _, hnode, hb, hsum⟩ := block_of_cidAt hk hc
  rw [loadNodeFromStore]
  cases hget : bs c with
  | none => exact .missing hget
  | some b' =>
    have hbb : b' = b := hlaw.sum_injective ((hbs c b' hget).trans hsum.symm)
    subst hbb
    have ⟨es₂, height, hch, hes, hheight⟩ := hlinked.loadChildren hlaw hload
    rw [hdepth] at hch
    simp only [hlaw.unmarshal_marshal hb, hnode, hch]
    have hlayer := hlinked.layer.replace (fun e e₂ l hl he => hl.looseBelow hlaw hload he) hes
    refine .found ⟨rfl, ⟨c, rfl, hc⟩, hlayer, hheight⟩ fun n₀ hr hd hst => ?_
    have hres := (hr.writeBlocks (Naming.linked_sound hlaw)).result.trans hc
    have hal := hr.align hlinked
    rw [n₀.outline_eq]
    exact Aligned.expands hlaw hload hal hes fun cc n₁ d hm hd₁ => hst.child hr.stub hd hres hm hd₁

end Step

-- Loading what a CID stands for, deep enough.
theorem loadNodeFromStore_spec (hbs : Honest codec bs) (hk : ∀ p ∈ l, p.1 ≠ [])
    (hc : cidAt codec H h l = .ok c) (hd : h < depth) :
    LoadsNode codec (.linked hlaw H) bs h l c (loadNodeFromStore H codec bs depth c) := by
  induction depth generalizing h l c with
  | zero => exact absurd hd (Nat.not_lt_zero _)
  | succ depth ih =>
    refine loadNodeFromStore_step hlaw (fun c l ⟨_, hk, c', heq, hcid⟩ => ?_) hbs hk hc rfl
    cases heq
    cases h with
    | zero => cases hcid
    | succ h => exact ⟨h, rfl, ih hk hcid (Nat.lt_of_succ_lt_succ hd)⟩

end Store

end Atproto.Mst
