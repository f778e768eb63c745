import HypercertsRelay.Atproto.Mst.Canonical
import HypercertsRelay.Library.Except

namespace Atproto.Mst

open List Except
open NodeEntry NodeData NodeEntry

variable {es : List (NodeEntry Cid)} {e : NodeEntry Cid}

section Prefix

theorem countPrefixLen_le (a b : Key) : countPrefixLen a b ≤ a.length := by
  induction a generalizing b with
  | nil => simp [countPrefixLen]
  | cons x a ih =>
    cases b with
    | nil => simp [countPrefixLen]
    | cons y b =>
      rw [countPrefixLen]
      split_ifs
      · exact Nat.succ_le_succ (ih b)
      · exact Nat.zero_le _

-- The bytes left out of a key are those of the key before it.
theorem take_countPrefixLen (a b : Key) :
    a.take (countPrefixLen a b) ++ b.drop (countPrefixLen a b) = b := by
  induction a generalizing b with
  | nil => cases b <;> simp [countPrefixLen]
  | cons x a ih =>
    cases b with
    | nil => simp [countPrefixLen]
    | cons y b =>
      rw [countPrefixLen]
      split_ifs with hxy
      · simp [hxy, ih b]
      · simp

end Prefix

section Data

-- Entries after the left pointer of a block, as they are read from it.
inductive Plain : List (NodeEntry Cid) → Prop where
  | nil : Plain []
  | value {k v es} : k ≠ [] → Plain es → Plain (value k v false :: es)
  | link {k v c es} : k ≠ [] → Plain es → Plain (value k v false :: NodeEntry.link c :: es)

theorem setLastRight_append (c : Option Cid) (pre : List (EntryData Cid)) (e : EntryData Cid) :
    setLastRight c (pre ++ [e]) = pre ++ [{ e with right := c }] := by
  induction pre with
  | nil => rfl
  | cons e' pre ih =>
    have hcons : setLastRight c (e' :: (pre ++ [e])) = e' :: setLastRight c (pre ++ [e]) :=
      setLastRight.eq_3 c e' _ (by simp)
    rw [cons_append, hcons, ih]
    rfl

theorem Plain.dataEntries_append (hp : Plain es) (pre : List (EntryData Cid)) (prevKey : Key) :
    dataEntries pre prevKey es = (dataEntries [] prevKey es).map (pre ++ ·) := by
  induction hp generalizing pre prevKey with
  | nil => simp [dataEntries, Except.map]
  | @value k v es hk _ ih =>
    simp only [dataEntries, if_neg hk, nil_append]
    rw [ih, ih [_]]
    cases dataEntries [] k es <;> simp [Except.map]
  | @link k v c es hk _ ih =>
    have hsome (w : List (EntryData Cid)) (e : EntryData Cid) : (w ++ [e]).isEmpty = false := by simp
    have hone (e : EntryData Cid) : setLastRight (some c) [e] = [{ e with right := some c }] := rfl
    simp only [dataEntries, if_neg hk, hsome, Bool.false_eq_true, if_false, childCID?,
      setLastRight_append, nil_append, isEmpty_cons, hone]
    rw [ih, ih [_]]
    cases dataEntries [] k es <;> simp [Except.map]

theorem nodeEntries_cons (prevKey k : Key) (v : Cid) (right : Option Cid)
    (hd : nodeEntries k data = .ok es) :
    nodeEntries prevKey
        (⟨countPrefixLen prevKey k, k.drop (countPrefixLen prevKey k), v, right⟩ :: data) =
      .ok (value k v false :: right.toList.map link ++ es) := by
  have hle := countPrefixLen_le prevKey k
  have hin : ¬((countPrefixLen prevKey k : ℤ) < 0 ∨
      (prevKey.length : ℤ) < (countPrefixLen prevKey k : ℤ)) := by omega
  simp only [nodeEntries, if_neg hin, Int.toNat_natCast, take_countPrefixLen, hd, Except.map]

-- What is written for the entries reads back as the entries.
theorem Plain.nodeEntries (hp : Plain es) (prevKey : Key) :
    ∃ data, dataEntries [] prevKey es = .ok data ∧ nodeEntries prevKey data = .ok es := by
  induction hp generalizing prevKey with
  | nil => exact ⟨[], rfl, rfl⟩
  | @value k v es hk hp ih =>
    have ⟨data, hdata, hentries⟩ := ih k
    refine ⟨_ :: data, ?_, nodeEntries_cons prevKey k v none hentries⟩
    simp only [dataEntries, if_neg hk, nil_append]
    rw [hp.dataEntries_append, hdata]
    rfl
  | @link k v c es hk hp ih =>
    have ⟨data, hdata, hentries⟩ := ih k
    refine ⟨_ :: data, ?_, nodeEntries_cons prevKey k v (some c) hentries⟩
    simp only [dataEntries, if_neg hk, nil_append, isEmpty_cons, Bool.false_eq_true,
      if_false, childCID?, setLastRight]
    rw [hp.dataEntries_append, hdata]
    rfl

theorem Plain.nodeData (hp : Plain es) (left : Option Cid) :
    ∃ d, nodeData (left.toList.map NodeEntry.link ++ es) = .ok d ∧ d.left = left ∧
      NodeData.nodeEntries [] d.entries = .ok es := by
  have ⟨data, hdata, hentries⟩ := hp.nodeEntries []
  refine ⟨⟨left, data⟩, ?_, rfl, hentries⟩
  cases left with
  | none => cases hp <;> simp [Mst.nodeData, hdata, Except.map]
  | some c => simp [Mst.nodeData, hdata, Except.map]

end Data

section Unload

variable {sub : NodeEntry Cid → Pairs Cid → Prop} {l : Pairs Cid}

-- An entry as it is read from a block.
def NodeEntry.unload : NodeEntry Cid → NodeEntry Cid
  | value k v _ => value k v false
  | child (some c) _ _ => link c
  | e => e

theorem NodeEntry.unload_child (he : e.isChild) (hc : e.childCID?.isSome) :
    ∃ c, e.unload = link c ∧ e.childCID? = some c := by
  cases e with
  | value => cases he
  | link c => exact ⟨c, rfl, rfl⟩
  | child cc n d =>
    cases cc with
    | none => cases hc
    | some c => exact ⟨c, rfl, rfl⟩

theorem sameData_unload (hc : e.isChild → e.childCID?.isSome) : SameData e e.unload := by
  cases e with
  | value => exact ⟨rfl, rfl⟩
  | link c => exact ⟨rfl, rfl, rfl⟩
  | child cc n d =>
    have ⟨c, he, hcid⟩ := unload_child rfl (hc rfl)
    rw [he]
    exact ⟨rfl, rfl, hcid⟩

section

variable (hl : Layer H sub h es l)

include hl

theorem Layer.plain (hc : ∀ e ∈ es, e.isChild → e.childCID?.isSome) :
    ∃ (left : Option Cid) (es' : List (NodeEntry Cid)),
      es.map unload = left.toList.map link ++ es' ∧ Plain es' := by
  induction hl with
  | nil => exact ⟨none, [], rfl, .nil⟩
  | @last e l he _ =>
    have ⟨c, heq, _⟩ := unload_child he (hc e (by simp) he)
    exact ⟨some c, [], by simp [heq], .nil⟩
  | @value k v d es l hk _ _ ih =>
    have ⟨left, es', hes, hp⟩ := ih fun e hm => hc e (mem_cons_of_mem _ hm)
    cases left with
    | none => exact ⟨none, _, by rw [map_cons, hes]; rfl, .value hk hp⟩
    | some c => exact ⟨none, _, by rw [map_cons, hes]; rfl, .link hk hp⟩
  | @child e l₁ k v d es l₂ he _ hk _ _ ih =>
    have ⟨c, heq, _⟩ := unload_child he (hc e (by simp) he)
    have ⟨left, es', hes, hp⟩ := ih fun e hm => hc e (by simp [hm])
    cases left with
    | none => exact ⟨some c, _, by rw [map_cons, map_cons, hes, heq]; rfl, .value hk hp⟩
    | some c' => exact ⟨some c, _, by rw [map_cons, map_cons, hes, heq]; rfl, .link hk hp⟩

-- The entries of a node whose children have their CIDs are read back from its block.
theorem Layer.node_nodeData (hc : ∀ e ∈ es, e.isChild → e.childCID?.isSome) (c : Option Cid) :
    ∃ d, nodeData es = .ok d ∧ d.node H c =
      .ok ⟨es.map unload, keyHeight H (es.map unload), c.isNone, c, false⟩ := by
  have ⟨left, es', hes, hp⟩ := hl.plain hc
  have ⟨d, hd, hleft, hentries⟩ := hp.nodeData left
  have hdata : nodeData es = nodeData (es.map unload) := by
    refine nodeData_congr (forall₂_map_right_iff.mpr ?_)
    exact forall₂_same.mpr fun e hm => sameData_unload (hc e hm)
  refine ⟨d, by rw [hdata, hes, hd], ?_⟩
  simp only [NodeData.node, hentries, hleft, hes, Except.map]

theorem Layer.sub_of_mem (hm : e ∈ es) (he : e.isChild) : ∃ l, sub e l := by
  induction hl with
  | nil => cases hm
  | value _ _ _ ih =>
    rcases mem_cons.mp hm with rfl | hm
    · cases he
    · exact ih hm
  | last _ hs => exact ⟨_, mem_singleton.mp hm ▸ hs⟩
  | child _ hs _ _ _ ih =>
    rcases mem_cons.mp hm with rfl | hm
    · exact ⟨_, hs⟩
    · rcases mem_cons.mp hm with rfl | hm
      · cases he
      · exact ih hm

end

end Unload

section Linked

-- The pairs a link stands for.
def LinkTo (codec : Codec Cid Block) (heightForKey : Key → ℕ) (h : ℕ) (e : NodeEntry Cid)
    (l : Pairs Cid) : Prop :=
  l ≠ [] ∧ (∀ p ∈ l, p.1 ≠ []) ∧ ∃ c, e = link c ∧ cidBelow codec heightForKey h l = .ok c

structure Linked (codec : Codec Cid Block) (heightForKey : Key → ℕ) (h : ℕ)
    (es : List (NodeEntry Cid)) (l : Pairs Cid) : Prop where
  layer : Layer heightForKey (LinkTo codec heightForKey h) h es l
  clean : ∀ k v d, value k v d ∈ es → d = false

theorem linkTo_of_linkBelow (hk : ∀ p ∈ l, p.1 ≠ [])
    (hl : linkBelow (cidBelow codec H h) l = .ok es) :
    (l = [] ∧ es = []) ∨ ∃ c, es = [link c] ∧ LinkTo codec H h (link c) l := by
  cases l with
  | nil => exact .inl ⟨rfl, by simpa [linkBelow] using hl.symm⟩
  | cons p l =>
    rw [linkBelow_of_ne_nil (by simp)] at hl
    cases hc : cidBelow codec H h (p :: l) with
    | error => simp [hc, Except.map] at hl
    | ok c =>
      refine .inr ⟨c, ?_, by simp, hk, c, rfl, hc⟩
      simpa [hc, Except.map] using hl.symm

theorem linked_of_linkEntries (hb : ∀ p ∈ below, p.1 ≠ []) (hk : ∀ p ∈ l, p.1 ≠ [])
    (hl : linkEntries H (cidBelow codec H h) h below l = .ok es) :
    Linked codec H h es (below ++ l) := by
  induction l generalizing below es with
  | nil =>
    rw [append_nil]
    rcases linkTo_of_linkBelow hb hl with ⟨rfl, rfl⟩ | ⟨c, rfl, hlink⟩
    · exact ⟨.nil, by simp⟩
    · exact ⟨.last rfl hlink, by simp⟩
  | cons p l ih =>
    obtain ⟨hp, hk⟩ := forall_mem_cons.mp hk
    rw [linkEntries] at hl
    split_ifs at hl with hh
    · obtain ⟨first, hfirst, hrest⟩ := bind_eq_ok.mp hl
      obtain ⟨es', hes', heq⟩ := bind_eq_ok.mp hrest
      have heq := pure_eq_ok.mp heq
      subst heq
      obtain ⟨hlayer, hclean⟩ := ih (by simp) hk hes'
      rcases linkTo_of_linkBelow hb hfirst with ⟨rfl, rfl⟩ | ⟨c, rfl, hlink⟩
      · exact ⟨.value hp hh hlayer, by simpa using hclean⟩
      · exact ⟨.child rfl hlink hp hh hlayer, by simpa using hclean⟩
    · have hlinked := ih (forall_mem_append.mpr ⟨hb, by simpa using hp⟩) hk hl
      rwa [append_assoc] at hlinked

theorem linked_of_linksAt (hk : ∀ p ∈ l, p.1 ≠ []) (hl : linksAt codec H h l = .ok es) :
    Linked codec H h es l :=
  linked_of_linkEntries (by simp) hk hl

theorem Linked.map_unload (hl : Linked codec H h es l) : es.map unload = es := by
  have ⟨hlayer, hclean⟩ := hl
  clear hl
  induction hlayer with
  | nil => rfl
  | last _ hlink =>
    have ⟨_, _, c, he, _⟩ := hlink
    rw [he]
    rfl
  | @value k v d es l _ _ _ ih =>
    have hd := hclean k v d mem_cons_self
    rw [map_cons, ih fun k v d hm => hclean k v d (mem_cons_of_mem _ hm), hd]
    rfl
  | @child e l₁ k v d es l₂ _ hlink _ _ _ ih =>
    have ⟨_, _, c, he, _⟩ := hlink
    have hd := hclean k v d (by simp)
    rw [map_cons, map_cons, ih fun k v d hm => hclean k v d (by simp [hm]), he, hd]
    rfl

-- A block of the entries reads back as the entries.
theorem Linked.node (hl : Linked codec H h es l) (c : Option Cid) : ∃ d, nodeData es = .ok d ∧
      d.node H c = .ok ⟨es, keyHeight H es, c.isNone, c, false⟩ := by
  have hcid : ∀ e ∈ es, e.isChild → e.childCID?.isSome := by
    intro e hm he
    have ⟨_, _, _, c, heq, _⟩ := hl.layer.sub_of_mem hm he
    rw [heq]
    rfl
  have ⟨d, hd, hnode⟩ := hl.layer.node_nodeData hcid c
  rw [hl.map_unload] at hnode
  exact ⟨d, hd, hnode⟩

end Linked

-- Reading what was written gives it back, and blocks are told apart by their CIDs.
structure Codec.Lawful (codec : Codec Cid Block) : Prop where
  unmarshal_marshal {d b} : codec.marshalCBOR d = some b → codec.unmarshalCBOR b = some d
  sum_injective : Function.Injective codec.sum

section Named

variable {codec : Codec Cid Block}

theorem block_of_cidAt (hk : ∀ p ∈ l, p.1 ≠ []) (hc : cidAt codec H h l = .ok c) :
    ∃ es d b, Linked codec H h es l ∧ linksAt codec H h l = .ok es ∧ nodeData es = .ok d ∧
      d.node H (some c) = .ok ⟨es, keyHeight H es, false, some c, false⟩ ∧
        codec.marshalCBOR d = some b ∧ codec.sum b = c := by
  rw [cidAt_eq] at hc
  have ⟨es, hes, hcid⟩ := bind_eq_ok.mp hc
  have hlinked := linked_of_linksAt hk hes
  have ⟨d, hd, hnode⟩ := hlinked.node (some c)
  rw [entriesCID, hd] at hcid
  cases hb : codec.marshalCBOR d with
  | none => simp [bytes, hb, bind, Except.bind, Except.map] at hcid
  | some b =>
    refine ⟨es, d, b, hlinked, hes, hd, hnode, hb, ?_⟩
    simpa [bytes, hb, bind, Except.bind, Except.map] using hcid

theorem Layer.unique (hsub : ∀ e l l', sub e l → sub' e l' → l = l')
    (hl : Layer H sub h es l) (hl' : Layer H sub' h' es l') : l = l' := by
  induction hl generalizing l' with
  | nil => cases hl'; rfl
  | value _ _ _ ih =>
    cases hl' with
    | value _ _ hl' => rw [ih hl']
    | last he => simp [isChild] at he
    | child he => simp [isChild] at he
  | last he hs =>
    cases hl' with
    | value => simp [isChild] at he
    | last _ hs' => exact hsub _ _ _ hs hs'
  | child he hs _ _ _ ih =>
    cases hl' with
    | value => simp [isChild] at he
    | child _ hs' _ _ hl' => rw [hsub _ _ _ hs hs', ih hl']

theorem block_unique (hlaw : codec.Lawful) (hb : codec.marshalCBOR d = some b)
    (hb' : codec.marshalCBOR d' = some b') (hsum : codec.sum b = codec.sum b') : d = d' := by
  have hbb := hlaw.sum_injective hsum
  subst hbb
  exact Option.some.inj ((hlaw.unmarshal_marshal hb).symm.trans (hlaw.unmarshal_marshal hb'))

-- The pairs a CID stands for are the only ones.
theorem cidAt_injective (hlaw : codec.Lawful) (hk : ∀ p ∈ l, p.1 ≠ []) (hk' : ∀ p ∈ l', p.1 ≠ [])
    (hc : cidAt codec H h l = .ok c) (hc' : cidAt codec H h' l' = .ok c) :
    l = l' := by
  induction h using Nat.strongRecOn generalizing h' l l' c with
  | ind h ih =>
    have ⟨es, d, b, hlinked, _, _, hnode, hb, hsum⟩ := block_of_cidAt hk hc
    have ⟨es', d', b', hlinked', _, _, hnode', hb', hsum'⟩ := block_of_cidAt hk' hc'
    have hd := block_unique hlaw hb hb' (hsum.trans hsum'.symm)
    subst hd
    have hes := (Node.mk.inj (Except.ok.inj (hnode.symm.trans hnode'))).left
    subst hes
    refine hlinked.layer.unique (fun e l l' hlink hlink' => ?_) hlinked'.layer
    have ⟨_, hne, cc, he, hcid⟩ := hlink
    have ⟨_, hne', cc', he', hcid'⟩ := hlink'
    cases he.symm.trans he'
    cases h with
    | zero => cases hcid
    | succ h =>
      cases h' with
      | zero => cases hcid'
      | succ h' => exact ih h (Nat.lt_succ_self h) hne hne' hcid hcid'

theorem height_le_of_cidAt (hk : ∀ p ∈ l, p.1 ≠ []) (hc : cidAt codec H h l = .ok c) :
    ∀ p ∈ l, H p.1 ≤ h := by
  induction h generalizing l c with
  | zero =>
    have ⟨es, _, _, hlinked, _⟩ := block_of_cidAt hk hc
    refine hlinked.layer.height_le fun e l ⟨_, _, _, _, hcid⟩ => ?_
    cases hcid
  | succ h ih =>
    have ⟨es, _, _, hlinked, _⟩ := block_of_cidAt hk hc
    refine hlinked.layer.height_le fun e l ⟨_, hne, cc, _, hcid⟩ p hp => ?_
    exact Nat.lt_succ_of_le (ih hne hcid p hp)

theorem Layer.height_of_value (hl : Layer H sub h es l) (hm : NodeEntry.value k v d ∈ es) :
    H k = h := by
  induction hl with
  | nil => simp at hm
  | value _ hh _ ih =>
    rcases mem_cons.mp hm with heq | hm
    · cases heq
      exact hh
    · exact ih hm
  | @last e _ he =>
    rw [←mem_singleton.mp hm] at he
    simp [isChild] at he
  | @child e _ _ _ _ _ _ he _ _ hh _ ih =>
    simp only [mem_cons] at hm
    rcases hm with rfl | heq | hm
    · simp [isChild] at he
    case inr.inl =>
      cases heq
      exact hh
    case inr.inr => exact ih hm

theorem Layer.exists_value (hsub : ∀ e l, sub e l → ∀ p ∈ l, H p.1 < h) (hl : Layer H sub h es l)
    (hp : p ∈ l) (hh : H p.1 = h) : ∃ d, NodeEntry.value p.1 p.2 d ∈ es := by
  have hchild {e} {l} (hs : sub e l) : p ∉ l := fun hp =>
    (hsub e l hs p hp).ne hh
  induction hl with
  | nil => simp at hp
  | @value k v d _ _ _ _ _ ih =>
    rcases mem_cons.mp hp with rfl | hp
    · exact ⟨d, mem_cons_self⟩
    · have ⟨d', hm⟩ := ih hp
      exact ⟨d', mem_cons_of_mem _ hm⟩
  | last _ hs => exact absurd hp (hchild hs)
  | @child _ _ _ _ d _ _ _ hs _ _ _ ih =>
    rcases mem_cons.mp ((mem_append.mp hp).resolve_left (hchild hs)) with rfl | hp
    · exact ⟨d, by simp⟩
    · have ⟨d', hm⟩ := ih hp
      exact ⟨d', by simp [hm]⟩

theorem LinkTo.height_lt (hl : LinkTo codec H h e l) : ∀ p ∈ l, H p.1 < h := by
  have ⟨_, hk, c, _, hc⟩ := hl
  cases h with
  | zero => cases hc
  | succ h => exact fun p hp => Nat.lt_succ_of_le (height_le_of_cidAt hk hc p hp)

-- A root that is higher than the highest key has another CID.
theorem height_unique (hlaw : codec.Lawful) (hk : ∀ p ∈ l, p.1 ≠ []) (hl : l ≠ [])
    (hc : cidAt codec H (topHeight H l) l = .ok c)
    (hc' : cidAt codec H h l = .ok c) : h = topHeight H l := by
  have ⟨es, d, b, hlinked, _, _, hnode, hb, hsum⟩ := block_of_cidAt hk hc
  have ⟨es', d', b', hlinked', _, _, hnode', hb', hsum'⟩ := block_of_cidAt hk hc'
  have hd := block_unique hlaw hb hb' (hsum.trans hsum'.symm)
  subst hd
  have hes := (Node.mk.inj (Except.ok.inj (hnode.symm.trans hnode'))).left
  subst hes
  have ⟨p, hp, hh⟩ := exists_topHeight H hl
  have ⟨d, hm⟩ := hlinked.layer.exists_value (fun _ _ hlink => hlink.height_lt) hp hh
  exact (hlinked'.layer.height_of_value hm).symm.trans (hlinked.layer.height_of_value hm)

end Named

section Partial

variable {codec : Codec Cid Block} {H : Key → ℕ}

noncomputable def keysOf (codec : Codec Cid Block) (heightForKey : Key → ℕ) (c : Cid) : List Key :=
  open Classical in
  if h : ∃ l : Pairs Cid, (∀ p ∈ l, p.1 ≠ []) ∧ ∃ h, cidAt codec heightForKey h l = .ok c then
    h.choose.map Prod.fst
  else []

-- Nodes may be missing, and are then known by their CIDs.
noncomputable def Naming.linked (hlaw : codec.Lawful) (heightForKey : Key → ℕ) : Naming Cid where
  heightForKey := heightForKey
  names h c l := cidAt codec heightForKey h l = .ok c
  links h c l := cidAt codec heightForKey h l = .ok c ∧ ∀ p ∈ l, p.1 ≠ []
  keys := keysOf codec heightForKey
  names_of_links := And.left
  keys_of_links {h c l} := by
    rintro ⟨hc, hk⟩
    have hex : ∃ l : Pairs Cid, (∀ p ∈ l, p.1 ≠ []) ∧ ∃ h, cidAt codec heightForKey h l = .ok c :=
      ⟨l, hk, h, hc⟩
    have ⟨hk', h', hc'⟩ := hex.choose_spec
    rw [keysOf, dif_pos hex, cidAt_injective hlaw hk' hk hc' hc]
  height_of_links {h c l} := fun ⟨hc, hk⟩ => height_le_of_cidAt hk hc

theorem Naming.linked_sound (hlaw : codec.Lawful) :
    ∀ h c l, (linked hlaw H).names h c l ↔ cidAt codec H h l = .ok c :=
  fun _ _ _ => Iff.rfl

end Partial

end Atproto.Mst
