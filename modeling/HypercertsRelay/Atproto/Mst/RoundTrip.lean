import HypercertsRelay.Atproto.Repo.Accept

-- A tree is written and loaded back, from all of its blocks or from some of them.
namespace Atproto.Mst

open List
open NodeEntry Naming Node NodeData

variable {codec : Codec Cid Block} {heightForKey : Key → ℕ} {h : ℕ} {l : Pairs Cid}

section Restrict

variable (codec : Codec Cid Block) (has : Cid → Bool)

mutual

-- What there is of a complete tree when some blocks are in the store: the nodes reached through
-- these, and the CIDs of the missing children.
def Node.restrict : Node Cid → Node Cid
  | ⟨es, h, d, c, stub⟩ =>
    ⟨restrictEntries es, h, false,
      (Node.writeBlocks codec ⟨es, h, d, c, stub⟩).result.toOption, false⟩

def restrictEntries : List (NodeEntry Cid) → List (NodeEntry Cid)
  | [] => []
  | value k v _ :: es => value k v false :: restrictEntries es
  | link c :: es => link c :: restrictEntries es
  | child _ n _ :: es =>
    (match (n.writeBlocks codec).result with
      | .ok c => if has c then child (some c) n.restrict false else link c
      | .error _ => child none n.restrict false) :: restrictEntries es

end

mutual

-- Every node below this one has its block in the store.
def Node.stored : Node Cid → Bool
  | ⟨es, _, _, _, _⟩ => storedEntries es

def storedEntries : List (NodeEntry Cid) → Bool
  | [] => true
  | value _ _ _ :: es => storedEntries es
  | link _ :: _ => false
  | child _ n _ :: es => (n.writeBlocks codec).result.toOption.any has && n.stored && storedEntries es

end

end Restrict

mutual

-- The keys, values and nodes of a tree with their heights, without marks and CIDs.
def Node.shape : Node Cid → Node Cid
  | ⟨es, h, _, _, _⟩ => ⟨shapeEntries es, h, false, none, false⟩

def shapeEntries : List (NodeEntry Cid) → List (NodeEntry Cid)
  | [] => []
  | value k v _ :: es => value k v false :: shapeEntries es
  | link c :: es => link c :: shapeEntries es
  | child _ n _ :: es => child none n.shape false :: shapeEntries es

end

theorem Node.shape_height (n : Node Cid) (i : ℤ) :
    { n with height := i }.shape = { n.shape with height := i } := by
  cases n
  rfl

theorem restrict_eq (hr : (whole codec H).Rep h n l) (hc : cidAt codec H h l = .ok c) :
    n.restrict codec has = ⟨restrictEntries codec has n.entries, h, false, some c, false⟩ := by
  have hres := (hr.writeBlocks whole_sound).result.trans hc
  have hh := hr.height
  have ⟨es, i, d, c', stub⟩ := n
  rw [Node.restrict, hres]
  exact congrArg (Node.mk _ · _ _ _) hh

section Load

theorem whole_below (hb : (whole codec H).Below h e l) : ∃ h' c n d, h = h' + 1 ∧
    e = child c n d ∧ (whole codec H).Rep h' n l := by
  cases h with
  | zero => exact hb.elim
  | succ h =>
    cases e with
    | value => exact hb.elim
    | link => exact hb.right.elim
    | child c n d => exact ⟨h, c, n, d, rfl, rfl, hb.right.left⟩

theorem isSome_of_loadNodeFromStore
    (hn : loadNodeFromStore H codec bs depth c = some (.ok n)) : (bs c).isSome := by
  cases depth with
  | zero => cases hn
  | succ depth =>
    rw [loadNodeFromStore] at hn
    cases hb : bs c with
    | none => rw [hb] at hn; cases hn
    | some b => rfl

-- The entries of a node are loaded as far as their blocks are in the store.
theorem restrictEntries_eq {f : List (NodeEntry Cid) → List (NodeEntry Cid)} (hnil : f [] = [])
    (hvalue : ∀ k v es, f (value k v false :: es) = value k v false :: f es)
    (hchild : ∀ e₀ e e₂ l, (whole codec H).Below h e₀ l → LinkTo codec H h e l → Loads load e e₂ →
      ∃ e', (∀ es, f (e₂ :: es) = e' :: f es) ∧
        ∀ es, restrictEntries codec has (e₀ :: es) = e' :: restrictEntries codec has es)
    (hal : List.Forall₂ (Aligned ((whole codec H).Below h) (LinkTo codec H h)) es₀ es)
    (hclean : ∀ k v d, value k v d ∈ es → d = false) (hes : List.Forall₂ (Loads load) es es₂) :
    f es₂ = restrictEntries codec has es₀ := by
  induction hal generalizing es₂ with
  | nil =>
    cases hes
    exact hnil
  | @cons e₀ e es₀ es ha _ ih =>
    cases hes with
    | @cons _ e₂ _ es₂ he hes =>
      have htail := ih (fun k v d hm => hclean k v d (mem_cons_of_mem _ hm)) hes
      rcases ha with ⟨k, v, d, d', rfl, rfl⟩ | ⟨_, _, l, hb, hl⟩
      · have hd := hclean k v d' mem_cons_self
        subst hd
        cases he
        rw [hvalue, restrictEntries, htail]
      · have ⟨e', hf, hrestrict⟩ := hchild e₀ e e₂ l hb hl he
        rw [hf, hrestrict, htail]

theorem keyHeight_eq (hl : Linked codec H h es l) (hp : p ∈ l)
    (hh : H p.1 = h) : keyHeight H es = h := by
  have ⟨d, hm⟩ := hl.layer.exists_value (fun _ _ hlink => hlink.height_lt) hp hh
  rcases keyHeight_of_layer hl.layer with ⟨heq, _⟩ | ⟨_, rfl | ⟨e, rfl, hs⟩⟩
  · exact heq
  · cases hm
  · have ⟨_, _, c, he, _⟩ := hs
    cases (mem_singleton.mp hm).trans he

variable (hlaw : codec.Lawful)

theorem loads_links (H : Key → ℕ) (hbs : Honest codec bs) (hd : h < depth + 1) :
    ∀ c l, LinkTo codec H h (link c) l → ∃ h', h = h' + 1 ∧
      LoadsNode codec (.linked hlaw H) bs h' l c (loadNodeFromStore H codec bs depth c) := by
  intro c l ⟨_, hk, c', heq, hc⟩
  cases heq
  cases h with
  | zero => cases hc
  | succ h => exact ⟨h, rfl, loadNodeFromStore_spec hlaw hbs hk hc (Nat.lt_of_succ_lt_succ hd)⟩

include hlaw

theorem loadNodeFromStore_entries (hbs : Honest codec bs) (hk : ∀ p ∈ l, p.1 ≠ [])
    (hc : cidAt codec H h l = .ok c) (hd : h < depth + 1)
    (hn : loadNodeFromStore H codec bs (depth + 1) c = some (.ok n)) :
    ∃ es es₂, Linked codec H h es l ∧
      List.Forall₂ (Loads (loadNodeFromStore H codec bs depth)) es es₂ ∧
      n = ⟨es₂, n.height, false, some c, false⟩ ∧ (l = [] → n.height = -1) ∧
      ((∃ p ∈ l, H p.1 = h) → n.height = h) := by
  obtain ⟨es, d, b, hlinked, _, _, hnode, hb, hsum⟩ := block_of_cidAt hk hc
  have hlinks := loads_links hlaw H hbs hd
  obtain ⟨es₂, height, hch, hes, hheight⟩ := hlinked.loadChildren hlaw hlinks
  rw [loadNodeFromStore] at hn
  cases hget : bs c with
  | none =>
    rw [hget] at hn
    cases hn
  | some b' =>
    have hbb : b' = b := hlaw.sum_injective ((hbs c b' hget).trans hsum.symm)
    subst hbb
    simp only [hget, hlaw.unmarshal_marshal hb, hnode, hch] at hn
    cases hn
    refine ⟨es, es₂, hlinked, hes, rfl, fun hnil => ?_, fun htop => ?_⟩
    · exact (hheight.resolve_left fun hne => hne.right hnil).left
    obtain ⟨p, hp, hh⟩ := htop
    have hknown : (h : ℤ) ≠ -1 := by omega
    obtain ⟨_, heq, _⟩ := loadChildren_known hknown (hlinked.loads hlaw hlinks)
    rw [keyHeight_eq hlinked hp hh, heq] at hch
    cases hch
    rfl

-- What is loaded for a node of a complete tree, with the heights put right.
theorem loadNodeFromStore_restrict (hbs : Honest codec bs)
    (hr : (whole codec H).Rep h n₀ l) (hk : ∀ p ∈ l, p.1 ≠ [])
    (hc : cidAt codec H h l = .ok c) (hd : h < depth)
    (hn : loadNodeFromStore H codec bs depth c = some (.ok n)) :
    n.ensureHeights h = n₀.restrict codec fun c => (bs c).isSome := by
  induction depth generalizing h n₀ n l c with
  | zero => exact absurd hd (Nat.not_lt_zero _)
  | succ depth ih =>
    have ⟨es, es₂, hlinked, hes, hnode, _, _⟩ := loadNodeFromStore_entries hlaw hbs hk hc hd hn
    have hal := hr.align hlinked
    rw [hnode, restrict_eq hr hc]
    cases h with
    | zero =>
      refine congrArg (mk · _ _ _ _) ?_
      exact restrictEntries_eq (f := id) rfl (fun _ _ _ => rfl) (fun _ _ _ _ => False.elim)
        hal hlinked.clean hes
    | succ h =>
      have hd := Nat.lt_of_succ_lt_succ hd
      have hpos : ¬((h + 1 : ℕ) : ℤ) ≤ 0 ∧ ((h + 1 : ℕ) : ℤ) - 1 = h := by omega
      rw [ensureHeights, if_neg hpos.left, hpos.right]
      refine congrArg (mk · _ _ _ _) (restrictEntries_eq rfl (fun _ _ _ => rfl)
        (fun e₀ e e₂ l hb ⟨_, hk, c, heq, hc⟩ he => ?_) hal hlinked.clean hes)
      subst heq
      obtain ⟨_, cc, n₁, d, hh, rfl, hr⟩ := whole_below hb
      cases hh
      have hres := (hr.writeBlocks whole_sound).result.trans hc
      have hspec := loadNodeFromStore_spec hlaw hbs hk hc hd
      simp only [restrictEntries, hres]
      cases he with
      | missing hm =>
        rw [hm] at hspec
        cases hspec with
        | missing hnone => exact ⟨link c, fun _ => rfl, fun _ => by simp [hnone]⟩
      | found hf =>
        rw [hf] at hspec
        cases hspec with
        | found hloose _ =>
          refine ⟨_, fun _ => rfl, fun _ => ?_⟩
          rw [hloose.height_eq, ih hr hk hc hd hf, if_pos (isSome_of_loadNodeFromStore hf)]

end Load

section Whole

mutual

theorem Node.shape_restrict :
    ∀ n : Node Cid, n.stored codec has → (n.restrict codec has).shape = n.shape
  | ⟨es, h, d, c, stub⟩, hs => by rw [restrict, shape, shape, shapeEntries_restrict es hs]

theorem shapeEntries_restrict : ∀ es : List (NodeEntry Cid), storedEntries codec has es →
    shapeEntries (restrictEntries codec has es) = shapeEntries es
  | [], _ => rfl
  | value k v d :: es, hs => by
    rw [restrictEntries, shapeEntries, shapeEntries, shapeEntries_restrict es hs]
  | link c :: es, hs => by cases hs
  | child c n d :: es, hs => by
    simp only [storedEntries, Bool.and_eq_true] at hs
    have ⟨⟨hc, hn⟩, hes⟩ := hs
    cases hres : (n.writeBlocks codec).result with
    | error => rw [hres] at hc; cases hc
    | ok c' =>
      rw [hres] at hc
      have hc : has c' = true := hc
      rw [restrictEntries, hres]
      simp only [hc, if_true, shapeEntries, n.shape_restrict hn, shapeEntries_restrict es hes]

end

mutual

-- No node of the tree was written before.
def Node.isNew : Node Cid → Bool
  | ⟨es, _, d, _, _⟩ => d && newEntries es

def newEntries : List (NodeEntry Cid) → Bool
  | [] => true
  | child _ n _ :: es => n.isNew && newEntries es
  | _ :: es => newEntries es

end

theorem Node.isNew_iff (n : Node Cid) : n.isNew ↔ n.dirty ∧ newEntries n.entries := by
  cases n
  simp [isNew]

theorem isNew_of_mem (hnew : newEntries es) (hm : child cc n d ∈ es) : n.isNew := by
  induction es with
  | nil => cases hm
  | cons e es ih =>
    cases e with
    | value => exact ih hnew (by simpa using hm)
    | link => exact ih hnew (by simpa using hm)
    | child =>
      simp only [newEntries, Bool.and_eq_true] at hnew
      rcases mem_cons.mp hm with heq | hm
      · cases heq
        exact hnew.left
      · exact ih hnew.right hm

theorem storedEntries_of_children (hchild : ∀ h' cc n₁ d l c, h = h' + 1 → child cc n₁ d ∈ es₀ →
      (whole codec H).Rep h' n₁ l → (∀ p ∈ l, p.1 ≠ []) →
      cidAt codec H h' l = .ok c → has c ∧ n₁.stored codec has)
    (hal : List.Forall₂ (Aligned ((whole codec H).Below h)
      (LinkTo codec H h)) es₀ es) : storedEntries codec has es₀ := by
  induction hal with
  | nil => rfl
  | @cons e₀ e es₀ es ha _ ih =>
    have htail := ih fun h' cc n₁ d l c hh hm => hchild h' cc n₁ d l c hh (mem_cons_of_mem _ hm)
    rcases ha with ⟨k, v, d, d', rfl, rfl⟩ | ⟨_, _, l, hb, hl⟩
    · exact htail
    have ⟨_, hk, c, _, hc⟩ := hl
    obtain ⟨h', cc, n₁, d, rfl, rfl, hr⟩ := whole_below hb
    have hres := (hr.writeBlocks whole_sound).result.trans hc
    have ⟨hhas, hstored⟩ := hchild h' cc n₁ d l c rfl mem_cons_self hr hk hc
    have hany : (n₁.writeBlocks codec).result.toOption.any has := by
      rw [hres]
      exact hhas
    simp only [storedEntries, hany, hstored, htail, Bool.and_self]

-- A tree that was written at once is in the store with all its nodes.
theorem stored_of_isNew (hr : (whole codec H).Rep h n l) (hk : ∀ p ∈ l, p.1 ≠ [])
    (hc : cidAt codec H h l = .ok c) (hnew : n.isNew) (hst : Stored codec bs n) :
    bs c ≠ none ∧ n.stored codec fun c => (bs c).isSome := by
  induction h using Nat.strongRecOn generalizing n l c with
  | ind h ih =>
    have ⟨hd, hnew⟩ := n.isNew_iff.mp hnew
    have hres := (hr.writeBlocks whole_sound).result.trans hc
    have ⟨es, _, _, hlinked, _⟩ := block_of_cidAt hk hc
    have hal := hr.align hlinked
    refine ⟨hst.root hr.stub hd hres, ?_⟩
    have hentries : storedEntries codec (fun c => (bs c).isSome) n.entries := by
      refine storedEntries_of_children (fun h' cc n₁ d l₁ c₁ hh hm hr₁ hk₁ hc₁ => ?_) hal
      subst hh
      have hnew₁ := isNew_of_mem hnew hm
      have hst₁ := hst.child hr.stub hd hres hm (n₁.isNew_iff.mp hnew₁).left
      have ⟨hne, hs⟩ := ih h' (Nat.lt_succ_self h') hr₁ hk₁ hc₁ hnew₁ hst₁
      exact ⟨Option.isSome_iff_ne_none.mpr hne, hs⟩
    cases n
    exact hentries

end Whole

section Node

-- The key that the next entry is compressed against.
def lastKey (prevKey : Key) (data : List (EntryData Cid)) : Key :=
  data.foldl (fun key e => key.take e.prefixLen.toNat ++ e.keySuffix) prevKey

-- Some entry shares more with the key before it than that key has, or less than nothing.
def OutOfRange (prevKey : Key) (data : List (EntryData Cid)) : Prop :=
  ∃ pre e post, data = pre ++ e :: post ∧
    (e.prefixLen < 0 ∨ ((lastKey prevKey pre).length : ℤ) < e.prefixLen)

theorem nodeEntries_of_outOfRange
    (h : OutOfRange prevKey data) : nodeEntries prevKey data = .error .invalidTree := by
  have ⟨pre, e, post, hdata, hout⟩ := h
  subst hdata
  clear h
  induction pre generalizing prevKey with
  | nil => exact if_pos hout
  | cons a pre ih =>
    rw [cons_append, nodeEntries]
    split_ifs
    · rfl
    · have hrest : nodeEntries (prevKey.take a.prefixLen.toNat ++ a.keySuffix)
          (pre ++ e :: post) = .error .invalidTree := ih hout
      simp only [hrest, Except.map]

end Node

section Tree

variable {t : Tree Cid}

theorem honest_of_written
    (hbs : ∀ c b, bs c = some b → (c, b) ∈ (t.writeDiffBlocks codec).blocks) : Honest codec bs :=
  fun c b hb => t.root.writeBlocks_sum codec (c, b) (hbs c b hb)

theorem loadTreeFromStore_restrict (hlaw : codec.Lawful) (ht : t.At codec H h l m)
    (hh : l = [] ∨ topHeight H l = h) (hc : cidAt codec H h l = .ok root)
    (hbs : Honest codec bs) (hroot : bs root ≠ none) (hd : h < depth) :
    Tree.loadTreeFromStore codec H bs depth root = some (.ok
      ⟨{ t.root.restrict codec (fun c => (bs c).isSome) with
        height := if l = [] then -1 else h }⟩) := by
  have hk : ∀ p ∈ l, p.1 ≠ [] := fun p hp => ne_nil_of_isValidKey (ht.valid p hp)
  have hspec := loadNodeFromStore_spec hlaw hbs hk hc hd
  generalize hload : loadNodeFromStore H codec bs depth root = r at hspec
  cases hspec with
  | missing hnone => exact absurd hnone hroot
  | @found n _ _ =>
    rw [Tree.loadTreeFromStore, hload]
    refine congrArg (fun n => some (Except.ok (Tree.mk n))) ?_
    have hrestrict := loadNodeFromStore_restrict hlaw hbs ht.rep hk hc hd hload
    cases depth with
    | zero => exact absurd hd (Nat.not_lt_zero _)
    | succ depth =>
      obtain ⟨es, es₂, hlinked, hes, hn, hnil, htop⟩ :=
        loadNodeFromStore_entries hlaw hbs hk hc hd hload
      by_cases hl : l = []
      · -- Nothing tells the height of a root without entries.
        subst hl
        have hes' : es = [] := hlinked.layer.eq_nil fun e l hlink => hlink.left
        subst hes'
        cases hes
        rw [hnil rfl] at hn ⊢
        rw [if_pos rfl, ←hrestrict, hn]
        simp [ensureHeights, ensureEntryHeights]
      · have hheight : n.height = h := by
          have htop' := hh.resolve_left hl
          refine htop ?_
          rw [←htop']
          exact exists_topHeight H hl
        rw [if_neg hl, hheight, hrestrict, restrict_eq ht.rep hc]

-- A canonical tree and what is loaded from its blocks. Only one without keys loses its height.
theorem loadTreeFromStore_roundTrip (hlaw : codec.Lawful) (ht : t.At codec heightForKey h l m)
    (hh : t.verify heightForKey = .ok ()) (hres : (t.writeDiffBlocks codec).result = .ok root) :
    (∀ bs, (∀ c b, bs c = some b → (c, b) ∈ (t.writeDiffBlocks codec).blocks) → Honest codec bs) ∧
    (∀ bs depth, Honest codec bs → bs root ≠ none → h < depth →
      ∃ t', Tree.loadTreeFromStore codec heightForKey bs depth root = some (.ok t') ∧
        t'.root = { t.root.restrict codec (fun c => (bs c).isSome) with
          height := if l = [] then -1 else h } ∧
        (t'.rootCID codec).1 = (t.rootCID codec).1 ∧
        (t.root.stored codec (fun c => (bs c).isSome) →
          t'.root.shape = { t.root.shape with height := if l = [] then -1 else h })) ∧
    (∀ bs, t.root.isNew → Stored codec bs t.root →
      bs root ≠ none ∧ t.root.stored codec fun c => (bs c).isSome) ∧
    (∀ h n l c, (whole codec heightForKey).Rep h n l →
      (∀ e ∈ n.entries, e.isChild → e.childCID?.isSome) →
      ∃ d, nodeData n.entries = .ok d ∧ d.node heightForKey c =
        .ok ⟨n.entries.map unload, keyHeight heightForKey (n.entries.map unload), c.isNone, c,
          false⟩) ∧
    ∀ (d : NodeData Cid) c, OutOfRange [] d.entries →
      d.node heightForKey c = .error .invalidTree := by
  have hk : ∀ p ∈ l, p.1 ≠ [] := fun p hp => ne_nil_of_isValidKey (ht.valid p hp)
  have hc : cidAt codec heightForKey h l = .ok root :=
    (ht.rep.writeBlocks whole_sound).result.symm.trans hres
  have hh : l = [] ∨ topHeight heightForKey l = h := by
    rw [ht.verify] at hh
    by_contra hne
    rw [if_neg hne] at hh
    cases hh
  refine ⟨fun bs => honest_of_written, fun bs depth hbs hroot hd => ?_,
    fun bs => stored_of_isNew ht.rep hk hc, fun h n l c hr hcid => hr.layer.node_nodeData hcid c,
    fun d c hout => ?_⟩
  · refine ⟨_, loadTreeFromStore_restrict hlaw ht hh hc hbs hroot hd, rfl, ?_, fun hs => ?_⟩
    · rw [ht.rootCID.left, hc, restrict_eq ht.rep hc]
      rfl
    · rw [←shape_restrict t.root hs]
      exact shape_height _ _
  · rw [node, nodeEntries_of_outOfRange hout]
    rfl

variable [DecidableEq Cid]

theorem Tree.At.call (ht : t.At codec H h l m) (x : Call Cid) (hx : x.IsValid) :
    ∃ t' h' l', t.call codec H x = .ok t' ∧ t'.At codec H h' l' (x.apply m) := by
  rcases x with (⟨k, v⟩ | k | k) | _
  case perform.insert =>
    obtain ⟨_, _, heq, ht'⟩ := ht.insert hx v
    exact ⟨_, _, _, congrArg (Except.map Prod.fst) heq, ht'⟩
  case perform.remove =>
    obtain ⟨_, _, heq, ht'⟩ := ht.remove hx
    exact ⟨_, _, _, congrArg (Except.map Prod.fst) heq, ht'⟩
  case perform.get =>
    change isValidKey k at hx
    have heq : t.root.getCID k (H k) = .ok (m k) :=
      (Rooted.rep ht.rep).getCID_lists (fun _ _ _ => id) ht.lists
    exact ⟨t, h, l, by simp [Tree.call, Tree.perform, Tree.get, hx, heq, Except.map], ht⟩
  case rootCID => exact ⟨_, h, l, rfl, ht.rootCID.right⟩

theorem Tree.At.calls (ht : t.At codec H h l m) {calls : List (Call Cid)}
    (hv : ∀ x ∈ calls, x.IsValid) :
    ∃ t' h' l', calls.foldlM (Tree.call codec H) t = .ok t' ∧
      t'.At codec H h' l' (calls.foldl Call.apply m) := by
  induction calls generalizing t h l m with
  | nil => exact ⟨t, h, l, rfl, ht⟩
  | cons x calls ih =>
    obtain ⟨hx, hv⟩ := forall_mem_cons.mp hv
    obtain ⟨t₁, _, _, heq, ht₁⟩ := ht.call x hx
    rw [foldlM_cons, heq]
    exact ih ht₁ hv

-- Trees with the same CID hold the same, whatever calls led to them.
theorem rootCID_binding (hlaw : codec.Lawful) (H : Key → ℕ) (calls calls' : List (Call Cid))
    (hv : ∀ x ∈ calls ++ calls', x.IsValid) :
    ∃ t t', calls.foldlM (Tree.call codec H) .newEmptyTree = .ok t ∧
      calls'.foldlM (Tree.call codec H) .newEmptyTree = .ok t' ∧
      ∀ c, (t.rootCID codec).1 = .ok c → (t'.rootCID codec).1 = .ok c →
        calls.foldl Call.apply (fun _ => none) = calls'.foldl Call.apply fun _ => none := by
  obtain ⟨hv, hv'⟩ := forall_mem_append.mp hv
  obtain ⟨t, _, _, heq, ht⟩ := (@Tree.at_newEmptyTree _ _ codec H).calls hv
  obtain ⟨t', _, _, heq', ht'⟩ := (@Tree.at_newEmptyTree _ _ codec H).calls hv'
  refine ⟨t, t', heq, heq', fun c hc hc' => ?_⟩
  cases cidAt_injective hlaw (ne_nil_of_isValidKey <| ht.valid · ·)
    (ne_nil_of_isValidKey <| ht'.valid · ·)
    (ht.rootCID.left.symm.trans hc) (ht'.rootCID.left.symm.trans hc')
  ext k v
  rw [←ht.lists.mem_iff, ht'.lists.mem_iff]

end Tree

section Sample

open Repo Listing

def deepHeight (k : Key) : ℕ :=
  if k = [1] then 2 else 0

-- Two keys with a common prefix, and a node between them and the root that is just a pointer.
def deepCalls : List (Call ℕ) :=
  [.perform (.insert [2, 3] 6), .perform (.insert [1] 5), .perform (.insert [2, 4] 7)]

theorem deepCalls_isValid : ∀ x ∈ deepCalls, x.IsValid := by
  simp [deepCalls, Call.IsValid, isValidKey, Op.key]

-- The tree comes back from all its blocks, and with the same root from that of the root alone.
theorem loadTreeFromStore_roundTrip_sample : ∃ t root,
    deepCalls.foldlM (Tree.call numberedCodec deepHeight) .newEmptyTree = .ok t ∧
    (t.writeDiffBlocks numberedCodec).result = .ok root ∧
    (∃ depth t', Tree.loadTreeFromStore numberedCodec deepHeight
        (storeOf (t.writeDiffBlocks numberedCodec).blocks) depth root = some (.ok t') ∧
      t'.root.shape = t.root.shape) ∧
    ∃ depth t', Tree.loadTreeFromStore numberedCodec deepHeight
        (fun c => if c = root then storeOf (t.writeDiffBlocks numberedCodec).blocks c else none)
        depth root = some (.ok t') ∧
      (t'.rootCID numberedCodec).1 = (t.rootCID numberedCodec).1 := by
  obtain ⟨t, h, l, heq, ht⟩ := (@Tree.at_newEmptyTree _ _ numberedCodec deepHeight).calls
    deepCalls_isValid
  have heval : (deepCalls.foldlM (Tree.call numberedCodec deepHeight) .newEmptyTree).map
      (fun t => (t.verify deepHeight, t.root.isNew, (t.writeDiffBlocks numberedCodec).result.isOk)) =
      .ok (.ok (), true, true) := by decide +kernel
  rw [heq] at heval
  simp only [Except.map, Except.ok.injEq, Prod.mk.injEq] at heval
  obtain ⟨hverify, hisNew, hok⟩ := heval
  cases hres : (t.writeDiffBlocks numberedCodec).result with
  | error => rw [hres] at hok; cases hok
  | ok root =>
    have ⟨hpart, hload, hnew, _⟩ := loadTreeFromStore_roundTrip numberedCodec_lawful ht hverify hres
    have ⟨hroot, hstored⟩ := hnew _ hisNew (stored_storeOf numberedCodec_lawful _)
    have hl : l ≠ [] := ne_nil_of_mem ((ht.lists.mem_iff [1] 5).mpr rfl)
    have ⟨t₁, hok₁, _, _, hshape⟩ := hload _ (h + 1) (hpart _ fun _ _ => mem_of_storeOf) hroot
      (Nat.lt_succ_self h)
    have ⟨t₂, hok₂, _, hcid, _⟩ := hload (fun c => if c = root then _ else none) (h + 1)
      (hpart _ fun c b hb => mem_of_storeOf (Option.ite_none_right_eq_some.mp hb).right)
      (by rwa [if_pos rfl]) (Nat.lt_succ_self h)
    refine ⟨t, root, heq, hres, ⟨_, t₁, hok₁, ?_⟩, _, t₂, hok₂, hcid⟩
    rw [hshape hstored, if_neg hl, ←ht.rep.height]
    cases t.root
    rfl

theorem rootCID_binding_sample : ∃ t t' : Tree ℕ,
    (deepCalls ++ [Call.rootCID, .perform (.remove [2, 3])]).foldlM
      (Tree.call numberedCodec deepHeight) .newEmptyTree = .ok t ∧
    (deepCalls ++ [Call.perform (.remove [2, 4])]).foldlM (Tree.call numberedCodec deepHeight)
      .newEmptyTree = .ok t' ∧
    ∀ c, (t.rootCID numberedCodec).1 = .ok c → (t'.rootCID numberedCodec).1 ≠ .ok c := by
  obtain ⟨t, t', heq, heq', h⟩ := rootCID_binding numberedCodec_lawful deepHeight
    (deepCalls ++ [Call.rootCID, .perform (.remove [2, 3])])
    (deepCalls ++ [Call.perform (.remove [2, 4])])
    (by simp [deepCalls, Call.IsValid, isValidKey, Op.key])
  refine ⟨t, t', heq, heq', fun c hc hc' => ?_⟩
  simpa [deepCalls, Call.apply, Op.apply] using congrFun (h c hc hc') [2, 3]

-- A tree without keys is complete and canonical, and is loaded without a height.
theorem loadTreeFromStore_empty_height :
    ∃ (t t' : Tree ℕ) (root : ℕ), t = Tree.newEmptyTree ∧ t.verify sampleHeight = .ok () ∧
      t.At numberedCodec sampleHeight 0 [] (fun _ => none) ∧
      (t.writeDiffBlocks numberedCodec).result = .ok root ∧
      Tree.loadTreeFromStore numberedCodec sampleHeight
        (storeOf (t.writeDiffBlocks numberedCodec).blocks) 1 root = some (.ok t') ∧
      t'.root.height ≠ t.root.height :=
  ⟨Tree.newEmptyTree, ⟨[], -1, false, some (numberedCodec.sum ⟨none, []⟩), false⟩,
    numberedCodec.sum ⟨none, []⟩, rfl, rfl, Tree.at_newEmptyTree, rfl, rfl, by decide⟩

end Sample

end Atproto.Mst
