import HypercertsRelay.Atproto.Mst.Verified

-- What `Verify` accepts among the complete trees, and what the canonical form asks for.
namespace Atproto.Mst

open List
open NodeEntry Ascending Node
open Prod (fst)

variable {Cid : Type}

section Within

-- The node itself and the nodes below it.
inductive Node.Within (m : Node Cid) : Node Cid → Prop
  | self : Within m m
  | under : child c q d ∈ n.entries → Within m q → Within m n

def Node.Each (P : Node Cid → Prop) (n : Node Cid) : Prop :=
  ∀ m : Node Cid, m.Within n → P m

def NodeEntry.EachBelow (P : Node Cid → Prop) : NodeEntry Cid → Prop
  | child _ q _ => q.Each P
  | _ => True

theorem Node.each_iff {P : Node Cid → Prop} : n.Each P ↔ P n ∧ ∀ e ∈ n.entries, e.EachBelow P := by
  constructor
  case mp =>
    intro h
    refine ⟨h n .self, fun e he => ?_⟩
    cases e with
    | value | link => trivial
    | child => exact fun m hm => h m (.under he hm)
  case mpr =>
    intro ⟨hn, he⟩ m hm
    cases hm with
    | self => exact hn
    | under hq hm => exact he _ hq m hm

theorem Node.forall_of_children {P : Node Cid → Prop}
    (step : ∀ n, (∀ c q d, child c q d ∈ n.entries → P q) → P n) (n : Node Cid) : P n :=
  step n fun _ q _ _ => q.forall_of_children step
termination_by sizeOf n
decreasing_by
  have hlt := sizeOf_lt_of_mem ‹_›
  cases n
  simp_all
  omega

end Within

section Conditions

@[mk_iff]
structure Node.IsComplete (n : Node Cid) : Prop where
  stub : n.stub = false
  cid : n.cid.isSome
  dirty : n.dirty = false
  link : ∀ c, link c ∉ n.entries

def NodeEntry.NoSiblings (e e' : NodeEntry Cid) : Prop :=
  ¬(e.isChild ∧ e'.isChild)

section

variable (heightForKey : Key → ℕ)

def NodeEntry.Fits (h : ℤ) : NodeEntry Cid → Prop
  | value k _ _ => k ≠ [] → h = heightForKey k
  | link _ => True
  | child _ q _ => q.height = h - 1 ∧ q.entries ≠ []

@[mk_iff]
structure Node.IsPlaced (n : Node Cid) : Prop where
  entries : ∀ e ∈ n.entries, e.Fits heightForKey n.height
  siblings : n.entries.IsChain NoSiblings

@[mk_iff]
structure Tree.IsPlaced (t : Tree Cid) : Prop where
  nodes : t.root.Each (Node.IsPlaced heightForKey)
  root : t.root.entries = [] ∨ ∃ e ∈ t.root.entries, e.isValue

@[mk_iff]
structure Tree.IsCanonical (t : Tree Cid) : Prop extends t.IsPlaced heightForKey where
  ascending : IsAscending Prod.fst t.walk

end

-- No entry is neither a child nor a value.
def Node.IsKeyed (n : Node Cid) : Prop :=
  ∀ e ∈ n.entries, e.isChild ∨ e.isValue

mutual

-- Every value is above the one before it in its node or, if it is the first there, above the one
-- before the node itself.
def Node.ClimbsFrom (key : Key) : Node Cid → Prop
  | ⟨es, _, _, _, _⟩ => ClimbingFrom key es

def ClimbingFrom (key : Key) : List (NodeEntry Cid) → Prop
  | [] => True
  | value k _ _ :: es => key < k ∧ ClimbingFrom k es
  | link _ :: es => ClimbingFrom key es
  | child _ q _ :: es => q.ClimbsFrom key ∧ ClimbingFrom key es

end

def EndsBelow : NodeEntry Cid → NodeEntry Cid → Prop
  | child _ q _, value k _ _ => ∀ p ∈ q.walk, p.1 < k
  | _, _ => True

-- The keys of a child are below the value after it.
def Node.IsBounded (n : Node Cid) : Prop :=
  n.entries.IsChain EndsBelow

end Conditions

section Order

variable {key : Key} {n : Node Cid} {es : List (NodeEntry Cid)}

theorem Node.walk_eq (n : Node Cid) : n.walk = walkEntries n.entries := by
  cases n
  rfl

theorem Node.climbsFrom_iff : n.ClimbsFrom key ↔ ClimbingFrom key n.entries := by
  cases n
  rfl

-- A child is followed by a value, if by anything, and that value bounds all the later keys.
theorem endsBelow_iff (hnext : ∀ e ∈ es.head?, e.isChild = false)
    (hkeyed : ∀ e ∈ es, e.isChild ∨ e.isValue) (hs : IsAscending fst (walkEntries es)) :
    (∀ e ∈ es.head?, EndsBelow (child c q d) e) ↔
      ∀ p ∈ q.walk, ∀ p' ∈ walkEntries es, p.1 < p'.1 := by
  cases es with
  | nil => simp [walkEntries]
  | cons e es =>
    cases e with
    | link | child => simp [isChild] at hnext
    | value k v d =>
      have hk : k ≠ [] := by simpa [isChild, isValue] using hkeyed _ mem_cons_self
      simp only [walkEntries, hk, if_false, pairwise_cons] at hs ⊢
      simp only [head?_cons, Option.mem_def, Option.some.injEq, forall_eq', EndsBelow,
        forall_mem_cons]
      exact forall₂_congr fun p _ => ⟨fun h => ⟨h, fun p' hp' => h.trans (hs.left p' hp')⟩, And.left⟩

theorem ascending_iff_climbingFrom (hsib : es.IsChain NoSiblings)
    (hkeyed : ∀ e ∈ es, e.isChild ∨ e.isValue)
    (hchild : ∀ c q d, child c q d ∈ es → ∀ key,
      IsAscending fst q.walk ∧ (∀ p ∈ q.walk, key < p.1) ↔
        q.ClimbsFrom key ∧ q.Each Node.IsBounded) :
    IsAscending fst (walkEntries es) ∧ (∀ p ∈ walkEntries es, key < p.1) ↔
      ClimbingFrom key es ∧ es.IsChain EndsBelow ∧ ∀ e ∈ es, e.EachBelow Node.IsBounded := by
  induction es generalizing key with
  | nil => simp [walkEntries, ClimbingFrom]
  | cons e es ih =>
    obtain ⟨hnext, hsib⟩ := isChain_cons.mp hsib
    obtain ⟨hk, hks⟩ := forall_mem_cons.mp hkeyed
    have ih := fun key => @ih key hsib hks fun _ _ _ he => hchild _ _ _ (.tail e he)
    rw [isChain_cons, forall_mem_cons]
    cases e with
    | link c =>
      rw [walkEntries, ih, ClimbingFrom]
      simp only [EachBelow, EndsBelow]
      tauto
    | value k v d =>
      have hk : k ≠ [] := by simpa [isChild, isValue] using hk
      have htrans : key < k → (∀ p ∈ walkEntries es, k < p.1) → ∀ p ∈ walkEntries es, key < p.1 :=
        fun hlt hgt p hp => hlt.trans (hgt p hp)
      rw [walkEntries, if_neg hk, ClimbingFrom, forall_mem_cons, IsAscending, pairwise_cons]
      simp only [EachBelow, EndsBelow]
      have ih := ih k
      tauto
    | child c q d =>
      have hq := hchild c q d mem_cons_self key
      have ih := ih key
      have hend := @endsBelow_iff Cid es c q d (by simpa [NoSiblings, isChild] using hnext) hks
      rw [walkEntries, ClimbingFrom, forall_mem_append, IsAscending, pairwise_append]
      simp only [EachBelow]
      tauto

theorem Node.ascending_iff_climbsFrom
    (hp : n.Each (Node.IsPlaced heightForKey)) (hk : n.Each Node.IsKeyed) :
    IsAscending fst n.walk ∧ (∀ p ∈ n.walk, key < p.1) ↔
      n.ClimbsFrom key ∧ n.Each Node.IsBounded := by
  induction n using forall_of_children generalizing key with
  | step n ih =>
    have ⟨hp, hps⟩ := each_iff.mp hp
    have ⟨hk, hks⟩ := each_iff.mp hk
    rw [n.walk_eq, climbsFrom_iff, each_iff]
    exact ascending_iff_climbingFrom hp.siblings hk fun c q d he _ =>
      ih c q d he (hps _ he) (hks _ he)

end Order

section Check

variable {heightForKey : Key → ℕ} {h : ℤ} {key : Key} {last : Bool}
  {n : Node Cid} {es : List (NodeEntry Cid)}

theorem verifyEntries_value_iff :
    verifyEntries heightForKey h key last (value k v d :: es) = .ok () ↔
      (k ≠ [] ∧ h = heightForKey k) ∧ key < k ∧ verifyEntries heightForKey h k false es = .ok () := by
  simp only [verifyEntries]
  split_ifs <;> grind

theorem verifyEntries_child_iff :
    verifyEntries heightForKey h key last (child c q d :: es) = .ok () ↔
      last = false ∧ (h ≠ 0 ∧ q.verifyStructure heightForKey (h - 1) key = .ok ()) ∧
        verifyEntries heightForKey h key true es = .ok () := by
  simp only [verifyEntries]
  split_ifs
  · simp_all
  · simp_all
  · cases q.verifyStructure heightForKey (h - 1) key <;> simp_all [bind, Except.bind]

variable (heightForKey h) in
-- An entry of a node at this height, with all the nodes below it.
def NodeEntry.IsSound (e : NodeEntry Cid) : Prop :=
  e.Fits heightForKey h ∧ (e.isChild ∨ e.isValue) ∧
    e.EachBelow (Node.IsPlaced heightForKey) ∧ e.EachBelow Node.IsKeyed

variable (heightForKey) in
def Node.IsSound (n : Node Cid) : Prop :=
  n.Each (Node.IsPlaced heightForKey) ∧ n.Each Node.IsKeyed

theorem Node.isSound_iff : n.IsSound heightForKey ↔
    (∀ e ∈ n.entries, e.IsSound heightForKey n.height) ∧ n.entries.IsChain NoSiblings := by
  simp only [Node.IsSound, each_iff, isPlaced_iff, Node.IsKeyed, NodeEntry.IsSound, forall_and]
  tauto

theorem verifyEntries_iff (hchild : ∀ c q d, child c q d ∈ es → ∀ key,
      h ≠ 0 ∧ q.verifyStructure heightForKey (h - 1) key = .ok () ↔
        (q.height = h - 1 ∧ q.entries ≠ []) ∧ q.IsSound heightForKey ∧ q.ClimbsFrom key)
    (hlink : ∀ c, link c ∉ es) :
    verifyEntries heightForKey h key last es = .ok () ↔
      (∀ e ∈ es, e.IsSound heightForKey h) ∧ (last → ∀ e ∈ es.head?, e.isChild = false) ∧
        es.IsChain NoSiblings ∧ ClimbingFrom key es := by
  induction es generalizing key last with
  | nil => simp [verifyEntries, ClimbingFrom]
  | cons e es ih =>
    have ih := fun key last => @ih key last (fun _ _ _ he => hchild _ _ _ (.tail e he))
      fun _ he => hlink _ (.tail e he)
    rw [isChain_cons, forall_mem_cons, NodeEntry.IsSound]
    cases e with
    | link c => exact absurd mem_cons_self (hlink c)
    | value k v d =>
      rw [verifyEntries_value_iff, ih, ClimbingFrom]
      simp only [Fits, EachBelow, NoSiblings, isChild, isValue, decide_eq_true_eq, Bool.false_eq_true,
        head?_cons, Option.mem_some, forall_eq']
      tauto
    | child c q d =>
      rw [verifyEntries_child_iff, ih, hchild c q d mem_cons_self, ClimbingFrom]
      simp only [Fits, EachBelow, NoSiblings, isChild, Node.IsSound, head?_cons, Option.mem_some,
        forall_eq', ←Bool.not_eq_true]
      tauto

-- A node with no value has a child, which is one level further down.
theorem Node.height_nonneg (hc : n.Each Node.IsComplete)
    (hn : n.IsSound heightForKey) (hes : n.entries ≠ []) : 0 ≤ n.height := by
  induction n using forall_of_children with
  | step n ih =>
    have ⟨hc, hcs⟩ := each_iff.mp hc
    have ⟨e, he⟩ := exists_mem_of_ne_nil _ hes
    have ⟨hfit, hkey, hn⟩ := (isSound_iff.mp hn).left e he
    cases e with
    | value k v d =>
      have hh := hfit (by simpa [isChild, isValue] using hkey)
      omega
    | link c => exact absurd he (hc.link c)
    | child c q d =>
      have hq := ih c q d he (hcs _ he) hn hfit.right
      have hh := hfit.left
      omega

theorem Node.IsComplete.not_missingCID (hc : n.IsComplete) : ¬(n.cid.isNone ∧ !n.dirty) := by
  simp [Option.isSome_iff_ne_none.mp hc.cid]

theorem Node.verifyStructure_iff (hc : n.Each Node.IsComplete) (hes : n.entries ≠ []) :
    0 ≤ n.height ∧ verifyEntries heightForKey n.height key false n.entries = .ok () ↔
      n.IsSound heightForKey ∧ n.ClimbsFrom key := by
  induction n using forall_of_children generalizing key with
  | step n ih =>
    have ⟨hcn, hcs⟩ := each_iff.mp hc
    have hchild : 0 ≤ n.height → ∀ c q d, child c q d ∈ n.entries → ∀ key,
        n.height ≠ 0 ∧ q.verifyStructure heightForKey (n.height - 1) key = .ok () ↔
          (q.height = n.height - 1 ∧ q.entries ≠ []) ∧ q.IsSound heightForKey ∧
            q.ClimbsFrom key := by
      intro hh c q d he key
      have hq := hcs _ he
      have ih := @ih c q d he key hq
      have hnn := @height_nonneg Cid heightForKey q hq
      rw [verifyStructure_eq (hq q .self).stub (hq q .self).not_missingCID]
      grind
    have hentries := fun hh => @verifyEntries_iff _ _ _ key false _ (hchild hh) hcn.link
    rw [climbsFrom_iff]
    constructor
    case mp =>
      intro ⟨hh, hv⟩
      have ⟨hfit, _, hsib, hclimb⟩ := (hentries hh).mp hv
      exact ⟨isSound_iff.mpr ⟨hfit, hsib⟩, hclimb⟩
    case mpr =>
      intro ⟨hn, hclimb⟩
      have hh := height_nonneg hc hn hes
      have ⟨hfit, hsib⟩ := isSound_iff.mp hn
      exact ⟨hh, (hentries hh).mpr ⟨hfit, nofun, hsib, hclimb⟩⟩

end Check

section Top

variable {heightForKey : Key → ℕ} {t : Tree Cid}

mutual

theorem Node.walk_ne_nil : ∀ n : Node Cid, ∀ p ∈ n.walk, p.1 ≠ []
  | ⟨es, _, _, _, _⟩ => walkEntries_ne_nil es

theorem walkEntries_ne_nil : ∀ es : List (NodeEntry Cid), ∀ p ∈ walkEntries es, p.1 ≠ []
  | [] => by simp [walkEntries]
  | value k _ _ :: es => by
    have ih := walkEntries_ne_nil es
    rw [walkEntries]
    split_ifs with hk
    · exact ih
    · exact forall_mem_cons.mpr ⟨hk, ih⟩
  | link _ :: es => walkEntries_ne_nil es
  | child _ n _ :: es => forall_mem_append.mpr ⟨n.walk_ne_nil, walkEntries_ne_nil es⟩

end

theorem valueHeight_eq (es : List (NodeEntry Cid)) :
    (∃ k v d, value k v d ∈ es ∧ k ≠ [] ∧ valueHeight heightForKey es = heightForKey k) ∨
      valueHeight heightForKey es = -1 ∧ ∀ e ∈ es, e.isValue = false := by
  induction es with
  | nil => simp [valueHeight]
  | cons e es ih =>
    cases e with
    | link | child => simpa [valueHeight, isValue] using ih
    | value k v d =>
      by_cases hk : k = []
      · grind [valueHeight, isValue]
      · exact .inl ⟨k, v, d, mem_cons_self, hk, if_neg hk⟩

theorem Tree.verify_iff (hc : t.root.Each Node.IsComplete) : t.verify heightForKey = .ok () ↔
      t.IsPlaced heightForKey ∧ t.root.Each Node.IsKeyed ∧ t.root.ClimbsFrom [] := by
  have hroot := hc _ .self
  rw [verify, Node.verifyStructure_eq hroot.stub hroot.not_missingCID, isPlaced_iff]
  by_cases hes : t.root.entries = []
  · simp [hes, Node.each_iff, Node.isPlaced_iff, Node.IsKeyed, Node.climbsFrom_iff, ClimbingFrom]
  have hroot := @Node.verifyStructure_iff Cid heightForKey [] t.root hc hes
  simp only [hes, if_false, false_or, Int.reduceNeg, Int.reduceLT, if_true]
  rcases @valueHeight_eq Cid heightForKey t.root.entries with ⟨k, v, d, he, hk, hh⟩ | ⟨hh, hnone⟩
  · have hvalue : ∃ e ∈ t.root.entries, e.isValue := ⟨_, he, by simpa [isValue] using hk⟩
    have hfit : t.root.Each (Node.IsPlaced heightForKey) → t.root.height = heightForKey k :=
      fun hp => (hp _ .self).entries _ he hk
    grind [Node.IsSound]
  · have hvalue : ¬∃ e ∈ t.root.entries, e.isValue := by simpa using hnone
    simp [hh, hvalue]

theorem Tree.ascending_iff (hp : t.IsPlaced heightForKey) (hk : t.root.Each Node.IsKeyed) :
    IsAscending fst t.walk ↔ t.root.ClimbsFrom [] ∧ t.root.Each Node.IsBounded := by
  have hnil := fun p hp => nil_lt (t.root.walk_ne_nil p hp)
  rw [←ascending_iff_climbsFrom hp.nodes hk, walk, and_iff_left hnil]

theorem Tree.verify_iff_canonical (hc : t.root.Each Node.IsComplete)
    (hk : t.root.Each Node.IsKeyed) (hb : t.root.Each Node.IsBounded) :
    t.verify heightForKey = .ok () ↔ t.IsCanonical heightForKey := by
  rw [verify_iff hc, isCanonical_iff]
  refine and_congr_right fun hp => ?_
  rw [ascending_iff hp hk, and_iff_right hk, and_iff_left hb]

def leaf (k : Key) : Node ℕ :=
  ⟨[value k 0 false], 0, false, some 0, false⟩

-- A child with one key before the value `b`.
def nested (k : Key) : Tree ℕ :=
  ⟨[child (some 0) (leaf k) false, value [98] 0 false], 1, false, some 0, false⟩

theorem each_nested_iff :
    (nested k).root.Each P ↔ P (nested k).root ∧ P (leaf k) := by
  rw [each_iff]
  simp only [nested, forall_mem_cons, EachBelow]
  rw [each_iff]
  simp [leaf, EachBelow]

theorem nested_isComplete (k : Key) : (nested k).root.Each Node.IsComplete := by
  rw [each_nested_iff]
  simp [isComplete_iff, nested, leaf]

end Top

end Atproto.Mst
