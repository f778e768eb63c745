import HypercertsRelay.Atproto.Mst.Removed

namespace Atproto.Mst

open List
open NodeEntry Ascending Outline
open Prod (fst)
open Node (fresh getCID isEmpty outline pruneTop pushLayer)

variable {N : Naming Cid} {h t i : ℕ} {n n' : Node Cid} {l l₁ l₂ : Pairs Cid} {prev : Cid}

section Get

theorem getChildCID_append :
    getChildCID key height A.length (A ++ child c n d :: B) = n.getCID key height := by
  induction A with
  | nil => simp [getChildCID]
  | cons e A ih => simp [getChildCID, ih]

theorem Naming.NodeAt.getCID_eq (hr : N.Rep t n l) :
    n.getCID key t = .ok ((findExistingEntry key n.entries).map (·.2)) := by
  obtain ⟨es, d, c, rfl⟩ := hr.exists_eq
  simp [getCID]

theorem Naming.NodeAt.getCID_child (hr : N.Rep (t + i + 1) n l) :
    n.getCID key t = match findExistingChild key n.entries with
      | some idx => getChildCID key t idx n.entries
      | none => .ok none := by
  obtain ⟨es, d, c, rfl⟩ := hr.exists_eq
  have hlt : ¬(t + i + 1 : ℕ) < (t : Int) ∧ (t : Int) < (t + i + 1 : ℕ) := by omega
  cases hidx : findExistingChild key es <;>
    simp only [getCID, hlt, hidx, Bool.false_eq_true, if_false, if_true]

theorem Naming.NodeAt.getCID_present (hr : N.Rep (t + i) n l) (hs : IsAscending fst l)
    (hm : (key, val) ∈ l) (hv : .key key ∈ n.outline N.keys true) (hh : N.heightForKey key = t) :
    n.getCID key t = .ok (some val) := by
  induction i generalizing n l with
  | zero =>
    have hr : N.Rep t n l := hr
    have ⟨A, G, B, la, lg, lb, d, hes, _, hk, ha, hg, _⟩ := hr.cut_value hs hm hh
    rw [hr.getCID_eq, hes, findExistingEntry_cut ha hg hk]
    rfl
  | succ i ih =>
    have ⟨A, G, B, la, lg, lb, hes, hl, har⟩ := hr.around_lower key hs (by omega)
    rw [n.outline_eq, hes] at hv
    have ⟨c, n₁, d, hG, hb, hv'⟩ := har.shown_gap hv
    subst hG
    have hfind := findExistingChild_cut har.before har.gap har.after
    rw [←hes] at hfind
    rw [hr.getCID_child, hfind, hes]
    simp only [cons_ne_self, if_false, singleton_append, getChildCID_append]
    exact ih hb.right.left har.ascending_gap (har.mem_gap (hl ▸ hm)) hv'

theorem Naming.NodeAt.getCID_absent (hr : N.Rep (t + i) n l) (hs : IsAscending fst l)
    (hne : ∀ p ∈ l, p.1 ≠ key) (hc : Clear key (n.outline N.keys true)) :
    n.getCID key t = .ok none := by
  induction i generalizing n l with
  | zero =>
    have hr : N.Rep t n l := hr
    rw [hr.getCID_eq, hr.layer.findExistingEntry_eq_none hne]
    rfl
  | succ i ih =>
    have ⟨A, G, B, la, lg, lb, hes, hl, har, hcg⟩ := hr.around_clear hs hne hc
    have hneg : ∀ p ∈ lg, p.1 ≠ key := fun p hp => hne p (by simp [hl, hp])
    have hfind := findExistingChild_cut har.before har.gap har.after
    rw [←hes] at hfind
    rw [hr.getCID_child, hfind]
    rcases har.gap_cases hcg with ⟨rfl, rfl⟩ | ⟨c, n₁, d, rfl, hb⟩
    · simp
    · rw [outline_child_all] at hcg
      rw [hes]
      simp only [cons_ne_self, if_false, singleton_append, getChildCID_append]
      exact ih hb.right.left har.ascending_gap hneg hcg

end Get

section Walk

theorem Layer.walkEntries
    (hsub : ∀ e l, sub e l → walkEntries [e] = l) (hl : Layer N.heightForKey sub h es l) :
    walkEntries es = l := by
  induction hl with
  | nil => rfl
  | value hk _ _ ih => simp [Mst.walkEntries, hk, ih]
  | last _ he => exact hsub _ _ he
  | @child e _ _ _ _ _ _ hc he hk _ _ ih =>
    have := hsub _ _ he
    cases e <;> simp_all [Mst.walkEntries, isChild]

theorem Naming.Below.walkEntries (hlinks : ∀ h c l, ¬N.links h c l) (hb : N.Below h e l) :
    walkEntries [e] = l := by
  induction h generalizing e l with
  | zero => simp [Naming.Below] at hb
  | succ h ih =>
    cases e with
    | value k v d => simp [Naming.Below] at hb
    | link c => exact absurd hb.right (hlinks _ _ _)
    | child c n d =>
      have := hb.right.left.layer.walkEntries fun e l => ih
      cases n
      simpa [Mst.walkEntries, Node.walk] using this

-- A tree all of whose nodes are there visits the pairs it holds.
theorem Naming.NodeAt.walk (hlinks : ∀ h c l, ¬N.links h c l) (hr : N.Rep h n l) : n.walk = l := by
  have := hr.layer.walkEntries fun _ _ => Naming.Below.walkEntries hlinks
  cases n
  exact this

end Walk

section Prune

def topHeight (heightForKey : Key → ℕ) (l : Pairs Cid) : ℕ :=
  (l.map (heightForKey ·.1)).foldr max 0

theorem topHeight_le (h : ∀ p ∈ l, H p.1 ≤ i) : topHeight H l ≤ i := by
  induction l with
  | nil => exact Nat.zero_le _
  | cons p l ih =>
    have ⟨hp, hl⟩ := forall_mem_cons.mp h
    exact max_le hp (ih hl)

theorem le_topHeight (h : p ∈ l) : H p.1 ≤ topHeight H l := by
  induction l with
  | nil => simp at h
  | cons q l ih =>
    cases mem_cons.mp h
    case inl h => exact h ▸ le_max_left _ _
    case inr h => exact (ih h).trans (le_max_right _ _)

theorem exists_topHeight (H : Key → ℕ) (hl : l ≠ []) : ∃ p ∈ l, H p.1 = topHeight H l := by
  induction l with
  | nil => exact absurd rfl hl
  | cons q l ih =>
    have hcons : topHeight H (q :: l) = max (H q.1) (topHeight H l) := rfl
    by_cases hle : topHeight H l ≤ H q.1
    · exact ⟨q, mem_cons_self, by rw [hcons, max_eq_left hle]⟩
    have hlt := not_le.mp hle
    have hne : l ≠ [] := by
      rintro rfl
      exact Nat.not_lt_zero _ hlt
    have ⟨p, hp, hh⟩ := ih hne
    exact ⟨p, mem_cons_of_mem _ hp, by rw [hcons, max_eq_right hlt.le, hh]⟩

theorem Naming.NodeAt.topHeight_eq (hr : N.Rep h n l) (hp : p ∈ l)
    (hh : N.heightForKey p.1 = h) : topHeight N.heightForKey l = h :=
  (topHeight_le hr.height_le).antisymm (hh ▸ le_topHeight hp)

theorem Naming.NodeAt.pruneTop (hr : N.Rep h n l) (hd : n.dirty)
    (hc : ∀ all, Clear key (n.outline N.keys all)) :
    ∃ h', N.Rep h' n.pruneTop l ∧ n.pruneTop.dirty ∧
      (∀ all, n.pruneTop.outline N.keys all = n.outline N.keys all) ∧
      h' = if l = [] then h else topHeight N.heightForKey l := by
  induction h using Nat.strongRecOn generalizing n l with
  | ind h ih =>
  obtain ⟨es, j, d, c, stub⟩ := n
  have hlayer : Layer N.heightForKey (N.Below h) h es l := hr.layer
  cases hlayer with
  | nil => exact ⟨h, by simpa [pruneTop] using hr, hd, fun _ => rfl, by simp⟩
  | @value k v d' es l hk hh _ =>
    have htop := hr.topHeight_eq (p := (k, v)) (by simp) hh
    exact ⟨h, by simpa [pruneTop] using hr, hd, fun _ => rfl, by simp [htop]⟩
  | @child e l₁ k v d' es l₂ _ _ hk hh _ =>
    have htop := hr.topHeight_eq (p := (k, v)) (by simp) hh
    have hsame : pruneTop ⟨e :: .value k v d' :: es, j, d, c, stub⟩ =
        ⟨e :: .value k v d' :: es, j, d, c, stub⟩ := by
      simp [pruneTop]
    rw [hsame]
    exact ⟨h, hr, hd, fun _ => rfl, by simp [htop]⟩
  | @last e _ he hb =>
    cases e with
    | value => simp [isChild] at he
    | link => exact absurd (hc true) not_clear_stretch
    | child c₁ n₁ d₁ =>
      cases h with
      | zero => exact hb.elim
      | succ h =>
        have hd₁ : n₁.dirty := dirty_of_clear (c := c₁) (d := d₁) (hc false)
        have ho (all : Bool) : outline N.keys all ⟨[.child c₁ n₁ d₁], j, d, c, stub⟩ =
            n₁.outline N.keys all := outline_child_of_dirty (c := c₁) (d := d₁) hd₁
        obtain ⟨h', hrep, hd', ho', hh'⟩ :=
          ih h (by omega) hb.right.left hd₁ fun all => ho all ▸ hc all
        have hprune : pruneTop ⟨[.child c₁ n₁ d₁], j, d, c, stub⟩ = n₁.pruneTop := by
          simp [pruneTop]
        refine ⟨h', hrep, hd', fun all => (ho' all).trans (ho all).symm, ?_⟩
        rw [hh', if_neg hb.left, if_neg hb.left]

end Prune

section Sight

-- What is in view of a tree, whose root may itself be out of view.
def Node.sight (keys : Cid → List Key) (all : Bool) (n : Node Cid) : List (Piece Key) :=
  outlineEntries keys all [child none n true]

variable {all : Bool}

theorem expands_sight : Expands (n.sight N.keys all) (n.outline N.keys all) :=
  expands_outline_child ..

theorem sight_of_dirty (hd : n.dirty) : n.sight N.keys all = n.outline N.keys all :=
  outline_child_of_dirty hd

theorem sight_all : n.sight N.keys true = n.outline N.keys true :=
  outline_child_all

end Sight

section Push

theorem Naming.NodeAt.pushLayer (hr : N.Rep h n l) (hl : l ≠ []) : N.Rep (h + 1) n.pushLayer l := by
  rw [Node.pushLayer, hr.height]
  exact .fresh (.last rfl ⟨hl, hr, nofun⟩)

theorem Naming.NodeAt.pushLayers (hr : N.Rep h n l) (hl : l ≠ []) (i : ℕ) :
    N.Rep (h + i) (Node.pushLayer^[i] n) l := by
  induction i with
  | zero => exact hr
  | succ i ih =>
    rw [Function.iterate_succ_apply']
    exact ih.pushLayer hl

theorem outline_pushLayers {all} (i : ℕ) :
    (pushLayer^[i + 1] n).outline N.keys all = n.sight N.keys all := by
  induction i with
  | zero => rfl
  | succ i ih =>
    rw [Function.iterate_succ_apply', pushLayer, fresh, outline, ←ih]
    refine outline_child_of_dirty ?_
    rw [Function.iterate_succ_apply']
    rfl

end Push

-- The root of a tree and the height it gives for itself. A root loaded without entries knows none.
inductive Rooted (N : Naming Cid) : ℤ → Node Cid → Pairs Cid → Prop where
  | rep {h : ℕ} {n l} : N.Rep h n l → Rooted N h n l
  | unknown {n : Node Cid} :
    n.stub = false → n.height = -1 → n.entries = [] → Rooted N (-1) n []

section Rooted

section

variable (hr : Rooted N top n l)

include hr

theorem Rooted.height : n.height = top := by
  cases hr with
  | rep hr => exact hr.height
  | unknown _ hh _ => exact hh

theorem Rooted.stub : n.stub = false := by
  cases hr with
  | rep hr => exact hr.stub
  | unknown hs _ _ => exact hs

-- A node at its height or above that of a key.
theorem Rooted.rep_of_le (hle : (t : ℤ) ≤ top) :
    ∃ i : ℕ, top = (t + i : ℕ) ∧ N.Rep (t + i) n l := by
  cases hr with
  | @rep h _ _ hr =>
    have hle : t ≤ h := by exact_mod_cast hle
    have ⟨i, hi⟩ := Nat.exists_eq_add_of_le hle
    subst hi
    exact ⟨i, rfl, hr⟩
  | unknown => omega

theorem Rooted.le_of_mem (hp : p ∈ l) : (N.heightForKey p.1 : ℤ) ≤ top := by
  cases hr with
  | rep hr => exact_mod_cast hr.height_le p hp
  | unknown => simp at hp

end

variable [DecidableEq Cid]

theorem insert_of_lt (hstub : n.stub = false) (hh : n.height < t) :
    n.insert key val t = n.insertParent key val t := by
  have ⟨es, h, d, c, stub⟩ := n
  subst hstub
  simp [Node.insert, hh]

variable (val) in
theorem Rooted.insert_empty (hr : Rooted N top n []) (hlt : top < t) (hk : key ≠ [])
    (hh : N.heightForKey key = t) :
    ∃ n', n.insert key val t = .ok (n', none) ∧ Inserted N key val t (Node.fresh t []) [] [] n' ∧
      ∀ all, Expands (n.sight N.keys all) ((Node.fresh t [] : Node Cid).outline N.keys all) := by
  have hes : n.entries = [] := by
    cases hr with
    | rep hr => exact hr.layer.eq_nil_iff.mpr rfl
    | unknown _ _ hes => exact hes
  have hfresh : N.Rep t (Node.fresh t []) [] := .fresh .nil
  obtain ⟨l₁, l₂, n', hl, _, _, heq, hins⟩ := hfresh.insertEntry_absent val
    .nil (by simp) (clear_of_forall_key (by simp [Node.fresh, Node.outline, outlineEntries])) hk hh
  obtain ⟨hl₁, hl₂⟩ := append_eq_nil_iff.mp hl.symm
  subst hl₁ hl₂
  refine ⟨n', ?_, hins, fun all => ?_⟩
  · rw [insert_of_lt hr.stub (hr.height ▸ hlt), Node.insertParent]
    simp [Node.isEmpty, hes, heq]
  · have ho : n.outline N.keys all = [] := by rw [n.outline_eq, hes]; rfl
    have hexp : Expands (n.sight N.keys all) (n.outline N.keys all) := expands_sight
    rwa [ho] at hexp

structure RootInserted (N : Naming Cid) (key : Key) (val : Cid) (top : ℤ) (n : Node Cid)
    (l₁ l₂ : Pairs Cid) (n' : Node Cid) : Prop where
  rooted : Rooted N top n' (l₁ ++ (key, val) :: l₂)
  dirty : n'.dirty
  grows : ∀ all, ∃ x y, Expands (n.sight N.keys all) (x ++ y) ∧
    n'.sight N.keys all = x ++ .key key :: y
  clear : ∀ all, Clear key (n'.sight N.keys all)

omit [DecidableEq Cid] in
theorem Inserted.root (hi : Inserted N key val h m l₁ l₂ n')
    (hexp : ∀ all, Expands (n.sight N.keys all) (m.outline N.keys all)) :
    RootInserted N key val h n l₁ l₂ n' where
  rooted := .rep hi.rep
  dirty := hi.dirty
  grows all := by
    have ⟨x, y, hxy, ho⟩ := hi.grows all
    exact ⟨x, y, (hexp all).trans hxy, by rw [sight_of_dirty hi.dirty, ho]⟩
  clear all := by
    rw [sight_of_dirty hi.dirty]
    exact hi.clear all

variable (val) in
theorem Rooted.insert_absent (hr : Rooted N top n l) (hs : IsAscending fst l)
    (hne : ∀ p ∈ l, p.1 ≠ key) (hc : Clear key (n.outline N.keys true)) (hk : key ≠ [])
    (hh : N.heightForKey key = t) :
    ∃ l₁ l₂ n', l = l₁ ++ l₂ ∧ (∀ p ∈ l₁, p.1 < key) ∧ (∀ p ∈ l₂, key < p.1) ∧
      n.insert key val t = .ok (n', none) ∧ RootInserted N key val (max top t) n l₁ l₂ n' := by
  by_cases hle : (t : ℤ) ≤ top
  · have ⟨i, htop, hrep⟩ := hr.rep_of_le hle
    have ⟨l₁, l₂, n', hl, hlt₁, hlt₂, heq, hins⟩ := hrep.insert_absent val hs hne hc hk hh
    rw [max_eq_left hle, htop]
    exact ⟨l₁, l₂, n', hl, hlt₁, hlt₂, heq, hins.root fun _ => expands_sight⟩
  · have hlt := not_le.mp hle
    rw [max_eq_right hlt.le]
    by_cases hl : l = []
    · subst hl
      have ⟨n', heq, hins, hexp⟩ := hr.insert_empty val hlt hk hh
      exact ⟨[], [], n', rfl, by simp, by simp, heq, hins.root hexp⟩
    cases hr with
    | unknown => exact absurd rfl hl
    | @rep h _ _ hr =>
      have hlt : h < t := by exact_mod_cast hlt
      have ⟨i, hi⟩ := Nat.exists_eq_add_of_lt hlt
      have hpush : N.Rep t (Node.pushLayer^[i + 1] n) l := by
        rw [hi, Nat.add_assoc]
        exact hr.pushLayers hl (i + 1)
      have hcp : Clear key ((Node.pushLayer^[i + 1] n).outline N.keys true) := by
        rw [outline_pushLayers, sight_all]
        exact hc
      have ⟨l₁, l₂, n', hl', hlt₁, hlt₂, heq, hins⟩ := hpush.insertEntry_absent val hs hne hcp hk hh
      refine ⟨l₁, l₂, n', hl', hlt₁, hlt₂, ?_, hins.root fun all => ?_⟩
      · have hes : n.entries ≠ [] := mt hr.layer.eq_nil_iff.mp hl
        have hi : ((t : ℤ) - n.height).toNat = i + 1 := by rw [hr.height]; omega
        rw [insert_of_lt hr.stub (by rw [hr.height]; exact_mod_cast hlt), Node.insertParent, hi, heq]
        simp [Node.isEmpty, hes]
      · rw [outline_pushLayers]
        exact .refl _

structure RootUpdated (N : Naming Cid) (key : Key) (val : Cid) (top : ℤ) (n : Node Cid)
    (l₁ l₂ : Pairs Cid) (n' : Node Cid) : Prop where
  rooted : Rooted N top n' (l₁ ++ (key, val) :: l₂)
  dirty : n'.dirty
  expands : ∀ all, Expands (n.sight N.keys all) (n'.sight N.keys all)
  shown : ∀ all, .key key ∈ n'.sight N.keys all

variable (val) in
theorem Rooted.insert_present (hr : Rooted N top n l) (hs : IsAscending fst l)
    (hm : (key, prev) ∈ l) (hv : .key key ∈ n.outline N.keys true) :
    (prev = val → n.insert key val (N.heightForKey key) = .ok (n, some val)) ∧
      (prev ≠ val → ∃ l₁ l₂ n', l = l₁ ++ (key, prev) :: l₂ ∧
        n.insert key val (N.heightForKey key) = .ok (n', some prev) ∧
          RootUpdated N key val top n l₁ l₂ n') := by
  have ⟨i, htop, hrep⟩ := hr.rep_of_le (hr.le_of_mem hm)
  have ⟨hsame, hupd⟩ := hrep.insert_present val hs hm hv rfl
  refine ⟨hsame, fun hne => ?_⟩
  have ⟨l₁, l₂, n', hl, heq, hu⟩ := hupd hne
  refine ⟨l₁, l₂, n', hl, heq, htop ▸ .rep hu.rep, hu.dirty, fun all => ?_, fun all => ?_⟩
  · rw [sight_of_dirty hu.dirty]
    exact expands_sight.trans (hu.expands all)
  · rw [sight_of_dirty hu.dirty]
    exact hu.shown all

-- The height of the root once a key is gone: the top is pruned if others are left.
def prunedTop (heightForKey : Key → ℕ) (top : ℤ) (key : Key) (l : Pairs Cid) : ℤ :=
  if top = heightForKey key ∧ l ≠ [] then topHeight heightForKey l else top

structure RootRemoved (N : Naming Cid) (key : Key) (top : ℤ) (n : Node Cid) (l₁ l₂ : Pairs Cid)
    (n' : Node Cid) : Prop where
  rooted : Rooted N (prunedTop N.heightForKey top key (l₁ ++ l₂)) n' (l₁ ++ l₂)
  dirty : n'.dirty
  shrinks : ∀ all, ∃ x y, Expands (n.sight N.keys all) (x ++ .key key :: y) ∧
    n'.sight N.keys all = x ++ y
  clear : ∀ all, Clear key (n'.sight N.keys all)

section

omit [DecidableEq Cid]

theorem Removed.root (hrem : Removed N key h n l₁ l₂ m) (hd : n'.dirty)
    (hr : Rooted N (prunedTop N.heightForKey h key (l₁ ++ l₂)) n' (l₁ ++ l₂))
    (ho : ∀ all, n'.outline N.keys all = m.outline N.keys all) :
    RootRemoved N key h n l₁ l₂ n' where
  rooted := hr
  dirty := hd
  shrinks all := by
    have ⟨x, y, hexp, hxy⟩ := hrem.shrinks all
    exact ⟨x, y, expands_sight.trans hexp, by rw [sight_of_dirty hd, ho, hxy]⟩
  clear all := by
    rw [sight_of_dirty hd, ho]
    exact hrem.clear all

theorem Rooted.remove_present (hr : Rooted N top n l) (hs : IsAscending fst l)
    (hm : (key, prev) ∈ l) (hc : Clear key (n.outline N.keys true)) :
    ∃ l₁ l₂ n', l = l₁ ++ (key, prev) :: l₂ ∧
      n.remove key (N.heightForKey key) true = .ok (n', some prev) ∧
        RootRemoved N key top n l₁ l₂ n' := by
  have ⟨i, htop, hrep⟩ := hr.rep_of_le (hr.le_of_mem hm)
  have ⟨l₁, l₂, m, hl, heq, hrem⟩ := hrep.remove_present hs hm hc rfl
  subst htop
  cases i with
  | zero =>
    have ⟨h', hrep', hd', ho', hh'⟩ := hrem.rep.pruneTop hrem.dirty hrem.clear
    refine ⟨l₁, l₂, m.pruneTop, hl, by simp [heq], hrem.root hd' ?_ ho'⟩
    have htop : prunedTop N.heightForKey (N.heightForKey key + 0 : ℕ) key (l₁ ++ l₂) = h' := by
      rw [hh']
      by_cases hnil : l₁ ++ l₂ = []
      · simp [prunedTop, hnil]
      · simp [prunedTop, hnil]
    rw [htop]
    exact .rep hrep'
  | succ i =>
    refine ⟨l₁, l₂, m, hl, by simp [heq], hrem.root hrem.dirty ?_ fun _ => rfl⟩
    have htop : prunedTop N.heightForKey (N.heightForKey key + (i + 1) : ℕ) key (l₁ ++ l₂) =
        (N.heightForKey key + (i + 1) : ℕ) := by
      simp [prunedTop]
      omega
    rw [htop]
    exact .rep hrem.rep

theorem Rooted.remove_absent (hr : Rooted N top n l) (hs : IsAscending fst l)
    (hne : ∀ p ∈ l, p.1 ≠ key) (hc : Clear key (n.outline N.keys true)) :
    n.remove key t true = .ok (n, none) := by
  by_cases hle : (t : ℤ) ≤ top
  · have ⟨i, _, hrep⟩ := hr.rep_of_le hle
    exact hrep.remove_absent hs hne hc
  · have hlt := hr.height ▸ not_le.mp hle
    have hstub := hr.stub
    have ⟨es, h, d, c, stub⟩ := n
    simp_all [Node.remove]

theorem Rooted.getCID_present (hr : Rooted N top n l) (hs : IsAscending fst l)
    (hm : (key, val) ∈ l) (hv : .key key ∈ n.outline N.keys true) :
    n.getCID key (N.heightForKey key) = .ok (some val) := by
  have ⟨i, htop, hrep⟩ := hr.rep_of_le (hr.le_of_mem hm)
  exact hrep.getCID_present hs hm hv rfl

theorem Rooted.getCID_absent (hr : Rooted N top n l) (hs : IsAscending fst l)
    (hne : ∀ p ∈ l, p.1 ≠ key) (hc : Clear key (n.outline N.keys true)) :
    n.getCID key t = .ok none := by
  by_cases hle : (t : ℤ) ≤ top
  · have ⟨i, _, hrep⟩ := hr.rep_of_le hle
    exact hrep.getCID_absent hs hne hc
  · have hlt := hr.height ▸ not_le.mp hle
    have hstub := hr.stub
    have ⟨es, h, d, c, stub⟩ := n
    simp_all [getCID]

end

end Rooted

end Atproto.Mst
