import HypercertsRelay.Atproto.Mst.Root
import HypercertsRelay.Library.Listing

namespace Atproto.Mst

open Function
open NodeEntry Ascending Outline Listing

variable {N : Naming Cid} {n : Node Cid} {l : Pairs Cid} {m : Key → Option Cid}

section InView

variable {keys : Cid → List Key}

-- Every key of a tree is in view if all its nodes are there.
theorem Layer.outline_keys
    (hsub : ∀ e l, sub e l → ∀ p ∈ outlineEntries keys true [e], ∃ k, p = .key k)
    (hl : Layer N.heightForKey sub h es l) :
    ∀ p ∈ outlineEntries keys true es, ∃ k, p = .key k := by
  induction hl with
  | nil => simp [outlineEntries]
  | value _ _ _ ih => simpa [outlineEntries] using ih
  | last _ he => exact hsub _ _ he
  | @child e _ _ _ _ _ _ _ he _ _ _ ih =>
    rw [outlineEntries_cons, outline_cons_value]
    exact List.forall_mem_append.mpr ⟨hsub _ _ he, by simpa using ih⟩

section

variable (hlinks : ∀ h c l, ¬N.links h c l)

include hlinks

theorem Naming.Below.outline_keys (hb : N.Below h e l) :
    ∀ p ∈ outlineEntries keys true [e], ∃ k, p = .key k := by
  induction h generalizing e l with
  | zero => simp [Naming.Below] at hb
  | succ h ih =>
    cases e with
    | value k v d => simp [Naming.Below] at hb
    | link c => exact absurd hb.right (hlinks _ _ _)
    | child c n d =>
      rw [outline_child_all, n.outline_eq]
      exact hb.right.left.layer.outline_keys fun _ _ => ih

section

variable (hr : Rooted N top n l)

include hr

theorem Rooted.outline_keys : ∀ p ∈ n.outline keys true, ∃ k, p = .key k := by
  rw [n.outline_eq]
  cases hr with
  | rep hr => exact hr.layer.outline_keys fun _ _ => Naming.Below.outline_keys hlinks
  | unknown _ _ hes => simp [hes, outlineEntries]

theorem Rooted.clear (key : Key) : Clear key (n.outline keys true) :=
  clear_of_forall_key (hr.outline_keys hlinks)

theorem Rooted.shown (hm : (key, val) ∈ l) : .key key ∈ n.outline N.keys true := by
  have hkeys : key ∈ Outline.keys (n.outline N.keys true) := by
    cases hr with
    | rep hr => exact hr.keys_outline ▸ List.mem_map_of_mem hm
    | unknown => simp at hm
  exact mem_of_mem_keys (hr.outline_keys hlinks) hkeys

theorem Rooted.walk : n.walk = l := by
  cases hr with
  | rep hr => exact hr.walk hlinks
  | unknown _ _ hes =>
    cases n
    simp_all [Node.walk, walkEntries]

end

end

end InView

-- The three operations on a tree all of whose nodes are there, over the map it holds.
section Whole

variable {key : Key} {val : Cid} (hlinks : ∀ h c l, ¬N.links h c l) (hr : Rooted N top n l)
  (hl : Lists l m)

include hlinks hr hl

variable (val) in
theorem Rooted.insert_lists [DecidableEq Cid] (hk : key ≠ []) :
    ∃ n' l', n.insert key val (N.heightForKey key) = .ok (n', m key) ∧
      Rooted N (max top (N.heightForKey key)) n' l' ∧ Lists l' (update m key (some val)) := by
  cases hm : m key with
  | none =>
    have ⟨l₁, l₂, n', hsplit, h₁, h₂, heq, hins⟩ :=
      hr.insert_absent val hl.ascending (hl.absent hm) (hr.clear hlinks key) hk rfl
    subst hsplit
    exact ⟨n', _, heq, hins.rooted, hl.insert h₁ h₂⟩
  | some prev =>
    have hmem := (hl.mem_iff key prev).mpr hm
    have ⟨hsame, hupd⟩ := hr.insert_present val hl.ascending hmem (hr.shown hlinks hmem)
    rw [max_eq_left (hr.le_of_mem hmem)]
    by_cases hv : prev = val
    · have hm' : update m key (some val) = m := by rw [←hv, ←hm, update_eq_self]
      exact ⟨n, l, hv ▸ hsame hv, hr, by rwa [hm']⟩
    · have ⟨l₁, l₂, n', hsplit, heq, hu⟩ := hupd hv
      subst hsplit
      exact ⟨n', _, heq, hu.rooted, hl.replace⟩

variable (key) in
theorem Rooted.remove_lists : ∃ n' l', n.remove key (N.heightForKey key) true = .ok (n', m key) ∧
      Rooted N (if m key = none then top else prunedTop N.heightForKey top key l') n' l' ∧
        Lists l' (update m key none) := by
  cases hm : m key with
  | none =>
    have hm' : update m key none = m := by rw [←hm, update_eq_self]
    refine ⟨n, l, ?_, by simpa using hr, by rwa [hm']⟩
    exact hr.remove_absent hl.ascending (hl.absent hm) (hr.clear hlinks key)
  | some prev =>
    have hmem := (hl.mem_iff key prev).mpr hm
    have ⟨l₁, l₂, n', hsplit, heq, hrem⟩ :=
      hr.remove_present hl.ascending hmem (hr.clear hlinks key)
    subst hsplit
    exact ⟨n', _, heq, by simpa using hrem.rooted, hl.erase⟩

theorem Rooted.getCID_lists : n.getCID key (N.heightForKey key) = .ok (m key) := by
  cases hm : m key with
  | none => exact hr.getCID_absent hl.ascending (hl.absent hm) (hr.clear hlinks key)
  | some val =>
    have hmem := (hl.mem_iff key val).mpr hm
    exact hr.getCID_present hl.ascending hmem (hr.shown hlinks hmem)

end Whole

theorem ne_nil_of_isValidKey (h : isValidKey key) : key ≠ [] := by
  rintro rfl
  simp [isValidKey] at h

section Run

inductive Op (Cid : Type) where
  | insert (key : Key) (val : Cid)
  | remove (key : Key)
  | get (key : Key)
deriving DecidableEq

def Op.key : Op Cid → Key
  | insert key _ | remove key | get key => key

variable (heightForKey : Key → ℕ)

def Tree.perform [DecidableEq Cid] (t : Tree Cid) : Op Cid → Except Error (Tree Cid × Option Cid)
  | .insert key val => t.insert heightForKey key val
  | .remove key => t.remove heightForKey key
  | .get key => (t.get heightForKey key).map (t, ·)

-- The operations one after the other, up to the first error, with what each returned.
def Tree.performAll [DecidableEq Cid] (t : Tree Cid) :
    List (Op Cid) → Except Error (Tree Cid × List (Option Cid))
  | [] => .ok (t, [])
  | op :: ops => do
    let (t, result) ← t.perform heightForKey op
    let (t, results) ← t.performAll ops
    pure (t, result :: results)

-- What a map does for an operation. It answers each one with the value its key has before it.
def Op.apply (m : Key → Option Cid) : Op Cid → Key → Option Cid
  | insert key val => update m key (some val)
  | remove key => update m key none
  | get _ => m

def Op.results (m : Key → Option Cid) : List (Op Cid) → List (Option Cid)
  | [] => []
  | op :: ops => m op.key :: results (op.apply m) ops

-- No CIDs are in use: every node is there, and is dirty.
def Naming.unnamed : Naming Cid where
  heightForKey := heightForKey
  names _ _ _ := False
  links _ _ _ := False
  keys _ := []
  names_of_links := id
  keys_of_links := False.elim
  height_of_links := False.elim

def Tree.Holds (t : Tree Cid) (m : Key → Option Cid) : Prop :=
  ∃ top l, Rooted (.unnamed heightForKey) top t.root l ∧ Lists l m

variable {heightForKey} {t : Tree Cid}

theorem Tree.holds_newEmptyTree : (newEmptyTree : Tree Cid).Holds H fun _ => none :=
  ⟨0, [], .rep (.fresh .nil), lists_nil⟩

theorem Tree.Holds.walk (ht : t.Holds H m) : Lists t.walk m := by
  have ⟨_, l, hr, hl⟩ := ht
  have hwalk : t.walk = l := hr.walk fun _ _ _ => id
  rwa [hwalk]

variable [DecidableEq Cid]

theorem Tree.Holds.perform (ht : t.Holds H m) (hop : isValidKey op.key) :
    ∃ t', t.perform H op = .ok (t', m op.key) ∧ t'.Holds H (op.apply m) := by
  have ⟨top, l, hr, hl⟩ := ht
  have hlinks : ∀ h c l, ¬(Naming.unnamed H : Naming Cid).links h c l := fun _ _ _ => id
  cases op with
  | insert key val =>
    have ⟨n', l', heq, hr', hl'⟩ := hr.insert_lists val hlinks hl (ne_nil_of_isValidKey hop)
    have heq : t.root.insert key val (H key) = .ok (n', m key) := heq
    have hop : isValidKey key := hop
    exact ⟨⟨n'⟩, by simp [Tree.perform, Tree.insert, hop, heq, Except.map, Op.key], _, _, hr', hl'⟩
  | remove key =>
    have ⟨n', l', heq, hr', hl'⟩ := hr.remove_lists key hlinks hl
    have heq : t.root.remove key (H key) true = .ok (n', m key) := heq
    have hop : isValidKey key := hop
    exact ⟨⟨n'⟩, by simp [Tree.perform, Tree.remove, hop, heq, Except.map, Op.key], _, _, hr', hl'⟩
  | get key =>
    have heq : t.root.getCID key (H key) = .ok (m key) := hr.getCID_lists hlinks hl
    have hop : isValidKey key := hop
    exact ⟨t, by simp [Tree.perform, Tree.get, hop, heq, Except.map, Op.key], ht⟩

theorem Tree.Holds.performAll (ht : t.Holds H m) (hops : ∀ op ∈ ops, isValidKey op.key) :
    ∃ t', t.performAll H ops = .ok (t', Op.results m ops) ∧ t'.Holds H (ops.foldl Op.apply m) := by
  induction ops generalizing t m with
  | nil => exact ⟨t, rfl, ht⟩
  | cons op ops ih =>
    have ⟨hop, hops⟩ := List.forall_mem_cons.mp hops
    have ⟨t₁, heq₁, ht₁⟩ := ht.perform hop
    have ⟨t₂, heq₂, ht₂⟩ := ih ht₁ hops
    refine ⟨t₂, ?_, ht₂⟩
    rw [performAll, heq₁]
    show (t₁.performAll H ops >>= _) = _
    rw [heq₂]
    rfl

theorem performAll_refines (heightForKey : Key → ℕ) (ops : List (Op Cid))
    (hops : ∀ op ∈ ops, isValidKey op.key) :
    ∃ t, Tree.newEmptyTree.performAll heightForKey ops = .ok (t, Op.results (fun _ => none) ops) ∧
      Lists t.walk (ops.foldl Op.apply fun _ => none) := by
  have hempty : (Tree.newEmptyTree : Tree Cid).Holds heightForKey fun _ => none :=
    Tree.holds_newEmptyTree
  have ⟨t, heq, ht⟩ := hempty.performAll hops
  exact ⟨t, heq, ht.walk⟩

end Run

theorem performAll_refines_layers : ∃ t : Tree ℕ, Tree.newEmptyTree.performAll List.length
        [.insert [1] 5, .insert [2, 3] 6, .remove [2, 3], .get [1], .insert [1] 7] =
        .ok (t, [none, none, some 6, some 5, some 5]) ∧
      ∀ k v, (k, v) ∈ t.walk ↔ update (update (update (update
        (fun _ => none) [1] (some 5)) [2, 3] (some 6)) [2, 3] none) [1] (some 7) k = some v := by
  have ⟨t, heq, hl⟩ := performAll_refines List.length
    [.insert [1] 5, .insert [2, 3] 6, .remove [2, 3], .get [1], .insert [1] 7] (by decide)
  exact ⟨t, heq, hl.mem_iff⟩

end Atproto.Mst
