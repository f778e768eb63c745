import HypercertsRelay.Atproto.Mst.Written
import HypercertsRelay.Atproto.Mst.Verified
import HypercertsRelay.Atproto.Mst.Refine

namespace Atproto.Mst

open List Function
open NodeEntry Ascending Listing

variable {codec : Codec Cid Block} {H : Key → ℕ} {t : Tree Cid}
  {top last : ℕ} {l l' : Pairs Cid} {m : Key → Option Cid} {v : Cid}

-- All nodes are there, and the CIDs in use are those the codec gives.
def Naming.whole (codec : Codec Cid Block) (heightForKey : Key → ℕ) : Naming Cid :=
  { unnamed heightForKey with
    names h c l := cidAt codec heightForKey h l = .ok c
    names_of_links := False.elim }

theorem Naming.whole_sound : (whole codec H).Sound codec :=
  fun _ _ _ => Iff.rfl

-- A tree whose root is at a height and that holds a map.
structure Tree.At (codec : Codec Cid Block) (heightForKey : Key → ℕ) (t : Tree Cid) (top : ℕ)
    (l : Pairs Cid) (m : Key → Option Cid) : Prop where
  rep : (Naming.whole codec heightForKey).Rep top t.root l
  lists : Lists l m
  valid : ∀ p ∈ l, isValidKey p.1

section Step

theorem Rooted.rep_of_nat (hr : Rooted N (top : ℕ) n l) : N.Rep top n l := by
  generalize htop : (top : ℤ) = i at hr
  cases hr with
  | @rep h _ _ hr => exact Int.ofNat_inj.mp htop ▸ hr
  | unknown => omega

theorem Tree.at_newEmptyTree : (newEmptyTree : Tree Cid).At codec H 0 [] fun _ => none :=
  ⟨.fresh .nil, lists_nil, by simp⟩

theorem Tree.At.verify (ht : t.At codec H top l m) : t.verify H =
      if l = [] ∨ topHeight H l = top then .ok () else .error .pointerTop :=
  ht.rep.verifyStructure_top ht.lists.ascending fun p hp => ne_nil_of_isValidKey (ht.valid p hp)

theorem Tree.At.rootCID (ht : t.At codec H top l m) : (t.rootCID codec).1 = cidAt codec H top l ∧
      (t.rootCID codec).2.At codec H top l m := by
  have hw := ht.rep.writeBlocks Naming.whole_sound
  have heq : t.rootCID codec =
      ((t.root.writeBlocks codec).result, ⟨(t.root.writeBlocks codec).left⟩) := by
    simp [Tree.rootCID, ht.rep.stub]
  rw [heq]
  exact ⟨hw.result, hw.rep, ht.lists, ht.valid⟩

theorem valid_of_update (hm : Lists l m) (hv : ∀ p ∈ l, isValidKey p.1) (hk : isValidKey k)
    (hm' : Lists l' (update m k w)) : ∀ p ∈ l', isValidKey p.1 := by
  rintro ⟨k', v'⟩ hp
  have hp := (hm'.mem_iff k' v').mp hp
  by_cases hkk : k' = k
  · exact hkk ▸ hk
  · rw [update_of_ne hkk] at hp
    exact hv _ ((hm.mem_iff k' v').mpr hp)

theorem Tree.At.insert [DecidableEq Cid] (ht : t.At codec H top l m) (hk : isValidKey k) (v : Cid) :
    ∃ t' l', t.insert H k v = .ok (t', m k) ∧
      t'.At codec H (max top (H k)) l' (update m k (some v)) := by
  have ⟨n', l', heq, hr, hl⟩ := (Rooted.rep ht.rep).insert_lists v (fun _ _ _ => id) ht.lists
    (ne_nil_of_isValidKey hk)
  have heq : t.root.insert k v (H k) = .ok (n', m k) := heq
  have htop : (max top (H k) : ℕ) = max (top : ℤ) (H k) := by omega
  have hr : Rooted (.whole codec H) (max top (H k) : ℕ) n' l' := by
    rw [htop]
    exact hr
  refine ⟨⟨n'⟩, l', ?_, hr.rep_of_nat, hl, valid_of_update ht.lists ht.valid hk hl⟩
  simp [Tree.insert, hk, heq, Except.map]

-- The height of the root after a removal.
def removedTop (heightForKey : Key → ℕ) (top : ℕ) (k : Key) (l : Pairs Cid) : ℕ :=
  if top = heightForKey k ∧ l ≠ [] then topHeight heightForKey l else top

theorem prunedTop_eq : prunedTop H top k l = (removedTop H top k l : ℕ) := by
  simp only [prunedTop, removedTop, Int.ofNat_inj]
  split_ifs <;> rfl

theorem Tree.At.remove (ht : t.At codec H top l m) (hk : isValidKey k) :
    ∃ t' l', t.remove H k = .ok (t', m k) ∧
      t'.At codec H (if m k = none then top else removedTop H top k l') l' (update m k none) := by
  have ⟨n', l', heq, hr, hl⟩ := (Rooted.rep ht.rep).remove_lists k (fun _ _ _ => id) ht.lists
  have heq : t.root.remove k (H k) true = .ok (n', m k) := heq
  have htop : (if m k = none then (top : ℤ) else prunedTop H top k l') =
      (if m k = none then top else removedTop H top k l' : ℕ) := by
    rw [prunedTop_eq]
    split_ifs <;> rfl
  have hr : Rooted (.whole codec H)
      (if m k = none then top else removedTop H top k l' : ℕ) n' l' := htop ▸ hr
  refine ⟨⟨n'⟩, l', ?_, hr.rep_of_nat, hl, valid_of_update ht.lists ht.valid hk hl⟩
  simp [Tree.remove, hk, heq, Except.map]

end Step

section Top

-- The root is as high as the highest key, or as the key that was removed last.
def Tidy (heightForKey : Key → ℕ) (top last : ℕ) (l : Pairs Cid) : Prop :=
  top = if l = [] then last else topHeight heightForKey l

theorem topHeight_update (hm : Lists l m) (hm' : Lists l' (update m k (some w))) :
    topHeight H l' = max (topHeight H l) (H k) := by
  apply le_antisymm
  case a =>
    refine topHeight_le fun ⟨k', v'⟩ hp => ?_
    have hp := (hm'.mem_iff k' v').mp hp
    by_cases hkk : k' = k
    · exact hkk ▸ le_max_right _ _
    · rw [update_of_ne hkk] at hp
      exact (le_topHeight ((hm.mem_iff k' v').mpr hp)).trans (le_max_left _ _)
  case a =>
    have hk : H k ≤ topHeight H l' := le_topHeight ((hm'.mem_iff k w).mpr (by simp))
    refine max_le (topHeight_le fun ⟨k', v'⟩ hp => ?_) hk
    have hp := (hm.mem_iff k' v').mp hp
    by_cases hkk : k' = k
    · exact hkk ▸ hk
    · exact le_topHeight ((hm'.mem_iff k' v').mpr (by rwa [update_of_ne hkk]))

theorem ne_nil_of_update (hm' : Lists l' (update m k (some w))) : l' ≠ [] :=
  ne_nil_of_mem ((hm'.mem_iff k w).mpr (by simp))

-- An insertion keeps the root tidy unless it puts a key into an empty tree that is higher.
theorem tidy_insert_iff (ht : Tidy H top last l) (hm : Lists l m)
    (hm' : Lists l' (update m k (some w))) :
    topHeight H l' = max top (H k) ↔ (l = [] → last ≤ H k) := by
  rw [topHeight_update hm hm', ht]
  by_cases hl : l = []
  · simp [hl, topHeight]
  · simp [hl]

theorem tidy_remove (ht : Tidy H top last l) (hm : Lists l m) (hk : m k = some v)
    (hm' : Lists l' (update m k none)) :
    Tidy H (removedTop H top k l') (H k) l' := by
  have hmem := (hm.mem_iff k v).mpr hk
  have hl : l ≠ [] := ne_nil_of_mem hmem
  have htop : top = topHeight H l := by rw [ht, if_neg hl]
  have hsub : ∀ p ∈ l', p ∈ l := fun ⟨k', v'⟩ hp => by
    have hp := (hm'.mem_iff k' v').mp hp
    by_cases hkk : k' = k
    case pos => simp [hkk] at hp
    case neg => exact (hm.mem_iff k' v').mpr (by rwa [update_of_ne hkk] at hp)
  have hrest : ∀ p ∈ l, p.1 ≠ k → p ∈ l' := fun ⟨k', v'⟩ hp hkk => by
    refine (hm'.mem_iff k' v').mpr ?_
    rw [update_of_ne hkk]
    exact (hm.mem_iff k' v').mp hp
  have ⟨p, hp, hpt⟩ := exists_topHeight H hl
  rw [Tidy, removedTop]
  by_cases hl' : l' = []
  case pos =>
    have hpk : p.1 = k := by
      by_contra hne
      exact ne_nil_of_mem (hrest p hp hne) hl'
    rw [if_neg (fun h => h.right hl'), if_pos hl', htop, ←hpt, hpk]
  case neg =>
    by_cases hh : top = H k
    case pos => rw [if_pos ⟨hh, hl'⟩, if_neg hl']
    case neg =>
      have hpk : p.1 ≠ k := fun heq => hh (by rw [htop, ←hpt, heq])
      rw [if_neg (fun h => hh h.left), if_neg hl', htop]
      apply le_antisymm
      case a => exact hpt ▸ le_topHeight (hrest p hp hpk)
      case a => exact topHeight_le fun q hq => le_topHeight (hsub q hq)

end Top

section Canonical

variable [DecidableEq Cid] {pairs : Pairs Cid}

-- The tree passes `Verify` and its root has the CID of any tree built for the map from scratch.
def Tree.Canonical (codec : Codec Cid Block) (heightForKey : Key → ℕ) (t : Tree Cid)
    (m : Key → Option Cid) : Prop :=
  t.verify heightForKey = .ok () ∧ ∀ pairs, Enumerates pairs m →
    ∃ t', loadTreeFromMap heightForKey pairs = .ok t' ∧ (t.rootCID codec).1 = (t'.rootCID codec).1

-- Insertions alone: the root stays tidy.
theorem Tree.At.insertAll (ht : t.At codec H top l m) (htidy : Tidy H top 0 l)
    (hv : ∀ p ∈ pairs, isValidKey p.1) :
    ∃ t' top' l', pairs.foldlM (fun t kv => (t.insert H kv.1 kv.2).map (·.1)) t = .ok t' ∧
      t'.At codec H top' l' (pairs.foldl put m) ∧ Tidy H top' 0 l' := by
  induction pairs generalizing t top l m with
  | nil => exact ⟨t, top, l, rfl, ht, htidy⟩
  | cons kv pairs ih =>
    have ⟨hkv, hv⟩ := forall_mem_cons.mp hv
    have ⟨t₁, l₁, heq, ht₁⟩ := ht.insert hkv kv.2
    have htop := (tidy_insert_iff htidy ht.lists ht₁.lists).mpr fun _ => Nat.zero_le _
    have htidy₁ : Tidy H (max top (H kv.1)) 0 l₁ := by
      rw [Tidy, if_neg (ne_nil_of_update ht₁.lists), htop]
    have ⟨t', top', l', heq', ht', htidy'⟩ := ih ht₁ htidy₁ hv
    refine ⟨t', top', l', ?_, ht', htidy'⟩
    rw [foldlM_cons, heq]
    exact heq'

omit [DecidableEq Cid] in
theorem cidAt_nil (h : ℕ) : cidAt codec H h [] = cidAt codec H 0 [] := by
  rw [cidAt_eq, cidAt_eq]
  rfl

variable (codec H) in
theorem Tree.loadTreeFromMap_at (hp : Enumerates pairs m) (hl : Lists l m)
    (hv : ∀ p ∈ l, isValidKey p.1) :
    ∃ t top, loadTreeFromMap H pairs = .ok t ∧ t.At codec H top l m ∧ Tidy H top 0 l := by
  have hv' : ∀ p ∈ pairs, isValidKey p.1 := fun ⟨k, v⟩ hkv =>
    hv _ ((hl.mem_iff k v).mpr ((hp.mem_iff k v).mp hkv))
  have hempty : (newEmptyTree : Tree Cid).At codec H 0 [] fun _ => none := at_newEmptyTree
  have ⟨t, top, l', heq, ht, htidy⟩ := hempty.insertAll rfl hv'
  rw [hp.foldl_put] at ht
  have hsame := ht.lists.unique hl
  subst hsame
  exact ⟨t, top, heq, ht, htidy⟩

-- The tree is canonical unless its root is higher than the highest key.
theorem Tree.At.canonical_iff (ht : t.At codec H top l m) :
    t.Canonical codec H m ↔ l = [] ∨ topHeight H l = top := by
  rw [Tree.Canonical, ht.verify]
  constructor
  case mp =>
    rintro ⟨hverify, _⟩
    by_contra htop
    simp [if_neg htop] at hverify
  case mpr =>
    intro htop
    refine ⟨if_pos htop, fun pairs hp => ?_⟩
    have ⟨t', top', heq, ht', htidy⟩ := loadTreeFromMap_at codec H hp ht.lists ht.valid
    refine ⟨t', heq, ?_⟩
    rw [ht.rootCID.left, ht'.rootCID.left]
    by_cases hl : l = []
    · rw [hl, cidAt_nil top, cidAt_nil top']
    · have htop := htop.resolve_left hl
      rw [htidy, if_neg hl, htop]

end Canonical

section Run

-- Calls on a tree. The root's CID may be asked for at any time: it clears marks and keeps CIDs.
inductive Call (Cid : Type) where
  | perform (op : Op Cid)
  | rootCID
deriving DecidableEq

def Call.IsValid : Call Cid → Prop
  | perform op => isValidKey op.key
  | rootCID => True

def Call.apply (m : Key → Option Cid) : Call Cid → Key → Option Cid
  | perform op => op.apply m
  | rootCID => m

-- No key is put into an empty tree that is lower than the key removed last, at height `last`.
def RefillsHigh (heightForKey : Key → ℕ) (m : Key → Option Cid) (last : ℕ) : List (Call Cid) → Prop
  | [] => True
  | .perform (.insert k v) :: rest =>
    ((∀ k, m k = none) → last ≤ heightForKey k) ∧
      RefillsHigh heightForKey (update m k (some v)) last rest
  | .perform (.remove k) :: rest =>
    RefillsHigh heightForKey (update m k none) (if m k = none then last else heightForKey k) rest
  | .perform (.get _) :: rest => RefillsHigh heightForKey m last rest
  | .rootCID :: rest => RefillsHigh heightForKey m last rest

variable [DecidableEq Cid]

def Tree.call (codec : Codec Cid Block) (heightForKey : Key → ℕ) (t : Tree Cid) :
    Call Cid → Except Error (Tree Cid)
  | .perform op => (t.perform heightForKey op).map (·.1)
  | .rootCID => .ok (t.rootCID codec).2

-- The tree is canonical after each of the calls.
def Tree.StaysCanonical (codec : Codec Cid Block) (heightForKey : Key → ℕ) (t : Tree Cid)
    (m : Key → Option Cid) (calls : List (Call Cid)) : Prop :=
  ∀ done, done <+: calls → ∃ t', done.foldlM (call codec heightForKey) t = .ok t' ∧
    t'.Canonical codec heightForKey (done.foldl Call.apply m)

theorem Tree.staysCanonical_cons (heq : t.call codec H c = .ok t') :
    t.StaysCanonical codec H m (c :: calls) ↔ t.Canonical codec H m ∧
        t'.StaysCanonical codec H (c.apply m) calls := by
  constructor
  case mp =>
    intro h
    have ⟨t₀, heq₀, hc⟩ := h [] (List.nil_prefix)
    cases heq₀
    refine ⟨hc, fun done hdone => ?_⟩
    have ⟨t₁, heq₁, hc₁⟩ := h (c :: done) (cons_prefix_cons.mpr ⟨rfl, hdone⟩)
    rw [foldlM_cons, heq] at heq₁
    exact ⟨t₁, heq₁, hc₁⟩
  case mpr =>
    rintro ⟨hc, h⟩ done hdone
    cases done with
    | nil => exact ⟨t, rfl, hc⟩
    | cons c' done =>
      have ⟨hcc, hprefix⟩ := cons_prefix_cons.mp hdone
      subst hcc
      have ⟨t₁, heq₁, hc₁⟩ := h done hprefix
      refine ⟨t₁, ?_, hc₁⟩
      rw [foldlM_cons, heq]
      exact heq₁

theorem Tree.staysCanonical_nil : t.StaysCanonical codec H m [] ↔ t.Canonical codec H m := by
  constructor
  case mp =>
    intro h
    have ⟨t₀, heq₀, hc⟩ := h [] (prefix_refl _)
    cases heq₀
    exact hc
  case mpr =>
    intro h done hdone
    have hnil := prefix_nil.mp hdone
    subst hnil
    exact ⟨t, rfl, h⟩

theorem Tree.StaysCanonical.canonical
    (h : t.StaysCanonical codec H m calls) : t.Canonical codec H m :=
  staysCanonical_nil.mp fun done hdone => h done (hdone.trans nil_prefix)

theorem Tree.At.canonical (ht : t.At codec H top l m)
    (htidy : Tidy H top last l) : t.Canonical codec H m := by
  refine ht.canonical_iff.mpr ?_
  by_cases hl : l = []
  · exact .inl hl
  · exact .inr (by rw [htidy, if_neg hl])

section Calls

variable (calls : List (Call Cid)) (ht : t.At codec H top l m)
  (htidy : Tidy H top last l)

include ht htidy

variable (v) in
theorem Tree.At.staysCanonical_insert (hk : isValidKey k) : ∃ (t' : Tree Cid) (l' : Pairs Cid),
      t'.At codec H (max top (H k)) l' (update m k (some v)) ∧
      (t.StaysCanonical codec H m (.perform (.insert k v) :: calls) ↔
        t'.StaysCanonical codec H (update m k (some v)) calls) := by
  have ⟨t', l', heq, ht'⟩ := ht.insert hk v
  have hstep : t.call codec H (.perform (.insert k v)) = .ok t' := by
    simp [call, perform, heq, Except.map]
  refine ⟨t', l', ht', ?_⟩
  rw [staysCanonical_cons hstep, and_iff_right (ht.canonical htidy)]
  rfl

theorem Tree.At.staysCanonical_remove (hk : isValidKey k) : ∃ (t' : Tree Cid) (l' : Pairs Cid),
      t'.At codec H (if m k = none then top else removedTop H top k l') l' (update m k none) ∧
      (t.StaysCanonical codec H m (.perform (.remove k) :: calls) ↔
        t'.StaysCanonical codec H (update m k none) calls) := by
  have ⟨t', l', heq, ht'⟩ := ht.remove hk
  have hstep : t.call codec H (.perform (.remove k)) = .ok t' := by
    simp [call, perform, heq, Except.map]
  refine ⟨t', l', ht', ?_⟩
  rw [staysCanonical_cons hstep, and_iff_right (ht.canonical htidy)]
  rfl

theorem Tree.At.staysCanonical_get (hk : isValidKey k) :
    t.StaysCanonical codec H m (.perform (.get k) :: calls) ↔ t.StaysCanonical codec H m calls := by
  have heq : t.root.getCID k (H k) = .ok (m k) :=
    (Rooted.rep ht.rep).getCID_lists (fun _ _ _ => id) ht.lists
  have hstep : t.call codec H (.perform (.get k)) = .ok t := by
    simp [call, perform, get, hk, heq, Except.map]
  rw [staysCanonical_cons hstep, and_iff_right (ht.canonical htidy)]
  rfl

theorem Tree.At.staysCanonical_rootCID : t.StaysCanonical codec H m (.rootCID :: calls) ↔
      (t.rootCID codec).2.StaysCanonical codec H m calls := by
  have hstep : t.call codec H .rootCID = .ok (t.rootCID codec).2 := rfl
  rw [staysCanonical_cons hstep, and_iff_right (ht.canonical htidy)]
  rfl

end Calls

omit [DecidableEq Cid] in
theorem Tidy.remove (ht : t.At codec H top l m) (htidy : Tidy H top last l)
    (hm' : Lists l' (update m k none)) :
    Tidy H (if m k = none then top else removedTop H top k l')
      (if m k = none then last else H k) l' := by
  cases hmk : m k with
  | none =>
    rw [←hmk, update_eq_self] at hm'
    rw [if_pos rfl, if_pos rfl, hm'.unique ht.lists]
    exact htidy
  | some v => exact tidy_remove htidy ht.lists hmk hm'

theorem Tree.At.staysCanonical_iff (ht : t.At codec H top l m)
    (htidy : Tidy H top last l) (hv : ∀ c ∈ calls, c.IsValid) :
    t.StaysCanonical codec H m calls ↔ RefillsHigh H m last calls := by
  induction calls generalizing t top l m last with
  | nil => exact ⟨fun _ => trivial, fun _ => staysCanonical_nil.mpr (ht.canonical htidy)⟩
  | cons c calls ih =>
    have ⟨hc, hcalls⟩ := forall_mem_cons.mp hv
    match c with
    | .rootCID =>
      rw [ht.staysCanonical_rootCID calls htidy]
      exact ih ht.rootCID.right htidy hcalls
    | .perform (.get k) =>
      have hk : isValidKey k := hc
      rw [ht.staysCanonical_get calls htidy hk]
      exact ih ht htidy hcalls
    | .perform (.remove k) =>
      have hk : isValidKey k := hc
      have ⟨t', l', ht', hiff⟩ := ht.staysCanonical_remove calls htidy hk
      rw [hiff]
      exact ih ht' (htidy.remove ht ht'.lists) hcalls
    | .perform (.insert k v) =>
      have hk : isValidKey k := hc
      have ⟨t', l', ht', hiff⟩ := ht.staysCanonical_insert v calls htidy hk
      have htop := tidy_insert_iff htidy ht.lists ht'.lists
      have hl' := ne_nil_of_update ht'.lists
      rw [hiff, RefillsHigh, ←ht.lists.eq_nil_iff, ←htop]
      constructor
      case mp =>
        intro h
        have heq := (ht'.canonical_iff.mp h.canonical).resolve_left hl'
        exact ⟨heq, (ih ht' (by rw [Tidy, if_neg hl', heq]) hcalls).mp h⟩
      case mpr =>
        rintro ⟨heq, h⟩
        exact (ih ht' (by rw [Tidy, if_neg hl', heq]) hcalls).mpr h

-- A tree started empty stays canonical exactly as long as it is refilled only from above.
theorem staysCanonical_newEmptyTree_iff (codec : Codec Cid Block) (heightForKey : Key → ℕ)
    (calls : List (Call Cid)) (hv : ∀ c ∈ calls, c.IsValid) :
    Tree.newEmptyTree.StaysCanonical codec heightForKey (fun _ => none) calls ↔
      RefillsHigh heightForKey (fun _ => none) 0 calls :=
  Tree.at_newEmptyTree.staysCanonical_iff rfl hv

end Run

section Sample

def sampleCodec : Codec ℕ (NodeData ℕ) where
  marshalCBOR := some
  unmarshalCBOR := some
  sum d := match d.left with
    | some c => 2 * c + 1
    | none => 2 * (d.entries.map (·.value)).sum

def sampleHeight (k : Key) : ℕ :=
  if k = [1] then 1 else 0

theorem staysCanonical_newEmptyTree_sample :
    Tree.newEmptyTree.StaysCanonical sampleCodec sampleHeight (fun _ => none)
      [.perform (.insert [0] 6), .rootCID, .perform (.insert [1] 5), .perform (.remove [0]),
        .rootCID] :=
  (staysCanonical_newEmptyTree_iff _ _ _ (by simp [Call.IsValid, isValidKey, Op.key])).mpr
    (by simp [RefillsHigh])

-- An emptied tree keeps its height: a lower key then goes below a root that is just a pointer.
theorem not_staysCanonical_refill :
    ¬Tree.newEmptyTree.StaysCanonical sampleCodec sampleHeight (fun _ => none)
      [.perform (.insert [1] 5), .perform (.remove [1]), .perform (.insert [0] 6)] := by
  intro h
  have ⟨t, heq, hverify, _⟩ := h _ (prefix_refl _)
  have heval : ([.perform (.insert [1] 5), .perform (.remove [1]),
      .perform (.insert [0] 6)].foldlM (Tree.call sampleCodec sampleHeight)
        Tree.newEmptyTree).map (·.verify sampleHeight) = .ok (.error .pointerTop) := by
    decide +kernel
  rw [heq] at heval
  cases hverify.symm.trans (Except.ok.inj heval)

end Sample

end Atproto.Mst
