import HypercertsRelay.Atproto.Mst.Represent

namespace Atproto.Mst

open List
open NodeEntry Ascending Outline Node
open Prod (fst)

section Ends

variable {sub : NodeEntry Cid → Pairs Cid → Prop}

theorem Layer.mem_of_value {k v d} (hl : Layer H sub h es l) (hm : NodeEntry.value k v d ∈ es) :
    (k, v) ∈ l := by
  induction hl with
  | nil => simp at hm
  | value _ _ _ ih =>
    cases mem_cons.mp hm
    case inl hm => simp_all
    case inr hm => exact mem_cons_of_mem _ (ih hm)
  | last he _ => simp [←mem_singleton.mp hm, isChild] at he
  | @child e _ _ _ _ _ _ he _ _ _ _ ih =>
    cases mem_cons.mp hm
    case inl hm => simp [←hm, isChild] at he
    case inr hm =>
      cases mem_cons.mp hm
      case inl hm => simp_all
      case inr hm => simp [ih hm]

section

variable (ha : Before H sub h key A la)

include ha

theorem Before.not_isAbove_head (hne : A ≠ []) : ¬(A ++ R).head?.any (isAbove key) := by
  cases ha with
  | nil => exact absurd rfl hne
  | value _ _ hlt _ => simp [isAbove, hlt.not_gt]
  | @child e _ _ _ _ _ _ he => cases e <;> simp_all [isAbove, isChild]

theorem Before.isBelow_getLast (hne : A ≠ []) : A.getLast?.any (isBelow key) := by
  induction ha with
  | nil => exact absurd rfl hne
  | @value _ _ _ es _ hk _ hlt _ ih =>
    cases es with
    | nil => simp [isBelow, hk, hlt]
    | cons e es => simpa using ih (by simp)
  | @child _ _ _ _ _ es _ _ _ hk _ hlt _ ih =>
    cases es with
    | nil => simp [isBelow, hk, hlt]
    | cons e es => simpa using ih (by simp)

theorem Before.eq_nil_iff : A = [] ↔ la = [] := by
  cases ha <;> simp

end

section

variable (hb : After H sub h key B lb)

include hb

theorem After.eq_nil_iff : B = [] ↔ lb = [] := by
  cases hb <;> simp

theorem After.not_isBelow (hs : IsAscending fst lb) (he : e ∈ B) : ¬isBelow key e := by
  cases e with
  | value k v d =>
    have hm := (Gap.none.layer hb).mem_of_value he
    have := hb.le hs _ hm
    simp [isBelow, this.not_gt]
  | link | child => simp [isBelow]

theorem After.not_isBelow_getLast
    (hs : IsAscending fst lb) (hne : B ≠ []) : ¬(R ++ B).getLast?.any (isBelow key) := by
  have hlast := getLast?_eq_some_getLast hne
  have := hb.not_isBelow hs (getLast_mem hne)
  rw [getLast?_append_of_ne_nil _ hne, hlast]
  simpa using this

end

end Ends

-- Where a key stands relative to the pairs of a node.
def Placed (key : Key) (l : Pairs Cid) : Ordering → Prop
  | .lt => ∀ p ∈ l, key < p.1
  | .gt => ∀ p ∈ l, p.1 < key
  | .eq => (∃ p ∈ l, p.1 < key) ∧ ∃ p ∈ l, key < p.1

variable {N : Naming Cid} {l la lg lb : Pairs Cid}

theorem Placed.childOrder {first last : Bool} (hp : Placed key lg o) (hg : lg ≠ [])
    (ha : ∀ p ∈ la, p.1 < key) (hb : ∀ p ∈ lb, key < p.1) (hf : first ↔ la = [])
    (hl : last ↔ lb = []) : Placed key (la ++ (lg ++ lb)) (childOrder first last o) := by
  have ⟨p, hp'⟩ := exists_mem_of_ne_nil lg hg
  cases o with
  | lt =>
    cases first with
    | true =>
      rw [hf.mp rfl, nil_append]
      exact forall_mem_append.mpr ⟨hp, hb⟩
    | false =>
      have ⟨q, hq⟩ := exists_mem_of_ne_nil la (by simpa using hf)
      exact ⟨⟨q, by simp [hq], ha q hq⟩, p, by simp [hp'], hp p hp'⟩
  | gt =>
    cases last with
    | true =>
      rw [hl.mp rfl, append_nil]
      exact forall_mem_append.mpr ⟨ha, hp⟩
    | false =>
      have ⟨q, hq⟩ := exists_mem_of_ne_nil lb (by simpa using hl)
      exact ⟨⟨p, by simp [hp'], hp p hp'⟩, q, by simp [hq], hb q hq⟩
  | eq =>
    have ⟨⟨p, hp, hlt⟩, q, hq, hgt⟩ := hp
    exact ⟨⟨p, by simp [hp], hlt⟩, q, by simp [hq], hgt⟩

-- No part of the node that is out of view is next to the key.
structure Marks (N : Naming Cid) (key : Key) (n n' : Node Cid) : Prop where
  dirty : n'.dirty
  expands : ∀ all, Expands (n.outline N.keys all) (n'.outline N.keys all)
  clear : ∀ all, Clear key (n'.outline N.keys all)

section Clear

variable {all : Bool}

theorem expands_cut (hg : Expands (outlineEntries N.keys all G) (outlineEntries N.keys all D)) :
    Expands (outlineEntries N.keys all (A ++ (G ++ B)))
      (outlineEntries N.keys all (A ++ (D ++ B))) := by
  simp only [outlineEntries_append]
  exact (Expands.refl _).append (hg.append (.refl _))

variable (all) in
theorem Before.outline_snoc (ha : Before N.heightForKey sub h key A la) :
    A = [] ∨ ∃ o k, outlineEntries N.keys all A = o ++ [.key k] ∧ k < key := by
  induction ha with
  | nil => exact .inl rfl
  | @value k v d es l _ _ hlt _ ih =>
    refine .inr ?_
    cases ih
    case inl ih => exact ⟨[], k, by simp [ih, outlineEntries], hlt⟩
    case inr ih =>
      have ⟨o, k', ho, hlt'⟩ := ih
      exact ⟨.key k :: o, k', by simp [outlineEntries, ho], hlt'⟩
  | @child e l₁ k v d es l₂ _ _ _ _ hlt _ ih =>
    refine .inr ?_
    have hcons : outlineEntries N.keys all (e :: NodeEntry.value k v d :: es) =
        outlineEntries N.keys all [e] ++ .key k :: outlineEntries N.keys all es := by
      rw [←outlineEntries, ←outlineEntries_append]
      rfl
    cases ih
    case inl ih => exact ⟨outlineEntries N.keys all [e], k, by rw [hcons, ih]; rfl, hlt⟩
    case inr ih =>
      have ⟨o, k', ho, hlt'⟩ := ih
      exact ⟨outlineEntries N.keys all [e] ++ .key k :: o, k', by simp [hcons, ho], hlt'⟩

theorem Before.clear
    (ha : Before N.heightForKey sub h key A la) : Clear key (outlineEntries N.keys all A) := by
  cases ha.outline_snoc all
  case inl ha =>
    rw [ha]
    exact clear_of_forall_key (by simp [outlineEntries])
  case inr ha =>
    have ⟨o, k, ho, hlt⟩ := ha
    rw [ho]
    exact clear_snoc_of_lt hlt

theorem After.clear (hb : After N.heightForKey sub h key B lb) (hne : ∀ p ∈ lb, p.1 ≠ key) :
    Clear key (outlineEntries N.keys all B) := by
  cases hb with
  | nil => exact clear_of_forall_key (by simp [outlineEntries])
  | value _ _ hle _ => exact clear_cons_of_lt (hle.lt_of_ne (hne _ mem_cons_self).symm)

variable (ha : Before N.heightForKey (N.Below h) h key A la)
  (hb : After N.heightForKey (N.Below h) h key B lb) (hs : IsAscending Prod.fst (la ++ (lg ++ lb)))

include ha hb hs

theorem clear_of_cut (hc : Clear key (outlineEntries N.keys all (A ++ (G ++ B)))) :
    Clear key (outlineEntries N.keys all G) := by
  rw [outlineEntries_append, outlineEntries_append] at hc
  have hsa := (pairwise_append.mp hs).left
  have hsb := (pairwise_append.mp (pairwise_append.mp hs).right.left).right.left
  have hka : Outline.keys (outlineEntries N.keys all A) = la.map fst := by
    simpa using (ha.layer .nil).keys_outlineEntries all
  have hkb : Outline.keys (outlineEntries N.keys all B) = lb.map fst :=
    (Gap.none.layer hb).keys_outlineEntries all
  have hright := hc.right (by simpa [hka] using fun k v hm => (ha.lt hsa _ hm).le)
  exact hright.left (by simpa [hkb] using fun k v hm => hb.le hsb _ hm)

omit hs in
theorem clear_cut (hne : ∀ p ∈ lb, p.1 ≠ key) (hc : Clear key (outlineEntries N.keys all G)) :
    Clear key (outlineEntries N.keys all (A ++ (G ++ B))) := by
  rw [outlineEntries_append, outlineEntries_append]
  exact ha.clear.append (hc.append (hb.clear hne))

end Clear

section Compare

variable {es : List (NodeEntry Cid)}

-- The ends of a node tell the order only if the key is before all or after all of its entries.
theorem compareKey_of_mid (hne : es ≠ []) (hhead : ¬es.head?.any (isAbove key))
    (hlast : ¬es.getLast?.any (isBelow key)) :
    compareKey key markDirty ⟨es, i, d, c, false⟩ =
      (compareEntries key markDirty true es).map id (⟨·, i, d || markDirty, c, false⟩) := by
  simp [compareKey, hne, hhead, hlast]

-- A node with its entries kept and the mark of the comparison.
theorem Naming.NodeAt.mark (hr : N.NodeAt sub h ⟨es, i, d, c, false⟩ l)
    (markDirty : Bool) : N.NodeAt sub h ⟨es, i, d || markDirty, c, false⟩ l := by
  refine ⟨rfl, hr.height, fun hd => hr.cached ?_, hr.layer⟩
  simp_all

-- What a comparison finds at a node, and what it leaves there.
structure Compared (N : Naming Cid) (key : Key) (markDirty : Bool) (n : Node Cid) (l : Pairs Cid)
    (keeps : Node Cid → Prop) (o : Ordering) (n' : Node Cid) : Prop where
  eq : n.compareKey key markDirty = (.ok o, n')
  placed : Placed key l o
  same : markDirty = false → n' = n
  keeps : keeps n'
  marks : markDirty → Marks N key n n'

theorem Marks.of_entries
    (hexp : ∀ all, Expands (outlineEntries N.keys all es) (outlineEntries N.keys all es'))
    (hclear : ∀ all, Clear key (outlineEntries N.keys all es')) :
    Marks N key ⟨es, i, d, c, false⟩ ⟨es', i, true, c, false⟩ :=
  ⟨rfl, hexp, hclear⟩

theorem Compared.of_eq (hr : N.Rep h ⟨es, i, d, c, false⟩ l)
    (heq : compareKey key markDirty ⟨es, i, d, c, false⟩ =
      (.ok o, ⟨es, i, d || markDirty, c, false⟩))
    (hp : Placed key l o) (hclear : ∀ all, Clear key (outlineEntries N.keys all es)) :
    Compared N key markDirty ⟨es, i, d, c, false⟩ l (N.Rep h · l) o
      ⟨es, i, d || markDirty, c, false⟩ where
  eq := heq
  placed := hp
  same hm := by simp [hm]
  keeps := hr.mark markDirty
  marks hm := by
    rw [hm, Bool.or_true]
    exact .of_entries (fun _ => .refl _) hclear

theorem compareKey_child (ha : Before N.heightForKey sub h key A la)
    (hb : After N.heightForKey sub h key B lb) (hs : IsAscending fst lb)
    (heq : n₁.compareKey key markDirty = (.ok o, n')) :
    compareKey key markDirty ⟨A ++ child c₁ n₁ d₁ :: B, i, d, c, false⟩ =
      (.ok (childOrder A.isEmpty B.isEmpty o),
        ⟨A ++ child c₁ n' d₁ :: B, i, d || markDirty, c, false⟩) := by
  have hhead : ¬(A ++ child c₁ n₁ d₁ :: B).head?.any (isAbove key) := by
    by_cases hA : A = []
    · simp [hA, isAbove]
    · exact ha.not_isAbove_head hA
  have hlast : ¬(A ++ child c₁ n₁ d₁ :: B).getLast?.any (isBelow key) := by
    by_cases hB : B = []
    · simp [hB, isBelow]
    · rw [append_cons]
      exact hb.not_isBelow_getLast hs hB
  rw [compareKey_of_mid (by simp) hhead hlast, ha.compareEntries]
  simp [compareEntries, hb.not_skipsChild, heq, Except.map]

-- One layer of the comparison, given what it does at the child next to the key.
theorem Naming.NodeAt.compareKey_layer (hr : N.Rep h ⟨es, i, d, c, false⟩ l)
    (hs : IsAscending fst l) (hl : l ≠ []) (hne : ∀ p ∈ l, p.1 ≠ key)
    (hc : Clear key (outlineEntries N.keys true es))
    (hchild : ∀ c n d lg, N.Below h (child c n d) lg → IsAscending fst lg →
      (∀ p ∈ lg, p.1 ≠ key) → Clear key (n.outline N.keys true) →
      ∃ o n', Compared N key markDirty n lg (fun n' => N.Below h (child c n' d) lg) o n') :
    ∃ o n', Compared N key markDirty ⟨es, i, d, c, false⟩ l (N.Rep h · l) o n' := by
  obtain ⟨A, G, B, la, lg, lb, hes, hle, ha, hg, hb⟩ := hr.layer.cut key
  subst hes hle
  obtain ⟨hsa, hsr, _⟩ := pairwise_append.mp hs
  obtain ⟨hsg, hsb, _⟩ := pairwise_append.mp hsr
  have hlta := ha.lt hsa
  have hneb : ∀ p ∈ lb, p.1 ≠ key := fun p hp => hne p (by simp [hp])
  have hltb : ∀ p ∈ lb, key < p.1 := fun p hp => (hb.le hsb p hp).lt_of_ne (hneb p hp).symm
  cases hg with
  | none =>
    have hclear (all : Bool) : Clear key (outlineEntries N.keys all (A ++ ([] ++ B))) :=
      clear_cut ha hb hneb (clear_of_forall_key (by simp [outlineEntries]))
    by_cases hA : A = []
    · have hla := ha.eq_nil_iff.mp hA
      subst hA hla
      refine ⟨.lt, _, .of_eq hr ?_ (by simpa [Placed] using fun k v => hltb (k, v)) hclear⟩
      cases hb with
      | nil => simp at hl
      | @value k _ _ _ _ hk _ _ _ =>
        have hlt := hltb _ mem_cons_self
        simp [compareKey, isAbove, hk, hlt]
    · have hhead := ha.not_isAbove_head (R := [] ++ B) hA
      obtain ⟨p, hp⟩ := exists_mem_of_ne_nil la (mt ha.eq_nil_iff.mpr hA)
      by_cases hB : B = []
      · have hlb := hb.eq_nil_iff.mp hB
        subst hB hlb
        refine ⟨.gt, _, .of_eq hr ?_ (by simpa [Placed] using fun k v => hlta (k, v)) hclear⟩
        have hlast := ha.isBelow_getLast hA
        simp_all [compareKey]
      · obtain ⟨q, hq⟩ := exists_mem_of_ne_nil lb (mt hb.eq_nil_iff.mpr hB)
        refine ⟨.eq, _, .of_eq hr ?_
          ⟨⟨p, by simp [hp], hlta p hp⟩, q, by simp [hq], hltb q hq⟩ hclear⟩
        have hlast := hb.not_isBelow_getLast hsb hB (R := A)
        rw [compareKey_of_mid (by simp [hA]) hhead hlast, ha.compareEntries, nil_append,
          hb.compareEntries hneb]
        rfl
  | @child e lg he hsub =>
    have hcl := clear_of_cut ha hb hs hc
    cases e with
    | value => simp [isChild] at he
    | link => exact absurd hcl not_clear_stretch
    | child c₁ n₁ d₁ =>
      rw [outline_child_all] at hcl
      obtain ⟨o, n', hcmp⟩ := hchild c₁ n₁ d₁ lg hsub hsg (fun p hp => hne p (by simp [hp])) hcl
      have hlayer := ha.layer ((Gap.child rfl hcmp.keeps).layer hb)
      refine ⟨_, _, compareKey_child ha hb hsb hcmp.eq, ?placed, ?same, ?keeps, ?marks⟩
      case placed =>
        have hla := ha.eq_nil_iff
        have hlb := hb.eq_nil_iff
        exact hcmp.placed.childOrder hsub.ne_nil hlta hltb (by simpa using hla) (by simpa using hlb)
      case same =>
        intro hm
        simp [hm, hcmp.same hm]
      case keeps => exact ⟨rfl, hr.height, fun hd => hr.cached (by simp_all), hlayer⟩
      case marks =>
        intro hm
        have hmarks := hcmp.marks hm
        rw [hm, Bool.or_true]
        refine .of_entries (fun all => ?expands) fun all => ?clear
        case expands =>
          refine expands_cut (G := [child c₁ n₁ d₁]) (D := [child c₁ n' d₁]) ?_
          rw [outline_child_of_dirty hmarks.dirty]
          exact (expands_outline_child ..).trans (hmarks.expands all)
        case clear =>
          refine clear_cut ha hb hneb (G := [child c₁ n' d₁]) ?_
          rw [outline_child_of_dirty hmarks.dirty]
          exact hmarks.clear all

variable (markDirty) in
theorem Naming.NodeAt.compareKey (hr : N.Rep h n l) (hs : IsAscending fst l) (hl : l ≠ [])
    (hne : ∀ p ∈ l, p.1 ≠ key) (hc : Clear key (n.outline N.keys true)) :
    ∃ o n', Compared N key markDirty n l (N.Rep h · l) o n' := by
  have ⟨es, i, d, c, stub⟩ := n
  have hstub : stub = false := hr.stub
  subst hstub
  -- One layer at a time: a node at height zero has no child.
  induction h generalizing es i d c l with
  | zero => exact hr.compareKey_layer hs hl hne hc fun _ _ _ _ hb => hb.elim
  | succ h ih =>
    refine hr.compareKey_layer hs hl hne hc fun c n d lg hb hs hne hc => ?_
    have ⟨es', i', d', c', stub⟩ := n
    have hstub : stub = false := hb.right.left.stub
    subst hstub
    have ⟨o, n', hcmp⟩ := ih hs hb.left hne es' i' d' c' hb.right.left hc
    refine ⟨o, n', hcmp.eq, hcmp.placed, hcmp.same, ⟨hb.left, hcmp.keeps, fun hd hn' => ?_⟩,
      hcmp.marks⟩
    cases hm : markDirty with
    | true => simp [(hcmp.marks hm).dirty] at hn'
    | false => exact hb.right.right hd (hcmp.same hm ▸ hn')

end Compare

end Atproto.Mst
