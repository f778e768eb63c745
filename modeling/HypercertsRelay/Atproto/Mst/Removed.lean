import HypercertsRelay.Atproto.Mst.Inserted

namespace Atproto.Mst

open List
open NodeEntry Ascending Outline
open Prod (fst)

variable {N : Naming Cid} {n n' : Node Cid} {l la lg lb l₁ l₂ : Pairs Cid} {prev : Cid}

structure Removed (N : Naming Cid) (key : Key) (h : ℕ) (n : Node Cid) (l₁ l₂ : Pairs Cid)
    (n' : Node Cid) : Prop where
  rep : N.Rep h n' (l₁ ++ l₂)
  dirty : n'.dirty
  shrinks : ∀ all, ∃ x y, Expands (n.outline N.keys all) (x ++ .key key :: y) ∧
    n'.outline N.keys all = x ++ y
  clear : ∀ all, Clear key (n'.outline N.keys all)

section Entry

variable {e : NodeEntry Cid}

theorem deleteEntry_plain (hends : X.getLast?.all (!·.isChild) ∨ Y.head?.all (!·.isChild)) :
    deleteEntry (X ++ e :: Y) X.length = .ok (X ++ Y) := by
  simp only [deleteEntry, take_left, drop_length_succ]
  split
  case h_1 hx hy => simp [hx, hy, isChild] at hends
  case h_2 hx hy => simp_all; grind
  case h_3 => rfl

theorem deleteEntry_merge :
    deleteEntry (A ++ [child c n d] ++ e :: child c' n' d' :: B) (A ++ [child c n d]).length =
      (n.mergeNodes n').map (A ++ child none · true :: B) := by
  simp only [deleteEntry, take_left, drop_length_succ]
  simp

theorem Before.getLast_not_isChild
    (ha : Before N.heightForKey sub h key A la) : A.getLast?.all (!·.isChild) := by
  by_cases hA : A = []
  · simp [hA]
  · have := ha.isBelow_getLast hA
    cases hlast : A.getLast? with
    | none => simp
    | some e => cases e <;> simp_all [isBelow, isChild]

theorem After.head_not_isChild
    (hb : After N.heightForKey sub h key B lb) : B.head?.all (!·.isChild) := by
  cases hb <;> simp [isChild]

-- The children on both sides of the entry that goes away, merged if there are two.
theorem deleteEntry_cut
    (ha : Before N.heightForKey (N.Below h) h key A la) (hg₁ : Gap (N.Below h) G₁ lg₁)
    (hg₂ : Gap (N.Below h) G₂ lg₂) (hb : After N.heightForKey (N.Below h) h key B lb)
    (hs : IsAscending fst (lg₁ ++ lg₂)) (hlt₁ : ∀ p ∈ lg₁, p.1 < key)
    (hlt₂ : ∀ p ∈ lg₂, key < p.1) (hc₁ : Clear key (outlineEntries N.keys true G₁))
    (hc₂ : Clear key (outlineEntries N.keys true G₂)) :
    ∃ G, deleteEntry (A ++ (G₁ ++ value key v d :: (G₂ ++ B))) (A ++ G₁).length =
        .ok (A ++ (G ++ B)) ∧ Gap (N.Below h) G (lg₁ ++ lg₂) ∧
      ∀ all, Expands (outlineEntries N.keys all G₁ ++ outlineEntries N.keys all G₂)
        (outlineEntries N.keys all G) := by
  rw [←append_assoc]
  cases hg₁ with
  | none =>
    refine ⟨G₂, ?_, hg₂, fun all => .refl _⟩
    rw [append_nil, deleteEntry_plain (.inl ha.getLast_not_isChild)]
  | @child e₁ _ he₁ hsub₁ =>
    cases hg₂ with
    | none =>
      refine ⟨[e₁], ?_, by simpa using Gap.child he₁ hsub₁, fun all => ?_⟩
      · rw [nil_append, deleteEntry_plain (.inr hb.head_not_isChild), append_assoc]
      · simpa [outlineEntries] using Expands.refl _
    | @child e₂ _ he₂ hsub₂ =>
      cases h with
      | zero => exact hsub₁.elim
      | succ h =>
        cases e₁ with
        | value => simp [isChild] at he₁
        | link => exact absurd hc₁ not_clear_stretch
        | child c₁ n₁ d₁ =>
          cases e₂ with
          | value => simp [isChild] at he₂
          | link => exact absurd hc₂ not_clear_stretch
          | child c₂ n₂ d₂ =>
            rw [outline_child_all] at hc₁ hc₂
            obtain ⟨m, hm, hrep, hd, hexp⟩ := hsub₁.right.left.mergeNodes hsub₂.right.left hs
              hsub₁.left hsub₂.left hlt₁ hlt₂ hc₁ hc₂
            refine ⟨[child none m true], ?_,
              .child rfl (hrep.below (by simp [hsub₁.left]) hd), fun all => ?_⟩
            · rw [singleton_append, deleteEntry_merge, hm]
              rfl
            · rw [outline_child_of_dirty hd]
              exact ((expands_outline_child ..).append (expands_outline_child ..)).trans (hexp all)

-- The entries on both sides of a value of the node.
theorem Naming.NodeAt.cut_both (hr : N.Rep h n l) (hs : IsAscending fst l)
    (hm : (key, prev) ∈ l) (hh : N.heightForKey key = h) (hc : Clear key (n.outline N.keys true)) :
    ∃ A G₁ G₂ B la lg₁ lg₂ lb d, n.entries = A ++ (G₁ ++ value key prev d :: (G₂ ++ B)) ∧
      l = la ++ (lg₁ ++ (key, prev) :: (lg₂ ++ lb)) ∧ key ≠ [] ∧
      Before N.heightForKey (N.Below h) h key A la ∧ Gap (N.Below h) G₁ lg₁ ∧
      Gap (N.Below h) G₂ lg₂ ∧ After N.heightForKey (N.Below h) h key B lb ∧
      Clear key (outlineEntries N.keys true G₁) ∧ Clear key (outlineEntries N.keys true G₂) := by
  have ⟨A, G₁, B₀, la, lg₁, lb₀, d, hes, hl, hk, ha, hg₁, hlayer⟩ := hr.cut_value hs hm hh
  have ⟨A₂, G₂, B, la₂, lg₂, lb, hes₂, hl₂, ha₂, hg₂, hb⟩ := hlayer.cut key
  subst hl hl₂ hes₂
  have ⟨hsa, hsr, hcross⟩ := pairwise_append.mp hs
  have ⟨_, hsb, hcross'⟩ := pairwise_append.mp hsr
  have ⟨hltb, hsb⟩ := pairwise_cons.mp hsb
  have ⟨hs₂, _, _⟩ := pairwise_append.mp hsb
  have hla₂ : la₂ = [] := eq_nil_iff_forall_not_mem.mpr fun p hp =>
    (ha₂.lt hs₂ p hp).not_gt (hltb p (by simp [hp]))
  have hA₂ := ha₂.eq_nil_iff.mpr hla₂
  subst hla₂ hA₂
  simp only [nil_append] at hes hltb
  have hkA := (ha.layer .nil).keys_outlineEntries true
  have hkG₁ := (hg₁.layer (.nil : After N.heightForKey _ h key [] [])).keys_outlineEntries true
  have hkR := (hg₂.layer hb).keys_outlineEntries true
  have hkB := (Gap.none.layer hb).keys_outlineEntries true
  simp only [append_nil, nil_append] at hkA hkG₁ hkB
  rw [n.outline_eq, hes, outlineEntries_append, outlineEntries_append, outline_cons_value] at hc
  have hle (p : Key × Cid) (hp : p ∈ la) : p.1 ≤ key := (ha.lt hsa p hp).le
  have hle₁ (p : Key × Cid) (hp : p ∈ lg₁) : p.1 ≤ key := (hcross' p hp _ mem_cons_self).le
  have hright := hc.right (by simpa [hkA] using fun k v => hle (k, v))
  refine ⟨A, G₁, G₂, B, la, lg₁, lg₂, lb, d, hes, by simp, hk, ha, hg₁, hg₂, hb, ?_, ?_⟩
  · refine hright.left fun q hq => ?_
    rw [keys_key, hkR] at hq
    cases mem_cons.mp hq
    case inl hq => exact hq.ge
    case inr hq =>
      have ⟨p, hp, hpq⟩ := mem_map.mp hq
      exact hpq ▸ (hltb p hp).le
  · rw [append_cons] at hright
    have hrest := hright.right fun q hq => by
      rw [Outline.keys_append, hkG₁] at hq
      cases mem_append.mp hq
      case inl hq =>
        have ⟨p, hp, hpq⟩ := mem_map.mp hq
        exact hpq ▸ hle₁ p hp
      case inr hq => exact (mem_singleton.mp hq).le
    rw [outlineEntries_append] at hrest
    exact hrest.left (by simpa [hkB] using fun k v hm => (hltb (k, v) (by simp [hm])).le)

theorem Naming.NodeAt.removeEntry_present (hr : N.Rep h n l) (hs : IsAscending fst l)
    (hm : (key, prev) ∈ l) (hh : N.heightForKey key = h) (hc : Clear key (n.outline N.keys true)) :
    ∃ l₁ l₂ n', l = l₁ ++ (key, prev) :: l₂ ∧
      (∀ top, n.removeEntry key top = .ok (if top then n'.pruneTop else n', some prev)) ∧
      Removed N key h n l₁ l₂ n' := by
  obtain ⟨A, G₁, G₂, B, la, lg₁, lg₂, lb, d, hes, hl, hk, ha, hg₁, hg₂, hb, hc₁, hc₂⟩ :=
    hr.cut_both hs hm hh hc
  subst hl
  have hfind := findExistingEntry_cut (v := prev) (d := d) (B := G₂ ++ B) ha hg₁ hk
  rw [←hes] at hfind
  have hs' : IsAscending fst (la ++ ((lg₁ ++ lg₂) ++ lb)) := by
    refine hs.sublist ?_
    simp
  obtain ⟨hsa, hsr, hcross⟩ := pairwise_append.mp hs
  obtain ⟨_, hsb, hcross'⟩ := pairwise_append.mp hsr
  obtain ⟨hltb, hsb⟩ := pairwise_cons.mp hsb
  have hlt₁ : ∀ p ∈ lg₁, p.1 < key := fun p hp => hcross' p hp _ mem_cons_self
  have hlt₂ : ∀ p ∈ lg₂, key < p.1 := fun p hp => hltb p (by simp [hp])
  have hsg : IsAscending fst (lg₁ ++ lg₂) :=
    (pairwise_append.mp (pairwise_append.mp hs').right.left).left
  obtain ⟨G, hdel, hg, hexp⟩ :=
    deleteEntry_cut (v := prev) (d := d) ha hg₁ hg₂ hb hsg hlt₁ hlt₂ hc₁ hc₂
  rw [←hes] at hdel
  have hcg : Clear key (outlineEntries N.keys true G) := (hc₁.append hc₂).expands (hexp true)
  have har : Around N h key A G B la (lg₁ ++ lg₂) lb :=
    ⟨ha, hg, hb, hs', fun p hp => (hltb p (by simp [hp])).ne'⟩
  have hneg : ∀ p ∈ lg₁ ++ lg₂, p.1 ≠ key := forall_mem_append.mpr
    ⟨fun p hp => (hlt₁ p hp).ne, fun p hp => (hlt₂ p hp).ne'⟩
  obtain ⟨G', hprove, hp⟩ := har.proveMutation hneg hcg
  have hlayer := har.before.layer (hp.gap.layer har.after)
  refine ⟨la ++ lg₁, lg₂ ++ lb, { n with entries := A ++ (G' ++ B), dirty := true }, by simp, ?_,
    ⟨hr.stub, hr.height, by rintro ⟨⟩, by simpa using hlayer⟩, rfl, fun all => ?_, fun all => ?_⟩
  · intro top
    simp only [Node.removeEntry, hfind, hdel, bind, Except.bind, hprove, ignorePartial]
    rfl
  · obtain ⟨z₁, z₂, hz, h₁, h₂⟩ := ((hexp all).trans (hp.expands all)).split
    refine ⟨outlineEntries N.keys all A ++ z₁, z₂ ++ outlineEntries N.keys all B, ?_, ?_⟩
    · rw [n.outline_eq, hes, outlineEntries_append, outlineEntries_append, outline_cons_value,
        outlineEntries_append, append_assoc]
      exact (Expands.refl _).append (h₁.append (.key (h₂.append (.refl _))))
    · rw [Node.outline_eq, outlineEntries_append, outlineEntries_append, hz]
      simp
  · exact har.clear_all (hp.clear all)

end Entry

section Child

theorem removeChild_append : removeChild key height A.length (A ++ child c n d :: B) =
    (n.remove key height false).map fun (n', prev) =>
      (A ++ (if n'.isEmpty then B else child c n' true :: B), prev) := by
  induction A with
  | nil => simp [removeChild]
  | cons e A ih =>
    simp only [length_cons, cons_append, removeChild, ih]
    cases n.remove key height false <;> rfl

theorem Layer.eq_nil_iff (hl : Layer N.heightForKey (N.Below h) h es l) : es = [] ↔ l = [] := by
  cases hl with
  | last _ he => simpa using he.ne_nil
  | _ => simp

-- A child that ends up empty goes with its entry.
theorem Removed.of_child
    (har : Around N (h + 1) key A [child c n₁ d] B la lg lb) (hr : N.Rep (h + 1) n l)
    (hes : n.entries = A ++ child c n₁ d :: B) (hrem : Removed N key h n₁ lg₁ lg₂ n') :
    Removed N key (h + 1) n (la ++ lg₁) (lg₂ ++ lb)
      { n with
        entries := A ++ (if n'.isEmpty then B else child c n' true :: B), dirty := true } := by
  have ⟨E, hE, hgap, ho⟩ : ∃ E, (if n'.isEmpty then B else child c n' true :: B) = E ++ B ∧
      Gap (N.Below (h + 1)) E (lg₁ ++ lg₂) ∧
        ∀ all, outlineEntries N.keys all E = n'.outline N.keys all := by
    by_cases hempty : n'.entries = []
    · have hl := hrem.rep.layer.eq_nil_iff.mp hempty
      refine ⟨[], by simp [Node.isEmpty, hempty], hl ▸ .none, fun all => ?_⟩
      rw [n'.outline_eq, hempty]
    · have hl := mt hrem.rep.layer.eq_nil_iff.mpr hempty
      refine ⟨[child c n' true], by simp [Node.isEmpty, hempty],
        .child rfl (hrem.rep.below hl hrem.dirty), fun all => outline_child_of_dirty hrem.dirty⟩
  rw [hE]
  have hlayer := har.before.layer (hgap.layer har.after)
  refine ⟨⟨hr.stub, hr.height, nofun, by simpa using hlayer⟩, rfl, fun all => ?_, fun all => ?_⟩
  · have ⟨x, y, hexp, hxy⟩ := hrem.shrinks all
    refine ⟨outlineEntries N.keys all A ++ x, y ++ outlineEntries N.keys all B, ?_, ?_⟩
    · have := (expands_outline_child c n₁ d).trans hexp
      rw [n.outline_eq, hes, outlineEntries_append, outlineEntries_cons, append_assoc,
        ← cons_append, ←append_assoc x]
      exact (Expands.refl _).append (this.append (.refl _))
    · rw [Node.outline_eq, outlineEntries_append, outlineEntries_append, ho, hxy]
      simp
  · refine har.clear_all ?_
    rw [ho]
    exact hrem.clear all

theorem Naming.NodeAt.remove_eq (hr : N.Rep t n l) :
    n.remove key t top = n.removeEntry key top := by
  obtain ⟨es, d, c, rfl⟩ := hr.exists_eq
  simp [Node.remove]

theorem Naming.NodeAt.remove_child (hr : N.Rep (t + i + 1) n l)
    (hidx : findExistingChild key n.entries = some idx) :
    n.remove key t top = (removeChild key t idx n.entries).map fun
      | (_, none) => (n, none)
      | (es', some prev) => ({ n with entries := es', dirty := true }, some prev) := by
  obtain ⟨es, d, c, rfl⟩ := hr.exists_eq
  have hlt : ¬(t + i + 1 : ℕ) < (t : Int) ∧ (t : Int) < (t + i + 1 : ℕ) := by omega
  rcases hres : removeChild key t idx es with e | ⟨es', _ | prev⟩ <;>
    simp only [Node.remove, hlt, hidx, hres, Except.map, Bool.false_eq_true, if_false, if_true]

theorem Naming.NodeAt.remove_none (hr : N.Rep (t + i + 1) n l)
    (hidx : findExistingChild key n.entries = none) : n.remove key t top = .ok (n, none) := by
  obtain ⟨es, d, c, rfl⟩ := hr.exists_eq
  have hlt : ¬(t + i + 1 : ℕ) < (t : Int) ∧ (t : Int) < (t + i + 1 : ℕ) := by omega
  simp only [Node.remove, hlt, hidx, Bool.false_eq_true, if_false, if_true]

theorem Naming.NodeAt.remove_present (hr : N.Rep (t + i) n l) (hs : IsAscending fst l)
    (hm : (key, prev) ∈ l) (hc : Clear key (n.outline N.keys true)) (hh : N.heightForKey key = t) :
    ∃ l₁ l₂ n', l = l₁ ++ (key, prev) :: l₂ ∧ (∀ top, n.remove key t top =
        .ok (if top ∧ i = 0 then n'.pruneTop else n', some prev)) ∧
      Removed N key (t + i) n l₁ l₂ n' := by
  induction i generalizing n l with
  | zero =>
    have hr : N.Rep t n l := hr
    have ⟨l₁, l₂, n', hl, heq, hrem⟩ := hr.removeEntry_present hs hm hh hc
    refine ⟨l₁, l₂, n', hl, fun top => ?_, hrem⟩
    rw [hr.remove_eq, heq]
    simp
  | succ i ih =>
    have ⟨A, G, B, la, lg, lb, hes, hl, har⟩ := hr.around_lower key hs (by omega)
    rw [n.outline_eq, hes] at hc
    have hcg := clear_of_cut har.before har.after har.ascending hc
    have hmg := har.mem_gap (hl ▸ hm)
    rcases har.gap_cases hcg with ⟨hG, hlg⟩ | ⟨c, n₁, d, hG, hb⟩
    · simp [hlg] at hmg
    subst hG
    rw [outline_child_all] at hcg
    have hfind := findExistingChild_cut har.before har.gap har.after
    rw [←hes] at hfind
    have ⟨lg₁, lg₂, n', hlg, heq, hrem⟩ := ih hb.right.left har.ascending_gap hmg hcg
    refine ⟨la ++ lg₁, lg₂ ++ lb, _, by simp [hl, hlg], fun top => ?_, hrem.of_child har hr hes⟩
    rw [hr.remove_child hfind, hes, singleton_append, removeChild_append, heq]
    simp [Except.map]

theorem Naming.NodeAt.remove_absent (hr : N.Rep (t + i) n l)
    (hs : IsAscending fst l) (hne : ∀ p ∈ l, p.1 ≠ key)
    (hc : Clear key (n.outline N.keys true)) : n.remove key t top = .ok (n, none) := by
  induction i generalizing n l top with
  | zero =>
    have hr : N.Rep t n l := hr
    rw [hr.remove_eq]
    simp [Node.removeEntry, hr.layer.findExistingEntry_eq_none hne]
  | succ i ih =>
    have ⟨A, G, B, la, lg, lb, hes, hl, har, hcg⟩ := hr.around_clear hs hne hc
    have hneg : ∀ p ∈ lg, p.1 ≠ key := fun p hp => hne p (by simp [hl, hp])
    have hfind := findExistingChild_cut har.before har.gap har.after
    rw [←hes] at hfind
    rcases har.gap_cases hcg with ⟨rfl, rfl⟩ | ⟨c, n₁, d, rfl, hb⟩
    · exact hr.remove_none (by simpa using hfind)
    · rw [outline_child_all] at hcg
      rw [hr.remove_child hfind, hes, singleton_append, removeChild_append,
        ih hb.right.left har.ascending_gap hneg hcg]
      rfl

end Child

end Atproto.Mst
