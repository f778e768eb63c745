import HypercertsRelay.Atproto.Mst.Compare

namespace Atproto.Mst

open List
open NodeEntry Ascending Outline

variable {N : Naming Cid}

-- The entries of a node around a key that is not one of its own values.
structure Around (N : Naming Cid) (h : ℕ) (key : Key) (A G B : List (NodeEntry Cid))
    (la lg lb : Pairs Cid) : Prop where
  before : Before N.heightForKey (N.Below h) h key A la
  gap : Gap (N.Below h) G lg
  after : After N.heightForKey (N.Below h) h key B lb
  ascending : IsAscending Prod.fst (la ++ (lg ++ lb))
  absent_after : ∀ p ∈ lb, p.1 ≠ key

theorem Naming.NodeAt.around_clear (hr : N.Rep h n l) (hs : IsAscending Prod.fst l)
    (hne : ∀ p ∈ l, p.1 ≠ key) (hc : Clear key (n.outline N.keys true)) :
    ∃ A G B la lg lb, n.entries = A ++ (G ++ B) ∧ l = la ++ (lg ++ lb) ∧
      Around N h key A G B la lg lb ∧ Clear key (outlineEntries N.keys true G) := by
  have ⟨A, G, B, la, lg, lb, hes, hl, ha, hg, hb⟩ := hr.layer.cut key
  subst hl
  rw [n.outline_eq, hes] at hc
  exact ⟨A, G, B, la, lg, lb, hes, rfl, ⟨ha, hg, hb, hs, fun p hp => hne p (by simp [hp])⟩,
    clear_of_cut ha hb hs hc⟩

variable (key) in
theorem Naming.NodeAt.around_lower (hr : N.Rep h n l) (hs : IsAscending Prod.fst l)
    (hh : N.heightForKey key < h) :
    ∃ A G B la lg lb, n.entries = A ++ (G ++ B) ∧ l = la ++ (lg ++ lb) ∧
      Around N h key A G B la lg lb := by
  have ⟨A, G, B, la, lg, lb, hes, hl, ha, hg, hb⟩ := hr.layer.cut key
  subst hl
  refine ⟨A, G, B, la, lg, lb, hes, rfl, ha, hg, hb, hs, ?_⟩
  have ⟨_, hsr, _⟩ := pairwise_append.mp hs
  have ⟨_, hsb, _⟩ := pairwise_append.mp hsr
  cases hb with
  | nil => simp
  | value _ hhk hle _ =>
    have ⟨hlt, _⟩ := pairwise_cons.mp hsb
    intro p hp
    cases mem_cons.mp hp
    case inl hp =>
      rintro rfl
      rw [hp, hhk] at hh
      exact hh.false
    case inr hp => exact (hle.trans_lt (hlt p hp)).ne'

namespace Around

variable (hr : Around N h key A G B la lg lb)

include hr

theorem layer : Layer N.heightForKey (N.Below h) h (A ++ (G ++ B)) (la ++ (lg ++ lb)) :=
  hr.before.layer (hr.gap.layer hr.after)

theorem ascending_gap : IsAscending Prod.fst lg :=
  (pairwise_append.mp (pairwise_append.mp hr.ascending).right.left).left

theorem ascending_after : IsAscending Prod.fst lb :=
  (pairwise_append.mp (pairwise_append.mp hr.ascending).right.left).right.left

theorem before_lt : ∀ p ∈ la, p.1 < key :=
  hr.before.lt (pairwise_append.mp hr.ascending).left

theorem lt_after : ∀ p ∈ lb, key < p.1 :=
  fun p hp => (hr.after.le hr.ascending_after p hp).lt_of_ne (hr.absent_after p hp).symm

theorem gap_cases (hc : Clear key (outlineEntries N.keys true G)) :
    G = [] ∧ lg = [] ∨ ∃ c n d, G = [child c n d] ∧ N.Below h (child c n d) lg := by
  cases hr.gap with
  | none => exact .inl ⟨rfl, rfl⟩
  | @child e _ he hb =>
    cases e with
    | value => simp [isChild] at he
    | link => exact absurd hc not_clear_stretch
    | child c n d => exact .inr ⟨c, n, d, rfl, hb⟩

theorem clear_all {all} (hc : Clear key (outlineEntries N.keys all D)) :
    Clear key (outlineEntries N.keys all (A ++ (D ++ B))) :=
  clear_cut hr.before hr.after hr.absent_after hc

end Around

theorem Around.mem_gap (har : Around N h key A G B la lg lb)
    (hm : (key, v) ∈ la ++ (lg ++ lb)) : (key, v) ∈ lg := by
  have hma : (key, v) ∉ la := fun hm => (har.before_lt _ hm).false
  have hmb : (key, v) ∉ lb := fun hm => har.absent_after _ hm rfl
  simpa [hma, hmb] using hm

-- A key in view under the node is in view under the child next to it.
theorem Around.shown_gap (har : Around N h key A G B la lg lb)
    (hv : .key key ∈ outlineEntries N.keys true (A ++ (G ++ B))) :
    ∃ c n d, G = [child c n d] ∧ N.Below h (child c n d) lg ∧ .key key ∈ n.outline N.keys true := by
  have hA := (har.before.layer .nil).keys_outlineEntries true
  have hB := (Gap.none.layer har.after).keys_outlineEntries true
  simp only [append_nil, nil_append] at hA hB
  rw [outlineEntries_append, outlineEntries_append, mem_append, mem_append] at hv
  have hvG : .key key ∈ outlineEntries N.keys true G := by
    rcases hv with hv | hv | hv
    · have ⟨p, hp, hpk⟩ := mem_map.mp (hA ▸ mem_keys hv)
      exact absurd hpk (har.before_lt p hp).ne
    case inr.inl => exact hv
    case inr.inr =>
      have ⟨p, hp, hpk⟩ := mem_map.mp (hB ▸ mem_keys hv)
      exact absurd hpk (har.absent_after p hp)
  cases har.gap with
  | none => simp [outlineEntries] at hvG
  | @child e _ he hb =>
    cases e with
    | value => simp [isChild] at he
    | link => simp [outlineEntries] at hvG
    | child c n d =>
      rw [outline_child_all] at hvG
      exact ⟨c, n, d, rfl, hb, hvG⟩

-- What `findInsertionIndex` finds between the entries before and after the key.
inductive Insertion (N : Naming Cid) (h : ℕ) (key : Key) (A : List (NodeEntry Cid)) :
    List (NodeEntry Cid) → Pairs Cid → ℕ × Bool → Prop where
  | none : Insertion N h key A [] [] (A.length, false)
  | below {c n d lg} :
    N.Below h (child c n d) lg → (∀ p ∈ lg, key < p.1) →
    Insertion N h key A [child c n d] lg (A.length, false)
  | above {c n d lg} :
    N.Below h (child c n d) lg → (∀ p ∈ lg, p.1 < key) →
    Insertion N h key A [child c n d] lg (A.length + 1, false)
  | inside {c n d lg} :
    N.Below h (child c n d) lg → (∃ p ∈ lg, p.1 < key) → (∃ p ∈ lg, key < p.1) →
    Insertion N h key A [child c n d] lg (A.length, true)

theorem Naming.Below.compareKey (markDirty : Bool)
    (hb : N.Below h (child c n d) lg) (hs : IsAscending Prod.fst lg) (hne : ∀ p ∈ lg, p.1 ≠ key)
    (hc : Clear key (n.outline N.keys true)) :
    ∃ o n', Compared N key markDirty n lg (fun n' => N.Below h (child c n' d) lg) o n' := by
  cases h with
  | zero => exact hb.elim
  | succ h =>
    have ⟨o, n', hcmp⟩ := hb.right.left.compareKey markDirty hs hb.left hne hc
    refine ⟨o, n', hcmp.eq, hcmp.placed, hcmp.same, ⟨hb.left, hcmp.keeps, fun hd hn' => ?_⟩,
      hcmp.marks⟩
    cases hm : markDirty with
    | true => simp [(hcmp.marks hm).dirty] at hn'
    | false => exact hb.right.right hd (hcmp.same hm ▸ hn')

theorem Around.insertionIndex (hr : Around N h key A G B la lg lb) (hne : ∀ p ∈ lg, p.1 ≠ key)
    (hc : Clear key (outlineEntries N.keys true G)) :
    ∃ i, insertionIndex key 0 (A ++ (G ++ B)) = .ok i ∧ Insertion N h key A G lg i := by
  rw [hr.before.insertionIndex]
  rcases hr.gap_cases hc with ⟨hG, hlg⟩ | ⟨c, n, d, hG, hb⟩
  · subst hG hlg
    refine ⟨_, hr.after.insertionIndex hr.absent_after, ?_⟩
    simpa using Insertion.none
  subst hG
  rw [outline_child_all] at hc
  have ⟨o, n', hcmp⟩ := hb.compareKey false hr.ascending_gap hne hc
  have hplaced := hcmp.placed
  simp only [singleton_append, Mst.insertionIndex, hr.after.not_skipsChild, hcmp.eq,
    Bool.false_eq_true, if_false, Nat.zero_add]
  cases o with
  | lt => exact ⟨_, rfl, .below hb hplaced⟩
  | eq => exact ⟨_, rfl, .inside hb hplaced.left hplaced.right⟩
  | gt => exact ⟨_, hr.after.insertionIndex hr.absent_after, .above hb hplaced⟩

-- The child next to the key with the marks `proveMutation` leaves.
structure Proven (N : Naming Cid) (key : Key) (h : ℕ) (G : List (NodeEntry Cid)) (lg : Pairs Cid)
    (G' : List (NodeEntry Cid)) : Prop where
  gap : Gap (N.Below h) G' lg
  expands : ∀ all, Expands (outlineEntries N.keys all G) (outlineEntries N.keys all G')
  clear : ∀ all, Clear key (outlineEntries N.keys all G')

theorem Proven.of_marks (hb : N.Below h (child c n' d) lg) (hm : Marks N key n n') :
    Proven N key h [child c n d] lg [child c n' d] where
  gap := .child rfl hb
  expands all := by
    rw [outline_child_of_dirty hm.dirty]
    exact (expands_outline_child ..).trans (hm.expands all)
  clear all := by
    rw [outline_child_of_dirty hm.dirty]
    exact hm.clear all

theorem Marks.trans (h₁ : Marks N key n₁ n₂) (h₂ : Marks N key n₂ n₃) : Marks N key n₁ n₃ :=
  ⟨h₂.dirty, fun all => (h₁.expands all).trans (h₂.expands all), h₂.clear⟩

theorem Around.proveMutation_layer (hr : Around N h key A G B la lg lb) (hne : ∀ p ∈ lg, p.1 ≠ key)
    (hc : Clear key (outlineEntries N.keys true G))
    (hchild : ∀ c n d, N.Below h (child c n d) lg → n.dirty → Clear key (n.outline N.keys true) →
      ∃ es, proveMutation key n.entries = (.ok (), es) ∧
        N.Below h (child c { n with entries := es } d) lg ∧
          Marks N key n { n with entries := es }) :
    ∃ G', proveMutation key (A ++ (G ++ B)) = (.ok (), A ++ (G' ++ B)) ∧
      Proven N key h G lg G' := by
  rw [hr.before.proveMutation]
  rcases hr.gap_cases hc with ⟨hG, hlg⟩ | ⟨c, n, d, hG, hb⟩
  · subst hG hlg
    refine ⟨[], ?_, .none, fun _ => .refl _, fun _ => clear_of_forall_key (by simp [outlineEntries])⟩
    simp [hr.after.proveMutation hr.absent_after]
  subst hG
  rw [outline_child_all] at hc
  obtain ⟨o, n', hcmp⟩ := hb.compareKey true hr.ascending_gap hne hc
  have hm := hcmp.marks rfl
  rw [singleton_append, Mst.proveMutation]
  simp only [hr.after.not_skipsChild, hcmp.eq, Bool.false_eq_true, if_false]
  cases o with
  | lt => exact ⟨_, rfl, .of_marks hcmp.keeps hm⟩
  | gt =>
    refine ⟨_, ?_, .of_marks hcmp.keeps hm⟩
    simp [hr.after.proveMutation hr.absent_after]
  | eq =>
    obtain ⟨es, hes, hb', hm'⟩ := hchild c n' d hcmp.keeps hm.dirty (hm.clear true)
    refine ⟨_, ?_, .of_marks hb' (hm.trans hm')⟩
    simp [hes]

theorem Proven.marks (hp : Proven N key h G lg G')
    (hr : Around N h key A G B la lg lb) (hes : n.entries = A ++ (G ++ B)) (hd : n.dirty) :
    Marks N key n { n with entries := A ++ (G' ++ B) } where
  dirty := hd
  expands all := by
    rw [n.outline_eq, Node.outline_eq, hes]
    exact expands_cut (hp.expands all)
  clear all := by
    rw [Node.outline_eq]
    exact hr.clear_all (hp.clear all)

theorem Around.proveMutation (hr : Around N h key A G B la lg lb) (hne : ∀ p ∈ lg, p.1 ≠ key)
    (hc : Clear key (outlineEntries N.keys true G)) :
    ∃ G', proveMutation key (A ++ (G ++ B)) = (.ok (), A ++ (G' ++ B)) ∧
      Proven N key h G lg G' := by
  induction h generalizing A G B la lg lb with
  | zero => exact hr.proveMutation_layer hne hc fun _ _ _ hb => hb.elim
  | succ h ih =>
    refine hr.proveMutation_layer hne hc fun c n d hb hd hc => ?_
    have hrep := hb.right.left
    have ⟨A', G', B', la', lg', lb', hes, hl, hr', hc'⟩ := hrep.around_clear hr.ascending_gap hne hc
    have ⟨G'', heq, hp⟩ := ih hr' (fun p hp => hne p (by simp [hl, hp])) hc'
    have hlayer := hr'.before.layer (hp.gap.layer hr'.after)
    refine ⟨_, hes ▸ heq, ⟨hb.left, ⟨hrep.stub, hrep.height, ?cached, hl ▸ hlayer⟩, ?entry⟩,
      hp.marks hr' hes hd⟩
    case cached => simp [hd]
    case entry => simp [hd]

end Atproto.Mst
