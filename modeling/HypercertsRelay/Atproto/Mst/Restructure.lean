import HypercertsRelay.Atproto.Mst.Around

namespace Atproto.Mst

open List
open NodeEntry Ascending Outline Node

variable {N : Naming Cid} {A G B es : List (NodeEntry Cid)}

theorem drop_length_succ (x y : List α) (a : α) : (x ++ a :: y).drop (x.length + 1) = y := by
  rw [append_cons, drop_left' (by simp)]

theorem Naming.NodeAt.fresh (hl : Layer N.heightForKey (N.Below h) h es l) :
    N.Rep h (.fresh h es) l :=
  ⟨rfl, rfl, nofun, hl⟩

theorem Naming.NodeAt.below (hr : N.Rep h n l) (hl : l ≠ [])
    (hd : n.dirty) : N.Below (h + 1) (child c n d) l :=
  ⟨hl, hr, by simp [hd]⟩

-- The entries around a value of the node itself.
theorem Naming.NodeAt.cut_value (hr : N.Rep h n l) (hs : IsAscending Prod.fst l)
    (hm : (key, v) ∈ l) (hh : N.heightForKey key = h) :
    ∃ A G B la lg lb d, n.entries = A ++ (G ++ value key v d :: B) ∧
      l = la ++ (lg ++ (key, v) :: lb) ∧ key ≠ [] ∧ Before N.heightForKey (N.Below h) h key A la ∧
      Gap (N.Below h) G lg ∧ Layer N.heightForKey (N.Below h) h B lb := by
  have ⟨A, G, B, la, lg, lb, hes, hl, ha, hg, hb⟩ := hr.layer.cut key
  subst hl
  have ⟨hsa, hsr, _⟩ := pairwise_append.mp hs
  have ⟨_, hsb, _⟩ := pairwise_append.mp hsr
  have hma : (key, v) ∉ la := fun hm => (ha.lt hsa _ hm).false
  have hmg : (key, v) ∉ lg := by
    cases hg with
    | none => simp
    | child _ he => exact fun hm => (he.height_lt _ hm).ne hh
  have hmb : (key, v) ∈ lb := by simpa [hma, hmg] using hm
  cases hb with
  | nil => simp at hmb
  | @value k v' d B lb hk _ hle hlayer =>
    have ⟨hlt, _⟩ := pairwise_cons.mp hsb
    cases mem_cons.mp hmb
    case inl heq =>
      cases heq
      exact ⟨A, G, B, la, lg, lb, d, hes, rfl, hk, ha, hg, hlayer⟩
    case inr hm => exact absurd (hlt _ hm) hle.not_gt

theorem findExistingEntry_cut
    (ha : Before N.heightForKey sub h key A la) (hg : Gap sub G lg) (hk : key ≠ []) :
    findExistingEntry key (A ++ (G ++ value key v d :: B)) = some ((A ++ G).length, v) := by
  rw [ha.findExistingEntry]
  cases hg with
  | none => simp [findExistingEntry, hk]
  | @child e _ he _ => cases e <;> simp_all [findExistingEntry, isChild, Nat.add_comm]

section Split

structure Halves (N : Naming Cid) (key : Key) (h : ℕ) (n : Node Cid) (l₁ l₂ : Pairs Cid)
    (left right : Node Cid) : Prop where
  left_rep : N.Rep h left l₁
  right_rep : N.Rep h right l₂
  left_dirty : left.dirty
  right_dirty : right.dirty
  left_ne : l₁ ≠ []
  right_ne : l₂ ≠ []
  left_lt : ∀ p ∈ l₁, p.1 < key
  lt_right : ∀ p ∈ l₂, key < p.1
  outline : ∀ all, left.outline N.keys all ++ right.outline N.keys all = n.outline N.keys all

theorem Halves.left_below
    (hh : Halves N key h n l₁ l₂ left right) : N.Below (h + 1) (child none left true) l₁ :=
  hh.left_rep.below hh.left_ne hh.left_dirty

theorem Halves.right_below
    (hh : Halves N key h n l₁ l₂ left right) : N.Below (h + 1) (child none right true) l₂ :=
  hh.right_rep.below hh.right_ne hh.right_dirty

theorem splitChild_append : splitChild key A.length (A ++ child c n d :: B) = n.split key := by
  induction A with
  | nil => simp [splitChild]
  | cons e A ih => simp [splitChild, ih]

theorem Halves.of_entries (h₁ : Layer N.heightForKey (N.Below h) h es₁ l₁)
    (h₂ : Layer N.heightForKey (N.Below h) h es₂ l₂) (hne₁ : l₁ ≠ []) (hne₂ : l₂ ≠ [])
    (hlt₁ : ∀ p ∈ l₁, p.1 < key) (hlt₂ : ∀ p ∈ l₂, key < p.1)
    (ho : ∀ all, outlineEntries N.keys all (es₁ ++ es₂) = n.outline N.keys all) :
    Halves N key h n l₁ l₂ (.fresh h es₁) (.fresh h es₂) where
  left_rep := .fresh h₁
  right_rep := .fresh h₂
  left_dirty := rfl
  right_dirty := rfl
  left_ne := hne₁
  right_ne := hne₂
  left_lt := hlt₁
  lt_right := hlt₂
  outline all := by
    rw [←ho all, outlineEntries_append]
    rfl

theorem splitEntries_append (h₁ : es₁ ≠ []) (h₂ : es₂ ≠ []) :
    splitEntries i (es₁ ++ es₂) es₁.length = .ok (.fresh i es₁, .fresh i es₂) := by
  have hlen₁ := length_pos_of_ne_nil h₁
  have hlen₂ := length_pos_of_ne_nil h₂
  have hmid : ¬(es₁.length = 0 ∨ (es₁ ++ es₂).length ≤ es₁.length) := by
    rw [length_append]
    omega
  rw [splitEntries, if_neg hmid, take_left, drop_left]

theorem Layer.ne_nil (hl : Layer N.heightForKey sub h es l) (hne : l ≠ []) : es ≠ [] := by
  cases hl <;> simp_all

section Index

theorem split_of_value (hes : es ≠ []) (hidx : insertionIndex key 0 es = .ok (idx, false)) :
    split key ⟨es, i, d, c, false⟩ = splitEntries i es idx := by
  simp [split, findInsertionIndex, hes, hidx]

theorem split_of_child (hes : es ≠ []) (hidx : insertionIndex key 0 es = .ok (idx, true)) :
    split key ⟨es, i, d, c, false⟩ = (splitChild key idx es).map fun (left, right) =>
        (.fresh i <| es.take idx ++ [child none left true],
          .fresh i <| child none right true :: es.drop (idx + 1)) := by
  simp [split, findInsertionIndex, hes, hidx]

end Index

theorem Naming.NodeAt.split (hr : N.Rep h n l) (hs : IsAscending Prod.fst l)
    (hne : ∀ p ∈ l, p.1 ≠ key) (hc : ∀ all, Clear key (n.outline N.keys all))
    (hlo : ∃ p ∈ l, p.1 < key) (hhi : ∃ p ∈ l, key < p.1) :
    ∃ l₁ l₂ left right, l = l₁ ++ l₂ ∧ n.split key = .ok (left, right) ∧
      Halves N key h n l₁ l₂ left right := by
  induction h using Nat.strongRecOn generalizing n l with
  | ind h ih =>
  have ⟨A, G, B, la, lg, lb, hes, hl, har, hcg⟩ := hr.around_clear hs hne (hc true)
  subst hl
  have ⟨es, i, d, c, stub⟩ := n
  have hi : i = h := hr.height
  have hstub : stub = false := hr.stub
  subst hi hstub hes
  have hneg : ∀ p ∈ lg, p.1 ≠ key := fun p hp => hne p (by simp [hp])
  have ⟨idx, hidx, hins⟩ := har.insertionIndex hneg hcg
  have hA := har.before.layer .nil
  have hB := Gap.none.layer har.after
  simp only [append_nil, nil_append] at hA hB
  have hnil : A ++ (G ++ B) ≠ [] := har.layer.ne_nil (ne_nil_of_mem hlo.choose_spec.left)
  have hlta := har.before_lt
  have hltb := har.lt_after
  have ⟨p, hp, hp'⟩ := hlo
  have ⟨q, hq, hq'⟩ := hhi
  cases hins with
  | none =>
    have hla : la ≠ [] := by
      rintro rfl
      exact absurd hp' (hltb p hp).not_gt
    have hlb : lb ≠ [] := by
      rintro rfl
      exact absurd hq' (hlta q (by simpa using hq)).not_gt
    refine ⟨la, lb, _, _, by simp, ?_, .of_entries hA hB hla hlb hlta hltb fun _ => rfl⟩
    rw [split_of_value hnil hidx]
    exact splitEntries_append (hA.ne_nil hla) (hB.ne_nil hlb)
  | @below c₁ n₁ d₁ _ hb hlt =>
    have hla : la ≠ [] := by
      rintro rfl
      exact absurd hp' (forall_mem_append.mpr ⟨hlt, hltb⟩ p hp).not_gt
    have hR := (Gap.child rfl hb).layer har.after
    refine ⟨la, lg ++ lb, _, _, rfl, ?_, .of_entries hA hR hla ?_ hlta ?_ fun _ => rfl⟩
    · rw [split_of_value hnil hidx]
      exact splitEntries_append (hA.ne_nil hla) (by simp)
    · simp [hb.ne_nil]
    · exact forall_mem_append.mpr ⟨hlt, hltb⟩
  | @above c₁ n₁ d₁ _ hb hlt =>
    have hlb : lb ≠ [] := by
      rintro rfl
      rw [append_nil] at hq
      exact absurd hq' (forall_mem_append.mpr ⟨hlta, hlt⟩ q hq).not_gt
    have hL := har.before.layer (Layer.last rfl hb)
    refine ⟨la ++ lg, lb, _, _, by simp, ?_, .of_entries hL hB ?_ hlb ?_ hltb fun _ => ?_⟩
    · rw [split_of_value hnil hidx]
      have := splitEntries_append (i := h) (hL.ne_nil (by simp [hb.ne_nil])) (hB.ne_nil hlb)
      simpa using this
    · simp [hb.ne_nil]
    · exact forall_mem_append.mpr ⟨hlta, hlt⟩
    · simp [outline]
  | @inside c₁ n₁ d₁ _ hb hlo hhi =>
    cases h with
    | zero => exact hb.elim
    | succ h =>
      have hgap (all : Bool) := clear_of_cut har.before har.after hs (hc all)
      have hd₁ : n₁.dirty := dirty_of_clear (hgap false)
      have hcl (all : Bool) : Clear key (n₁.outline N.keys all) := by
        rw [←outline_child_of_dirty (c := c₁) (d := d₁) hd₁]
        exact hgap all
      have ⟨l₁, l₂, left, right, hl, hsplit, hh⟩ := ih h (by omega) hb.right.left har.ascending_gap
        hneg hcl hlo hhi
      have hL := har.before.layer (Layer.last rfl hh.left_below)
      have hR := (Gap.child rfl hh.right_below).layer har.after
      refine ⟨la ++ l₁, l₂ ++ lb, _, _, by simp [hl], ?_, .of_entries hL hR ?_ ?_ ?_ ?_ fun all => ?_⟩
      · rw [split_of_child hnil hidx]
        simp [splitChild_append, hsplit, Except.map]
      · simp [hh.left_ne]
      · simp [hh.right_ne]
      · exact forall_mem_append.mpr ⟨hlta, hh.left_lt⟩
      · exact forall_mem_append.mpr ⟨hh.lt_right, hltb⟩
      · simp only [outline, append_assoc, singleton_append, outlineEntries_append,
          outline_cons_of_dirty hh.left_dirty, outline_cons_of_dirty hh.right_dirty,
          outline_cons_of_dirty hd₁, ←hh.outline all]

end Split

section Merge

variable {left right : Node Cid}

theorem mergeEntries_cons (hne : A ≠ []) :
    mergeEntries (e :: A) R = (mergeEntries A R).map (e :: ·) := by
  cases A with
  | nil => exact absurd rfl hne
  | cons e' A => simp [mergeEntries]

theorem mergeEntries_snoc : mergeEntries (A ++ [e]) R = (mergeEntries [e] R).map (A ++ ·) := by
  induction A with
  | nil => cases h : mergeEntries [e] R <;> simp [Except.map, h]
  | cons e' A ih =>
    rw [cons_append, mergeEntries_cons (by simp), ih]
    cases mergeEntries [e] R <;> rfl

theorem Before.mergeEntries (ha : Before N.heightForKey sub h key A la) (hne : A ≠ []) :
    mergeEntries A R = .ok (A ++ R) := by
  induction ha with
  | nil => exact absurd rfl hne
  | @value _ _ _ es _ _ _ _ _ ih =>
    by_cases hes : es = []
    · simp [hes, Mst.mergeEntries]
    · simp [mergeEntries_cons hes, ih hes, Except.map]
  | @child _ _ _ _ _ es _ _ _ _ _ _ _ ih =>
    rw [mergeEntries_cons (by simp)]
    by_cases hes : es = []
    · simp [hes, Mst.mergeEntries, Except.map]
    · simp [mergeEntries_cons hes, ih hes, Except.map]

theorem Node.mergeNodes_eq :
    left.mergeNodes right = (mergeEntries left.entries right.entries).map (.fresh left.height) := by
  cases left
  rfl

-- Two nodes on either side of a key, put together.
theorem Naming.NodeAt.mergeNodes (h₁ : N.Rep h left l₁) (h₂ : N.Rep h right l₂)
    (hs : IsAscending Prod.fst (l₁ ++ l₂)) (hne₁ : l₁ ≠ []) (hne₂ : l₂ ≠ [])
    (hlt₁ : ∀ p ∈ l₁, p.1 < key) (hlt₂ : ∀ p ∈ l₂, key < p.1)
    (hc₁ : Clear key (left.outline N.keys true)) (hc₂ : Clear key (right.outline N.keys true)) :
    ∃ n', left.mergeNodes right = .ok n' ∧ N.Rep h n' (l₁ ++ l₂) ∧ n'.dirty ∧
      ∀ all, Expands (left.outline N.keys all ++ right.outline N.keys all)
        (n'.outline N.keys all) := by
  induction h using Nat.strongRecOn generalizing left right l₁ l₂ with
  | ind h ih =>
  have ⟨hs₁, hs₂, _⟩ := pairwise_append.mp hs
  have ⟨A, G, B₁, la, lg, lb₁, hes₁, hl₁, har₁, hcg₁⟩ :=
    h₁.around_clear hs₁ (fun p hp => (hlt₁ p hp).ne) hc₁
  have ⟨A₂, G', B, la₂, lg', lb, hes₂, hl₂, har₂, hcg₂⟩ :=
    h₂.around_clear hs₂ (fun p hp => (hlt₂ p hp).ne') hc₂
  have hlb₁ : lb₁ = [] := eq_nil_iff_forall_not_mem.mpr fun p hp =>
    (har₁.lt_after p hp).not_gt (hlt₁ p (by simp [hl₁, hp]))
  have hla₂ : la₂ = [] := eq_nil_iff_forall_not_mem.mpr fun p hp =>
    (har₂.before_lt p hp).not_gt (hlt₂ p (by simp [hl₂, hp]))
  have hB₁ := har₁.after.eq_nil_iff.mpr hlb₁
  have hA₂ := har₂.before.eq_nil_iff.mpr hla₂
  subst hlb₁ hla₂ hB₁ hA₂
  simp only [append_nil, nil_append] at hes₁ hl₁ hes₂ hl₂
  suffices hsuff : ∃ es', mergeEntries (A ++ G) (G' ++ B) = .ok es' ∧
      Layer N.heightForKey (N.Below h) h es' (l₁ ++ l₂) ∧
        ∀ all, Expands (outlineEntries N.keys all (A ++ G) ++ outlineEntries N.keys all (G' ++ B))
          (outlineEntries N.keys all es') by
    have ⟨es', hes', hlayer, hexp⟩ := hsuff
    refine ⟨.fresh h es', ?_, .fresh hlayer, rfl, fun all => ?_⟩
    · rw [mergeNodes_eq, hes₁, hes₂, hes', h₁.height]; rfl
    · rw [left.outline_eq, right.outline_eq, hes₁, hes₂]
      exact hexp all
  subst hl₁ hl₂
  rcases har₁.gap_cases hcg₁ with ⟨rfl, rfl⟩ | ⟨c, n, d, rfl, hb⟩
  · have hA : A ≠ [] := mt har₁.before.eq_nil_iff.mp (by simpa using hne₁)
    refine ⟨_, by rw [append_nil]; exact har₁.before.mergeEntries hA, ?_, fun all => ?_⟩
    · rw [append_nil]
      exact har₁.before.layer (har₂.gap.layer har₂.after)
    · rw [append_nil, ←outlineEntries_append]
      exact .refl _
  · rw [mergeEntries_snoc]
    rcases har₂.gap_cases hcg₂ with ⟨rfl, rfl⟩ | ⟨c', n', d', rfl, hb'⟩
    · have hlayer := har₁.before.layer ((Gap.child rfl hb).layer har₂.after)
      refine ⟨A ++ child c n d :: B, ?_, by simpa using hlayer, fun all => ?_⟩
      · cases har₂.after with
        | nil => simp at hne₂
        | value hk hh hle hl => simp [mergeEntries, Except.map]
      · rw [←outlineEntries_append, append_assoc]
        exact .refl _
    · cases h with
      | zero => exact hb.elim
      | succ h =>
        rw [outline_child_all] at hcg₁ hcg₂
        have hsg : IsAscending Prod.fst (lg ++ lg') :=
          hs.sublist <| (sublist_append_right la lg).append (sublist_append_left lg' lb)
        have ⟨m, hm, hrep, hd, hexp⟩ := ih h (by omega) hb.right.left hb'.right.left hsg hb.left
          hb'.left (fun p hp => hlt₁ p (by simp [hp])) (fun p hp => hlt₂ p (by simp [hp])) hcg₁ hcg₂
        have hbelow : N.Below (h + 1) (child none m true) (lg ++ lg') :=
          hrep.below (by simp [hb.left]) hd
        have hlayer := har₁.before.layer ((Gap.child rfl hbelow).layer har₂.after)
        refine ⟨A ++ child none m true :: B, ?_, by simpa using hlayer, fun all => ?_⟩
        · simp [mergeEntries, hm, Except.map]
        have hleft : Expands (outlineEntries N.keys all [child c n d]) (n.outline N.keys all) :=
          expands_outline_child c n d
        have hboth := (hleft.append (expands_outline_child c' n' d')).trans (hexp all)
        rw [outlineEntries_append, outlineEntries_append, outlineEntries_append,
          outline_cons_of_dirty hd, append_assoc,
          ← append_assoc (outlineEntries N.keys all [child c n d])]
        exact (Expands.refl _).append (hboth.append (.refl _))

end Merge

end Atproto.Mst
