import HypercertsRelay.Atproto.Mst.Restructure

namespace Atproto.Mst

open List
open NodeEntry Ascending Outline
open Node (fresh insert insertEntry newChild outline outline_eq)

variable {N : Naming Cid} {n n' : Node Cid} {prev : Cid}

-- A new pair between those before and after it. Afterwards all next to the key is in view.
structure Inserted (N : Naming Cid) (key : Key) (val : Cid) (h : ℕ) (n : Node Cid)
    (l₁ l₂ : Pairs Cid) (n' : Node Cid) : Prop where
  rep : N.Rep h n' (l₁ ++ (key, val) :: l₂)
  dirty : n'.dirty
  grows : ∀ all, ∃ x y, Expands (n.outline N.keys all) (x ++ y) ∧
    n'.outline N.keys all = x ++ .key key :: y
  clear : ∀ all, Clear key (n'.outline N.keys all)

-- The node with the value of a pair replaced.
structure Updated (N : Naming Cid) (key : Key) (val : Cid) (h : ℕ) (n : Node Cid)
    (l₁ l₂ : Pairs Cid) (n' : Node Cid) : Prop where
  rep : N.Rep h n' (l₁ ++ (key, val) :: l₂)
  dirty : n'.dirty
  expands : ∀ all, Expands (n.outline N.keys all) (n'.outline N.keys all)
  shown : ∀ all, .key key ∈ n'.outline N.keys all

section Entry

section

variable [DecidableEq Cid]

theorem insertEntry_of_value (hnone : findExistingEntry key n.entries = none)
    (hidx : n.findInsertionIndex key = .ok (idx, false))
    (hp : proveMutation key n.entries = (.ok (), es)) :
    n.insertEntry key val =
      .ok ({ n with entries := es.take idx ++ value key val true :: es.drop idx, dirty := true },
        none) := by
  simp only [insertEntry, hnone, hidx, hp]
  rfl

theorem insertEntry_of_child (hnone : findExistingEntry key n.entries = none)
    (hidx : n.findInsertionIndex key = .ok (idx, true))
    (hp : proveMutation key n.entries = (.ok (), es))
    (hsplit : splitChild key idx es = .ok (left, right)) :
    n.insertEntry key val = .ok ({ n with
        entries := es.take idx ++
          [child none left true, value key val true, child none right true] ++ es.drop (idx + 1),
        dirty := true }, none) := by
  simp only [insertEntry, hnone, hidx, hp]
  simp only [ignorePartial, bind, Except.bind, if_true, hsplit]
  rfl

end

-- The new entries, with the key between what the marks brought into view.
theorem Inserted.of_entries (har : Around N h key A G B la lg lb)
    (hp : Proven N key h G lg G') (hr : N.Rep h n l) (hes : n.entries = A ++ (G ++ B))
    (hl : Layer N.heightForKey (N.Below h) h es (l₁ ++ (key, val) :: l₂))
    (ho : ∀ all, ∃ x y, x ++ y = outlineEntries N.keys all (A ++ (G' ++ B)) ∧
      outlineEntries N.keys all es = x ++ .key key :: y) :
    Inserted N key val h n l₁ l₂ { n with entries := es, dirty := true } where
  rep := ⟨hr.stub, hr.height, nofun, hl⟩
  dirty := rfl
  grows all := by
    have ⟨x, y, hxy, hes'⟩ := ho all
    refine ⟨x, y, ?_, hes'⟩
    rw [hxy, n.outline_eq, hes]
    exact expands_cut (hp.expands all)
  clear all := by
    have ⟨x, y, hxy, hes'⟩ := ho all
    rw [outline_eq, hes']
    refine Clear.insert ?_
    rw [hxy]
    exact har.clear_all (hp.clear all)

theorem Proven.eq_nil (hp : Proven N key h G [] G') : G' = [] := by
  have hg := hp.gap
  generalize hl : ([] : Pairs Cid) = l at hg
  cases hg with
  | none => rfl
  | child _ he => exact absurd hl.symm he.ne_nil

theorem Proven.eq_child (hp : Proven N key h G lg G') (hlg : lg ≠ []) :
    ∃ c n d, G' = [child c n d] ∧ N.Below h (child c n d) lg ∧ n.dirty ∧
      ∀ all, Clear key (n.outline N.keys all) := by
  have hc := hp.clear
  cases hp.gap with
  | none => exact absurd rfl hlg
  | @child e _ he hb =>
    cases e with
    | value => simp [isChild] at he
    | link => exact absurd (hc true) not_clear_stretch
    | child c n d =>
      have hd := dirty_of_clear (hc false)
      refine ⟨c, n, d, rfl, hb, hd, fun all => ?_⟩
      rw [←outline_child_of_dirty (c := c) (d := d) hd]
      exact hc all

variable [DecidableEq Cid]

variable (val) in
theorem Naming.NodeAt.insertEntry_absent (hr : N.Rep h n l) (hs : IsAscending Prod.fst l)
    (hne : ∀ p ∈ l, p.1 ≠ key) (hc : Clear key (n.outline N.keys true)) (hk : key ≠ [])
    (hh : N.heightForKey key = h) :
    ∃ l₁ l₂ n', l = l₁ ++ l₂ ∧ (∀ p ∈ l₁, p.1 < key) ∧ (∀ p ∈ l₂, key < p.1) ∧
      n.insertEntry key val = .ok (n', none) ∧ Inserted N key val h n l₁ l₂ n' := by
  obtain ⟨A, G, B, la, lg, lb, hes, hl, har, hcg⟩ := hr.around_clear hs hne hc
  have hneg : ∀ p ∈ lg, p.1 ≠ key := fun p hp => hne p (by simp [hl, hp])
  have hnone := hr.layer.findExistingEntry_eq_none hne
  obtain ⟨⟨idx, split⟩, hidx, hins⟩ := har.insertionIndex hneg hcg
  have hidx' : n.findInsertionIndex key = .ok (idx, split) := by
    simp [Node.findInsertionIndex, hr.stub, hes, hidx]
  obtain ⟨G', hprove, hp⟩ := har.proveMutation hneg hcg
  rw [←hes] at hprove
  have hB := Gap.none.layer har.after
  have hlta := har.before_lt
  have hltb := har.lt_after
  subst hl
  cases hins with
  | none =>
    have hG' := hp.eq_nil
    subst hG'
    refine ⟨la, lb, _, rfl, hlta, hltb, insertEntry_of_value hnone hidx' hprove, ?_⟩
    have hlayer := har.before.layer (Layer.value (v := val) (d := true) hk hh hB)
    refine .of_entries har hp hr hes (by simpa using hlayer) fun all =>
      ⟨outlineEntries N.keys all A, outlineEntries N.keys all B, ?_, ?_⟩
    · simp [outlineEntries_append]
    · simp [outlineEntries_append, outlineEntries]
  | below hb hlt =>
    refine ⟨la, lg ++ lb, _, rfl, hlta, forall_mem_append.mpr ⟨hlt, hltb⟩,
      insertEntry_of_value hnone hidx' hprove, ?_⟩
    have hlayer := har.before.layer
      (Layer.value (v := val) (d := true) hk hh (hp.gap.layer har.after))
    refine .of_entries har hp hr hes (by simpa using hlayer) fun all =>
      ⟨outlineEntries N.keys all A, outlineEntries N.keys all (G' ++ B), ?_, ?_⟩
    · simp [outlineEntries_append]
    · simp [outlineEntries_append, outlineEntries]
  | above hb hlt =>
    obtain ⟨c, n', d, hG', hb', _⟩ := hp.eq_child hb.ne_nil
    subst hG'
    refine ⟨la ++ lg, lb, _, by simp, forall_mem_append.mpr ⟨hlta, hlt⟩, hltb,
      insertEntry_of_value hnone hidx' hprove, ?_⟩
    have hlayer := har.before.layer (Layer.child (v := val) (d := true) rfl hb' hk hh hB)
    have htake : (A ++ ([child c n' d] ++ B)).take (A.length + 1) = A ++ [child c n' d] := by
      rw [←append_assoc, take_left' (by simp)]
    have hdrop : (A ++ ([child c n' d] ++ B)).drop (A.length + 1) = B := drop_length_succ ..
    refine .of_entries har hp hr hes ?_ fun all =>
      ⟨outlineEntries N.keys all (A ++ [child c n' d]), outlineEntries N.keys all B, ?_, ?_⟩
    · rw [htake, hdrop]
      simpa using hlayer
    · simp [←outlineEntries_append]
    · rw [htake, hdrop, outlineEntries_append]
      simp [outlineEntries]
  | inside hb hlo hhi =>
    obtain ⟨c, n', d, hG', hb', hd, hcl⟩ := hp.eq_child hb.ne_nil
    subst hG'
    cases h with
    | zero => exact hb'.elim
    | succ h =>
      obtain ⟨l₁, l₂, left, right, hlg, hsplit, hh'⟩ :=
        hb'.right.left.split har.ascending_gap hneg hcl hlo hhi
      refine ⟨la ++ l₁, l₂ ++ lb, _, by simp [hlg], forall_mem_append.mpr ⟨hlta, hh'.left_lt⟩,
        forall_mem_append.mpr ⟨hh'.lt_right, hltb⟩,
        insertEntry_of_child hnone hidx' hprove (by
          rw [singleton_append, splitChild_append, hsplit]), ?_⟩
      have hR := (Gap.child rfl hh'.right_below).layer har.after
      have hlayer := har.before.layer (Layer.child (v := val) (d := true) rfl hh'.left_below hk hh hR)
      have hdrop : (A ++ ([child c n' d] ++ B)).drop (A.length + 1) = B := drop_length_succ ..
      refine .of_entries har hp hr hes ?_ fun all =>
        ⟨outlineEntries N.keys all A ++ left.outline N.keys all,
          right.outline N.keys all ++ outlineEntries N.keys all B, ?_, ?_⟩
      · simpa [hdrop] using hlayer
      · rw [outlineEntries_append, singleton_append, outline_cons_of_dirty hd, ←hh'.outline]
        simp
      · rw [hdrop, take_left]
        simp only [outlineEntries_append, append_assoc, cons_append, nil_append,
          outline_cons_of_dirty hh'.left_dirty, outline_cons_value,
          outline_cons_of_dirty hh'.right_dirty]

theorem Naming.NodeAt.insertEntry_present (hr : N.Rep h n l)
    (hs : IsAscending Prod.fst l) (hm : (key, prev) ∈ l) (hh : N.heightForKey key = h) :
    (prev = val → n.insertEntry key val = .ok (n, some val)) ∧
      (prev ≠ val → ∃ l₁ l₂ n', l = l₁ ++ (key, prev) :: l₂ ∧
        n.insertEntry key val = .ok (n', some prev) ∧ Updated N key val h n l₁ l₂ n') := by
  have ⟨A, G, B, la, lg, lb, d, hes, hl, hk, ha, hg, hlayer⟩ := hr.cut_value hs hm hh
  have hfind := findExistingEntry_cut (v := prev) (d := d) (B := B) ha hg hk
  rw [←hes] at hfind
  constructor
  case left =>
    intro heq
    simp [insertEntry, hfind, heq]
  case right =>
    intro hne
    have hset : n.entries.set (A ++ G).length (value key val true) =
        A ++ (G ++ value key val true :: B) := by
      rw [hes, ←append_assoc, set_append_right _ _ le_rfl]
      simp
    refine ⟨la ++ lg, lb, { n with entries := A ++ (G ++ value key val true :: B), dirty := true },
      by simp [hl], ?_, ⟨hr.stub, hr.height, nofun, ?_⟩, rfl, fun all => ?_, fun all => ?_⟩
    · simp [insertEntry, hfind, hne, ←hset]
    · have hafter : After N.heightForKey (N.Below h) h key (value key val true :: B)
          ((key, val) :: lb) := .value hk hh le_rfl hlayer
      simpa using ha.layer (hg.layer hafter)
    · rw [n.outline_eq, outline_eq, hes]
      simp only [outlineEntries_append, outline_cons_value]
      exact .refl _
    · rw [outline_eq]
      simp [outlineEntries_append, outline_cons_value]

end Entry

section Child

variable [DecidableEq Cid]

theorem insertChild_append : insertChild key val height A.length (A ++ child c n d :: B) =
    (n.insert key val height).map (·.map (A ++ child c · true :: B) id) := by
  induction A with
  | nil => simp [insertChild]
  | cons e A ih =>
    simp only [length_cons, cons_append, insertChild, ih]
    cases n.insert key val height <;> rfl

omit [DecidableEq Cid] in
theorem Inserted.of_child (lg₁ lg₂ : Pairs Cid) (har : Around N (h + 1) key A G B la lg lb)
    (hr : N.Rep (h + 1) n l) (hes : n.entries = A ++ (G ++ B))
    (hrep : N.Rep h n' (lg₁ ++ (key, val) :: lg₂)) (hd : n'.dirty)
    (hgrows : ∀ all, ∃ x y, Expands (outlineEntries N.keys all G) (x ++ y) ∧
      n'.outline N.keys all = x ++ .key key :: y)
    (hclear : ∀ all, Clear key (n'.outline N.keys all)) :
    Inserted N key val (h + 1) n (la ++ lg₁) (lg₂ ++ lb)
      { n with entries := A ++ child c n' true :: B, dirty := true } where
  rep := by
    have hbelow : N.Below (h + 1) (child c n' true) _ := hrep.below (by simp) hd
    have hlayer := har.before.layer ((Gap.child rfl hbelow).layer har.after)
    exact ⟨hr.stub, hr.height, nofun, by simpa using hlayer⟩
  dirty := rfl
  grows all := by
    have ⟨x, y, hexp, ho⟩ := hgrows all
    refine ⟨outlineEntries N.keys all A ++ x, y ++ outlineEntries N.keys all B, ?_, ?_⟩
    · rw [n.outline_eq, hes, outlineEntries_append, outlineEntries_append, append_assoc,
        ← append_assoc x]
      exact (Expands.refl _).append (hexp.append (.refl _))
    · rw [outline_eq, outlineEntries_append, outline_cons_of_dirty hd, ho]
      simp
  clear all := by
    rw [outline_eq]
    refine har.clear_all (D := [child c n' true]) ?_
    rw [outline_child_of_dirty hd]
    exact hclear all

omit [DecidableEq Cid] in
theorem Updated.of_child
    (har : Around N (h + 1) key A [child c n₁ d] B la lg lb) (hr : N.Rep (h + 1) n l)
    (hes : n.entries = A ++ child c n₁ d :: B) (hu : Updated N key val h n₁ lg₁ lg₂ n') :
    Updated N key val (h + 1) n (la ++ lg₁) (lg₂ ++ lb)
      { n with entries := A ++ child c n' true :: B, dirty := true } where
  rep := by
    have hbelow : N.Below (h + 1) (child c n' true) _ := hu.rep.below (by simp) hu.dirty
    have hlayer := har.before.layer ((Gap.child rfl hbelow).layer har.after)
    exact ⟨hr.stub, hr.height, nofun, by simpa using hlayer⟩
  dirty := rfl
  expands all := by
    rw [n.outline_eq, hes, outline_eq]
    refine expands_cut (G := [child c n₁ d]) (D := [child c n' true]) ?_
    rw [outline_child_of_dirty hu.dirty]
    exact (expands_outline_child ..).trans (hu.expands all)
  shown all := by
    rw [outline_eq, outlineEntries_append, outline_cons_of_dirty hu.dirty]
    simp [hu.shown all]

omit [DecidableEq Cid] in
variable (val) in
theorem newChild_rep (hk : key ≠ []) (hh : N.heightForKey key = t) (i : ℕ) :
    N.Rep (t + i) (newChild key val t i) [(key, val)] ∧ (newChild key val t i).dirty ∧
      ∀ all, (newChild key val t i).outline N.keys all = [.key key] := by
  induction i with
  | zero =>
    exact ⟨.fresh (.value hk hh .nil), rfl, fun all => by simp [newChild, fresh, outline, outlineEntries]⟩
  | succ i ih =>
    obtain ⟨hrep, hd, ho⟩ := ih
    refine ⟨?_, rfl, fun all => ?_⟩
    · exact .fresh (.last rfl (hrep.below (by simp) hd))
    · simp only [newChild, fresh, outline, outline_child_of_dirty hd]
      exact ho all

end Child

section Insert

variable [DecidableEq Cid]

theorem Naming.NodeAt.insert_eq (hr : N.Rep t n l) :
    n.insert key val t = n.insertEntry key val := by
  obtain ⟨es, d, c, rfl⟩ := hr.exists_eq
  simp [Node.insert]

theorem Naming.NodeAt.insert_child (hr : N.Rep (t + i + 1) n l)
    (hidx : findExistingChild key n.entries = some idx) :
    n.insert key val t = (insertChild key val t idx n.entries).map fun (es', prev) =>
      if prev = some val then (n, some val)
      else ({ n with entries := es', dirty := true }, prev) := by
  obtain ⟨es, d, c, rfl⟩ := hr.exists_eq
  have hlt : ¬(t + i + 1 : ℕ) < (t : Int) ∧ (t : Int) < (t + i + 1 : ℕ) := by omega
  simp only [Node.insert, hlt, hidx, Bool.false_eq_true, if_false, if_true]

theorem Naming.NodeAt.insert_new (hr : N.Rep (t + i + 1) n l)
    (hnone : findExistingChild key n.entries = none)
    (hidx : insertionIndex key 0 n.entries = .ok (idx, false)) :
    n.insert key val t = .ok ({ n with
        entries := n.entries.take idx ++
          child none (Node.newChild key val t i) true :: n.entries.drop idx,
        dirty := true }, none) := by
  obtain ⟨es, d, c, rfl⟩ := hr.exists_eq
  have hlt : ¬(t + i + 1 : ℕ) < (t : Int) ∧ (t : Int) < (t + i + 1 : ℕ) := by omega
  have hi : ((t + i + 1 : ℕ) - 1 - t : Int).toNat = i := by omega
  simp only [Node.insert, hlt, hnone, Node.findInsertionIndex, hidx, Bool.false_eq_true, if_false,
    if_true, hi]
  rfl

variable (val) in
theorem Naming.NodeAt.insert_absent (hr : N.Rep (t + i) n l) (hs : IsAscending Prod.fst l)
    (hne : ∀ p ∈ l, p.1 ≠ key) (hc : Clear key (n.outline N.keys true)) (hk : key ≠ [])
    (hh : N.heightForKey key = t) :
    ∃ l₁ l₂ n', l = l₁ ++ l₂ ∧ (∀ p ∈ l₁, p.1 < key) ∧ (∀ p ∈ l₂, key < p.1) ∧
      n.insert key val t = .ok (n', none) ∧ Inserted N key val (t + i) n l₁ l₂ n' := by
  induction i generalizing n l with
  | zero =>
    have hr : N.Rep t n l := hr
    rw [hr.insert_eq]
    exact hr.insertEntry_absent val hs hne hc hk hh
  | succ i ih =>
    have ⟨A, G, B, la, lg, lb, hes, hl, har, hcg⟩ := hr.around_clear hs hne hc
    have hneg : ∀ p ∈ lg, p.1 ≠ key := fun p hp => hne p (by simp [hl, hp])
    have hfind := findExistingChild_cut har.before har.gap har.after
    rw [←hes] at hfind
    rcases har.gap_cases hcg with ⟨rfl, rfl⟩ | ⟨c, n₁, d, rfl, hb⟩
    · have ⟨hrep, hd, ho⟩ := newChild_rep (N := N) val hk hh i
      have hidx : insertionIndex key 0 n.entries = .ok (A.length, false) := by
        rw [hes, har.before.insertionIndex, nil_append,
          har.after.insertionIndex har.absent_after, Nat.zero_add]
      have hins := Inserted.of_child (c := none) [] [] har hr hes hrep hd
        (fun all => ⟨[], [], .nil, ho all⟩)
        fun all => clear_of_forall_key (by simp [ho all])
      rw [append_nil, nil_append] at hins
      refine ⟨la, lb, _, by simp [hl], har.before_lt, har.lt_after, ?_, hins⟩
      rw [hr.insert_new (by simpa using hfind) hidx, hes]
      simp
    · have hcl := hcg
      rw [outline_child_all] at hcl
      have ⟨lg₁, lg₂, n', hlg, hlt₁, hlt₂, heq, hins⟩ := ih hb.right.left har.ascending_gap hneg hcl
      have hgrows (all : Bool) : ∃ x y, Expands (outlineEntries N.keys all [child c n₁ d]) (x ++ y) ∧
          n'.outline N.keys all = x ++ .key key :: y := by
        have ⟨x, y, hexp, ho⟩ := hins.grows all
        exact ⟨x, y, (expands_outline_child ..).trans hexp, ho⟩
      have hins' := Inserted.of_child (c := c) _ _ har hr hes hins.rep hins.dirty hgrows hins.clear
      refine ⟨la ++ lg₁, lg₂ ++ lb, _, by simp [hl, hlg],
        forall_mem_append.mpr ⟨har.before_lt, hlt₁⟩,
        forall_mem_append.mpr ⟨hlt₂, har.lt_after⟩, ?_, hins'⟩
      rw [hr.insert_child hfind, hes, singleton_append, insertChild_append, heq]
      rfl

variable (val) in
theorem Naming.NodeAt.insert_present (hr : N.Rep (t + i) n l)
    (hs : IsAscending Prod.fst l) (hm : (key, prev) ∈ l) (hv : .key key ∈ n.outline N.keys true)
    (hh : N.heightForKey key = t) : (prev = val → n.insert key val t = .ok (n, some val)) ∧
      (prev ≠ val → ∃ l₁ l₂ n', l = l₁ ++ (key, prev) :: l₂ ∧
        n.insert key val t = .ok (n', some prev) ∧ Updated N key val (t + i) n l₁ l₂ n') := by
  induction i generalizing n l with
  | zero =>
    have hr : N.Rep t n l := hr
    rw [hr.insert_eq]
    exact hr.insertEntry_present hs hm hh
  | succ i ih =>
    have ⟨A, G, B, la, lg, lb, hes, hl, har⟩ := hr.around_lower key hs (by omega)
    rw [n.outline_eq, hes] at hv
    have ⟨c, n₁, d, hG, hb, hv'⟩ := har.shown_gap hv
    subst hG
    have hfind := findExistingChild_cut har.before har.gap har.after
    rw [←hes] at hfind
    have ⟨hsame, hupd⟩ := ih hb.right.left har.ascending_gap (har.mem_gap (hl ▸ hm)) hv'
    constructor
    case left =>
      intro heq
      rw [hr.insert_child hfind, hes, singleton_append, insertChild_append, hsame heq]
      simp [Except.map]
    case right =>
      intro hne
      have ⟨lg₁, lg₂, n', hlg, heq, hu⟩ := hupd hne
      refine ⟨la ++ lg₁, lg₂ ++ lb, _, by simp [hl, hlg], ?_, hu.of_child har hr hes⟩
      rw [hr.insert_child hfind, hes, singleton_append, insertChild_append, heq]
      simp [Except.map, hne]

end Insert

end Atproto.Mst
