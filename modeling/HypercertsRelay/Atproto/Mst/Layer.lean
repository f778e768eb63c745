import HypercertsRelay.Atproto.Mst.Tree
import HypercertsRelay.Library.Outline

namespace Atproto.Mst

open List
open NodeEntry Ascending

abbrev Pairs (Cid : Type) := List (Key × Cid)

section Layer

variable (heightForKey : Key → ℕ) (sub : NodeEntry Cid → Pairs Cid → Prop) (h : ℕ)

-- The entries of a node at height `h` and their pairs. There is at most one child between two
-- values of this height.
inductive Layer : List (NodeEntry Cid) → Pairs Cid → Prop where
  | nil : Layer [] []
  | value {k v d es l} :
    k ≠ [] → heightForKey k = h → Layer es l → Layer (value k v d :: es) ((k, v) :: l)
  | last {e l} : e.isChild → sub e l → Layer [e] l
  | child {e l₁ k v d es l₂} :
    e.isChild → sub e l₁ → k ≠ [] → heightForKey k = h → Layer es l₂ →
    Layer (e :: NodeEntry.value k v d :: es) (l₁ ++ (k, v) :: l₂)

-- The entries up to a value which is the last one below the key.
inductive Before (key : Key) : List (NodeEntry Cid) → Pairs Cid → Prop where
  | nil : Before key [] []
  | value {k v d es l} :
    k ≠ [] → heightForKey k = h → k < key → Before key es l →
    Before key (value k v d :: es) ((k, v) :: l)
  | child {e l₁ k v d es l₂} :
    e.isChild → sub e l₁ → k ≠ [] → heightForKey k = h → k < key → Before key es l₂ →
    Before key (e :: NodeEntry.value k v d :: es) (l₁ ++ (k, v) :: l₂)

inductive Gap : List (NodeEntry Cid) → Pairs Cid → Prop where
  | none : Gap [] []
  | child {e l} : e.isChild → sub e l → Gap [e] l

-- The entries from the first value that is not below the key.
inductive After (key : Key) : List (NodeEntry Cid) → Pairs Cid → Prop where
  | nil : After key [] []
  | value {k v d es l} :
    k ≠ [] → heightForKey k = h → key ≤ k → Layer heightForKey sub h es l →
    After key (value k v d :: es) ((k, v) :: l)

variable {heightForKey sub h}

theorem Layer.mono (hsub : ∀ e l, sub e l → sub' e l)
    (hl : Layer H sub h es l) : Layer H sub' h es l := by
  induction hl with
  | nil => exact .nil
  | value hk hh _ ih => exact .value hk hh ih
  | last he hs => exact .last he (hsub _ _ hs)
  | child he hs hk hh _ ih => exact .child he (hsub _ _ hs) hk hh ih

theorem Layer.eq_nil (hsub : ∀ e l, sub e l → l ≠ []) (hl : Layer H sub h es []) : es = [] := by
  generalize hnil : ([] : Pairs Cid) = l at hl
  cases hl with
  | nil => rfl
  | value => cases hnil
  | last _ hs => exact absurd hnil.symm (hsub _ _ hs)
  | child => simp at hnil

theorem Gap.layer (hg : Gap sub G lg) (hb : After H sub h key B lb) :
    Layer H sub h (G ++ B) (lg ++ lb) := by
  cases hg with
  | none =>
    cases hb with
    | nil => exact .nil
    | value k hk _ hl => exact .value k hk hl
  | child he hsub =>
    cases hb with
    | nil => simpa using Layer.last he hsub
    | value k hk _ hl => exact .child he hsub k hk hl

theorem Before.layer (ha : Before H sub h key A la)
    (hr : Layer H sub h B lb) : Layer H sub h (A ++ B) (la ++ lb) := by
  induction ha with
  | nil => exact hr
  | value k hk _ _ ih => exact .value k hk ih
  | child he hsub k hk _ _ ih =>
    rw [append_assoc]
    exact .child he hsub k hk ih

-- Every layer splits around a key.
theorem Layer.cut (hl : Layer H sub h es l) (key : Key) :
    ∃ A G B la lg lb, es = A ++ (G ++ B) ∧ l = la ++ (lg ++ lb) ∧
      Before H sub h key A la ∧ Gap sub G lg ∧ After H sub h key B lb := by
  induction hl with
  | nil => exact ⟨[], [], [], [], [], [], rfl, rfl, .nil, .none, .nil⟩
  | @value k v d es l hk hh hl ih =>
    by_cases hlt : k < key
    · have ⟨A, G, B, la, lg, lb, hes, hl, ha, hg, hb⟩ := ih
      exact ⟨_ :: A, G, B, _ :: la, lg, lb, by rw [hes]; rfl, by rw [hl]; rfl,
        .value hk hh hlt ha, hg, hb⟩
    · exact ⟨[], [], _, [], [], _, rfl, rfl, .nil, .none, .value hk hh (not_lt.mp hlt) hl⟩
  | @last e l he hsub => exact ⟨[], [e], [], [], l, [], rfl, by simp, .nil, .child he hsub, .nil⟩
  | @child e l₁ k v d es l₂ he hsub hk hh hl ih =>
    by_cases hlt : k < key
    · have ⟨A, G, B, la, lg, lb, hes, hl, ha, hg, hb⟩ := ih
      exact ⟨e :: _ :: A, G, B, l₁ ++ _ :: la, lg, lb, by rw [hes]; rfl, by simp [hl],
        .child he hsub hk hh hlt ha, hg, hb⟩
    · exact ⟨[], [e], _, [], l₁, _, rfl, rfl, .nil, .child he hsub, .value hk hh (not_lt.mp hlt) hl⟩

theorem Before.lt (ha : Before H sub h key A la) (hs : IsAscending Prod.fst la) :
    ∀ p ∈ la, p.1 < key := by
  induction ha with
  | nil => simp
  | value _ _ hlt _ ih =>
    have ⟨_, hs⟩ := pairwise_cons.mp hs
    simpa [hlt] using ih hs
  | @child e l₁ k v d es l₂ _ _ _ _ hlt _ ih =>
    have ⟨_, hs, hx⟩ := pairwise_append.mp hs
    have ⟨_, hs⟩ := pairwise_cons.mp hs
    intro p hp
    rcases mem_append.mp hp with hp | hp
    · exact (hx p hp _ mem_cons_self).trans hlt
    · cases mem_cons.mp hp
      case inl hp => rwa [hp]
      case inr hp => exact ih hs p hp

theorem After.le (hb : After H sub h key B lb) (hs : IsAscending Prod.fst lb) :
    ∀ p ∈ lb, key ≤ p.1 := by
  cases hb with
  | nil => simp
  | value _ _ hle _ =>
    have ⟨hx, _⟩ := pairwise_cons.mp hs
    intro p hp
    cases mem_cons.mp hp
    case inl hp => rwa [hp]
    case inr hp => exact hle.trans (hx p hp).le

end Layer

end Atproto.Mst
