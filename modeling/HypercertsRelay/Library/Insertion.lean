import Mathlib

-- Sorting by insertion with any comparison, also one that is not an order.
namespace Insertion

open List

variable (less : α → α → Bool)

-- An element moves to the left of those it is less than. The part in front is given last first.
def sink (x : α) : List α → List α
  | [] => [x]
  | y :: ys => if less x y then y :: sink x ys else x :: y :: ys

def sort (l : List α) : List α :=
  (l.foldl (fun front x => sink less x front) []).reverse

variable {less} {front front₁ front₂ : List α}

theorem sink_perm (x : α) (front : List α) : (sink less x front).Perm (x :: front) := by
  induction front with
  | nil => exact .refl _
  | cons y ys ih =>
    rw [sink]
    split_ifs
    · exact (ih.cons y).trans (.swap x y ys)
    · exact .refl _

theorem sort_perm (l : List α) : (sort less l).Perm l := by
  suffices h : ∀ front, (l.foldl (fun front x => sink less x front) front).Perm (front ++ l) by
    exact (reverse_perm _).trans (h [])
  induction l with
  | nil => exact fun front => .of_eq (append_nil front).symm
  | cons x l ih =>
    intro front
    exact (ih _).trans (((sink_perm x front).append_right l).trans perm_middle.symm)

theorem sublist_sink : front.Sublist (sink less x front) := by
  induction front with
  | nil => exact nil_sublist _
  | cons y ys ih =>
    rw [sink]
    split_ifs
    · exact ih.cons_cons y
    · exact sublist_cons_self x _

-- What is sorted keeps its order while more comes in.
theorem sublist_foldl_sink (l : List α) :
    front.Sublist (l.foldl (fun front x => sink less x front) front) := by
  induction l generalizing front with
  | nil => exact .refl _
  | cons x l ih => exact sublist_sink.trans ih

theorem sink_append_of_forall (h : ∀ y ∈ front₁, less x y) :
    sink less x (front₁ ++ front₂) = front₁ ++ sink less x front₂ := by
  induction front₁ with
  | nil => rfl
  | cons y ys ih =>
    have ⟨hy, hys⟩ := forall_mem_cons.mp h
    rw [cons_append, sink, if_pos hy, ih hys]
    rfl

theorem sink_append_of_exists (h : ∃ y ∈ front₁, ¬less x y) :
    sink less x (front₁ ++ front₂) = sink less x front₁ ++ front₂ := by
  induction front₁ with
  | nil => simp at h
  | cons y ys ih =>
    rw [cons_append, sink, sink]
    split_ifs with hy
    case neg => rfl
    case pos =>
      have ⟨z, hz, hzx⟩ := h
      have hz : z ∈ ys := (mem_cons.mp hz).resolve_left fun heq => hzx (heq ▸ hy)
      rw [ih ⟨z, hz, hzx⟩]
      rfl

theorem sink_of_forall (h : ∀ y ∈ front, less x y) : sink less x front = front ++ [x] := by
  have happ : sink less x (front ++ []) = front ++ sink less x [] := sink_append_of_forall h
  rwa [append_nil] at happ

-- An element stops at one it is not less than.
theorem sublist_sink_of_exists (h : ∃ y ∈ front, ¬less x y) :
    ∃ y ∈ front, [x, y].Sublist (sink less x front) := by
  induction front with
  | nil => simp at h
  | cons y ys ih =>
    rw [sink]
    split_ifs with hy
    case neg => exact ⟨y, mem_cons_self, by simp⟩
    case pos =>
      have ⟨z, hz, hzx⟩ := h
      have hz : z ∈ ys := (mem_cons.mp hz).resolve_left fun heq => hzx (heq ▸ hy)
      have ⟨w, hw, hsub⟩ := ih ⟨z, hz, hzx⟩
      exact ⟨w, mem_cons_of_mem _ hw, hsub.cons y⟩

theorem pairwise_sink (hpass : ∀ y ∈ front, less x y → R y x)
    (hstop : ∀ y ∈ front, ¬less x y → R x y)
    (htrans : ∀ y ∈ front, ∀ z ∈ front, R x y → R y z → R x z) (hp : front.Pairwise R) :
    (sink less x front).Pairwise R := by
  induction front with
  | nil => simp [sink]
  | cons y ys ih =>
    have ⟨hy, hpass⟩ := forall_mem_cons.mp hpass
    have ⟨hxy, hstop⟩ := forall_mem_cons.mp hstop
    have ⟨hfirst, hp⟩ := pairwise_cons.mp hp
    rw [sink]
    split_ifs with hless
    · refine pairwise_cons.mpr ⟨fun z hz => ?_, ih hpass hstop
        (fun y hy z hz => htrans y (.tail _ hy) z (.tail _ hz)) hp⟩
      cases mem_cons.mp ((sink_perm x ys).mem_iff.mp hz)
      case inl hz => exact hz ▸ hy hless
      case inr hz => exact hfirst z hz
    · refine pairwise_cons.mpr ⟨fun z hz => ?_, pairwise_cons.mpr ⟨hfirst, hp⟩⟩
      cases mem_cons.mp hz
      case inl hz => exact hz ▸ hxy hless
      case inr hmem => exact htrans y mem_cons_self z hz (hxy hless) (hfirst z hmem)

-- The comparison is a strict weak order on the elements.
structure Orders (less : α → α → Bool) (l : List α) : Prop where
  asymm : ∀ a ∈ l, ∀ b ∈ l, less a b → ¬less b a
  trans : ∀ a ∈ l, ∀ b ∈ l, ∀ c ∈ l, ¬less a b → ¬less b c → ¬less a c

def Sorts (less : α → α → Bool) (sort : List α → List α) : Prop :=
  ∀ l, Orders less l → (sort l).Perm l ∧ (sort l).Pairwise fun a b => ¬less b a

theorem Orders.of_subset (h : Orders less l) (hsub : l' ⊆ l) : Orders less l' :=
  ⟨fun a ha b hb => h.asymm a (hsub ha) b (hsub hb),
    fun a ha b hb c hc => h.trans a (hsub ha) b (hsub hb) c (hsub hc)⟩

theorem Orders.foldl_sink (h : Orders less (front ++ l))
    (hp : front.Pairwise fun a b => ¬less a b) :
    (l.foldl (fun front x => sink less x front) front).Pairwise fun a b => ¬less a b := by
  induction l generalizing front with
  | nil => exact hp
  | cons x l ih =>
    have hx : x ∈ front ++ x :: l := by simp
    have hfront {y} (hy : y ∈ front) : y ∈ front ++ x :: l := mem_append_left _ hy
    refine ih (h.of_subset ?_) (pairwise_sink ?_ (fun y _ => id) ?_ hp)
    · exact (((sink_perm x front).append_right l).trans perm_middle.symm).subset
    · exact fun y hy => h.asymm x hx y (hfront hy)
    · exact fun y hy z hz => h.trans x hx y (hfront hy) z (hfront hz)

theorem sorts_sort : Sorts less (sort less) := fun l h =>
  ⟨sort_perm l, pairwise_reverse.mpr (h.foldl_sink .nil)⟩

end Insertion
