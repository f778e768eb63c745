import HypercertsRelay.Atproto.Mst.History
import HypercertsRelay.Atproto.Repo.Invert

-- The height of the root while operations are done and undone.
namespace Atproto.Repo

open List Function Option
open Mst Listing Operation

variable {heightForKey : Key → ℕ} {l l' : Pairs Cid}

section Change

theorem mem_of_update (hl : Lists l m) (hl' : Lists l' (update m k w))
    (hp : p.1 ≠ k) : p ∈ l' ↔ p ∈ l := by
  rw [hl'.mem_iff, hl.mem_iff, update_of_ne hp]

theorem ne_of_mem_removed (hl' : Lists l' (update m k none)) (hp : p ∈ l') : p.1 ≠ k := by
  rintro rfl
  simpa using (hl'.mem_iff p.1 p.2).mp hp

def Covers (heightForKey : Key → ℕ) (top : ℤ) (l : Pairs Cid) : Prop :=
  ∀ p ∈ l, (heightForKey p.1 : ℤ) ≤ top

theorem Covers.topHeight_le (hc : Covers heightForKey top l) (hl : l ≠ []) :
    (topHeight heightForKey l : ℤ) ≤ top := by
  have ⟨p, hp, hh⟩ := exists_topHeight heightForKey hl
  exact hh ▸ hc p hp

theorem covers_topHeight : Covers heightForKey (topHeight heightForKey l : ℕ) l :=
  fun _ hp => Int.ofNat_le.mpr (le_topHeight hp)

theorem Covers.change (hc : Covers heightForKey top l) (hl : Lists l m)
    (hl' : Lists l' (update m k w)) :
    Covers heightForKey (changedTop heightForKey top k w l') l' := by
  cases w with
  | some v =>
    intro p hp
    by_cases hk : p.1 = k
    · exact hk ▸ le_max_right _ _
    · exact (hc p ((mem_of_update hl hl' hk).mp hp)).trans (le_max_left _ _)
  | none =>
    rw [changedTop, prunedTop]
    split_ifs
    · exact covers_topHeight
    · exact fun p hp => hc p ((mem_of_update hl hl' (ne_of_mem_removed hl' hp)).mp hp)

-- The root is at most at a given height, or as high as the highest key.
def LowOrTidy (heightForKey : Key → ℕ) (H : ℕ) (top : ℤ) (l : Pairs Cid) : Prop :=
  top ≤ H ∨ l ≠ [] ∧ top = topHeight heightForKey l

theorem LowOrTidy.insert (ht : LowOrTidy heightForKey H top l) (hc : Covers heightForKey top l)
    (hl : Lists l m) (hl' : Lists l' (update m k (some v))) :
    LowOrTidy heightForKey H (changedTop heightForKey top k (some v) l') l' := by
  have hne := ne_nil_of_update hl'
  have htop : topHeight heightForKey l' = max (topHeight heightForKey l) (heightForKey k) :=
    topHeight_update hl hl'
  rw [changedTop]
  rcases ht with hlow | ⟨_, htidy⟩
  · by_cases hk : heightForKey k ≤ H
    · exact .inl (max_le hlow (Int.ofNat_le.mpr hk))
    · have hle : topHeight heightForKey l ≤ heightForKey k :=
        topHeight_le fun p hp => by have := hc p hp; omega
      refine .inr ⟨hne, ?_⟩
      rw [htop, max_eq_right hle, max_eq_right (by omega)]
  · refine .inr ⟨hne, ?_⟩
    omega

-- A key that goes leaves another, or is itself low.
theorem LowOrTidy.remove (ht : LowOrTidy heightForKey H top l) (hc : Covers heightForKey top l)
    (hl : Lists l m) (hl' : Lists l' (update m k none)) (hk : m k ≠ none)
    (hlow : heightForKey k ≤ H ∨ l' ≠ []) :
    LowOrTidy heightForKey H (changedTop heightForKey top k none l') l' := by
  obtain ⟨v, hv⟩ := ne_none_iff_exists'.mp hk
  rw [changedTop]
  rcases ht with hle | ⟨hne, htidy⟩
  case inl =>
    left
    rw [prunedTop]
    split_ifs with hprune
    case neg => exact hle
    case pos =>
      obtain ⟨p, hp, hh⟩ := exists_topHeight heightForKey hprune.right
      have hmem := (mem_of_update hl hl' (ne_of_mem_removed hl' hp)).mp hp
      exact hh ▸ (hc p hmem).trans hle
  case inr =>
    have htidy' : Tidy heightForKey (topHeight heightForKey l) 0 l := by rw [Tidy, if_neg hne]
    have hafter := tidy_remove htidy' hl hv hl'
    rw [htidy, prunedTop_eq, hafter]
    by_cases hnil : l' = []
    case pos =>
      rw [if_pos hnil]
      exact .inl (Int.ofNat_le.mpr (hlow.resolve_right (not_not.mpr hnil)))
    case neg =>
      rw [if_neg hnil]
      exact .inr ⟨hnil, rfl⟩

end Change

section Forward

-- While operations are done that remove only low keys, the root is low or tidy.
theorem Tops.lowOrTidy (ht : Tops heightForKey top m changes top')
    (hnodup : (changes.map Prod.fst).Nodup)
    (hch : ∀ c ∈ changes, c.2 = none → m c.1 ≠ none ∧ heightForKey c.1 ≤ H)
    (hl : Lists l m) (hc : Covers heightForKey top l) (hlt : LowOrTidy heightForKey H top l)
    (hl' : Lists l' (changeAll m changes)) :
    Covers heightForKey top' l' ∧ LowOrTidy heightForKey H top' l' := by
  induction ht generalizing l with
  | nil =>
    rw [hl'.unique hl]
    exact ⟨hc, hlt⟩
  | @cons top top' m k w l₁ changes hl₁ _ ih =>
    have ⟨hfirst, hch⟩ := forall_mem_cons.mp hch
    have ⟨hnot, hnodup⟩ := nodup_cons.mp hnodup
    have hch₁ : ∀ c ∈ changes, c.2 = none → update m k w c.1 ≠ none ∧ heightForKey c.1 ≤ H := by
      intro c hm hn
      have hne : c.1 ≠ k := fun heq => hnot (mem_map.mpr ⟨c, hm, heq⟩)
      rw [update_of_ne hne]
      exact hch c hm hn
    refine ih hnodup hch₁ hl₁ (hc.change hl hl₁) ?_ hl'
    cases w with
    | some v => exact hlt.insert hc hl hl₁
    | none =>
      have ⟨hk, hlow⟩ := hfirst rfl
      exact hlt.remove hc hl hl₁ hk (.inl hlow)

end Forward

section Inverse

theorem changeAll_of_not_mem (hk : k ∉ changes.map Prod.fst) : changeAll m changes k = m k := by
  induction changes generalizing m with
  | nil => rfl
  | cons c changes ih =>
    have ⟨hne, hk⟩ := not_or.mp (mt mem_cons.mpr hk)
    exact (ih hk).trans (update_of_ne hne ..)

variable {ops : List (Operation Cid)}

theorem mem_paths_of_mem_inverse
    (hk : k ∈ (ops.map (·.inverse)).map Prod.fst) : ∃ op ∈ ops, op.path = k := by
  simpa [inverse] using hk

-- Operations that are still to be undone.
structure Pending (heightForKey : Key → ℕ) (H : ℕ) (m : Key → Option Cid)
    (ops : List (Operation Cid)) : Prop where
  nodup : (ops.map (·.path)).Nodup
  value : ∀ op ∈ ops, m op.path = op.value
  effective : ∀ op ∈ ops, op.value ≠ op.prev
  low : ∀ op ∈ ops, op.isDelete → heightForKey op.path ≤ H

-- The tree holds only what was created, this is undone first, and what goes last is a high key.
def Overtops (heightForKey : Key → ℕ) (H : ℕ) (m : Key → Option Cid) (ops : List (Operation Cid)) :
    Prop :=
  ∃ cs c ds, ops = cs ++ c :: ds ∧ (∀ op ∈ cs, op.isCreate) ∧ c.isCreate ∧
    (∀ op ∈ ds, op.isDelete) ∧ (∀ k, m k ≠ none → ∃ op ∈ cs ++ [c], op.path = k) ∧
      H < heightForKey c.path

section

section

variable (hp : Pending heightForKey H m (op :: ops))

include hp

theorem Pending.tail : Pending heightForKey H (update m op.path op.prev) ops := by
  have ⟨hnot, hnodup⟩ := nodup_cons.mp hp.nodup
  refine ⟨hnodup, fun op' hop' => ?_, fun op' hop' => hp.effective op' (mem_cons_of_mem _ hop'),
    fun op' hop' => hp.low op' (mem_cons_of_mem _ hop')⟩
  have hne : op'.path ≠ op.path := fun heq => hnot (mem_map.mpr ⟨op', hop', heq⟩)
  rw [update_of_ne hne]
  exact hp.value op' (mem_cons_of_mem _ hop')

theorem Pending.path_ne : ∀ op' ∈ ops, op'.path ≠ op.path := fun op' hop' heq =>
  (nodup_cons.mp hp.nodup).left (mem_map.mpr ⟨op', hop', heq⟩)

-- A key the first operation leaves in the tree is not one that goes later.
theorem not_overtops_of_stays (hs : op.prev ≠ none) : ¬Overtops heightForKey H m (op :: ops) ∧
      ¬Overtops heightForKey H (update m op.path op.prev) ops := by
  constructor
  case left =>
    rintro ⟨cs, c, ds, heq, hcs, hc, _⟩
    have hcreate : op.isCreate := by
      cases cs with
      | nil => exact (List.cons.inj heq).left ▸ hc
      | cons x _ => exact (List.cons.inj heq).left ▸ hcs x mem_cons_self
    simp only [isCreate, Bool.and_eq_true, isNone_iff_eq_none] at hcreate
    exact hs hcreate.right
  case right =>
    rintro ⟨cs, c, ds, heq, _, _, _, hall, _⟩
    obtain ⟨op', hop', hpath⟩ := hall op.path (by simpa using hs)
    have hmem : op' ∈ ops := by
      rw [heq]
      rcases mem_append.mp hop' with h | h
      · exact mem_append_left _ h
      · simp [mem_singleton.mp h]
    exact hp.path_ne op' hmem hpath

theorem Pending.isCreate (hn : op.prev = none) : op.isCreate := by
  have hv := hp.effective op mem_cons_self
  rw [hn] at hv
  simp [Operation.isCreate, hn, isSome_iff_ne_none, hv]

theorem overtops_cons_iff (hn : op.prev = none) (hleft : ∃ k, update m op.path op.prev k ≠ none) :
    Overtops heightForKey H m (op :: ops) ↔
      Overtops heightForKey H (update m op.path op.prev) ops := by
  have hother {k} (hk : update m op.path op.prev k ≠ none) : k ≠ op.path ∧ m k ≠ none := by
    have hne : k ≠ op.path := by
      rintro rfl
      simp [hn] at hk
    exact ⟨hne, by rwa [update_of_ne hne] at hk⟩
  constructor
  case mp =>
    rintro ⟨cs, c, ds, heq, hcs, hc, hds, hall, hH⟩
    cases cs with
    | nil =>
      have ⟨hop, _⟩ := List.cons.inj heq
      subst hop
      have ⟨k, hk⟩ := hleft
      have ⟨hne, hk⟩ := hother hk
      have ⟨op', hop', hpath⟩ := hall k hk
      exact absurd (hpath.symm.trans (by rw [mem_singleton.mp hop'])) hne
    | cons x cs =>
      have ⟨hop, hops⟩ := List.cons.inj heq
      subst hop
      refine ⟨cs, c, ds, hops, fun o ho => hcs o (mem_cons_of_mem _ ho), hc, hds, ?_, hH⟩
      intro k hk
      have ⟨hne, hk⟩ := hother hk
      have ⟨op', hop', hpath⟩ := hall k hk
      rcases mem_cons.mp hop' with heq' | hop'
      · exact absurd (hpath.symm.trans (by rw [heq'])) hne
      · exact ⟨op', hop', hpath⟩
  case mpr =>
    rintro ⟨cs, c, ds, heq, hcs, hc, hds, hall, hH⟩
    refine ⟨op :: cs, c, ds, by rw [heq]; rfl, forall_mem_cons.mpr ⟨hp.isCreate hn, hcs⟩, hc, hds,
      fun k hk => ?_, hH⟩
    by_cases hkop : k = op.path
    · exact ⟨op, mem_cons_self, hkop.symm⟩
    · have ⟨op', hop', hpath⟩ := hall k (by rwa [update_of_ne hkop])
      exact ⟨op', mem_cons_of_mem _ hop', hpath⟩

theorem overtops_last_iff (hn : op.prev = none) (hnone : ∀ k, update m op.path op.prev k = none) :
    (∀ op' ∈ ops, op'.isDelete) ∧
      (Overtops heightForKey H m (op :: ops) ↔ H < heightForKey op.path) := by
  have hdelete : ∀ op' ∈ ops, op'.value = none := fun op' hop' =>
    (hp.tail.value op' hop').symm.trans (hnone op'.path)
  have hds : ∀ op' ∈ ops, op'.isDelete := by
    intro op' hop'
    have hv := hp.effective op' (mem_cons_of_mem _ hop')
    rw [hdelete op' hop'] at hv
    simp [isDelete, hdelete op' hop', isSome_iff_ne_none, hv.symm]
  refine ⟨hds, ?_, fun hH => ?_⟩
  · rintro ⟨cs, c, ds, heq, _, hc, _, _, hH⟩
    cases cs with
    | nil => exact (List.cons.inj heq).left ▸ hH
    | cons x cs =>
      have hmem : c ∈ ops := by simp [(List.cons.inj heq).right]
      simp [isCreate, hdelete c hmem] at hc
  · refine ⟨[], op, ops, rfl, by simp, hp.isCreate hn, hds, fun k hk => ⟨op, by simp, ?_⟩, hH⟩
    by_contra hne
    have hkn := hnone k
    rw [update_of_ne (Ne.symm hne)] at hkn
    exact hk hkn

end

end

-- A root that is too high stays so while keys come.
theorem Tops.lt_of_deletes (ht : Tops heightForKey top m (ops.map (·.inverse)) top')
    (hds : ∀ op ∈ ops, op.isDelete) (hH : (H : ℤ) < top) : H < top' := by
  induction ops generalizing top m with
  | nil =>
    cases ht
    exact hH
  | cons op ops ih =>
    have ⟨hd, hds⟩ := forall_mem_cons.mp hds
    cases ht with
    | cons _ ht =>
      refine ih ht hds ?_
      cases hp : op.prev with
      | none => simp [isDelete, hp] at hd
      | some v => exact hH.trans_le (le_max_left _ _)

theorem not_lowOrTidy_of_deletes (hm : ∀ k, m k = none)
    (hlow : ∀ op ∈ ops, heightForKey op.path ≤ H) (hH : (H : ℤ) < top')
    (hl' : Lists l' (changeAll m (ops.map (·.inverse)))) : ¬LowOrTidy heightForKey H top' l' := by
  rintro (hle | ⟨hne, htop⟩)
  · omega
  have ⟨p, hp, hh⟩ := exists_topHeight heightForKey hne
  have hp := (hl'.mem_iff p.1 p.2).mp hp
  have hmem : p.1 ∈ (ops.map (·.inverse)).map Prod.fst := by
    by_contra hnot
    simp [changeAll_of_not_mem hnot, hm] at hp
  have ⟨op, hop, hpath⟩ := mem_paths_of_mem_inverse hmem
  have := hlow op hop
  rw [hpath, hh] at this
  omega

theorem not_overtops_of_deletes (hds : ∀ op ∈ ops, op.isDelete) :
    ¬Overtops heightForKey H m ops := by
  rintro ⟨cs, c, ds, rfl, _, hc, _⟩
  have hd := hds c (by simp)
  simp only [isCreate, isDelete, Bool.and_eq_true] at hc hd
  rw [isNone_iff_eq_none.mp hd.left] at hc
  exact Bool.noConfusion hc.left

-- Undoing operations ends with a root that is too high exactly if they overtop.
theorem Tops.lowOrTidy_iff (ht : Tops heightForKey top m (ops.map (·.inverse)) top')
    (hp : Pending heightForKey H m ops) (hl : Lists l m) (hc : Covers heightForKey top l)
    (hlt : LowOrTidy heightForKey H top l) (hl' : Lists l' (changeAll m (ops.map (·.inverse)))) :
    LowOrTidy heightForKey H top' l' ↔ ¬Overtops heightForKey H m ops := by
  induction ops generalizing top m l with
  | nil =>
    cases ht
    rw [hl'.unique hl]
    exact ⟨fun _ => not_overtops_of_deletes (by simp), fun _ => hlt⟩
  | cons op ops ih =>
    cases ht with
    | @cons _ _ _ _ _ l₁ _ hl₁ ht =>
      have hc₁ := hc.change hl hl₁
      cases hn : op.prev with
      | some v =>
        have ⟨hfirst, hrest⟩ := not_overtops_of_stays hp (by simp [hn])
        have hlt₁ : LowOrTidy heightForKey H (changedTop heightForKey top op.path op.prev l₁) l₁ := by
          rw [hn] at hl₁ ⊢
          exact hlt.insert hc hl hl₁
        exact (ih ht hp.tail hl₁ hc₁ hlt₁ hl').trans (iff_of_true hrest hfirst)
      | none =>
        have hk : m op.path ≠ none := by
          rw [hp.value op mem_cons_self, ←hn]
          exact hp.effective op mem_cons_self
        have hl₁' : Lists l₁ (update m op.path none) := hn ▸ hl₁
        -- As long as a key is left or the one that goes is low, the root does not stick.
        have hstep (hlow : heightForKey op.path ≤ H ∨ l₁ ≠ []) : LowOrTidy heightForKey H top' l' ↔
              ¬Overtops heightForKey H (update m op.path op.prev) ops :=
          ih ht hp.tail hl₁ hc₁ (hn ▸ hlt.remove hc hl hl₁' hk hlow) hl'
        by_cases hnil : l₁ = []
        case neg =>
          have ⟨p, hpl⟩ := exists_mem_of_ne_nil _ hnil
          have hleft := (hl₁.mem_iff p.1 p.2).mp hpl
          rw [overtops_cons_iff hp hn ⟨p.1, by simp [hleft]⟩]
          exact hstep (.inr hnil)
        case pos =>
          have hnone := hl₁.eq_nil_iff.mp hnil
          have ⟨hds, hiff⟩ := overtops_last_iff hp hn hnone
          rw [hiff, not_lt]
          by_cases hlow : heightForKey op.path ≤ H
          case pos => exact iff_of_true ((hstep (.inl hlow)).mpr (not_overtops_of_deletes hds)) hlow
          case neg =>
            refine iff_of_false (not_lowOrTidy_of_deletes hnone ?_ ?_ hl') hlow
            · exact fun op' hop' => hp.low op' (mem_cons_of_mem _ hop') (hds op' hop')
            have ⟨v, hv⟩ := ne_none_iff_exists'.mp hk
            have hcov : (heightForKey op.path : ℤ) ≤ top := hc _ ((hl.mem_iff _ _).mpr hv)
            refine ht.lt_of_deletes hds ?_
            rw [hn, changedTop, prunedTop, if_neg (by simp [hnil])]
            omega

end Inverse

end Atproto.Repo
