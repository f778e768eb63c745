import HypercertsRelay.Atproto.Mst.Refine
import HypercertsRelay.Atproto.Repo.Seen
import HypercertsRelay.Library.Except

namespace Atproto.Repo

open List Function
open Mst Listing Changed
open Operation (isCreate isDelete isUpdate)

variable [DecidableEq Cid] {N : Naming Cid} {t : Mst.Tree Cid} {l : Pairs Cid}
  {m : Key → Option Cid}

-- What has to be in view so that the operation can be done or undone.
def Operation.Seen (op : Operation Cid) (o : List (Outline.Piece Key)) : Prop :=
  Repo.Seen op.path (op.value.isSome ∧ op.prev.isSome) o

section Step

theorem Seen.congr (h : p ↔ q) (hs : Seen k p o) : Seen k q o :=
  ⟨fun hq => hs.left (h.mpr hq), fun hq => hs.right (mt h.mp hq)⟩

variable (hr : Rooted N top t.root l) (hl : Lists l m)

include hr hl

-- A change that has an effect.
theorem applyOp_step (hk : isValidKey k) (hw : m k ≠ w)
    (hs : Seen k ((m k).isSome ∧ w.isSome) (t.root.sight N.keys true)) :
    ∃ t' l', applyOp N.heightForKey t k w = .ok (t', ⟨k, w, m k⟩) ∧
      Changed N top t.root m k w t'.root l' := by
  have hne := ne_nil_of_isValidKey hk
  cases w with
  | none =>
    cases hm : m k with
    | none => exact absurd hm hw
    | some p =>
      obtain ⟨n', l', heq, hch⟩ := of_remove hr hl hm (hs.right (by simp))
      exact ⟨⟨n'⟩, l', by simp [applyOp, Tree.remove, hk, heq, Except.map], hch⟩
  | some v =>
    cases hm : m k with
    | none =>
      obtain ⟨n', l', heq, hch⟩ := of_insert hr hl v hne hm (hs.right (by simp [hm]))
      exact ⟨⟨n'⟩, l', by simp [applyOp, Tree.insert, hk, heq, Except.map], hch⟩
    | some p =>
      have hv : p ≠ v := fun heq => hw (by rw [hm, heq])
      obtain ⟨n', l', heq, hch⟩ := of_update hr hl hm hv (hs.left (by simp [hm]))
      exact ⟨⟨n'⟩, l', by simp [applyOp, Tree.insert, hk, heq, Except.map], hch⟩

theorem invertOp_step (hk : isValidKey op.path) (hv : op.value ≠ op.prev)
    (hm : m op.path = op.value) (hs : op.Seen (t.root.sight N.keys true)) :
    ∃ t' l', invertOp N.heightForKey t op = .ok t' ∧
      Changed N top t.root m op.path op.prev t'.root l' := by
  have hne := ne_nil_of_isValidKey hk
  obtain ⟨path, value, prev⟩ := op
  cases value with
  | none =>
    cases prev with
    | none => exact absurd rfl hv
    | some p =>
      obtain ⟨n', l', heq, hch⟩ := of_insert hr hl p hne hm (hs.right (by simp))
      refine ⟨⟨n'⟩, l', ?_, hch⟩
      simp [invertOp, isCreate, isUpdate, isDelete, Tree.insert, hk,
        heq, Except.map, Except.mapError, bind, Except.bind, pure, Except.pure]
  | some v =>
    cases prev with
    | none =>
      obtain ⟨n', l', heq, hch⟩ := of_remove hr hl hm (hs.right (by simp))
      refine ⟨⟨n'⟩, l', ?_, hch⟩
      simp [invertOp, isCreate, Tree.remove, hk, heq, Except.map, Except.mapError, bind,
        Except.bind, pure, Except.pure]
    | some p =>
      have hvp : v ≠ p := fun heq => hv (congrArg some heq)
      obtain ⟨n', l', heq, hch⟩ := of_update hr hl hm hvp (hs.left (by simp))
      refine ⟨⟨n'⟩, l', ?_, hch⟩
      simp [invertOp, isCreate, isUpdate, Tree.insert, hk, hvp, heq, Except.map,
        Except.mapError, bind, Except.bind, pure, Except.pure]

end Step

section Run

def changeAll (m : Key → Option Cid) (changes : List (Key × Option Cid)) : Key → Option Cid :=
  changes.foldl (fun m c => update m c.1 c.2) m

inductive Tops (heightForKey : Key → ℕ) :
    ℤ → (Key → Option Cid) → List (Key × Option Cid) → ℤ → Prop where
  | nil {m : Key → Option Cid} : Tops heightForKey top m [] top
  | cons {m : Key → Option Cid} {k} {w} {l : Pairs Cid}
      {changes} :
    Lists l (update m k w) →
    Tops heightForKey (changedTop heightForKey top k w l) (update m k w) changes top' →
    Tops heightForKey top m ((k, w) :: changes) top'

def Operation.inverse (op : Operation Cid) : Key × Option Cid :=
  (op.path, op.prev)

-- The tree and its root after some changes.
structure Reached (N : Naming Cid) (top : ℤ) (m : Key → Option Cid)
    (changes : List (Key × Option Cid)) (t : Mst.Tree Cid) (top' : ℤ) (l' : Pairs Cid) : Prop where
  rooted : Rooted N top' t.root l'
  lists : Lists l' (changeAll m changes)
  tops : Tops N.heightForKey top m changes top'

omit [DecidableEq Cid] in
theorem Reached.cons {t₁ t' : Mst.Tree Cid} (hch : Changed N top n m k w t₁.root l₁)
    (h : Reached N (changedTop N.heightForKey top k w l₁) (update m k w) changes t' top' l') :
    Reached N top m ((k, w) :: changes) t' top' l' :=
  ⟨h.rooted, h.lists, .cons hch.lists h.tops⟩

theorem applyOps_run {done : List (Operation Cid)} (hr : Rooted N top t.root l) (hl : Lists l m)
    (hnodup : (changes.map Prod.fst).Nodup) (heff : ∀ c ∈ changes, isValidKey c.1 ∧ m c.1 ≠ c.2 ∧
      Seen c.1 ((m c.1).isSome ∧ c.2.isSome) (t.root.sight N.keys true))
    (hdone : ∀ op ∈ done, op.path ∉ changes.map Prod.fst ∧ op.Seen (t.root.sight N.keys false)) :
    ∃ t' top' l', applyOps N.heightForKey t changes =
        .ok (t', changes.map fun c => ⟨c.1, c.2, m c.1⟩) ∧
      Reached N top m changes t' top' l' ∧ (t.root.dirty ∨ changes ≠ [] → t'.root.dirty) ∧
      ∀ op ∈ done ++ changes.map fun c => ⟨c.1, c.2, m c.1⟩,
        op.Seen (t'.root.sight N.keys false) := by
  induction changes generalizing t top l m done with
  | nil => exact ⟨t, top, l, rfl, ⟨hr, hl, .nil⟩, by simp, by simpa using hdone⟩
  | cons c changes ih =>
    have ⟨⟨hk, hw, hs⟩, heff⟩ := forall_mem_cons.mp heff
    have ⟨hnot, hnodup⟩ := nodup_cons.mp hnodup
    have ⟨t₁, l₁, heq, hch⟩ := applyOp_step hr hl hk hw hs
    have hother : ∀ c' ∈ changes, c'.1 ≠ c.1 := fun c' hc' heq => hnot (heq ▸ mem_map_of_mem hc')
    have heff₁ : ∀ c' ∈ changes, isValidKey c'.1 ∧ update m c.1 c.2 c'.1 ≠ c'.2 ∧
        Seen c'.1 ((update m c.1 c.2 c'.1).isSome ∧ c'.2.isSome) (t₁.root.sight N.keys true) := by
      intro c' hc'
      have ⟨hk', hw', hs'⟩ := heff c' hc'
      rw [update_of_ne (hother c' hc')]
      exact ⟨hk', hw', hch.keeps true _ _ (hother c' hc') hs'⟩
    have hdone₁ : ∀ op ∈ done ++ [⟨c.1, c.2, m c.1⟩], op.path ∉ changes.map Prod.fst ∧
        op.Seen (t₁.root.sight N.keys false) := by
      refine forall_mem_append.mpr ⟨fun op hop => ?_, ?_⟩
      · have ⟨hnot, hseen⟩ := hdone op hop
        have ⟨hne, hnot⟩ := not_or.mp (mt mem_cons.mpr hnot)
        exact ⟨hnot, hch.keeps false _ _ hne hseen⟩
      · refine forall_mem_singleton.mpr ⟨hnot, ?_⟩
        exact (hch.seen false).congr and_comm
    have ⟨t', top', l', heq', hreach, hdirty, hseen⟩ := ih hch.rooted hch.lists hnodup heff₁ hdone₁
    have hsame : (changes.map fun c' => (⟨c'.1, c'.2, update m c.1 c.2 c'.1⟩ : Operation Cid)) =
        changes.map fun c' => ⟨c'.1, c'.2, m c'.1⟩ :=
      map_congr_left fun c' hc' => by rw [update_of_ne (hother c' hc')]
    rw [hsame] at heq' hseen
    refine ⟨t', top', l', ?_, .cons hch hreach, fun _ => hdirty (.inl hch.dirty), by simpa using hseen⟩
    simp [applyOps, heq, heq', bind, Except.bind, pure, Except.pure]

theorem invertOps_run
    (hr : Rooted N top t.root l) (hl : Lists l m) (hnodup : (ops.map (·.path)).Nodup)
    (hops : ∀ op ∈ ops, isValidKey op.path ∧ op.value ≠ op.prev ∧ m op.path = op.value ∧
      op.Seen (t.root.sight N.keys true)) :
    ∃ t' top' l', invertOps N.heightForKey t ops = .ok t' ∧
      Reached N top m (ops.map (·.inverse)) t' top' l' := by
  induction ops generalizing t top l m with
  | nil => exact ⟨t, top, l, rfl, hr, hl, .nil⟩
  | cons op ops ih =>
    have ⟨⟨hk, hv, hm, hs⟩, hops⟩ := forall_mem_cons.mp hops
    have ⟨hnot, hnodup⟩ := nodup_cons.mp hnodup
    have ⟨t₁, l₁, heq, hch⟩ := invertOp_step hr hl hk hv hm hs
    have hops₁ : ∀ op' ∈ ops, isValidKey op'.path ∧ op'.value ≠ op'.prev ∧
        update m op.path op.prev op'.path = op'.value ∧ op'.Seen (t₁.root.sight N.keys true) := by
      intro op' hop'
      have ⟨hk', hv', hm', hs'⟩ := hops op' hop'
      have hne : op'.path ≠ op.path := fun heq => hnot (mem_map.mpr ⟨op', hop', heq⟩)
      exact ⟨hk', hv', by rwa [update_of_ne hne], hch.keeps true _ _ hne hs'⟩
    have ⟨t', top', l', heq', hreach⟩ := ih hch.rooted hch.lists hnodup hops₁
    refine ⟨t', top', l', ?_, .cons hch hreach⟩
    rw [invertOps, foldlM_cons, heq]
    exact heq'

end Run

end Atproto.Repo
