import HypercertsRelay.Atproto.Mst.Root
import HypercertsRelay.Library.Listing
import HypercertsRelay.Atproto.Repo.Operation

namespace Atproto.Repo

open List
open Mst Ascending Outline Listing Outline

variable {N : Naming Cid} {n n' : Node Cid} {l l' : Pairs Cid} {m : Key → Option Cid} {all : Bool}

-- What has to be in view to change the value of a key: the key if it stays, and all next to it if
-- it comes or goes.
def Seen (k : Key) (stays : Prop) (o : List (Piece Key)) : Prop :=
  (stays → .key k ∈ o) ∧ (¬stays → Clear k o)

theorem Seen.expands (hs : Seen k stays o) (he : Expands o o') : Seen k stays o' :=
  ⟨fun h => he.mem (hs.left h), fun h => (hs.right h).expands he⟩

theorem Seen.insert (hs : Seen k stays (x ++ y)) : Seen k stays (x ++ .key d :: y) := by
  refine ⟨fun h => ?_, fun h => (hs.right h).insert⟩
  have hm := mem_append.mp (hs.left h)
  exact mem_append.mpr (hm.imp_right (mem_cons_of_mem _))

theorem Seen.erase (hs : Seen k stays (x ++ .key d :: y))
    (hd : Clear d (x ++ y)) (hx : ∀ p ∈ Outline.keys x, p < d) (hy : ∀ p ∈ Outline.keys y, d < p)
    (hne : k ≠ d) : Seen k stays (x ++ y) := by
  refine ⟨fun h => ?_, fun h => (hs.right h).erase hd hx hy⟩
  rcases mem_append.mp (hs.left h) with hm | hm
  · exact mem_append_left _ hm
  · cases mem_cons.mp hm
    case inl heq => exact absurd (Piece.key.inj heq) hne
    case inr hm => exact mem_append_right _ hm

-- The height of the root once a key has got a value or lost it, with the pairs that are left.
def changedTop (heightForKey : Key → ℕ) (top : ℤ) (k : Key) (w : Option Cid) (l : Pairs Cid) : ℤ :=
  match w with
  | some _ => max top (heightForKey k)
  | none => prunedTop heightForKey top k l

-- A change of the value of one key.
structure Changed (N : Naming Cid) (top : ℤ) (n : Node Cid) (m : Key → Option Cid) (k : Key)
    (w : Option Cid) (n' : Node Cid) (l' : Pairs Cid) : Prop where
  rooted : Rooted N (changedTop N.heightForKey top k w l') n' l'
  lists : Lists l' (Function.update m k w)
  dirty : n'.dirty
  seen : ∀ all, Seen k ((m k).isSome ∧ w.isSome) (n'.sight N.keys all)
  keeps : ∀ all k' stays, k' ≠ k → Seen k' stays (n.sight N.keys all) →
    Seen k' stays (n'.sight N.keys all)

section Change

theorem keys_sight (hr : Rooted N top n l) (all : Bool) :
    keys (n.sight N.keys all) = l.map Prod.fst := by
  rw [Node.sight, keys_outlineEntries]
  cases hr with
  | rep hr =>
    have hkeys : keys (n.outline N.keys all) = l.map Prod.fst := hr.keys_outline
    rw [←hkeys, n.keys_outline]
    simp [keysEntries]
  | unknown _ _ hes =>
    cases n
    simp_all [keysEntries, Node.keysUnder]

theorem lt_of_sight (hr : Rooted N top n l) (hs : IsAscending Prod.fst l)
    (he : Expands (n.sight N.keys all) (x ++ .key k :: y)) :
    (∀ p ∈ Outline.keys x, p < k) ∧ ∀ p ∈ Outline.keys y, k < p := by
  have hkeys := he.keys_eq.trans (keys_sight hr all)
  have hpair : (l.map Prod.fst).Pairwise (· < ·) := pairwise_map.mpr hs
  rw [←hkeys, Outline.keys_append, keys_key] at hpair
  have ⟨_, hright, hcross⟩ := pairwise_append.mp hpair
  exact ⟨fun p hp => hcross p hp k mem_cons_self, (pairwise_cons.mp hright).left⟩

variable (hr : Rooted N top n l) (hl : Lists l m)

include hr hl

theorem Changed.of_insert [DecidableEq Cid] (v : Cid) (hk : k ≠ []) (hm : m k = none)
    (hc : Clear k (n.sight N.keys true)) :
    ∃ n' l', n.insert k v (N.heightForKey k) = .ok (n', none) ∧
      Changed N top n m k (some v) n' l' := by
  rw [sight_all] at hc
  have ⟨l₁, l₂, n', hsplit, h₁, h₂, heq, hins⟩ :=
    hr.insert_absent v hl.ascending (hl.absent hm) hc hk rfl
  subst hsplit
  refine ⟨n', _, heq, hins.rooted, hl.insert h₁ h₂, hins.dirty, fun all => ?_, fun all k' _ _ hs => ?_⟩
  · exact ⟨fun h => by simp [hm] at h, fun _ => hins.clear all⟩
  · have ⟨x, y, hexp, ho⟩ := hins.grows all
    rw [ho]
    exact (hs.expands hexp).insert

theorem Changed.of_update [DecidableEq Cid] (hm : m k = some p) (hv : p ≠ v)
    (hc : .key k ∈ n.sight N.keys true) :
    ∃ n' l', n.insert k v (N.heightForKey k) = .ok (n', some p) ∧
      Changed N top n m k (some v) n' l' := by
  rw [sight_all] at hc
  have hmem := (hl.mem_iff k p).mpr hm
  have ⟨_, hupd⟩ := hr.insert_present v hl.ascending hmem hc
  have ⟨l₁, l₂, n', hsplit, heq, hu⟩ := hupd hv
  subst hsplit
  refine ⟨n', _, heq, ?_, hl.replace, hu.dirty, fun all => ?_, fun all k' _ _ hs => ?_⟩
  · rw [changedTop, max_eq_left (hr.le_of_mem hmem)]
    exact hu.rooted
  · exact ⟨fun _ => hu.shown all, fun h => by simp [hm] at h⟩
  · exact hs.expands (hu.expands all)

theorem Changed.of_remove (hm : m k = some p) (hc : Clear k (n.sight N.keys true)) :
    ∃ n' l', n.remove k (N.heightForKey k) true = .ok (n', some p) ∧
      Changed N top n m k none n' l' := by
  rw [sight_all] at hc
  have hmem := (hl.mem_iff k p).mpr hm
  have ⟨l₁, l₂, n', hsplit, heq, hrem⟩ := hr.remove_present hl.ascending hmem hc
  subst hsplit
  refine ⟨n', _, heq, hrem.rooted, hl.erase, hrem.dirty, fun all => ?_, fun all k' _ hne hs => ?_⟩
  · exact ⟨fun h => by simp at h, fun _ => hrem.clear all⟩
  have ⟨x, y, hexp, ho⟩ := hrem.shrinks all
  have ⟨hx, hy⟩ := lt_of_sight hr hl.ascending hexp
  have hclear := hrem.clear all
  rw [ho] at hclear ⊢
  exact (hs.expands hexp).erase hclear hx hy hne

end Change

end Atproto.Repo
