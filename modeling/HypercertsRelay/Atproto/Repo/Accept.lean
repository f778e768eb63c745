import HypercertsRelay.Atproto.Mst.Diff
import HypercertsRelay.Atproto.Repo.Emptied
import HypercertsRelay.Atproto.Repo.Order

-- Honest commits: operations done on one tree and undone on the diff they make.
namespace Atproto.Repo

open List
open Mst Listing Outline
open Prod (fst mk)

variable {codec : Codec Cid Block} {m : Key → Option Cid} {l l' : Pairs Cid} {t t' : Mst.Tree Cid}
    {changes : List (Key × Option Cid)} {c : Cid} {op : Operation Cid}

-- A complete tree without marks, whose root is as high as the highest key.
structure Settled (codec : Codec Cid Block) (heightForKey : Key → ℕ) (t : Mst.Tree Cid)
    (m : Key → Option Cid) (l : Pairs Cid) (c : Cid) : Prop where
  rooted : ∃ top, Rooted (.whole codec heightForKey) top t.root l ∧
    (l ≠ [] → top = topHeight heightForKey l)
  lists : Lists l m
  valid : ∀ p ∈ l, isValidKey p.1
  clean : t.root.dirty = false
  cid : t.root.cid = some c
  named : cidAt codec heightForKey (topHeight heightForKey l) l = .ok c

structure Effective (m : Key → Option Cid) (changes : List (Key × Option Cid)) : Prop where
  nodup : (changes.map Prod.fst).Nodup
  valid : ∀ c ∈ changes, isValidKey c.1
  differs : ∀ c ∈ changes, m c.1 ≠ c.2

def opsOf (m : Key → Option Cid) (changes : List (Key × Option Cid)) : List (Operation Cid) :=
  changes.map fun c => ⟨c.1, c.2, m c.1⟩

section Forward

theorem changeAll_of_mem (hnodup : (changes.map fst).Nodup)
    (hm : (k, w) ∈ changes) : changeAll m changes k = w := by
  induction changes generalizing m with
  | nil => simp at hm
  | cons c changes ih =>
    have ⟨hnot, hnodup⟩ := nodup_cons.mp hnodup
    rcases mem_cons.mp hm with rfl | hm
    · exact (changeAll_of_not_mem hnot).trans (Function.update_self ..)
    · exact ih hnodup hm

theorem mem_opsOf : op ∈ opsOf m changes ↔ (op.path, op.value) ∈ changes ∧ op.prev = m op.path := by
  have ⟨path, value, prev⟩ := op
  simp only [opsOf, mem_map, Operation.mk.injEq, Prod.exists]
  constructor
  case mp =>
    rintro ⟨k, w, hm, rfl, rfl, rfl⟩
    exact ⟨hm, rfl⟩
  case mpr =>
    rintro ⟨hm, rfl⟩
    exact ⟨path, value, hm, rfl, rfl, rfl⟩

theorem Settled.rootCID (ht : Settled codec H t m l c) : (t.rootCID codec).1 = .ok c := by
  have ⟨top, hr, _⟩ := ht.rooted
  have hstub : t.root.stub = false := hr.stub
  simp [Tree.rootCID, hstub, writeBlocks_of_clean hstub ht.clean ht.cid]

theorem Settled.applyOps [DecidableEq Cid] (hlaw : codec.Lawful)
    (ht : Settled codec H t m l c) (hch : Effective m changes)
    (hr : Rooted (.whole codec H) top t.root l) :
    ∃ t' top' l', applyOps H t changes = .ok (t', opsOf m changes) ∧
      Reached (.linked hlaw H) top m changes t' top' l' ∧
      (changes ≠ [] → t'.root.dirty) ∧
      ∀ op ∈ opsOf m changes, op.Seen (t'.root.sight (keysOf codec H) false) := by
  have hall : ∀ p ∈ t.root.outline (keysOf codec H) true, ∃ k, p = .key k :=
    hr.outline_keys fun _ _ _ => id
  have hkeys : Outline.keys (t.root.sight (keysOf codec H) true) = l.map fst :=
    keys_sight (hr.linked hlaw) true
  have heff : ∀ c ∈ changes, isValidKey c.1 ∧ m c.1 ≠ c.2 ∧
      Seen c.1 ((m c.1).isSome ∧ c.2.isSome) (t.root.sight (keysOf codec H) true) := by
    intro c hc
    rw [Node.sight, outline_child_all] at hkeys ⊢
    refine ⟨hch.valid c hc, hch.differs c hc, fun hstays => ?_, fun _ => clear_of_forall_key hall⟩
    obtain ⟨v, hv⟩ := Option.isSome_iff_exists.mp hstays.left
    have hmem := (ht.lists.mem_iff c.1 v).mpr hv
    exact mem_of_mem_keys hall (hkeys ▸ mem_map_of_mem hmem)
  have hdone : ∀ op ∈ ([] : List (Operation Cid)), op.path ∉ changes.map fst ∧
      op.Seen (t.root.sight (keysOf codec H) false) := by simp
  obtain ⟨t', top', l', heq, hreach, hdirty, hseen⟩ :=
    applyOps_run (hr.linked hlaw) ht.lists hch.nodup heff hdone
  exact ⟨t', top', l', heq, hreach, fun hne => hdirty (.inr hne), hseen⟩

end Forward

section Inverse

variable {ops : List (Operation Cid)}

theorem nodup_paths (hnodup : (changes.map fst).Nodup) (hops : ops.Perm (opsOf m changes)) :
    (ops.map (·.path)).Nodup := by
  refine (hops.map _).nodup_iff.mpr ?_
  rw [opsOf, map_map]
  exact hnodup

theorem Effective.pending (hch : Effective m changes) (hl : Lists l m)
    (hops : ops.Perm (opsOf m changes)) :
    Pending H (topHeight H l) (changeAll m changes) ops := by
  refine ⟨nodup_paths hch.nodup hops, fun op hop => ?_, fun op hop => ?_, fun op hop hdel => ?_⟩
  all_goals obtain ⟨hmem, hprev⟩ := mem_opsOf.mp (hops.mem_iff.mp hop)
  · exact changeAll_of_mem hch.nodup hmem
  · rw [hprev]
    exact (hch.differs _ hmem).symm
  · simp only [Operation.isDelete, Bool.and_eq_true] at hdel
    obtain ⟨v, hv⟩ := Option.isSome_iff_exists.mp hdel.right
    exact le_topHeight ((hl.mem_iff op.path v).mpr (hprev ▸ hv))

theorem changeAll_inverse (hnodup : (changes.map fst).Nodup) (hops : ops.Perm (opsOf m changes)) :
    changeAll (changeAll m changes) (ops.map (·.inverse)) = m := by
  have hpaths : (ops.map (·.inverse)).map fst = ops.map (·.path) := by
    rw [map_map]
    rfl
  funext k
  by_cases hk : k ∈ ops.map (·.path)
  · have ⟨op, hop, hpath⟩ := mem_map.mp hk
    have hmem : (k, op.prev) ∈ ops.map (·.inverse) := mem_map.mpr ⟨op, hop, by rw [←hpath]; rfl⟩
    rw [changeAll_of_mem (hpaths ▸ nodup_paths hnodup hops) hmem, ←hpath]
    exact (mem_opsOf.mp (hops.mem_iff.mp hop)).right
  · rw [changeAll_of_not_mem (hpaths ▸ hk), changeAll_of_not_mem]
    intro hmem
    have ⟨ch, hch, heq⟩ := mem_map.mp hmem
    refine hk (mem_map.mpr ⟨⟨ch.1, ch.2, m ch.1⟩, ?_, heq⟩)
    exact hops.mem_iff.mpr (mem_opsOf.mpr ⟨hch, rfl⟩)

theorem changedTop_nonneg (h : 0 ≤ top ∨ w ≠ none) : 0 ≤ changedTop H top k w l := by
  cases w with
  | some v => exact (Int.natCast_nonneg _).trans (le_max_right _ _)
  | none =>
    have hle := h.resolve_right (by simp)
    rw [changedTop, prunedTop]
    split_ifs
    · exact Int.natCast_nonneg _
    · exact hle

theorem Tops.nonneg (ht : Tops H top m changes top') (h : 0 ≤ top) : 0 ≤ top' := by
  induction ht with
  | nil => exact h
  | cons _ _ ih => exact ih (changedTop_nonneg (.inl h))

-- A root that was empty gets its height from the first key.
theorem Tops.nonneg_of_creates (ht : Tops H top m changes top') (hne : changes ≠ [])
    (hch : ∀ c ∈ changes, c.2 ≠ none) : 0 ≤ top' := by
  cases ht with
  | nil => exact absurd rfl hne
  | cons hl ht => exact ht.nonneg (changedTop_nonneg (.inr (forall_mem_cons.mp hch).left))

theorem Effective.creates (hch : Effective m changes) (hl : Lists l m) (hnil : l = []) :
    ∀ c ∈ changes, c.2 ≠ none := by
  intro c hc hnone
  exact hch.differs c hc ((hl.eq_nil_iff.mp hnil c.1).trans hnone.symm)

-- For the height of the root of a tree that is not empty.
theorem lowOrTidy_iff_eq (hl : l ≠ []) (hc : Covers H top l) :
    LowOrTidy H (topHeight H l) top l ↔ top = topHeight H l := by
  have hle := hc.topHeight_le hl
  constructor
  case mp =>
    rintro (hlow | ⟨_, htop⟩)
    · exact hlow.antisymm hle
    · exact htop
  case mpr => exact fun htop => .inr ⟨hl, htop⟩

theorem rootCID_eq_iff (hlaw : codec.Lawful)
    (hr : Rooted (.linked hlaw H) top t.root l) (htop : 0 ≤ top)
    (hk : ∀ p ∈ l, p.1 ≠ []) (hc : cidAt codec H (topHeight H l) l = .ok c) :
    (t.rootCID codec).1 = .ok c ↔ (l ≠ [] → top = topHeight H l) := by
  cases hr with
  | unknown => omega
  | @rep h _ _ hr =>
    have hw : (t.root.writeBlocks codec).result = cidAt codec H h l :=
      (hr.writeBlocks (Naming.linked_sound hlaw)).result
    have hcid : (t.rootCID codec).1 = cidAt codec H h l := by
      rw [←hw]
      simp [Tree.rootCID, hr.stub]
    rw [hcid, Int.ofNat_inj]
    by_cases hl : l = []
    · rw [hl, cidAt_nil] at hc ⊢
      simp [hc]
    · refine ⟨fun hc' _ => height_unique hlaw hk hl hc hc', fun heq => ?_⟩
      rw [heq hl]
      exact hc

end Inverse

section Run

theorem Operation.Seen.ne_stretch (hs : op.Seen o) (ks : List Key) : o ≠ [.stretch ks] := by
  rintro rfl
  by_cases hstays : op.value.isSome ∧ op.prev.isSome
  · simpa using hs.left hstays
  · exact not_clear_stretch (hs.right hstays)

theorem valid_changeAll (hv : ∀ p ∈ l, isValidKey p.1) (hl : Lists l m) (hch : Effective m changes)
    (hl' : Lists l' (changeAll m changes)) : ∀ p ∈ l', isValidKey p.1 := by
  rintro ⟨k, v⟩ hp
  by_cases hk : k ∈ changes.map fst
  · have ⟨c, hc, heq⟩ := mem_map.mp hk
    exact heq ▸ hch.valid c hc
  · have hp := (hl'.mem_iff k v).mp hp
    rw [changeAll_of_not_mem hk] at hp
    exact hv _ ((hl.mem_iff k v).mpr hp)

variable [DecidableEq Cid]

-- The tree loaded from the diff: every operation can be undone on it.
theorem Settled.load (hlaw : codec.Lawful) (ht : Settled codec H t m l c)
    (hch : Effective m changes) (hne : changes ≠ [])
    (hreach : Reached (.linked hlaw H) top m changes t' top' l') (hd : t'.root.dirty)
    (hseen : ∀ op ∈ opsOf m changes, op.Seen (t'.root.sight (keysOf codec H) false))
    (htop : 0 ≤ top') (hres : (t'.writeDiffBlocks codec).result = .ok root)
    (hdepth : top'.toNat < depth) :
    ∃ d, Tree.loadTreeFromStore codec H (storeOf (t'.writeDiffBlocks codec).blocks) depth
        root = some (.ok d) ∧
      Rooted (.linked hlaw H) (if l' = [] then -1 else top') d.root l' ∧
      ∀ op ∈ opsOf m changes, op.Seen (d.root.sight (keysOf codec H) true) := by
  obtain ⟨h, hh⟩ := Int.eq_ofNat_of_zero_le htop
  subst hh
  have hk : ∀ p ∈ l', p.1 ≠ [] := fun p hp =>
    ne_nil_of_isValidKey (valid_changeAll ht.valid ht.lists hch hreach.lists p hp)
  obtain ⟨d, heq, hload⟩ :=
    loadTreeFromStore_written hlaw hreach.rooted.rep_of_nat hd hk hres hdepth
  have hview : ∀ op ∈ opsOf m changes, op.Seen (d.root.outline (keysOf codec H) true) := by
    intro op hop
    have hs := hseen op hop
    rw [Node.sight, outline_child_of_dirty hd] at hs
    exact Seen.expands hs hload.expands
  refine ⟨d, heq, ?_, fun op hop => ?_⟩
  · obtain ⟨ch, hmem⟩ := exists_mem_of_ne_nil changes hne
    have hop : ⟨ch.1, ch.2, m ch.1⟩ ∈ opsOf m changes := mem_opsOf.mpr ⟨hmem, rfl⟩
    exact hload.rooted (hview _ hop).ne_stretch
  · rw [Node.sight, outline_child_all]
    exact hview op hop

omit [DecidableEq Cid] in
-- The root of the diff is not higher than that of the tree, or as high as its highest key.
theorem Settled.lowOrTidy (ht : Settled codec H t m l c) (hch : Effective m changes)
    (hr : Rooted (.whole codec H) top t.root l) (htidy : top = topHeight H l)
    (hN : N.heightForKey = H) (hreach : Reached N top m changes t' top' l') :
    Covers H (if l' = [] then -1 else top') l' ∧
      LowOrTidy H (topHeight H l) (if l' = [] then -1 else top') l' := by
  have hlow : ∀ c ∈ changes, c.2 = none → m c.1 ≠ none ∧ H c.1 ≤ topHeight H l := by
    intro ch hmem hnone
    have hm : m ch.1 ≠ none := hnone ▸ hch.differs ch hmem
    have ⟨v, hv⟩ := Option.ne_none_iff_exists'.mp hm
    exact ⟨hm, le_topHeight ((ht.lists.mem_iff ch.1 v).mpr hv)⟩
  have ⟨hcovers, hlt⟩ := Tops.lowOrTidy (hN ▸ hreach.tops) hch.nodup hlow ht.lists
    (fun p hp => hr.le_of_mem hp) (.inl htidy.le) hreach.lists
  by_cases hl' : l' = []
  · simp [hl', Covers, LowOrTidy]
  · rw [if_neg hl']
    exact ⟨hcovers, hlt⟩

theorem Settled.invertOps (hlaw : codec.Lawful) (ht : Settled codec H t m l c)
    (hch : Effective m changes) (hne : changes ≠ [])
    (hr : Rooted (.whole codec H) top t.root l)
    (htidy : l ≠ [] → top = topHeight H l)
    (hreach : Reached (.linked hlaw H) top m changes t' top' l') (htop : 0 ≤ top')
    (hd : Rooted (.linked hlaw H) (if l' = [] then -1 else top') d.root l')
    (hseen : ∀ op ∈ opsOf m changes, op.Seen (d.root.sight (keysOf codec H) true))
    (hops : ops.Perm (opsOf m changes)) :
    ∃ t₂, invertOps H d ops = .ok t₂ ∧ ((t₂.rootCID codec).1 = .ok c ↔
        (l ≠ [] → ¬Overtops H (topHeight H l) (changeAll m changes) ops)) := by
  have hpend : Pending H (topHeight H l) (changeAll m changes) ops := hch.pending ht.lists hops
  have hready : ∀ op ∈ ops, isValidKey op.path ∧ op.value ≠ op.prev ∧
      changeAll m changes op.path = op.value ∧ op.Seen (d.root.sight (keysOf codec H) true) := by
    intro op hop
    have hmem := hops.mem_iff.mp hop
    exact ⟨hch.valid _ (mem_opsOf.mp hmem).left, hpend.effective op hop, hpend.value op hop,
      hseen op hmem⟩
  have ⟨t₂, top₂, l₂, heq, hreach₂⟩ := invertOps_run hd hreach.lists hpend.nodup hready
  have hlists₂ := hreach₂.lists
  rw [changeAll_inverse hch.nodup hops] at hlists₂
  have hsame := hlists₂.unique ht.lists
  subst hsame
  refine ⟨t₂, heq, ?_⟩
  have hcovers : Covers H top₂ l₂ := fun p hp => hreach₂.rooted.le_of_mem hp
  have hnonneg : 0 ≤ top₂ := by
    by_cases hl : l₂ = []
    case neg => exact (Int.natCast_nonneg _).trans (hcovers.topHeight_le hl)
    case pos =>
      have ⟨ch, hmem⟩ := exists_mem_of_ne_nil changes hne
      have ⟨v, hv⟩ := Option.ne_none_iff_exists'.mp (hch.creates ht.lists hl ch hmem)
      have hl' : l' ≠ [] := ne_nil_of_mem
        ((hreach.lists.mem_iff ch.1 v).mpr ((changeAll_of_mem hch.nodup hmem).trans hv))
      exact hreach₂.tops.nonneg (by rwa [if_neg hl'])
  have hk : ∀ p ∈ l₂, p.1 ≠ [] := fun p hp => ne_nil_of_isValidKey (ht.valid p hp)
  rw [rootCID_eq_iff hlaw hreach₂.rooted hnonneg hk ht.named]
  refine forall_congr' fun hl => ?_
  have ⟨hcov, hlt⟩ := ht.lowOrTidy hch hr (htidy hl) rfl hreach
  rw [←lowOrTidy_iff_eq hl hcovers]
  exact Tops.lowOrTidy_iff hreach₂.tops hpend hreach.lists hcov hlt hreach₂.lists

end Run

section Listed

variable (sortLong : List (Operation Cid) → List (Operation Cid))

-- `NormalizeOps` puts the creations first, this one last of them. Beyond twelve operations this is
-- up to the library.
def CreatesSortTo (listed : List (Operation Cid)) (c : Operation Cid) : Prop :=
  if listed.length ≤ 12 then
    CreatesSortFirst listed ∧ c ∈ listed ∧ c.isCreate ∧
      ∀ op ∈ listed, op.isCreate → op.path ≤ c.path
  else
    CreatesEndAt (sortLong listed) c

-- Every key is deleted, but what is created is undone before, and the last of it is higher than any
-- key.
structure Overtaken (heightForKey : Key → ℕ) (m : Key → Option Cid)
    (listed : List (Operation Cid)) : Prop where
  filled : ∃ k, m k ≠ none
  emptied : ∀ k, m k ≠ none → ∃ op ∈ listed, op.isDelete ∧ op.path = k
  higher : ∃ c, CreatesSortTo sortLong listed c ∧
    ∀ k, m k ≠ none → heightForKey k < heightForKey c.path

variable {sortLong}

theorem sortOps_perm (hsort : ∀ list, (sortLong list).Perm list) :
    (sortOps sortLong listed).Perm listed := by
  rw [sortOps]
  split_ifs
  · exact Insertion.sort_perm listed
  · exact hsort listed

theorem createsSortTo_iff {c} (hnodup : (listed.map (·.path)).Nodup)
    (hd : ∃ op ∈ listed, op.isDelete) :
    CreatesSortTo sortLong listed c ↔ CreatesEndAt (sortOps sortLong listed) c := by
  rw [CreatesSortTo, sortOps]
  split_ifs
  · exact (createsEndAt_sort_iff hnodup hd).symm
  · rfl

theorem overtaken_iff (hsort : ∀ list, (sortLong list).Perm list) (hch : Effective m changes)
    (hl : Lists l m) (hlisted : listed.Perm (opsOf m changes)) :
    Overtaken sortLong H m listed ↔ l ≠ [] ∧ Overtops H (topHeight H l) (changeAll m changes)
        (sortOps sortLong listed) := by
  have hmem {op} : op ∈ sortOps sortLong listed ↔ op ∈ listed :=
    (sortOps_perm hsort).mem_iff
  have hfilled : l ≠ [] ↔ ∃ k, m k ≠ none := by
    rw [ne_eq, hl.eq_nil_iff]
    push Not
    rfl
  have hops {op} : op ∈ listed ↔ (op.path, op.value) ∈ changes ∧ op.prev = m op.path :=
    hlisted.mem_iff.trans mem_opsOf
  have hnodup := nodup_paths hch.nodup hlisted
  have hpath {k} {w} (hk : (k, w) ∈ changes) : changeAll m changes k = w :=
    changeAll_of_mem hch.nodup hk
  constructor
  case mp =>
    rintro ⟨⟨k, hk⟩, hempty, c, hto, hover⟩
    obtain ⟨op, hop, hdel, _⟩ := hempty k hk
    obtain ⟨cs, ds, hs, hcs, hc, hds⟩ := (createsSortTo_iff hnodup ⟨op, hop, hdel⟩).mp hto
    have hl₀ := hfilled.mpr ⟨k, hk⟩
    refine ⟨hl₀, cs, c, ds, hs, hcs, hc, hds, fun k hk => ?_, ?_⟩
    · by_contra hnot
      push Not at hnot
      by_cases hkc : k ∈ changes.map fst
      case neg =>
        rw [changeAll_of_not_mem hkc] at hk
        obtain ⟨op, hop, _, hkop⟩ := hempty k hk
        exact hkc (mem_map.mpr ⟨_, (hops.mp hop).left, hkop⟩)
      case pos =>
        obtain ⟨⟨_, w⟩, hmemc, heq⟩ := mem_map.mp hkc
        subst heq
        have hop : ⟨_, w, m _⟩ ∈ sortOps sortLong listed := hmem.mpr (hops.mpr ⟨hmemc, rfl⟩)
        rw [hs, ←singleton_append, ←append_assoc] at hop
        rcases mem_append.mp hop with hop | hop
        case inl => exact hnot _ hop rfl
        case inr =>
          have hdel := hds _ hop
          simp only [Operation.isDelete, Bool.and_eq_true, Option.isNone_iff_eq_none] at hdel
          exact hk ((hpath hmemc).trans hdel.left)
    · obtain ⟨p, hp, hh⟩ := exists_topHeight H hl₀
      rw [←hh]
      exact hover p.1 (by simp [(hl.mem_iff p.1 p.2).mp hp])
  case mpr =>
    rintro ⟨hne, cs, c, ds, hs, hcs, hc, hds, hall, hH⟩
    have hcreates : ∀ op ∈ cs ++ [c], op.isCreate :=
      forall_mem_append.mpr ⟨hcs, forall_mem_singleton.mpr hc⟩
    have hsorted {op} (hop : op ∈ cs ++ [c]) : op ∈ listed := by
      refine hmem.mp ?_
      rw [hs, ←singleton_append, ←append_assoc]
      exact mem_append_left _ hop
    have hempty : ∀ k, m k ≠ none → ∃ op ∈ listed, op.isDelete ∧ op.path = k := by
      intro k hk
      have hgone : changeAll m changes k = none := by
        by_contra hstays
        obtain ⟨op, hop, hkop⟩ := hall k hstays
        have hcreate := hcreates op hop
        simp only [Operation.isCreate, Bool.and_eq_true, Option.isNone_iff_eq_none] at hcreate
        rw [←hkop, ←(hops.mp (hsorted hop)).right] at hk
        exact hk hcreate.right
      have hkc : k ∈ changes.map fst := by
        by_contra hkc
        exact hk ((changeAll_of_not_mem hkc).symm.trans hgone)
      obtain ⟨⟨_, w⟩, hmemc, heq⟩ := mem_map.mp hkc
      subst heq
      have hw : w = none := (hpath hmemc).symm.trans hgone
      subst hw
      exact ⟨⟨_, none, m _⟩, hops.mpr ⟨hmemc, rfl⟩,
        by simpa [Operation.isDelete, Option.isSome_iff_ne_none] using hk, rfl⟩
    obtain ⟨k, hk⟩ := hfilled.mp hne
    obtain ⟨op, hop, hdel, _⟩ := hempty k hk
    refine ⟨⟨k, hk⟩, hempty, c, ?_, fun k hk => ?_⟩
    · exact (createsSortTo_iff hnodup ⟨op, hop, hdel⟩).mpr ⟨cs, ds, hs, hcs, hc, hds⟩
    · obtain ⟨v, hv⟩ := Option.ne_none_iff_exists'.mp hk
      exact (le_topHeight ((hl.mem_iff k v).mpr hv)).trans_lt hH

end Listed

section Honest

variable [DecidableEq Cid]

-- Undoing the listed operations on a copy of one tree gives the root of another.
def Inverts (codec : Codec Cid Block) (heightForKey : Key → ℕ)
    (sortLong : List (Operation Cid) → List (Operation Cid)) (t d : Mst.Tree Cid)
    (listed : List (Operation Cid)) : Prop :=
  ∃ sorted t', normalizeOps sortLong listed = .ok sorted ∧
    invertOps heightForKey d sorted = .ok t' ∧ (t'.rootCID codec).1 = (t.rootCID codec).1

theorem Settled.loads_nothing (ht : Settled codec H t m l c) (depth : ℕ) (root : Cid) :
    Tree.loadTreeFromStore codec H (storeOf (t.writeDiffBlocks codec).blocks) (depth + 1)
      root = some (.error .notFound) := by
  have ⟨top, hr, _⟩ := ht.rooted
  have hstub : t.root.stub = false := hr.stub
  rw [Tree.writeDiffBlocks, writeBlocks_of_clean hstub ht.clean ht.cid]
  rfl

-- Effective changes of a complete canonical tree can be applied, their diff can be loaded, and
-- undone in any order, unless the diff is emptied of keys that are higher than all there were
-- before.
theorem inverts_iff_not_overtaken (hlaw : codec.Lawful) (heightForKey : Key → ℕ)
    (sortLong : List (Operation Cid) → List (Operation Cid))
    (hsort : ∀ list, (sortLong list).Perm list) (ht : Settled codec heightForKey t m l c)
    (hch : Effective m changes) :
    ∃ t' ops, applyOps heightForKey t changes = .ok (t', ops) ∧
      ∀ root, (t'.writeDiffBlocks codec).result = .ok root → ∃ enough, ∀ depth, enough < depth →
        (changes ≠ [] → ∃ d, Tree.loadTreeFromStore codec heightForKey
          (storeOf (t'.writeDiffBlocks codec).blocks) depth root = some (.ok d)) ∧
        ∀ d, Tree.loadTreeFromStore codec heightForKey
            (storeOf (t'.writeDiffBlocks codec).blocks) depth root = some (.ok d) →
          ∀ listed, listed.Perm ops → (Inverts codec heightForKey sortLong t d listed ↔
              ¬Overtaken sortLong heightForKey m listed) := by
  have ⟨top, hr, htidy⟩ := ht.rooted
  have ⟨t', top', l', heq, hreach, hdirty, hseen⟩ := ht.applyOps hlaw hch hr
  refine ⟨t', opsOf m changes, heq, fun root hres => ⟨top'.toNat, fun depth hdepth => ?_⟩⟩
  by_cases hne : changes = []
  · subst hne
    cases heq
    have ⟨depth, hsucc⟩ := Nat.exists_eq_succ_of_ne_zero (Nat.ne_zero_of_lt hdepth)
    subst hsucc
    refine ⟨fun h => absurd rfl h, fun d hload => ?_⟩
    rw [ht.loads_nothing] at hload
    cases hload
  · have htop : 0 ≤ top' := by
      by_cases hl : l = []
      · exact hreach.tops.nonneg_of_creates hne (hch.creates ht.lists hl)
      · exact hreach.tops.nonneg (htidy hl ▸ Int.natCast_nonneg _)
    have ⟨d, hload, hd, hview⟩ := ht.load hlaw hch hne hreach (hdirty hne) hseen htop hres hdepth
    refine ⟨fun _ => ⟨d, hload⟩, fun d' hload' listed hlisted => ?_⟩
    cases hload.symm.trans hload'
    have hsorted : (sortOps sortLong listed).Perm (opsOf m changes) :=
      (sortOps_perm hsort).trans hlisted
    have ⟨t₂, hinv, hroot⟩ := ht.invertOps hlaw hch hne hr htidy hreach htop hd hview hsorted
    have hnorm : normalizeOps sortLong listed = .ok (sortOps sortLong listed) :=
      if_pos (nodup_paths hch.nodup hlisted)
    rw [overtaken_iff hsort hch ht.lists hlisted, not_and, ←hroot, ←ht.rootCID]
    constructor
    case mp =>
      rintro ⟨sorted, t₃, hnorm', hinv', hcid⟩
      cases hnorm.symm.trans hnorm'
      cases hinv.symm.trans hinv'
      exact hcid
    case mpr => exact fun hcid => ⟨_, t₂, hnorm, hinv, hcid⟩

end Honest

section Sample

def sampleData (d : NodeData ℕ) : Option ℕ × List (ℤ × List (Fin 256) × ℕ × Option ℕ) :=
  (d.left, d.entries.map fun e => (e.prefixLen, e.keySuffix, e.value, e.right))

theorem sampleData_injective : Function.Injective sampleData := by
  rintro ⟨left, es⟩ ⟨left', es'⟩ heq
  have ⟨hleft, hes⟩ := mk.inj heq
  have hentry : Function.Injective fun e : EntryData ℕ =>
      (e.prefixLen, e.keySuffix, e.value, e.right) := by
    rintro ⟨p, k, v, r⟩ ⟨p', k', v', r'⟩ heq
    simpa using heq
  have hleft : left = left' := hleft
  have hes : es = es' := map_injective_iff.mpr hentry hes
  rw [hleft, hes]

-- The CID of a block is its number.
def numberedCodec : Codec ℕ (NodeData ℕ) where
  marshalCBOR := some
  unmarshalCBOR := some
  sum d := Encodable.encode (sampleData d)

theorem numberedCodec_lawful : numberedCodec.Lawful :=
  ⟨fun h => congrArg some (Option.some.inj h).symm,
    Encodable.encode_injective.comp sampleData_injective⟩

def sampleRoot : ℕ :=
  numberedCodec.sum ⟨none, [⟨0, [2], 5, none⟩]⟩

def sampleTree : Mst.Tree ℕ :=
  ⟨[.value [2] 5 false], 0, false, some sampleRoot, false⟩

def sampleMap : Key → Option ℕ :=
  Function.update (fun _ => none) [2] (some 5)

theorem sampleTree_settled :
    Settled numberedCodec sampleHeight sampleTree sampleMap [([2], 5)] sampleRoot := by
  have hheight : sampleHeight [2] = 0 := rfl
  have hcid : cidAt numberedCodec sampleHeight 0 [([2], 5)] = .ok sampleRoot := rfl
  refine ⟨⟨0, .rep ⟨rfl, rfl, fun _ => ⟨sampleRoot, rfl, hcid⟩, .value (by simp) hheight .nil⟩,
    fun _ => rfl⟩, ?_, by simp [isValidKey], rfl, rfl, hcid⟩
  have hnil : Lists ([] ++ [] : Pairs ℕ) fun _ => none := lists_nil
  exact hnil.insert (by simp) (by simp)

theorem inverts_iff_not_overtaken_update : ∃ t' ops,
      applyOps sampleHeight sampleTree [([2], some 6), ([1], some 7)] = .ok (t', ops) ∧
      ∀ root, (t'.writeDiffBlocks numberedCodec).result = .ok root → ∃ depth d,
        Tree.loadTreeFromStore numberedCodec sampleHeight
          (storeOf (t'.writeDiffBlocks numberedCodec).blocks) depth root = some (.ok d) ∧
        Inverts numberedCodec sampleHeight id sampleTree d ops := by
  have hch : Effective sampleMap [([2], some 6), ([1], some 7)] :=
    ⟨by decide, by simp [isValidKey], by simp [sampleMap]⟩
  have hops : (applyOps sampleHeight sampleTree [([2], some 6), ([1], some 7)]).map Prod.snd =
      .ok [⟨[2], some 6, some 5⟩, ⟨[1], some 7, none⟩] := by decide +kernel
  obtain ⟨t', ops, heq, hroot⟩ := inverts_iff_not_overtaken numberedCodec_lawful sampleHeight id
    (fun _ => .refl _) sampleTree_settled hch
  refine ⟨t', ops, heq, fun root hres => ?_⟩
  obtain ⟨enough, hall⟩ := hroot root hres
  obtain ⟨hload, hinv⟩ := hall (enough + 1) (Nat.lt_succ_self _)
  obtain ⟨d, hd⟩ := hload (by simp)
  rw [heq] at hops
  cases hops
  -- The old key is updated and not deleted.
  refine ⟨_, d, hd, (hinv d hd _ (.refl _)).mpr fun h => ?_⟩
  exact absurd (h.emptied [2] (by simp [sampleMap])) (by decide)

-- The one key goes and a higher one comes. With the creation undone first, the empty root keeps the
-- height of the key it lost.
theorem overtaken_not_inverted : Effective sampleMap [([2], none), ([1], some 7)] ∧ (do
      let (t', ops) ← (applyOps sampleHeight sampleTree [([2], none), ([1], some 7)]).toOption
      let root ← (t'.writeDiffBlocks numberedCodec).result.toOption
      let loaded ← Tree.loadTreeFromStore numberedCodec sampleHeight
        (storeOf (t'.writeDiffBlocks numberedCodec).blocks) 2 root
      let d ← loaded.toOption
      let sorted ← (normalizeOps id ops).toOption
      let t₂ ← (invertOps sampleHeight d sorted).toOption
      (t₂.rootCID numberedCodec).1.toOption) = some (numberedCodec.sum ⟨some sampleRoot, []⟩) ∧
    (sampleTree.rootCID numberedCodec).1 = .ok sampleRoot ∧
      numberedCodec.sum ⟨some sampleRoot, []⟩ ≠ sampleRoot := by
  refine ⟨⟨by decide, by simp [isValidKey], by simp [sampleMap]⟩, by decide +kernel,
    sampleTree_settled.rootCID, by decide +kernel⟩

end Sample

end Atproto.Repo
