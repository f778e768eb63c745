import HypercertsRelay.Atproto.Repo.Operation

-- The comparison puts a deletion before any other operation, but also any operation before one with
-- a greater path.
namespace Atproto.Repo

open List
open Mst Insertion
open Bool (noConfusion)

variable {op c d : Operation Cid} {s cs ds rest listed : List (Operation Cid)}

namespace Operation

theorem not_isDelete (h : op.isCreate) : op.isDelete = false := by
  cases hv : op.value <;> simp_all [isCreate, isDelete]

theorem less_of_isCreate (h : op.isCreate) : less op d ↔ op.path < d.path := by
  simp [less, not_isDelete h]

theorem less_of_isDelete (h : op.isDelete) (hd : d.isDelete) : less op d ↔ op.path < d.path := by
  simp [less, h, hd]

theorem less_of_delete_create (h : op.isDelete) (hc : c.isCreate) : less op c := by
  simp [less, h, not_isDelete hc]

end Operation

open Operation

-- Creations in the order of their paths, and after them deletions in the order of theirs.
structure Parted (cs ds : List (Operation Cid)) : Prop where
  creates : ∀ op ∈ cs, op.isCreate
  deletes : ∀ op ∈ ds, op.isDelete
  creates_ascending : cs.Pairwise fun a b => a.path ≤ b.path
  deletes_ascending : ds.Pairwise fun a b => a.path ≤ b.path

def CreatesFirst (s : List (Operation Cid)) : Prop :=
  s.Pairwise fun a b => a.isDelete → b.isDelete

section Step

theorem CreatesFirst.sublist (h : CreatesFirst s) (hs : s'.Sublist s) : CreatesFirst s' :=
  List.Pairwise.sublist hs h

theorem not_createsFirst (hd : d.isDelete) (hc : c.isCreate) (hs : [d, c].Sublist s) :
    ¬CreatesFirst s := by
  intro h
  have hdel : d.isDelete → c.isDelete := rel_of_pairwise_cons (h.sublist hs) (by simp)
  exact noConfusion ((not_isDelete hc).symm.trans (hdel hd))

-- One list in order takes one more operation.
theorem ascending_sink (hless : ∀ y ∈ ys, less op y ↔ op.path < y.path)
    (hp : ys.Pairwise fun a b => a.path ≤ b.path) :
    ∃ ys' : List (Operation Cid), sink less op ys.reverse = ys'.reverse ∧ ys'.Perm (op :: ys) ∧
      ys'.Pairwise fun a b => a.path ≤ b.path := by
  refine ⟨(sink less op ys.reverse).reverse, (reverse_reverse _).symm, ?_, ?_⟩
  · exact (reverse_perm _).trans ((sink_perm op _).trans ((reverse_perm ys).cons op))
  rw [pairwise_reverse]
  have hless (y) (hy : y ∈ ys.reverse) := hless y (mem_reverse.mp hy)
  exact pairwise_sink (fun y hy h => ((hless y hy).mp h).le)
    (fun y hy h => not_lt.mp (mt (hless y hy).mpr h)) (fun _ _ _ _ hy hz => hz.trans hy)
    (pairwise_reverse.mpr hp)

variable (hp : Parted cs ds)

include hp

-- A deletion stays behind one whose path is not greater.
theorem Parted.delete (hd : d.isDelete) (h : cs = [] ∨ ∃ y ∈ ds, y.path ≤ d.path) :
    ∃ ds', sink less d (cs ++ ds).reverse = (cs ++ ds').reverse ∧ Parted cs ds' ∧
      ds'.Perm (d :: ds) := by
  have ⟨ds', heq, hperm, hasc⟩ :=
    ascending_sink (fun y hy => less_of_isDelete hd (hp.deletes y hy)) hp.deletes_ascending
  have hall : ∀ op ∈ d :: ds, op.isDelete := forall_mem_cons.mpr ⟨hd, hp.deletes⟩
  have hdeletes : ∀ op ∈ ds', op.isDelete := fun op hop => hall op (hperm.mem_iff.mp hop)
  refine ⟨ds', ?_, ⟨hp.creates, hdeletes, hp.creates_ascending, hasc⟩, hperm⟩
  rw [reverse_append, reverse_append]
  rcases h with hnil | ⟨y, hy, hle⟩
  · simp [hnil, heq]
  · have hless : ¬less d y := mt (less_of_isDelete hd (hp.deletes y hy)).mp (not_lt.mpr hle)
    rw [sink_append_of_exists ⟨y, mem_reverse.mpr hy, hless⟩, heq]

-- A deletion whose path is the least goes to the front.
theorem Parted.delete_least (hd : d.isDelete) (h : ∀ y ∈ ds, d.path < y.path) :
    sink less d (cs ++ ds).reverse = (d :: cs ++ ds).reverse := by
  rw [sink_of_forall, cons_append, reverse_cons]
  intro y hy
  cases mem_append.mp (mem_reverse.mp hy)
  case inl hy => exact less_of_delete_create hd (hp.creates y hy)
  case inr hy => exact (less_of_isDelete hd (hp.deletes y hy)).mpr (h y hy)

-- A creation goes before the deletions only if all their paths are greater.
theorem Parted.create (hc : c.isCreate) (h : ∀ y ∈ ds, c.path < y.path) :
    ∃ cs', sink less c (cs ++ ds).reverse = (cs' ++ ds).reverse ∧ Parted cs' ds ∧
      cs'.Perm (c :: cs) := by
  have ⟨cs', heq, hperm, hasc⟩ :=
    ascending_sink (fun _ _ => less_of_isCreate hc) hp.creates_ascending
  have hall : ∀ op ∈ c :: cs, op.isCreate := forall_mem_cons.mpr ⟨hc, hp.creates⟩
  have hcreates : ∀ op ∈ cs', op.isCreate := fun op hop => hall op (hperm.mem_iff.mp hop)
  refine ⟨cs', ?_, ⟨hcreates, hp.deletes, hasc, hp.deletes_ascending⟩, hperm⟩
  have hless : ∀ y ∈ ds.reverse, less c y := fun y hy =>
    (less_of_isCreate hc).mpr (h y (mem_reverse.mp hy))
  rw [reverse_append, reverse_append, sink_append_of_forall hless, heq]

theorem Parted.create_behind (hc : c.isCreate) (h : ∃ y ∈ ds, y.path ≤ c.path) :
    ¬CreatesFirst (sink less c (cs ++ ds).reverse).reverse := by
  have ⟨y, hy, hle⟩ := h
  have hstop : ∃ y ∈ ds.reverse, ¬less c y :=
    ⟨y, mem_reverse.mpr hy, mt (less_of_isCreate hc).mp (not_lt.mpr hle)⟩
  have ⟨z, hz, hsub⟩ := sublist_sink_of_exists hstop
  rw [reverse_append, sink_append_of_exists hstop]
  refine not_createsFirst (hp.deletes z (mem_reverse.mp hz)) hc ?_
  exact List.Sublist.reverse (hsub.trans (sublist_append_left _ _))

end Step

section Run

theorem parted_nil : Parted ([] : List (Operation Cid)) [] :=
  ⟨by simp, by simp, .nil, .nil⟩

-- Once a deletion is listed that is the least and less than no creation, the parts stay apart.
theorem Parted.run (hp : Parted cs ds) (hd : d ∈ ds)
    (hrest : ∀ op ∈ rest, (op.isCreate ∧ op.path < d.path) ∨ (op.isDelete ∧ d.path ≤ op.path))
    (hleast : ∀ y ∈ ds, d.path ≤ y.path) :
    ∃ cs' ds', rest.foldl (fun front x => sink less x front) (cs ++ ds).reverse =
      (cs' ++ ds').reverse ∧ Parted cs' ds' := by
  induction rest generalizing cs ds with
  | nil => exact ⟨cs, ds, rfl, hp⟩
  | cons op rest ih =>
    have ⟨hop, hrest⟩ := forall_mem_cons.mp hrest
    rw [foldl_cons]
    rcases hop with ⟨hc, hlt⟩ | ⟨hdel, hle⟩
    · have ⟨cs', heq, hp', _⟩ := hp.create hc fun y hy => hlt.trans_le (hleast y hy)
      rw [heq]
      exact ih hp' hd hrest hleast
    have ⟨ds', heq, hp', hperm⟩ := hp.delete hdel (.inr ⟨d, hd, hle⟩)
    rw [heq]
    refine ih hp' (hperm.mem_iff.mpr (mem_cons_of_mem _ hd)) hrest fun y hy => ?_
    cases mem_cons.mp (hperm.mem_iff.mp hy)
    case inl hy => exact hy ▸ hle
    case inr hy => exact hleast y hy

theorem Parted.run_deletes (hp : Parted [] ds) (hrest : ∀ op ∈ rest, op.isDelete) :
    ∃ ds', rest.foldl (fun front x => sink less x front) ds.reverse = ds'.reverse ∧
      Parted [] ds' ∧ ds'.Perm (ds ++ rest) := by
  induction rest generalizing ds with
  | nil => exact ⟨ds, rfl, hp, by simp⟩
  | cons op rest ih =>
    have ⟨hop, hrest⟩ := forall_mem_cons.mp hrest
    have ⟨ds₁, heq, hp₁, hperm₁⟩ := hp.delete hop (.inl rfl)
    have ⟨ds', heq', hp', hperm⟩ := ih hp₁ hrest
    refine ⟨ds', ?_, hp', ?_⟩
    · rw [foldl_cons]
      rw [nil_append, nil_append] at heq
      rw [heq, heq']
    · exact hperm.trans ((hperm₁.append_right rest).trans perm_middle.symm)

-- With creations in front, the parts stay apart only so.
theorem Parted.run_of_createsFirst (hp : Parted cs ds) (hcs : cs ≠ [])
    (hkinds : ∀ op ∈ rest, op.isCreate ∨ op.isDelete)
    (h : CreatesFirst (rest.foldl (fun front x => sink less x front) (cs ++ ds).reverse).reverse) :
    ∀ op ∈ rest, (op.isCreate → ∀ y ∈ ds, op.path < y.path) ∧
      (op.isDelete → ∃ y ∈ ds, y.path ≤ op.path) := by
  induction rest generalizing cs ds with
  | nil => simp
  | cons op rest ih =>
    have ⟨hop, hkinds⟩ := forall_mem_cons.mp hkinds
    rw [foldl_cons] at h
    have hone : CreatesFirst (sink less op (cs ++ ds).reverse).reverse :=
      h.sublist (sublist_foldl_sink rest).reverse
    rcases hop with hc | hd
    · have hlt : ∀ y ∈ ds, op.path < y.path := by
        by_contra hnot
        push Not at hnot
        exact hp.create_behind hc hnot hone
      have ⟨cs', heq, hp', hperm⟩ := hp.create hc hlt
      have hcs' : cs' ≠ [] := ne_nil_of_mem (hperm.mem_iff.mpr mem_cons_self)
      rw [heq] at h
      refine forall_mem_cons.mpr ⟨⟨fun _ => hlt, fun hd => ?_⟩, ih hp' hcs' hkinds h⟩
      exact noConfusion ((not_isDelete hc).symm.trans hd)
    · have hle : ∃ y ∈ ds, y.path ≤ op.path := by
        by_contra hnot
        push Not at hnot
        have ⟨c, hmem⟩ := exists_mem_of_ne_nil cs hcs
        rw [hp.delete_least hd hnot, reverse_reverse] at hone
        refine not_createsFirst hd (hp.creates c hmem) ?_ hone
        exact List.Sublist.cons_cons op (singleton_sublist.mpr (mem_append_left ds hmem))
      have ⟨ds', heq, hp', hperm⟩ := hp.delete hd (.inr hle)
      rw [heq] at h
      refine forall_mem_cons.mpr ⟨⟨fun hc => ?_, fun _ => hle⟩, fun op' hop' => ?_⟩
      · exact noConfusion ((not_isDelete hc).symm.trans hd)
      have ⟨hcreate, hdelete⟩ := ih hp' hcs hkinds h op' hop'
      refine ⟨fun hc y hy => hcreate hc y (hperm.mem_iff.mpr (mem_cons_of_mem _ hy)), fun hd' => ?_⟩
      have ⟨y, hy, hley⟩ := hdelete hd'
      cases mem_cons.mp (hperm.mem_iff.mp hy)
      case inr hy => exact ⟨y, hy, hley⟩
      case inl hy =>
        have ⟨z, hz, hlez⟩ := hle
        exact ⟨z, hz, hlez.trans (hy ▸ hley)⟩

-- What is created comes before what is deleted in the order of the paths, and the least path
-- deleted is listed before all that are created.
structure CreatesSortFirst (listed : List (Operation Cid)) : Prop where
  kinds : ∀ op ∈ listed, op.isCreate ∨ op.isDelete
  leads : ∃ before d after, listed = before ++ d :: after ∧ d.isDelete ∧
    (∀ op ∈ before, op.isDelete) ∧
    ∀ op ∈ listed, (op.isDelete → d.path ≤ op.path) ∧ (op.isCreate → op.path < d.path)

theorem CreatesSortFirst.sort (h : CreatesSortFirst listed) :
    ∃ cs ds, sort less listed = cs ++ ds ∧ Parted cs ds := by
  have ⟨before, d, after, hlisted, hd, hbefore, hall⟩ := h.leads
  have ⟨ds₀, heq₀, hp₀, hperm₀⟩ := parted_nil.run_deletes hbefore
  have ⟨ds₁, heq₁, hp₁, hperm₁⟩ := hp₀.delete hd (.inl rfl)
  have hmem : d ∈ ds₁ := hperm₁.mem_iff.mpr mem_cons_self
  have hleast : ∀ y ∈ ds₁, d.path ≤ y.path := by
    intro y hy
    refine (hall y ?_).left (hp₁.deletes y hy)
    rw [hlisted]
    cases mem_cons.mp ((hperm₁.trans (hperm₀.cons d)).mem_iff.mp hy)
    case inl hy => simp [hy]
    case inr hy => exact mem_append_left _ hy
  have hafter : ∀ op ∈ after,
      (op.isCreate ∧ op.path < d.path) ∨ (op.isDelete ∧ d.path ≤ op.path) := by
    intro op hop
    have hop : op ∈ listed := by simp [hlisted, hop]
    have ⟨hle, hlt⟩ := hall op hop
    exact (h.kinds op hop).imp (fun hc => ⟨hc, hlt hc⟩) fun hd => ⟨hd, hle hd⟩
  have ⟨cs, ds, heq, hp⟩ := hp₁.run hmem hafter hleast
  refine ⟨cs, ds, ?_, hp⟩
  rw [nil_append, nil_append] at heq₁
  rw [Insertion.sort, hlisted, foldl_append, foldl_cons, ←reverse_nil, heq₀, heq₁]
  rw [nil_append] at heq
  rw [heq, reverse_reverse]

theorem createsSortFirst_of_sort (hkinds : ∀ op ∈ listed, op.isCreate ∨ op.isDelete)
    (hc : ∃ op ∈ listed, op.isCreate) (hd : ∃ op ∈ listed, op.isDelete)
    (h : CreatesFirst (sort less listed)) : CreatesSortFirst listed := by
  refine ⟨hkinds, ?_⟩
  have ⟨c, hfind⟩ := Option.isSome_iff_exists.mp (find?_isSome.mpr hc)
  have ⟨hc, before, rest, hlisted, hnot⟩ := find?_eq_some_iff_append.mp hfind
  have hbefore : ∀ op ∈ before, op.isDelete := fun op hop =>
    (hkinds op (by simp [hlisted, hop])).resolve_left (by simpa using hnot op hop)
  have ⟨ds, heq, hp, hperm⟩ := parted_nil.run_deletes hbefore
  rw [reverse_nil] at heq
  rw [Insertion.sort, hlisted, foldl_append, heq, foldl_cons] at h
  -- The first creation passes all deletions, and from then on none of them has to be passed.
  have hfirst : ∀ y ∈ ds, c.path < y.path := by
    by_contra hpath
    push Not at hpath
    exact hp.create_behind hc hpath (h.sublist (sublist_foldl_sink rest).reverse)
  have ⟨cs, heq', hp', hperm'⟩ := hp.create hc hfirst
  have hcs : cs ≠ [] := ne_nil_of_mem (hperm'.mem_iff.mpr mem_cons_self)
  rw [nil_append] at heq'
  rw [heq'] at h
  have hrest := hp'.run_of_createsFirst hcs (fun op hop => hkinds op (by simp [hlisted, hop])) h
  have hmem {y} : y ∈ ds ↔ y ∈ before := hperm.mem_iff
  have hnotd : c.isDelete = false := not_isDelete hc
  have hds : ds ≠ [] := by
    have ⟨d, hd, hdel⟩ := hd
    rw [hlisted] at hd
    rcases mem_append.mp hd with hd | hd
    · exact ne_nil_of_mem (hmem.mpr hd)
    · have hd : d ∈ rest := (mem_cons.mp hd).resolve_left fun heq => by simp [heq, hnotd] at hdel
      have ⟨y, hy, _⟩ := (hrest d hd).right hdel
      exact ne_nil_of_mem hy
  have ⟨d, ds', hcons⟩ := exists_cons_of_ne_nil hds
  have hleast : ∀ y ∈ ds, d.path ≤ y.path := by
    have hasc := hp.deletes_ascending
    rw [hcons] at hasc ⊢
    exact forall_mem_cons.mpr ⟨le_refl _, (pairwise_cons.mp hasc).left⟩
  have hd : d ∈ ds := hcons ▸ mem_cons_self
  have ⟨before₁, before₂, hsplit⟩ := append_of_mem (hmem.mp hd)
  refine ⟨before₁, d, before₂ ++ c :: rest, by simp [hlisted, hsplit], hp.deletes d hd,
    fun op hop => hbefore op (by simp [hsplit, hop]), fun op hop => ?_⟩
  rw [hlisted] at hop
  rcases mem_append.mp hop with hop | hop
  · refine ⟨fun _ => hleast op (hmem.mpr hop), fun hcreate => ?_⟩
    exact noConfusion ((not_isDelete hcreate).symm.trans (hbefore op hop))
  rcases mem_cons.mp hop with rfl | hop
  · exact ⟨fun hdel => noConfusion (hnotd.symm.trans hdel), fun _ => hfirst d hd⟩
  · refine ⟨fun hdel => ?_, fun hcreate => (hrest op hop).left hcreate d hd⟩
    have ⟨y, hy, hle⟩ := (hrest op hop).right hdel
    exact (hleast y hy).trans hle

end Run

section Last

-- All operations before this creation are creations, and all after it are deletions.
def CreatesEndAt (s : List (Operation Cid)) (c : Operation Cid) : Prop :=
  ∃ cs ds, s = cs ++ c :: ds ∧ (∀ op ∈ cs, op.isCreate) ∧ c.isCreate ∧ ∀ op ∈ ds, op.isDelete

theorem CreatesEndAt.kinds (h : CreatesEndAt s c) : ∀ op ∈ s, op.isCreate ∨ op.isDelete := by
  have ⟨cs, ds, hs, hcs, hc, hds⟩ := h
  subst hs
  refine forall_mem_append.mpr ⟨fun op hop => .inl (hcs op hop), ?_⟩
  exact forall_mem_cons.mpr ⟨.inl hc, fun op hop => .inr (hds op hop)⟩

theorem CreatesEndAt.createsFirst (h : CreatesEndAt s c) : CreatesFirst s := by
  have ⟨cs, ds, hs, hcs, hc, hds⟩ := h
  subst hs
  refine pairwise_append.mpr ⟨?_, pairwise_cons.mpr ⟨fun op hop _ => hds op hop, ?_⟩, ?_⟩
  · exact pairwise_of_forall_mem_list fun a ha b _ hdel =>
      noConfusion ((not_isDelete (hcs a ha)).symm.trans hdel)
  · exact pairwise_of_forall_mem_list fun _ _ b hb _ => hds b hb
  · exact fun a ha b _ hdel => noConfusion ((not_isDelete (hcs a ha)).symm.trans hdel)

theorem filter_isCreate (hcs : ∀ op ∈ cs, op.isCreate) (hds : ∀ op ∈ ds, op.isDelete) :
    (cs ++ ds).filter (·.isCreate) = cs := by
  have hnone : ds.filter (·.isCreate) = [] := by
    refine filter_eq_nil_iff.mpr fun op hop hc => ?_
    exact noConfusion ((not_isDelete hc).symm.trans (hds op hop))
  rw [filter_append, hnone, append_nil]
  exact filter_eq_self.mpr hcs

-- The creation at the end of the creations is the one with the greatest path.
theorem createsEndAt_sort_iff (hnodup : (listed.map (·.path)).Nodup)
    (hd : ∃ op ∈ listed, op.isDelete) :
    CreatesEndAt (sort less listed) c ↔ CreatesSortFirst listed ∧ c ∈ listed ∧ c.isCreate ∧
        ∀ op ∈ listed, op.isCreate → op.path ≤ c.path := by
  have hperm : (sort less listed).Perm listed := sort_perm listed
  have hmem {op} : op ∈ sort less listed ↔ op ∈ listed := hperm.mem_iff
  constructor
  case mp =>
    intro h
    have ⟨cs, ds, hs, hcs, hc, hds⟩ := h
    have hcl : c ∈ listed := hmem.mp (by simp [hs])
    have hfirst := createsSortFirst_of_sort (fun op hop => h.kinds op (hmem.mpr hop)) ⟨c, hcl, hc⟩ hd
      h.createsFirst
    have ⟨cs', ds', hs', hp⟩ := hfirst.sort
    have hsame : cs ++ [c] = cs' := by
      have hcs : ∀ op ∈ cs ++ [c], op.isCreate :=
        forall_mem_append.mpr ⟨hcs, forall_mem_singleton.mpr hc⟩
      have heq : cs ++ [c] ++ ds = cs' ++ ds' := by rw [←hs', hs, append_assoc]; rfl
      rw [←filter_isCreate hcs hds, heq, filter_isCreate hp.creates hp.deletes]
    refine ⟨hfirst, hcl, hc, fun op hop hcreate => ?_⟩
    have hop : op ∈ cs ++ [c] := by
      rw [hsame, ←filter_isCreate hp.creates hp.deletes, ←hs']
      exact mem_filter.mpr ⟨hmem.mpr hop, hcreate⟩
    have hasc := hp.creates_ascending
    rw [←hsame] at hasc
    rcases mem_append.mp hop with hop | hop
    · exact (pairwise_append.mp hasc).right.right op hop c (by simp)
    · rw [mem_singleton.mp hop]
  case mpr =>
    rintro ⟨hfirst, hcl, hc, hgreatest⟩
    have ⟨cs', ds', hs', hp⟩ := hfirst.sort
    have hcm : c ∈ cs' := by
      rw [←filter_isCreate hp.creates hp.deletes, ←hs']
      exact mem_filter.mpr ⟨hmem.mpr hcl, hc⟩
    have ⟨cs, more, hsplit⟩ := append_of_mem hcm
    have hmore : more = [] := by
      refine eq_nil_iff_forall_not_mem.mpr fun y hy => ?_
      have hasc := hp.creates_ascending
      rw [hsplit] at hasc
      have hle := (pairwise_cons.mp (pairwise_append.mp hasc).right.left).left y hy
      have hyl : y ∈ listed := hmem.mp (by simp [hs', hsplit, hy])
      have heq : c.path = y.path :=
        hle.antisymm (hgreatest y hyl (hp.creates y (by simp [hsplit, hy])))
      have hnodup' := (hperm.map (·.path)).nodup_iff.mpr hnodup
      rw [hs', hsplit, append_assoc, map_append] at hnodup'
      have hlate := (nodup_append.mp hnodup').right.left
      exact (nodup_cons.mp hlate).left (mem_map.mpr ⟨y, by simp [hy], heq.symm⟩)
    subst hmore
    refine ⟨cs, ds', by rw [hs', hsplit, append_assoc]; rfl, fun op hop => ?_, hc, hp.deletes⟩
    exact hp.creates op (by simp [hsplit, hop])

end Last

section Canonical

-- Deletions first, and both parts by path.
def Canonical (s : List (Operation Cid)) : Prop :=
  s.Pairwise fun a b => (b.isDelete → a.isDelete) ∧ (a.isDelete = b.isDelete → a.path < b.path)

-- The paths that are deleted come before all others.
def DeletesLeast (ops : List (Operation Cid)) : Prop :=
  ∀ d ∈ ops, d.isDelete → ∀ c ∈ ops, ¬c.isDelete → d.path < c.path

variable {ops : List (Operation Cid)} {sortLong : List (Operation Cid) → List (Operation Cid)}

theorem DeletesLeast.less_iff (h : DeletesLeast ops) (ha : a ∈ ops) (hb : b ∈ ops) :
    less a b ↔ a.path < b.path := by
  rw [less]
  split_ifs with hkinds
  case neg => exact decide_eq_true_iff
  case pos =>
    rw [Bool.and_eq_true, Bool.not_eq_true'] at hkinds
    exact iff_of_true rfl (h a ha hkinds.left b hb (by simp [hkinds.right]))

theorem DeletesLeast.orders (h : DeletesLeast ops) : Orders less ops where
  asymm a ha b hb := by
    rw [h.less_iff ha hb, h.less_iff hb ha]
    exact lt_asymm
  trans a ha b hb c hc := by
    rw [h.less_iff ha hb, h.less_iff hb hc, h.less_iff ha hc]
    exact fun hab hbc => not_lt.mpr ((not_lt.mp hbc).trans (not_lt.mp hab))

theorem sorts_sortOps (h : Sorts less sortLong) : Sorts less (sortOps sortLong) := by
  intro l hl
  rw [sortOps]
  split_ifs
  · exact sorts_sort l hl
  · exact h l hl

theorem exists_perm_cons_cons (hd : d ∈ ops) (hc : c ∈ ops) (hne : c ≠ d) :
    ∃ rest, (d :: c :: rest).Perm ops := by
  have ⟨l₁, l₂, heq⟩ := append_of_mem hd
  have hperm : ops.Perm (d :: (l₁ ++ l₂)) := heq ▸ perm_middle
  have ⟨m₁, m₂, heq'⟩ := append_of_mem ((mem_cons.mp (hperm.mem_iff.mp hc)).resolve_left hne)
  rw [heq'] at hperm
  exact ⟨m₁ ++ m₂, (perm_middle.cons d).symm.trans hperm.symm⟩

-- An operation that is given after a deletion with a greater path goes before it.
theorem sublist_sort_of_lt (hc : ¬c.isDelete) (h : c.path < d.path) :
    [c, d].Sublist (sort less (d :: c :: rest)) := by
  have hless : less c d := by simp [less, hc, h]
  have hfirst : sink less c [d] = [d, c] := sink_of_forall (forall_mem_singleton.mpr hless)
  have hsub := @sublist_foldl_sink _ less [d, c] rest
  rw [Insertion.sort, foldl_cons, foldl_cons, sink, hfirst]
  exact hsub.reverse

theorem normalizeOps_canonical_iff (hpaths : (ops.map (·.path)).Nodup) :
    (∀ sortLong, Sorts less sortLong → ∃ s, s.Perm ops ∧ Canonical s ∧
      ∀ ops', ops'.Perm ops → normalizeOps sortLong ops' = .ok s) ↔ DeletesLeast ops := by
  have hinj : ∀ a ∈ ops, ∀ b ∈ ops, a.path = b.path → a = b :=
    fun a ha b hb => inj_on_of_nodup_map hpaths ha hb
  have hok (sortLong) {ops'} (hp : ops'.Perm ops) :
      normalizeOps sortLong ops' = .ok (sortOps sortLong ops') :=
    if_pos ((hp.map _).nodup_iff.mpr hpaths)
  constructor
  case mp =>
    intro h d hd hdel c hc hnot
    by_contra hle
    have hne : c ≠ d := fun heq => hnot (heq ▸ hdel)
    have hlt : c.path < d.path := (not_lt.mp hle).lt_of_ne fun heq => hne (hinj c hc d hd heq)
    have ⟨rest, hrest⟩ := exists_perm_cons_cons hd hc hne
    have ⟨s, _, hs, hsame⟩ := h _ sorts_sort
    have heq : sort less (d :: c :: rest) = s := by
      have := (hok _ hrest).symm.trans (hsame _ hrest)
      rwa [sortOps, ite_self, Except.ok.injEq] at this
    have hpair : Canonical [c, d] := List.Pairwise.sublist (heq ▸ sublist_sort_of_lt hnot hlt) hs
    exact hnot ((rel_of_pairwise_cons hpair mem_cons_self).left hdel)
  case mpr =>
    intro h sortLong hsort
    -- On these operations the comparison is that of the paths.
    have hsorted {ops'} (hp : ops'.Perm ops) : (sortOps sortLong ops').Perm ops ∧
        (sortOps sortLong ops').Pairwise fun a b => a.path ≤ b.path := by
      have ⟨hperm, hpair⟩ := sorts_sortOps hsort ops' (h.orders.of_subset hp.subset)
      have hperm := hperm.trans hp
      refine ⟨hperm, hpair.imp_of_mem fun ha hb hnot => not_lt.mp ?_⟩
      rwa [h.less_iff (hperm.mem_iff.mp hb) (hperm.mem_iff.mp ha)] at hnot
    have ⟨hperm, hasc⟩ := hsorted (.refl ops)
    refine ⟨sortOps sortLong ops, hperm, ?_, fun ops' hp => ?_⟩
    · have hne := pairwise_map.mp ((hperm.map _).nodup_iff.mpr hpaths)
      refine (hasc.and hne).imp_of_mem fun {a b} ha hb ⟨hle, hne⟩ =>
        ⟨fun hdel => ?_, fun _ => hle.lt_of_ne hne⟩
      by_contra hnot
      exact (h b (hperm.mem_iff.mp hb) hdel a (hperm.mem_iff.mp ha) hnot).not_ge hle
    · have ⟨hperm', hasc'⟩ := hsorted hp
      refine (hok _ hp).trans (congrArg _ (Perm.eq_of_pairwise (fun a b ha hb hab hba => ?_) hasc'
        hasc (hperm'.trans hperm.symm)))
      exact hinj a (hperm'.mem_iff.mp ha) b (hperm.mem_iff.mp hb) (hab.antisymm hba)

theorem normalizeOps_canonical_sample :
    let ops : List (Operation ℕ) := [⟨[98], some 0, none⟩, ⟨[97], none, some 1⟩]
    (ops.map (·.path)).Nodup ∧ ∀ sortLong, Sorts less sortLong → ∃ s, s.Perm ops ∧ Canonical s ∧
      ∀ ops', ops'.Perm ops → normalizeOps sortLong ops' = .ok s :=
  ⟨by decide, (normalizeOps_canonical_iff (by decide)).mpr (by unfold DeletesLeast; decide)⟩

-- A deletion and a creation with a smaller path, in both orders.
theorem normalizeOps_not_canonical : let create : Operation ℕ := ⟨[97], some 0, none⟩
    let delete : Operation ℕ := ⟨[98], none, some 1⟩
    ∀ sortLong, normalizeOps sortLong [delete, create] = .ok [create, delete] ∧
      normalizeOps sortLong [create, delete] = .ok [delete, create] :=
  fun _ => ⟨rfl, rfl⟩

end Canonical

end Atproto.Repo
