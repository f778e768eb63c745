import Mathlib

-- The intervals in which the policy history left a collection out, found by a fold over
-- neighbouring policies, and when they agree with the history at every sequence number.
namespace Jetstream.Subscribe.Gaps

open List

abbrev Seq64 := Fin (2 ^ 64)

namespace Seq64

def limit : Seq64 := ⟨2 ^ 64 - 1, by decide⟩

theorem le_limit (s : Seq64) : s ≤ limit :=
  Fin.le_def.mpr (Nat.le_sub_one_of_lt s.isLt)

theorem limit_succ : limit + 1 = 0 :=
  rfl

theorem succ_le_iff (h : b ≠ limit) : b + 1 ≤ s ↔ b < s := by
  have hlt : b.val + 1 < 2 ^ 64 := by
    have hne : b.val ≠ 2 ^ 64 - 1 := fun hb => h (Fin.ext hb)
    omega
  rw [Fin.le_def, Fin.lt_def, Fin.val_add, show (1 : Seq64).val = 1 from rfl, Nat.mod_eq_of_lt hlt]
  exact Nat.succ_le_iff

end Seq64

structure Policy where
  revision : Seq64
  collections : List String
  effectiveAfterSeq : Option Seq64

-- A policy without a boundary is in force from the start.
def Policy.boundary (p : Policy) : Seq64 :=
  p.effectiveAfterSeq.getD 0

structure SelectedGap where
  fromSeq : Seq64
  throughSeq : Option Seq64
  reason : String
  collection : String
  deriving DecidableEq

abbrev OpenGaps := AList fun _ : String => Seq64

def policyCollectionSet (collections : List String) : List String :=
  collections.dedup

def closedGap (start through : Seq64) (collection : String) : SelectedGap where
  fromSeq := start
  throughSeq := some through
  reason := "policy-disabled"
  collection := collection

def openGap (start : Seq64) (collection : String) : SelectedGap where
  fromSeq := start
  throughSeq := none
  reason := "policy-disabled"
  collection := collection

-- The first loop of a transition: the collections that were dropped.
def openGaps (start : Seq64) : List String → OpenGaps → OpenGaps
  | [], opened => opened
  | c :: cs, opened => openGaps start cs (opened.insert c start)

-- The collections that were added. A gap without a sequence number is not reported.
def closeGaps (boundary : Seq64) : List String → OpenGaps → OpenGaps × List SelectedGap
  | [], opened => (opened, [])
  | c :: cs, opened =>
    match opened.lookup c with
    | none => closeGaps boundary cs opened
    | some start =>
      let rest := closeGaps boundary cs (opened.erase c)
      let gaps := if start ≤ boundary then closedGap start boundary c :: rest.snd else rest.snd
      (rest.fst, gaps)

def transitionPolicyGaps (opened : OpenGaps) (previous policy : Policy) :
    OpenGaps × List SelectedGap :=
  let prior := policyCollectionSet previous.collections
  let current := policyCollectionSet policy.collections
  let dropped := prior.filter (· ∉ current)
  let added := current.filter (· ∉ prior)
  closeGaps policy.boundary added (openGaps (policy.boundary + 1) dropped opened)

def transitions (opened : OpenGaps) (gaps : List SelectedGap) (previous : Policy) :
    List Policy → OpenGaps × List SelectedGap
  | [] => (opened, gaps)
  | policy :: rest =>
    let next := transitionPolicyGaps opened previous policy
    transitions next.fst (gaps ++ next.snd) policy rest

-- The gaps in the order they are found, those that are still open last.
def found (opened : OpenGaps) (gaps : List SelectedGap) (previous : Policy) (rest : List Policy) :
    List SelectedGap :=
  let final := transitions opened gaps previous rest
  final.snd ++ final.fst.entries.map fun e => openGap e.snd e.fst

def unsorted : List Policy → List SelectedGap
  | [] => []
  | first :: rest => found ∅ [] first rest

def SelectedGap.le (g g' : SelectedGap) : Bool :=
  g.fromSeq < g'.fromSeq ∨ g.fromSeq = g'.fromSeq ∧ g.collection ≤ g'.collection

def policyGaps (history : List Policy) : List SelectedGap :=
  (unsorted history).mergeSort SelectedGap.le

-- One record for each revision, in order, with the sequence number after which it took effect.
structure History where
  policies : List Policy
  revisions : policies.Pairwise (·.revision < ·.revision)
  boundaries : policies.Pairwise (·.boundary ≤ ·.boundary)

def SelectedGap.Covers (g : SelectedGap) (s : Seq64) : Prop :=
  g.fromSeq ≤ s ∧ ∀ through, g.throughSeq = some through → s ≤ through

def SelectedGap.Apart (g g' : SelectedGap) : Prop :=
  g.collection = g'.collection → ∀ s, g.Covers s → ¬g'.Covers s

-- The last policy that is in force at `s` leaves the collection out, and one before it did not.
def ExcludedAt (policies : List Policy) (c : String) (s : Seq64) : Prop :=
  ∃ before p after, policies = before ++ p :: after ∧ p.boundary < s ∧
    (∀ q ∈ after, s ≤ q.boundary) ∧ c ∉ p.collections ∧ ∃ q ∈ before, c ∈ q.collections

structure Exact (policies : List Policy) (gaps : List SelectedGap) : Prop where
  covers : ∀ c s, 1 ≤ s → ((∃ g ∈ gaps, g.collection = c ∧ g.Covers s) ↔ ExcludedAt policies c s)
  apart : gaps.Pairwise SelectedGap.Apart
  sorted : gaps.Pairwise (·.le ·)

section Transition

theorem lookup_openGaps (start : Seq64) (cs : List String) :
    (openGaps start cs opened).lookup c = if c ∈ cs then some start else opened.lookup c := by
  induction cs generalizing opened with
  | nil => rfl
  | cons c' cs ih =>
    rw [openGaps, ih]
    by_cases hc : c = c'
    · subst hc; simp
    · simp [hc]

theorem lookup_closeGaps (boundary : Seq64) (cs : List String) :
    (closeGaps boundary cs opened).fst.lookup c = if c ∈ cs then none else opened.lookup c := by
  induction cs generalizing opened with
  | nil => rfl
  | cons c' cs ih =>
    rw [closeGaps]
    split
    case h_1 hnone =>
      rw [ih]
      by_cases hc : c = c'
      · subst hc; simp [hnone]
      · simp [hc]
    case h_2 =>
      rw [ih]
      by_cases hc : c = c'
      · subst hc; simp
      · simp [hc]

theorem mem_closeGaps (hcs : cs.Nodup) :
    g ∈ (closeGaps boundary cs opened).snd ↔ g.collection ∈ cs ∧
      ∃ start, opened.lookup g.collection = some start ∧ start ≤ boundary ∧
        g = closedGap start boundary g.collection := by
  induction cs generalizing opened with
  | nil => simp [closeGaps]
  | cons c' cs ih =>
    have ⟨hc', hcs⟩ := nodup_cons.mp hcs
    rw [closeGaps]
    split
    case h_1 hnone =>
      rw [ih hcs, mem_cons]
      refine and_congr_left fun ⟨start, hl, _⟩ => ?_
      have hne : g.collection ≠ c' := by
        rintro rfl
        rw [hnone] at hl
        cases hl
      simp [hne]
    case h_2 start hstart =>
      have hrest (hg : g.collection ≠ c') : g ∈ (closeGaps boundary cs (opened.erase c')).snd ↔
          g.collection ∈ c' :: cs ∧ ∃ start, opened.lookup g.collection = some start ∧
            start ≤ boundary ∧ g = closedGap start boundary g.collection := by
        rw [ih hcs, AList.lookup_erase_ne hg, mem_cons, or_iff_right hg]
      have hnot (hg : g.collection = c') : g ∉ (closeGaps boundary cs (opened.erase c')).snd := by
        rw [ih hcs, hg]
        exact fun h => hc' h.left
      by_cases hg : g.collection = c'
      case neg =>
        have hne : g ≠ closedGap start boundary c' := fun h => hg (congrArg (·.collection) h)
        rw [←hrest hg]
        split <;> simp [hne]
      case pos =>
        have hn := hnot hg
        subst hg
        split
        case isTrue hle => simp [hn, hstart, hle]
        case isFalse hle => simp [hn, hstart, hle]

theorem collections_closeGaps (boundary : Seq64) (cs : List String) :
    ((closeGaps boundary cs opened).snd.map (·.collection)).Sublist cs := by
  induction cs generalizing opened with
  | nil => exact .refl _
  | cons c cs ih =>
    rw [closeGaps]
    split
    case h_1 => exact ih.cons _
    case h_2 =>
      split
      · exact ih.cons_cons _
      · exact ih.cons _

theorem lookup_transition : (transitionPolicyGaps opened previous policy).fst.lookup c =
    if c ∈ previous.collections then
      if c ∈ policy.collections then opened.lookup c else some (policy.boundary + 1)
    else
      if c ∈ policy.collections then none else opened.lookup c := by
  simp only [transitionPolicyGaps, policyCollectionSet, lookup_closeGaps, lookup_openGaps,
    mem_filter, mem_dedup, decide_eq_true_eq]
  by_cases hp : c ∈ previous.collections <;> by_cases hc : c ∈ policy.collections <;> simp [hp, hc]

theorem mem_transition : g ∈ (transitionPolicyGaps opened previous policy).snd ↔
      g.collection ∉ previous.collections ∧ g.collection ∈ policy.collections ∧
        ∃ start, opened.lookup g.collection = some start ∧ start ≤ policy.boundary ∧
          g = closedGap start policy.boundary g.collection := by
  simp only [transitionPolicyGaps, policyCollectionSet]
  rw [mem_closeGaps ((nodup_dedup _).filter _), lookup_openGaps]
  by_cases hp : g.collection ∈ previous.collections
  · simp [hp]
  · simp [hp]

theorem covers_transition :
    (∃ g ∈ (transitionPolicyGaps opened previous policy).snd, g.collection = c ∧ g.Covers s) ↔
      c ∉ previous.collections ∧ c ∈ policy.collections ∧ s ≤ policy.boundary ∧
        ∃ start, opened.lookup c = some start ∧ start ≤ s := by
  constructor
  case mp =>
    rintro ⟨g, hg, rfl, hs⟩
    have ⟨hl, hp, start, hstart, _, hg⟩ := mem_transition.mp hg
    rw [hg] at hs
    exact ⟨hl, hp, hs.right _ rfl, start, hstart, hs.left⟩
  case mpr =>
    intro ⟨hl, hp, hs, start, hstart, hle⟩
    refine ⟨closedGap start policy.boundary c, ?_, rfl, hle, ?_⟩
    · exact mem_transition.mpr ⟨hl, hp, start, hstart, hle.trans hs, rfl⟩
    · exact fun through ht => Option.some.inj ht ▸ hs

theorem nodup_transition :
    ((transitionPolicyGaps opened previous policy).snd.map (·.collection)).Nodup :=
  (collections_closeGaps _ _).nodup ((nodup_dedup _).filter _)

end Transition

theorem excludedAt_concat : ExcludedAt (policies ++ [p]) c s ↔
      if p.boundary < s then c ∉ p.collections ∧ ∃ q ∈ policies, c ∈ q.collections
      else ExcludedAt policies c s := by
  constructor
  case mp =>
    intro ⟨before, q, after, heq, hq, hafter, hc, hbefore⟩
    cases after using List.reverseRecOn with
    | nil =>
      have ⟨hpol, hp⟩ := append_inj' heq rfl
      obtain rfl := singleton_inj.mp hp
      rw [if_pos hq, hpol]
      exact ⟨hc, hbefore⟩
    | append_singleton after p' =>
      rw [←cons_append, ←append_assoc] at heq
      have ⟨hpol, hp⟩ := append_inj' heq rfl
      obtain rfl := singleton_inj.mp hp
      rw [if_neg (not_lt.mpr (hafter p (by simp)))]
      exact ⟨before, q, after, hpol, hq, fun r hr => hafter r (by simp [hr]), hc, hbefore⟩
  case mpr =>
    split
    case isTrue hp =>
      intro ⟨hc, hbefore⟩
      exact ⟨policies, p, [], rfl, hp, nofun, hc, hbefore⟩
    case isFalse hp =>
      intro ⟨before, q, after, heq, hq, hafter, hc, hbefore⟩
      refine ⟨before, q, after ++ [p], by simp [heq], hq, ?_, hc, hbefore⟩
      intro r hr
      rw [mem_append, mem_singleton] at hr
      obtain hr | hr := hr
      · exact hafter r hr
      · exact hr ▸ not_lt.mp hp

-- What is known after the policies so far, the last of which is `last`.
structure Sound (policies : List Policy) (last : Policy) (opened : OpenGaps)
    (gaps : List SelectedGap) : Prop where
  last_mem : last ∈ policies
  isSome : ∀ c, (opened.lookup c).isSome ↔ c ∉ last.collections ∧ ∃ q ∈ policies, c ∈ q.collections
  start_le : ∀ c start, opened.lookup c = some start → ∀ s, last.boundary < s → start ≤ s
  closed : ∀ g ∈ gaps, ∃ through, g.throughSeq = some through ∧ through ≤ last.boundary
  lt_start : ∀ g ∈ gaps, ∀ start, opened.lookup g.collection = some start →
    ∀ s, g.Covers s → s < start
  covers : ∀ c s, (∃ g ∈ gaps, g.collection = c ∧ g.Covers s) ∨
    (∃ start, opened.lookup c = some start ∧ start ≤ s) ↔ ExcludedAt policies c s
  apart : gaps.Pairwise SelectedGap.Apart

namespace Sound

theorem first (p : Policy) : Sound [p] p ∅ [] where
  last_mem := mem_singleton.mpr rfl
  isSome := by simp
  start_le := nofun
  closed := nofun
  lt_start := nofun
  covers := by
    intro c s
    have h := @excludedAt_concat [] p c s
    rw [nil_append] at h
    rw [h]
    split
    · simp
    · simp [ExcludedAt]
  apart := .nil

theorem covers_le (h : Sound policies last opened gaps) (hg : g ∈ gaps) (hs : g.Covers s) :
    s ≤ last.boundary := by
  have ⟨through, ht, hle⟩ := h.closed g hg
  exact (hs.right through ht).trans hle

theorem lookup_eq_none (h : Sound policies last opened gaps)
    (hc : c ∈ last.collections) : opened.lookup c = none := by
  rw [←Option.not_isSome_iff_eq_none, h.isSome]
  exact fun h' => h'.left hc

section Step

variable {p : Policy} (h : Sound policies last opened gaps) (hle : last.boundary ≤ p.boundary)
  (hlimit : ∀ c ∈ last.collections, c ∉ p.collections → p.boundary ≠ Seq64.limit)

include h in
theorem step_isSome (c : String) : ((transitionPolicyGaps opened last p).fst.lookup c).isSome ↔
      c ∉ p.collections ∧ ∃ q ∈ policies ++ [p], c ∈ q.collections := by
  have hold := h.isSome c
  rw [lookup_transition]
  by_cases hp : c ∈ p.collections <;> by_cases hl : c ∈ last.collections
  · simp [hp, hl, h.lookup_eq_none hl]
  · simp [hp, hl]
  · simp only [hp, hl, if_true, if_false, Option.isSome_some, not_false_eq_true, true_and, true_iff]
    exact ⟨last, mem_append_left _ h.last_mem, hl⟩
  · simp_all

include h hle hlimit in
theorem step_start_le (c : String) (start : Seq64)
    (hs : (transitionPolicyGaps opened last p).fst.lookup c = some start) (s : Seq64)
    (hlt : p.boundary < s) : start ≤ s := by
  rw [lookup_transition] at hs
  split at hs <;> split at hs
  case isTrue.isTrue => exact h.start_le c start hs s (lt_of_le_of_lt hle hlt)
  case isTrue.isFalse hl hp =>
    cases hs
    exact (Seq64.succ_le_iff (hlimit c hl hp)).mpr hlt
  case isFalse.isTrue => cases hs
  case isFalse.isFalse => exact h.start_le c start hs s (lt_of_le_of_lt hle hlt)

include h hle hlimit in
theorem step_lt_start (g : SelectedGap) (hg : g ∈ gaps ++ (transitionPolicyGaps opened last p).snd)
    (start : Seq64) (hs : (transitionPolicyGaps opened last p).fst.lookup g.collection = some start)
    (s : Seq64) (hcov : g.Covers s) : s < start := by
  rw [lookup_transition] at hs
  obtain hg | hg := mem_append.mp hg
  · split at hs <;> split at hs
    case isTrue.isTrue => exact h.lt_start g hg start hs s hcov
    case isTrue.isFalse hl hp =>
      cases hs
      rw [←not_le, Seq64.succ_le_iff (hlimit _ hl hp), not_lt]
      exact (h.covers_le hg hcov).trans hle
    case isFalse.isTrue => cases hs
    case isFalse.isFalse => exact h.lt_start g hg start hs s hcov
  · have ⟨hl, hp, _⟩ := mem_transition.mp hg
    rw [if_neg hl, if_pos hp] at hs
    cases hs

include h hle hlimit in
theorem step_covers (c : String) (s : Seq64) :
    (∃ g ∈ gaps ++ (transitionPolicyGaps opened last p).snd, g.collection = c ∧ g.Covers s) ∨
      (∃ start, (transitionPolicyGaps opened last p).fst.lookup c = some start ∧ start ≤ s) ↔
    ExcludedAt (policies ++ [p]) c s := by
  have hsplit : (∃ g ∈ gaps ++ (transitionPolicyGaps opened last p).snd,
      g.collection = c ∧ g.Covers s) ↔ (∃ g ∈ gaps, g.collection = c ∧ g.Covers s) ∨
        ∃ g ∈ (transitionPolicyGaps opened last p).snd, g.collection = c ∧ g.Covers s := by
    simp only [mem_append, or_and_right, exists_or]
  rw [excludedAt_concat, hsplit, covers_transition]
  split
  case isTrue hlt =>
    -- No closed gap reaches beyond the boundary, and every open one does.
    have hold : ¬∃ g ∈ gaps, g.collection = c ∧ g.Covers s := by
      intro ⟨g, hg, _, hs⟩
      exact absurd ((h.covers_le hg hs).trans hle) (not_le.mpr hlt)
    have hopen : (∃ start, (transitionPolicyGaps opened last p).fst.lookup c = some start ∧
        start ≤ s) ↔ ((transitionPolicyGaps opened last p).fst.lookup c).isSome := by
      rw [Option.isSome_iff_exists]
      refine exists_congr fun start => and_iff_left_of_imp fun hs => ?_
      exact h.step_start_le hle hlimit c start hs s hlt
    rw [hopen, h.step_isSome]
    simp only [hold, not_le.mpr hlt, false_and, and_false, false_or]
    refine and_congr_right fun hc => ?_
    simp [hc, or_and_right, exists_or]
  case isFalse hge =>
    rw [←h.covers, lookup_transition]
    by_cases hl : c ∈ last.collections <;> by_cases hp : c ∈ p.collections
    · simp [hl, hp]
    · have hstart : ¬p.boundary + 1 ≤ s := by rwa [Seq64.succ_le_iff (hlimit c hl hp)]
      simp [hl, hp, hstart, h.lookup_eq_none hl]
    · simp [hl, hp, not_lt.mp hge]
    · simp [hl, hp]

include h in
theorem step_apart :
    (gaps ++ (transitionPolicyGaps opened last p).snd).Pairwise SelectedGap.Apart := by
  rw [pairwise_append]
  refine ⟨h.apart, ?_, ?_⟩
  · have hnodup := @nodup_transition opened last p
    rw [List.Nodup, pairwise_map] at hnodup
    exact hnodup.imp fun hne heq => absurd heq hne
  intro g hg g' hg' heq s hs hs'
  have ⟨_, _, start, hstart, _, hg'⟩ := mem_transition.mp hg'
  have hlt := h.lt_start g hg start (heq ▸ hstart) s hs
  rw [hg'] at hs'
  exact absurd hs'.left (not_le.mpr hlt)

include h hle hlimit in
theorem step : Sound (policies ++ [p]) p (transitionPolicyGaps opened last p).fst
    (gaps ++ (transitionPolicyGaps opened last p).snd) where
  last_mem := mem_append_right _ (mem_singleton.mpr rfl)
  isSome := h.step_isSome
  start_le := h.step_start_le hle hlimit
  closed := by
    intro g hg
    obtain hg | hg := mem_append.mp hg
    · have ⟨through, ht, hthrough⟩ := h.closed g hg
      exact ⟨through, ht, hthrough.trans hle⟩
    · have ⟨_, _, start, _, _, hg⟩ := mem_transition.mp hg
      exact ⟨p.boundary, hg ▸ rfl, le_refl _⟩
  lt_start := h.step_lt_start hle hlimit
  covers := h.step_covers hle hlimit
  apart := h.step_apart

end Step

-- The gaps that are reported once the history ends here.
theorem covers_found (h : Sound policies last opened gaps) (c : String) (s : Seq64) :
    (∃ g ∈ found opened gaps last [], g.collection = c ∧ g.Covers s) ↔ ExcludedAt policies c s := by
  rw [←h.covers]
  simp only [found, transitions, mem_append, mem_map, or_and_right, exists_or]
  refine or_congr_right ⟨?_, ?_⟩
  · rintro ⟨_, ⟨⟨c', start⟩, he, rfl⟩, rfl, hs⟩
    exact ⟨start, AList.mem_lookup_iff.mpr he, hs.left⟩
  · intro ⟨start, hstart, hle⟩
    exact ⟨_, ⟨⟨c, start⟩, AList.mem_lookup_iff.mp hstart, rfl⟩, rfl, hle, nofun⟩

theorem apart_found (h : Sound policies last opened gaps) :
    (found opened gaps last []).Pairwise SelectedGap.Apart := by
  simp only [found, transitions]
  rw [pairwise_append]
  refine ⟨h.apart, ?_, ?_⟩
  · rw [pairwise_map]
    exact (nodupKeys_iff_pairwise.mp opened.nodupKeys).imp fun hne heq => absurd heq hne
  intro g hg g' hg' heq s hs hs'
  have ⟨e, he, hg'⟩ := mem_map.mp hg'
  subst hg'
  have hlookup : opened.lookup g.collection = some e.snd := AList.mem_lookup_iff.mpr (heq ▸ he)
  exact absurd hs'.left (not_le.mpr (h.lt_start g hg _ hlookup s hs))

end Sound

-- What a policy drops is dropped before the sequence numbers end.
def KeepsAtLimit (previous policy : Policy) : Prop :=
  ∀ c ∈ previous.collections, c ∉ policy.collections → policy.boundary ≠ Seq64.limit

theorem Sound.run (h : Sound policies last opened gaps)
    (hb : (last :: rest).Pairwise (·.boundary ≤ ·.boundary))
    (hk : (last :: rest).IsChain KeepsAtLimit) :
    ∃ last' opened' gaps', Sound (policies ++ rest) last' opened' gaps' ∧
      found opened gaps last rest = found opened' gaps' last' [] := by
  induction rest generalizing policies last opened gaps with
  | nil =>
    rw [append_nil]
    exact ⟨last, opened, gaps, h, rfl⟩
  | cons p rest ih =>
    have ⟨hle, hb⟩ := pairwise_cons.mp hb
    have ⟨hp, hk⟩ := isChain_cons_cons.mp hk
    have ⟨last', opened', gaps', hs, hf⟩ := ih (h.step (hle p mem_cons_self) hp) hb hk
    rw [append_assoc, singleton_append] at hs
    exact ⟨last', opened', gaps', hs, hf⟩

theorem found_cons (opened : OpenGaps) (gaps : List SelectedGap) (last p : Policy)
    (rest : List Policy) : found opened gaps last (p :: rest) =
      found (transitionPolicyGaps opened last p).fst
        (gaps ++ (transitionPolicyGaps opened last p).snd) p rest :=
  rfl

theorem found_append (opened : OpenGaps) (gaps : List SelectedGap) (last : Policy)
    (rest : List Policy) : found opened gaps last rest = gaps ++ found opened [] last rest := by
  induction rest generalizing opened gaps last with
  | nil => rfl
  | cons p rest ih => rw [found_cons, found_cons, ih, ih _ ([] ++ _), nil_append, append_assoc]

theorem excludedAt_append (hrest : ∀ q ∈ rest, s ≤ q.boundary) :
    ExcludedAt (policies ++ rest) c s ↔ ExcludedAt policies c s := by
  induction rest generalizing policies with
  | nil => rw [append_nil]
  | cons p rest ih =>
    have ⟨hp, hrest⟩ := forall_mem_cons.mp hrest
    rw [←singleton_append, ←append_assoc, ih hrest, excludedAt_concat, if_neg (not_lt.mpr hp)]

-- A gap opened beyond the last sequence number starts at zero and covers everything.
theorem covers_of_wrapped (hrest : ∀ q ∈ rest, q.boundary = Seq64.limit)
    (hlast : c ∉ last.collections) (hc : opened.lookup c = some 0) :
    ∃ g ∈ found opened [] last rest, g.collection = c ∧ ∀ s, g.Covers s := by
  induction rest generalizing last opened with
  | nil =>
    refine ⟨openGap 0 c, ?_, rfl, fun s => ⟨Fin.zero_le _, nofun⟩⟩
    exact mem_map.mpr ⟨⟨c, 0⟩, AList.mem_lookup_iff.mp hc, rfl⟩
  | cons p rest ih =>
    have ⟨hp, hrest⟩ := forall_mem_cons.mp hrest
    rw [found_cons, found_append, nil_append]
    by_cases hcp : c ∈ p.collections
    · have hmem := mem_transition.mpr
        ⟨hlast, hcp, 0, hc, Fin.zero_le _, (rfl : closedGap 0 p.boundary c = _)⟩
      refine ⟨_, mem_append_left _ hmem, rfl, fun s => ⟨Fin.zero_le _, fun through ht => ?_⟩⟩
      rw [←Option.some.inj ht, hp]
      exact Seq64.le_limit s
    · have hlookup : (transitionPolicyGaps opened last p).fst.lookup c = some 0 := by
        rw [lookup_transition, if_neg hlast, if_neg hcp, hc]
      have ⟨g, hg, hgc⟩ := ih hrest hcp hlookup
      exact ⟨g, mem_append_right _ hg, hgc⟩

theorem Sound.keepsAtLimit (h : Sound policies last opened gaps)
    (hb : (last :: rest).Pairwise (·.boundary ≤ ·.boundary))
    (hcov : ∀ c, (∃ g ∈ found opened gaps last rest, g.collection = c ∧ g.Covers Seq64.limit) →
      ExcludedAt (policies ++ rest) c Seq64.limit)
    (hapart : (found opened gaps last rest).Pairwise SelectedGap.Apart) :
    (last :: rest).IsChain KeepsAtLimit := by
  induction rest generalizing policies last opened gaps with
  | nil => exact .singleton _
  | cons p rest ih =>
    have ⟨hle, hb'⟩ := pairwise_cons.mp hb
    have hkeep : KeepsAtLimit last p := by
      intro c hl hp hlim
      have hrest (q : Policy) (hq : q ∈ rest) : q.boundary = Seq64.limit :=
        le_antisymm (Seq64.le_limit _) (hlim ▸ (pairwise_cons.mp hb').left q hq)
      have hlookup : (transitionPolicyGaps opened last p).fst.lookup c = some 0 := by
        rw [lookup_transition, if_pos hl, if_neg hp, hlim, Seq64.limit_succ]
      have ⟨g, hg, hgc, hgs⟩ := covers_of_wrapped hrest hp hlookup
      rw [found_cons, found_append, append_assoc] at hapart
      rw [found_cons, found_append, append_assoc] at hcov
      have hex := hcov c ⟨g, by simp [hg], hgc, hgs _⟩
      -- The policies from here on are not in force at the limit, so an earlier gap covers it too.
      rw [excludedAt_append (forall_mem_cons.mpr ⟨hlim.ge, fun q hq => (hrest q hq).ge⟩),
        ←h.covers, h.lookup_eq_none hl] at hex
      have ⟨g', hg', hgc', hgs'⟩ := hex.resolve_right (by simp)
      have hlater := (pairwise_append.mp hapart).right.right g' hg' g (by simp [hg])
      exact hlater (hgc'.trans hgc.symm) _ hgs' (hgs _)
    refine .cons_cons hkeep (ih (h.step (hle p mem_cons_self) hkeep) hb' ?_ hapart)
    rwa [append_assoc]

theorem SelectedGap.le_trans (a b c : SelectedGap) (hab : a.le b) (hbc : b.le c) : a.le c := by
  simp only [le, decide_eq_true_eq] at *
  obtain hab | hab := hab
  · obtain hbc | hbc := hbc
    · exact .inl (hab.trans hbc)
    · exact .inl (hbc.left ▸ hab)
  · obtain hbc | hbc := hbc
    · exact .inl (hab.left ▸ hbc)
    · exact .inr ⟨hab.left.trans hbc.left, String.le_trans hab.right hbc.right⟩

theorem SelectedGap.le_total (a b : SelectedGap) : (a.le b || b.le a) = true := by
  simp only [le, Bool.or_eq_true, decide_eq_true_eq]
  obtain h | h := lt_trichotomy a.fromSeq b.fromSeq
  · exact .inl (.inl h)
  cases h with
  | inr h => exact .inr (.inl h)
  | inl h =>
    obtain hc | hc := String.le_total a.collection b.collection
    · exact .inl (.inr ⟨h, hc⟩)
    · exact .inr (.inr ⟨h.symm, hc⟩)

theorem SelectedGap.apart_symm {g' : SelectedGap} (h : g.Apart g') : g'.Apart g :=
  fun heq s hs hs' => h heq.symm s hs' hs

-- Sorting changes neither what is covered nor what is apart.
theorem exact_policyGaps_iff (policies : List Policy) : Exact policies (policyGaps policies) ↔
      (∀ c s, 1 ≤ s → ((∃ g ∈ unsorted policies, g.collection = c ∧ g.Covers s) ↔
        ExcludedAt policies c s)) ∧ (unsorted policies).Pairwise SelectedGap.Apart := by
  have hperm := mergeSort_perm (unsorted policies) SelectedGap.le
  have hmem (g : SelectedGap) : g ∈ policyGaps policies ↔ g ∈ unsorted policies := hperm.mem_iff
  have happ := hperm.pairwise_iff (R := SelectedGap.Apart) SelectedGap.apart_symm
  constructor
  case mp =>
    intro h
    refine ⟨?_, happ.mp h.apart⟩
    simpa only [hmem] using h.covers
  case mpr =>
    intro h
    refine ⟨?_, happ.mpr h.right, pairwise_mergeSort SelectedGap.le_trans SelectedGap.le_total _⟩
    simpa only [hmem] using h.left

theorem policyGaps_exact_iff (h : History) :
    Exact h.policies (policyGaps h.policies) ↔ h.policies.IsChain KeepsAtLimit := by
  rw [exact_policyGaps_iff]
  have ⟨policies, _, hb⟩ := h
  cases policies with
  | nil => simp [unsorted, ExcludedAt]
  | cons first rest =>
    have hfirst := Sound.first first
    constructor
    case mp =>
      intro ⟨hcov, hapart⟩
      refine hfirst.keepsAtLimit hb (fun c => ?_) hapart
      exact (hcov c Seq64.limit (Seq64.le_limit _)).mp
    case mpr =>
      intro hk
      have ⟨_, _, _, hs, hf⟩ := hfirst.run hb hk
      simp only [unsorted]
      rw [hf]
      exact ⟨fun c s _ => hs.covers_found c s, hs.apart_found⟩

-- Dropped after the last sequence number, the collection is reported as left out from the start.
theorem policyGaps_not_exact_at_limit :
    let policies : List Policy := [⟨1, ["a"], none⟩, ⟨2, [], some Seq64.limit⟩]
    (∃ h : History, h.policies = policies) ∧ policyGaps policies = [openGap 0 "a"] ∧
      ¬ExcludedAt policies "a" 5 ∧ ¬Exact policies (policyGaps policies) := by
  have hgaps : policyGaps [⟨1, ["a"], none⟩, ⟨2, [], some Seq64.limit⟩] = [openGap 0 "a"] := by
    simp only [policyGaps]
    rw [show unsorted _ = [openGap 0 "a"] from rfl, mergeSort_singleton]
  have hnot : ¬ExcludedAt [⟨1, ["a"], none⟩, ⟨2, [], some Seq64.limit⟩] "a" 5 := by
    have happ := @excludedAt_concat [⟨1, ["a"], none⟩] ⟨2, [], some Seq64.limit⟩ "a" 5
    have hone := @excludedAt_concat [] ⟨1, ["a"], none⟩ "a" 5
    exact fun hex => (hone.mp (happ.mp hex)).left (by simp)
  refine ⟨⟨⟨_, by decide, by decide⟩, rfl⟩, hgaps, hnot, fun hexact => hnot ((hexact.covers "a" 5 (by decide)).mp ?_)⟩
  rw [hgaps]
  exact ⟨openGap 0 "a", by simp, rfl, by decide, nofun⟩

end Jetstream.Subscribe.Gaps
