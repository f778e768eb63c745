import HypercertsRelay.Handoff.Basic

-- Once nothing is queued, the two sides agree about the source, unless its host was banned.
namespace Handoff

open Jetstream.Jobs (Command Kind)
open Relay.Sources (Db Op Source)

variable [DecidableEq Pds]

def Agrees (p : Pds) (s : State Pds) : Prop :=
  ∃ source, s.relay.source = some source ∧
    s.manager.data.enabled p = source.effective s.relay.host ∧
    s.manager.data.sourceRevisions p = source.revision

-- The host is banned while its source is enabled.
def BansEnabled (s s' : State Pds) : Prop :=
  (∃ source, s.relay.source = some source ∧ source.state = .enabled) ∧
    s' = s.operate (.updateHostStatus .banned)

-- The row that is queued says what the source is; without one Jetstream has been told.
structure Told (s : State Pds) : Prop where
  row : ∀ row, s.relay.handoff = some row → Matches s.relay row
  none : s.queued → s.relay.handoff = none → ∃ source, s.relay.source = some source ∧
    ⟨kindOf (source.effective s.relay.host), source.revision⟩ ∈ s.delivered

section Rows

omit [DecidableEq Pds] in
theorem Matches.of_core (h : Matches relay row)
    (hsource : relay'.source.map core = relay.source.map core)
    (hhost : relay'.host = relay.host) : Matches relay' row := by
  have ⟨source, hs, hrev, heff⟩ := h
  have ⟨source', hs', hcore⟩ := exists_of_core hsource.symm hs
  exact ⟨source', hs', (revision_of_core hcore).trans hrev,
    by rw [hhost, effective_of_core hcore, heff]⟩

omit [DecidableEq Pds] in
theorem matches_of_queued (h : relay.Queued) (hrow : relay.handoff = some row) :
    Matches relay row := by
  have ⟨row', source, hrow', hs, hrev, heff⟩ := h
  cases hrow'.symm.trans hrow
  refine ⟨source, hs, hrev.symm, ?_⟩
  rw [Bool.eq_iff_iff, ←heff, decide_eq_true_iff]

end Rows

namespace Told

variable {s s' : State Pds}

section

omit [DecidableEq Pds]

theorem of_queued (h : s.relay.Queued) : Told s where
  row _ hrow := matches_of_queued h hrow
  none _ hrow := by
    have ⟨_, _, hrow', _⟩ := h
    exact nomatch hrow.symm.trans hrow'

theorem of_core (h : Told s) (hsource : s'.relay.source.map core = s.relay.source.map core)
    (hhost : s'.relay.host = s.relay.host) (hrow : s'.relay.handoff = s.relay.handoff)
    (hqueued : s'.queued = s.queued) (hdel : ∀ c ∈ s.delivered, c ∈ s'.delivered) : Told s' where
  row row hr := (h.row row (hrow ▸ hr)).of_core hsource hhost
  none hq hr := by
    have ⟨source, hs, hmem⟩ := h.none (hqueued ▸ hq) (hrow ▸ hr)
    have ⟨source', hs', hcore⟩ := exists_of_core hsource.symm hs
    refine ⟨source', hs', ?_⟩
    rw [hhost, effective_of_core hcore, revision_of_core hcore]
    exact hdel _ hmem

theorem operate (h : Told s) (hok : s.relay.Ok) (op : Op)
    (hban : ¬BansEnabled s (s.operate op)) : Told (s.operate op) := by
  cases Relay.Sources.Db.apply_change hok op with
  | same hs he hrow =>
    obtain hrow | hrow := hrow
    · refine ⟨fun row hr => ?_, fun hq hr => ?_⟩
      · obtain ⟨source, hs', hrev, heff⟩ := h.row row (hrow ▸ hr)
        exact ⟨source, hs.trans hs', hrev, (he source hs').trans heff⟩
      have hr : (s.relay.apply op).handoff = Option.none := hr
      have hq : s.queued := by
        simpa only [State.operate, hr, Option.isSome_none, Bool.or_false] using hq
      obtain ⟨source, hs', hmem⟩ := h.none hq (hrow ▸ hr)
      refine ⟨source, hs.trans hs', ?_⟩
      have heff : source.effective (s.operate op).relay.host = source.effective s.relay.host :=
        he source hs'
      rw [heff]
      exact hmem
    · exact of_queued hrow
  | create hs hs' _ _ _ hrow =>
    have hnone : s.relay.handoff = Option.none := by
      rw [Option.eq_none_iff_forall_not_mem]
      intro row hr
      obtain ⟨_, hs', _⟩ := h.row row hr
      cases hs.symm.trans hs'
    have hrow : (s.relay.apply op).handoff = Option.none := hrow.trans hnone
    refine ⟨fun row hr => (by cases hrow.symm.trans hr), fun hq _ => ?_⟩
    have hq : s.queued := by
      simpa only [State.operate, hrow, Option.isSome_none, Bool.or_false] using hq
    obtain ⟨_, hs', _⟩ := h.none hq hnone
    cases hs.symm.trans hs'
  | revise _ _ _ _ _ hrow => exact of_queued hrow
  | ban hop he hs _ _ _ _ _ =>
    subst hop
    exact absurd ⟨⟨_, hs, he⟩, rfl⟩ hban

theorem settle (h : Told s) {row} {ok : Bool}
    (hok : ok → command row ∈ s.delivered) :
    Told { s with relay := Handoff.settle s.relay row ok, sending } := by
  rw [Handoff.settle]
  split
  case isFalse => exact h.of_core rfl rfl rfl rfl fun _ h => h
  case isTrue hrow =>
    have hm := h.row row hrow
    split
    case isTrue hd =>
      refine ⟨by simp, fun _ _ => ?_⟩
      obtain ⟨source, hs, hrev, heff⟩ := hm
      refine ⟨source, hs, ?_⟩
      have hcommand : command row = ⟨kindOf (source.effective s.relay.host), source.revision⟩ := by
        rw [command, heff, hrev]
      exact hcommand ▸ hok hd.left
    case isFalse =>
      refine ⟨fun row' hr => ?_, by simp⟩
      injection hr with hr
      subst hr
      exact hm

end

theorem step (h : Told s) (hinv : Inv p E s) (hban : ¬BansEnabled s s') (e : Step p s s') :
    Told s' := by
  cases e with
  | operate op => exact h.operate hinv.ok op hban
  | supersede hrow hm => exact absurd (h.row _ hrow) hm
  | send _ _ => exact h.of_core rfl rfl rfl rfl fun _ h => h
  | acknowledge _ hc => exact h.settle fun _ => hinv.accepted _ hc
  | fail _ => exact h.settle nofun
  | deliver _ _ => exact h.of_core rfl rfl rfl rfl fun _ => List.mem_append_left _
  | receive _ hr =>
    have ⟨hs, hh, hrow⟩ := acknowledge_core hr
    exact h.of_core hs hh hrow rfl fun _ h => h
  | advance _ ha =>
    have ⟨hs, hh, hrow⟩ := advance_core ha
    exact h.of_core hs hh hrow rfl fun _ h => h
  | advanced _ ha =>
    have ⟨hs, hh, hrow⟩ := advance_core ha
    exact h.of_core hs hh hrow rfl fun _ h => h
  | _ => exact h.of_core rfl rfl rfl rfl fun _ h => h

end Told

theorem Inv.agrees {p : Pds} (h : Inv p E s) (hs : s.relay.source = some source)
    (hmem : ⟨kindOf (source.effective s.relay.host), source.revision⟩ ∈ s.delivered) :
    Agrees p s := by
  have hat := h.at_current hs hmem rfl
  refine ⟨source, hs, ?_, hat.revision⟩
  rw [Jetstream.Jobs.Data.enabled, hat.source]
  cases source.effective s.relay.host <;> rfl

theorem agrees_of_not_queued {s : State Pds}
    (h : ((system p).restrict fun s s' => ¬BansEnabled s s').Reachable s) (hq : s.queued)
    (hrow : s.relay.handoff = none) : Agrees p s := by
  have ⟨E, hinv⟩ := inv_of_reachable h.of_restrict
  have htold : Told s := by
    refine h.invariant (P := Told) (fun s hi => ?_) fun s s' hr ht e => ?_
    · refine ⟨fun row hr => ?_, fun hq => ?_⟩
      · exact nomatch hi.row.symm.trans hr
      · exact nomatch hi.queued.symm.trans hq
    · have ⟨_, hinv⟩ := inv_of_reachable hr.of_restrict
      exact ht.step hinv e.right e.left
  have ⟨source, hs, hmem⟩ := htold.none hq hrow
  exact hinv.agrees hs hmem

section Sample

def sampleStart : State Unit where
  relay := ⟨none, none, none, []⟩
  manager := ⟨⟨∅, fun _ => 0, fun _ => 0, []⟩, 1⟩
  sending := []
  requests := []
  accepted := []
  receipts := []
  advances := []
  policyChange := none
  queued := false
  delivered := []

theorem sampleStart_init : Init () sampleStart where
  ok := nofun
  required := nofun
  mirror := nofun
  row := rfl
  fresh := ⟨rfl, rfl, nofun⟩
  policies := nofun
  policy := Nat.one_pos
  sending := rfl
  requests := rfl
  accepted := rfl
  receipts := rfl
  advances := rfl
  change := rfl
  queued := rfl
  received := rfl

def sampleRow : Relay.Sources.Handoff :=
  ⟨2, .enabled, 0⟩

-- The source is added, passes its validation and is handed to Jetstream.
def sampleSent : State Unit :=
  let s := (sampleStart.operate (.addSource false)).operate (.validateSource 1 true)
  { s with sending := sampleRow :: s.sending, requests := command sampleRow :: s.requests }

def sampleAgreed : State Unit :=
  let s := sampleSent.deliver () (command sampleRow)
  let s := { s with relay := settle s.relay sampleRow true, sending := s.sending.erase sampleRow }
  { s with requests := s.requests.erase (command sampleRow) }

structure Quiet (s s' : State Unit) : Prop where
  enabled : s'.relay.source.map Source.state = some .enabled
  mirror : s'.relay.source.map Source.recoveryPolicyRevision = some 0
  change : s.policyChange = none
  policy : s.manager.policy = 1 ∧ s'.manager.policy = 1

theorem Quiet.not_bansEnabled (h : Quiet s s') : ¬BansEnabled s s' := by
  rintro ⟨⟨source, hs, he⟩, rfl⟩
  have henabled := h.enabled
  simp [State.operate, Db.apply, Db.updateHostStatus, hs, he, Source.change] at henabled

theorem sampleAgreed_reachable : ((system ()).restrict Quiet).Reachable sampleAgreed := by
  have h₁ : ((system ()).restrict Quiet).Reachable (sampleStart.operate (.addSource false)) :=
    .step (.init sampleStart_init) ⟨.operate _, rfl, rfl, rfl, rfl, rfl⟩
  have h₂ := h₁.step ⟨.operate (.validateSource 1 true), rfl, rfl, rfl, rfl, rfl⟩
  have h₃ := h₂.step (t := sampleSent) ⟨.send rfl (by decide), rfl, rfl, rfl, rfl, rfl⟩
  have h₄ := h₃.step ⟨.deliver (.head _) rfl, rfl, rfl, rfl, rfl, rfl⟩
  have hmem : sampleRow ∈ (sampleSent.deliver () (command sampleRow)).sending := .head _
  have h₅ := h₄.step ⟨.acknowledge hmem (by decide), rfl, rfl, rfl, rfl, rfl⟩
  exact h₅.step ⟨.lose (command sampleRow), rfl, rfl, rfl, rfl, rfl⟩

theorem agrees_of_not_queued_sample :
    sampleAgreed.queued ∧ sampleAgreed.relay.handoff = none ∧ Agrees () sampleAgreed :=
  have hr := sampleAgreed_reachable.restrict_mono fun _ _ => Quiet.not_bansEnabled
  ⟨rfl, rfl, agrees_of_not_queued hr rfl rfl⟩

-- The ban gives the source a new revision, and Jetstream goes on with the old one.
theorem not_agrees_of_ban : ∃ s : State Unit, (system ()).Reachable s ∧ s.queued ∧
    s.relay.handoff = none ∧ s.requests = [] ∧ ¬Agrees () s := by
  refine ⟨sampleAgreed.operate (.updateHostStatus .banned),
    sampleAgreed_reachable.of_restrict.step (.operate _), rfl, rfl, rfl, ?_⟩
  rintro ⟨source, hs, _, hrev⟩
  injection hs with hs
  subst hs
  exact absurd hrev (by decide)

end Sample

end Handoff
