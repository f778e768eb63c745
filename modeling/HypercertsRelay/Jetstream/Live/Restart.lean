import HypercertsRelay.Jetstream.Live.Verified

-- What a restart of the live consumer finds.
namespace Jetstream.Live

open List Option Ratchet
open Event (accountSeq? rev?)

variable [LinearOrder Rev] [DecidableEq Did]

-- A ratchet and the rows of its kind.
structure Ratcheted (kind : Kind Rev) (r : Ratchet) (φ : Phase) (a : Account Rev) : Prop where
  bound : ∀ e ∈ a.buffered ++ a.rows, e.kind = kind → e.seq ≤ r.loadApplied
  nodup : ((a.buffered ++ a.rows).filter (·.kind = kind)).Nodup
  left : ∀ e left, a.current = some (e, left + 1) → e.kind = kind → left = 0 ∧ r.loadApplied < e.seq
  promoted : ∀ seq, r.promoted = some seq → ⟨seq, kind⟩ ∈ a.buffered ++ a.rows
  durable : r.durable ≠ 0 → ⟨r.durable, kind⟩ ∈ a.rows
  covered : φ = .idle → ∀ e ∈ a.rows, e.kind = kind → e.seq ≤ r.durable
  captured : φ = .staged → r.captured = r.promoted

namespace Ratcheted

variable {kind : Kind Rev}

theorem mono (h : Ratcheted kind r φ a) (hb : a'.buffered = a.buffered) (hr : a'.rows = a.rows)
    (hc : ∀ e left, a'.current = some (e, left + 1) → e.kind = kind →
      left = 0 ∧ r.loadApplied < e.seq) : Ratcheted kind r φ a' where
  bound := by rw [hb, hr]; exact h.bound
  nodup := by rw [hb, hr]; exact h.nodup
  left := hc
  promoted := by rw [hb, hr]; exact h.promoted
  durable := hr ▸ h.durable
  covered := hr ▸ h.covered
  captured := h.captured

theorem append_of_ne (h : Ratcheted kind r φ a) (hne : e.kind ≠ kind)
    (hb : a'.buffered = e :: a.buffered) (hr : a'.rows = a.rows)
    (hc : a'.current = some (e, n)) : Ratcheted kind r φ a' where
  bound := by
    rw [hb, hr, cons_append, forall_mem_cons]
    exact ⟨fun hk => absurd hk hne, h.bound⟩
  nodup := by
    rw [hb, hr, cons_append, filter_cons_of_neg (by simpa using hne)]
    exact h.nodup
  left := by
    intro e' left hc' hk
    rw [hc, Option.some.injEq, Prod.mk.injEq] at hc'
    exact absurd (hc'.left ▸ hk) hne
  promoted := by
    intro seq hp
    rw [hb, hr]
    exact mem_cons_of_mem _ (h.promoted seq hp)
  durable := hr ▸ h.durable
  covered := hr ▸ h.covered
  captured := h.captured

theorem append (h : Ratcheted kind r .idle a) (hk : e.kind = kind)
    (hc : a.current = some (e, n + 1)) (hb : a'.buffered = e :: a.buffered)
    (hr : a'.rows = a.rows) (hc' : a'.current = some (e, n)) :
    Ratcheted kind (r.record e.seq) .idle a' := by
  have ⟨hzero, hlt⟩ := h.left e n hc hk
  rw [record_eq hlt]
  refine ⟨?_, ?_, fun e' left hc'' => ?_, fun seq hp => ?_, hr ▸ h.durable, hr ▸ h.covered, nofun⟩
  · rw [hb, hr, cons_append, forall_mem_cons]
    exact ⟨fun _ => le_rfl, fun e' he' hk' => (h.bound e' he' hk').trans hlt.le⟩
  · rw [hb, hr, cons_append, filter_cons_of_pos (by simpa using hk), nodup_cons]
    refine ⟨fun hmem => ?_, h.nodup⟩
    exact absurd hlt (h.bound e (mem_of_mem_filter hmem) hk).not_gt
  · rw [hc', hzero] at hc''
    exact nomatch hc''
  · cases hp
    rw [hb, hr, ←hk]
    exact mem_cons_self

theorem write (h : Ratcheted kind r φ a) : Ratcheted kind r .written a :=
  { h with covered := nofun, captured := nofun }

theorem sync (h : Ratcheted kind r φ a) : Ratcheted kind r .synced a.sync where
  bound := h.bound
  nodup := h.nodup
  left := h.left
  promoted := h.promoted
  durable := fun hne => mem_append_right _ (h.durable hne)
  covered := nofun
  captured := nofun

theorem stageFlush (h : Ratcheted kind r .synced a) : Ratcheted kind r.stageFlush .staged a where
  bound := h.bound
  nodup := h.nodup
  left := h.left
  promoted := h.promoted
  durable := h.durable
  covered := nofun
  captured := fun _ => rfl

-- The batch takes the ratchet to the highest row of the blocks before it.
theorem commitStaged (h : Ratcheted kind r .staged a) (hb : a.buffered = []) :
    Ratcheted kind r.commitStaged .idle a := by
  have hrows : a.buffered ++ a.rows = a.rows := by rw [hb, nil_append]
  rw [commitStaged_eq (h.captured rfl)]
  refine ⟨h.bound, h.nodup, h.left, nofun, fun hne => ?_, fun _ => hrows ▸ h.bound, nofun⟩
  cases hp : r.promoted with
  | none =>
    simp only [loadApplied, hp, getD_none] at hne ⊢
    exact h.durable hne
  | some seq =>
    simp only [loadApplied, hp, getD_some]
    exact hrows ▸ h.promoted seq hp

theorem crash (h : Ratcheted kind r .idle a) : Ratcheted kind r.crash .idle a.crash where
  bound := h.covered rfl
  nodup := h.nodup.sublist ((sublist_append_right _ _).filter _)
  left := nofun
  promoted := nofun
  durable := h.durable
  covered := h.covered
  captured := nofun

end Ratcheted

namespace Account

structure Inv (φ : Phase) (a : Account Rev) : Prop where
  chain : Traced rev? a.chain a
  host : Traced accountSeq? a.host a
  acct : Ratcheted .account a.acct φ a
  ident : Ratcheted .identity a.ident φ a
  distinct : (a.opened.filter (·.rev?.isSome)).Nodup
  applied : ∀ e ∈ a.opened, e.rev?.isSome → ∀ p ∈ a.chain.entries, p.2 ≠ e
  flushed : φ ≠ .idle → φ ≠ .written → a.buffered = []

variable {a a' : Account Rev} {e e' : Event Rev}

theorem chain_finish (hk : e.rev? = some rev) : (a.finish e).chain = a.chain.promote rev := by
  cases hk' : e.kind <;> simp_all [finish, promoteSyncState, rev?]

theorem chain_finish_of_none (hk : e.rev? = none) : (a.finish e).chain = a.chain := by
  cases hk' : e.kind <;> simp_all [finish, promoteSyncState, rev?]

omit [LinearOrder Rev] in
theorem kind_of_accountSeq? (h : e.accountSeq? = some k) : e = ⟨k, .account⟩ := by
  have ⟨seq, kind⟩ := e
  cases kind <;> simp_all [accountSeq?]

namespace Inv

section

variable (h : a.Inv φ)

include h

theorem not_mem_opened (hk : e.rev? = some rev)
    (hlt : ∀ q, a.chain.load = some q → q.1 < rev) : e ∉ a.opened := by
  intro hmem
  have ⟨q, hq, hle⟩ := h.chain.opened e hmem rev hk
  exact absurd (hlt q hq) hle.not_gt

theorem distinct_enqueue (hnew : e.rev?.isSome → e ∉ a.opened) :
    ((a.opened ++ [e]).filter (·.rev?.isSome)).Nodup := by
  rw [filter_append, nodup_append]
  refine ⟨h.distinct, (nodup_singleton e).filter _, fun x hx y hy hxy => ?_⟩
  have ⟨hy, hsome⟩ := mem_filter.mp hy
  obtain rfl := mem_singleton.mp hy
  exact hnew hsome (hxy ▸ mem_of_mem_filter hx)

theorem enqueue (hq : a'.queue = a.queue ++ [e]) (hcur : a'.current = a.current)
    (hchain : Traced rev? a'.chain a') (hhost : Traced accountSeq? a'.host a')
    (hnew : e.rev?.isSome → e ∉ a.opened ∧ ∀ p ∈ a.chain.entries, p.2 ≠ e)
    (hent : a'.chain.entries = a.chain.entries) (hb : a'.buffered = a.buffered)
    (hr : a'.rows = a.rows) (hacct : a'.acct = a.acct) (hident : a'.ident = a.ident) :
    a'.Inv φ := by
  have ho : a'.opened = a.opened ++ [e] := by simp only [opened, hq, hcur, append_assoc]
  refine ⟨hchain, hhost, hacct ▸ h.acct.mono hb hr (hcur ▸ h.acct.left),
    hident ▸ h.ident.mono hb hr (hcur ▸ h.ident.left), ?_, fun e' he' hsome => ?_, hb ▸ h.flushed⟩
  · rw [ho]
    exact h.distinct_enqueue fun hsome => (hnew hsome).left
  rw [hent]
  rw [ho, mem_append, mem_singleton] at he'
  obtain he' | rfl := he'
  · exact h.applied e' he' hsome
  · exact (hnew hsome).right

theorem ne_of_load_lt (hk : e.rev? = some rev)
    (hlt : ∀ q, a.chain.load = some q → q.1 < rev) : ∀ p ∈ a.chain.entries, p.2 ≠ e := by
  rintro p hp rfl
  have ⟨q, hq, hle⟩ := h.chain.ordered.entries p hp
  have hkey := (h.chain.keyed p (.inr hp)).symm.trans hk
  exact absurd (hlt q hq) (Option.some.inj hkey ▸ hle).not_gt

theorem verify (hv : a.Verifiable e) : (a.verify e).Inv φ := by
  cases hk : e.kind with
  | repo rev =>
    have hrev : e.rev? = some rev := by simp only [rev?, hk]
    have hnone : e.accountSeq? = none := by simp only [accountSeq?, hk]
    have hlt := hv.right rev hk
    simp only [Account.verify, hk]
    exact h.enqueue rfl rfl ((h.chain.save hrev hlt).of_eq rfl rfl rfl rfl)
      ((h.host.enqueue_of_none hnone).of_eq rfl rfl rfl rfl)
      (fun _ => ⟨h.not_mem_opened hrev hlt, h.ne_of_load_lt hrev hlt⟩) rfl rfl rfl rfl rfl
  | account =>
    have hnone : e.rev? = none := by simp only [rev?, hk]
    have hseq : e.accountSeq? = some e.seq := by simp only [accountSeq?, hk]
    simp only [Account.verify, hk]
    split
    case isTrue hall =>
      have hlt (q : ℕ × Event Rev) (hq : a.host.load = some q) : q.1 < e.seq := by
        simpa only [hq, all_some, decide_eq_true_eq] using hall
      exact h.enqueue rfl rfl ((h.chain.enqueue_of_none hnone).of_eq rfl rfl rfl rfl)
        ((h.host.save hseq hlt).of_eq rfl rfl rfl rfl)
        (fun hsome => absurd hsome (by simp [hnone])) rfl rfl rfl rfl rfl
    case isFalse hall =>
      refine h.enqueue rfl rfl (h.chain.enqueue_of_none hnone) (h.host.enqueue (fun k hc => ?_)
        fun p hp hc => ?_) (fun hsome => absurd hsome (by simp [hnone])) rfl rfl rfl rfl rfl
      · cases hseq.symm.trans hc
        cases hl : a.host.load with
        | none => exact absurd rfl (hl ▸ hall)
        | some q =>
          simp only [hl, all_some, decide_eq_true_eq, not_lt] at hall
          exact ⟨q, rfl, hall⟩
      · rw [kind_of_accountSeq? hc, ←kind_of_accountSeq? (h.host.keyed p (.inl hp))]
  | identity =>
    have hnone : e.rev? = none := by simp only [rev?, hk]
    simp only [Account.verify, hk]
    exact h.enqueue rfl rfl (h.chain.enqueue_of_none hnone)
      (h.host.enqueue_of_none (by simp only [accountSeq?, hk]))
      (fun hsome => absurd hsome (by simp [hnone])) rfl rfl rfl rfl rfl

theorem drop : Inv φ { a with queue := a.queue.erase e } := by
  have hsub : (opened { a with queue := a.queue.erase e }).Sublist a.opened :=
    List.Sublist.append_left (erase_sublist ..) _
  have ho := fun e he => hsub.subset (a := e) he
  exact ⟨h.chain.mono ho (fun _ he => he) rfl h.chain.fresh,
    h.host.mono ho (fun _ he => he) rfl h.host.fresh, h.acct.mono rfl rfl h.acct.left,
    h.ident.mono rfl rfl h.ident.left, h.distinct.sublist (hsub.filter _),
    fun e' he' => h.applied e' (ho e' he'), h.flushed⟩

end

omit [LinearOrder Rev] in
theorem lt_of_not_replayed (hpos : 0 < e.seq) (hr : a.dropReplayed e = false) :
    a.appliedSeq e.kind < e.seq := by
  simp only [dropReplayed, ne_eq, decide_eq_false_iff_not, not_and, not_le] at hr
  by_cases hzero : a.appliedSeq e.kind = 0
  · exact hzero ▸ hpos
  · exact hr hzero

theorem take (h : a.Inv φ) (hnone : a.current = none) (hmem : e ∈ a.queue) (hpos : 0 < e.seq)
    (hr : a.dropReplayed e = false) (hrows : e.rev? = none → n ≤ 1) :
    Inv φ { a with queue := a.queue.erase e, current := some (e, n) } := by
  have hopen : a.opened = a.queue := by
    simp only [opened, hnone, Option.toList, List.map, nil_append]
  have hperm : (opened { a with queue := a.queue.erase e, current := some (e, n) }).Perm
      a.opened := by
    rw [hopen]
    exact (perm_cons_erase hmem).symm
  have ho := fun e he => hperm.subset (a := e) he
  have hlt := lt_of_not_replayed hpos hr
  have hcur {e'} {left} (hc : some (e, n) = some (e', left + 1)) :
      e' = e ∧ n = left + 1 := by
    simp only [Option.some.injEq, Prod.mk.injEq] at hc
    exact ⟨hc.left.symm, hc.right⟩
  refine ⟨h.chain.mono ho (fun _ he => he) rfl fun e' left hc p hp => ?_,
    h.host.mono ho (fun _ he => he) rfl fun e' left hc p hp => ?_,
    h.acct.mono rfl rfl fun e' left hc hk => ?_, h.ident.mono rfl rfl fun e' left hc hk => ?_,
    (hperm.filter _).nodup_iff.mpr h.distinct, fun e' he' => h.applied e' (ho e' he'), h.flushed⟩
  · obtain ⟨rfl, _⟩ := hcur hc
    rintro rfl
    have hsome : p.2.rev?.isSome := by rw [h.chain.keyed p (.inr hp)]; rfl
    exact h.applied _ (hopen ▸ hmem) hsome p hp rfl
  · obtain ⟨rfl, _⟩ := hcur hc
    rintro rfl
    have hkind := kind_of_accountSeq? (h.host.keyed p (.inr hp))
    obtain ⟨q, hq, hle⟩ := h.host.ordered.le_loadApplied hp
    rw [hkind] at hlt
    simp only [appliedSeq, hq, Option.elim] at hlt
    exact absurd ((le_max_right ..).trans_lt hlt) hle.not_gt
  · obtain ⟨rfl, hn⟩ := hcur hc
    have hle := hrows (by simp only [rev?, hk])
    rw [hk] at hlt
    exact ⟨by omega, (le_max_left ..).trans_lt hlt⟩
  · obtain ⟨rfl, hn⟩ := hcur hc
    have hle := hrows (by simp only [rev?, hk])
    rw [hk] at hlt
    exact ⟨by omega, hlt⟩

theorem skipRow (h : a.Inv φ) (hc : a.current = some (e, n + 1)) :
    Inv φ { a with current := some (e, n) } := by
  have ho : opened { a with current := some (e, n) } = a.opened := Traced.opened_eq hc rfl rfl
  have hcur {e'} {left} (hc : some (e, n) = some (e', left + 1)) :
      e' = e ∧ n = left + 1 := by
    simp only [Option.some.injEq, Prod.mk.injEq] at hc
    exact ⟨hc.left.symm, hc.right⟩
  refine ⟨h.chain.mono (fun _ he => ho ▸ he) (fun _ he => he) rfl fun e' left hc' => ?_,
    h.host.mono (fun _ he => ho ▸ he) (fun _ he => he) rfl fun e' left hc' => ?_,
    h.acct.mono rfl rfl fun e' left hc' hk => ?_, h.ident.mono rfl rfl fun e' left hc' hk => ?_,
    ho ▸ h.distinct, ho ▸ h.applied, h.flushed⟩
  · exact (hcur hc').left ▸ h.chain.fresh e n hc
  · exact (hcur hc').left ▸ h.host.fresh e n hc
  · obtain ⟨rfl, rfl⟩ := hcur hc'
    exact nomatch (h.acct.left _ _ hc hk).left
  · obtain ⟨rfl, rfl⟩ := hcur hc'
    exact nomatch (h.ident.left _ _ hc hk).left

theorem append (h : a.Inv .idle) (hc : a.current = some (e, n + 1)) : (a.append e n).Inv .idle := by
  have hobs : (a.liveAppendObserver e).queue = a.queue ∧
      (a.liveAppendObserver e).finished = a.finished ∧
      (a.liveAppendObserver e).chain = a.chain ∧ (a.liveAppendObserver e).host = a.host ∧
      (a.liveAppendObserver e).rows = a.rows := by
    cases hk : e.kind <;> simp only [liveAppendObserver, hk, and_self]
  have ⟨hq, hf, hchain, hhost, hr⟩ := hobs
  have ho : (a.append e n).opened = a.opened := Traced.opened_eq hc rfl hq
  refine ⟨?_, ?_, ?_, ?_, ho ▸ h.distinct, ?_, fun hφ => absurd rfl hφ⟩
  · exact hchain ▸ h.chain.append hc rfl hq hf rfl
  · exact hhost ▸ h.host.append hc rfl hq hf rfl
  · by_cases hk : e.kind = .account
    · have hacct : (a.append e n).acct = a.acct.record e.seq := by
        simp only [Account.append, liveAppendObserver, hk]
      exact hacct ▸ h.acct.append hk hc rfl hr rfl
    · have hacct : (a.append e n).acct = a.acct := by
        cases hk' : e.kind <;> simp_all [Account.append, liveAppendObserver]
      exact hacct ▸ h.acct.append_of_ne hk rfl hr rfl
  · by_cases hk : e.kind = .identity
    · have hident : (a.append e n).ident = a.ident.record e.seq := by
        simp only [Account.append, liveAppendObserver, hk]
      exact hident ▸ h.ident.append hk hc rfl hr rfl
    · have hident : (a.append e n).ident = a.ident := by
        cases hk' : e.kind <;> simp_all [Account.append, liveAppendObserver]
      exact hident ▸ h.ident.append_of_ne hk rfl hr rfl
  · rw [ho, show (a.append e n).chain = a.chain from hchain]
    exact h.applied

theorem finish (h : a.Inv φ) (hc : a.current = some (e, 0)) : (a.finish e).Inv φ := by
  have hopen : a.opened = e :: a.queue := by
    simp only [opened, hc, Option.toList, List.map, cons_append, nil_append]
  have hmem : e ∈ a.opened := hopen ▸ mem_cons_self
  have hobs : (a.promoteSyncState e).queue = a.queue ∧ (a.promoteSyncState e).acct = a.acct ∧
      (a.promoteSyncState e).ident = a.ident ∧ (a.promoteSyncState e).rows = a.rows ∧
      (a.promoteSyncState e).buffered = a.buffered := by
    cases hk : e.kind <;> simp only [promoteSyncState, hk, and_self]
  obtain ⟨hq, hacct, hident, hr, hb⟩ := hobs
  have hopen' : (a.finish e).opened = a.queue := hq
  have ho : ∀ e' ∈ (a.finish e).opened, e' ∈ a.opened := by
    rw [hopen', hopen]
    exact fun e' he' => mem_cons_of_mem _ he'
  have hsame {κ} [LinearOrder κ] {key} {σ : Slot κ (Event Rev)}
      (hσ : Traced key σ a) : Traced key σ (a.finish e) :=
    hσ.mono ho (fun _ he => mem_cons_of_mem _ he) hb fun _ _ => by rintro ⟨⟩
  have hnd := h.distinct
  rw [hopen] at hnd
  refine ⟨?_, ?_, hacct ▸ h.acct.mono hb hr fun _ _ => by rintro ⟨⟩,
    hident ▸ h.ident.mono hb hr fun _ _ => by rintro ⟨⟩, ?_, ?_,
    fun hφ hw => hb.trans (h.flushed hφ hw)⟩
  · cases hk : e.rev? with
    | some rev => exact chain_finish hk ▸ h.chain.promote hmem hk ho rfl hb rfl
    | none =>
      rw [chain_finish_of_none hk]
      exact hsame h.chain
  · cases hk : e.kind with
    | account =>
      have hσ : (a.finish e).host = a.host.promote e.seq := by
        simp only [Account.finish, promoteSyncState, hk]
      exact hσ ▸ h.host.promote hmem (by simp only [accountSeq?, hk]) ho rfl hb rfl
    | repo | identity =>
      have hσ : (a.finish e).host = a.host := by simp only [Account.finish, promoteSyncState, hk]
      exact hσ ▸ hsame h.host
  · rw [hopen']
    exact hnd.sublist ((sublist_cons_self ..).filter _)
  · rw [hopen']
    intro e' he' hsome p hp
    have hold := h.applied e' (hopen ▸ mem_cons_of_mem _ he') hsome
    cases hk : e.rev? with
    | some rev =>
      obtain rfl | hp := h.chain.entries_promote hmem hk (chain_finish hk ▸ hp)
      · rintro rfl
        rw [filter_cons_of_pos (by simp [hk]), nodup_cons] at hnd
        exact hnd.left (mem_filter.mpr ⟨he', hsome⟩)
      · exact hold p hp
    | none => exact hold p (chain_finish_of_none hk ▸ hp)

theorem step (h : a.Inv φ) (e : a.Step a') : a'.Inv φ := by
  cases e with
  | verify hv => exact h.verify hv
  | drop _ _ => exact h.drop
  | take _ hc hmem hpos hr hrow => exact h.take hc hmem hpos hr hrow
  | skipRow hc => exact h.skipRow hc
  | finish hc => exact h.finish hc

theorem write (h : a.Inv φ) : a.Inv .written :=
  { h with acct := h.acct.write, ident := h.ident.write, flushed := fun _ hw => absurd rfl hw }

theorem sync (h : a.Inv φ) : a.sync.Inv .synced :=
  ⟨h.chain.sync, h.host.sync, h.acct.sync, h.ident.sync, h.distinct, h.applied, fun _ _ => rfl⟩

theorem stageFlush (h : a.Inv .synced) : a.stageFlush.Inv .staged where
  chain := h.chain.stageFlush rfl rfl rfl rfl
  host := h.host.stageFlush rfl rfl rfl rfl
  acct := h.acct.stageFlush.mono rfl rfl h.acct.left
  ident := h.ident.stageFlush.mono rfl rfl h.ident.left
  distinct := h.distinct
  applied := fun e he hs p hp => h.applied e he hs p (Slot.entries_stageFlush hp)
  flushed := fun _ _ => h.flushed nofun nofun

theorem commitStaged (h : a.Inv .staged) : a.commitStaged.Inv .idle :=
  have hb := h.flushed nofun nofun
  have hacct := h.acct.commitStaged hb
  have hident := h.ident.commitStaged hb
  { chain := h.chain.commitStaged rfl rfl hb rfl
    host := h.host.commitStaged rfl rfl hb rfl
    acct := hacct.mono rfl rfl hacct.left
    ident := hident.mono rfl rfl hident.left
    distinct := h.distinct
    applied := fun e he hs p hp => h.applied e he hs p (Slot.entries_commitStaged hp)
    flushed := fun hφ => absurd rfl hφ }

theorem crash (h : a.Inv .idle) : a.crash.Inv .idle where
  chain := h.chain.crash
  host := h.host.crash
  acct := h.acct.crash
  ident := h.ident.crash
  distinct := nodup_nil
  applied := nofun
  flushed := fun _ _ => rfl

theorem empty : (Account.empty : Account Rev).Inv .idle := by
  have hr {kind} : Ratcheted kind .empty .idle (Account.empty : Account Rev) :=
    ⟨nofun, nodup_nil, nofun, nofun, fun h => absurd rfl h, nofun, nofun⟩
  exact ⟨.empty, .empty, hr, hr, nodup_nil, nofun, fun _ _ => rfl⟩

end Inv

end Account

namespace Consumer

variable {c c' : Consumer Rev Did} {a : Account Rev}

-- No crash falls between the write of a block and the commit of its batch.
def Whole (c c' : Consumer Rev Did) : Prop :=
  c.phase ≠ .idle → c' ≠ c.crash ∧ c' ≠ (c.each .sync .synced).crash

theorem inv_update {f : Did → Account Rev}
    (h : ∀ did, (f did).Inv φ) (ha : a.Inv φ) : ∀ d, (Function.update f did a d).Inv φ := by
  intro d
  by_cases hd : d = did
  · subst hd
    rwa [Function.update_self]
  · rw [Function.update_of_ne hd]
    exact h d

theorem inv_step (h : ∀ did, (c.accounts did).Inv c.phase) (hw : Whole c c') (e : Step c c') :
    ∀ did, (c'.accounts did).Inv c'.phase := by
  cases e with
  | one did e => exact inv_update h ((h _).step e)
  | append _ hφ hc => exact inv_update h (hφ ▸ Account.Inv.append (hφ ▸ h _) hc)
  | write hφ => exact fun did => (h did).write
  | sync hφ => exact fun did => (h did).sync
  | stage hφ => exact fun did => Account.Inv.stageFlush (hφ ▸ h did)
  | commit hφ => exact fun did => Account.Inv.commitStaged (hφ ▸ h did)
  | crash =>
    have hφ : c.phase = .idle := not_not.mp fun hne => (hw hne).left rfl
    exact fun did => Account.Inv.crash (hφ ▸ h did)
  | crashWritten hφ => exact absurd rfl (hw (hφ ▸ nofun)).right

-- What a crash leaves for the account. Verifier state and ratchets come from events whose rows are
-- all there, and no #account or #identity row is there twice.
structure Behind (φ : Phase) (a : Account Rev) : Prop where
  chain : ∀ p, a.crash.chain.load = some p → p.2 ∈ a.crash.finished
  host : ∀ p, a.crash.host.load = some p → p.2 ∈ a.crash.finished
  acct : a.acct.durable ≠ 0 → ⟨a.acct.durable, .account⟩ ∈ a.rows
  ident : a.ident.durable ≠ 0 → ⟨a.ident.durable, .identity⟩ ∈ a.rows
  -- Between two flushes the ratchets are at or above the rows.
  accounts : φ = .idle → ∀ e ∈ a.rows, e.kind = .account → e.seq ≤ a.acct.durable
  idents : φ = .idle → ∀ e ∈ a.rows, e.kind = .identity → e.seq ≤ a.ident.durable
  once : ∀ e : Event Rev, e.kind = .account ∨ e.kind = .identity →
    (a.buffered ++ a.rows).count e ≤ 1

theorem Behind.of_inv (h : a.Inv φ) : Behind φ a := by
  refine ⟨h.chain.load_crash, h.host.load_crash, h.acct.durable, h.ident.durable, h.acct.covered,
    h.ident.covered, ?_⟩
  rintro e (hk | hk)
  · rw [←count_filter (p := (·.kind = .account)) (by simpa using hk)]
    exact nodup_iff_count_le_one.mp h.acct.nodup e
  · rw [←count_filter (p := (·.kind = .identity)) (by simpa using hk)]
    exact nodup_iff_count_le_one.mp h.ident.nodup e

theorem behind_of_whole (h : ((system : System (Consumer Rev Did)).restrict Whole).Reachable c)
    (did : Did) : Behind c.phase (c.accounts did) := by
  suffices hinv : ∀ did, (c.accounts did).Inv c.phase from .of_inv (hinv did)
  refine h.invariant (P := fun c => ∀ did, (c.accounts did).Inv c.phase) (fun c hi => ?_)
    fun c c' _ hinv e => ?_
  · exact fun did => hi.left ▸ hi.right did ▸ .empty
  · exact inv_step hinv e.right e.left

section Sample

def sampleEvent : Event ℕ :=
  ⟨1, .account⟩

def sampleStart : Consumer ℕ Unit :=
  ⟨fun _ => .empty, .idle⟩

theorem behind_of_whole_sample : ∃ c : Consumer ℕ Unit,
    ((system : System (Consumer ℕ Unit)).restrict Whole).Reachable c ∧
    (c.accounts ()).acct.durable = 1 ∧ Behind c.phase (c.accounts ()) := by
  have hidle {c c' : Consumer ℕ Unit} (h : c.phase = .idle) : Whole c c' := fun hne => absurd h hne
  have hphase {c c' : Consumer ℕ Unit} (h : c'.phase ≠ .idle) : Whole c c' :=
    fun _ => ⟨fun heq => h (heq ▸ rfl), fun heq => h (heq ▸ rfl)⟩
  have h₁ := System.Reachable.step (.init ⟨rfl, fun _ => rfl⟩)
    (S := (system : System (Consumer ℕ Unit)).restrict Whole) (s := sampleStart)
    ⟨.one () (.verify (e := sampleEvent) ⟨Nat.one_pos, nofun⟩), hidle rfl⟩
  have h₂ := h₁.step ⟨.one () (.take (e := sampleEvent) 1 rfl
    mem_cons_self Nat.one_pos rfl fun _ => le_rfl), hidle rfl⟩
  have h₃ := h₂.step ⟨.append () rfl rfl, hidle rfl⟩
  have h₄ := h₃.step ⟨.write rfl, hidle rfl⟩
  have h₅ := h₄.step ⟨.sync rfl, hphase nofun⟩
  have h₆ := h₅.step ⟨.stage rfl, hphase nofun⟩
  have hcur {c c' : Consumer ℕ Unit} (h : (c.accounts ()).current ≠ (c'.accounts ()).current) :
      c ≠ c' := fun heq => h (heq ▸ rfl)
  have h₇ := h₆.step ⟨.commit rfl, fun _ => ⟨hcur nofun, hcur nofun⟩⟩
  exact ⟨_, h₇, rfl, behind_of_whole h₇ ()⟩

-- The block with the row is written, its batch is not committed, and the event is sent again.
theorem not_behind_of_torn : ∃ c : Consumer ℕ Unit,
    (system : System (Consumer ℕ Unit)).Reachable c ∧ ¬Behind c.phase (c.accounts ()) := by
  have h₁ := System.Reachable.step (.init ⟨rfl, fun _ => rfl⟩)
    (S := (system : System (Consumer ℕ Unit))) (s := sampleStart)
    (.one () (.verify (e := sampleEvent) ⟨Nat.one_pos, nofun⟩))
  have h₂ := h₁.step (.one () (.take (e := sampleEvent) 1 rfl
    mem_cons_self Nat.one_pos rfl fun _ => le_rfl))
  have h₃ := h₂.step (.append () rfl rfl)
  have h₄ := h₃.step (.write rfl)
  have h₅ := h₄.step (.crashWritten rfl)
  have h₆ := h₅.step (.one () (.verify (e := sampleEvent) ⟨Nat.one_pos, nofun⟩))
  have h₇ := h₆.step (.one () (.take (e := sampleEvent) 1 rfl
    mem_cons_self Nat.one_pos rfl fun _ => le_rfl))
  have h₈ := h₇.step (.append () rfl rfl)
  exact ⟨_, h₈, fun hb => absurd (hb.once sampleEvent (.inl rfl)) (by decide)⟩

end Sample

end Consumer

end Jetstream.Live
