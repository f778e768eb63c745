import HypercertsRelay.Jetstream.Backfill.Completion

-- Listing cursors and the repositories behind them.
namespace Jetstream.Backfill

open List Function

variable [DecidableEq Host] [DecidableEq Did]
variable {async : Bool} {s s' : State Host Did}

open State

-- The repository is settled on disk, or queued; with asynchronous flushes, under this host.
def Waits (async : Bool) (s : State Host Did) (host : Host) (did : Did) : Prop :=
  (s.status did).Settled ∨ ∃ q ∈ s.queued, q.did = did ∧ (async = true → q.host = host)

def Behind (s : State Host Did) (host : Host) (n : ℕ) (P : Did → Prop) : Prop :=
  n ≤ (s.dispatched host).length ∧ ∀ did ∈ (s.dispatched host).take n, P did

structure Listing (async : Bool) (s : State Host Did) : Prop where
  returned : ∀ host, ∀ did ∈ s.dispatched host, s.inflight did ≠ some host → Waits async s host did
  cursors : ∀ host c, s.cursors host = some c → ∀ n, c.passed = some n →
    Behind s host n fun did => Waits async s host did ∧
      (async = true → (s.status did).Settled ∨ ∃ dep ∈ c.deps, dep.did = did)
  staged : ∀ completions cursors, s.staged = some (completions, cursors) →
    ∀ host c, cursors host = some c → ∀ n, c.passed = some n →
    Behind s host n fun did => (s.status did).Settled ∨ ∃ q ∈ completions, q.did = did
  passed : ∀ host, Behind s host (s.passed host) fun did => (s.status did).Settled

-- A completion covers the rows of its download.
def Covered (nextSeq lastSeq : ℕ) (appended : Bool) (rows : List ℕ) : Prop :=
  (∀ r ∈ rows, appended = true ∧ r ≤ lastSeq) ∧ (appended = true → lastSeq < nextSeq)

structure Rows (s : State Host Did) : Prop where
  bound : s.durableNextSeq ≤ s.nextSeq
  rows : ∀ did, ∀ r ∈ s.rows did, r ≤ (s.rows did).headD 0 ∧ r < s.nextSeq
  marks : ∀ did w, s.watermarks did = some w → Covered s.nextSeq w.1 w.2.1 w.2.2
  queued : ∀ q ∈ s.queued, Covered s.nextSeq q.lastSeq q.appended q.rows
  staged : ∀ completions cursors, s.staged = some (completions, cursors) →
    ∀ q ∈ completions, ∀ r ∈ q.rows, r < s.durableNextSeq
  complete : ∀ did q, s.status did = .complete q → ∀ r ∈ q.rows, r < s.durableNextSeq

-- With asynchronous flushes, a completion comes from the only host that has led to the repository.
def Direct (async : Bool) (s s' : State Host Did) : Prop :=
  async = true → ∀ did served watermark, s' = s.queueComplete did served watermark →
    ∀ host, did ∈ s.dispatched host → host = served

section Queue

variable {queued : List (Completion Host Did)}

section

omit [DecidableEq Host]

theorem mem_enqueue (h : q ∈ enqueue queued c) : q = c ∨ q ∈ queued := by
  rw [enqueue] at h
  split at h
  · obtain ⟨q', hq', rfl⟩ := mem_map.mp h
    split
    · exact .inl rfl
    · exact .inr hq'
  · rw [mem_append, mem_singleton] at h
    exact h.symm

theorem mem_enqueue_self : c ∈ enqueue queued c := by
  rw [enqueue]
  split
  case isTrue h =>
    have ⟨q, hq, hd⟩ := any_eq_true.mp h
    exact mem_map.mpr ⟨q, hq, if_pos (of_decide_eq_true hd)⟩
  · exact mem_append_right _ mem_cons_self

theorem mem_enqueue_of_ne (h : q ∈ queued) (hd : q.did ≠ c.did) : q ∈ enqueue queued c := by
  rw [enqueue]
  split
  · exact mem_map.mpr ⟨q, h, if_neg hd⟩
  · exact mem_append_left _ h

end

end Queue

namespace Behind

section

omit [DecidableEq Host] [DecidableEq Did]

theorem imp (h : Behind s host n P) (hd : s'.dispatched host = s.dispatched host)
    (hpq : ∀ did ∈ s.dispatched host, P did → Q did) : Behind s' host n Q := by
  rw [Behind, hd]
  exact ⟨h.left, fun did hm => hpq did (mem_of_mem_take hm) (h.right did hm)⟩

-- Repositories that are dispatched later are not behind it.
theorem dispatch (h : Behind s host n P)
    (hd : s'.dispatched host = s.dispatched host ++ l) : Behind s' host n P := by
  rw [Behind, hd, length_append, take_append_of_le_length h.left]
  exact ⟨h.left.trans (Nat.le_add_right ..), h.right⟩

end

end Behind

namespace Listing

omit [DecidableEq Host] [DecidableEq Did] in
theorem of_eq (h : Listing async s) (hd : s'.dispatched = s.dispatched)
    (hi : s'.inflight = s.inflight) (hq : s'.queued = s.queued) (hc : s'.cursors = s.cursors)
    (hst : s'.staged = s.staged) (hs : s'.status = s.status) (hp : s'.passed = s.passed) :
    Listing async s' := by
  constructor
  · simpa only [Waits, hd, hi, hq, hs] using h.returned
  · simpa only [Waits, Behind, hd, hq, hc, hs] using h.cursors
  · simpa only [Behind, hd, hst, hs] using h.staged
  · simpa only [Behind, hd, hs, hp] using h.passed

theorem dispatch (h : Listing async s) (hnone : s.inflight did = none) : Listing async { s with
      dispatched := update s.dispatched host (s.dispatched host ++ [did])
      inflight := update s.inflight did (some host) } := by
  have hd (host' : Host) : ∃ l, update s.dispatched host (s.dispatched host ++ [did])
      host' = s.dispatched host' ++ l := by
    by_cases hh : host' = host
    · subst hh
      exact ⟨[did], update_self ..⟩
    · exact ⟨[], by rw [update_of_ne hh, append_nil]⟩
  refine ⟨fun host' did' hmem hi => ?_, fun host' c hc n hn => ?_,
    fun cs hs hst host' c hc n hn => ?_, fun host' => ?_⟩
  · dsimp only at hmem hi
    by_cases hdid : did' = did
    · subst hdid
      rw [update_self, ne_eq, Option.some.injEq] at hi
      rw [update_of_ne (Ne.symm hi)] at hmem
      exact h.returned host' did' hmem (hnone ▸ nofun)
    · rw [update_of_ne hdid] at hi
      refine h.returned host' did' ?_ hi
      by_cases hh : host' = host
      · subst hh
        rw [update_self, mem_append, mem_singleton] at hmem
        exact hmem.resolve_right hdid
      · rwa [update_of_ne hh] at hmem
  · have ⟨l, hl⟩ := hd host'
    exact (h.cursors host' c hc n hn).dispatch hl
  · have ⟨l, hl⟩ := hd host'
    exact (h.staged cs hs hst host' c hc n hn).dispatch hl
  · have ⟨l, hl⟩ := hd host'
    exact (h.passed host').dispatch hl

omit [DecidableEq Host] in
theorem complete (h : Listing async s)
    (hdirect : async = true → ∀ host, did ∈ s.dispatched host → host = served) :
    Listing async (s.queueComplete did served w) := by
  have hwaits {host} {did'} (hmem : did' ∈ s.dispatched host)
      (hw : Waits async s host did') : Waits async (s.queueComplete did served w) host did' := by
    obtain hset | ⟨q, hq, hqd, hqh⟩ := hw
    · exact .inl hset
    · by_cases hdid : did' = did
      · subst hdid
        exact .inr ⟨_, mem_enqueue_self, rfl, fun ha => (hdirect ha host hmem).symm⟩
      · exact .inr ⟨q, mem_enqueue_of_ne hq (hqd ▸ hdid), hqd, hqh⟩
  refine ⟨fun host did' hmem hi => ?_, fun host c hc n hn => ?_, h.staged, h.passed⟩
  · by_cases hdid : did' = did
    · subst hdid
      exact .inr ⟨_, mem_enqueue_self, rfl, fun ha => (hdirect ha host hmem).symm⟩
    · have hi : s.inflight did' ≠ some host := by
        simpa only [queueComplete, update_of_ne hdid] using hi
      exact hwaits hmem (h.returned host did' hmem hi)
  · exact (h.cursors host c hc n hn).imp rfl fun did' hmem hw => ⟨hwaits hmem hw.left, hw.right⟩

omit [DecidableEq Host] in
theorem fail (h : Listing async s) : Listing async (s.onFail did) := by
  have hset {did'} (hs : (s.status did').Settled) : ((s.onFail did).status did').Settled := by
    by_cases hdid : did' = did
    · simp only [onFail, hdid, update_self, Status.Settled]
    · simpa only [onFail, update_of_ne hdid] using hs
  have hwaits {host} {did'} (hw : Waits async s host did') :
      Waits async (s.onFail did) host did' := hw.imp_left hset
  refine ⟨fun host did' hmem hi => ?_, fun host c hc n hn => ?_,
    fun cs hs hst host c hc n hn => ?_, fun host => ?_⟩
  · by_cases hdid : did' = did
    · exact .inl (by simp only [onFail, hdid, update_self, Status.Settled])
    · have hi : s.inflight did' ≠ some host := by simpa only [onFail, update_of_ne hdid] using hi
      exact hwaits (h.returned host did' hmem hi)
  · exact (h.cursors host c hc n hn).imp rfl fun did' _ hw =>
      ⟨hwaits hw.left, fun ha => (hw.right ha).imp_left hset⟩
  · exact (h.staged cs hs hst host c hc n hn).imp rfl fun did' _ hw => hw.imp_left hset
  · exact (h.passed host).imp rfl fun did' _ hw => hset hw

omit [DecidableEq Did] in
-- A checkpoint waits for what is queued under its host.
theorem queueHostState (h : Listing async s) {passed}
    (hp : state ≠ .exhausted → ∀ n, passed = some n → s.Returned host n) :
    Listing async (s.queueHostState host state passed) := by
  have hdeps {did} (hw : Waits async s host did) (ha : async = true) :
      (s.status did).Settled ∨ ∃ dep ∈ s.queued.filter (·.host = host), dep.did = did :=
    hw.imp_right fun ⟨q, hq, hqd, hqh⟩ => ⟨q, mem_filter.mpr ⟨hq, decide_eq_true (hqh ha)⟩, hqd⟩
  refine ⟨h.returned, fun host' c hc n hn => ?_, h.staged, h.passed⟩
  by_cases hh : host' = host
  · subst hh
    simp only [State.queueHostState, update_self, Option.some.injEq] at hc
    subst hc
    have hwaits : Behind s host' n (Waits async s host') := by
      simp only at hn
      split at hn
      · split at hn
        next prev hprev =>
          split at hn
          · exact (h.cursors host' prev hprev n hn).imp rfl fun _ _ hw => hw.left
          · exact nomatch hn
        · exact nomatch hn
      next hne =>
        have ⟨hle, hret⟩ := hp hne n hn
        exact ⟨hle, fun did hd => h.returned host' did (mem_of_mem_take hd) (hret did hd)⟩
    exact hwaits.imp rfl fun did _ hw => ⟨hw, hdeps hw⟩
  · simp only [State.queueHostState, update_of_ne hh] at hc
    exact h.cursors host' c hc n hn

theorem stage (h : Listing async s) (hr : Rows s) (hn : async = false → n = s.nextSeq) :
    Listing async (s.stageDurable n) := by
  refine ⟨h.returned, h.cursors, fun cs hs hst host c hc m hm => ?_, h.passed⟩
  obtain ⟨rfl, rfl⟩ := hst
  have ⟨hcur, hready⟩ := Option.filter_eq_some_iff.mp hc
  refine (h.cursors host c hcur m hm).imp rfl fun did _ ⟨hw, hdep⟩ => ?_
  obtain hset | ⟨q, hq, hqd, _⟩ := hw
  · exact .inl hset
  cases async with
  | false =>
    refine .inr ⟨q, mem_filter.mpr ⟨hq, ?_⟩, hqd⟩
    cases happ : q.appended with
    | false => rfl
    | true =>
      have hlt := (hr.queued q hq).right happ
      simpa [hn rfl] using hlt
  | true =>
    obtain hset | ⟨dep, hdep, hdd⟩ := hdep rfl
    · exact .inl hset
    have hok := all_eq_true.mp hready dep hdep
    rw [Bool.or_eq_true, Bool.and_eq_true] at hok
    obtain hnone | ⟨_, hin⟩ := hok
    · have hne := of_decide_eq_true (all_eq_true.mp hnone q hq)
      exact absurd (hqd.trans hdd.symm) hne
    · exact .inr ⟨dep, contains_iff_mem.mp hin, hdd⟩

end Listing

omit [DecidableEq Host] in
theorem commitStatus_settled {status : Did → Status Host Did}
    (h : (status did).Settled ∨ ∃ q ∈ cs, q.did = did) : (commitStatus status cs did).Settled := by
  rw [commitStatus]
  cases hf : cs.find? (·.did = did) with
  | some c => trivial
  | none =>
    refine h.resolve_right fun ⟨q, hq, hqd⟩ => ?_
    exact find?_eq_none.mp hf q hq (decide_eq_true hqd)

theorem Listing.commit (h : Listing async s) (hst : s.staged = some (cs, hs)) :
    Listing async (s.commit cs hs) := by
  have hset {did} (hd : (s.status did).Settled) :
      ((s.commit cs hs).status did).Settled := commitStatus_settled (.inl hd)
  have hwaits {host} {did} (hw : Waits async s host did) :
      Waits async (s.commit cs hs) host did := by
    obtain hd | ⟨q, hq, hqd, hqh⟩ := hw
    · exact .inl (hset hd)
    · by_cases hmem : q ∈ cs
      · exact .inl (commitStatus_settled (.inr ⟨q, hmem, hqd⟩))
      · exact .inr ⟨q, mem_filter.mpr ⟨hq, decide_eq_true hmem⟩, hqd, hqh⟩
  refine ⟨fun host did hmem hi => hwaits (h.returned host did hmem hi),
    fun host c hc n hn => ?_, nofun, fun host => ?_⟩
  · have ⟨hcur, _⟩ := Option.filter_eq_some_iff.mp hc
    exact (h.cursors host c hcur n hn).imp rfl fun did _ hw =>
      ⟨hwaits hw.left, fun ha => (hw.right ha).imp_left hset⟩
  have hold : Behind (s.commit cs hs) host (s.passed host)
      fun did => ((s.commit cs hs).status did).Settled :=
    (h.passed host).imp rfl fun _ _ hd => hset hd
  have hzero : Behind (s.commit cs hs) host 0
      fun did => ((s.commit cs hs).status did).Settled := ⟨Nat.zero_le _, nofun⟩
  have hnew {c} (hc : hs host = some c) {n} (hn : c.passed = some n) :
      Behind (s.commit cs hs) host n fun did => ((s.commit cs hs).status did).Settled :=
    (h.staged cs hs hst host c hc n hn).imp rfl fun _ _ hd => commitStatus_settled hd
  change Behind _ host (commitHost (s.drained host) (s.passed host) (hs host)).1 _
  cases hc : hs host with
  | none => exact hold
  | some c =>
    cases hn : c.passed with
    | some n => cases hstate : c.state <;> simp only [commitHost, hstate, hn] <;> exact hnew hc hn
    | none =>
      cases hstate : c.state <;> simp only [commitHost, hstate, hn, Option.getD_none]
      case exhausted =>
        split
        · exact hzero
        · exact hold
      all_goals exact hzero

omit [DecidableEq Host] [DecidableEq Did] in
theorem Listing.crash (h : Listing async s) : Listing async s.crash := by
  refine ⟨fun host did hmem _ => .inl ((h.passed host).right did hmem), nofun, nofun,
    fun host => ⟨?_, fun did hd => (h.passed host).right did (mem_of_mem_take hd)⟩⟩
  change _ ≤ ((s.dispatched host).take (s.passed host)).length
  rw [length_take]
  exact le_min le_rfl (h.passed host).left

theorem Covered.mono {rows}
    (h : Covered n lastSeq appended rows) (hle : n ≤ m) : Covered m lastSeq appended rows :=
  ⟨h.left, fun happ => (h.right happ).trans_le hle⟩

namespace Rows

omit [DecidableEq Host] in
theorem append (h : Rows s) : Rows { s with
    rows := update s.rows did (s.nextSeq :: s.rows did)
    nextSeq := s.nextSeq + 1 } := by
  refine ⟨h.bound.trans (Nat.le_succ _), fun did' r hr => ?_,
    fun did' w hw => (h.marks did' w hw).mono (Nat.le_succ _),
    fun q hq => (h.queued q hq).mono (Nat.le_succ _), h.staged, h.complete⟩
  dsimp only at hr ⊢
  by_cases hdid : did' = did
  · subst hdid
    rw [update_self] at hr ⊢
    obtain rfl | hr := mem_cons.mp hr
    · exact ⟨le_rfl, Nat.lt_succ_self _⟩
    · have hlt := (h.rows did' r hr).right
      exact ⟨hlt.le, hlt.trans (Nat.lt_succ_self _)⟩
  · rw [update_of_ne hdid] at hr ⊢
    have ⟨hle, hlt⟩ := h.rows did' r hr
    exact ⟨hle, hlt.trans (Nat.lt_succ_self _)⟩

omit [DecidableEq Host] [DecidableEq Did] in
-- The watermark is the last row of the download.
theorem covered (h : Rows s) (did : Did) :
    Covered s.nextSeq ((s.rows did).headD 0) (!(s.rows did).isEmpty) (s.rows did) := by
  have hrows := h.rows did
  cases hl : s.rows did with
  | nil => exact ⟨nofun, nofun⟩
  | cons r rows =>
    rw [hl] at hrows
    exact ⟨fun r' hr' => ⟨rfl, (hrows r' hr').left⟩, fun _ => (hrows r mem_cons_self).right⟩

section

omit [DecidableEq Host]

theorem record (h : Rows s) : Rows (s.recordWatermark did) := by
  refine ⟨h.bound, fun did' r hr => ?_, fun did' w hw => ?_, h.queued, h.staged, h.complete⟩
  · simp only [recordWatermark] at hr ⊢
    by_cases hdid : did' = did
    · rw [hdid, update_self] at hr
      exact nomatch hr
    · rw [update_of_ne hdid] at hr ⊢
      exact h.rows did' r hr
  · simp only [recordWatermark] at hw ⊢
    by_cases hdid : did' = did
    · rw [hdid, update_self, Option.some.injEq] at hw
      exact hw ▸ h.covered did
    · rw [update_of_ne hdid] at hw
      exact h.marks did' w hw

theorem complete_step (h : Rows s)
    (hw : s.watermarks did = some w) : Rows (s.queueComplete did served w) := by
  refine ⟨h.bound, h.rows, fun did' w' hw' => ?_, fun q hq => ?_, h.staged, h.complete⟩
  · simp only [queueComplete] at hw' ⊢
    by_cases hdid : did' = did
    · rw [hdid, update_self] at hw'
      exact nomatch hw'
    · rw [update_of_ne hdid] at hw'
      exact h.marks did' w' hw'
  · obtain rfl | hq := mem_enqueue hq
    · exact h.marks did w hw
    · exact h.queued q hq

theorem fail (h : Rows s) : Rows (s.onFail did) := by
  refine ⟨h.bound, fun did' r hr => ?_, fun did' w hw => ?_, h.queued, h.staged,
    fun did' q hq => ?_⟩ <;> by_cases hdid : did' = did
  · simp only [onFail, hdid, update_self] at hr
    exact nomatch hr
  · simp only [onFail, update_of_ne hdid] at hr ⊢
    exact h.rows did' r hr
  · simp only [onFail, hdid, update_self] at hw
    exact nomatch hw
  · simp only [onFail, update_of_ne hdid] at hw
    exact h.marks did' w hw
  · simp only [onFail, hdid, update_self] at hq
    exact nomatch hq
  · simp only [onFail, update_of_ne hdid] at hq
    exact h.complete did' q hq

end

theorem stage (h : Rows s) (hn : n ≤ s.durableNextSeq) : Rows (s.stageDurable n) := by
  refine ⟨h.bound, h.rows, h.marks, h.queued, fun cs hs hst q hq r hr => ?_, h.complete⟩
  obtain ⟨rfl, rfl⟩ := hst
  have ⟨hq, hlast⟩ := mem_filter.mp hq
  have ⟨happ, hle⟩ := (h.queued q hq).left r hr
  have hlt : q.lastSeq < n := by simpa [happ] using hlast
  exact hle.trans_lt (hlt.trans_le hn)

theorem commit (h : Rows s) (hst : s.staged = some (cs, hs)) : Rows (s.commit cs hs) := by
  refine ⟨h.bound, h.rows, h.marks, fun q hq => h.queued q (mem_filter.mp hq).left, nofun,
    fun did q hq => ?_⟩
  simp only [State.commit, commitStatus] at hq
  cases hf : cs.find? (·.did = did) with
  | none =>
    rw [hf] at hq
    exact h.complete did q hq
  | some c =>
    rw [hf] at hq
    injection hq with hq
    exact hq ▸ h.staged cs hs hst c (mem_of_find?_eq_some hf)

end Rows

theorem inv_step (hl : Listing async s) (hr : Rows s) (hd : Direct async s s')
    (e : Step async s s') : Listing async s' ∧ Rows s' := by
  cases e with
  | dispatch host did hnone =>
    exact ⟨hl.dispatch hnone, ⟨hr.bound, hr.rows, hr.marks, hr.queued, hr.staged, hr.complete⟩⟩
  | append did _ => exact ⟨hl.of_eq rfl rfl rfl rfl rfl rfl rfl, hr.append⟩
  | record did _ _ => exact ⟨hl.of_eq rfl rfl rfl rfl rfl rfl rfl, hr.record⟩
  | complete did served hi hw _ =>
    exact ⟨hl.complete fun ha => hd ha _ _ _ rfl, hr.complete_step hw⟩
  | fail did _ => exact ⟨hl.fail, hr.fail⟩
  | saveHostCursor host n hret =>
    refine ⟨hl.queueHostState fun _ m hm => ?_,
      ⟨hr.bound, hr.rows, hr.marks, hr.queued, hr.staged, hr.complete⟩⟩
    exact Option.some.inj hm ▸ hret
  | onHostDrained host hret =>
    refine ⟨hl.queueHostState fun _ m hm => ?_,
      ⟨hr.bound, hr.rows, hr.marks, hr.queued, hr.staged, hr.complete⟩⟩
    exact Option.some.inj hm ▸ hret
  | onHostExhausted host =>
    exact ⟨hl.queueHostState fun hne => absurd rfl hne,
      ⟨hr.bound, hr.rows, hr.marks, hr.queued, hr.staged, hr.complete⟩⟩
  | flush hle hn =>
    exact ⟨hl.of_eq rfl rfl rfl rfl rfl rfl rfl, ⟨hn, hr.rows, hr.marks, hr.queued,
      fun cs hs hst q hq r hrow => (hr.staged cs hs hst q hq r hrow).trans_le hle,
      fun did q hq r hrow => (hr.complete did q hq r hrow).trans_le hle⟩⟩
  | stage hn hsync _ => exact ⟨hl.stage hr hsync, hr.stage hn⟩
  | commit hst => exact ⟨hl.commit hst, hr.commit hst⟩
  | crash => exact ⟨hl.crash, ⟨le_rfl, nofun, nofun, nofun, nofun, hr.complete⟩⟩

theorem cursor_not_ahead (h : ((system async).restrict (Direct async)).Reachable s) :
    (∀ host, ∀ did ∈ (s.dispatched host).take (s.passed host), (s.status did).Settled) ∧
      ∀ did q, s.status did = .complete q → ∀ r ∈ q.rows, r < s.durableNextSeq := by
  suffices hinv : Listing async s ∧ Rows s from
    ⟨fun host => (hinv.left.passed host).right, hinv.right.complete⟩
  refine h.invariant (P := fun s => Listing async s ∧ Rows s) (fun s hi => ?_)
    fun s s' _ hinv e => ?_
  case refine_2 => exact inv_step hinv.left hinv.right e.right e.left
  have ⟨hd, _, hr, hw, hq, hc, hst, hle, hs, hp⟩ := hi
  refine ⟨⟨?_, ?_, ?_, ?_⟩, ⟨hle, ?_, ?_, ?_, ?_, ?_⟩⟩
  · exact fun host did hmem => nomatch (hd host ▸ hmem)
  · exact fun host c hcur => nomatch (hc host).symm.trans hcur
  · exact fun cs hs hst' => nomatch hst.symm.trans hst'
  · exact fun host => ⟨(hp host).le.trans (Nat.zero_le _), fun did hmem =>
      nomatch (hd host ▸ mem_of_mem_take hmem)⟩
  · exact fun did r hrow => nomatch (hr did ▸ hrow)
  · exact fun did w hw' => nomatch (hw did).symm.trans hw'
  · exact fun q hmem => nomatch (hq ▸ hmem)
  · exact fun cs hs hst' => nomatch hst.symm.trans hst'
  · exact fun did q hstat => nomatch (hs did).symm.trans hstat

section Sample

def sampleStart : State Bool Unit where
  dispatched := fun _ => []
  inflight := fun _ => none
  rows := fun _ => []
  watermarks := fun _ => none
  queued := []
  cursors := fun _ => none
  nextId := 0
  staged := none
  nextSeq := 1
  durableNextSeq := 1
  status := fun _ => .notStarted
  passed := fun _ => 0
  drained := fun _ => false

theorem sampleStart_init : (system true).init sampleStart :=
  ⟨fun _ => rfl, fun _ => rfl, fun _ => rfl, fun _ => rfl, rfl, fun _ => rfl, rfl, le_rfl,
    fun _ => rfl, fun _ => rfl⟩

theorem cursor_not_ahead_sample : ∃ s : State Bool Unit,
    ((system true).restrict (Direct true)).Reachable s ∧ s.passed true = 1 ∧
    (∀ host, ∀ did ∈ (s.dispatched host).take (s.passed host), (s.status did).Settled) ∧
      ∀ did q, s.status did = .complete q → ∀ r ∈ q.rows, r < s.durableNextSeq := by
  have hid {s s' : State Bool Unit} (h : s'.nextId = s.nextId) : Direct true s s' := by
    intro _ did served w heq
    rw [heq] at h
    exact absurd h (Nat.succ_ne_self _)
  have h₁ := System.Reachable.step (.init sampleStart_init)
    (S := (system true).restrict (Direct true)) ⟨.dispatch true () rfl, hid rfl⟩
  have h₂ := h₁.step ⟨.append () rfl, hid rfl⟩
  have h₃ := h₂.step ⟨.record () rfl rfl, hid rfl⟩
  have h₄ := h₃.step ⟨.complete () true rfl rfl rfl, by
    intro _ did served w heq host hmem
    have hq := congrArg State.queued heq
    injection hq with hq
    injection hq with _ _ hserved
    cases host with
    | true => exact hserved
    | false => exact nomatch hmem⟩
  have h₅ := h₄.step ⟨.flush (n := 2) (Nat.le_succ 1) le_rfl, hid rfl⟩
  have h₆ := h₅.step ⟨.saveHostCursor true 1 ⟨le_rfl, nofun⟩, by
    intro _ did served w heq
    exact nomatch congrArg (fun s => s.cursors true) heq⟩
  have h₇ := h₆.step ⟨.stage (n := 2) le_rfl nofun rfl, hid rfl⟩
  have h₈ := h₇.step ⟨.commit rfl, hid rfl⟩
  exact ⟨_, h₈, rfl, cursor_not_ahead h₈⟩

-- Another host served the repository, so the checkpoint does not wait for it, and an earlier batch
-- takes the checkpoint along.
theorem cursor_ahead : ∃ s : State Bool Unit, (system true).Reachable s ∧
    ¬∀ host, ∀ did ∈ (s.dispatched host).take (s.passed host), (s.status did).Settled := by
  have h₁ := System.Reachable.step (.init sampleStart_init) (S := system true)
    (.dispatch true () rfl)
  have h₂ := h₁.step (.append () rfl)
  have h₃ := h₂.step (.record () rfl rfl)
  have h₄ := h₃.step (.complete () false rfl rfl rfl)
  have h₅ := h₄.step (.saveHostCursor true 1 ⟨le_rfl, nofun⟩)
  have h₆ := h₅.step (.stage (n := 1) le_rfl nofun rfl)
  have h₇ := h₆.step (.commit rfl)
  exact ⟨_, h₇, fun hall => hall true () mem_cons_self⟩

end Sample

end Jetstream.Backfill
