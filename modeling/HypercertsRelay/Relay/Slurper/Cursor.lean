import HypercertsRelay.Relay.Scheduler.Order
import HypercertsRelay.Relay.Slurper.Subscription

namespace Relay.Slurper

open List Option Parallel
open Relay.Stream (XRPCStreamEvent)
open Parallel (ConsumerTask)

-- The handler has returned without an error, having emitted, dropped or rejected the event.
def Processed (s : State) (e : XRPCStreamEvent) : Prop :=
  (∃ t, t.val = e ∧ .succeeded t ∈ s.log) ∧
  ∃ a d, Ingest.eventHandler a e = .ok d ∧ Ingest.Accounted a e d

def ProcessedAt (s : State) (i : ℕ) : Prop :=
  ∃ e ∈ s.host[i]?, Processed s e

-- No delivered event up to the cursor is left to do, and the cursor is the number of one of them.
structure Covered (s : State) (c : ℤ) : Prop where
  known : c ≤ 0 ∨ ∃ j ∈ s.delivered, s.numberAt j = some c
  processed : ∀ i ∈ s.delivered, ∀ q ∈ s.numberAt i, q ≤ c → ProcessedAt s i

-- The host leaves out what has a number up to the cursor, and sends what has a higher one.
structure Replays (s : State) (c : ℤ) (start : ℕ) : Prop where
  skipped : ∀ i < start, ∀ q ∈ s.numberAt i, q ≤ c
  sent : ∀ i ≥ start, ∀ q ∈ s.numberAt i, c < q

-- Events have positive numbers, no stream begins without a cursor after the first delivery, and one
-- with a cursor is replayed from there.
structure Steady (s s' : State) : Prop where
  numbered : ∀ i ∈ s'.delivered, ∀ e ∈ s'.host[i]?, e.number = none ∨ 0 < e.sequence
  asked : ∀ conn, s.conn = none → s'.conn = some conn → conn.cursor = none → s.delivered = []
  replayed : ∀ conn, s.conn = none → s'.conn = some conn → ∀ c ∈ conn.cursor, Replays s c conn.start

-- Everything delivered before this place is done, and from there to what was delivered nothing was
-- left out.
structure Resumes (s : State) (start : ℕ) : Prop where
  behind : ∀ i ∈ s.delivered, i < start → ∀ q ∈ s.numberAt i, ProcessedAt s i
  gapless : ∀ i ∈ s.delivered, ∀ j, ∀ q ∈ s.numberAt j, start ≤ j ∧ j ≤ i ∨ i ≤ j ∧ j < start →
    j ∈ s.delivered

def Contiguous (s : State) : Prop :=
  ∀ i ∈ s.delivered, ∀ k ∈ s.delivered, ∀ j, ∀ q ∈ s.numberAt j, i ≤ j → j ≤ k → j ∈ s.delivered

section Log

variable {s s' : State} {conn : Connection} {i : ℕ}

theorem State.log_eq (h : s.conn = some conn) : s.log = s.past ++ conn.sched.log := by
  rw [log, h]
  rfl

theorem Processed.mono (hlog : s.log ⊆ s'.log) (h : Processed s e) : Processed s' e :=
  have ⟨⟨t, ht, hmem⟩, ha⟩ := h
  ⟨⟨t, ht, hlog hmem⟩, ha⟩

theorem getElem?_mono (hhost : s.host <+: s'.host)
    (h : s.host[i]? = some e) : s'.host[i]? = some e := by
  have ⟨l, hl⟩ := hhost
  have hi := (List.getElem?_eq_some_iff.mp h).choose
  rw [←hl, getElem?_append_left hi, h]

theorem ProcessedAt.mono (hhost : s.host <+: s'.host) (hlog : s.log ⊆ s'.log)
    (h : ProcessedAt s i) : ProcessedAt s' i :=
  have ⟨e, he, hp⟩ := h
  ⟨e, getElem?_mono hhost he, hp.mono hlog⟩

theorem numberAt_mono (hhost : s.host <+: s'.host) (h : i < s.host.length) :
    s'.numberAt i = s.numberAt i := by
  have ⟨l, hl⟩ := hhost
  rw [State.numberAt, ←hl, getElem?_append_left h, State.numberAt]

structure Extends (s s' : State) : Prop where
  host : s.host <+: s'.host
  log : s.log ⊆ s'.log
  delivered : s'.delivered = s.delivered

theorem Covered.extend (h : Covered s c) (hx : Extends s s')
    (hr : ∀ i ∈ s.delivered, i < s.host.length) : Covered s' c where
  known := by
    obtain h | h := h.known
    · exact .inl h
    · have ⟨j, hj, hn⟩ := h
      exact .inr ⟨j, hx.delivered ▸ hj, (numberAt_mono hx.host (hr j hj)).trans hn⟩
  processed := by
    intro i hi q hq hle
    rw [hx.delivered] at hi
    rw [numberAt_mono hx.host (hr i hi)] at hq
    exact (h.processed i hi q hq hle).mono hx.host hx.log

theorem Resumes.extend (h : Resumes s start) (hx : Extends s s')
    (hr : ∀ i ∈ s.delivered, i < s.host.length) (hs : start ≤ s.host.length) :
    Resumes s' start where
  behind := by
    intro i hi hlt q hq
    rw [hx.delivered] at hi
    rw [numberAt_mono hx.host (hr i hi)] at hq
    exact (h.behind i hi hlt q hq).mono hx.host hx.log
  gapless := by
    rw [hx.delivered]
    intro i hi j q hq hj
    have := hr i hi
    rw [numberAt_mono hx.host (by omega)] at hq
    exact h.gapless i hi j q hq hj

theorem Resumes.contiguous (h : Resumes s start) : Contiguous s := by
  intro i hi k hk j q hq hij hjk
  by_cases hj : start ≤ j
  · exact h.gapless k hk j q hq (.inl ⟨hj, hjk⟩)
  · exact h.gapless i hi j q hq (.inr ⟨hij, not_le.mp hj⟩)

structure Reads (s s' : State) (pos : ℕ) : Prop where
  host : s'.host = s.host
  log : s'.log = s.log
  delivered : s'.delivered = s.delivered ++ [pos]

namespace Reads

section

variable (h : Reads s s' pos)

include h

theorem mem (hi : i ∈ s'.delivered) : i ∈ s.delivered ∨ i = pos := by
  simpa [h.delivered] using hi

theorem mem_of_mem (hi : i ∈ s.delivered) : i ∈ s'.delivered :=
  h.delivered ▸ mem_append_left _ hi

theorem pos_mem : pos ∈ s'.delivered := by
  simp [h.delivered]

theorem numberAt : s'.numberAt i = s.numberAt i := by
  rw [State.numberAt, h.host, State.numberAt]

theorem processedAt (hi : ProcessedAt s i) : ProcessedAt s' i :=
  hi.mono (h.host ▸ prefix_refl _) (h.log ▸ List.Subset.refl _)

end

end Reads

theorem Covered.read (h : Covered s c) (hr : Reads s s' pos)
    (hnew : ∀ q ∈ s.numberAt pos, q ≤ c → ProcessedAt s pos) : Covered s' c where
  known := by
    obtain h | h := h.known
    · exact .inl h
    · have ⟨j, hj, hn⟩ := h
      exact .inr ⟨j, hr.mem_of_mem hj, hr.numberAt.trans hn⟩
  processed := by
    intro i hi q hq hle
    rw [hr.numberAt] at hq
    obtain hi | hi := hr.mem hi
    · exact hr.processedAt (h.processed i hi q hq hle)
    · exact hr.processedAt (hi ▸ hnew q (hi ▸ hq) hle)

theorem Resumes.read (h : Resumes s start) (hr : Reads s s' pos)
    (hle : start ≤ pos) (hwindow : ∀ i, start ≤ i → i < pos → i ∈ s.delivered) :
    Resumes s' start where
  behind := by
    intro i hi hlt q hq
    obtain hi | hi := hr.mem hi
    · exact hr.processedAt (h.behind i hi hlt q (hr.numberAt ▸ hq))
    · omega
  gapless := by
    intro i hi j q hq hj
    obtain hi | hi := hr.mem hi
    · exact hr.mem_of_mem (h.gapless i hi j q (hr.numberAt ▸ hq) hj)
    · obtain heq | hlt : j = pos ∨ start ≤ j ∧ j < pos := by omega
      · exact heq ▸ hr.pos_mem
      · exact hr.mem_of_mem (hwindow j hlt.left hlt.right)

end Log

-- What is known of a connection. Everything it has read was scheduled, up to the last event.
structure Link (s : State) (conn : Connection) : Prop where
  sched : Parallel.Inv conn.sched
  handled : ∀ t, .succeeded t ∈ conn.sched.log → handler t.val (.ok ())
  adds : conn.sched.added.map (·.val) ++ conn.adding.toList = (s.host.take conn.pos).drop conn.start
  start_le : conn.start ≤ conn.pos
  pos_le : conn.pos ≤ s.host.length
  lastSeq : conn.lastSeq = -1 ∨ ∃ i < conn.pos, s.numberAt i = some conn.lastSeq
  resumes : Resumes s conn.start
  window : ∀ i, conn.start ≤ i → i < conn.pos → i ∈ s.delivered

def Ascending (s : State) : Prop :=
  ∀ i j p q, i < j → s.numberAt i = some p → s.numberAt j = some q → p < q

-- Every number the row may come to hold.
structure Cursors (s : State) (P : ℤ → Prop) : Prop where
  lastSeq : P s.lastSeq
  rows : ∀ c ∈ s.rows, P c
  reads : ∀ c ∈ s.reads, P c
  saving : ∀ c ∈ s.saving, P c
  sub : ∀ sub ∈ s.sub, P sub.lastSeq ∧ P sub.cursor

theorem Cursors.imp (h : Cursors s P) (hq : ∀ c, P c → Q c) : Cursors s Q where
  lastSeq := hq _ h.lastSeq
  rows c hc := hq c (h.rows c hc)
  reads c hc := hq c (h.reads c hc)
  saving c hc := hq c (h.saving c hc)
  sub sub hs := ⟨hq _ (h.sub sub hs).left, hq _ (h.sub sub hs).right⟩

structure Inv (s : State) : Prop where
  ascending : Ascending s
  inRange : ∀ i ∈ s.delivered, i < s.host.length
  numbered : ∀ i ∈ s.delivered, ∀ e ∈ s.host[i]?, e.number = none ∨ 0 < e.sequence
  contiguous : Contiguous s
  cursors : Cursors s (Covered s)
  link : ∀ conn ∈ s.conn, Link s conn

theorem Connection.read_eq (conn : Connection) (h : conn.accepts e = true) :
    conn.read e = { conn with
        pos := conn.pos + 1
        lastSeq := e.number.getD conn.lastSeq
        adding := some e } := by
  rw [read, if_pos h]

namespace Link

theorem extend (h : Link s conn) (hx : Extends s s')
    (hr : ∀ i ∈ s.delivered, i < s.host.length) : Link s' conn where
  sched := h.sched
  handled := h.handled
  adds := by
    have ⟨l, hl⟩ := hx.host
    rw [←hl, take_append_of_le_length h.pos_le]
    exact h.adds
  start_le := h.start_le
  pos_le := h.pos_le.trans hx.host.length_le
  lastSeq := by
    obtain h' | h' := h.lastSeq
    · exact .inl h'
    · have ⟨i, hi, hn⟩ := h'
      exact .inr ⟨i, hi, (numberAt_mono hx.host (hi.trans_le h.pos_le)).trans hn⟩
  resumes := h.resumes.extend hx hr (h.start_le.trans h.pos_le)
  window := hx.delivered.symm ▸ h.window

theorem read (h : Link s conn) (hr : Reads s s' conn.pos)
    (hadding : conn.adding = none) (he : s.host[conn.pos]? = some e) :
    Link s' { conn with
        pos := conn.pos + 1
        lastSeq := e.number.getD conn.lastSeq
        adding := some e } where
  sched := h.sched
  handled := h.handled
  adds := by
    have hadds := h.adds
    have hlen : conn.start ≤ (s.host.take conn.pos).length := by
      rw [length_take]
      exact le_min h.start_le (h.start_le.trans h.pos_le)
    rw [hadding, toList_none, append_nil] at hadds
    rw [hr.host, take_add_one, he, drop_append_of_le_length hlen, hadds]
  start_le := h.start_le.trans (Nat.le_succ _)
  pos_le := hr.host ▸ (List.getElem?_eq_some_iff.mp he).choose
  lastSeq := by
    cases hn : e.number with
    | some q =>
      have hat : s.numberAt conn.pos = some q := by rw [State.numberAt, he]; exact hn
      exact .inr ⟨conn.pos, Nat.lt_succ_self _, hr.numberAt.trans hat⟩
    | none =>
      obtain h' | h' := h.lastSeq
      · exact .inl h'
      · have ⟨i, hi, hat⟩ := h'
        exact .inr ⟨i, hi.trans (Nat.lt_succ_self _), hr.numberAt.trans hat⟩
  resumes := h.resumes.read hr h.start_le h.window
  window := by
    intro i hi hlt
    obtain hlt | heq := (Nat.lt_succ_iff.mp hlt).lt_or_eq
    · exact hr.mem_of_mem (h.window i hi hlt)
    · exact heq ▸ hr.pos_mem

-- The task that was added as the one at `m` is the event at that place.
theorem host_at (h : Link s conn) (ht : conn.sched.added[m]? = some t) :
    conn.start + m < conn.pos ∧ s.host[conn.start + m]? = some t.val := by
  have hm : m < conn.sched.added.length := (List.getElem?_eq_some_iff.mp ht).choose
  have hat : ((s.host.take conn.pos).drop conn.start)[m]? = some t.val := by
    rw [←h.adds, getElem?_append_left (by simpa using hm), getElem?_map, ht]
    rfl
  have hlt : m < ((s.host.take conn.pos).drop conn.start).length :=
    (List.getElem?_eq_some_iff.mp hat).choose
  rw [length_drop, length_take] at hlt
  have hlt : conn.start + m < conn.pos := by omega
  rw [getElem?_drop, getElem?_take_of_lt hlt] at hat
  exact ⟨hlt, hat⟩

end Link

namespace Inv

variable {o : Config}

section

variable (h : Inv s)

include h

theorem processedAt_recorded (hc : s.conn = some conn)
    (ht : conn.sched.added[m]? = some t) (hrec : t ∈ conn.sched.recorded) :
    ProcessedAt s (conn.start + m) := by
  have hl := h.link conn hc
  have hsucc := (hl.sched.succeeded hrec).left
  have ⟨a, d, hd⟩ := hl.handled t hsucc
  have hlog : .succeeded t ∈ s.log := State.log_eq hc ▸ mem_append_right _ hsucc
  exact ⟨t.val, (hl.host_at ht).right, ⟨t, rfl, hlog⟩, a, d, hd, Ingest.eventHandler_accounted hd⟩

theorem sequence_pos (hi : i ∈ s.delivered)
    (hq : s.numberAt i = some q) (he : s.host[i]? = some e) : 0 < e.sequence ∧ e.sequence = q := by
  rw [State.numberAt, he] at hq
  obtain hn | hn := h.numbered i hi e he
  · cases hn.symm.trans hq
  · have hseq := XRPCStreamEvent.number_of_sequence_pos hn
    cases hseq.symm.trans hq
    exact ⟨hn, rfl⟩

theorem number_pos (hi : i ∈ s.delivered) (hq : s.numberAt i = some q) : 0 < q := by
  have ⟨e, he, _⟩ := bind_eq_some_iff.mp hq
  have ⟨hpos, heq⟩ := h.sequence_pos hi hq he
  exact heq ▸ hpos

-- The finished part of a connection covers all that was delivered up to there.
theorem covered_sched (hc : s.conn = some conn) : Covered s conn.sched.sched.lastSeq := by
  have hl := h.link conn hc
  have hlast := hl.sched.acked.lastSeq
  have hfin : conn.sched.sched.lastSeq = lastSeqOf conn.sched.finished := hlast
  rw [hfin, lastSeqOf]
  cases hg : conn.sched.finished.getLast? with
  | none =>
    refine ⟨.inl (le_refl _), fun i hi q hq hle => ?_⟩
    exact absurd (h.number_pos hi hq) (not_lt.mpr hle)
  | some t =>
    have ht := mem_of_getLast? hg
    have hseq : t ∈ conn.sched.sequenced := (takeWhile_sublist _).subset ht
    obtain ⟨hadd, hpos⟩ := mem_filter.mp hseq
    have hpos : 0 < t.seq := by simpa using hpos
    obtain ⟨l₁, l₂, hsplit⟩ := append_of_mem hadd
    have hnot : t ∉ l₁ := by
      have hn := hl.sched.nodup
      rw [hsplit] at hn
      exact fun hmem => disjoint_of_nodup_append hn hmem mem_cons_self
    have hat : conn.sched.added[l₁.length]? = some t := by simp [hsplit]
    obtain ⟨hlt, hhost⟩ := hl.host_at hat
    have hnum : s.numberAt (conn.start + l₁.length) = some t.seq := by
      rw [State.numberAt, hhost]
      exact XRPCStreamEvent.number_of_sequence_pos hpos
    refine ⟨.inr ⟨_, hl.window _ (Nat.le_add_right _ _) hlt, hnum⟩, fun i hi q hq hle => ?_⟩
    by_cases hi' : i < conn.start
    · exact hl.resumes.behind i hi hi' q hq
    -- An event of this connection that is not behind the last finished one.
    have hij : i ≤ conn.start + l₁.length := by
      by_contra hgt
      have := h.ascending _ _ _ _ (not_le.mp hgt) hnum hq
      exact absurd hle (not_le.mpr this)
    obtain ⟨m, hm⟩ := Nat.exists_eq_add_of_le (not_lt.mp hi')
    have hmle : m ≤ l₁.length := by omega
    have hlen : m < conn.sched.added.length := by
      rw [hsplit, length_append, length_cons]
      omega
    obtain ⟨u, hu⟩ : ∃ u, conn.sched.added[m]? = some u := ⟨_, getElem?_eq_getElem hlen⟩
    have hrec : u ∈ conn.sched.recorded := by
      cases hmle.lt_or_eq with
      | inr hmeq =>
        cases hu.symm.trans (hmeq ▸ hat)
        simpa using mem_takeWhile_imp ht
      | inl hmlt =>
        have hupos : 0 < u.seq := (h.sequence_pos hi hq (hm ▸ (hl.host_at hu).right)).left
        have hul : u ∈ l₁ := by
          rw [hsplit, getElem?_append_left hmlt] at hu
          exact mem_of_getElem? hu
        have huf : u ∈ l₁.filter (0 < ·.seq) := by simp [hul, hupos]
        have ht : t ∈ (l₁.filter (0 < ·.seq) ++ t :: l₂.filter (0 < ·.seq)).takeWhile
            conn.sched.recorded.contains := by
          simpa [Parallel.State.finished, Parallel.State.sequenced, hsplit, hpos] using ht
        have hnot : t ∉ l₁.filter (0 < ·.seq) := fun hmem => hnot (mem_filter.mp hmem).left
        have hall := List.forall_of_mem_takeWhile ht hnot
        simpa using hall u huf
    rw [hm]
    exact h.processedAt_recorded hc hu hrec

-- A step that delivers nothing, given where the numbers in play come from.
theorem extend (hx : Extends s s') (hasc : Ascending s')
    (hcursors : Cursors s' (Covered s)) (hlink : ∀ conn ∈ s'.conn, Link s' conn) :
    Inv s' where
  ascending := hasc
  inRange := by
    rw [hx.delivered]
    exact fun i hi => (h.inRange i hi).trans_le hx.host.length_le
  numbered := by
    rw [hx.delivered]
    intro i hi e he
    have ⟨l, hl⟩ := hx.host
    rw [←hl, getElem?_append_left (h.inRange i hi)] at he
    exact h.numbered i hi e he
  contiguous := by
    rw [Contiguous, hx.delivered]
    intro i hi k hk j q hq hij hjk
    rw [numberAt_mono hx.host (hjk.trans_lt (h.inRange k hk))] at hq
    exact h.contiguous i hi k hk j q hq hij hjk
  cursors := hcursors.imp fun c hc => hc.extend hx h.inRange
  link := hlink

theorem publish (he : ∀ q ∈ e.number, ∀ f ∈ s.host, ∀ p ∈ f.number, p < q) :
    Inv { s with host := s.host ++ [e] } := by
  have hc := h.cursors
  have hx : Extends s { s with host := s.host ++ [e] } :=
    ⟨prefix_append _ _, List.Subset.refl _, rfl⟩
  refine h.extend hx ?_ ⟨hc.1, hc.2, hc.3, hc.4, hc.5⟩ fun conn hc =>
    (h.link conn hc).extend hx h.inRange
  intro i j p q hij hi hj
  have ⟨f, hf, hp⟩ := bind_eq_some_iff.mp hi
  have ⟨g, hg, hq⟩ := bind_eq_some_iff.mp hj
  have hjlt := (List.getElem?_eq_some_iff.mp hg).choose
  rw [length_append, length_singleton] at hjlt
  have hilt : i < s.host.length := by omega
  have hi' : s.host[i]? = some f := by rwa [getElem?_append_left hilt] at hf
  obtain hjlt | hjeq := (Nat.lt_succ_iff.mp hjlt).lt_or_eq
  · rw [numberAt_mono hx.host hilt] at hi
    rw [numberAt_mono hx.host hjlt] at hj
    exact h.ascending i j p q hij hi hj
  · rw [hjeq, getElem?_append_right (le_refl _), Nat.sub_self] at hg
    cases hg
    exact he q hq f (mem_of_getElem? hi') p hp

variable {sub : Subscription}

-- The number of the cursor is that of a delivered event, and all others are on its sides.
theorem resumes (hs : s.sub = some sub) (hasked : sub.query = none → s.delivered = [])
    (hreplayed : ∀ c ∈ sub.query, Replays s c start) : Resumes s start := by
  by_cases hpos : 0 < sub.cursor
  case neg =>
    have hdel := hasked (if_neg hpos)
    exact ⟨hdel ▸ nofun, hdel ▸ nofun⟩
  have hrep := hreplayed _ (if_pos hpos)
  have hcov := (h.cursors.sub sub hs).right
  obtain ⟨k, hk, hn⟩ := hcov.known.resolve_left (not_le.mpr hpos)
  refine ⟨fun i hi hlt q hq => hcov.processed i hi q hq (hrep.skipped i hlt q hq),
    fun i hi j q hq hj => ?_⟩
  obtain ⟨hle, hji⟩ | ⟨hij, hlt⟩ := hj
  · have hkj : k ≤ j := by
      by_contra hgt
      have := h.ascending _ _ _ _ (not_le.mp hgt) hq hn
      exact absurd (hrep.sent j hle q hq) this.not_gt
    exact h.contiguous k hk i hi j q hq hkj hji
  · have hjk : j ≤ k := by
      by_contra hgt
      have := h.ascending _ _ _ _ (not_le.mp hgt) hn hq
      exact absurd (hrep.skipped j hlt q hq) this.not_ge
    exact h.contiguous i hi k hk j q hq hij hjk

theorem dial (hc : s.conn = none) (hlen : start ≤ s.host.length) (hres : Resumes s start) :
    Inv { s with
        conn := some
          ⟨sub.query, newScheduler o.concurrencyPerHost, start, start, -1, none, false⟩ } := by
  have hx : Extends s
      { s with
        conn := some
          ⟨sub.query, newScheduler o.concurrencyPerHost, start, start, -1, none, false⟩ } := by
    refine ⟨prefix_refl _, ?_, rfl⟩
    simp [State.log, hc]
  have hcur := h.cursors
  refine h.extend hx h.ascending ⟨hcur.1, hcur.2, hcur.3, hcur.4, hcur.5⟩ fun conn hconn => ?_
  cases hconn
  exact
    { sched := .init _
      handled := nofun
      adds := by simp [newScheduler]
      start_le := le_refl _
      pos_le := hlen
      lastSeq := .inl rfl
      resumes := hres.extend hx h.inRange hlen
      window := fun i hi hi' => absurd hi (not_le.mpr hi') }

section

variable (hc : s.conn = some conn)

include hc

-- Nothing is passed over that comes with a positive number.
theorem accepts (he : s.host[conn.pos]? = some e) (hnum : e.number = none ∨ 0 < e.sequence) :
    conn.accepts e = true := by
  obtain hnum | hnum := hnum
  · simp [Connection.accepts, hnum]
  have hseq := XRPCStreamEvent.number_of_sequence_pos hnum
  have hat : s.numberAt conn.pos = some e.sequence := by rw [State.numberAt, he]; exact hseq
  suffices conn.lastSeq < e.sequence by simp [Connection.accepts, hseq, this]
  obtain hlast | hlast := (h.link conn hc).lastSeq
  · omega
  · have ⟨i, hi, hn⟩ := hlast
    exact h.ascending i conn.pos _ _ hi hn hat

theorem read (hadding : conn.adding = none) (he : s.host[conn.pos]? = some e)
    (hnum : e.number = none ∨ 0 < e.sequence) :
    Inv { s with conn := some (conn.read e), delivered := s.delivered ++ [conn.pos] } := by
  have hl := h.link conn hc
  have hread := conn.read_eq (h.accepts hc he hnum)
  have hr : Reads s { s with conn := some (conn.read e), delivered := s.delivered ++ [conn.pos] }
      conn.pos := ⟨rfl, by rw [State.log, State.log, hc, hread]; rfl, rfl⟩
  have hat (q : ℤ) (hq : q ∈ s.numberAt conn.pos) : 0 < q := by
    rw [State.numberAt, he] at hq
    obtain hnum | hnum := hnum
    · cases hnum.symm.trans hq
    · cases (XRPCStreamEvent.number_of_sequence_pos hnum).symm.trans hq
      exact hnum
  have hcur := h.cursors.imp (Q := Covered _) fun c hcov => hcov.read hr fun q hq hle => ?covered
  refine
    { ascending := h.ascending
      inRange := ?_
      numbered := ?_
      contiguous := (hl.resumes.read hr hl.start_le hl.window).contiguous
      cursors := ⟨hcur.1, hcur.2, hcur.3, hcur.4, hcur.5⟩
      link := ?_ }
  · intro i hi
    obtain hi | hi := hr.mem hi
    · exact h.inRange i hi
    · exact hi ▸ (List.getElem?_eq_some_iff.mp he).choose
  · intro i hi f hf
    obtain hi | hi := hr.mem hi
    · exact h.numbered i hi f hf
    · cases (hi ▸ he).symm.trans hf
      exact hnum
  case covered =>
    -- An event that was not delivered before has a higher number than all that were.
    by_cases hdel : conn.pos ∈ s.delivered
    · exact hcov.processed conn.pos hdel q hq hle
    obtain hc0 | hj := hcov.known
    · exact absurd (hat q hq) (not_lt.mpr (hle.trans hc0))
    have ⟨j, hj, hnj⟩ := hj
    have hlt : j < conn.pos := by
      by_contra hge
      exact hdel (hl.resumes.gapless j hj _ q hq (.inl ⟨hl.start_le, not_lt.mp hge⟩))
    exact absurd hle (not_le.mpr (h.ascending j conn.pos c q hlt hnj hq))
  · intro conn' hconn
    cases hconn
    have hlink := hl.read hr hadding he
    rw [←hread] at hlink
    exact hlink

theorem schedule (e : Parallel.Step o.queueDepthPerHost handler conn.sched sched)
    (hadds : sched.added.map (·.val) ++ adding.toList =
      conn.sched.added.map (·.val) ++ conn.adding.toList) :
    Inv { s with conn := some { conn with sched := sched, adding := adding } } := by
  have hl := h.link conn hc
  have ⟨l, hlog⟩ := log_step e
  have hx : Extends s { s with conn := some { conn with sched := sched, adding := adding } } := by
    refine ⟨prefix_refl _, ?_, rfl⟩
    simp only [State.log, hc, hlog, map_some, getD_some, ←append_assoc]
    exact subset_append_left _ _
  have hcur := h.cursors
  refine h.extend hx h.ascending ⟨hcur.1, hcur.2, hcur.3, hcur.4, hcur.5⟩ fun conn' hconn => ?_
  cases hconn
  have hl' := hl.extend hx h.inRange
  exact
    { hl' with
      sched := hl.sched.step e
      handled := handled_step e hl.handled
      adds := hadds.trans hl'.adds }

theorem close : Inv { s with conn := some { conn with closed := true } } := by
  have hcur := h.cursors
  have hx : Extends s { s with conn := some { conn with closed := true } } := by
    refine ⟨prefix_refl _, ?_, rfl⟩
    simp [State.log, hc]
  refine h.extend hx h.ascending ⟨hcur.1, hcur.2, hcur.3, hcur.4, hcur.5⟩ fun conn' hconn => ?_
  cases hconn
  exact { (h.link conn hc).extend hx h.inRange with }

end

theorem move (hhost : s'.host = s.host) (hdel : s'.delivered = s.delivered)
    (hpast : s'.past = s.past) (hconn : s'.conn = s.conn)
    (hcursors : Cursors s' (Covered s)) : Inv s' := by
  have hx : Extends s s' :=
    ⟨hhost ▸ prefix_refl _, by rw [State.log, State.log, hpast, hconn]; exact fun _ => id, hdel⟩
  refine h.extend hx ?_ hcursors fun conn hc => (h.link conn (hconn ▸ hc)).extend hx h.inRange
  intro i j p q hij hi hj
  rw [State.numberAt, hhost] at hi hj
  exact h.ascending i j p q hij hi hj

-- The connection is gone and what it has done is kept.
theorem disconnect (hhost : s'.host = s.host) (hdel : s'.delivered = s.delivered)
    (hpast : s'.past = s.log) (hconn : s'.conn = none)
    (hcursors : Cursors s' (Covered s)) : Inv s' := by
  have hx : Extends s s' := by
    refine ⟨hhost ▸ prefix_refl _, ?_, hdel⟩
    change s.log ⊆ s'.past ++ (s'.conn.map (·.sched.log)).getD []
    rw [hpast, hconn]
    exact subset_append_left _ _
  refine h.extend hx ?_ hcursors fun conn hc => ?_
  · intro i j p q hij hi hj
    rw [State.numberAt, hhost] at hi hj
    exact h.ascending i j p q hij hi hj
  · rw [hconn] at hc
    cases hc

end

theorem forall_mem_middle {P : ℤ → Prop}
    (h : ∀ d ∈ l₁ ++ c :: l₂, P d) : P c ∧ ∀ d ∈ l₁ ++ l₂, P d := by
  simp only [forall_mem_append, forall_mem_cons] at h ⊢
  exact ⟨h.right.left, h.left, h.right.right⟩

theorem covered_updateSeq (ha : Covered s a) (hb : Covered s b) : Covered s (updateSeq a b) := by
  rw [updateSeq]
  split
  · exact hb
  · exact ha

theorem covered_persist (ha : Covered s a) (hb : Covered s b) :
    Covered s (persistHostCursor a b) := by
  rw [persistHostCursor]
  split
  · exact ha
  · split
    · exact hb
    · exact ha

theorem step (h : Inv s) (e : Step o s s') (hst : Steady s s') : Inv s' := by
  have hcur := h.cursors
  cases e with
  | publish e he => exact h.publish he
  | dial start hs hc hr hl =>
    exact h.dial hc hl (h.resumes hs (hst.asked _ hc rfl) (hst.replayed _ hc rfl))
  | read hc hcl ha hsend he => exact h.read hc ha he (hst.numbered _ (by simp) _ he)
  | addWork hc _ ha e hadd => exact h.schedule hc e (by simp [hadd, ha])
  | schedule hc e hadd => exact h.schedule hc e (by rw [hadd])
  | close hc => exact h.close hc
  | finish hs hc _ _ _ =>
    have hsub := hcur.5 _ hs
    refine h.disconnect rfl rfl (State.log_eq hc).symm rfl
      ⟨hcur.1, hcur.2, hcur.3, hcur.4, fun sub hs' => ?_⟩
    cases hs'
    exact ⟨covered_updateSeq hsub.left (h.covered_sched hc), hsub.right⟩
  | crash => exact h.disconnect rfl rfl rfl rfl ⟨hcur.1, nofun, nofun, nofun, nofun⟩
  | load =>
    exact h.move rfl rfl rfl rfl
      ⟨hcur.1, forall_mem_cons.mpr ⟨hcur.1, hcur.2⟩, hcur.3, hcur.4, hcur.5⟩
  | subscribe hs hc =>
    refine h.move rfl rfl rfl rfl ⟨hcur.1, hcur.2, hcur.3, hcur.4, fun sub hsub => ?_⟩
    cases hsub
    exact ⟨hcur.2 _ hc, hcur.2 _ hc⟩
  | progress hs hr hlt =>
    have hsub := hcur.5 _ hs
    refine h.move rfl rfl rfl rfl
      ⟨hcur.1, hcur.2, hcur.3, forall_mem_cons.mpr ⟨hsub.left, hcur.4⟩, fun sub hs' => ?_⟩
    cases hs'
    exact ⟨hsub.left, hsub.left⟩
  | noProgress hs hr hle =>
    have hsub := hcur.5 _ hs
    refine h.move rfl rfl rfl rfl ⟨hcur.1, hcur.2, hcur.3, hcur.4, fun sub hs' => ?_⟩
    cases hs'
    exact hsub
  | readSeq hc =>
    exact h.move rfl rfl rfl rfl
      ⟨hcur.1, hcur.2, forall_mem_cons.mpr ⟨h.covered_sched hc, hcur.3⟩, hcur.4, hcur.5⟩
  | storeSeq hs hseq =>
    refine h.move rfl rfl rfl rfl ⟨hcur.1, hcur.2, hcur.3, hcur.4, fun sub hsub => ?_⟩
    cases hsub
    exact ⟨covered_updateSeq (hcur.5 _ hs).left (hcur.3 _ hseq), (hcur.5 _ hs).right⟩
  | hostCursor hs =>
    exact h.move rfl rfl rfl rfl
      ⟨hcur.1, hcur.2, hcur.3, forall_mem_cons.mpr ⟨(hcur.5 _ hs).left, hcur.4⟩, hcur.5⟩
  | persist l₁ l₂ hsave =>
    have ⟨hc, hrest⟩ := forall_mem_middle (hsave ▸ hcur.4)
    exact h.move rfl rfl rfl rfl ⟨covered_persist hcur.1 hc, hcur.2, hcur.3, hrest, hcur.5⟩
  | notPersisted l₁ l₂ hsave =>
    have ⟨_, hrest⟩ := forall_mem_middle (hsave ▸ hcur.4)
    exact h.move rfl rfl rfl rfl ⟨hcur.1, hcur.2, hcur.3, hrest, hcur.5⟩
  | unsubscribe hs hc =>
    exact h.move rfl rfl rfl rfl
      ⟨hcur.1, hcur.2, hcur.3, forall_mem_cons.mpr ⟨(hcur.5 _ hs).left, hcur.4⟩, nofun⟩

theorem init (o : Config) (hs : (system o).init s) : Inv s := by
  cases hs
  exact
    { ascending := by simp [Ascending, State.numberAt]
      inRange := by simp
      numbered := by simp
      contiguous := nofun
      cursors := ⟨⟨.inl (by decide), by simp⟩, by simp, by simp, by simp, by simp⟩
      link := by simp }

theorem reachable (h : ((system o).restrict Steady).Reachable s) : Inv s := by
  apply h.invariant
  case hi => exact fun s hs => init o hs
  case hs => exact fun s s' _ h e => h.step e.left e.right

end Inv

section Results

theorem le_persistHostCursor (a c : ℤ) : a ≤ persistHostCursor a c := by
  rw [persistHostCursor]
  split
  · exact le_refl _
  · split
    · exact le_of_lt ‹_›
    · exact le_refl _

theorem lastSeq_step (e : Step o s s') : s.lastSeq ≤ s'.lastSeq := by
  cases e with
  | persist => exact le_persistHostCursor _ _
  | _ => exact le_refl _

end Results

section Sample

def refusing : Ingest.Answers :=
  ⟨.ok (), .ok false, .ok (), .ok (), .ok (), .ok true, .ok none, .ok (), .ok (),
    .error (.transient "disk"), .ok (), .ok ()⟩

def granting : Ingest.Answers :=
  ⟨.ok (), .ok false, .ok (), .ok (), .ok (), .ok true, .ok none, .ok (), .ok (), .ok (), .ok (),
    .ok ()⟩

theorem handler_error (did : String) (seq : ℤ) (err : Parallel.Error) :
    handler (.repoSync did seq) (.error err) :=
  ⟨refusing, .transient "disk", rfl⟩

theorem handler_ok (did : String) (seq : ℤ) : handler (.repoSync did seq) (.ok ()) :=
  ⟨granting, .emitted, rfl⟩

-- A step that does not connect.
theorem steady_step (h : ((system o).restrict Steady).Reachable s) (e : Step o s s')
    (hc : s.conn.isSome = true ∨ s'.conn = none)
    (hnum : ∀ i ∈ s'.delivered, ∀ e ∈ s'.host[i]?, e.number = none ∨ 0 < e.sequence := by decide) :
    ((system o).restrict Steady).Reachable s' := by
  have hno (conn : Connection) (hnone : s.conn = none) (hsome : s'.conn = some conn) : False := by
    obtain hc | hc := hc
    · simp [hnone] at hc
    · cases hc.symm.trans hsome
  exact h.step ⟨e, hnum, fun conn hn hs => (hno conn hn hs).elim,
    fun conn hn hs => (hno conn hn hs).elim⟩

theorem steady_dial (start : ℕ)
    (h : ((system o).restrict Steady).Reachable s) (hs : s.sub = some sub) (hc : s.conn = none)
    (hr : sub.returned = false) (hl : start ≤ s.host.length)
    (hnum : ∀ i ∈ s.delivered, ∀ e ∈ s.host[i]?, e.number = none ∨ 0 < e.sequence)
    (hasked : sub.query = none → s.delivered = [])
    (hreplayed : ∀ c ∈ sub.query, Replays s c start) :
    ((system o).restrict Steady).Reachable { s with
        conn := some
          ⟨sub.query, newScheduler o.concurrencyPerHost, start, start, -1, none, false⟩ } := by
  refine h.step ⟨.dial start hs hc hr hl, hnum, fun conn _ hconn => ?_, fun conn _ hconn => ?_⟩
  · cases hconn
    exact hasked
  · cases hconn
    exact hreplayed

theorem replays_behind (hhost : s.host = [.repoSync d q]) : Replays s q 1 := by
  refine ⟨fun i hi p hp => ?_, fun i hi p hp => ?_⟩
  · rw [Nat.lt_one_iff.mp hi, State.numberAt, hhost] at hp
    cases hp
    exact le_refl _
  · rw [State.numberAt, hhost, getElem?_eq_none hi] at hp
    cases hp

end Sample

end Relay.Slurper
