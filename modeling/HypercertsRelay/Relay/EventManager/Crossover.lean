import HypercertsRelay.Relay.EventManager.Subscribe

namespace Relay.EventManager

open List hiding after
open Ascending (after_append after_eq_self after_sublist mem_after)
open Relay.Stream (XRPCStreamEvent)
open Ascending (after IsAscending)

-- The cursor is not ahead of the first live event, and nothing is queued once a broadcast has
-- passed over the closing subscriber.
structure Orderly (since : ℤ) (s s' : State) : Prop where
  cursor : ∀ lastSeq e, s'.phase = .received lastSeq (some e) → since ≤ sequenceForEvent e
  closing : s.skipped = true → s'.outgoing.length ≤ s.outgoing.length

section Parts

variable (since : ℤ) (s : State)

def Known (lastSeq : ℤ) : Prop :=
  lastSeq = since ∨ since < lastSeq ∧ ∃ e ∈ s.persisted, e.sequence = lastSeq

-- The first playback has sent what there is up to `lastSeq`.
structure Played (lastSeq : ℤ) : Prop where
  out : s.played since = s.out ++ s.played lastSeq
  known : Known since s lastSeq

-- What was sent is what there is up to a place.
structure Sent (n : ℕ) : Prop where
  le : n ≤ s.persisted.length
  events : s.events = after sequenceForEvent (s.persisted.take n) since

-- The buffer holds the events from a place on, up to where it takes no more of them.
structure Window (a : ℕ) : Prop where
  buffer : ∃ m errs, a ≤ m ∧ m ≤ s.persisted.length ∧
    s.outgoing = (s.persisted.take m).drop a ++ errs ∧
    (∀ e ∈ errs, e = .error) ∧ (s.accepts = true → errs = []) ∧
    (s.inSubs = true → s.accepts = true → s.skipped = false →
      m + s.pending.toList.length = s.persisted.length)

structure Stuck : Prop where
  outgoing : s.outgoing = []
  cleanup : s.cleanup = .closed

-- The event at a place, at or behind the cursor.
structure At (a : ℕ) (e : XRPCStreamEvent) : Prop where
  at_a : s.persisted[a]? = some e
  cursor : since ≤ e.sequence

-- The second playback has sent some more, none of it behind the first live event.
structure Again (lastSeq : ℤ) (f : XRPCStreamEvent) (n b a : ℕ) (base : List XRPCStreamEvent) :
    Prop where
  start : s.played since = base ++ s.played lastSeq
  known : Known since s lastSeq
  out : s.out = base ++ (s.played lastSeq).take n
  le : n ≤ (s.played lastSeq).length
  upTo : ∀ e ∈ s.out, e.sequence ≤ f.sequence
  bound : (after sequenceForEvent (s.persisted.take (a + 1)) lastSeq).length ≤ b

structure Unregistered : Prop where
  inSubs : s.inSubs = false
  accepts : s.accepts = true
  outgoing : s.outgoing = []

def PhaseInv : Phase → Prop
  | .playback lastSeq n _ => Unregistered s ∧ Played since s lastSeq ∧ s.out.length = n
  | .caughtUp lastSeq => Unregistered s ∧ Played since s lastSeq
  | .waiting lastSeq => Played since s lastSeq ∧
    ∃ a, Window s a ∧ (∀ e ∈ s.persisted.drop a, lastSeq = since ∨ lastSeq ≤ e.sequence) ∧
      (s.accepts = false → ∃ e l, s.outgoing = e :: l ∧ e ≠ .error)
  | .received lastSeq none => Stuck s ∧ Played since s lastSeq
  | .received lastSeq (some f) => Played since s lastSeq ∧ lastSeq ≤ f.sequence ∧
    ∃ a, Window s (a + 1) ∧ At since s a f
  | .again lastSeq none n _ => Stuck s ∧ Played since s lastSeq ∧ n = 0
  | .again lastSeq (some f) n b => ∃ a base, Window s (a + 1) ∧ At since s a f ∧
    Again since s lastSeq f n b a base
  | .copying none => (Stuck s ∧ ∃ n, Sent since s n) ∨
    ∃ a j f, Window s a ∧ Sent since s a ∧ j < a ∧ At since s j f
  | .copying (some e) => ∃ a j f, j < a ∧ At since s j f ∧ Sent since s a ∧
    (e = .error ∧ Window s a ∨ s.persisted[a]? = some e ∧ Window s (a + 1))
  | .ended => ∃ n, Sent since s n

structure Inv : Prop where
  ascending : IsAscending sequenceForEvent s.persisted
  positive : ∀ e ∈ s.persisted, 0 < e.sequence
  pending : ∀ e ∈ s.pending, ∃ l, s.persisted = l ++ [e]
  skipped : s.skipped = true → s.cleanup ≠ .none
  dropping : s.dropping = true → s.accepts = false
  phase : PhaseInv since s s.phase

end Parts

structure Grows (s s' : State) (l : List XRPCStreamEvent) : Prop where
  persisted : s'.persisted = s.persisted ++ l
  newer : ∀ e ∈ l, ∀ f ∈ s.persisted, f.sequence < e.sequence
  out : s'.out = s.out

section Grows

theorem Grows.refl (hp : s'.persisted = s.persisted) (ho : s'.out = s.out) : Grows s s' [] :=
  ⟨by rw [hp, append_nil], nofun, ho⟩

theorem Known.grow (h : Known since s lastSeq) (hg : Grows s s' l) : Known since s' lastSeq := by
  obtain h | h := h
  · exact .inl h
  · have ⟨hlt, e, he, heq⟩ := h
    exact .inr ⟨hlt, e, hg.persisted ▸ mem_append_left _ he, heq⟩

theorem Known.newer (h : Known since s lastSeq) (hg : Grows s s' l)
    (he : e ∈ l) : lastSeq = since ∨ lastSeq < e.sequence := by
  obtain h | h := h
  · exact .inl h
  · have ⟨_, f, hf, heq⟩ := h
    exact .inr (heq ▸ hg.newer e he f hf)

theorem Grows.played (hg : Grows s s' l) (k : ℤ) :
    s'.played k = s.played k ++ after sequenceForEvent l k := by
  rw [State.played, hg.persisted, after_append]

-- New events come after the cursor just if they come after what was played.
theorem Known.after_eq (h : Known since s lastSeq) (hg : Grows s s' l) :
    after sequenceForEvent l since = after sequenceForEvent l lastSeq := by
  obtain h | h := h
  · rw [h]
  · have ⟨hlt, f, hf, heq⟩ := h
    have hnew : ∀ e ∈ l, lastSeq < sequenceForEvent e := fun e he => heq ▸ hg.newer e he f hf
    rw [after_eq_self hnew, after_eq_self]
    exact fun e he => hlt.trans (hnew e he)

theorem Played.grow (h : Played since s lastSeq) (hg : Grows s s' l) : Played since s' lastSeq where
  out := by rw [hg.played, hg.played, h.out, hg.out, h.known.after_eq hg, append_assoc]
  known := h.known.grow hg

theorem Sent.grow (h : Sent since s n) (hg : Grows s s' l) : Sent since s' n where
  le := by
    rw [hg.persisted, length_append]
    exact h.le.trans (Nat.le_add_right _ _)
  events := by
    rw [State.events, hg.out, hg.persisted, take_append_of_le_length h.le]
    exact h.events

theorem At.grow (h : At since s a f) (hg : Grows s s' l) : At since s' a f where
  at_a := by
    have ha := (List.getElem?_eq_some_iff.mp h.at_a).choose
    rw [hg.persisted, getElem?_append_left ha]
    exact h.at_a
  cursor := h.cursor

theorem At.lt_length (h : At since s a f) : a < s.persisted.length :=
  (List.getElem?_eq_some_iff.mp h.at_a).choose

theorem Again.grow (h : Again since s lastSeq f n b a base) (ha : a < s.persisted.length)
    (hg : Grows s s' l) : Again since s' lastSeq f n b a base where
  start := by rw [hg.played, hg.played, h.start, h.known.after_eq hg, append_assoc]
  known := h.known.grow hg
  out := by rw [hg.out, h.out, hg.played, take_append_of_le_length h.le]
  le := by
    rw [hg.played, length_append]
    exact h.le.trans (Nat.le_add_right _ _)
  upTo := hg.out ▸ h.upTo
  bound := by
    rw [hg.persisted, take_append_of_le_length ha]
    exact h.bound

theorem PhaseInv.external (h : PhaseInv since s ph) (hg : Grows s s' l)
    (hwindow : ∀ a, Window s a → Window s' a) (hstuck : Stuck s → Stuck s')
    (hun : Unregistered s → Unregistered s') (hhead : ∀ a, Window s a → s'.accepts = false →
      (s.accepts = false → ∃ e l, s.outgoing = e :: l ∧ e ≠ .error) →
      ∃ e l, s'.outgoing = e :: l ∧ e ≠ .error) : PhaseInv since s' ph := by
  match ph with
  | .playback lastSeq n b =>
    have ⟨hu, hp, hn⟩ := h
    exact ⟨hun hu, hp.grow hg, hg.out ▸ hn⟩
  | .caughtUp lastSeq =>
    have ⟨hu, hp⟩ := h
    exact ⟨hun hu, hp.grow hg⟩
  | .waiting lastSeq =>
    have ⟨hp, a, hw, hle, hacc⟩ := h
    refine ⟨hp.grow hg, a, hwindow a hw, fun e he => ?_, fun hacc' => hhead a hw hacc' hacc⟩
    have ⟨m, errs, ham, hm, _⟩ := hw.buffer
    rw [hg.persisted, drop_append_of_le_length (ham.trans hm), mem_append] at he
    obtain he | he := he
    · exact hle e he
    · exact (hp.known.newer hg he).imp_right le_of_lt
  | .received lastSeq none => exact ⟨hstuck h.left, h.right.grow hg⟩
  | .received lastSeq (some f) =>
    have ⟨hp, hle, a, hw, hat⟩ := h
    exact ⟨hp.grow hg, hle, a, hwindow _ hw, hat.grow hg⟩
  | .again lastSeq none n b =>
    have ⟨hs, hp, hn⟩ := h
    exact ⟨hstuck hs, hp.grow hg, hn⟩
  | .again lastSeq (some f) n b =>
    have ⟨a, base, hw, hat, hag⟩ := h
    exact ⟨a, base, hwindow _ hw, hat.grow hg, hag.grow hat.lt_length hg⟩
  | .copying none =>
    obtain h | h := h
    · have ⟨hs, n, hn⟩ := h
      exact .inl ⟨hstuck hs, n, hn.grow hg⟩
    · have ⟨a, j, f, hw, hsent, hj, hat⟩ := h
      exact .inr ⟨a, j, f, hwindow a hw, hsent.grow hg, hj, hat.grow hg⟩
  | .copying (some e) =>
    have ⟨a, j, f, hj, hat, hsent, he⟩ := h
    refine ⟨a, j, f, hj, hat.grow hg, hsent.grow hg, ?_⟩
    obtain he | he := he
    · exact .inl ⟨he.left, hwindow a he.right⟩
    · have ha := (List.getElem?_eq_some_iff.mp he.left).choose
      refine .inr ⟨?_, hwindow _ he.right⟩
      rw [hg.persisted, getElem?_append_left ha]
      exact he.left
  | .ended =>
    have ⟨n, hn⟩ := h
    exact ⟨n, hn.grow hg⟩

end Grows

namespace Inv

section

variable (h : Inv since s)

include h

theorem persist (hp : s.pending = none)
    (hpos : 0 < e.sequence) (hnew : ∀ f ∈ s.persisted, f.sequence < e.sequence) :
    Inv since { s with persisted := s.persisted ++ [e], pending := some e } := by
  have hg : Grows s { s with persisted := s.persisted ++ [e], pending := some e } [e] :=
    ⟨rfl, by simpa using hnew, rfl⟩
  refine
    { ascending := h.ascending.snoc hnew
      positive := ?_
      pending := ?_
      skipped := h.skipped
      dropping := h.dropping
      phase := h.phase.external hg (fun a hw => ⟨?_⟩) (fun hs => ⟨hs.1, hs.2⟩)
        (fun hu => ⟨hu.1, hu.2, hu.3⟩) fun _ _ hacc hhead => hhead hacc }
  · simpa [or_imp, forall_and, hpos] using h.positive
  · intro f hf
    cases hf
    exact ⟨_, rfl⟩
  have ⟨m, errs, ham, hm, ho, herr, hacc, heq⟩ := hw.buffer
  refine ⟨m, errs, ham, ?_, ?_, herr, hacc, fun hi ha hs => ?_⟩
  · simpa using hm.trans (Nat.le_succ _)
  · rw [take_append_of_le_length hm]
    exact ho
  · have heq := heq hi ha hs
    rw [hp] at heq
    simpa using heq

-- Steps that concern neither the log nor what was sent.
theorem external (hp : s'.persisted = s.persisted) (ho : s'.out = s.out) (hph : s'.phase = s.phase)
    (hpend : s'.pending = s.pending ∨ s'.pending = none)
    (hskip : s'.skipped = true → s'.cleanup ≠ .none)
    (hdrop : s'.dropping = true → s'.accepts = false) (hwindow : ∀ a, Window s a → Window s' a)
    (hstuck : Stuck s → Stuck s') (hun : Unregistered s → Unregistered s')
    (hhead : ∀ a, Window s a → s'.accepts = false →
      (s.accepts = false → ∃ e l, s.outgoing = e :: l ∧ e ≠ .error) →
      ∃ e l, s'.outgoing = e :: l ∧ e ≠ .error) : Inv since s' where
  ascending := hp ▸ h.ascending
  positive := hp ▸ h.positive
  pending := by
    intro e he
    rw [hp]
    obtain hpend | hpend := hpend
    · exact h.pending e (hpend ▸ he)
    · rw [hpend] at he
      cases he
  skipped := hskip
  dropping := hdrop
  phase := hph ▸ h.phase.external (.refl hp ho) hwindow hstuck hun hhead

theorem broadcast (hp : s.pending = some e) (hin : s.inSubs = true) (hacc : s.accepts = true)
    (hcl : s.cleanup ≠ .closed) (hskip : s.skipped = false) :
    Inv since { s with pending := none, outgoing := s.outgoing ++ [e] } := by
  refine h.external rfl rfl rfl (.inr rfl) h.skipped h.dropping (fun a hw => ⟨?_⟩)
    (fun hs => absurd hs.cleanup hcl) (fun hu => ?_) fun _ _ hacc' _ => ?_
  · have ⟨m, errs, ham, hm, ho, herr, hno, heq⟩ := hw.buffer
    have ⟨l, hl⟩ := h.pending e hp
    have hlen : m = l.length := by simpa [hp, hl] using heq hin hacc hskip
    have hal : a ≤ l.length := hlen ▸ ham
    refine ⟨m + 1, [], ham.trans (Nat.le_succ _), ?_, ?_, nofun, fun _ => rfl, fun _ _ _ => ?_⟩
    · simp [hl, hlen]
    · rw [ho, hno hacc, hl, hlen, take_left, take_of_length_le (by simp),
        drop_append_of_le_length hal, append_nil, append_nil]
    · simp [hl, hlen]
  · cases hu.inSubs.symm.trans hin
  · cases hacc.symm.trans hacc'

-- The buffer stays as it is while no event is let through.
theorem shut (hp : s'.persisted = s.persisted) (ho : s'.out = s.out) (hph : s'.phase = s.phase)
    (hpend : s'.pending = none) (hout : s'.outgoing = s.outgoing) (hacc : s'.accepts = s.accepts)
    (hin : s'.inSubs = s.inSubs) (hcl : s'.cleanup = s.cleanup)
    (hskip : s'.skipped = true → s'.cleanup ≠ .none) (hdrop : s'.dropping = s.dropping)
    (hclosed : s'.inSubs = true → s'.accepts = true → s'.skipped = true) : Inv since s' := by
  refine h.external hp ho hph (.inr hpend) hskip (hdrop ▸ hacc ▸ h.dropping) (fun a hw => ⟨?_⟩)
    (fun hs => ⟨hout ▸ hs.1, hcl ▸ hs.2⟩) (fun hu => ⟨hin ▸ hu.1, hacc ▸ hu.2, hout ▸ hu.3⟩)
    fun _ _ hacc' hhead => hout ▸ hhead (hacc ▸ hacc')
  have ⟨m, errs, ham, hm, ho, herr, hno, heq⟩ := hw.buffer
  refine ⟨m, errs, ham, hp ▸ hm, ?_, herr, hacc ▸ hno, fun hi ha hs => ?_⟩
  · rw [hout, hp]
    exact ho
  · cases (hclosed hi ha).symm.trans hs

theorem broadcastFull (hin : s.inSubs = true) (hacc : s.accepts = true)
    (hfull : bufferSize ≤ s.outgoing.length) :
    Inv since { s with pending := none, accepts := false, dropping := true } := by
  refine h.external rfl rfl rfl (.inr rfl) h.skipped (fun _ => rfl) (fun a hw => ⟨?_⟩)
    (fun hs => ⟨hs.1, hs.2⟩) (fun hu => ?_) fun a hw _ _ => ?_
  · have ⟨m, errs, ham, hm, ho, herr, hno, heq⟩ := hw.buffer
    exact ⟨m, errs, ham, hm, ho, herr, nofun, fun _ ha _ => nomatch ha⟩
  · cases hu.inSubs.symm.trans hin
  have ⟨m, errs, ham, hm, ho, herr, hno, heq⟩ := hw.buffer
  rw [hno hacc, append_nil] at ho
  cases hout : s.outgoing with
  | nil =>
    rw [hout] at hfull
    cases hfull
  | cons e l =>
    refine ⟨e, l, rfl, fun he => ?_⟩
    have hmem : e ∈ s.persisted := by
      have : e ∈ (s.persisted.take m).drop a := ho ▸ hout ▸ mem_cons_self
      exact mem_of_mem_take (mem_of_mem_drop this)
    have := h.positive e hmem
    rw [he] at this
    cases this

theorem tooSlow (hd : s.accepts = false) (hcl : s.cleanup = .none) :
    Inv since { s with dropping := false, outgoing := s.outgoing ++ [.error] } := by
  refine h.external rfl rfl rfl (.inl rfl) h.skipped nofun (fun a hw => ⟨?_⟩) (fun hs => ?_)
    (fun hu => ?_) fun _ _ _ hhead => ?_
  · have ⟨m, errs, ham, hm, ho, herr, hno, heq⟩ := hw.buffer
    refine ⟨m, errs ++ [.error], ham, hm, ?_, ?_, ?_, heq⟩
    · rw [ho, append_assoc]
    · simpa [or_imp, forall_and] using herr
    · exact fun ha => nomatch hd.symm.trans ha
  · cases hcl.symm.trans hs.cleanup
  · cases hd.symm.trans hu.accepts
  · have ⟨e, l, hl, he⟩ := hhead hd
    exact ⟨e, l ++ [.error], by simp [hl], he⟩

-- The subscriber leaves, or goes on leaving.
theorem leave (hp : s'.persisted = s.persisted) (ho : s'.out = s.out)
    (hph : s'.phase = s.phase) (hpend : s'.pending = s.pending) (hout : s'.outgoing = s.outgoing)
    (hacc : s'.accepts = s.accepts) (hin : s'.inSubs = s.inSubs ∨ s'.inSubs = false)
    (hcl : s.cleanup = .closed → s'.cleanup = .closed) (hskip' : s'.skipped = s.skipped)
    (hskip : s'.skipped = true → s'.cleanup ≠ .none)
    (hdrop : s'.dropping = true → s.dropping = true) : Inv since s' := by
  refine h.external hp ho hph (.inl hpend) hskip (fun hd => hacc ▸ h.dropping (hdrop hd))
    (fun a hw => ⟨?_⟩)
    (fun hs => ⟨hout ▸ hs.1, hcl hs.2⟩) (fun hu => ⟨?_, hacc ▸ hu.2, hout ▸ hu.3⟩)
    fun _ _ hacc' hhead => hout ▸ hhead (hacc ▸ hacc')
  · have ⟨m, errs, ham, hm, ho, herr, hno, heq⟩ := hw.buffer
    refine ⟨m, errs, ham, hp ▸ hm, ?_, herr, hacc ▸ hno, fun hi ha hs => ?_⟩
    · rw [hout, hp]
      exact ho
    · obtain hin | hin := hin
      · rw [hpend, hp]
        exact heq (hin ▸ hi) (hacc ▸ ha) (hskip' ▸ hs)
      · cases hi.symm.trans hin
  · obtain hin | hin := hin
    · exact hin.trans hu.inSubs
    · exact hin

end

end Inv

section Phases

theorem Inv.phase_eq (h : Inv since s) (hph : s.phase = ph) : PhaseInv since s ph :=
  hph ▸ h.phase

theorem Inv.exists_sent (h : Inv since s) (hout : s.out <+: s.played since) :
    ∃ n, Sent since s n := by
  have ⟨n, hn, he⟩ := Ascending.exists_take_of_isPrefix hout
  refine ⟨n, hn, ?_⟩
  have hpos : ∀ e ∈ s.out, 0 < e.sequence :=
    fun e he => h.positive e (after_sublist.subset (hout.subset he))
  rw [State.events, filter_eq_self.mpr (by simpa using hpos), he]

theorem Played.isPrefix (h : Played since s lastSeq) : s.out <+: s.played since :=
  h.out ▸ prefix_append _ _

theorem Again.isPrefix (h : Again since s lastSeq f n b a base) : s.out <+: s.played since := by
  rw [h.out, h.start]
  exact (prefix_append_right_inj base).mpr (List.take_prefix _ _)

-- Nothing sent by the first playback comes after its last event.
theorem Played.le (h : Played since s lastSeq) (hasc : IsAscending sequenceForEvent s.persisted)
    (he : e ∈ s.out) : e.sequence ≤ lastSeq := by
  by_contra hlt
  have hsplit : IsAscending sequenceForEvent (s.played since) := hasc.sublist after_sublist
  rw [h.out] at hsplit
  have hmem : e ∈ s.persisted := after_sublist.subset (h.isPrefix.subset he)
  have hnew : e ∈ s.played lastSeq := mem_after.mpr ⟨hmem, not_le.mp hlt⟩
  exact lt_irrefl _ ((pairwise_append.mp hsplit).right.right e he e hnew)

-- All up to the first live event was sent once nothing up to it is left.
theorem Again.sent (h : Again since s lastSeq f n b a base) (hi : Inv since s)
    (hat : At since s a f) (hrest : ∀ e ∈ (s.played lastSeq).drop n, f.sequence < e.sequence) :
    Sent since s (a + 1) := by
  have hsplit : s.played since = s.out ++ (s.played lastSeq).drop n := by
    rw [h.out, append_assoc, take_append_drop, h.start]
  have hpos : ∀ e ∈ s.out, 0 < e.sequence :=
    fun e he => hi.positive e (after_sublist.subset (h.isPrefix.subset he))
  refine ⟨hat.lt_length, ?_⟩
  calc s.events
    _ = s.out := by rw [State.events, filter_eq_self.mpr (by simpa using hpos)]
    _ = (s.played since).filter (·.sequence ≤ f.sequence) := by
      rw [hsplit, filter_append, filter_eq_self.mpr (by simpa using h.upTo),
        filter_eq_nil_iff.mpr (by simpa using hrest), append_nil]
    _ = after sequenceForEvent (s.persisted.take (a + 1)) since := by
      rw [Ascending.take_succ_eq_filter hi.ascending hat.at_a, State.played, after, after,
        filter_comm]

-- The buffer gives the next event, or an error frame when there is none.
theorem Window.receive (h : Window s a) (hs : s.outgoing = e :: rest) :
    e = .error ∧ Window { s with outgoing := rest } a ∨
    s.persisted[a]? = some e ∧ Window { s with outgoing := rest } (a + 1) := by
  have ⟨m, errs, ham, hm, ho, herr, hno, heq⟩ := h.buffer
  rw [hs] at ho
  cases ham.lt_or_eq with
  | inr hme =>
    have hnil : (s.persisted.take m).drop a = [] := drop_eq_nil_of_le (by simp [hme])
    rw [hnil, nil_append] at ho
    have ⟨he, hrest⟩ := forall_mem_cons.mp (ho ▸ herr)
    refine .inl ⟨he, m, rest, ham, hm, by rw [hnil, nil_append], hrest, fun hacc => ?_, heq⟩
    cases ho.trans (hno hacc)
  | inl hlt =>
    have hal : a < (s.persisted.take m).length := by
      rw [length_take]
      omega
    rw [drop_eq_getElem_cons hal, cons_append, getElem_take] at ho
    have ⟨he, ho⟩ := cons_eq_cons.mp ho
    refine .inr ⟨?_, m, errs, hlt, hm, ho, herr, hno, heq⟩
    rw [he]
    exact getElem?_eq_getElem _

theorem Inv.internal (h : Inv since s) (hp : s'.persisted = s.persisted)
    (hpend : s'.pending = s.pending) (hskip : s'.skipped = s.skipped)
    (hcl : s'.cleanup = s.cleanup) (hdrop : s'.dropping = s.dropping)
    (hacc : s'.accepts = s.accepts) (hphase : PhaseInv since s' s'.phase) : Inv since s' where
  ascending := hp ▸ h.ascending
  positive := hp ▸ h.positive
  pending := hpend ▸ hp ▸ h.pending
  skipped := hskip ▸ hcl ▸ h.skipped
  dropping := hdrop ▸ hacc ▸ h.dropping
  phase := hphase

theorem Inv.playbackSend (h : Inv since s) (hph : s.phase = .playback lastSeq n b)
    (he : (s.played since)[n]? = some e) :
    Inv since
      { s with
        phase := .playback (if 0 < sequenceForEvent e then sequenceForEvent e else lastSeq)
          (n + 1) b
        out := s.out ++ [e] } := by
  have ⟨hu, hp, hn⟩ := h.phase_eq hph
  have ⟨hmem, hlt⟩ := mem_after.mp (mem_of_getElem? he)
  rw [if_pos (h.positive e hmem)]
  refine h.internal rfl rfl rfl rfl rfl rfl ⟨⟨hu.1, hu.2, hu.3⟩, ⟨?_, .inr ⟨hlt, e, hmem, rfl⟩⟩, ?_⟩
  · rw [hp.out, getElem?_append_right hn.le, hn, Nat.sub_self] at he
    cases hrest : s.played lastSeq with
    | nil =>
      rw [hrest] at he
      cases he
    | cons g rest =>
      rw [hrest] at he
      cases he
      rw [hp.out, hrest, State.played, Ascending.after_head h.ascending hrest, append_assoc]
      rfl
  · simp [hn]

theorem Inv.addSubscriber (h : Inv since s) (hph : s.phase = .caughtUp lastSeq) :
    Inv since { s with phase := .waiting lastSeq, inSubs := true } := by
  have ⟨hu, hp⟩ := h.phase_eq hph
  refine h.internal rfl rfl rfl rfl rfl rfl
    ⟨⟨hp.1, hp.2⟩, s.persisted.length - s.pending.toList.length, ⟨?_⟩, ?_, ?_⟩
  · refine ⟨_, [], le_refl _, Nat.sub_le _ _, ?_, nofun, fun _ => rfl, fun _ _ _ => ?_⟩
    · simp [hu.outgoing]
    apply Nat.sub_add_cancel
    cases hpend : s.pending with
    | none => exact Nat.zero_le _
    | some e =>
      have ⟨l, hl⟩ := h.pending e hpend
      simp [hl]
  · -- Only the event that is about to be broadcast is left.
    intro e he
    cases hpend : s.pending with
    | none => simp [hpend] at he
    | some g =>
      have ⟨l, hl⟩ := h.pending g hpend
      have he : e = g := by simpa [hpend, hl] using he
      refine hp.known.imp_right fun ⟨_, f, hf, heq⟩ => ?_
      rw [←heq, he]
      rw [hl, mem_append, mem_singleton] at hf
      obtain hf | hf := hf
      · have hasc := h.ascending
        rw [hl] at hasc
        exact ((pairwise_append.mp hasc).right.right f hf g (mem_singleton_self g)).le
      · rw [hf]
  · exact fun hacc => nomatch hu.accepts.symm.trans hacc

theorem Inv.first (h : Inv since s) (hph : s.phase = .waiting lastSeq)
    (hout : s.outgoing = e :: rest) (hcur : since ≤ e.sequence) :
    Inv since { s with phase := .received lastSeq (some e), outgoing := rest } := by
  have ⟨hp, a, hw, hle, hacc⟩ := h.phase_eq hph
  have ⟨hat, hw'⟩ : s.persisted[a]? = some e ∧ Window { s with outgoing := rest } (a + 1) := by
    cases hw.receive hout with
    | inr h' => exact h'
    | inl h' =>
      have ⟨m, errs, _, _, ho, _, hno, _⟩ := hw.buffer
      cases ha : s.accepts with
      | false =>
        have ⟨g, l, hg, hne⟩ := hacc ha
        cases hout.symm.trans hg
        exact absurd h'.left hne
      | true =>
        have hmem : e ∈ s.persisted := by
          rw [hno ha, append_nil, hout] at ho
          have : e ∈ (s.persisted.take m).drop a := ho ▸ mem_cons_self
          exact mem_of_mem_take (mem_of_mem_drop this)
        have := h.positive e hmem
        rw [h'.left] at this
        cases this
  have hmem : e ∈ s.persisted.drop a := by
    have ha := (List.getElem?_eq_some_iff.mp hat).choose
    rw [drop_eq_getElem_cons ha, (List.getElem?_eq_some_iff.mp hat).choose_spec]
    exact mem_cons_self
  refine h.internal rfl rfl rfl rfl rfl rfl ⟨⟨hp.1, hp.2⟩, ?_, a, ⟨hw'.buffer⟩, ⟨hat, hcur⟩⟩
  obtain heq | hle := hle e hmem
  · exact heq ▸ hcur
  · exact hle

variable {first : Option XRPCStreamEvent}

section

variable (h : Inv since s)

include h

theorem Inv.againStart (hph : s.phase = .received lastSeq first) :
    Inv since { s with phase := .again lastSeq first 0 (s.played lastSeq).length } := by
  cases first with
  | none =>
    have ⟨hs, hp⟩ := h.phase_eq hph
    exact h.internal rfl rfl rfl rfl rfl rfl ⟨⟨hs.1, hs.2⟩, ⟨hp.1, hp.2⟩, rfl⟩
  | some f =>
    have ⟨hp, hle, a, hw, hat⟩ := h.phase_eq hph
    refine h.internal rfl rfl rfl rfl rfl rfl
      ⟨a, s.out, ⟨hw.buffer⟩, ⟨hat.1, hat.2⟩, hp.out, hp.known, ?_, Nat.zero_le _, ?_, ?_⟩
    · simp
    · exact fun e he => (hp.le h.ascending he).trans hle
    · exact (Ascending.after_isPrefix_of_isPrefix (List.take_prefix _ _)).length_le

section

variable (hph : s.phase = .again lastSeq first n b)

include hph

theorem Inv.againSend (he : (s.played lastSeq)[n]? = some e)
    (hle : sequenceForEvent e ≤ sequenceForFirst first) :
    Inv since { s with phase := .again lastSeq first (n + 1) b, out := s.out ++ [e] } := by
  have ⟨hmem, _⟩ := mem_after.mp (mem_of_getElem? he)
  cases first with
  | none =>
    have := h.positive e hmem
    rw [sequenceForFirst, sequenceForEvent] at hle
    omega
  | some f =>
    have ⟨a, base, hw, hat, hag⟩ := h.phase_eq hph
    refine h.internal rfl rfl rfl rfl rfl rfl
      ⟨a, base, ⟨hw.buffer⟩, ⟨hat.1, hat.2⟩, hag.start, hag.known, ?_, ?_, ?_, hag.bound⟩
    · rw [take_add_one, he, hag.out, append_assoc]
      rfl
    · exact (List.getElem?_eq_some_iff.mp he).choose
    · simpa [or_imp, forall_and] using ⟨hag.upTo, hle⟩

-- The second playback is over, with all that comes before the live events sent.
theorem Inv.copy (hrest : ∀ f a, first = some f → At since s a f →
      (after sequenceForEvent (s.persisted.take (a + 1)) lastSeq).length ≤ b →
      ∀ e ∈ (s.played lastSeq).drop n, f.sequence < e.sequence) :
    Inv since { s with phase := .copying none } := by
  cases first with
  | none =>
    have ⟨hs, hp, _⟩ := h.phase_eq hph
    have ⟨n, hn⟩ := h.exists_sent hp.isPrefix
    exact h.internal rfl rfl rfl rfl rfl rfl (.inl ⟨⟨hs.1, hs.2⟩, n, hn.1, hn.2⟩)
  | some f =>
    have ⟨a, base, hw, hat, hag⟩ := h.phase_eq hph
    have hsent := hag.sent h hat (hrest f a rfl hat hag.bound)
    exact h.internal rfl rfl rfl rfl rfl rfl
      (.inr ⟨a + 1, a, f, ⟨hw.buffer⟩, ⟨hsent.1, hsent.2⟩, Nat.lt_succ_self a, hat.1, hat.2⟩)

theorem Inv.againCaughtUp (he : (s.played lastSeq)[n]? = some e)
    (hlt : sequenceForFirst first < sequenceForEvent e) :
    Inv since { s with phase := .copying none } := by
  refine h.copy hph fun f a hf _ _ g hg => ?_
  have ⟨hn, he⟩ := List.getElem?_eq_some_iff.mp he
  have hasc : IsAscending sequenceForEvent ((s.played lastSeq).drop n) :=
    (h.ascending.sublist after_sublist).sublist (drop_sublist _ _)
  rw [hf, sequenceForFirst] at hlt
  rw [drop_eq_getElem_cons hn, he] at hasc hg
  obtain hg | hg := mem_cons.mp hg
  · exact hg ▸ hlt
  · exact lt_trans hlt ((pairwise_cons.mp hasc).left g hg)

theorem Inv.againEnd (hb : b ≤ n) : Inv since { s with phase := .copying none } := by
  refine h.copy hph fun f a _ hat hle g hg => ?_
  have hsplit := take_append_drop (a + 1) s.persisted
  have hg : g ∈ s.persisted.drop (a + 1) := by
    rw [State.played, ←hsplit, after_append, drop_append,
      drop_eq_nil_of_le (hle.trans hb), nil_append] at hg
    exact after_sublist.subset (mem_of_mem_drop hg)
  have hasc := h.ascending
  rw [←hsplit] at hasc
  have hf : f ∈ s.persisted.take (a + 1) := by
    rw [take_add_one, hat.at_a]
    simp
  exact (pairwise_append.mp hasc).right.right f hf g hg

end

theorem Inv.copyReceive (hph : s.phase = .copying none) (hout : s.outgoing = e :: rest) :
    Inv since { s with phase := .copying (some e), outgoing := rest } := by
  obtain hs | hc := h.phase_eq hph
  · cases hs.left.outgoing.symm.trans hout
  have ⟨a, j, f, hw, hsent, hj, hat⟩ := hc
  refine h.internal rfl rfl rfl rfl rfl rfl ⟨a, j, f, hj, ⟨hat.1, hat.2⟩, ⟨hsent.1, hsent.2⟩, ?_⟩
  exact (hw.receive hout).imp (fun hr => ⟨hr.left, ⟨hr.right.buffer⟩⟩)
    fun hr => ⟨hr.left, ⟨hr.right.buffer⟩⟩

theorem Inv.copySend (hph : s.phase = .copying (some e)) :
    Inv since { s with phase := .copying none, out := s.out ++ [e] } := by
  have ⟨a, j, f, hj, hat, hsent, he⟩ := h.phase_eq hph
  obtain he | he := he
  · have hsent : Sent since { s with phase := .copying none, out := s.out ++ [e] } a := by
      refine ⟨hsent.1, ?_⟩
      rw [State.events, filter_append, he.left, filter_cons_of_neg (by decide),
        filter_nil, append_nil]
      exact hsent.events
    exact h.internal rfl rfl rfl rfl rfl rfl
      (.inr ⟨a, j, f, ⟨he.right.buffer⟩, hsent, hj, hat.1, hat.2⟩)
  · have hmem := mem_of_getElem? he.left
    have hlt : since < e.sequence :=
      lt_of_le_of_lt hat.cursor (Ascending.lt_of_getElem? h.ascending hj hat.at_a he.left)
    have hsent : Sent since { s with phase := .copying none, out := s.out ++ [e] } (a + 1) := by
      refine ⟨(List.getElem?_eq_some_iff.mp he.left).choose, ?_⟩
      rw [State.events, filter_append, take_add_one, he.left, after_append]
      congr 1
      · exact hsent.events
      · rw [Option.toList_some, after_eq_self (by simpa using hlt)]
        simpa using h.positive e hmem
    exact h.internal rfl rfl rfl rfl rfl rfl
      (.inr ⟨a + 1, j, f, ⟨he.right.buffer⟩, hsent, hj.trans (Nat.lt_succ_self a), hat.1, hat.2⟩)

theorem Inv.ended (hsent : ∃ n, Sent since s n) : Inv since { s with phase := .ended } :=
  have ⟨n, hn⟩ := hsent
  h.internal rfl rfl rfl rfl rfl rfl ⟨n, hn.1, hn.2⟩

end

end Phases

theorem Inv.step (h : Inv since s) (e : Step since s s')
    (ho : Orderly since s s') : Inv since s' := by
  cases e with
  | persist e hp hpos hnew => exact h.persist hp hpos hnew
  | broadcast hp hin hacc hcl _ =>
    apply h.broadcast hp hin hacc hcl
    rw [Bool.eq_false_iff]
    intro hskip
    have hle := ho.closing hskip
    rw [length_append, length_singleton] at hle
    omega
  | broadcastDone hp hin hacc hcl =>
    exact h.shut rfl rfl rfl rfl rfl rfl rfl rfl (fun _ => hcl) rfl fun _ _ => rfl
  | broadcastFull hp hin hacc hcl hfull => exact h.broadcastFull hin hacc hfull
  | broadcastOthers hp hno =>
    refine h.shut rfl rfl rfl rfl rfl rfl rfl rfl h.skipped rfl fun hin hacc => ?_
    obtain hno | hno := hno
    · cases hno.symm.trans hin
    · cases hno.symm.trans hacc
  | tooSlow hd hcl _ => exact h.tooSlow (h.dropping hd) hcl
  | tooSlowTimeout _ => exact h.leave rfl rfl rfl rfl rfl rfl (.inl rfl) id rfl h.skipped nofun
  | cleanupDone hcl =>
    exact h.leave rfl rfl rfl rfl rfl rfl (.inl rfl) (fun hc => nomatch hcl.symm.trans hc) rfl
      (fun _ => nofun) id
  | cleanupRemoved hcl =>
    exact h.leave rfl rfl rfl rfl rfl rfl (.inr rfl) (fun hc => nomatch hcl.symm.trans hc) rfl
      (fun _ => nofun) id
  | cleanupClosed hcl =>
    exact h.leave rfl rfl rfl rfl rfl rfl (.inl rfl) (fun _ => rfl) rfl (fun _ => nofun) id
  | take _ => exact h.leave rfl rfl rfl rfl rfl rfl (.inl rfl) id rfl h.skipped id
  | playbackSend hph he _ => exact h.playbackSend hph he
  | playbackEnd hph _ =>
    have ⟨hu, hp, _⟩ := h.phase_eq hph
    exact h.internal rfl rfl rfl rfl rfl rfl ⟨⟨hu.1, hu.2, hu.3⟩, hp.1, hp.2⟩
  | playbackFail hph =>
    have ⟨_, hp, _⟩ := h.phase_eq hph
    exact h.ended (h.exists_sent hp.isPrefix)
  | addSubscriber hph => exact h.addSubscriber hph
  | first hph hout => exact h.first hph hout (ho.cursor _ _ rfl)
  | firstClosed hph hout hcl =>
    have ⟨hp, _⟩ := h.phase_eq hph
    exact h.internal rfl rfl rfl rfl rfl rfl ⟨⟨hout, hcl⟩, hp.1, hp.2⟩
  | againStart hph => exact h.againStart hph
  | againSend hph he hle _ => exact h.againSend hph he hle
  | againCaughtUp hph he hlt => exact h.againCaughtUp hph he hlt
  | againEnd hph hb => exact h.againEnd hph hb
  | @againFail _ first _ _ hph =>
    cases first with
    | none =>
      have ⟨_, hp, _⟩ := h.phase_eq hph
      exact h.ended (h.exists_sent hp.isPrefix)
    | some f =>
      have ⟨_, _, _, _, hag⟩ := h.phase_eq hph
      exact h.ended (h.exists_sent hag.isPrefix)
  | copyReceive hph hout => exact h.copyReceive hph hout
  | copySend hph _ => exact h.copySend hph
  | copyDone hph _ =>
    have ⟨a, _, _, _, _, hsent, _⟩ := h.phase_eq hph
    exact h.ended ⟨a, hsent⟩
  | copyEnd hph _ _ =>
    obtain hs | hc := h.phase_eq hph
    · exact h.ended hs.right
    · have ⟨a, _, _, _, hsent, _⟩ := hc
      exact h.ended ⟨a, hsent⟩
  | rmSubscriber _ => exact h.leave rfl rfl rfl rfl rfl rfl (.inr rfl) id rfl h.skipped id

namespace Inv

theorem init (h : Init since s) : Inv since s := by
  have ⟨hasc, hpos, hpend, hs⟩ := h
  rw [hs]
  refine ⟨hasc, hpos, hpend, nofun, nofun, ⟨rfl, rfl, rfl⟩, ⟨rfl, .inl rfl⟩, rfl⟩

theorem reachable (h : ((system since).restrict (Orderly since)).Reachable s) : Inv since s := by
  apply h.invariant
  case hi => exact fun s hs => init hs
  case hs => exact fun s s' _ h e => h.step e.left e.right

theorem sent (h : Inv since s) : ∃ n, Sent since s n := by
  cases hph : s.phase with
  | playback =>
    have ⟨_, hp, _⟩ := h.phase_eq hph
    exact h.exists_sent hp.isPrefix
  | caughtUp =>
    have ⟨_, hp⟩ := h.phase_eq hph
    exact h.exists_sent hp.isPrefix
  | waiting =>
    have ⟨hp, _⟩ := h.phase_eq hph
    exact h.exists_sent hp.isPrefix
  | received lastSeq first =>
    cases first with
    | none => exact h.exists_sent (h.phase_eq hph).right.isPrefix
    | some f => exact h.exists_sent (h.phase_eq hph).left.isPrefix
  | again lastSeq first =>
    cases first with
    | none => exact h.exists_sent (h.phase_eq hph).right.left.isPrefix
    | some f =>
      have ⟨_, _, _, _, hag⟩ := h.phase_eq hph
      exact h.exists_sent hag.isPrefix
  | copying hand =>
    cases hand with
    | none =>
      obtain hs | hc := h.phase_eq hph
      · exact hs.right
      · have ⟨a, _, _, _, hsent, _⟩ := hc
        exact ⟨a, hsent⟩
    | some e =>
      have ⟨a, _, _, _, _, hsent, _⟩ := h.phase_eq hph
      exact ⟨a, hsent⟩
  | ended => exact h.phase_eq hph

end Inv

theorem subscriber_exact (since : ℤ) {s}
    (h : ((system since).restrict (Orderly since)).Reachable s) :
    s.events <+: after sequenceForEvent s.persisted since := by
  have ⟨n, hn⟩ := (Inv.reachable h).sent
  rw [hn.events]
  exact Ascending.after_isPrefix_of_isPrefix (List.take_prefix _ _)

section Sample

def sampleEvent (n : ℤ) : XRPCStreamEvent :=
  .repoSync "did:web:a" n

def sampleStart (since : ℤ) (persisted : List XRPCStreamEvent) : State where
  persisted := persisted
  pending := none
  phase := .playback since 0 (after sequenceForEvent persisted since).length
  inSubs := false
  accepts := true
  outgoing := []
  dropping := false
  cleanup := .none
  out := []
  taken := 0
  skipped := false

theorem sampleStart_init (since : ℤ) : Init since (sampleStart since [sampleEvent 5]) :=
  ⟨pairwise_singleton _ _, by simp [sampleStart, sampleEvent, XRPCStreamEvent.sequence], nofun, rfl⟩

-- Event 7 is sent to a subscriber that asked for what comes after 7.
theorem future_cursor_reachable : ∃ s, (system 7).Reachable s ∧
    s.persisted = [sampleEvent 5, sampleEvent 6, sampleEvent 7] ∧ s.events = [sampleEvent 7] := by
  have h : (system 7).Reachable _ := .init (sampleStart_init 7)
  have h := h.step <| .playbackEnd rfl (by decide)
  have h := h.step <| .addSubscriber rfl
  have h := h.step <| .persist (sampleEvent 6) rfl (by decide) (by decide)
  have h := h.step <| .broadcast rfl rfl rfl nofun (by decide)
  have h := h.step <| .first rfl rfl
  have h := h.step <| .againStart rfl
  have h := h.step <| .againEnd rfl (by decide)
  have h := h.step <| .persist (sampleEvent 7) rfl (by decide) (by decide)
  have h := h.step <| .broadcast rfl rfl rfl nofun (by decide)
  have h := h.step <| .copyReceive rfl rfl
  have h := h.step <| .copySend rfl (by decide)
  exact ⟨_, h, rfl, by decide⟩

-- Of three events that come while the subscriber is closing, the second is passed over.
theorem closing_reachable : ∃ s, (system 5).Reachable s ∧
    s.persisted = [sampleEvent 5, sampleEvent 6, sampleEvent 7, sampleEvent 8] ∧
    s.events = [sampleEvent 6, sampleEvent 8] := by
  have h : (system 5).Reachable _ := .init (sampleStart_init 5)
  have h := h.step <| .playbackEnd rfl (by decide)
  have h := h.step <| .addSubscriber rfl
  have h := h.step <| .persist (sampleEvent 6) rfl (by decide) (by decide)
  have h := h.step <| .broadcast rfl rfl rfl nofun (by decide)
  have h := h.step <| .first rfl rfl
  have h := h.step <| .againStart rfl
  have h := h.step <| .againSend (e := sampleEvent 6) rfl rfl (by decide) (by decide)
  have h := h.step <| .againEnd rfl (by decide)
  have h := h.step <| .cleanupDone rfl
  have h := h.step <| .persist (sampleEvent 7) rfl (by decide) (by decide)
  have h := h.step <| .broadcastDone rfl rfl rfl nofun
  have h := h.step <| .persist (sampleEvent 8) rfl (by decide) (by decide)
  have h := h.step <| .broadcast rfl rfl rfl nofun (by decide)
  have h := h.step <| .copyReceive rfl rfl
  have h := h.step <| .copySend rfl (by decide)
  exact ⟨_, h, rfl, by decide⟩

theorem subscriber_not_exact :
    (∃ s, (system 7).Reachable s ∧ ¬s.events <+: after sequenceForEvent s.persisted 7) ∧
    ∃ s, (system 5).Reachable s ∧ ¬s.events <+: after sequenceForEvent s.persisted 5 := by
  constructor
  case left =>
    have ⟨s, h, hp, he⟩ := future_cursor_reachable
    exact ⟨s, h, by rw [hp, he]; decide⟩
  case right =>
    have ⟨s, h, hp, he⟩ := closing_reachable
    exact ⟨s, h, by rw [hp, he]; decide⟩

theorem orderly_step
    (h : ((system since).restrict (Orderly since)).Reachable s) (e : Step since s s')
    (hcur : ∀ lastSeq e, s'.phase = .received lastSeq (some e) → since ≤ sequenceForEvent e := by
      nofun) (hskip : s.skipped = false := by rfl) :
    ((system since).restrict (Orderly since)).Reachable s' :=
  h.step ⟨e, hcur, fun hs => nomatch hskip.symm.trans hs⟩

theorem subscriber_exact_sample : ∃ s, ((system 5).restrict (Orderly 5)).Reachable s ∧
    s.events = [sampleEvent 6, sampleEvent 7] ∧
    s.events <+: after sequenceForEvent s.persisted 5 := by
  have h : ((system 5).restrict (Orderly 5)).Reachable _ := .init (sampleStart_init 5)
  have h := orderly_step h (.playbackEnd rfl (by decide))
  have h := orderly_step h (.addSubscriber rfl)
  have h := orderly_step h (.persist (sampleEvent 6) rfl (by decide) (by decide))
  have h := orderly_step h (.broadcast rfl rfl rfl nofun (by decide))
  have h := orderly_step h (.first rfl rfl) (by rintro _ _ ⟨⟩; decide)
  have h := orderly_step h (.againStart rfl)
  have h := orderly_step h (.againSend (e := sampleEvent 6) rfl rfl (by decide) (by decide))
  have h := orderly_step h (.persist (sampleEvent 7) rfl (by decide) (by decide))
  have h := orderly_step h (.broadcast rfl rfl rfl nofun (by decide))
  have h := orderly_step h (.againCaughtUp (e := sampleEvent 7) rfl rfl (by decide))
  have h := orderly_step h (.copyReceive rfl rfl)
  have h := orderly_step h (.copySend rfl (by decide))
  exact ⟨_, h, by decide, subscriber_exact 5 h⟩

end Sample

end Relay.EventManager
