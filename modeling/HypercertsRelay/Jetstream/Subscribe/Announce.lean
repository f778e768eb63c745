import HypercertsRelay.Jetstream.Adoption.Boundary

-- The policy announcements of a selected connection, while policies are adopted and rows appended.
-- All that is adopted and appended in a run is in a state of the gate. A connection sees so much of
-- it as there is by then.
namespace Jetstream.Subscribe.Selected

open List Adoption

variable {Pds Collections : Type}

inductive Frame (Collections : Type)
  | policy (r : Recorded Collections)
  | event (seq : ℕ) (policyRev : Option ℕ)
  | oversize (seq : ℕ)

-- What the filter makes of a row, and whether its message is within the size limit.
structure Row where
  seq : ℕ
  wants : Bool
  fits : Bool

-- `last` is the cursor that a cold batch sets at its end.
inductive Phase
  | waiting
  | delivering (cold : Bool) (rows : List Row) (last : ℕ)
  | closed

structure Wire (Collections : Type) where
  announced : ℕ
  -- The latest frame first, and the rows that no frame is sent for.
  sent : List (Frame Collections)

structure Conn (Collections : Type) where
  adopted : ℕ
  cursor : ℕ
  -- Empty also before it is read in a batch.
  history : List (Recorded Collections)
  wire : Wire Collections
  phase : Phase

def Wire.announcePolicy (w : Wire Collections) (r : Recorded Collections) : Wire Collections :=
  if r.revision ≤ w.announced then w else ⟨r.revision, .policy r :: w.sent⟩

def Wire.announcePolicies (w : Wire Collections) (history : List (Recorded Collections))
    (lastDelivered : ℕ) : Wire Collections :=
  history.foldl (fun w r =>
    if r.revision ≤ w.announced then w
    else if r.effectiveAfterSeq.any (lastDelivered < ·) then w
    else w.announcePolicy r) w

-- The revision of a row, none for one from before the attribution. Other rows have an event.
def lookup (events : List Adoption.Event) (seq : ℕ) : Option (Option ℕ) :=
  match events.find? (·.seq = seq) with
  | some e => some (some e.revision)
  | none => if events.head?.all (seq < ·.seq) then some none else none

-- The history is read again if it does not go up to the revision of the row.
def refreshed (cached history : List (Recorded Collections)) (rev : Option ℕ) :
    List (Recorded Collections) :=
  if cached.isEmpty || rev.any fun k => cached.getLast?.all (·.revision < k) then history
  else cached

def Wire.deliver (w : Wire Collections) (row : Row) (rev : Option ℕ) : Wire Collections :=
  ⟨w.announced, (if row.fits then .event row.seq rev else .oversize row.seq) :: w.sent⟩

variable (env : Adoption.State Pds Collections)

def Conn.policyHistory (c : Conn Collections) : List (Recorded Collections) :=
  env.disk.history.take c.adopted

def Conn.processSelectedRow (c : Conn Collections) (row : Row) :
    Option (List (Recorded Collections) × Wire Collections) :=
  if !row.wants then
    some (c.history, c.wire)
  else do
    let rev ← lookup env.events row.seq
    let history := refreshed c.history (c.policyHistory env) rev
    let w := if 0 < row.seq then c.wire.announcePolicies history (row.seq - 1) else c.wire
    return (history, w.deliver row rev)

-- A row is appended after the policy it is attributed to was adopted. One that is not attributed is
-- at or below every boundary.
structure Attributed (c : Conn Collections) (seq : ℕ) : Prop where
  adopted : ∀ k, lookup env.events seq = some (some k) → ∃ r ∈ c.policyHistory env, r.revision = k
  legacy : lookup env.events seq = some none →
    ∀ r ∈ env.disk.history, seq ≤ position r.effectiveAfterSeq

inductive Step : Conn Collections → Conn Collections → Prop
  | adopt (n : ℕ) : c.adopted ≤ n → Step c { c with adopted := n }
  -- The rows are numbered from 1.
  | read (cold : Bool) (rows : List Row) : c.phase = .waiting →
    rows.Pairwise (fun row row' => row.seq < row'.seq) →
    (∀ row ∈ rows, 0 < row.seq ∧ c.cursor ≤ row.seq) →
    Step c { c with history := [], phase := .delivering cold rows c.cursor }
  -- The cold batch is empty.
  | skip : c.phase = .waiting → c.cursor < n → Step c { c with history := [], cursor := n }
  | row : c.phase = .delivering cold (row :: rows) last → Attributed env c row.seq →
    c.processSelectedRow env row = some (history, wire) →
    Step c { c with
      cursor := if cold then c.cursor else row.seq + 1
      history, wire
      phase := .delivering cold rows (row.seq + 1) }
  -- At the end of the batch, or at a row that is not durable.
  | stop : c.phase = .delivering cold rows last →
    Step c { c with cursor := last, phase := .waiting }
  | announceIdlePolicies : c.phase = .waiting →
    Step c { c with wire := c.wire.announcePolicies (c.policyHistory env) (c.cursor - 1) }
  -- The connection ends with an error, maybe in the midst of the frames of a step.
  | close : Step c c' → sent <:+ c'.wire.sent →
    Step c { c with wire := ⟨announced, sent⟩, phase := .closed }

-- No policy is valid without a revision.
def system : System (Conn Collections) where
  init c := (∀ r ∈ env.disk.history, 0 < r.revision) ∧ c.wire = ⟨0, []⟩ ∧ c.phase = .waiting
  step := Step env

-- What is right for a frame after those sent before.
def Follows (sent : List (Frame Collections)) : Frame Collections → Prop
  | .policy r => ∀ r', .policy r' ∈ sent → r'.revision < r.revision
  | .event seq rev =>
    (∀ r, .policy r ∈ sent ↔ r ∈ env.disk.history ∧ position r.effectiveAfterSeq < seq) ∧
    ∀ k, rev = some k → ∃ r, .policy r ∈ sent ∧ r.revision = k
  | .oversize seq => ∀ r, .policy r ∈ sent → position r.effectiveAfterSeq < seq

def Logged (sent : List (Frame Collections)) : Prop :=
  ∀ f before, f :: before <:+ sent → Follows env before f

-- The history is announced up to a revision, which is in effect after `last`.
structure Ready (last : ℕ) (w : Wire Collections) : Prop where
  logged : Logged env w.sent
  sent : ∀ r, .policy r ∈ w.sent ↔ r ∈ env.disk.history ∧ r.revision ≤ w.announced
  behind : ∀ r ∈ env.disk.history, r.revision ≤ w.announced → position r.effectiveAfterSeq ≤ last

structure Inv (c : Conn Collections) : Prop where
  logged : Logged env c.wire.sent
  phase : match c.phase with
    | .waiting => Ready env (c.cursor - 1) c.wire
    | .delivering _ rows last => Ready env (last - 1) c.wire ∧ c.history <+: env.disk.history ∧
      rows.Pairwise (fun row row' => row.seq < row'.seq) ∧
      ∀ row ∈ rows, 0 < row.seq ∧ last ≤ row.seq
    | .closed => True

variable {env} {w : Wire Collections} {done rest : List (Recorded Collections)}
  {r r'} {c c'}

theorem Logged.cons (h : Logged env sent) (hf : Follows env sent f) : Logged env (f :: sent) := by
  intro g before hs
  rcases suffix_cons_iff.mp hs with heq | hs
  · injection heq with hg hb
    exact hg ▸ hb ▸ hf
  · exact h g before hs

theorem Ready.mono (h : Ready env last w) (hle : last ≤ last') : Ready env last' w :=
  { h with behind := fun r hr hrev => (h.behind r hr hrev).trans hle }

theorem lookup_eq_some (h : lookup events seq = some (some k)) : ⟨seq, k⟩ ∈ events := by
  cases hf : events.find? (·.seq = seq) with
  | none =>
    simp only [lookup, hf] at h
    split_ifs at h
    cases h
  | some e =>
    have hseq : e.seq = seq := by simpa using find?_some hf
    have hk : e.revision = k := by simpa [lookup, hf] using h
    exact hseq ▸ hk ▸ mem_of_find?_eq_some hf

section

variable [DecidableEq Pds] (h : Adoption.Inv env)

include h

-- A beginning of the history has all the entries below one that it has.
theorem mem_of_revision_le (hd : done <+: env.disk.history) (hr : r ∈ done)
    (hr' : r' ∈ env.disk.history) (hle : r'.revision ≤ r.revision) : r' ∈ done := by
  have ⟨tail, htail⟩ := hd
  have hord := h.ordered
  rw [←htail] at hr' hord
  refine (mem_append.mp hr').resolve_right fun hr' => ?_
  exact ((pairwise_append.mp hord).right.right r hr r' hr').left.not_ge hle

-- The entries up to one are those of lower revisions, and their boundaries are not higher.
theorem mem_done (hh : done ++ r :: rest <+: env.disk.history)
    (hr : r' ∈ env.disk.history) (hle : r'.revision ≤ r.revision) :
    r' = r ∨ r' ∈ done ∧ position r'.effectiveAfterSeq ≤ position r.effectiveAfterSeq := by
  have ⟨tail, htail⟩ := hh
  have hord := h.ordered
  rw [←htail] at hr hord
  simp only [append_assoc, cons_append, pairwise_append, pairwise_cons] at hord
  have hafter := hord.right.left.left r'
  have hbefore := hord.right.right r'
  simp only [append_assoc, cons_append, mem_append, mem_cons] at hr hbefore hafter
  grind

theorem Ready.announcePolicies (hh : done ++ rest <+: env.disk.history) (hr : Ready env last w)
    (hd : ∀ r ∈ done, position r.effectiveAfterSeq ≤ last → r.revision ≤ w.announced) :
    Ready env last (w.announcePolicies rest last) ∧
      ∀ r ∈ done ++ rest, position r.effectiveAfterSeq ≤ last →
        r.revision ≤ (w.announcePolicies rest last).announced := by
  induction rest generalizing done w with
  | nil => simpa [Wire.announcePolicies] using ⟨hr, hd⟩
  | cons r rest ih =>
    have hprev (r' : Recorded Collections) := @mem_done _ _ _ _ _ r r' _ h hh
    have hmem : r ∈ env.disk.history := hh.subset (by simp)
    have hpos : r.effectiveAfterSeq.any (last < ·) ↔ ¬position r.effectiveAfterSeq ≤ last := by
      cases hr : r.effectiveAfterSeq <;> simp [position]
    rw [append_cons] at hh ⊢
    rw [Wire.announcePolicies, foldl_cons]
    split_ifs with hle hgt
    · exact ih hh hr (forall_mem_append.mpr ⟨hd, by simp [hle]⟩)
    · exact ih hh hr (forall_mem_append.mpr ⟨hd, by simp [hpos.mp hgt]⟩)
    have hnew := not_le.mp hle
    rw [Wire.announcePolicy, if_neg hle]
    refine ih hh ⟨?_, fun r' => ?_, fun r' hr' hle => ?_⟩ ?_
    · exact hr.logged.cons fun r' hr' => ((hr.sent r').mp hr').right.trans_lt hnew
    · have hsent := hr.sent r'
      have hd := hd r'
      grind
    · grind
    · exact forall_mem_append.mpr ⟨fun r' hr' hle => (hd r' hr' hle).trans hnew.le, by simp⟩

-- A row above a boundary is of the revision of that boundary or of a later one.
theorem mem_refreshed (hh : c.history <+: env.disk.history) (ha : Attributed env c seq)
    (hrev : lookup env.events seq = some rev) (hr : r ∈ env.disk.history)
    (hlt : position r.effectiveAfterSeq < seq) :
    r ∈ refreshed c.history (c.policyHistory env) rev := by
  cases rev with
  | none => exact absurd (ha.legacy hrev r hr) hlt.not_ge
  | some k =>
    have ⟨_, _, hexact⟩ := h.recorded r hr
    have hle := (hexact _ (lookup_eq_some hrev)).right hlt
    rw [refreshed]
    split_ifs with hstale
    · have ⟨last, hlast, hk⟩ := ha.adopted k hrev
      exact mem_of_revision_le h (List.take_prefix ..) hlast hr (hk ▸ hle)
    cases hl : c.history.getLast? with
    | none => simp_all
    | some last =>
      have hk : k ≤ last.revision := by simp_all
      exact mem_of_revision_le h hh (mem_of_getLast? hl) hr (hle.trans hk)

theorem Ready.deliver (hr : Ready env (row.seq - 1) w)
    (hsent : ∀ r ∈ env.disk.history, position r.effectiveAfterSeq < row.seq →
      r.revision ≤ w.announced)
    (hpos : 0 < row.seq) (ha : Attributed env c row.seq)
    (hrev : lookup env.events row.seq = some rev) : Ready env row.seq (w.deliver row rev) := by
  have hiff (r : Recorded Collections) :
      .policy r ∈ w.sent ↔ r ∈ env.disk.history ∧ position r.effectiveAfterSeq < row.seq := by
    refine (hr.sent r).trans (and_congr_right fun hr' => ⟨fun hle => ?_, hsent r hr'⟩)
    have := hr.behind r hr' hle
    omega
  refine ⟨hr.logged.cons ?_, fun r => ?_, (hr.mono (Nat.sub_le ..)).behind⟩
  · split_ifs
    · refine ⟨hiff, ?_⟩
      rintro k rfl
      have ⟨r, hr', heq⟩ := ha.adopted k hrev
      have hr' := take_subset _ _ hr'
      have ⟨_, _, hexact⟩ := h.recorded r hr'
      have hlt := not_le.mp fun hle => ((hexact _ (lookup_eq_some hrev)).left hle).ne heq.symm
      exact ⟨r, (hiff r).mpr ⟨hr', hlt⟩, heq⟩
    · exact fun r hr' => ((hiff r).mp hr').right
  · rw [Wire.deliver]
    split_ifs <;> simpa using hr.sent r

theorem Ready.processSelectedRow (hr : Ready env (last - 1) c.wire)
    (hh : c.history <+: env.disk.history) (hpos : 0 < row.seq) (hle : last ≤ row.seq)
    (ha : Attributed env c row.seq) (hrow : c.processSelectedRow env row = some (history, wire)) :
    Ready env row.seq wire ∧ history <+: env.disk.history := by
  rw [Conn.processSelectedRow] at hrow
  split at hrow
  · cases hrow
    exact ⟨hr.mono (by omega), hh⟩
  have ⟨rev, hrev, hrow⟩ := Option.bind_eq_some_iff.mp hrow
  cases hrow
  have hhistory : [] ++ refreshed c.history (c.policyHistory env) rev <+: env.disk.history := by
    rw [refreshed, nil_append]
    split_ifs
    · exact take_prefix ..
    · exact hh
  have ⟨hr, hreached⟩ := (hr.mono (Nat.sub_le_sub_right hle 1)).announcePolicies h hhistory nofun
  refine ⟨hr.deliver h (fun r hr' hlt => ?_) hpos ha hrev, hhistory⟩
  exact hreached r (mem_refreshed h hh ha hrev hr' hlt) (Nat.le_sub_one_of_lt hlt)

theorem Inv.step (hc : Inv env c) (e : Step env c c') : Inv env c' := by
  have hphase := hc.phase
  induction e with
  | adopt => exact ⟨hc.logged, hphase⟩
  | read cold rows hw hrows hle =>
    rw [hw] at hphase
    exact ⟨hc.logged, hphase, nil_prefix, hrows, hle⟩
  | skip hw hlt =>
    rw [hw] at hphase
    refine ⟨hc.logged, ?_⟩
    dsimp only
    rw [hw]
    exact hphase.mono (by omega)
  | row hd ha hrow =>
    rw [hd] at hphase
    have ⟨hr, hh, hrows, hle⟩ := hphase
    have ⟨hlt, hrows⟩ := pairwise_cons.mp hrows
    have ⟨⟨hpos, hle⟩, hge⟩ := forall_mem_cons.mp hle
    have ⟨hr, hh⟩ := hr.processSelectedRow h hh hpos hle ha hrow
    exact ⟨hr.logged, hr, hh, hrows, fun row hrow => ⟨(hge row hrow).left, hlt row hrow⟩⟩
  | stop hd =>
    rw [hd] at hphase
    exact ⟨hc.logged, hphase.left⟩
  | @announceIdlePolicies c hw =>
    rw [hw] at hphase
    have hh : [] ++ c.policyHistory env <+: env.disk.history := take_prefix ..
    have ⟨hr, _⟩ := hphase.announcePolicies h hh nofun
    refine ⟨hr.logged, ?_⟩
    dsimp only
    rw [hw]
    exact hr
  | close e hs ih =>
    exact ⟨fun f before hf => (ih hc hphase).logged f before (hf.trans hs), trivial⟩

theorem Inv.of_reachable (hc : (system env).Reachable c) : Inv env c := by
  refine hc.invariant (fun c ⟨hpos, hwire, hphase⟩ => ?_) fun _ _ _ => .step h
  have hready : Ready env (c.cursor - 1) c.wire := by
    rw [hwire]
    refine ⟨fun f before hf => by simp at hf, fun r => ?_, fun r hr hle => ?_⟩
    · simpa using fun hr => (hpos r hr).ne'
    · exact absurd hle (hpos r hr).not_ge
  exact ⟨hready.logged, by rwa [hphase]⟩

end

theorem announcements_ordered [DecidableEq Pds] [DecidableEq Collections]
    (he : (Adoption.system Pds Collections).Reachable env) (h : (system env).Reachable c) :
    ∀ f before, f :: before <:+ c.wire.sent → Follows env before f :=
  (Inv.of_reachable (.of_reachable he) h).logged

def sampleConn : Conn Bool where
  adopted := 2
  cursor := 1
  history := sampleState.disk.history
  wire := ⟨2, [.event 2 (some 2), .policy ⟨⟨2, true⟩, some 1⟩, .event 1 (some 1),
    .policy ⟨⟨1, false⟩, none⟩]⟩
  phase := .delivering true [] 3

theorem sampleConn_reachable : (system sampleState).Reachable sampleConn := by
  have h₀ : (system sampleState).Reachable ⟨1, 1, [], ⟨0, []⟩, .waiting⟩ :=
    .init ⟨by decide, rfl, rfl⟩
  have h₁ := h₀.step (.read true [⟨1, true, true⟩, ⟨2, true, true⟩] rfl (by decide) (by decide))
  have h₂ := h₁.step (.row rfl ⟨by rintro k ⟨⟩; decide, nofun⟩ rfl)
  have h₃ := h₂.step (.adopt 2 (by decide))
  have h₄ := h₃.step (.row rfl ⟨by rintro k ⟨⟩; decide, nofun⟩ rfl)
  exact h₄

theorem announcements_ordered_sample :
    Follows sampleState sampleConn.wire.sent.tail (.event 2 (some 2)) :=
  announcements_ordered sampleState_reachable sampleConn_reachable _ _ (suffix_refl _)

end Jetstream.Subscribe.Selected
