import HypercertsRelay.Library.System

-- The client that replays the archive page by page and then follows the live tail.
namespace Jetstream.Client

open List

-- `wants` is the filter on kind, account and collection of the row with the seq.
structure Request where
  afterSeq : ℕ
  beforeSeq : Option ℕ
  wants : ℕ → Bool

inductive Phase where
  -- A sweep from `start`, with the tip of its first page.
  | sweep (start cursor : ℕ) (tip : Option ℕ)
  -- The tail: the dedup floor, and the next seq the server looks at.
  | live (lastSeq next : ℕ)

-- A block or segment as it was downloaded: the rows that decode, and whether an error comes with
-- them.
structure Result where
  rows : List ℕ
  failed : Bool

-- The rows that match are emitted before the error, which is `none`.
def Result.items (wants : ℕ → Bool) (res : Result) : List (Option ℕ) :=
  (res.rows.filter wants).map some ++ if res.failed then [none] else []

open Result (items rows)

structure State where
  -- The server: the rows it has, and the last seq it has given out.
  rows : List ℕ
  last : ℕ
  -- What is still to be emitted of the last page. The phase is the one after it.
  pending : List (Option ℕ)
  phase : Phase
  afterSeq : ℕ
  -- What was handed to the consumer, and the batch that is being filled.
  handed : List (Option ℕ)
  buffered : List ℕ

def State.flush (s : State) : State :=
  { s with handed := s.handed ++ s.buffered.map some, buffered := [] }

-- With a sink for whole payloads, archive rows do not go through the batch.
def State.emit (direct : Bool) (s : State) : Option ℕ → State
  | none => { s.flush with handed := s.flush.handed ++ [none] }
  | some r =>
    if direct then { s with handed := s.handed ++ [some r] }
    else { s with buffered := s.buffered ++ [r] }

variable (req : Request)

def wantsSeq (afterSeq seq : ℕ) : Bool :=
  !(0 < afterSeq && seq ≤ afterSeq) && !req.beforeSeq.any (· < seq)

def matcherWants (s : State) (seq : ℕ) : Bool :=
  wantsSeq req s.afterSeq seq && req.wants seq

def nextPhase (start tip planned : ℕ) : Phase :=
  if tip ≤ planned then .live (max tip start) (max tip start)
  else .sweep start planned (some tip)

-- The server has planned all matching rows, and the download has them in order: a row that is left
-- out is one of a failed result. With `exact`, no work unit has matching rows outside the page, and
-- none has both matching rows and an error.
structure Served (exact : Bool) (s : State) (cursor tip planned : ℕ) (results : List Result) :
    Prop where
  sorted : (results.flatMap rows).Pairwise (· < ·)
  known : ∀ r ∈ results.flatMap rows, 0 < r ∧ r ≤ s.last
  sealed : tip ≤ s.last
  through : planned ≤ tip
  covers : ∀ r ∈ s.rows, req.wants r → cursor < r → r ≤ planned →
    r ∈ results.flatMap rows ∨ ∃ pre res post, results = pre ++ res :: post ∧
      res.failed ∧ ∀ r' ∈ pre.flatMap rows, r' < r
  within : exact = true → ∀ r ∈ results.flatMap rows, matcherWants req s r →
    cursor < r ∧ r ≤ planned
  whole : exact = true → ∀ res ∈ results, res.failed → res.rows.filter (matcherWants req s) = []

inductive Step (direct exact : Bool) : State → State → Prop where
  | publish : Step direct exact s { s with
      rows := s.rows ++ [s.last + 1], last := s.last + 1 }
  | compact (r : ℕ) : Step direct exact s { s with rows := s.rows.erase r }
  -- A page after which the sweep makes no progress is fatal.
  | page {start cursor pin} (tip planned : ℕ)
    (results : List Result) : s.pending = [] → s.phase = .sweep start cursor pin →
    (∀ p, pin = some p → tip = p) → Served req exact s cursor tip planned results →
    cursor < planned ∨ tip ≤ planned →
    Step direct exact s { s with
      pending := results.flatMap (items (matcherWants req s))
      phase := nextPhase start tip planned }
  | emit {item rest} : s.pending = item :: rest →
    Step direct exact s { s.emit direct item with pending := rest }
  -- The server sends the rows from the cursor on in their order, and may send others between.
  | frame {lastSeq next} (seq : ℕ) : s.pending = [] →
    s.phase = .live lastSeq next → seq ∈ s.rows → next ≤ seq →
    (∀ r ∈ s.rows, req.wants r → next ≤ r → seq ≤ r) →
    Step direct exact s (if seq ≤ lastSeq then { s with phase := .live lastSeq (seq + 1) } else
      { s with
        phase := .live seq (seq + 1)
        buffered := s.buffered ++ [seq].filter (matcherWants req s) })
  | badFrame {lastSeq next} (next' : ℕ) : s.pending = [] →
    s.phase = .live lastSeq next →
    Step direct exact s { s.emit direct none with phase := .live lastSeq next' }
  | reconnect {lastSeq next} : s.pending = [] → s.phase = .live lastSeq next →
    Step direct exact s { s with phase := .live lastSeq lastSeq }
  | cursorTooOld {lastSeq next} : s.pending = [] → s.phase = .live lastSeq next →
    Step direct exact s { s.flush with
      phase := .sweep lastSeq lastSeq none, afterSeq := lastSeq }
  | flush : Step direct exact s s.flush

def system (direct exact : Bool) : System State where
  init s := s.pending = [] ∧ s.phase = .sweep req.afterSeq req.afterSeq none ∧
    s.afterSeq = req.afterSeq ∧ s.handed = [] ∧ s.buffered = [] ∧ ∀ r ∈ s.rows, 0 < r ∧ r ≤ s.last
  step := Step req direct exact

def Asked (r : ℕ) : Prop :=
  req.afterSeq < r ∧ (∀ b ∈ req.beforeSeq, r ≤ b) ∧ req.wants r = true

-- Everything asked for up to here is in the stream.
def Phase.through : Phase → ℕ
  | .sweep _ cursor _ => cursor
  | .live lastSeq _ => lastSeq

def Phase.Ok (failed : Prop) : Phase → Prop
  | .sweep start cursor tip => start ≤ cursor ∧ (tip = none → cursor = start) ∧
    ∀ t, tip = some t → cursor ≤ t
  | .live lastSeq next => failed ∨ next ≤ lastSeq + 1

-- All that the consumer gets, up to what is still to be emitted.
def State.stream (s : State) : List (Option ℕ) :=
  s.handed ++ s.buffered.map some ++ s.pending

-- The row is there, or an error comes before all larger ones.
def Told (stream : List (Option ℕ)) (r : ℕ) : Prop :=
  some r ∈ stream ∨ ∃ pre post, stream = pre ++ none :: post ∧ ∀ r', some r' ∈ pre → r' < r

structure Inv (direct : Bool) (s : State) : Prop where
  sorted : s.stream.reduceOption.Pairwise (· < ·)
  mem : ∀ r, some r ∈ s.stream → r ≤ s.phase.through ∧ Asked req r
  told : ∀ r ∈ s.rows, Asked req r → r ≤ s.phase.through → Told s.stream r
  floor : req.afterSeq ≤ s.afterSeq ∧ s.afterSeq ≤ s.phase.through
  rows : ∀ r ∈ s.rows, 0 < r ∧ r ≤ s.last
  through : s.phase.through ≤ max s.last req.afterSeq
  phase : s.phase.Ok (none ∈ s.stream)
  empty : direct = true → s.buffered = [] ∨
    s.pending = [] ∧ ∃ lastSeq next, s.phase = .live lastSeq next

variable {req}

theorem matcherWants_iff : matcherWants req s r ↔
    (s.afterSeq = 0 ∨ s.afterSeq < r) ∧ (∀ b ∈ req.beforeSeq, r ≤ b) ∧ req.wants r = true := by
  have hbefore : (!req.beforeSeq.any (· < r)) = true ↔ ∀ b ∈ req.beforeSeq, r ≤ b := by
    cases req.beforeSeq <;> simp
  have hafter : (!(0 < s.afterSeq && r ≤ s.afterSeq)) = true ↔ s.afterSeq = 0 ∨ s.afterSeq < r := by
    simp only [Bool.not_eq_true', Bool.and_eq_false_iff, decide_eq_false_iff_not]
    omega
  rw [matcherWants, wantsSeq, Bool.and_eq_true, Bool.and_eq_true, hafter, hbefore, and_assoc]

theorem reduceOption_map_some (rows : List ℕ) : (rows.map some).reduceOption = rows := by
  simp [reduceOption]

theorem reduceOption_items (wants : ℕ → Bool) (results : List Result) :
    (results.flatMap (items wants)).reduceOption = (results.flatMap rows).filter wants := by
  induction results with
  | nil => rfl
  | cons res results ih =>
    rw [flatMap_cons, flatMap_cons, reduceOption_append, ih, filter_append, items,
      reduceOption_append, reduceOption_map_some]
    cases res.failed <;> simp

theorem Told.append (h : Told stream r) (new : List (Option ℕ)) : Told (stream ++ new) r := by
  obtain h | ⟨pre, post, rfl, hpre⟩ := h
  · exact .inl (mem_append_left _ h)
  · exact .inr ⟨pre, post ++ new, by simp, hpre⟩

theorem Told.before (h : Told stream r) (hs : stream.reduceOption.Pairwise (· < ·)) (hlt : r < r')
    (heq : stream = pre ++ some r' :: post) : some r ∈ pre ∨ none ∈ pre := by
  subst heq
  obtain hr | ⟨pre', post', heq, hpre⟩ := h
  · rw [reduceOption_append, reduceOption_cons_of_some, pairwise_append, pairwise_cons] at hs
    obtain hr | hr | hr := by simpa only [mem_append, mem_cons, Option.some.injEq] using hr
    · exact .inl hr
    · exact absurd hlt (hr ▸ lt_irrefl _)
    · exact absurd hlt (hs.right.left.left r (reduceOption_mem_iff.mpr hr)).not_gt
  · obtain ⟨l, rfl, hl⟩ | ⟨l, rfl, hl⟩ := append_eq_append_iff.mp heq
    · cases l with
      | nil => cases hl
      | cons item l =>
        cases hl
        exact absurd hlt (hpre r' (by simp)).not_gt
    · cases l with
      | nil => cases hl
      | cons item l =>
        cases hl
        exact .inr (by simp)

namespace Inv

section

variable (h : Inv req direct s)

include h

theorem asked_of_wants (hpos : 0 < r) (hw : matcherWants req s r) : Asked req r := by
  have ⟨hafter, hrest⟩ := matcherWants_iff.mp hw
  refine ⟨?_, hrest⟩
  have := h.floor.left
  omega

theorem wants_of_asked (ha : Asked req r) (hlt : s.phase.through < r) : matcherWants req s r := by
  refine matcherWants_iff.mpr ⟨.inr ?_, ha.right⟩
  have := h.floor.right
  omega

theorem deliver {s' : State} (hout : s'.stream = s.stream ++ new)
    (hs : new.reduceOption.Pairwise (· < ·))
    (hnew : ∀ r ∈ new.reduceOption, s.phase.through < r ∧ r ≤ s'.phase.through ∧ Asked req r)
    (hle : s.phase.through ≤ s'.phase.through) : s'.stream.reduceOption.Pairwise (· < ·) ∧
      ∀ r, some r ∈ s'.stream → r ≤ s'.phase.through ∧ Asked req r := by
  have hmem : ∀ r ∈ s.stream.reduceOption, r ≤ s.phase.through ∧ Asked req r :=
    fun r hr => h.mem r (reduceOption_mem_iff.mp hr)
  rw [hout, reduceOption_append]
  refine ⟨pairwise_append.mpr ⟨h.sorted, hs, fun a ha b hb => ?_⟩, fun r hr => ?_⟩
  · exact (hmem a ha).left.trans_lt (hnew b hb).left
  · obtain hr | hr := mem_append.mp hr
    · exact ⟨(h.mem r hr).left.trans hle, (h.mem r hr).right⟩
    · exact (hnew r (reduceOption_mem_iff.mpr hr)).right

-- A row that is left out from a page comes after all rows before the error.
theorem told_page (hd : Served req true s cursor tip planned results)
    (hold : s.phase.through = cursor) (hr : r ∈ s.rows) (ha : Asked req r) (hlt : cursor < r)
    (hle : r ≤ planned) :
    Told (s.stream ++ results.flatMap (items (matcherWants req s))) r := by
  obtain hin | ⟨pre, res, post, rfl, hfailed, hpre⟩ := hd.covers r hr ha.right.right hlt hle
  · refine .inl (mem_append_right _ (reduceOption_mem_iff.mp ?_))
    rw [reduceOption_items]
    exact mem_filter.mpr ⟨hin, h.wants_of_asked ha (hold ▸ hlt)⟩
  refine .inr ⟨s.stream ++ pre.flatMap (items (matcherWants req s)),
    post.flatMap (items (matcherWants req s)), ?_, fun r' hr' => ?_⟩
  · simp [items, hfailed, hd.whole rfl res]
  · obtain hr' | hr' := mem_append.mp hr'
    · exact (hold ▸ (h.mem r' hr').left).trans_lt hlt
    · rw [←reduceOption_mem_iff, reduceOption_items] at hr'
      exact hpre r' (mem_of_mem_filter hr')

theorem page (hpend : s.pending = []) (hp : s.phase = .sweep start cursor pin)
    (hpin : ∀ p, pin = some p → tip = p) (hd : Served req true s cursor tip planned results)
    (hprog : cursor < planned ∨ tip ≤ planned) : Inv req direct { s with
      pending := results.flatMap (items (matcherWants req s))
      phase := nextPhase start tip planned } := by
  have hphase := h.phase
  have hfloor := h.floor
  have hthrough := h.through
  rw [hp] at hphase hfloor hthrough
  have ⟨hstart, hfirst, hlater⟩ := hphase
  have hcur : cursor ≤ max tip start := by
    cases pin with
    | none => exact (hfirst rfl).le.trans (le_max_right ..)
    | some p => exact (hlater p rfl).trans ((hpin p rfl).ge.trans (le_max_left ..))
  have hnext : cursor ≤ (nextPhase start tip planned).through ∧
      planned ≤ (nextPhase start tip planned).through ∧
      (nextPhase start tip planned).through ≤ max s.last req.afterSeq ∧
      (nextPhase start tip planned).through ≤ max planned cursor := by
    have hs := hd.sealed
    have ht := hd.through
    simp only [Phase.through] at hthrough
    by_cases hle : tip ≤ planned
    · simp only [nextPhase, hle, if_true, Phase.through]
      omega
    · simp only [nextPhase, hle, if_false, Phase.through]
      omega
  have ⟨hle, hplanned, hlast, hmax⟩ := hnext
  have hold : s.phase.through = cursor := by rw [hp, Phase.through]
  have hout : State.stream { s with
      pending := results.flatMap (items (matcherWants req s))
      phase := nextPhase start tip planned } =
      s.stream ++ results.flatMap (items (matcherWants req s)) := by
    simp [State.stream, hpend]
  have ⟨hsort, hmem⟩ := h.deliver hout (reduceOption_items .. ▸ hd.sorted.filter _) (fun r hr => by
      rw [reduceOption_items] at hr
      have ⟨hr, hw⟩ := mem_filter.mp hr
      have ⟨hlt, hrp⟩ := hd.within rfl r hr hw
      exact ⟨hold ▸ hlt, hrp.trans hplanned, h.asked_of_wants (hd.known r hr).left hw⟩)
    (hold ▸ hle)
  refine ⟨hsort, hmem, fun r hr ha hthr => ?_, ⟨hfloor.left, hfloor.right.trans hle⟩, h.rows,
    hlast, ?_, fun hdir => .inl ?_⟩
  · rw [hout]
    by_cases hcr : r ≤ cursor
    · exact (h.told r hr ha (hold ▸ hcr)).append _
    · have hcr : cursor < r := not_le.mp hcr
      exact h.told_page hd hold hr ha hcr
        ((le_max_iff.mp (hthr.trans hmax)).resolve_right hcr.not_ge)
  · by_cases htip : tip ≤ planned
    · simp only [nextPhase, htip, if_true, Phase.Ok]
      exact .inr (Nat.le_succ _)
    · simp only [nextPhase, htip, if_false, Phase.Ok]
      exact ⟨hstart.trans (hprog.resolve_right htip).le, nofun,
        fun t ht => Option.some.inj ht ▸ hd.through⟩
  · refine (h.empty hdir).resolve_right ?_
    rintro ⟨_, _, _, hp'⟩
    cases hp.symm.trans hp'

-- What is emitted or flushed only moves on.
theorem move (hout : s'.stream = s.stream) (hrows : s'.rows = s.rows) (hlast : s'.last = s.last)
    (hphase : s'.phase = s.phase) (hafter : s'.afterSeq = s.afterSeq)
    (hempty : direct = true → s'.buffered = []) : Inv req direct s' where
  sorted := hout ▸ h.sorted
  mem := hout ▸ hphase ▸ h.mem
  told := hout ▸ hphase ▸ hrows ▸ h.told
  floor := hphase ▸ hafter ▸ h.floor
  rows := hrows ▸ hlast ▸ h.rows
  through := hphase ▸ hlast ▸ h.through
  phase := hphase ▸ hout ▸ h.phase
  empty := fun hdir => .inl (hempty hdir)

theorem emit (hpend : s.pending = item :: rest) :
    Inv req direct { s.emit direct item with pending := rest } := by
  have hbuf (hdir : direct = true) : s.buffered = [] := by
    refine (h.empty hdir).resolve_right fun hlive => ?_
    cases hpend.symm.trans hlive.left
  cases item with
  | none =>
    exact h.move (by simp [State.stream, State.emit, State.flush, hpend]) rfl rfl rfl rfl
      fun _ => rfl
  | some r =>
    cases direct with
    | true =>
      exact h.move (by simp [State.stream, State.emit, hpend, hbuf]) rfl rfl rfl rfl hbuf
    | false => exact h.move (by simp [State.stream, State.emit, hpend]) rfl rfl rfl rfl nofun

theorem publish : Inv req direct { s with
    rows := s.rows ++ [s.last + 1], last := s.last + 1 } := by
  refine { h with
    told := fun r hr ha hthr => ?_, rows := fun r hr => ?_
    through := h.through.trans (max_le_max_right _ (Nat.le_succ _)) }
  · obtain hr | hr := mem_append.mp hr
    · exact h.told r hr ha hthr
    -- A cursor the request came with may be ahead of the server.
    have hle := hthr.trans h.through
    have hafter := ha.left
    rw [mem_singleton.mp hr] at hle hafter
    omega
  · obtain hr | hr := mem_append.mp hr
    · have ⟨hpos, hle⟩ := h.rows r hr
      exact ⟨hpos, hle.trans (Nat.le_succ _)⟩
    · rw [mem_singleton.mp hr]
      exact ⟨Nat.succ_pos _, le_rfl⟩

theorem compact (r : ℕ) : Inv req direct { s with rows := s.rows.erase r } :=
  { h with
    told := fun r' hr => h.told r' (mem_of_mem_erase hr)
    rows := fun r' hr => h.rows r' (mem_of_mem_erase hr) }

section

variable {next : ℕ} (hpend : s.pending = []) (hp : s.phase = .live lastSeq next)

include hpend hp

theorem frame (hseq : seq ∈ s.rows) (hcov : ∀ r ∈ s.rows, req.wants r → next ≤ r → seq ≤ r)
    (hgt : lastSeq < seq) : Inv req direct { s with
      phase := .live seq (seq + 1)
      buffered := s.buffered ++ [seq].filter (matcherWants req s) } := by
  have hold : s.phase.through = lastSeq := by rw [hp, Phase.through]
  have hphase := h.phase
  rw [hp] at hphase
  have ⟨hpos, hlast⟩ := h.rows seq hseq
  have hout : State.stream { s with
      phase := .live seq (seq + 1)
      buffered := s.buffered ++ [seq].filter (matcherWants req s) } =
      s.stream ++ ([seq].filter (matcherWants req s)).map some := by
    simp [State.stream, hpend]
  have ⟨hsort, hmem⟩ := h.deliver hout
    (reduceOption_map_some _ ▸ (pairwise_singleton (· < ·) seq).filter _)
    (fun r hr => by
      rw [reduceOption_map_some] at hr
      have ⟨hr, hw⟩ := mem_filter.mp hr
      obtain rfl := mem_singleton.mp hr
      exact ⟨hold ▸ hgt, le_rfl, h.asked_of_wants hpos hw⟩)
    (hold ▸ hgt.le)
  refine ⟨hsort, hmem, fun r hr ha hthr => ?_, ?_, h.rows, hlast.trans (le_max_left ..),
    .inr le_rfl, fun _ => .inr ⟨hpend, _, _, rfl⟩⟩
  · rw [hout]
    by_cases hle : r ≤ lastSeq
    · exact (h.told r hr ha (hold ▸ hle)).append _
    have hlt : lastSeq < r := not_le.mp hle
    obtain hfailed | hnext := hphase
    · -- The error stands for what was not sent.
      obtain ⟨pre, post, heq⟩ := append_of_mem hfailed
      refine Told.append (.inr ⟨pre, post, heq, fun r' hr' => ?_⟩) _
      have hr' := (h.mem r' (heq ▸ mem_append_left _ hr')).left
      exact (hold ▸ hr').trans_lt hlt
    · have hge := hcov r hr ha.right.right (hnext.trans hlt)
      obtain rfl : r = seq := le_antisymm hthr hge
      simp [Told, h.wants_of_asked ha (hold ▸ hlt)]
  · exact ⟨h.floor.left, h.floor.right.trans (hold ▸ hgt.le)⟩

theorem live (next' : ℕ) (hn : none ∈ s.stream ∨ next' ≤ lastSeq + 1) :
    Inv req direct { s with phase := .live lastSeq next' } := by
  have ht : s.phase.through = lastSeq := by rw [hp, Phase.through]
  exact { h with
    mem := ht ▸ h.mem, told := ht ▸ h.told, floor := ht ▸ h.floor, through := ht ▸ h.through
    phase := hn, empty := fun _ => .inr ⟨hpend, _, _, rfl⟩ }

theorem badFrame (next' : ℕ) :
    Inv req direct { s.emit direct none with phase := .live lastSeq next' } := by
  have ht : s.phase.through = lastSeq := by rw [hp, Phase.through]
  have hout : State.stream { s.emit direct none with phase := .live lastSeq next' } =
      s.stream ++ [none] := by
    simp [State.stream, State.emit, State.flush, hpend]
  have ⟨hsort, hmem⟩ := h.deliver hout .nil nofun ht.le
  exact ⟨hsort, hmem, fun r hr ha hthr => hout ▸ (h.told r hr ha (ht ▸ hthr)).append _,
    ht ▸ h.floor, h.rows, ht ▸ h.through, .inl (hout ▸ by simp), fun _ => .inl rfl⟩

omit hpend in
theorem cursorTooOld : Inv req direct { s.flush with
    phase := .sweep lastSeq lastSeq none, afterSeq := lastSeq } := by
  have ht : s.phase.through = lastSeq := by rw [hp, Phase.through]
  have hout : State.stream { s.flush with
      phase := .sweep lastSeq lastSeq none, afterSeq := lastSeq } = s.stream := by
    simp [State.stream, State.flush]
  exact ⟨hout ▸ h.sorted, hout ▸ ht ▸ h.mem, hout ▸ ht ▸ h.told,
    ⟨h.floor.left.trans (ht ▸ h.floor.right), le_rfl⟩, h.rows, ht ▸ h.through,
    ⟨le_rfl, fun _ => rfl, nofun⟩, fun _ => .inl rfl⟩

end

theorem step (e : Step req direct true s s') : Inv req direct s' := by
  cases e with
  | publish => exact h.publish
  | compact r => exact h.compact r
  | page tip planned results hpend hp hpin hd hprog => exact h.page hpend hp hpin hd hprog
  | emit hpend => exact h.emit hpend
  | @frame lastSeq next seq hpend hp hseq hnext hcov =>
    by_cases hle : seq ≤ lastSeq
    · rw [if_pos hle]
      exact h.live hpend hp _ (.inr (Nat.succ_le_succ hle))
    · rw [if_neg hle]
      exact h.frame hpend hp hseq hcov (not_le.mp hle)
  | badFrame next' hpend hp => exact h.badFrame hpend hp next'
  | reconnect hpend hp => exact h.live hpend hp _ (.inr (Nat.le_succ _))
  | cursorTooOld hpend hp => exact h.cursorTooOld hp
  | flush => exact h.move (by simp [State.stream, State.flush]) rfl rfl rfl rfl fun _ => rfl

end

end Inv

theorem resumed_replay_exact (h : (system req direct true).Reachable s) :
    s.handed.reduceOption.Pairwise (· < ·) ∧ (∀ r, some r ∈ s.handed → Asked req r) ∧
      ∀ r ∈ s.rows, Asked req r → ∀ pre r' post, s.handed = pre ++ some r' :: post → r < r' →
        some r ∈ pre ∨ none ∈ pre := by
  suffices hinv : Inv req direct s by
    have hhanded : s.handed <+: s.stream := by simp [State.stream]
    refine ⟨hinv.sorted.sublist (hhanded.sublist.filterMap _),
      fun r hr => (hinv.mem r (hhanded.subset hr)).right, fun r hr ha pre r' post heq hlt => ?_⟩
    obtain ⟨rest, hrest⟩ := hhanded
    rw [heq, append_assoc] at hrest
    have hmem : some r' ∈ s.stream := hrest ▸ by simp
    have htold := hinv.told r hr ha (hlt.le.trans (hinv.mem r' hmem).left)
    exact htold.before hinv.sorted hlt hrest.symm
  refine h.invariant (P := Inv req direct) (fun s hi => ?_) fun s s' _ hinv e => hinv.step e
  have ⟨hpend, hp, ha, hh, hb, hr⟩ := hi
  have hout : s.stream = [] := by rw [State.stream, hpend, hh, hb]; rfl
  refine ⟨hout ▸ .nil, hout ▸ nofun, fun r _ hask hthr => ?_, ?_, hr, ?_, ?_, fun _ => .inl hb⟩
  · rw [hp] at hthr
    exact absurd hask.left (Nat.not_lt.mpr hthr)
  · rw [hp, ha]
    exact ⟨le_rfl, le_rfl⟩
  · rw [hp]
    exact le_max_right ..
  · rw [hp]
    exact ⟨le_rfl, fun _ => rfl, nofun⟩

section Sample

def sampleRequest : Request :=
  ⟨0, none, fun _ => true⟩

def sampleStart : State :=
  ⟨[1, 2, 3], 3, [], .sweep 0 0 none, 0, [], []⟩

theorem sampleStart_init (direct exact : Bool) :
    (system sampleRequest direct exact).init sampleStart :=
  ⟨rfl, rfl, rfl, rfl, rfl, by decide⟩

theorem sample_first : ∀ r ∈ [1, 2, 3], 0 < r → r ≤ 2 → r ∈ [1, 2] := by decide

theorem sample_second : ∀ r ∈ [1, 2, 3], 2 < r → r ≤ 3 → r ∈ [3] := by decide

-- Two pages, and a row from the tail, which sends the last row of the archive once more.
theorem resumed_replay_exact_sample : ∃ s, (system sampleRequest true true).Reachable s ∧
    s.handed = [some 1, some 2, some 3, some 4] ∧ s.handed.reduceOption.Pairwise (· < ·) := by
  have h := System.Reachable.step (.init (sampleStart_init true true))
    (.page 3 2 [⟨[1], false⟩, ⟨[2], false⟩] rfl rfl nofun ⟨by decide, by decide, by decide,
      by decide, fun r hr _ hlt hle => .inl (sample_first r hr hlt hle), by decide, by decide⟩
      (.inl (by decide)))
  have h := (h.step (.emit rfl)).step (.emit rfl)
  have h := h.step (.page 3 3 [⟨[3], false⟩] rfl rfl (fun _ h => Option.some.inj h)
    ⟨by decide, by decide, by decide, by decide,
      fun r hr _ hlt hle => .inl (sample_second r hr hlt hle), by decide, by decide⟩
      (.inl (by decide)))
  have h := (h.step (.emit rfl)).step .publish
  have h := h.step (.frame 3 rfl rfl (by decide) (by decide) (by decide))
  have h := h.step (.frame 4 rfl rfl (by decide) (by decide) (by decide))
  have h := h.step .flush
  exact ⟨_, h, by decide, (resumed_replay_exact h).left⟩

-- The second page brings the whole segment, with the rows of the first page in it.
theorem replay_twice : ∃ s, (system sampleRequest true false).Reachable s ∧
    s.handed.reduceOption = [1, 2, 1, 2, 3] ∧ ¬s.handed.reduceOption.Pairwise (· < ·) := by
  have h := System.Reachable.step (.init (sampleStart_init true false))
    (.page 3 2 [⟨[1, 2], false⟩] rfl rfl nofun ⟨by decide, by decide, by decide, by decide,
      fun r hr _ hlt hle => .inl (sample_first r hr hlt hle), nofun, nofun⟩ (.inl (by decide)))
  have h := (h.step (.emit rfl)).step (.emit rfl)
  have h := h.step (.page 3 3 [⟨[1, 2, 3], false⟩] rfl rfl (fun _ h => Option.some.inj h)
    ⟨by decide, by decide, by decide, by decide, fun r hr _ _ _ => .inl hr, nofun, nofun⟩
    (.inl (by decide)))
  have h := ((h.step (.emit rfl)).step (.emit rfl)).step (.emit rfl)
  exact ⟨_, h, by decide, by decide⟩

end Sample

end Jetstream.Client
