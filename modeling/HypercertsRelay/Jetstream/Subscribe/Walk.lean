import HypercertsRelay.Library.Sweep
import HypercertsRelay.Jetstream.Segment

-- What one cold read does with the rows of a sealed segment and with those of the active segment.
namespace Jetstream.Subscribe

open List

-- The position of a walk, and the rows it has emitted.
structure Walk where
  current : ℕ
  batch : List Event
  deriving DecidableEq, Repr

-- A loop over rows goes through all of them, stops early, or is stopped by the batch being full.
inductive Walked
  | more (w : Walk)
  | halt (w : Walk)
  | full (w : Walk)
  deriving DecidableEq, Repr

namespace Walk

def push (w : Walk) (ev : Event) : Walk where
  current := ev.seq + 1
  batch := w.batch ++ [ev]

section

variable (stop max : ℕ)

def emit (w : Walk) (ev : Event) : Walked :=
  if stop ≤ ev.seq then .full w
  else if max ≤ (w.push ev).batch.length then .full (w.push ev)
  else .more (w.push ev)

def walkRows : List Event → Walk → Walked
  | [], w => .more w
  | ev :: evs, w =>
    if ev.seq < w.current then walkRows evs w
    else if stop ≤ ev.seq then .halt w
    else match w.emit stop max ev with
      | .more w => walkRows evs w
      | r => r

-- The bounds come from the manifest, the rows from the file.
def walkSealedSegment : List (BlockInfo × List Event) → Walk → Walked
  | [], w => .more w
  | (info, evs) :: bs, w =>
    if stop ≤ w.current then .halt w
    else if info.maxSeq < w.current then walkSealedSegment bs w
    else match walkRows stop max evs w with
      | .more w => walkSealedSegment bs w
      | r => r

-- A hole stops the walk where it is.
def walkActiveRange : List Event → Walk → Walked
  | [], w => .more w
  | ev :: evs, w =>
    if ev.seq < w.current then walkActiveRange evs w
    else if stop ≤ w.current then .halt w
    else if stop ≤ ev.seq then .halt w
    else if w.current < ev.seq then .halt w
    else match w.emit stop max ev with
      | .more w => walkActiveRange evs w
      | r => r

end

section

variable {F H : Set Event} {lo hi stop max : ℕ}

-- A walk from `lo` that has lost no row of `F`. Some of what it emitted may have been dropped
-- since.
structure Collected (F H : Set Event) (lo stop : ℕ) (w : Walk) : Prop where
  le : lo ≤ w.current
  swept : Swept Event.seq F lo (min w.current stop) w.batch
  known : ∀ ev ∈ w.batch, ev ∈ H

theorem Collected.start (hle : lo ≤ stop) : Collected F H lo stop ⟨lo, []⟩ where
  le := le_rfl
  swept := by
    simp only [min_eq_left hle]
    exact .nil _ _ _
  known := by simp

section

variable (h : Collected F H lo stop w)

include h

theorem Collected.mono
    (hF : ∀ ev ∈ F', ev.seq < stop → ev ∈ F) (hH : H ⊆ H') : Collected F' H' lo stop w where
  le := h.le
  swept := h.swept.mono fun ev hev _ hlt => hF ev hev (hlt.trans_le (min_le_right _ _))
  known := fun ev hev => hH (h.known ev hev)

theorem Collected.advance (hn : w.current ≤ n)
    (hF : ∀ ev ∈ F, w.current ≤ ev.seq → ev.seq < n → stop ≤ ev.seq) :
    Collected F H lo stop { w with current := n } where
  le := h.le.trans hn
  known := h.known
  swept := by
    have hm : min w.current stop ≤ min n stop := by omega
    refine h.swept.advance hm fun ev hev hle => ?_
    have hF := hF ev hev
    show min n stop ≤ ev.seq
    omega

theorem Collected.push (hlt : ev.seq < stop)
    (hle : w.current ≤ ev.seq) (hev : ev ∈ H) (hu : ∀ b ∈ F, b.seq = ev.seq → b = ev)
    (hF : ∀ b ∈ F, w.current ≤ b.seq → ev.seq ≤ b.seq) : Collected F H lo stop (w.push ev) where
  le := h.le.trans (hle.trans (Nat.le_succ _))
  swept := by
    have hw : w.current < stop := hle.trans_lt hlt
    have hs := h.swept
    simp only [Walk.push, Nat.min_eq_left hlt]
    rw [Nat.min_eq_left hw.le] at hs
    exact (hs.advance hle hF).append (.singleton hu) (h.le.trans hle) (Nat.le_succ _)
  known b hb := by
    obtain hb | hb := mem_append.mp hb
    · exact h.known b hb
    · exact mem_singleton.mp hb ▸ hev

end

-- The rows in front of a walk, up to the bound of what is being read.
structure Ahead (F : Set Event) (hi : ℕ) (w : Walk) (rows : List Event) : Prop where
  mem : ∀ ev ∈ rows, ev ∈ F ∧ ev.seq ≤ hi
  ascending : rows.Pairwise (·.seq < ·.seq)
  cover : ∀ ev ∈ F, w.current ≤ ev.seq → ev.seq ≤ hi → ev ∈ rows

theorem Ahead.skip (h : Ahead F hi w (ev :: rows)) (hlt : ev.seq < w.current) :
    Ahead F hi w rows where
  mem := fun b hb => h.mem b (.tail _ hb)
  ascending := h.ascending.of_cons
  cover b hb hle hhi := by
    cases h.cover b hb hle hhi with
    | head => omega
    | tail _ hb => exact hb

theorem Ahead.skip_all (h : Ahead F hi w (evs ++ rows))
    (hlt : ∀ ev ∈ evs, ev.seq < w.current) : Ahead F hi w rows := by
  induction evs with
  | nil => exact h
  | cons ev evs ih =>
    have ⟨hev, hlt⟩ := forall_mem_cons.mp hlt
    exact ih (h.skip hev) hlt

theorem Ahead.least (h : Ahead F hi w (ev :: rows)) (b : Event) (hb : b ∈ F)
    (hle : w.current ≤ b.seq) : ev.seq ≤ b.seq := by
  have hev := (h.mem ev (.head _)).right
  by_cases hhi : b.seq ≤ hi
  case neg => omega
  case pos =>
    cases h.cover b hb hle hhi with
    | head => exact le_rfl
    | tail _ hb => exact (rel_of_pairwise_cons h.ascending hb).le

theorem Ahead.push (h : Ahead F hi w (ev :: rows)) (hle : w.current ≤ ev.seq) :
    Ahead F hi (w.push ev) rows := by
  have hw : w.current ≤ (w.push ev).current := hle.trans (Nat.le_succ _)
  refine .skip ⟨h.mem, h.ascending, fun b hb hc => h.cover b hb (hw.trans hc)⟩ (Nat.lt_succ_self _)

-- What has become of a walk from `w` when `rest` is still in front of it.
def Outcome (F H : Set Event) (lo hi stop : ℕ) (w : Walk) (rest : List Event) : Walked → Prop
  | .more w' => Collected F H lo stop w' ∧ w.current ≤ w'.current ∧ Ahead F hi w' rest
  | .halt w' => Collected F H lo stop w' ∧ w.current ≤ w'.current ∧
      ∀ ev ∈ F, w'.current ≤ ev.seq → ev.seq ≤ hi → stop ≤ ev.seq
  | .full w' => Collected F H lo stop w' ∧ w'.batch ≠ []

theorem Outcome.of_le (hle : w.current ≤ w₁.current)
    (h : Outcome F H lo hi stop w₁ rest r) : Outcome F H lo hi stop w rest r := by
  cases r with
  | more w' => exact ⟨h.left, hle.trans h.right.left, h.right.right⟩
  | halt w' => exact ⟨h.left, hle.trans h.right.left, h.right.right⟩
  | full w' => exact h

-- The same for rows that need not reach up to any bound.
def Resumed (F H : Set Event) (lo stop : ℕ) (w : Walk) : Walked → Prop
  | .more w' | .halt w' => Collected F H lo stop w' ∧ w.current ≤ w'.current
  | .full w' => Collected F H lo stop w' ∧ w'.batch ≠ []

theorem Resumed.of_le (hle : w.current ≤ w₁.current)
    (h : Resumed F H lo stop w₁ r) : Resumed F H lo stop w r := by
  cases r with
  | more w' => exact ⟨h.left, hle.trans h.right⟩
  | halt w' => exact ⟨h.left, hle.trans h.right⟩
  | full w' => exact h

section

variable (hu : ∀ a ∈ F, ∀ b ∈ F, a.seq = b.seq → a = b) (hH : F ⊆ H)

include hu hH

section

variable (hc : Collected F H lo stop w)

include hc

theorem walkRows_spec (ha : Ahead F hi w (rows ++ rest)) :
    Outcome F H lo hi stop w rest (walkRows stop max rows w) := by
  induction rows generalizing w with
  | nil => exact ⟨hc, le_rfl, ha⟩
  | cons ev rows ih =>
    simp only [walkRows]
    by_cases hlt : ev.seq < w.current
    · rw [if_pos hlt]
      exact ih hc (ha.skip hlt)
    have hle : w.current ≤ ev.seq := Nat.le_of_not_lt hlt
    have hev := (ha.mem ev (.head _)).left
    rw [if_neg hlt]
    by_cases hs : stop ≤ ev.seq
    · rw [if_pos hs]
      exact ⟨hc, le_rfl, fun b hb hw _ => hs.trans (ha.least b hb hw)⟩
    have hc' := hc.push (Nat.lt_of_not_le hs) hle (hH hev) (fun b hb => hu b hb ev hev) ha.least
    simp only [if_neg hs, emit]
    by_cases hm : max ≤ (w.push ev).batch.length
    · simp only [if_pos hm]
      exact ⟨hc', by simp [Walk.push]⟩
    · simp only [if_neg hm]
      exact .of_le (hle.trans (Nat.le_succ _)) (ih hc' (ha.push hle))

-- A block is skipped by its upper bound in the manifest, which the file has kept.
theorem walkSealedSegment_spec (ha : Ahead F hi w (blocks.flatMap (·.2)))
    (hb : ∀ b ∈ blocks, ∀ ev ∈ b.2, ev.seq ≤ b.1.maxSeq) :
    Outcome F H lo hi stop w [] (walkSealedSegment stop max blocks w) := by
  induction blocks generalizing w with
  | nil => exact ⟨hc, le_rfl, ha⟩
  | cons b blocks ih =>
    have ⟨info, evs⟩ := b
    have ⟨hmax, hb⟩ := forall_mem_cons.mp hb
    simp only [walkSealedSegment]
    split
    case isTrue hs => exact ⟨hc, le_rfl, fun b _ hw _ => hs.trans hw⟩
    · split
      case isTrue hlt =>
        have hbehind : ∀ ev ∈ evs, ev.seq < w.current := fun ev hev => (hmax ev hev).trans_lt hlt
        exact ih hc (ha.skip_all hbehind) hb
      · have hr : Outcome _ _ _ _ _ _ _ (walkRows stop max evs w) := walkRows_spec hu hH hc ha
        cases h : walkRows stop max evs w with
        | more w' =>
          rw [h] at hr
          exact .of_le hr.right.left (ih hr.left hr.right.right hb)
        | halt w' => rw [h] at hr; exact hr
        | full w' => rw [h] at hr; exact hr

-- No row of `F` lies in front of an emitted one, which carries the number the walk is at.
theorem walkActiveRange_spec (hr : ∀ ev ∈ rows, ev ∈ F) :
    Resumed F H lo stop w (walkActiveRange stop max rows w) := by
  induction rows generalizing w with
  | nil => exact ⟨hc, le_rfl⟩
  | cons ev rows ih =>
    have ⟨hev, hr⟩ := forall_mem_cons.mp hr
    have hhalt : Resumed F H lo stop w (.halt w) := ⟨hc, le_rfl⟩
    simp only [walkActiveRange]
    split <;> [exact ih hc hr; skip]
    split <;> [exact hhalt; skip]
    split <;> [exact hhalt; skip]
    split <;> [exact hhalt; skip]
    case isFalse.isFalse.isFalse.isFalse hlt _ hs hgap =>
      have heq : ev.seq = w.current := by omega
      have hc' := hc.push (Nat.lt_of_not_le hs) heq.ge (hH hev) (fun b hb => hu b hb ev hev)
        (fun b _ hw => heq ▸ hw)
      simp only [emit, if_neg hs]
      by_cases hm : max ≤ (w.push ev).batch.length
      · simp only [if_pos hm]
        exact ⟨hc', by simp [Walk.push]⟩
      · have hle : w.current ≤ (w.push ev).current := heq ▸ Nat.le_succ _
        simp only [if_neg hm]
        exact .of_le hle (ih hc' hr)

end

end

end

end Walk
end Jetstream.Subscribe
