import Mathlib

-- Tasks of one queue, run one after the other, and the part that is finished without a gap.

inductive Act (τ : Type*)
  | started (t : τ)
  | succeeded (t : τ)
  | failed (t : τ)
  deriving DecidableEq, Repr

namespace Act

def task : Act τ → τ
  | started t | succeeded t | failed t => t

end Act

-- Each task is run to its end before the next, and a failure is the last thing that happens.
inductive Serial : List τ → List (Act τ) → Prop
  | rest (ts : List τ) : Serial ts []
  | running (t : τ) (ts : List τ) : Serial (t :: ts) [.started t]
  | failed (t : τ) (ts : List τ) : Serial (t :: ts) [.started t, .failed t]
  | next {ts l} :
    Serial ts l → Serial (t :: ts) (.started t :: .succeeded t :: l)

namespace Serial

def runs (ts : List τ) : List (Act τ) :=
  ts.flatMap fun t => [.started t, .succeeded t]

theorem runs_snoc (ts : List τ) (t : τ) :
    runs (ts ++ [t]) = runs ts ++ [.started t, .succeeded t] := by
  simp [runs]

theorem after_runs (done : List τ) (h : Serial ts l) : Serial (done ++ ts) (runs done ++ l) := by
  induction done with
  | nil => exact h
  | cons t ts ih => exact ih.next

theorem succeeded_mem_runs (h : t ∈ ts) : .succeeded t ∈ runs ts :=
  List.mem_flatMap.mpr ⟨t, h, by simp⟩

theorem task_mem (h : Serial ts l) (ha : a ∈ l) : a.task ∈ ts := by
  induction h with
  | rest => cases ha
  | running t ts => simp_all [Act.task]
  | failed t ts =>
    simp only [List.mem_cons, List.not_mem_nil, or_false] at ha
    rcases ha with rfl | rfl <;> exact List.mem_cons_self
  | next _ ih =>
    simp only [List.mem_cons] at ha
    rcases ha with rfl | rfl | ha
    · exact List.mem_cons_self
    · exact List.mem_cons_self
    · exact List.mem_cons_of_mem _ (ih ha)

-- Distinct tasks are each run at most once.
theorem nodup (h : Serial ts l) (hn : ts.Nodup) : l.Nodup := by
  induction h with
  | rest => exact List.nodup_nil
  | running t ts => exact List.nodup_singleton _
  | failed t ts => simp
  | next hs ih =>
    have ⟨ht, hn⟩ := List.nodup_cons.mp hn
    simp only [List.nodup_cons, List.mem_cons, reduceCtorEq, false_or]
    exact ⟨fun h => ht (hs.task_mem h), fun h => ht (hs.task_mem h), ih hn⟩

theorem not_failed (h : Serial ts l) (hn : ts.Nodup) (ht : .succeeded t ∈ l) : .failed t ∉ l := by
  induction h with
  | rest => exact List.not_mem_nil
  | running t ts => simp
  | failed t ts => simp at ht
  | next hs ih =>
    have ⟨hu, hn⟩ := List.nodup_cons.mp hn
    simp only [List.mem_cons, reduceCtorEq, false_or, Act.succeeded.injEq] at ht ⊢
    obtain ht | ht := ht
    · exact fun h => hu (ht ▸ hs.task_mem h)
    · exact ih hn ht

end Serial

namespace List

variable {l : List α}

theorem takeWhile_congr_mem (h : ∀ a ∈ l, p a = q a) : l.takeWhile p = l.takeWhile q := by
  induction l with
  | nil => rfl
  | cons a l ih =>
    have ⟨ha, hl⟩ := forall_mem_cons.mp h
    simp [ha, ih hl, takeWhile_cons]

theorem dropWhile_congr_mem (h : ∀ a ∈ l, p a = q a) : l.dropWhile p = l.dropWhile q := by
  induction l with
  | nil => rfl
  | cons a l ih =>
    have ⟨ha, hl⟩ := forall_mem_cons.mp h
    simp [ha, ih hl, dropWhile_cons]

-- When more elements are done the finished part goes on where it had stopped.
theorem takeWhile_of_imp (h : ∀ a, p a → q a) (l : List α) :
    l.takeWhile q = l.takeWhile p ++ (l.dropWhile p).takeWhile q := by
  induction l with
  | nil => rfl
  | cons a l ih =>
    cases hp : p a with
    | false => simp [hp]
    | true => simp [hp, h a hp, ih]

theorem dropWhile_of_imp (h : ∀ a, p a → q a) (l : List α) :
    l.dropWhile q = (l.dropWhile p).dropWhile q := by
  induction l with
  | nil => rfl
  | cons a l ih =>
    cases hp : p a with
    | false => simp [hp]
    | true => simp [hp, h a hp, ih]

-- Nothing before an element of the finished part is left out of it.
theorem forall_of_mem_takeWhile (h : a ∈ (l₁ ++ a :: l₂).takeWhile p)
    (ha : a ∉ l₁) : ∀ b ∈ l₁, p b := by
  induction l₁ with
  | nil => nofun
  | cons b l ih =>
    have ⟨hne, ha⟩ := not_or.mp (mem_cons.not.mp ha)
    cases hp : p b with
    | false => simp [hp] at h
    | true =>
      have h : a ∈ (l ++ a :: l₂).takeWhile p := by simpa [hp, hne] using h
      exact forall_mem_cons.mpr ⟨hp, ih h ha⟩

theorem takeWhile_snoc (h : p a = false) (l : List α) : (l ++ [a]).takeWhile p = l.takeWhile p := by
  induction l with
  | nil => simp [h]
  | cons b l ih => cases hp : p b <;> simp [hp, ih]

theorem dropWhile_snoc (h : p a = false) (l : List α) :
    (l ++ [a]).dropWhile p = l.dropWhile p ++ [a] := by
  induction l with
  | nil => simp [h]
  | cons b l ih => cases hp : p b <;> simp [hp, ih]

end List
