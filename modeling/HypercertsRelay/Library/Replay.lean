import Mathlib

-- What a key of a replayed store holds is decided by the last write to it and by whether the store
-- was cleared after that.
namespace Replay

inductive Action (κ ν : Type*)
  | set (k : κ) (v : ν)
  | erase (k : κ)
  | clear
  | skip

variable {κ ν α : Type*} [DecidableEq κ]

namespace Action

def apply (m : κ → Option ν) : Action κ ν → κ → Option ν
  | set k v => Function.update m k (some v)
  | erase k => Function.update m k none
  | clear => fun _ => none
  | skip => m

def key? : Action κ ν → Option κ
  | set k _ | erase k => some k
  | clear | skip => none

def value? : Action κ ν → Option ν
  | set _ v => some v
  | erase _ | clear | skip => none

variable {a : Action κ ν}

theorem apply_self (h : a.key? = some k) : a.apply m k = a.value? := by
  cases a <;> simp_all [key?, apply, value?]

theorem apply_other (h : a.key? ≠ some k) (hc : a ≠ clear) : a.apply m k = m k := by
  cases a <;> simp_all [key?, apply, Function.update_of_ne, Ne.symm]

end Action

def replay (act : α → Action κ ν) (m : κ → Option ν) (log : List α) : κ → Option ν :=
  log.foldl (fun m a => (act a).apply m) m

variable {act : α → Action κ ν}

theorem replay_append : replay act m (l₁ ++ l₂) = replay act (replay act m l₁) l₂ :=
  List.foldl_append

theorem replay_cons : replay act m (a :: log) = replay act ((act a).apply m) log :=
  rfl

theorem replay_untouched (h : ∀ a ∈ log, (act a).key? ≠ some k) (hc : ∀ a ∈ log, act a ≠ .clear) :
    replay act m log k = m k := by
  induction log generalizing m with
  | nil => rfl
  | cons a log ih =>
    have ⟨ha, h⟩ := List.forall_mem_cons.mp h
    have ⟨hca, hc⟩ := List.forall_mem_cons.mp hc
    rw [replay_cons, ih h hc, Action.apply_other ha hca]

theorem replay_cleared (h : ∀ a ∈ log, (act a).key? ≠ some k) (hc : ∃ a ∈ log, act a = .clear) :
    replay act m log k = none := by
  induction log generalizing m with
  | nil => simp at hc
  | cons a log ih =>
    have ⟨_, h⟩ := List.forall_mem_cons.mp h
    by_cases hl : ∃ b ∈ log, act b = .clear
    · exact ih h hl
    · have ha : act a = .clear := by simpa [hl] using hc
      rw [replay_cons, replay_untouched h (by simpa using hl), ha]
      rfl

theorem exists_last {p : α → Prop} (h : ∃ a ∈ log, p a) :
    ∃ l₁ a l₂, log = l₁ ++ a :: l₂ ∧ p a ∧ ∀ b ∈ l₂, ¬p b := by
  induction log with
  | nil => simp at h
  | cons a log ih =>
    by_cases hl : ∃ b ∈ log, p b
    · have ⟨l₁, b, l₂, he, hb, hn⟩ := ih hl
      exact ⟨a :: l₁, b, l₂, by rw [he, List.cons_append], hb, hn⟩
    · exact ⟨[], a, log, rfl, by simpa [hl] using h, by simpa using hl⟩

theorem replay_last (ha : (act a).key? = some k) (h : ∀ b ∈ l₂, (act b).key? ≠ some k)
    (hc : ∀ b ∈ l₂, act b ≠ .clear) : replay act m (l₁ ++ a :: l₂) k = (act a).value? := by
  rw [replay_append, replay_cons, replay_untouched h hc, Action.apply_self ha]

theorem replay_last_cleared (h : ∀ b ∈ l₂, (act b).key? ≠ some k)
    (hc : ∃ b ∈ l₂, act b = .clear) : replay act m (l₁ ++ a :: l₂) k = none := by
  rw [replay_append, replay_cons, replay_cleared h hc]

theorem replay_touched (hk : x.key? = some k) (hc : ∀ a ∈ log, act a ≠ .clear)
    (he : ∃ a ∈ log, act a = x) (hu : ∀ a ∈ log, (act a).key? = some k → act a = x) :
    replay act m log k = x.value? := by
  have ⟨l₁, a, l₂, hlog, ha, hn⟩ := exists_last he
  have hmem : ∀ b ∈ l₂, b ∈ log := fun b hb => by simp [hlog, hb]
  rw [hlog, replay_last (ha ▸ hk) (fun b hb hkb => hn b hb (hu b (hmem b hb) hkb))
    fun b hb => hc b (hmem b hb), ha]

-- Two logs that write to a key the same way, each always the same, leave the same there.
theorem replay_congr (hc : ∀ a ∈ log, act a ≠ .clear) (hc' : ∀ a ∈ log', act a ≠ .clear)
    (h : ∀ x : Action κ ν, x.key? = some k → ((∃ a ∈ log, act a = x) ↔ ∃ a ∈ log', act a = x))
    (hu : ∀ a ∈ log, ∀ b ∈ log, (act a).key? = some k → (act b).key? = some k → act a = act b) :
    replay act m log k = replay act m log' k := by
  by_cases he : ∃ a ∈ log, (act a).key? = some k
  · have ⟨a, ha, hk⟩ := he
    have hlog : ∀ b ∈ log, (act b).key? = some k → act b = act a :=
      fun b hb hkb => hu b hb a ha hkb hk
    rw [replay_touched hk hc ⟨a, ha, rfl⟩ hlog]
    refine (replay_touched hk hc' ((h _ hk).mp ⟨a, ha, rfl⟩) fun b hb hkb => ?_).symm
    have ⟨b', hb', he⟩ := (h _ hkb).mpr ⟨b, hb, rfl⟩
    rw [←he]
    exact hlog b' hb' (he ▸ hkb)
  · rw [replay_untouched (fun a ha hk => he ⟨a, ha, hk⟩) hc, replay_untouched _ hc']
    intro b hb hkb
    have ⟨a, ha, hab⟩ := (h _ hkb).mpr ⟨b, hb, rfl⟩
    exact he ⟨a, ha, hab ▸ hkb⟩

end Replay
