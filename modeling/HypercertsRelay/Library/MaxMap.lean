import Mathlib

-- Maps that keep for every key a value of the greatest rank. `Tracks` says that the map holds a
-- maximum of the offers for each key and nothing else.
namespace MaxMap

variable {κ β ρ : Type*} [DecidableEq κ]

section Raise

variable [LinearOrder ρ] (rank : β → ρ)

def raise (m : AList fun _ : κ => β) (k : κ) (v : β) : AList fun _ : κ => β :=
  match m.lookup k with
  | some old => if rank old < rank v then m.insert k v else m
  | none => m.insert k v

structure Tracks (m : AList fun _ : κ => β) (S : Set (κ × ρ)) : Prop where
  sound : ∀ {k v}, m.lookup k = some v → (k, rank v) ∈ S
  complete : ∀ {k n}, (k, n) ∈ S → ∃ v, m.lookup k = some v ∧ n ≤ rank v

variable {rank} {m m' : AList fun _ : κ => β} {S S' T : Set (κ × ρ)}

theorem lookup_raise (h : (raise rank m k v).lookup k' = some v') :
    k' = k ∧ v' = v ∨ m.lookup k' = some v' := by
  by_cases hk : k' = k
  · subst hk
    unfold raise at h
    repeat' split at h
    all_goals simp_all
  · unfold raise at h
    repeat' split at h
    all_goals simp_all [AList.lookup_insert_ne hk]

theorem tracks_empty : Tracks rank (∅ : AList fun _ : κ => β) ∅ where
  sound h := by simp at h
  complete h := h.elim

namespace Tracks

-- Two sets of offers with the same maxima are tracked by the same maps.
theorem congr (h : Tracks rank m T) (hs : T ⊆ S)
    (hc : ∀ k n, (k, n) ∈ S → ∃ n' ≥ n, (k, n') ∈ T) : Tracks rank m S where
  sound hv := hs (h.sound hv)
  complete {k n} hn := by
    have ⟨n', hle, hn'⟩ := hc k n hn
    have ⟨v, hv, hle'⟩ := h.complete hn'
    exact ⟨v, hv, hle.le.trans hle'⟩

section

variable (h : Tracks rank m S)

include h

theorem insert_of_lt (k : κ) (v : β) (hv : ∀ old, m.lookup k = some old → rank old ≤ rank v) :
    Tracks rank (m.insert k v) (insert (k, rank v) S) where
  sound {k' v'} hl := by
    by_cases hk : k' = k
    · subst hk
      rw [AList.lookup_insert, Option.some_inj] at hl
      exact hl ▸ .inl rfl
    · rw [AList.lookup_insert_ne hk] at hl
      exact .inr (h.sound hl)
  complete {k' n} hn := by
    by_cases hk : k' = k
    · subst hk
      refine ⟨v, AList.lookup_insert _, ?_⟩
      rcases hn with hn | hn
      · exact (Prod.mk.inj hn).2.le
      · have ⟨old, hold, hle⟩ := h.complete hn
        exact hle.trans (hv old hold)
    · rcases hn with hn | hn
      · exact absurd (Prod.mk.inj hn).1 hk
      · simpa only [AList.lookup_insert_ne hk] using h.complete hn

theorem skip (hl : m.lookup k = some old)
    (hle : rank v ≤ rank old) : Tracks rank m (insert (k, rank v) S) where
  sound hl := .inr (h.sound hl)
  complete {k' n} hn := by
    rcases hn with hn | hn
    · obtain ⟨rfl, rfl⟩ := Prod.mk.inj hn
      exact ⟨old, hl, hle⟩
    · exact h.complete hn

theorem raise (k : κ) (v : β) : Tracks rank (raise rank m k v) (insert (k, rank v) S) := by
  unfold MaxMap.raise
  split
  case h_1 old hl =>
    split
    · exact h.insert_of_lt k v fun old' hl' => by simp_all [le_of_lt]
    · exact h.skip hl (by simp_all)
  case h_2 hl => exact h.insert_of_lt k v fun _ hl' => by simp_all

theorem mem_keys : k ∈ m.keys ↔ ∃ n, (k, n) ∈ S where
  mp hk := by
    have ⟨v, hv⟩ := Option.isSome_iff_exists.mp (AList.lookup_isSome.mpr hk)
    exact ⟨_, h.sound hv⟩
  mpr := by
    rintro ⟨n, hn⟩
    obtain ⟨v, hv, -⟩ := h.complete hn
    exact AList.lookup_isSome.mp (Option.isSome_iff_exists.mpr ⟨v, hv⟩)

theorem length_le (h' : Tracks rank m' S')
    (hsub : ∀ k n, (k, n) ∈ S → ∃ n', (k, n') ∈ S') : m.keys.length ≤ m'.keys.length := by
  refine (List.subperm_of_subset m.keys_nodup fun k hk => ?_).length_le
  have ⟨n, hn⟩ := h.mem_keys.mp hk
  exact h'.mem_keys.mpr (hsub k n hn)

end

end Tracks

end Raise

section Merge

variable (rank : β → ℕ)

-- A missing key reads as rank `0`, so that an offer of rank `0` leaves no entry.
def offer (m : AList fun _ : κ => β) (k : κ) (v : β) : AList fun _ : κ => β :=
  if (m.lookup k).elim 0 rank < rank v then m.insert k v else m

def merge (m m' : AList fun _ : κ => β) : AList fun _ : κ => β :=
  m'.entries.foldl (fun m e => offer rank m e.1 e.2) m

namespace Tracks

variable {rank} {m m' : AList fun _ : κ => β}

theorem offer (h : Tracks rank m S) (k : κ) (v : β) (hv : 0 < rank v) :
    Tracks rank (offer rank m k v) (insert (k, rank v) S) := by
  unfold MaxMap.offer
  cases hl : m.lookup k <;> simp only [Option.elim]
  case none => exact if_pos hv ▸ h.insert_of_lt k v fun _ hl' => by simp_all
  case some old =>
    by_cases hlt : rank old < rank v
    · exact if_pos hlt ▸ h.insert_of_lt k v fun old' hl' => by simp_all; omega
    · exact if_neg hlt ▸ h.skip hl (by omega)

theorem offers {l : List (Sigma fun _ : κ => β)} (h : Tracks rank m S)
    (hl : ∀ e ∈ l, 0 < rank e.2) :
    Tracks rank (l.foldl (fun m e => MaxMap.offer rank m e.1 e.2) m)
      (S ∪ { p | ∃ e ∈ l, p = (e.1, rank e.2) }) := by
  induction l generalizing m S with
  | nil => simpa using h
  | cons e l ih =>
    have := ih (h.offer e.1 e.2 (hl e (by simp))) fun e' he' => hl e' (by simp [he'])
    refine this.congr ?_ fun k n hn => ⟨n, le_refl _, ?_⟩
    · rintro p ((rfl | hp) | ⟨e', he', rfl⟩)
      · exact .inr ⟨e, by simp, rfl⟩
      · exact .inl hp
      · exact .inr ⟨e', by simp [he'], rfl⟩
    · rcases hn with hn | ⟨e', he', hp⟩
      · exact .inl (.inr hn)
      · rcases List.mem_cons.mp he' with rfl | he'
        · exact .inl (.inl hp)
        · exact .inr ⟨e', he', hp⟩

theorem merge (h : Tracks rank m S) (h' : Tracks rank m' S') (hpos : ∀ p ∈ S', 0 < p.2) :
    Tracks rank (merge rank m m') (S ∪ S') := by
  have hmem {e} (he : e ∈ m'.entries) : (e.1, rank e.2) ∈ S' :=
    h'.sound (AList.mem_lookup_iff.mpr he)
  refine (h.offers fun e he => hpos _ (hmem he)).congr ?_ ?_
  · rintro p (hp | ⟨e, he, rfl⟩)
    · exact .inl hp
    · exact .inr (hmem he)
  · rintro k n (hn | hn)
    · exact ⟨n, le_refl _, .inl hn⟩
    · have ⟨v, hv, hle⟩ := h'.complete hn
      exact ⟨rank v, hle, .inr ⟨⟨k, v⟩, AList.mem_lookup_iff.mp hv, rfl⟩⟩

end Tracks

end Merge

section Evict

open List

variable {rank : β → ℕ} {m m' : AList fun _ : κ => β}

def evict (rank : β → ℕ) (m : AList fun _ : κ => β) (n : ℕ) : AList fun _ : κ => β where
  entries := m.entries.filter (n < rank ·.2)
  nodupKeys := m.nodupKeys.sublist filter_sublist

theorem lookup_evict : (evict rank m n).lookup k = some v ↔ m.lookup k = some v ∧ n < rank v := by
  simp only [←Option.mem_def, AList.mem_lookup_iff, evict, mem_filter, decide_eq_true_eq]

theorem Tracks.evict (h : Tracks rank m S) (n : ℕ) :
    Tracks rank (evict rank m n) { p ∈ S | n < p.2 } where
  sound hv := ⟨h.sound (lookup_evict.mp hv).left, (lookup_evict.mp hv).right⟩
  complete {k i} hi := by
    have ⟨v, hv, hle⟩ := h.complete hi.left
    exact ⟨v, lookup_evict.mpr ⟨hv, lt_of_lt_of_le hi.right hle⟩, hle⟩

-- The ranks in a map are told by the offers.
theorem Tracks.map_rank (h : Tracks rank m S) (h' : Tracks rank m' S) (k : κ) :
    (m.lookup k).map rank = (m'.lookup k).map rank := by
  have hle {m m'} (h : Tracks rank m S) (h' : Tracks rank m' S) {v}
      (hv : m.lookup k = some v) : ∃ v', m'.lookup k = some v' ∧ rank v ≤ rank v' :=
    h'.complete (h.sound hv)
  cases hv : m.lookup k with
  | none =>
    cases hv' : m'.lookup k with
    | none => rfl
    | some v' =>
      have ⟨v, hl, _⟩ := hle h' h hv'
      exact nomatch hv.symm.trans hl
  | some v =>
    have ⟨v', hv', hvv'⟩ := hle h h' hv
    have ⟨w, hw, hvw⟩ := hle h' h hv'
    cases hv.symm.trans hw
    rw [hv', Option.map_some, Option.map_some, le_antisymm hvv' hvw]

theorem lookup_merge (h : (merge rank m m').lookup k = some v) :
    m.lookup k = some v ∨ m'.lookup k = some v := by
  refine .imp_right AList.mem_lookup_iff.mpr ?_
  rw [merge] at h
  generalize m'.entries = l at h ⊢
  induction l generalizing m with
  | nil => exact .inl h
  | cons e l ih =>
    rcases ih h with h | h
    · simp only [offer] at h
      split at h
      · by_cases hk : k = e.1
        · subst hk
          rw [AList.lookup_insert] at h
          cases h
          exact .inr (.head _)
        · exact .inl ((AList.lookup_insert_ne hk).symm.trans h)
      · exact .inl h
    · exact .inr (.tail _ h)

variable (size : κ → ℤ)

def keysBytes (m : AList fun _ : κ => β) : ℤ :=
  (m.keys.map size).sum

theorem keysBytes_insert (m : AList fun _ : κ => β) (k : κ) (v : β) :
    keysBytes size (m.insert k v) = keysBytes size m + if k ∈ m.keys then 0 else size k := by
  rw [keysBytes, keysBytes, AList.keys_insert, map_cons, sum_cons]
  split
  case isTrue hk => rw [Int.add_zero, ((perm_cons_erase hk).map size).sum_eq, map_cons, sum_cons]
  case isFalse hk => rw [erase_of_not_mem hk, Int.add_comm]

theorem keysBytes_raise (m : AList fun _ : κ => β) (k : κ) (v : β) :
    keysBytes size (raise rank m k v) = keysBytes size m + if k ∈ m.keys then 0 else size k := by
  cases hl : m.lookup k with
  | none =>
    simp only [raise, hl]
    exact keysBytes_insert size m k v
  | some old =>
    by_cases hlt : rank old < rank v
    · simp only [raise, hl, if_pos hlt]
      exact keysBytes_insert size m k v
    · have hk : k ∈ m.keys := AList.lookup_isSome.mp (hl ▸ rfl)
      simp only [raise, hl, if_neg hlt, if_pos hk, Int.add_zero]

omit [DecidableEq κ] in
theorem keysBytes_evict (m : AList fun _ : κ => β) (n : ℕ) : keysBytes size (evict rank m n) =
    keysBytes size m - ((m.entries.filter (rank ·.2 ≤ n)).map (size ·.1)).sum := by
  have hkeys (m : AList fun _ : κ => β) : keysBytes size m = (m.entries.map (size ·.1)).sum := by
    rw [keysBytes, AList.keys, keys, map_map]
    rfl
  rw [hkeys, hkeys]
  dsimp only [evict]
  induction m.entries with
  | nil => rfl
  | cons e l ih =>
    simp only [filter_cons, map_cons, sum_cons]
    by_cases h : n < rank e.2
    · rw [if_pos (by simpa using h), if_neg (by simpa using h), map_cons, sum_cons, ih]
      omega
    · rw [if_neg (by simpa using h), if_pos (by simpa using h), map_cons, sum_cons, ih]
      omega

end Evict

end MaxMap
