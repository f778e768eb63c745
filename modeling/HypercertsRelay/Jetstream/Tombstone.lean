import HypercertsRelay.Library.MaxMap
import HypercertsRelay.Library.Supersede
import HypercertsRelay.Jetstream.Event

namespace Jetstream

open MaxMap

namespace Tombstone

def scopedSyncKey := "hypercertsSelectedSync"

structure SyncScope where
  collections : List String
  paths : List String
  deriving DecidableEq, Repr

-- The values under `name`, which all have to be texts.
def scopeTexts (fields : List (String × Cbor)) (name : String) : Except String (List String) :=
  match fields.lookup name with
  | some (.array values) => values.mapM fun
    | .text s => .ok s
    | _ => .error s!"invalid selected sync {name}"
  | _ => .error s!"invalid selected sync {name}"

def decodeScopedSync (c : Codec) (ev : Event) : Except String (Option SyncScope) :=
  if ev.kind ≠ .sync ∨ ev.payload = [] then
    .ok none
  else do
    let .map fields ← c.unmarshal ev.payload | .error "invalid sync payload"
    match fields.lookup scopedSyncKey with
    | none => return none
    | some (.map scopeFields) =>
      -- The source ranges over the two names in any order, which decides which error is returned.
      let collections ← scopeTexts scopeFields "collections"
      let paths ← scopeTexts scopeFields "paths"
      return some { collections, paths }
    | some _ => .error "invalid selected sync scope"

def accountDeleted (c : Codec) (payload : Bytes) : Except String Bool := do
  let acc ← c.unmarshalAccount payload
  return !acc.active && acc.status == some "deleted"

inductive Reason
  | sync | account | record
  deriving DecidableEq, Repr

structure DIDTombstone where
  seq : ℕ
  reason : Reason
  deriving DecidableEq, Repr

structure Snapshot where
  records : AList fun _ : RecordKey => ℕ
  dids : AList fun _ : String => DIDTombstone

namespace Snapshot

def empty : Snapshot where
  records := ∅
  dids := ∅

def isEmpty (s : Snapshot) : Bool :=
  s.records.keys.length == 0 && s.dids.keys.length == 0

-- The number of entries a compaction cap is compared with.
def length (s : Snapshot) : ℕ :=
  s.records.keys.length + s.dids.keys.length

def shouldDrop (s : Snapshot) (ev : Event) : Option Reason :=
  if !ev.kind.isMaterialization then
    none
  else match (s.dids.lookup ev.did).filter (ev.seq < ·.seq) with
    | some ts => some ts.reason
    | none => (s.records.lookup ev.key).filter (ev.seq < ·) |>.map fun _ => .record

def merge (s other : Snapshot) : Snapshot where
  records := MaxMap.merge id s.records other.records
  dids := MaxMap.merge DIDTombstone.seq s.dids other.dids

end Snapshot

def entryOverheadBytes := 64

def recordEntryBytes (k : RecordKey) : ℕ :=
  k.did.utf8ByteSize + k.collection.utf8ByteSize + k.rkey.utf8ByteSize + entryOverheadBytes

def didEntryBytes (did : String) : ℕ :=
  did.utf8ByteSize + entryOverheadBytes

-- The bytes a new entry adds to the size of a set, which is nothing when the key was there.
def addedRecordBytes (s : Snapshot) (k : RecordKey) : ℕ :=
  if k ∈ s.records.keys then 0 else recordEntryBytes k

def addedDIDBytes (s : Snapshot) (did : String) : ℕ :=
  if did ∈ s.dids.keys then 0 else didEntryBytes did

def observeDID (s : Snapshot) (ev : Event) (reason : Reason) : Snapshot × ℕ :=
  ({ s with dids := raise DIDTombstone.seq s.dids ev.did ⟨ev.seq, reason⟩ }, addedDIDBytes s ev.did)

def observeLocked (c : Codec) (s : Snapshot) (ev : Event) : Except String (Snapshot × ℕ) :=
  match ev.kind with
  | .delete | .update =>
    .ok ({ s with records := raise id s.records ev.key ev.seq }, addedRecordBytes s ev.key)
  | .sync => do
    match ← decodeScopedSync c ev with
    | some _ => return (s, 0)
    | none => return observeDID s ev .sync
  | .account =>
    match accountDeleted c ev.payload with
    | .error err => .error s!"tombstone: decode account did={ev.did} seq={ev.seq}: {err}"
    | .ok false => .ok (s, 0)
    | .ok true => .ok (observeDID s ev .account)
  | .create | .identity | .createResync => .ok (s, 0)

def observeRange (c : Codec) (lowExclusive highInclusive : ℕ) (out : Snapshot) (ev : Event) :
    Except String Snapshot :=
  if ev.seq ≤ lowExclusive ∨ highInclusive < ev.seq then
    .ok out
  else
    (·.1) <$> observeLocked c out ev

def foldRange (c : Codec) (events : List Event) (lowExclusive highInclusive : ℕ) :
    Except String Snapshot :=
  events.foldlM (observeRange c lowExclusive highInclusive) .empty

-- What a row removes: the earlier values of its own path, or those of its whole repository.
def isRecordTombstone (ev : Event) : Bool :=
  ev.kind == .delete || ev.kind == .update

def isDIDTombstone (c : Codec) (ev : Event) : Bool :=
  match ev.kind with
  | .sync => (decodeScopedSync c ev matches .ok none)
  | .account => (accountDeleted c ev.payload matches .ok true)
  | _ => false

def supersedes (c : Codec) (t r : Event) : Bool :=
  r.kind.isMaterialization && r.seq < t.seq &&
    (isRecordTombstone t && t.key == r.key || isDIDTombstone c t && t.did == r.did)

structure Decodable (c : Codec) (ev : Event) : Prop where
  sync : ev.kind = .sync → ∃ scope, decodeScopedSync c ev = .ok scope
  account : ev.kind = .account → ∃ deleted, accountDeleted c ev.payload = .ok deleted

section

variable {c : Codec} {t r u : Event}

theorem supersedes_iff : supersedes c t r ↔ r.kind.isMaterialization ∧ r.seq < t.seq ∧
      (isRecordTombstone t ∧ t.key = r.key ∨ isDIDTombstone c t ∧ t.did = r.did) := by
  simp [supersedes, and_assoc]

-- A row that is removed and a tombstone is an update, and what removes it is about its key or
-- repository.
theorem supersedes_trans (hu : supersedes c u t) (ht : supersedes c t r) : supersedes c u r := by
  have ⟨hm, hlt, hu⟩ := supersedes_iff.mp hu
  have ⟨hm', hlt', ht⟩ := supersedes_iff.mp ht
  refine supersedes_iff.mpr ⟨hm', hlt'.trans hlt, ?_⟩
  obtain ht | ht := ht
  · have hd : t.did = r.did := congrArg RecordKey.did ht.right
    exact hu.imp (fun h => ⟨h.left, h.right.trans ht.right⟩) (fun h => ⟨h.left, h.right.trans hd⟩)
  · cases h : t.kind <;> simp_all [isDIDTombstone, Kind.isMaterialization]

end

def superseding (c : Codec) : Superseding Event where
  seq := Event.seq
  sup t r := supersedes c t r
  lt h := (supersedes_iff.mp h).right.left
  trans := supersedes_trans

-- The tombstones of a set of rows, as offers to a map.
def offers (isTombstone : Event → Bool) (key : Event → κ) (E : Set Event) :
    Set (κ × ℕ) :=
  { p | ∃ ev ∈ E, isTombstone ev ∧ p = (key ev, ev.seq) }

section

theorem mem_offers (hr : r ∈ E) (hp : p r) : (key r, r.seq) ∈ offers p key E :=
  ⟨r, hr, hp, rfl⟩

@[simp]
theorem offers_empty : offers p key ∅ = ∅ := by
  simp [offers]

theorem offers_insert_pos (h : p r) :
    offers p key (insert r E) = insert (key r, r.seq) (offers p key E) := by
  ext; simp [offers, h]

theorem offers_insert_neg (h : p r = false) : offers p key (insert r E) = offers p key E := by
  ext; simp [offers, h]

theorem offers_union : offers p key (E ∪ E') = offers p key E ∪ offers p key E' := by
  ext; simp [offers, or_and_right, exists_or]

theorem offers_pos (h : ∀ ev ∈ E, 0 < ev.seq) : ∀ x ∈ offers p key E, 0 < x.2 := by
  intro x ⟨ev, hev, _, hx⟩
  simpa [hx] using h ev hev

end

-- A snapshot tracks a set of rows if it holds exactly the tombstones of these rows.
structure Snapshot.Tracks (c : Codec) (s : Snapshot) (E : Set Event) : Prop where
  records : MaxMap.Tracks id s.records (offers isRecordTombstone Event.key E)
  dids : MaxMap.Tracks DIDTombstone.seq s.dids (offers (isDIDTombstone c) Event.did E)

namespace Snapshot.Tracks

variable {s s' : Snapshot}

theorem empty : Snapshot.empty.Tracks c ∅ where
  records := by rw [offers_empty]; exact tracks_empty
  dids := by rw [offers_empty]; exact tracks_empty

section

variable (h : s.Tracks c E)

include h

-- A row that is no tombstone changes nothing.
theorem insert_none (hr : isRecordTombstone r = false)
    (hd : isDIDTombstone c r = false) : s.Tracks c (insert r E) where
  records := by rw [offers_insert_neg hr]; exact h.records
  dids := by rw [offers_insert_neg hd]; exact h.dids

theorem insert_record (hr : isRecordTombstone r) (hd : isDIDTombstone c r = false) :
    { s with records := raise id s.records r.key r.seq }.Tracks c (insert r E) where
  records := offers_insert_pos hr ▸ h.records.raise r.key r.seq
  dids := by rw [offers_insert_neg hd]; exact h.dids

theorem insert_did (hr : isRecordTombstone r = false) (hd : isDIDTombstone c r) (reason : Reason) :
    (observeDID s r reason).1.Tracks c (insert r E) where
  records := by rw [offers_insert_neg hr]; exact h.records
  dids := offers_insert_pos hd ▸ h.dids.raise r.did ⟨r.seq, reason⟩

theorem observeLocked (hd : Decodable c r) :
    ∃ s' n, observeLocked c s r = .ok (s', n) ∧ s'.Tracks c (insert r E) := by
  cases hk : r.kind <;> simp only [Tombstone.observeLocked, hk]
  case delete | update =>
    exact ⟨_, _, rfl, h.insert_record (by simp [isRecordTombstone, hk])
      (by simp [isDIDTombstone, hk])⟩
  case sync =>
    have ⟨scope, hs⟩ := hd.sync hk
    have hr : isRecordTombstone r = false := by simp [isRecordTombstone, hk]
    cases scope with
    | none => exact ⟨_, _, by simp [hs]; rfl, h.insert_did hr (by simp [isDIDTombstone, hk, hs]) _⟩
    | some _ => exact ⟨_, _, by simp [hs]; rfl, h.insert_none hr (by simp [isDIDTombstone, hk, hs])⟩
  case account =>
    have ⟨deleted, hs⟩ := hd.account hk
    have hr : isRecordTombstone r = false := by simp [isRecordTombstone, hk]
    cases deleted with
    | true => exact ⟨_, _, by simp [hs]; rfl, h.insert_did hr (by simp [isDIDTombstone, hk, hs]) _⟩
    | false => exact ⟨_, _, by simp [hs]; rfl, h.insert_none hr (by simp [isDIDTombstone, hk, hs])⟩
  all_goals
    exact ⟨_, _, rfl, h.insert_none (by simp [isRecordTombstone, hk])
      (by simp [isDIDTombstone, hk])⟩

theorem merge (h' : s'.Tracks c E') (hpos : ∀ ev ∈ E', 0 < ev.seq) :
    (s.merge s').Tracks c (E ∪ E') where
  records := offers_union ▸ h.records.merge h'.records (offers_pos hpos)
  dids := offers_union ▸ h.dids.merge h'.dids (offers_pos hpos)

theorem not_supersedes_of_isEmpty (he : s.isEmpty) (ht : t ∈ E) : supersedes c t r = false := by
  simp only [Snapshot.isEmpty, Bool.and_eq_true, beq_iff_eq, List.length_eq_zero_iff] at he
  by_contra hs
  have ⟨_, _, hs⟩ := supersedes_iff.mp (Bool.not_eq_false _ ▸ hs)
  obtain hs | hs := hs
  · simpa [he.left] using h.records.mem_keys.mpr ⟨_, mem_offers ht hs.left⟩
  · simpa [he.right] using h.dids.mem_keys.mpr ⟨_, mem_offers ht hs.left⟩

theorem length_le (h' : s'.Tracks c E') (hE : E ⊆ E') : s.length ≤ s'.length :=
  Nat.add_le_add (h.records.length_le h'.records fun _ n ⟨ev, hev, hx⟩ => ⟨n, ev, hE hev, hx⟩)
    (h.dids.length_le h'.dids fun _ n ⟨ev, hev, hx⟩ => ⟨n, ev, hE hev, hx⟩)

end

-- The map holds the greatest offer for each key, so this one decides.
theorem lookup_above [DecidableEq κ] (h : MaxMap.Tracks rank m (offers p key E)) (k : κ)
    (n : ℕ) : (∃ v, m.lookup k = some v ∧ n < rank v) ↔ ∃ t ∈ E, n < t.seq ∧ p t ∧ key t = k where
  mp := by
    intro ⟨v, hv, hlt⟩
    have ⟨t, ht, hp, hk⟩ := h.sound hv
    have ⟨hk, hr⟩ := Prod.mk.inj hk
    exact ⟨t, ht, hr ▸ hlt, hp, hk.symm⟩
  mpr := by
    intro ⟨t, ht, hlt, hp, hk⟩
    have ⟨v, hv, hle⟩ := h.complete (show (key t, t.seq) ∈ offers p key E from mem_offers ht hp)
    exact ⟨v, hk ▸ hv, hlt.trans_le hle⟩

theorem shouldDrop_iff (h : s.Tracks c E) :
    (s.shouldDrop r).isSome ↔ ∃ t ∈ E, supersedes c t r := by
  have hd := lookup_above h.dids r.did r.seq
  have hr := lookup_above h.records r.key r.seq
  by_cases hm : r.kind.isMaterialization <;>
    simp only [Snapshot.shouldDrop, supersedes_iff, hm, Bool.not_true, Bool.not_false,
      Bool.false_eq_true, false_and, and_false, exists_false, if_true, if_false, true_and]
  case neg => simp
  case pos =>
    have hs : (∃ t ∈ E, r.seq < t.seq ∧ (isRecordTombstone t ∧ t.key = r.key ∨
        isDIDTombstone c t ∧ t.did = r.did)) ↔ (∃ t ∈ E, r.seq < t.seq ∧ isDIDTombstone c t ∧
        t.did = r.did) ∨ ∃ t ∈ E, r.seq < t.seq ∧ isRecordTombstone t ∧ t.key = r.key := by
      grind
    cases h₁ : s.dids.lookup r.did <;> cases h₂ : s.records.lookup r.key <;>
      simp [Option.filter] <;> grind

end Snapshot.Tracks

def window (E : Set Event) (lo hi : ℕ) : Set Event :=
  { ev ∈ E | lo < ev.seq ∧ ev.seq ≤ hi }

theorem Snapshot.Tracks.observeRange (h : s.Tracks c E) (lo hi : ℕ) (hd : Decodable c ev) :
    ∃ s', observeRange c lo hi s ev = .ok s' ∧ s'.Tracks c (E ∪ window {ev} lo hi) := by
  by_cases hr : ev.seq ≤ lo ∨ hi < ev.seq
  · have hw : window {ev} lo hi = ∅ := by ext; simp [window]; grind
    exact ⟨s, if_pos hr, by simpa [hw] using h⟩
  · have hw : window {ev} lo hi = {ev} := by ext; simp [window]; grind
    have ⟨s', n, hs', ht⟩ := h.observeLocked hd
    refine ⟨s', by rw [Tombstone.observeRange, if_neg hr, hs']; rfl, ?_⟩
    rwa [hw, Set.union_singleton]

theorem foldRange_tracks (lo hi : ℕ) (hd : ∀ ev ∈ events, Decodable c ev) :
    ∃ s, foldRange c events lo hi = .ok s ∧ s.Tracks c (window { ev | ev ∈ events } lo hi) := by
  suffices h : ∀ (s : Snapshot) (E : Set Event), s.Tracks c E →
      ∃ s', events.foldlM (observeRange c lo hi) s = .ok s' ∧
        s'.Tracks c (E ∪ window { ev | ev ∈ events } lo hi) by
    have ⟨s, hs, ht⟩ := h .empty ∅ .empty
    exact ⟨s, hs, by simpa using ht⟩
  induction events with
  | nil => exact fun s E h => ⟨s, rfl, by simpa [window] using h⟩
  | cons ev events ih =>
    intro s E h
    have ⟨s₁, hs₁, ht₁⟩ := h.observeRange lo hi (hd ev (.head _))
    have ⟨s', hs', ht⟩ := ih (fun ev' hev' => hd ev' (.tail _ hev')) s₁ _ ht₁
    refine ⟨s', by rw [List.foldlM_cons, hs₁]; exact hs', ?_⟩
    convert ht using 1
    ext x
    simp [window]
    grind

end Tombstone
end Jetstream
