import HypercertsRelay.Relay.DiskPersist.Crash

-- What a consumer gets that comes with a cursor.
namespace Relay.DiskPersist

open List Stored LogFile

variable (c : EventCodec) (o : Options) (d : Disk)

-- The events that were handed on, and the last number that was read.
abbrev Played (α : Type) := List XRPCStreamEvent × Except String α

-- The events a consumer should see: those without a flag.
def Disk.emitted : List XRPCStreamEvent :=
  d.refs.flatMap fun ref =>
    (entries.records ((d.files ref.path).getD [])).filter
      (fun r => !postDoNotEmit (readHeader r).flags) |>.filterMap (readEntry c)

def readToEnd (l : Bytes) : Played (Option ℕ) :=
  let (evs, res) := readEvents c (l.length + 1) l 0
  (evs, res.map some)

-- Nothing is read from a file that ends before the cursor.
def readEventsFrom (since path : ℕ) : Played (Option ℕ) :=
  match d.files path with
  | none => ([], .error "no such file or directory")
  | some fi =>
    if since ≠ 0 then
      match scanForLastSeq fi (some since) with
      | .error e => ([], .error e)
      | .ok scan =>
        if scan.lastSeq.all (· < since)
        then ([], .ok none)
        else readToEnd c (fi.drop scan.offset)
    else
      readToEnd c fi

-- The cursor counts for the first file only. If the last one seems to be full there may be more.
def playbackLogfiles : ℕ → List LogFileRef → Played (Option ℕ)
  | _, [] => ([], .ok none)
  | since, lf :: lfs =>
    match readEventsFrom c d since lf.path with
    | (evs, .error e) => (evs, .error e)
    | (evs, .ok lastSeq) =>
      if lfs = [] ∧ lastSeq.any (· + 1 = lf.seqStart + o.eventsPerFile) then
        (evs, .ok lastSeq)
      else
        let (rest, res) := playbackLogfiles 0 lfs
        (evs ++ rest, res)

def logsFrom (since : ℕ) : List LogFileRef :=
  (d.refs.filter (since ≤ ·.seqStart)).insertionSort (·.seqStart ≤ ·.seqStart)

def playbackPasses : ℕ → ℕ → List LogFileRef → Played Unit
  | 0, _, _ => ([], .ok ())
  | passes + 1, since, logs =>
    match playbackLogfiles c o d since logs with
    | (evs, .error e) => (evs, .error e)
    | (evs, .ok none) => (evs, .ok ())
    | (evs, .ok (some lastSeq)) =>
      let (rest, res) := playbackPasses passes lastSeq (logsFrom d lastSeq)
      (evs ++ rest, res)

-- The file to begin with is the newest that starts before the cursor.
def playback (since : ℕ) : Played Unit :=
  let before := if since ≠ 0 then latest (d.refs.filter (·.seqStart < since)) else none
  let logs := match before with
    | some lf => [lf]
    | none => logsFrom d since
  playbackPasses c o d 10 since logs

section File

variable {c : EventCodec} {d : Disk}

theorem length_le_wire (c : EventCodec) (l : List Stored) : l.length ≤ (wire c l).length := by
  induction l with
  | nil => exact le_rfl
  | cons r l ih =>
    rw [wire_cons, length_append, length_bytes, length_cons, headerSize]
    omega

def lastSeq (l : List Stored) : ℕ :=
  (l.getLast?.map Stored.seq).getD 0

theorem readToEnd_wire (h : ∀ r ∈ l, r.Fits c) :
    readToEnd c (wire c l) = (l.map emitted, .ok (some (lastSeq l))) := by
  have hlen := length_le_wire c l
  rw [readToEnd, readEvents_wire h (by omega)]
  rfl

theorem readEventsFrom_zero (hfile : d.files path = some (wire c l)) (h : ∀ r ∈ l, r.Fits c) :
    readEventsFrom c d 0 path = (l.map emitted, .ok (some (lastSeq l))) := by
  simp [readEventsFrom, hfile, readToEnd_wire h]

-- The scan stops before the first entry behind the cursor.
theorem scanEntries_some (ha : ∀ r ∈ a, r.Fits c ∧ r.seq ≤ since)
    (hb : ∀ r ∈ b, r.Fits c ∧ since < r.seq) (m : Option ℕ) (n : ℕ) :
    scanEntries (some since) false ((a ++ b).map (·.bytes c)) m n =
      .ok ⟨(b.head?.map seq).or ((a.getLast?.map seq).or m), n + (wire c a).length⟩ := by
  induction a generalizing m n with
  | nil =>
    cases b with
    | nil => simp [scanEntries]
    | cons r b =>
      obtain ⟨hr, hlt⟩ := hb r (.head _)
      simp [scanEntries, readHeader_self hr, header, hlt]
  | cons r a ih =>
    obtain ⟨⟨hr, hle⟩, ha⟩ := forall_mem_cons.mp ha
    have hstop : ¬(some since).any (· < r.seq) = true := by simpa using hle
    simp only [cons_append, map_cons, scanEntries, readHeader_self hr,
      header, if_neg hstop, ih ha, wire_cons, length_append, Nat.add_assoc,
      getLast?_cons]
    cases a.getLast? <;> rfl

theorem scanForLastSeq_some (ha : ∀ r ∈ a, r.Fits c ∧ r.seq ≤ since)
    (hb : ∀ r ∈ b, r.Fits c ∧ since < r.seq) :
    scanForLastSeq (wire c (a ++ b)) (some since) =
      .ok ⟨(b.head?.map seq).or (a.getLast?.map seq), (wire c a).length⟩ := by
  have hfits : ∀ r ∈ a ++ b, r.Fits c := fun r hr =>
    (mem_append.mp hr).elim (fun h => (ha r h).left) fun h => (hb r h).left
  have htorn : decide (((a ++ b).map (·.bytes c)).flatten.length < (wire c (a ++ b)).length) = false :=
    decide_eq_false (lt_irrefl _)
  simp only [scanForLastSeq, records_wire_self hfits, htorn, scanEntries_some ha hb, Option.or_none, Nat.zero_add]

theorem readEventsFrom_cursor (hs : since ≠ 0) (hfile : d.files path = some (wire c (a ++ b)))
    (ha : ∀ r ∈ a, r.Fits c ∧ r.seq ≤ since) (hb : ∀ r ∈ b, r.Fits c ∧ since < r.seq) :
    readEventsFrom c d since path = if ((b.head?.map seq).or (a.getLast?.map seq)).all (· < since)
      then ([], .ok none)
      else (b.map emitted, .ok (some (lastSeq b))) := by
  have hdrop : (wire c (a ++ b)).drop (wire c a).length = wire c b := by rw [wire_append, drop_left]
  simp only [readEventsFrom, hfile, if_pos hs, scanForLastSeq_some ha hb, hdrop,
    readToEnd_wire fun r hr => (hb r hr).left]

theorem readEventsFrom_before (hs : since ≠ 0) (hfile : d.files path = some (wire c (a ++ b)))
    (ha : ∀ r ∈ a, r.Fits c ∧ r.seq ≤ since) (hb : ∀ r ∈ b, r.Fits c ∧ since < r.seq)
    (hne : b ≠ []) :
    readEventsFrom c d since path = (b.map emitted, .ok (some (lastSeq b))) := by
  rw [readEventsFrom_cursor hs hfile ha hb]
  cases b with
  | nil => exact absurd rfl hne
  | cons r b =>
    have := (hb r (.head _)).right
    exact if_neg (by simp; omega)

theorem readEventsFrom_behind (hs : since ≠ 0) (hfile : d.files path = some (wire c l))
    (h : ∀ r ∈ l, r.Fits c ∧ r.seq ≤ since) :
    readEventsFrom c d since path = ([], .ok (if lastSeq l = since then some 0 else none)) := by
  rw [←append_nil l] at hfile
  rw [readEventsFrom_cursor hs hfile h (fun _ hr => nomatch hr)]
  cases hl : l.getLast? with
  | none => simp [lastSeq, hl, Ne.symm hs]
  | some r =>
    have hle := (h r (mem_of_getLast? hl)).right
    by_cases he : r.seq = since
    · simp [lastSeq, hl, he]
    · have hlt : r.seq < since := by omega
      simp [lastSeq, hl, he, hlt]

end File

section Logfiles

variable {c : EventCodec} {o : Options} {d : Disk} {f : LogFile} {fs : List LogFile}

-- The number a pass goes on with when this is its last file.
def moreAfter (o : Options) (f : LogFile) : Option ℕ :=
  if lastSeq f.stored + 1 = f.start + o.eventsPerFile then some (lastSeq f.stored) else none

theorem playbackLogfiles_singleton (h : readEventsFrom c d since f.start = (evs, .ok m)) :
    playbackLogfiles c o d since [f.ref] =
      (evs, .ok (m.filter (· + 1 = f.start + o.eventsPerFile))) := by
  simp only [playbackLogfiles, ref, h, true_and]
  cases m with
  | none => simp
  | some n => by_cases hn : n + 1 = f.start + o.eventsPerFile <;> simp [hn, Option.filter]

-- A list of files is read from its beginning, file by file.
theorem playbackLogfiles_cons (hne : fs ≠ [])
    (h : readEventsFrom c d since f.start = (evs, .ok m)) :
    playbackLogfiles c o d since ((f :: fs).map ref) =
      (evs ++ (playbackLogfiles c o d 0 (fs.map ref)).1,
        (playbackLogfiles c o d 0 (fs.map ref)).2) := by
  have hmap : fs.map ref ≠ [] := by simpa using hne
  simp only [map_cons, playbackLogfiles]
  simp only [ref] at hmap ⊢
  simp only [h, hmap, false_and, if_false]

theorem playbackLogfiles_all (hfile : ∀ f ∈ fs, d.files f.start = some (wire c f.stored))
    (hfits : ∀ f ∈ fs, ∀ r ∈ f.stored, r.Fits c) :
    playbackLogfiles c o d 0 (fs.map ref) =
      ((fs.flatMap (·.stored)).map emitted, .ok (fs.getLast?.bind (moreAfter o))) := by
  induction fs with
  | nil => rfl
  | cons f fs ih =>
    have ⟨hf, hfs⟩ := forall_mem_cons.mp hfile
    have ⟨hr, hrs⟩ := forall_mem_cons.mp hfits
    have hread := readEventsFrom_zero hf hr
    cases fs with
    | nil =>
      rw [map_singleton, playbackLogfiles_singleton hread]
      simp only [Option.filter, moreAfter, flatMap_singleton, getLast?_singleton,
        Option.bind_some, decide_eq_true_eq]
    | cons g fs =>
      rw [playbackLogfiles_cons (cons_ne_nil _ _) hread, ih hfs hrs]
      simp [getLast?_cons_cons]

-- So it is with a cursor that is before the first entry.
theorem playbackLogfiles_from (hs : since ≠ 0) (hstart : 0 < f.start)
    (hlt : ∀ r ∈ f.stored, since < r.seq)
    (hfile : ∀ g ∈ f :: fs, d.files g.start = some (wire c g.stored))
    (hfits : ∀ g ∈ f :: fs, ∀ r ∈ g.stored, r.Fits c) (hlast : f.stored = [] → fs = []) :
    playbackLogfiles c o d since ((f :: fs).map ref) = (((f :: fs).flatMap (·.stored)).map emitted,
        .ok ((f :: fs).getLast?.bind (moreAfter o))) := by
  have ⟨hf, _⟩ := forall_mem_cons.mp hfile
  have ⟨hr, _⟩ := forall_mem_cons.mp hfits
  by_cases hnil : f.stored = []
  · have hpos := o.eventsPerFile_pos
    have hread := readEventsFrom_behind hs hf (by rw [hnil]; exact fun _ h => nomatch h)
    rw [hlast hnil, map_singleton, playbackLogfiles_singleton hread]
    have hmore : moreAfter o f = none := by
      rw [moreAfter, hnil]
      exact if_neg (by simp [lastSeq]; omega)
    simp [hnil, hmore, lastSeq, Ne.symm hs]
  · have hread : readEventsFrom c d since f.start = readEventsFrom c d 0 f.start := by
      rw [readEventsFrom_zero hf hr]
      exact readEventsFrom_before hs (a := []) hf (fun _ h => nomatch h)
        (fun r h => ⟨hr r h, hlt r h⟩) hnil
    have hall := playbackLogfiles_all (o := o) hfile hfits
    simp only [map_cons, playbackLogfiles] at hall ⊢
    rw [ref] at hall ⊢
    simp only [hread] at hall ⊢
    exact hall

end Logfiles

section Split

variable {c : EventCodec} {o : Options} {d : Disk}
variable {older pre post : List LogFile} {last f : LogFile}

theorem OnDisk.file (hd : OnDisk c d older last []) (hf : f ∈ older ++ [last]) :
    d.files f.start = some (wire c f.stored) := by
  rw [mem_append, mem_singleton] at hf
  obtain hf | hf := hf
  · exact hd.older f hf
  · rw [hf, hd.last, append_nil]

-- Where a file is among the others tells its start and its numbers.
structure Position (o : Options) (pre : List LogFile) (f : LogFile) (post : List LogFile) : Prop where
  start : f.start = fileStart o pre.length
  length : (pre.flatMap (·.stored)).length = pre.length * o.eventsPerFile
  before : Numbered Stored.seq o.initialSeq (pre.flatMap (·.stored))
  numbered : Numbered Stored.seq (o.initialSeq + pre.length * o.eventsPerFile) f.stored
  behind : Numbered Stored.seq
    (o.initialSeq + pre.length * o.eventsPerFile + f.stored.length) (post.flatMap (·.stored))
  bounded : f.stored.length ≤ o.eventsPerFile
  full : post ≠ [] → f.stored.length = o.eventsPerFile
  older : ∀ g ∈ pre, g.start < f.start
  newer : ∀ g ∈ post, o.initialSeq + (pre.length + 1) * o.eventsPerFile ≤ g.start

theorem mem_older_of_split (h : older ++ [last] = pre ++ f :: post) :
    (∀ g ∈ pre, g ∈ older) ∧ (post ≠ [] → f ∈ older) ∧ (post = [] → f = last) := by
  obtain hnil | hsnoc := post.eq_nil_or_concat
  · subst hnil
    have ⟨hpre, hf⟩ := append_inj' h rfl
    subst hpre
    cases hf
    exact ⟨fun _ hg => hg, fun hne => absurd rfl hne, fun _ => rfl⟩
  · have ⟨post', g, hpost⟩ := hsnoc
    rw [hpost, concat_eq_append, ←cons_append, ←append_assoc] at h
    have ⟨hold, _⟩ := append_inj' h rfl
    refine ⟨fun g hg => ?_, fun _ => ?_, fun hnil => ?_⟩
    · rw [hold]; exact mem_append_left _ hg
    · rw [hold]; simp
    · simp [hnil] at hpost

theorem Arranged.position (ha : Arranged c o older last)
    (h : older ++ [last] = pre ++ f :: post) : Position o pre f post := by
  have ⟨hpre, hf, hlast⟩ := mem_older_of_split h
  have hlen := length_flatMap_full (fun g hg => ha.full g (hpre g hg))
  have hn := ha.numbered
  rw [h, flatMap_append, flatMap_cons, Numbered.append_iff, Numbered.append_iff, hlen] at hn
  have hstart : f.start = fileStart o pre.length := ha.starts (by rw [h]; simp)
  refine ⟨hstart, hlen, hn.left, hn.right.left, hn.right.right, ?_, fun hne => ha.full f (hf hne),
    fun g hg => ?_, fun g hg => ?_⟩
  · by_cases hnil : post = []
    · rw [hlast hnil]; exact ha.bounded
    · exact le_of_eq (ha.full f (hf hnil))
  · have ⟨i, hi, hg⟩ := getElem_of_mem hg
    have hs : g.start = fileStart o i :=
      ha.starts (by rw [h, getElem?_append_left hi, ←hg, getElem?_eq_getElem])
    rw [hs, hstart]
    exact fileStart_lt hi
  · have ⟨i, hi, hg⟩ := getElem_of_mem hg
    have hs : g.start = fileStart o (pre.length + 1 + i) := by
      refine ha.starts ?_
      rw [h, getElem?_append_right (by omega),
        show pre.length + 1 + i - pre.length = i + 1 by omega, getElem?_cons_succ, ←hg,
        getElem?_eq_getElem]
    have hle : (pre.length + 1) * o.eventsPerFile ≤ (pre.length + 1 + i) * o.eventsPerFile :=
      Nat.mul_le_mul_right _ (by omega)
    rw [hs, show pre.length + 1 + i = (pre.length + i) + 1 by omega, fileStart]
    rw [show pre.length + 1 + i = (pre.length + i) + 1 by omega] at hle
    omega

-- The files by the cursor: the newest that starts before it, and those from it on.
theorem exists_split (hs : since ≠ 0) (ha : Arranged c o older last) : ∃ pre f post,
    older ++ [last] = pre ++ f :: post ∧ f.start < since ∧ ∀ g ∈ post, since ≤ g.start := by
  have hfirst : ∃ g ∈ older ++ [last], g.start < since := by
    cases hfs : older ++ [last] with
    | nil => simp at hfs
    | cons g gs =>
      have hg : g.start = fileStart o 0 := ha.starts (by rw [hfs]; rfl)
      exact ⟨g, .head _, by rw [hg, fileStart]; omega⟩
  generalize older ++ [last] = fs at hfirst
  induction fs with
  | nil => simp at hfirst
  | cons g fs ih =>
    by_cases hin : ∃ g ∈ fs, g.start < since
    · obtain ⟨pre, f, post, hfs, hf, hpost⟩ := ih hin
      exact ⟨g :: pre, f, post, by rw [hfs]; rfl, hf, hpost⟩
    obtain ⟨g', hg', hlt⟩ := hfirst
    cases hg' with
    | tail _ hg' => exact absurd ⟨g', hg', hlt⟩ hin
    | head =>
      refine ⟨[], g, fs, rfl, hlt, fun g' hg' => Nat.le_of_not_lt fun hlt => ?_⟩
      exact hin ⟨g', hg', hlt⟩

end Split

-- The cursors with which a consumer gets all `n` events behind them and no others: those at the end
-- of the log or in its only file with events, and those in a later file, not at the first or the
-- last of its numbers.
def Playable (o : Options) (n since : ℕ) : Prop :=
  since = 0 ∨ ¬(o.eventsPerFile = 1 ∧ since = o.initialSeq ∧ 0 < n) ∧
      (o.initialSeq + n ≤ since + 1 ∨ n ≤ o.eventsPerFile ∨
        o.initialSeq + o.eventsPerFile < since ∧ (since - o.initialSeq) % o.eventsPerFile ≠ 0 ∧
          (since - o.initialSeq + 1) % o.eventsPerFile ≠ 0)

section Arithmetic

variable {o : Options}

theorem eventsPerFile_le_mul (h : j ≠ 0) : o.eventsPerFile ≤ j * o.eventsPerFile :=
  Nat.le_mul_of_pos_left _ (Nat.pos_of_ne_zero h)

-- The cursor falls into file `j`, of `m` entries, before the last of them.
theorem playable_before (hs : since ≠ 0) (hn : n = j * o.eventsPerFile + m + q) (hm : 0 < m)
    (hmE : m ≤ o.eventsPerFile) (hq : 0 < q → m = o.eventsPerFile)
    (hlt : j ≠ 0 → o.initialSeq + j * o.eventsPerFile < since)
    (hb : since + 1 < o.initialSeq + j * o.eventsPerFile + m) :
    Playable o n since ↔ j ≠ 0 ∨ q = 0 := by
  by_cases hj : j = 0
  · subst hj
    have hq' : n ≤ o.eventsPerFile ↔ q = 0 := by omega
    have hnot : ¬o.initialSeq + o.eventsPerFile < since := by omega
    have hend : ¬o.initialSeq + n ≤ since + 1 := by omega
    have hone : ¬(o.eventsPerFile = 1 ∧ since = o.initialSeq ∧ 0 < n) := by omega
    simp [Playable, hs, hone, hend, hnot, hq']
  · have hlt := hlt hj
    have hle := eventsPerFile_le_mul (o := o) hj
    have ⟨r, hr⟩ := Nat.exists_eq_add_of_lt hlt
    have hmod (k : ℕ) (hk : k < o.eventsPerFile) : (j * o.eventsPerFile + k) % o.eventsPerFile = k := by
      rw [Nat.add_comm, Nat.add_mul_mod_self_right, Nat.mod_eq_of_lt hk]
    have hr1 : since - o.initialSeq = j * o.eventsPerFile + (r + 1) := by omega
    have hr2 : since - o.initialSeq + 1 = j * o.eventsPerFile + (r + 2) := by omega
    refine iff_of_true (.inr ⟨by omega, .inr (.inr ⟨by omega, ?_, ?_⟩)⟩) (.inl hj)
    · rw [hr1, hmod _ (by omega)]; omega
    · rw [hr2, hmod _ (by omega)]; omega

-- The cursor is at the last entry of file `j` or behind it.
theorem playable_behind (hs : since ≠ 0) (hn : n = j * o.eventsPerFile + m + q)
    (hq : 0 < q → m = o.eventsPerFile) (hlt : j ≠ 0 → o.initialSeq + j * o.eventsPerFile < since)
    (hnext : 0 < q → since ≤ o.initialSeq + (j + 1) * o.eventsPerFile)
    (hb : m = 0 ∨ o.initialSeq + j * o.eventsPerFile + m ≤ since + 1) :
    Playable o n since ↔ ¬(o.eventsPerFile = 1 ∧ since = o.initialSeq ∧ 0 < n) ∧
      (n = 0 ∨ o.initialSeq + n ≤ since + 1) := by
  rw [Nat.succ_mul] at hnext
  rw [Playable, or_iff_right hs]
  refine and_congr_right fun _ => ⟨fun h => ?_, fun h => ?_⟩
  · by_cases hj : j = 0
    · subst hj
      by_cases hq0 : q = 0
      · omega
      · omega
    · by_cases hq0 : q = 0
      · omega
      have hdvd : (j * o.eventsPerFile + o.eventsPerFile) % o.eventsPerFile = 0 := by
        rw [Nat.add_mod_right, Nat.mul_mod_left]
      obtain h | h := h
      · exact .inr h
      obtain h | h := h
      · omega
      -- The cursor is one of the two numbers where a file ends and the next one begins.
      have ⟨_, h1, h2⟩ := h
      by_cases he : since = o.initialSeq + (j * o.eventsPerFile + o.eventsPerFile)
      · rw [he, Nat.add_sub_cancel_left] at h1; exact absurd hdvd h1
      · have he : since - o.initialSeq + 1 = j * o.eventsPerFile + o.eventsPerFile := by omega
        rw [he] at h2
        exact absurd hdvd h2
  · obtain h | h := h
    · exact .inr (.inl (by omega))
    · exact .inl h

end Arithmetic

section Passes

variable {c : EventCodec} {o : Options} {d : Disk}
variable {older pre post : List LogFile} {last f : LogFile}

theorem Arranged.ascending (ha : Arranged c o older last) :
    (older ++ [last]).Pairwise (·.start < ·.start) := by
  refine pairwise_iff_getElem.mpr fun i j hi hj hij => ?_
  have hs (k : ℕ) (hk : k < (older ++ [last]).length) : (older ++ [last])[k].start = fileStart o k :=
    ha.starts (getElem?_eq_getElem hk)
  rw [hs i hi, hs j hj]
  exact fileStart_lt hij

theorem playbackPasses_none (h : playbackLogfiles c o d since logs = (evs, .ok none)) :
    playbackPasses c o d (passes + 1) since logs = (evs, .ok ()) := by
  simp only [playbackPasses, h]

theorem playbackPasses_some (h : playbackLogfiles c o d since logs = (evs, .ok (some n))) :
    playbackPasses c o d (passes + 1) since logs =
      (evs ++ (playbackPasses c o d passes n (logsFrom d n)).1,
        (playbackPasses c o d passes n (logsFrom d n)).2) := by
  simp only [playbackPasses, h]

theorem lastSeq_numbered (h : Numbered seq n l) (hne : l ≠ []) : lastSeq l + 1 = n + l.length := by
  have ⟨init, r, hl⟩ := (eq_nil_or_concat l).resolve_left hne
  rw [hl, concat_eq_append, Numbered.append_iff] at h
  rw [lastSeq, hl, concat_eq_append, getLast?_append, length_append,
    length_singleton, ←Nat.add_assoc, ←h.right.left]
  rfl

theorem filter_emitted (l : List Stored) : (l.map emitted).filter (since < ·.seq) =
    (l.filter (since < ·.seq)).map emitted := by
  rw [filter_map]
  rfl

-- The entries behind the cursor are in the file it falls into and in those behind it.
theorem Position.filter (hpos : Position o pre f post) (hs : f.start < since) :
    (pre.flatMap (·.stored) ++ (f.stored ++ post.flatMap (·.stored))).filter (since < ·.seq) =
      f.stored.filter (since < ·.seq) ++ (post.flatMap (·.stored)).filter (since < ·.seq) := by
  have hpre : (pre.flatMap (·.stored)).filter (since < ·.seq) = [] := by
    refine filter_eq_nil_iff.mpr fun r hr => ?_
    have hb := (hpos.before.bounds hr).right
    have hmax := max_fileStart o pre.length
    have hne : pre.length ≠ 0 := by
      intro hz
      rw [eq_nil_of_length_eq_zero hz] at hr
      cases hr
    have hle := eventsPerFile_le_mul (o := o) hne
    have hE := o.eventsPerFile_pos
    rw [←hpos.start] at hmax
    rw [hpos.length] at hb
    simp
    omega
  rw [filter_append, filter_append, hpre, nil_append]

theorem Position.again_iff (hpos : Position o pre f post) (hs : since ≠ 0)
    (hn : n = pre.length * o.eventsPerFile + f.stored.length + q)
    (hq : 0 < q → f.stored.length = o.eventsPerFile)
    (hfrom : pre.length ≠ 0 → o.initialSeq + pre.length * o.eventsPerFile < since)
    (hm : f.stored.length = 0 ∨
      o.initialSeq + pre.length * o.eventsPerFile + f.stored.length ≤ since + 1) :
    lastSeq f.stored = since ∧ f.start + o.eventsPerFile = 1 ↔
      o.eventsPerFile = 1 ∧ since = o.initialSeq ∧ 0 < n := by
  have hstart := hpos.start
  have hbounded := hpos.bounded
  have hlast := lastSeq_numbered hpos.numbered
  constructor
  case mp =>
    rintro ⟨he, h1⟩
    have hne : f.stored ≠ [] := fun hnil => hs (by rw [←he, hnil]; rfl)
    have hlen := length_pos_iff.mpr hne
    have hz : pre.length = 0 := fileStart_inj (o := o) (by rw [←hstart, fileStart]; omega)
    have hlast := hlast hne
    rw [hz, Nat.zero_mul] at hlast hn
    omega
  case mpr =>
    rintro ⟨hone, he, hpos⟩
    have hz : pre.length = 0 := by
      by_contra hne
      omega
    rw [hz, fileStart] at hstart
    rw [hz, Nat.zero_mul] at hn
    have hlen : 0 < f.stored.length := by omega
    have hlast := hlast (ne_nil_of_length_pos hlen)
    omega

-- What is read of the file the cursor falls into, if there are entries behind the cursor.
theorem Position.read (hpos : Position o pre f post) (hs : since ≠ 0)
    (hfile : d.files f.start = some (wire c f.stored)) (hfits : ∀ r ∈ f.stored, r.Fits c)
    (hsome : f.stored ≠ [])
    (hbefore : since + 1 < o.initialSeq + pre.length * o.eventsPerFile + f.stored.length) :
    readEventsFrom c d since f.start =
      ((f.stored.filter (since < ·.seq)).map emitted, .ok (some (lastSeq f.stored))) := by
  have hsplit := take_append_drop
    (since + 1 - (o.initialSeq + pre.length * o.eventsPerFile)) f.stored
  have hfilter := hpos.numbered.filter_lt since
  rw [hfilter]
  generalize hk : since + 1 - (o.initialSeq + pre.length * o.eventsPerFile) = k at hsplit hfilter
  have hle : k ≤ f.stored.length := by omega
  have hfront : ∀ r ∈ f.stored.take k, r.Fits c ∧ r.seq ≤ since := fun r hr => by
    have hb := ((hpos.numbered.take k).bounds hr).right
    have hlen := length_pos_of_mem hr
    rw [length_take] at hb hlen
    exact ⟨hfits r (mem_of_mem_take hr), by omega⟩
  have hback : ∀ r ∈ f.stored.drop k, r.Fits c ∧ since < r.seq := fun r hr => by
    rw [←hfilter] at hr
    have ⟨hr, hlt⟩ := mem_filter.mp hr
    exact ⟨hfits r hr, of_decide_eq_true hlt⟩
  have hne : f.stored.drop k ≠ [] := fun hnil => by
    have := length_pos_iff.mpr hsome
    have := congrArg List.length hnil
    rw [length_drop, length_nil] at this
    omega
  have hlast : lastSeq (f.stored.drop k) = lastSeq f.stored := by
    have hdrop := lastSeq_numbered (hpos.numbered.drop hle) hne
    have hall := lastSeq_numbered hpos.numbered hsome
    rw [length_drop] at hdrop
    omega
  rw [←hsplit] at hfile
  rw [readEventsFrom_before hs hfile hfront hback hne, hlast]

section

variable (hd : OnDisk c d older last []) (ha : Arranged c o older last)

include hd ha

theorem OnDisk.logsFrom (n : ℕ) :
    logsFrom d n = ((older ++ [last]).filter (n ≤ ·.start)).map ref := by
  have hsorted : (((older ++ [last]).filter (n ≤ ·.start)).map ref).Pairwise
      (·.seqStart ≤ ·.seqStart) := by
    refine pairwise_map.mpr ((ha.ascending.filter _).imp fun h => ?_)
    exact le_of_lt h
  rw [DiskPersist.logsFrom, hd.refs, filter_map]
  exact hsorted.insertionSort_eq

theorem logsFrom_zero : logsFrom d 0 = (older ++ [last]).map ref := by
  rw [hd.logsFrom ha, filter_eq_self.mpr fun _ _ => by simp]

theorem logsFrom_split
    (h : older ++ [last] = pre ++ f :: post) (hlt : f.start < n) (hle : ∀ g ∈ post, n ≤ g.start) :
    logsFrom d n = post.map ref := by
  have hpre : pre.filter (n ≤ ·.start) = [] := filter_eq_nil_iff.mpr fun g hg => by
    have := (ha.position h).older g hg
    simp
    omega
  have hpost : post.filter (n ≤ ·.start) = post := filter_eq_self.mpr fun g hg => by
    simpa using hle g hg
  rw [hd.logsFrom ha, h, filter_append, hpre,
    filter_cons_of_neg (by simpa using hlt), hpost, nil_append]

-- With the number of the last entry for a cursor nothing is found.
theorem playbackPasses_quiet (hm : moreAfter o last = some n) (passes : ℕ) :
    playbackPasses c o d passes n (logsFrom d n) = ([], .ok ()) := by
  have hpos := ha.position (show older ++ [last] = older ++ last :: [] from rfl)
  have hstart := hpos.start
  have hE := o.eventsPerFile_pos
  have hI := o.initialSeq_pos
  have hfits : ∀ r ∈ last.stored, r.Fits c := ha.fits last (by simp)
  simp only [moreAfter, Option.ite_none_right_eq_some, Option.some_inj] at hm
  obtain ⟨hm, hn⟩ := hm
  by_cases hnil : last.stored = []
  · -- The first file is read again and again, as it has no entries.
    have hzero : n = 0 := by rw [←hn, hnil]; rfl
    have hlast : lastSeq last.stored = 0 := by rw [hn, hzero]
    have hold : older = [] := by
      have : fileStart o older.length = fileStart o 0 := by rw [←hstart, fileStart]; omega
      exact eq_nil_of_length_eq_zero (fileStart_inj this)
    subst hzero
    have hpass : playbackLogfiles c o d 0 (logsFrom d 0) = ([], .ok (some 0)) := by
      rw [logsFrom_zero hd ha, hold, nil_append, map_singleton,
        playbackLogfiles_singleton (readEventsFrom_zero (hd.file (by simp)) hfits), hlast, hnil]
      rw [hlast] at hm
      simp [Option.filter, hm]
    induction passes with
    | zero => rfl
    | succ k ih => rw [playbackPasses_some hpass, ih]; rfl
  · have hend := lastSeq_numbered hpos.numbered hnil
    have hlen := length_pos_iff.mpr hnil
    cases passes with
    | zero => rfl
    | succ k =>
      refine playbackPasses_none ?_
      by_cases hone : o.eventsPerFile = 1
      · have hfilter : (older ++ [last]).filter (n ≤ ·.start) = [last] := by
          have hold : older.filter (n ≤ ·.start) = [] := filter_eq_nil_iff.mpr fun g hg => by
            have := hpos.older g hg
            simp
            omega
          rw [filter_append, hold, nil_append, filter_cons_of_pos (by simp; omega), filter_nil]
        have hne : n ≠ 0 := by omega
        have hread := readEventsFrom_behind hne (hd.file (f := last) (by simp))
          fun r hr => ⟨hfits r hr, by have := (hpos.numbered.bounds hr).right; omega⟩
        rw [hd.logsFrom ha, hfilter, map_singleton, playbackLogfiles_singleton hread, if_pos hn]
        simp [Option.filter]
        omega
      · rw [logsFrom_split hd ha rfl (by omega) fun _ h => by cases h]
        rfl

-- The last pass ends with the newest file.
theorem playbackPasses_last (h : playbackLogfiles c o d since logs = (evs, .ok (moreAfter o last))) :
    playbackPasses c o d (passes + 1) since logs = (evs, .ok ()) := by
  cases hm : moreAfter o last with
  | none => exact playbackPasses_none (hm ▸ h)
  | some n =>
    rw [playbackPasses_some (hm ▸ h), playbackPasses_quiet hd ha hm]
    simp

theorem playbackLogfiles_everything : playbackLogfiles c o d 0 (logsFrom d 0) =
      ((storedOf older last).map emitted, .ok (moreAfter o last)) := by
  rw [logsFrom_zero hd ha, playbackLogfiles_all (fun f hf => hd.file hf) ha.fits, getLast?_append]
  rfl

theorem playback_zero : playback c o d 0 = ((storedOf older last).map emitted, .ok ()) := by
  simp only [playback, ne_eq, not_true, if_false]
  exact playbackPasses_last hd ha (playbackLogfiles_everything hd ha)

-- Nothing in the log is flagged.
theorem OnDisk.emitted : d.emitted c = (storedOf older last).map Stored.emitted := by
  have hread : ∀ f ∈ older ++ [last], ((entries.records ((d.files f.ref.path).getD [])).filter
      (fun r => !postDoNotEmit (readHeader r).flags)).filterMap (readEntry c) =
      f.stored.map Stored.emitted := fun f hf => by
    have hfits := ha.fits f hf
    have hkeep : (f.stored.map (·.bytes c)).filter (fun r => !postDoNotEmit (readHeader r).flags) =
        f.stored.map (·.bytes c) := by
      refine filter_eq_self.mpr fun b hb => ?_
      have ⟨r, hr, he⟩ := mem_map.mp hb
      rw [←he, Stored.readHeader_self (hfits r hr)]
      simp [postDoNotEmit, Stored.header]
    rw [ref, hd.file hf, Option.getD_some, records_wire_self hfits, hkeep, filterMap_map,
      ←filterMap_eq_map]
    exact filterMap_congr fun r hr => readEntry_bytes (hfits r hr)
  rw [Disk.emitted, hd.refs, flatMap_map, storedOf, map_flatMap]
  exact flatMap_congr hread

variable (hs : since ≠ 0) (h : older ++ [last] = pre ++ f :: post) (hlt : f.start < since)
  (hle : ∀ g ∈ post, since ≤ g.start)

include h hlt hle

theorem latest_split : latest (d.refs.filter (·.seqStart < since)) = some f.ref := by
  have hpos := ha.position h
  have hpre : pre.filter (·.start < since) = pre := filter_eq_self.mpr fun g hg => by
    have := hpos.older g hg
    simp
    omega
  have hpost : post.filter (·.start < since) = [] := filter_eq_nil_iff.mpr fun g hg => by
    simpa using hle g hg
  have hfilter : d.refs.filter (·.seqStart < since) = pre.map ref ++ [f.ref] := by
    have hcomp : (fun ref : LogFileRef => decide (ref.seqStart < since)) ∘ ref =
        fun g => decide (g.start < since) := rfl
    rw [hd.refs, h, filter_map, hcomp, filter_append, hpre,
      filter_cons_of_pos (by simpa using hlt), hpost, map_append]
    rfl
  rw [hfilter]
  refine latest_snoc fun ref hr => ?_
  have ⟨g, hg, he⟩ := mem_map.mp hr
  exact he ▸ le_of_lt (hpos.older g hg)

include hs

theorem playback_split : playback c o d since = playbackPasses c o d 10 since [f.ref] := by
  simp only [playback, if_pos hs, latest_split hd ha h hlt hle]

-- The cursor is at the end of its file or behind it: only a first file for a single entry is taken
-- to be full, and everything is played again.
theorem playback_behind (hbehind : ∀ r ∈ f.stored, r.seq ≤ since) :
    playback c o d since = (if lastSeq f.stored = since ∧ f.start + o.eventsPerFile = 1
        then (storedOf older last).map emitted else [], .ok ()) := by
  have hmem : f ∈ older ++ [last] := by rw [h]; simp
  have hread := readEventsFrom_behind hs (hd.file hmem)
    fun r hr => ⟨ha.fits f hmem r hr, hbehind r hr⟩
  have hpass := playbackLogfiles_singleton (o := o) hread
  rw [playback_split hd ha hs h hlt hle]
  by_cases hlast : lastSeq f.stored = since ∧ f.start + o.eventsPerFile = 1
  · have hagain : playbackLogfiles c o d since [f.ref] = ([], .ok (some 0)) := by
      rw [hpass, if_pos hlast.left]
      simp [Option.filter, hlast.right]
    rw [playbackPasses_some hagain, if_pos hlast,
      playbackPasses_last hd ha (playbackLogfiles_everything hd ha)]
    rfl
  · refine playbackPasses_none ?_
    rw [hpass]
    split
    case isTrue he =>
      have hne : ¬0 + 1 = f.start + o.eventsPerFile := fun h1 => hlast ⟨he, by omega⟩
      simp [Option.filter, hne]
    · rfl

-- There are entries behind the cursor in its file. Unless that is the first one, the files behind
-- it are played as well.
theorem playback_before (hne : f.stored ≠ [])
    (hbefore : since + 1 < o.initialSeq + pre.length * o.eventsPerFile + f.stored.length) :
    playback c o d since = ((f.stored.filter (since < ·.seq) ++
        if pre = [] then [] else post.flatMap (·.stored)).map emitted, .ok ()) := by
  have hmem : f ∈ older ++ [last] := by rw [h]; simp
  have hpos := ha.position h
  have hread := hpos.read hs (hd.file hmem) (ha.fits f hmem) hne hbefore
  have hpass := playbackLogfiles_singleton (o := o) hread
  have hmore : (some (lastSeq f.stored)).filter (· + 1 = f.start + o.eventsPerFile) =
      moreAfter o f := by
    simp [Option.filter, moreAfter]
  rw [hmore] at hpass
  rw [playback_split hd ha hs h hlt hle]
  cases post with
  | nil =>
    rw [(mem_older_of_split h).right.right rfl] at hpass ⊢
    rw [playbackPasses_last hd ha hpass]
    simp
  | cons g gs =>
    have hI := o.initialSeq_pos
    have hfull := hpos.full (cons_ne_nil _ _)
    have hlast := lastSeq_numbered hpos.numbered hne
    have hstart := hpos.start
    cases pre with
    | nil =>
      have hnone : moreAfter o f = none := by
        rw [length_nil, fileStart] at hstart
        exact if_neg (by omega)
      rw [hnone] at hpass
      rw [playbackPasses_none hpass]
      simp
    | cons p ps =>
      rw [length_cons, fileStart] at hstart
      rw [length_cons] at hlast hbefore
      have hsome : moreAfter o f = some (lastSeq f.stored) := if_pos (by omega)
      have hbehind := hpos.behind
      have hnewer := hpos.newer
      rw [length_cons] at hbehind hnewer
      rw [Nat.succ_mul] at hnewer
      have hpos' := ha.position (show older ++ [last] = (p :: ps ++ [f]) ++ g :: gs by simp [h])
      have hlogs : logsFrom d (lastSeq f.stored) = (g :: gs).map ref :=
        logsFrom_split hd ha h (by omega) fun g' hg' => by have := hnewer g' hg'; omega
      have hin : ∀ g' ∈ g :: gs, g' ∈ older ++ [last] := fun g' hg' => by
        rw [h]
        exact mem_append_right _ (.tail _ hg')
      have hrest := playbackLogfiles_from (o := o) (f := g) (show lastSeq f.stored ≠ 0 by omega)
        (by have := hnewer g (.head _); omega)
        (fun r hr => by
          have := (hbehind.bounds (mem_flatMap.mpr ⟨g, .head _, hr⟩)).left
          omega)
        (fun g' hg' => hd.file (hin g' hg')) (fun g' hg' => ha.fits g' (hin g' hg'))
        (fun hnil => by
          by_contra hne
          have := hpos'.full hne
          rw [hnil, length_nil] at this
          omega)
      have hend : (g :: gs).getLast? = some last := by
        have := congrArg List.getLast? h
        rwa [getLast?_append_of_ne_nil _ (by simp), getLast?_append_of_ne_nil _ (by simp),
          getLast?_cons_cons, getLast?_singleton, eq_comm] at this
      rw [hend, Option.bind_some] at hrest
      rw [hsome] at hpass
      rw [playbackPasses_some hpass, hlogs, playbackPasses_last hd ha hrest]
      simp

theorem playback_exact_split :
    playback c o d since = (((storedOf older last).filter (since < ·.seq)).map emitted, .ok ()) ↔
      Playable o (storedOf older last).length since := by
  have hpos := ha.position h
  have hstored : storedOf older last =
      pre.flatMap (·.stored) ++ (f.stored ++ post.flatMap (·.stored)) := by
    rw [storedOf, h, flatMap_append, flatMap_cons]
  have hn : (storedOf older last).length = pre.length * o.eventsPerFile + f.stored.length +
      (post.flatMap (·.stored)).length := by
    rw [hstored, length_append, length_append, hpos.length, Nat.add_assoc]
  have hq : 0 < (post.flatMap (·.stored)).length → f.stored.length = o.eventsPerFile := fun hq =>
    hpos.full fun hnil => by rw [hnil] at hq; cases hq
  have hfrom : pre.length ≠ 0 → o.initialSeq + pre.length * o.eventsPerFile < since := fun hne => by
    have hmax := max_fileStart o pre.length
    have := eventsPerFile_le_mul (o := o) hne
    have := o.eventsPerFile_pos
    rw [←hpos.start] at hmax
    omega
  have hend : (storedOf older last).filter (since < ·.seq) = [] ↔
      (storedOf older last).length = 0 ∨ o.initialSeq + (storedOf older last).length ≤ since + 1 := by
    rw [storedOf, ha.numbered.filter_lt since, drop_eq_nil_iff]
    omega
  by_cases hb : f.stored ≠ [] ∧
      since + 1 < o.initialSeq + pre.length * o.eventsPerFile + f.stored.length
  · obtain ⟨hne, hb⟩ := hb
    have hpost : (post.flatMap (·.stored)).filter (since < ·.seq) = post.flatMap (·.stored) := by
      refine filter_eq_self.mpr fun r hr => ?_
      have := (hpos.behind.bounds hr).left
      simp
      omega
    rw [playback_before hd ha hs h hlt hle hne hb, hstored, hpos.filter hlt, hpost, ←hstored,
      playable_before hs hn (length_pos_iff.mpr hne) hpos.bounded hq hfrom hb]
    generalize post.flatMap (·.stored) = behind
    by_cases hnil : pre = [] <;> simp [hnil]
  · have hm : f.stored.length = 0 ∨
        o.initialSeq + pre.length * o.eventsPerFile + f.stored.length ≤ since + 1 := by
      by_cases hnil : f.stored = []
      · exact .inl (by rw [hnil]; rfl)
      · exact .inr (Nat.le_of_not_lt fun hlt => hb ⟨hnil, hlt⟩)
    have hbehind : ∀ r ∈ f.stored, r.seq ≤ since := fun r hr => by
      have := (hpos.numbered.bounds hr).right
      have := length_pos_of_mem hr
      omega
    have hnext : 0 < (post.flatMap (·.stored)).length →
        since ≤ o.initialSeq + (pre.length + 1) * o.eventsPerFile := fun hq => by
      cases post with
      | nil => cases hq
      | cons g gs =>
        have hg := (ha.position (show older ++ [last] = (pre ++ [f]) ++ g :: gs by simp [h])).start
        rw [length_append, length_singleton, fileStart] at hg
        exact hg ▸ hle g (.head _)
    rw [playback_behind hd ha hs h hlt hle hbehind, playable_behind hs hn hq hfrom hnext hm, ←hend]
    have hagain := hpos.again_iff hs hn hq hfrom hm
    by_cases hone : o.eventsPerFile = 1 ∧ since = o.initialSeq ∧ 0 < (storedOf older last).length
    · rw [if_pos (hagain.mpr hone)]
      refine iff_of_false (fun he => ?_) fun hnot => hnot.left hone
      -- The event of the cursor is played again.
      have hlen := congrArg (fun p => p.1.length) he
      simp only [length_map] at hlen
      rw [storedOf, ha.numbered.filter_lt since, length_drop, ←storedOf] at hlen
      omega
    · rw [if_neg fun h => hone (hagain.mp h), Prod.mk.injEq, and_iff_left rfl, eq_comm,
        map_eq_nil_iff]
      exact (and_iff_right hone).symm

end

end Passes

section Exact

variable {c : EventCodec} {o : Options}

-- A consumer gets the events behind its cursor, each once and in order, iff the cursor is playable.
theorem playback_exact_iff (h : (system c o).Reachable s) (hp : s.proc = some dp) (since : ℕ) :
    playback c o s.disk since = ((s.disk.emitted c).filter (since < ·.seq), .ok ()) ↔
      Playable o (s.disk.emitted c).length since := by
  obtain ⟨older, last, ha, hd, _⟩ := (inv_of_reachable h).working hp
  rw [hd.emitted ha, filter_emitted, length_map]
  by_cases hs : since = 0
  · have hall : (storedOf older last).filter (since < ·.seq) = storedOf older last := by
      rw [storedOf, ha.numbered.filter_lt since]
      have := o.initialSeq_pos
      rw [show since + 1 - o.initialSeq = 0 by omega, drop_zero]
    rw [hall, hs, playback_zero hd ha]
    exact iff_of_true rfl (.inl rfl)
  · obtain ⟨pre, f, post, hsplit, hlt, hle⟩ := exists_split hs ha
    exact playback_exact_split hd ha hs hsplit hlt hle

theorem playback_exact_sample : ∃ s, (system sampleCodec sampleOptions).Reachable s ∧
    playback sampleCodec sampleOptions s.disk 0 =
      ((s.disk.emitted sampleCodec).filter (0 < ·.seq), .ok ()) := by
  have ⟨hr, _, hp, _⟩ := sampleLog_reachable (n := 3) (by decide)
  exact ⟨_, hr, (playback_exact_iff hr hp 0).mpr (.inl rfl)⟩

-- Of three events the third is in the second file. With the first for a cursor it is not played.
theorem playback_first_file_ends : ∃ s, (system sampleCodec sampleOptions).Reachable s ∧
    (s.disk.emitted sampleCodec).filter (1 < ·.seq) =
      [(sampleStored 2).emitted, (sampleStored 3).emitted] ∧
    (playback sampleCodec sampleOptions s.disk 1).1 = [(sampleStored 2).emitted] := by
  have hr := (sampleLog_reachable (n := 3) (by decide)).left
  exact ⟨_, hr, by decide +kernel, by decide +kernel⟩

end Exact

end Relay.DiskPersist
