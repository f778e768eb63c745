import HypercertsRelay.Atproto.Mst.Canonical

namespace Atproto.Mst

open NodeEntry NodeEntry NodeData Node

variable {codec : Codec Cid Block} {N : Naming Cid} {n : Node Cid}

-- The CIDs in use are those the codec gives.
def Naming.Sound (codec : Codec Cid Block) (N : Naming Cid) : Prop :=
  ∀ h c l, N.names h c l ↔ cidAt codec N.heightForKey h l = .ok c

-- What `writeBlocks` does with a node that holds the pairs.
structure WritesNode (codec : Codec Cid Block) (N : Naming Cid) (h : ℕ) (l : Pairs Cid)
    (w : Written Cid Block Cid (Node Cid)) : Prop where
  result : w.result = cidAt codec N.heightForKey h l
  rep : N.Rep h w.left l
  dirty : ∀ e, w.result = .error e → w.left.dirty

-- What it does with the entries of such a node, which are to become these links and values.
structure WritesEntries (N : Naming Cid) (h : ℕ) (l : Pairs Cid)
    (r : Except Error (List (NodeEntry Cid))) (w : Written Cid Block Unit (List (NodeEntry Cid))) :
    Prop where
  result : w.result = r.map fun _ => ()
  layer : Layer N.heightForKey (N.Below h) h w.left l
  data : ∀ es, r = .ok es → List.Forall₂ SameData w.left es

inductive WritesChild (codec : Codec Cid Block) (N : Naming Cid) (h : ℕ) (e : NodeEntry Cid)
    (l : Pairs Cid) : Prop where
  | ok {c} (e' bs) :
    cidBelow codec N.heightForKey h l = .ok c → N.Below h e' l → e'.childCID? = some c →
    (∀ es, writeEntries codec (e :: es) =
      ⟨(writeEntries codec es).result, e' :: (writeEntries codec es).left,
        bs ++ (writeEntries codec es).blocks⟩) →
    WritesChild codec N h e l
  | error {er} (e' bs) :
    cidBelow codec N.heightForKey h l = .error er → N.Below h e' l →
    (∀ es, writeEntries codec (e :: es) = ⟨.error er, e' :: es, bs⟩) →
    WritesChild codec N h e l

theorem sameData_link (he : e.isChild) (hc : e.childCID? = some c) : SameData e (link c) := by
  cases e with
  | value => simp [isChild] at he
  | link => exact ⟨rfl, rfl, hc⟩
  | child => exact ⟨rfl, rfl, hc⟩

theorem Naming.Below.height_ne (hb : N.Below h e l) : ∀ p ∈ l, N.heightForKey p.1 ≠ h :=
  fun p hp => (hb.height_lt p hp).ne

theorem WritesEntries.value
    (hk : k ≠ []) (hh : N.heightForKey k = h) (hw : WritesEntries N h l r (writeEntries codec es)) :
    WritesEntries N h ((k, v) :: l) (r.map (value k v false :: ·))
      (writeEntries codec (value k v d :: es)) := by
  refine ⟨?_, .value hk hh hw.layer, fun es' hes' => ?_⟩
  · rw [writeEntries, hw.result]
    cases r <;> rfl
  · cases r with
    | error => cases hes'
    | ok es => cases hes'; exact .cons ⟨rfl, rfl⟩ (hw.data es rfl)

theorem WritesEntries.link (he : e.isChild) (hc : e.childCID? = some c)
    (hw : WritesEntries N h l r w) (hl : Layer N.heightForKey (N.Below h) h (e :: w.left) l') :
    WritesEntries N h l' (r.map (link c :: ·)) ⟨w.result, e :: w.left, bs⟩ := by
  refine ⟨?_, hl, fun es' hes' => ?_⟩
  · simp only [hw.result]
    cases r <;> rfl
  · cases r with
    | error => cases hes'
    | ok es => cases hes'; exact .cons (sameData_link he hc) (hw.data es rfl)

theorem Layer.writeEntries (hchild : ∀ e l, N.Below h e l → WritesChild codec N h e l)
    (hl : Layer N.heightForKey (N.Below h) h es l) :
    WritesEntries N h l (linksAt codec N.heightForKey h l) (writeEntries codec es) := by
  unfold linksAt
  induction hl with
  | nil => exact ⟨rfl, .nil, by simp [linkEntries, linkBelow, Mst.writeEntries]⟩
  | value hk hh _ ih =>
    rw [linkEntries_value hh]
    exact ih.value hk hh
  | @last e l he hb =>
    rw [linkEntries_last hb.ne_nil hb.height_ne]
    cases hchild e l hb with
    | @ok c e' _ hc hb' hcid heq =>
      have hnil : WritesEntries N h [] (.ok []) (Mst.writeEntries codec []) :=
        ⟨rfl, .nil, by simp [Mst.writeEntries]⟩
      rw [heq, hc]
      exact hnil.link hb'.isChild hcid (.last hb'.isChild hb')
    | @error er e' _ hc hb' heq =>
      rw [heq, hc]
      exact ⟨rfl, .last hb'.isChild hb', fun _ h => by cases h⟩
  | @child e l₁ k v d es l₂ he hb hk hh htail ih =>
    rw [linkEntries_child hb.ne_nil hb.height_ne hh]
    cases hchild e l₁ hb with
    | @ok c e' _ hc hb' hcid heq =>
      have hlinks (r : Except Error (List (NodeEntry Cid))) :
          (do let c ← Except.ok c; let es ← r; pure (.link c :: .value k v false :: es)) =
            (r.map (.value k v false :: ·)).map (.link c :: ·) := by
        cases r <;> rfl
      rw [heq, hc, hlinks]
      exact (ih.value hk hh).link hb'.isChild hcid (.child hb'.isChild hb' hk hh ih.layer)
    | @error er e' _ hc hb' heq =>
      rw [heq, hc]
      exact ⟨rfl, .child hb'.isChild hb' hk hh htail, fun _ h => by cases h⟩

section Node

variable {w : Written Cid Block Unit (List (NodeEntry Cid))}

variable (codec) in
theorem entriesCID_eq (es : List (NodeEntry Cid)) :
    (∃ b c, nodeData es >>= bytes codec = .ok (b, c) ∧ entriesCID codec es = .ok c) ∨
      ∃ er, nodeData es >>= bytes codec = .error er ∧ entriesCID codec es = .error er := by
  unfold entriesCID
  cases nodeData es >>= bytes codec with
  | error er => exact .inr ⟨er, rfl, rfl⟩
  | ok bc => exact .inl ⟨bc.1, bc.2, rfl, rfl⟩

variable (hs : n.stub = false) (hd : n.dirty) (hw : writeEntries codec n.entries = w)

include hs hd hw

theorem writeBlocks_of_children_error (hr : w.result = .error er) :
    n.writeBlocks codec = ⟨.error er, { n with entries := w.left }, w.blocks⟩ := by
  have ⟨es, i, d, c, stub⟩ := n
  subst hs hd
  simp [writeBlocks, hw, hr]

theorem writeBlocks_of_error (hr : w.result = .ok ())
    (hb : nodeData w.left >>= bytes codec = .error er) :
    n.writeBlocks codec = ⟨.error er, { n with entries := w.left }, w.blocks⟩ := by
  have ⟨es, i, d, c, stub⟩ := n
  subst hs hd
  simp [writeBlocks, writeBlock, hw, hr, hb]

theorem writeBlocks_of_ok (hr : w.result = .ok ())
    (hb : nodeData w.left >>= bytes codec = .ok (b, c)) :
    n.writeBlocks codec = ⟨.ok c, { n with entries := w.left, cid := some c, dirty := false },
        w.blocks ++ [(c, b)]⟩ := by
  have ⟨es, i, d, c, stub⟩ := n
  subst hs hd
  simp [writeBlocks, writeBlock, hw, hr, hb]

end Node

theorem Naming.NodeAt.of_entries (hr : N.Rep h n l) (hd : n.dirty)
    (hl : Layer N.heightForKey (N.Below h) h es l) : N.Rep h { n with entries := es } l :=
  ⟨hr.stub, hr.height, fun hclean => Bool.noConfusion (hd.symm.trans hclean), hl⟩

theorem writeBlocks_of_clean (hs : n.stub = false) (hd : n.dirty = false)
    (hc : n.cid = some c) : n.writeBlocks codec = ⟨.ok c, n, []⟩ := by
  cases n
  simp_all [writeBlocks]

theorem Naming.NodeAt.writeBlocks_layer (hN : N.Sound codec) (hr : N.Rep h n l)
    (hw : WritesEntries N h l (linksAt codec N.heightForKey h l) (writeEntries codec n.entries)) :
    WritesNode codec N h l (n.writeBlocks codec) := by
  cases hd : n.dirty with
  | false =>
    have ⟨c, hc, hnames⟩ := hr.cached hd
    rw [writeBlocks_of_clean hr.stub hd hc]
    exact ⟨((hN h c l).mp hnames).symm, hr, nofun⟩
  | true =>
    have hres := hw.result
    cases hlinks : linksAt codec N.heightForKey h l with
    | error er =>
      have hcid : cidAt codec N.heightForKey h l = .error er := by rw [cidAt_eq, hlinks]; rfl
      rw [hlinks] at hres
      rw [writeBlocks_of_children_error hr.stub hd rfl hres]
      exact ⟨hcid.symm, hr.of_entries hd hw.layer, fun _ _ => hd⟩
    | ok es =>
      have hcid : cidAt codec N.heightForKey h l = entriesCID codec es := by rw [cidAt_eq, hlinks]; rfl
      have hdata := nodeData_congr (hw.data es hlinks)
      rw [hlinks] at hres
      rcases entriesCID_eq codec es with ⟨b, c, hb, hok⟩ | ⟨er, hb, herr⟩
      · rw [writeBlocks_of_ok hr.stub hd rfl hres (hdata ▸ hb)]
        have hnames : N.names h c l := (hN h c l).mpr (hcid.trans hok)
        exact ⟨(hcid.trans hok).symm, ⟨hr.stub, hr.height, fun _ => ⟨c, rfl, hnames⟩, hw.layer⟩, nofun⟩
      · rw [writeBlocks_of_error hr.stub hd rfl hres (hdata ▸ hb)]
        exact ⟨(hcid.trans herr).symm, hr.of_entries hd hw.layer, fun _ _ => hd⟩

theorem WritesNode.child {c} (hN : N.Sound codec)
    (hb : N.Below (h + 1) (child c n d) l) (hw : WritesNode codec N h l (n.writeBlocks codec)) :
    WritesChild codec N (h + 1) (child c n d) l := by
  by_cases hd : d || n.dirty
  · cases hcid : cidAt codec N.heightForKey h l with
    | ok cc =>
      have hres := hw.result.trans hcid
      refine .ok (NodeEntry.child (some cc) (n.writeBlocks codec).left false)
        (n.writeBlocks codec).blocks hcid
        ⟨hb.left, hw.rep, fun _ _ => ⟨cc, rfl, (hN h cc l).mpr hcid⟩⟩ rfl fun es => ?_
      simp only [writeEntries, if_pos hd, hres]
    | error er =>
      have hres := hw.result.trans hcid
      have hdirty := hw.dirty er hres
      refine .error (NodeEntry.child c (n.writeBlocks codec).left d) (n.writeBlocks codec).blocks hcid
        ⟨hb.left, hw.rep, fun _ hn => by simp [hdirty] at hn⟩ fun es => ?_
      simp only [writeEntries, if_pos hd, hres]
  · have ⟨hd', hn⟩ : d = false ∧ n.dirty = false := by simpa using hd
    have ⟨cc, hc, hnames⟩ := hb.right.right hd' hn
    refine .ok _ [] ((hN h cc l).mp hnames) hb hc fun es => ?_
    simp only [writeEntries, if_neg hd, List.nil_append]

-- A node that holds the pairs gets the CID the pairs have at its height, whatever its history.
theorem Naming.NodeAt.writeBlocks (hN : N.Sound codec) (hr : N.Rep h n l) :
    WritesNode codec N h l (n.writeBlocks codec) := by
  induction h generalizing n l with
  | zero => exact hr.writeBlocks_layer hN (hr.layer.writeEntries fun _ _ hb => hb.elim)
  | succ h ih =>
    refine hr.writeBlocks_layer hN (hr.layer.writeEntries fun e l hb => ?_)
    cases e with
    | value => exact hb.elim
    | link c =>
      refine .ok _ [] ((hN h c l).mp (N.names_of_links hb.right)) hb rfl fun es => ?_
      simp only [writeEntries, List.nil_append]
    | child c n d => exact (ih hb.right.left).child hN hb

end Atproto.Mst
