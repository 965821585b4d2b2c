import PySQL.BTree.Borrow

/-!
# Merging

Two neighbours become one node, and their parent has one child less.  The parent may now have too few
keys itself, or be a root with nothing but one child left.
-/

namespace PySQL.BTree

open BPlusTree

set_option linter.unusedSectionVars false

variable {κ ν : Type} [LinearOrder κ] [DecidableEq ν]
  {t t' : BPlusTree κ ν} {n : ℕ} {f : Frame κ ν n} {c : Ctx κ ν (n + 1)} {a b m : Tree κ ν n} {k : κ}
  {lo hi : ℕ}

/-- One node in the place of two neighbours. -/
theorem Held.setMerged (h : Held t c (f.pair a k b)) (hid : m.id = a.id)
    (hm : m.At t'.node (some f.id)) (hids : (b.id :: m.ids).Perm (a.ids ++ b.ids))
    (hf : (t'.node f.id).core =
      { (t.node f.id).core with keys := f.keys, children := f.childrenWith Tree.id a.id })
    (hcore : ∀ i, i ≠ f.id → i ∉ a.ids → i ∉ b.ids → (t'.node i).core = (t.node i).core)
    (hfresh : t'.fresh = t.fresh) (hr : t'.root = t.root) (hh : t'.height = t.height)
    (hlinked : Linked t'.node none (leafIds (c.whole (f.fill m)))) : Held t' c (f.fill m) := by
  obtain ⟨-, hnd, hdis⟩ := List.nodup_append'.mp h.nodup
  have hperm : (f.pair a k b).ids.Perm (b.id :: (f.fill m).ids) := by
    refine (f.ids_pair a k b).trans ((hids.symm.append_left _).trans (List.perm_middle.trans ?_))
    exact (f.ids_fill m).symm.cons _
  have hin : ∀ i, i = f.id ∨ i ∈ a.ids ∨ i ∈ b.ids → i ∈ (f.pair a k b).ids := by
    intro i hi
    rw [(f.ids_pair a k b).mem_iff, List.mem_append, List.mem_append]
    rcases hi with rfl | hi | hi
    · exact .inl List.mem_cons_self
    · exact .inr (.inl hi)
    · exact .inr (.inr hi)
  have hout : ∀ i, i ∉ (f.pair a k b).ids → (t'.node i).core = (t.node i).core := fun i hni =>
    hcore i (fun heq => hni (hin i (.inl heq))) (fun hi => hni (hin i (.inr (.inl hi))))
      fun hi => hni (hin i (.inr (.inr hi)))
  refine h.setFocus rfl ⟨?_, fun s hs => ?_⟩ (fun i hi => hout i fun hi' => hdis hi hi') ?_ ?_ hfresh
    hr hh hlinked
  · have hold : (t.node f.id).core = _ := h.focus.1
    change (t'.node f.id).core = _
    rw [hf, hold]
    simp only [Frame.fill, Frame.childrenWith, hid, List.map_append, List.map_cons, List.map_map]
    rfl
  · rcases (f.mem_children_fill m s).mp hs with rfl | hs
    · exact hm
    · have hs' := h.focus.2 s ((f.mem_children_pair a k b s).mpr (.inr (.inr hs)))
      refine hs'.congr fun i hi => ?_
      have hif : i ∈ f.ids.tail := List.mem_flatMap.mpr ⟨s, hs, hi⟩
      obtain ⟨hfnd, -, hfdis⟩ := List.nodup_append'.mp ((f.ids_pair a k b).nodup_iff.mp hnd)
      refine hcore i (fun heq => ?_) (fun hia => ?_) fun hib => ?_
      · exact (List.nodup_cons.mp hfnd).1 (heq ▸ hif)
      · exact hfdis (List.mem_cons_of_mem _ hif) (List.mem_append_left _ hia)
      · exact hfdis (List.mem_cons_of_mem _ hif) (List.mem_append_right _ hib)
  · exact (List.nodup_cons.mp (hperm.nodup_iff.mp hnd)).2
  · exact fun i hi => hperm.mem_iff.mpr (List.mem_cons_of_mem _ hi)

/-- What `_merge_nodes` has done before it looks at the parent's number of keys. -/
structure Absorbed (t t₁ : BPlusTree κ ν) (c : Ctx κ ν (n + 1)) (f : Frame κ ν n) (a : Tree κ ν n)
    (k : κ) (b m : Tree κ ν n) : Prop where
  id : m.id = a.id
  held : Held (t₁.update f.id ({ · with keys := f.keys, children := f.childrenWith Tree.id a.id })) c
    (f.fill m)
  parent : (t₁.node f.id).core = (t.node f.id).core
  tokens : (tokens m.flat).Sublist (tokens (a.flat ++ .sep k :: b.flat))
  contents : contents m.flat = contents a.flat ++ contents b.flat
  sizes : a.size + b.size ≤ m.size ∧ m.size ≤ a.size + b.size + 1 ∧ (0 < n → 1 ≤ m.size)
  below : ∀ {lo hi}, a.Below lo hi → b.Below lo hi → m.Below lo hi
  params : SameParams t t₁

/-- The store with the pairs of the leaf `right` added to those of the leaf `left`. -/
def absorbLeaf (t : BPlusTree κ ν) (left right : ℕ) : BPlusTree κ ν :=
  let r := t.node right
  let t := t.update left fun n =>
    { n with keys := n.keys ++ r.keys, values := n.values ++ r.values, nextLeaf := r.nextLeaf }
  match r.nextLeaf with
  | some next => t.update next ({ · with prevLeaf := some left })
  | none => t

/-- Two leaves become one, and the right one leaves the linked list. -/
theorem absorb_leaf {f : Frame κ ν 0} {c : Ctx κ ν 1} {ia ib : ℕ} {A B : List (κ × ν)}
    (h : Held t c (f.pair (leaf ia A) k (leaf ib B))) :
    ∃ t₁, t.absorb ia ib f.id f.left.length = some t₁ ∧
      Absorbed t t₁ c f (leaf ia A) k (leaf ib B) (leaf ia (A ++ B)) := by
  have hw := h.window
  obtain ⟨hka, hva⟩ := hw.left.leaf_eq
  obtain ⟨hkb, hvb⟩ := hw.right.leaf_eq
  have hleaf : (t.node ia).isLeaf = true := hw.left.isLeaf_eq
  have hfa : f.id ≠ ia := fun heq => hw.parentLeft (List.mem_singleton.mpr heq)
  have hab : ia ≠ ib := fun heq =>
    hw.disjoint ia (List.mem_singleton_self _) (List.mem_singleton.mpr heq)
  have hwhole : leafIds (c.whole (f.pair (leaf ia A) k (leaf ib B))) =
      leafIds (c.before ++ f.before) ++ ia :: ib :: leafIds (f.after ++ c.after) := by
    simp [Ctx.whole, Frame.flat_pair]
  have hlinked := h.linked
  have hnodup := h.nodup_leafIds
  rw [hwhole] at hlinked hnodup
  have hnext : (t.node ib).nextLeaf = (leafIds (f.after ++ c.after)).head? := by
    rw [← List.singleton_append, ← List.append_assoc] at hlinked
    exact hlinked.nextLeaf_eq
  have hnext' : ∀ i ∈ (t.node ib).nextLeaf, i ≠ ia ∧ i ∈ leafIds (f.after ++ c.after) := by
    intro i hi
    have hmem := List.mem_of_head? (hnext ▸ hi)
    refine ⟨fun heq => ?_, hmem⟩
    have htail := (List.nodup_append'.mp hnodup).2.1
    exact (List.nodup_cons.mp htail).1 (List.mem_cons_of_mem _ (heq ▸ hmem))
  have hrun : t.absorb ia ib f.id f.left.length = some (absorbLeaf t ia ib) := by
    unfold absorb absorbLeaf
    simp only [hleaf, if_true]
    cases (t.node ib).nextLeaf <;> rfl
  -- what the resulting store holds
  obtain ⟨hna, hright, hother, hfields⟩ : (absorbLeaf t ia ib).node ia = { t.node ia with
        keys := (A ++ B).map Prod.fst, values := (A ++ B).map Prod.snd
        nextLeaf := (t.node ib).nextLeaf } ∧
      (∀ i ∈ (t.node ib).nextLeaf,
        (absorbLeaf t ia ib).node i = { t.node i with prevLeaf := some ia }) ∧
      (∀ i, i ≠ ia → (t.node ib).nextLeaf ≠ some i → (absorbLeaf t ia ib).node i = t.node i) ∧
      (absorbLeaf t ia ib).fresh = t.fresh ∧ (absorbLeaf t ia ib).root = t.root ∧
      (absorbLeaf t ia ib).height = t.height ∧ SameParams t (absorbLeaf t ia ib) := by
    unfold absorbLeaf
    dsimp only
    cases hn : (t.node ib).nextLeaf with
    | none =>
      refine ⟨?_, ?_, ?_, rfl, rfl, rfl, ⟨rfl, rfl, rfl⟩⟩
      · simp [hka, hva, hkb, hvb]
      · simp
      · intro i hia _
        simp [update_node_ne, hia]
    | some j =>
      obtain ⟨hja, -⟩ := hnext' j hn
      refine ⟨?_, ?_, ?_, rfl, rfl, rfl, ⟨rfl, rfl, rfl⟩⟩
      · simp [update_node_ne, hja.symm, hka, hva, hkb, hvb]
      · intro i hi
        obtain rfl : j = i := Option.some.inj hi
        simp [update_node_ne, hja]
      · intro i hia hij
        have hij' : i ≠ j := fun heq => hij (heq ▸ rfl)
        simp [update_node_ne, hia, hij']
  generalize absorbLeaf t ia ib = t₁ at *
  obtain ⟨hfresh, hroot, hheight, hparams⟩ := hfields
  have hcore : ∀ i, i ≠ ia → (t₁.node i).core = (t.node i).core := by
    intro i hia
    by_cases hn : (t.node ib).nextLeaf = some i
    · rw [hright i hn]
      rfl
    · rw [hother i hia hn]
  refine ⟨t₁, hrun, ?_⟩
  constructor
  case id => rfl
  case parent => exact hcore f.id hfa
  case held =>
    change Held (t₁.update f.id ({ · with
      keys := f.keys, children := f.childrenWith Tree.id ia })) c _
    generalize ht₂ : t₁.update f.id _ = t₂
    have hself : t₂.node f.id =
        { t₁.node f.id with keys := f.keys, children := f.childrenWith Tree.id ia } := by
      rw [← ht₂, update_node_self]
    have hkeep : ∀ i, i ≠ f.id → t₂.node i = t₁.node i := by
      intro i hi
      rw [← ht₂, update_node_ne _ _ hi]
    have hfields₂ : t₂.fresh = t₁.fresh ∧ t₂.root = t₁.root ∧ t₂.height = t₁.height :=
      ht₂ ▸ ⟨rfl, rfl, rfl⟩
    refine h.setMerged rfl ?_ ?_ ?_ (fun i hif hia _ => ?_) (hfields₂.1.trans hfresh)
      (hfields₂.2.1.trans hroot) (hfields₂.2.2.trans hheight) ?_
    · have hold : (t.node ia).core = _ := hw.left
      change (t₂.node ia).core = _
      rw [hkeep ia hfa.symm, hna]
      calc _ = { (t.node ia).core with
            keys := (A ++ B).map Prod.fst, values := (A ++ B).map Prod.snd } := rfl
        _ = _ := by rw [hold]; rfl
    · exact List.Perm.swap _ _ _
    · rw [hself, ← hcore f.id hfa]
      rfl
    · rw [hkeep i hif, hcore i fun heq => hia (List.mem_singleton.mpr heq)]
    · have hlinks : ∀ i, (t₂.node i).prevLeaf = (t₁.node i).prevLeaf ∧
          (t₂.node i).nextLeaf = (t₁.node i).nextLeaf := by
        intro i
        by_cases hif : i = f.id
        · rw [hif, hself]
          exact ⟨rfl, rfl⟩
        · rw [hkeep i hif]
          exact ⟨rfl, rfl⟩
      have hmerged : leafIds (c.whole (f.fill (leaf ia (A ++ B)))) =
          leafIds (c.before ++ f.before) ++ ia :: leafIds (f.after ++ c.after) := by
        simp [Ctx.whole, Frame.flat_fill]
      rw [hmerged]
      refine (hlinked.remove hnodup ?_ ?_ ?_).congr fun i _ => hlinks i
      · rw [hna]
        exact ⟨rfl, rfl⟩
      · intro i hi
        rw [hright i (hnext ▸ hi)]
        exact ⟨rfl, rfl⟩
      · intro i hi hne
        have hia : i ≠ ia := by
          rintro rfl
          obtain ⟨-, htail, hdis⟩ := List.nodup_append'.mp hnodup
          rcases List.mem_append.mp hi with hi | hi
          · exact hdis hi List.mem_cons_self
          · exact (List.nodup_cons.mp htail).1 (List.mem_cons_of_mem _ hi)
        rw [hother i hia (hnext ▸ hne)]
        exact ⟨rfl, rfl⟩
  case tokens => simp
  case contents => simp
  case sizes => simp
  case below => exact fun _ _ => trivial
  case params => exact hparams

/-- Two branches become one, with the separator between their keys. -/
theorem absorb_branch {f : Frame κ ν (n + 1)} {c : Ctx κ ν (n + 2)} {ia ib : ℕ} {ks ks₂ : List κ}
    {cs cs₂ : List (Tree κ ν n)} {hl hr}
    (h : Held t c (f.pair (branch ia ks cs hl) k (branch ib ks₂ cs₂ hr))) (hm) :
    ∃ t₁, t.absorb ia ib f.id f.left.length = some t₁ ∧
      Absorbed t t₁ c f (branch ia ks cs hl) k (branch ib ks₂ cs₂ hr)
        (branch ia (ks ++ k :: ks₂) (cs ++ cs₂) hm) := by
  have hw := h.window
  obtain ⟨hka, hca, hkids⟩ := hw.left.branch_eq
  obtain ⟨hkb, hcb, hkids₂⟩ := hw.right.branch_eq
  have hleaf : (t.node ia).isLeaf = false := hw.left.isLeaf_eq
  have hkf := (Frame.fields_pair h.focus).1
  have hfa : f.id ≠ ia := fun heq => hw.parentLeft (heq ▸ List.mem_cons_self)
  have hlen : f.left.length = (f.left.map Prod.snd).length := (List.length_map _).symm
  have hget : (t.node f.id).keys[f.left.length]? = some k := by
    rw [hkf, hlen, List.getElem?_append_right le_rfl, Nat.sub_self]
    rfl
  have hroots : ∀ i ∈ cs₂.map Tree.id, i ∈ cs₂.flatMap Tree.ids := fun i hi => by
    obtain ⟨s, hs, rfl⟩ := List.mem_map.mp hi
    exact List.mem_flatMap.mpr ⟨s, hs, s.id_mem_ids⟩
  have hia : ia ∉ cs₂.map Tree.id := fun hi =>
    hw.disjoint ia List.mem_cons_self (List.mem_cons_of_mem _ (hroots ia hi))
  have hif : f.id ∉ cs₂.map Tree.id := fun hi =>
    hw.parentRight (List.mem_cons_of_mem _ (hroots _ hi))
  have hrun : t.absorb ia ib f.id f.left.length = some ((t.update ia fun n => { n with
      keys := n.keys ++ k :: ks₂, children := n.children ++ cs₂.map Tree.id }).setParents ia
        (cs₂.map Tree.id)) := by
    unfold absorb
    simp [hleaf, hget, hkb, hcb]
  obtain ⟨hnode, hparams, hfresh, hroot, hheight⟩ := setParents_spec (t.update ia fun n => { n with
      keys := n.keys ++ k :: ks₂, children := n.children ++ cs₂.map Tree.id }) ia (cs₂.map Tree.id)
  refine ⟨_, hrun, ?_⟩
  generalize BPlusTree.setParents _ ia (cs₂.map Tree.id) = t₁ at *
  have hna : t₁.node ia = { t.node ia with
      keys := ks ++ k :: ks₂, children := (cs ++ cs₂).map Tree.id } := by
    rw [hnode, if_neg hia, update_node_self, hka, hca, List.map_append]
  have hmoved : ∀ i ∈ cs₂.map Tree.id, t₁.node i = { t.node i with parent := some ia } := by
    intro i hi
    have hne : i ≠ ia := fun heq => hia (heq ▸ hi)
    rw [hnode, if_pos hi, update_node_ne _ _ hne]
  have hother : ∀ i, i ≠ ia → i ∉ cs₂.map Tree.id → t₁.node i = t.node i := by
    intro i hi hi'
    rw [hnode, if_neg hi', update_node_ne _ _ hi]
  have hflat : (branch ia (ks ++ k :: ks₂) (cs ++ cs₂) hm).flat =
      (branch ia ks cs hl).flat ++ .sep k :: (branch ib ks₂ cs₂ hr).flat := by
    have hflats : (cs.map fun s : Tree κ ν n => s.flat).length = ks.length + 1 :=
      (List.length_map _).trans hl
    simp only [Tree.flat_branch, List.map_append, weave_append hflats]
  constructor
  case id => rfl
  case parent => rw [hother f.id hfa hif]
  case held =>
    change Held (t₁.update f.id ({ · with
      keys := f.keys, children := f.childrenWith Tree.id ia })) c _
    generalize ht₂ : t₁.update f.id _ = t₂
    have hself : t₂.node f.id =
        { t.node f.id with keys := f.keys, children := f.childrenWith Tree.id ia } := by
      rw [← ht₂, update_node_self, hother f.id hfa hif]
    have hkeep : ∀ i, i ≠ f.id → t₂.node i = t₁.node i := by
      intro i hi
      rw [← ht₂, update_node_ne _ _ hi]
    have hfields₂ : t₂.fresh = t₁.fresh ∧ t₂.root = t₁.root ∧ t₂.height = t₁.height :=
      ht₂ ▸ ⟨rfl, rfl, rfl⟩
    refine h.setMerged rfl (hw.left.setBranch ?_ (fun s hs => ?_) hm) ?_ ?_ (fun i hif hia hib => ?_)
      (hfields₂.1.trans hfresh) (hfields₂.2.1.trans hroot) (hfields₂.2.2.trans hheight) ?_
    · rw [hkeep ia hfa.symm, hna]
    · rcases List.mem_append.mp hs with hs | hs
      · refine (hkids s hs).congr fun i hi => ?_
        have hmem : i ∈ cs.flatMap Tree.ids := List.mem_flatMap.mpr ⟨s, hs, hi⟩
        rw [hkeep i fun heq => hw.parentLeft (heq ▸ List.mem_cons_of_mem _ hmem), hother i]
        · exact fun heq => (List.nodup_cons.mp hw.leftNodup).1 (heq ▸ hmem)
        · exact fun hi' => hw.disjoint i (List.mem_cons_of_mem _ hmem)
            (List.mem_cons_of_mem _ (hroots i hi'))
      · have hsid : s.id ∈ cs₂.map Tree.id := List.mem_map_of_mem hs
        have hnd₂ := (List.nodup_cons.mp hw.rightNodup).2
        have hmem : ∀ i ∈ s.ids, i ∈ cs₂.flatMap Tree.ids := fun i hi =>
          List.mem_flatMap.mpr ⟨s, hs, hi⟩
        have hif' : ∀ i ∈ s.ids, i ≠ f.id := fun i hi heq =>
          hw.parentRight (heq ▸ List.mem_cons_of_mem _ (hmem i hi))
        refine (hkids₂ s hs).reparent ((List.nodup_flatMap.mp hnd₂).1 s hs) ?_ fun i hi hne => ?_
        · rw [hkeep _ (hif' _ s.id_mem_ids), hmoved _ hsid]
          rfl
        · rw [hkeep i (hif' i hi), hother i]
          · exact fun heq => hw.disjoint ia List.mem_cons_self
              (List.mem_cons_of_mem _ (hmem ia (heq ▸ hi)))
          · intro hi'
            -- `i` would be in two subtrees
            obtain ⟨s', hs', rfl⟩ := List.mem_map.mp hi'
            exact hne (congrArg Tree.id (eq_of_mem_ids hnd₂ hs' hs s'.id_mem_ids hi))
    · rw [Tree.ids_branch, Tree.ids_branch, Tree.ids_branch, List.flatMap_append, Tree.id_branch,
        List.cons_append]
      exact (List.Perm.swap _ _ _).trans (List.perm_middle.symm.cons _)
    · rw [hself]
      rfl
    · rw [hkeep i hif, hother i (fun heq => hia (heq ▸ List.mem_cons_self)) fun hi =>
        hib (List.mem_cons_of_mem _ (hroots i hi))]
    · have hwhole : c.whole (f.fill (branch ia (ks ++ k :: ks₂) (cs ++ cs₂) hm)) =
          c.whole (f.pair (branch ia ks cs hl) k (branch ib ks₂ cs₂ hr)) := by
        rw [Ctx.whole, Ctx.whole, Frame.flat_fill, Frame.flat_pair, hflat]
      rw [hwhole]
      refine h.linked.congr fun i _ => ?_
      by_cases hif : i = f.id
      · rw [hif, hself]
        exact ⟨rfl, rfl⟩
      · rw [hkeep i hif]
        by_cases hia : i = ia
        · rw [hia, hna]
          exact ⟨rfl, rfl⟩
        · by_cases hi : i ∈ cs₂.map Tree.id
          · rw [hmoved i hi]
            exact ⟨rfl, rfl⟩
          · rw [hother i hia hi]
            exact ⟨rfl, rfl⟩
  case tokens => rw [hflat]
  case contents => rw [hflat, contents_append, contents_sep]
  case sizes =>
    simp only [Tree.size_branch, List.length_append, List.length_cons]
    omega
  case below =>
    intro lo hi ha hb s hs
    rcases List.mem_append.mp hs with hs | hs
    · exact ha s hs
    · exact hb s hs
  case params => exact ⟨hparams.order, hparams.minKeys, hparams.size⟩

theorem absorb_spec (h : Held t c (f.pair a k b)) :
    ∃ t₁ m, t.absorb a.id b.id f.id f.left.length = some t₁ ∧ Absorbed t t₁ c f a k b m := by
  cases n with
  | zero =>
    obtain ⟨ia, A, rfl⟩ := exists_leaf a
    obtain ⟨ib, B, rfl⟩ := exists_leaf b
    obtain ⟨t₁, hrun, habs⟩ := absorb_leaf h
    exact ⟨t₁, _, hrun, habs⟩
  | succ n =>
    obtain ⟨ia, ks, cs, hl, rfl⟩ := exists_branch a
    obtain ⟨ib, ks₂, cs₂, hr, rfl⟩ := exists_branch b
    have hm : (cs ++ cs₂).length = (ks ++ k :: ks₂).length + 1 := by
      simp only [List.length_append, List.length_cons]
      omega
    obtain ⟨t₁, hrun, habs⟩ := absorb_branch h hm
    exact ⟨t₁, _, hrun, habs⟩

end PySQL.BTree
