import PySQL.BTree.Compare

/-!
# Splitting

After a split the left half is in the place of the old node and the right half is not in the tree
yet.  Handing it to the parent puts it there, and at most moves the problem one level up: the
sequence of leaves and separators is the same throughout.
-/

namespace PySQL.BTree

open BPlusTree

set_option linter.unusedSectionVars false

variable {κ ν : Type} [LinearOrder κ] [DecidableEq ν]

/-- The sequence of the whole tree, with `k` and `y` right of `x`. -/
def Ctx.wholeSplit {n : ℕ} (c : Ctx κ ν n) (x : Tree κ ν n) (k : κ) (y : Tree κ ν n) :
    List (Piece κ ν) :=
  c.before ++ x.flat ++ .sep k :: y.flat ++ c.after

/-- The store holds a tree with `x` in its place, and `y` outside of the tree. -/
structure SplitHeld (t : BPlusTree κ ν) {n : ℕ} (c : Ctx κ ν n) (x : Tree κ ν n) (k : κ)
    (y : Tree κ ν n) : Prop where
  ctx : c.At t.node x.id
  focus : x.At t.node c.parent
  orphan : y.At t.node none
  nodup : (c.ids ++ (x.ids ++ y.ids)).Nodup
  fresh : ∀ i ∈ c.ids ++ (x.ids ++ y.ids), i < t.fresh
  root : t.root = c.root x.id
  height : t.height = c.height + 1
  linked : Linked t.node none (leafIds (c.wholeSplit x k y))

/-- How many levels are above a subtree. -/
def Ctx.depth : {n : ℕ} → Ctx κ ν n → ℕ
  | _, .top => 0
  | _, .up _ c => c.depth + 1

variable {t : BPlusTree κ ν} {n : ℕ} {c : Ctx κ ν n} {x y : Tree κ ν n} {k : κ} {lo hi : ℕ}

theorem Ctx.depth_add (c : Ctx κ ν n) : c.depth + n = c.height := by
  induction c with
  | top => exact Nat.zero_add _
  | up f c ih =>
    rw [Ctx.height, ← ih, Ctx.depth]
    omega

theorem mem_ids_of_wholeSplit {i : ℕ}
    (hi : i ∈ leafIds (c.wholeSplit x k y)) : i ∈ c.ids ++ (x.ids ++ y.ids) := by
  simp only [Ctx.wholeSplit, leafIds_append, leafIds_sep, List.mem_append] at hi
  rcases hi with ((hi | hi) | hi) | hi
  · exact List.mem_append_left _ (c.leafIds_subset.1 hi)
  · exact List.mem_append_right _ (List.mem_append_left _ (x.leafIds_subset hi))
  · exact List.mem_append_right _ (List.mem_append_right _ (y.leafIds_subset hi))
  · exact List.mem_append_left _ (c.leafIds_subset.2 hi)

/-- Three lists without common elements. -/
theorem SplitHeld.disjoint (h : SplitHeld t c x k y) :
    c.ids.Nodup ∧ x.ids.Nodup ∧ y.ids.Nodup ∧ (∀ i ∈ x.ids, i ∉ c.ids) ∧ (∀ i ∈ y.ids, i ∉ c.ids) ∧
      ∀ i ∈ y.ids, i ∉ x.ids := by
  obtain ⟨hc, hxy, hdis⟩ := List.nodup_append'.mp h.nodup
  obtain ⟨hx, hy, hdis'⟩ := List.nodup_append'.mp hxy
  refine ⟨hc, hx, hy, fun i hi hic => ?_, fun i hi hic => ?_, fun i hi hix => hdis' hix hi⟩
  · exact hdis hic (List.mem_append_left _ hi)
  · exact hdis hic (List.mem_append_right _ hi)

/-- There are at most as many nodes as have been made. -/
theorem SplitHeld.length_ids_le (h : SplitHeld t c x k y) :
    (c.ids ++ (x.ids ++ y.ids)).length ≤ t.fresh := by
  have hsub : c.ids ++ (x.ids ++ y.ids) ⊆ List.range t.fresh := fun i hi =>
    List.mem_range.mpr (h.fresh i hi)
  have hle := (List.subperm_of_subset h.nodup hsub).length_le
  rwa [List.length_range] at hle

theorem subperm_wholeSplit :
    (leafIds (c.wholeSplit x k y)).Subperm (c.ids ++ (x.ids ++ y.ids)) := by
  have hperm : (leafIds (c.wholeSplit x k y)).Perm
      ((leafIds c.before ++ leafIds c.after) ++ (leafIds x.flat ++ leafIds y.flat)) := by
    simp only [Ctx.wholeSplit, leafIds_append, leafIds_sep, List.append_assoc]
    refine List.Perm.append_left _ ?_
    rw [← List.append_assoc]
    exact List.perm_append_comm
  refine hperm.subperm.trans (c.leafIds_subperm.append ?_)
  exact (x.leafIds_sublist.append y.leafIds_sublist).subperm

theorem SplitHeld.nodup_leafIds (h : SplitHeld t c x k y) :
    (leafIds (c.wholeSplit x k y)).Nodup := by
  obtain ⟨l, hperm, hsub⟩ := subperm_wholeSplit (c := c) (x := x) (k := k) (y := y)
  exact hperm.nodup_iff.mp (hsub.nodup h.nodup)

/-- The parent finds the left half among its children. -/
theorem SplitHeld.index {f : Frame κ ν n} {c : Ctx κ ν (n + 1)} (h : SplitHeld t (.up f c) x k y) :
    (t.update y.id ({ · with parent := some f.id })).index x.id (f.childrenWith Tree.id x.id) =
      some f.left.length := by
  obtain ⟨hcnd, hxnd, hynd, hxc, hyc, hyx⟩ := h.disjoint
  generalize ht₁ : t.update y.id ({ · with parent := some f.id }) = t₁
  have hnode : ∀ i, i ≠ y.id → t₁.node i = t.node i := fun i hi => by
    rw [← ht₁, update_node_ne _ _ hi]
  have hlinks : ∀ i, (t₁.node i).prevLeaf = (t.node i).prevLeaf ∧
      (t₁.node i).nextLeaf = (t.node i).nextLeaf ∧ (t₁.node i).children = (t.node i).children := by
    intro i
    by_cases hi : i = y.id
    · rw [hi, ← ht₁, update_node_self]
      exact ⟨rfl, rfl, rfl⟩
    · rw [hnode i hi]
      exact ⟨rfl, rfl, rfl⟩
  have hctx : (Ctx.up f c).At t₁.node x.id := h.ctx.congr fun i hi => by
    rw [hnode i fun heq => hyc _ y.id_mem_ids (heq ▸ hi)]
  have hfocus : x.At t₁.node (some f.id) := h.focus.congr fun i hi => by
    rw [hnode i fun heq => hyx _ y.id_mem_ids (heq ▸ hi)]
  have hsib : ∀ q ∈ f.left, q.1 ∈ f.siblings := fun q hq =>
    List.mem_append_left _ (List.mem_map_of_mem hq)
  have hchain : leafIds ((Ctx.up f c).wholeSplit x k y) = leafIds c.before ++ (leafIds f.before ++
      (leafIds x.flat ++ (leafIds y.flat ++ leafIds (Ctx.up f c).after))) := by
    simp [Ctx.wholeSplit, Ctx.before]
  have hchildren : ∀ i ∈ leafIds ((Ctx.up f c).wholeSplit x k y), (t₁.node i).children = [] := by
    intro i hi
    rw [(hlinks i).2.2]
    simp only [Ctx.wholeSplit, leafIds_append, leafIds_sep, List.mem_append] at hi
    rcases hi with ((hi | hi) | hi) | hi
    · exact h.ctx.leaf_children i (List.mem_append_left _ hi)
    · exact h.focus.leaf_children i hi
    · exact h.orphan.leaf_children i hi
    · exact h.ctx.leaf_children i (List.mem_append_right _ hi)
  have hlinked := h.linked.congr fun i _ => ⟨(hlinks i).1, (hlinks i).2.1⟩
  have hnodup := h.nodup_leafIds
  -- a comparison goes down to the leaves and then along them
  have hfuel : n + (leafIds ((Ctx.up f c).wholeSplit x k y)).length ≤ t₁.fresh * t₁.fresh := by
    have hfresh : t₁.fresh = t.fresh := by rw [← ht₁, update_fresh]
    have hall := h.length_ids_le
    have hleaves := (subperm_wholeSplit (c := Ctx.up f c) (x := x) (k := k) (y := y)).length_le
    have hx := x.height_lt
    have hy := y.height_lt
    simp only [List.length_append] at hall hleaves
    have hdouble : t.fresh * 2 ≤ t.fresh * t.fresh := Nat.mul_le_mul_left _ (by omega)
    rw [hfresh]
    omega
  rw [hchain] at hlinked hnodup hchildren hfuel
  refine index_of_linked (fun q hq => hctx.2.1 _ (hsib q hq)) hfocus (fun q hq i hi hix => ?_) hlinked
    hnodup hchildren hfuel
  refine hxc i hix (List.mem_append_right _ (List.mem_cons_of_mem _ ?_))
  exact List.mem_flatMap.mpr ⟨q.1, hsib q hq, hi⟩

/-! ## A new root -/

/-- The two halves of the old root below a new one. -/
theorem SplitHeld.newRoot {x y : Tree κ ν n} (h : SplitHeld t .top x k y) {t' : BPlusTree κ ν}
    (hroot : t'.node t.fresh = { keys := [k], children := [x.id, y.id], isLeaf := false })
    (hxn : t'.node x.id = { t.node x.id with parent := some t.fresh })
    (hyn : t'.node y.id = { t.node y.id with parent := some t.fresh })
    (hother : ∀ i, i ≠ t.fresh → i ≠ x.id → i ≠ y.id → t'.node i = t.node i)
    (hfresh : t'.fresh = t.fresh + 1) (hr : t'.root = t.fresh) (hh : t'.height = t.height + 1) :
    Held t' (.up { id := t.fresh, left := [], right := [(k, y)] } .top) x := by
  obtain ⟨-, hxnd, hynd, -, -, hyx⟩ := h.disjoint
  have hlt : ∀ i ∈ x.ids ++ y.ids, i < t.fresh := h.fresh
  have hids : Ctx.ids (.up ({ id := t.fresh, left := [], right := [(k, y)] } : Frame κ ν n) .top) =
      t.fresh :: y.ids := by
    simp [Ctx.ids, Frame.ids, Frame.siblings]
  constructor
  case ctx =>
    refine ⟨?_, fun s hs => ?_, trivial⟩
    · rw [hroot]
      rfl
    · obtain rfl : s = y := by simpa [Frame.siblings] using hs
      refine h.orphan.reparent hynd (by rw [hyn]; rfl) fun i hi hne => ?_
      have hi' := hlt i (List.mem_append_right _ hi)
      rw [hother i hi'.ne (fun heq => hyx i hi (heq ▸ x.id_mem_ids)) hne]
  case focus =>
    refine h.focus.reparent hxnd (by rw [hxn]; rfl) fun i hi hne => ?_
    have hi' := hlt i (List.mem_append_left _ hi)
    rw [hother i hi'.ne hne fun heq => hyx _ y.id_mem_ids (heq ▸ hi)]
  case nodup =>
    rw [hids, List.cons_append, List.nodup_cons]
    refine ⟨fun hmem => ?_, List.nodup_append_comm.mp h.nodup⟩
    exact lt_irrefl _ (hlt _ (List.perm_append_comm.mem_iff.mp hmem))
  case fresh =>
    intro i hi
    rw [hids, List.cons_append, List.mem_cons] at hi
    rcases hi with rfl | hi
    · omega
    · have hi' := hlt i (List.perm_append_comm.mem_iff.mp hi)
      omega
  case root => exact hr
  case height => exact hh.trans (congrArg (· + 1) h.height)
  case linked =>
    have hwhole : (Ctx.up ({ id := t.fresh, left := [], right := [(k, y)] } : Frame κ ν n)
        .top).whole x = Ctx.top.wholeSplit x k y := by
      simp [Ctx.whole, Ctx.wholeSplit, Ctx.before, Ctx.after, Frame.before, Frame.after]
    rw [hwhole]
    refine h.linked.congr fun i hi => ?_
    have hi' : i < t.fresh := h.fresh i (mem_ids_of_wholeSplit hi)
    by_cases hix : i = x.id
    · rw [hix, hxn]
      exact ⟨rfl, rfl⟩
    · by_cases hiy : i = y.id
      · rw [hiy, hyn]
        exact ⟨rfl, rfl⟩
      · rw [hother i hi'.ne hix hiy]
        exact ⟨rfl, rfl⟩

theorem insertIntoParent_top {x y : Tree κ ν n} (h : SplitHeld t .top x k y)
    (hx : x.Full lo (t.order - 1)) (hy : y.Full lo (t.order - 1)) (horder : 3 ≤ t.order)
    {fuel : ℕ} (hfuel : 0 < fuel) :
    ∃ t', insertIntoParent fuel t x.id k y.id = some t' ∧
      StoresFrom lo t' (Ctx.top.wholeSplit x k y) ∧ SameParams t t' := by
  obtain ⟨fuel, rfl⟩ := Nat.exists_eq_succ_of_ne_zero hfuel.ne'
  have hxf : x.id < t.fresh :=
    h.fresh _ (List.mem_append_right _ (List.mem_append_left _ x.id_mem_ids))
  have hyf : y.id < t.fresh :=
    h.fresh _ (List.mem_append_right _ (List.mem_append_right _ y.id_mem_ids))
  have hne : y.id ≠ x.id := fun heq => h.disjoint.2.2.2.2.2 _ y.id_mem_ids (heq ▸ x.id_mem_ids)
  have hwhole : (Ctx.up ({ id := t.fresh, left := [], right := [(k, y)] } : Frame κ ν n)
      .top).whole x = Ctx.top.wholeSplit x k y := by
    simp [Ctx.whole, Ctx.wholeSplit, Ctx.before, Ctx.after, Frame.before, Frame.after]
  rw [insertIntoParent, h.focus.parent_eq, ← hwhole]
  refine ⟨_, rfl, storesFrom_of_held (h.newRoot ?_ ?_ ?_ ?_ rfl rfl rfl) ?_, ⟨rfl, rfl, rfl⟩⟩
  · simp [update_node_ne, hxf.ne', hyf.ne']
  · simp [update_node_ne, alloc_node_ne, hxf.ne, hne.symm]
  · simp [update_node_ne, alloc_node_ne, hyf.ne, hne]
  · intro i hi hix hiy
    simp [update_node_ne, alloc_node_ne, hi, hix, hiy]
  · refine ⟨⟨fun s hs => ?_, le_refl 1, ?_, trivial⟩, hx.2.2, ?_, hx.2.1⟩
    · obtain rfl : s = y := by simpa [Frame.siblings] using hs
      exact hy
    · change 1 ≤ t.order - 1
      omega
    · rw [Ctx.least_up]
      exact hx.1

/-! ## A new child -/

theorem insertAt_append {α : Type} (as bs : List α) (a : α) :
    insertAt (as ++ bs) as.length a = as ++ a :: bs := by
  simp [insertAt]

/-- The frame with a child put in right of the one taken out. -/
def Frame.putRight (f : Frame κ ν n) (k : κ) (y : Tree κ ν n) : Frame κ ν n :=
  { f with right := (k, y) :: f.right }

@[simp] theorem Frame.id_putRight (f : Frame κ ν n) (k : κ) (y : Tree κ ν n) :
    (f.putRight k y).id = f.id := rfl

theorem Frame.keys_putRight (f : Frame κ ν n) (k : κ) (y : Tree κ ν n) :
    insertAt f.keys f.left.length k = (f.putRight k y).keys := by
  have hlen : f.left.length = (f.left.map Prod.snd).length := (List.length_map _).symm
  rw [Frame.keys, hlen, insertAt_append]
  rfl

theorem Frame.childrenWith_putRight (f : Frame κ ν n) (k : κ) (y : Tree κ ν n) (i : ℕ) :
    insertAt (f.childrenWith Tree.id i) (f.left.length + 1) y.id =
      (f.putRight k y).childrenWith Tree.id i := by
  have hcut : f.childrenWith Tree.id i =
      (f.left.map (fun p => p.1.id) ++ [i]) ++ f.right.map fun p => p.2.id := by
    simp [Frame.childrenWith]
  have hlen : f.left.length + 1 = (f.left.map (fun p => p.1.id) ++ [i]).length := by simp
  rw [hcut, hlen, insertAt_append]
  simp [Frame.childrenWith, Frame.putRight]

theorem Frame.siblings_putRight (f : Frame κ ν n) (k : κ) (y : Tree κ ν n) :
    (f.putRight k y).siblings.Perm (y :: f.siblings) := by
  simp only [Frame.siblings, Frame.putRight, List.map_cons]
  exact List.perm_middle

theorem Frame.ids_putRight (f : Frame κ ν n) (k : κ) (y : Tree κ ν n) :
    (f.putRight k y).ids.Perm (f.ids ++ y.ids) := by
  have hperm := (f.siblings_putRight k y).flatMap_right Tree.ids
  rw [List.flatMap_cons] at hperm
  exact (hperm.trans List.perm_append_comm).cons _

theorem Ctx.whole_putRight (f : Frame κ ν n) (c : Ctx κ ν (n + 1)) (x y : Tree κ ν n) (k : κ) :
    (Ctx.up (f.putRight k y) c).whole x = (Ctx.up f c).wholeSplit x k y := by
  simp [Ctx.whole, Ctx.wholeSplit, Ctx.before, Ctx.after, Frame.before, Frame.after, Frame.putRight]

/-- The right half becomes a child of the parent of the left half. -/
theorem SplitHeld.newChild {f : Frame κ ν n} {c : Ctx κ ν (n + 1)}
    (h : SplitHeld t (.up f c) x k y) {t' : BPlusTree κ ν}
    (hfn : t'.node f.id = { t.node f.id with
      keys := (f.putRight k y).keys, children := (f.putRight k y).childrenWith Tree.id x.id })
    (hyn : t'.node y.id = { t.node y.id with parent := some f.id })
    (hother : ∀ i, i ≠ f.id → i ≠ y.id → t'.node i = t.node i) (hfresh : t'.fresh = t.fresh)
    (hr : t'.root = t.root) (hh : t'.height = t.height) : Held t' (.up (f.putRight k y) c) x := by
  obtain ⟨hcnd, hxnd, hynd, hxc, hyc, hyx⟩ := h.disjoint
  obtain ⟨hf, hs, hc⟩ := h.ctx
  have hnd := (List.nodup_append'.mp hcnd).2
  have hfc : ∀ i ∈ c.ids, i ≠ f.id := fun i hi heq =>
    hnd.2 (heq ▸ hi) List.mem_cons_self
  have hfmem : ∀ {i}, i ∈ f.ids → i ∈ (Ctx.up f c).ids := fun hi => List.mem_append_right _ hi
  have hids : (Ctx.up (f.putRight k y) c).ids.Perm ((Ctx.up f c).ids ++ y.ids) := by
    rw [Ctx.ids, Ctx.ids, List.append_assoc]
    exact (f.ids_putRight k y).append_left _
  have hall : ((Ctx.up (f.putRight k y) c).ids ++ x.ids).Perm ((Ctx.up f c).ids ++ (x.ids ++ y.ids)) := by
    refine (hids.append_right _).trans ?_
    rw [List.append_assoc]
    exact List.perm_append_comm.append_left _
  constructor
  case ctx =>
    refine ⟨?_, fun s hmem => ?_, ?_⟩
    · have hcore : (t'.node f.id).core = { (t.node f.id).core with
          keys := (f.putRight k y).keys, children := (f.putRight k y).childrenWith Tree.id x.id } := by
        rw [hfn]
        rfl
      refine Eq.trans hcore ?_
      rw [hf]
    · rcases List.mem_cons.mp ((f.siblings_putRight k y).mem_iff.mp hmem) with rfl | hmem
      · refine h.orphan.reparent hynd (by rw [hyn]; rfl) fun i hi hne => ?_
        rw [hother i (fun heq => hyc i hi (hfmem (heq ▸ List.mem_cons_self))) hne]
      · refine (hs s hmem).congr fun i hi => ?_
        have hin : i ∈ f.siblings.flatMap Tree.ids := List.mem_flatMap.mpr ⟨s, hmem, hi⟩
        have hif : i ≠ f.id := fun heq => (List.nodup_cons.mp hnd.1).1 (heq ▸ hin)
        have hiy : i ≠ y.id := fun heq =>
          hyc _ y.id_mem_ids (hfmem (heq ▸ List.mem_cons_of_mem _ hin))
        rw [hother i hif hiy]
    · refine hc.congr fun i hi => ?_
      have hiy : i ≠ y.id := fun heq => hyc _ y.id_mem_ids (List.mem_append_left _ (heq ▸ hi))
      rw [hother i (hfc i hi) hiy]
  case focus =>
    refine h.focus.congr fun i hi => ?_
    have hif : i ≠ f.id := fun heq => hxc i hi (hfmem (heq ▸ List.mem_cons_self))
    rw [hother i hif fun heq => hyx _ y.id_mem_ids (heq ▸ hi)]
  case nodup => exact hall.nodup_iff.mpr h.nodup
  case fresh =>
    intro i hi
    rw [hfresh]
    exact h.fresh i (hall.mem_iff.mp hi)
  case root => exact hr.trans h.root
  case height => exact hh.trans h.height
  case linked =>
    rw [Ctx.whole_putRight]
    refine h.linked.congr fun i _ => ?_
    by_cases hif : i = f.id
    · rw [hif, hfn]
      exact ⟨rfl, rfl⟩
    · by_cases hiy : i = y.id
      · rw [hiy, hyn]
        exact ⟨rfl, rfl⟩
      · rw [hother i hif hiy]
        exact ⟨rfl, rfl⟩

/-! ## Splitting a branch -/

theorem eq_of_mem_ids {cs : List (Tree κ ν n)} (hnd : (cs.flatMap Tree.ids).Nodup)
    {s s' : Tree κ ν n} (hs : s ∈ cs) (hs' : s' ∈ cs) {i : ℕ} (hi : i ∈ s.ids) (hi' : i ∈ s'.ids) :
    s = s' := by
  induction cs with
  | nil => cases hs
  | cons c cs ih =>
    rw [List.flatMap_cons] at hnd
    obtain ⟨-, htail, hdis⟩ := List.nodup_append'.mp hnd
    rcases List.mem_cons.mp hs with rfl | hin <;> rcases List.mem_cons.mp hs' with rfl | hin'
    · rfl
    · have hmem : i ∈ cs.flatMap Tree.ids := List.mem_flatMap.mpr ⟨s', hin', hi'⟩
      exact absurd hmem (hdis hi)
    · have hmem : i ∈ cs.flatMap Tree.ids := List.mem_flatMap.mpr ⟨s, hin, hi⟩
      exact absurd hmem (hdis hi')
    · exact ih htail hin hin'

/-- A branch cut at one of its keys, the right part in a new node. -/
theorem Held.splitBranch {c : Ctx κ ν (n + 1)} {id : ℕ} {ks ks' : List κ} {m : κ}
    {cs cs' : List (Tree κ ν n)} {hall} (h : Held t c (branch id (ks ++ m :: ks') (cs ++ cs') hall))
    (hcs : cs.length = ks.length + 1) (hcs' : cs'.length = ks'.length + 1) {t' : BPlusTree κ ν}
    (hnew : t'.node t.fresh =
      { keys := ks', children := cs'.map Tree.id, isLeaf := false })
    (hmoved : ∀ i ∈ cs'.map Tree.id, t'.node i = { t.node i with parent := some t.fresh })
    (hid : t'.node id = { t.node id with keys := ks, children := cs.map Tree.id })
    (hother : ∀ i, i ≠ t.fresh → i ∉ cs'.map Tree.id → i ≠ id → t'.node i = t.node i)
    (hfresh : t'.fresh = t.fresh + 1) (hr : t'.root = t.root) (hh : t'.height = t.height) :
    SplitHeld t' c (branch id ks cs hcs) m (branch t.fresh ks' cs' hcs') := by
  obtain ⟨hcnd, hbnd, hdis⟩ := List.nodup_append'.mp h.nodup
  have hbids : (branch id (ks ++ m :: ks') (cs ++ cs') hall).ids =
      id :: (cs.flatMap Tree.ids ++ cs'.flatMap Tree.ids) := by
    simp [branch, Tree.ids]
  have hxids : (branch id ks cs hcs).ids = id :: cs.flatMap Tree.ids := rfl
  have hyids : (branch t.fresh ks' cs' hcs').ids = t.fresh :: cs'.flatMap Tree.ids := rfl
  have hlt : ∀ i ∈ c.ids ++ id :: (cs.flatMap Tree.ids ++ cs'.flatMap Tree.ids), i < t.fresh := by
    rw [← hbids]
    exact h.fresh
  rw [hbids] at hbnd hdis
  obtain ⟨hidnot, hchildren⟩ := List.nodup_cons.mp hbnd
  obtain ⟨hcsnd, hcsnd', hcsdis⟩ := List.nodup_append'.mp hchildren
  obtain ⟨hcore, hkids⟩ := h.focus
  have hall' : (c.ids ++ ((branch id ks cs hcs).ids ++ (branch t.fresh ks' cs' hcs').ids)).Perm
      (t.fresh :: (c.ids ++ id :: (cs.flatMap Tree.ids ++ cs'.flatMap Tree.ids))) := by
    rw [hxids, hyids, List.cons_append]
    refine List.Perm.trans (List.Perm.append_left _ ?_) List.perm_middle
    exact (List.perm_middle.cons _).trans (List.Perm.swap _ _ _)
  have hroots : ∀ i ∈ cs'.map Tree.id, i ∈ cs'.flatMap Tree.ids := fun i hi => by
    obtain ⟨s, hs, rfl⟩ := List.mem_map.mp hi
    exact List.mem_flatMap.mpr ⟨s, hs, s.id_mem_ids⟩
  -- nodes outside of the branch, and those below its left part, are untouched
  have hkeep : ∀ i ∈ c.ids ++ cs.flatMap Tree.ids, t'.node i = t.node i := by
    intro i hi
    have hi' : i < t.fresh := hlt i (by
      rcases List.mem_append.mp hi with hi | hi
      · exact List.mem_append_left _ hi
      · exact List.mem_append_right _ (List.mem_cons_of_mem _ (List.mem_append_left _ hi)))
    refine hother i hi'.ne (fun hmem => ?_) fun heq => ?_
    · rcases List.mem_append.mp hi with hi | hi
      · exact hdis hi (List.mem_cons_of_mem _ (List.mem_append_right _ (hroots i hmem)))
      · exact hcsdis hi (hroots i hmem)
    · rcases List.mem_append.mp hi with hi | hi
      · exact hdis hi (heq ▸ List.mem_cons_self)
      · exact hidnot (heq ▸ List.mem_append_left _ hi)
  constructor
  case ctx => exact h.ctx.congr fun i hi => by rw [hkeep i (List.mem_append_left _ hi)]
  case focus =>
    refine ⟨?_, fun s hs => ?_⟩
    · have hx : (t'.node id).core =
          { (t.node id).core with keys := ks, children := cs.map Tree.id } := by
        rw [hid]
        rfl
      refine Eq.trans hx ?_
      rw [show (t.node id).core = _ from hcore]
      rfl
    · refine (hkids s (List.mem_append_left _ hs)).congr fun i hi => ?_
      rw [hkeep i (List.mem_append_right _ (List.mem_flatMap.mpr ⟨s, hs, hi⟩))]
  case orphan =>
    refine ⟨?_, fun s hs => ?_⟩
    · rw [show Branch.id (branch t.fresh ks' cs' hcs') = t.fresh from rfl, hnew]
      rfl
    · have hsub : s.ids.Nodup := (List.nodup_flatMap.mp hcsnd').1 s hs
      have hsid : s.id ∈ cs'.map Tree.id := List.mem_map_of_mem hs
      refine (hkids s (List.mem_append_right _ hs)).reparent hsub (by rw [hmoved _ hsid]; rfl)
        fun i hi hne => ?_
      have hin : i ∈ cs'.flatMap Tree.ids := List.mem_flatMap.mpr ⟨s, hs, hi⟩
      have hi' : i < t.fresh :=
        hlt i (List.mem_append_right _ (List.mem_cons_of_mem _ (List.mem_append_right _ hin)))
      rw [hother i hi'.ne (fun hmem => ?_) fun heq => hidnot (heq ▸ List.mem_append_right _ hin)]
      -- `i` would be in two subtrees
      obtain ⟨s', hs', rfl⟩ := List.mem_map.mp hmem
      exact hne (congrArg Tree.id (eq_of_mem_ids hcsnd' hs' hs s'.id_mem_ids hi))
  case nodup =>
    rw [hall'.nodup_iff, List.nodup_cons]
    exact ⟨fun hmem => lt_irrefl _ (hlt _ hmem), hbids ▸ h.nodup⟩
  case fresh =>
    intro i hi
    rcases List.mem_cons.mp (hall'.mem_iff.mp hi) with rfl | hi
    · omega
    · have hi' := hlt i hi
      omega
  case root => exact hr.trans h.root
  case height => exact hh.trans h.height
  case linked =>
    have hlen : (cs.map fun s : Tree κ ν n => s.flat).length = ks.length + 1 :=
      (List.length_map _).trans hcs
    have hwhole : c.wholeSplit (branch id ks cs hcs) m (branch t.fresh ks' cs' hcs') =
        c.whole (branch id (ks ++ m :: ks') (cs ++ cs') hall) := by
      simp only [Ctx.wholeSplit, Ctx.whole, branch, Tree.flat, List.map_append, weave_append hlen,
        List.append_assoc, List.cons_append]
    rw [hwhole]
    refine h.linked.congr fun i hi => ?_
    have hin : i ∈ c.ids ++ (branch id (ks ++ m :: ks') (cs ++ cs') hall).ids := by
      simp only [Ctx.whole, leafIds_append, List.mem_append] at hi
      rcases hi with (hi | hi) | hi
      · exact List.mem_append_left _ (c.leafIds_subset.1 hi)
      · exact List.mem_append_right _ (Tree.leafIds_subset _ hi)
      · exact List.mem_append_left _ (c.leafIds_subset.2 hi)
    by_cases hmem : i ∈ cs'.map Tree.id
    · rw [hmoved i hmem]
      exact ⟨rfl, rfl⟩
    · by_cases heq : i = id
      · rw [heq, hid]
        exact ⟨rfl, rfl⟩
      · rw [hother i (h.fresh i hin).ne hmem heq]
        exact ⟨rfl, rfl⟩

/-! ## Up to the root -/

/-- The store with `right` as the child of `parent` after the one at `i`. -/
def addChild (t : BPlusTree κ ν) (parent i : ℕ) (key : κ) (right : ℕ) : BPlusTree κ ν :=
  (t.update right ({ · with parent := some parent })).update parent fun n =>
    { n with keys := insertAt n.keys i key, children := insertAt n.children (i + 1) right }

theorem insertIntoParent_some {left right parent i fuel : ℕ} {key : κ}
    (hparent : (t.node left).parent = some parent)
    (hindex : (t.update right ({ · with parent := some parent })).index left
      ((t.update right ({ · with parent := some parent })).node parent).children = some i) :
    insertIntoParent (fuel + 1) t left key right =
      if t.order ≤ ((addChild t parent i key right).node parent).keys.length then
        splitInternal fuel (addChild t parent i key right) parent
      else some (addChild t parent i key right) := by
  rw [insertIntoParent, hparent]
  simp only [hindex]
  rfl

/-- The store after a node has handed its right part to a new node. -/
def cutNode (t : BPlusTree κ ν) (node mid : ℕ) : BPlusTree κ ν :=
  ((t.alloc {
      keys := (t.node node).keys.drop (mid + 1)
      children := (t.node node).children.drop (mid + 1)
      isLeaf := false }).setParents t.fresh ((t.node node).children.drop (mid + 1))).update node
    fun n => { n with keys := n.keys.take mid, children := n.children.take (mid + 1) }

theorem splitInternal_some {node fuel : ℕ} {key : κ}
    (hkey : (t.node node).keys[(t.node node).keys.length / 2]? = some key) :
    splitInternal (fuel + 1) t node =
      insertIntoParent fuel (cutNode t node ((t.node node).keys.length / 2)) node key t.fresh := by
  rw [splitInternal]
  simp only [hkey]
  rfl

theorem cutNode_spec {id : ℕ} {ks ks' : List κ} {m : κ} {is is' : List ℕ}
    (hid : id < t.fresh) (his : ∀ i ∈ is', i < t.fresh) (hidnot : id ∉ is')
    (hkeys : (t.node id).keys = ks ++ m :: ks') (hchildren : (t.node id).children = is ++ is')
    (hlen : is.length = ks.length + 1) :
    (cutNode t id ks.length).node t.fresh = { keys := ks', children := is', isLeaf := false } ∧
      (∀ i ∈ is', (cutNode t id ks.length).node i = { t.node i with parent := some t.fresh }) ∧
      (cutNode t id ks.length).node id = { t.node id with keys := ks, children := is } ∧
      (∀ i, i ≠ t.fresh → i ∉ is' → i ≠ id → (cutNode t id ks.length).node i = t.node i) ∧
      (cutNode t id ks.length).fresh = t.fresh + 1 ∧ (cutNode t id ks.length).root = t.root ∧
      (cutNode t id ks.length).height = t.height ∧ SameParams t (cutNode t id ks.length) := by
  have hdrop : (t.node id).keys.drop (ks.length + 1) = ks' ∧
      (t.node id).children.drop (ks.length + 1) = is' := by
    constructor
    · rw [hkeys, List.append_cons]
      exact List.drop_left' (by simp)
    · rw [hchildren]
      exact List.drop_left' hlen
  have htake : (t.node id).keys.take ks.length = ks ∧
      (t.node id).children.take (ks.length + 1) = is := by
    rw [hkeys, hchildren]
    exact ⟨List.take_left' rfl, List.take_left' hlen⟩
  rw [cutNode, hdrop.1, hdrop.2]
  obtain ⟨hnode, hparams, hfresh, hroot, hheight⟩ :=
    setParents_spec (t.alloc { keys := ks', children := is', isLeaf := false }) t.fresh is'
  have hfis : t.fresh ∉ is' := fun hmem => lt_irrefl _ (his _ hmem)
  refine ⟨?_, fun i hi => ?_, ?_, fun i hif hi hiid => ?_, hfresh, hroot, hheight,
    ⟨hparams.order, hparams.minKeys, hparams.size⟩⟩
  · rw [update_node_ne _ _ hid.ne', hnode, if_neg hfis, alloc_node_fresh]
  · have hne : i ≠ id := fun heq => hidnot (heq ▸ hi)
    rw [update_node_ne _ _ hne, hnode, if_pos hi,
      alloc_node_ne _ _ (his i hi).ne]
  · rw [update_node_self, hnode, if_neg hidnot, alloc_node_ne _ _ hid.ne, htake.1, htake.2]
  · rw [update_node_ne _ _ hiid, hnode, if_neg hi, alloc_node_ne _ _ hif]

/-- The halves of an overflowing branch. -/
theorem Held.split {c : Ctx κ ν (n + 1)} {b : Tree κ ν (n + 1)} (h : Held t c b)
    (hlen : (Branch.keys b).length = t.order) (ht : Sized t) (hle : lo ≤ t.minKeys)
    (hb : b.Below lo (t.order - 1)) :
    ∃ (x y : Tree κ ν (n + 1)) (key : κ),
      (t.node b.id).keys[(t.node b.id).keys.length / 2]? = some key ∧ x.id = b.id ∧ y.id = t.fresh ∧
      SplitHeld (cutNode t b.id ((t.node b.id).keys.length / 2)) c x key y ∧
      SameParams t (cutNode t b.id ((t.node b.id).keys.length / 2)) ∧
      x.Full lo (t.order - 1) ∧ y.Full lo (t.order - 1) ∧ c.wholeSplit x key y = c.whole b := by
  have horder := ht.order
  have hmin := ht.minKeys
  obtain ⟨id, keys, children, hchildren⟩ := b
  change keys.length = t.order at hlen
  have hmid : keys.length / 2 < keys.length := by omega
  -- the keys and children left and right of the middle key
  obtain ⟨ks, m, ks', hks, hkeys⟩ := exists_cut keys hmid
  obtain ⟨cs, cs', hcs, hcut⟩ := exists_append children (by omega : ks.length + 1 ≤ _)
  subst hkeys hcut
  have hcs' : cs'.length = ks'.length + 1 := by
    simp only [List.length_append, List.length_cons] at hchildren
    omega
  have hnodeKeys : (t.node id).keys = ks ++ m :: ks' := congrArg BPlusTreeNode.keys h.focus.1
  have hnodeChildren : (t.node id).children = cs.map Tree.id ++ cs'.map Tree.id := by
    rw [← List.map_append]
    exact congrArg BPlusTreeNode.children h.focus.1
  have hnd := (List.nodup_append'.mp h.nodup).2.1
  have hroots : ∀ i ∈ cs'.map Tree.id, i ∈ (cs ++ cs').flatMap Tree.ids := fun i hi => by
    obtain ⟨s, hs, rfl⟩ := List.mem_map.mp hi
    exact List.mem_flatMap.mpr ⟨s, List.mem_append_right _ hs, s.id_mem_ids⟩
  obtain ⟨hnew, hmoved, hid, hother, hfresh, hroot, hheight, hparams⟩ := cutNode_spec
    (h.fresh _ (List.mem_append_right _ List.mem_cons_self))
    (fun i hi => h.fresh i (List.mem_append_right _ (List.mem_cons_of_mem _ (hroots i hi))))
    (fun hmem => (List.nodup_cons.mp hnd).1 (hroots _ hmem)) hnodeKeys hnodeChildren
    ((List.length_map _).trans hcs)
  have hwhole : c.wholeSplit (branch id ks cs hcs) m (branch t.fresh ks' cs' hcs') =
      c.whole (branch id (ks ++ m :: ks') (cs ++ cs') hchildren) := by
    have hflat : (cs.map fun s : Tree κ ν n => s.flat).length = ks.length + 1 :=
      (List.length_map _).trans hcs
    simp only [Ctx.wholeSplit, Ctx.whole, branch, Tree.flat, List.map_append, weave_append hflat,
      List.append_assoc, List.cons_append]
  have hmidKey : (t.node id).keys.length / 2 = ks.length := by rw [hnodeKeys, hks]
  refine ⟨branch id ks cs hcs, branch t.fresh ks' cs' hcs', m, ?_, rfl, rfl, ?_, ?_, ?_, ?_, hwhole⟩
  · change (t.node id).keys[(t.node id).keys.length / 2]? = some m
    rw [hmidKey, hnodeKeys]
    rw [List.getElem?_append_right le_rfl, Nat.sub_self]
    rfl
  · change SplitHeld (cutNode t id ((t.node id).keys.length / 2)) _ _ _ _
    rw [hmidKey]
    exact h.splitBranch hcs hcs' hnew hmoved hid hother hfresh hroot hheight
  · change SameParams t (cutNode t id ((t.node id).keys.length / 2))
    rw [hmidKey]
    exact hparams
  all_goals
    simp only [List.length_append, List.length_cons] at hlen hks
  · refine ⟨?_, ?_, fun s hs => hb s (List.mem_append_left _ hs)⟩
    · change lo ≤ ks.length
      omega
    · change ks.length ≤ t.order - 1
      omega
  · refine ⟨?_, ?_, fun s hs => hb s (List.mem_append_right _ hs)⟩
    · change lo ≤ ks'.length
      omega
    · change ks'.length ≤ t.order - 1
      omega

/-- `_insert_into_parent` keeps the sequence, whatever it splits on its way up. -/
theorem insertIntoParent_spec {c : Ctx κ ν n} (h : SplitHeld t c x k y)
    (hc : c.Full lo (t.order - 1)) (hx : x.Full lo (t.order - 1)) (hy : y.Full lo (t.order - 1))
    (ht : Sized t) (hle : lo ≤ t.minKeys) {fuel : ℕ} (hfuel : 2 * c.depth < fuel) :
    ∃ t', insertIntoParent fuel t x.id k y.id = some t' ∧ StoresFrom lo t' (c.wholeSplit x k y) ∧
      SameParams t t' := by
  induction c generalizing t k fuel with
  | top => exact insertIntoParent_top h hx hy ht.order (Nat.zero_lt_of_lt hfuel)
  | @up n f c ih =>
    have horder := ht.order
    have hmin := ht.minKeys
    rw [Ctx.depth] at hfuel
    obtain ⟨fuel, rfl⟩ : ∃ m, fuel = m + 2 := ⟨fuel - 2, by omega⟩
    obtain ⟨hcnd, hxnd, hynd, hxc, hyc, hyx⟩ := h.disjoint
    obtain ⟨hsib, hleast, hmost, hcfull⟩ := hc
    have hfy : f.id ≠ y.id := fun heq =>
      hyc _ y.id_mem_ids (List.mem_append_right _ (heq ▸ List.mem_cons_self))
    let t₁ := t.update y.id ({ · with parent := some f.id })
    have hnode₁ : ∀ i, i ≠ y.id → t₁.node i = t.node i := fun i hi => update_node_ne _ _ hi
    have hfn : (t.node f.id).children = f.childrenWith Tree.id x.id ∧ (t.node f.id).keys = f.keys :=
      ⟨congrArg BPlusTreeNode.children h.ctx.1, congrArg BPlusTreeNode.keys h.ctx.1⟩
    have hindex : t₁.index x.id (t₁.node f.id).children = some f.left.length := by
      rw [hnode₁ _ hfy, hfn.1]
      exact h.index
    rw [insertIntoParent_some h.focus.parent_eq hindex]
    generalize ht₂ : addChild t f.id f.left.length k y.id = t₂
    have hnode₂ : t₂.node f.id = { t.node f.id with
        keys := (f.putRight k y).keys, children := (f.putRight k y).childrenWith Tree.id x.id } := by
      rw [← ht₂, addChild, update_node_self, update_node_ne _ _ hfy, hfn.1, hfn.2, f.keys_putRight,
        f.childrenWith_putRight]
    have hparams : SameParams t t₂ := ht₂ ▸ ⟨rfl, rfl, rfl⟩
    have hheld : Held t₂ (.up (f.putRight k y) c) x := by
      refine h.newChild hnode₂ ?_ ?_ ?_ ?_ ?_ <;> rw [← ht₂, addChild]
      · rw [update_node_ne _ _ hfy.symm, update_node_self]
      · intro i hif hiy
        rw [update_node_ne _ _ hif, update_node_ne _ _ hiy]
      · rfl
      · rfl
      · rfl
    have hsize : (f.putRight k y).keys.length = f.left.length + f.right.length + 1 := by
      simp only [Frame.keys, Frame.putRight, List.length_append, List.length_map, List.length_cons]
      omega
    have hbelow : ((f.putRight k y).fill x).Below lo (t.order - 1) := by
      refine Tree.below_succ.mpr fun s hs => ?_
      rcases (Frame.mem_children_fill _ x s).mp hs with rfl | hs
      · exact hx
      · rcases List.mem_cons.mp ((f.siblings_putRight k y).mem_iff.mp hs) with rfl | hs
        · exact hy
        · exact hsib s hs
    rw [hnode₂, ← Ctx.whole_putRight, Ctx.whole_up]
    split
    · next hover =>
      -- the parent overflows: its halves are handed to its own parent
      replace hover : t.order ≤ (f.putRight k y).keys.length := hparams.order ▸ hover
      have hlen : (Branch.keys ((f.putRight k y).fill x)).length = t₂.order := by
        rw [hparams.order]
        change (f.putRight k y).keys.length = _
        omega
      obtain ⟨x', y', key, hkey, hx', hy', hsplit, hcut, hxfull, hyfull, hwhole⟩ :=
        (held_up.mp hheld).split hlen (hparams.sized ht) (hparams.minKeys ▸ hle)
          (by rw [hparams.order]; exact hbelow)
      rw [Frame.id_fill, Frame.id_putRight] at hkey hx' hsplit hcut
      rw [splitInternal_some hkey]
      obtain ⟨t', hrun, hstores, hsame⟩ := ih (t := cutNode t₂ f.id _) hsplit
        (by rw [hcut.order, hparams.order]; exact hcfull)
        (by rw [hcut.order]; exact hxfull)
        (by rw [hcut.order]; exact hyfull)
        (hcut.sized (hparams.sized ht)) (by rw [hcut.minKeys, hparams.minKeys]; exact hle)
        (by omega : 2 * c.depth < fuel)
      rw [hx', hy'] at hrun
      rw [hwhole] at hstores
      exact ⟨t', hrun, hstores, hparams.trans (hcut.trans hsame)⟩
    · next hroom =>
      replace hroom : ¬t.order ≤ (f.putRight k y).keys.length := hparams.order ▸ hroom
      refine ⟨t₂, rfl, storesFrom_of_held (held_up.mp hheld) ?_, hparams⟩
      rw [hparams.order]
      have hfillSize : ((f.putRight k y).fill x).size = (f.putRight k y).keys.length := rfl
      refine ⟨hcfull, hbelow, ?_, ?_⟩
      · omega
      · omega

end PySQL.BTree
