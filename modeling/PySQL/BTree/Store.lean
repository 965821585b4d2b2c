import PySQL.BTree.Node
import PySQL.BTree.Tree

/-!
# How a tree lies in the store

A subtree lies at its nodes, and the rest of the tree is the way from it up to the root.  Going one
step up or down that way is another reading of the same store.
-/

namespace PySQL.BTree

set_option linter.unusedSectionVars false

variable {κ ν : Type} [LinearOrder κ] [DecidableEq ν]

/-- A node without the links between leaves. -/
def BPlusTreeNode.core (n : BPlusTreeNode κ ν) : BPlusTreeNode κ ν :=
  { n with nextLeaf := none, prevLeaf := none }

/-- A tree lies at its nodes, below the node `parent`. -/
def Tree.At (h : ℕ → BPlusTreeNode κ ν) : {n : ℕ} → Option ℕ → Tree κ ν n → Prop
  | 0, parent, l => (h (Leaf.id l)).core =
      { keys := (Leaf.items l).map Prod.fst, values := (Leaf.items l).map Prod.snd, parent }
  | n + 1, parent, b => (h (Branch.id b)).core =
        { keys := Branch.keys b
          children := (Branch.children b).map fun (c : Tree κ ν n) => c.id
          isLeaf := false
          parent } ∧
      ∀ c ∈ Branch.children b, Tree.At h (some (Branch.id b)) (c : Tree κ ν n)

/-- The rest of the tree around a subtree with root `i`. -/
def Ctx.At (h : ℕ → BPlusTreeNode κ ν) : {n : ℕ} → Ctx κ ν n → ℕ → Prop
  | _, .top, _ => True
  | _, .up f c, i => (h f.id).core =
        { keys := f.keys, children := f.childrenWith Tree.id i, isLeaf := false, parent := c.parent } ∧
      (∀ s ∈ f.siblings, s.At h (some f.id)) ∧ c.At h f.id

/-- The doubly linked list of leaves, after the leaf `prev`. -/
def Linked (h : ℕ → BPlusTreeNode κ ν) : Option ℕ → List ℕ → Prop
  | _, [] => True
  | prev, i :: is => (h i).prevLeaf = prev ∧ (h i).nextLeaf = is.head? ∧ Linked h (some i) is

/-- The sequence of the whole tree. -/
def Ctx.whole {n : ℕ} (c : Ctx κ ν n) (x : Tree κ ν n) : List (Piece κ ν) :=
  c.before ++ x.flat ++ c.after

/-- The store holds the tree that consists of `x` and of what is around it. -/
structure Held (t : BPlusTree κ ν) {n : ℕ} (c : Ctx κ ν n) (x : Tree κ ν n) : Prop where
  ctx : c.At t.node x.id
  focus : x.At t.node c.parent
  nodup : (c.ids ++ x.ids).Nodup
  fresh : ∀ i ∈ c.ids ++ x.ids, i < t.fresh
  root : t.root = c.root x.id
  height : t.height = c.height + 1
  linked : Linked t.node none (leafIds (c.whole x))

/-- All nodes are as full as they should be. -/
def Fit (lo hi : ℕ) {n : ℕ} (c : Ctx κ ν n) (x : Tree κ ν n) : Prop :=
  c.Full lo hi ∧ x.Below lo hi ∧ c.least lo ≤ x.size ∧ x.size ≤ hi

/-- The store holds a B+ tree with the sequence `F`. -/
def Stores (t : BPlusTree κ ν) (F : List (Piece κ ν)) : Prop :=
  ∃ (n : ℕ) (x : Tree κ ν n), Held t .top x ∧ Fit t.minKeys (t.order - 1) .top x ∧ x.flat = F

/-- The store holds a tree with the sequence `F` all of whose nodes have at least `lo` keys. -/
def StoresFrom (lo : ℕ) (t : BPlusTree κ ν) (F : List (Piece κ ν)) : Prop :=
  ∃ (n : ℕ) (x : Tree κ ν n), Held t .top x ∧ Fit lo (t.order - 1) .top x ∧ x.flat = F

theorem stores_iff {t : BPlusTree κ ν} {F : List (Piece κ ν)} :
    Stores t F ↔ StoresFrom t.minKeys t F := Iff.rfl

variable {t t' : BPlusTree κ ν} {h h' : ℕ → BPlusTreeNode κ ν} {n : ℕ} {c : Ctx κ ν n}
  {x : Tree κ ν n} {parent : Option ℕ} {lo hi : ℕ}

/-! ## Up and down -/

theorem Ctx.whole_up (f : Frame κ ν n) (c : Ctx κ ν (n + 1)) (x : Tree κ ν n) :
    (Ctx.up f c).whole x = c.whole (f.fill x) := by
  rw [Ctx.whole, Ctx.whole, Frame.flat_fill, Ctx.before, Ctx.after]
  simp only [List.append_assoc]

theorem at_fill {f : Frame κ ν n} {c : Ctx κ ν (n + 1)} :
    (c.At h f.id ∧ (f.fill x).At h c.parent) ↔
      (Ctx.up f c).At h x.id ∧ x.At h (some f.id) := by
  have hids : (Branch.children (f.fill x)).map (fun c : Tree κ ν n => c.id) =
      f.childrenWith Tree.id x.id := by
    simp only [Frame.fill, Frame.childrenWith, List.map_append, List.map_cons, List.map_map]
    rfl
  rw [Tree.At, Ctx.At, hids]
  constructor
  · rintro ⟨hc, hf, hall⟩
    refine ⟨⟨hf, fun s hs => hall s ?_, hc⟩, hall x ?_⟩
    · exact (f.mem_children_fill x s).mpr (.inr hs)
    · exact (f.mem_children_fill x x).mpr (.inl rfl)
  · rintro ⟨⟨hf, hs, hc⟩, hx⟩
    refine ⟨hc, hf, fun s hmem => ?_⟩
    rcases (f.mem_children_fill x s).mp hmem with rfl | hmem
    · exact hx
    · exact hs s hmem

theorem ids_up (f : Frame κ ν n) (c : Ctx κ ν (n + 1)) (x : Tree κ ν n) :
    ((Ctx.up f c).ids ++ x.ids).Perm (c.ids ++ (f.fill x).ids) := by
  rw [Ctx.ids, List.append_assoc]
  exact ((f.ids_fill x).symm).append_left _

theorem held_up {f : Frame κ ν n} {c : Ctx κ ν (n + 1)} :
    Held t (.up f c) x ↔ Held t c (f.fill x) := by
  have hids := ids_up f c x
  constructor
  · intro h
    obtain ⟨hc, hx⟩ := at_fill.mpr ⟨h.ctx, h.focus⟩
    refine ⟨hc, hx, hids.nodup_iff.mp h.nodup, fun i hi => ?_, h.root, h.height, ?_⟩
    · exact h.fresh i (hids.mem_iff.mpr hi)
    · rw [← Ctx.whole_up]
      exact h.linked
  · intro h
    obtain ⟨hc, hx⟩ := at_fill.mp ⟨h.ctx, h.focus⟩
    refine ⟨hc, hx, hids.nodup_iff.mpr h.nodup, fun i hi => ?_, h.root, h.height, ?_⟩
    · exact h.fresh i (hids.mem_iff.mp hi)
    · rw [Ctx.whole_up]
      exact h.linked

theorem fit_up {f : Frame κ ν n} {c : Ctx κ ν (n + 1)} :
    Fit lo hi (.up f c) x ↔ Fit lo hi c (f.fill x) := by
  rw [Fit, Fit, Ctx.Full, Tree.below_succ, f.size_fill, Ctx.least_up]
  constructor
  · rintro ⟨⟨hs, hleast, hmost, hc⟩, hx, hlo, hhi⟩
    refine ⟨hc, fun s hmem => ?_, hleast, hmost⟩
    rcases (f.mem_children_fill x s).mp hmem with rfl | hmem
    · exact ⟨hlo, hhi, hx⟩
    · exact hs s hmem
  · rintro ⟨hc, hall, hleast, hmost⟩
    obtain ⟨hlo, hhi, hx⟩ := hall x ((f.mem_children_fill x x).mpr (.inl rfl))
    refine ⟨⟨fun s hs => hall s ?_, hleast, hmost, hc⟩, hx, hlo, hhi⟩
    exact (f.mem_children_fill x s).mpr (.inr hs)

/-- The whole tree, seen from its root. -/
theorem Held.exists_root (hheld : Held t c x) :
    ∃ (m : ℕ) (y : Tree κ ν m), Held t .top y ∧ y.flat = c.whole x := by
  induction c with
  | top => exact ⟨_, x, hheld, by simp [Ctx.whole, Ctx.before, Ctx.after]⟩
  | up f c ih =>
    rw [Ctx.whole_up]
    exact ih (held_up.mp hheld)

theorem storesFrom_of_held (hheld : Held t c x) (hfit : Fit lo (t.order - 1) c x) :
    StoresFrom lo t (c.whole x) := by
  induction c with
  | top =>
    refine ⟨_, x, hheld, hfit, ?_⟩
    simp [Ctx.whole, Ctx.before, Ctx.after]
  | up f c ih =>
    rw [Ctx.whole_up]
    exact ih (held_up.mp hheld) (fit_up.mp hfit)

/-- The number of pairs is written down elsewhere. -/
theorem StoresFrom.setSize {F : List (Piece κ ν)} (h : StoresFrom lo t F) (size : ℕ) :
    StoresFrom lo { t with size := size } F := by
  obtain ⟨n, x, hheld, hfit, hflat⟩ := h
  exact ⟨n, x, { hheld with }, hfit, hflat⟩

/-! ## Frame rules -/

theorem Tree.At.congr (hx : x.At h parent) (hsame : ∀ i ∈ x.ids, (h' i).core = (h i).core) :
    x.At h' parent := by
  induction n generalizing parent with
  | zero => exact (hsame _ (List.mem_singleton_self _)).trans hx
  | succ n ih =>
    refine ⟨(hsame _ List.mem_cons_self).trans hx.1, fun c hc => ih (hx.2 c hc) fun i hi => ?_⟩
    exact hsame i (List.mem_cons_of_mem _ (List.mem_flatMap.mpr ⟨c, hc, hi⟩))

theorem Ctx.At.congr {i : ℕ} (hc : c.At h i) (hsame : ∀ j ∈ c.ids, (h' j).core = (h j).core) :
    c.At h' i := by
  induction c generalizing i with
  | top => trivial
  | up f c ih =>
    obtain ⟨hf, hs, hc⟩ := hc
    have hin : ∀ j ∈ f.ids, (h' j).core = (h j).core := fun j hj =>
      hsame j (List.mem_append_right _ hj)
    refine ⟨(hin _ List.mem_cons_self).trans hf, fun s hmem => (hs s hmem).congr fun j hj => ?_,
      ih hc fun j hj => hsame j (List.mem_append_left _ hj)⟩
    exact hin j (List.mem_cons_of_mem _ (List.mem_flatMap.mpr ⟨s, hmem, hj⟩))

/-- A tree whose root gets another parent. -/
theorem Tree.At.reparent {p q : Option ℕ} (hx : x.At h p) (hnd : x.ids.Nodup)
    (hroot : (h' x.id).core = { (h x.id).core with parent := q })
    (hsame : ∀ i ∈ x.ids, i ≠ x.id → (h' i).core = (h i).core) : x.At h' q := by
  cases n with
  | zero =>
    have hl : (h (Leaf.id x)).core = _ := hx
    refine Eq.trans hroot ?_
    simp only [Tree.id, hl]
  | succ n =>
    obtain ⟨hb, hall⟩ := hx
    have hnot := (List.nodup_cons.mp hnd).1
    refine ⟨?_, fun c hc => (hall c hc).congr fun i hi => ?_⟩
    · refine Eq.trans hroot ?_
      simp only [Tree.id, hb]
    · have hmem : i ∈ (Branch.children x).flatMap fun c : Tree κ ν n => c.ids :=
        List.mem_flatMap.mpr ⟨c, hc, hi⟩
      refine hsame i (List.mem_cons_of_mem _ hmem) fun heq => hnot ?_
      rw [heq] at hmem
      exact hmem

theorem Linked.congr {prev : Option ℕ} {is : List ℕ} (hl : Linked h prev is)
    (hsame : ∀ i ∈ is, (h' i).prevLeaf = (h i).prevLeaf ∧ (h' i).nextLeaf = (h i).nextLeaf) :
    Linked h' prev is := by
  induction is generalizing prev with
  | nil => trivial
  | cons i is ih =>
    obtain ⟨hprev, hnext⟩ := hsame i List.mem_cons_self
    exact ⟨hprev.trans hl.1, hnext.trans hl.2.1, ih hl.2.2 fun j hj =>
      hsame j (List.mem_cons_of_mem _ hj)⟩

/-! ## The linked list of leaves -/

theorem Linked.nextLeaf_eq {prev : Option ℕ} {A B : List ℕ} {i : ℕ}
    (hl : Linked h prev (A ++ i :: B)) : (h i).nextLeaf = B.head? := by
  induction A generalizing prev with
  | nil => exact hl.2.1
  | cons a A ih => exact ih hl.2.2

/-- The list of leaves with `j` put in after `i`. -/
theorem Linked.insert {prev : Option ℕ} {A B : List ℕ} {i j : ℕ} (hl : Linked h prev (A ++ i :: B))
    (hnd : (A ++ i :: B).Nodup)
    (hi : (h' i).prevLeaf = (h i).prevLeaf ∧ (h' i).nextLeaf = some j)
    (hj : (h' j).prevLeaf = some i ∧ (h' j).nextLeaf = B.head?)
    (hnext : ∀ b ∈ B.head?, (h' b).prevLeaf = some j ∧ (h' b).nextLeaf = (h b).nextLeaf)
    (hrest : ∀ b ∈ A ++ B, B.head? ≠ some b →
      (h' b).prevLeaf = (h b).prevLeaf ∧ (h' b).nextLeaf = (h b).nextLeaf) :
    Linked h' prev (A ++ i :: j :: B) := by
  induction A generalizing prev with
  | nil =>
    obtain ⟨hprev, -, hB⟩ := hl
    refine ⟨hi.1.trans hprev, hi.2, hj.1, hj.2, ?_⟩
    cases B with
    | nil => trivial
    | cons b B =>
      obtain ⟨hp, hn⟩ := hnext b rfl
      refine ⟨hp, hn.trans hB.2.1, hB.2.2.congr fun k hk => hrest k ?_ ?_⟩
      · exact List.mem_cons_of_mem _ hk
      · rintro heq
        obtain rfl : b = k := Option.some.inj heq
        exact (List.nodup_cons.mp (List.nodup_cons.mp hnd).2).1 hk
  | cons a A ih =>
    obtain ⟨hprev, hn, hA⟩ := hl
    obtain ⟨hnot, hnd'⟩ := List.nodup_cons.mp hnd
    have ha : B.head? ≠ some a := by
      intro heq
      exact hnot (List.mem_append_right _ (List.mem_cons_of_mem _ (List.mem_of_head? heq)))
    obtain ⟨hpa, hna⟩ := hrest a List.mem_cons_self ha
    refine ⟨hpa.trans hprev, (hna.trans hn).trans ?_, ih hA hnd' fun b hb =>
      hrest b (List.mem_cons_of_mem _ hb)⟩
    cases A <;> rfl

/-- The list of leaves with the `j` after `i` taken out. -/
theorem Linked.remove {prev : Option ℕ} {A B : List ℕ} {i j : ℕ}
    (hl : Linked h prev (A ++ i :: j :: B)) (hnd : (A ++ i :: j :: B).Nodup)
    (hi : (h' i).prevLeaf = (h i).prevLeaf ∧ (h' i).nextLeaf = (h j).nextLeaf)
    (hnext : ∀ b ∈ B.head?, (h' b).prevLeaf = some i ∧ (h' b).nextLeaf = (h b).nextLeaf)
    (hrest : ∀ b ∈ A ++ B, B.head? ≠ some b →
      (h' b).prevLeaf = (h b).prevLeaf ∧ (h' b).nextLeaf = (h b).nextLeaf) :
    Linked h' prev (A ++ i :: B) := by
  induction A generalizing prev with
  | nil =>
    obtain ⟨hprev, -, hj, hjn, hB⟩ := hl
    refine ⟨hi.1.trans hprev, hi.2.trans hjn, ?_⟩
    cases B with
    | nil => trivial
    | cons b B =>
      obtain ⟨hp, hn⟩ := hnext b rfl
      refine ⟨hp, hn.trans hB.2.1, hB.2.2.congr fun k hk => hrest k ?_ ?_⟩
      · exact List.mem_cons_of_mem _ hk
      · rintro heq
        obtain rfl : b = k := Option.some.inj heq
        have hnd' := (List.nodup_cons.mp (List.nodup_cons.mp hnd).2).2
        exact (List.nodup_cons.mp hnd').1 hk
  | cons a A ih =>
    obtain ⟨hprev, hn, hA⟩ := hl
    obtain ⟨hnot, hnd'⟩ := List.nodup_cons.mp hnd
    have ha : B.head? ≠ some a := by
      intro heq
      refine hnot (List.mem_append_right _ ?_)
      exact List.mem_cons_of_mem _ (List.mem_cons_of_mem _ (List.mem_of_head? heq))
    obtain ⟨hpa, hna⟩ := hrest a List.mem_cons_self ha
    refine ⟨hpa.trans hprev, (hna.trans hn).trans ?_, ih hA hnd' fun b hb =>
      hrest b (List.mem_cons_of_mem _ hb)⟩
    cases A <;> rfl

theorem leafIds_weave (ks : List κ) (ps : List (List (Piece κ ν))) :
    leafIds (weave ks ps) = ps.flatMap leafIds := by
  induction ks generalizing ps with
  | nil =>
    rw [weave_nil, leafIds, List.flatten_eq_flatMap, List.flatMap_assoc]
    rfl
  | cons k ks ih =>
    cases ps with
    | nil => rfl
    | cons p ps => rw [weave, leafIds_append, leafIds_sep, ih, List.flatMap_cons]

/-- The leaves are nodes of the tree, in their order. -/
theorem Tree.leafIds_sublist (x : Tree κ ν n) : (leafIds x.flat).Sublist x.ids := by
  induction n with
  | zero => exact List.Sublist.refl _
  | succ n ih =>
    obtain ⟨id, keys, children, hlen⟩ := x
    change (leafIds (weave keys (children.map fun c : Tree κ ν n => c.flat))).Sublist
      (id :: children.flatMap Tree.ids)
    rw [leafIds_weave, List.flatMap_map]
    refine List.Sublist.cons _ ?_
    clear hlen
    induction children with
    | nil => exact List.Sublist.refl _
    | cons c children ihc =>
      rw [List.flatMap_cons, List.flatMap_cons]
      exact (ih c).append ihc

theorem Tree.leafIds_subset (x : Tree κ ν n) : leafIds x.flat ⊆ x.ids := x.leafIds_sublist.subset

theorem Frame.leafIds_subset (f : Frame κ ν n) :
    leafIds f.before ⊆ f.ids ∧ leafIds f.after ⊆ f.ids := by
  have hsib : ∀ s ∈ f.siblings, leafIds s.flat ⊆ f.ids := fun s hs i hi =>
    List.mem_cons_of_mem _ (List.mem_flatMap.mpr ⟨s, hs, s.leafIds_subset hi⟩)
  constructor
  · intro i hi
    simp only [leafIds, Frame.before, List.flatMap_assoc, List.mem_flatMap] at hi
    obtain ⟨p, hp, q, hq, hiq⟩ := hi
    refine hsib p.1 (List.mem_append_left _ (List.mem_map_of_mem hp)) ?_
    rcases List.mem_append.mp hq with hq | hq
    · exact List.mem_flatMap.mpr ⟨q, hq, hiq⟩
    · rw [List.mem_singleton.mp hq] at hiq
      cases hiq
  · intro i hi
    simp only [leafIds, Frame.after, List.flatMap_assoc, List.mem_flatMap] at hi
    obtain ⟨p, hp, q, hq, hiq⟩ := hi
    refine hsib p.2 (List.mem_append_right _ (List.mem_map_of_mem hp)) ?_
    rcases List.mem_cons.mp hq with rfl | hq
    · cases hiq
    · exact List.mem_flatMap.mpr ⟨q, hq, hiq⟩

theorem Ctx.leafIds_subset (c : Ctx κ ν n) : leafIds c.before ⊆ c.ids ∧ leafIds c.after ⊆ c.ids := by
  induction c with
  | top => exact ⟨List.nil_subset _, List.nil_subset _⟩
  | up f c ih =>
    rw [Ctx.before, Ctx.after, leafIds_append, leafIds_append]
    refine ⟨List.append_subset.mpr ⟨?_, ?_⟩, List.append_subset.mpr ⟨?_, ?_⟩⟩
    · exact fun i hi => List.mem_append_left _ (ih.1 hi)
    · exact fun i hi => List.mem_append_right _ (f.leafIds_subset.1 hi)
    · exact fun i hi => List.mem_append_right _ (f.leafIds_subset.2 hi)
    · exact fun i hi => List.mem_append_left _ (ih.2 hi)

theorem Held.nodup_leafIds (hheld : Held t c x) : (leafIds (c.whole x)).Nodup := by
  obtain ⟨m, y, hy, hflat⟩ := hheld.exists_root
  rw [← hflat]
  exact y.leafIds_sublist.nodup hy.nodup

/-- Another tree in the place of a subtree, with the same root node and no node that is not there
already. -/
theorem Held.setFocus {x' : Tree κ ν n} (hheld : Held t c x) (hid : x'.id = x.id)
    (hfocus : x'.At t'.node c.parent) (hcore : ∀ i ∈ c.ids, (t'.node i).core = (t.node i).core)
    (hnd : x'.ids.Nodup) (hsub : x'.ids ⊆ x.ids) (hfresh : t'.fresh = t.fresh)
    (hr : t'.root = t.root) (hh : t'.height = t.height)
    (hlinked : Linked t'.node none (leafIds (c.whole x'))) : Held t' c x' := by
  obtain ⟨hcnd, -, hdis⟩ := List.nodup_append'.mp hheld.nodup
  constructor
  case ctx => exact hid ▸ hheld.ctx.congr hcore
  case focus => exact hfocus
  case nodup => exact List.nodup_append'.mpr ⟨hcnd, hnd, fun i hi hi' => hdis hi (hsub hi')⟩
  case fresh =>
    intro i hi
    rw [hfresh]
    exact hheld.fresh i (List.append_subset.mpr
      ⟨List.subset_append_left _ _, fun j hj => List.mem_append_right _ (hsub hj)⟩ hi)
  case root => exact hid ▸ hr.trans hheld.root
  case height => exact hh.trans hheld.height
  case linked => exact hlinked

/-! ## Fields -/

section Fields

theorem Tree.At.parent_eq (hx : x.At h parent) : (h x.id).parent = parent := by
  cases n with
  | zero => exact congrArg BPlusTreeNode.parent (show (h (Leaf.id x)).core = _ from hx)
  | succ n => exact congrArg BPlusTreeNode.parent hx.1

theorem Tree.At.keys_length (hx : x.At h parent) : (h x.id).keys.length = x.size := by
  cases n with
  | zero =>
    have hkeys := congrArg BPlusTreeNode.keys (show (h (Leaf.id x)).core = _ from hx)
    change (h (Leaf.id x)).keys.length = (Leaf.items x).length
    rw [show (h (Leaf.id x)).keys = _ from hkeys, List.length_map]
  | succ n =>
    have hkeys := congrArg BPlusTreeNode.keys hx.1
    exact congrArg List.length hkeys

/-- The fields of a leaf. -/
theorem Tree.At.leaf_eq {i : ℕ} {items : List (κ × ν)} (hx : (leaf i items).At h parent) :
    (h i).keys = items.map Prod.fst ∧ (h i).values = items.map Prod.snd := by
  have hcore : (h i).core = _ := hx
  exact ⟨congrArg BPlusTreeNode.keys hcore, congrArg BPlusTreeNode.values hcore⟩

/-- The fields of a branch. -/
theorem Tree.At.branch_eq {i : ℕ} {ks : List κ} {cs : List (Tree κ ν n)} {hlen}
    (hx : (branch i ks cs hlen).At h parent) :
    (h i).keys = ks ∧ (h i).children = cs.map Tree.id ∧ ∀ s ∈ cs, s.At h (some i) := by
  obtain ⟨hcore, hall⟩ := hx
  exact ⟨congrArg BPlusTreeNode.keys hcore, congrArg BPlusTreeNode.children hcore, hall⟩

theorem Tree.At.setLeaf {i : ℕ} {items items' : List (κ × ν)} (hx : (leaf i items).At h parent)
    (hi : h' i = { h i with keys := items'.map Prod.fst, values := items'.map Prod.snd }) :
    (leaf i items').At h' parent := by
  have hcore : (h i).core = _ := hx
  change (h' i).core = _
  rw [hi]
  calc _ = { (h i).core with keys := items'.map Prod.fst, values := items'.map Prod.snd } := rfl
    _ = _ := by rw [hcore]; rfl

theorem Tree.At.setBranch {i : ℕ} {ks ks' : List κ} {cs cs' : List (Tree κ ν n)} {hlen}
    (hx : (branch i ks cs hlen).At h parent)
    (hi : h' i = { h i with keys := ks', children := cs'.map Tree.id })
    (hall : ∀ s ∈ cs', s.At h' (some i)) (hlen') : (branch i ks' cs' hlen').At h' parent := by
  have hcore : (h i).core = _ := hx.1
  refine ⟨?_, hall⟩
  change (h' i).core = _
  rw [hi]
  calc _ = { (h i).core with keys := ks', children := cs'.map Tree.id } := rfl
    _ = _ := by rw [hcore]; rfl

theorem Tree.At.isLeaf_eq (hx : x.At h parent) : (h x.id).isLeaf = decide (n = 0) := by
  cases n with
  | zero => exact congrArg BPlusTreeNode.isLeaf (show (h (Leaf.id x)).core = _ from hx)
  | succ n => exact congrArg BPlusTreeNode.isLeaf hx.1

end Fields

end PySQL.BTree
