import PySQL.BTree.Find

/-!
# Comparing the nodes of one tree

`children.index(node)` compares nodes by value.  Two nodes of one level still never count as equal,
also where they hold the same keys and values: the comparison follows the links of their first leaves,
and the list ends earlier from the right one than from the left one.
-/

namespace PySQL.BTree

open BPlusTree

set_option linter.unusedSectionVars false

variable {κ ν : Type} [LinearOrder κ] [DecidableEq ν] {t : BPlusTree κ ν} {n fuel : ℕ}

/-! ## Leaves have no children -/

theorem leafIds_branch {id : ℕ} {keys : List κ} {children : List (Tree κ ν n)} {hlen} :
    leafIds (branch id keys children hlen).flat = children.flatMap fun s => leafIds s.flat := by
  rw [Tree.flat_branch, leafIds_weave, List.flatMap_map]

theorem Frame.leafIds_before (f : Frame κ ν n) :
    leafIds f.before = f.left.flatMap fun p => leafIds p.1.flat := by
  rw [Frame.before, leafIds, List.flatMap_assoc]
  refine List.flatMap_congr fun p _ => ?_
  show leafIds (p.1.flat ++ [.sep p.2]) = _
  simp

theorem Frame.leafIds_after (f : Frame κ ν n) :
    leafIds f.after = f.right.flatMap fun p => leafIds p.2.flat := by
  rw [Frame.after, leafIds, List.flatMap_assoc]
  refine List.flatMap_congr fun p _ => ?_
  show leafIds (.sep p.1 :: p.2.flat) = _
  simp

theorem Tree.At.leaf_children {h : ℕ → BPlusTreeNode κ ν} {parent : Option ℕ} {x : Tree κ ν n}
    (hx : x.At h parent) : ∀ i ∈ leafIds x.flat, (h i).children = [] := by
  induction n generalizing parent with
  | zero =>
    obtain ⟨id, items, rfl⟩ := exists_leaf x
    intro i hi
    obtain rfl : i = id := List.mem_singleton.mp hi
    have hcore : (h i).core = _ := hx
    exact congrArg BPlusTreeNode.children hcore
  | succ n ih =>
    obtain ⟨id, keys, children, hlen, rfl⟩ := exists_branch x
    intro i hi
    rw [leafIds_branch, List.mem_flatMap] at hi
    obtain ⟨s, hs, his⟩ := hi
    exact ih (hx.branch_eq.2.2 s hs) i his

theorem Ctx.At.leaf_children {h : ℕ → BPlusTreeNode κ ν} {c : Ctx κ ν n} {i : ℕ} (hc : c.At h i) :
    ∀ j ∈ leafIds c.before ++ leafIds c.after, (h j).children = [] := by
  induction c generalizing i with
  | top => exact fun j hj => nomatch hj
  | up f c ih =>
    obtain ⟨-, hs, hc⟩ := hc
    intro j hj
    rw [Ctx.before, Ctx.after, leafIds_append, leafIds_append, f.leafIds_before, f.leafIds_after] at hj
    simp only [List.mem_append, List.mem_flatMap] at hj
    rcases hj with (hj | ⟨p, hp, hj⟩) | ⟨p, hp, hj⟩ | hj
    · exact ih hc j (List.mem_append_left _ hj)
    · exact (hs p.1 (List.mem_append_left _ (List.mem_map_of_mem hp))).leaf_children j hj
    · exact (hs p.2 (List.mem_append_right _ (List.mem_map_of_mem hp))).leaf_children j hj
    · exact ih hc j (List.mem_append_right _ hj)

/-- The leaves around a subtree are nodes of the way up. -/
theorem Ctx.leafIds_subperm (c : Ctx κ ν n) :
    (leafIds c.before ++ leafIds c.after).Subperm c.ids := by
  induction c with
  | top => exact List.Subperm.refl _
  | up f c ih =>
    have hframe : (leafIds f.before ++ leafIds f.after).Sublist f.ids := by
      rw [f.leafIds_before, f.leafIds_after, Frame.ids, Frame.siblings, List.flatMap_append,
        List.flatMap_map, List.flatMap_map]
      refine List.Sublist.cons _ (List.Sublist.append ?_ ?_)
      · exact List.Sublist.flatMap_right _ fun p _ => p.1.leafIds_sublist
      · exact List.Sublist.flatMap_right _ fun p _ => p.2.leafIds_sublist
    have hperm : (leafIds (Ctx.up f c).before ++ leafIds (Ctx.up f c).after).Perm
        ((leafIds c.before ++ leafIds c.after) ++ (leafIds f.before ++ leafIds f.after)) := by
      rw [Ctx.before, Ctx.after, leafIds_append, leafIds_append]
      simp only [List.append_assoc]
      refine List.Perm.append_left _ ?_
      rw [← List.append_assoc]
      exact List.perm_append_comm
    exact hperm.subperm.trans (ih.append hframe.subperm)

/-! ## The comparison comes to an end -/

theorem eqNode_of_children {a b : ℕ} (hab : a ≠ b)
    (h : eqList (t.eqNode fuel) (t.node a).children (t.node b).children = some false) :
    t.eqNode (fuel + 1) a b = some false := by
  by_cases hkeys : (t.node a).keys = (t.node b).keys
  · simp [eqNode, hab, hkeys, h]
  · simp [eqNode, hab, hkeys]

theorem eqNode_of_nextLeaf {a b : ℕ} (hab : a ≠ b) (ha : (t.node a).children = [])
    (hb : (t.node b).children = [])
    (h : eqOptional (t.eqNode fuel) (t.node a).nextLeaf (t.node b).nextLeaf = some false) :
    t.eqNode (fuel + 1) a b = some false := by
  by_cases hkeys : (t.node a).keys = (t.node b).keys
  · by_cases hvalues : (t.node a).values ≠ (t.node b).values ∨ (t.node a).isLeaf ≠ (t.node b).isLeaf
    · simp [eqNode, hab, hkeys, ha, hb, eqList, hvalues]
    · simp [eqNode, hab, hkeys, ha, hb, eqList, hvalues, h]
  · simp [eqNode, hab, hkeys]

/-- The leaves after two leaves of the list. -/
theorem Linked.next_pair {h : ℕ → BPlusTreeNode κ ν} {prev : Option ℕ} {A B C : List ℕ} {a b : ℕ}
    (hl : Linked h prev (A ++ a :: (B ++ b :: C))) : ∃ a' B', B ++ [b] = a' :: B' ∧
      (h a).nextLeaf = some a' ∧ (h b).nextLeaf = C.head? := by
  obtain ⟨a', B', hhead⟩ : ∃ a' B', B ++ [b] = a' :: B' := by cases B <;> exact ⟨_, _, rfl⟩
  have hcut : B ++ b :: C = a' :: (B' ++ C) := by
    rw [← List.cons_append, ← hhead, List.append_assoc, List.singleton_append]
  refine ⟨a', B', hhead, ?_, ?_⟩
  · rw [hl.nextLeaf_eq, hcut]
    rfl
  · rw [← List.cons_append, ← List.append_assoc] at hl
    exact hl.nextLeaf_eq

/-- Two leaves of the list differ, at the latest where the list ends after the right one. -/
theorem eqNode_leaves {prev : Option ℕ} {A B C : List ℕ} {a b : ℕ}
    (hlinked : Linked t.node prev (A ++ a :: (B ++ b :: C)))
    (hnodup : (A ++ a :: (B ++ b :: C)).Nodup)
    (hchildren : ∀ i ∈ A ++ a :: (B ++ b :: C), (t.node i).children = [])
    (hfuel : C.length < fuel) : t.eqNode fuel a b = some false := by
  induction C generalizing A B a b fuel with
  | nil =>
    obtain ⟨fuel, rfl⟩ := Nat.exists_eq_succ_of_ne_zero (Nat.ne_zero_of_lt hfuel)
    obtain ⟨a', B', -, ha, hb⟩ := hlinked.next_pair
    have hab : a ≠ b := by
      have hnot := (List.nodup_cons.mp (List.nodup_append'.mp hnodup).2.1).1
      exact fun heq => hnot (heq ▸ by simp)
    refine eqNode_of_nextLeaf hab (hchildren a (by simp)) (hchildren b (by simp)) ?_
    rw [ha, hb]
    rfl
  | cons c C ih =>
    obtain ⟨fuel, rfl⟩ := Nat.exists_eq_succ_of_ne_zero (Nat.ne_zero_of_lt hfuel)
    obtain ⟨a', B', hcut, ha, hb⟩ := hlinked.next_pair
    have hab : a ≠ b := by
      have hnot := (List.nodup_cons.mp (List.nodup_append'.mp hnodup).2.1).1
      exact fun heq => hnot (heq ▸ by simp)
    -- both comparisons go one leaf on
    have hnext : A ++ a :: (B ++ b :: c :: C) = (A ++ [a]) ++ a' :: (B' ++ c :: C) := by
      have htail : B ++ b :: c :: C = a' :: (B' ++ c :: C) := by
        rw [← List.cons_append, ← hcut]
        simp
      simp [htail]
    rw [hnext] at hlinked hnodup hchildren
    have hrest := ih hlinked hnodup hchildren (Nat.lt_of_succ_lt_succ hfuel)
    have hac : ∀ i ∈ A ++ a :: (B ++ b :: c :: C), (t.node i).children = [] := hnext ▸ hchildren
    refine eqNode_of_nextLeaf hab (hac a (by simp)) (hac b (by simp)) ?_
    rw [ha, hb]
    exact hrest

/-- Two subtrees of one height differ if their leaves stand in the list one after the other. -/
theorem eqNode_subtrees {s x : Tree κ ν n} {p q prev : Option ℕ} {A B C : List ℕ}
    (hs : s.At t.node p) (hx : x.At t.node q) (hdis : ∀ i ∈ s.ids, i ∉ x.ids)
    (hlinked : Linked t.node prev (A ++ (leafIds s.flat ++ (B ++ (leafIds x.flat ++ C)))))
    (hnodup : (A ++ (leafIds s.flat ++ (B ++ (leafIds x.flat ++ C)))).Nodup)
    (hchildren : ∀ i ∈ A ++ (leafIds s.flat ++ (B ++ (leafIds x.flat ++ C))),
      (t.node i).children = [])
    (hfuel : n + (A ++ (leafIds s.flat ++ (B ++ (leafIds x.flat ++ C)))).length < fuel) :
    t.eqNode fuel s.id x.id = some false := by
  induction n generalizing p q A B C fuel with
  | zero =>
    obtain ⟨i, items, rfl⟩ := exists_leaf s
    obtain ⟨j, items', rfl⟩ := exists_leaf x
    refine eqNode_leaves (A := A) (B := B) (C := C) hlinked hnodup hchildren ?_
    simp only [List.length_append] at hfuel
    omega
  | succ n ih =>
    obtain ⟨fuel, rfl⟩ := Nat.exists_eq_succ_of_ne_zero (Nat.ne_zero_of_lt hfuel)
    have hne : s.id ≠ x.id := fun heq => hdis _ s.id_mem_ids (heq ▸ x.id_mem_ids)
    obtain ⟨i, ks, cs, hlen, rfl⟩ := exists_branch s
    obtain ⟨j, ks', cs', hlen', rfl⟩ := exists_branch x
    obtain ⟨-, hcs, hsat⟩ := hs.branch_eq
    obtain ⟨-, hcs', hxat⟩ := hx.branch_eq
    refine eqNode_of_children hne ?_
    rw [Tree.id_branch, Tree.id_branch, hcs, hcs']
    -- the first children differ already
    obtain ⟨c, cs, rfl⟩ := List.exists_cons_of_length_eq_add_one hlen
    obtain ⟨c', cs', rfl⟩ := List.exists_cons_of_length_eq_add_one hlen'
    rw [List.map_cons, List.map_cons, eqList]
    split
    · rfl
    have hchain : A ++ (leafIds (branch i ks (c :: cs) hlen).flat ++
          (B ++ (leafIds (branch j ks' (c' :: cs') hlen').flat ++ C))) =
        A ++ (leafIds c.flat ++ (((cs.flatMap fun s => leafIds s.flat) ++ B) ++
          (leafIds c'.flat ++ ((cs'.flatMap fun s => leafIds s.flat) ++ C)))) := by
      simp [leafIds_branch]
    rw [hchain] at hlinked hnodup hchildren hfuel
    have hfirst : t.eqNode fuel c.id c'.id = some false := ih (hsat c List.mem_cons_self)
      (hxat c' List.mem_cons_self) (by
      intro k hk hk'
      refine hdis k ?_ ?_
      · rw [Tree.ids_branch, List.flatMap_cons]
        exact List.mem_cons_of_mem _ (List.mem_append_left _ hk)
      · rw [Tree.ids_branch, List.flatMap_cons]
        exact List.mem_cons_of_mem _ (List.mem_append_left _ hk')) hlinked hnodup hchildren
      (by omega)
    rw [hfirst]
    rfl

/-- Where a parent finds one of its children, whatever the keys are. -/
theorem index_of_linked {f : Frame κ ν n} {x : Tree κ ν n} {p prev : Option ℕ} {A C : List ℕ}
    (hs : ∀ q ∈ f.left, q.1.At t.node p) (hx : x.At t.node p)
    (hdis : ∀ q ∈ f.left, ∀ i ∈ q.1.ids, i ∉ x.ids)
    (hlinked : Linked t.node prev (A ++ (leafIds f.before ++ (leafIds x.flat ++ C))))
    (hnodup : (A ++ (leafIds f.before ++ (leafIds x.flat ++ C))).Nodup)
    (hchildren : ∀ i ∈ A ++ (leafIds f.before ++ (leafIds x.flat ++ C)), (t.node i).children = [])
    (hfuel : n + (A ++ (leafIds f.before ++ (leafIds x.flat ++ C))).length ≤ t.fresh * t.fresh) :
    t.index x.id (f.childrenWith Tree.id x.id) = some f.left.length := by
  have hlen : f.left.length = (f.left.map fun q => q.1.id).length := by rw [List.length_map]
  rw [Frame.childrenWith, hlen]
  refine index_of_eq_false fun i hi => ?_
  obtain ⟨q, hq, rfl⟩ := List.mem_map.mp hi
  obtain ⟨as, bs, hleft⟩ := List.append_of_mem hq
  have hchain : A ++ (leafIds f.before ++ (leafIds x.flat ++ C)) =
      (A ++ as.flatMap fun q => leafIds q.1.flat) ++ (leafIds q.1.flat ++
        ((bs.flatMap fun q => leafIds q.1.flat) ++ (leafIds x.flat ++ C))) := by
    simp [f.leafIds_before, hleft]
  rw [hchain] at hlinked hnodup hchildren hfuel
  exact eqNode_subtrees (hs q hq) hx (hdis q hq) hlinked hnodup hchildren (Nat.lt_succ_of_le hfuel)

end PySQL.BTree
