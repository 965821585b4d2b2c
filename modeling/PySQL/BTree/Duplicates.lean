import PySQL.BTree.Refine
import PySQL.Lib.StableSort

/-!
# A tree that is only inserted into

With `insert` alone the keys of the leaves ascend, though a separator may stand between equal keys.
The binary search goes behind all equal separators, so a pair lands behind all pairs with its key: a
scan of the whole tree reads the pairs as a stable sort leaves them.
-/

namespace PySQL.BTree

open BPlusTree Lib

set_option linter.unusedSectionVars false

variable {κ ν : Type} [LinearOrder κ] [DecidableEq ν]
  {t t' : BPlusTree κ ν} {c : Ctx κ ν 0} {id : ℕ} {items : List (κ × ν)} {F : List (Piece κ ν)}
  {lo : ℕ}

/-! ## Ascending sequences with one token more -/

/-- A token may stand between tokens up to its key and tokens from its key on. -/
theorem ascending_insert {P Q : List (Token κ)} {z : Token κ}
    (h : (P ++ Q).Pairwise fun a b => a.key ≤ b.key) (hP : ∀ a ∈ P, a.key ≤ z.key)
    (hQ : ∀ b ∈ Q, z.key ≤ b.key) : (P ++ z :: Q).Pairwise fun a b => a.key ≤ b.key := by
  rw [List.pairwise_append] at h
  rw [List.pairwise_append, List.pairwise_cons]
  refine ⟨h.1, ⟨hQ, h.2.1⟩, fun a ha b hb => ?_⟩
  rcases List.mem_cons.mp hb with rfl | hb
  · exact hP a ha
  · exact h.2.2 a ha b hb

/-- The separator of a leaf that is cut has the key of the pair behind it. -/
theorem Refilled.ascending {order : ℕ} (h : Refilled order c id items F)
    (hasc : Ascending (c.whole (leaf id items))) : Ascending F := by
  cases h with
  | whole => exact hasc
  | @split new A B k v _ hcut _ =>
    subst hcut
    have hold : tokens (c.whole (leaf id (A ++ (k, v) :: B))) =
        tokens (c.before ++ [.leaf ⟨id, A⟩]) ++ .item k ::
          tokens ([.leaf ⟨new, B⟩] ++ c.after) := by
      simp [Ctx.whole]
    have hnew : tokens (c.wholeSplit (leaf id A) k (leaf new ((k, v) :: B))) =
        tokens (c.before ++ [.leaf ⟨id, A⟩]) ++ .sep k :: .item k ::
          tokens ([.leaf ⟨new, B⟩] ++ c.after) := by
      simp [Ctx.wholeSplit]
    rw [Ascending, hold] at hasc
    rw [Ascending, hnew]
    obtain ⟨-, hright, hcross⟩ := List.pairwise_append.mp hasc
    refine ascending_insert hasc (fun a ha => hcross a ha (.item k) List.mem_cons_self) fun b hb => ?_
    rcases List.mem_cons.mp hb with rfl | hb
    · exact le_refl k
    · exact (List.pairwise_cons.mp hright).1 b hb

/-! ## One insertion -/

theorem ascending_items (hasc : Ascending (c.whole (leaf id items))) :
    items.Pairwise fun p q => p.1 ≤ q.1 := by
  have hitems := hasc.contents
  rw [contents_whole, List.pairwise_append, List.pairwise_append] at hitems
  exact hitems.1.2.1

/-- The pairs around the leaf that the search ends at. -/
theorem Leads.contents {key : κ} (h : Leads key c) :
    (∀ p ∈ contents c.before, p.1 ≤ key) ∧ ∀ q ∈ contents c.after, key < q.1 :=
  ⟨fun p hp => h.1 _ (mem_contents.mp ⟨p.2, hp⟩), fun q hq => h.2 _ (mem_contents.mp ⟨q.2, hq⟩)⟩

/-- What `insert` does to the pairs of the tree, however often a key stands in it. -/
theorem insert_ascending (h : StoresFrom lo t F) (hasc : Ascending F) (ht : Sized t)
    (hle : lo ≤ t.minKeys) (key : κ) (value : ν) :
    ∃ t' F' P Q, t.insert key value = some t' ∧ StoresFrom lo t' F' ∧ Ascending F' ∧
      contents F = P ++ Q ∧ contents F' = P ++ (key, value) :: Q ∧ (∀ p ∈ P, p.1 ≤ key) ∧
      (∀ q ∈ Q, key < q.1) ∧ t'.order = t.order ∧ t'.minKeys = t.minKeys ∧
      t'.size = t.size + 1 := by
  obtain ⟨c, l, hfind, hheld, hfit, hwhole, hlead⟩ := h.findLeaf_leads hasc key
  obtain ⟨id, items, rfl⟩ := exists_leaf l
  rw [Tree.id_leaf] at hfind
  subst hwhole
  obtain ⟨t', F', A, B, rfl, hA, hB, -, hrun, hstores, hfilled, hsame⟩ :=
    insertIntoLeaf_held hheld hfit ht hle (ascending_items hasc) key value
  have hold : tokens (c.whole (leaf id (A ++ B))) = tokens (c.before ++ [.leaf ⟨id, A⟩]) ++
      tokens (.leaf ⟨id, B⟩ :: c.after) := by
    simp [Ctx.whole]
  have hnew : tokens (c.whole (leaf id (A ++ (key, value) :: B))) =
      tokens (c.before ++ [.leaf ⟨id, A⟩]) ++ .item key :: tokens (.leaf ⟨id, B⟩ :: c.after) := by
    simp [Ctx.whole]
  have hasc' : Ascending (c.whole (leaf id (A ++ (key, value) :: B))) := by
    rw [Ascending, hold] at hasc
    rw [Ascending, hnew]
    refine ascending_insert hasc ?_ ?_
    · intro a ha
      rw [tokens_append, tokens_leaf, tokens_nil, List.append_nil, List.mem_append] at ha
      rcases ha with ha | ha
      · exact hlead.1 a ha
      · obtain ⟨p, hp, rfl⟩ := List.mem_map.mp ha
        exact hA p hp
    · intro b hb
      rw [tokens_leaf, List.mem_append] at hb
      rcases hb with hb | hb
      · obtain ⟨q, hq, rfl⟩ := List.mem_map.mp hb
        exact (hB q hq).le
      · exact (hlead.2 b hb).le
  refine ⟨{ t' with size := t'.size + 1 }, F', contents c.before ++ A, B ++ contents c.after, ?_,
    hstores.setSize _, hfilled.ascending hasc', ?_, ?_, ?_, ?_, hsame.order, hsame.minKeys,
    congrArg (· + 1) hsame.size⟩
  · rw [BPlusTree.insert, hfind]
    simp only [Option.bind_eq_bind, Option.bind_some, hrun]
  · simp [contents_whole]
  · rw [hfilled.contents]
    simp [contents_whole]
  · exact fun p hp => (List.mem_append.mp hp).elim (hlead.contents.1 p) (hA p)
  · exact fun q hq => (List.mem_append.mp hq).elim (hB q) (hlead.contents.2 q)

/-! ## Runs -/

/-- `insert` for one pair after the other. -/
def BPlusTree.insertAll (t : BPlusTree κ ν) : List (κ × ν) → Option (BPlusTree κ ν)
  | [] => some t
  | p :: pairs => do
    let t ← t.insert p.1 p.2
    t.insertAll pairs

/-- The tree holds the pairs `inserted`, sorted stably by key. -/
structure HoldsSorted (t : BPlusTree κ ν) (inserted : List (κ × ν)) : Prop where
  sized : Sized t
  size : t.size = inserted.length
  stores : ∃ F, Stores t F ∧ Ascending F ∧ StablySorted Prod.fst inserted (contents F)

theorem HoldsSorted.insert {inserted : List (κ × ν)} (h : HoldsSorted t inserted) (p : κ × ν) :
    ∃ t', t.insert p.1 p.2 = some t' ∧ HoldsSorted t' (inserted ++ [p]) := by
  obtain ⟨F, hstores, hasc, hsorted⟩ := h.stores
  obtain ⟨t', F', P, Q, hrun, hstores', hasc', hold, hnew, hP, hQ, horder, hmin, hsize⟩ :=
    insert_ascending hstores hasc h.sized (le_refl _) p.1 p.2
  rw [hold] at hsorted
  refine ⟨t', hrun, ⟨horder ▸ h.sized.order, by rw [hmin, horder]; exact h.sized.minKeys⟩, ?_, F', ?_,
    hasc', ?_⟩
  · rw [hsize, h.size, List.length_append, List.length_singleton]
  · rw [stores_iff, hmin]
    exact hstores'
  · rw [hnew]
    exact hsorted.insert hP hQ

theorem HoldsSorted.insertAll {inserted : List (κ × ν)} (h : HoldsSorted t inserted)
    (pairs : List (κ × ν)) :
    ∃ t', t.insertAll pairs = some t' ∧ HoldsSorted t' (inserted ++ pairs) := by
  induction pairs generalizing t inserted with
  | nil => exact ⟨t, rfl, by rwa [List.append_nil]⟩
  | cons p pairs ih =>
    obtain ⟨t₁, hrun, h₁⟩ := h.insert p
    obtain ⟨t₂, hrest, h₂⟩ := ih h₁
    refine ⟨t₂, ?_, by rwa [List.append_assoc] at h₂⟩
    rw [BPlusTree.insertAll, hrun]
    exact hrest

theorem holdsSorted_new {order : ℕ} (h : 3 ≤ order) :
    ∃ t : BPlusTree κ ν, BPlusTree.new order = some t ∧ HoldsSorted t [] := by
  obtain ⟨t, hnew, -, ht⟩ := new_spec (κ := κ) (ν := ν) h
  obtain ⟨F, hstores, hord, hempty⟩ := ht.stores
  refine ⟨t, hnew, ht.sized, ht.size, F, hstores, hord.separated.ascending, ?_⟩
  rw [← hempty]
  exact ⟨List.Perm.refl _, List.Pairwise.nil, fun a ha => nomatch ha⟩

end PySQL.BTree
