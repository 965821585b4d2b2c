import PySQL.BTree.Refine

/-!
# The shape of the stored tree

Said about the nodes that can be reached from the root: how deep the leaves are, how full the nodes,
who is whose parent, and in which order leaves and separators stand.
-/

namespace PySQL.BTree

open BPlusTree Lib

set_option linter.unusedSectionVars false

variable {κ ν : Type} [LinearOrder κ] [DecidableEq ν] {t : BPlusTree κ ν} {F : List (Piece κ ν)}

/-- The nodes of the tree, each with its depth; the root is at depth 1. -/
inductive Reaches (t : BPlusTree κ ν) : ℕ → ℕ → Prop where
  | root : Reaches t 1 t.root
  | child {d i j : ℕ} (h : Reaches t d i) (hi : (t.node i).isLeaf = false)
      (hj : j ∈ (t.node i).children) : Reaches t (d + 1) j

/-- The leaves and separators below a node from left to right, down to so many levels. -/
def listing (t : BPlusTree κ ν) : ℕ → ℕ → List (Piece κ ν)
  | 0, _ => []
  | levels + 1, i =>
    if (t.node i).isLeaf then [.leaf ⟨i, (t.node i).keys.zip (t.node i).values⟩]
    else weave (t.node i).keys ((t.node i).children.map (listing t levels))

/-- What the tree keeps up by hand. -/
structure Structured (t : BPlusTree κ ν) : Prop where
  /-- All leaves are at depth `_height`. -/
  depth : ∀ {d i}, Reaches t d i → (t.node i).isLeaf = true → d = t.height
  most : ∀ {d i}, Reaches t d i → (t.node i).keys.length ≤ t.order - 1
  least : ∀ {d i}, Reaches t d i → i ≠ t.root → (t.order - 1) / 2 ≤ (t.node i).keys.length
  children : ∀ {d i}, Reaches t d i → (t.node i).isLeaf = false →
    (t.node i).children.length = (t.node i).keys.length + 1
  root : (t.node t.root).isLeaf = false → 2 ≤ (t.node t.root).children.length
  parent : ∀ {d i}, Reaches t d i → (t.node i).isLeaf = false → ∀ j ∈ (t.node i).children,
    (t.node j).parent = some i
  /-- The links go through the leaves from left to right. -/
  linked : Linked t.node none (leafIds (listing t t.height t.root))
  first : t.descend (·.children.head?) t.fresh t.root = (leafIds (listing t t.height t.root)).head?
  once : (leafIds (listing t t.height t.root)).Nodup
  all : ∀ i, i ∈ leafIds (listing t t.height t.root) ↔
    ∃ d, Reaches t d i ∧ (t.node i).isLeaf = true
  separators : ∀ P s Q, tokens (listing t t.height t.root) = P ++ .sep s :: Q →
    (∀ k, Token.item k ∈ P → k < s) ∧ ∀ k, Token.item k ∈ Q → s ≤ k

/-! ## Reading the store -/

theorem Tree.At.listing_eq {n : ℕ} {parent : Option ℕ} {x : Tree κ ν n}
    (hx : x.At t.node parent) : listing t (n + 1) x.id = x.flat := by
  induction n generalizing parent with
  | zero =>
    have hleaf := hx.isLeaf_eq
    obtain ⟨id, items, rfl⟩ := exists_leaf x
    obtain ⟨hkeys, hvalues⟩ := hx.leaf_eq
    rw [Tree.id_leaf] at hleaf ⊢
    have hzip : (items.map Prod.fst).zip (items.map Prod.snd) = items := by
      rw [← List.unzip_fst, ← List.unzip_snd, List.zip_unzip]
    rw [listing, hleaf, hkeys, hvalues, Tree.flat_leaf, hzip]
    rfl
  | succ n ih =>
    have hleaf := hx.isLeaf_eq
    obtain ⟨id, keys, children, hlen, rfl⟩ := exists_branch x
    obtain ⟨hkeys, hchildren, hall⟩ := hx.branch_eq
    rw [Tree.id_branch] at hleaf ⊢
    rw [listing, hleaf, hkeys, hchildren, Tree.flat_branch, List.map_map, if_neg (by simp)]
    congr 1
    exact List.map_congr_left fun s hs => ih (hall s hs)

/-- Every node of the tree is the root of a subtree. -/
theorem Reaches.held {d i : ℕ} (h : Reaches t d i) (hstores : Stores t F) :
    ∃ (n : ℕ) (c : Ctx κ ν n) (x : Tree κ ν n), Held t c x ∧ Fit t.minKeys (t.order - 1) c x ∧
      c.whole x = F ∧ x.id = i ∧ c.depth + 1 = d := by
  induction h with
  | root =>
    obtain ⟨n, x, hheld, hfit, hwhole, hroot, -⟩ := (stores_iff.mp hstores).at_root
    exact ⟨n, .top, x, hheld, hfit, hwhole, hroot.symm, rfl⟩
  | @child d i j _ hi hj ih =>
    obtain ⟨n, c, b, hheld, hfit, hwhole, rfl, rfl⟩ := ih
    cases n with
    | zero =>
      rw [hheld.focus.isLeaf_eq] at hi
      cases hi
    | succ n =>
      -- take the child out of its parent
      obtain ⟨l, hl, hget⟩ := List.mem_iff_getElem.mp hj
      obtain ⟨id, keys, children, hlen, rfl⟩ := exists_branch b
      obtain ⟨-, hchildren, -⟩ := hheld.focus.branch_eq
      have hle : l ≤ keys.length := by
        rw [Tree.id_branch, hchildren, List.length_map, hlen] at hl
        omega
      obtain ⟨f, x, hfill, rfl⟩ := Frame.exists_fill (branch id keys children hlen) hle
      rw [hfill] at hheld hfit hwhole
      refine ⟨n, .up f c, x, held_up.mpr hheld, fit_up.mpr hfit,
        (Ctx.whole_up f c x).trans hwhole, ?_, rfl⟩
      have hsome : (t.node f.id).children[f.left.length]? = some x.id := by
        rw [hheld.focus.children_eq.2]
        exact f.getElem?_childrenWith _ _
      have hid : (branch id keys children hlen).id = f.id := by rw [hfill, Frame.id_fill]
      have hsome' : (t.node f.id).children[f.left.length]? = some j := by
        rw [← hid, List.getElem?_eq_getElem hl, hget]
      exact Option.some.inj (hsome.symm.trans hsome')

/-- Every node of a subtree is reached if its root is. -/
theorem Tree.At.reaches {n d : ℕ} {parent : Option ℕ} {x : Tree κ ν n} (hx : x.At t.node parent)
    (hreach : Reaches t d x.id) {i : ℕ} (hi : i ∈ leafIds x.flat) :
    ∃ d, Reaches t d i ∧ (t.node i).isLeaf = true := by
  induction n generalizing parent d with
  | zero =>
    obtain ⟨id, items, rfl⟩ := exists_leaf x
    obtain rfl : i = id := by simpa using hi
    exact ⟨d, hreach, hx.isLeaf_eq⟩
  | succ n ih =>
    have hleaf := hx.isLeaf_eq
    obtain ⟨id, keys, children, hlen, rfl⟩ := exists_branch x
    obtain ⟨-, hchildren, hall⟩ := hx.branch_eq
    rw [Tree.flat_branch, leafIds_weave, List.mem_flatMap] at hi
    obtain ⟨p, hp, hip⟩ := hi
    obtain ⟨s, hs, rfl⟩ := List.mem_map.mp hp
    refine ih (hall s hs) (hreach.child hleaf ?_) hip
    rw [Tree.id_branch, hchildren]
    exact List.mem_map_of_mem hs

theorem Represents.structured {m : SortedMap κ ν} (h : Represents t m) : Structured t := by
  obtain ⟨F, hstores, hord, -⟩ := h.stores
  have horder := h.sized.order
  have hmin := h.sized.minKeys
  obtain ⟨n, x, hheld, hfit, hwhole, hroot, -⟩ := (stores_iff.mp hstores).at_root
  have hheight : t.height = n + 1 := hheld.height
  have hflat : x.flat = F := by
    rw [← hwhole]
    simp [Ctx.whole, Ctx.before, Ctx.after]
  have hlisting : listing t t.height t.root = F := by
    rw [hheight, hroot, hheld.focus.listing_eq, hflat]
  constructor
  case depth =>
    intro d i hreach hleaf
    obtain ⟨k, c, y, hy, -, -, rfl, rfl⟩ := hreach.held hstores
    have hk : k = 0 := by
      rw [hy.focus.isLeaf_eq] at hleaf
      exact of_decide_eq_true hleaf
    have hsum := c.depth_add
    have hyheight := hy.height
    omega
  case most =>
    intro d i hreach
    obtain ⟨k, c, y, hy, hyfit, -, rfl, -⟩ := hreach.held hstores
    rw [hy.focus.keys_length]
    exact hyfit.2.2.2
  case least =>
    intro d i hreach hne
    obtain ⟨k, c, y, hy, hyfit, -, rfl, -⟩ := hreach.held hstores
    rw [hy.focus.keys_length, ← hmin]
    cases c with
    | top => exact absurd hy.root.symm hne
    | up f c =>
      have hleast := hyfit.2.2.1
      rwa [Ctx.least_up] at hleast
  case children =>
    intro d i hreach hleaf
    obtain ⟨k, c, y, hy, -, -, rfl, -⟩ := hreach.held hstores
    cases k with
    | zero =>
      rw [hy.focus.isLeaf_eq] at hleaf
      cases hleaf
    | succ k =>
      obtain ⟨id, keys, children, hlen, rfl⟩ := exists_branch y
      obtain ⟨hkeys, hchildren, -⟩ := hy.focus.branch_eq
      rw [Tree.id_branch, hkeys, hchildren, List.length_map, hlen]
  case root =>
    intro hleaf
    rw [hroot] at hleaf ⊢
    cases n with
    | zero =>
      rw [hheld.focus.isLeaf_eq] at hleaf
      cases hleaf
    | succ n =>
      have hleast : 1 ≤ x.size := hfit.2.2.1
      obtain ⟨id, keys, children, hlen, rfl⟩ := exists_branch x
      rw [Tree.size_branch] at hleast
      rw [Tree.id_branch, hheld.focus.branch_eq.2.1, List.length_map, hlen]
      omega
  case parent =>
    intro d i hreach hleaf j hj
    obtain ⟨k, c, y, hy, -, -, rfl, -⟩ := hreach.held hstores
    cases k with
    | zero =>
      rw [hy.focus.isLeaf_eq] at hleaf
      cases hleaf
    | succ k =>
      obtain ⟨id, keys, children, hlen, rfl⟩ := exists_branch y
      obtain ⟨-, hchildren, hall⟩ := hy.focus.branch_eq
      rw [Tree.id_branch, hchildren] at hj
      obtain ⟨s, hs, rfl⟩ := List.mem_map.mp hj
      exact (hall s hs).parent_eq
  case linked =>
    rw [hlisting, ← hwhole]
    exact hheld.linked
  case first =>
    obtain ⟨c, l, hfind, hl, -, hwhole', hleftmost⟩ := (stores_iff.mp hstores).leftmost
    obtain ⟨id, items, rfl⟩ := exists_leaf l
    rw [hlisting, hfind, ← hwhole', Ctx.whole, show c.before = [] from hleftmost]
    rfl
  case once =>
    rw [hlisting, ← hwhole]
    exact hheld.nodup_leafIds
  case all =>
    intro i
    rw [hlisting]
    constructor
    · intro hi
      rw [← hflat] at hi
      exact hheld.focus.reaches (hroot ▸ Reaches.root) hi
    · rintro ⟨d, hreach, hleaf⟩
      obtain ⟨k, c, y, hy, -, hwhole', rfl, -⟩ := hreach.held hstores
      cases k with
      | zero =>
        obtain ⟨id, items, rfl⟩ := exists_leaf y
        rw [← hwhole', Ctx.whole]
        simp
      | succ k =>
        rw [hy.focus.isLeaf_eq] at hleaf
        cases hleaf
  case separators =>
    intro P s Q hcut
    rw [hlisting] at hcut
    rw [Ordered, hcut, List.pairwise_append, List.pairwise_cons] at hord
    exact ⟨fun k hk => hord.2.2 _ hk _ List.mem_cons_self, fun k hk => hord.2.1.1 _ hk⟩

/-- After every run of calls on an initially empty tree the tree is well formed. -/
theorem structured_of_calls {order : ℕ} (h : 3 ≤ order) (cs : List (Call κ ν)) :
    ∃ (t₀ t : BPlusTree κ ν) (results : List Bool), BPlusTree.new order = some t₀ ∧
      t₀.calls cs = some (t, results) ∧ t.order = order ∧ Structured t := by
  obtain ⟨t₀, hnew, horder₀, h₀⟩ := new_spec (κ := κ) (ν := ν) h
  obtain ⟨t, hrun, horder, ht⟩ := h₀.calls cs
  exact ⟨t₀, t, _, hnew, hrun, horder.trans horder₀, ht.structured⟩

theorem structured_of_calls_rootSplit :
    ∃ (t₀ t : BPlusTree ℕ ℕ) (results : List Bool), BPlusTree.new 3 = some t₀ ∧
      t₀.calls [.insertUnique 1 10, .insertUnique 3 30, .insertUnique 2 20] = some (t, results) ∧
      t.order = 3 ∧ Structured t :=
  structured_of_calls (by decide) _

end PySQL.BTree
