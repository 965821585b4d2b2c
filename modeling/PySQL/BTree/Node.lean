import Mathlib.Tactic

/-!
# The B+ tree of the repository

Nodes are mutable objects that point to their children, their parent and, for leaves, to both
neighbours, so the tree is a store of nodes under their identities.  `none` stands for an exception.
Loops and recursions that follow pointers have a bound on their steps: the nodes made so far.
-/

namespace PySQL.BTree

set_option linter.unusedSectionVars false

/-- A node in the B+ tree (either internal or leaf). -/
structure BPlusTreeNode (κ ν : Type) where
  keys : List κ := []
  children : List ℕ := []
  values : List ν := []
  isLeaf : Bool := true
  nextLeaf : Option ℕ := none
  prevLeaf : Option ℕ := none
  parent : Option ℕ := none

structure BPlusTree (κ ν : Type) where
  order : ℕ
  node : ℕ → BPlusTreeNode κ ν
  fresh : ℕ
  root : ℕ
  size : ℕ
  height : ℕ
  minKeys : ℕ

/-- `xs.insert(i, x)`. -/
def insertAt {α : Type} (xs : List α) (i : ℕ) (x : α) : List α := xs.take i ++ x :: xs.drop i

/-- `xs.pop(i)`: the element and the rest. -/
def popAt {α : Type} (xs : List α) (i : ℕ) : Option (α × List α) :=
  xs[i]?.map fun x => (x, xs.eraseIdx i)

/-- `xs.pop()`. -/
def popLast {α : Type} (xs : List α) : Option (α × List α) :=
  xs.getLast?.map fun x => (x, xs.dropLast)

/-- `xs[i] = x`. -/
def setAt {α : Type} (xs : List α) (i : ℕ) (x : α) : Option (List α) :=
  xs[i]?.map fun _ => xs.set i x

namespace BPlusTree

variable {κ ν : Type} [LinearOrder κ] [DecidableEq ν]

def new (order : ℕ) : Option (BPlusTree κ ν) :=
  if order < 3 then none
  else
    some {
      order
      node := fun _ => {}
      fresh := 1
      root := 0
      size := 0
      height := 1
      minKeys := (order - 1) / 2 }

/-- Assign to fields of a node. -/
def update (t : BPlusTree κ ν) (i : ℕ) (f : BPlusTreeNode κ ν → BPlusTreeNode κ ν) :
    BPlusTree κ ν :=
  { t with node := Function.update t.node i (f (t.node i)) }

/-- Make a node: its identity is `t.fresh`. -/
def alloc (t : BPlusTree κ ν) (n : BPlusTreeNode κ ν) : BPlusTree κ ν :=
  { t with node := Function.update t.node t.fresh n, fresh := t.fresh + 1 }

section Fields

variable (t : BPlusTree κ ν) (i j : ℕ) (f : BPlusTreeNode κ ν → BPlusTreeNode κ ν)
  (n : BPlusTreeNode κ ν)

@[simp] theorem update_node_self : (t.update i f).node i = f (t.node i) :=
  Function.update_self _ _ _

theorem update_node_ne {i j : ℕ} (h : j ≠ i) : (t.update i f).node j = t.node j :=
  Function.update_of_ne h _ _

@[simp] theorem update_order : (t.update i f).order = t.order := rfl
@[simp] theorem update_fresh : (t.update i f).fresh = t.fresh := rfl
@[simp] theorem update_root : (t.update i f).root = t.root := rfl
@[simp] theorem update_size : (t.update i f).size = t.size := rfl
@[simp] theorem update_height : (t.update i f).height = t.height := rfl
@[simp] theorem update_minKeys : (t.update i f).minKeys = t.minKeys := rfl

@[simp] theorem alloc_node_fresh : (t.alloc n).node t.fresh = n := Function.update_self _ _ _

theorem alloc_node_ne {j : ℕ} (h : j ≠ t.fresh) : (t.alloc n).node j = t.node j :=
  Function.update_of_ne h _ _

@[simp] theorem alloc_order : (t.alloc n).order = t.order := rfl
@[simp] theorem alloc_fresh : (t.alloc n).fresh = t.fresh + 1 := rfl
@[simp] theorem alloc_root : (t.alloc n).root = t.root := rfl
@[simp] theorem alloc_size : (t.alloc n).size = t.size := rfl
@[simp] theorem alloc_height : (t.alloc n).height = t.height := rfl
@[simp] theorem alloc_minKeys : (t.alloc n).minKeys = t.minKeys := rfl

end Fields

/-- The calls leave the parameters of the tree and its size alone. -/
structure SameParams (t t' : BPlusTree κ ν) : Prop where
  order : t'.order = t.order
  minKeys : t'.minKeys = t.minKeys
  size : t'.size = t.size

theorem SameParams.trans {t t' t'' : BPlusTree κ ν} (h : SameParams t t') (h' : SameParams t' t'') :
    SameParams t t'' :=
  ⟨h'.order.trans h.order, h'.minKeys.trans h.minKeys, h'.size.trans h.size⟩

/-- The parameters of the tree fit together. -/
structure Sized (t : BPlusTree κ ν) : Prop where
  order : 3 ≤ t.order
  minKeys : t.minKeys = (t.order - 1) / 2

theorem SameParams.sized {t t' : BPlusTree κ ν} (h : SameParams t t') (ht : Sized t) : Sized t' :=
  ⟨h.order ▸ ht.order, by rw [h.minKeys, h.order]; exact ht.minKeys⟩

/-- Set the parent of several nodes, as the loop over the children of a node does. -/
def setParents (t : BPlusTree κ ν) (parent : ℕ) (children : List ℕ) : BPlusTree κ ν :=
  children.foldl (fun t child => t.update child ({ · with parent := some parent })) t

theorem setParents_spec (t : BPlusTree κ ν) (parent : ℕ) (children : List ℕ) :
    (∀ i, (t.setParents parent children).node i =
      if i ∈ children then { t.node i with parent := some parent } else t.node i) ∧
      SameParams t (t.setParents parent children) ∧
      (t.setParents parent children).fresh = t.fresh ∧
      (t.setParents parent children).root = t.root ∧
      (t.setParents parent children).height = t.height := by
  induction children generalizing t with
  | nil => exact ⟨fun i => by simp [setParents], ⟨rfl, rfl, rfl⟩, rfl, rfl, rfl⟩
  | cons c children ih =>
    obtain ⟨hnode, hsame, hfresh, hroot, hheight⟩ :=
      ih (t.update c ({ · with parent := some parent }))
    refine ⟨fun i => (hnode i).trans ?_, ⟨hsame.order, hsame.minKeys, hsame.size⟩, hfresh, hroot,
      hheight⟩
    by_cases hi : i = c
    · subst hi
      simp
    · simp [update_node_ne, hi]

/-! ## Comparing nodes

`BPlusTreeNode` is a dataclass, so `==` compares two nodes field by field, and the nodes they point
to in the same way.  An object counts as equal to itself.
-/

/-- Both are None, or both are objects that `eq` finds equal. -/
def eqOptional (eq : ℕ → ℕ → Option Bool) : Option ℕ → Option ℕ → Option Bool
  | none, none => some true
  | some a, some b => eq a b
  | _, _ => some false

/-- Lists of one length whose elements `eq` finds equal, up to the first that differ. -/
def eqList (eq : ℕ → ℕ → Option Bool) : List ℕ → List ℕ → Option Bool
  | [], [] => some true
  | a :: as, b :: bs =>
    if as.length ≠ bs.length then some false
    else do if ← eq a b then eqList eq as bs else some false
  | _, _ => some false

def eqNode (t : BPlusTree κ ν) : ℕ → ℕ → ℕ → Option Bool
  | 0, _, _ => none
  | fuel + 1, a, b =>
    let x := t.node a
    let y := t.node b
    if a = b then some true
    else if x.keys ≠ y.keys then some false
    else do
      if !(← eqList (t.eqNode fuel) x.children y.children) then some false
      else if x.values ≠ y.values ∨ x.isLeaf ≠ y.isLeaf then some false
      else if !(← eqOptional (t.eqNode fuel) x.nextLeaf y.nextLeaf) then some false
      else if !(← eqOptional (t.eqNode fuel) x.prevLeaf y.prevLeaf) then some false
      else eqOptional (t.eqNode fuel) x.parent y.parent

/-- `a == b`.  A comparison that does not end within as many levels as there are pairs of nodes never
ends. -/
def eq (t : BPlusTree κ ν) (a b : ℕ) : Option Bool := t.eqNode (t.fresh * t.fresh + 1) a b

/-- `children.index(node)`. -/
def index (t : BPlusTree κ ν) (node : ℕ) : List ℕ → Option ℕ
  | [] => none
  | child :: children => do
    if ← t.eq child node then some 0 else (t.index node children).map (· + 1)

section Index

variable {t : BPlusTree κ ν} {a b : ℕ}

@[simp] theorem eq_self : t.eq a a = some true := by
  simp [eq, eqNode]

/-- Nodes with different keys are not equal, whatever else they hold. -/
theorem eq_of_keys_ne (h : (t.node a).keys ≠ (t.node b).keys) : t.eq a b = some false := by
  have hab : a ≠ b := fun heq => h (heq ▸ rfl)
  simp [eq, eqNode, hab, h]

/-- Nodes with different numbers of children are not equal. -/
theorem eq_of_children_ne (h : (t.node a).children.length ≠ (t.node b).children.length) :
    t.eq a b = some false := by
  have hab : a ≠ b := fun heq => h (heq ▸ rfl)
  have hlist : ∀ (eq : ℕ → ℕ → Option Bool) (as bs : List ℕ), as.length ≠ bs.length →
      eqList eq as bs = some false := by
    intro eq as bs hne
    cases as <;> cases bs <;> simp_all [eqList]
  by_cases hkeys : (t.node a).keys = (t.node b).keys
  · simp [eq, eqNode, hab, hkeys, hlist _ _ _ h]
  · exact eq_of_keys_ne hkeys

/-- `index` finds a node if none of those before it is equal to it. -/
theorem index_of_eq_false {as bs : List ℕ} (h : ∀ i ∈ as, t.eq i a = some false) :
    t.index a (as ++ a :: bs) = some as.length := by
  induction as with
  | nil => simp [index]
  | cons i as ih =>
    have hi := h i List.mem_cons_self
    have htail := ih fun j hj => h j (List.mem_cons_of_mem _ hj)
    simp [index, hi, htail]

/-- `index` finds a node if none of those before it has its keys. -/
theorem index_append {as bs : List ℕ} (h : ∀ i ∈ as, (t.node i).keys ≠ (t.node a).keys) :
    t.index a (as ++ a :: bs) = some as.length :=
  index_of_eq_false fun i hi => eq_of_keys_ne (h i hi)

end Index

/-! ## Finding a leaf -/

/-- The loop of the binary search: elements before `lo` are at most `target`, those from `hi` on
above it. -/
def bisectLoop (sortedList : List κ) (target : κ) : ℕ → ℕ → ℕ → ℕ
  | 0, lo, _ => lo
  | fuel + 1, lo, hi =>
    if lo < hi then
      let mid := (lo + hi) / 2
      match sortedList[mid]? with
      | some x =>
        if x ≤ target then bisectLoop sortedList target fuel (mid + 1) hi
        else bisectLoop sortedList target fuel lo mid
      | none => lo
    else lo

/-- Binary search for the rightmost insertion point. -/
def bisectRight (sortedList : List κ) (target : κ) : ℕ :=
  bisectLoop sortedList target sortedList.length 0 sortedList.length

/-- Go down from a node, to the child that `choose` picks, until a leaf is reached. -/
def descend (t : BPlusTree κ ν) (choose : BPlusTreeNode κ ν → Option ℕ) : ℕ → ℕ → Option ℕ
  | 0, _ => none
  | fuel + 1, node =>
    if (t.node node).isLeaf then some node
    else do
      let child ← choose (t.node node)
      t.descend choose fuel child

/-- Navigate from root to the leaf node that should contain `key`. -/
def findLeaf (t : BPlusTree κ ν) (key : κ) : Option ℕ :=
  t.descend (fun n => n.children[bisectRight n.keys key]?) t.fresh t.root

/-- Look up a single key. -/
def search (t : BPlusTree κ ν) (key : κ) : Option (Option ν) := do
  let leaf ← t.findLeaf key
  match (t.node leaf).keys.findIdx? (· = key) with
  | some i => do
    let value ← (t.node leaf).values[i]?
    some (some value)
  | none => some none

/-- The values under the key in a leaf with these keys and values, and whether the search goes on. -/
def collectLeaf (key : κ) : List κ → List ν → Option (List ν × Bool)
  | [], _ => some ([], true)
  | k :: keys, values =>
    if k = key then do
      let value ← values.head?
      let (results, more) ← collectLeaf key keys values.tail
      some (value :: results, more)
    else if k > key then some ([], false)
    else collectLeaf key keys values.tail

/-- Collect the values under a key from a leaf on, along the linked list. -/
def collectFrom (t : BPlusTree κ ν) (key : κ) : ℕ → Option ℕ → Option (List ν)
  | _, none => some []
  | 0, some _ => none
  | fuel + 1, some leaf => do
    let (results, more) ← collectLeaf key (t.node leaf).keys (t.node leaf).values
    if more then
      let rest ← t.collectFrom key fuel (t.node leaf).nextLeaf
      some (results ++ rest)
    else some results

/-- Find all values associated with a key (for non-unique indexes). -/
def searchAll (t : BPlusTree κ ν) (key : κ) : Option (List ν) := do
  let leaf ← t.findLeaf key
  t.collectFrom key t.fresh (some leaf)

/-- The first key and value of the leftmost leaf. -/
def getMin (t : BPlusTree κ ν) : Option (Option (κ × ν)) := do
  let leaf ← t.descend (·.children.head?) t.fresh t.root
  match (t.node leaf).keys.head? with
  | some key => do
    let value ← (t.node leaf).values.head?
    some (some (key, value))
  | none => some none

/-- The last key and value of the rightmost leaf. -/
def getMax (t : BPlusTree κ ν) : Option (Option (κ × ν)) := do
  let leaf ← t.descend (·.children.getLast?) t.fresh t.root
  match (t.node leaf).keys.getLast? with
  | some key => do
    let value ← (t.node leaf).values.getLast?
    some (some (key, value))
  | none => some none

/-! ## Range scan -/

/-- The key is below the range. -/
def belowLow (low : Option κ) (includeLow : Bool) (key : κ) : Bool :=
  match low with
  | some low => if includeLow then decide (key < low) else decide (key ≤ low)
  | none => false

/-- The key is above the range. -/
def aboveHigh (high : Option κ) (includeHigh : Bool) (key : κ) : Bool :=
  match high with
  | some high => if includeHigh then decide (key > high) else decide (key ≥ high)
  | none => false

/-- The pairs that a leaf with these keys and values yields, and whether the scan goes on. -/
def scanLeaf (below above : κ → Bool) : List κ → List ν → Option (List (κ × ν) × Bool)
  | [], _ => some ([], true)
  | key :: keys, values =>
    if below key then scanLeaf below above keys values.tail
    else if above key then some ([], false)
    else do
      let value ← values.head?
      let (pairs, more) ← scanLeaf below above keys values.tail
      some ((key, value) :: pairs, more)

/-- Scan from a leaf along the linked list. -/
def scanFrom (t : BPlusTree κ ν) (below above : κ → Bool) : ℕ → Option ℕ → Option (List (κ × ν))
  | _, none => some []
  | 0, some _ => none
  | fuel + 1, some leaf => do
    let (pairs, more) ← scanLeaf below above (t.node leaf).keys (t.node leaf).values
    if more then
      let rest ← t.scanFrom below above fuel (t.node leaf).nextLeaf
      some (pairs ++ rest)
    else some pairs

/-- Scan a range of keys, yielding (key, value) pairs in sorted order. -/
def rangeScan (t : BPlusTree κ ν) (low high : Option κ) (includeLow includeHigh : Bool) :
    Option (List (κ × ν)) := do
  let leaf ← match low with
    | some low => t.findLeaf low
    | none => t.descend (·.children.head?) t.fresh t.root
  t.scanFrom (belowLow low includeLow) (aboveHigh high includeHigh) t.fresh (some leaf)

/-- Iterate over all key-value pairs. -/
def scanAll (t : BPlusTree κ ν) : Option (List (κ × ν)) := t.rangeScan none none true true

/-! ## Insertion -/

mutual

/-- Insert a separator key into the parent node after a split. -/
def insertIntoParent : ℕ → BPlusTree κ ν → ℕ → κ → ℕ → Option (BPlusTree κ ν)
  | 0, _, _, _, _ => none
  | fuel + 1, t, left, key, right =>
    match (t.node left).parent with
    | none =>
      let newRoot := t.fresh
      let t := t.alloc { keys := [key], children := [left, right], isLeaf := false }
      let t := t.update left ({ · with parent := some newRoot })
      let t := t.update right ({ · with parent := some newRoot })
      some { t with root := newRoot, height := t.height + 1 }
    | some parent => do
      let t := t.update right ({ · with parent := some parent })
      let i ← t.index left (t.node parent).children
      let pos := i + 1
      let t := t.update parent fun n =>
        { n with
          keys := insertAt n.keys (pos - 1) key
          children := insertAt n.children pos right }
      if t.order ≤ (t.node parent).keys.length then splitInternal fuel t parent else some t

/-- Split an overflowing internal node: the middle key is pushed up. -/
def splitInternal : ℕ → BPlusTree κ ν → ℕ → Option (BPlusTree κ ν)
  | 0, _, _ => none
  | fuel + 1, t, node => do
    let n := t.node node
    let mid := n.keys.length / 2
    let pushUpKey ← n.keys[mid]?
    let newNode := t.fresh
    let t := t.alloc {
      keys := n.keys.drop (mid + 1), children := n.children.drop (mid + 1), isLeaf := false }
    let t := t.setParents newNode (n.children.drop (mid + 1))
    let t := t.update node fun n =>
      { n with keys := n.keys.take mid, children := n.children.take (mid + 1) }
    insertIntoParent fuel t node pushUpKey newNode

end

/-- Split an overflowing leaf node into two leaf nodes. -/
def splitLeaf (t : BPlusTree κ ν) (leaf : ℕ) : Option (BPlusTree κ ν) := do
  let n := t.node leaf
  let mid := (n.keys.length + 1) / 2
  let newLeaf := t.fresh
  let t := t.alloc { keys := n.keys.drop mid, values := n.values.drop mid, isLeaf := true }
  let t := t.update leaf fun n => { n with keys := n.keys.take mid, values := n.values.take mid }
  let t := t.update newLeaf ({ · with nextLeaf := n.nextLeaf, prevLeaf := some leaf })
  let t := match n.nextLeaf with
    | some next => t.update next ({ · with prevLeaf := some newLeaf })
    | none => t
  let t := t.update leaf ({ · with nextLeaf := some newLeaf })
  let separator ← (t.node newLeaf).keys.head?
  insertIntoParent (2 * t.fresh) t leaf separator newLeaf

/-- Insert a key-value pair into a leaf node, splitting if necessary. -/
def insertIntoLeaf (t : BPlusTree κ ν) (leaf : ℕ) (key : κ) (value : ν) : Option (BPlusTree κ ν) :=
  let pos := bisectRight (t.node leaf).keys key
  let t := t.update leaf fun n =>
    { n with keys := insertAt n.keys pos key, values := insertAt n.values pos value }
  if t.order - 1 < (t.node leaf).keys.length then t.splitLeaf leaf else some t

/-- Insert a key-value pair; the key may be in the tree already. -/
def insert (t : BPlusTree κ ν) (key : κ) (value : ν) : Option (BPlusTree κ ν) := do
  let leaf ← t.findLeaf key
  let t ← t.insertIntoLeaf leaf key value
  some { t with size := t.size + 1 }

/-- Insert a key-value pair, enforcing key uniqueness. -/
def insertUnique (t : BPlusTree κ ν) (key : κ) (value : ν) : Option (BPlusTree κ ν × Bool) := do
  let leaf ← t.findLeaf key
  if key ∈ (t.node leaf).keys then some (t, false)
  else
    let t ← t.insertIntoLeaf leaf key value
    some ({ t with size := t.size + 1 }, true)

/-! ## Deletion -/

/-- Borrow a key from the left sibling. -/
def redistributeFromLeft (t : BPlusTree κ ν) (node left parent idx : ℕ) :
    Option (BPlusTree κ ν) := do
  let (key, keys) ← popLast (t.node left).keys
  if (t.node node).isLeaf then
    let (value, values) ← popLast (t.node left).values
    let t := t.update left ({ · with keys := keys, values := values })
    let t := t.update node fun n => { n with keys := key :: n.keys, values := value :: n.values }
    let separators ← setAt (t.node parent).keys (idx - 1) key
    some (t.update parent ({ · with keys := separators }))
  else
    let separator ← (t.node parent).keys[idx - 1]?
    let separators ← setAt (t.node parent).keys (idx - 1) key
    let (child, children) ← popLast (t.node left).children
    let t := t.update node fun n =>
      { n with keys := separator :: n.keys, children := child :: n.children }
    let t := t.update parent ({ · with keys := separators })
    let t := t.update left ({ · with keys := keys, children := children })
    some (t.update child ({ · with parent := some node }))

/-- Borrow a key from the right sibling. -/
def redistributeFromRight (t : BPlusTree κ ν) (node right parent idx : ℕ) :
    Option (BPlusTree κ ν) := do
  let (key, keys) ← popAt (t.node right).keys 0
  if (t.node node).isLeaf then
    let (value, values) ← popAt (t.node right).values 0
    let t := t.update right ({ · with keys := keys, values := values })
    let t := t.update node fun n => { n with keys := n.keys ++ [key], values := n.values ++ [value] }
    let first ← keys.head?
    let separators ← setAt (t.node parent).keys idx first
    some (t.update parent ({ · with keys := separators }))
  else
    let separator ← (t.node parent).keys[idx]?
    let separators ← setAt (t.node parent).keys idx key
    let (child, children) ← popAt (t.node right).children 0
    let t := t.update node fun n =>
      { n with keys := n.keys ++ [separator], children := n.children ++ [child] }
    let t := t.update parent ({ · with keys := separators })
    let t := t.update right ({ · with keys := keys, children := children })
    some (t.update child ({ · with parent := some node }))

/-- The keys, values or children of `right` are moved to the end of those of `left`. -/
def absorb (t : BPlusTree κ ν) (left right parent separatorIdx : ℕ) : Option (BPlusTree κ ν) :=
  let r := t.node right
  if (t.node left).isLeaf then
    let t := t.update left fun n =>
      { n with keys := n.keys ++ r.keys, values := n.values ++ r.values, nextLeaf := r.nextLeaf }
    match r.nextLeaf with
    | some next => some (t.update next ({ · with prevLeaf := some left }))
    | none => some t
  else do
    let separator ← (t.node parent).keys[separatorIdx]?
    let t := t.update left fun n =>
      { n with keys := n.keys ++ separator :: r.keys, children := n.children ++ r.children }
    some (t.setParents left r.children)

mutual

/-- Handle a node with too few keys after deletion: borrow from a sibling, or merge with one. -/
def handleUnderflow : ℕ → BPlusTree κ ν → ℕ → Option (BPlusTree κ ν)
  | 0, _, _ => none
  | fuel + 1, t, node =>
    match (t.node node).parent with
    | none => some t
    | some parent => do
      let children := (t.node parent).children
      let idx ← t.index node children
      let leftSibling := if idx > 0 then children[idx - 1]? else none
      let rightSibling := children[idx + 1]?
      let canLend := fun sibling => decide ((t.node sibling).keys.length > t.minKeys)
      match leftSibling.filter canLend, rightSibling.filter canLend with
      | some left, _ => t.redistributeFromLeft node left parent idx
      | none, some right => t.redistributeFromRight node right parent idx
      | none, none =>
        match leftSibling with
        | some left => mergeNodes fuel t left node parent (idx - 1)
        | none => do
          let right ← rightSibling
          mergeNodes fuel t node right parent idx

/-- Merge the right node into the left node. -/
def mergeNodes : ℕ → BPlusTree κ ν → ℕ → ℕ → ℕ → ℕ → Option (BPlusTree κ ν)
  | 0, _, _, _, _, _ => none
  | fuel + 1, t, left, right, parent, separatorIdx => do
    let t ← t.absorb left right parent separatorIdx
    let (_, keys) ← popAt (t.node parent).keys separatorIdx
    let (_, children) ← popAt (t.node parent).children (separatorIdx + 1)
    let t := t.update parent ({ · with keys := keys, children := children })
    if ← t.eq parent t.root then
      if keys.length = 0 then
        let t := t.update left ({ · with parent := none })
        some { t with root := left, height := t.height - 1 }
      else some t
    else if keys.length < t.minKeys then handleUnderflow fuel t parent
    else some t

end

/-- Update the parent's separator key when the leftmost key of a node changes. -/
def updateParentKey (t : BPlusTree κ ν) (node : ℕ) : Option (BPlusTree κ ν) :=
  match (t.node node).parent with
  | none => some t
  | some parent => do
    let idx ← t.index node (t.node parent).children
    if idx > 0 then
      let first ← (t.node node).keys.head?
      let separators ← setAt (t.node parent).keys (idx - 1) first
      some (t.update parent ({ · with keys := separators }))
    else some t

/-- Delete a key from the B+ tree. -/
def delete (t : BPlusTree κ ν) (key : κ) : Option (BPlusTree κ ν × Bool) := do
  let leaf ← t.findLeaf key
  match (t.node leaf).keys.findIdx? (· = key) with
  | none => some (t, false)
  | some idx => do
    let (_, keys) ← popAt (t.node leaf).keys idx
    let (_, values) ← popAt (t.node leaf).values idx
    let t := t.update leaf ({ · with keys := keys, values := values })
    let t := { t with size := t.size - 1 }
    let isRoot ← t.eq leaf t.root
    if isRoot = true ∨ t.minKeys ≤ keys.length then
      if (t.node leaf).parent.isSome ∧ idx = 0 ∧ 0 < keys.length then
        let t ← t.updateParentKey leaf
        some (t, true)
      else some (t, true)
    else
      let t ← handleUnderflow (2 * t.fresh) t leaf
      some (t, true)

end BPlusTree

end PySQL.BTree
