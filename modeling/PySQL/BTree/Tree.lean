import Mathlib.Tactic

/-!
# B+ trees as values

A tree of height `n` has its leaves `n` levels below its root.  Read from left to right it is a
sequence of leaves with separators between them, whatever the branches above the leaves are; all that
the order of the keys asks for is said about that sequence.
-/

namespace PySQL.BTree

variable {κ ν : Type}

/-- A leaf: its identity and its pairs. -/
structure Leaf (κ ν : Type) where
  id : ℕ
  items : List (κ × ν)

/-- An internal node over subtrees of type `τ`. -/
structure Branch (κ τ : Type) where
  id : ℕ
  keys : List κ
  children : List τ
  length_children : children.length = keys.length + 1

/-- Trees with all leaves `n` levels below the root. -/
def Tree (κ ν : Type) : ℕ → Type
  | 0 => Leaf κ ν
  | n + 1 => Branch κ (Tree κ ν n)

/-- A tree of one leaf. -/
def leaf (id : ℕ) (items : List (κ × ν)) : Tree κ ν 0 := (⟨id, items⟩ : Leaf κ ν)

/-- A tree made of its root node. -/
def branch {n : ℕ} (id : ℕ) (keys : List κ) (children : List (Tree κ ν n))
    (h : children.length = keys.length + 1) : Tree κ ν (n + 1) :=
  (⟨id, keys, children, h⟩ : Branch κ (Tree κ ν n))

theorem exists_leaf (l : Tree κ ν 0) : ∃ id items, l = leaf id items := ⟨_, _, rfl⟩

theorem exists_branch {n : ℕ} (b : Tree κ ν (n + 1)) :
    ∃ id keys children h, b = branch id keys children h := ⟨_, _, _, _, rfl⟩

/-- A list cut in two. -/
theorem exists_append {α : Type} (l : List α) {i : ℕ} (hi : i ≤ l.length) :
    ∃ as bs, as.length = i ∧ l = as ++ bs :=
  ⟨l.take i, l.drop i, List.length_take_of_le hi, (List.take_append_drop i l).symm⟩

/-- A list cut at one of its elements. -/
theorem exists_cut {α : Type} (l : List α) {i : ℕ} (hi : i < l.length) :
    ∃ as a bs, as.length = i ∧ l = as ++ a :: bs := by
  refine ⟨l.take i, l[i], l.drop (i + 1), ?_, ?_⟩
  · rw [List.length_take]
    omega
  · rw [← List.drop_eq_getElem_cons hi, List.take_append_drop]

/-! ## Leaves and separators from left to right -/

inductive Piece (κ ν : Type) where
  | leaf (l : Leaf κ ν)
  | sep (k : κ)

/-- Sequences with separators between them. -/
def weave : List κ → List (List (Piece κ ν)) → List (Piece κ ν)
  | k :: ks, p :: ps => p ++ .sep k :: weave ks ps
  | _, ps => ps.flatten

theorem weave_nil (ps : List (List (Piece κ ν))) : weave [] ps = ps.flatten := by
  cases ps <;> rfl

theorem weave_append {ks ks' : List κ} {ps ps' : List (List (Piece κ ν))} {k : κ}
    (h : ps.length = ks.length + 1) :
    weave (ks ++ k :: ks') (ps ++ ps') = weave ks ps ++ .sep k :: weave ks' ps' := by
  induction ks generalizing ps with
  | nil =>
    obtain ⟨p, rfl⟩ := List.length_eq_one_iff.mp h
    simp [weave]
  | cons k₀ ks ih =>
    cases ps with
    | nil => simp at h
    | cons p ps =>
      have hlen : ps.length = ks.length + 1 := by simpa using h
      simp [weave, ih hlen]

/-- What the order of keys is about: the keys of the pairs, and the separators. -/
inductive Token (κ : Type) where
  | item (k : κ)
  | sep (k : κ)

def Token.key : Token κ → κ
  | item k | sep k => k

/-- Keys left of a separator are below it, keys right of it are not. -/
def Token.Before [LT κ] [LE κ] : Token κ → Token κ → Prop
  | item x, item y => x < y
  | item x, sep k => x < k
  | sep k, item y => k ≤ y
  | sep k, sep k' => k ≤ k'

/-- As `Before`, but a key may stand more than once between two separators. -/
def Token.Upto [LT κ] [LE κ] : Token κ → Token κ → Prop
  | item x, item y => x ≤ y
  | item x, sep k => x < k
  | sep k, item y => k ≤ y
  | sep k, sep k' => k ≤ k'

def Piece.tokens : Piece κ ν → List (Token κ)
  | leaf l => l.items.map fun p => .item p.1
  | sep k => [.sep k]

def Piece.items : Piece κ ν → List (κ × ν)
  | leaf l => l.items
  | sep _ => []

def Piece.leafIds : Piece κ ν → List ℕ
  | leaf l => [l.id]
  | sep _ => []

def tokens (F : List (Piece κ ν)) : List (Token κ) := F.flatMap Piece.tokens

/-- The pairs of all leaves. -/
def contents (F : List (Piece κ ν)) : List (κ × ν) := F.flatMap Piece.items

def leafIds (F : List (Piece κ ν)) : List ℕ := F.flatMap Piece.leafIds

@[simp] theorem tokens_nil : tokens ([] : List (Piece κ ν)) = [] := rfl

@[simp] theorem tokens_append (F G : List (Piece κ ν)) : tokens (F ++ G) = tokens F ++ tokens G :=
  List.flatMap_append

@[simp] theorem tokens_leaf (l : Leaf κ ν) (F : List (Piece κ ν)) :
    tokens (.leaf l :: F) = l.items.map (fun p => .item p.1) ++ tokens F := rfl

@[simp] theorem tokens_sep (k : κ) (F : List (Piece κ ν)) :
    tokens (.sep k :: F) = .sep k :: tokens F := rfl

@[simp] theorem contents_nil : contents ([] : List (Piece κ ν)) = [] := rfl

@[simp] theorem contents_append (F G : List (Piece κ ν)) :
    contents (F ++ G) = contents F ++ contents G :=
  List.flatMap_append

@[simp] theorem contents_leaf (l : Leaf κ ν) (F : List (Piece κ ν)) :
    contents (.leaf l :: F) = l.items ++ contents F := rfl

@[simp] theorem contents_sep (k : κ) (F : List (Piece κ ν)) :
    contents (.sep k :: F) = contents F := rfl

@[simp] theorem leafIds_nil : leafIds ([] : List (Piece κ ν)) = [] := rfl

@[simp] theorem leafIds_append (F G : List (Piece κ ν)) :
    leafIds (F ++ G) = leafIds F ++ leafIds G :=
  List.flatMap_append

@[simp] theorem leafIds_leaf (l : Leaf κ ν) (F : List (Piece κ ν)) :
    leafIds (.leaf l :: F) = l.id :: leafIds F := rfl

@[simp] theorem leafIds_sep (k : κ) (F : List (Piece κ ν)) :
    leafIds (.sep k :: F) = leafIds F := rfl

/-! ## Order -/

section Order

set_option linter.unusedSectionVars false

variable [LinearOrder κ]

theorem Token.Before.le {a b : Token κ} (h : a.Before b) : a.key ≤ b.key := by
  cases a <;> cases b
  · exact le_of_lt h
  · exact le_of_lt h
  · exact h
  · exact h

theorem Token.Before.trans {a b c : Token κ} (hab : a.Before b) (hbc : b.Before c) :
    a.Before c := by
  cases a with
  | item x =>
    have hlt : x < b.key := by cases b <;> exact hab
    cases c <;> exact lt_of_lt_of_le hlt hbc.le
  | sep k =>
    have hle := hab.le.trans hbc.le
    cases c <;> exact hle

theorem Token.Before.upto {a b : Token κ} (h : a.Before b) : a.Upto b := by
  cases a <;> cases b
  · exact le_of_lt h
  · exact h
  · exact h
  · exact h

theorem Token.Upto.le {a b : Token κ} (h : a.Upto b) : a.key ≤ b.key := by
  cases a <;> cases b
  · exact h
  · exact le_of_lt h
  · exact h
  · exact h

/-- Keys on the two sides of a separator differ. -/
theorem Token.Upto.before {a b : Token κ} {k : κ} (ha : a.Upto (.sep k)) (hb : Token.Upto (.sep k) b) :
    a.Before b := by
  cases a with
  | item x =>
    have hlt : x < b.key := lt_of_lt_of_le ha hb.le
    cases b <;> exact hlt
  | sep k' =>
    have hle : k' ≤ b.key := le_trans ha hb.le
    cases b <;> exact hle

/-- The keys are in order: strictly where a pair comes first. -/
def Ordered (F : List (Piece κ ν)) : Prop := (tokens F).Pairwise Token.Before

/-- The keys are in order, and no key stands on both sides of a separator. -/
def Separated (F : List (Piece κ ν)) : Prop := (tokens F).Pairwise Token.Upto

/-- A separator may stand right before the pair whose key it is, if all pairs before are below it. -/
theorem pairwise_insertSep {P Q : List (Token κ)} {z : κ}
    (h : (P ++ .item z :: Q).Pairwise Token.Upto) (hz : ∀ x, Token.item x ∈ P → x < z) :
    (P ++ .sep z :: .item z :: Q).Pairwise Token.Upto := by
  rw [List.pairwise_append, List.pairwise_cons] at h
  obtain ⟨hP, ⟨hle, hQ⟩, hcross⟩ := h
  rw [List.pairwise_append, List.pairwise_cons, List.pairwise_cons]
  refine ⟨hP, ⟨?_, hle, hQ⟩, ?_⟩
  · intro b hb
    rcases List.mem_cons.mp hb with rfl | hb
    · exact le_refl z
    · have hle' := (hle b hb).le
      cases b <;> exact hle'
  · intro a ha b hb
    have hz' := hcross a ha (.item z) (by simp)
    rcases List.mem_cons.mp hb with rfl | hb
    · cases a with
      | item x => exact hz x ha
      | sep k => exact hz'
    · exact hcross a ha b hb

/-- The key of a pair that is between what comes before and what comes after may be added. -/
theorem pairwise_insertItem {P Q : List (Token κ)} {x : κ} (h : (P ++ Q).Pairwise Token.Upto)
    (hP : ∀ a ∈ P, a.Upto (.item x)) (hQ : ∀ b ∈ Q, Token.Upto (.item x) b) :
    (P ++ .item x :: Q).Pairwise Token.Upto := by
  rw [List.pairwise_append] at h
  rw [List.pairwise_append, List.pairwise_cons]
  refine ⟨h.1, ⟨hQ, h.2.1⟩, ?_⟩
  intro a ha b hb
  rcases List.mem_cons.mp hb with rfl | hb
  · exact hP a ha
  · exact h.2.2 a ha b hb

theorem mem_contents {F : List (Piece κ ν)} {k : κ} :
    (∃ v, (k, v) ∈ contents F) ↔ Token.item k ∈ tokens F := by
  induction F with
  | nil => simp
  | cons p F ih =>
    cases p with
    | leaf l => simp [← ih, exists_or]
    | sep s => simp [← ih]

/-- The keys of an ordered sequence ascend. -/
theorem Ordered.contents {F : List (Piece κ ν)} (h : Ordered F) :
    (contents F).Pairwise fun p q => p.1 < q.1 := by
  induction F with
  | nil => exact List.Pairwise.nil
  | cons p F ih =>
    cases p with
    | leaf l =>
      rw [Ordered, tokens_leaf, List.pairwise_append, List.pairwise_map] at h
      rw [contents_leaf, List.pairwise_append]
      refine ⟨h.1, ih h.2.1, fun p hp q hq => ?_⟩
      exact h.2.2 _ (List.mem_map_of_mem hp) _ (mem_contents.mp ⟨q.2, hq⟩)
    | sep k =>
      rw [Ordered, tokens_sep, List.pairwise_cons] at h
      exact ih h.2

/-- The keys do not descend: a key may stand more than once. -/
def Ascending (F : List (Piece κ ν)) : Prop := (tokens F).Pairwise fun a b => a.key ≤ b.key

theorem Ordered.separated {F : List (Piece κ ν)} (h : Ordered F) : Separated F :=
  List.Pairwise.imp Token.Before.upto h

theorem Separated.ascending {F : List (Piece κ ν)} (h : Separated F) : Ascending F :=
  List.Pairwise.imp Token.Upto.le h

/-- The order is strict if no key stands twice. -/
theorem Separated.ordered {F : List (Piece κ ν)} (h : Separated F)
    (hc : (BTree.contents F).Pairwise fun p q => p.1 < q.1) : Ordered F := by
  induction F with
  | nil => exact List.Pairwise.nil
  | cons p F ih =>
    cases p with
    | leaf l =>
      rw [Separated, tokens_leaf, List.pairwise_append] at h
      rw [contents_leaf, List.pairwise_append] at hc
      rw [Ordered, tokens_leaf, List.pairwise_append, List.pairwise_map]
      refine ⟨hc.1, ih h.2.1 hc.2.1, fun a ha b hb => ?_⟩
      have hab := h.2.2 a ha b hb
      obtain ⟨q, hq, rfl⟩ := List.mem_map.mp ha
      cases b with
      | item y =>
        obtain ⟨v, hv⟩ := mem_contents.mpr hb
        exact hc.2.2 q hq (y, v) hv
      | sep k => exact hab
    | sep k =>
      rw [Separated, tokens_sep, List.pairwise_cons] at h
      rw [Ordered, tokens_sep, List.pairwise_cons]
      refine ⟨fun b hb => ?_, ih h.2 hc⟩
      have hkb := h.1 b hb
      cases b <;> exact hkb

theorem Ascending.append {F G : List (Piece κ ν)} (h : Ascending (F ++ G)) :
    Ascending F ∧ Ascending G := by
  rw [Ascending, tokens_append, List.pairwise_append] at h
  exact ⟨h.1, h.2.1⟩

theorem Ascending.contents {F : List (Piece κ ν)} (h : Ascending F) :
    (contents F).Pairwise fun p q => p.1 ≤ q.1 := by
  induction F with
  | nil => exact List.Pairwise.nil
  | cons p F ih =>
    cases p with
    | leaf l =>
      rw [Ascending, tokens_leaf, List.pairwise_append, List.pairwise_map] at h
      rw [contents_leaf, List.pairwise_append]
      refine ⟨h.1, ih h.2.1, fun p hp q hq => ?_⟩
      exact h.2.2 _ (List.mem_map_of_mem hp) _ (mem_contents.mp ⟨q.2, hq⟩)
    | sep k =>
      rw [Ascending, tokens_sep, List.pairwise_cons] at h
      exact ih h.2

/-- No pair stands twice in an ordered sequence. -/
theorem Ordered.nodup {F : List (Piece κ ν)} (h : Ordered F) : (BTree.contents F).Nodup :=
  h.contents.imp fun hlt heq => hlt.ne (congrArg Prod.fst heq)

theorem Separated.sublist {F G : List (Piece κ ν)} (h : Separated G)
    (hs : (tokens F).Sublist (tokens G)) : Separated F :=
  List.Pairwise.sublist hs h

theorem Separated.append {F G : List (Piece κ ν)} (h : Separated (F ++ G)) :
    Separated F ∧ Separated G := by
  rw [Separated, tokens_append, List.pairwise_append] at h
  exact ⟨h.1, h.2.1⟩

/-- No key stands on both sides of a place in a list. -/
def Apart (i : ℕ) (keys : List κ) : Prop := ∀ x ∈ keys.take i, ∀ y ∈ keys.drop i, x < y

instance (i : ℕ) (keys : List κ) : Decidable (Apart i keys) :=
  inferInstanceAs (Decidable (∀ x ∈ keys.take i, ∀ y ∈ keys.drop i, x < y))

theorem apart_append {A B : List κ} : Apart A.length (A ++ B) ↔ ∀ x ∈ A, ∀ y ∈ B, x < y := by
  rw [Apart, List.take_left, List.drop_left]

theorem apart_of_pairwise {keys : List κ} (h : keys.Pairwise (· < ·)) (i : ℕ) : Apart i keys := by
  rw [← List.take_append_drop i keys, List.pairwise_append] at h
  exact h.2.2

end Order

/-! ## Trees -/

namespace Tree

def id : {n : ℕ} → Tree κ ν n → ℕ
  | 0, l => Leaf.id l
  | _ + 1, b => Branch.id b

@[simp] theorem id_branch {n : ℕ} (i : ℕ) (ks : List κ) (cs : List (Tree κ ν n)) (h) :
    (branch i ks cs h).id = i := rfl

@[simp] theorem id_leaf (i : ℕ) (items : List (κ × ν)) : (leaf i items).id = i := rfl

/-- All nodes of a tree. -/
def ids : {n : ℕ} → Tree κ ν n → List ℕ
  | 0, l => [Leaf.id l]
  | n + 1, b => Branch.id b :: (Branch.children b).flatMap fun (c : Tree κ ν n) => c.ids

/-- The leaves and separators of a tree from left to right. -/
def flat : {n : ℕ} → Tree κ ν n → List (Piece κ ν)
  | 0, l => [.leaf l]
  | n + 1, b => weave (Branch.keys b) ((Branch.children b).map fun (c : Tree κ ν n) => c.flat)

/-- The keys in the root node of a tree. -/
def size : {n : ℕ} → Tree κ ν n → ℕ
  | 0, l => (Leaf.items l).length
  | _ + 1, b => (Branch.keys b).length

theorem ids_branch {n : ℕ} (i : ℕ) (ks : List κ) (cs : List (Tree κ ν n)) (h) :
    (branch i ks cs h).ids = i :: cs.flatMap Tree.ids := rfl

theorem flat_branch {n : ℕ} (i : ℕ) (ks : List κ) (cs : List (Tree κ ν n)) (h) :
    (branch i ks cs h).flat = weave ks (cs.map flat) := rfl

@[simp] theorem size_branch {n : ℕ} (i : ℕ) (ks : List κ) (cs : List (Tree κ ν n)) (h) :
    (branch i ks cs h).size = ks.length := rfl

@[simp] theorem ids_leaf (i : ℕ) (items : List (κ × ν)) : (leaf i items).ids = [i] := rfl

@[simp] theorem flat_leaf (i : ℕ) (items : List (κ × ν)) :
    (leaf i items).flat = [.leaf ⟨i, items⟩] := rfl

@[simp] theorem size_leaf (i : ℕ) (items : List (κ × ν)) : (leaf i items).size = items.length := rfl

/-- All nodes below the root have `lo` to `hi` keys. -/
def Below (lo hi : ℕ) : {n : ℕ} → Tree κ ν n → Prop
  | 0, _ => True
  | n + 1, b => ∀ c ∈ Branch.children b,
      lo ≤ Tree.size (c : Tree κ ν n) ∧ Tree.size (c : Tree κ ν n) ≤ hi ∧
        Below lo hi (c : Tree κ ν n)

/-- All nodes have `lo` to `hi` keys. -/
def Full (lo hi : ℕ) {n : ℕ} (t : Tree κ ν n) : Prop := lo ≤ t.size ∧ t.size ≤ hi ∧ t.Below lo hi

theorem below_succ {lo hi n : ℕ} {b : Tree κ ν (n + 1)} :
    b.Below lo hi ↔ ∀ c ∈ Branch.children b, Tree.Full lo hi (c : Tree κ ν n) := Iff.rfl

theorem id_mem_ids {n : ℕ} (t : Tree κ ν n) : t.id ∈ t.ids := by
  cases n with
  | zero => exact List.mem_singleton_self _
  | succ n => exact List.mem_cons_self

end Tree

/-- A branch with one child taken out: the children left of it, each with the key after it, and those
right of it, each with the key before it. -/
structure Frame (κ ν : Type) (n : ℕ) where
  id : ℕ
  left : List (Tree κ ν n × κ)
  right : List (κ × Tree κ ν n)

namespace Frame

variable {n : ℕ}

def keys (f : Frame κ ν n) : List κ := f.left.map Prod.snd ++ f.right.map Prod.fst

/-- The children, with something in the place of the one taken out. -/
def childrenWith {α : Type} (f : Frame κ ν n) (g : Tree κ ν n → α) (a : α) : List α :=
  f.left.map (fun p => g p.1) ++ a :: f.right.map fun p => g p.2

def fill (f : Frame κ ν n) (t : Tree κ ν n) : Tree κ ν (n + 1) :=
  ({ id := f.id
     keys := f.keys
     children := f.childrenWith (fun c => c) t
     length_children := by
       simp only [keys, childrenWith, List.length_append, List.length_cons, List.length_map]
       omega } : Branch κ (Tree κ ν n))

def before (f : Frame κ ν n) : List (Piece κ ν) := f.left.flatMap fun p => p.1.flat ++ [.sep p.2]

def after (f : Frame κ ν n) : List (Piece κ ν) := f.right.flatMap fun p => .sep p.1 :: p.2.flat

/-- The siblings of the child taken out. -/
def siblings (f : Frame κ ν n) : List (Tree κ ν n) := f.left.map Prod.fst ++ f.right.map Prod.snd

def ids (f : Frame κ ν n) : List ℕ := f.id :: f.siblings.flatMap Tree.ids

theorem flat_fill (f : Frame κ ν n) (t : Tree κ ν n) :
    (f.fill t).flat = f.before ++ t.flat ++ f.after := by
  have hright : ∀ (right : List (κ × Tree κ ν n)) (t : Tree κ ν n),
      weave (right.map Prod.fst) ((t :: right.map Prod.snd).map fun c => c.flat) =
        t.flat ++ right.flatMap fun p => .sep p.1 :: p.2.flat := by
    intro right
    induction right with
    | nil => simp [weave]
    | cons p right ih =>
      intro t
      simpa [weave] using ih p.2
  have hleft : ∀ left : List (Tree κ ν n × κ),
      weave (left.map Prod.snd ++ f.right.map Prod.fst)
          ((left.map Prod.fst ++ t :: f.right.map Prod.snd).map fun c => c.flat) =
        (left.flatMap fun p => p.1.flat ++ [.sep p.2]) ++ (t.flat ++ f.after) := by
    intro left
    induction left with
    | nil => exact hright f.right t
    | cons p left ih => simpa [weave] using ih
  rw [List.append_assoc]
  exact hleft f.left

theorem ids_fill (f : Frame κ ν n) (t : Tree κ ν n) : (f.fill t).ids.Perm (f.ids ++ t.ids) := by
  have heq : (f.fill t).ids = f.id :: ((f.left.map Prod.fst).flatMap Tree.ids ++
      (t.ids ++ (f.right.map Prod.snd).flatMap Tree.ids)) := by
    simp [fill, Tree.ids, childrenWith]
  rw [heq, ids, siblings, List.flatMap_append, List.cons_append, List.append_assoc]
  exact ((List.perm_append_comm).append_left _).cons _

@[simp] theorem id_fill (f : Frame κ ν n) (t : Tree κ ν n) : (f.fill t).id = f.id := rfl

theorem size_fill (f : Frame κ ν n) (t : Tree κ ν n) :
    (f.fill t).size = f.left.length + f.right.length := by
  simp [fill, Tree.size, keys]

theorem mem_children_fill (f : Frame κ ν n) (t c : Tree κ ν n) :
    c ∈ Branch.children (f.fill t) ↔ c = t ∨ c ∈ f.siblings := by
  simp [fill, childrenWith, siblings, or_left_comm]

/-- Every child of a branch can be taken out of it. -/
theorem exists_fill (b : Tree κ ν (n + 1)) {i : ℕ} (hi : i ≤ (Branch.keys b).length) :
    ∃ (f : Frame κ ν n) (t : Tree κ ν n), b = f.fill t ∧ f.left.length = i := by
  obtain ⟨id, keys, children, hlen⟩ := b
  have hkeys : i ≤ keys.length := hi
  have hlt : i < children.length := by omega
  let f : Frame κ ν n := {
    id
    left := (children.take i).zip (keys.take i)
    right := (keys.drop i).zip (children.drop (i + 1)) }
  have hl : f.left.map Prod.fst = children.take i ∧ f.left.map Prod.snd = keys.take i := by
    constructor
    · exact List.map_fst_zip (by rw [List.length_take, List.length_take]; omega)
    · exact List.map_snd_zip (by rw [List.length_take, List.length_take]; omega)
  have hr : f.right.map Prod.fst = keys.drop i ∧ f.right.map Prod.snd = children.drop (i + 1) := by
    constructor
    · exact List.map_fst_zip (by rw [List.length_drop, List.length_drop]; omega)
    · exact List.map_snd_zip (by rw [List.length_drop, List.length_drop]; omega)
  refine ⟨f, children[i], ?_, ?_⟩
  · have hk : f.keys = keys := by
      rw [Frame.keys, hl.2, hr.1, List.take_append_drop]
    have hc : f.childrenWith (fun c => c) children[i] = children := by
      rw [Frame.childrenWith, hl.1, hr.2, ← List.drop_eq_getElem_cons hlt, List.take_append_drop]
    simp only [fill, hk, hc]
    rfl
  · simp only [f, List.length_zip, List.length_take]
    omega

end Frame

/-- The way from a subtree of height `n` up to the root. -/
inductive Ctx (κ ν : Type) : ℕ → Type where
  | top {n : ℕ} : Ctx κ ν n
  | up {n : ℕ} (f : Frame κ ν n) (c : Ctx κ ν (n + 1)) : Ctx κ ν n

namespace Ctx

def before : {n : ℕ} → Ctx κ ν n → List (Piece κ ν)
  | _, top => []
  | _, up f c => c.before ++ f.before

def after : {n : ℕ} → Ctx κ ν n → List (Piece κ ν)
  | _, top => []
  | _, up f c => f.after ++ c.after

def ids : {n : ℕ} → Ctx κ ν n → List ℕ
  | _, top => []
  | _, up f c => c.ids ++ f.ids

/-- The node right above the subtree. -/
def parent : {n : ℕ} → Ctx κ ν n → Option ℕ
  | _, top => none
  | _, up f _ => some f.id

/-- The root, given the root of the subtree. -/
def root : {n : ℕ} → Ctx κ ν n → ℕ → ℕ
  | _, top, i => i
  | _, up f c, _ => c.root f.id

/-- The height of the whole tree. -/
def height : {n : ℕ} → Ctx κ ν n → ℕ
  | n, top => n
  | _, up _ c => c.height

/-- How few keys the node at this place may have: a branch at the root has at least one. -/
def least (lo : ℕ) : {n : ℕ} → Ctx κ ν n → ℕ
  | 0, top => 0
  | _ + 1, top => 1
  | _, up _ _ => lo

@[simp] theorem least_up (lo : ℕ) {n : ℕ} (f : Frame κ ν n) (c : Ctx κ ν (n + 1)) :
    (up f c).least lo = lo := by
  cases n <;> rfl

/-- All nodes outside of the subtree are as full as they should be. -/
def Full (lo hi : ℕ) : {n : ℕ} → Ctx κ ν n → Prop
  | _, top => True
  | _, up f c => (∀ s ∈ f.siblings, s.Full lo hi) ∧ c.least lo ≤ f.left.length + f.right.length ∧
      f.left.length + f.right.length ≤ hi ∧ c.Full lo hi

end Ctx

end PySQL.BTree
