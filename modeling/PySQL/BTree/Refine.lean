import PySQL.BTree.Scan

/-!
# The tree is a sorted finite map

What a B+ tree is for is a map with its keys in order.  Every sequence of `insert_unique` and `delete`
calls runs through without an exception and gives the results that the map gives.
-/

namespace PySQL.BTree

open BPlusTree Lib

set_option linter.unusedSectionVars false

variable {κ ν : Type} [LinearOrder κ] [DecidableEq ν]

/-- The calls that change a tree with unique keys. -/
inductive Call (κ ν : Type) where
  | insertUnique (key : κ) (value : ν)
  | delete (key : κ)

/-- A call on the tree, with what it returns. -/
def BPlusTree.call (t : BPlusTree κ ν) : Call κ ν → Option (BPlusTree κ ν × Bool)
  | .insertUnique key value => t.insertUnique key value
  | .delete key => t.delete key

/-- A call on the map: a key is inserted only if it is absent. -/
def mapCall (m : SortedMap κ ν) : Call κ ν → SortedMap κ ν × Bool
  | .insertUnique key value =>
    if (m.get? key).isNone then (m.insert key value, true) else (m, false)
  | .delete key => if (m.get? key).isSome then (m.erase key, true) else (m, false)

/-- Calls in order, with what they return. -/
def BPlusTree.calls (t : BPlusTree κ ν) : List (Call κ ν) → Option (BPlusTree κ ν × List Bool)
  | [] => some (t, [])
  | c :: cs => do
    let (t, result) ← t.call c
    let (t, results) ← t.calls cs
    some (t, result :: results)

def mapCalls (m : SortedMap κ ν) : List (Call κ ν) → SortedMap κ ν × List Bool
  | [] => (m, [])
  | c :: cs =>
    let next := mapCall m c
    let rest := mapCalls next.1 cs
    (rest.1, next.2 :: rest.2)

/-- The store holds a B+ tree with the pairs of the map. -/
structure Represents (t : BPlusTree κ ν) (m : SortedMap κ ν) : Prop where
  sized : Sized t
  size : t.size = m.size
  stores : ∃ F, Stores t F ∧ Ordered F ∧ m.items = contents F

theorem new_spec {order : ℕ} (h : 3 ≤ order) :
    ∃ t : BPlusTree κ ν, BPlusTree.new order = some t ∧ t.order = order ∧
      Represents t SortedMap.empty := by
  refine ⟨_, if_neg (by omega), rfl, ⟨h, rfl⟩, rfl, [.leaf ⟨0, []⟩], ⟨0, leaf 0 [], ?_, ?_, rfl⟩,
    List.Pairwise.nil, rfl⟩
  · exact {
      ctx := trivial
      focus := rfl
      nodup := List.nodup_singleton 0
      fresh := fun i hi => by
        obtain rfl := List.mem_singleton.mp hi
        exact Nat.zero_lt_one
      root := rfl
      height := rfl
      linked := ⟨rfl, rfl, trivial⟩ }
  · exact ⟨trivial, trivial, Nat.zero_le _, Nat.zero_le _⟩

/-- As `Represents`, for a tree some of whose nodes may have fewer keys than insertion and deletion
leave them. -/
structure RepresentsFrom (lo : ℕ) (t : BPlusTree κ ν) (m : SortedMap κ ν) : Prop where
  sized : Sized t
  size : t.size = m.size
  stores : ∃ F, StoresFrom lo t F ∧ Ordered F ∧ m.items = contents F
  pos : 1 ≤ lo
  le : lo ≤ t.minKeys

theorem Represents.from {t : BPlusTree κ ν} {m : SortedMap κ ν} (h : Represents t m) :
    RepresentsFrom t.minKeys t m := by
  have horder := h.sized.order
  have hmin := h.sized.minKeys
  exact ⟨h.sized, h.size, h.stores, by omega, le_refl _⟩

/-- One call on the tree is the call on the map. -/
theorem RepresentsFrom.call {lo : ℕ} {t : BPlusTree κ ν} {m : SortedMap κ ν}
    (h : RepresentsFrom lo t m) (c : Call κ ν) :
    ∃ t', t.call c = some (t', (mapCall m c).2) ∧ t'.order = t.order ∧ t'.minKeys = t.minKeys ∧
      RepresentsFrom lo t' (mapCall m c).1 := by
  obtain ⟨F, hstores, hord, hm⟩ := h.stores
  cases c with
  | insertUnique key value =>
    rcases insertUnique_spec hstores hord h.sized h.le key value with
      ⟨hrun, P, v, Q, hcut⟩ | ⟨t', F', P, Q, hrun, hstores', hord', hgap, hcut, hP, hQ, horder, hmin, hsize⟩
    · have hget : m.get? key = some v := SortedMap.get?_of_cut (hm.trans hcut)
      refine ⟨t, ?_, rfl, rfl, ?_⟩ <;> simp only [mapCall, hget, Option.isNone_some,
        Bool.false_eq_true, if_false]
      · exact hrun
      · exact h
    · have hget : m.get? key = none := SortedMap.get?_of_gap (hm.trans hgap) hP hQ
      have hitems : (m.insert key value).items = contents F' := by
        rw [SortedMap.insert_of_gap (hm.trans hgap) hP hQ, hcut]
      refine ⟨t', ?_, horder, hmin, ?_⟩ <;> simp only [mapCall, hget, Option.isNone_none, if_true]
      · exact hrun
      · refine ⟨⟨horder ▸ h.sized.order, by rw [hmin, horder]; exact h.sized.minKeys⟩, ?_, ⟨F',
          hstores', hord', hitems⟩, h.pos, hmin ▸ h.le⟩
        rw [hsize, h.size, SortedMap.size, SortedMap.size, hitems, hcut, hm, hgap]
        simp only [List.length_append, List.length_cons]
        omega
  | delete key =>
    rcases delete_spec hstores hord h.sized h.pos h.le key with
      ⟨hrun, habsent⟩ | ⟨t', F', P, v, Q, hrun, hstores', hord', hcut, hgap, horder, hmin, hsize⟩
    · have hget : m.get? key = none := SortedMap.get?_eq_none.mpr (hm ▸ habsent)
      refine ⟨t, ?_, rfl, rfl, ?_⟩ <;> simp only [mapCall, hget, Option.isSome_none,
        Bool.false_eq_true, if_false]
      · exact hrun
      · exact h
    · have hget : m.get? key = some v := SortedMap.get?_of_cut (hm.trans hcut)
      have hitems : (m.erase key).items = contents F' := by
        rw [SortedMap.erase_of_cut (hm.trans hcut), hgap]
      refine ⟨t', ?_, horder, hmin, ?_⟩ <;> simp only [mapCall, hget, Option.isSome_some, if_true]
      · exact hrun
      · refine ⟨⟨horder ▸ h.sized.order, by rw [hmin, horder]; exact h.sized.minKeys⟩, ?_, ⟨F',
          hstores', hord', hitems⟩, h.pos, hmin ▸ h.le⟩
        rw [hsize, h.size, SortedMap.size, SortedMap.size, hitems, hgap, hm, hcut]
        simp only [List.length_append, List.length_cons]
        omega

/-- A run of calls on the tree is the run of calls on the map. -/
theorem RepresentsFrom.calls {lo : ℕ} {t : BPlusTree κ ν} {m : SortedMap κ ν}
    (h : RepresentsFrom lo t m) (cs : List (Call κ ν)) :
    ∃ t', t.calls cs = some (t', (mapCalls m cs).2) ∧ t'.order = t.order ∧ t'.minKeys = t.minKeys ∧
      RepresentsFrom lo t' (mapCalls m cs).1 := by
  induction cs generalizing t m with
  | nil => exact ⟨t, rfl, rfl, rfl, h⟩
  | cons c cs ih =>
    obtain ⟨t₁, hcall, horder₁, hmin₁, h₁⟩ := h.call c
    obtain ⟨t₂, hcalls, horder₂, hmin₂, h₂⟩ := ih h₁
    refine ⟨t₂, ?_, horder₂.trans horder₁, hmin₂.trans hmin₁, h₂⟩
    rw [BPlusTree.calls, hcall]
    simp only [Option.bind_eq_bind, Option.bind_some, hcalls]
    rfl

/-- What can be read from a tree is what is in the map. -/
theorem RepresentsFrom.reads {lo : ℕ} {t : BPlusTree κ ν} {m : SortedMap κ ν}
    (h : RepresentsFrom lo t m) :
    (∀ key, t.search key = some (m.get? key)) ∧ t.getMin = some m.min? ∧ t.getMax = some m.max? ∧
      ∀ low high includeLow includeHigh, t.rangeScan low high includeLow includeHigh =
        some (m.restrict (inBounds low high includeLow includeHigh)).items := by
  obtain ⟨F, hstores, hord, hm⟩ := h.stores
  exact ⟨search_spec hstores hord hm, getMin_spec hstores h.pos hm, getMax_spec hstores h.pos hm,
    rangeScan_spec hstores hord hm⟩

/-- A call on the tree, reads included. -/
inductive Op (κ ν : Type) where
  | search (key : κ)
  | rangeScan (low high : Option κ) (includeLow includeHigh : Bool)
  | call (c : Call κ ν)

inductive Reply (κ ν : Type) where
  | value (v : Option ν)
  | pairs (ps : List (κ × ν))
  | flag (b : Bool)

def BPlusTree.op (t : BPlusTree κ ν) : Op κ ν → Option (BPlusTree κ ν × Reply κ ν)
  | .search key => (t.search key).map fun v => (t, .value v)
  | .rangeScan low high includeLow includeHigh =>
    (t.rangeScan low high includeLow includeHigh).map fun ps => (t, .pairs ps)
  | .call c => (t.call c).map fun r => (r.1, .flag r.2)

def mapOp (m : SortedMap κ ν) : Op κ ν → SortedMap κ ν × Reply κ ν
  | .search key => (m, .value (m.get? key))
  | .rangeScan low high includeLow includeHigh =>
    (m, .pairs (m.restrict (inBounds low high includeLow includeHigh)).items)
  | .call c => ((mapCall m c).1, .flag (mapCall m c).2)

def BPlusTree.ops (t : BPlusTree κ ν) : List (Op κ ν) → Option (BPlusTree κ ν × List (Reply κ ν))
  | [] => some (t, [])
  | o :: os => do
    let (t, reply) ← t.op o
    let (t, replies) ← t.ops os
    some (t, reply :: replies)

def mapOps (m : SortedMap κ ν) : List (Op κ ν) → List (Reply κ ν)
  | [] => []
  | o :: os => (mapOp m o).2 :: mapOps (mapOp m o).1 os

/-- The replies of a tree are those of the map that it represents. -/
theorem RepresentsFrom.ops {lo : ℕ} {t : BPlusTree κ ν} {m : SortedMap κ ν}
    (h : RepresentsFrom lo t m) (os : List (Op κ ν)) :
    (t.ops os).map Prod.snd = some (mapOps m os) := by
  induction os generalizing t m with
  | nil => rfl
  | cons o os ih =>
    have hop : ∃ t', t.op o = some (t', (mapOp m o).2) ∧ RepresentsFrom lo t' (mapOp m o).1 := by
      obtain ⟨hsearch, -, -, hscan⟩ := h.reads
      cases o with
      | search key => exact ⟨t, by rw [BPlusTree.op, hsearch]; rfl, h⟩
      | rangeScan low high includeLow includeHigh =>
        exact ⟨t, by rw [BPlusTree.op, hscan]; rfl, h⟩
      | call c =>
        obtain ⟨t', hrun, -, -, h'⟩ := h.call c
        exact ⟨t', by rw [BPlusTree.op, hrun]; rfl, h'⟩
    obtain ⟨t', hrun, h'⟩ := hop
    obtain ⟨r, hr, hreplies⟩ := Option.map_eq_some_iff.mp (ih h')
    rw [BPlusTree.ops, hrun]
    simp only [Option.bind_eq_bind, Option.bind_some, hr, Option.map_some, hreplies, mapOps]

theorem Represents.calls {t : BPlusTree κ ν} {m : SortedMap κ ν} (h : Represents t m)
    (cs : List (Call κ ν)) :
    ∃ t', t.calls cs = some (t', (mapCalls m cs).2) ∧ t'.order = t.order ∧
      Represents t' (mapCalls m cs).1 := by
  obtain ⟨t', hrun, horder, hmin, h'⟩ := h.from.calls cs
  obtain ⟨F, hstores, hord, hm⟩ := h'.stores
  rw [← hmin] at hstores
  exact ⟨t', hrun, horder, h'.sized, h'.size, F, hstores, hord, hm⟩

/-- Every run on an initially empty tree refines the sorted finite map. -/
theorem refines_sortedMap {order : ℕ} (h : 3 ≤ order) (cs : List (Call κ ν)) :
    ∃ t₀ t : BPlusTree κ ν, BPlusTree.new order = some t₀ ∧
      t₀.calls cs = some (t, (mapCalls SortedMap.empty cs).2) ∧
      t.size = (mapCalls SortedMap.empty cs).1.size ∧
      (∀ key, t.search key = some ((mapCalls SortedMap.empty cs).1.get? key)) ∧
      t.getMin = some (mapCalls SortedMap.empty cs).1.min? ∧
      t.getMax = some (mapCalls SortedMap.empty cs).1.max? ∧
      ∀ low high includeLow includeHigh, ∃ pairs,
        t.rangeScan low high includeLow includeHigh = some pairs ∧
        (pairs.Pairwise fun p q => p.1 < q.1) ∧
        ∀ p, p ∈ pairs ↔ p ∈ (mapCalls SortedMap.empty cs).1.items ∧
          inBounds low high includeLow includeHigh p.1 = true := by
  obtain ⟨t₀, hnew, -, h₀⟩ := new_spec (κ := κ) (ν := ν) h
  obtain ⟨t, hrun, -, ht⟩ := h₀.calls cs
  obtain ⟨hsearch, hmin, hmax, hscan⟩ := ht.from.reads
  refine ⟨t₀, t, hnew, hrun, ht.size, hsearch, hmin, hmax, fun low high il ih => ?_⟩
  exact ⟨_, hscan low high il ih, SortedMap.sorted _, fun p => List.mem_filter⟩

theorem refines_sortedMap_mergedLeaves :
    (mapCalls (SortedMap.empty : SortedMap ℕ ℕ) [.insertUnique 1 10, .insertUnique 3 30,
      .insertUnique 2 20, .insertUnique 1 11, .delete 3, .delete 3]).2 =
        [true, true, true, false, true, false] ∧
    ∃ t₀ t : BPlusTree ℕ ℕ, BPlusTree.new 3 = some t₀ ∧
      (t₀.calls [.insertUnique 1 10, .insertUnique 3 30, .insertUnique 2 20, .insertUnique 1 11,
        .delete 3, .delete 3]).map Prod.snd = some [true, true, true, false, true, false] ∧
      t.size = 2 := by
  have hresults : (mapCalls (SortedMap.empty : SortedMap ℕ ℕ) [.insertUnique 1 10,
      .insertUnique 3 30, .insertUnique 2 20, .insertUnique 1 11, .delete 3, .delete 3]).2 =
        [true, true, true, false, true, false] := by decide
  obtain ⟨t₀, t, hnew, hrun, hsize, -⟩ := refines_sortedMap (κ := ℕ) (ν := ℕ) (by decide : 3 ≤ 3)
    [.insertUnique 1 10, .insertUnique 3 30, .insertUnique 2 20, .insertUnique 1 11, .delete 3,
      .delete 3]
  exact ⟨hresults, t₀, t, hnew, by rw [hrun, hresults]; rfl, hsize.trans (by decide)⟩

end PySQL.BTree
