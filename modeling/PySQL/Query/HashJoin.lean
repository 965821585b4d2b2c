import PySQL.Query.Operators

/-!
# The hash join and the nested-loop join

Both are joins in the sense of the library, of the same two lists of rows: the nested loops match by
the condition on the joined row, the hash table by `==` of the two key cells, and only the nested
loops keep right rows without a partner.
-/

namespace PySQL.Query

open Lib

variable {py : Py} {joinType : JoinType} {condition : Option Expr} {left right : QueryResult}

/-- The condition holds of the two rows. -/
def joins (py : Py) (condition : Option Expr) (left right : QueryResult) (l r : Row) : Bool :=
  isTrue (onPair py condition left right l r)

/-- The result of a join that consists of these pairs. -/
def joinResult (left right : QueryResult) (pairs : List (Row × Row)) : QueryResult where
  columns := left.columns ++ right.columns
  rows := pairs.map fun p => p.1 ++ p.2

/-! ## Nested loops -/

/-- The condition does not raise on any pair of rows. -/
def CondOk (py : Py) (condition : Option Expr) (left right : QueryResult) : Prop :=
  ∀ l ∈ left.rows, ∀ r ∈ right.rows, (onPair py condition left right l r).isOk = true

/-- What the first loop keeps of a left row. -/
def leftPairs (M : Row → Row → Bool) (keepLeft : Bool) (b₀ : Row) (r : List Row) (l : Row) :
    List (Row × Row) :=
  (r.filter (M l)).map (Prod.mk l) ++ if keepLeft && !r.any (M l) then [(l, b₀)] else []

theorem isEmpty_filter {α : Type} (p : α → Bool) (xs : List α) :
    (xs.filter p).isEmpty = !xs.any p := by
  induction xs with
  | nil => rfl
  | cons x xs ih => cases h : p x <;> simp [h, ih]

theorem joinLeftRow_of_isOk {l : Row}
    (h : ∀ r ∈ right.rows, (onPair py condition left right l r).isOk = true) :
    joinLeftRow py joinType condition left right l =
      .ok ((leftPairs (joins py condition left right) joinType.keepsLeft
        (nulls right.columns.length) right.rows l).map fun p => p.1 ++ p.2) := by
  rw [joinLeftRow, filterE_of_isOk h]
  change Except.ok _ = _
  rw [leftPairs, List.map_append, List.map_map, isEmpty_filter, Bool.and_comm,
    apply_ite (List.map _)]
  rfl

theorem lacksMatch_of_isOk {r : Row}
    (h : ∀ l ∈ left.rows, (onPair py condition left right l r).isOk = true) :
    lacksMatch py condition left right r =
      .ok !left.rows.any (joins py condition left right · r) := by
  rw [lacksMatch, anyE_of_isOk h]
  rfl

theorem execNestedLoopJoin_of_condOk (h : CondOk py condition left right) :
    execNestedLoopJoin py joinType condition left right = .ok (joinResult left right
      (joinPairs (joins py condition left right) joinType.keepsLeft joinType.keepsRight
        (nulls left.columns.length) (nulls right.columns.length) left.rows right.rows)) := by
  have hunmatched : ∀ r ∈ right.rows, (lacksMatch py condition left right r).isOk = true := by
    intro r hr
    rw [lacksMatch_of_isOk fun l hl => h l hl r hr]
    rfl
  have hfilter : (right.rows.filter fun r => isTrue (lacksMatch py condition left right r)) =
      right.rows.filter fun r => !left.rows.any (joins py condition left right · r) :=
    List.filter_congr fun r hr => by rw [lacksMatch_of_isOk fun l hl => h l hl r hr, isTrue_ok]
  rw [execNestedLoopJoin, mapE_of_ok fun l hl => joinLeftRow_of_isOk (h l hl),
    filterE_of_isOk hunmatched, hfilter]
  cases hkeep : joinType.keepsRight with
  | false =>
    change Except.ok _ = Except.ok _
    rw [joinResult, joinPairs, List.map_append, List.map_flatMap]
    simp [List.flatMap_def, leftPairs]
  | true =>
    change Except.ok _ = Except.ok _
    rw [joinResult, joinPairs, List.map_append, List.map_flatMap]
    simp [List.flatMap_def, leftPairs, Function.comp_def]

/-- The first loop looks at every pair. -/
theorem condOk_of_isOk (h : (execNestedLoopJoin py joinType condition left right).isOk = true) :
    CondOk py condition left right := by
  intro l hl
  rw [execNestedLoopJoin] at h
  cases hjoined : mapE (joinLeftRow py joinType condition left right) left.rows with
  | error e =>
    rw [hjoined] at h
    cases h
  | ok rows =>
    have hrow := mapE_isOk.mp (by rw [hjoined]; rfl) l hl
    rw [joinLeftRow] at hrow
    cases hpartners : filterE (onPair py condition left right l) right.rows with
    | error e =>
      rw [hpartners] at hrow
      cases hrow
    | ok partners => exact filterE_isOk.mp (by rw [hpartners]; rfl)

/-! ## Hashing -/

/-- The key cells of two rows are equal. -/
def keysEqual (i j : ℕ) (l r : Row) : Bool :=
  match l[i]?, r[j]? with
  | some x, some y => x.eq y
  | _, _ => false

theorem hashGet_hashInsert (k key : Value) (row : Row) (table : List (Value × List Row)) :
    hashGet k (hashInsert key row table) =
      if key.eq k then hashGet k table ++ [row] else hashGet k table := by
  induction table with
  | nil => by_cases h : key.eq k = true <;> simp [hashInsert, hashGet, h]
  | cons entry rest ih =>
    obtain ⟨k', rows⟩ := entry
    rw [hashInsert]
    by_cases hkey : k'.eq key = true
    · -- the entries that equal the key are the ones that equal the entry's own key
      have hiff : k'.eq k = key.eq k := by
        rw [Bool.eq_iff_iff]
        exact ⟨Value.eq_trans (Value.eq_comm ▸ hkey), Value.eq_trans hkey⟩
      rw [if_pos hkey]
      by_cases h : key.eq k = true <;> simp [hashGet, hiff, h]
    · rw [if_neg hkey]
      by_cases h : k'.eq k = true
      · have hne : key.eq k ≠ true := fun hk => hkey (Value.eq_trans h (Value.eq_comm ▸ hk))
        simp [hashGet, h, hne]
      · have hskip (table : List (Value × List Row)) :
            hashGet k ((k', rows) :: table) = hashGet k table := by
          simp [hashGet, h]
        rw [hskip, hskip, ih]

theorem hashGet_buildTable {j : ℕ} {rows : List Row} (h : ∀ r ∈ rows, j < r.length) :
    ∃ table, buildTable j rows = .ok table ∧
      ∀ k, hashGet k table = rows.filter fun r => (r[j]?).elim false (k.eq ·) := by
  have aux : ∀ (rows : List Row) (table : List (Value × List Row)), (∀ r ∈ rows, j < r.length) →
      ∃ table', rows.foldlM (fun table row => do return hashInsert (← cell j row) row table) table =
          Except.ok (ε := PyError) table' ∧
        ∀ k, hashGet k table' =
          hashGet k table ++ rows.filter fun r => (r[j]?).elim false (k.eq ·) := by
    intro rows
    induction rows with
    | nil => exact fun table _ => ⟨table, rfl, fun k => (List.append_nil _).symm⟩
    | cons r rows ih =>
      intro table h
      rw [List.forall_mem_cons] at h
      obtain ⟨table', hrun, hget⟩ := ih (hashInsert r[j] r table) h.2
      refine ⟨table', ?_, fun k => ?_⟩
      · rw [List.foldlM_cons, cell, List.getElem?_eq_getElem h.1]
        exact hrun
      · rw [hget, hashGet_hashInsert, Value.eq_comm, List.filter_cons,
          List.getElem?_eq_getElem h.1]
        by_cases hk : k.eq r[j] = true <;> simp [hk]
  obtain ⟨table, hrun, hget⟩ := aux rows [] h
  exact ⟨table, hrun, fun k => (hget k).trans (List.nil_append _)⟩

variable {i j : ℕ}

theorem lt_of_keyColumns (h : keyColumns condition left right = some (i, j)) :
    i < left.columns.length ∧ j < right.columns.length := by
  rw [keyColumns, Option.bind_eq_some_iff] at h
  obtain ⟨keys, -, h⟩ := h
  rw [Option.bind_eq_some_iff] at h
  obtain ⟨i', hi, h⟩ := h
  rw [Option.map_eq_some_iff] at h
  obtain ⟨j', hj, heq⟩ := h
  obtain ⟨rfl, rfl⟩ := Prod.mk.inj heq
  exact ⟨(List.idxOf?_eq_some_iff.mp hi).1, (List.idxOf?_eq_some_iff.mp hj).1⟩

theorem probeRow_eq {table : List (Value × List Row)} {l : Row} (hi : i < l.length)
    (hget : ∀ k, hashGet k table = right.rows.filter fun r => (r[j]?).elim false (k.eq ·)) :
    probeRow joinType i table right l =
      .ok ((leftPairs (keysEqual i j) joinType.keepsLeft (nulls right.columns.length) right.rows
        l).map fun p => p.1 ++ p.2) := by
  have hmatch : (fun r : Row => (r[j]?).elim false (l[i].eq ·)) = keysEqual i j l := by
    funext r
    rw [keysEqual, List.getElem?_eq_getElem hi]
    cases r[j]? <;> rfl
  rw [probeRow, cell, List.getElem?_eq_getElem hi]
  change Except.ok (if !(hashGet l[i] table).isEmpty then _ else _) = _
  rw [hget, hmatch, leftPairs, List.map_append, List.map_map, isEmpty_filter, Bool.not_not]
  by_cases hany : right.rows.any (keysEqual i j l) = true
  · rw [if_pos hany, if_neg (by simp [hany])]
    simp [Function.comp_def]
  · have hnone : right.rows.filter (keysEqual i j l) = [] := by
      rw [← List.isEmpty_iff, isEmpty_filter]
      simp [hany]
    rw [if_neg hany, hnone]
    cases joinType.keepsLeft <;> simp [hany]

theorem execHashJoin_of_keys (h : keyColumns condition left right = some (i, j))
    (hleft : left.Rectangular) (hright : right.Rectangular) :
    execHashJoin py joinType condition left right = .ok (joinResult left right
      (joinPairs (keysEqual i j) joinType.keepsLeft false (nulls left.columns.length)
        (nulls right.columns.length) left.rows right.rows)) := by
  obtain ⟨hi, hj⟩ := lt_of_keyColumns h
  obtain ⟨table, htable, hget⟩ := hashGet_buildTable fun r hr => (hright r hr).symm ▸ hj
  rw [execHashJoin, h]
  change (do let table ← buildTable j right.rows; _) = _
  rw [htable]
  change (do let joined ← mapE (probeRow joinType i table right) left.rows; _) = _
  rw [mapE_of_ok fun l hl => probeRow_eq ((hleft l hl).symm ▸ hi) hget]
  change Except.ok _ = Except.ok _
  rw [joinResult, joinPairs, List.map_append, List.map_flatMap]
  simp [List.flatMap_def, leftPairs]

/-- An equality of two columns never raises. -/
theorem condOk_of_keys (h : keyColumns condition left right = some (i, j)) :
    CondOk py condition left right := by
  intro l _ r _
  rw [keyColumns, Option.bind_eq_some_iff] at h
  obtain ⟨keys, hkeys, -⟩ := h
  unfold joinKeys at hkeys
  split at hkeys
  · rw [onPair, evalPredicate, evalExpr, evalExpr, evalExpr]
    change (Except.map Value.truthy (evalBinaryOp py .eq _ _)).isOk = true
    rw [evalBinaryOp]
    split <;> rfl
  · cases hkeys

/-! ## Agreement -/

/-- The two executions give the same rows, up to their order, under the same columns; or both
raise. -/
def SameRows : Except PyError QueryResult → Except PyError QueryResult → Prop
  | .ok a, .ok b => a.columns = b.columns ∧ a.rows.Perm b.rows
  | .error _, .error _ => True
  | _, _ => False

theorem SameRows.refl (x : Except PyError QueryResult) : SameRows x x := by
  cases x with
  | error e => trivial
  | ok a => exact ⟨rfl, .refl _⟩

/-- Rows of one width are cut back into their two parts. -/
theorem joinResult_perm_iff {pairs pairs' : List (Row × Row)}
    (h : ∀ p ∈ pairs, p.1.length = left.columns.length)
    (h' : ∀ p ∈ pairs', p.1.length = left.columns.length) :
    (joinResult left right pairs).rows.Perm (joinResult left right pairs').rows ↔
      pairs.Perm pairs' := by
  have hcut : ∀ pairs : List (Row × Row), (∀ p ∈ pairs, p.1.length = left.columns.length) →
      (pairs.map fun p => p.1 ++ p.2).map (List.splitAt left.columns.length) = pairs := by
    intro pairs h
    rw [List.map_map]
    refine (List.map_congr_left fun p hp => ?_).trans (List.map_id _)
    rw [Function.comp_apply, List.splitAt_eq, ← h p hp, List.take_left, List.drop_left, id]
  constructor
  · intro hperm
    have hmap := hperm.map (List.splitAt left.columns.length)
    rwa [joinResult, joinResult, hcut pairs h, hcut pairs' h'] at hmap
  · exact fun hperm => hperm.map _

theorem fst_of_mem_joinPairs {M : Row → Row → Bool} {keepLeft keepRight : Bool} {b₀ : Row}
    (hleft : left.Rectangular) : ∀ p ∈ joinPairs M keepLeft keepRight
      (nulls left.columns.length) b₀ left.rows right.rows, p.1.length = left.columns.length := by
  rintro ⟨l, r⟩ hmem
  rcases mem_joinPairs.mp hmem with ⟨hl, -⟩ | ⟨-, hl, -⟩ | ⟨-, -, -, rfl⟩
  · exact hleft l hl
  · exact hleft l hl
  · exact length_nulls _

/-- What makes the choice of the join algorithm invisible.  Equal key cells and the condition must
match the same rows, and a join that keeps right rows must find a partner for each of them.  Only
where a whole row of NULLs stands on one side can a matched row look like a row without a partner;
then the copies of each pair of rows are counted. -/
def HashAgrees (py : Py) (joinType : JoinType) (condition : Option Expr)
    (left right : QueryResult) : Prop :=
  ∀ i j, keyColumns condition left right = some (i, j) →
    Agree (keysEqual i j) (joins py condition left right) joinType.keepsRight left.rows right.rows ∨
    ((nulls left.columns.length ∈ left.rows ∨ nulls right.columns.length ∈ right.rows) ∧ ∀ l r,
      copies (keysEqual i j) joinType.keepsLeft false (nulls left.columns.length)
          (nulls right.columns.length) left.rows right.rows l r =
        copies (joins py condition left right) joinType.keepsLeft joinType.keepsRight
          (nulls left.columns.length) (nulls right.columns.length) left.rows right.rows l r)

/-- The hash join gives the rows of the nested loops exactly if the two ways to match agree. -/
theorem hashJoin_sameRows_iff (hleft : left.Rectangular) (hright : right.Rectangular) :
    SameRows (execHashJoin py joinType condition left right)
      (execNestedLoopJoin py joinType condition left right) ↔
    HashAgrees py joinType condition left right := by
  cases hkeys : keyColumns condition left right with
  | none =>
    have hagrees : HashAgrees py joinType condition left right := by
      intro i j h
      rw [hkeys] at h
      cases h
    rw [execHashJoin, hkeys]
    exact iff_of_true (SameRows.refl _) hagrees
  | some keys =>
    obtain ⟨i, j⟩ := keys
    rw [execHashJoin_of_keys hkeys hleft hright,
      execNestedLoopJoin_of_condOk (condOk_of_keys hkeys), SameRows,
      joinResult_perm_iff (fst_of_mem_joinPairs hleft) (fst_of_mem_joinPairs hleft),
      joinPairs_perm_iff]
    constructor
    · rintro ⟨-, h⟩ i' j' hkeys'
      obtain ⟨rfl, rfl⟩ := Prod.mk.inj (Option.some.inj (hkeys.symm.trans hkeys'))
      exact h
    · exact fun h => ⟨rfl, h i j hkeys⟩

/-- Rows `1` and `2` on both sides, joined on equality. -/
theorem hashJoin_sameRows_iff_twoRows :
    SameRows (execHashJoin .ascii .full (some (.binaryOp .eq (.columnRef none "a")
        (.columnRef none "b"))) ⟨["a"], [[.int 1], [.int 2]], 0, ""⟩ ⟨["b"], [[.int 2], [.int 1]], 0, ""⟩)
      (execNestedLoopJoin .ascii .full (some (.binaryOp .eq (.columnRef none "a")
        (.columnRef none "b"))) ⟨["a"], [[.int 1], [.int 2]], 0, ""⟩ ⟨["b"], [[.int 2], [.int 1]], 0, ""⟩) ↔
    HashAgrees .ascii .full (some (.binaryOp .eq (.columnRef none "a") (.columnRef none "b")))
      ⟨["a"], [[.int 1], [.int 2]], 0, ""⟩ ⟨["b"], [[.int 2], [.int 1]], 0, ""⟩ :=
  hashJoin_sameRows_iff (by simp [QueryResult.Rectangular]) (by simp [QueryResult.Rectangular])

/-- Two NULL keys meet in the hash table and nowhere else. -/
theorem nullKeys_join : ¬∀ (py : Py) (joinType : JoinType) (condition : Option Expr)
    (left right : QueryResult), left.Rectangular → right.Rectangular →
    SameRows (execHashJoin py joinType condition left right)
      (execNestedLoopJoin py joinType condition left right) := by
  intro h
  have hsame := h .ascii .inner (some (.binaryOp .eq (.columnRef none "a") (.columnRef none "b")))
    ⟨["a"], [[.null]], 0, ""⟩ ⟨["b"], [[.null]], 0, ""⟩ (by simp [QueryResult.Rectangular])
    (by simp [QueryResult.Rectangular])
  have hhash : execHashJoin .ascii .inner (some (.binaryOp .eq (.columnRef none "a")
      (.columnRef none "b"))) ⟨["a"], [[.null]], 0, ""⟩ ⟨["b"], [[.null]], 0, ""⟩ =
      .ok ⟨["a", "b"], [[.null, .null]], 0, ""⟩ := by decide +kernel
  have hnested : execNestedLoopJoin .ascii .inner (some (.binaryOp .eq (.columnRef none "a")
      (.columnRef none "b"))) ⟨["a"], [[.null]], 0, ""⟩ ⟨["b"], [[.null]], 0, ""⟩ =
      .ok ⟨["a", "b"], [], 0, ""⟩ := by decide +kernel
  rw [hhash, hnested] at hsame
  exact absurd hsame.2.length_eq (by decide)

end PySQL.Query
