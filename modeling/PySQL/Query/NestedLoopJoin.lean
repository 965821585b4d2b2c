import PySQL.Query.HashJoin

/-!
# The nested-loop join is the relational join
-/

namespace PySQL.Query

open Lib

variable {py : Py} {joinType : JoinType} {condition : Option Expr} {left right : QueryResult}
  {M : Row → Row → Bool}

/-- The rows of a join, each as often as it is due: the pairs that match, the left rows without a
match for LEFT and FULL, the right ones for RIGHT and FULL. -/
def relationalJoin (joinType : JoinType) (M : Row → Row → Bool) (left right : QueryResult) :
    List Row :=
  (((left.rows ×ˢ right.rows).filter fun p => M p.1 p.2).map fun p => p.1 ++ p.2) ++
    (if joinType = .left ∨ joinType = .full then
      (left.rows.filter fun l => right.rows.all fun r => !M l r).map fun l =>
        l ++ nulls right.columns.length
    else []) ++
    if joinType = .right ∨ joinType = .full then
      (right.rows.filter fun r => left.rows.all fun l => !M l r).map fun r =>
        nulls left.columns.length ++ r
    else []

theorem relationalJoin_congr {N : Row → Row → Bool}
    (h : ∀ l ∈ left.rows, ∀ r ∈ right.rows, M l r = N l r) :
    relationalJoin joinType M left right = relationalJoin joinType N left right := by
  have hmatches : ((left.rows ×ˢ right.rows).filter fun p => M p.1 p.2) =
      (left.rows ×ˢ right.rows).filter fun p => N p.1 p.2 := by
    refine List.filter_congr fun p hp => ?_
    obtain ⟨hl, hr⟩ := List.mem_product.mp hp
    exact h p.1 hl p.2 hr
  have hlone : (left.rows.filter fun l => right.rows.all fun r => !M l r) =
      left.rows.filter fun l => right.rows.all fun r => !N l r := by
    refine List.filter_congr fun l hl => ?_
    rw [Bool.eq_iff_iff, List.all_eq_true, List.all_eq_true]
    exact forall₂_congr fun r hr => by rw [h l hl r hr]
  have hlone' : (right.rows.filter fun r => left.rows.all fun l => !M l r) =
      right.rows.filter fun r => left.rows.all fun l => !N l r := by
    refine List.filter_congr fun r hr => ?_
    rw [Bool.eq_iff_iff, List.all_eq_true, List.all_eq_true]
    exact forall₂_congr fun l hl => by rw [h l hl r hr]
  rw [relationalJoin, relationalJoin, hmatches, hlone, hlone']

theorem joinResult_perm_relationalJoin : (joinResult left right (joinPairs M joinType.keepsLeft
    joinType.keepsRight (nulls left.columns.length) (nulls right.columns.length) left.rows
      right.rows)).rows.Perm (relationalJoin joinType M left right) := by
  have hperm := (joinPairs_perm M joinType.keepsLeft joinType.keepsRight
    (nulls left.columns.length) (nulls right.columns.length) left.rows right.rows).map
      fun p => p.1 ++ p.2
  refine hperm.trans (.of_eq ?_)
  rw [relationalJoin, List.map_append, List.map_append, List.append_assoc]
  cases joinType <;>
    simp [JoinType.keepsLeft, JoinType.keepsRight, Function.comp_def, List.not_any_eq_all_not]

theorem length_of_mem_relationalJoin (hleft : left.Rectangular) (hright : right.Rectangular)
    {row : Row} (h : row ∈ relationalJoin joinType M left right) :
    row.length = left.columns.length + right.columns.length := by
  rw [relationalJoin, List.mem_append, List.mem_append] at h
  rcases h with (h | h) | h
  · obtain ⟨p, hp, rfl⟩ := List.mem_map.mp h
    obtain ⟨hl, hr⟩ := List.mem_product.mp (List.mem_filter.mp hp).1
    rw [List.length_append, hleft p.1 hl, hright p.2 hr]
  · split at h
    · obtain ⟨l, hmem, rfl⟩ := List.mem_map.mp h
      have hl := (List.mem_filter.mp hmem).1
      rw [List.length_append, hleft l hl, length_nulls]
    · cases h
  · split at h
    · obtain ⟨r, hmem, rfl⟩ := List.mem_map.mp h
      have hr := (List.mem_filter.mp hmem).1
      rw [List.length_append, hright r hr, length_nulls]
    · cases h

/-- With a condition that decides each pair of rows, the nested loops compute the relational join,
whose rows all have the combined width. -/
theorem execNestedLoopJoin_relational (hleft : left.Rectangular) (hright : right.Rectangular)
    (h : ∀ l ∈ left.rows, ∀ r ∈ right.rows, onPair py condition left right l r = .ok (M l r)) :
    ∃ res, execNestedLoopJoin py joinType condition left right = .ok res ∧
      res.rows.Perm (relationalJoin joinType M left right) ∧
      res.columns = left.columns ++ right.columns ∧
      ∀ row ∈ res.rows, row.length = left.columns.length + right.columns.length := by
  have hcond : CondOk py condition left right := fun l hl r hr => by rw [h l hl r hr]; rfl
  have hjoins : ∀ l ∈ left.rows, ∀ r ∈ right.rows, joins py condition left right l r = M l r := by
    intro l hl r hr
    rw [joins, h l hl r hr, isTrue_ok]
  obtain ⟨res, hres, hcolumns, hperm⟩ : ∃ res,
      execNestedLoopJoin py joinType condition left right = .ok res ∧
        res.columns = left.columns ++ right.columns ∧
        res.rows.Perm (relationalJoin joinType (joins py condition left right) left right) :=
    ⟨_, execNestedLoopJoin_of_condOk hcond, rfl, joinResult_perm_relationalJoin⟩
  rw [relationalJoin_congr hjoins] at hperm
  exact ⟨res, hres, hperm, hcolumns, fun row hrow =>
    length_of_mem_relationalJoin hleft hright (hperm.mem_iff.mp hrow)⟩

/-- A FULL join of the rows `1`, `2` with the rows `2`, `2`, `3` on equality. -/
theorem execNestedLoopJoin_relational_full :
    let left : QueryResult := ⟨["a"], [[.int 1], [.int 2]], 0, ""⟩
    let right : QueryResult := ⟨["b"], [[.int 2], [.int 2], [.int 3]], 0, ""⟩
    ∃ res, execNestedLoopJoin .ascii .full
        (some (.binaryOp .eq (.columnRef none "a") (.columnRef none "b"))) left right = .ok res ∧
      res.rows.Perm (relationalJoin .full (fun l r => l == r) left right) ∧
      res.columns = ["a", "b"] ∧ ∀ row ∈ res.rows, row.length = 1 + 1 :=
  execNestedLoopJoin_relational (by simp [QueryResult.Rectangular])
    (by simp [QueryResult.Rectangular]) (by decide)

end PySQL.Query
