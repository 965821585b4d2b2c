import PySQL.Query.Qualified

/-!
# NATURAL and USING joins

The planner keeps neither the columns of a USING clause nor what NATURAL stands for, so that both are
cross joins.
-/

namespace PySQL.Query

open Lib

/-- `A JOIN B USING (columns)` -/
def joinUsing (left right : TableRef) (columns : List String) : TableRef :=
  .join left right .inner none (some columns)

/-- `A NATURAL JOIN B` -/
def naturalJoin (left right : TableRef) : TableRef := .join left right .natural none none

/-- The column names that both results have. -/
def commonColumns (left right : QueryResult) : List String :=
  left.columns.filter (· ∈ right.columns)

/-- The two rows have the same value, not NULL, in each of the columns. -/
def agreeOn (columns : List String) (left right : QueryResult) (l r : Row) : Bool :=
  columns.all fun c =>
    match (rowDict left.columns l).get? c, (rowDict right.columns r).get? c with
    | some v, some w => !v.isNull && v.eq w
    | _, _ => false

/-- What the join is to give: each pair of rows that agree, once. -/
def equiJoinRows (columns : List String) (left right : QueryResult) : List Row :=
  ((left.rows ×ˢ right.rows).filter fun p => agreeOn columns left right p.1 p.2).map fun p =>
    p.1 ++ p.2

variable {py : Py} {src : Source} {left right : QueryResult}

/-- Without a condition every row is joined with every other one. -/
theorem execJoin_unconditional {info : PlanInfo} {joinType : JoinType}
    (hcondition : info.joinCondition = none) (htype : info.joinType = some joinType)
    (hleft : joinType.keepsLeft = false) (hright : joinType.keepsRight = false) :
    ∃ res, execJoin py info left right = .ok res ∧
      res.rows.Perm ((left.rows ×ˢ right.rows).map fun p => p.1 ++ p.2) := by
  have hpair : ∀ l r, onPair py none left right l r = .ok true := fun _ _ => rfl
  have hloop : execJoin py info left right =
      execNestedLoopJoin py joinType none left right := by
    rw [execJoin, hcondition, htype, Option.getD_some]
    split
    · rw [execHashJoin]
      rfl
    · rfl
  have hcond : CondOk py none left right := fun l _ r _ => by rw [hpair]; rfl
  rw [hloop, execNestedLoopJoin_of_condOk hcond]
  refine ⟨_, rfl, ?_⟩
  rw [hleft, hright]
  refine ((joinPairs_perm _ false false _ _ left.rows right.rows).map fun p => p.1 ++ p.2).trans ?_
  rw [List.filter_eq_self.mpr fun p _ => by rw [joins, hpair]; rfl]
  simp

theorem planJoin_isOk_of_float {joinType : JoinType} {condition : Option Expr} {a b : PlanNode}
    {x y : PyFloat} (hx : a.info.estimatedRows = .float x) (hy : b.info.estimatedRows = .float y) :
    (planJoin joinType condition a b).isOk = true := by
  have hmul : (Value.float x).mul (.float y) = .ok (.float (x.mul y)) := rfl
  have hadd : (Value.float x).add (.float y) = .ok (.float (x.add y)) := rfl
  obtain ⟨few, hfew⟩ : ∃ few, (Value.float (x.mul y)).compare .lt (.int 100000) = .ok few :=
    ⟨_, rfl⟩
  rw [planJoin, hx, hy, hmul, ok_bind, hfew, ok_bind, joinCost, hx, hy, hadd]
  cases few <;> rfl

/-- The rows of a join without a condition are those that agree only if all of them agree. -/
theorem unconditional_iff {A B : TableRef} {a b : PlanNode} {joinType : JoinType}
    {usingColumns : Option (List String)} (hA : A.Plain) (hB : B.Plain)
    (ha : planTableRef src.catalog A = .ok a) (hb : planTableRef src.catalog B = .ok b)
    (hl : executeNode py src a = .ok left) (hr : executeNode py src b = .ok right)
    (hleft : joinType.keepsLeft = false) (hright : joinType.keepsRight = false)
    (columns : List String) :
    (∃ tree res, planTableRef src.catalog (.join A B joinType none usingColumns) = .ok tree ∧
      executeNode py src tree = .ok res ∧ res.rows.Perm (equiJoinRows columns left right)) ↔
    ∀ l ∈ left.rows, ∀ r ∈ right.rows, agreeOn columns left right l r = true := by
  obtain ⟨-, x, hx⟩ := planTableRef_fromTree hA ha
  obtain ⟨-, y, hy⟩ := planTableRef_fromTree hB hb
  obtain ⟨tree, htree⟩ : ∃ tree, planJoin joinType none a b = .ok tree :=
    exists_ok_of_isOk (planJoin_isOk_of_float hx hy)
  have hplan : planTableRef src.catalog (.join A B joinType none usingColumns) = .ok tree := by
    rw [planTableRef, ha, ok_bind, hb, ok_bind, htree]
  obtain ⟨type, cost, htype, rfl⟩ := planJoin_of_float hx hy htree
  obtain ⟨res, hres, hperm⟩ : ∃ res, execJoin py {
      type
      joinType := some joinType
      joinCondition := none
      estimatedRows := .float ((x.mul y).mul (.ofRat false (1 / 10)))
      estimatedCost := cost } left right = .ok res ∧
      res.rows.Perm ((left.rows ×ˢ right.rows).map fun p => p.1 ++ p.2) :=
    execJoin_unconditional rfl rfl hleft hright
  have hrun : executeNode py src (.mk {
      type
      joinType := some joinType
      joinCondition := none
      estimatedRows := .float ((x.mul y).mul (.ofRat false (1 / 10)))
      estimatedCost := cost } [a, b]) = .ok res := by
    rw [executeNode_join htype, hl, ok_bind, hr, ok_bind, hres]
  constructor
  · rintro ⟨tree', res', hplan', hres', hequi⟩ l hlrow r hrrow
    obtain rfl := Except.ok.inj (hplan.symm.trans hplan')
    obtain rfl := Except.ok.inj (hrun.symm.trans hres')
    -- the pairs that agree are as many as all pairs
    have hlength := (hperm.symm.trans hequi).length_eq
    rw [equiJoinRows, List.length_map, List.length_map] at hlength
    exact List.length_filter_eq_length_iff.mp hlength.symm (l, r)
      (List.mem_product.mpr ⟨hlrow, hrrow⟩)
  · intro hall
    refine ⟨_, res, hplan, hrun, ?_⟩
    rw [equiJoinRows, List.filter_eq_self.mpr fun p hp => ?_]
    · exact hperm
    · obtain ⟨hp₁, hp₂⟩ := List.mem_product.mp hp
      exact hall _ hp₁ _ hp₂

/-- USING and NATURAL give the rows that agree on their columns exactly if any two rows do. -/
theorem joinUsing_iff {A B : TableRef} {a b : PlanNode} (hA : A.Plain) (hB : B.Plain)
    (ha : planTableRef src.catalog A = .ok a) (hb : planTableRef src.catalog B = .ok b)
    (hl : executeNode py src a = .ok left) (hr : executeNode py src b = .ok right) :
    (∀ columns, (∃ tree res, planTableRef src.catalog (joinUsing A B columns) = .ok tree ∧
        executeNode py src tree = .ok res ∧ res.rows.Perm (equiJoinRows columns left right)) ↔
      ∀ l ∈ left.rows, ∀ r ∈ right.rows, agreeOn columns left right l r = true) ∧
    ((∃ tree res, planTableRef src.catalog (naturalJoin A B) = .ok tree ∧
        executeNode py src tree = .ok res ∧
        res.rows.Perm (equiJoinRows (commonColumns left right) left right)) ↔
      ∀ l ∈ left.rows, ∀ r ∈ right.rows,
        agreeOn (commonColumns left right) left right l r = true) :=
  ⟨fun columns => unconditional_iff hA hB ha hb hl hr rfl rfl columns,
    unconditional_iff hA hB ha hb hl hr rfl rfl _⟩

theorem usersOrders_run : (do
    let a ← planTableRef usersAndOrders.catalog (.simple "users" none)
    let b ← planTableRef usersAndOrders.catalog (.simple "orders" none)
    let left ← executeNode .ascii usersAndOrders a
    let right ← executeNode .ascii usersAndOrders b
    let tree ← planTableRef usersAndOrders.catalog
      (joinUsing (.simple "users" none) (.simple "orders" none) ["id"])
    return (left, right, ← executeNode .ascii usersAndOrders tree)) =
    .ok (⟨["id"], [[.int 1]], 0, ""⟩, ⟨["id"], [[.int 2]], 0, ""⟩,
      ⟨["id", "id"], [[.int 1, .int 2]], 0, ""⟩) := by
  decide +kernel

/-- `users JOIN orders USING (id)` -/
theorem joinUsing_iff_id : ∃ left right,
    (∀ columns, (∃ tree res, planTableRef usersAndOrders.catalog
          (joinUsing (.simple "users" none) (.simple "orders" none) columns) = .ok tree ∧
        executeNode .ascii usersAndOrders tree = .ok res ∧
        res.rows.Perm (equiJoinRows columns left right)) ↔
      ∀ l ∈ left.rows, ∀ r ∈ right.rows, agreeOn columns left right l r = true) ∧
    ((∃ tree res, planTableRef usersAndOrders.catalog
          (naturalJoin (.simple "users" none) (.simple "orders" none)) = .ok tree ∧
        executeNode .ascii usersAndOrders tree = .ok res ∧
        res.rows.Perm (equiJoinRows (commonColumns left right) left right)) ↔
      ∀ l ∈ left.rows, ∀ r ∈ right.rows,
        agreeOn (commonColumns left right) left right l r = true) := by
  obtain ⟨a, ha, hrun⟩ := bind_eq_ok usersOrders_run
  obtain ⟨b, hb, hrun⟩ := bind_eq_ok hrun
  obtain ⟨left, hl, hrun⟩ := bind_eq_ok hrun
  obtain ⟨right, hr, -⟩ := bind_eq_ok hrun
  exact ⟨left, right, joinUsing_iff (.simple _ _) (.simple _ _) ha hb hl hr⟩

/-- Two rows of different ids are joined by `USING (id)`. -/
theorem usingColumns_ignored : ¬∀ (py : Py) (src : Source) (nameA nameB : String)
    (aliasA aliasB : Option String) (a b tree : PlanNode) (left right res : QueryResult)
    (columns : List String), (∀ c ∈ columns, c ∈ commonColumns left right) →
    planTableRef src.catalog (.simple nameA aliasA) = .ok a →
    planTableRef src.catalog (.simple nameB aliasB) = .ok b → executeNode py src a = .ok left →
    executeNode py src b = .ok right →
    planTableRef src.catalog (joinUsing (.simple nameA aliasA) (.simple nameB aliasB) columns) =
      .ok tree → executeNode py src tree = .ok res →
    res.rows.Perm (equiJoinRows columns left right) := by
  intro h
  obtain ⟨a, ha, hrun⟩ := bind_eq_ok usersOrders_run
  obtain ⟨b, hb, hrun⟩ := bind_eq_ok hrun
  obtain ⟨left, hl, hrun⟩ := bind_eq_ok hrun
  obtain ⟨right, hr, hrun⟩ := bind_eq_ok hrun
  obtain ⟨tree, htree, hrun⟩ := bind_eq_ok hrun
  obtain ⟨res, hres, hrun⟩ := bind_eq_ok hrun
  obtain ⟨rfl, heq⟩ := Prod.mk.inj (Except.ok.inj hrun)
  obtain ⟨rfl, rfl⟩ := Prod.mk.inj heq
  have hperm := h .ascii usersAndOrders "users" "orders" none none a b tree _ _ _ ["id"] (by decide)
    ha hb hl hr htree hres
  exact absurd hperm.length_eq (by decide +kernel)

end PySQL.Query
