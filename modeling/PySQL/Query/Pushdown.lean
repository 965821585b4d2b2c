import PySQL.Query.Execute
import PySQL.Query.HashJoin

/-!
# Predicate pushdown

A SELECT from a tree of joins is planned as a projection of a filter over the joins.  The pushdown
moves the filter into the scan if there is no join; otherwise it moves it to one side of the join on
top, if the qualified columns of the predicate name a table of that side and no other table.
-/

namespace PySQL.Query

open Lib Storage

variable {py : Py} {src : Source}

/-! ## Estimates never raise -/

/-- An estimate that the planner can scale. -/
def Scalable (estimate : Value) : Prop := ∀ share, ∃ x, scaled estimate share = .ok (.float x)

theorem scalable_float (x : PyFloat) : Scalable (.float x) := fun _ => ⟨_, rfl⟩

theorem scalable_one : Scalable (.int 1) := by
  intro share
  have hone : ∃ x, PyFloat.ofInt 1 = some x := Option.isSome_iff_exists.mp (by decide +kernel)
  obtain ⟨x, hx⟩ := hone
  refine ⟨x.mul (.ofRat false share), ?_⟩
  have hoperand : Value.operand (.int 1) = .ok x := congrArg (Option.elim · _ _) hx
  change (do
    let y ← Value.operand (.int 1)
    return Value.float (y.mul (.ofRat false share))) = _
  rw [hoperand]
  rfl

theorem costPlus_of_scalable {estimate : Value} (h : Scalable estimate) (cost : PyFloat)
    (factor : ℚ) : ∃ x, costPlus cost estimate factor = .ok x := by
  obtain ⟨x, hx⟩ := h factor
  exact ⟨cost.add x, by rw [costPlus, hx]; rfl⟩

/-! ## The plans of joins -/

/-- A tree of joins over tables. -/
inductive TableRef.Plain : TableRef → Prop where
  | simple (name : String) (aliasName : Option String) : Plain (.simple name aliasName)
  | join {left right : TableRef} (joinType : JoinType) (condition : Option Expr)
    (usingColumns : Option (List String)) (hleft : Plain left) (hright : Plain right) :
    Plain (.join left right joinType condition usingColumns)

/-- What the planner makes of a tree of joins. -/
inductive FromTree : PlanNode → Prop where
  | scan {info : PlanInfo} (htype : info.type = .seqScan) (hpredicate : info.predicate = none)
    (hest : Scalable info.estimatedRows) : FromTree (.mk info [])
  | join {info : PlanInfo} {a b : PlanNode} (htype : info.type = .nestedLoopJoin ∨ info.type = .hashJoin)
    (hest : Scalable info.estimatedRows) (ha : FromTree a) (hb : FromTree b) :
    FromTree (.mk info [a, b])

theorem FromTree.scalable {tree : PlanNode} (h : FromTree tree) : Scalable tree.info.estimatedRows := by
  cases h with
  | scan _ _ hest => exact hest
  | join _ hest _ _ => exact hest

/-- The join of two plans whose estimates are floats. -/
theorem planJoin_of_float {joinType : JoinType} {condition : Option Expr} {a b tree : PlanNode}
    {x y : PyFloat} (hx : a.info.estimatedRows = .float x) (hy : b.info.estimatedRows = .float y)
    (h : planJoin joinType condition a b = .ok tree) :
    ∃ type cost, (type = .nestedLoopJoin ∨ type = .hashJoin) ∧ tree = .mk {
      type
      joinType := some joinType
      joinCondition := condition
      estimatedRows := .float ((x.mul y).mul (.ofRat false (1 / 10)))
      estimatedCost := cost } [a, b] := by
  rw [planJoin, hx, hy] at h
  obtain ⟨pairs, hpairs, h⟩ := bind_eq_ok h
  obtain rfl := Except.ok.inj hpairs
  obtain ⟨few, -, h⟩ := bind_eq_ok h
  obtain ⟨cost, -, h⟩ := bind_eq_ok h
  obtain rfl := Except.ok.inj h
  refine ⟨_, cost, ?_, rfl⟩
  cases few
  · exact .inr rfl
  · exact .inl rfl

theorem planTableRef_fromTree {catalog : Catalog} {ref : TableRef} (h : ref.Plain) :
    ∀ {tree}, planTableRef catalog ref = .ok tree →
      FromTree tree ∧ ∃ x, tree.info.estimatedRows = .float x := by
  induction h with
  | simple name aliasName =>
    intro tree htree
    rw [planTableRef] at htree
    cases hop : (Value.int (((catalog.getTable name).map TableInfo.rowCountEstimate).getD
        1000)).operand with
    | error e =>
      rw [hop] at htree
      cases htree
    | ok x =>
      rw [hop] at htree
      cases htree
      exact ⟨.scan rfl rfl (scalable_float x), x, rfl⟩
  | join joinType condition usingColumns _ _ ihl ihr =>
    intro tree htree
    rename_i left right _ _
    rw [planTableRef] at htree
    cases hl : planTableRef catalog left with
    | error e =>
      rw [hl] at htree
      cases htree
    | ok a =>
      cases hr : planTableRef catalog right with
      | error e =>
        rw [hl, hr] at htree
        cases htree
      | ok b =>
        obtain ⟨ha, x, hx⟩ := ihl hl
        obtain ⟨hb, y, hy⟩ := ihr hr
        rw [hl, hr] at htree
        change planJoin joinType condition a b = .ok tree at htree
        obtain ⟨type, cost, htype, rfl⟩ := planJoin_of_float hx hy htree
        exact ⟨.join htype (scalable_float _) ha hb, _, rfl⟩

/-! ## Filters and joins -/

/-- The predicate is true of the row. -/
def keeps (py : Py) (predicate : Option Expr) (columns : List String) (row : Row) : Bool :=
  isTrue (evalPredicate py predicate (rowDict columns row))

/-- The predicate raises on no row of the result. -/
def Evaluates (py : Py) (predicate : Option Expr) (res : QueryResult) : Prop :=
  ∀ row ∈ res.rows, (evalPredicate py predicate (rowDict res.columns row)).isOk = true

def filtered (py : Py) (predicate : Option Expr) (res : QueryResult) : QueryResult where
  columns := res.columns
  rows := res.rows.filter (keeps py predicate res.columns)

variable {predicate : Option Expr} {res : QueryResult}

theorem execFilter_of_evaluates (h : Evaluates py predicate res) :
    execFilter py predicate res = .ok (filtered py predicate res) := by
  rw [execFilter, filterE_of_isOk h]
  rfl

theorem evaluates_of_execFilter (h : (execFilter py predicate res).isOk = true) :
    Evaluates py predicate res := by
  rw [execFilter] at h
  cases hrows : filterE (fun row => evalPredicate py predicate (rowDict res.columns row)) res.rows with
  | error e =>
    rw [hrows] at h
    cases h
  | ok rows => exact filterE_isOk.mp (by rw [hrows]; rfl)

/-- The join of a node. -/
def execJoin (py : Py) (info : PlanInfo) (left right : QueryResult) : Except PyError QueryResult :=
  if info.type = .hashJoin then
    execHashJoin py (info.joinType.getD .inner) info.joinCondition left right
  else execNestedLoopJoin py (info.joinType.getD .inner) info.joinCondition left right

/-- The positions of the key columns, if the join of a node uses its hash table. -/
def hashKeys (info : PlanInfo) (left right : QueryResult) : Option (ℕ × ℕ) :=
  if info.type = .hashJoin then keyColumns info.joinCondition left right else none

/-- How the join of a node matches two rows. -/
def nodeMatches (py : Py) (info : PlanInfo) (left right : QueryResult) : Row → Row → Bool :=
  match hashKeys info left right with
  | some (i, j) => keysEqual i j
  | none => joins py info.joinCondition left right

def nodeKeepsLeft (info : PlanInfo) : Bool := (info.joinType.getD .inner).keepsLeft

def nodeKeepsRight (info : PlanInfo) (left right : QueryResult) : Bool :=
  (hashKeys info left right).isNone && (info.joinType.getD .inner).keepsRight

/-- What the join of a node pairs. -/
def nodePairs (py : Py) (info : PlanInfo) (left right : QueryResult) : List (Row × Row) :=
  joinPairs (nodeMatches py info left right) (nodeKeepsLeft info) (nodeKeepsRight info left right)
    (nulls left.columns.length) (nulls right.columns.length) left.rows right.rows

variable {info : PlanInfo} {left right : QueryResult}

theorem execJoin_of_condOk (hleft : left.Rectangular) (hright : right.Rectangular)
    (h : CondOk py info.joinCondition left right) :
    execJoin py info left right = .ok (joinResult left right (nodePairs py info left right)) := by
  rw [execJoin, nodePairs, nodeMatches, nodeKeepsRight, hashKeys]
  by_cases htype : info.type = .hashJoin
  · rw [if_pos htype, if_pos htype]
    cases hkeys : keyColumns info.joinCondition left right with
    | none =>
      rw [execHashJoin, hkeys]
      exact execNestedLoopJoin_of_condOk h
    | some keys => exact execHashJoin_of_keys hkeys hleft hright
  · rw [if_neg htype, if_neg htype]
    exact execNestedLoopJoin_of_condOk h

theorem condOk_of_execJoin (h : (execJoin py info left right).isOk = true) :
    CondOk py info.joinCondition left right := by
  rw [execJoin] at h
  split at h
  · cases hkeys : keyColumns info.joinCondition left right with
    | none =>
      rw [execHashJoin, hkeys] at h
      exact condOk_of_isOk h
    | some keys => exact condOk_of_keys hkeys
  · exact condOk_of_isOk h

theorem length_of_mem_nodePairs (hleft : left.Rectangular) (hright : right.Rectangular) :
    ∀ p ∈ nodePairs py info left right,
      p.1.length = left.columns.length ∧ p.2.length = right.columns.length := by
  rintro ⟨l, r⟩ hmem
  rcases mem_joinPairs.mp hmem with ⟨hl, hr, -⟩ | ⟨-, hl, -, rfl⟩ | ⟨-, hr, -, rfl⟩
  · exact ⟨hleft l hl, hright r hr⟩
  · exact ⟨hleft l hl, length_nulls _⟩
  · exact ⟨length_nulls _, hright r hr⟩

theorem joinResult_rectangular (hleft : left.Rectangular) (hright : right.Rectangular) :
    (joinResult left right (nodePairs py info left right)).Rectangular := by
  intro row hrow
  obtain ⟨p, hp, rfl⟩ := List.mem_map.mp hrow
  obtain ⟨hl, hr⟩ := length_of_mem_nodePairs hleft hright p hp
  rw [List.length_append, hl, hr]
  exact List.length_append.symm

theorem filtered_rectangular (h : res.Rectangular) : (filtered py predicate res).Rectangular :=
  fun row hrow => h row (List.mem_filter.mp hrow).1

/-! ## A filter below a join -/

/-- Filtering the left side below the join of a node does what filtering its result does: both raise
or none does, and then the filter commutes with the pairing. -/
def LeftAgrees (py : Py) (predicate : Option Expr) (info : PlanInfo) (left right : QueryResult) : Prop :=
  (Evaluates py predicate left ∧ CondOk py info.joinCondition (filtered py predicate left) right ↔
    CondOk py info.joinCondition left right ∧
      Evaluates py predicate (joinResult left right (nodePairs py info left right))) ∧
  (CondOk py info.joinCondition left right →
    Evaluates py predicate (joinResult left right (nodePairs py info left right)) →
    FilterCommutes (nodeMatches py info left right) (nodeKeepsLeft info)
      (nodeKeepsRight info left right) (nulls left.columns.length) (nulls right.columns.length)
      left.rows right.rows (fun l r => keeps py predicate (left.columns ++ right.columns) (l ++ r))
      (keeps py predicate left.columns))

/-- The same for the right side. -/
def RightAgrees (py : Py) (predicate : Option Expr) (info : PlanInfo) (left right : QueryResult) : Prop :=
  (Evaluates py predicate right ∧ CondOk py info.joinCondition left (filtered py predicate right) ↔
    CondOk py info.joinCondition left right ∧
      Evaluates py predicate (joinResult left right (nodePairs py info left right))) ∧
  (CondOk py info.joinCondition left right →
    Evaluates py predicate (joinResult left right (nodePairs py info left right)) →
    FilterCommutes (fun r l => nodeMatches py info left right l r) (nodeKeepsRight info left right)
      (nodeKeepsLeft info) (nulls right.columns.length) (nulls left.columns.length) right.rows
      left.rows (fun r l => keeps py predicate (left.columns ++ right.columns) (l ++ r))
      (keeps py predicate right.columns))

theorem filtered_joinResult (pairs : List (Row × Row)) :
    filtered py predicate (joinResult left right pairs) = joinResult left right
      (pairs.filter fun p => keeps py predicate (left.columns ++ right.columns) (p.1 ++ p.2)) := by
  rw [filtered, joinResult, joinResult, List.filter_map]
  rfl

/-- A step that succeeds under `A` and one that does under `B` agree exactly if they succeed alike
and then have the same rows. -/
theorem sameRows_iff {x y : Except PyError QueryResult} {A B : Prop} {a b : QueryResult}
    (hx : A → x = .ok a) (hA : x.isOk = true → A) (hy : B → y = .ok b) (hB : y.isOk = true → B)
    (hcolumns : a.columns = b.columns) :
    SameRows x y ↔ (A ↔ B) ∧ (B → b.rows.Perm a.rows) := by
  constructor
  · intro h
    cases hx' : x with
    | ok a' =>
      cases hy' : y with
      | ok b' =>
        have ha := hA (by rw [hx']; rfl)
        have hb := hB (by rw [hy']; rfl)
        rw [hx ha, hy hb] at h
        exact ⟨iff_of_true ha hb, fun _ => h.2.symm⟩
      | error e =>
        rw [hx', hy'] at h
        exact h.elim
    | error e =>
      cases hy' : y with
      | ok b' =>
        rw [hx', hy'] at h
        exact h.elim
      | error e' =>
        have hna : ¬A := fun ha => by simp [hx ha] at hx'
        have hnb : ¬B := fun hb => by simp [hy hb] at hy'
        exact ⟨iff_of_false hna hnb, fun hb => absurd hb hnb⟩
  · rintro ⟨hiff, hperm⟩
    by_cases hb : B
    · rw [hx (hiff.mpr hb), hy hb]
      exact ⟨hcolumns, (hperm hb).symm⟩
    · cases hx' : x with
      | ok a' => exact absurd (hiff.mp (hA (by rw [hx']; rfl))) hb
      | error e =>
        cases hy' : y with
        | ok b' => exact absurd (hB (by rw [hy']; rfl)) hb
        | error e' => trivial

/-- The filter above the join of a node. -/
def filterJoin (py : Py) (predicate : Option Expr) (info : PlanInfo) (left right : QueryResult) :
    Except PyError QueryResult := do
  execFilter py predicate (← execJoin py info left right)

theorem filterJoin_of_ok (hleft : left.Rectangular) (hright : right.Rectangular)
    (h : CondOk py info.joinCondition left right ∧
      Evaluates py predicate (joinResult left right (nodePairs py info left right))) :
    filterJoin py predicate info left right = .ok (joinResult left right
      ((nodePairs py info left right).filter fun p =>
        keeps py predicate (left.columns ++ right.columns) (p.1 ++ p.2))) := by
  rw [filterJoin, execJoin_of_condOk hleft hright h.1]
  change execFilter py predicate _ = _
  rw [execFilter_of_evaluates h.2, filtered_joinResult]

theorem ok_of_filterJoin (hleft : left.Rectangular) (hright : right.Rectangular)
    (h : (filterJoin py predicate info left right).isOk = true) :
    CondOk py info.joinCondition left right ∧
      Evaluates py predicate (joinResult left right (nodePairs py info left right)) := by
  have hcond : CondOk py info.joinCondition left right := by
    apply condOk_of_execJoin
    cases hjoin : execJoin py info left right with
    | error e =>
      rw [filterJoin, hjoin] at h
      cases h
    | ok res => rfl
  rw [filterJoin, execJoin_of_condOk hleft hright hcond] at h
  exact ⟨hcond, evaluates_of_execFilter h⟩

/-- The filter on the left side of the join. -/
def joinFilterLeft (py : Py) (predicate : Option Expr) (info : PlanInfo) (left right : QueryResult) :
    Except PyError QueryResult := do
  execJoin py info (← execFilter py predicate left) right

def joinFilterRight (py : Py) (predicate : Option Expr) (info : PlanInfo)
    (left right : QueryResult) : Except PyError QueryResult := do
  execJoin py info left (← execFilter py predicate right)

theorem joinFilterLeft_sameRows_iff (hleft : left.Rectangular) (hright : right.Rectangular) :
    SameRows (joinFilterLeft py predicate info left right)
      (filterJoin py predicate info left right) ↔ LeftAgrees py predicate info left right := by
  have hx : Evaluates py predicate left ∧
      CondOk py info.joinCondition (filtered py predicate left) right →
      joinFilterLeft py predicate info left right = .ok (joinResult left right
        (nodePairs py info (filtered py predicate left) right)) := by
    rintro ⟨heval, hcond⟩
    rw [joinFilterLeft, execFilter_of_evaluates heval]
    exact execJoin_of_condOk (filtered_rectangular hleft) hright hcond
  have hA : (joinFilterLeft py predicate info left right).isOk = true →
      Evaluates py predicate left ∧
        CondOk py info.joinCondition (filtered py predicate left) right := by
    intro h
    have heval : Evaluates py predicate left := by
      apply evaluates_of_execFilter
      cases hfilter : execFilter py predicate left with
      | error e =>
        rw [joinFilterLeft, hfilter] at h
        cases h
      | ok res => rfl
    rw [joinFilterLeft, execFilter_of_evaluates heval] at h
    exact ⟨heval, condOk_of_execJoin h⟩
  rw [sameRows_iff hx hA (filterJoin_of_ok hleft hright) (ok_of_filterJoin hleft hright) rfl,
    LeftAgrees, and_imp]
  refine and_congr_right fun _ => imp_congr_right fun _ => imp_congr_right fun _ => ?_
  rw [joinResult_perm_iff
    (fun p hp => (length_of_mem_nodePairs hleft hright p (List.mem_filter.mp hp).1).1)
    (fun p hp => (length_of_mem_nodePairs (filtered_rectangular hleft) hright p hp).1)]
  rw [nodePairs, nodePairs]
  exact filter_joinPairs_perm_iff (P := fun l r => keeps py predicate _ (l ++ r))

theorem joinFilterRight_sameRows_iff (hleft : left.Rectangular) (hright : right.Rectangular) :
    SameRows (joinFilterRight py predicate info left right)
      (filterJoin py predicate info left right) ↔ RightAgrees py predicate info left right := by
  have hx : Evaluates py predicate right ∧
      CondOk py info.joinCondition left (filtered py predicate right) →
      joinFilterRight py predicate info left right = .ok (joinResult left right
        (nodePairs py info left (filtered py predicate right))) := by
    rintro ⟨heval, hcond⟩
    rw [joinFilterRight, execFilter_of_evaluates heval]
    exact execJoin_of_condOk hleft (filtered_rectangular hright) hcond
  have hA : (joinFilterRight py predicate info left right).isOk = true →
      Evaluates py predicate right ∧
        CondOk py info.joinCondition left (filtered py predicate right) := by
    intro h
    have heval : Evaluates py predicate right := by
      apply evaluates_of_execFilter
      cases hfilter : execFilter py predicate right with
      | error e =>
        rw [joinFilterRight, hfilter] at h
        cases h
      | ok res => rfl
    rw [joinFilterRight, execFilter_of_evaluates heval] at h
    exact ⟨heval, condOk_of_execJoin h⟩
  rw [sameRows_iff hx hA (filterJoin_of_ok hleft hright) (ok_of_filterJoin hleft hright) rfl,
    RightAgrees, and_imp]
  refine and_congr_right fun _ => imp_congr_right fun _ => imp_congr_right fun _ => ?_
  rw [joinResult_perm_iff
    (fun p hp => (length_of_mem_nodePairs hleft hright p (List.mem_filter.mp hp).1).1)
    (fun p hp => (length_of_mem_nodePairs hleft (filtered_rectangular hright) p hp).1)]
  rw [nodePairs, nodePairs]
  exact filter_right_joinPairs_perm_iff (P := fun l r => keeps py predicate _ (l ++ r))

/-! ## Executing the plans -/

variable {a b : PlanNode}

theorem executeNode_join (htype : info.type = .nestedLoopJoin ∨ info.type = .hashJoin) :
    executeNode py src (.mk info [a, b]) = (do
      let left ← executeNode py src a
      let right ← executeNode py src b
      execJoin py info left right) := by
  rcases htype with htype | htype
  · simp only [executeNode, execJoin, htype, reduceCtorEq, if_false]
  · simp only [executeNode, execJoin, htype, if_true]

theorem execSeqScan_rectangular (h : execSeqScan py src info = .ok res) : res.Rectangular := by
  rw [execSeqScan] at h
  cases htable : src.catalog.getTable (info.tableName.getD "") with
  | none =>
    rw [htable] at h
    cases h
  | some table =>
    cases hlive : src.scan (info.tableName.getD "") with
    | error e =>
      rw [htable] at h
      simp only [hlive] at h
      cases h
    | ok live =>
      rw [htable] at h
      simp only [hlive] at h
      change (do
        let rows ← filterE _ (live.map Prod.snd)
        return { columns := table.columnNames, rows }) = Except.ok res at h
      cases hrows : filterE (fun values => evalPredicate py info.predicate
          (rowDict table.columnNames values)) (live.map Prod.snd) with
      | error e =>
        rw [hrows] at h
        cases h
      | ok rows =>
        rw [hrows] at h
        cases h
        intro row hrow
        rw [filterE_of_isOk (filterE_isOk.mp (by rw [hrows]; rfl))] at hrows
        cases hrows
        obtain ⟨p, hp, rfl⟩ := List.mem_map.mp (List.mem_filter.mp hrow).1
        exact (src.width htable hlive p hp).trans (List.length_map _).symm

theorem FromTree.rectangular {tree : PlanNode} (h : FromTree tree) :
    ∀ {res}, executeNode py src tree = .ok res → res.Rectangular := by
  induction h with
  | scan htype _ _ =>
    intro res hres
    simp only [executeNode, htype] at hres
    exact execSeqScan_rectangular hres
  | join htype _ _ _ iha ihb =>
    intro res hres
    rename_i info a b _ _ _
    rw [executeNode_join htype] at hres
    cases hl : executeNode py src a with
    | error e =>
      rw [hl] at hres
      cases hres
    | ok left =>
      cases hr : executeNode py src b with
      | error e =>
        rw [hl, hr] at hres
        cases hres
      | ok right =>
        rw [hl, hr] at hres
        change execJoin py info left right = .ok res at hres
        have hcond := condOk_of_execJoin (by rw [hres]; rfl)
        rw [execJoin_of_condOk (iha hl) (ihb hr) hcond] at hres
        cases hres
        exact joinResult_rectangular (iha hl) (ihb hr)

/-- A scan with a predicate is the filter above the scan without one. -/
theorem execSeqScan_filter (info' : PlanInfo) (hpredicate : info.predicate = none)
    (hname : info'.tableName = info.tableName) :
    execSeqScan py src info' = (do execFilter py info'.predicate (← execSeqScan py src info)) := by
  rw [execSeqScan, execSeqScan, hname, hpredicate]
  cases src.catalog.getTable (info.tableName.getD "") with
  | none => rfl
  | some table =>
    cases hlive : src.scan (info.tableName.getD "") with
    | error e => rfl
    | ok live =>
      have hall : filterE (fun values => evalPredicate py none (rowDict table.columnNames values))
          (live.map Prod.snd) = .ok (live.map Prod.snd) := by
        rw [filterE_of_isOk fun _ _ => rfl]
        exact congrArg _ (List.filter_eq_self.mpr fun _ _ => rfl)
      change _ = (do
        let res ← (do
          let rows ← filterE (fun values => evalPredicate py none (rowDict table.columnNames values))
            (live.map Prod.snd)
          return ({ columns := table.columnNames, rows } : QueryResult))
        execFilter py info'.predicate res)
      rw [hall]
      rfl

/-! ## What the pushdown does -/

theorem pushdownPredicates_fromTree {tree : PlanNode} (h : FromTree tree) :
    pushdownPredicates tree = .ok tree := by
  induction h with
  | scan htype _ _ =>
    simp only [pushdownPredicates, htype, pushdownAll]
    rfl
  | join htype _ _ _ iha ihb =>
    rcases htype with htype | htype
    · simp only [pushdownPredicates, htype, pushdownAll, iha, ihb]
      rfl
    · simp only [pushdownPredicates, htype, pushdownAll, iha, ihb]
      rfl

inductive Side where
  | left
  | right

/-- The side of a join to which a predicate is moved: the first one that has the only table of which
the predicate names columns. -/
def pushSide (predicate : Expr) (a b : PlanNode) : Option Side :=
  match predicate with
  | .binaryOp op l r =>
    match (extractTables (.binaryOp op l r)).dedup with
    | [table] =>
      if table ∈ planTables a then some .left
      else if table ∈ planTables b then some .right
      else none
    | _ => none
  | _ => none

/-- A filter that the planner or the pushdown makes, with its estimates. -/
def filterNode (predicate : Option Expr) (x : Value × PyFloat) (child : PlanNode) : PlanNode :=
  .mk { type := .filter, predicate, estimatedRows := x.1, estimatedCost := x.2 } [child]

theorem planFilter_some {tree : PlanNode} (hest : Scalable tree.info.estimatedRows)
    (predicate : Expr) (share : ℚ) : ∃ x cost,
      planFilter (some predicate) share tree =
        .ok (filterNode (some predicate) (.float x, cost) tree) := by
  obtain ⟨x, hx⟩ := hest share
  obtain ⟨cost, hcost⟩ := costPlus_of_scalable hest tree.info.estimatedCost (1 / 10)
  refine ⟨x, cost, ?_⟩
  rw [planFilter, above, hx, ok_bind, hcost]
  rfl

def pushedChildren (predicate : Expr) (x : Value × PyFloat) (a b : PlanNode) : Option (List PlanNode) :=
  match pushSide predicate a b with
  | none => none
  | some .left => some [filterNode (some predicate) x a, b]
  | some .right => some [a, filterNode (some predicate) x b]

theorem tryPushToJoin_eq (predicate : Expr) (ha : Scalable a.info.estimatedRows)
    (hb : Scalable b.info.estimatedRows) :
    ∃ x, tryPushToJoin (some predicate) [a, b] = .ok (pushedChildren predicate x a b) := by
  obtain ⟨xa, costa, hxa⟩ := planFilter_some ha predicate (33 / 100)
  obtain ⟨xb, costb, hxb⟩ := planFilter_some hb predicate (33 / 100)
  rw [tryPushToJoin.eq_def]
  cases predicate with
  | binaryOp op l r =>
    cases htables : (extractTables (.binaryOp op l r)).dedup with
    | nil => exact ⟨(.null, .nan), by simp [htables, pushedChildren, pushSide]⟩
    | cons table rest =>
      cases rest with
      | cons table' rest => exact ⟨(.null, .nan), by simp [htables, pushedChildren, pushSide]⟩
      | nil =>
        by_cases hmema : table ∈ planTables a
        · refine ⟨(.float xa, costa), ?_⟩
          simp only [htables, pushedChildren, pushSide, pushToChild, hmema, if_true, hxa]
          rfl
        · by_cases hmemb : table ∈ planTables b
          · refine ⟨(.float xb, costb), ?_⟩
            simp only [htables, pushedChildren, pushSide, pushToChild, hmema, hmemb, if_true,
              if_false, hxb]
            rfl
          · refine ⟨(.null, .nan), ?_⟩
            simp only [htables, pushedChildren, pushSide, pushToChild, hmema, hmemb, if_false]
            rfl
  | _ => exact ⟨(.null, .nan), rfl⟩

/-- What makes the pushdown invisible: the predicate stays above the join on top, or it does the same
on the side it is moved to, whatever the two sides give. -/
def PushdownAgrees (py : Py) (src : Source) (tree : PlanNode) (whereClause : Option Expr) : Prop :=
  ∀ predicate info a b left right, whereClause = some predicate → tree = .mk info [a, b] →
    executeNode py src a = .ok left → executeNode py src b = .ok right →
    match pushSide predicate a b with
    | none => True
    | some .left => LeftAgrees py whereClause info left right
    | some .right => RightAgrees py whereClause info left right

theorem executeNode_filterNode (predicate : Option Expr) (x : Value × PyFloat) (child : PlanNode) :
    executeNode py src (filterNode predicate x child) =
      (do execFilter py predicate (← executeNode py src child)) := by
  simp only [filterNode, executeNode]

theorem pushdownPredicates_filterNode_scan (predicate : Option Expr) {scan : PlanInfo}
    {x : Value × PyFloat} (htype : scan.type = .seqScan)
    (hpredicate : scan.predicate = none) (hest : Scalable scan.estimatedRows) :
    ∃ y, pushdownPredicates (filterNode predicate x (.mk scan [])) =
      .ok (.mk { scan with predicate, estimatedRows := .float y } []) := by
  obtain ⟨y, hy⟩ := hest (33 / 100)
  refine ⟨y, ?_⟩
  rw [filterNode, pushdownPredicates]
  · simp only [htype, hpredicate, Option.isNone_none, and_self, if_true, hy]
    rfl
  · rfl

theorem pushdownPredicates_filterNode_join (pushed : Expr) {x : Value × PyFloat}
    (htree : FromTree (.mk info [a, b])) (htype : info.type = .nestedLoopJoin ∨ info.type = .hashJoin)
    (ha : Scalable a.info.estimatedRows) (hb : Scalable b.info.estimatedRows) :
    ∃ y, pushdownPredicates (filterNode (some pushed) x (.mk info [a, b])) =
      .ok (match pushedChildren pushed y a b with
        | some children => .mk info children
        | none => filterNode (some pushed) x (.mk info [a, b])) := by
  obtain ⟨y, hy⟩ := tryPushToJoin_eq pushed ha hb
  refine ⟨y, ?_⟩
  have hjoin : info.type.isJoin = true := by rcases htype with h | h <;> rw [h] <;> rfl
  have hscan : info.type ≠ .seqScan := by rcases htype with h | h <;> rw [h] <;> exact nofun
  rw [filterNode, pushdownPredicates]
  · simp only [hscan, false_and, if_false, hjoin, if_true, hy, pushdownAll,
      pushdownPredicates_fromTree htree]
    cases pushedChildren pushed y a b with
    | none => rfl
    | some children => rfl
  · rfl

/-- Both children come first, then the filter and the join. -/
theorem sameRows_pushed {l : Except PyError QueryResult} {r : Except PyError QueryResult}
    {f g : QueryResult → QueryResult → Except PyError QueryResult} :
    SameRows (do let left ← l; let right ← r; f left right)
      (do let left ← l; let right ← r; g left right) ↔
    ∀ left right, l = .ok left → r = .ok right → SameRows (f left right) (g left right) := by
  cases l with
  | error e => exact iff_of_true trivial (fun _ _ h => nomatch h)
  | ok left =>
    cases r with
    | error e => exact iff_of_true trivial (fun _ _ _ h => nomatch h)
    | ok right =>
      constructor
      · intro h left' right' hl hr
        cases hl
        cases hr
        exact h
      · exact fun h => h left right rfl rfl

/-- An error of the filter and one of the other child are errors alike. -/
theorem sameRows_filter_first {l r z : Except PyError QueryResult}
    {f : QueryResult → Except PyError QueryResult}
    {g : QueryResult → QueryResult → Except PyError QueryResult} :
    SameRows (do let left ← (do f (← l)); let right ← r; g left right) z ↔
      SameRows (do let left ← l; let right ← r; g (← f left) right) z := by
  cases l with
  | error e => rfl
  | ok left =>
    change SameRows (do let left ← f left; let right ← r; g left right) z ↔
      SameRows (do let right ← r; g (← f left) right) z
    cases f left with
    | ok left' => rfl
    | error e =>
      cases r with
      | ok right => rfl
      | error e' =>
        change SameRows (.error e) z ↔ SameRows (.error e') z
        cases z <;> rfl

/-- A filter above a tree of joins. -/
theorem pushdown_filterNode (py : Py) (src : Source) {tree : PlanNode} {x : Value × PyFloat}
    (htree : FromTree tree) (predicate : Expr) :
    ∃ node, pushdownPredicates (filterNode (some predicate) x tree) = .ok node ∧
      (SameRows (executeNode py src node)
          (executeNode py src (filterNode (some predicate) x tree)) ↔
        PushdownAgrees py src tree (some predicate)) := by
  cases htree with
  | scan htype hpredicate hest =>
    rename_i info
    obtain ⟨y, hy⟩ := pushdownPredicates_filterNode_scan (some predicate) (x := x) htype
      hpredicate hest
    refine ⟨_, hy, iff_of_true ?_ ?_⟩
    · simp only [executeNode_filterNode, executeNode, htype]
      rw [← execSeqScan_filter { info with
        type := .seqScan, predicate := some predicate, estimatedRows := .float y } hpredicate rfl]
      exact SameRows.refl _
    · intro _ _ _ _ _ _ _ hnode
      cases hnode
  | join htype hest ha hb =>
    rename_i info a b
    obtain ⟨y, hy⟩ := pushdownPredicates_filterNode_join predicate (x := x) (.join htype hest ha hb)
      htype ha.scalable hb.scalable
    refine ⟨_, hy, ?_⟩
    have hagrees : PushdownAgrees py src (.mk info [a, b]) (some predicate) ↔
        ∀ left right, executeNode py src a = .ok left → executeNode py src b = .ok right →
          match pushSide predicate a b with
          | none => True
          | some .left => LeftAgrees py (some predicate) info left right
          | some .right => RightAgrees py (some predicate) info left right := by
      constructor
      · exact fun h left right hl hr => h predicate info a b left right rfl rfl hl hr
      · intro h predicate' info' a' b' left right hpredicate hnode hl hr
        cases hpredicate
        cases hnode
        exact h left right hl hr
    rw [hagrees, pushedChildren]
    cases hside : pushSide predicate a b with
    | none => exact iff_of_true (SameRows.refl _) fun _ _ _ _ => trivial
    | some side =>
      cases side with
      | left =>
        simp only [executeNode_join htype, executeNode_filterNode]
        rw [sameRows_filter_first]
        simp only [bind_assoc]
        refine sameRows_pushed.trans (forall_congr' fun left => forall_congr' fun right =>
          forall_congr' fun hl => forall_congr' fun hr => ?_)
        exact joinFilterLeft_sameRows_iff (ha.rectangular hl) (hb.rectangular hr)
      | right =>
        simp only [executeNode_join htype, executeNode_filterNode, bind_assoc]
        refine sameRows_pushed.trans (forall_congr' fun left => forall_congr' fun right =>
          forall_congr' fun hl => forall_congr' fun hr => ?_)
        exact joinFilterRight_sameRows_iff (ha.rectangular hl) (hb.rectangular hr)

/-! ## SELECT statements -/

theorem execProject_sameRows {x y : Except PyError QueryResult} (columns : Option (List SelectItem))
    (h : SameRows x y) :
    SameRows (do execProject py columns (← x)) (do execProject py columns (← y)) := by
  cases x with
  | error e =>
    cases y with
    | error e' => trivial
    | ok res' => exact h.elim
  | ok res =>
    cases y with
    | error e' => exact h.elim
    | ok res' =>
      obtain ⟨hcolumns, hrows⟩ := h
      change SameRows (execProject py columns res) (execProject py columns res')
      rw [execProject.eq_def, execProject.eq_def, hcolumns]
      cases columns with
      | none => exact ⟨hcolumns, hrows⟩
      | some items =>
        cases items with
        | nil => exact ⟨hcolumns, hrows⟩
        | cons item items =>
          rcases mapE_perm (f := fun row => do
              return (← mapE (projectItem py res'.columns row) (item :: items)).flatten) hrows with
            ⟨ys, ys', hys, hys', hperm⟩ | ⟨hys, hys'⟩
          · simp only [hys, hys']
            exact ⟨rfl, hperm⟩
          · obtain ⟨e, he⟩ := exists_error_of_isOk hys
            obtain ⟨e', he'⟩ := exists_error_of_isOk hys'
            simp only [he, he']
            trivial

/-- `SELECT *` -/
def star : List SelectItem := [(.starExpr none, none)]

theorem execProject_star (res : QueryResult) : execProject py (some star) res =
    .ok { columns := res.columns, rows := res.rows } := by
  have hrows : mapE (fun row => do
      return (← mapE (projectItem py res.columns row) star).flatten) res.rows = .ok res.rows := by
    have hmap := mapE_of_ok (l := res.rows) (g := id) (f := fun row => do
        return (← mapE (projectItem py res.columns row) star).flatten)
      fun row _ => congrArg Except.ok (List.append_nil row)
    rwa [List.map_id] at hmap
  have hcolumns : ∀ columns : List String,
      outputColumns py columns (.starExpr none, none) = columns := by
    intro columns
    change ((columns.zip (columns.map fun _ => true)).filter Prod.snd).map Prod.fst = columns
    induction columns with
    | nil => rfl
    | cons c cs ih => exact congrArg (c :: ·) ih
  have hselect : execProject py (some star) res = (do
      let rows ← mapE (fun row => do
        return (← mapE (projectItem py res.columns row) star).flatten) res.rows
      return { columns := star.flatMap (outputColumns py res.columns), rows }) := rfl
  rw [hselect, hrows, star, List.flatMap_singleton, hcolumns]
  rfl

def projectNode (columns : List SelectItem) (x : Value × PyFloat) (child : PlanNode) : PlanNode :=
  .mk { type := .project, columns := some columns, estimatedRows := x.1, estimatedCost := x.2 }
    [child]

theorem planProject_eq {current : PlanNode} (hest : Scalable current.info.estimatedRows) :
    ∃ x, ∀ columns, planProject columns current = .ok (projectNode columns x current) := by
  obtain ⟨cost, hcost⟩ := costPlus_of_scalable hest current.info.estimatedCost (1 / 100)
  refine ⟨(current.info.estimatedRows, cost), fun columns => ?_⟩
  rw [planProject, hcost]
  rfl

/-- A SELECT of table, join and WHERE clauses only. -/
theorem planSelect_eq {columns : List SelectItem} {ref : TableRef} {whereClause : Option Expr}
    {tree : PlanNode} (hagg : hasAggregates columns = false)
    (hfrom : planTableRef src.catalog ref = .ok tree) :
    planSelect src.catalog (.mk columns (some ref) whereClause none none none none none false) = (do
      let current ← planFilter whereClause (33 / 100) tree
      planProject columns current) := by
  rw [planSelect, planFrom, hfrom]
  change (do let current ← planFilter whereClause (33 / 100) tree; _) = _
  cases planFilter whereClause (33 / 100) tree with
  | error e => rfl
  | ok current =>
    change (do let current ← planAggregate columns none current; _) = _
    have haggregate : planAggregate columns none current = .ok current := by
      rw [planAggregate, hagg]
      rfl
    rw [haggregate]
    change (do let current ← planProject columns current; _) = planProject columns current
    cases planProject columns current with
    | error e => rfl
    | ok node => rfl

theorem executeNode_projectNode (columns : List SelectItem) (x : Value × PyFloat)
    (child : PlanNode) : executeNode py src (projectNode columns x child) =
      (do execProject py (some columns) (← executeNode py src child)) := by
  simp only [projectNode, executeNode]

theorem pushdownPredicates_projectNode {columns : List SelectItem} {x : Value × PyFloat}
    {child child' : PlanNode} (h : pushdownPredicates child = .ok child') :
    pushdownPredicates (projectNode columns x child) = .ok (projectNode columns x child') := by
  simp only [projectNode, pushdownPredicates, pushdownAll, h]
  rfl

/-- The pushdown keeps the rows of each SELECT exactly if the predicate may be moved. -/
theorem pushdown_sameRows_iff {ref : TableRef} {tree : PlanNode} {whereClause : Option Expr}
    (hplain : ref.Plain) (hfrom : planTableRef src.catalog ref = .ok tree) :
    (∀ columns plan, hasAggregates columns = false →
      planSelect src.catalog (.mk columns (some ref) whereClause none none none none none false) =
        .ok plan →
      ∃ plan', pushdownPredicates plan = .ok plan' ∧
        SameRows (executeNode py src plan') (executeNode py src plan)) ↔
    PushdownAgrees py src tree whereClause := by
  obtain ⟨htree, -⟩ := planTableRef_fromTree hplain hfrom
  cases whereClause with
  | none =>
    refine iff_of_true ?_ ?_
    · intro columns plan hagg hplan
      obtain ⟨x, hproject⟩ := planProject_eq htree.scalable
      rw [planSelect_eq hagg hfrom] at hplan
      change planProject columns tree = .ok plan at hplan
      rw [hproject] at hplan
      cases hplan
      exact ⟨_, pushdownPredicates_projectNode (pushdownPredicates_fromTree htree), SameRows.refl _⟩
    · intro predicate _ _ _ _ _ hnone
      cases hnone
  | some predicate =>
    obtain ⟨x, cost, hx⟩ := planFilter_some htree.scalable predicate (33 / 100)
    obtain ⟨node, hnode, hiff⟩ := pushdown_filterNode py src (x := (.float x, cost)) htree predicate
    have hscalable : Scalable
        (filterNode (some predicate) (.float x, cost) tree).info.estimatedRows := scalable_float x
    obtain ⟨y, hproject⟩ := planProject_eq hscalable
    have hplan : ∀ columns, hasAggregates columns = false →
        planSelect src.catalog
          (.mk columns (some ref) (some predicate) none none none none none false) =
          .ok (projectNode columns y (filterNode (some predicate) (.float x, cost) tree)) := by
      intro columns hagg
      rw [planSelect_eq hagg hfrom, hx]
      exact hproject columns
    rw [← hiff]
    constructor
    · -- SELECT * shows all that the tree gives
      intro h
      obtain ⟨plan', hplan', hsame⟩ := h star _ rfl (hplan star rfl)
      rw [pushdownPredicates_projectNode hnode] at hplan'
      cases hplan'
      rw [executeNode_projectNode, executeNode_projectNode] at hsame
      cases hl : executeNode py src node with
      | error e =>
        cases hr : executeNode py src (filterNode (some predicate) (.float x, cost) tree) with
        | error e' => trivial
        | ok res' =>
          rw [hl, hr] at hsame
          change SameRows (.error e) (execProject py (some star) res') at hsame
          rw [execProject_star] at hsame
          exact hsame.elim
      | ok res =>
        cases hr : executeNode py src (filterNode (some predicate) (.float x, cost) tree) with
        | error e' =>
          rw [hl, hr] at hsame
          change SameRows (execProject py (some star) res) (.error e') at hsame
          rw [execProject_star] at hsame
          exact hsame.elim
        | ok res' =>
          rw [hl, hr] at hsame
          change SameRows (execProject py (some star) res) (execProject py (some star) res') at hsame
          rw [execProject_star, execProject_star] at hsame
          exact hsame
    · intro hsame columns plan hagg hselect
      rw [hplan columns hagg] at hselect
      cases hselect
      refine ⟨_, pushdownPredicates_projectNode hnode, ?_⟩
      rw [executeNode_projectNode, executeNode_projectNode]
      exact execProject_sameRows _ hsame

/-- Tables `t(a)` and `u(b)` with one row each. -/
def twoTables (x y : Value) : Source where
  catalog := {
    tables := (Dict.empty.set "t" { name := "t", columns := [⟨"a", "INTEGER", []⟩] }).set "u"
      { name := "u", columns := [⟨"b", "INTEGER", []⟩] }
    indexes := .empty }
  scan name := .ok [(⟨0, 0⟩, [if name = "t" then x else y])]
  read _ _ := .ok none
  indexes := .empty
  width := by
    intro name table live htable hlive p hp
    cases hlive
    rw [List.mem_singleton] at hp
    have hmem : table.columns.length = 1 := by
      rw [Catalog.getTable, Dict.get?_set, Dict.get?_set] at htable
      split at htable
      · cases htable
        rfl
      · split at htable
        · cases htable
          rfl
        · cases htable
    rw [hp, hmem]
    rfl

/-- `t JOIN u ON a = b` -/
def equiJoin (joinType : JoinType) : TableRef :=
  .join (.simple "t" none) (.simple "u" none) joinType
    (some (.binaryOp .eq (.columnRef none "a") (.columnRef none "b"))) none

theorem equiJoin_plain (joinType : JoinType) : (equiJoin joinType).Plain :=
  .join _ _ _ (.simple _ _) (.simple _ _)

/-- `u.b = 2` -/
def onU : Expr := .binaryOp .eq (.columnRef (some "u") "b") (.literal (.int 2))

/-- The column names of the tables of a reference. -/
def TableRef.columnNames (catalog : Catalog) : TableRef → List String
  | .simple name _ => ((catalog.getTable name).map TableInfo.columnNames).getD []
  | .join left right _ _ _ => columnNames catalog left ++ columnNames catalog right
  | .subquery _ _ => []

/-- The inner join of two rows, the predicate on the right one. -/
theorem pushdown_sameRows_iff_inner : ∃ tree, planTableRef (twoTables (.int 2) (.int 2)).catalog
      (equiJoin .inner) = .ok tree ∧
    ((∀ columns plan, hasAggregates columns = false →
      planSelect (twoTables (.int 2) (.int 2)).catalog
        (.mk columns (some (equiJoin .inner)) (some onU) none none none none none false) = .ok plan →
      ∃ plan', pushdownPredicates plan = .ok plan' ∧
        SameRows (executeNode .ascii (twoTables (.int 2) (.int 2)) plan')
          (executeNode .ascii (twoTables (.int 2) (.int 2)) plan)) ↔
    PushdownAgrees .ascii (twoTables (.int 2) (.int 2)) tree (some onU)) := by
  have hok : (planTableRef (twoTables (.int 2) (.int 2)).catalog (equiJoin .inner)).isOk = true := by
    decide +kernel
  obtain ⟨tree, htree⟩ := exists_ok_of_isOk hok
  exact ⟨tree, htree, pushdown_sameRows_iff (equiJoin_plain .inner) htree⟩

/-- A left join keeps the row of `t` that lost its partner to the predicate. -/
theorem leftJoin_pushdown : ¬∀ (py : Py) (src : Source) (ref : TableRef) (whereClause : Option Expr)
    (columns : List SelectItem) (plan plan' : PlanNode), ref.Plain →
    (ref.columnNames src.catalog).Nodup → hasAggregates columns = false →
    planSelect src.catalog (.mk columns (some ref) whereClause none none none none none false) =
      .ok plan → pushdownPredicates plan = .ok plan' →
    SameRows (executeNode py src plan') (executeNode py src plan) := by
  intro h
  have hrun : (do
      let plan ← planSelect (twoTables (.int 1) (.int 2)).catalog
        (.mk star (some (equiJoin .left)) (some onU) none none none none none false)
      let plan' ← pushdownPredicates plan
      let before ← executeNode .ascii (twoTables (.int 1) (.int 2)) plan
      let after ← executeNode .ascii (twoTables (.int 1) (.int 2)) plan'
      return (before.rows, after.rows)) = .ok ([], [[.int 1, .null]]) := by decide +kernel
  cases hplan : planSelect (twoTables (.int 1) (.int 2)).catalog
      (.mk star (some (equiJoin .left)) (some onU) none none none none none false) with
  | error e =>
    rw [hplan] at hrun
    cases hrun
  | ok plan =>
    rw [hplan] at hrun
    change (do let plan' ← pushdownPredicates plan; _) = _ at hrun
    cases hplan' : pushdownPredicates plan with
    | error e =>
      rw [hplan'] at hrun
      cases hrun
    | ok plan' =>
      have hsame := h .ascii (twoTables (.int 1) (.int 2)) (equiJoin .left) (some onU) star plan plan'
        (equiJoin_plain .left) (by decide +kernel) rfl hplan hplan'
      rw [hplan'] at hrun
      change (do
        let before ← executeNode .ascii (twoTables (.int 1) (.int 2)) plan
        let after ← executeNode .ascii (twoTables (.int 1) (.int 2)) plan'
        return (before.rows, after.rows)) = .ok ([], [[.int 1, .null]]) at hrun
      cases hbefore : executeNode .ascii (twoTables (.int 1) (.int 2)) plan with
      | error e =>
        rw [hbefore] at hrun
        cases hrun
      | ok before =>
        cases hafter : executeNode .ascii (twoTables (.int 1) (.int 2)) plan' with
        | error e =>
          rw [hbefore, hafter] at hrun
          cases hrun
        | ok after =>
          rw [hbefore, hafter] at hrun hsame
          obtain ⟨hnone, hone⟩ := Prod.mk.inj (Except.ok.inj hrun)
          rw [SameRows, hnone, hone] at hsame
          exact absurd hsame.2.length_eq (by decide)

end PySQL.Query
