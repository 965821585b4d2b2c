import PySQL.Query.Catalog

/-!
# The query planner

Plan trees and the planner's functions on them.  No choice depends on the estimated costs, but
computing them may raise; the costs of the plans that are not optimized are left out.
-/

namespace PySQL.Query

inductive PlanNodeType where
  | seqScan
  | indexScan
  | filter
  | project
  | nestedLoopJoin
  | hashJoin
  | sortMergeJoin
  | sort
  | aggregate
  | limit
  | distinct
  | insert
  | update
  | delete
  | createTable
  | dropTable
  | createIndex
  | values
deriving DecidableEq, Repr

/-- The fields of a plan node, without its children. -/
structure PlanInfo where
  type : PlanNodeType
  tableName : Option String := none
  aliasName : Option String := none
  predicate : Option Expr := none
  columns : Option (List SelectItem) := none
  sortKeys : Option (List (Expr × Bool)) := none
  groupBy : Option (List Expr) := none
  aggregates : Option (List Expr) := none
  limit : Option ℤ := none
  offset : Option ℤ := none
  joinType : Option JoinType := none
  joinCondition : Option Expr := none
  indexName : Option String := none
  indexColumns : Option (List String) := none
  scanRange : Option (Option Value × Option Value) := none
  assignments : Option (List (String × Expr)) := none
  values : Option (List (List Expr)) := none
  insertColumns : Option (List String) := none
  statement : Option Statement := none
  /-- An int or a float. -/
  estimatedRows : Value := .int 0
  /-- A float, or an int that is the same number. -/
  estimatedCost : PyFloat := .zero false

inductive PlanNode where
  | mk (info : PlanInfo) (children : List PlanNode)

namespace PlanNode

def info : PlanNode → PlanInfo
  | mk info _ => info

def children : PlanNode → List PlanNode
  | mk _ children => children

end PlanNode

/-! ## Estimates -/

/-- `estimate * factor` for a float literal. -/
def scaled (estimate : Value) (factor : ℚ) : Except PyError Value :=
  estimate.mul (.float (.ofRat false factor))

/-- `cost + estimate * factor` -/
def costPlus (cost : PyFloat) (estimate : Value) (factor : ℚ) : Except PyError PyFloat := do
  return cost.add (← (← scaled estimate factor).operand)

/-- `max(1, estimate)` -/
def atLeastOne (estimate : Value) : Value :=
  match estimate.compare .gt (.int 1) with
  | .ok true => estimate
  | _ => .int 1

/-- `n.bit_length()` exists for ints only. -/
def bitLength : Value → Except PyError ℕ
  | .int n => .ok (if n = 0 then 0 else Nat.log 2 n.natAbs + 1)
  | _ => .error .attributeError

/-! ## Logical plans -/

def isAggregateCall : Expr → Bool
  | .functionCall _ _ _ isAggregate => isAggregate
  | _ => false

def hasAggregates (columns : List SelectItem) : Bool := columns.any fun item => isAggregateCall item.1

def extractAggregates (columns : List SelectItem) : List Expr :=
  (columns.map Prod.fst).filter isAggregateCall

/-- A node above another one that expects a share of its rows, at a cost for each of them. -/
def above (info : PlanInfo) (share cost : ℚ) (child : PlanNode) : Except PyError PlanNode := do
  let estimatedRows ← scaled child.info.estimatedRows share
  let estimatedCost ← costPlus child.info.estimatedCost child.info.estimatedRows cost
  return .mk { info with estimatedRows, estimatedCost } [child]

def planFilter (predicate : Option Expr) (share : ℚ) (current : PlanNode) :
    Except PyError PlanNode :=
  match predicate with
  | none => .ok current
  | some _ => above { type := .filter, predicate } share (1 / 10) current

def planAggregate (columns : List SelectItem) (groupBy : Option (List Expr)) (current : PlanNode) :
    Except PyError PlanNode :=
  if groupBy.isSome || hasAggregates columns then do
    let estimatedRows := atLeastOne (← scaled current.info.estimatedRows (1 / 10))
    let estimatedCost ← costPlus current.info.estimatedCost current.info.estimatedRows (1 / 2)
    let aggregates := some (extractAggregates columns)
    return .mk { type := .aggregate, groupBy, aggregates, estimatedRows, estimatedCost } [current]
  else .ok current

def planProject (columns : List SelectItem) (current : PlanNode) : Except PyError PlanNode := do
  let estimatedRows := current.info.estimatedRows
  let estimatedCost ← costPlus current.info.estimatedCost estimatedRows (1 / 100)
  return .mk { type := .project, columns := some columns, estimatedRows, estimatedCost } [current]

def planSort (orderBy : Option (List OrderByItem)) (current : PlanNode) : Except PyError PlanNode :=
  match orderBy with
  | none | some [] => .ok current
  | some items => do
    let estimatedRows := current.info.estimatedRows
    -- n * log(n)
    let bits ← bitLength (atLeastOne estimatedRows)
    let estimatedCost ←
      costPlus current.info.estimatedCost (← estimatedRows.mul (.int bits)) (1 / 2)
    let sortKeys := some (items.map fun item => (item.expr, item.descending))
    return .mk { type := .sort, sortKeys, estimatedRows, estimatedCost } [current]

def planDistinct (distinct : Bool) (current : PlanNode) : Except PyError PlanNode :=
  if distinct then above { type := .distinct } (8 / 10) (3 / 10) current else .ok current

def planLimit (limit offset : Option ℤ) (current : PlanNode) : Except PyError PlanNode :=
  match limit with
  | none => .ok current
  | some n => do
    let rows := current.info.estimatedRows
    let estimatedRows := if ← rows.compare .lt (.int n) then rows else .int n
    let estimatedCost := current.info.estimatedCost.add (.ofRat false (1 / 10))
    let offset := some (offset.getD 0)
    return .mk { type := .limit, limit, offset, estimatedRows, estimatedCost } [current]

/-- The cost of a join for each pair of rows, or for each row. -/
def joinCost (few : Bool) (left right : PlanInfo) (pairs : Value) : Except PyError PyFloat := do
  let cost := left.estimatedCost.add right.estimatedCost
  if few then costPlus cost pairs (1 / 100)
  else costPlus cost (← left.estimatedRows.add right.estimatedRows) 2

/-- Nested loops for few pairs of rows, a hash table for many. -/
def planJoin (joinType : JoinType) (condition : Option Expr) (left right : PlanNode) :
    Except PyError PlanNode := do
  let pairs ← left.info.estimatedRows.mul right.info.estimatedRows
  let few ← pairs.compare .lt (.int 100000)
  let type := if few then .nestedLoopJoin else .hashJoin
  let estimatedCost ← joinCost few left.info right.info pairs
  let estimatedRows ← scaled pairs (1 / 10)
  let joinType := some joinType
  return .mk { type, joinType, joinCondition := condition, estimatedRows, estimatedCost }
    [left, right]

mutual

def planTableRef (catalog : Catalog) : TableRef → Except PyError PlanNode
  | .simple name aliasName => do
    let estRows := ((catalog.getTable name).map TableInfo.rowCountEstimate).getD 1000
    let estimatedCost ← (Value.int estRows).operand
    let estimatedRows := .float estimatedCost
    return .mk { type := .seqScan, tableName := some name, aliasName, estimatedRows, estimatedCost } []
  | .join left right joinType condition _ => do
    let l ← planTableRef catalog left
    let r ← planTableRef catalog right
    planJoin joinType condition l r
  | .subquery subquery aliasName => do
    let subplan ← planSelect catalog subquery
    return .mk { subplan.info with aliasName := some aliasName } subplan.children

/-- Scan → Filter → Aggregate → Having → Project → Sort → Distinct → Limit. -/
def planSelect (catalog : Catalog) : SelectStatement → Except PyError PlanNode
  | .mk columns fromClause whereClause groupBy having orderBy limit offset distinct => do
    let current ← planFrom catalog fromClause
    let current ← planFilter whereClause (33 / 100) current
    let current ← planAggregate columns groupBy current
    let current ← planFilter having (5 / 10) current
    let current ← planProject columns current
    let current ← planSort orderBy current
    let current ← planDistinct distinct current
    planLimit limit offset current

def planFrom (catalog : Catalog) : Option TableRef → Except PyError PlanNode
  | none => .ok (.mk { type := .values, estimatedRows := .int 1 } [])
  | some ref => planTableRef catalog ref

end

/-- The scan of UPDATE and DELETE. -/
def planScan (table : String) (whereClause : Option Expr) : PlanNode :=
  let scan := PlanNode.mk
    { type := .seqScan, tableName := some table, estimatedRows := .int 1000 } []
  match whereClause with
  | none => scan
  | some _ => .mk { type := .filter, predicate := whereClause, estimatedRows := .int 330 } [scan]

def planInsert (stmt : InsertStatement) : Except PyError PlanNode := do
  let estimatedRows := .float (← (Value.int stmt.values.length).operand)
  return .mk {
    type := .insert
    tableName := some stmt.table
    insertColumns := stmt.columns
    values := some stmt.values
    estimatedRows } []

def planUpdate (stmt : UpdateStatement) : PlanNode :=
  let scan := planScan stmt.table stmt.whereClause
  .mk {
    type := .update
    tableName := some stmt.table
    assignments := some stmt.assignments
    estimatedRows := scan.info.estimatedRows } [scan]

def planDelete (stmt : DeleteStatement) : PlanNode :=
  let scan := planScan stmt.table stmt.whereClause
  .mk {
    type := .delete
    tableName := some stmt.table
    estimatedRows := scan.info.estimatedRows } [scan]

/-! ## Columns and tables of an expression -/

/-- All table names that an expression refers to; only operators are looked into. -/
def extractTables : Expr → List String
  | .columnRef (some table) _ => if table = "" then [] else [table]
  | .binaryOp _ left right => extractTables left ++ extractTables right
  | _ => []

def extractColumns : Expr → List String
  | .columnRef _ column => [column]
  | .binaryOp _ left right => extractColumns left ++ extractColumns right
  | _ => []

/-- A field that is set and not empty. -/
def nonempty (name : Option String) : List String :=
  match name with
  | some s => if s = "" then [] else [s]
  | none => []

mutual

def planTables : PlanNode → List String
  | .mk info children =>
    (match nonempty info.tableName with
      | [] => []
      | names => names ++ nonempty info.aliasName) ++ planTablesAll children

def planTablesAll : List PlanNode → List String
  | [] => []
  | c :: cs => planTables c ++ planTablesAll cs

end

/-! ## Predicate pushdown -/

/-- Put a filter above the first child whose tables include the one table of the predicate. -/
def pushToChild (predicate : Expr) (table : String) :
    List PlanNode → Except PyError (Option (List PlanNode))
  | [] => .ok none
  | child :: rest =>
    if table ∈ planTables child then do
      let filterNode ← planFilter (some predicate) (33 / 100) child
      return some (filterNode :: rest)
    else do
      return (← pushToChild predicate table rest).map (child :: ·)

/-- The children of a join after a predicate is pushed to one of them, none if it is not. -/
def tryPushToJoin (predicate : Option Expr) (children : List PlanNode) :
    Except PyError (Option (List PlanNode)) :=
  match predicate with
  | some (.binaryOp op left right) =>
    match (extractTables (.binaryOp op left right)).dedup with
    | [table] => pushToChild (.binaryOp op left right) table children
    | _ => .ok none
  | _ => .ok none

def PlanNodeType.isJoin (type : PlanNodeType) : Bool :=
  type ∈ [.nestedLoopJoin, .hashJoin, .sortMergeJoin]

mutual

def pushdownPredicates : PlanNode → Except PyError PlanNode
  | .mk info children => do
    match info.type, children with
    | .filter, [.mk child grandchildren] =>
      if child.type = .seqScan ∧ child.predicate.isNone then
        let estimatedRows ← scaled child.estimatedRows (33 / 100)
        return .mk { child with predicate := info.predicate, estimatedRows } grandchildren
      if child.type.isJoin then
        if let some pushed ← tryPushToJoin info.predicate grandchildren then
          return .mk child pushed
      return .mk info (← pushdownAll children)
    | _, _ => return .mk info (← pushdownAll children)

def pushdownAll : List PlanNode → Except PyError (List PlanNode)
  | [] => .ok []
  | c :: cs => do
    let c' ← pushdownPredicates c
    return c' :: (← pushdownAll cs)

end

/-! ## Index selection -/

def extractScanRange : Expr → Option (Option Value × Option Value)
  | .binaryOp op _ (.literal value) =>
    -- the literal NULL holds None, which is no bound
    let val := if value.isNull then none else some value
    match op with
    | .eq => some (val, val)
    | .gt | .gte => some (val, none)
    | .lt | .lte => some (none, val)
    | _ => none
  | _ => none

def findApplicableIndex (catalog : Catalog) (tableName : String) (predicate : Expr) :
    Option IndexInfo :=
  (catalog.getIndexesForTable tableName).find? fun index =>
    index.columns.head?.elim false (· ∈ extractColumns predicate)

/-- The fields of the index scan that replaces a sequential scan. -/
def toIndexScan (info : PlanInfo) (index : IndexInfo) (predicate : Expr) : PlanInfo :=
  { info with
    type := .indexScan
    indexName := some index.name
    indexColumns := some index.columns
    scanRange := extractScanRange predicate }

/-- What `_select_indexes` makes of one node. -/
def selectIndex (catalog : Catalog) (info : PlanInfo) : Except PyError PlanInfo :=
  match info.type, info.predicate, nonempty info.tableName with
  | .seqScan, some predicate, tableName :: _ =>
    match findApplicableIndex catalog tableName predicate with
    | none => .ok info
    | some index => do
      let bits ← bitLength (atLeastOne info.estimatedRows)
      return { toIndexScan info index predicate with estimatedCost := .ofRat false (bits * 2) }
  | _, _, _ => .ok info

mutual

def selectIndexes (catalog : Catalog) : PlanNode → Except PyError PlanNode
  | .mk info children => do
    let info' ← selectIndex catalog info
    return .mk info' (← selectIndexesAll catalog children)

def selectIndexesAll (catalog : Catalog) : List PlanNode → Except PyError (List PlanNode)
  | [] => .ok []
  | c :: cs => do
    let c' ← selectIndexes catalog c
    return c' :: (← selectIndexesAll catalog cs)

end

/-! ## Planning -/

mutual

/-- No node costs less than its children. -/
def estimateCosts : PlanNode → Except PyError PlanNode
  | .mk info children => do
    let children ← estimateCostsAll children
    let childCost := children.foldl (fun sum c => sum.add c.info.estimatedCost) (.zero false)
    if !children.isEmpty && (← (Value.float info.estimatedCost).compare .lt (.float childCost)) then
      let estimatedCost ← costPlus childCost info.estimatedRows (1 / 10)
      return .mk { info with estimatedCost } children
    return .mk info children

def estimateCostsAll : List PlanNode → Except PyError (List PlanNode)
  | [] => .ok []
  | c :: cs => do
    let c' ← estimateCosts c
    return c' :: (← estimateCostsAll cs)

end

def optimize (catalog : Catalog) (plan : PlanNode) : Except PyError PlanNode := do
  let plan ← pushdownPredicates plan
  let plan ← selectIndexes catalog plan
  estimateCosts plan

def plan (catalog : Catalog) : Statement → Except PyError PlanNode
  | .select stmt => do optimize catalog (← planSelect catalog stmt)
  | .insert stmt => planInsert stmt
  | .update stmt => .ok (planUpdate stmt)
  | .delete stmt => .ok (planDelete stmt)
  | .createTable stmt => .ok (.mk { type := .createTable, statement := some (.createTable stmt) } [])
  | .dropTable stmt =>
    .ok (.mk {
      type := .dropTable
      tableName := some stmt.name
      statement := some (.dropTable stmt) } [])
  | .createIndex stmt => .ok (.mk { type := .createIndex, statement := some (.createIndex stmt) } [])
  | .explain stmt => plan catalog stmt
  | .transaction className =>
    .error (.valueError (some ("Unsupported statement type: " ++ className)))

end PySQL.Query
