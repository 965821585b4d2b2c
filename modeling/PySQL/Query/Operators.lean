import PySQL.Lib.Fallible
import PySQL.Lib.Join
import PySQL.Query.Expr

/-!
# Operators over the results of their children

The executor's filter and joins.  A row is a list of values under the column names of its result.
-/

namespace PySQL.Query

open Lib

structure QueryResult where
  columns : List String
  rows : List Row
  affectedRows : ℕ := 0
  message : String := ""
deriving DecidableEq

/-- Every row has a value for each column. -/
def QueryResult.Rectangular (res : QueryResult) : Prop :=
  ∀ row ∈ res.rows, row.length = res.columns.length

/-- `[NULL] * n`. -/
def nulls (n : ℕ) : Row := List.replicate n .null

@[simp] theorem length_nulls (n : ℕ) : (nulls n).length = n := List.length_replicate

def execFilter (py : Py) (predicate : Option Expr) (child : QueryResult) :
    Except PyError QueryResult := do
  let rows ← filterE (fun row => evalPredicate py predicate (rowDict child.columns row)) child.rows
  return { columns := child.columns, rows }

/-- The columns of a select list item: all of the child's for `*`, those of one table for
`table.*`. -/
def starColumns (table : Option String) (columns : List String) : List Bool :=
  columns.map fun c =>
    match table with
    | none | some "" => true
    | some t => (t ++ ".").toList.isPrefixOf c.toList || !c.toList.contains '.'

/-- `f"{name}({', '.join(str(a) for a in args)})"` -/
def callText (py : Py) (name : String) (args : List Expr) : String :=
  name ++ "(" ++ String.intercalate ", " (args.map py.repr) ++ ")"

def outputColumns (py : Py) (columns : List String) : SelectItem → List String
  | (.starExpr table, _) =>
    ((columns.zip (starColumns table columns)).filter Prod.snd).map Prod.fst
  | (expr, aliasName) =>
    match aliasName, expr with
    | some "", .columnRef _ column | none, .columnRef _ column => [column]
    | some "", .functionCall name args _ _ | none, .functionCall name args _ _ => [callText py name args]
    | some "", e | none, e => [py.repr e]
    | some name, _ => [name]

def projectItem (py : Py) (columns : List String) (row : Row) : SelectItem → Except PyError Row
  | (.starExpr none, _) | (.starExpr (some ""), _) => .ok row
  | (.starExpr table, _) =>
    mapE (fun i => (row[i]?).elim (.error .indexError) .ok)
      ((starColumns table columns).zipIdx.filterMap fun c => if c.1 then some c.2 else none)
  | (expr, _) => do return [← evalExpr py (rowDict columns row) expr]

def execProject (py : Py) (columns : Option (List SelectItem)) (child : QueryResult) :
    Except PyError QueryResult :=
  match columns with
  | none | some [] => .ok child
  | some items => do
    let rows ← mapE (fun row => do
      return (← mapE (projectItem py child.columns row) items).flatten) child.rows
    return { columns := items.flatMap (outputColumns py child.columns), rows }

/-! ## Order, limit and duplicates -/

/-- The sort key of a row: NULLs come last, and numbers in descending columns are negated. -/
def sortKey (py : Py) (columns : List String) (sortKeys : List (Expr × Bool)) (row : Row) :
    Except PyError (List (Option Value)) :=
  mapE (fun (expr, desc) => do
    let val ← evalExpr py (rowDict columns row) expr
    if val.isNull then return none
    if desc && val.num.isSome then return some (← val.negate)
    match desc, val with
    | true, .float x => return some (.float x.neg)
    | _, _ => return some val) sortKeys

/-- `a < b` of two sort keys: the first components that differ decide. -/
def sortKeyLess : List (Option Value) → List (Option Value) → Except PyError Bool
  | none :: as, none :: bs => sortKeyLess as bs
  | none :: _, some _ :: _ => .ok false
  | some _ :: _, none :: _ => .ok true
  | some a :: as, some b :: bs => if a.eq b then sortKeyLess as bs else a.compare .lt b
  | [], [] => .ok false
  | [], _ :: _ => .ok true
  | _ :: _, [] => .ok false

/-- A stable sort, which raises if two of the keys cannot be compared. -/
def execSort (py : Py) (sortKeys : Option (List (Expr × Bool))) (child : QueryResult) :
    Except PyError QueryResult :=
  match sortKeys with
  | none | some [] => .ok child
  | some keys => do
    let keyed ← mapE (fun row => do
      return (← sortKey py child.columns keys row, row)) child.rows
    if keyed.any fun a => keyed.any fun b => !(sortKeyLess a.1 b.1).isOk then
      throw .typeError
    let sorted := (keyed.mergeSort fun a b => !isTrue (sortKeyLess b.1 a.1)).map Prod.snd
    return { child with rows := if keys.all Prod.snd then sorted.reverse else sorted }

/-- An offset or a limit that is missing or 0 counts as not given. -/
def execLimit (limit offset : Option ℤ) (child : QueryResult) : QueryResult :=
  let start := offset.getD 0
  let count := match limit with
    | none | some 0 => (child.rows.length : ℤ)
    | some n => n
  { columns := child.columns, rows := slice child.rows start (start + count) }

/-- `a == b` of two tuples of values. -/
def tupleEq (a b : List Value) : Bool := a.length == b.length && (a.zip b).all fun p => p.1.eq p.2

/-- The tuple by which DISTINCT tells rows apart: NULL is its text. -/
def distinctKey (row : Row) : List Value := row.map fun v => if v.isNull then .str "NULL" else v

def execDistinct (child : QueryResult) : QueryResult :=
  let unique := child.rows.foldl (fun kept row =>
    if kept.any fun r => tupleEq (distinctKey r) (distinctKey row) then kept else kept ++ [row]) []
  { columns := child.columns, rows := unique }

/-! ## Aggregates -/

/-- `sum(values)` -/
def sumValues (values : List Value) : Except PyError Value :=
  values.foldlM Value.add (.int 0)

/-- `min(values)` and `max(values)`: the first value that none is `op` than. -/
def bestValue (op : Value.CompareOp) : List Value → Except PyError Value
  | [] => .error (.valueError none)
  | v :: vs => vs.foldlM (fun best w => do return if ← w.compare op best then w else best) v

def computeAggregate (py : Py) (columns : List String) (rows : List Row) :
    Expr → Except PyError Value
  | .functionCall name args _ _ => do
    let func := py.upper name
    if func = "COUNT" ∧ (args matches [] | .starExpr _ :: _) then return .int rows.length
    let values ← mapE (fun row =>
      match args with
      | arg :: _ => evalExpr py (rowDict columns row) arg
      | [] => .error .indexError) rows
    let values := values.filter fun v => !v.isNull
    if func = "COUNT" then return .int values.length
    if values.isEmpty then return .null
    match func with
    | "SUM" => sumValues values
    | "AVG" => (← sumValues values).div (.int values.length)
    | "MIN" => bestValue .lt values
    | "MAX" => bestValue .gt values
    | _ => throw (.runtimeError ("Unknown aggregate function: " ++ func))
  | _ => .error .attributeError

/-- Put a row into the group of its key. -/
def groupInsert (key : List Value) (row : Row) :
    List (List Value × List Row) → List (List Value × List Row)
  | [] => [(key, [row])]
  | (k, rows) :: rest =>
    if tupleEq k key then (k, rows ++ [row]) :: rest else (k, rows) :: groupInsert key row rest

def aggregateColumns (py : Py) (groupBy aggregates : List Expr) : List String :=
  (groupBy.map fun
    | .columnRef _ column => column
    | e => py.repr e) ++
  aggregates.map fun
    | .functionCall name args _ _ => callText py name args
    | e => py.repr e

def execAggregate (py : Py) (groupBy aggregates : Option (List Expr)) (child : QueryResult) :
    Except PyError QueryResult := do
  let groupBy := groupBy.getD []
  let aggregates := aggregates.getD []
  let groups ← child.rows.foldlM (fun groups row => do
    let key ← mapE (evalExpr py (rowDict child.columns row)) groupBy
    return groupInsert key row groups) []
  -- without GROUP BY there is one row even of no rows
  let groups := if groups.isEmpty && groupBy.isEmpty then [([], [])] else groups
  let rows ← mapE (fun (key, members) => do
    return key ++ (← mapE (computeAggregate py child.columns members) aggregates)) groups
  let columns := aggregateColumns py groupBy aggregates
  return { columns := if columns.isEmpty then child.columns else columns, rows }

/-! ## Joins -/

/-- Whether a left row keeps its place in the result without a partner. -/
def JoinType.keepsLeft (joinType : JoinType) : Bool := joinType = .left || joinType = .full

def JoinType.keepsRight (joinType : JoinType) : Bool := joinType = .right || joinType = .full

/-- The condition on a pair of rows; no condition is always true. -/
def onPair (py : Py) (condition : Option Expr) (left right : QueryResult) (l r : Row) :
    Except PyError Bool :=
  evalPredicate py condition (rowDict (left.columns ++ right.columns) (l ++ r))

/-- The rows that the first loop makes of a left row. -/
def joinLeftRow (py : Py) (joinType : JoinType) (condition : Option Expr)
    (left right : QueryResult) (l : Row) : Except PyError (List Row) := do
  let partners ← filterE (onPair py condition left right l) right.rows
  return partners.map (l ++ ·) ++
    if partners.isEmpty && joinType.keepsLeft then [l ++ nulls right.columns.length] else []

/-- The second loop: whether a right row has no match. -/
def lacksMatch (py : Py) (condition : Option Expr) (left right : QueryResult) (r : Row) :
    Except PyError Bool :=
  (anyE (fun l => onPair py condition left right l r) left.rows).map (!·)

def execNestedLoopJoin (py : Py) (joinType : JoinType) (condition : Option Expr)
    (left right : QueryResult) : Except PyError QueryResult := do
  let joined ← mapE (joinLeftRow py joinType condition left right) left.rows
  let unmatched ←
    if joinType.keepsRight then filterE (lacksMatch py condition left right) right.rows
    else pure []
  return {
    columns := left.columns ++ right.columns
    rows := joined.flatten ++ unmatched.map (nulls left.columns.length ++ ·) }

/-- The columns of a condition `left = right` between two columns. -/
def joinKeys : Option Expr → Option (String × String)
  | some (.binaryOp .eq (.columnRef _ left) (.columnRef _ right)) => some (left, right)
  | _ => none

/-- The rows of the hash table, under the first key that each key equals. -/
def hashInsert (key : Value) (row : Row) : List (Value × List Row) → List (Value × List Row)
  | [] => [(key, [row])]
  | (k, rows) :: rest =>
    if k.eq key then (k, rows ++ [row]) :: rest else (k, rows) :: hashInsert key row rest

/-- `hash_table.get(key, [])`. -/
def hashGet (key : Value) (table : List (Value × List Row)) : List Row :=
  ((table.find? fun entry => entry.1.eq key).map Prod.snd).getD []

/-- `row[i]`. -/
def cell (i : ℕ) (row : Row) : Except PyError Value := (row[i]?).elim (.error .indexError) .ok

def buildTable (i : ℕ) (rows : List Row) : Except PyError (List (Value × List Row)) :=
  rows.foldlM (fun table row => do return hashInsert (← cell i row) row table) []

/-- The positions of the two key columns, none if the join falls back to nested loops. -/
def keyColumns (condition : Option Expr) (left right : QueryResult) : Option (ℕ × ℕ) :=
  (joinKeys condition).bind fun keys =>
    (left.columns.idxOf? keys.1).bind fun i => (right.columns.idxOf? keys.2).map (i, ·)

/-- The rows that the probe phase makes of a left row. -/
def probeRow (joinType : JoinType) (i : ℕ) (table : List (Value × List Row)) (right : QueryResult)
    (l : Row) : Except PyError (List Row) := do
  let partners := hashGet (← cell i l) table
  return if !partners.isEmpty then partners.map (l ++ ·)
    else if joinType.keepsLeft then [l ++ nulls right.columns.length] else []

def execHashJoin (py : Py) (joinType : JoinType) (condition : Option Expr)
    (left right : QueryResult) : Except PyError QueryResult :=
  match keyColumns condition left right with
  | none => execNestedLoopJoin py joinType condition left right
  | some (i, j) => do
    let table ← buildTable j right.rows
    let joined ← mapE (probeRow joinType i table right) left.rows
    return { columns := left.columns ++ right.columns, rows := joined.flatten }

end PySQL.Query
