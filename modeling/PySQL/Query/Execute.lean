import PySQL.Query.Index
import PySQL.Query.Operators
import PySQL.Query.Planner

/-!
# Executing queries

The plan nodes that only read.  What they read of the database is its catalog, the rows of its
tables and its indexes.
-/

namespace PySQL.Query

open Lib Storage

/-- What a query reads.  The scan of a table may raise, and so may reading a record. -/
structure Source where
  catalog : Catalog
  /-- The live rows of a table in scan order. -/
  scan : String → Except PyError (List (RecordId × Row))
  /-- The row under a record id of a table, none if it is deleted. -/
  read : String → RecordId → Except PyError (Option Row)
  indexes : Dict String Index
  /-- A row has a value for each column of its table. -/
  width : ∀ {name table live}, catalog.getTable name = some table → scan name = .ok live →
    ∀ p ∈ live, p.2.length = table.columns.length

def noSuchTable (name : String) : PyError := .runtimeError ("Table '" ++ name ++ "' does not exist")

def execSeqScan (py : Py) (src : Source) (info : PlanInfo) : Except PyError QueryResult :=
  let tableName := info.tableName.getD ""
  match src.catalog.getTable tableName with
  | none => .error (noSuchTable tableName)
  | some table => do
    let columns := table.columnNames
    let live ← src.scan tableName
    let rows ← filterE (fun values => evalPredicate py info.predicate (rowDict columns values))
      (live.map Prod.snd)
    return { columns, rows }

/-- The rows of the records that an index names; an empty row counts as deleted. -/
def readRows (src : Source) (tableName : String) (rids : List RecordId) : Except PyError (List Row) := do
  let found ← mapE (src.read tableName) rids
  return found.filterMap fun row => row.filter (· ≠ [])

def execIndexScan (py : Py) (src : Source) (info : PlanInfo) : Except PyError QueryResult :=
  let tableName := info.tableName.getD ""
  match src.catalog.getTable tableName with
  | none => .error (noSuchTable tableName)
  | some table =>
    match src.indexes.get? (info.indexName.getD "") with
    | none => execSeqScan py src info
    | some idx => do
      let columns := table.columnNames
      match info.scanRange with
      | some (low, high) =>
        let rows ← readRows src tableName ((← idx.rangeScan low high).map Prod.snd)
        return { columns, rows }
      | none =>
        let all ← readRows src tableName ((← idx.rangeScan none none).map Prod.snd)
        let rows ← filterE (fun values => evalPredicate py info.predicate (rowDict columns values)) all
        return { columns, rows }

/-- A SELECT, or what is below an UPDATE. -/
def executeNode (py : Py) (src : Source) : PlanNode → Except PyError QueryResult
  | .mk info children =>
    match info.type, children with
    | .seqScan, _ => execSeqScan py src info
    | .indexScan, _ => execIndexScan py src info
    | .values, _ => .ok { columns := [], rows := [[]] }
    | .filter, c :: _ => do execFilter py info.predicate (← executeNode py src c)
    | .project, c :: _ => do execProject py info.columns (← executeNode py src c)
    | .sort, c :: _ => do execSort py info.sortKeys (← executeNode py src c)
    | .limit, c :: _ => do return execLimit info.limit info.offset (← executeNode py src c)
    | .distinct, c :: _ => do return execDistinct (← executeNode py src c)
    | .aggregate, c :: _ => do
      execAggregate py info.groupBy info.aggregates (← executeNode py src c)
    | .nestedLoopJoin, l :: r :: _ => do
      let left ← executeNode py src l
      let right ← executeNode py src r
      execNestedLoopJoin py (info.joinType.getD .inner) info.joinCondition left right
    | .hashJoin, l :: r :: _ => do
      let left ← executeNode py src l
      let right ← executeNode py src r
      execHashJoin py (info.joinType.getD .inner) info.joinCondition left right
    | .nestedLoopJoin, [c] | .hashJoin, [c] => do
      let _ ← executeNode py src c
      throw .indexError
    | .filter, [] | .project, [] | .sort, [] | .limit, [] | .distinct, [] | .aggregate, []
    | .nestedLoopJoin, [] | .hashJoin, [] => .error .indexError
    | _, _ => .error (.runtimeError "Unsupported plan node type")

end PySQL.Query
