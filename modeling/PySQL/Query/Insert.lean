import PySQL.Query.Executor
import PySQL.Query.Index
import PySQL.Storage.HeapInsert
import PySQL.Storage.WalNumbers

/-!
# INSERT

The values of a statement are laid out over the columns and what is missing is filled in, row by row;
an AUTOINCREMENT column takes the next number of a counter in the catalog.
-/

namespace PySQL.Query

open Lib Storage

set_option linter.unusedSectionVars false

/-- What the executor calls: Python's library, its hash of a text, and the insertion into the tree of
an index, which may be one of unique keys. -/
structure Runtime (ι : Type) where
  py : Py
  hash : String → ℤ
  insertKey (isUnique : Bool) : ι → Value → RecordId → Except PyError ι

/-- The executor with the trees of its indexes and its log. -/
structure Writer (n : ℕ) (ι : Type) where
  executor : Executor n
  indexes : Dict String ι
  wal : WALManager

/-- Calls of a writer that may raise. -/
abbrev Writes (n : ℕ) (ι : Type) : Type → Type := Effect (Writer n ι) DbError

variable {n : ℕ} [NeZero n] {ι α : Type}

/-! ## Values -/

/-- The values of a statement with a column list go to the columns named in it. -/
def placeListed (columnNames insertColumns : List String) (rowValues : Row) : Except PyError Row :=
  insertColumns.zipIdx.foldlM (fun fullRow (colName, i) => do
    let colIdx ← (columnNames.idxOf? colName).elim (.error (.valueError none)) .ok
    let value ← (rowValues[i]?).elim (.error .indexError) .ok
    return fullRow.set colIdx value) (List.replicate columnNames.length .null)

/-- A statement has a column list that is not empty. -/
def isListed (insertColumns : Option (List String)) : Bool := insertColumns.getD [] ≠ []

/-- The row as the statement gives it. -/
def placeRow (columnNames : List String) (insertColumns : Option (List String)) (rowValues : Row) :
    Except PyError Row :=
  if isListed insertColumns then placeListed columnNames (insertColumns.getD []) rowValues
  else .ok rowValues

def ColumnInfo.has (column : ColumnInfo) (constraint : ConstraintType) : Bool :=
  constraint.name ∈ column.constraints

namespace Executor

def nextAutoValue (name : String) : Exec n Value := fun x =>
  match x.catalog.incrementAutoCounter name with
  | .error e => (.error (.python e), x)
  | .ok (catalog, next) => (.ok (.int next), { x with catalog })

/-- A column of a row that was placed by a column list. -/
def fillListed (name : String) (j : ℕ) (column : ColumnInfo) (row : Row) : Exec n Row := do
  let isMissing := (row[j]?).elim false Value.isNull
  if column.has .autoincrement && isMissing then
    return row.set j (← nextAutoValue name)
  else if column.has .primaryKey && isMissing then
    -- never the case here
    if column.has .autoincrement then return row.set j (← nextAutoValue name) else return row
  else return row

/-- A column of a row that was given by position. -/
def fillPositional (name : String) (j : ℕ) (column : ColumnInfo) (row : Row) : Exec n Row := do
  if j < row.length then return row
  else if column.has .autoincrement then return row ++ [← nextAutoValue name]
  else return row ++ [.null]

def fillColumn (name : String) (listed : Bool) : ℕ → ColumnInfo → Row → Exec n Row :=
  if listed then fillListed name else fillPositional name

/-- The columns from `j` on. -/
def fillColumns (name : String) (listed : Bool) : ℕ → List ColumnInfo → Row → Exec n Row
  | _, [], row => pure row
  | j, column :: columns, row => do
    let row ← fillColumn name listed j column row
    fillColumns name listed (j + 1) columns row

/-- A heap file that is open is changed in place. -/
def onHeap (name : String) (heap : HeapFile) (m : HeapCalls n α) : Exec n α :=
  Effect.zoom (fun x => ((x.heapFiles.get? name).getD heap, x.pool))
    (fun x (heap, pool) => { x with heapFiles := x.heapFiles.set name heap, pool }) m

end Executor

namespace Writer

def onExecutor (m : Exec n α) : Writes n ι α :=
  Effect.zoom Writer.executor (fun w executor => { w with executor }) m

/-! ## Rows -/

/-- The tree of one index after a row was inserted. -/
def updateIndex (rt : Runtime ι) (values : Row) (rid : RecordId) (columnNames : List String)
    (index : IndexInfo) : Writes n ι Unit := fun w =>
  match w.indexes.get? index.name, index.columns.head?.bind columnNames.idxOf? with
  | some tree, some colIdx =>
    match (values[colIdx]?).elim (.error .indexError) (rt.insertKey index.isUnique tree · rid) with
    | .error e => (.error (.python e), w)
    | .ok tree => (.ok (), { w with indexes := w.indexes.set index.name tree })
  | _, _ => (.ok (), w)

def updateIndexesOnInsert (rt : Runtime ι) (name : String) (values : Row) (rid : RecordId)
    (columnNames : List String) : Writes n ι Unit := do
  let indexes ← Effect.read fun w => w.executor.catalog.getIndexesForTable name
  indexes.forM (updateIndex rt values rid columnNames)

def logInsert (rt : Runtime ι) (txnId : ℤ) (name : String) (rid : RecordId) : Writes n ι Unit :=
  Effect.change fun w => { w with
    wal := (w.wal.append
      (LogCall.insert txnId (rt.hash name % 2 ^ 32) rid.pageId rid.slotIndex []).record).1 }

/-- A row that was inserted, with the row as the statement gave it, and the counter of the table
after it. -/
structure Inserted where
  placed : Row
  values : Row
  rid : RecordId
  counter : ℤ
deriving DecidableEq

/-- The number that a table gave out last. -/
def autoCounter (name : String) (w : Writer n ι) : ℤ :=
  ((w.executor.catalog.getTable name).map TableInfo.autoIncrementCounter).getD 0

def insertRow (rt : Runtime ι) (name : String) (info : TableInfo) (heap : HeapFile)
    (insertColumns : Option (List String)) (txnId : ℤ) (valueExprs : List Expr) :
    Writes n ι Inserted := do
  let rowValues ← ofPython (evalExprs rt.py Dict.empty valueExprs)
  let placed ← ofPython (placeRow info.columnNames insertColumns rowValues)
  let filled ← onExecutor (Executor.fillColumns name (isListed insertColumns) 0 info.columns placed)
  let values := filled ++ nulls (info.columns.length - filled.length)
  let rid ← onExecutor (Executor.onHeap name heap (HeapFile.insert rt.py values))
  updateIndexesOnInsert rt name values rid info.columnNames
  logInsert rt txnId name rid
  let counter ← Effect.read (autoCounter name)
  return { placed, values, rid, counter }

def insertRows (rt : Runtime ι) (name : String) (info : TableInfo) (heap : HeapFile)
    (insertColumns : Option (List String)) (txnId : ℤ) : List (List Expr) → Writes n ι (List Inserted)
  | [] => pure []
  | valueExprs :: rest => do
    let row ← insertRow rt name info heap insertColumns txnId valueExprs
    let rows ← insertRows rt name info heap insertColumns txnId rest
    return row :: rows

/-- The rows that a statement inserts into a table. -/
def insertValues (rt : Runtime ι) (name : String) (node : PlanNode) (txnId : ℤ) :
    Writes n ι (TableInfo × List Inserted) := do
  let info ← onExecutor (Executor.findTable name)
  let schema ← ofPython (getSchema rt.py info)
  let heap ← onExecutor (Executor.getOrCreateHeap rt.py name schema)
  let rows ← insertRows rt name info heap node.info.insertColumns txnId (node.info.values.getD [])
  return (info, rows)

def execInsert (rt : Runtime ι) (node : PlanNode) (txnId : ℤ) : Writes n ι QueryResult := do
  let name := node.info.tableName.getD ""
  let (info, rows) ← insertValues rt name node txnId
  onExecutor (Effect.change fun x =>
    { x with
      catalog := x.catalog.updateTableStats name (info.rowCountEstimate + rows.length) })
  return {
    columns := []
    rows := []
    affectedRows := rows.length
    message := toString rows.length ++ " row(s) inserted" }

end Writer

end PySQL.Query
