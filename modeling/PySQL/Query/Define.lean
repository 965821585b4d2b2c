import PySQL.Query.Insert

/-!
# CREATE TABLE, DROP TABLE and CREATE INDEX

A table gets a heap file with one page, and the tree of its primary key.  The tree of a new index is
filled from the rows that there are.
-/

namespace PySQL.Query

open Lib Storage

set_option linter.unusedSectionVars false

variable {n : ℕ} [NeZero n] {ι α : Type}

def messageResult (message : String) : QueryResult := { columns := [], rows := [], message }

/-! ## What a statement declares -/

def columnInfo (py : Py) (column : ColumnDef) : ColumnInfo where
  name := column.name
  type := py.upper column.dataType
  constraints := column.constraints.map ConstraintType.name

/-- The last column that is declared to be the primary key. -/
def declaredKey (columns : List ColumnDef) : Option String :=
  columns.foldl (fun key column =>
    if ConstraintType.primaryKey ∈ column.constraints then some column.name else key) none

def declaredTable (py : Py) (stmt : CreateTableStatement) : TableInfo where
  name := stmt.name
  columns := stmt.columns.map (columnInfo py)
  primaryKey := declaredKey stmt.columns

def primaryIndex (tableName key : String) : IndexInfo where
  name := "pk_" ++ tableName ++ "_" ++ key
  tableName := tableName
  columns := [key]
  isUnique := true
  isPrimary := true

def declaredIndex (stmt : CreateIndexStatement) : IndexInfo where
  name := stmt.name
  tableName := stmt.table
  columns := stmt.columns
  isUnique := stmt.unique

namespace Writer

/-- A call of the catalog, which raises before it has changed anything. -/
def onCatalog (f : Catalog → Except PyError Catalog) : Writes n ι Unit := fun w =>
  match f w.executor.catalog with
  | .error e => (.error (.python e), w)
  | .ok catalog => (.ok (), { w with executor := { w.executor with catalog } })

def putIndex (name : String) (tree : ι) : Writes n ι Unit :=
  Effect.change fun w => { w with indexes := w.indexes.set name tree }

/-- `BPlusTree(order=64)` under a name, and its entry in the catalog. -/
def addIndex (index : IndexInfo) : Writes n Index Unit := do
  putIndex index.name Index.new
  onCatalog fun c => c.createIndex index

def tableExists (name : String) : Writes n ι Bool :=
  Effect.read fun w => w.executor.catalog.tableExists name

/-! ## Tables -/

/-- The index of the primary key; an empty name counts as none. -/
def addPrimaryIndex (info : TableInfo) : Writes n Index Unit :=
  match info.primaryKey with
  | some key => if key ≠ "" then addIndex (primaryIndex info.name key) else pure ()
  | none => pure ()

/-- The table of a name that is not taken. -/
def createTable (py : Py) (info : TableInfo) : Writes n Index Unit := do
  let schema ← ofPython (getSchema py info)
  let heap ← onExecutor (Executor.onPool (HeapFile.init schema none))
  onCatalog fun c => c.createTable { info with firstPageId := heap.firstPageId }
  onExecutor (Executor.keepHeap info.name heap)
  addPrimaryIndex info

def execCreateTable (py : Py) (stmt : CreateTableStatement) : Writes n Index QueryResult := do
  if ← tableExists stmt.name then
    if stmt.ifNotExists then
      return messageResult ("Table '" ++ stmt.name ++ "' already exists (skipped)")
    else
      ofPython (.error (.runtimeError ("Table '" ++ stmt.name ++ "' already exists")))
  else do
    createTable py (declaredTable py stmt)
    return messageResult ("Table '" ++ stmt.name ++ "' created successfully")

/-- The pages of the table stay in the file. -/
def dropTable (name : String) : Writes n ι Unit := do
  let indexes ← Effect.read fun w => w.executor.catalog.getIndexesForTable name
  Effect.change fun w =>
    { w with indexes := indexes.foldl (fun trees index => trees.erase index.name) w.indexes }
  onExecutor (Effect.change fun x => { x with heapFiles := x.heapFiles.erase name })
  onCatalog fun c => c.dropTable name

def execDropTable (stmt : DropTableStatement) : Writes n ι QueryResult := do
  if ← tableExists stmt.name then do
    dropTable stmt.name
    return messageResult ("Table '" ++ stmt.name ++ "' dropped successfully")
  else if stmt.ifExists then
    return messageResult ("Table '" ++ stmt.name ++ "' does not exist (skipped)")
  else
    ofPython (.error (noSuchTable stmt.name))

/-! ## Indexes -/

/-- `idx.insert_unique(key, rid)` or `idx.insert(key, rid)` for the tree under a name. -/
def insertKey (rt : Runtime ι) (name : String) (isUnique : Bool) (key : Value) (rid : RecordId) :
    Writes n ι Unit := fun w =>
  match w.indexes.get? name with
  | none => (.ok (), w)
  | some tree =>
    match rt.insertKey isUnique tree key rid with
    | .error e => (.error (.python e), w)
    | .ok tree => (.ok (), { w with indexes := w.indexes.set name tree })

/-- One record that the scan comes to. -/
def indexRecord (rt : Runtime ι) (heap : HeapFile) (index : IndexInfo) (colIdx : ℕ)
    (rid : RecordId) (data : Bytes) : Writes n ι Unit := do
  let values ← ofPython (RecordSerializer.deserialize rt.py heap.schema data)
  let key ← ofPython ((values[colIdx]?).elim (.error .indexError) .ok)
  insertKey rt index.name index.isUnique key rid

/-- `for rid, values in heap.scan()` -/
def indexRecords (rt : Runtime ι) (heap : HeapFile) (index : IndexInfo) (colIdx : ℕ) :
    List ℕ → Writes n ι Unit
  | [] => pure ()
  | pageId :: rest => do
    let page ← onExecutor (Executor.onPool do
      let page ← HeapFile.fetchPage pageId
      HeapFile.unpinPage pageId false
      return page)
    page.liveRecords.forM fun record =>
      indexRecord rt heap index colIdx ⟨pageId, record.1⟩ record.2
    indexRecords rt heap index colIdx rest

/-- Fill the tree of a new index. -/
def fillIndex (rt : Runtime ι) (index : IndexInfo) : Writes n ι Unit := do
  match ← onExecutor (Executor.getHeapFile rt.py index.tableName) with
  | none => pure ()
  | some heap => do
    let columnNames ← Effect.read fun w =>
      ((w.executor.catalog.getTable index.tableName).map TableInfo.columnNames).getD []
    let column ← ofPython (index.columns.head?.elim (.error .indexError) .ok)
    match columnNames.idxOf? column with
    | none => pure ()
    | some colIdx => indexRecords rt heap index colIdx heap.pageIds

def execCreateIndex (rt : Runtime Index) (stmt : CreateIndexStatement) :
    Writes n Index QueryResult := do
  addIndex (declaredIndex stmt)
  fillIndex rt (declaredIndex stmt)
  return messageResult ("Index '" ++ stmt.name ++ "' created on " ++ stmt.table ++ "(" ++
    ", ".intercalate stmt.columns ++ ")")

end Writer

end PySQL.Query
