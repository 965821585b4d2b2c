import PySQL.Lib.Refinement
import PySQL.Query.AutoIncrement
import PySQL.Query.Define
import PySQL.Query.IndexListing
import PySQL.Storage.HeapFamily
import PySQL.Storage.PageCount

/-!
# Sessions in which rows are only added

A session creates and drops tables, creates indexes, inserts rows, and reads tables and indexes
back.  What it is for: each table is the list of the rows that were inserted into it, and each index
lists the keys of those rows.
-/

namespace PySQL.Query

open Lib Storage

set_option linter.unusedSectionVars false

variable {n : ℕ} [NeZero n] {α : Type}

inductive SessionCall where
  | createTable (stmt : CreateTableStatement)
  | dropTable (stmt : DropTableStatement)
  | createIndex (stmt : CreateIndexStatement)
  | insert (stmt : InsertStatement) (txnId : ℤ)
  /-- The rows that a sequential scan of a table goes through. -/
  | scan (tableName : String)
  /-- The entries that a scan of a whole index goes through. -/
  | scanIndex (indexName : String)

inductive SessionReply where
  | done (result : QueryResult)
  | rows (rows : List (RecordId × Row))
  | entries (pairs : List IndexEntry)
  | raised (e : DbError)

def SessionReply.isRaised : SessionReply → Bool
  | .raised _ => true
  | _ => false

def SessionReply.ofExcept (reply : α → SessionReply) : Except DbError α → SessionReply
  | .ok a => reply a
  | .error e => .raised e

/-! ## The calls -/

namespace Writer

def scanIndex (name : String) : Writes n Index (List IndexEntry) := do
  let tree ← Effect.read fun w => w.indexes.get? name
  ofPython (tree.elim (.ok []) fun tree => tree.rangeScan none none)

def reply (reply : α → SessionReply) (m : Writes n Index α) (w : Writer n Index) :
    Writer n Index × SessionReply :=
  let r := m w
  (r.2, .ofExcept reply r.1)

def answer (rt : Runtime Index) (w : Writer n Index) : SessionCall → Writer n Index × SessionReply
  | .createTable stmt => reply .done (execCreateTable rt.py stmt) w
  | .dropTable stmt => reply .done (execDropTable stmt) w
  | .createIndex stmt => reply .done (execCreateIndex rt stmt) w
  | .insert stmt txnId => reply .done (runInsert rt txnId stmt) w
  | .scan tableName => reply .rows (onExecutor (Executor.scanTable rt.py tableName)) w
  | .scanIndex indexName => reply .entries (scanIndex indexName) w

/-- An empty database. -/
def start (n : ℕ) [NeZero n] (wal : WALManager) : Writer n Index where
  executor := { catalog := .empty, heapFiles := .empty, pool := .new (.ofFile []) }
  indexes := .empty
  wal := wal

end Writer

/-! ## What is asked of a call -/

/-- The record gives back what was put in, as far as `==` can tell, and none of it is NaN. -/
def ReadsBack (py : Py) (info : TableInfo) (values : Row) : Prop :=
  ∀ schema data, getSchema py info = .ok schema →
    RecordSerializer.serialize py schema values = .ok data →
    ∃ row, RecordSerializer.deserialize py schema data = .ok row ∧
      row.map Value.key = values.map Value.key ∧ ∀ v ∈ values, v.key.isSome

/-- Tables have columns, rows read back, and the index that is read is there. -/
def SessionCall.Sound (rt : Runtime Index) (w : Writer n Index) : SessionCall → Prop
  | .createTable stmt => stmt.columns ≠ []
  | .insert stmt txnId => ∀ info, w.executor.catalog.getTable stmt.table = some info →
    ∀ r ∈ Writer.insertedRows rt txnId stmt w, ReadsBack rt.py info r.values
  | .scanIndex indexName => (w.executor.catalog.indexes.get? indexName).isSome
  | .dropTable _ | .createIndex _ | .scan _ => True

/-- The call succeeds, and page numbers are left after it. -/
structure Writer.Admits (rt : Runtime Index) (w : Writer n Index) (call : SessionCall) : Prop where
  succeeds : (w.answer rt call).2.isRaised = false
  numbered : (w.answer rt call).1.executor.pool.numPages < INVALID_PAGE_ID
  sound : call.Sound rt w

def sessionMachine (n : ℕ) [NeZero n] (rt : Runtime Index) (wal : WALManager) :
    Machine (Writer n Index) SessionCall SessionReply where
  init := .start n wal
  enabled := Writer.Admits rt
  step := Writer.answer rt

/-! ## What a session is for -/

/-- A table with the rows that were inserted into it. -/
structure Relation where
  columns : List ColumnInfo
  rows : List (RecordId × Row)

def Relation.add (r : Relation) (added : List (RecordId × Row)) : Relation :=
  { r with rows := r.rows ++ added }

/-- The place of the column that an index is on. -/
def Relation.column? (r : Relation) (index : IndexInfo) : Option ℕ :=
  index.columns.head?.bind (r.columns.map ColumnInfo.name).idxOf?

/-- What an index on the column has for a row. -/
def indexEntry (c : ℕ) (p : RecordId × Row) : Option IndexEntry :=
  (p.2[c]?.bind Value.key).map (·, p.1)

/-- The entries of an index on the table; an index on no column of it has none. -/
def Relation.entries (r : Relation) (index : IndexInfo) : List IndexEntry :=
  match r.column? index with
  | none => []
  | some c => r.rows.filterMap (indexEntry c)

structure Contents where
  tables : String → Option Relation
  indexes : String → Option IndexInfo

namespace Contents

def empty : Contents := ⟨fun _ => none, fun _ => none⟩

def entries (d : Contents) (index : IndexInfo) : List IndexEntry :=
  (d.tables index.tableName).elim [] fun r => r.entries index

def put (d : Contents) (name : String) (r : Relation) : Contents :=
  { d with tables := Function.update d.tables name (some r) }

def addIndex (d : Contents) (index : IndexInfo) : Contents :=
  { d with indexes := Function.update d.indexes index.name (some index) }

/-- A table is dropped with its indexes. -/
def drop (d : Contents) (name : String) : Contents where
  tables := Function.update d.tables name none
  indexes indexName := (d.indexes indexName).filter fun index => index.tableName ≠ name

/-- With the index of the primary key of a table. -/
def addPrimaryIndex (d : Contents) (info : TableInfo) : Contents :=
  match info.primaryKey with
  | some key => if key ≠ "" then d.addIndex (primaryIndex info.name key) else d
  | none => d

/-- A new table. -/
def create (d : Contents) (info : TableInfo) : Contents :=
  (d.put info.name ⟨info.columns, []⟩).addPrimaryIndex info

end Contents

/-- A place that a statement leaves out, or fills with NULL in a column that counts, gets a number
there and NULL elsewhere. -/
def Supplied (column : ColumnInfo) (before after : Option Value) : Prop :=
  after = before ∨ (before = none ∧ after = some .null) ∨
    (column.has .autoincrement = true ∧ (∀ v ∈ before, v.isNull = true) ∧
      ∃ k, after = some (.int k))

/-- The row that a list of expressions stands for, as far as `==` can tell. -/
def Gives (py : Py) (columns : List ColumnInfo) (insertColumns : Option (List String))
    (valueExprs : List Expr) (row : Row) : Prop :=
  ∃ rowValues placed values : Row, evalExprs py Dict.empty valueExprs = .ok rowValues ∧
    placeRow (columns.map ColumnInfo.name) insertColumns rowValues = .ok placed ∧
    (∀ (j : ℕ) (column : ColumnInfo), columns[j]? = some column →
      Supplied column placed[j]? values[j]?) ∧
    row.map Value.key = values.map Value.key

/-- What a call may answer, and the contents after it. -/
inductive SessionAnswers (py : Py) (d : Contents) :
    SessionCall → SessionReply → Contents → Prop where
  | create {stmt : CreateTableStatement} (hnew : d.tables stmt.name = none) :
      SessionAnswers py d (.createTable stmt)
        (.done (messageResult ("Table '" ++ stmt.name ++ "' created successfully")))
        (d.create (declaredTable py stmt))
  | createSkipped {stmt : CreateTableStatement} (hold : (d.tables stmt.name).isSome)
      (hskip : stmt.ifNotExists = true) : SessionAnswers py d (.createTable stmt)
        (.done (messageResult ("Table '" ++ stmt.name ++ "' already exists (skipped)"))) d
  | drop {stmt : DropTableStatement} (hold : (d.tables stmt.name).isSome) :
      SessionAnswers py d (.dropTable stmt)
        (.done (messageResult ("Table '" ++ stmt.name ++ "' dropped successfully")))
        (d.drop stmt.name)
  | dropSkipped {stmt : DropTableStatement} (hnew : d.tables stmt.name = none)
      (hskip : stmt.ifExists = true) : SessionAnswers py d (.dropTable stmt)
        (.done (messageResult ("Table '" ++ stmt.name ++ "' does not exist (skipped)"))) d
  | createIndex {stmt : CreateIndexStatement} (hnew : d.indexes stmt.name = none) :
      SessionAnswers py d (.createIndex stmt)
        (.done (messageResult ("Index '" ++ stmt.name ++ "' created on " ++ stmt.table ++ "(" ++
          ", ".intercalate stmt.columns ++ ")")))
        (d.addIndex (declaredIndex stmt))
  | insert {stmt : InsertStatement} {txnId : ℤ} {r : Relation} {added : List (RecordId × Row)}
      (ht : d.tables stmt.table = some r)
      (hgives : List.Forall₂ (fun valueExprs p =>
        Gives py r.columns stmt.columns valueExprs p.2) stmt.values added)
      (hfresh : ((r.rows ++ added).map Prod.fst).Nodup) :
      SessionAnswers py d (.insert stmt txnId)
        (.done {
          columns := []
          rows := []
          affectedRows := added.length
          message := toString added.length ++ " row(s) inserted" })
        (d.put stmt.table (r.add added))
  | scan {tableName : String} {r : Relation} {rows : List (RecordId × Row)}
      (ht : d.tables tableName = some r) (hrows : rows.Perm r.rows) :
      SessionAnswers py d (.scan tableName) (.rows rows) d
  | scanIndex {indexName : String} {index : IndexInfo} {pairs : List IndexEntry}
      (hindex : d.indexes indexName = some index)
      (hpairs : IndexListing (d.entries index) index.isUnique pairs) :
      SessionAnswers py d (.scanIndex indexName) (.entries pairs) d

/-- Tables as lists of rows, and indexes as listings of their keys. -/
def sessionStore (py : Py) : Specification Contents SessionCall SessionReply where
  init := .empty
  step := SessionAnswers py

/-! ## A database and what it stands for -/

/-- The file holds these rows, each in a record of its own. -/
structure HoldsRows (py : Py) (heap : HeapFile) (written : ℤ → Option Page)
    (rows : List (RecordId × Row)) : Prop where
  nodup : (rows.map Prod.fst).Nodup
  mem_iff : ∀ rid row, (rid, row) ∈ rows ↔ ∃ data, heap.recordAt written rid = some data ∧
    RecordSerializer.deserialize py heap.schema data = .ok row
  readable : ∀ rid data, heap.recordAt written rid = some data →
    ∃ row, RecordSerializer.deserialize py heap.schema data = .ok row
  keyed : ∀ p ∈ rows, ∀ v ∈ p.2, v.key.isSome

namespace Writer

/-- A table that there is has an open heap file with its rows. -/
def TableAt (py : Py) (w : Writer n Index) (written : ℤ → Option Page) (name : String) :
    Option Relation → Prop
  | none => w.executor.catalog.getTable name = none ∧ w.executor.heapFiles.get? name = none
  | some r => ∃ info heap, w.executor.catalog.getTable name = some info ∧
    info.columns = r.columns ∧ w.executor.heapFiles.get? name = some heap ∧
    getSchema py info = .ok heap.schema ∧ HoldsRows py heap written r.rows

/-- The tree of an index that there is lists the keys of the rows. -/
def IndexAt (w : Writer n Index) (name : String) (index : IndexInfo)
    (entries : List IndexEntry) : Prop :=
  index.name = name ∧ ∃ tree listed, w.indexes.get? name = some tree ∧
    Index.Lists index.isUnique tree listed ∧ listed.Perm entries

/-- Every table has its rows, and the catalog has the indexes. -/
structure Stores (py : Py) (w : Writer n Index) (written : ℤ → Option Page) (d : Contents) :
    Prop where
  serves : w.executor.pool.Serves [] written
  family : HeapFile.Family w.executor.heapFiles.get? written
  packed : HeapFile.AllPacked w.executor.heapFiles.get? written
  tables : ∀ name, w.TableAt py written name (d.tables name)
  known : w.executor.catalog.indexes.get? = d.indexes

/-- And every index has its entries. -/
structure StandsFor (py : Py) (w : Writer n Index) (written : ℤ → Option Page) (d : Contents) :
    Prop extends w.Stores py written d where
  indexes : ∀ name index, d.indexes name = some index → w.IndexAt name index (d.entries index)

theorem standsFor_start (py : Py) (wal : WALManager) :
    (start n wal).StandsFor py (writtenAtFirst []) .empty where
  serves := coherent_init ⟨rfl, by simp⟩
  family := HeapFile.family_none
  packed := by
    intro name heap h
    cases h
  tables _ := ⟨rfl, rfl⟩
  known := rfl
  indexes := by
    intro name index h
    cases h

end Writer

end PySQL.Query
