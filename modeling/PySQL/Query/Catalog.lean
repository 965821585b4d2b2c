import PySQL.Lib.Dict
import PySQL.Query.Value

/-!
# The catalog

What the database knows of its tables and indexes.  A call returns the catalog as it is left, or
raises before it has changed anything.
-/

namespace PySQL.Query

open Lib

structure IndexInfo where
  name : String
  tableName : String
  columns : List String
  isUnique : Bool := false
  isPrimary : Bool := false
deriving DecidableEq, Repr

structure ColumnInfo where
  name : String
  type : String
  constraints : List String
deriving DecidableEq, Repr

structure TableInfo where
  name : String
  columns : List ColumnInfo
  primaryKey : Option String := none
  firstPageId : ℤ := -1
  indexes : List IndexInfo := []
  autoIncrementCounter : ℤ := 0
  rowCountEstimate : ℤ := 0
deriving DecidableEq, Repr

def TableInfo.columnNames (t : TableInfo) : List String := t.columns.map ColumnInfo.name

structure Catalog where
  tables : Dict String TableInfo
  indexes : Dict String IndexInfo

namespace Catalog

def empty : Catalog := ⟨.empty, .empty⟩

def getTable (c : Catalog) (name : String) : Option TableInfo := c.tables.get? name

def tableExists (c : Catalog) (name : String) : Bool := (c.getTable name).isSome

def createTable (c : Catalog) (info : TableInfo) : Except PyError Catalog :=
  if c.tableExists info.name then
    .error (.valueError (some ("Table '" ++ info.name ++ "' already exists")))
  else .ok { c with tables := c.tables.set info.name info }

def dropTable (c : Catalog) (name : String) : Except PyError Catalog :=
  if c.tableExists name then
    .ok {
      tables := c.tables.erase name
      indexes := c.indexes.filterMap fun _ idx => if idx.tableName = name then none else some idx }
  else .error (.valueError (some ("Table '" ++ name ++ "' does not exist")))

/-- Assign to fields of a table that exists. -/
def updateTable (c : Catalog) (name : String) (f : TableInfo → TableInfo) : Catalog :=
  match c.getTable name with
  | none => c
  | some info => { c with tables := c.tables.set name (f info) }

def createIndex (c : Catalog) (info : IndexInfo) : Except PyError Catalog :=
  if (c.indexes.get? info.name).isSome then
    .error (.valueError (some ("Index '" ++ info.name ++ "' already exists")))
  else
    .ok (updateTable { c with indexes := c.indexes.set info.name info } info.tableName
      fun t => { t with indexes := t.indexes ++ [info] })

def getIndexesForTable (c : Catalog) (tableName : String) : List IndexInfo :=
  c.indexes.values.filter fun idx => idx.tableName = tableName

def updateTableStats (c : Catalog) (tableName : String) (rowCount : ℤ) : Catalog :=
  c.updateTable tableName fun t => { t with rowCountEstimate := rowCount }

/-- The next value with the catalog that has counted it. -/
def incrementAutoCounter (c : Catalog) (tableName : String) : Except PyError (Catalog × ℤ) :=
  match c.getTable tableName with
  | none => .error (.valueError (some ("Table '" ++ tableName ++ "' does not exist")))
  | some info =>
    let next := info.autoIncrementCounter + 1
    .ok (c.updateTable tableName fun t => { t with autoIncrementCounter := next }, next)

def updateFirstPageId (c : Catalog) (tableName : String) (pageId : ℤ) : Catalog :=
  c.updateTable tableName fun t => { t with firstPageId := pageId }

end Catalog

theorem getTable_updateTable {name : String} (c : Catalog) (f : TableInfo → TableInfo)
    (other : String) :
    (c.updateTable name f).getTable other =
      if other = name then (c.getTable other).map f else c.getTable other := by
  unfold Catalog.updateTable
  cases hname : c.getTable name with
  | none =>
    simp only
    split
    · next heq => rw [heq, hname, Option.map_none]
    · rfl
  | some info =>
    simp only [Catalog.getTable, Dict.get?_set]
    by_cases heq : other = name
    · subst heq
      rw [if_pos rfl, if_pos rfl, show c.tables.get? other = some info from hname]
      rfl
    · rw [if_neg (Ne.symm heq), if_neg heq]

end PySQL.Query
