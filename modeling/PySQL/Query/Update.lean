import PySQL.Query.Delete
import PySQL.Storage.HeapUpdate

/-!
# UPDATE

The rows are rewritten in the scan that finds them.  A new record that its page has no room for is
refused after the old one was deleted, and the refusal is not looked at.
-/

namespace PySQL.Query

open Lib Storage

set_option linter.unusedSectionVars false

variable {n : ℕ} [NeZero n]

namespace Executor

def execSeqScan (py : Py) (info : PlanInfo) : Exec n QueryResult := do
  let name := info.tableName.getD ""
  let table ← findTable name
  let schema ← ofPython (getSchema py table)
  let heap ← getOrCreateHeap py name schema
  let rows ← onPool (heap.scan py (fun rows _ values => ofPython (do
    let row := rowDict table.columnNames values
    return if ← evalPredicate py info.predicate row then rows ++ [values] else rows)) [])
  return { columns := table.columnNames, rows }

/-- What is planned below an UPDATE: a sequential scan, with or without a filter above it. -/
def execChild (py : Py) : PlanNode → Exec n QueryResult
  | .mk info children =>
    match info.type, children with
    | .seqScan, _ => execSeqScan py info
    | .filter, c :: _ => do
      let child ← execChild py c
      ofPython (execFilter py info.predicate child)
    | _, _ => ofPython (.error (.runtimeError "Unsupported plan node type"))

/-- The assignments see the old values of the row. -/
def assign (py : Py) (columnNames : List String) (row : Dict String Value)
    (assignments : List (String × Expr)) (values : Row) : Except PyError Row :=
  assignments.foldlM (fun newValues (colName, expr) => do
    let colIdx ← (columnNames.idxOf? colName).elim (.error (.valueError none)) .ok
    let value ← evalExpr py row expr
    if colIdx < newValues.length then return newValues.set colIdx value
    else throw .indexError) values

/-- The new values of a row, none if the WHERE condition is not met. -/
def newValues (py : Py) (columnNames : List String) (predicate : Option Expr)
    (assignments : List (String × Expr)) (values : Row) : Except PyError (Option Row) := do
  let row := rowDict columnNames values
  if ← evalPredicate py predicate row then
    return some (← assign py columnNames row assignments values)
  else return none

def execUpdate (py : Py) (node : PlanNode) : Exec n QueryResult := do
  let name := node.info.tableName.getD ""
  let info ← findTable name
  match node.children with
  | [] => ofPython (.error .indexError)
  | child :: _ => do
    let _ ← execChild py child
    let schema ← ofPython (getSchema py info)
    let heap ← getOrCreateHeap py name schema
    let rowsUpdated ← onPool (heap.updateWhere py
      (newValues py info.columnNames (childPredicate node) (node.info.assignments.getD [])))
    return {
      columns := []
      rows := []
      affectedRows := rowsUpdated
      message := toString rowsUpdated ++ " row(s) updated" }

/-- The record that an UPDATE makes of one, none for a row that does not meet its condition. -/
def updatedRecord (py : Py) (heap : HeapFile) (stmt : UpdateStatement) :
    RecordId × Bytes → Except PyError (Option Bytes) :=
  heap.replacement py (newValues py heap.schema.columnNames stmt.whereClause stmt.assignments)

variable {py : Py} {x : Executor n} {written written' : ℤ → Option Page} {pins : List ℤ}
  {name : String} {info info' : TableInfo} {heap heap' : HeapFile}

/-! ## The scan below -/

theorem Opened.withPool {x₁ : Executor n} (h : Opened py x written name heap x₁ written' heap')
    (b : BufferPool n) : Opened py x written name heap { x₁ with pool := b } written' heap' where
  opened := h.opened
  known := h.known
  schema := h.schema
  present := h.present
  records := h.records
  intact := h.intact
  others := h.others
  pages := h.pages
  fresh := h.fresh

/-- A scan without a predicate gives the rows of the table. -/
theorem execSeqScan_eq (h : x.pool.Serves pins written) (hroom : pins.toFinset.card < n)
    (ht : x.Table py written name info heap) (estimatedRows : Value)
    (hspace : x.heapFiles.get? name = none → heap.pageIds = [] → x.pool.disk.numPages < 2 ^ 32) :
    ∃ x₁ written₁ heap₁, execSeqScan py
        { type := .seqScan, tableName := some name, estimatedRows } x =
        (((mapE (fun r => (heap.decode py r).map Prod.snd) (heap.records written)).map
          fun rows => { columns := info.columnNames, rows }).mapError .python, x₁) ∧
      x₁.pool.Serves pins written₁ ∧ Opened py x written name heap x₁ written₁ heap₁ := by
  obtain ⟨x₁, written₁, heap₁, hheap, hserves₁, ho⟩ :=
    getOrCreateHeap_eq heap.schema h hroom ht hspace
  have hfind : findTable name x = (.ok info, x) := by simp only [findTable, ht.known]
  have hschema : (ofPython (getSchema py info) : Exec n TableSchema) x = (.ok heap.schema, x) := by
    rw [ht.schema, ofPython_ok]
  obtain ⟨b₂, hscan, hserves₂⟩ := heap₁.scan_eq py (fun rows _ values => do
    let row := rowDict info.columnNames values
    return if ← evalPredicate py none row then rows ++ [values] else rows) []
    hserves₁ hroom ho.present
  refine ⟨{ x₁ with pool := b₂ }, written₁, heap₁, ?_, hserves₂, ho.withPool b₂⟩
  have hdecode : heap₁.decode py = heap.decode py := by
    funext r
    rw [HeapFile.decode, HeapFile.decode, ho.schema]
  have hloop : (heap₁.records written₁).foldlM (fun rows r => do
      let row ← heap₁.decode py r
      let dict := rowDict info.columnNames row.2
      return if ← evalPredicate py none dict then rows ++ [row.2] else rows) [] =
      mapE (fun r => (heap.decode py r).map Prod.snd) (heap.records written) := by
    rw [ho.records, hdecode]
    have hturn : (fun (rows : List Row) r => (do
        let row ← heap.decode py r
        let dict := rowDict info.columnNames row.2
        return if ← evalPredicate py none dict then rows ++ [row.2] else rows :
          Except PyError (List Row))) =
        fun rows r => do return rows ++ [← (heap.decode py r).map Prod.snd] := by
      funext rows r
      cases heap.decode py r <;> rfl
    rw [hturn, foldlM_append_mapE]
    cases mapE (fun r => (heap.decode py r).map Prod.snd) (heap.records written) <;> rfl
  have hrows := onPool_eq hscan
  rw [hloop] at hrows
  rw [execSeqScan]
  show (do
    let table ← findTable name
    let schema ← ofPython (getSchema py table)
    let heap ← getOrCreateHeap py name schema
    let rows ← onPool (heap.scan py (fun rows _ values => ofPython (do
      let row := rowDict table.columnNames values
      return if ← evalPredicate py none row then rows ++ [values] else rows)) [])
    return { columns := table.columnNames, rows } : Exec n QueryResult) x = _
  rw [Effect.bind_ok hfind, Effect.bind_ok hschema, Effect.bind_ok hheap]
  cases hmap : mapE (fun r => (heap.decode py r).map Prod.snd) (heap.records written) with
  | error e =>
    rw [hmap] at hrows
    exact Effect.bind_error hrows
  | ok rows =>
    rw [hmap] at hrows
    exact Effect.bind_ok hrows

/-- What runs below an UPDATE returns if the condition can be evaluated on all rows. -/
theorem execChild_eq (stmt : UpdateStatement) (h : x.pool.Serves pins written)
    (hroom : pins.toFinset.card < n) (ht : x.Table py written stmt.table info heap)
    (hspace : x.heapFiles.get? stmt.table = none → heap.pageIds = [] →
      x.pool.disk.numPages < 2 ^ 32) :
    ∃ result x₁ written₁ heap₁,
      execChild py (planScan stmt.table stmt.whereClause) x = (result, x₁) ∧
      x₁.pool.Serves pins written₁ ∧ Opened py x written stmt.table heap x₁ written₁ heap₁ ∧
      ((∀ r ∈ heap.records written, (test py heap stmt.whereClause r).isOk = true) →
        result.isOk = true) := by
  obtain ⟨x₁, written₁, heap₁, hscan, hserves₁, ho⟩ :=
    execSeqScan_eq h hroom ht (.int 1000) hspace
  have hdecodes : (∀ r ∈ heap.records written, (test py heap stmt.whereClause r).isOk = true) →
      ∃ rows,
        mapE (fun r => (heap.decode py r).map Prod.snd) (heap.records written) = .ok rows := by
    intro hok
    refine exists_ok_of_isOk (mapE_isOk.mpr fun r hr => ?_)
    obtain ⟨keep, hkeep⟩ := exists_ok_of_isOk (hok r hr)
    obtain ⟨row, hrow, -⟩ := bind_eq_ok hkeep
    rw [hrow]
    rfl
  cases hwhere : stmt.whereClause with
  | none =>
    refine ⟨_, x₁, written₁, heap₁, hscan, hserves₁, ho, fun hok => ?_⟩
    obtain ⟨rows, hrows⟩ := hdecodes (hwhere ▸ hok)
    rw [hrows]
    rfl
  | some predicate =>
    rw [hwhere] at hdecodes
    have hbelow : execChild py (.mk
        { type := .seqScan, tableName := some stmt.table, estimatedRows := .int 1000 } []) x = _ :=
      hscan
    have hchild : execChild py (planScan stmt.table (some predicate)) x = (do
        let child ← execChild py (.mk
          { type := .seqScan, tableName := some stmt.table, estimatedRows := .int 1000 } [])
        ofPython (execFilter py (some predicate) child) : Exec n QueryResult) x := rfl
    cases hmap : mapE (fun r => (heap.decode py r).map Prod.snd) (heap.records written) with
    | error e =>
      rw [hmap] at hbelow
      refine ⟨_, x₁, written₁, heap₁, hchild.trans (Effect.bind_error hbelow), hserves₁, ho, ?_⟩
      intro hok
      obtain ⟨rows, hrows⟩ := hdecodes hok
      rw [hmap] at hrows
      cases hrows
    | ok rows =>
      rw [hmap] at hbelow
      refine ⟨_, x₁, written₁, heap₁, hchild.trans (Effect.bind_ok hbelow), hserves₁, ho, ?_⟩
      intro hok
      have hfilter : (filterE (fun row => evalPredicate py (some predicate)
          (rowDict info.columnNames row)) rows).isOk = true := by
        refine filterE_isOk.mpr fun row hrow => ?_
        obtain ⟨r, hr, hdecode⟩ := mem_of_mapE hmap hrow
        have htest := hok r hr
        cases hr' : heap.decode py r with
        | error e =>
          rw [hr'] at hdecode
          cases hdecode
        | ok found =>
          rw [hr'] at hdecode
          obtain rfl : found.2 = row := Except.ok.inj hdecode
          rw [test, hr', columnNames_of_getSchema ht.schema] at htest
          exact htest
      obtain ⟨kept, hkept⟩ := exists_ok_of_isOk hfilter
      show ((execFilter py (some predicate) { columns := info.columnNames, rows }).mapError
        DbError.python).isOk = true
      rw [execFilter, hkept]
      rfl

/-! ## The loop -/

/-- The test of the condition is part of what is made of a record. -/
theorem updatedRecord_eq (stmt : UpdateStatement) (r : RecordId × Bytes) :
    updatedRecord py heap stmt r = (do
      if ← test py heap stmt.whereClause r then
        let row ← heap.decode py r
        let values ← assign py heap.schema.columnNames (rowDict heap.schema.columnNames row.2)
          stmt.assignments row.2
        return some (← RecordSerializer.serialize py heap.schema values)
      else return none) := by
  unfold updatedRecord HeapFile.replacement newValues test
  cases heap.decode py r with
  | error e => rfl
  | ok row =>
    simp only [ok_bind]
    cases evalPredicate py stmt.whereClause (rowDict heap.schema.columnNames row.2) with
    | error e => rfl
    | ok keep =>
      cases keep with
      | false => rfl
      | true =>
        simp only [ok_bind, if_true]
        cases assign py heap.schema.columnNames (rowDict heap.schema.columnNames row.2)
          stmt.assignments row.2 <;> rfl

theorem test_of_updatedRecord {stmt : UpdateStatement} {r : RecordId × Bytes}
    (h : (updatedRecord py heap stmt r).isOk = true) :
    (test py heap stmt.whereClause r).isOk = true ∧
      HeapFile.isReplaced (updatedRecord py heap stmt) r =
        isTrue (test py heap stmt.whereClause r) := by
  rw [HeapFile.isReplaced]
  rw [updatedRecord_eq] at h ⊢
  cases htest : test py heap stmt.whereClause r with
  | error e =>
    rw [htest] at h
    cases h
  | ok keep =>
    refine ⟨rfl, ?_⟩
    cases keep with
    | false => rfl
    | true =>
      rw [htest] at h
      obtain ⟨new, hnew⟩ := exists_ok_of_isOk h
      rw [hnew]
      rw [ok_bind, if_pos rfl] at hnew
      obtain ⟨row, hrow, hnew⟩ := bind_eq_ok hnew
      obtain ⟨values, hvalues, hnew⟩ := bind_eq_ok hnew
      obtain ⟨record, hrecord, hnew⟩ := bind_eq_ok hnew
      obtain rfl := Except.ok.inj hnew
      rfl

/-! ## The statement -/

/-- A row after an UPDATE whose condition and assignments can be evaluated. -/
def updatedRow (py : Py) (heap : HeapFile) (stmt : UpdateStatement) (r : RecordId × Bytes) :
    Except PyError (RecordId × Row) := do
  let row ← heap.decode py r
  match ← newValues py heap.schema.columnNames stmt.whereClause stmt.assignments row.2 with
  | none => return row
  | some values => return (row.1, values)

/-- The new values of a record are read back as they were assigned. -/
def ReadsBack (py : Py) (heap : HeapFile) (stmt : UpdateStatement) (r : RecordId × Bytes) : Prop :=
  ∀ row values record, heap.decode py r = .ok row →
    newValues py heap.schema.columnNames stmt.whereClause stmt.assignments row.2 =
      .ok (some values) →
    RecordSerializer.serialize py heap.schema values = .ok record →
    RecordSerializer.deserialize py heap.schema record = .ok values

theorem decode_replaced {stmt : UpdateStatement} {r : RecordId × Bytes}
    (hok : (updatedRecord py heap stmt r).isOk = true) (hback : ReadsBack py heap stmt r) :
    heap.decode py (HeapFile.replaced (updatedRecord py heap stmt) r) =
      updatedRow py heap stmt r := by
  obtain ⟨new, hnew⟩ := exists_ok_of_isOk hok
  rw [HeapFile.replaced, hnew]
  unfold updatedRecord HeapFile.replacement at hnew
  obtain ⟨row, hrow, hnew⟩ := bind_eq_ok hnew
  obtain ⟨values, hvalues, hnew⟩ := bind_eq_ok hnew
  have hid : row.1 = r.1 := by
    obtain ⟨values', -, hrow⟩ := bind_eq_ok hrow
    cases hrow
    rfl
  rw [updatedRow, hrow, ok_bind, hvalues, ok_bind]
  cases values with
  | none =>
    cases hnew
    exact hrow
  | some values =>
    obtain ⟨record, hrecord, hnew⟩ := bind_eq_ok hnew
    obtain rfl := Except.ok.inj hnew
    simp only [HeapFile.decode, hback row values record hrow hvalues hrecord, hid]
    rfl

theorem childPredicate_planUpdate (stmt : UpdateStatement) :
    childPredicate (planUpdate stmt) = stmt.whereClause := by
  cases hwhere : stmt.whereClause <;> simp [childPredicate, planUpdate, planScan, hwhere,
    PlanNode.children, PlanNode.info]

/-- UPDATE raises if a new record cannot be made.  Otherwise, if each new record fits its page in
its turn, exactly the rows that meet the condition are replaced, each of them once. -/
theorem execUpdate_exact (stmt : UpdateStatement) (h : x.pool.Serves pins written)
    (hroom : pins.toFinset.card < n) (ht : x.Table py written stmt.table info heap)
    (hintact : heap.Intact written)
    (hspace : x.heapFiles.get? stmt.table = none → heap.pageIds = [] →
      x.pool.disk.numPages < 2 ^ 32)
    (hfits : HeapFile.FitsInTurn written ((heap.records written).map
      fun r => (r.1, updatedRecord py heap stmt r))) :
    let writes := updatedRecord py heap stmt
    let records := heap.records written
    ((∃ r ∈ records, (writes r).isOk = false) →
      ∃ e x', execUpdate py (planUpdate stmt) x = (.error e, x')) ∧
    ((∀ r ∈ records, (writes r).isOk = true) → ∃ result x',
      execUpdate py (planUpdate stmt) x = (.ok result, x') ∧
      Leaves py pins written stmt.table heap x x' (records.map (HeapFile.replaced writes)) ∧
      result.affectedRows =
        (records.filter fun r => isTrue (test py heap stmt.whereClause r)).length ∧
      ((∀ r ∈ records, ReadsBack py heap stmt r) →
        (scanTable py stmt.table x').1 =
          (mapE (updatedRow py heap stmt) records).mapError .python)) := by
  intro writes records
  obtain ⟨result, x₁, written₁, heap₁, hchild, hserves₁, ho, hchildOk⟩ :=
    execChild_eq stmt h hroom ht hspace
  have hfind : findTable stmt.table x = (.ok info, x) := by simp only [findTable, ht.known]
  have hupdate : execUpdate py (planUpdate stmt) x = (do
      let _ ← execChild py (planScan stmt.table stmt.whereClause)
      let schema ← ofPython (getSchema py info)
      let heap ← getOrCreateHeap py stmt.table schema
      let rowsUpdated ← onPool (heap.updateWhere py
        (newValues py info.columnNames stmt.whereClause stmt.assignments))
      return {
        columns := []
        rows := []
        affectedRows := rowsUpdated
        message := toString rowsUpdated ++ " row(s) updated" } : Exec n QueryResult) x := by
    rw [execUpdate]
    show (do
      let info ← findTable stmt.table
      let _ ← execChild py (planScan stmt.table stmt.whereClause)
      let schema ← ofPython (getSchema py info)
      let heap ← getOrCreateHeap py stmt.table schema
      let rowsUpdated ← onPool (heap.updateWhere py
        (newValues py info.columnNames (childPredicate (planUpdate stmt)) stmt.assignments))
      return {
        columns := []
        rows := []
        affectedRows := rowsUpdated
        message := toString rowsUpdated ++ " row(s) updated" } : Exec n QueryResult) x = _
    rw [Effect.bind_ok hfind, childPredicate_planUpdate]
  cases result with
  | error e =>
    have hrun : execUpdate py (planUpdate stmt) x = (.error e, x₁) :=
      hupdate.trans (Effect.bind_error hchild)
    refine ⟨fun _ => ⟨e, x₁, hrun⟩, fun hok => ?_⟩
    cases hchildOk fun r hr => (test_of_updatedRecord (hok r hr)).1
  | ok child =>
    obtain ⟨info₁, hknown₁, hschema₁⟩ := ho.known
    have hschema : (ofPython (getSchema py info) : Exec n TableSchema) x₁ =
        (.ok heap.schema, x₁) := by
      rw [ht.schema, ofPython_ok]
    rw [Effect.bind_ok hchild, Effect.bind_ok hschema,
      Effect.bind_ok (getOrCreateHeap_opened py heap.schema ho.opened),
      ← columnNames_of_getSchema ht.schema] at hupdate
    have hwrites : heap₁.replacement py
        (newValues py heap.schema.columnNames stmt.whereClause stmt.assignments) = writes := by
      funext r
      simp only [writes, updatedRecord, HeapFile.replacement, HeapFile.decode, ho.schema]
    -- opening the table leaves its pages as they were
    have hfits₁ : HeapFile.FitsInTurn written₁ ((heap₁.records written₁).map fun r => (r.1,
        heap₁.replacement py
          (newValues py heap.schema.columnNames stmt.whereClause stmt.assignments) r)) := by
      rw [hwrites, ho.records]
      refine hfits.congr fun r hr => ?_
      obtain ⟨⟨rid, data⟩, hmem, rfl⟩ := List.mem_map.mp hr
      exact ho.pages _ (ht.present _ (HeapFile.mem_records.mp hmem).1)
    obtain ⟨hraises, hruns⟩ :=
      HeapFile.updateWhere_eq hroom hserves₁ (ho.intact hintact) hfits₁
    rw [hwrites, ho.records] at hraises hruns
    constructor
    · intro hsome
      obtain ⟨e, b', hloop⟩ := hraises hsome
      exact ⟨e, _, hupdate.trans (Effect.bind_error (onPool_eq hloop))⟩
    · intro hok
      obtain ⟨b', written', hloop, hserves', hintact', hafter, hframe⟩ := hruns hok
      have hcount : records.filter (HeapFile.isReplaced writes) =
          records.filter fun r => isTrue (test py heap stmt.whereClause r) :=
        List.filter_congr fun r hr => (test_of_updatedRecord (hok r hr)).2
      let x' : Executor n := { x₁ with pool := b' }
      have hleaves : Leaves py pins written stmt.table heap x x'
          (records.map (HeapFile.replaced writes)) := by
        have hpresent : heap₁.Exists written' := by
          intro pageId hmem
          obtain ⟨page, hpage, -⟩ := hintact'.pages pageId hmem
          rw [hpage]
          rfl
        rw [← hafter]
        refine leaves_of x' ht hserves' hroom ho.opened hknown₁ (ho.schema ▸ hschema₁) ho.schema
          hpresent ho.others fun pageId hsome hnot => ?_
        rw [hframe pageId, ho.pages pageId hsome]
        intro hmem
        rcases ho.fresh pageId hmem with hold | hnone
        · exact hnot hold
        · rw [hnone] at hsome
          cases hsome
      refine ⟨_, x', hupdate.trans (Effect.bind_ok (onPool_eq hloop)), hleaves, ?_, fun hback => ?_⟩
      · show (records.filter (HeapFile.isReplaced writes)).length = _
        rw [hcount]
      · obtain ⟨-, -, -, -, -, -, hscan, -⟩ := hleaves
        rw [hscan, mapE_map]
        congr 1
        exact mapE_congr fun r hr => decode_replaced (hok r hr) (hback r hr)

/-! ## A table of one large row -/

/-- The record of `length` zero bytes in a column of type BLOB. -/
def blobRecord (length : ℕ) : Bytes := 0 :: packBE 4 length ++ List.replicate length 0

theorem length_blobRecord (length : ℕ) : (blobRecord length).length = length + 5 := by
  simp only [blobRecord, List.length_append, List.length_cons, length_packBE, List.length_replicate]
  omega

/-- A page with that record. -/
def blobPage : Page where
  data := List.replicate 91 0 ++ blobRecord 4000
  header := { pageType := .heapData, numSlots := 1, dataEnd := 91, freeSpace := 55 }
  slots := [⟨91, 4005⟩]

theorem live_blobPage {i : ℕ} {s : SlotEntry} (h : blobPage.Live i s) :
    i = 0 ∧ s = ⟨91, 4005⟩ := by
  obtain ⟨hs, -⟩ := h
  replace hs : [(⟨91, 4005⟩ : SlotEntry)][i]? = some s := hs
  rcases i with - | i
  · exact ⟨rfl, (Option.some.inj hs).symm⟩
  · cases hs

theorem intact_blobPage : blobPage.Intact where
  layout := {
    size := by
      show (List.replicate 91 (0 : UInt8) ++ blobRecord 4000).length = PAGE_SIZE
      rw [List.length_append, List.length_replicate, length_blobRecord]
      rfl
    dirEnd := by decide
    inside := by
      intro i s hs
      obtain ⟨-, rfl⟩ := live_blobPage hs
      decide
    apart := by
      intro i j s s' hij hs hs'
      exact absurd ((live_blobPage hs).1.trans (live_blobPage hs').1.symm) hij }
  header := by
    refine ⟨?_, ?_, ?_, ?_, ?_, ?_, ?_, ?_, ?_⟩ <;> decide
  numSlots := rfl
  slots := by decide
  dataEnd_le := by decide
  free := by decide

def blobHeap : HeapFile where
  schema := {
    tableName := "t"
    columnNames := ["b"]
    columnTypes := [.blob]
    primaryKey := none }
  pageIds := [0]

/-- The page is in the pool. -/
def blobPool : BufferPool 1 :=
  ((do
    let _ ← HeapFile.newPage
    HeapFile.modifyPage 0 blobPage
    HeapFile.unpinPage 0 true : PoolCalls 1 Unit) (.new (.ofFile []))).2

def blobTable : Executor 1 where
  catalog := { Catalog.empty with
    tables := Dict.empty.set "t" {
      name := "t"
      columns := [⟨"b", "BLOB", []⟩]
      firstPageId := 0 } }
  heapFiles := Dict.empty.set "t" blobHeap
  pool := blobPool

def blobWritten : ℤ → Option Page := fun pageId => if pageId = 0 then some blobPage else none

theorem blobPool_serves : blobPool.Serves [] blobWritten := by
  have hempty : (BufferPool.new (.ofFile []) : BufferPool 1).Serves [] (writtenAtFirst []) :=
    coherent_init ⟨rfl, by simp⟩
  obtain ⟨b₁, page, hnew, hid, hco⟩ :=
    Coherent.newPage_of_room hempty (by decide) .heapData (by decide) ()
  have hcall : (HeapFile.newPage : PoolCalls 1 Page) (.new (.ofFile [])) = (.ok page, b₁) := by
    simp only [HeapFile.newPage, hnew]
  have hfirst : blobPage.header.pageId = 0 := rfl
  obtain ⟨b', hwrite, hserves⟩ :=
    HeapFile.serves_rewrite hco hfirst intact_blobPage.documented.preserved
  have hpool : blobPool = b' := by
    have hrun := congrArg Prod.snd (hwrite Unit ())
    rw [blobPool, Effect.bind_ok hcall]
    exact hrun
  rw [hpool]
  have hwritten : blobWritten = Function.update (Function.update (writtenAtFirst []) 0
      (some (Page.new 0 .heapData))) 0 (some blobPage) := by
    funext pageId
    by_cases hzero : pageId = 0
    · rw [hzero, Function.update_self]
      rfl
    · rw [Function.update_of_ne hzero, Function.update_of_ne hzero, blobWritten, if_neg hzero,
        writtenAtFirst, if_neg]
      rintro ⟨hlow, hhigh⟩
      exact absurd hhigh (not_lt.mpr hlow)
  rw [hwritten]
  exact hserves

theorem blobTable_serves : blobTable.pool.Serves [] blobWritten := blobPool_serves

theorem blobHeap_intact : blobHeap.Intact blobWritten :=
  ⟨by decide, fun pageId hmem => ⟨blobPage, by
    rw [List.mem_singleton.mp hmem]
    rfl, intact_blobPage⟩⟩

/-- `UPDATE t SET b = length` -/
def setBlob (length : ℤ) : UpdateStatement where
  table := "t"
  assignments := [("b", .literal (.int length))]
  whereClause := none

/-- What the table, its record and a shorter value come to. -/
theorem blob_evaluates : DataType.fromString Py.ascii "BLOB" = .ok .blob ∧
    blobPage.liveRecords = [(0, blobRecord 4000)] ∧
    updatedRecord Py.ascii blobHeap (setBlob 3000) (⟨0, 0⟩, blobRecord 4000) =
      .ok (some (blobRecord 3000)) ∧
    test Py.ascii blobHeap (setBlob 3000).whereClause (⟨0, 0⟩, blobRecord 4000) = .ok true := by
  refine ⟨?_, ?_, ?_, ?_⟩ <;> decide +kernel

theorem blobTable_table : blobTable.Table Py.ascii blobWritten "t"
    { name := "t", columns := [⟨"b", "BLOB", []⟩], firstPageId := 0 } blobHeap := by
  refine ⟨rfl, ?_, rfl, ?_⟩
  · simp only [getSchema, mapE, blob_evaluates.1]
    rfl
  · intro pageId hmem
    rw [List.mem_singleton.mp hmem]
    rfl

theorem blobHeap_records : blobHeap.records blobWritten = [(⟨0, 0⟩, blobRecord 4000)] := by
  show (blobPage.liveRecords.map _) ++ [] = _
  rw [blob_evaluates.2.1]
  rfl

theorem updatedRecord_shorter :
    updatedRecord Py.ascii blobHeap (setBlob 3000) (⟨0, 0⟩, blobRecord 4000) =
      .ok (some (blobRecord 3000)) := blob_evaluates.2.2.1

theorem fitsInTurn_shorter : HeapFile.FitsInTurn blobWritten ((blobHeap.records blobWritten).map
    fun r => (r.1, updatedRecord Py.ascii blobHeap (setBlob 3000) r)) := by
  rw [blobHeap_records, List.map_singleton, updatedRecord_shorter]
  refine ⟨List.cons_ne_nil _ _, fun page hpage => ⟨?_, trivial⟩⟩
  obtain rfl : blobPage = page := Option.some.inj hpage
  intro s hs hlt
  obtain ⟨-, rfl⟩ := live_blobPage hs
  rw [length_blobRecord] at hlt
  simp at hlt

/-- A shorter value takes the place of the old one. -/
theorem execUpdate_exact_shorter : ∃ result x',
    execUpdate Py.ascii (planUpdate (setBlob 3000)) blobTable = (.ok result, x') ∧
      Leaves Py.ascii [] blobWritten "t" blobHeap blobTable x' [(⟨0, 0⟩, blobRecord 3000)] ∧
      result.affectedRows = 1 := by
  have hok : ∀ r ∈ blobHeap.records blobWritten,
      (updatedRecord Py.ascii blobHeap (setBlob 3000) r).isOk = true := by
    rw [blobHeap_records]
    intro r hr
    rw [List.mem_singleton.mp hr, updatedRecord_shorter]
    rfl
  have hspace : blobTable.heapFiles.get? "t" = none → blobHeap.pageIds = [] →
      blobTable.pool.disk.numPages < 2 ^ 32 := by
    intro _ hnil
    cases hnil
  have hexact := execUpdate_exact (setBlob 3000) blobTable_serves (by decide) blobTable_table
    blobHeap_intact hspace
  -- unfolding the condition would run the whole loop
  obtain ⟨-, hruns⟩ := hexact (by with_reducible exact fitsInTurn_shorter)
  rw [blobHeap_records] at hruns hok
  obtain ⟨result, x', hrun, hleaves, hcount, -⟩ := hruns hok
  refine ⟨result, x', hrun, ?_, ?_⟩
  · rw [List.map_singleton, HeapFile.replaced, updatedRecord_shorter] at hleaves
    exact hleaves
  · simpa [blob_evaluates.2.2.2] using hcount

/-- A longer value is refused: the row is lost, and counts as updated. -/
theorem longerBlob_lost : ¬∀ (x : Executor 1) (written : ℤ → Option Page) (stmt : UpdateStatement)
    (info : TableInfo) (heap : HeapFile), x.pool.Serves [] written →
    x.Table Py.ascii written stmt.table info heap → heap.Intact written →
    (∀ r ∈ heap.records written, (updatedRecord Py.ascii heap stmt r).isOk = true) →
    (∃ e x', execUpdate Py.ascii (planUpdate stmt) x = (.error e, x')) ∨
      ∃ result x', execUpdate Py.ascii (planUpdate stmt) x = (.ok result, x') ∧
        Leaves Py.ascii [] written stmt.table heap x x'
          ((heap.records written).map (HeapFile.replaced (updatedRecord Py.ascii heap stmt))) := by
  intro h
  have hrun : (execUpdate Py.ascii (planUpdate (setBlob 4100)) blobTable).1.map
      QueryResult.affectedRows = .ok 1 := by
    decide +kernel
  have hscan : (scanTable Py.ascii "t"
      (execUpdate Py.ascii (planUpdate (setBlob 4100)) blobTable).2).1 = .ok [] := by
    decide +kernel
  have hok : (updatedRecord Py.ascii blobHeap (setBlob 4100) (⟨0, 0⟩, blobRecord 4000)).isOk =
      true := by
    decide +kernel
  have hspec := h blobTable blobWritten (setBlob 4100) _ blobHeap blobTable_serves blobTable_table
    blobHeap_intact (by
      rw [blobHeap_records]
      intro r hr
      rw [List.mem_singleton.mp hr]
      exact hok)
  rcases hspec with ⟨e, x', hrun'⟩ | ⟨result, x', hrun', hleaves⟩
  · rw [hrun'] at hrun
    cases hrun
  · obtain ⟨-, -, -, -, -, -, hrows, -⟩ := hleaves
    rw [hrun'] at hscan
    rw [blobHeap_records, List.map_singleton] at hrows
    replace hrows := hscan.symm.trans hrows
    -- one record is decoded to one row or raises
    cases hdecode : blobHeap.decode Py.ascii
        (HeapFile.replaced (updatedRecord Py.ascii blobHeap (setBlob 4100))
          (⟨0, 0⟩, blobRecord 4000)) with
    | error e =>
      rw [mapE, hdecode] at hrows
      cases hrows
    | ok row =>
      rw [mapE, hdecode] at hrows
      cases hrows

end Executor

end PySQL.Query
