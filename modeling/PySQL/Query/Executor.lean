import PySQL.Query.Execute
import PySQL.Storage.Heap

/-!
# The executor and its tables

The catalog, the heap files that are open, and the buffer pool that holds their pages.
-/

namespace PySQL.Query

open Lib Storage

set_option linter.unusedSectionVars false

structure Executor (n : ℕ) where
  catalog : Catalog
  heapFiles : Dict String HeapFile
  pool : BufferPool n

/-- Calls of the executor that may raise. -/
abbrev Exec (n : ℕ) : Type → Type := Effect (Executor n) DbError

variable {n : ℕ} [NeZero n] {α : Type}

namespace Executor

def onPool (m : PoolCalls n α) : Exec n α :=
  Effect.zoom Executor.pool (fun x pool => { x with pool }) m

/-- The table by its name, or what a statement raises without it. -/
def findTable (name : String) : Exec n TableInfo := fun x =>
  match x.catalog.getTable name with
  | none => (.error (.python (noSuchTable name)), x)
  | some info => (.ok info, x)

/-- Open the heap file of a table; a table without pages gets its first one. -/
def loadHeap (name : String) (schema : TableSchema) (firstPageId : ℤ) : Exec n HeapFile :=
  if firstPageId ≥ 0 then onPool (HeapFile.init schema (some firstPageId.toNat))
  else do
    let heap ← onPool (HeapFile.init schema none)
    Effect.change fun x =>
      { x with catalog := x.catalog.updateFirstPageId name heap.firstPageId }
    return heap

def keepHeap (name : String) (heap : HeapFile) : Exec n Unit :=
  Effect.change fun x => { x with heapFiles := x.heapFiles.set name heap }

def getHeapFile (py : Py) (name : String) : Exec n (Option HeapFile) := do
  let x ← Effect.read id
  match x.heapFiles.get? name, x.catalog.getTable name with
  | some heap, _ => return some heap
  | none, none => return none
  | none, some info => do
    let schema ← ofPython (getSchema py info)
    let heap ← loadHeap name schema info.firstPageId
    keepHeap name heap
    return some heap

def getOrCreateHeap (py : Py) (name : String) (schema : TableSchema) : Exec n HeapFile := do
  match ← getHeapFile py name with
  | some heap => return heap
  | none => do
    let heap ← loadHeap name schema (-1)
    keepHeap name heap
    return heap

/-- The rows that a sequential scan of a table goes through. -/
def scanTable (py : Py) (name : String) : Exec n (List (RecordId × Row)) := do
  let info ← findTable name
  let schema ← ofPython (getSchema py info)
  let heap ← getOrCreateHeap py name schema
  onPool (heap.scan py (fun acc rid values => ofPython (.ok (acc ++ [(rid, values)]))) [])

/-! ## What a table holds -/

/-- The heap file of a table, be it open or not, and its pages exist. -/
structure Table (py : Py) (x : Executor n) (written : ℤ → Option Page) (name : String)
    (info : TableInfo) (heap : HeapFile) : Prop where
  known : x.catalog.getTable name = some info
  schema : getSchema py info = .ok heap.schema
  pages : match x.heapFiles.get? name with
    | some opened => opened = heap
    | none =>
      if 0 ≤ info.firstPageId then HeapFile.Chain written info.firstPageId.toNat heap.pageIds
      else heap.pageIds = []
  present : heap.Exists written

variable {py : Py} {x x' : Executor n} {written written' : ℤ → Option Page} {pins : List ℤ}
  {name : String} {info : TableInfo} {heap : HeapFile}

/-- What tells a table is left alone. -/
theorem Table.of_agree (h : x.Table py written name info heap)
    (hknown : x'.catalog.getTable name = x.catalog.getTable name)
    (hopen : x'.heapFiles.get? name = x.heapFiles.get? name)
    (hpages : ∀ pageId ∈ heap.pageIds, written' pageId = written pageId) :
    x'.Table py written' name info heap ∧ heap.records written' = heap.records written := by
  refine ⟨⟨hknown.trans h.known, h.schema, ?_, ?_⟩, ?_⟩
  · have hold := h.pages
    rw [hopen]
    split at hold
    · exact hold
    · split
      · next hfirst =>
        rw [if_pos hfirst] at hold
        exact hold.congr hpages
      · next hfirst =>
        rw [if_neg hfirst] at hold
        exact hold
  · intro pageId hmem
    rw [hpages pageId hmem]
    exact h.present pageId hmem
  · refine List.flatMap_congr fun pageId hmem => ?_
    rw [recordsOn, recordsOn, hpages pageId hmem]

/-- The heap file of a table is open and holds what the table held before; every other table is as
it was, and so is every page there was. -/
structure Opened (py : Py) (x : Executor n) (written : ℤ → Option Page) (name : String)
    (heap : HeapFile) (x' : Executor n) (written' : ℤ → Option Page) (heap' : HeapFile) : Prop where
  opened : x'.heapFiles.get? name = some heap'
  known : ∃ info', x'.catalog.getTable name = some info' ∧ getSchema py info' = .ok heap'.schema
  schema : heap'.schema = heap.schema
  present : heap'.Exists written'
  records : heap'.records written' = heap.records written
  intact : heap.Intact written → heap'.Intact written'
  others : ∀ other ≠ name, x'.catalog.getTable other = x.catalog.getTable other ∧
    x'.heapFiles.get? other = x.heapFiles.get? other
  pages : ∀ pageId, (written pageId).isSome → written' pageId = written pageId
  fresh : ∀ pageId ∈ heap'.pageIds, pageId ∈ heap.pageIds ∨ written pageId = none

theorem getSchema_firstPageId (py : Py) (info : TableInfo) (firstPageId : ℤ) :
    getSchema py { info with firstPageId } = getSchema py info := rfl

theorem onPool_eq {m : PoolCalls n α} {result : Except DbError α} {b : BufferPool n}
    (h : m x.pool = (result, b)) : onPool m x = (result, { x with pool := b }) := by
  simp only [onPool, Effect.zoom, h]

theorem getOrCreateHeap_of_load {schema : TableSchema} (schema' : TableSchema)
    (hopen : x.heapFiles.get? name = none) (hknown : x.catalog.getTable name = some info)
    (hschema : getSchema py info = .ok schema)
    (hload : loadHeap name schema info.firstPageId x = (.ok heap, x')) :
    getOrCreateHeap py name schema' x =
      (.ok heap, { x' with heapFiles := x'.heapFiles.set name heap }) := by
  have hget : getHeapFile py name x =
      (.ok (some heap), { x' with heapFiles := x'.heapFiles.set name heap }) := by
    rw [getHeapFile, Effect.bind_ok Effect.read_apply]
    simp only [id, hopen, hknown, hschema]
    rw [Effect.bind_ok ofPython_ok, Effect.bind_ok hload]
    rfl
  rw [getOrCreateHeap, Effect.bind_ok hget]
  rfl

/-- A heap file that is open. -/
theorem getOrCreateHeap_opened (py : Py) (schema : TableSchema)
    (hopen : x.heapFiles.get? name = some heap) :
    getOrCreateHeap py name schema x = (.ok heap, x) := by
  have hget : getHeapFile py name x = (.ok (some heap), x) := by
    rw [getHeapFile, Effect.bind_ok Effect.read_apply]
    simp only [id, hopen]
    rfl
  rw [getOrCreateHeap, Effect.bind_ok hget]
  rfl

theorem getOrCreateHeap_eq (schema : TableSchema) (h : x.pool.Serves pins written)
    (hroom : pins.toFinset.card < n) (ht : x.Table py written name info heap)
    (hspace : x.heapFiles.get? name = none → heap.pageIds = [] → x.pool.disk.numPages < 2 ^ 32) :
    ∃ x' written' heap', getOrCreateHeap py name schema x = (.ok heap', x') ∧
      x'.pool.Serves pins written' ∧ Opened py x written name heap x' written' heap' := by
  have hpages := ht.pages
  cases hopen : x.heapFiles.get? name with
  | some opened =>
    rw [hopen] at hpages
    obtain rfl : opened = heap := hpages
    refine ⟨x, written, opened, getOrCreateHeap_opened py schema hopen, h, ?_⟩
    exact {
      opened := hopen
      known := ⟨info, ht.known, ht.schema⟩
      schema := rfl
      present := ht.present
      records := rfl
      intact := id
      others := fun _ _ => ⟨rfl, rfl⟩
      pages := fun _ _ => rfl
      fresh := fun _ hmem => .inl hmem }
  | none =>
    rw [hopen] at hpages
    by_cases hfirst : 0 ≤ info.firstPageId
    · -- the chain of its pages is loaded
      rw [if_pos hfirst] at hpages
      obtain ⟨b', hinit, hserves⟩ := HeapFile.init_some heap.schema h hroom hpages
      have hload : loadHeap name heap.schema info.firstPageId x =
          (.ok heap, { x with pool := b' }) := by
        rw [loadHeap, if_pos hfirst]
        exact onPool_eq hinit
      refine ⟨_, written, heap, getOrCreateHeap_of_load schema hopen ht.known ht.schema hload,
        hserves, ?_⟩
      exact {
        opened := Dict.get?_set_self ..
        known := ⟨info, ht.known, ht.schema⟩
        schema := rfl
        present := ht.present
        records := rfl
        intact := id
        others := fun _ hne => ⟨rfl, Dict.get?_set_ne _ _ (Ne.symm hne)⟩
        pages := fun _ _ => rfl
        fresh := fun _ hmem => .inl hmem }
    · -- it has no pages yet
      rw [if_neg hfirst] at hpages
      have hnum := hspace hopen hpages
      obtain ⟨b', hinit, hserves, hnone⟩ :=
        HeapFile.init_none heap.schema h hroom hnum
      have hload : loadHeap name heap.schema info.firstPageId x =
          (.ok ⟨heap.schema, [x.pool.disk.numPages]⟩, { x with
            pool := b'
            catalog := x.catalog.updateFirstPageId name x.pool.disk.numPages }) := by
        rw [loadHeap, if_neg hfirst, Effect.bind_ok (onPool_eq hinit)]
        rfl
      refine ⟨_, _, _, getOrCreateHeap_of_load schema hopen ht.known ht.schema hload,
        hserves, ?_⟩
      exact {
        opened := Dict.get?_set_self ..
        known := by
          refine ⟨{ info with firstPageId := x.pool.disk.numPages }, ?_, ht.schema⟩
          show (x.catalog.updateTable name _).getTable name = _
          rw [getTable_updateTable, if_pos rfl, ht.known]
          rfl
        schema := rfl
        present := by simp [HeapFile.Exists]
        records := by simp [HeapFile.records, hpages, recordsOn, Page.liveRecords_new]
        intact := fun _ => ⟨List.nodup_singleton _, by
          simpa using Page.intact_new hnum .heapData⟩
        others := by
          intro other hne
          refine ⟨?_, Dict.get?_set_ne _ _ (Ne.symm hne)⟩
          show (x.catalog.updateTable name _).getTable other = _
          rw [getTable_updateTable, if_neg hne]
        pages := by
          intro pageId hsome
          refine Function.update_of_ne ?_ _ _
          rintro rfl
          rw [hnone] at hsome
          cases hsome
        fresh := by
          intro pageId hmem
          rw [List.mem_singleton.mp hmem]
          exact .inr hnone }

/-- A scan reads the records of the table in order. -/
theorem scanTable_eq (h : x.pool.Serves pins written) (hroom : pins.toFinset.card < n)
    (ht : x.Table py written name info heap)
    (hspace : x.heapFiles.get? name = none → heap.pageIds = [] → x.pool.disk.numPages < 2 ^ 32) :
    (scanTable py name x).1 =
      (mapE (heap.decode py) (heap.records written)).mapError .python := by
  obtain ⟨x', written', heap', hheap, hserves, hopened⟩ :=
    getOrCreateHeap_eq heap.schema h hroom ht hspace
  obtain ⟨b', hscan, -⟩ := heap'.scan_eq py (fun acc rid values => .ok (acc ++ [(rid, values)])) []
    hserves hroom hopened.present
  have hfind : findTable name x = (.ok info, x) := by simp only [findTable, ht.known]
  have hschema : (ofPython (getSchema py info) : Exec n TableSchema) x = (.ok heap.schema, x) := by
    rw [ht.schema, ofPython_ok]
  have hdecode : heap'.decode py = heap.decode py := by
    funext r
    rw [HeapFile.decode, HeapFile.decode, hopened.schema]
  rw [scanTable, Effect.bind_ok hfind, Effect.bind_ok hschema, Effect.bind_ok hheap, onPool,
    Effect.zoom, hscan, hopened.records, hdecode]
  have hloop : (heap.records written).foldlM (fun acc r => do
      let row ← heap.decode py r
      .ok (acc ++ [(row.1, row.2)])) [] = mapE (heap.decode py) (heap.records written) := by
    refine (foldlM_append_mapE []).trans ?_
    cases mapE (heap.decode py) (heap.records written) <;> rfl
  rw [hloop]

end Executor

end PySQL.Query
