import PySQL.Storage.Heap

/-!
# Inserting into heap files

A record goes to the first page that takes it, or to a new page at the end of the chain.
-/

namespace PySQL.Storage

open Query Lib

set_option linter.unusedSectionVars false

variable {n : ℕ} [NeZero n] {α : Type}

/-- Calls of a heap file that may raise, on the file and the pool that holds its pages. -/
abbrev HeapCalls (n : ℕ) : Type → Type := Effect (HeapFile × BufferPool n) DbError

namespace HeapFile

def inPool (m : PoolCalls n α) : HeapCalls n α :=
  Effect.zoom Prod.snd (fun x pool => (x.1, pool)) m

def keepPage (pageId : ℕ) : HeapCalls n Unit :=
  Effect.change fun x => ({ x.1 with pageIds := x.1.pageIds ++ [pageId] }, x.2)

/-- The first page that takes the record, with the slot that it gives it. -/
def tryPages (recordData : Bytes) : List ℕ → PoolCalls n (Option RecordId)
  | [] => pure none
  | pageId :: rest => do
    let page ← fetchPage pageId
    let (page, slot) := page.insertRecord recordData
    modifyPage pageId page
    match slot with
    | some slotIndex => do
      unpinPage pageId true
      return some ⟨pageId, slotIndex⟩
    | none => do
      unpinPage pageId false
      tryPages recordData rest

/-- Link a new page to the one before it, if there is one. -/
def linkPage (prevPageId : Option ℕ) (newPage : Page) : PoolCalls n Page :=
  match prevPageId with
  | none => pure newPage
  | some prevPageId => do
    let newPageId := newPage.header.pageId
    let prevPage ← fetchPage prevPageId
    modifyPage prevPageId { prevPage with header := { prevPage.header with nextPage := newPageId } }
    let newPage := { newPage with header := { newPage.header with prevPage := prevPageId } }
    modifyPage newPageId newPage
    unpinPage prevPageId true
    return newPage

/-- A page that is full of nothing but the new record is kept when it has no room for it. -/
def insertNew (recordData : Bytes) (prevPageId : Option ℕ) : HeapCalls n RecordId := do
  let newPage ← inPool newPage
  let newPageId := newPage.header.pageId
  keepPage newPageId
  let newPage ← inPool (linkPage prevPageId newPage)
  let (newPage, slot) := newPage.insertRecord recordData
  inPool (modifyPage newPageId newPage)
  inPool (unpinPage newPageId true)
  match slot with
  | none => ofPython (.error (.runtimeError "Record too large to fit in a single page"))
  | some slotIndex => return ⟨newPageId, slotIndex⟩

def insert (py : Py) (values : Row) : HeapCalls n RecordId := do
  let heap ← Effect.read Prod.fst
  let recordData ← ofPython (RecordSerializer.serialize py heap.schema values)
  match ← inPool (tryPages recordData heap.pageIds) with
  | some rid => return rid
  | none => insertNew recordData heap.pageIds.getLast?

end HeapFile

end PySQL.Storage
