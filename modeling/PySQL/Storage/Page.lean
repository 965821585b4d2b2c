import PySQL.Lib.Machine
import PySQL.Lib.Slice

/-!
# Slotted pages

Offsets and the two space counters of the header are integers: `insert_record` subtracts a record
length from `data_end` without looking at the slot directory, and a slice of the page buffer may
then have bounds that are negative or past each other.
-/

namespace PySQL.Storage

open Lib

abbrev Bytes := List UInt8

def PAGE_SIZE : ℕ := 4096
def HEADER_SIZE : ℕ := 32
def SLOT_SIZE : ℕ := 4
def INVALID_PAGE_ID : ℕ := 0xFFFFFFFF

inductive PageType where
  | free | heapData | btreeInternal | btreeLeaf | overflow | metadata
  deriving DecidableEq, Repr

def PageType.value : PageType → ℕ
  | free => 0
  | heapData => 1
  | btreeInternal => 2
  | btreeLeaf => 3
  | overflow => 4
  | metadata => 5

/-- `PageFlags.DIRTY` -/
def DIRTY : ℕ := 1

/-- A record's place in the page; length 0 is a deleted (tombstoned) slot. -/
structure SlotEntry where
  offset : ℤ
  length : ℕ
  deriving DecidableEq, Repr

def SlotEntry.isDeleted (s : SlotEntry) : Bool := s.length == 0

structure PageHeader where
  pageId : ℕ := 0
  pageType : PageType := .free
  flags : ℕ := 0
  numSlots : ℕ := 0
  freeSpace : ℤ := PAGE_SIZE - HEADER_SIZE
  dataEnd : ℤ := PAGE_SIZE
  nextPage : ℕ := INVALID_PAGE_ID
  prevPage : ℕ := INVALID_PAGE_ID
  lsn : ℤ := 0
  checksum : ℕ := 0
  deriving DecidableEq, Repr

/-- The `width` low bytes of `v`, most significant first. -/
def packBE : ℕ → ℤ → Bytes
  | 0, _ => []
  | width + 1, v => packBE width (v / 256) ++ [UInt8.ofNat (v % 256).toNat]

/-- Serialize the header to 32 bytes. -/
def PageHeader.pack (h : PageHeader) : Bytes :=
  packBE 4 h.pageId ++ packBE 1 h.pageType.value ++ packBE 1 h.flags ++ packBE 2 h.numSlots ++
    packBE 2 h.freeSpace ++ packBE 2 h.dataEnd ++ packBE 4 h.nextPage ++ packBE 4 h.prevPage ++
    packBE 8 h.lsn ++ packBE 4 h.checksum

@[simp] theorem length_packBE (width : ℕ) (v : ℤ) : (packBE width v).length = width := by
  induction width generalizing v with
  | zero => rfl
  | succ width ih => simp [packBE, ih]

@[simp] theorem PageHeader.length_pack (h : PageHeader) : h.pack.length = HEADER_SIZE := by
  simp [PageHeader.pack, HEADER_SIZE]

structure Page where
  data : Bytes
  header : PageHeader
  slots : List SlotEntry
  deriving DecidableEq, Repr

namespace Page

def writeHeader (p : Page) : Page :=
  { p with data := setSlice p.data 0 HEADER_SIZE p.header.pack }

def new (pageId : ℕ) (pageType : PageType) : Page :=
  writeHeader { data := List.replicate PAGE_SIZE 0, header := { pageId, pageType }, slots := [] }

def insertRecord (p : Page) (record : Bytes) : Page × Option ℕ :=
  let spaceNeeded : ℤ := record.length + SLOT_SIZE
  if spaceNeeded > p.header.freeSpace then (p, none)
  else
    let newDataEnd := p.header.dataEnd - record.length
    let data := setSlice p.data newDataEnd (newDataEnd + record.length) record
    let slot : SlotEntry := { offset := newDataEnd, length := record.length }
    match p.slots.findIdx? SlotEntry.isDeleted with
    | some slotIndex =>
      ({ data
         slots := p.slots.set slotIndex slot
         header := { p.header with
           dataEnd := newDataEnd
           freeSpace := p.header.freeSpace - record.length
           flags := p.header.flags ||| DIRTY } }, some slotIndex)
    | none =>
      ({ data
         slots := p.slots ++ [slot]
         header := { p.header with
           numSlots := p.header.numSlots + 1
           dataEnd := newDataEnd
           freeSpace := p.header.freeSpace - spaceNeeded
           flags := p.header.flags ||| DIRTY } }, some p.slots.length)

/-- The bytes a slot points to. -/
def recordAt (p : Page) (s : SlotEntry) : Bytes := slice p.data s.offset (s.offset + s.length)

def readRecord (p : Page) (slotIndex : ℕ) : Option Bytes :=
  match p.slots[slotIndex]? with
  | some s => if s.isDeleted then none else some (p.recordAt s)
  | none => none

def deleteRecord (p : Page) (slotIndex : ℕ) : Page × Bool :=
  match p.slots[slotIndex]? with
  | some s =>
    if s.isDeleted then (p, false)
    else
      ({ p with
          slots := p.slots.set slotIndex { offset := 0, length := 0 }
          header := { p.header with
            freeSpace := p.header.freeSpace + s.length
            flags := p.header.flags ||| DIRTY } }, true)
  | none => (p, false)

/-- `slots[i], slots[j] = slots[j], slots[i]` -/
def swap (slots : List SlotEntry) (i j : ℕ) : List SlotEntry :=
  match slots[i]?, slots[j]? with
  | some a, some b => (slots.set i b).set j a
  | _, _ => slots

def updateRecord (p : Page) (slotIndex : ℕ) (newRecord : Bytes) : Page × Bool :=
  match p.slots[slotIndex]? with
  | some s =>
    if s.isDeleted then (p, false)
    else if newRecord.length ≤ s.length then
      ({ data := setSlice p.data s.offset (s.offset + newRecord.length) newRecord
         slots := p.slots.set slotIndex { offset := s.offset, length := newRecord.length }
         header := { p.header with
           freeSpace := p.header.freeSpace + (s.length - newRecord.length)
           flags := p.header.flags ||| DIRTY } }, true)
    else
      match (p.deleteRecord slotIndex).1.insertRecord newRecord with
      | (p', some newSlot) =>
        if newSlot ≠ slotIndex then ({ p' with slots := swap p'.slots slotIndex newSlot }, true)
        else (p', true)
      | (p', none) => (p', false)
  | none => (p, false)

/-- The live slots with the records they point to. -/
def liveRecords (p : Page) : List (ℕ × Bytes) :=
  p.slots.zipIdx.filterMap fun (s, i) => if s.isDeleted then none else some (i, p.recordAt s)

/-- One turn of the second loop of `compact`: the record goes below `data_end`. -/
def place (p : Page) (live : ℕ × Bytes) : Page :=
  let dataEnd := p.header.dataEnd - live.2.length
  { data := setSlice p.data dataEnd (dataEnd + live.2.length) live.2
    slots := p.slots.set live.1 { offset := dataEnd, length := live.2.length }
    header := { p.header with dataEnd } }

def compact (p : Page) : Page :=
  let placed := p.liveRecords.foldl place { p with header := { p.header with dataEnd := PAGE_SIZE } }
  let slotDirEnd : ℤ := HEADER_SIZE + p.slots.length * SLOT_SIZE
  { placed with
    header := { placed.header with
      freeSpace := placed.header.dataEnd - slotDirEnd
      flags := placed.header.flags ||| DIRTY } }

end Page

/-! ## The calls a page takes -/

inductive PageCall where
  | insert (record : Bytes)
  | update (slotIndex : ℕ) (newRecord : Bytes)
  | delete (slotIndex : ℕ)
  | compact
  deriving DecidableEq, Repr

inductive PageReply where
  | slot (slotIndex : Option ℕ)
  | bool (b : Bool)
  | unit
  deriving DecidableEq, Repr

def Page.step (p : Page) : PageCall → Page × PageReply
  | .insert record => let r := p.insertRecord record; (r.1, .slot r.2)
  | .update slotIndex newRecord => let r := p.updateRecord slotIndex newRecord; (r.1, .bool r.2)
  | .delete slotIndex => let r := p.deleteRecord slotIndex; (r.1, .bool r.2)
  | .compact => (p.compact, .unit)

/-- The record a call stores. -/
def PageCall.record? : PageCall → Option Bytes
  | .insert record | .update _ record => some record
  | .delete _ | .compact => none

/-- A fresh page under any sequence of calls with non-empty records. -/
def pageMachine (pageId : ℕ) (pageType : PageType) : Machine Page PageCall PageReply where
  init := Page.new pageId pageType
  enabled _ call := ∀ record ∈ call.record?, record ≠ []
  step := Page.step

instance (pageId : ℕ) (pageType : PageType) (p : Page) (call : PageCall) :
    Decidable ((pageMachine pageId pageType).enabled p call) :=
  inferInstanceAs (Decidable (∀ record ∈ call.record?, record ≠ []))

end PySQL.Storage
