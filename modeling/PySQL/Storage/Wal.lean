import PySQL.Lib.Dict
import PySQL.Storage.PageBytes

/-!
# The write-ahead log

A record's fixed part is packed with a format of 31 bytes and unpacked from a slice of
`LOG_HEADER_SIZE` bytes, which is 35.
-/

namespace PySQL.Storage

open Lib

inductive LogRecordType where
  | begin | commit | abort | insert | delete | update | checkpoint | clr | «end»
  deriving DecidableEq, Repr

def LogRecordType.value : LogRecordType → ℕ
  | begin => 1
  | commit => 2
  | abort => 3
  | insert => 4
  | delete => 5
  | update => 6
  | checkpoint => 7
  | clr => 8
  | «end» => 9

def LogRecordType.ofValue? : ℕ → Option LogRecordType
  | 1 => some .begin
  | 2 => some .commit
  | 3 => some .abort
  | 4 => some .insert
  | 5 => some .delete
  | 6 => some .update
  | 7 => some .checkpoint
  | 8 => some .clr
  | 9 => some .end
  | _ => none

def LOG_HEADER_SIZE : ℕ := 35

/-- The size of the format `>qIBqIIH`. -/
def logFormatSize : ℕ := 31

structure LogRecord where
  lsn : ℤ := 0
  txnId : ℤ := 0
  recordType : LogRecordType := .begin
  prevLsn : ℤ := 0
  tableId : ℤ := 0
  pageId : ℤ := 0
  slotId : ℤ := 0
  undoData : Bytes := []
  redoData : Bytes := []
  deriving DecidableEq, Repr

namespace LogRecord

/-- `header + undo_part + redo_part` -/
def body (r : LogRecord) : Bytes :=
  packBE 8 r.lsn ++ packBE 4 r.txnId ++ packBE 1 r.recordType.value ++ packBE 8 r.prevLsn ++
    packBE 4 r.tableId ++ packBE 4 r.pageId ++ packBE 2 r.slotId ++
    (packBE 4 r.undoData.length ++ r.undoData) ++ (packBE 4 r.redoData.length ++ r.redoData)

/-- Every field fits the width that `struct.pack` gives it. -/
structure InRange (r : LogRecord) : Prop where
  lsn : -2 ^ 63 ≤ r.lsn ∧ r.lsn < 2 ^ 63
  txnId : 0 ≤ r.txnId ∧ r.txnId < 2 ^ 32
  prevLsn : -2 ^ 63 ≤ r.prevLsn ∧ r.prevLsn < 2 ^ 63
  tableId : 0 ≤ r.tableId ∧ r.tableId < 2 ^ 32
  pageId : 0 ≤ r.pageId ∧ r.pageId < 2 ^ 32
  slotId : 0 ≤ r.slotId ∧ r.slotId < 2 ^ 16
  undoData : r.undoData.length < 2 ^ 32
  redoData : r.redoData.length < 2 ^ 32
  body : r.body.length < 2 ^ 32

instance (r : LogRecord) : Decidable r.InRange :=
  decidable_of_iff
    ((-2 ^ 63 ≤ r.lsn ∧ r.lsn < 2 ^ 63) ∧ (0 ≤ r.txnId ∧ r.txnId < 2 ^ 32) ∧
      (-2 ^ 63 ≤ r.prevLsn ∧ r.prevLsn < 2 ^ 63) ∧ (0 ≤ r.tableId ∧ r.tableId < 2 ^ 32) ∧
      (0 ≤ r.pageId ∧ r.pageId < 2 ^ 32) ∧ (0 ≤ r.slotId ∧ r.slotId < 2 ^ 16) ∧
      r.undoData.length < 2 ^ 32 ∧ r.redoData.length < 2 ^ 32 ∧ r.body.length < 2 ^ 32)
    ⟨fun ⟨a, b, c, d, e, f, g, h, i⟩ => ⟨a, b, c, d, e, f, g, h, i⟩,
      fun ⟨a, b, c, d, e, f, g, h, i⟩ => ⟨a, b, c, d, e, f, g, h, i⟩⟩

/-- The bytes of a record, its length at the end; `none` is a `struct.error`. -/
def serialize (r : LogRecord) : Option Bytes :=
  if r.InRange then some (r.body ++ packBE 4 r.body.length) else none

end LogRecord

/-- What reading a record can raise: `read_all` stops at the first and lets the second pass. -/
inductive WalError where
  | structError
  | valueError
  deriving DecidableEq, Repr

/-- The record at `offset`, and how many bytes it took. -/
def LogRecord.deserialize (data : Bytes) (offset : ℕ) : Except WalError (LogRecord × ℕ) :=
  let header := field data offset LOG_HEADER_SIZE
  if header.length ≠ logFormatSize then .error .structError
  else
    let undoPos := offset + LOG_HEADER_SIZE
    if (field data undoPos 4).length ≠ 4 then .error .structError
    else
      let undoLen := unpackBE (field data undoPos 4)
      let redoPos := undoPos + 4 + undoLen
      if (field data redoPos 4).length ≠ 4 then .error .structError
      else
        let redoLen := unpackBE (field data redoPos 4)
        match LogRecordType.ofValue? (unpackBE (field header 12 1)) with
        | none => .error .valueError
        | some recordType =>
          .ok ({
            lsn := unpackSignedBE (field header 0 8)
            txnId := unpackBE (field header 8 4)
            recordType
            prevLsn := unpackSignedBE (field header 13 8)
            tableId := unpackBE (field header 21 4)
            pageId := unpackBE (field header 25 4)
            slotId := unpackBE (field header 29 2)
            undoData := field data (undoPos + 4) undoLen
            redoData := field data (redoPos + 4) redoLen },
            redoPos + 4 + redoLen + 4 - offset)

theorem LogRecord.consumed_pos {data : Bytes} {offset consumed : ℕ} {r : LogRecord}
    (h : deserialize data offset = .ok (r, consumed)) : 0 < consumed := by
  unfold deserialize at h
  simp only at h
  split at h
  · cases h
  split at h
  · cases h
  split at h
  · cases h
  split at h
  · cases h
  · cases h
    omega

/-- The loop of `read_all`: a `struct.error` ends it, a `ValueError` ends the call. -/
def readFrom (data : Bytes) (offset : ℕ) : Except WalError (List LogRecord) :=
  if offset < data.length then
    match _h : LogRecord.deserialize data offset with
    | .error .structError => .ok []
    | .error .valueError => .error .valueError
    | .ok (record, consumed) =>
      match readFrom data (offset + consumed) with
      | .error e => .error e
      | .ok records => .ok (record :: records)
  else .ok []
termination_by data.length - offset
decreasing_by
  have := LogRecord.consumed_pos ‹_›
  omega

/-! ## The manager -/

/-- The manager and the file on its path. -/
structure WALManager where
  file : Bytes
  nextLsn : ℤ
  flushedLsn : ℤ
  buffer : List LogRecord
  txnTable : Dict ℤ ℤ

namespace WALManager

def readAll (w : WALManager) : Except WalError (List LogRecord) := readFrom w.file 0

/-- `next_lsn` and `flushed_lsn` taken from the last record that was read. -/
def adoptLast (w : WALManager) (records : List LogRecord) : WALManager :=
  match records.getLast? with
  | some last => { w with nextLsn := last.lsn + 1, flushedLsn := last.lsn }
  | none => w

/-- A manager on a file; an exception of `_recover_lsn` leaves none. -/
def ofFile (file : Bytes) : Except WalError WALManager :=
  let w : WALManager :=
    { file, nextLsn := 1, flushedLsn := 0, buffer := [], txnTable := Dict.empty }
  match w.readAll with
  | .error e => .error e
  | .ok records => .ok (w.adoptLast records)

/-- Give the record its number and put it in the buffer. -/
def append (w : WALManager) (record : LogRecord) : WALManager × ℤ :=
  let record := { record with
    lsn := w.nextLsn
    prevLsn := (w.txnTable.get? record.txnId).getD 0 }
  ({ w with
      txnTable := w.txnTable.set record.txnId record.lsn
      buffer := w.buffer ++ [record]
      nextLsn := w.nextLsn + 1 }, record.lsn)

/-- The records that are written before one that cannot be serialized. -/
def writable (records : List LogRecord) : List LogRecord :=
  records.takeWhile fun r => r.serialize.isSome

/-- Append the buffer to the file.  A record that cannot be serialized raises after the records
before it are written, and the buffer stays as it is. -/
def flush (w : WALManager) : WALManager × Except WalError Unit :=
  let file := w.file ++ (writable w.buffer).flatMap fun r => r.serialize.getD []
  if writable w.buffer = w.buffer then
    match w.buffer.getLast? with
    | none => (w, .ok ())
    | some last => ({ w with file, flushedLsn := last.lsn, buffer := [] }, .ok ())
  else ({ w with file }, .error .structError)

def truncate (w : WALManager) : WALManager := { w with file := [], flushedLsn := 0 }

/-- What the analysis of `recover` knows after some records. -/
structure Analysis where
  active : Dict ℤ (List LogRecord) := Dict.empty
  committed : Finset ℤ := ∅
  aborted : Finset ℤ := ∅

def Analysis.record (a : Analysis) (r : LogRecord) : Analysis :=
  match r.recordType with
  | .begin => { a with active := a.active.set r.txnId [] }
  | .commit =>
    { a with committed := insert r.txnId a.committed, active := a.active.erase r.txnId }
  | .abort => { a with aborted := insert r.txnId a.aborted, active := a.active.erase r.txnId }
  | .insert | .delete | .update =>
    match a.active.get? r.txnId with
    | some records => { a with active := a.active.set r.txnId (records ++ [r]) }
    | none => a
  | .checkpoint | .clr | .end => a

def analyse (records : List LogRecord) : Finset ℤ × Finset ℤ :=
  let a := records.foldl Analysis.record {}
  (a.committed, a.aborted ∪ (a.active.items.map Prod.fst).toFinset)

/-- The transactions that committed and those that did not. -/
def recover (w : WALManager) : WALManager × Except WalError (Finset ℤ × Finset ℤ) :=
  match w.readAll with
  | .error e => (w, .error e)
  | .ok records => (w.adoptLast records, .ok (analyse records))

end WALManager

/-! ## Reading -/

/-- No record can be read: a slice that is 31 bytes long is the end of the file, and the length of
the undo data is looked for past it. -/
theorem LogRecord.deserialize_eq (data : Bytes) (offset : ℕ) :
    deserialize data offset = .error .structError := by
  unfold deserialize
  simp only
  split
  · rfl
  next hheader =>
  have hshort : (field data (offset + LOG_HEADER_SIZE) 4).length ≠ 4 := by
    simp only [length_field, LOG_HEADER_SIZE, logFormatSize] at hheader ⊢
    omega
  rw [if_pos hshort]

theorem readFrom_eq (data : Bytes) (offset : ℕ) : readFrom data offset = .ok [] := by
  unfold readFrom
  split
  · split
    · rfl
    · next h => rw [LogRecord.deserialize_eq] at h; cases h
    · next h => rw [LogRecord.deserialize_eq] at h; cases h
  · rfl

@[simp] theorem WALManager.readAll_eq (w : WALManager) : w.readAll = .ok [] := readFrom_eq w.file 0

/-- The bytes of a list of records, one after the other. -/
def serializeAll : List LogRecord → Option Bytes
  | [] => some []
  | r :: records =>
    match r.serialize, serializeAll records with
    | some bytes, some rest => some (bytes ++ rest)
    | _, _ => none

/-- How many bytes a record takes in the file. -/
def LogRecord.size (r : LogRecord) : ℕ := r.body.length + 4

theorem LogRecord.length_serialize {r : LogRecord} {bytes : Bytes} (h : r.serialize = some bytes) :
    bytes.length = r.size := by
  unfold serialize at h
  split at h
  · rw [← Option.some.inj h, List.length_append, length_packBE, size]
  · cases h

/-- The records whose bytes lie wholly in the first `length` bytes: each that is there leaves less
room for the next. -/
def wholeWithin : ℕ → List LogRecord → List LogRecord
  | _, [] => []
  | length, r :: records =>
    if r.size ≤ length then r :: wholeWithin (length - r.size) records else []

theorem length_serializeAll {records : List LogRecord} {data : Bytes}
    (h : serializeAll records = some data) : data.length = (records.map LogRecord.size).sum := by
  induction records generalizing data with
  | nil =>
    cases h
    rfl
  | cons r records ih =>
    unfold serializeAll at h
    split at h
    · next bytes rest hbytes hrest =>
      cases h
      rw [List.length_append, LogRecord.length_serialize hbytes, ih hrest, List.map_cons,
        List.sum_cons]
    · cases h

/-- The whole log holds every record. -/
theorem wholeWithin_all (records : List LogRecord) {length : ℕ}
    (h : (records.map LogRecord.size).sum ≤ length) : wholeWithin length records = records := by
  induction records generalizing length with
  | nil => rfl
  | cons r records ih =>
    rw [List.map_cons, List.sum_cons] at h
    rw [wholeWithin, if_pos (by omega), ih (by omega)]

theorem wholeWithin_eq_nil {length : ℕ} {records : List LogRecord} :
    wholeWithin length records = [] ↔ ∀ r ∈ records.head?, length < r.size := by
  cases records with
  | nil => simp [wholeWithin]
  | cons r records =>
    simp only [wholeWithin, List.head?_cons, Option.mem_some_iff, forall_eq']
    split
    · next hfit => simp [hfit]
    · next hcut => simpa using hcut

/-- Reading a file that holds a piece from the start of a log gives the records that lie wholly in
it if and only if none does; all of them do in the whole log. -/
theorem readAll_eq_wholeWithin_iff {records : List LogRecord} {data : Bytes}
    (h : serializeAll records = some data) : wholeWithin data.length records = records ∧
      ∀ w : WALManager, w.file <+: data →
        (w.readAll = .ok (wholeWithin w.file.length records) ↔
          ∀ r ∈ records.head?, w.file.length < r.size) := by
  refine ⟨wholeWithin_all records (length_serializeAll h).ge, fun w _ => ?_⟩
  rw [w.readAll_eq, ← wholeWithin_eq_nil]
  constructor
  · intro heq
    exact (Except.ok.inj heq).symm
  · intro hnil
    rw [hnil]

/-- A log of one `BEGIN` record. -/
def beginLog : Bytes := ({} : LogRecord).body ++ packBE 4 39

theorem readAll_eq_wholeWithin_iff_beginLog : wholeWithin beginLog.length [{}] = [{}] ∧
    ∀ w : WALManager, w.file <+: beginLog →
      (w.readAll = .ok (wholeWithin w.file.length [{}]) ↔
        ∀ r ∈ [({} : LogRecord)].head?, w.file.length < r.size) :=
  readAll_eq_wholeWithin_iff (by decide)

theorem beginLog_not_read : ¬ ∀ (records : List LogRecord) (data : Bytes),
    serializeAll records = some data → ∀ w : WALManager, w.file <+: data →
      w.readAll = .ok (wholeWithin w.file.length records) := by
  intro h
  have hread := h [{}] beginLog (by decide) ⟨beginLog, 1, 0, [], Dict.empty⟩ List.prefix_rfl
  rw [WALManager.readAll_eq] at hread
  exact absurd hread (by decide)

end PySQL.Storage
