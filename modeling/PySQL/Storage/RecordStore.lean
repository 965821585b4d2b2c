import PySQL.Lib.Refinement
import PySQL.Storage.HeapFamily

/-!
# Heap files as a record store

A database keeps a heap file for each table, in one buffer pool.  Seen from outside it is a list of
maps from record ids to records, also after it was closed and opened again: where a record lies,
which pages are resident and in what order they are written does not show.
-/

namespace PySQL.Storage

open Query Lib BufferPool

set_option linter.unusedSectionVars false

variable {n : ℕ} [NeZero n] {α : Type}

inductive StoreCall where
  | create (schema : TableSchema)
  | insert (file : ℕ) (values : Row)
  | read (file : ℕ) (rid : RecordId)
  | update (file : ℕ) (rid : RecordId) (values : Row)
  | delete (file : ℕ) (rid : RecordId)
  | scan (file : ℕ)
  | getRecordCount (file : ℕ)
  | checkpoint
  | restart

inductive StoreReply where
  | done
  | rid (rid : RecordId)
  | row (row : Option Row)
  | flag (success : Bool)
  | rows (rows : List (RecordId × Row))
  | count (count : ℕ)
  | raised (e : DbError)

def StoreReply.ofExcept (reply : α → StoreReply) : Except DbError α → StoreReply
  | .ok a => reply a
  | .error e => .raised e

/-! ## The calls -/

/-- `self._pool.flush_all()` -/
def flushPool : PoolCalls n Unit := fun b =>
  match b.flushAll with
  | (b, .ok ()) => (.ok (), b)
  | (b, .error e) => (.error (.storage e), b)

/-- `Database.close`: a checkpoint, and what is left is flushed. -/
def close : PoolCalls n Unit := do
  flushPool
  flushPool

/-- `Executor._get_heap_file` for each table of the catalog. -/
def reopen : List HeapFile → PoolCalls n (List HeapFile)
  | [] => pure []
  | heap :: rest => do
    let heap ← HeapFile.initAt heap.schema (some heap.firstPageId)
    return heap :: (← reopen rest)

namespace HeapStore

def checkpoint (s : HeapStore n) : HeapStore n × StoreReply :=
  let r := flushPool s.pool
  ({ s with pool := r.2 }, .ofExcept (fun _ => .done) r.1)

/-- The database is closed, and opened by another process: its pool has seen no page yet. -/
def restart (s : HeapStore n) : HeapStore n × StoreReply :=
  match close s.pool with
  | (.error e, pool) => ({ s with pool }, .raised e)
  | (.ok (), pool) =>
    let r := reopen s.files (BufferPool.new (.ofFile pool.disk.file))
    (⟨r.2, match r.1 with
      | .ok files => files
      | .error _ => []⟩, .ofExcept (fun _ => .done) r.1)

/-- A call of an open file, with its reply. -/
def ask (s : HeapStore n) (file : ℕ) (reply : α → StoreReply) (m : HeapFile → HeapCalls n α) :
    HeapStore n × StoreReply :=
  match s.files[file]? with
  | none => (s, .done)
  | some heap =>
    let r := m heap (heap, s.pool)
    (⟨r.2.2, s.files.set file r.2.1⟩, .ofExcept reply r.1)

def answer (py : Py) (s : HeapStore n) : StoreCall → HeapStore n × StoreReply
  | .create schema =>
    let r := HeapFile.init schema none s.pool
    match r with
    | (.ok heap, pool) => (⟨pool, s.files ++ [heap]⟩, .done)
    | (.error e, pool) => ({ s with pool }, .raised e)
  | .insert file values => s.ask file .rid fun _ => HeapFile.insert py values
  | .read file rid => s.ask file .row fun heap =>
    HeapFile.inPool (heap.readAt py rid.pageId rid.slotIndex)
  | .update file rid values => s.ask file .flag fun heap =>
    HeapFile.inPool (heap.updateAt py rid.pageId rid.slotIndex values)
  | .delete file rid => s.ask file .flag fun _ =>
    HeapFile.inPool (HeapFile.deleteAt rid.pageId rid.slotIndex)
  | .scan file => s.ask file .rows fun heap =>
    HeapFile.inPool (heap.scan py (fun rows rid values => pure (rows ++ [(rid, values)])) [])
  | .getRecordCount file => s.ask file .count fun heap => HeapFile.inPool heap.getRecordCount
  | .checkpoint => s.checkpoint
  | .restart => s.restart

end HeapStore

/-- The page that a fetch finds, in its frame or on disk. -/
def BufferPool.current (b : BufferPool n) (pageId : ℤ) : Option Page :=
  match b.pageTable.get? pageId with
  | some f => b.frames f
  | none => (b.disk.readPage pageId).toOption

namespace HeapStore

/-- Tables have columns, record ids are of the file's pages, page numbers are left, and a record
that a page takes fits below its data. -/
def Admits (py : Py) (s : HeapStore n) : StoreCall → Prop
  | .create schema => schema.columnNames ≠ [] ∧ s.pool.disk.numPages < INVALID_PAGE_ID
  | .insert file values => ∃ heap, s.files[file]? = some heap ∧
    s.pool.disk.numPages < INVALID_PAGE_ID ∧
    ∀ data, RecordSerializer.serialize py heap.schema values = .ok data →
      HeapFile.FitsFirst s.pool.current data heap.pageIds
  | .read file rid | .delete file rid =>
    ∃ heap, s.files[file]? = some heap ∧ rid.pageId ∈ heap.pageIds
  | .update file rid values => ∃ heap, s.files[file]? = some heap ∧ rid.pageId ∈ heap.pageIds ∧
    ∀ data, RecordSerializer.serialize py heap.schema values = .ok data →
      ∀ page ∈ s.pool.current rid.pageId, page.Fits (.update rid.slotIndex data)
  | .scan file | .getRecordCount file => ∃ heap, s.files[file]? = some heap
  | .checkpoint | .restart => True

end HeapStore

/-- The heap files of a database that starts with an empty file. -/
def heapMachine (n : ℕ) [NeZero n] (py : Py) : Machine (HeapStore n) StoreCall StoreReply where
  init := .new (.ofFile [])
  enabled := HeapStore.Admits py
  step := HeapStore.answer py

/-! ## What the files are for -/

namespace Table

def decode (py : Py) (t : Table) (r : RecordId × Bytes) : Except PyError (RecordId × Row) := do
  return (r.1, ← RecordSerializer.deserialize py t.schema r.2)

end Table

/-- What a call may answer, and the tables after it.  A new record gets an id that no record of any
table has. -/
inductive Answers (py : Py) (ts : List Table) : StoreCall → StoreReply → List Table → Prop where
  | create {schema : TableSchema} :
      Answers py ts (.create schema) .done (ts ++ [⟨schema, fun _ => none⟩])
  | insert {file : ℕ} {values : Row} {t t' : Table} {r : Except DbError RecordId}
      (ht : ts[file]? = some t) (h : t.Inserts py values r t')
      (hfresh : ∀ rid, r = .ok rid → ∀ other ∈ ts, other.records rid = none) :
      Answers py ts (.insert file values) (.ofExcept .rid r) (ts.set file t')
  | read {file : ℕ} {rid : RecordId} {t : Table} (ht : ts[file]? = some t) :
      Answers py ts (.read file rid) (.ofExcept .row ((t.read py rid).mapError .python)) ts
  | update {file : ℕ} {rid : RecordId} {values : Row} {t : Table} {data : Bytes}
      (ht : ts[file]? = some t) (h : RecordSerializer.serialize py t.schema values = .ok data) :
      Answers py ts (.update file rid values) (.flag (t.records rid).isSome)
        (ts.set file (t.put rid ((t.records rid).map fun _ => data)))
  | updateRaises {file : ℕ} {rid : RecordId} {values : Row} {t : Table} {e : PyError}
      (ht : ts[file]? = some t) (h : RecordSerializer.serialize py t.schema values = .error e) :
      Answers py ts (.update file rid values) (.raised (.python e)) ts
  | delete {file : ℕ} {rid : RecordId} {t : Table} (ht : ts[file]? = some t) :
      Answers py ts (.delete file rid) (.flag (t.records rid).isSome)
        (ts.set file (t.put rid none))
  | scan {file : ℕ} {t : Table} {rs : List (RecordId × Bytes)} (ht : ts[file]? = some t)
      (hrs : t.Lists rs) : Answers py ts (.scan file)
        (.ofExcept .rows ((mapE (t.decode py) rs).mapError .python)) ts
  | getRecordCount {file : ℕ} {t : Table} {rs : List (RecordId × Bytes)}
      (ht : ts[file]? = some t) (hrs : t.Lists rs) :
      Answers py ts (.getRecordCount file) (.count rs.length) ts
  | checkpoint : Answers py ts .checkpoint .done ts
  | restart : Answers py ts .restart .done ts

def tableStore (py : Py) : Specification (List Table) StoreCall StoreReply where
  init := []
  step := Answers py

/-- The call does not change a record that there is. -/
def StoreCall.Appends : StoreCall → Prop
  | .update _ _ _ | .delete _ _ => False
  | .create _ | .insert _ _ | .read _ _ | .scan _ | .getRecordCount _ | .checkpoint | .restart => True

/-! ## Files side by side -/

namespace HeapStore

/-- The open files by their numbers. -/
def file? (s : HeapStore n) (file : ℕ) : Option HeapFile := s.files[file]?

/-- Nothing is pinned, every file has its pages, and no page belongs to two of them. -/
structure Stands (s : HeapStore n) (written : ℤ → Option Page) : Prop where
  serves : s.pool.Serves [] written
  family : HeapFile.Family s.file? written

def tables (s : HeapStore n) (written : ℤ → Option Page) : List Table :=
  s.files.map fun heap => heap.table written

/-- No page of any file has a hole. -/
def Packed (s : HeapStore n) (written : ℤ → Option Page) : Prop :=
  HeapFile.AllPacked s.file? written

variable {s : HeapStore n} {b' : BufferPool n} {written written' : ℤ → Option Page}
  {heap heap' : HeapFile} {file : ℕ} {py : Py}

theorem stands_new : (new (.ofFile []) : HeapStore n).Stands (writtenAtFirst []) where
  serves := coherent_init ⟨rfl, by simp⟩
  family := HeapFile.family_none

theorem Stands.held (h : s.Stands written) : ∀ heap ∈ s.files, heap.Held written := by
  intro heap hmem
  obtain ⟨file, hfile⟩ := List.mem_iff_getElem?.mp hmem
  exact h.family.held file heap hfile

theorem getElem?_tables (hfile : s.files[file]? = some heap) :
    (s.tables written)[file]? = some (heap.table written) := by
  rw [tables, List.getElem?_map, hfile]
  rfl

theorem file?_set (hfile : s.files[file]? = some heap) : file? ⟨b', s.files.set file heap'⟩ =
    Function.update s.file? file (some heap') := by
  funext j
  by_cases hj : j = file
  · subst hj
    rw [Function.update_self]
    exact List.getElem?_set_self (List.getElem?_eq_some_iff.mp hfile).1
  · rw [Function.update_of_ne hj]
    exact List.getElem?_set_ne (Ne.symm hj)

theorem file?_append : file? ⟨b', s.files ++ [heap]⟩ =
    Function.update s.file? s.files.length (some heap) := by
  funext j
  show (s.files ++ [heap])[j]? = _
  by_cases hj : j = s.files.length
  · subst hj
    rw [Function.update_self, List.getElem?_concat_length]
  · rw [Function.update_of_ne hj]
    rcases Nat.lt_or_gt_of_ne hj with hlt | hgt
    · exact List.getElem?_append_left hlt
    · rw [List.getElem?_eq_none (by simp; omega)]
      exact (List.getElem?_eq_none (by omega)).symm

/-- A call of one file leaves the others as they are. -/
theorem Stands.moves (h : s.Stands written) (hfile : s.files[file]? = some heap)
    (hserves : b'.Serves [] written') (hmoves : heap.Moves heap' written written') :
    Stands ⟨b', s.files.set file heap'⟩ written' ∧
      tables ⟨b', s.files.set file heap'⟩ written' =
        (s.tables written).set file (heap'.table written') := by
  have hlt : file < s.files.length := (List.getElem?_eq_some_iff.mp hfile).1
  refine ⟨⟨hserves, ?_⟩, ?_⟩
  · rw [file?_set hfile]
    exact h.family.moves hfile hmoves
  · refine List.ext_getElem? fun j => ?_
    rw [tables, List.getElem?_map]
    by_cases hj : j = file
    · subst hj
      rw [List.getElem?_set_self hlt, List.getElem?_set_self (by simpa [tables] using hlt)]
      rfl
    · rw [List.getElem?_set_ne (Ne.symm hj), List.getElem?_set_ne (Ne.symm hj), tables,
        List.getElem?_map]
      cases hget : s.files[j]? with
      | none => rfl
      | some other =>
        simp only [Option.map_some, HeapFile.table,
          h.family.recordAt_agree hfile hmoves hj hget]

theorem Stands.packed_moves (h : s.Stands written) (hfile : s.files[file]? = some heap)
    (hmoves : heap.Moves heap' written written') (hold : s.Packed written)
    (hnew : heap'.Packed written') : Packed ⟨b', s.files.set file heap'⟩ written' := by
  rw [Packed, file?_set hfile]
  exact h.family.packed_moves hfile hmoves hold hnew

/-- A new file. -/
theorem Stands.adds (h : s.Stands written) (hserves : b'.Serves [] written') {schema : TableSchema}
    (hstarts : heap.Starts schema written written') :
    Stands ⟨b', s.files ++ [heap]⟩ written' ∧
      tables ⟨b', s.files ++ [heap]⟩ written' = s.tables written ++ [⟨schema, fun _ => none⟩] ∧
      (s.Packed written → Packed ⟨b', s.files ++ [heap]⟩ written') := by
  obtain ⟨hfamily, hpacked, hothers⟩ := h.family.starts (k := s.files.length) hstarts
  refine ⟨⟨hserves, ?_⟩, ?_, fun hold => ?_⟩
  · rw [file?_append]
    exact hfamily
  · have htable : heap.table written' = ⟨schema, fun _ => none⟩ := by
      rw [HeapFile.table, hstarts.schema, hstarts.vacant]
    rw [tables, List.map_append, List.map_singleton, htable, tables]
    congr 1
    refine List.map_congr_left fun other hmem => ?_
    obtain ⟨j, hget⟩ := List.mem_iff_getElem?.mp hmem
    rw [HeapFile.table, HeapFile.table, hothers j other hget]
  · rw [Packed, file?_append]
    exact hpacked hold

/-! ## The page that a fetch finds -/

theorem current_eq {b : BufferPool n} {pins : List ℤ} (h : b.Serves pins written) {q : ℤ} {w : Page}
    (hw : written q = some w) : ∃ p, b.current q = some p ∧ p.contents = w.contents := by
  unfold BufferPool.current
  cases hentry : b.pageTable.get? q with
  | some f =>
    obtain ⟨p, w', hframe, -, hw', hcontents, -⟩ := Coherent.resident_page h hentry
    have hsame : written q = some w' := hw'
    rw [hw, Option.some.injEq] at hsame
    exact ⟨p, hframe, hsame ▸ hcontents⟩
  | none =>
    obtain ⟨p, w', hread, hw', hcontents, -⟩ := Coherent.read h hentry (by
      show (written q).isSome
      rw [hw]
      rfl)
    have hsame : written q = some w' := hw'
    rw [hw, Option.some.injEq] at hsame
    refine ⟨p, ?_, hsame ▸ hcontents⟩
    rw [hread]
    rfl

theorem fits_of_current {b : BufferPool n} {pins : List ℤ} (h : b.Serves pins written) {q : ℤ}
    {i : ℕ} {data : Bytes} (hfits : ∀ page ∈ b.current q, page.Fits (.update i data)) :
    ∀ w ∈ written q, w.Fits (.update i data) := by
  intro w hw
  obtain ⟨p, hp, hcontents⟩ := current_eq h hw
  exact (Page.SameShape.of_contents hcontents.symm).fits (hfits p hp)

theorem fitsFirst_of_current {b : BufferPool n} {pins : List ℤ} (h : b.Serves pins written)
    {data : Bytes} {ids : List ℕ} (hfits : HeapFile.FitsFirst b.current data ids) :
    HeapFile.FitsFirst written data ids := by
  induction ids with
  | nil => trivial
  | cons id rest ih =>
    intro w hw
    obtain ⟨p, hp, hcontents⟩ := current_eq h hw
    have hshape := Page.SameShape.of_contents hcontents.symm
    have hfits := hfits p hp
    rw [hshape.freeSpace]
    split
    · next hadm =>
      rw [if_pos hadm] at hfits
      exact hshape.fits_insert hfits
    · next hadm =>
      rw [if_neg hadm] at hfits
      exact ih hfits

/-! ## Each call -/

/-- A call of a file whose reply and effect are known. -/
theorem ask_eq (hfile : s.files[file]? = some heap) {m : HeapFile → HeapCalls n α}
    {reply : α → StoreReply} {r : Except DbError α} (h : m heap (heap, s.pool) = (r, (heap', b'))) :
    s.ask file reply m = (⟨b', s.files.set file heap'⟩, .ofExcept reply r) := by
  rw [ask, hfile]
  simp only [h]

/-- What is left to show of a call: the store after it stands for an answer. -/
def Answered (py : Py) (s : HeapStore n) (written : ℤ → Option Page) (call : StoreCall) : Prop :=
  ∃ written', (s.answer py call).1.Stands written' ∧
    Answers py (s.tables written) call (s.answer py call).2 ((s.answer py call).1.tables written') ∧
    (call.Appends → s.Packed written → (s.answer py call).1.Packed written')

/-- A call of a file that keeps the tables. -/
theorem Stands.keeps (h : s.Stands written) (hfile : s.files[file]? = some heap)
    (hserves : b'.Serves [] written) : Stands ⟨b', s.files.set file heap⟩ written ∧
      tables ⟨b', s.files.set file heap⟩ written = s.tables written ∧
      (s.Packed written → Packed ⟨b', s.files.set file heap⟩ written) := by
  have hmem := List.mem_of_getElem? hfile
  have hmoves := HeapFile.Moves.refl (h.held heap hmem)
  obtain ⟨hstands, htables⟩ := h.moves hfile hserves hmoves
  refine ⟨hstands, htables.trans ?_,
    fun hold => h.packed_moves hfile hmoves hold (hold file heap hfile)⟩
  have htable : (s.tables written)[file]? = some (heap.table written) := getElem?_tables hfile
  obtain ⟨hlt, hget⟩ := List.getElem?_eq_some_iff.mp htable
  rw [← hget, List.set_getElem_self]

theorem answered_create (hn : 2 ≤ n) (h : s.Stands written) (py : Py) {schema : TableSchema}
    (hcolumns : schema.columnNames ≠ []) (hnum : s.pool.disk.numPages < INVALID_PAGE_ID) :
    s.Answered py written (.create schema) := by
  obtain ⟨heap, b', written', hinit, hserves, hstarts, -⟩ :=
    HeapFile.init_eq h.serves hn hcolumns hnum
  obtain ⟨hstands, htables, hpacked⟩ := h.adds hserves hstarts
  have hanswer : s.answer py (.create schema) = (⟨b', s.files ++ [heap]⟩, .done) := by
    simp only [answer, hinit]
  refine ⟨written', ?_, ?_, fun _ hold => ?_⟩
  · rw [hanswer]
    exact hstands
  · rw [hanswer, htables]
    exact .create
  · rw [hanswer]
    exact hpacked hold

theorem Stands.vacant (h : s.Stands written) (hfile : s.files[file]? = some heap)
    (hmoves : heap.Moves heap' written written') {rid : RecordId} (hmem : rid.pageId ∈ heap'.pageIds)
    (hown : (heap.table written).records rid = none) :
    ∀ other ∈ s.tables written, other.records rid = none := by
  intro other hother
  obtain ⟨j, hget⟩ := List.mem_iff_getElem?.mp hother
  rw [tables, List.getElem?_map] at hget
  obtain ⟨heapⱼ, hj, rfl⟩ := Option.map_eq_some_iff.mp hget
  by_cases hjf : j = file
  · subst hjf
    rw [hfile, Option.some.injEq] at hj
    exact hj ▸ hown
  · exact h.family.vacant hfile hmoves hmem hjf hj

theorem answered_insert (hn : 2 ≤ n) (h : s.Stands written) (py : Py) {values : Row}
    (hfile : s.files[file]? = some heap) (hnum : s.pool.disk.numPages < INVALID_PAGE_ID)
    (hfits : ∀ data, RecordSerializer.serialize py heap.schema values = .ok data →
      HeapFile.FitsFirst s.pool.current data heap.pageIds) :
    s.Answered py written (.insert file values) := by
  have hheld := h.held heap (List.mem_of_getElem? hfile)
  obtain ⟨r, heap', b', written', hcall, hserves, hmoves, hinserts, hid, hpacked⟩ :=
    HeapFile.insert_eq py values h.serves hn hheld hnum
      fun data hdata => fitsFirst_of_current h.serves (hfits data hdata)
  obtain ⟨hstands, htables⟩ := h.moves hfile hserves hmoves
  have hanswer : s.answer py (.insert file values) =
      (⟨b', s.files.set file heap'⟩, .ofExcept .rid r) :=
    ask_eq hfile hcall
  refine ⟨written', ?_, ?_, fun _ hold => ?_⟩
  · rw [hanswer]
    exact hstands
  · rw [hanswer, htables]
    refine .insert (getElem?_tables hfile) hinserts fun rid hrid => ?_
    subst hrid
    exact h.vacant hfile hmoves (hid rid rfl) hinserts.vacant
  · rw [hanswer]
    exact h.packed_moves hfile hmoves hold (hpacked (hold file heap hfile))

theorem answered_read (hn : 2 ≤ n) (h : s.Stands written) (py : Py) {rid : RecordId}
    (hfile : s.files[file]? = some heap) (hmem : rid.pageId ∈ heap.pageIds) :
    s.Answered py written (.read file rid) := by
  obtain ⟨w, hw, -⟩ := (h.held heap (List.mem_of_getElem? hfile)).pages _ hmem
  obtain ⟨b', hcall, hserves⟩ := HeapFile.readAt_eq py heap h.serves (room_of_two hn) hmem hw
  obtain ⟨hstands, htables, hpacked⟩ := h.keeps hfile hserves
  have hanswer : s.answer py (.read file rid) = (⟨b', s.files.set file heap⟩,
      .ofExcept .row (((heap.table written).read py rid).mapError .python)) :=
    ask_eq hfile (HeapFile.inPool_eq hcall)
  refine ⟨written, ?_, ?_, fun _ hold => ?_⟩
  · rw [hanswer]
    exact hstands
  · rw [hanswer, htables]
    exact .read (getElem?_tables hfile)
  · rw [hanswer]
    exact hpacked hold

theorem answered_update (hn : 2 ≤ n) (h : s.Stands written) (py : Py) {rid : RecordId}
    {values : Row} (hfile : s.files[file]? = some heap) (hmem : rid.pageId ∈ heap.pageIds)
    (hfits : ∀ data, RecordSerializer.serialize py heap.schema values = .ok data →
      ∀ page ∈ s.pool.current rid.pageId, page.Fits (.update rid.slotIndex data)) :
    s.Answered py written (.update file rid values) := by
  have hheld := h.held heap (List.mem_of_getElem? hfile)
  cases hserialize : RecordSerializer.serialize py heap.schema values with
  | error e =>
    have hcall : heap.updateAt py rid.pageId rid.slotIndex values s.pool =
        (.error (.python e), s.pool) := by
      rw [HeapFile.updateAt, hserialize]
      rfl
    obtain ⟨hstands, htables, -⟩ := h.keeps hfile h.serves
    have hanswer : s.answer py (.update file rid values) =
        (⟨s.pool, s.files.set file heap⟩, .ofExcept .flag (.error (.python e))) :=
      ask_eq hfile (HeapFile.inPool_eq hcall)
    refine ⟨written, ?_, ?_, fun hcall => hcall.elim⟩
    · rw [hanswer]
      exact hstands
    · rw [hanswer, htables]
      exact .updateRaises (getElem?_tables hfile) hserialize
  | ok data =>
    obtain ⟨b', written', hcall, hserves, hmoves, hrecords⟩ :=
      HeapFile.updateAt_eq h.serves (room_of_two hn) hheld hmem hserialize
        (fits_of_current h.serves (hfits data hserialize))
    obtain ⟨hstands, htables⟩ := h.moves hfile hserves hmoves
    have hanswer : s.answer py (.update file rid values) =
        (⟨b', s.files.set file heap⟩,
          .ofExcept .flag (.ok (heap.recordAt written rid).isSome)) :=
      ask_eq hfile (HeapFile.inPool_eq hcall)
    refine ⟨written', ?_, ?_, fun hcall => hcall.elim⟩
    · rw [hanswer]
      exact hstands
    · rw [hanswer, htables, HeapFile.table_put rfl hrecords]
      exact .update (getElem?_tables hfile) hserialize

theorem answered_delete (hn : 2 ≤ n) (h : s.Stands written) (py : Py) {rid : RecordId}
    (hfile : s.files[file]? = some heap) (hmem : rid.pageId ∈ heap.pageIds) :
    s.Answered py written (.delete file rid) := by
  have hheld := h.held heap (List.mem_of_getElem? hfile)
  obtain ⟨b', written', hcall, hserves, hmoves, hrecords⟩ :=
    HeapFile.deleteAt_eq h.serves (room_of_two hn) hheld hmem
  obtain ⟨hstands, htables⟩ := h.moves hfile hserves hmoves
  have hanswer : s.answer py (.delete file rid) =
      (⟨b', s.files.set file heap⟩,
          .ofExcept .flag (.ok (heap.recordAt written rid).isSome)) :=
    ask_eq hfile (HeapFile.inPool_eq hcall)
  refine ⟨written', ?_, ?_, fun hcall => hcall.elim⟩
  · rw [hanswer]
    exact hstands
  · rw [hanswer, htables, HeapFile.table_put rfl hrecords]
    exact .delete (getElem?_tables hfile)

theorem answered_scan (hn : 2 ≤ n) (h : s.Stands written) (py : Py)
    (hfile : s.files[file]? = some heap) : s.Answered py written (.scan file) := by
  have hheld := h.held heap (List.mem_of_getElem? hfile)
  obtain ⟨b', hcall, hserves⟩ := HeapFile.scan_eq py heap
    (fun rows rid values => .ok (rows ++ [(rid, values)])) [] h.serves (room_of_two hn)
    hheld.exists
  obtain ⟨hstands, htables, hpacked⟩ := h.keeps hfile hserves
  have hrows : ((heap.records written).foldlM (fun acc r => do
      let row ← heap.decode py r
      (.ok (acc ++ [(row.1, row.2)]) : Except PyError (List (RecordId × Row)))) []) =
      mapE (heap.decode py) (heap.records written) := by
    refine (foldlM_append_mapE (f := heap.decode py) []).trans ?_
    cases mapE (heap.decode py) (heap.records written) <;> rfl
  rw [hrows] at hcall
  have hanswer : s.answer py (.scan file) = (⟨b', s.files.set file heap⟩, .ofExcept .rows
      ((mapE (heap.decode py) (heap.records written)).mapError .python)) :=
    ask_eq hfile (HeapFile.inPool_eq hcall)
  refine ⟨written, ?_, ?_, fun _ hold => ?_⟩
  · rw [hanswer]
    exact hstands
  · rw [hanswer, htables]
    exact .scan (getElem?_tables hfile) (HeapFile.lists_records hheld)
  · rw [hanswer]
    exact hpacked hold

theorem count_pages {b : BufferPool n} {pins : List ℤ} {ids : List ℕ} (count : ℕ)
    (h : b.Serves pins written) (hroom : pins.toFinset.card < n)
    (hexists : ∀ id ∈ ids, (written (id : ℕ)).isSome) :
    ∃ b', (ids.foldlM (fun count pageId => do
        let page ← HeapFile.fetchPage pageId
        HeapFile.unpinPage pageId false
        return count + page.getNumRecords) count : PoolCalls n ℕ) b =
      (.ok (count + (ids.flatMap (recordsOn written)).length), b') ∧ b'.Serves pins written := by
  induction ids generalizing b count with
  | nil => exact ⟨b, rfl, h⟩
  | cons id rest ih =>
    obtain ⟨hid, hrest⟩ := List.forall_mem_cons.mp hexists
    obtain ⟨w, hw⟩ := Option.isSome_iff_exists.mp hid
    obtain ⟨b₁, b₂, page, hfetch, hunpin, hserves, hcontents⟩ := HeapFile.visit h hroom hw
    obtain ⟨b', hloop, hserves'⟩ := ih (count + page.getNumRecords) hserves hrest
    have hnum : (recordsOn written id).length = page.getNumRecords := by
      rw [recordsOn, hw, Page.getNumRecords, ← Page.length_liveRecords,
        HeapFile.liveRecords_of_contents hcontents]
      exact List.length_map _
    refine ⟨b', ?_, hserves'⟩
    rw [List.flatMap_cons, List.length_append, hnum, ← Nat.add_assoc, ← hloop]
    refine Effect.foldlM_cons_ok ?_
    rw [Effect.bind_ok hfetch, Effect.bind_ok hunpin, Effect.pure_apply]

theorem answered_getRecordCount (hn : 2 ≤ n) (h : s.Stands written) (py : Py)
    (hfile : s.files[file]? = some heap) : s.Answered py written (.getRecordCount file) := by
  have hheld := h.held heap (List.mem_of_getElem? hfile)
  obtain ⟨b', hcall, hserves⟩ := count_pages 0 h.serves (room_of_two hn) hheld.exists
  obtain ⟨hstands, htables, hpacked⟩ := h.keeps hfile hserves
  have hanswer : s.answer py (.getRecordCount file) = (⟨b', s.files.set file heap⟩,
      .ofExcept .count (.ok (0 + (heap.records written).length))) :=
    ask_eq hfile (HeapFile.inPool_eq hcall)
  refine ⟨written, ?_, ?_, fun _ hold => ?_⟩
  · rw [hanswer]
    exact hstands
  · rw [hanswer, htables, Nat.zero_add]
    exact .getRecordCount (getElem?_tables hfile) (HeapFile.lists_records hheld)
  · rw [hanswer]
    exact hpacked hold

/-! ## Closing and opening again -/

theorem flushPool_eq {b : BufferPool n} (h : b.Serves [] written) :
    ∃ b', flushPool b = (.ok (), b') ∧ b'.Serves [] written ∧
      ∀ q, (written q).isSome → Current b' (⟨[], [], written⟩ : Callers Unit) q := by
  obtain ⟨b', hflush, hco, hcurrent⟩ := Coherent.flushAll h
  exact ⟨b', by simp only [flushPool, hflush], hco, hcurrent rfl⟩

theorem answered_checkpoint (h : s.Stands written) (py : Py) :
    s.Answered py written .checkpoint := by
  obtain ⟨b', hflush, hserves, -⟩ := flushPool_eq h.serves
  have hanswer : s.answer py .checkpoint = ({ s with pool := b' }, .done) := by
    show s.checkpoint = _
    rw [checkpoint, hflush]
    rfl
  refine ⟨written, ?_, ?_, fun _ hold => ?_⟩
  · rw [hanswer]
    exact ⟨hserves, h.family⟩
  · rw [hanswer]
    exact .checkpoint
  · rw [hanswer]
    exact hold

theorem close_eq {b : BufferPool n} (h : b.Serves [] written) :
    ∃ b', close b = (.ok (), b') ∧ b'.Serves [] written ∧
      ∀ q, (written q).isSome → Current b' (⟨[], [], written⟩ : Callers Unit) q := by
  obtain ⟨b₁, hflush, hserves, -⟩ := flushPool_eq h
  obtain ⟨b', hflush', hserves', hcurrent⟩ := flushPool_eq hserves
  refine ⟨b', ?_, hserves', hcurrent⟩
  rw [close, Effect.bind_ok hflush, hflush']

theorem wholePages_of_serves {b : BufferPool n} {pins : List ℤ} (h : b.Serves pins written) :
    b.disk.file.length / PAGE_SIZE = pagesOn b.disk ∧ WholePages b.disk.file := by
  have hsize := Coherent.size h
  have hcount : b.disk.file.length / PAGE_SIZE = pagesOn b.disk := by
    rw [hsize]
    exact Nat.mul_div_cancel _ (by decide)
  refine ⟨hcount, ?_, fun k hk => ?_⟩
  · rw [hsize]
    exact Nat.mul_mod_left _ _
  · rw [hcount] at hk
    exact Coherent.readable h k hk

/-- What was flushed is what a reader of the file finds. -/
theorem written_of_flushed {b : BufferPool n} (h : b.Serves [] written)
    (hcurrent : ∀ q, (written q).isSome → Current b (⟨[], [], written⟩ : Callers Unit) q) {q : ℕ}
    {w : Page} (hw : written q = some w) : ∃ p, writtenAtFirst b.disk.file q = some p ∧
      p.contents = w.contents ∧ p.Preserved := by
  have hsome : (written q).isSome := by
    rw [hw]
    rfl
  obtain ⟨p, w', hread, hw', hcontents⟩ := hcurrent q hsome
  have hsame : written q = some w' := hw'
  rw [hw, Option.some.injEq] at hsame
  obtain ⟨hcount, -⟩ := wholePages_of_serves h
  obtain ⟨hpos, hlt⟩ := (Coherent.exists_iff h q).mp hsome
  obtain ⟨p', hread', -, hpres⟩ := Coherent.readable h q (by exact_mod_cast hlt)
  rw [Int.toNat_natCast] at hread
  rw [hread, Option.some.injEq] at hread'
  refine ⟨p, ?_, hsame ▸ hcontents, hread' ▸ hpres⟩
  rw [writtenAtFirst, if_pos ⟨hpos, by rw [hcount]; exact hlt⟩, Int.toNat_natCast, hread]

/-- A file whose pages were read again. -/
theorem held_reload (h : heap.Held written)
    (hsame : ∀ (q : ℕ) (w : Page), written q = some w → ∃ p, written' q = some p ∧
      p.contents = w.contents ∧ p.Preserved) :
    heap.Held written' ∧ heap.table written' = heap.table written ∧
      (heap.Packed written → heap.Packed written') := by
  refine ⟨⟨h.columns, h.nonempty, ?_, ?_⟩, ?_, ?_⟩
  · refine h.chain.relink fun q _ w hw => ?_
    obtain ⟨p, hp, hcontents, -⟩ := hsame q w hw
    exact ⟨p, hp, Page.field_of_contents PageHeader.nextPage (fun _ => rfl) hcontents⟩
  · intro q hq
    obtain ⟨w, hw, hkept⟩ := h.pages q hq
    obtain ⟨p, hp, hcontents, hpres⟩ := hsame q w hw
    exact ⟨p, hp, hkept.of_contents hpres hcontents⟩
  · refine HeapFile.table_same rfl ?_
    funext rid
    unfold HeapFile.recordAt
    split
    · next hmem =>
      obtain ⟨w, hw, -⟩ := h.pages _ hmem
      obtain ⟨p, hp, hcontents, -⟩ := hsame _ w hw
      rw [hp, hw, Option.bind_some, Option.bind_some, (Page.contents_eq_iff.mp hcontents).2.2]
    · rfl
  · intro hold q hq page hpage
    obtain ⟨w, hw, -⟩ := h.pages q hq
    obtain ⟨p, hp, hcontents, -⟩ := hsame q w hw
    rw [hp, Option.mem_some_iff] at hpage
    exact hpage ▸ (Page.SameShape.of_contents hcontents).packed (hold q hq w hw)

/-- The chain of each file leads through the pages that the file had. -/
theorem reopen_eq {b : BufferPool n} (hn : 2 ≤ n) (h : b.Serves [] written) {files : List HeapFile}
    (hheld : ∀ heap ∈ files, heap.Held written) :
    ∃ b', reopen files b = (.ok files, b') ∧ b'.Serves [] written := by
  induction files generalizing b with
  | nil => exact ⟨b, rfl, h⟩
  | cons heap rest ih =>
    obtain ⟨hfirst, hrest⟩ := List.forall_mem_cons.mp hheld
    obtain ⟨schema, ids⟩ := heap
    cases ids with
    | nil => exact absurd rfl hfirst.nonempty
    | cons first ids =>
      obtain ⟨b₁, hinit, hserves⟩ := HeapFile.init_some schema h (room_of_two hn) hfirst.chain
      have hopen : HeapFile.initAt schema (some (HeapFile.firstPageId ⟨schema, first :: ids⟩)) b =
          (.ok ⟨schema, first :: ids⟩, b₁) := hinit
      obtain ⟨b', hreopen, hserves'⟩ := ih hserves hrest
      refine ⟨b', ?_, hserves'⟩
      rw [reopen, Effect.bind_ok hopen, Effect.bind_ok hreopen, Effect.pure_apply]

theorem answered_restart (hn : 2 ≤ n) (h : s.Stands written) (py : Py) :
    s.Answered py written .restart := by
  obtain ⟨b, hclose, hserves, hcurrent⟩ := close_eq h.serves
  obtain ⟨-, hwhole⟩ := wholePages_of_serves hserves
  have hopened : (BufferPool.new (.ofFile b.disk.file) : BufferPool n).Serves []
      (writtenAtFirst b.disk.file) := coherent_init hwhole
  have hreload := fun heap (hmem : heap ∈ s.files) =>
    held_reload (h.held heap hmem) fun q w hw => written_of_flushed hserves hcurrent hw
  obtain ⟨b', hreopen, hserves'⟩ := reopen_eq hn hopened fun heap hmem => (hreload heap hmem).1
  have hanswer : s.answer py .restart = (⟨b', s.files⟩, .done) := by
    show s.restart = _
    rw [restart, hclose]
    simp only [hreopen]
    rfl
  refine ⟨writtenAtFirst b.disk.file, ?_, ?_, fun _ hold => ?_⟩
  · rw [hanswer]
    refine ⟨hserves', ?_, h.family.apart⟩
    exact fun file heap hfile => (hreload heap (List.mem_of_getElem? hfile)).1
  · have htables : tables ⟨b', s.files⟩ (writtenAtFirst b.disk.file) = s.tables written :=
      List.map_congr_left fun heap hmem => (hreload heap hmem).2.1
    rw [hanswer, htables]
    exact .restart
  · rw [hanswer]
    exact fun file heap hfile =>
      (hreload heap (List.mem_of_getElem? hfile)).2.2 (hold file heap hfile)

/-- Every call that is admitted is answered. -/
theorem answered (hn : 2 ≤ n) (h : s.Stands written) {call : StoreCall} (hadmits : s.Admits py call) :
    s.Answered py written call := by
  cases call with
  | create schema => exact answered_create hn h py hadmits.1 hadmits.2
  | insert file values =>
    obtain ⟨heap, hfile, hnum, hfits⟩ := hadmits
    exact answered_insert hn h py hfile hnum hfits
  | read file rid =>
    obtain ⟨heap, hfile, hmem⟩ := hadmits
    exact answered_read hn h py hfile hmem
  | update file rid values =>
    obtain ⟨heap, hfile, hmem, hfits⟩ := hadmits
    exact answered_update hn h py hfile hmem hfits
  | delete file rid =>
    obtain ⟨heap, hfile, hmem⟩ := hadmits
    exact answered_delete hn h py hfile hmem
  | scan file =>
    obtain ⟨heap, hfile⟩ := hadmits
    exact answered_scan hn h py hfile
  | getRecordCount file =>
    obtain ⟨heap, hfile⟩ := hadmits
    exact answered_getRecordCount hn h py hfile
  | checkpoint => exact answered_checkpoint h py
  | restart => exact answered_restart hn h py

/-- A store and the tables it stands for. -/
def StandsFor (s : HeapStore n) (ts : List Table) : Prop :=
  ∃ written, s.Stands written ∧ ts = s.tables written

/-! ## Stores that are only added to -/

/-- Nothing is asked of the room in the pages, and no record is changed. -/
def AdmitsAppend (py : Py) (s : HeapStore n) : StoreCall → Prop
  | .insert file _ => (∃ heap, s.files[file]? = some heap) ∧
    s.pool.disk.numPages < INVALID_PAGE_ID
  | .update _ _ _ | .delete _ _ => False
  | .create schema => s.Admits py (.create schema)
  | .read file rid => s.Admits py (.read file rid)
  | .scan file => s.Admits py (.scan file)
  | .getRecordCount file => s.Admits py (.getRecordCount file)
  | .checkpoint | .restart => True

/-- As long as nothing is deleted every page that takes a record has the room in one piece. -/
theorem Stands.admits_of_packed (h : s.Stands written) (hpacked : s.Packed written)
    {call : StoreCall} (hcall : s.AdmitsAppend py call) : s.Admits py call ∧ call.Appends := by
  cases call with
  | insert file values =>
    obtain ⟨⟨heap, hfile⟩, hnum⟩ := hcall
    have hmem := List.mem_of_getElem? hfile
    refine ⟨⟨heap, hfile, hnum, fun data _ => HeapFile.fitsFirst_of_fits fun id hid page hpage => ?_⟩,
      trivial⟩
    obtain ⟨w, hw, hkept⟩ := (h.held heap hmem).pages id hid
    obtain ⟨p, hp, hcontents⟩ := current_eq h.serves hw
    rw [hp, Option.mem_some_iff] at hpage
    subst hpage
    exact (Page.SameShape.of_contents hcontents).fits_insert
      ((hpacked file heap hfile id hid w hw).fits hkept.accounts data)
  | update file rid values => exact hcall.elim
  | delete file rid => exact hcall.elim
  | create schema => exact ⟨hcall, trivial⟩
  | read file rid => exact ⟨hcall, trivial⟩
  | scan file => exact ⟨hcall, trivial⟩
  | getRecordCount file => exact ⟨hcall, trivial⟩
  | checkpoint => exact ⟨trivial, trivial⟩
  | restart => exact ⟨trivial, trivial⟩

end HeapStore

/-- The heap files of a database in which no record is updated or deleted. -/
def appendMachine (n : ℕ) [NeZero n] (py : Py) : Machine (HeapStore n) StoreCall StoreReply where
  init := .new (.ofFile [])
  enabled := HeapStore.AdmitsAppend py
  step := HeapStore.answer py

namespace HeapStore

variable {s : HeapStore n} {py : Py}

theorem packed_new : (new (.ofFile []) : HeapStore n).Packed (writtenAtFirst []) := by
  intro file heap hfile
  cases hfile

/-! ## A record that is read after a restart -/

def oneColumn : TableSchema where
  tableName := "t"
  columnNames := ["a"]
  columnTypes := [.integer]
  primaryKey := none

def insertThenRestart : List StoreCall := [.create oneColumn, .insert 0 [.int 7], .restart]

theorem admitsAppend_insert : ((new (.ofFile []) : HeapStore 2).answer Py.ascii
    (.create oneColumn)).1.AdmitsAppend Py.ascii (.insert 0 [.int 7]) := by
  obtain ⟨b', hinit, hserves, -⟩ := HeapFile.init_none oneColumn
    (stands_new (n := 2)).serves (by decide) (by decide)
  have hanswer : (new (.ofFile []) : HeapStore 2).answer Py.ascii (.create oneColumn) =
      (⟨b', [⟨oneColumn, [0]⟩]⟩, .done) := by
    simp only [answer, hinit]
    rfl
  rw [hanswer]
  refine ⟨⟨_, rfl⟩, ?_⟩
  -- there is no second page
  have hsecond := (Coherent.exists_iff hserves 1).not.mp (by
    show ¬ (Function.update (writtenAtFirst []) 0 (some (Page.new 0 .heapData)) 1).isSome
    rw [Function.update_of_ne (by decide)]
    decide)
  unfold pagesOn at hsecond
  show b'.disk.numPages < INVALID_PAGE_ID
  rw [INVALID_PAGE_ID]
  omega

theorem insertThenRestart_run : (appendMachine 2 Py.ascii).Run
    ((appendMachine 2 Py.ascii).trace (appendMachine 2 Py.ascii).init insertThenRestart)
    ((appendMachine 2 Py.ascii).exec (appendMachine 2 Py.ascii).init insertThenRestart) := by
  refine Machine.run_of_legal ⟨⟨by decide, ?_⟩, admitsAppend_insert, trivial, trivial⟩
  decide

theorem insertThenRestart_admitted : (heapMachine 2 Py.ascii).Run
    ((heapMachine 2 Py.ascii).trace (heapMachine 2 Py.ascii).init insertThenRestart)
    ((heapMachine 2 Py.ascii).exec (heapMachine 2 Py.ascii).init insertThenRestart) := by
  have hnum : (new (.ofFile []) : HeapStore 2).pool.disk.numPages < INVALID_PAGE_ID := by decide
  obtain ⟨written, hstands, -, hpacked⟩ :=
    answered_create le_rfl stands_new Py.ascii (show oneColumn.columnNames ≠ [] by decide) hnum
  have hinsert := hstands.admits_of_packed (hpacked trivial packed_new) admitsAppend_insert
  exact Machine.run_of_legal ⟨⟨by decide, hnum⟩, hinsert.1, trivial, trivial⟩

/-! ## Whole runs -/

end HeapStore

end PySQL.Storage
