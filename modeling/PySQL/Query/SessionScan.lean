import PySQL.Query.SessionInsert

/-!
# Reading tables and indexes back

A scan goes through the rows of a table, and the scan of an index through its entries.
-/

namespace PySQL.Query

open Lib Storage

set_option linter.unusedSectionVars false

variable {n : ℕ} [NeZero n] {py : Py} {heap : HeapFile} {written : ℤ → Option Page}

/-! ## The rows of a heap file -/

/-- A record id with the row of its record. -/
def rowAt (py : Py) (heap : HeapFile) (r : RecordId × Bytes) : RecordId × Row :=
  (r.1, (RecordSerializer.deserialize py heap.schema r.2).toOption.getD [])

namespace HoldsRows

variable {rows : List (RecordId × Row)}

/-- Every record decodes, and to a row of keys. -/
theorem decoded (h : HoldsRows py heap written rows) (hheld : heap.Held written)
    {r : RecordId × Bytes} (hmem : r ∈ heap.records written) :
    ∃ row, RecordSerializer.deserialize py heap.schema r.2 = .ok row ∧
      rowAt py heap r = (r.1, row) ∧ (r.1, row) ∈ rows := by
  have hrecord := ((HeapFile.lists_records hheld).mem_iff r.1 r.2).mp hmem
  obtain ⟨row, hrow⟩ := h.readable r.1 r.2 hrecord
  refine ⟨row, hrow, ?_, (h.mem_iff r.1 row).mpr ⟨r.2, hrecord, hrow⟩⟩
  rw [rowAt, hrow]
  rfl

theorem map_rowAt_perm (h : HoldsRows py heap written rows) (hheld : heap.Held written) :
    ((heap.records written).map (rowAt py heap)).Perm rows := by
  have hlists := HeapFile.lists_records hheld
  have hfst : ((heap.records written).map (rowAt py heap)).map Prod.fst =
      (heap.records written).map Prod.fst := by
    rw [List.map_map]
    rfl
  have hnodup := hlists.nodup
  rw [← hfst] at hnodup
  apply (List.perm_ext_iff_of_nodup hnodup.of_map h.nodup.of_map).mpr
  intro p
  constructor
  · intro hmem
    obtain ⟨r, hr, rfl⟩ := List.mem_map.mp hmem
    obtain ⟨row, -, hrow, hin⟩ := h.decoded hheld hr
    rw [hrow]
    exact hin
  · intro hin
    obtain ⟨data, hdata, hread⟩ := (h.mem_iff p.1 p.2).mp hin
    refine List.mem_map.mpr ⟨(p.1, data), (hlists.mem_iff p.1 data).mpr hdata, ?_⟩
    rw [rowAt, hread]
    rfl

theorem mapE_decode (h : HoldsRows py heap written rows) (hheld : heap.Held written) :
    mapE (heap.decode py) (heap.records written) =
      .ok ((heap.records written).map (rowAt py heap)) := by
  apply mapE_of_ok
  intro r hr
  obtain ⟨row, hread, hrow, -⟩ := h.decoded hheld hr
  rw [HeapFile.decode, hread, hrow]
  rfl

end HoldsRows

namespace Writer

variable {w w' : Writer n Index} {d : Contents} {name : String} {r : Relation}

/-- Pages may be in other frames. -/
theorem StandsFor.repool (h : w.StandsFor py written d) {b : BufferPool n}
    (hserves : b.Serves [] written) :
    ({ w with executor := { w.executor with pool := b } } : Writer n Index).StandsFor py written
      d where
  serves := hserves
  family := h.family
  packed := h.packed
  tables := h.tables
  known := h.known
  indexes := h.indexes

/-- A table that there is can be scanned. -/
theorem StandsFor.scan_eq (hn : 2 ≤ n) (h : w.StandsFor py written d)
    (ht : d.tables name = some r) :
    ∃ rows w', onExecutor (Executor.scanTable py name) w = (.ok rows, w') ∧
      w'.StandsFor py written d ∧ rows.Perm r.rows := by
  have htable := h.tables name
  rw [ht] at htable
  obtain ⟨info, heap, hknown, -, hheap, hschema, hholds⟩ := htable
  have hheld := h.family.held name heap hheap
  obtain ⟨b', hscan, hserves⟩ := heap.scan_eq py
    (fun acc rid values => .ok (acc ++ [(rid, values)])) [] h.serves (room_of_two hn)
    hheld.exists
  have hloop : (heap.records written).foldlM (fun acc r => do
      let row ← heap.decode py r
      .ok (acc ++ [(row.1, row.2)])) [] =
        .ok ((heap.records written).map (rowAt py heap)) := by
    refine (foldlM_append_mapE []).trans ?_
    rw [hholds.mapE_decode hheld]
    rfl
  rw [hloop] at hscan
  have hfind : Executor.findTable name w.executor = (.ok info, w.executor) := by
    rw [Executor.findTable, hknown]
  have hget : (ofPython (getSchema py info) : Exec n TableSchema) w.executor =
      (.ok heap.schema, w.executor) := by
    rw [hschema, ofPython_ok]
  have hcall : Executor.scanTable py name w.executor =
      (.ok ((heap.records written).map (rowAt py heap)), { w.executor with pool := b' }) := by
    rw [Executor.scanTable, Effect.bind_ok hfind, Effect.bind_ok hget,
      Effect.bind_ok (Executor.getOrCreateHeap_opened py heap.schema hheap)]
    exact Executor.onPool_eq hscan
  refine ⟨_, _, ?_, h.repool hserves, hholds.map_rowAt_perm hheld⟩
  unfold onExecutor Effect.zoom
  rw [hcall]

theorem StandsFor.scan (hn : 2 ≤ n) (h : w.StandsFor py written d)
    {rows : List (RecordId × Row)}
    (hrun : onExecutor (Executor.scanTable py name) w = (.ok rows, w')) :
    w'.StandsFor py written d ∧ SessionAnswers py d (.scan name) (.rows rows) d := by
  cases ht : d.tables name with
  | none =>
    have htable := h.tables name
    rw [ht] at htable
    have hfind : Executor.findTable name w.executor =
        (.error (.python (noSuchTable name)), w.executor) := by
      rw [Executor.findTable, htable.1]
    have hraise := onExecutor_eq_ok hrun
    rw [Executor.scanTable, Effect.bind_error hfind] at hraise
    cases (Prod.mk.inj hraise).1
  | some r =>
    obtain ⟨rows', w'', hcall, hstands, hperm⟩ := h.scan_eq hn ht
    rw [hcall] at hrun
    obtain ⟨hrows, rfl⟩ := Prod.mk.inj hrun
    rw [← Except.ok.inj hrows]
    exact ⟨hstands, .scan ht hperm⟩

/-- An index that there is can be scanned. -/
theorem StandsFor.scanIndex_eq {index : IndexInfo} (h : w.StandsFor py written d)
    (hindex : d.indexes name = some index) :
    ∃ pairs, scanIndex name w = (.ok pairs, w) ∧
      IndexListing (d.entries index) index.isUnique pairs := by
  obtain ⟨hname, tree, listed, htree, hlists, hperm⟩ := h.indexes name index hindex
  obtain ⟨pairs, hscan, hlisting⟩ := hlists.rangeScan
  refine ⟨pairs, ?_, hlisting.of_perm hperm⟩
  rw [scanIndex, Effect.bind_ok Effect.read_apply, htree, Option.elim_some, hscan, ofPython_ok]

theorem StandsFor.scan_index (h : w.StandsFor py written d) {pairs : List IndexEntry}
    (hrun : scanIndex name w = (.ok pairs, w'))
    (hsome : (w.executor.catalog.indexes.get? name).isSome) :
    w'.StandsFor py written d ∧ SessionAnswers py d (.scanIndex name) (.entries pairs) d := by
  rw [h.known] at hsome
  obtain ⟨index, hindex⟩ := Option.isSome_iff_exists.mp hsome
  obtain ⟨pairs', hcall, hlisting⟩ := h.scanIndex_eq hindex
  rw [hcall] at hrun
  obtain ⟨hpairs, rfl⟩ := Prod.mk.inj hrun
  rw [← Except.ok.inj hpairs]
  exact ⟨h, .scanIndex hindex hlisting⟩

end Writer

end PySQL.Query
