import PySQL.Query.SessionScan

/-!
# CREATE INDEX in a session

A new index is empty; the scan of its table enters the rows that there are.
-/

namespace PySQL.Query

open Lib Storage

set_option linter.unusedSectionVars false

variable {n : ℕ} [NeZero n] {py : Py} {heap : HeapFile} {written : ℤ → Option Page}
  {index : IndexInfo} {name : String} {d : Contents} {rt : Runtime Index} {c : ℕ}

namespace Writer

variable {w w₁ w' : Writer n Index}

/-! ## A new tree -/

/-- The catalog has one index more. -/
theorem Stores.createIndex (h : w.Stores py written d) {catalog : Catalog}
    (hcreate : w.executor.catalog.createIndex index = .ok catalog)
    (hexecutor : w'.executor = { w.executor with catalog }) :
    d.indexes index.name = none ∧ w'.Stores py written (d.addIndex index) := by
  unfold Catalog.createIndex at hcreate
  split at hcreate
  · cases hcreate
  · next hnew =>
    rw [h.known, Option.not_isSome_iff_eq_none] at hnew
    rw [← Except.ok.inj hcreate] at hexecutor
    refine ⟨hnew, ?_⟩
    set listing : Catalog :=
      { w.executor.catalog with indexes := w.executor.catalog.indexes.set index.name index }
    have hdef : w'.executor.catalog.definition = w.executor.catalog.definition := by
      rw [hexecutor]
      exact (Catalog.definition_updateTable listing index.tableName fun _ => rfl)
    constructor
    · rw [hexecutor]
      exact h.serves
    · rw [hexecutor]
      exact h.family
    · rw [hexecutor]
      exact h.packed
    · intro other
      apply (h.tables other).congr
      · rw [hdef]
      · rw [hexecutor]
      · exact fun _ _ => rfl
    · rw [hexecutor]
      show (listing.updateTable index.tableName _).indexes.get? = _
      rw [Catalog.indexes_updateTable]
      show (w.executor.catalog.indexes.set index.name index).get? = _
      rw [Dict.get?_set_eq_update, h.known]
      rfl

theorem onCatalog_eq_ok {f : Catalog → Except PyError Catalog}
    (h : onCatalog f w = (.ok (), w')) : ∃ catalog, f w.executor.catalog = .ok catalog ∧
      w' = { w with executor := { w.executor with catalog } } := by
  unfold onCatalog at h
  split at h
  · cases (Prod.mk.inj h).1
  · next catalog hcatalog =>
    obtain ⟨-, rfl⟩ := Prod.mk.inj h
    exact ⟨catalog, hcatalog, rfl⟩

/-- An index that is added has an empty tree. -/
theorem Stores.add_index (h : w.Stores py written d) (hrun : addIndex index w = (.ok (), w')) :
    d.indexes index.name = none ∧ w'.Stores py written (d.addIndex index) ∧
      w'.indexes = w.indexes.set index.name Index.new := by
  obtain ⟨_, w₁, hput, hcatalog⟩ := Effect.bind_eq_ok hrun
  obtain ⟨-, rfl⟩ := Prod.mk.inj hput
  obtain ⟨catalog, hcreate, hw'⟩ := onCatalog_eq_ok hcatalog
  have hexecutor : w'.executor = { w.executor with catalog } := by
    rw [hw']
  have hindexes : w'.indexes = w.indexes.set index.name Index.new := by
    rw [hw']
  obtain ⟨hnew, hstores⟩ := h.createIndex hcreate hexecutor
  exact ⟨hnew, hstores, hindexes⟩

theorem indexes_addIndex_self (d : Contents) (index : IndexInfo) :
    (d.addIndex index).indexes index.name = some index := Function.update_self ..

/-- The other indexes are as they were, and the new one has its entries. -/
theorem StandsFor.with_index (h : w.StandsFor py written d)
    (hstores : w'.Stores py written (d.addIndex index))
    (hothers : ∀ other ≠ index.name, w'.indexes.get? other = w.indexes.get? other)
    (hindex : w'.IndexAt index.name index (d.entries index)) :
    w'.StandsFor py written (d.addIndex index) where
  toStores := hstores
  indexes other known hknown := by
    by_cases hother : other = index.name
    · subst hother
      rw [indexes_addIndex_self, Option.some.injEq] at hknown
      subst hknown
      exact hindex
    · have hknown : d.indexes other = some known := by
        rw [← hknown]
        exact (Function.update_of_ne hother ..).symm
      obtain ⟨hname, tree, listed, htree, hlists⟩ := h.indexes other known hknown
      exact ⟨hname, tree, listed, (hothers other hother).trans htree, hlists⟩

/-! ## Filling it -/

/-- The tree of an index took some entries; the pool may have moved pages. -/
structure Entered (written : ℤ → Option Page) (index : IndexInfo) (added : List IndexEntry)
    (w w' : Writer n Index) : Prop where
  executor : ∃ pool, w'.executor = { w.executor with pool } ∧
    (w.executor.pool.Serves [] written → pool.Serves [] written)
  others : ∀ other ≠ index.name, w'.indexes.get? other = w.indexes.get? other
  tree : ∀ tree listed, w.indexes.get? index.name = some tree →
    Index.Lists index.isUnique tree listed →
    ∃ tree', w'.indexes.get? index.name = some tree' ∧
      Index.Lists index.isUnique tree' (listed ++ added)

theorem Entered.refl : Entered written index [] w w where
  executor := ⟨w.executor.pool, rfl, id⟩
  others _ _ := rfl
  tree tree listed htree hlists := ⟨tree, htree, by rwa [List.append_nil]⟩

theorem Entered.trans {added more : List IndexEntry} (h : Entered written index added w w₁)
    (h' : Entered written index more w₁ w') : Entered written index (added ++ more) w w' where
  executor := by
    obtain ⟨pool, heq, hserves⟩ := h.executor
    obtain ⟨pool', heq', hserves'⟩ := h'.executor
    refine ⟨pool', ?_, ?_⟩
    · rw [heq', heq]
    · intro hold
      apply hserves'
      rw [heq]
      exact hserves hold
  others other hother := (h'.others other hother).trans (h.others other hother)
  tree tree listed htree hlists := by
    obtain ⟨tree₁, htree₁, hlists₁⟩ := h.tree tree listed htree hlists
    obtain ⟨tree', htree', hlists'⟩ := h'.tree tree₁ _ htree₁ hlists₁
    rw [List.append_assoc] at hlists'
    exact ⟨tree', htree', hlists'⟩

theorem Entered.serves {added : List IndexEntry} (h : Entered written index added w w')
    (hserves : w.executor.pool.Serves [] written) : w'.executor.pool.Serves [] written := by
  obtain ⟨pool, heq, hpool⟩ := h.executor
  rw [heq]
  exact hpool hserves

/-- One record of the scan. -/
theorem entered_indexRecord (hrt : rt.Trees) {rid : RecordId} {data : Bytes} {row : Row}
    (hrow : RecordSerializer.deserialize rt.py heap.schema data = .ok row)
    (hkeyed : ∀ v ∈ row, v.key.isSome)
    (hrun : indexRecord rt heap index c rid data w = (.ok (), w')) :
    ∃ entry, indexEntry c (rid, row) = some entry ∧ Entered written index [entry] w w' := by
  obtain ⟨values, w₁, hvalues, h₁⟩ := Effect.bind_eq_ok hrun
  obtain ⟨v, w₂, hv, h₂⟩ := Effect.bind_eq_ok h₁
  obtain ⟨hdecode, hw₁⟩ := ofPython_eq_ok hvalues
  obtain ⟨hcolumn, hw₂⟩ := ofPython_eq_ok hv
  rw [hw₂, hw₁] at h₂
  rw [hrow, Except.ok.injEq] at hdecode
  subst hdecode
  cases hat : row[c]? with
  | none =>
    rw [hat] at hcolumn
    cases hcolumn
  | some value =>
    rw [hat] at hcolumn
    obtain rfl : value = v := Except.ok.inj hcolumn
    obtain ⟨k, hk⟩ := Option.isSome_iff_exists.mp (hkeyed value (List.mem_of_getElem? hat))
    refine ⟨(k, rid), ?_, ?_⟩
    · rw [indexEntry, hat, Option.bind_some, hk]
      exact rfl
    unfold insertKey at h₂
    split at h₂
    · next hnone =>
      obtain ⟨-, rfl⟩ := Prod.mk.inj h₂
      refine ⟨⟨w.executor.pool, rfl, id⟩, fun _ _ => rfl, fun tree listed htree => ?_⟩
      rw [hnone] at htree
      cases htree
    · next tree₀ htree₀ =>
      split at h₂
      · cases (Prod.mk.inj h₂).1
      · next tree' hinsert =>
        obtain ⟨-, rfl⟩ := Prod.mk.inj h₂
        refine ⟨⟨w.executor.pool, rfl, id⟩, ?_, fun tree listed htree hlists => ?_⟩
        · exact fun other hother => Dict.get?_set_ne _ _ (Ne.symm hother)
        · rw [htree₀, Option.some.injEq] at htree
          subst htree
          exact ⟨tree', Dict.get?_set_self .., hlists.insert hrt hk hinsert⟩

/-- The records of one page. -/
theorem entered_forM (hrt : rt.Trees) {pageId : ℕ} {records : List (ℕ × Bytes)}
    (hrows : ∀ record ∈ records, ∃ row,
      RecordSerializer.deserialize rt.py heap.schema record.2 = .ok row ∧
        ∀ v ∈ row, v.key.isSome)
    (hrun : records.forM (fun record => indexRecord rt heap index c ⟨pageId, record.1⟩ record.2) w =
      (.ok (), w')) :
    Entered written index ((records.map fun record =>
      rowAt rt.py heap (⟨pageId, record.1⟩, record.2)).filterMap (indexEntry c)) w w' := by
  induction records generalizing w with
  | nil =>
    cases hrun
    exact .refl
  | cons record rest ih =>
    obtain ⟨⟨row, hrow, hkeyed⟩, hrest⟩ := List.forall_mem_cons.mp hrows
    obtain ⟨_, w₁, hone, hmore⟩ := Effect.bind_eq_ok hrun
    obtain ⟨entry, hentry, hentered⟩ := entered_indexRecord hrt hrow hkeyed hone
    have hat : rowAt rt.py heap (⟨pageId, record.1⟩, record.2) = (⟨pageId, record.1⟩, row) := by
      rw [rowAt, hrow]
      exact rfl
    rw [List.map_cons, hat, List.filterMap_cons_some hentry]
    exact hentered.trans (ih hrest hmore)

/-- The pages, one after the other. -/
theorem entered_indexRecords (hrt : rt.Trees) (hn : 2 ≤ n)
    (hserves : w.executor.pool.Serves [] written) {pageIds : List ℕ}
    (hexists : ∀ pageId ∈ pageIds, (written pageId).isSome)
    (hrows : ∀ p ∈ pageIds.flatMap (recordsOn written), ∃ row,
      RecordSerializer.deserialize rt.py heap.schema p.2 = .ok row ∧ ∀ v ∈ row, v.key.isSome)
    (hrun : indexRecords rt heap index c pageIds w = (.ok (), w')) :
    Entered written index
      (((pageIds.flatMap (recordsOn written)).map (rowAt rt.py heap)).filterMap (indexEntry c))
      w w' := by
  induction pageIds generalizing w with
  | nil =>
    cases hrun
    exact .refl
  | cons pageId rest ih =>
    obtain ⟨page, w₁, hvisit, h₁⟩ := Effect.bind_eq_ok hrun
    obtain ⟨_, w₂, hone, hmore⟩ := Effect.bind_eq_ok h₁
    rw [List.forall_mem_cons] at hexists
    obtain ⟨q, hq⟩ := Option.isSome_iff_exists.mp hexists.1
    obtain ⟨b₁, b', page', hfetch, hunpin, hserves', hcontents⟩ :=
      HeapFile.visit hserves (room_of_two hn) hq
    have hcall : (do
        let page ← HeapFile.fetchPage pageId
        HeapFile.unpinPage pageId false
        return page : PoolCalls n Page) w.executor.pool = (.ok page', b') := by
      rw [Effect.bind_ok hfetch, Effect.bind_ok hunpin]
      exact rfl
    unfold onExecutor Effect.zoom at hvisit
    rw [Executor.onPool_eq hcall] at hvisit
    obtain ⟨hpage, rfl⟩ := Prod.mk.inj hvisit
    obtain rfl : page' = page := Except.ok.inj hpage
    have hlive := HeapFile.liveRecords_of_contents hcontents
    have hon : recordsOn written pageId =
        page'.liveRecords.map fun r => ((⟨pageId, r.1⟩ : RecordId), r.2) := by
      rw [recordsOn, hq, Option.elim_some, hlive]
    rw [List.flatMap_cons, hon] at hrows ⊢
    rw [List.map_append, List.filterMap_append, List.map_map]
    have hmoved : Entered written index []
        w { w with executor := { w.executor with pool := b' } } :=
      ⟨⟨b', rfl, fun _ => hserves'⟩, fun _ _ => rfl, fun tree listed htree hlists =>
        ⟨tree, htree, by rwa [List.append_nil]⟩⟩
    have hentered := hmoved.trans (entered_forM hrt (fun record hrecord =>
      hrows _ (List.mem_append_left _ (List.mem_map_of_mem hrecord))) hone)
    refine hentered.trans (ih (hentered.serves hserves) hexists.2 ?_ hmore)
    exact fun p hp => hrows p (List.mem_append_right _ hp)

/-- The scan enters the rows of a table into the tree of the index. -/
theorem Stores.fill (hrt : rt.Trees) (hn : 2 ≤ n) (h : w.Stores rt.py written d)
    (hrun : fillIndex rt index w = (.ok (), w')) :
    ∃ added, added.Perm (d.entries index) ∧ Entered written index added w w' := by
  obtain ⟨opened, w₁, hget, h₁⟩ := Effect.bind_eq_ok hrun
  have htable := h.tables index.tableName
  unfold onExecutor Effect.zoom at hget
  rw [Executor.getHeapFile, Effect.bind_ok Effect.read_apply] at hget
  cases ht : d.tables index.tableName with
  | none =>
    rw [ht] at htable
    simp only [id, htable.1, htable.2] at hget
    obtain ⟨hnone, rfl⟩ := Prod.mk.inj hget
    obtain rfl : none = opened := Except.ok.inj hnone
    obtain ⟨-, rfl⟩ := Prod.mk.inj h₁
    refine ⟨[], ?_, .refl⟩
    rw [Contents.entries, ht]
    rfl
  | some r =>
    rw [ht] at htable
    obtain ⟨info, heap, hknown, hcolumns, hheap, hschema, hholds⟩ := htable
    have hheld := h.family.held _ heap hheap
    simp only [id, hheap] at hget
    obtain ⟨hsome, rfl⟩ := Prod.mk.inj hget
    obtain rfl : some heap = opened := Except.ok.inj hsome
    have hentries : d.entries index = r.entries index := by
      rw [Contents.entries, ht]
      rfl
    obtain ⟨columnNames, w₂, hread, h₂⟩ := Effect.bind_eq_ok h₁
    obtain ⟨hnames, rfl⟩ := Prod.mk.inj hread
    obtain ⟨column, w₃, hcolumn, h₃⟩ := Effect.bind_eq_ok h₂
    obtain ⟨hhead, rfl⟩ := ofPython_eq_ok hcolumn
    have hnames : columnNames = r.columns.map ColumnInfo.name := by
      rw [← Except.ok.inj hnames]
      show ((w.executor.catalog.getTable index.tableName).map TableInfo.columnNames).getD [] = _
      rw [hknown, Option.map_some, Option.getD_some, TableInfo.columnNames, hcolumns]
    have hplace : r.column? index = columnNames.idxOf? column := by
      rw [Relation.column?, hnames]
      cases hfirst : index.columns.head? with
      | none =>
        rw [hfirst] at hhead
        cases hhead
      | some first =>
        rw [hfirst] at hhead
        obtain rfl : first = column := Except.ok.inj hhead
        rfl
    cases hat : columnNames.idxOf? column with
    | none =>
      rw [hat] at h₃ hplace
      obtain ⟨-, rfl⟩ := Prod.mk.inj h₃
      refine ⟨[], ?_, .refl⟩
      rw [hentries, entries_none hplace]
    | some c =>
      rw [hat] at h₃ hplace
      have hentered := entered_indexRecords hrt hn h.serves hheld.exists (fun p hp => by
        obtain ⟨row, hrow, -, hmem⟩ := hholds.decoded hheld hp
        exact ⟨row, hrow, hholds.keyed _ hmem⟩) h₃
      refine ⟨_, ?_, hentered⟩
      rw [hentries, Relation.entries, hplace]
      exact (hholds.map_rowAt_perm hheld).filterMap _

/-- A filled tree leaves the tables alone. -/
theorem Stores.entered {added : List IndexEntry} (h : w.Stores py written d)
    (hentered : Entered written index added w w') : w'.Stores py written d := by
  obtain ⟨pool, heq, hserves⟩ := hentered.executor
  constructor
  · rw [heq]
    exact hserves h.serves
  · rw [heq]
    exact h.family
  · rw [heq]
    exact h.packed
  · intro name
    apply (h.tables name).congr
    · rw [heq]
    · rw [heq]
    · exact fun _ _ => rfl
  · rw [heq]
    exact h.known

theorem StandsFor.create_index (hrt : rt.Trees) (hn : 2 ≤ n) (h : w.StandsFor rt.py written d)
    {stmt : CreateIndexStatement} {result : QueryResult}
    (hrun : execCreateIndex rt stmt w = (.ok result, w')) :
    w'.StandsFor rt.py written (d.addIndex (declaredIndex stmt)) ∧
      SessionAnswers rt.py d (.createIndex stmt) (.done result)
        (d.addIndex (declaredIndex stmt)) := by
  obtain ⟨_, w₁, hadd, h₁⟩ := Effect.bind_eq_ok hrun
  obtain ⟨_, w₂, hfill, h₂⟩ := Effect.bind_eq_ok h₁
  cases h₂
  obtain ⟨hnew, hstores, htrees⟩ := h.toStores.add_index hadd
  obtain ⟨added, hperm, hentered⟩ := hstores.fill hrt hn hfill
  refine ⟨h.with_index (hstores.entered hentered) ?_ ?_, .createIndex hnew⟩
  · intro other hother
    rw [hentered.others other hother, htrees]
    exact Dict.get?_set_ne _ _ (Ne.symm hother)
  · have htree : w₁.indexes.get? (declaredIndex stmt).name = some Index.new := by
      rw [htrees]
      exact Dict.get?_set_self ..
    obtain ⟨tree, htree', hlists⟩ := hentered.tree _ [] htree (Index.lists_new _)
    exact ⟨rfl, tree, added, htree', hlists, hperm⟩

end Writer

end PySQL.Query
