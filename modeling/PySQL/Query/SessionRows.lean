import PySQL.Query.Session

/-!
# Inserting rows in a session

Each row of an INSERT goes to the heap file of its table and to the trees of the table's indexes.
-/

namespace PySQL.Query

open Lib Storage

set_option linter.unusedSectionVars false

variable {n : ℕ} [NeZero n] {α : Type}

/-! ## What a statement may change of the catalog -/

/-- What CREATE TABLE says of a table. -/
def TableInfo.definition (info : TableInfo) : String × List ColumnInfo × Option String :=
  (info.name, info.columns, info.primaryKey)

theorem getSchema_congr {py : Py} {info info' : TableInfo}
    (h : info'.definition = info.definition) : getSchema py info' = getSchema py info := by
  obtain ⟨hname, hrest⟩ := Prod.mk.inj h
  obtain ⟨hcolumns, hkey⟩ := Prod.mk.inj hrest
  simp only [getSchema, TableInfo.columnNames, hname, hcolumns, hkey]

namespace Catalog

def definition (c : Catalog) (name : String) : Option (String × List ColumnInfo × Option String) :=
  (c.getTable name).map TableInfo.definition

/-- The tables and the indexes that there are, as they were declared. -/
def Same (c c' : Catalog) : Prop := c'.definition = c.definition ∧ c'.indexes = c.indexes

theorem indexes_updateTable (c : Catalog) (name : String) (f : TableInfo → TableInfo) :
    (c.updateTable name f).indexes = c.indexes := by
  unfold updateTable
  split <;> rfl

theorem definition_updateTable (c : Catalog) (name : String) {f : TableInfo → TableInfo}
    (hf : ∀ info, (f info).definition = info.definition) :
    (c.updateTable name f).definition = c.definition := by
  funext other
  rw [definition, definition, getTable_updateTable]
  split
  · rw [Option.map_map]
    exact congrArg (fun g => (c.getTable other).map g) (funext hf)
  · rfl

theorem same_updateTable (c : Catalog) (name : String) {f : TableInfo → TableInfo}
    (hf : ∀ info, (f info).definition = info.definition) : c.Same (c.updateTable name f) :=
  ⟨definition_updateTable c name hf, indexes_updateTable c name f⟩

end Catalog

namespace Executor

/-- Only the counters and the estimates of the catalog differ. -/
structure Counted (x x' : Executor n) : Prop where
  heapFiles : x'.heapFiles = x.heapFiles
  pool : x'.pool = x.pool
  catalog : x.catalog.Same x'.catalog

instance : Std.Refl (Counted (n := n)) where
  refl _ := ⟨rfl, rfl, rfl, rfl⟩

instance : IsTrans (Executor n) Counted where
  trans _ _ _ h h' := ⟨h'.heapFiles.trans h.heapFiles, h'.pool.trans h.pool,
    h'.catalog.1.trans h.catalog.1, h'.catalog.2.trans h.catalog.2⟩

theorem counted_nextAutoValue (name : String) :
    Effect.Within Counted (nextAutoValue name : Exec n Value) := by
  intro x
  unfold nextAutoValue Catalog.incrementAutoCounter
  cases x.catalog.getTable name with
  | none => exact ⟨rfl, rfl, rfl, rfl⟩
  | some info => exact ⟨rfl, rfl, Catalog.same_updateTable x.catalog name fun _ => rfl⟩

theorem counted_fillColumn (name : String) (listed : Bool) (j : ℕ) (column : ColumnInfo)
    (row : Row) : Effect.Within Counted (fillColumn name listed j column row : Exec n Row) := by
  have hnext : ∀ f : Value → Row, Effect.Within Counted
      (do return f (← nextAutoValue name) : Exec n Row) :=
    fun f => (counted_nextAutoValue name).bind fun v => Effect.within_pure _
  cases listed with
  | true =>
    show Effect.Within Counted (fillListed name j column row)
    unfold fillListed
    dsimp only
    split
    · exact hnext fun v => row.set j v
    · split
      · split
        · exact hnext fun v => row.set j v
        · exact Effect.within_pure row
      · exact Effect.within_pure row
  | false =>
    show Effect.Within Counted (fillPositional name j column row)
    unfold fillPositional
    split
    · exact Effect.within_pure row
    · split
      · exact hnext fun v => row ++ [v]
      · exact Effect.within_pure _

theorem counted_fillColumns (name : String) (listed : Bool) (j : ℕ) (columns : List ColumnInfo)
    (row : Row) : Effect.Within Counted (fillColumns name listed j columns row : Exec n Row) := by
  induction columns generalizing j row with
  | nil => exact Effect.within_pure row
  | cons column rest ih =>
    exact (counted_fillColumn name listed j column row).bind fun row' => ih (j + 1) row'

/-! ## What is filled in -/

variable {x x' : Executor n} {name : String} {j : ℕ} {column : ColumnInfo} {row row' : Row}
  {listed : Bool}

theorem nextAutoValue_int {v : Value} (h : nextAutoValue name x = (.ok v, x')) :
    ∃ k, v = .int k := by
  unfold nextAutoValue at h
  split at h
  · cases h
  · cases h
    exact ⟨_, rfl⟩

theorem fillListed_supplied (h : fillListed name j column row x = (.ok row', x')) :
    (∀ i ≠ j, row'[i]? = row[i]?) ∧ Supplied column row[j]? row'[j]? := by
  have hnumber (hauto : column.has .autoincrement = true)
      (hmissing : (row[j]?).elim false Value.isNull = true)
      (h : (do return row.set j (← nextAutoValue name) : Exec n Row) x = (.ok row', x')) :
      (∀ i ≠ j, row'[i]? = row[i]?) ∧ Supplied column row[j]? row'[j]? := by
    obtain ⟨v, x₁, hv, hrow⟩ := Effect.bind_eq_ok h
    obtain ⟨k, rfl⟩ := nextAutoValue_int hv
    cases hrow
    refine ⟨fun i hi => List.getElem?_set_ne (Ne.symm hi), ?_⟩
    cases hold : row[j]? with
    | none =>
      rw [hold] at hmissing
      cases hmissing
    | some old =>
      rw [hold] at hmissing
      refine .inr (.inr ⟨hauto, ?_, k, ?_⟩)
      · intro v hv
        exact Option.some.inj hv ▸ hmissing
      · rw [List.getElem?_set_self (List.getElem?_eq_some_iff.mp hold).1]
  unfold fillListed at h
  split at h
  · next hcond =>
    obtain ⟨hauto, hmissing⟩ := Bool.and_eq_true_iff.mp hcond
    exact hnumber hauto hmissing h
  · split at h
    · next hcond =>
      split at h
      · next hauto => exact hnumber hauto (Bool.and_eq_true_iff.mp hcond).2 h
      · cases h
        exact ⟨fun _ _ => rfl, .inl rfl⟩
    · cases h
      exact ⟨fun _ _ => rfl, .inl rfl⟩

theorem fillPositional_supplied (hj : j ≤ row.length)
    (h : fillPositional name j column row x = (.ok row', x')) :
    (∀ i ≠ j, row'[i]? = row[i]?) ∧ Supplied column row[j]? row'[j]? ∧ j + 1 ≤ row'.length := by
  unfold fillPositional at h
  split at h
  · next hlt =>
    cases h
    exact ⟨fun _ _ => rfl, .inl rfl, hlt⟩
  · next hlt =>
    obtain rfl : j = row.length := by omega
    have hothers (v : Value) : ∀ i ≠ row.length, (row ++ [v])[i]? = row[i]? := by
      intro i hi
      rcases Nat.lt_or_gt_of_ne hi with hlt | hgt
      · rw [List.getElem?_append_left hlt]
      · rw [List.getElem?_eq_none (by simp; omega), List.getElem?_eq_none (by omega)]
    have hnone : row[row.length]? = none := List.getElem?_eq_none le_rfl
    split at h
    · next hauto =>
      obtain ⟨v, x₁, hv, hrow⟩ := Effect.bind_eq_ok h
      obtain ⟨k, rfl⟩ := nextAutoValue_int hv
      cases hrow
      refine ⟨hothers _, .inr (.inr ⟨hauto, ?_, k, List.getElem?_concat_length⟩), by simp⟩
      intro v hv
      rw [hnone] at hv
      cases hv
    · cases h
      exact ⟨hothers _, .inr (.inl ⟨hnone, List.getElem?_concat_length⟩), by simp⟩

theorem fillColumns_supplied {rest : List ColumnInfo} (hj : listed = false → j ≤ row.length)
    (h : fillColumns name listed j rest row x = (.ok row', x')) :
    (∀ i < j, row'[i]? = row[i]?) ∧ ∀ (k : ℕ) (column : ColumnInfo), rest[k]? = some column →
      Supplied column row[j + k]? row'[j + k]? := by
  induction rest generalizing j row x with
  | nil =>
    cases h
    exact ⟨fun _ _ => rfl, fun k column hk => by cases hk⟩
  | cons column rest ih =>
    obtain ⟨row₁, x₁, hfirst, h⟩ := Effect.bind_eq_ok h
    obtain ⟨hothers, hsupplied, hreached⟩ : (∀ i ≠ j, row₁[i]? = row[i]?) ∧
        Supplied column row[j]? row₁[j]? ∧ (listed = false → j + 1 ≤ row₁.length) := by
      cases listed with
      | true =>
        obtain ⟨hothers, hsupplied⟩ := fillListed_supplied hfirst
        exact ⟨hothers, hsupplied, fun hfalse => by cases hfalse⟩
      | false =>
        obtain ⟨hothers, hsupplied, hreached⟩ := fillPositional_supplied (hj rfl) hfirst
        exact ⟨hothers, hsupplied, fun _ => hreached⟩
    obtain ⟨hbefore, hrest⟩ := ih hreached h
    refine ⟨fun i hi => ?_, fun k column' hk => ?_⟩
    · rw [hbefore i (by omega), hothers i (by omega)]
    · cases k with
      | zero =>
        -- the columns after it leave it alone
        obtain rfl : column = column' := by simpa using hk
        rw [Nat.add_zero, hbefore j (by omega)]
        exact hsupplied
      | succ k =>
        have hlater := hrest k column' (by simpa using hk)
        rwa [show j + 1 + k = j + (k + 1) by omega, hothers _ (by omega)] at hlater

/-- NULLs at the end fill the columns that are left. -/
theorem supplied_padded {before : Option Value} {filled : Row} (m : ℕ)
    (h : Supplied column before filled[j]?) (hj : j < filled.length + m) :
    Supplied column before (filled ++ nulls m)[j]? := by
  by_cases hlt : j < filled.length
  · rwa [List.getElem?_append_left hlt]
  · have hnone : filled[j]? = none := List.getElem?_eq_none (by omega)
    have hnull : (filled ++ nulls m)[j]? = some .null := by
      rw [List.getElem?_append_right (by omega), nulls, List.getElem?_replicate, if_pos (by omega)]
    rw [hnone] at h
    rcases h with h | ⟨-, h⟩ | ⟨-, -, k, h⟩
    · exact .inr (.inl ⟨h.symm, hnull⟩)
    · cases h
    · cases h

end Executor

/-! ## Storing a row -/

theorem HoldsRows.congr {py : Py} {heap : HeapFile} {written written' : ℤ → Option Page}
    {rows : List (RecordId × Row)} (h : HoldsRows py heap written rows)
    (hrecords : heap.recordAt written' = heap.recordAt written) : HoldsRows py heap written' rows where
  nodup := h.nodup
  mem_iff rid row := by
    rw [hrecords]
    exact h.mem_iff rid row
  readable rid data := by
    rw [hrecords]
    exact h.readable rid data
  keyed := h.keyed

theorem HoldsRows.insert {py : Py} {heap heap' : HeapFile} {written written' : ℤ → Option Page}
    {rows : List (RecordId × Row)} (h : HoldsRows py heap written rows) {rid : RecordId}
    {data : Bytes} {row : Row} (hschema : heap'.schema = heap.schema)
    (hrecords : heap'.recordAt written' = Function.update (heap.recordAt written) rid (some data))
    (hvacant : heap.recordAt written rid = none)
    (hrow : RecordSerializer.deserialize py heap.schema data = .ok row)
    (hkeyed : ∀ v ∈ row, v.key.isSome) : HoldsRows py heap' written' (rows ++ [(rid, row)]) := by
  have hnew : ∀ row', (rid, row') ∉ rows := by
    intro row' hmem
    obtain ⟨data', hdata, -⟩ := (h.mem_iff rid row').mp hmem
    rw [hvacant] at hdata
    cases hdata
  constructor
  · rw [List.map_append, List.nodup_append]
    refine ⟨h.nodup, List.nodup_singleton rid, ?_⟩
    intro rid₁ hold rid₂ hlast
    obtain ⟨p, hp, rfl⟩ := List.mem_map.mp hold
    have hlast : rid₂ = rid := List.mem_singleton.mp hlast
    intro heq
    exact hnew p.2 ((heq.trans hlast) ▸ hp)
  · intro rid' row'
    rw [List.mem_append, List.mem_singleton, hrecords, hschema, h.mem_iff]
    by_cases hid : rid' = rid
    · subst hid
      rw [Function.update_self, hvacant]
      constructor
      · rintro (⟨data', hdata, -⟩ | heq)
        · cases hdata
        · obtain rfl : row' = row := congrArg Prod.snd heq
          exact ⟨data, rfl, hrow⟩
      · rintro ⟨data', hdata, hread⟩
        rw [← Option.some.inj hdata, hrow] at hread
        exact .inr (by rw [Except.ok.inj hread])
    · rw [Function.update_of_ne hid]
      constructor
      · rintro (hold | heq)
        · exact hold
        · exact absurd (congrArg Prod.fst heq) hid
      · exact .inl
  · intro rid' data' hdata
    rw [hrecords] at hdata
    rw [hschema]
    by_cases hid : rid' = rid
    · rw [hid, Function.update_self, Option.some.injEq] at hdata
      exact hdata ▸ ⟨row, hrow⟩
    · rw [Function.update_of_ne hid] at hdata
      exact h.readable rid' data' hdata
  · intro p hp
    rcases List.mem_append.mp hp with hold | hlast
    · exact h.keyed p hold
    · rw [List.mem_singleton.mp hlast]
      exact hkeyed

namespace Writer

variable {w w' : Writer n Index} {written written' : ℤ → Option Page} {d : Contents} {py : Py}
  {name : String} {r : Relation} {info : TableInfo} {heap : HeapFile} {rt : Runtime Index}

theorem TableAt.congr {t : Option Relation} (h : w.TableAt py written name t)
    (hdef : w'.executor.catalog.definition name = w.executor.catalog.definition name)
    (hopen : w'.executor.heapFiles.get? name = w.executor.heapFiles.get? name)
    (hrecords : ∀ heap, w.executor.heapFiles.get? name = some heap →
      heap.recordAt written' = heap.recordAt written) : w'.TableAt py written' name t := by
  cases t with
  | none =>
    obtain ⟨hknown, hclosed⟩ := h
    rw [Catalog.definition, Catalog.definition, hknown, Option.map_none,
      Option.map_eq_none_iff] at hdef
    exact ⟨hdef, hopen.trans hclosed⟩
  | some r =>
    obtain ⟨info, heap, hknown, hcolumns, hheap, hschema, hholds⟩ := h
    rw [Catalog.definition, Catalog.definition, hknown, Option.map_some,
      Option.map_eq_some_iff] at hdef
    obtain ⟨info', hknown', hsame⟩ := hdef
    refine ⟨info', heap, hknown', ?_, hopen.trans hheap, ?_, hholds.congr (hrecords heap hheap)⟩
    · exact (Prod.mk.inj (Prod.mk.inj hsame).2).1.trans hcolumns
    · rw [getSchema_congr hsame]
      exact hschema

theorem Stores.counted (h : w.Stores py written d)
    (hcounted : Executor.Counted w.executor w'.executor) : w'.Stores py written d where
  serves := by
    rw [hcounted.pool]
    exact h.serves
  family := by
    rw [hcounted.heapFiles]
    exact h.family
  packed := by
    rw [hcounted.heapFiles]
    exact h.packed
  tables name := by
    apply (h.tables name).congr
    · rw [hcounted.catalog.1]
    · rw [hcounted.heapFiles]
    · exact fun _ _ => rfl
  known := by
    rw [hcounted.catalog.2]
    exact h.known

theorem tables_put_self (d : Contents) (name : String) (r : Relation) :
    (d.put name r).tables name = some r := Function.update_self ..

theorem tables_put_ne (d : Contents) {name other : String} (r : Relation) (h : other ≠ name) :
    (d.put name r).tables other = d.tables other := Function.update_of_ne h ..

/-- A row that was stored is in the table. -/
theorem Stores.insert_heap (hn : 2 ≤ n) (h : w.Stores py written d) (ht : d.tables name = some r)
    (hdef : w.executor.catalog.definition name = some info.definition)
    (hnum : w.executor.pool.numPages < INVALID_PAGE_ID) {values : Row}
    (hback : ReadsBack py info values) {rid : RecordId}
    (hrun : onExecutor (Executor.onHeap name heap (HeapFile.insert py values)) w = (.ok rid, w')) :
    ∃ written' row, w'.Stores py written' (d.put name (r.add [(rid, row)])) ∧
      row.map Value.key = values.map Value.key ∧ (∀ v ∈ values, v.key.isSome) ∧
      w'.executor.catalog = w.executor.catalog ∧ w'.indexes = w.indexes := by
  have htable := h.tables name
  rw [ht] at htable
  obtain ⟨info₁, heap₁, hknown, hcolumns, hheap, hschema, hholds⟩ := htable
  have hsame : info.definition = info₁.definition := by
    rw [Catalog.definition, hknown, Option.map_some, Option.some.injEq] at hdef
    exact hdef.symm
  have hheld := h.family.held name heap₁ hheap
  have hpacked := h.packed name heap₁ hheap
  obtain ⟨result, heap', b', written', hcall, hserves, hmoves, hinserts, -, hpacked'⟩ :=
    HeapFile.insert_eq py values h.serves hn hheld hnum fun data _ => hpacked.fitsFirst hheld data
  have hzoom : onExecutor (Executor.onHeap name heap (HeapFile.insert py values)) w =
      (result, { w with executor := { w.executor with
        heapFiles := w.executor.heapFiles.set name heap', pool := b' } }) := by
    simp only [onExecutor, Executor.onHeap, Effect.zoom, hheap, Option.getD_some, hcall]
  rw [hzoom] at hrun
  obtain ⟨rfl, rfl⟩ := Prod.mk.inj hrun
  generalize hput : heap'.table written' = t' at hinserts
  cases hinserts with
  | @stored data _ hdata hlen hvacant =>
    obtain ⟨row, hrow, hkeys, hkeyed⟩ := hback heap₁.schema data
      ((getSchema_congr hsame).trans hschema) hdata
    have hrecords : heap'.recordAt written' =
        Function.update (heap₁.recordAt written) rid (some data) :=
      congrArg Table.records hput
    have hrowKeyed : ∀ v ∈ row, v.key.isSome := by
      intro v hv
      have hmem : v.key ∈ values.map Value.key := hkeys ▸ List.mem_map_of_mem hv
      obtain ⟨v', hv', heq⟩ := List.mem_map.mp hmem
      rw [← heq]
      exact hkeyed v' hv'
    refine ⟨written', row, ⟨hserves, ?_, ?_, ?_, h.known⟩, hkeys, hkeyed, rfl, rfl⟩
    · rw [Dict.get?_set_eq_update]
      exact h.family.moves hheap hmoves
    · rw [Dict.get?_set_eq_update]
      exact h.family.packed_moves hheap hmoves h.packed (hpacked' hpacked)
    · intro other
      by_cases hother : other = name
      · subst hother
        rw [tables_put_self]
        refine ⟨info₁, heap', hknown, hcolumns, Dict.get?_set_self .., ?_, ?_⟩
        · rw [hmoves.schema]
          exact hschema
        · exact hholds.insert hmoves.schema hrecords hvacant hrow hrowKeyed
      · rw [tables_put_ne d _ hother]
        apply (h.tables other).congr
        · rfl
        · exact Dict.get?_set_ne _ _ (Ne.symm hother)
        · exact fun heap₂ hheap₂ => h.family.recordAt_agree hheap hmoves hother hheap₂

/-! ## Entering a row into the indexes -/

theorem column?_add (r : Relation) (added : List (RecordId × Row)) (index : IndexInfo) :
    (r.add added).column? index = r.column? index := rfl

theorem entries_add {index : IndexInfo} {c : ℕ} {rid : RecordId} {row : Row}
    {k : Value.Key} (hcolumn : r.column? index = some c) (hv : row[c]?.bind Value.key = some k) :
    (r.add [(rid, row)]).entries index = r.entries index ++ [(k, rid)] := by
  unfold Relation.entries
  rw [column?_add, hcolumn]
  dsimp only [Relation.add]
  rw [List.filterMap_append]
  congr 1
  rw [List.filterMap_cons, indexEntry, hv]
  rfl

theorem entries_none {index : IndexInfo} (hcolumn : r.column? index = none) :
    r.entries index = [] := by
  unfold Relation.entries
  rw [hcolumn]

/-- One tree after a row was inserted. -/
theorem IndexAt.update (hrt : rt.Trees) {index : IndexInfo} {values row : Row} {rid : RecordId}
    (hkeys : row.map Value.key = values.map Value.key) (hkeyed : ∀ v ∈ values, v.key.isSome)
    (h : w.IndexAt index.name index (r.entries index))
    (hrun : updateIndex rt values rid (r.columns.map ColumnInfo.name) index w = (.ok (), w')) :
    w'.executor = w.executor ∧
      w'.IndexAt index.name index ((r.add [(rid, row)]).entries index) ∧
      ∀ other ≠ index.name, w'.indexes.get? other = w.indexes.get? other := by
  obtain ⟨-, tree, listed, htree, hlists, hperm⟩ := h
  unfold updateIndex at hrun
  rw [htree] at hrun
  cases hcolumn : r.column? index with
  | none =>
    have hcolumn' : index.columns.head?.bind (r.columns.map ColumnInfo.name).idxOf? = none := hcolumn
    rw [hcolumn'] at hrun
    obtain ⟨-, rfl⟩ := Prod.mk.inj hrun
    rw [entries_none hcolumn] at hperm
    have hcolumn₁ : (r.add [(rid, row)]).column? index = none := hcolumn
    rw [entries_none hcolumn₁]
    exact ⟨rfl, ⟨rfl, tree, listed, htree, hlists, hperm⟩, fun _ _ => rfl⟩
  | some c =>
    have hcolumn' : index.columns.head?.bind (r.columns.map ColumnInfo.name).idxOf? = some c :=
      hcolumn
    rw [hcolumn'] at hrun
    cases hv : values[c]? with
    | none =>
      simp only [hv, Option.elim_none] at hrun
      cases (Prod.mk.inj hrun).1
    | some v =>
      obtain ⟨k, hk⟩ := Option.isSome_iff_exists.mp (hkeyed v (List.mem_of_getElem? hv))
      cases hinsert : rt.insertKey index.isUnique tree v rid with
      | error e =>
        simp only [hv, Option.elim_some, hinsert] at hrun
        cases (Prod.mk.inj hrun).1
      | ok tree' =>
        simp only [hv, Option.elim_some, hinsert] at hrun
        obtain ⟨-, rfl⟩ := Prod.mk.inj hrun
        have hrow : row[c]?.bind Value.key = some k := by
          have hmap : (row.map Value.key)[c]? = (values.map Value.key)[c]? := by rw [hkeys]
          rw [List.getElem?_map, List.getElem?_map, hv, Option.map_some, hk] at hmap
          obtain ⟨v', hv', hk'⟩ := Option.map_eq_some_iff.mp hmap
          rw [hv', Option.bind_some, hk']
        rw [entries_add hcolumn hrow]
        refine ⟨rfl, ⟨rfl, tree', _, Dict.get?_set_self .., hlists.insert hrt hk hinsert,
          hperm.append_right _⟩, ?_⟩
        exact fun other hother => Dict.get?_set_ne _ _ (Ne.symm hother)

/-- The trees of the indexes of a table, one after the other. -/
theorem updateIndexes_spec (hrt : rt.Trees) {values row : Row} {rid : RecordId}
    (hkeys : row.map Value.key = values.map Value.key) (hkeyed : ∀ v ∈ values, v.key.isSome)
    {indexes : List IndexInfo} (hnodup : (indexes.map IndexInfo.name).Nodup)
    (h : ∀ index ∈ indexes, w.IndexAt index.name index (r.entries index))
    (hrun : indexes.forM (updateIndex rt values rid (r.columns.map ColumnInfo.name)) w =
      (.ok (), w')) :
    w'.executor = w.executor ∧
      (∀ index ∈ indexes, w'.IndexAt index.name index ((r.add [(rid, row)]).entries index)) ∧
      ∀ other, other ∉ indexes.map IndexInfo.name →
        w'.indexes.get? other = w.indexes.get? other := by
  induction indexes generalizing w with
  | nil =>
    cases hrun
    refine ⟨rfl, ?_, fun _ _ => rfl⟩
    intro index hmem
    cases hmem
  | cons index rest ih =>
    obtain ⟨hfirst, hrest⟩ := List.forall_mem_cons.mp h
    rw [List.map_cons, List.nodup_cons] at hnodup
    obtain ⟨_, w₁, hone, hmore⟩ := Effect.bind_eq_ok hrun
    obtain ⟨hexecutor, hentered, hothers⟩ := hfirst.update hrt hkeys hkeyed hone
    have hrest₁ : ∀ later ∈ rest, w₁.IndexAt later.name later (r.entries later) := by
      intro later hlater
      have hne : later.name ≠ index.name := fun heq =>
        hnodup.1 (heq ▸ List.mem_map_of_mem hlater)
      obtain ⟨hname, tree, listed, htree, hlists⟩ := hrest later hlater
      exact ⟨hname, tree, listed, (hothers _ hne).trans htree, hlists⟩
    obtain ⟨hexecutor', hentered', hothers'⟩ := ih hnodup.2 hrest₁ hmore
    refine ⟨hexecutor'.trans hexecutor, List.forall_mem_cons.mpr ⟨?_, hentered'⟩, ?_⟩
    · obtain ⟨hname, tree, listed, htree, hlists⟩ := hentered
      exact ⟨hname, tree, listed, (hothers' _ hnodup.1).trans htree, hlists⟩
    · intro other hother
      rw [List.map_cons, List.mem_cons, not_or] at hother
      rw [hothers' other hother.2, hothers other hother.1]

end Writer

end PySQL.Query
