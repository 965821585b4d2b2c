import PySQL.Query.Executor
import PySQL.Storage.PoolTransparent

/-!
# DELETE

The rows are chosen in one scan and deleted after it.
-/

namespace PySQL.Query

open Lib Storage

set_option linter.unusedSectionVars false

variable {n : ℕ} [NeZero n]

namespace Executor

/-- The predicate of the node's child, be it a filter or not. -/
def childPredicate (node : PlanNode) : Option Expr :=
  node.children.head?.bind fun child => child.info.predicate

def execDelete (py : Py) (node : PlanNode) : Exec n QueryResult := do
  let name := node.info.tableName.getD ""
  let info ← findTable name
  let schema ← ofPython (getSchema py info)
  let heap ← getOrCreateHeap py name schema
  let rids ← onPool (heap.scan py (fun rids rid values => ofPython (do
    let row := rowDict info.columnNames values
    return if ← evalPredicate py (childPredicate node) row then rids ++ [rid] else rids)) [])
  let rowsDeleted ← onPool (HeapFile.deleteAll rids 0)
  Effect.change fun x =>
    let rowCount := max 0 (info.rowCountEstimate - rowsDeleted)
    { x with catalog := x.catalog.updateTableStats name rowCount }
  return {
    columns := []
    rows := []
    affectedRows := rowsDeleted
    message := toString rowsDeleted ++ " row(s) deleted" }

/-- Whether the row of a record is to be deleted. -/
def test (py : Py) (heap : HeapFile) (predicate : Option Expr) (r : RecordId × Bytes) :
    Except PyError Bool := do
  let row ← heap.decode py r
  evalPredicate py predicate (rowDict heap.schema.columnNames row.2)

/-- A statement on a table leaves these records in it, which a scan reads in this order; the tables
that share no page with it are as they were. -/
def Leaves (py : Py) (pins : List ℤ) (written : ℤ → Option Page) (name : String) (heap : HeapFile)
    (x x' : Executor n) (records : List (RecordId × Bytes)) : Prop :=
  ∃ written' info' heap', x'.pool.Serves pins written' ∧ x'.Table py written' name info' heap' ∧
    heap'.records written' = records ∧
    (scanTable py name x').1 = (mapE (heap.decode py) records).mapError .python ∧
    ∀ other info₂ heap₂, other ≠ name → x.Table py written other info₂ heap₂ →
      heap₂.pageIds.Disjoint heap.pageIds →
      x'.Table py written' other info₂ heap₂ ∧ heap₂.records written' = heap₂.records written

variable {py : Py} {x : Executor n} {written written' : ℤ → Option Page} {pins : List ℤ}
  {name : String} {info info' : TableInfo} {heap heap' : HeapFile}

/-- What is to be shown of the state that a statement leaves. -/
theorem leaves_of (x' : Executor n) (ht : x.Table py written name info heap)
    (hserves : x'.pool.Serves pins written') (hroom : pins.toFinset.card < n)
    (hopen : x'.heapFiles.get? name = some heap') (hknown : x'.catalog.getTable name = some info')
    (hschema : getSchema py info' = .ok heap.schema)
    (hsame : heap'.schema = heap.schema) (hpresent : heap'.Exists written')
    (hothers : ∀ other ≠ name, x'.catalog.getTable other = x.catalog.getTable other ∧
      x'.heapFiles.get? other = x.heapFiles.get? other)
    (hpages : ∀ pageId : ℕ, (written pageId).isSome → pageId ∉ heap.pageIds →
      written' pageId = written pageId) :
    Leaves py pins written name heap x x' (heap'.records written') := by
  have htable : x'.Table py written' name info' heap' := by
    refine ⟨hknown, hsame ▸ hschema, ?_, hpresent⟩
    rw [hopen]
  refine ⟨written', info', heap', hserves, htable, rfl, ?_, ?_⟩
  · rw [scanTable_eq hserves hroom htable fun hnone => by rw [hopen] at hnone; cases hnone]
    have hdecode : heap'.decode py = heap.decode py := by
      funext r
      rw [HeapFile.decode, HeapFile.decode, hsame]
    rw [hdecode]
  · intro other info₂ heap₂ hne ht₂ hdisjoint
    obtain ⟨hinfo, hfile⟩ := hothers other hne
    exact ht₂.of_agree hinfo hfile fun pageId hmem =>
      hpages pageId (ht₂.present pageId hmem) (hdisjoint hmem)

/-- The first loop chooses the records that pass the test. -/
theorem choose_eq (py : Py) (h : x.pool.Serves pins written) (hroom : pins.toFinset.card < n)
    (hpresent : heap.Exists written) (predicate : Option Expr) :
    ∃ b, onPool (heap.scan py (fun rids rid values => ofPython (do
        let row := rowDict heap.schema.columnNames values
        return if ← evalPredicate py predicate row then rids ++ [rid] else rids)) []) x =
      (((filterE (test py heap predicate) (heap.records written)).map
        (List.map Prod.fst)).mapError .python, { x with pool := b }) ∧ b.Serves pins written := by
  obtain ⟨b, hscan, hserves⟩ := heap.scan_eq py (fun rids rid values => do
    let row := rowDict heap.schema.columnNames values
    return if ← evalPredicate py predicate row then rids ++ [rid] else rids) [] h hroom hpresent
  refine ⟨b, ?_, hserves⟩
  rw [onPool, Effect.zoom, hscan]
  have hloop : (heap.records written).foldlM (fun rids r => do
      let row ← heap.decode py r
      let dict := rowDict heap.schema.columnNames row.2
      return if ← evalPredicate py predicate dict then rids ++ [row.1] else rids) [] =
      (filterE (test py heap predicate) (heap.records written)).map (List.map Prod.fst) := by
    have hturn : (fun (rids : List RecordId) (r : RecordId × Bytes) => (do
        let row ← heap.decode py r
        let dict := rowDict heap.schema.columnNames row.2
        return if ← evalPredicate py predicate dict then rids ++ [row.1] else rids :
          Except PyError (List RecordId))) = fun rids r => do
        return if ← test py heap predicate r then rids ++ [r.1] else rids := by
      funext rids r
      simp only [test, HeapFile.decode, bind_assoc, pure_bind]
    rw [hturn]
    exact foldlM_append_filterE Prod.fst []
  rw [hloop]

theorem columnNames_of_getSchema {schema : TableSchema} (h : getSchema py info = .ok schema) :
    schema.columnNames = info.columnNames := by
  unfold getSchema at h
  obtain ⟨types, -, h⟩ := bind_eq_ok h
  cases h
  rfl

/-- The records that are chosen are told from the others by their record ids. -/
theorem filter_not_chosen {l : List (RecordId × Bytes)} (hnodup : (l.map Prod.fst).Nodup)
    (p : RecordId × Bytes → Bool) :
    l.filter (fun r => r.1 ∉ (l.filter p).map Prod.fst) = l.filter fun r => !p r := by
  refine List.filter_congr fun r hr => ?_
  rw [Bool.eq_iff_iff]
  simp only [decide_eq_true_eq, List.mem_map, List.mem_filter, Bool.not_eq_true', not_exists,
    not_and]
  constructor
  · intro h
    rw [← Bool.not_eq_true]
    exact fun hp => h r ⟨hr, hp⟩ rfl
  · rintro h r' ⟨hr', hp⟩ heq
    obtain rfl := List.inj_on_of_nodup_map hnodup hr' hr heq
    rw [h] at hp
    cases hp

/-- DELETE removes exactly the rows that pass the predicate, or nothing if the predicate raises. -/
theorem execDelete_exact (node : PlanNode) (h : x.pool.Serves pins written)
    (hroom : pins.toFinset.card < n)
    (ht : x.Table py written (node.info.tableName.getD "") info heap)
    (hintact : heap.Intact written)
    (hspace : x.heapFiles.get? (node.info.tableName.getD "") = none → heap.pageIds = [] →
      x.pool.disk.numPages < 2 ^ 32) :
    let chosen := test py heap (childPredicate node)
    let records := heap.records written
    let leaves := Leaves py pins written (node.info.tableName.getD "") heap x
    ((∃ r ∈ records, (chosen r).isOk = false) → ∃ e x', execDelete py node x = (.error e, x') ∧
      leaves x' records) ∧
    ((∀ r ∈ records, (chosen r).isOk = true) → ∃ result x',
      execDelete py node x = (.ok result, x') ∧
      leaves x' (records.filter fun r => !isTrue (chosen r)) ∧
      result.affectedRows = (records.filter fun r => isTrue (chosen r)).length) := by
  intro chosen records leaves
  obtain ⟨x₁, written₁, heap₁, hheap, hserves₁, ho⟩ :=
    getOrCreateHeap_eq heap.schema h hroom ht hspace
  obtain ⟨info₁, hknown₁, hschema₁⟩ := ho.known
  have hfind : findTable (node.info.tableName.getD "") x = (.ok info, x) := by
    simp only [findTable, ht.known]
  have hschema : (ofPython (getSchema py info) : Exec n TableSchema) x = (.ok heap.schema, x) := by
    rw [ht.schema, ofPython_ok]
  have hchosen : test py heap₁ (childPredicate node) = chosen := by
    funext r
    simp only [chosen, test, HeapFile.decode, ho.schema]
  obtain ⟨b₂, hchoose, hserves₂⟩ :=
    choose_eq py hserves₁ hroom ho.present (childPredicate node)
  rw [hchosen, ho.records, ho.schema, columnNames_of_getSchema ht.schema] at hchoose
  constructor
  · rintro ⟨r, hr, hraises⟩
    have hfilter : (filterE chosen records).isOk = false := by
      rw [Bool.eq_false_iff]
      intro hok
      rw [filterE_isOk.mp hok r hr] at hraises
      cases hraises
    obtain ⟨e, he⟩ := exists_error_of_isOk hfilter
    rw [he] at hchoose
    refine ⟨.python e, { x₁ with pool := b₂ }, ?_, ?_⟩
    · rw [execDelete, Effect.bind_ok hfind, Effect.bind_ok hschema, Effect.bind_ok hheap,
        Effect.bind_error hchoose]
    · have hleaves := leaves_of { x₁ with pool := b₂ } ht hserves₂ hroom ho.opened hknown₁
        (ho.schema ▸ hschema₁) ho.schema ho.present ho.others fun pageId hsome _ =>
          ho.pages pageId hsome
      rwa [ho.records] at hleaves
  · intro hok
    rw [filterE_of_isOk hok] at hchoose
    let rids := (records.filter fun r => isTrue (chosen r)).map Prod.fst
    have hsub : rids.Sublist (records.map Prod.fst) := List.filter_sublist.map Prod.fst
    have hnodup : (records.map Prod.fst).Nodup := HeapFile.nodup_records hintact.nodup
    obtain ⟨b₃, written₃, hdelete, hserves₃, hintact₃, hrecords, hframe⟩ :=
      HeapFile.deleteAll_eq heap₁ rids 0 hserves₂ hroom (ho.intact hintact) (hnodup.sublist hsub)
        (by rw [ho.records]; exact fun rid hrid => hsub.subset hrid)
    rw [ho.records, filter_not_chosen hnodup] at hrecords
    let rowCount : ℤ := max 0 (info.rowCountEstimate - (0 + rids.length : ℕ))
    let x₃ : Executor n := { x₁ with
      pool := b₃
      catalog := x₁.catalog.updateTableStats (node.info.tableName.getD "") rowCount }
    let result : QueryResult := {
      columns := []
      rows := []
      affectedRows := 0 + rids.length
      message := toString (0 + rids.length) ++ " row(s) deleted" }
    refine ⟨result, x₃, ?_, ?_, ?_⟩
    · rw [execDelete, Effect.bind_ok hfind, Effect.bind_ok hschema, Effect.bind_ok hheap,
        Effect.bind_ok hchoose, Effect.bind_ok (onPool_eq hdelete)]
      rfl
    · have hknown₃ : x₃.catalog.getTable (node.info.tableName.getD "") =
          some { info₁ with rowCountEstimate := rowCount } := by
        show (x₁.catalog.updateTable _ _).getTable _ = _
        rw [getTable_updateTable, if_pos rfl, hknown₁]
        rfl
      have hpresent₃ : heap₁.Exists written₃ := by
        intro pageId hmem
        obtain ⟨page, hpage, -⟩ := hintact₃.pages pageId hmem
        rw [hpage]
        rfl
      have hleaves := leaves_of x₃ ht hserves₃ hroom ho.opened hknown₃
        (ho.schema ▸ hschema₁) ho.schema hpresent₃ ?_ ?_
      · rwa [hrecords] at hleaves
      · intro other hne
        refine ⟨?_, (ho.others other hne).2⟩
        show (x₁.catalog.updateTable _ _).getTable other = _
        rw [getTable_updateTable, if_neg hne, (ho.others other hne).1]
      · -- the pages of the table are those it had and at most one that did not exist
        intro pageId hsome hnot
        rw [hframe pageId, ho.pages pageId hsome]
        intro hmem
        rcases ho.fresh pageId hmem with hold | hnone
        · exact hnot hold
        · rw [hnone] at hsome
          cases hsome
    · show 0 + rids.length = _
      rw [Nat.zero_add, List.length_map]

/-! ## A table of one row -/

/-- A page with one record: no column is NULL, and the first one is TRUE. -/
def oneRowPage : Page where
  data := List.replicate 4094 0 ++ [0, 1]
  header := { pageType := .heapData, numSlots := 1, dataEnd := 4094, freeSpace := 4058 }
  slots := [⟨4094, 2⟩]

theorem live_oneRowPage {i : ℕ} {s : SlotEntry} (h : oneRowPage.Live i s) :
    i = 0 ∧ s = ⟨4094, 2⟩ := by
  obtain ⟨hs, -⟩ := h
  replace hs : [(⟨4094, 2⟩ : SlotEntry)][i]? = some s := hs
  rcases i with - | i
  · exact ⟨rfl, (Option.some.inj hs).symm⟩
  · cases hs

theorem intact_oneRowPage : oneRowPage.Intact where
  layout := {
    size := (List.length_append).trans (by rw [List.length_replicate]; rfl)
    dirEnd := by decide
    inside := by
      intro i s hs
      obtain ⟨-, rfl⟩ := live_oneRowPage hs
      decide
    apart := by
      intro i j s s' hij hs hs'
      exact absurd ((live_oneRowPage hs).1.trans (live_oneRowPage hs').1.symm) hij }
  header := by
    refine ⟨?_, ?_, ?_, ?_, ?_, ?_, ?_, ?_, ?_⟩ <;> decide
  numSlots := rfl
  slots := by decide
  dataEnd_le := by decide
  free := by decide

/-- The file of that page. -/
def oneRowFile : Bytes := oneRowPage.toBytes.2.getD []

theorem oneRowFile_spec : WholePages oneRowFile ∧ ∃ page,
    writtenAtFirst oneRowFile 0 = some page ∧ page.contents = oneRowPage.contents ∧
      page.Preserved := by
  obtain ⟨bytes, page, hbytes, hlen, hread, hcontents, hagain⟩ :=
    intact_oneRowPage.documented.preserved.toBytes
  have hfile : oneRowFile = bytes := by rw [oneRowFile, hbytes]; rfl
  have hdata := ((Page.fromBytes_eq_some hlen).mp hread).1
  have hpres : page.Preserved := ⟨by rw [hdata, hlen], bytes, page, by rw [hagain], hread, rfl⟩
  have hid : page.header.pageId = 0 := congrArg (fun c => c.1.pageId) hcontents
  have hone : bytes.length / PAGE_SIZE = 1 := by rw [hlen]; decide
  have hblock : block bytes 0 = bytes := by
    rw [block, Nat.zero_mul, field_eq_self hlen.le]
  rw [hfile]
  refine ⟨⟨by rw [hlen]; decide, fun k hk => ?_⟩, page, ?_, hcontents, hpres⟩
  · obtain rfl : k = 0 := by omega
    exact ⟨page, by rw [hblock, hread], hid, hpres⟩
  · rw [writtenAtFirst, hone, if_pos (by decide)]
    exact (congrArg Page.fromBytes hblock).trans hread

def oneRowHeap : HeapFile where
  schema := {
    tableName := "t"
    columnNames := ["b"]
    columnTypes := [.boolean]
    primaryKey := none }
  pageIds := [0]

def oneRow : Executor 1 where
  catalog := { Catalog.empty with
    tables := Dict.empty.set "t" {
      name := "t"
      columns := [⟨"b", "BOOLEAN", []⟩]
      firstPageId := 0 } }
  heapFiles := .empty
  pool := .new (.ofFile oneRowFile)

/-- DELETE FROM t WHERE b -/
def deleteTrue : PlanNode :=
  .mk { type := .delete, tableName := some "t" }
    [.mk { type := .filter, predicate := some (.columnRef none "b") } []]

theorem execDelete_exact_oneRow : ∃ result x',
    execDelete Py.ascii deleteTrue oneRow = (.ok result, x') ∧
      Leaves Py.ascii [] (writtenAtFirst oneRowFile) "t" oneRowHeap oneRow x' [] ∧
      result.affectedRows = 1 := by
  obtain ⟨hwhole, page, hpage, hcontents, hpres⟩ := oneRowFile_spec
  have hintact : oneRowHeap.Intact (writtenAtFirst oneRowFile) := by
    refine ⟨by decide, fun pageId hmem => ⟨page, ?_, intact_oneRowPage.of_contents hpres hcontents⟩⟩
    rw [List.mem_singleton.mp hmem]
    exact hpage
  have hrecords : oneRowHeap.records (writtenAtFirst oneRowFile) = [(⟨0, 0⟩, [0, 1])] := by
    have hlive : oneRowPage.liveRecords = [(0, [0, 1])] := by decide +kernel
    have hsame := HeapFile.liveRecords_of_contents hcontents
    simp only [HeapFile.records, oneRowHeap, List.flatMap_singleton, recordsOn, Nat.cast_zero,
      hpage]
    show page.liveRecords.map _ = _
    rw [hsame, hlive]
    rfl
  have htable : oneRow.Table Py.ascii (writtenAtFirst oneRowFile) "t"
      { name := "t", columns := [⟨"b", "BOOLEAN", []⟩], firstPageId := 0 } oneRowHeap := by
    refine ⟨rfl, ?_, ?_, ?_⟩
    · have hname : DataType.fromString Py.ascii "BOOLEAN" = .ok .boolean := by decide +kernel
      simp only [getSchema, mapE, hname]
      rfl
    · have hnext : page.header.nextPage = INVALID_PAGE_ID :=
        congrArg (fun c => c.1.nextPage) hcontents
      show HeapFile.Chain _ 0 [0]
      exact .cons (by decide) hpage (hnext ▸ .nil)
    · intro pageId hmem
      rw [List.mem_singleton.mp hmem]
      exact Option.isSome_iff_exists.mpr ⟨page, hpage⟩
  have htest :
      test Py.ascii oneRowHeap (childPredicate deleteTrue) (⟨0, 0⟩, [0, 1]) = .ok true := by
    decide +kernel
  have hserves : oneRow.pool.Serves [] (writtenAtFirst oneRowFile) := coherent_init hwhole
  have hspace : oneRow.heapFiles.get? "t" = none → oneRowHeap.pageIds = [] →
      oneRow.pool.disk.numPages < 2 ^ 32 := fun _ hnil => by cases hnil
  have hexact := (execDelete_exact deleteTrue hserves (by decide) htable hintact hspace).2
  rw [hrecords] at hexact
  obtain ⟨result, x', hrun, hleaves, hcount⟩ := hexact (by simp [htest, Except.isOk, Except.toBool])
  refine ⟨result, x', hrun, ?_, ?_⟩
  · have hnone : [((⟨0, 0⟩ : RecordId), ([0, 1] : Bytes))].filter (fun r =>
        !isTrue (test Py.ascii oneRowHeap (childPredicate deleteTrue) r)) = [] := by simp [htest]
    rw [hnone] at hleaves
    exact hleaves
  · simpa [htest] using hcount

end Executor

end PySQL.Query
