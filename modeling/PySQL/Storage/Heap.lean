import PySQL.Lib.Effect
import PySQL.Storage.PageDelete
import PySQL.Storage.PoolRoom
import PySQL.Storage.Record

/-!
# Heap files

The pages of a table in the buffer pool.  Each page is pinned only while it is looked at.
-/

namespace PySQL.Storage

open Query Lib

set_option linter.unusedSectionVars false

/-- What a statement raises.  A chain of pages that comes back to itself is followed for ever. -/
inductive DbError where
  | storage (e : StorageError)
  | python (e : PyError)
  | endless
deriving DecidableEq, Repr

/-- A call that has nothing to do with the state. -/
def ofPython {σ α : Type} (x : Except PyError α) : Effect σ DbError α :=
  Effect.lift (x.mapError .python)

theorem ofPython_ok {σ α : Type} {s : σ} {a : α} :
    (ofPython (.ok a) : Effect σ DbError α) s = (.ok a, s) := rfl

theorem ofPython_eq_ok {σ α : Type} {x : Except PyError α} {s s' : σ} {a : α}
    (h : (ofPython x : Effect σ DbError α) s = (.ok a, s')) : x = .ok a ∧ s' = s := by
  cases x <;> cases h
  exact ⟨rfl, rfl⟩

theorem ofPython_bind {σ α β : Type} {x : Except PyError α} {f : α → Except PyError β} :
    (ofPython x >>= fun a => ofPython (f a) : Effect σ DbError β) = ofPython (x >>= f) := by
  unfold ofPython
  rw [Effect.lift_bind, Effect.mapError_bind]

theorem foldlM_ofPython {σ α β : Type} {l : List α} {h : β → α → Except PyError β} {b : β} :
    l.foldlM (fun b x => (ofPython (h b x) : Effect σ DbError β)) b = ofPython (l.foldlM h b) := by
  unfold ofPython
  rw [Effect.foldlM_lift, Effect.foldlM_mapError]

structure HeapFile where
  schema : TableSchema
  pageIds : List ℕ

variable {n : ℕ} [NeZero n]

/-- Calls on the buffer pool that may raise. -/
abbrev PoolCalls (n : ℕ) : Type → Type := Effect (BufferPool n) DbError

namespace HeapFile

def fetchPage (pageId : ℕ) : PoolCalls n Page := fun b =>
  match b.fetchPage pageId with
  | (b, .ok (some page)) => (.ok page, b)
  | (b, .ok none) => (.error (.storage .noPage), b)
  | (b, .error e) => (.error (.storage e), b)

def newPage : PoolCalls n Page := fun b =>
  match b.newPage .heapData with
  | (b, .ok page) => (.ok page, b)
  | (b, .error e) => (.error (.storage e), b)

def unpinPage (pageId : ℕ) (isDirty : Bool) : PoolCalls n Unit :=
  Effect.change fun b => (b.unpinPage pageId isDirty).1

/-- Change the page that was fetched. -/
def modifyPage (pageId : ℕ) (page : Page) : PoolCalls n Unit :=
  Effect.change fun b => b.modify pageId page

/-! ## The calls -/

/-- The pages from `current` on. -/
def loadPageChain : ℕ → ℕ → PoolCalls n (List ℕ)
  | 0, _ => Effect.lift (.error .endless)
  | turns + 1, current =>
    if current = INVALID_PAGE_ID then pure []
    else do
      let page ← fetchPage current
      unpinPage current false
      return current :: (← loadPageChain turns page.header.nextPage)

/-- Open a table: the chain of its pages, or a first page if it has none.  A chain of more pages
than the file has comes back to itself. -/
def init (schema : TableSchema) (firstPageId : Option ℕ) : PoolCalls n HeapFile :=
  match firstPageId with
  | some first => do
    let numPages ← Effect.read fun b => b.disk.numPages
    return { schema, pageIds := ← loadPageChain (numPages + 1) first }
  | none => do
    let page ← newPage
    unpinPage page.header.pageId true
    return { schema, pageIds := [page.header.pageId] }

/-- `self._page_ids[0] if self._page_ids else -1` -/
def firstPageId (heap : HeapFile) : ℤ := (heap.pageIds.head?).elim (-1) Nat.cast

def delete (rid : RecordId) : PoolCalls n Bool := do
  let page ← fetchPage rid.pageId
  let (page, success) := page.deleteRecord rid.slotIndex
  modifyPage rid.pageId page
  unpinPage rid.pageId success
  return success

/-- `for rid, values in heap.scan()`: the records of a page are taken when the loop comes to the
page, and each is decoded when its turn comes. -/
def scan {β : Type} (py : Py) (heap : HeapFile) (body : β → RecordId → Row → PoolCalls n β)
    (start : β) : PoolCalls n β :=
  heap.pageIds.foldlM (fun acc pageId => do
    let page ← fetchPage pageId
    unpinPage pageId false
    page.liveRecords.foldlM (fun acc record => do
      let values ← ofPython (RecordSerializer.deserialize py heap.schema record.2)
      body acc ⟨pageId, record.1⟩ values) acc) start

end HeapFile

/-! ## What a heap file stands for -/

/-- The pool serves the pages as they were last written, while others hold pins. -/
def BufferPool.Serves (b : BufferPool n) (pins : List ℤ) (written : ℤ → Option Page) : Prop :=
  Coherent b (⟨pins.map fun pageId => ((), pageId), [], written⟩ : Callers Unit)

/-- The live records of a page, with their record ids. -/
def recordsOn (written : ℤ → Option Page) (pageId : ℕ) : List (RecordId × Bytes) :=
  ((written pageId).elim [] Page.liveRecords).map fun r => (⟨pageId, r.1⟩, r.2)

namespace HeapFile

/-- The live records of a table in scan order. -/
def records (heap : HeapFile) (written : ℤ → Option Page) : List (RecordId × Bytes) :=
  heap.pageIds.flatMap (recordsOn written)

/-- A record with the row it holds. -/
def decode (py : Py) (heap : HeapFile) (r : RecordId × Bytes) :
    Except PyError (RecordId × Row) := do
  return (r.1, ← RecordSerializer.deserialize py heap.schema r.2)

def Exists (heap : HeapFile) (written : ℤ → Option Page) : Prop :=
  ∀ pageId ∈ heap.pageIds, (written pageId).isSome

/-- Every page exists once and is intact. -/
structure Intact (heap : HeapFile) (written : ℤ → Option Page) : Prop where
  nodup : heap.pageIds.Nodup
  pages : ∀ pageId ∈ heap.pageIds, ∃ page, written pageId = some page ∧ page.Intact

/-- The pages from `first` on as the chain leads. -/
inductive Chain (written : ℤ → Option Page) : ℕ → List ℕ → Prop where
  | nil : Chain written INVALID_PAGE_ID []
  | cons {current : ℕ} {page : Page} {rest : List ℕ} (hne : current ≠ INVALID_PAGE_ID)
      (hpage : written current = some page) (hrest : Chain written page.header.nextPage rest) :
      Chain written current (current :: rest)

end HeapFile

/-! ## Reading -/

variable {b : BufferPool n} {pins : List ℤ} {written : ℤ → Option Page} {pageId : ℕ} {w : Page}

theorem pinned_serves {pins : List ℤ} {written : ℤ → Option Page} :
    Callers.pinned (⟨pins.map fun pageId => ((), pageId), [], written⟩ : Callers Unit) =
      pins.toFinset := by
  simp [Callers.pinned, Function.comp_def]

namespace HeapFile

theorem fetchPage_eq (h : b.Serves pins written) (hroom : pins.toFinset.card < n)
    (hw : written pageId = some w) :
    ∃ b' page, fetchPage pageId b = (.ok page, b') ∧ b'.Serves (pageId :: pins) written ∧
      page.contents = w.contents ∧ page.Preserved ∧ page.header.pageId = pageId := by
  obtain ⟨b', page, hfetch, hco, hcontents, hpres, hid⟩ :=
    Coherent.fetchPage_of_room h (by rwa [pinned_serves]) hw ()
  refine ⟨b', page, ?_, hco, hcontents, hpres, by exact_mod_cast hid⟩
  simp only [fetchPage, hfetch]

theorem serves_unpin (h : b.Serves (pageId :: pins) written) (isDirty : Bool) :
    (b.unpinPage pageId isDirty).1.Serves pins written := by
  have hunpin : Coherent (b.unpinPage pageId isDirty).1 (Callers.unpin _ () pageId isDirty) :=
    Coherent.unpinPage h (by simp) (by simp)
  have hg : Callers.unpin ⟨((pageId : ℤ) :: pins).map fun pageId => ((), pageId), [], written⟩
      () (pageId : ℤ) isDirty = ⟨pins.map fun pageId => ((), pageId), [], written⟩ := by
    simp [Callers.unpin]
  rwa [hg] at hunpin

/-- A page is fetched, looked at and unpinned. -/
theorem visit (h : b.Serves pins written) (hroom : pins.toFinset.card < n)
    (hw : written pageId = some w) :
    ∃ b₁ b' page, fetchPage pageId b = (.ok page, b₁) ∧
      (unpinPage pageId false : PoolCalls n Unit) b₁ = (.ok (), b') ∧ b'.Serves pins written ∧
        page.contents = w.contents := by
  obtain ⟨b₁, page, hfetch, hserves, hcontents, -, -⟩ := fetchPage_eq h hroom hw
  exact ⟨b₁, _, page, hfetch, rfl, serves_unpin hserves false, hcontents⟩

theorem liveRecords_of_contents {p q : Page} (h : q.contents = p.contents) :
    q.liveRecords = p.liveRecords := by
  obtain ⟨-, hslots, hreads⟩ := Page.contents_eq_iff.mp h
  exact Page.liveRecords_congr hslots hreads

/-! ### The chain of pages -/

theorem Chain.unique {first : ℕ} {ids ids' : List ℕ} (h : Chain written first ids)
    (h' : Chain written first ids') : ids = ids' := by
  induction h generalizing ids' with
  | nil =>
    cases h' with
    | nil => rfl
    | cons hne => exact absurd rfl hne
  | cons hne hpage hrest ih =>
    cases h' with
    | nil => exact absurd rfl hne
    | cons _ hpage' hrest' =>
      rw [hpage, Option.some.injEq] at hpage'
      subst hpage'
      rw [ih hrest']

/-- Each page of a chain starts the rest of it. -/
theorem Chain.suffix {first : ℕ} {ids : List ℕ} (h : Chain written first ids)
    (hmem : pageId ∈ ids) :
    ∃ rest, Chain written pageId (pageId :: rest) ∧ (pageId :: rest) <:+ ids := by
  induction h with
  | nil => cases hmem
  | @cons current page rest hne hpage hrest ih =>
    rcases List.mem_cons.mp hmem with rfl | hmem
    · exact ⟨rest, .cons hne hpage hrest, List.suffix_rfl⟩
    · obtain ⟨rest', hchain, hsuffix⟩ := ih hmem
      exact ⟨rest', hchain, hsuffix.trans (List.suffix_cons _ _)⟩

/-- A chain that ends does not come back to a page. -/
theorem Chain.nodup {first : ℕ} {ids : List ℕ} (h : Chain written first ids) : ids.Nodup := by
  induction h with
  | nil => exact List.nodup_nil
  | @cons current page rest hne hpage hrest ih =>
    refine List.nodup_cons.mpr ⟨fun hmem => ?_, ih⟩
    obtain ⟨rest', hchain, hsuffix⟩ := hrest.suffix hmem
    have heq := hchain.unique (.cons hne hpage hrest)
    have hlen := hsuffix.length_le
    rw [heq, List.length_cons] at hlen
    omega

theorem Chain.exists {first : ℕ} {ids : List ℕ} (h : Chain written first ids) :
    ∀ pageId ∈ ids, (written pageId).isSome := by
  induction h with
  | nil => simp
  | cons _ hpage _ ih => exact List.forall_mem_cons.mpr ⟨by rw [hpage]; rfl, ih⟩

theorem Chain.congr {first : ℕ} {ids : List ℕ} (h : Chain written first ids)
    {written' : ℤ → Option Page} (hagree : ∀ pageId ∈ ids, written' (pageId : ℕ) = written pageId) :
    Chain written' first ids := by
  induction h with
  | nil => exact .nil
  | cons hne hpage _ ih =>
    rw [List.forall_mem_cons] at hagree
    exact .cons hne (hagree.1.trans hpage) (ih hagree.2)

theorem Chain.length_le {first : ℕ} {ids : List ℕ} (h : Chain written first ids)
    (hs : b.Serves pins written) : ids.length ≤ b.disk.numPages := by
  have hsub : ids.toFinset ⊆ Finset.range b.disk.numPages := by
    intro pageId hmem
    have hlt := ((Coherent.exists_iff hs pageId).mp (h.exists _ (List.mem_toFinset.mp hmem))).2
    rw [Finset.mem_range]
    simp only [pagesOn] at hlt
    omega
  have hcard := Finset.card_le_card hsub
  rwa [Finset.card_range, List.toFinset_card_of_nodup h.nodup] at hcard

theorem loadPageChain_eq {first turns : ℕ} {ids : List ℕ} (hchain : Chain written first ids)
    (h : b.Serves pins written) (hroom : pins.toFinset.card < n) (hturns : ids.length < turns) :
    ∃ b', loadPageChain turns first b = (.ok ids, b') ∧ b'.Serves pins written := by
  induction hchain generalizing b turns with
  | nil =>
    cases turns with
    | zero => cases hturns
    | succ turns => exact ⟨b, by rw [loadPageChain, if_pos rfl]; rfl, h⟩
  | @cons current page rest hne hpage hrest ih =>
    cases turns with
    | zero => cases hturns
    | succ turns =>
      obtain ⟨b₁, b₂, page', hfetch, hunpin, hserves, hcontents⟩ := visit h hroom hpage
      have hnext : page'.header.nextPage = page.header.nextPage :=
        congrArg (fun c => c.1.nextPage) hcontents
      obtain ⟨b', hload, hserves'⟩ := ih hserves (by simpa using hturns)
      refine ⟨b', ?_, hserves'⟩
      rw [loadPageChain, if_neg hne, Effect.bind_ok hfetch, Effect.bind_ok hunpin, hnext,
        Effect.bind_ok hload, Effect.pure_apply]

theorem init_some (schema : TableSchema) {first : ℕ} {ids : List ℕ} (h : b.Serves pins written)
    (hroom : pins.toFinset.card < n) (hchain : Chain written first ids) :
    ∃ b', init schema (some first) b = (.ok ⟨schema, ids⟩, b') ∧ b'.Serves pins written := by
  have hturns : ids.length < b.disk.numPages + 1 := Nat.lt_succ_of_le (hchain.length_le h)
  obtain ⟨b', hload, hserves⟩ := loadPageChain_eq hchain h hroom hturns
  refine ⟨b', ?_, hserves⟩
  rw [init, Effect.bind_ok (Effect.read_apply), Effect.bind_ok hload, Effect.pure_apply]

/-- The first page of a new table: it has no records, and no page had its number. -/
theorem init_none (schema : TableSchema) (h : b.Serves pins written)
    (hroom : pins.toFinset.card < n) (hnum : b.disk.numPages < 2 ^ 32) :
    ∃ b', init schema none b = (.ok ⟨schema, [b.disk.numPages]⟩, b') ∧
      b'.Serves pins (Function.update written b.disk.numPages
        (some (Page.new b.disk.numPages .heapData))) ∧ written b.disk.numPages = none := by
  obtain ⟨b₁, page, hnew, hid, hco⟩ :=
    Coherent.newPage_of_room h (by rwa [pinned_serves]) .heapData hnum ()
  have hcall : newPage b = (.ok page, b₁) := by simp only [newPage, hnew]
  refine ⟨(b₁.unpinPage b.disk.numPages true).1, ?_, serves_unpin hco true, ?_⟩
  · rw [init, Effect.bind_ok hcall, hid]
    rfl
  · have hnot := (Coherent.exists_iff h b.disk.numPages).not.mpr (by
      simp only [pagesOn]
      omega)
    simpa using hnot

/-! ### Scanning -/

/-- A scan whose body does not touch the pool reads the live records in order. -/
theorem scan_eq {β : Type} (py : Py) (heap : HeapFile)
    (body : β → RecordId → Row → Except PyError β) (start : β) (h : b.Serves pins written) (hroom : pins.toFinset.card < n)
    (hexists : heap.Exists written) :
    ∃ b', heap.scan py (fun acc rid values => ofPython (body acc rid values)) start b =
        (((heap.records written).foldlM (fun acc r => do
          let row ← heap.decode py r
          body acc row.1 row.2) start).mapError .python, b') ∧ b'.Serves pins written := by
  obtain ⟨schema, pageIds⟩ := heap
  unfold scan records
  simp only [ofPython_bind, foldlM_ofPython, decode, bind_assoc, pure_bind]
  induction pageIds generalizing b start with
  | nil => exact ⟨b, rfl, h⟩
  | cons pageId rest ih =>
    obtain ⟨w, hw⟩ := Option.isSome_iff_exists.mp (hexists pageId List.mem_cons_self)
    obtain ⟨b₁, b₂, page, hfetch, hunpin, hserves, hcontents⟩ := visit h hroom hw
    have hon : recordsOn written pageId = page.liveRecords.map fun r => (⟨pageId, r.1⟩, r.2) := by
      rw [recordsOn, hw, liveRecords_of_contents hcontents]
      rfl
    simp only [List.flatMap_cons, List.foldlM_append, hon, List.foldlM_map]
    cases hpage : page.liveRecords.foldlM (fun acc r => do
        let values ← RecordSerializer.deserialize py schema r.2
        body acc ⟨pageId, r.1⟩ values) start with
    | error e =>
      refine ⟨b₂, ?_, hserves⟩
      refine Effect.foldlM_cons_error ?_
      rw [Effect.bind_ok hfetch, Effect.bind_ok hunpin]
      simp only [ofPython, hpage]
      rfl
    | ok acc =>
      obtain ⟨b', hrest, hserves'⟩ := ih acc hserves
        (fun pageId hmem => hexists pageId (List.mem_cons_of_mem _ hmem))
      refine ⟨b', ?_, hserves'⟩
      refine (Effect.foldlM_cons_ok ?_).trans hrest
      rw [Effect.bind_ok hfetch, Effect.bind_ok hunpin]
      simp only [ofPython, hpage]
      rfl

/-! ### Deleting -/

/-- A pinned page is changed and unpinned. -/
theorem serves_rewrite {page : Page} (h : b.Serves (pageId :: pins) written)
    (hid : page.header.pageId = pageId) (hpres : page.Preserved) :
    ∃ b', (∀ (α : Type) (a : α), (do
        modifyPage pageId page
        unpinPage pageId true
        return a : PoolCalls n α) b = (.ok a, b')) ∧
      b'.Serves pins (Function.update written pageId (some page)) := by
  have hpinned : ((), (pageId : ℤ)) ∈
      ((pageId : ℤ) :: pins).map fun pageId => ((), pageId) := by simp
  have hmodify := Coherent.modify h hpinned (by exact_mod_cast hid) hpres
  let b' := ((b.modify pageId page).unpinPage pageId true).1
  have hunpin : Coherent b' (Callers.unpin _ () pageId true) :=
    Coherent.unpinPage hmodify (by simp [Callers.write]) (by simp)
  refine ⟨b', fun α a => rfl, ?_⟩
  have hg : Callers.unpin { Callers.write
        (⟨((pageId : ℤ) :: pins).map fun pageId => ((), pageId), [], written⟩ : Callers Unit)
        (pageId : ℤ) page with
        unreported := [((), (pageId : ℤ))] } () (pageId : ℤ) true =
      ⟨pins.map fun pageId => ((), pageId), [], Function.update written pageId (some page)⟩ := by
    simp [Callers.unpin, Callers.write]
  rw [BufferPool.Serves, ← hg]
  exact hunpin

theorem delete_eq {rid : RecordId} {s : SlotEntry} (h : b.Serves pins written)
    (hroom : pins.toFinset.card < n) (hw : written rid.pageId = some w) (hintact : w.Intact)
    (hlive : w.Live rid.slotIndex s) :
    ∃ b' page, delete rid b = (.ok true, b') ∧
      b'.Serves pins (Function.update written rid.pageId (some page)) ∧ page.Intact ∧
        page.liveRecords = w.liveRecords.filter fun r => r.1 ≠ rid.slotIndex := by
  obtain ⟨b₁, page, hfetch, hserves, hcontents, hpres, hid⟩ := fetchPage_eq h hroom hw
  have hlive' : page.Live rid.slotIndex s := by
    rw [Page.Live, (Page.contents_eq_iff.mp hcontents).2.1]
    exact hlive
  have htomb := (hintact.of_contents hpres hcontents).tombstone hlive'
  obtain ⟨b', hwrite, hserves'⟩ := serves_rewrite hserves
    (show (page.tombstone rid.slotIndex s).header.pageId = rid.pageId from hid)
    htomb.documented.preserved
  refine ⟨b', page.tombstone rid.slotIndex s, ?_, hserves', htomb, ?_⟩
  · rw [delete, Effect.bind_ok hfetch, Page.deleteRecord_of_live hlive']
    exact hwrite Bool true
  · rw [Page.liveRecords_tombstone, liveRecords_of_contents hcontents]

theorem mem_records {heap : HeapFile} {rid : RecordId} {data : Bytes} :
    (rid, data) ∈ heap.records written ↔ rid.pageId ∈ heap.pageIds ∧
      ∃ page, written rid.pageId = some page ∧ (rid.slotIndex, data) ∈ page.liveRecords := by
  simp only [records, recordsOn, List.mem_flatMap, List.mem_map]
  constructor
  · rintro ⟨pageId, hmem, r, hr, heq⟩
    obtain ⟨rfl, rfl⟩ := Prod.mk.inj heq
    cases hw : written pageId with
    | none => simp [hw] at hr
    | some page => exact ⟨hmem, page, rfl, by simpa [hw] using hr⟩
  · rintro ⟨hmem, page, hw, hr⟩
    exact ⟨rid.pageId, hmem, (rid.slotIndex, data), by simpa [hw] using hr, rfl⟩

theorem nodup_records {heap : HeapFile} (h : heap.pageIds.Nodup) :
    ((heap.records written).map Prod.fst).Nodup := by
  rw [records, List.map_flatMap, List.nodup_flatMap]
  constructor
  · intro pageId _
    simp only [recordsOn, List.map_map]
    cases written pageId with
    | none => exact List.nodup_nil
    | some page =>
      have hnodup := page.nodup_liveRecords
      rw [List.Nodup, List.pairwise_map] at hnodup ⊢
      exact hnodup.imp fun hne heq => hne (RecordId.mk.inj heq).2
  · refine h.imp ?_
    intro pageId pageId' hne rid hrid hrid'
    simp only [recordsOn, List.map_map, List.mem_map] at hrid hrid'
    obtain ⟨r, -, rfl⟩ := hrid
    obtain ⟨r', -, heq⟩ := hrid'
    exact hne (RecordId.mk.inj heq).1.symm

/-- Rewriting a page of a table without one of its records. -/
theorem records_update (heap : HeapFile) {rid : RecordId} {page : Page}
    (hw : written rid.pageId = some w)
    (hpage : page.liveRecords = w.liveRecords.filter fun r => r.1 ≠ rid.slotIndex) :
    heap.records (Function.update written rid.pageId (some page)) =
      (heap.records written).filter fun r => r.1 ≠ rid := by
  rw [records, records, List.filter_flatMap]
  refine List.flatMap_congr fun pageId _ => ?_
  unfold recordsOn
  by_cases hid : pageId = rid.pageId
  · subst hid
    rw [Function.update_self, hw, List.filter_map]
    show page.liveRecords.map _ = (w.liveRecords.filter _).map _
    rw [hpage]
    congr 1
    refine List.filter_congr fun r _ => ?_
    obtain ⟨pageId, slotIndex⟩ := rid
    simp
  · rw [Function.update_of_ne (by exact_mod_cast hid), eq_comm, List.filter_eq_self]
    intro r hr
    obtain ⟨r', -, rfl⟩ := List.mem_map.mp hr
    have hne : (⟨pageId, r'.1⟩ : RecordId) ≠ rid := fun heq => hid (congrArg RecordId.pageId heq)
    simpa using hne

/-- The second loop of `_exec_delete`: `count` rows are deleted so far. -/
def deleteAll (rids : List RecordId) (count : ℕ) : PoolCalls n ℕ :=
  rids.foldlM (fun count rid => do
    let _ ← delete rid
    return count + 1) count

theorem deleteAll_eq (heap : HeapFile) (rids : List RecordId) (count : ℕ)
    (h : b.Serves pins written) (hroom : pins.toFinset.card < n) (hintact : heap.Intact written)
    (hnodup : rids.Nodup) (hrids : ∀ rid ∈ rids, rid ∈ (heap.records written).map Prod.fst) :
    ∃ b' written', deleteAll rids count b = (.ok (count + rids.length), b') ∧
      b'.Serves pins written' ∧ heap.Intact written' ∧
      heap.records written' = (heap.records written).filter (fun r => r.1 ∉ rids) ∧
      ∀ q : ℕ, q ∉ heap.pageIds → written' q = written q := by
  induction rids generalizing b written count with
  | nil => exact ⟨b, written, rfl, h, hintact, by simp, fun _ _ => rfl⟩
  | cons rid rest ih =>
    rw [List.nodup_cons] at hnodup
    rw [List.forall_mem_cons] at hrids
    obtain ⟨⟨rid', data⟩, hmem, rfl : rid' = rid⟩ := List.mem_map.mp hrids.1
    obtain ⟨hid, w, hw, hrecord⟩ := mem_records.mp hmem
    obtain ⟨s, hlive, -⟩ := Page.mem_liveRecords.mp hrecord
    obtain ⟨w', hw', hwintact⟩ := hintact.pages _ hid
    obtain rfl : w = w' := Option.some.inj (hw.symm.trans hw')
    obtain ⟨b₁, page, hdelete, hserves, hpage, hlist⟩ := delete_eq h hroom hw hwintact hlive
    have hrecords := records_update heap hw hlist
    -- the other pages are as they were
    have hother : ∀ q : ℕ, q ≠ rid'.pageId →
        Function.update written (rid'.pageId : ℤ) (some page) q = written q := fun q hq =>
      Function.update_of_ne (by exact_mod_cast hq) _ _
    have hintact' : heap.Intact (Function.update written rid'.pageId (some page)) := by
      refine ⟨hintact.nodup, fun pageId hpageId => ?_⟩
      by_cases heq : pageId = rid'.pageId
      · subst heq
        exact ⟨page, Function.update_self .., hpage⟩
      · rw [hother pageId heq]
        exact hintact.pages pageId hpageId
    have hrest : ∀ rid ∈ rest, rid ∈ (heap.records (Function.update written rid'.pageId
        (some page))).map Prod.fst := by
      intro r hr
      obtain ⟨⟨r', data'⟩, hr', rfl : r' = r⟩ := List.mem_map.mp (hrids.2 r hr)
      rw [hrecords]
      refine List.mem_map.mpr ⟨(r', data'), List.mem_filter.mpr ⟨hr', ?_⟩, rfl⟩
      have hne : r' ≠ rid' := by
        rintro rfl
        exact hnodup.1 hr
      simpa using hne
    obtain ⟨b', written', hloop, hserves', hintact'', hfinal, hframe⟩ :=
      ih (count + 1) hserves hintact' hnodup.2 hrest
    refine ⟨b', written', ?_, hserves', hintact'', ?_, ?_⟩
    · rw [List.length_cons, Nat.add_comm rest.length, ← Nat.add_assoc, ← hloop]
      refine Effect.foldlM_cons_ok ?_
      rw [Effect.bind_ok hdelete, Effect.pure_apply]
    · rw [hfinal, hrecords, List.filter_filter]
      refine List.filter_congr fun r _ => ?_
      simp [Bool.and_comm]
    · intro q hq
      rw [hframe q hq]
      refine hother q ?_
      rintro rfl
      exact hq hid

end HeapFile

end PySQL.Storage
