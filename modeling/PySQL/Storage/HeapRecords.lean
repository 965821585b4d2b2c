import PySQL.Storage.HeapStore
import PySQL.Storage.PageRecords
import PySQL.Storage.RowFraming

/-!
# Heap files as maps from record ids to records

What each call of a heap file does to the records of the file, and that it leaves the pages of
other files alone.
-/

namespace PySQL.Storage

open Query Lib BufferPool

set_option linter.unusedSectionVars false

variable {n : ℕ} [NeZero n] {b b' b₁ : BufferPool n} {pins : List ℤ}
  {written written' : ℤ → Option Page} {pageId : ℕ} {w page : Page}

namespace RecordSerializer

/-- A record of a table with columns has a bitmap. -/
theorem serialize_ne_nil {py : Py} {schema : TableSchema} {values : Row} {data : Bytes}
    (hcolumns : schema.columnNames ≠ []) (h : serialize py schema values = .ok data) :
    data ≠ [] := by
  unfold serialize at h
  split at h
  · cases h
  · next hlen =>
    rw [ne_eq, not_not] at hlen
    obtain ⟨bs, -, hdata⟩ := Lib.bind_eq_ok h
    obtain rfl := Except.ok.inj hdata
    have hpos : 0 < (nullBitmap values).length := by
      have := List.length_pos_of_ne_nil hcolumns
      rw [length_nullBitmap, nullBitmapSize]
      omega
    exact List.append_ne_nil_of_left_ne_nil (List.ne_nil_of_length_pos hpos) bs

end RecordSerializer

namespace HeapFile

/-! ## Pages in the pool -/

theorem modify_fetched (h : fetchPage pageId b = (.ok page, b')) : b'.modify pageId page = b' := by
  have hpool : b.fetchPage pageId = (b', .ok (some page)) := by
    unfold fetchPage at h
    split at h <;> cases h
    assumption
  obtain ⟨f, hentry, hframe⟩ := frame_of_fetchPage hpool
  exact modify_of_frame hentry hframe

/-- A new page, as the caller holds it. -/
theorem newPage_eq (h : b.Serves pins written) (hroom : pins.toFinset.card < n)
    (hnum : b.disk.numPages < 2 ^ 32) : ∃ b' page, newPage b = (.ok page, b') ∧
      b'.Serves (b.disk.numPages :: pins) (Function.update written b.disk.numPages
        (some (Page.new b.disk.numPages .heapData))) ∧
      page.contents = (Page.new b.disk.numPages .heapData).contents ∧ page.Preserved ∧
      page.header.pageId = b.disk.numPages := by
  obtain ⟨b', page, hnew, hid, hco⟩ :=
    Coherent.newPage_of_room h (by rwa [pinned_serves]) .heapData hnum ()
  obtain ⟨data, page', halloc, -, -, hcontents, hpres, -⟩ :=
    b.disk.allocatePage_spec .heapData hnum
  have hsame : page = page' := by
    simp only [BufferPool.newPage, halloc] at hnew
    split at hnew <;> cases hnew
    rfl
  refine ⟨b', page, by simp only [newPage, hnew], hco, ?_, ?_, hid⟩
  · rw [hsame]
    exact hcontents
  · rw [hsame]
    exact hpres

end HeapFile

/-! ## The records of a file -/

/-- The most bytes that a record of a heap file may have. -/
def MAX_RECORD : ℕ := PAGE_SIZE - HEADER_SIZE - SLOT_SIZE

/-- A table as it is meant: the record under each id. -/
structure Table where
  schema : TableSchema
  records : RecordId → Option Bytes

namespace Table

def put (t : Table) (rid : RecordId) (record? : Option Bytes) : Table :=
  { t with records := Function.update t.records rid record? }

/-- What an insert may answer, and the table after it. -/
inductive Inserts (py : Py) (t : Table) (values : Row) : Except DbError RecordId → Table → Prop where
  | unserializable {e : PyError} (h : RecordSerializer.serialize py t.schema values = .error e) :
      Inserts py t values (.error (.python e)) t
  | tooLarge {data : Bytes} (h : RecordSerializer.serialize py t.schema values = .ok data)
      (hlen : MAX_RECORD < data.length) : Inserts py t values
        (.error (.python (.runtimeError "Record too large to fit in a single page"))) t
  | stored {data : Bytes} {rid : RecordId}
      (h : RecordSerializer.serialize py t.schema values = .ok data)
      (hlen : data.length ≤ MAX_RECORD) (hvacant : t.records rid = none) :
      Inserts py t values (.ok rid) (t.put rid (some data))

theorem Inserts.vacant {py : Py} {t t' : Table} {values : Row} {rid : RecordId}
    (h : t.Inserts py values (.ok rid) t') : t.records rid = none := by
  cases h with
  | stored _ _ hvacant => exact hvacant

def read (py : Py) (t : Table) (rid : RecordId) : Except PyError (Option Row) :=
  match t.records rid with
  | none => .ok none
  | some data => do return some (← RecordSerializer.deserialize py t.schema data)

end Table

namespace HeapFile

/-- The record under an id. -/
def recordAt (heap : HeapFile) (written : ℤ → Option Page) (rid : RecordId) : Option Bytes :=
  if rid.pageId ∈ heap.pageIds then
    (written rid.pageId).bind fun page => page.readRecord rid.slotIndex
  else none

/-- What the file stands for. -/
def table (heap : HeapFile) (written : ℤ → Option Page) : Table :=
  ⟨heap.schema, heap.recordAt written⟩

/-- The pages of an open file: they are chained in the order of its list. -/
structure Held (heap : HeapFile) (written : ℤ → Option Page) : Prop where
  columns : heap.schema.columnNames ≠ []
  nonempty : heap.pageIds ≠ []
  chain : Chain written (heap.pageIds.headD INVALID_PAGE_ID) heap.pageIds
  pages : ∀ pageId ∈ heap.pageIds, ∃ page, written pageId = some page ∧ page.Kept

/-- What a call on a file does to the pages: those that are not of the file stay as they are, and
the file takes over none of them. -/
structure Moves (heap heap' : HeapFile) (written written' : ℤ → Option Page) : Prop where
  held : heap'.Held written'
  schema : heap'.schema = heap.schema
  frame : ∀ q : ℕ, q ∉ heap.pageIds → (written q).isSome → written' q = written q
  fresh : ∀ q ∈ heap'.pageIds, q ∈ heap.pageIds ∨ written q = none

/-- No page of the file has a hole. -/
def Packed (heap : HeapFile) (written : ℤ → Option Page) : Prop :=
  ∀ pageId ∈ heap.pageIds, ∀ page ∈ written (pageId : ℕ), page.Packed

variable {heap heap' : HeapFile} {rid : RecordId} {record : Bytes}

theorem table_put {record? : Option Bytes} (hschema : heap'.schema = heap.schema)
    (hrecords : heap'.recordAt written' = Function.update (heap.recordAt written) rid record?) :
    heap'.table written' = (heap.table written).put rid record? := by
  rw [table, hschema, hrecords]
  rfl

theorem table_same (hschema : heap'.schema = heap.schema)
    (hrecords : heap'.recordAt written' = heap.recordAt written) :
    heap'.table written' = heap.table written := by
  rw [table, hschema, hrecords]
  rfl

theorem Held.exists (h : heap.Held written) : heap.Exists written := by
  intro pageId hmem
  obtain ⟨page, hpage, -⟩ := h.pages pageId hmem
  rw [hpage]
  rfl

theorem Moves.refl (h : heap.Held written) : Moves heap heap written written :=
  ⟨h, rfl, fun _ _ _ => rfl, fun _ hmem => .inl hmem⟩

/-- Pages that stay as they are make the same file. -/
theorem Held.congr (h : heap.Held written)
    (hagree : ∀ q ∈ heap.pageIds, written' (q : ℕ) = written q) : heap.Held written' where
  columns := h.columns
  nonempty := h.nonempty
  chain := h.chain.congr hagree
  pages pageId hmem := by
    rw [hagree pageId hmem]
    exact h.pages pageId hmem

theorem recordAt_congr (hagree : ∀ q ∈ heap.pageIds, written' (q : ℕ) = written q) :
    heap.recordAt written' = heap.recordAt written := by
  funext rid
  unfold recordAt
  split
  · next hmem => rw [hagree _ hmem]
  · rfl

theorem recordAt_of_page (hmem : rid.pageId ∈ heap.pageIds) (hw : written rid.pageId = some w) :
    heap.recordAt written rid = w.readRecord rid.slotIndex := by
  rw [recordAt, if_pos hmem, hw]
  rfl

theorem Chain.relink {first : ℕ} {ids : List ℕ} (h : Chain written first ids)
    (hagree : ∀ q ∈ ids, ∀ page, written (q : ℕ) = some page →
      ∃ page', written' q = some page' ∧ page'.header.nextPage = page.header.nextPage) :
    Chain written' first ids := by
  induction h with
  | nil => exact .nil
  | cons hne hpage _ ih =>
    rw [List.forall_mem_cons] at hagree
    obtain ⟨page', hpage', hnext⟩ := hagree.1 _ hpage
    refine .cons hne hpage' ?_
    rw [hnext]
    exact ih hagree.2

/-- Rewriting one page of a file, when its link stays. -/
theorem Held.rewrite (h : heap.Held written) (hmem : pageId ∈ heap.pageIds)
    (hw : written pageId = some w) (hpage : page.Kept)
    (hnext : page.header.nextPage = w.header.nextPage) :
    Moves heap heap written (Function.update written pageId (some page)) where
  held := {
    columns := h.columns
    nonempty := h.nonempty
    chain := h.chain.relink fun q _ p hp => by
      by_cases hq : q = pageId
      · subst hq
        rw [hw, Option.some.injEq] at hp
        exact ⟨page, Function.update_self .., hp ▸ hnext⟩
      · exact ⟨p, by rw [Function.update_of_ne (by exact_mod_cast hq), hp], rfl⟩
    pages := fun q hq => by
      by_cases heq : q = pageId
      · subst heq
        exact ⟨page, Function.update_self .., hpage⟩
      · rw [Function.update_of_ne (by exact_mod_cast heq)]
        exact h.pages q hq }
  schema := rfl
  frame q hq _ := by
    refine Function.update_of_ne ?_ _ _
    rintro heq
    exact hq ((by exact_mod_cast heq : q = pageId) ▸ hmem)
  fresh _ hq := .inl hq

/-- The records after one page was rewritten in one slot. -/
theorem recordAt_rewrite {record? : Option Bytes} (hmem : rid.pageId ∈ heap.pageIds)
    (hw : written rid.pageId = some w)
    (hpage : page.readRecord = Function.update w.readRecord rid.slotIndex record?) :
    heap.recordAt (Function.update written rid.pageId (some page)) =
      Function.update (heap.recordAt written) rid record? := by
  funext other
  by_cases hid : other.pageId = rid.pageId
  · have hother : other.pageId ∈ heap.pageIds := hid ▸ hmem
    have hold : written other.pageId = some w := by rw [hid, hw]
    have hnew : Function.update written rid.pageId (some page) other.pageId = some page := by
      rw [hid, Function.update_self]
    rw [recordAt_of_page hother hnew, hpage]
    by_cases hslot : other.slotIndex = rid.slotIndex
    · obtain rfl : other = rid := by
        cases other
        cases rid
        simp_all
      rw [Function.update_self, Function.update_self]
    · have hne : other ≠ rid := fun heq => hslot (congrArg RecordId.slotIndex heq)
      rw [Function.update_of_ne hslot, Function.update_of_ne hne, recordAt_of_page hother hold]
  · have hne : other ≠ rid := fun heq => hid (congrArg RecordId.pageId heq)
    rw [Function.update_of_ne hne]
    unfold recordAt
    rw [Function.update_of_ne (by exact_mod_cast hid)]

/-! ## Reading, deleting and updating -/

/-- `use` leaves the page as it is. -/
theorem onSlot_same {α : Type} (use : Page → ℕ → Page × α) (dirty : α → Bool) (reply : α)
    (h : b.Serves pins written) (hroom : pins.toFinset.card < n)
    (hw : written rid.pageId = some w)
    (huse : ∀ p : Page, p.contents = w.contents → use p rid.slotIndex = (p, reply))
    (hdirty : dirty reply = false) :
    ∃ b', onSlot rid.pageId rid.slotIndex use dirty b = (.ok reply, b') ∧
      b'.Serves pins written := by
  obtain ⟨b₁, page, hfetch, hserves, hcontents, -, -⟩ := fetchPage_eq h hroom hw
  refine ⟨(b₁.unpinPage rid.pageId false).1, ?_, serves_unpin hserves false⟩
  have hfetch' : fetchAt rid.pageId b = (.ok page, b₁) := hfetch
  unfold onSlot
  rw [Effect.bind_ok hfetch', slotNumber_natCast]
  simp only [huse page hcontents]
  rw [Effect.bind_ok Effect.change_apply, Effect.bind_ok Effect.change_apply, hdirty,
    modify_fetched hfetch, Effect.pure_apply]

/-- `use` changes the page. -/
theorem onSlot_dirty {α : Type} (use : Page → ℕ → Page × α) (dirty : α → Bool) (reply : α)
    (h : b.Serves pins written) (hroom : pins.toFinset.card < n)
    (hw : written rid.pageId = some w)
    (huse : ∀ p : Page, p.contents = w.contents → p.Preserved → p.header.pageId = rid.pageId →
      (use p rid.slotIndex).2 = reply ∧ (use p rid.slotIndex).1.Preserved ∧
        (use p rid.slotIndex).1.header.pageId = rid.pageId)
    (hdirty : dirty reply = true) :
    ∃ b' p, onSlot rid.pageId rid.slotIndex use dirty b = (.ok reply, b') ∧
      p.contents = w.contents ∧ p.Preserved ∧
      b'.Serves pins (Function.update written rid.pageId (some (use p rid.slotIndex).1)) := by
  obtain ⟨b₁, page, hfetch, hserves, hcontents, hpres, hid⟩ := fetchPage_eq h hroom hw
  obtain ⟨hreply, hpres', hid'⟩ := huse page hcontents hpres hid
  obtain ⟨b', hwrite, hserves'⟩ := serves_rewrite hserves hid' hpres'
  refine ⟨b', page, ?_, hcontents, hpres, hserves'⟩
  have hfetch' : fetchAt rid.pageId b = (.ok page, b₁) := hfetch
  unfold onSlot
  rw [Effect.bind_ok hfetch', slotNumber_natCast]
  rcases heq : use page rid.slotIndex with ⟨page', reply'⟩
  rw [heq] at hreply hwrite
  obtain rfl : reply' = reply := hreply
  simp only [heq, hdirty]
  exact hwrite α reply'

theorem readAt_eq (py : Py) (heap : HeapFile) (h : b.Serves pins written)
    (hroom : pins.toFinset.card < n) (hmem : rid.pageId ∈ heap.pageIds)
    (hw : written rid.pageId = some w) : ∃ b', heap.readAt py rid.pageId rid.slotIndex b =
      (((heap.table written).read py rid).mapError .python, b') ∧ b'.Serves pins written := by
  have huse : ∀ p : Page, p.contents = w.contents →
      (p, p.readRecord rid.slotIndex) = (p, w.readRecord rid.slotIndex) := by
    intro p hp
    rw [(Page.contents_eq_iff.mp hp).2.2]
  obtain ⟨b', hcall, hserves⟩ := onSlot_same (fun p i => (p, p.readRecord i)) (fun _ => false) _ h hroom hw huse rfl
  refine ⟨b', ?_, hserves⟩
  have hrecord : (heap.table written).records rid = w.readRecord rid.slotIndex :=
    recordAt_of_page hmem hw
  rw [readAt, Effect.bind_ok hcall, Table.read, hrecord]
  cases w.readRecord rid.slotIndex with
  | none => rfl
  | some data =>
    show (ofPython (RecordSerializer.deserialize py heap.schema data) >>= fun row =>
      ofPython (pure (some row))) b' = ofPython (do
        return some (← RecordSerializer.deserialize py heap.schema data)) b'
    rw [ofPython_bind]

theorem deleteAt_eq (h : b.Serves pins written) (hroom : pins.toFinset.card < n)
    (hheld : heap.Held written) (hmem : rid.pageId ∈ heap.pageIds) :
    ∃ b' written', deleteAt rid.pageId rid.slotIndex b =
        (.ok (heap.recordAt written rid).isSome, b') ∧ b'.Serves pins written' ∧
      Moves heap heap written written' ∧
      heap.recordAt written' = Function.update (heap.recordAt written) rid none := by
  obtain ⟨w, hw, hkept⟩ := hheld.pages _ hmem
  have hrecord := recordAt_of_page hmem hw
  by_cases hlive : ∃ s, w.Live rid.slotIndex s
  · obtain ⟨s, hs⟩ := hlive
    have hsame : ∀ p : Page, p.contents = w.contents → p.Live rid.slotIndex s := by
      intro p hp
      rw [Page.Live, (Page.contents_eq_iff.mp hp).2.1]
      exact hs
    obtain ⟨b', p, hcall, hcontents, hpres, hserves⟩ := onSlot_dirty Page.deleteRecord id true h hroom hw (by
        intro p hp hpres hid
        have hdelete := (hkept.of_contents hpres hp).delete (hsame p hp)
        rw [Page.deleteRecord_of_live (hsame p hp)]
        exact ⟨rfl, hdelete.1.intact.documented.preserved, hid⟩) rfl
    have hkept' := hkept.of_contents hpres hcontents
    obtain ⟨hpage, hreads⟩ := hkept'.delete (hsame p hcontents)
    rw [Page.deleteRecord_of_live (hsame p hcontents)] at hserves
    rw [(Page.contents_eq_iff.mp hcontents).2.2] at hreads
    refine ⟨b', _, ?_, hserves, hheld.rewrite hmem hw hpage ?_, recordAt_rewrite hmem hw hreads⟩
    · rw [hrecord, Page.readRecord_of_live hs]
      exact hcall
    · show p.header.nextPage = w.header.nextPage
      exact Page.field_of_contents PageHeader.nextPage (fun _ => rfl) hcontents
  · have hdead : ∀ s, ¬ w.Live rid.slotIndex s := not_exists.mp hlive
    obtain ⟨b', hcall, hserves⟩ := onSlot_same Page.deleteRecord id false h hroom hw (by
        intro p hp
        refine Page.deleteRecord_of_not_live fun s hs => hdead s ?_
        rwa [Page.Live, (Page.contents_eq_iff.mp hp).2.1] at hs) rfl
    have hnone : heap.recordAt written rid = none := by
      rw [hrecord]
      exact Page.readRecord_eq_none.mpr hdead
    refine ⟨b', written, ?_, hserves, .refl hheld, ?_⟩
    · rw [hnone]
      exact hcall
    · rw [← hnone, Function.update_eq_self]

theorem updateAt_eq {py : Py} {values : Row} (h : b.Serves pins written)
    (hroom : pins.toFinset.card < n) (hheld : heap.Held written) (hmem : rid.pageId ∈ heap.pageIds)
    (hserialize : RecordSerializer.serialize py heap.schema values = .ok record)
    (hfits : ∀ w ∈ written rid.pageId, w.Fits (.update rid.slotIndex record)) :
    ∃ b' written', heap.updateAt py rid.pageId rid.slotIndex values b =
        (.ok (heap.recordAt written rid).isSome, b') ∧ b'.Serves pins written' ∧
      Moves heap heap written written' ∧
      heap.recordAt written' = Function.update (heap.recordAt written) rid
        ((heap.recordAt written rid).map fun _ => record) := by
  have hrec := RecordSerializer.serialize_ne_nil hheld.columns hserialize
  obtain ⟨w, hw, hkept⟩ := hheld.pages _ hmem
  have hrecord := recordAt_of_page hmem hw
  have hcalls : ∀ b, heap.updateAt py rid.pageId rid.slotIndex values b =
      (onSlot rid.pageId rid.slotIndex (fun page i => page.updateRecord i record) id :
        PoolCalls n Bool) b := by
    intro b
    rw [updateAt, hserialize, Effect.bind_ok ofPython_ok]
  by_cases hlive : ∃ s, w.Live rid.slotIndex s
  · obtain ⟨s, hs⟩ := hlive
    have hsame : ∀ p : Page, p.contents = w.contents → p.Preserved →
        p.Kept ∧ p.Live rid.slotIndex s ∧ p.Fits (.update rid.slotIndex record) := by
      intro p hp hpres
      have hshape := Page.SameShape.of_contents hp
      exact ⟨hkept.of_contents hpres hp, ⟨hshape.slots ▸ hs.1, hs.2⟩, hshape.fits (hfits w hw)⟩
    obtain ⟨b', p, hcall, hcontents, hpres, hserves⟩ := onSlot_dirty
      (fun page i => page.updateRecord i record) id true h hroom hw (by
        intro p hp hpres hid
        obtain ⟨hp', hs', hfits'⟩ := hsame p hp hpres
        obtain ⟨hreply, hpage, -⟩ := hp'.update hrec hs' hfits'
        exact ⟨hreply, hpage.intact.documented.preserved,
          (p.pageId_updateRecord rid.slotIndex record).trans hid⟩) rfl
    obtain ⟨hp', hs', hfits'⟩ := hsame p hcontents hpres
    obtain ⟨-, hpage, hreads⟩ := hp'.update hrec hs' hfits'
    rw [(Page.contents_eq_iff.mp hcontents).2.2] at hreads
    have hsome : heap.recordAt written rid = some (w.recordAt s) := by
      rw [hrecord, Page.readRecord_of_live hs]
    refine ⟨b', _, ?_, hserves, hheld.rewrite hmem hw hpage ?_, ?_⟩
    · rw [hcalls, hsome]
      exact hcall
    · rw [Page.nextPage_updateRecord hs' hfits']
      exact Page.field_of_contents PageHeader.nextPage (fun _ => rfl) hcontents
    · rw [hsome]
      exact recordAt_rewrite hmem hw hreads
  · have hdead : ∀ s, ¬ w.Live rid.slotIndex s := not_exists.mp hlive
    obtain ⟨b', hcall, hserves⟩ := onSlot_same (fun page i => page.updateRecord i record) id
      false h hroom hw (by
        intro p hp
        refine Page.updateRecord_of_not_live fun s hs => hdead s ?_
        rwa [Page.Live, (Page.contents_eq_iff.mp hp).2.1] at hs) rfl
    have hnone : heap.recordAt written rid = none := by
      rw [hrecord]
      exact Page.readRecord_eq_none.mpr hdead
    refine ⟨b', written, ?_, hserves, .refl hheld, ?_⟩
    · rw [hcalls, hnone]
      exact hcall
    · rw [hnone, Option.map_none, ← hnone, Function.update_eq_self]

end HeapFile

end PySQL.Storage
