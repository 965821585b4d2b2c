import PySQL.Storage.HeapInsert
import PySQL.Storage.HeapUpdate
import PySQL.Storage.PoolPins

/-!
# Pins of heap files

Every call of a heap file lets go of the pages that it fetches, unless something raises while it
holds one: an insert that cannot fetch the page before its new one, or a slot index that the page
does not have.
-/

namespace PySQL.Storage

open Query Lib

set_option linter.unusedSectionVars false

variable {n : ℕ} [NeZero n] {α β : Type}

/-! ## Calls with any two integers for a record id -/

/-- The slot that a slot index means: a negative one counts from the end, and raises `IndexError`,
which is none, beyond the first slot. -/
def Page.slotNumber (p : Page) (slotIndex : ℤ) : Option ℕ :=
  if 0 ≤ slotIndex then some slotIndex.toNat
  else if 0 ≤ slotIndex + p.slots.length then some (slotIndex + p.slots.length).toNat
  else none

def Page.getNumRecords (p : Page) : ℕ := (p.slots.filter fun s => !s.isDeleted).length

namespace HeapFile

def fetchAt (pageId : ℤ) : PoolCalls n Page := fun b =>
  match b.fetchPage pageId with
  | (b, .ok (some page)) => (.ok page, b)
  | (b, .ok none) => (.error (.storage .noPage), b)
  | (b, .error e) => (.error (.storage e), b)

/-- What `read`, `update` and `delete` have in common: `use` is what they do with the page and the
slot, and `dirty` tells from its reply whether the page was changed. -/
def onSlot (pageId slotIndex : ℤ) (use : Page → ℕ → Page × α) (dirty : α → Bool) :
    PoolCalls n α := do
  let page ← fetchAt pageId
  match page.slotNumber slotIndex with
  | none => Effect.lift (.error (.python .indexError))
  | some i => do
    let (page, reply) := use page i
    Effect.change fun b => b.modify pageId page
    Effect.change fun b => (b.unpinPage pageId (dirty reply)).1
    return reply

def readAt (py : Py) (heap : HeapFile) (pageId slotIndex : ℤ) : PoolCalls n (Option Row) := do
  match ← onSlot pageId slotIndex (fun page i => (page, page.readRecord i)) (fun _ => false) with
  | none => return none
  | some data => return some (← ofPython (RecordSerializer.deserialize py heap.schema data))

def updateAt (py : Py) (heap : HeapFile) (pageId slotIndex : ℤ) (values : Row) :
    PoolCalls n Bool := do
  -- a negative index differs from the new slot's even if it means that slot: then the swap of
  -- the slot with itself changes nothing
  let recordData ← ofPython (RecordSerializer.serialize py heap.schema values)
  onSlot pageId slotIndex (fun page i => page.updateRecord i recordData) id

def deleteAt (pageId slotIndex : ℤ) : PoolCalls n Bool :=
  onSlot pageId slotIndex Page.deleteRecord id

def getRecordCount (heap : HeapFile) : PoolCalls n ℕ :=
  heap.pageIds.foldlM (fun count pageId => do
    let page ← fetchPage pageId
    unpinPage pageId false
    return count + page.getNumRecords) 0

def initAt (schema : TableSchema) : Option ℤ → PoolCalls n HeapFile
  | some (.negSucc k) => do
    -- no page has a negative number, so that this raises
    let _ ← fetchAt (.negSucc k)
    return { schema, pageIds := [] }
  | some (.ofNat first) => init schema (some first)
  | none => init schema none

@[simp] theorem slotNumber_natCast (p : Page) (i : ℕ) : p.slotNumber i = some i := by
  rw [Page.slotNumber, if_pos (Int.natCast_nonneg i), Int.toNat_natCast]

/-- At a record id of a record the calls are those of a heap file. -/
theorem delete_eq_deleteAt (rid : RecordId) :
    (delete rid : PoolCalls n Bool) = deleteAt rid.pageId rid.slotIndex := by
  unfold deleteAt onSlot
  simp only [slotNumber_natCast]
  rfl

theorem update_eq_updateAt (py : Py) (heap : HeapFile) (rid : RecordId) (values : Row) :
    (heap.update py rid values : PoolCalls n Bool) =
      heap.updateAt py rid.pageId rid.slotIndex values := by
  unfold updateAt onSlot
  simp only [slotNumber_natCast]
  rfl

end HeapFile

/-! ## Calls that let go -/

open BufferPool

/-- After the call the table still leads to pages, and nothing is pinned that was not before. -/
def Passes (b b' : BufferPool n) : Prop :=
  b.Mapped → b'.Mapped ∧ b.disk.numPages ≤ b'.disk.numPages ∧ (b.Unpinned → b'.Unpinned)

instance : Std.Refl (Passes (n := n)) where
  refl _ hb := ⟨hb, le_rfl, id⟩

instance : IsTrans (BufferPool n) Passes where
  trans _ _ _ h h' hb := by
    obtain ⟨hmapped, hle, hpins⟩ := h hb
    obtain ⟨hmapped', hle', hpins'⟩ := h' hmapped
    exact ⟨hmapped', hle.trans hle', hpins' ∘ hpins⟩

variable {b b' b₁ : BufferPool n} {pageId : ℤ} {f : Fin n} {page : Page} {ids : List ℕ}

namespace BufferPool

theorem Shrinks.passes (h : Shrinks b b') : Passes b b' :=
  fun hb => ⟨h.mapped hb, h.numPages, h.unpinned⟩

theorem Pins.modify (h : Pins b b' pageId f) (q : ℤ) (page : Page) :
    Pins b (b'.modify q page) pageId f := by
  obtain ⟨hheaders, htable, hdisk⟩ := b'.modify_same q page
  exact ⟨h.mapped.modify q page, hdisk ▸ h.numPages, htable ▸ h.entry, hheaders ▸ h.others,
    hheaders ▸ h.pinCount, htable ▸ h.keeps⟩

theorem Pins.unpinPage (h : Pins b b' pageId f) (d : Bool) :
    Passes b (b'.unpinPage pageId d).1 := by
  intro _
  obtain ⟨-, -, hdisk, -⟩ := b'.unpinPage_same pageId d
  refine ⟨h.mapped.unpinPage pageId d, hdisk ▸ h.numPages, fun hu g => ?_⟩
  rw [pinCount_unpinPage h.entry]
  split
  · rcases h.pinCount with ⟨-, hcount⟩ | ⟨-, hcount⟩
    · rw [hcount, hu f]
    · rw [hcount]
  · next hg => rw [h.others g hg, hu g]

theorem Pins.not_unpinned (h : Pins b b' pageId f) : ¬ b'.Unpinned := by
  intro hu
  have hzero := hu f
  rcases h.pinCount with ⟨-, hcount⟩ | ⟨-, hcount⟩ <;> omega

theorem Pins.lt_numPages (h : Pins b b' pageId f) : pageId < b'.disk.numPages := by
  rw [← h.mapped.pageId pageId f h.entry]
  exact h.mapped.known f

/-- What follows once the page is let go. -/
theorem Pins.letGo (h : Pins b b' pageId f) (d : Bool) {rest : PoolCalls n α}
    (hrest : Effect.Within Passes rest) :
    Passes b ((Effect.change (fun b => (b.unpinPage pageId d).1) >>= fun _ => rest) b').2 := by
  rw [Effect.bind_ok Effect.change_apply]
  exact IsTrans.trans _ _ _ (h.unpinPage d) (hrest _)

end BufferPool

namespace HeapFile

theorem fetchAt_cases (hb : b.Mapped) (pageId : ℤ) :
    (∃ e b', fetchAt pageId b = (.error e, b') ∧ Shrinks b b') ∨
    ∃ page b' f, fetchAt pageId b = (.ok page, b') ∧ Pins b b' pageId f := by
  rcases BufferPool.fetchPage_cases hb pageId with
    ⟨e, b', hfetch, hshrinks⟩ | ⟨page, b', f, hfetch, hpins⟩
  · exact .inl ⟨.storage e, b', by simp only [fetchAt, hfetch], hshrinks⟩
  · exact .inr ⟨page, b', f, by simp only [fetchAt, hfetch], hpins⟩

/-- A page is fetched, and let go by what follows. -/
theorem within_fetch {use : Page → PoolCalls n α}
    (h : ∀ page b b' f, Pins b b' pageId f → Passes b (use page b').2) :
    Effect.Within Passes (fetchAt pageId >>= use) := by
  intro b hb
  rcases fetchAt_cases hb pageId with ⟨e, b', hfetch, hshrinks⟩ | ⟨page, b', f, hfetch, hpins⟩
  · rw [Effect.bind_error hfetch]
    exact hshrinks.passes hb
  · rw [Effect.bind_ok hfetch]
    exact h page b b' f hpins hb

/-- A new page, let go by what follows. -/
theorem within_newPage {use : Page → PoolCalls n α}
    (h : ∀ page b b' f, Pins b b' page.header.pageId f → Passes b (use page b').2) :
    Effect.Within Passes (newPage >>= use) := by
  intro b hb
  rcases BufferPool.newPage_cases hb .heapData with
    ⟨e, b', hnew, hshrinks⟩ | ⟨page, b', f, hnew, hpins, -, -⟩
  · have hcall : newPage b = (.error (.storage e), b') := by simp only [newPage, hnew]
    rw [Effect.bind_error hcall]
    exact hshrinks.passes hb
  · have hcall : newPage b = (.ok page, b') := by simp only [newPage, hnew]
    rw [Effect.bind_ok hcall]
    exact h page b b' f hpins hb

theorem within_loadPageChain (turns current : ℕ) :
    Effect.Within Passes (loadPageChain turns current : PoolCalls n (List ℕ)) := by
  induction turns generalizing current with
  | zero => exact Effect.within_lift _
  | succ turns ih =>
    rw [loadPageChain]
    split
    · exact Effect.within_pure _
    · apply within_fetch
      intro page b b' f hpins
      exact hpins.letGo false ((ih _).bind fun _ => Effect.within_pure _)

/-- The pages of a chain that was followed to its end exist. -/
theorem loadPageChain_known {turns current : ℕ} (hb : b.Mapped)
    (h : loadPageChain turns current b = (.ok ids, b')) :
    ∀ pageId ∈ ids, pageId < b'.disk.numPages := by
  induction turns generalizing current ids b with
  | zero => cases h
  | succ turns ih =>
    rw [loadPageChain] at h
    split at h
    · cases h
      simp
    · rcases fetchAt_cases hb current with
        ⟨e, b₁, hfetch, -⟩ | ⟨page, b₁, f, hfetch, hpins⟩
      · have hfetch : fetchPage current b = (.error e, b₁) := hfetch
        rw [Effect.bind_error hfetch] at h
        cases h
      · have hfetch : fetchPage current b = (.ok page, b₁) := hfetch
        rw [Effect.bind_ok hfetch] at h
        -- the rest of the chain, from the state in which the page is let go
        obtain ⟨hmapped, -, -⟩ := hpins.unpinPage false hb
        have hlt : (current : ℤ) < b₁.disk.numPages := hpins.lt_numPages
        obtain ⟨-, -, hdisk, -⟩ := b₁.unpinPage_same current false
        rw [unpinPage, Effect.bind_ok Effect.change_apply] at h
        obtain ⟨rest, b₂, hrest, hend⟩ := Effect.bind_eq_ok h
        cases hend
        have hle := ((within_loadPageChain turns _).of_eq hrest hmapped).2.1
        rw [hdisk] at hle
        rw [List.forall_mem_cons]
        exact ⟨by omega, ih hmapped hrest⟩

theorem within_initAt (schema : TableSchema) (firstPageId : Option ℤ) :
    Effect.Within Passes (initAt schema firstPageId : PoolCalls n HeapFile) := by
  match firstPageId with
  | some (.negSucc k) =>
    apply within_fetch
    intro page b b' f hpins
    exact absurd (hpins.mapped.natural _ f hpins.entry) (by omega)
  | some (.ofNat first) =>
    exact (Effect.within_read _).bind fun _ =>
      (within_loadPageChain _ _).bind fun _ => Effect.within_pure _
  | none =>
    apply within_newPage
    intro page b b' f hpins
    exact hpins.letGo true (Effect.within_pure _)

/-- The pages of a file that was opened exist. -/
theorem initAt_known {schema : TableSchema} {firstPageId : Option ℤ} {heap : HeapFile}
    (hb : b.Mapped) (h : initAt schema firstPageId b = (.ok heap, b')) :
    ∀ pageId ∈ heap.pageIds, pageId < b'.disk.numPages := by
  match firstPageId with
  | some (.negSucc k) =>
    obtain ⟨page, b₁, -, hend⟩ := Effect.bind_eq_ok h
    cases hend
    simp
  | some (.ofNat first) =>
    obtain ⟨numPages, b₁, hread, h⟩ := Effect.bind_eq_ok h
    cases hread
    obtain ⟨ids, b₂, hload, hend⟩ := Effect.bind_eq_ok h
    cases hend
    exact loadPageChain_known hb hload
  | none =>
    obtain ⟨page, b₁, hnew, h⟩ := Effect.bind_eq_ok h
    cases h
    rcases BufferPool.newPage_cases hb .heapData with
      ⟨e, _, herror, -⟩ | ⟨_, _, f, hok, hpins, -, -⟩
    · simp only [newPage, herror] at hnew
      cases hnew
    · simp only [newPage, hok] at hnew
      cases hnew
      obtain ⟨-, -, hdisk, -⟩ := b₁.unpinPage_same page.header.pageId true
      have hlt := hpins.lt_numPages
      intro id hmem
      rw [List.mem_singleton.mp hmem]
      exact hdisk ▸ by exact_mod_cast hlt

theorem within_tryPages (recordData : Bytes) (ids : List ℕ) :
    Effect.Within Passes (tryPages recordData ids : PoolCalls n (Option RecordId)) := by
  induction ids with
  | nil => exact Effect.within_pure _
  | cons pageId rest ih =>
    rw [tryPages]
    apply within_fetch
    intro page b b' f hpins
    rcases page.insertRecord recordData with ⟨page', slot⟩
    have hpins := hpins.modify pageId page'
    cases slot with
    | none => exact hpins.letGo false ih
    | some slotIndex => exact hpins.letGo true (Effect.within_pure _)

theorem within_scan {β : Type} (py : Py) (heap : HeapFile)
    {body : β → RecordId → Row → PoolCalls n β} (start : β)
    (hbody : ∀ acc rid values, Effect.Within Passes (body acc rid values)) :
    Effect.Within Passes (heap.scan py body start) := by
  apply Effect.within_foldlM
  intro acc pageId
  apply within_fetch
  intro page b b' f hpins
  refine hpins.letGo false (Effect.within_foldlM fun acc record => ?_)
  exact (Effect.within_lift _).bind fun values => hbody acc _ values

theorem within_getRecordCount (heap : HeapFile) :
    Effect.Within Passes (heap.getRecordCount : PoolCalls n ℕ) := by
  apply Effect.within_foldlM
  intro count pageId
  apply within_fetch
  intro page b b' f hpins
  exact hpins.letGo false (Effect.within_pure _)

end HeapFile

/-! ## A slot that the page does not have -/

namespace HeapFile

/-- The page can be fetched, and the slot index is a negative one beyond its first slot. -/
def SlotMissing (pageId slotIndex : ℤ) (b : BufferPool n) : Prop :=
  ∃ page b', fetchAt pageId b = (.ok page, b') ∧ page.slotNumber slotIndex = none

variable {slotIndex : ℤ} {use : Page → ℕ → Page × α} {dirty : α → Bool}

theorem onSlot_of_missing (hb : b.Mapped) (h : SlotMissing pageId slotIndex b) :
    ¬ (onSlot pageId slotIndex use dirty b).2.Unpinned := by
  obtain ⟨page, b', hfetch, hnone⟩ := h
  rcases fetchAt_cases hb pageId with ⟨e, _, herror, -⟩ | ⟨_, _, f, hok, hpins⟩
  · rw [hfetch] at herror
    cases herror
  · rw [hfetch] at hok
    cases hok
    rw [onSlot, Effect.bind_ok hfetch]
    simp only [hnone]
    exact hpins.not_unpinned

theorem onSlot_passes (h : ¬ SlotMissing pageId slotIndex b) :
    Passes b (onSlot pageId slotIndex use dirty b).2 := by
  intro hb
  rcases fetchAt_cases hb pageId with ⟨e, b', hfetch, hshrinks⟩ | ⟨page, b', f, hfetch, hpins⟩
  · rw [onSlot, Effect.bind_error hfetch]
    exact hshrinks.passes hb
  · rw [onSlot, Effect.bind_ok hfetch]
    cases hslot : page.slotNumber slotIndex with
    | none => exact absurd ⟨page, b', hfetch, hslot⟩ h
    | some i => exact (hpins.modify pageId (use page i).1).letGo _ (Effect.within_pure _) hb

theorem readAt_snd (py : Py) (heap : HeapFile) (b : BufferPool n) :
    (heap.readAt py pageId slotIndex b).2 =
      (onSlot pageId slotIndex (fun page i => (page, page.readRecord i)) (fun _ => false) b).2 := by
  rw [readAt]
  rcases hslot : onSlot pageId slotIndex (fun page i => (page, page.readRecord i))
    (fun _ => false) b with ⟨e | data?, b'⟩
  · rw [Effect.bind_error hslot]
  · rw [Effect.bind_ok hslot]
    cases data? with
    | none => rfl
    | some data =>
      show ((ofPython (RecordSerializer.deserialize py heap.schema data) >>= fun row =>
        pure (some row) : PoolCalls n (Option Row)) b').2 = b'
      cases RecordSerializer.deserialize py heap.schema data <;> rfl

end HeapFile

/-! ## A new page that is not let go -/

/-- From a pool where nothing was pinned: one page is pinned, once. -/
structure BufferPool.PinsOnly (b b' : BufferPool n) (pageId : ℤ) (f : Fin n) : Prop where
  mapped : b'.Mapped
  numPages : b.disk.numPages ≤ b'.disk.numPages
  entry : b'.pageTable.get? pageId = some f
  pinCount : (b'.headers f).pinCount = 1
  others : ∀ g, g ≠ f → (b'.headers g).pinCount = 0

namespace BufferPool

variable {b₂ : BufferPool n} {g : Fin n} {q : ℤ}

theorem Pins.only (h : Pins b b' pageId f) (hu : b.Unpinned) : PinsOnly b b' pageId f := by
  refine ⟨h.mapped, h.numPages, h.entry, ?_, fun g hg => by rw [h.others g hg, hu g]⟩
  rcases h.pinCount with ⟨-, hcount⟩ | ⟨-, hcount⟩
  · rw [hcount, hu f]
  · exact hcount

namespace PinsOnly

theorem not_unpinned (h : PinsOnly b b₁ pageId f) (hs : Shrinks b₁ b₂) : ¬ b₂.Unpinned := by
  intro hu
  have hone := h.pinCount
  rw [← hs.pinCount, hu f] at hone
  cases hone

/-- Another page gets another frame. -/
theorem frame_ne (h : PinsOnly b b₁ pageId f) (hpins : Pins b₁ b₂ q g) (hne : q ≠ pageId) :
    g ≠ f := by
  rintro rfl
  have hid := h.mapped.pageId pageId g h.entry
  have h0 := h.mapped.natural pageId g h.entry
  have hone := h.pinCount
  rcases hpins.pinCount with ⟨hentry, -⟩ | ⟨hneg | hzero, -⟩
  · rw [h.mapped.pageId q g hentry] at hid
    exact hne hid
  · omega
  · omega

/-- Another page is fetched and let go. -/
theorem visit (h : PinsOnly b b₁ pageId f) (hothers : ∀ g, g ≠ f → (b₁.headers g).pageId ≠ pageId)
    (hpins : Pins b₁ b₂ q g) (hne : q ≠ pageId) (d : Bool) :
    PinsOnly b (b₂.unpinPage q d).1 pageId f := by
  have hgf := h.frame_ne hpins hne
  obtain ⟨-, htable, hdisk, -⟩ := b₂.unpinPage_same q d
  refine ⟨hpins.mapped.unpinPage q d, ?_, ?_, ?_, fun k hk => ?_⟩
  · rw [hdisk]
    exact h.numPages.trans hpins.numPages
  · rw [htable]
    exact hpins.keeps pageId f h.entry hgf.symm hothers
  · rw [pinCount_unpinPage hpins.entry, if_neg hgf.symm, hpins.others f hgf.symm, h.pinCount]
  · rw [pinCount_unpinPage hpins.entry]
    split
    · rcases hpins.pinCount with ⟨-, hcount⟩ | ⟨-, hcount⟩
      · rw [hcount, h.others g hgf]
      · rw [hcount]
    · next hkg => rw [hpins.others k hkg, h.others k hk]

theorem modify (h : PinsOnly b b₁ pageId f) (q : ℤ) (page : Page) :
    PinsOnly b (b₁.modify q page) pageId f := by
  obtain ⟨hheaders, htable, hdisk⟩ := b₁.modify_same q page
  exact ⟨h.mapped.modify q page, hdisk ▸ h.numPages, htable ▸ h.entry, hheaders ▸ h.pinCount,
    hheaders ▸ h.others⟩

theorem unpinned_unpinPage (h : PinsOnly b b₁ pageId f) (d : Bool) :
    (b₁.unpinPage pageId d).1.Unpinned := by
  intro g
  rw [pinCount_unpinPage h.entry]
  split
  · rw [h.pinCount]
  · next hg => exact h.others g hg

end PinsOnly

end BufferPool

namespace HeapFile

/-- The last page of the file, which a new page is linked to, cannot be fetched. -/
def LastRaises (prevPageId : Option ℕ) (b : BufferPool n) : Prop :=
  ∃ prev e b', prevPageId = some prev ∧ fetchPage prev b = (.error e, b')

/-- No page of the file takes the record, and with a new page pinned for it the last one cannot be
fetched. -/
def LinkRaises (py : Py) (heap : HeapFile) (values : Row) (b : BufferPool n) : Prop :=
  ∃ recordData b₁ page b₂, RecordSerializer.serialize py heap.schema values = .ok recordData ∧
    tryPages recordData heap.pageIds b = (.ok none, b₁) ∧ newPage b₁ = (.ok page, b₂) ∧
    LastRaises heap.pageIds.getLast? b₂

/-- The file and the pool after a call that has let go: the pages of the file exist. -/
structure Rested (heap : HeapFile) (b : BufferPool n) (x : HeapFile × BufferPool n) : Prop where
  mapped : x.2.Mapped
  unpinned : x.2.Unpinned
  numPages : b.disk.numPages ≤ x.2.disk.numPages
  known : ∀ pageId ∈ x.1.pageIds, pageId ∈ heap.pageIds ∨ pageId < x.2.disk.numPages

variable {b₂ : BufferPool n} {heap : HeapFile} {prevPageId : Option ℕ}

theorem Rested.of_passes (h : Passes b b') (hb : b.Mapped) (hu : b.Unpinned) :
    Rested heap b (heap, b') := by
  obtain ⟨hmapped, hle, hpins⟩ := h hb
  exact ⟨hmapped, hpins hu, hle, fun _ => .inl⟩

theorem inPool_eq {m : PoolCalls n α} {x : Except DbError α} (h : m b = (x, b')) :
    inPool m (heap, b) = (x, (heap, b')) := by
  show ((m b).1, (heap, (m b).2)) = _
  rw [h]

/-- The last page is in another frame than the new one, and is let go. -/
theorem linkPage_ok (h : PinsOnly b b₁ page.header.pageId f)
    (hothers : ∀ g, g ≠ f → (b₁.headers g).pageId ≠ page.header.pageId)
    (hlast : ∀ prev ∈ prevPageId, prev < page.header.pageId)
    (hraises : ¬ LastRaises prevPageId b₁) :
    ∃ page' b₂, linkPage prevPageId page b₁ = (.ok page', b₂) ∧
      PinsOnly b b₂ page.header.pageId f := by
  cases prevPageId with
  | none => exact ⟨page, b₁, rfl, h⟩
  | some prev =>
    have hlt := hlast prev rfl
    rcases fetchAt_cases h.mapped prev with ⟨e, b₂, hfetch, -⟩ | ⟨prevPage, b₂, g, hfetch, hpins⟩
    · exact absurd ⟨prev, e, b₂, rfl, hfetch⟩ hraises
    · have hfetch : fetchPage prev b₁ = (.ok prevPage, b₂) := hfetch
      rw [linkPage, Effect.bind_ok hfetch]
      exact ⟨_, _, rfl,
        h.visit hothers ((hpins.modify _ _).modify _ _) (by omega) true⟩

theorem linkPage_error (page : Page) (h : LastRaises prevPageId b₁) :
    ∃ e b₂, linkPage prevPageId page b₁ = (.error e, b₂) ∧
      ∃ prev, fetchPage prev b₁ = (.error e, b₂) := by
  obtain ⟨prev, e, b₂, rfl, hfetch⟩ := h
  exact ⟨e, b₂, by rw [linkPage, Effect.bind_error hfetch], prev, hfetch⟩

theorem insertNew_cases (recordData : Bytes) (hb : b.Mapped) (hu : b.Unpinned)
    (hlast : ∀ prev ∈ prevPageId, prev < b.disk.numPages) :
    (∃ page b₁, newPage b = (.ok page, b₁) ∧ LastRaises prevPageId b₁ ∧
      ¬ (insertNew recordData prevPageId (heap, b)).2.2.Unpinned) ∨
    (∀ page b₁, newPage b = (.ok page, b₁) → ¬ LastRaises prevPageId b₁) ∧
      Rested heap b (insertNew recordData prevPageId (heap, b)).2 := by
  rcases BufferPool.newPage_cases hb .heapData with
    ⟨e, b₁, hnew, hshrinks⟩ | ⟨page, b₁, f, hnew, hpins, hid, hothers⟩
  · have hnew : newPage b = (.error (.storage e), b₁) := by simp only [newPage, hnew]
    refine .inr ⟨fun page b' hok => ?_, ?_⟩
    · rw [hnew] at hok
      cases hok
    · rw [insertNew, Effect.bind_error (inPool_eq hnew)]
      exact .of_passes hshrinks.passes hb hu
  · have hnew : newPage b = (.ok page, b₁) := by simp only [newPage, hnew]
    have honly := hpins.only hu
    rw [insertNew, Effect.bind_ok (inPool_eq hnew)]
    simp only [keepPage]
    rw [Effect.bind_ok Effect.change_apply]
    by_cases hraises : LastRaises prevPageId b₁
    · -- the new page stays pinned when the last one cannot be fetched
      obtain ⟨e, b₂, hlink, prev, hfetch⟩ := linkPage_error page hraises
      refine .inl ⟨page, b₁, hnew, hraises, ?_⟩
      rw [Effect.bind_error (inPool_eq hlink)]
      rcases fetchAt_cases honly.mapped prev with ⟨_, _, herror, hshrinks⟩ | ⟨_, _, _, hok, -⟩
      · have heq := hfetch.symm.trans herror
        cases heq
        exact honly.not_unpinned hshrinks
      · cases hfetch.symm.trans hok
    · obtain ⟨page', b₂, hlink, hlinked⟩ :=
        linkPage_ok honly hothers (fun prev hmem => hid ▸ hlast prev hmem) hraises
      refine .inr ⟨fun page'' b' hok => ?_, ?_⟩
      · rw [hnew] at hok
        cases hok
        exact hraises
      · rw [Effect.bind_ok (inPool_eq hlink)]
        have hdone := hlinked.modify page.header.pageId (page'.insertRecord recordData).1
        have hlt := hdone.mapped.known f
        rw [hdone.mapped.pageId _ f hdone.entry] at hlt
        obtain ⟨-, -, hdisk, -⟩ := (b₂.modify page.header.pageId
          (page'.insertRecord recordData).1).unpinPage_same page.header.pageId true
        have hrested : Rested heap b ({ heap with pageIds := heap.pageIds ++ [page.header.pageId] },
            ((b₂.modify page.header.pageId (page'.insertRecord recordData).1).unpinPage
              page.header.pageId true).1) := by
          refine ⟨hdone.mapped.unpinPage _ true, hdone.unpinned_unpinPage true,
            hdisk ▸ hdone.numPages, fun id hmem => ?_⟩
          rcases List.mem_append.mp hmem with hold | hnew
          · exact .inl hold
          · rw [List.mem_singleton.mp hnew]
            exact .inr (hdisk ▸ by exact_mod_cast hlt)
        -- what the slot is makes no difference to the pool
        show Rested heap b ((inPool _ >>= fun _ => inPool _ >>= fun _ => _) _).2
        rcases hslot : (page'.insertRecord recordData).2 with _ | slotIndex
        · exact hrested
        · exact hrested

theorem insert_cases (py : Py) (values : Row) (hb : b.Mapped) (hu : b.Unpinned)
    (hknown : ∀ pageId ∈ heap.pageIds, pageId < b.disk.numPages) :
    heap.LinkRaises py values b ∧ ¬ (insert py values (heap, b)).2.2.Unpinned ∨
    ¬ heap.LinkRaises py values b ∧ Rested heap b (insert py values (heap, b)).2 := by
  rw [insert, Effect.bind_ok Effect.read_apply]
  cases hserialize : RecordSerializer.serialize py heap.schema values with
  | error e =>
    refine .inr ⟨?_, .of_passes (Std.Refl.refl b) hb hu⟩
    rintro ⟨data, _, _, _, hok, -⟩
    rw [hserialize] at hok
    cases hok
  | ok recordData =>
    rw [Effect.bind_ok ofPython_ok]
    have hpasses := within_tryPages (n := n) recordData heap.pageIds
    rcases htry : tryPages recordData heap.pageIds b with ⟨e | rid?, b₁⟩
    · refine .inr ⟨?_, ?_⟩
      · rintro ⟨data, _, _, _, hok, hnone, -⟩
        rw [hserialize] at hok
        cases hok
        rw [htry] at hnone
        cases hnone
      · rw [Effect.bind_error (inPool_eq htry)]
        exact .of_passes (hpasses.of_eq htry) hb hu
    · rw [Effect.bind_ok (inPool_eq htry)]
      cases rid? with
      | some rid =>
        refine .inr ⟨?_, .of_passes (hpasses.of_eq htry) hb hu⟩
        rintro ⟨data, _, _, _, hok, hnone, -⟩
        rw [hserialize] at hok
        cases hok
        rw [htry] at hnone
        cases hnone
      | none =>
        obtain ⟨hmapped, hle, hrest⟩ := hpasses.of_eq htry hb
        have hlast : ∀ prev ∈ heap.pageIds.getLast?, prev < b₁.disk.numPages := fun prev hmem =>
          (hknown prev (List.mem_of_getLast? hmem)).trans_le hle
        rcases insertNew_cases recordData hmapped (hrest hu) hlast with
          ⟨page, b₂, hnew, hraises, hpinned⟩ | ⟨hno, hrested⟩
        · exact .inl ⟨⟨recordData, b₁, page, b₂, hserialize, htry, hnew, hraises⟩, hpinned⟩
        · refine .inr ⟨?_, hrested.mapped, hrested.unpinned, hle.trans hrested.numPages,
            hrested.known⟩
          rintro ⟨data, b', page, b₂, hok, hnone, hnew, hraises⟩
          rw [hserialize] at hok
          cases hok
          rw [htry] at hnone
          cases hnone
          exact hno page b₂ hnew hraises

end HeapFile

end PySQL.Storage
