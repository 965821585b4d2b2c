import PySQL.Storage.HeapPins
import PySQL.Storage.PoolTransparent

/-!
# Heap files that share a pool

A run of calls on any number of files, each of which ends without pins unless it leaks.
-/

namespace PySQL.Storage

open Query Lib BufferPool

set_option linter.unusedSectionVars false

variable {n : ℕ} [NeZero n] {α : Type} {b b' b₁ : BufferPool n} {pageId : ℤ} {f : Fin n}
  {page : Page} {ids : List ℕ}

/-- The heap files that were opened so far, and the pool that they share. -/
structure HeapStore (n : ℕ) where
  pool : BufferPool n
  files : List HeapFile

/-- A call on the `file`-th file that was opened, or one that opens a file.  A record id may be any
two integers. -/
inductive HeapOp where
  | construct (schema : TableSchema) (firstPageId : Option ℤ)
  | insert (file : ℕ) (values : Row)
  | read (file : ℕ) (pageId slotIndex : ℤ)
  | update (file : ℕ) (pageId slotIndex : ℤ) (values : Row)
  | delete (file : ℕ) (pageId slotIndex : ℤ)
  | scan (file : ℕ)
  | getRecordCount (file : ℕ)

open HeapFile in
/-- The call leaves a page pinned. -/
def HeapOp.Leaks (py : Py) (s : HeapStore n) : HeapOp → Prop
  | .insert file values => ∃ heap, s.files[file]? = some heap ∧ heap.LinkRaises py values s.pool
  | .update file pageId slotIndex values => ∃ heap, s.files[file]? = some heap ∧
      (∃ recordData, RecordSerializer.serialize py heap.schema values = .ok recordData) ∧
      SlotMissing pageId slotIndex s.pool
  | .read file pageId slotIndex | .delete file pageId slotIndex =>
      ∃ heap, s.files[file]? = some heap ∧ SlotMissing pageId slotIndex s.pool
  | .construct _ _ | .scan _ | .getRecordCount _ => False

namespace HeapStore

def new (disk : DiskManager) : HeapStore n := ⟨.new disk, []⟩

/-- A call of a file that is open: what it has changed stays changed when it raises. -/
def call (s : HeapStore n) (file : ℕ) (m : HeapFile → HeapCalls n α) : HeapStore n :=
  match s.files[file]? with
  | none => s
  | some heap =>
    let x := (m heap (heap, s.pool)).2
    ⟨x.2, s.files.set file x.1⟩

def construct (s : HeapStore n) (schema : TableSchema) (firstPageId : Option ℤ) : HeapStore n :=
  match HeapFile.initAt schema firstPageId s.pool with
  | (.ok heap, pool) => ⟨pool, s.files ++ [heap]⟩
  | (.error _, pool) => { s with pool }

/-- The store after a call, whether it has returned or raised. -/
def step (py : Py) (s : HeapStore n) : HeapOp → HeapStore n
  | .construct schema firstPageId => s.construct schema firstPageId
  | .insert file values => s.call file fun _ => HeapFile.insert py values
  | .read file pageId slotIndex =>
    s.call file fun heap => HeapFile.inPool (heap.readAt py pageId slotIndex)
  | .update file pageId slotIndex values =>
    s.call file fun heap => HeapFile.inPool (heap.updateAt py pageId slotIndex values)
  | .delete file pageId slotIndex =>
    s.call file fun _ => HeapFile.inPool (HeapFile.deleteAt pageId slotIndex)
  | .scan file => s.call file fun heap =>
    HeapFile.inPool (heap.scan py (fun rows rid values => pure (rows ++ [(rid, values)])) [])
  | .getRecordCount file => s.call file fun heap => HeapFile.inPool heap.getRecordCount

def run (py : Py) (s : HeapStore n) (ops : List HeapOp) : HeapStore n := ops.foldl (step py) s

/-- Every call of the run that is made while nothing is pinned leaves nothing pinned. -/
def LetsGo (py : Py) (s : HeapStore n) (ops : List HeapOp) : Prop :=
  ∀ done op rest, ops = done ++ op :: rest → (s.run py done).pool.Unpinned →
    (s.run py (done ++ [op])).pool.Unpinned

/-- No call of the run leaks in the state that it is made in. -/
def Spared (py : Py) (s : HeapStore n) (ops : List HeapOp) : Prop :=
  ∀ done op rest, ops = done ++ op :: rest → ¬ op.Leaks py (s.run py done)

/-- Nothing is pinned, and the pages of the files exist. -/
structure Rests (s : HeapStore n) : Prop where
  mapped : s.pool.Mapped
  unpinned : s.pool.Unpinned
  known : ∀ heap ∈ s.files, ∀ pageId ∈ heap.pageIds, pageId < s.pool.disk.numPages

variable {s : HeapStore n} {py : Py} {file : ℕ}

theorem rests_new (disk : DiskManager) : (new disk : HeapStore n).Rests :=
  ⟨mapped_new disk, unpinned_new disk, nofun⟩

theorem Rests.passes (hs : s.Rests) (h : Passes s.pool b') : Rests { s with pool := b' } := by
  obtain ⟨hmapped, hle, hpins⟩ := h hs.mapped
  exact ⟨hmapped, hpins hs.unpinned,
    fun heap hmem id hid => (hs.known heap hmem id hid).trans_le hle⟩

theorem Rests.call (hs : s.Rests) {m : HeapFile → HeapCalls n α}
    (h : ∀ heap, s.files[file]? = some heap →
      HeapFile.Rested heap s.pool (m heap (heap, s.pool)).2) :
    (s.call file m).Rests := by
  unfold HeapStore.call
  cases hfile : s.files[file]? with
  | none => exact hs
  | some heap =>
    have hrested := h heap hfile
    refine ⟨hrested.mapped, hrested.unpinned, fun other hother id hid => ?_⟩
    rcases List.mem_or_eq_of_mem_set hother with hold | rfl
    · exact (hs.known other hold id hid).trans_le hrested.numPages
    · rcases hrested.known id hid with hid | hlt
      · exact (hs.known heap (List.mem_of_getElem? hfile) id hid).trans_le hrested.numPages
      · exact hlt

/-- A call of a file leaks or leaves the store at rest. -/
theorem Rests.call_cases (hs : s.Rests) {m : HeapFile → HeapCalls n α} {leaks : HeapFile → Prop}
    (h : ∀ heap, s.files[file]? = some heap →
      leaks heap ∧ ¬ (m heap (heap, s.pool)).2.2.Unpinned ∨
      ¬ leaks heap ∧ HeapFile.Rested heap s.pool (m heap (heap, s.pool)).2) :
    (∃ heap, s.files[file]? = some heap ∧ leaks heap) ∧ ¬ (s.call file m).pool.Unpinned ∨
    ¬ (∃ heap, s.files[file]? = some heap ∧ leaks heap) ∧ (s.call file m).Rests := by
  by_cases hleaks : ∃ heap, s.files[file]? = some heap ∧ leaks heap
  · refine .inl ⟨hleaks, ?_⟩
    obtain ⟨heap, hfile, hleaks⟩ := hleaks
    rcases h heap hfile with ⟨-, hpinned⟩ | ⟨hno, -⟩
    · unfold HeapStore.call
      rw [hfile]
      exact hpinned
    · exact absurd hleaks hno
  · refine .inr ⟨hleaks, hs.call fun heap hfile => ?_⟩
    rcases h heap hfile with ⟨hyes, -⟩ | ⟨-, hrested⟩
    · exact absurd ⟨heap, hfile, hyes⟩ hleaks
    · exact hrested

end HeapStore

namespace HeapStore

open HeapFile

variable {s : HeapStore n} {py : Py}

theorem Rests.construct (hs : s.Rests) (schema : TableSchema) (firstPageId : Option ℤ) :
    (s.construct schema firstPageId).Rests := by
  have hpasses := within_initAt (n := n) schema firstPageId
  unfold HeapStore.construct
  rcases hinit : initAt schema firstPageId s.pool with ⟨e | heap, pool⟩
  · exact hs.passes (hpasses.of_eq hinit)
  · have hrests := hs.passes (hpasses.of_eq hinit)
    refine ⟨hrests.mapped, hrests.unpinned, fun other hother => ?_⟩
    rcases List.mem_append.mp hother with hold | hnew
    · exact hrests.known other hold
    · rw [List.mem_singleton.mp hnew]
      exact initAt_known hs.mapped hinit

/-- A call of a slot leaks where the slot is missing. -/
theorem Rests.onSlot (hs : s.Rests) {heap : HeapFile} {pageId slotIndex : ℤ}
    {use : Page → ℕ → Page × α} {dirty : α → Bool} :
    SlotMissing pageId slotIndex s.pool ∧
        ¬ (onSlot pageId slotIndex use dirty s.pool).2.Unpinned ∨
      ¬ SlotMissing pageId slotIndex s.pool ∧
        Rested heap s.pool (heap, (onSlot pageId slotIndex use dirty s.pool).2) := by
  by_cases h : SlotMissing pageId slotIndex s.pool
  · exact .inl ⟨h, onSlot_of_missing hs.mapped h⟩
  · exact .inr ⟨h, .of_passes (onSlot_passes h) hs.mapped hs.unpinned⟩

/-- Every call leaks or leaves the store at rest. -/
theorem Rests.step_cases (hs : s.Rests) (py : Py) (op : HeapOp) :
    op.Leaks py s ∧ ¬ (s.step py op).pool.Unpinned ∨ ¬ op.Leaks py s ∧ (s.step py op).Rests := by
  cases op with
  | construct schema firstPageId => exact .inr ⟨id, hs.construct schema firstPageId⟩
  | insert file values =>
    refine hs.call_cases fun heap hfile => ?_
    exact insert_cases py values hs.mapped hs.unpinned
      (hs.known heap (List.mem_of_getElem? hfile))
  | read file pageId slotIndex =>
    refine hs.call_cases fun heap _ => ?_
    show _ ∧ ¬ (heap.readAt py pageId slotIndex s.pool).2.Unpinned ∨
      _ ∧ Rested heap s.pool (heap, (heap.readAt py pageId slotIndex s.pool).2)
    rw [readAt_snd]
    exact hs.onSlot
  | update file pageId slotIndex values =>
    refine hs.call_cases fun heap _ => ?_
    show _ ∧ ¬ (heap.updateAt py pageId slotIndex values s.pool).2.Unpinned ∨
      _ ∧ Rested heap s.pool (heap, (heap.updateAt py pageId slotIndex values s.pool).2)
    rw [updateAt]
    cases hserialize : RecordSerializer.serialize py heap.schema values with
    | error e =>
      refine .inr ⟨?_, .of_passes (Std.Refl.refl _) hs.mapped hs.unpinned⟩
      rintro ⟨⟨_, hok⟩, -⟩
      cases hok
    | ok recordData =>
      rw [Effect.bind_ok ofPython_ok]
      exact hs.onSlot.imp (And.imp_left fun h => ⟨⟨recordData, rfl⟩, h⟩)
        (And.imp_left fun h h' => h h'.2)
  | delete file pageId slotIndex => exact hs.call_cases fun heap _ => hs.onSlot
  | scan file =>
    refine .inr ⟨id, hs.call fun heap _ => .of_passes ?_ hs.mapped hs.unpinned⟩
    exact within_scan py heap [] (fun _ _ _ => Effect.within_pure _) s.pool
  | getRecordCount file =>
    refine .inr ⟨id, hs.call fun heap _ => .of_passes ?_ hs.mapped hs.unpinned⟩
    exact within_getRecordCount heap s.pool

/-! ## Runs -/

theorem run_append_singleton (ops : List HeapOp) (op : HeapOp) :
    s.run py (ops ++ [op]) = (s.run py ops).step py op := by
  rw [run, List.foldl_append]
  rfl

/-- A run in which no call leaves anything pinned goes through stores at rest. -/
theorem Rests.run (hs : s.Rests) {ops : List HeapOp}
    (hops : ∀ done op rest, ops = done ++ op :: rest → (s.run py done).Rests →
      ((s.run py done).step py op).pool.Unpinned) : (s.run py ops).Rests := by
  induction ops using List.reverseRecOn with
  | nil => exact hs
  | append_singleton ops op ih =>
    have hrests := ih fun done op' rest heq => hops done op' (rest ++ [op]) (by simp [heq])
    rw [run_append_singleton]
    rcases hrests.step_cases py op with ⟨-, hpinned⟩ | ⟨-, hnext⟩
    · exact absurd (hops ops op [] rfl hrests) hpinned
    · exact hnext

/-- Whatever pages the pool is opened on, however many frames it has and however many files share
it. -/
theorem letsGo_iff (py : Py) (disk : DiskManager) (ops : List HeapOp) :
    (new disk : HeapStore n).LetsGo py ops ↔ (new disk : HeapStore n).Spared py ops := by
  constructor
  · intro h done op rest heq
    have hrests : ((new disk : HeapStore n).run py done).Rests :=
      (rests_new disk).run fun done' op' rest' heq' hrests => by
        rw [← run_append_singleton]
        exact h done' op' (rest' ++ op :: rest) (by simp [heq, heq']) hrests.unpinned
    rcases hrests.step_cases py op with ⟨-, hpinned⟩ | ⟨hno, -⟩
    · rw [← run_append_singleton] at hpinned
      exact absurd (h done op rest heq hrests.unpinned) hpinned
    · exact hno
  · intro h done op rest heq _
    have hrests : ((new disk : HeapStore n).run py (done ++ [op])).Rests :=
      (rests_new disk).run fun done' op' rest' heq' hrests => by
        rcases hrests.step_cases py op' with ⟨hleaks, -⟩ | ⟨-, hnext⟩
        · exact absurd hleaks (h done' op' (rest' ++ rest) (by
            rw [heq, ← List.singleton_append, ← List.append_assoc, heq']
            simp))
        · exact hnext.unpinned
    exact hrests.unpinned

/-- A table whose records fit no page. -/
def wideSchema : TableSchema where
  tableName := "t"
  columnNames := ["a"]
  columnTypes := [.char 5000]
  primaryKey := none

theorem letsGo_iff_counted : (new (.ofFile []) : HeapStore 1).LetsGo Py.ascii
    [.construct wideSchema none, .getRecordCount 0, .scan 0] := by
  refine (letsGo_iff Py.ascii (.ofFile []) _).mpr fun done op rest heq => ?_
  have hmem : op ∈ [HeapOp.construct wideSchema none, .getRecordCount 0, .scan 0] := by
    rw [heq]
    exact List.mem_append_right _ List.mem_cons_self
  simp only [List.mem_cons, List.not_mem_nil, or_false] at hmem
  rcases hmem with rfl | rfl | rfl <;> exact id

end HeapStore

/-! ## A pool that serves its pages -/

theorem BufferPool.Sync.mapped (h : b.Sync) : b.Mapped where
  frame q g hg := by
    obtain ⟨h0, hid⟩ := (h.table q g).mp hg
    have hnumber := h.number g (hid ▸ h0)
    unfold numberAt at hnumber
    cases hframe : b.frames g with
    | none =>
      rw [hframe] at hnumber
      cases hnumber
    | some page => rfl
  pageId q g hg := ((h.table q g).mp hg).2
  natural q g hg := ((h.table q g).mp hg).1
  known := h.known

theorem BufferPool.modify_of_frame (hentry : b.pageTable.get? pageId = some f)
    (hframe : b.frames f = some page) : b.modify pageId page = b := by
  have hframes : (b.setFrame f (some page)).frames = b.frames := by
    funext g
    rw [frames_setFrame]
    split
    · next heq => rw [heq, hframe]
    · rfl
  rw [BufferPool.modify, hentry]
  show { b with frames := (b.setFrame f (some page)).frames } = b
  rw [hframes]

theorem Page.insertRecord_eq_none {p : Page} {record : Bytes} :
    (p.insertRecord record).2 = none ↔ ¬ record.length + SLOT_SIZE ≤ p.header.freeSpace := by
  by_cases hfits : record.length + SLOT_SIZE ≤ p.header.freeSpace
  · cases hslot : p.slots.findIdx? SlotEntry.isDeleted with
    | none => simp [insertRecord_extend hfits hslot, hfits]
    | some i => simp [insertRecord_reuse hfits hslot, hfits]
  · simp [insertRecord_refused hfits, hfits]

namespace HeapFile

variable {heap : HeapFile} {pins : List ℤ} {written : ℤ → Option Page} {recordData : Bytes}

/-- The page exists and has no room for the record. -/
def Refuses (written : ℤ → Option Page) (recordData : Bytes) (pageId : ℕ) : Prop :=
  ∃ w, written pageId = some w ∧ ¬ recordData.length + SLOT_SIZE ≤ w.header.freeSpace

theorem tryPages_of_refuses {rest : List ℕ} {pageId : ℕ} (h : b.Serves pins written)
    (hroom : pins.toFinset.card < n) (hrefuses : Refuses written recordData pageId) :
    ∃ b', tryPages recordData (pageId :: rest) b = tryPages recordData rest b' ∧
      b'.Serves pins written := by
  obtain ⟨w, hw, hfits⟩ := hrefuses
  obtain ⟨b₁, page, hfetch, hserves, hcontents, -, -⟩ := fetchPage_eq h hroom hw
  have hspace : page.header.freeSpace = w.header.freeSpace :=
    congrArg (fun c => c.1.freeSpace) hcontents
  have hinsert : page.insertRecord recordData = (page, none) :=
    Page.insertRecord_refused (by rwa [hspace])
  -- the page stays as it is
  have hsame : b₁.modify pageId page = b₁ := by
    have hpool : b.fetchPage pageId = (b₁, .ok (some page)) := by
      unfold fetchPage at hfetch
      split at hfetch <;> cases hfetch
      assumption
    obtain ⟨f, hentry, hframe⟩ := frame_of_fetchPage hpool
    exact modify_of_frame hentry hframe
  refine ⟨(b₁.unpinPage pageId false).1, ?_, serves_unpin hserves false⟩
  rw [tryPages, Effect.bind_ok hfetch, hinsert]
  show tryPages recordData rest ((b₁.modify pageId page).unpinPage pageId false).1 = _
  rw [hsame]

theorem tryPages_of_fits {rest : List ℕ} {pageId : ℕ} {w : Page} (h : b.Serves pins written)
    (hroom : pins.toFinset.card < n) (hw : written pageId = some w)
    (hfits : recordData.length + SLOT_SIZE ≤ w.header.freeSpace) :
    (tryPages recordData (pageId :: rest) b).1 ≠ .ok none := by
  obtain ⟨b₁, page, hfetch, -, hcontents, -, -⟩ := fetchPage_eq h hroom hw
  have hspace : page.header.freeSpace = w.header.freeSpace :=
    congrArg (fun c => c.1.freeSpace) hcontents
  have hslot : (page.insertRecord recordData).2 ≠ none := by
    rw [Ne, Page.insertRecord_eq_none, hspace]
    exact not_not_intro hfits
  rw [tryPages, Effect.bind_ok hfetch]
  rcases hinsert : page.insertRecord recordData with ⟨page', _ | slot⟩
  · rw [hinsert] at hslot
    exact absurd rfl hslot
  · intro h
    cases h

theorem tryPages_none (h : b.Serves pins written) (hroom : pins.toFinset.card < n)
    (hrefuse : ∀ pageId ∈ ids, Refuses written recordData pageId) :
    ∃ b', tryPages recordData ids b = (.ok none, b') ∧ b'.Serves pins written := by
  induction ids generalizing b with
  | nil => exact ⟨b, rfl, h⟩
  | cons pageId rest ih =>
    obtain ⟨hfirst, hrest⟩ := List.forall_mem_cons.mp hrefuse
    obtain ⟨b₁, hturn, hserves⟩ := tryPages_of_refuses h hroom hfirst
    rw [hturn]
    exact ih hserves hrest

theorem refuses_of_tryPages (h : b.Serves pins written) (hroom : pins.toFinset.card < n)
    (hexists : ∀ pageId ∈ ids, (written pageId).isSome)
    (hnone : (tryPages recordData ids b).1 = .ok none) :
    ∀ pageId ∈ ids, Refuses written recordData pageId := by
  induction ids generalizing b with
  | nil => nofun
  | cons pageId rest ih =>
    obtain ⟨hpage, hrest⟩ := List.forall_mem_cons.mp hexists
    obtain ⟨w, hw⟩ := Option.isSome_iff_exists.mp hpage
    by_cases hfits : recordData.length + SLOT_SIZE ≤ w.header.freeSpace
    · exact absurd hnone (tryPages_of_fits h hroom hw hfits)
    · obtain ⟨b₁, hturn, hserves⟩ := tryPages_of_refuses h hroom ⟨w, hw, hfits⟩
      rw [hturn] at hnone
      exact List.forall_mem_cons.mpr ⟨⟨w, hw, hfits⟩, ih hserves hrest hnone⟩

theorem numPages_lt_of_newPage (h : newPage b = (.ok page, b')) : b.disk.numPages < 2 ^ 32 := by
  by_contra hge
  simp only [newPage, BufferPool.newPage, DiskManager.allocatePage_of_ge _ _ (not_lt.mp hge)] at h
  cases h

theorem pagesOn_eq {pins' : List ℤ} (h : b.Serves pins written) (h' : b'.Serves pins' written) :
    pagesOn b.disk = pagesOn b'.disk := by
  have hiff : ∀ k : ℕ, k < pagesOn b.disk ↔ k < pagesOn b'.disk := fun k => by
    have hk := (Coherent.exists_iff h k).symm.trans (Coherent.exists_iff h' k)
    simpa using hk
  exact Nat.le_antisymm (Nat.le_of_not_lt fun hlt => lt_irrefl _ ((hiff _).mp hlt))
    (Nat.le_of_not_lt fun hlt => lt_irrefl _ ((hiff _).mpr hlt))

/-- With a page pinned in the only frame no other page can be fetched. -/
theorem fetchPage_raises {q : ℕ} (h : PinsOnly b b₁ pageId f) (hn : n = 1)
    (hne : (q : ℤ) ≠ pageId) :
    ∃ e b₂, fetchPage q b₁ = (.error e, b₂) := by
  rcases fetchAt_cases h.mapped q with ⟨e, b₂, hfetch, -⟩ | ⟨_, b₂, g, -, hpins⟩
  · exact ⟨e, b₂, hfetch⟩
  · exact absurd (Fin.ext (by omega)) (h.frame_ne hpins hne)

/-- In a pool that serves its pages an insert leaks if and only if there is one frame only, and the
record needs a new page after the ones that the file has. -/
theorem linkRaises_iff (py : Py) (values : Row) (h : b.Serves [] written) (hu : b.Unpinned)
    (hexists : heap.Exists written) : heap.LinkRaises py values b ↔
      n = 1 ∧ heap.pageIds ≠ [] ∧ b.disk.numPages < 2 ^ 32 ∧
        ∃ recordData, RecordSerializer.serialize py heap.schema values = .ok recordData ∧
          ∀ pageId ∈ heap.pageIds, Refuses written recordData pageId := by
  have hroom : ([] : List ℤ).toFinset.card < n := Nat.pos_of_ne_zero (NeZero.ne n)
  constructor
  · rintro ⟨recordData, b₁, page, b₂, hserialize, htry, hnew, prev, e, b₃, hlast, hfetch⟩
    have hrefuse := refuses_of_tryPages h hroom hexists (congrArg Prod.fst htry)
    obtain ⟨b', htry', hserves⟩ := tryPages_none h hroom hrefuse
    rw [htry] at htry'
    cases htry'
    have hnum := numPages_lt_of_newPage hnew
    have hsame := pagesOn_eq h hserves
    unfold pagesOn at hsame
    have hmem := List.mem_of_getLast? hlast
    refine ⟨?_, List.ne_nil_of_mem hmem, by omega, recordData, hserialize, hrefuse⟩
    by_contra hone
    -- with a second frame the last page is fetched
    obtain ⟨b', page', hnew', hid, hco⟩ :=
      Coherent.newPage_of_room hserves (by rwa [pinned_serves]) .heapData hnum ()
    simp only [newPage, hnew'] at hnew
    cases hnew
    obtain ⟨w, hw⟩ := Option.isSome_iff_exists.mp (hexists prev hmem)
    have hlt := ((Coherent.exists_iff hserves prev).mp (hexists prev hmem)).2
    unfold pagesOn at hlt
    have hserves₂ : b₂.Serves [(b₁.disk.numPages : ℤ)]
        (Function.update written b₁.disk.numPages (some (Page.new b₁.disk.numPages .heapData))) :=
      hco
    have hw₂ : Function.update written (b₁.disk.numPages : ℤ)
        (some (Page.new b₁.disk.numPages .heapData)) prev = some w := by
      rw [Function.update_of_ne (by omega), hw]
    obtain ⟨_, _, hok, -⟩ := fetchPage_eq hserves₂ (by
      rw [List.toFinset_cons, List.toFinset_nil, insert_empty_eq, Finset.card_singleton]
      omega) hw₂
    rw [hok] at hfetch
    cases hfetch
  · rintro ⟨hn, hne, hnum, recordData, hserialize, hrefuse⟩
    obtain ⟨b₁, htry, hserves⟩ := tryPages_none h hroom hrefuse
    obtain ⟨-, -, hrest⟩ := (within_tryPages recordData heap.pageIds).of_eq htry h.sync.mapped
    have hsame := pagesOn_eq h hserves
    unfold pagesOn at hsame
    obtain ⟨b₂, page, hnew, hid, -⟩ :=
      Coherent.newPage_of_room hserves (by rwa [pinned_serves]) .heapData (by omega) ()
    have hlast := List.getLast?_eq_some_getLast hne
    set prev := heap.pageIds.getLast hne
    have hlt := ((Coherent.exists_iff hserves prev).mp
      (hexists prev (List.mem_of_getLast? hlast))).2
    unfold pagesOn at hlt
    rcases BufferPool.newPage_cases hserves.sync.mapped .heapData with
      ⟨_, _, herror, -⟩ | ⟨_, _, f, hok, hpins, -, -⟩
    · cases hnew.symm.trans herror
    · cases hnew.symm.trans hok
      obtain ⟨e, b₃, hfetch⟩ := fetchPage_raises (q := prev) (hpins.only (hrest hu)) hn (by omega)
      exact ⟨recordData, b₁, page, b₂, hserialize, htry, by simp only [newPage, hnew],
        prev, e, b₃, hlast, hfetch⟩

end HeapFile

/-! ## A record that fits no page -/

theorem serialize_wide : ∃ recordData : Bytes, recordData.length = 5001 ∧
    RecordSerializer.serialize Py.ascii HeapStore.wideSchema [.str ""] = .ok recordData := by
  refine ⟨[0] ++ ([] ++ List.replicate 5000 0x20 ++ []), ?_, rfl⟩
  simp only [List.nil_append, List.append_nil, List.length_append, List.length_replicate,
    List.length_singleton]

namespace HeapStore

open HeapFile

/-- In a pool of one frame a record of more than a page leaves its new page pinned. -/
theorem leaks_wide : (HeapOp.insert 0 [.str ""]).Leaks Py.ascii
    ((new (.ofFile []) : HeapStore 1).run Py.ascii [.construct wideSchema none]) := by
  have hempty : (BufferPool.new (.ofFile []) : BufferPool 1).Serves [] (writtenAtFirst []) :=
    coherent_init ⟨rfl, by simp⟩
  obtain ⟨b', hinit, hserves, -⟩ := init_none wideSchema hempty (by decide) (by decide)
  have hrun : (new (.ofFile []) : HeapStore 1).construct wideSchema none =
      ⟨b', [⟨wideSchema, [0]⟩]⟩ := by
    have hinit' : initAt wideSchema none (new (.ofFile []) : HeapStore 1).pool =
      (.ok ⟨wideSchema, [0]⟩, b') := hinit
    rw [HeapStore.construct, hinit']
    rfl
  have hrests := (rests_new (n := 1) (.ofFile [])).construct wideSchema none
  rw [hrun] at hrests
  show HeapOp.Leaks Py.ascii ((new (.ofFile []) : HeapStore 1).construct wideSchema none) _
  rw [hrun]
  refine ⟨⟨wideSchema, [0]⟩, rfl, (linkRaises_iff Py.ascii [.str ""] hserves hrests.unpinned ?_).mpr
    ⟨rfl, by simp, ?_, ?_⟩⟩
  · intro pageId hmem
    rw [List.mem_singleton.mp hmem]
    rfl
  · -- there is no second page
    have hsecond := (Coherent.exists_iff hserves 1).not.mp (by
      show ¬ (Function.update (writtenAtFirst []) 0 (some (Page.new 0 .heapData)) 1).isSome
      rw [Function.update_of_ne (by decide)]
      decide)
    unfold pagesOn at hsecond
    show b'.disk.numPages < _
    omega
  · obtain ⟨recordData, hlen, hserialize⟩ := serialize_wide
    refine ⟨recordData, hserialize, fun pageId hmem => ?_⟩
    rw [List.mem_singleton.mp hmem]
    refine ⟨Page.new 0 .heapData, rfl, ?_⟩
    have hspace : (Page.new 0 .heapData).header.freeSpace = 4064 := rfl
    rw [hlen, hspace, SLOT_SIZE]
    omega

theorem not_letsGo_wide : ¬ (new (.ofFile []) : HeapStore 1).LetsGo Py.ascii
    [.construct wideSchema none, .insert 0 [.str ""]] := by
  intro h
  have hrests :
      ((new (.ofFile []) : HeapStore 1).run Py.ascii [.construct wideSchema none]).Rests :=
    (rests_new (.ofFile [])).construct wideSchema none
  have hnext := h [.construct wideSchema none] (.insert 0 [.str ""]) [] rfl hrests.unpinned
  rcases hrests.step_cases Py.ascii (.insert 0 [.str ""]) with ⟨-, hpinned⟩ | ⟨hno, -⟩
  · rw [run_append_singleton] at hnext
    exact hpinned hnext
  · exact hno leaks_wide

end HeapStore

end PySQL.Storage
