import PySQL.Storage.Disk

/-!
# Pages under their numbers

`allocate_page` numbers a page by the page count and writes it at the end of the file, `read_page`
and `write_page` find a page by its number.  The two agree as long as the file ends where the page
count says, which a file whose last page was torn does not.
-/

namespace PySQL.Storage

open Lib

/-! ## Calls on a disk -/

/-- A call that changes the disk; `read_page` changes nothing. -/
inductive DiskOp where
  | allocate (pageType : PageType)
  | write (page : Page)

namespace DiskOp

/-- The disk after the call. -/
def apply (d : DiskManager) : DiskOp → DiskManager
  | allocate pageType => (d.allocatePage pageType).1
  | write page => (d.writePage page).1.1

/-- The page that the call has allocated or written, none if it raised. -/
def page? (d : DiskManager) : DiskOp → Option Page
  | allocate pageType => (d.allocatePage pageType).2.toOption
  | write page => (d.writePage page).2.toOption.map fun _ => (d.writePage page).1.2

/-- Every page other than the one that the call is about reads as before. -/
def KeepsOthers (d : DiskManager) (op : DiskOp) : Prop :=
  ∀ other < d.numPages, (∀ page ∈ op.page? d, page.header.pageId ≠ other) →
    (op.apply d).readPage other = d.readPage other

end DiskOp

/-- Calls on numbers below the page count, with pages that survive their serialization. -/
def ValidOps : ℕ → List DiskOp → Prop
  | _, [] => True
  | count, .allocate _ :: ops => ValidOps (count + 1) ops
  | count, .write page :: ops => (page.header.pageId < count ∧ page.Preserved) ∧ ValidOps count ops

/-- A disk and the page that was allocated or written last under each number. -/
structure DiskRun where
  disk : DiskManager
  last : ℕ → Option Page

namespace DiskRun

/-- A database file is opened; nothing has been written yet. -/
def start (file : Bytes) : DiskRun := { disk := .ofFile file, last := fun _ => none }

def step (s : DiskRun) (op : DiskOp) : DiskRun where
  disk := op.apply s.disk
  last := (op.page? s.disk).elim s.last fun page =>
    Function.update s.last page.header.pageId (some page)

/-- `read_page` returns the page that was allocated or written last. -/
def ReadsBack (s : DiskRun) : Prop :=
  ∀ pageId page, s.last pageId = some page →
    ∃ q, s.disk.readPage pageId = .ok q ∧ q.contents = page.contents

/-- In every state that the calls reach, pages read back, and no call touches another page. -/
def Addressable (s : DiskRun) : List DiskOp → Prop
  | [] => s.ReadsBack
  | op :: ops => s.ReadsBack ∧ op.KeepsOthers s.disk ∧ (s.step op).Addressable ops

end DiskRun

variable {d : DiskManager} {s : DiskRun} {page : Page} {pageType : PageType} {op : DiskOp}
  {ops : List DiskOp} {pageId : ℕ}

/-! ## What one call does -/

namespace DiskManager

/-- Every page below the count that has a number of 32 bits lies in the file. -/
def Inside (d : DiskManager) : Prop :=
  ∀ pageId < d.numPages, pageId < 2 ^ 32 → (pageId + 1) * PAGE_SIZE ≤ d.file.length

/-- The file ends where the next page belongs, if there is a number for a next page. -/
def Aligned (d : DiskManager) : Prop :=
  d.numPages < 2 ^ 32 → d.file.length = d.numPages * PAGE_SIZE

theorem inside_ofFile (file : Bytes) : (ofFile file).Inside := by
  intro pageId hpage _
  have hcount : pageId < file.length / PAGE_SIZE := hpage
  have hmul := Nat.div_mul_le_self file.length PAGE_SIZE
  exact (Nat.mul_le_mul_right _ hcount).trans hmul

theorem aligned_ofFile {file : Bytes} : (ofFile file).Aligned ↔
    PAGE_SIZE ∣ file.length ∨ 2 ^ 32 ≤ file.length / PAGE_SIZE := by
  have hiff : file.length = file.length / PAGE_SIZE * PAGE_SIZE ↔ PAGE_SIZE ∣ file.length := by
    rw [eq_comm, mul_comm, Nat.dvd_iff_div_mul_eq, mul_comm]
  show (file.length / PAGE_SIZE < 2 ^ 32 → file.length = file.length / PAGE_SIZE * PAGE_SIZE) ↔ _
  rw [hiff]
  constructor
  · intro h
    by_cases hlt : file.length / PAGE_SIZE < 2 ^ 32
    · exact .inl (h hlt)
    · exact .inr (not_lt.mp hlt)
  · rintro (h | h) hlt
    · exact h
    · omega

/-- What `read_page` returns depends on the block of the page only. -/
theorem readPage_congr {d' : DiskManager} (hpage : pageId < d.numPages)
    (hpage' : pageId < d'.numPages) (h : block d'.file pageId = block d.file pageId) :
    d'.readPage pageId = d.readPage pageId := by
  rw [readPage, readPage, if_neg (by omega), if_neg (by omega), if_neg (by omega), if_neg (by omega),
    Int.toNat_natCast, h]

end DiskManager

theorem DiskManager.fromBytes_of_readPage {q : Page}
    (hroom : (pageId + 1) * PAGE_SIZE ≤ d.file.length) (h : d.readPage pageId = .ok q) :
    Page.fromBytes (block d.file pageId) = some q := by
  have hpage := lt_numPages_of_readPage h
  rw [readPage, if_neg (by omega), if_neg (by omega)] at h
  simp only [Int.toNat_natCast, length_block hroom, Nat.sub_self, List.replicate_zero,
    List.append_nil] at h
  split at h
  · cases h
  · next hread => rw [hread, Except.ok.inj h]

theorem Page.Preserved.pageId_lt (h : page.Preserved) : page.header.pageId < 2 ^ 32 := by
  obtain ⟨data, page', hbytes, -, hread, -, -⟩ := h.toBytes
  have hid := page.toBytes_pageId
  rw [hbytes] at hid
  rw [← hid]
  exact pageId_lt_of_fromBytes hread

/-- A call that raises nothing puts one page on the disk and leaves the others. -/
structure Stores (d : DiskManager) (op : DiskOp) (page : Page) : Prop where
  stored : op.page? d = some page
  reads : (op.apply d).readPage page.header.pageId = .ok page
  others : op.KeepsOthers d

theorem stores_write (hinside : d.Inside) (hpage : page.header.pageId < d.numPages)
    (hpreserved : page.Preserved) : ∃ page', Stores d (.write page) page' ∧
      (d.writePage page).1.1.file.length = d.file.length := by
  have hroom := hinside _ hpage hpreserved.pageId_lt
  obtain ⟨data, page', hwrite, hlen, hread, -, -, hid⟩ := hpreserved.writePage d
  have hblock := block_writeAt hlen hroom
  have happly : DiskOp.apply d (.write page) =
      { d with file := writeAt d.file (page.header.pageId * PAGE_SIZE) data } := by
    rw [DiskOp.apply, hwrite]
  have hsize : (writeAt d.file (page.header.pageId * PAGE_SIZE) data).length = d.file.length :=
    length_writeAt hlen hroom
  have hpage? : DiskOp.page? d (.write page) = some page' := by
    rw [DiskOp.page?, hwrite]
    rfl
  refine ⟨page', ⟨hpage?, ?_, fun other hother hne => ?_⟩, ?_⟩
  · rw [happly, hid]
    refine readPage_eq (d := { d with file := writeAt d.file _ data }) hpage ?_ ?_
    · show _ ≤ (writeAt d.file _ data).length
      rw [hsize]
      exact hroom
    · show Page.fromBytes (block (writeAt d.file _ data) _) = some page'
      rw [hblock, if_pos rfl]
      exact hread
  · have hother' : other ≠ page.header.pageId := by
      rw [← hid]
      exact (hne page' hpage?).symm
    rw [happly]
    refine DiskManager.readPage_congr hother hother ?_
    show block (writeAt d.file _ data) other = _
    rw [hblock, if_neg hother']
  · rw [hwrite]
    exact hsize

theorem stores_allocate (haligned : d.Aligned) (hcount : d.numPages < 2 ^ 32) :
    ∃ page, Stores d (.allocate pageType) page ∧
      (d.allocatePage pageType).1.file.length = (d.numPages + 1) * PAGE_SIZE := by
  have hsize := haligned hcount
  obtain ⟨data, page, halloc, hlen, hread, -, -, hid⟩ := d.allocatePage_spec pageType hcount
  have happly : DiskOp.apply d (.allocate pageType) =
      { file := d.file ++ data, numPages := d.numPages + 1 } := by
    rw [DiskOp.apply, halloc]
  have hlength : (d.file ++ data).length = (d.numPages + 1) * PAGE_SIZE := by
    rw [List.length_append, hlen, hsize, Nat.add_mul, one_mul]
  refine ⟨page, ⟨?_, ?_, fun other hother _ => ?_⟩, ?_⟩
  · rw [DiskOp.page?, halloc]
    rfl
  · rw [happly, hid]
    refine readPage_eq (d := { file := d.file ++ data, numPages := d.numPages + 1 }) (Nat.lt_succ_self _) hlength.ge ?_
    show Page.fromBytes (block (d.file ++ data) d.numPages) = some page
    rw [block_append hsize hlen le_rfl, if_pos rfl]
    exact hread
  · rw [happly]
    refine DiskManager.readPage_congr hother (Nat.lt_succ_of_lt hother) ?_
    show block (d.file ++ data) other = _
    rw [block_append hsize hlen hother.le, if_neg hother.ne]
  · rw [halloc]
    exact hlength

/-- A page that the count can no longer number. -/
theorem apply_allocate_of_ge (hcount : 2 ^ 32 ≤ d.numPages) :
    DiskOp.apply d (.allocate pageType) = { d with numPages := d.numPages + 1 } ∧
      DiskOp.page? d (.allocate pageType) = none := by
  rw [DiskOp.apply, DiskOp.page?, d.allocatePage_of_ge pageType hcount]
  exact ⟨rfl, rfl⟩

/-! ## Runs -/

/-- Nothing that was written reads wrong after a call that has stored a page, or none. -/
theorem DiskRun.ReadsBack.step (h : s.ReadsBack) (hothers : op.KeepsOthers s.disk)
    (hreads : ∀ page ∈ op.page? s.disk,
      (op.apply s.disk).readPage page.header.pageId = .ok page) : (s.step op).ReadsBack := by
  have hlater : ∀ other page, s.last other = some page →
      (∀ page ∈ op.page? s.disk, page.header.pageId ≠ other) →
      ∃ q, (op.apply s.disk).readPage other = .ok q ∧ q.contents = page.contents := by
    intro other page hlast hne
    obtain ⟨q, hq, hcontents⟩ := h other page hlast
    have hlt : other < s.disk.numPages :=
      Int.ofNat_lt.mp (DiskManager.lt_numPages_of_readPage hq)
    exact ⟨q, by rw [hothers other hlt hne, hq], hcontents⟩
  intro pageId page hlast
  cases hpage : op.page? s.disk with
  | none =>
    rw [DiskRun.step, hpage] at hlast
    exact hlater pageId page hlast fun page hmem => by rw [hpage] at hmem; cases hmem
  | some stored =>
    rw [DiskRun.step, hpage] at hlast
    by_cases heq : pageId = stored.header.pageId
    · have hlast' : Function.update s.last stored.header.pageId (some stored) pageId = some page :=
        hlast
      rw [heq, Function.update_self] at hlast'
      obtain rfl := Option.some.inj hlast'
      exact ⟨stored, by rw [heq]; exact hreads stored hpage, rfl⟩
    · have hlast' : Function.update s.last stored.header.pageId (some stored) pageId = some page :=
        hlast
      rw [Function.update_of_ne heq] at hlast'
      refine hlater pageId page hlast' fun page hmem => ?_
      rw [hpage] at hmem
      obtain rfl := Option.some.inj hmem
      exact Ne.symm heq

theorem Stores.readsBack {stored : Page} (h : Stores s.disk op stored) (hs : s.ReadsBack) :
    (s.step op).ReadsBack := by
  refine hs.step h.others fun page hpage => ?_
  rw [h.stored] at hpage
  obtain rfl := Option.some.inj hpage
  exact h.reads

/-- Pages keep their numbers as long as every allocation finds the file aligned. -/
theorem addressable_of_aligned (hinside : s.disk.Inside) (hs : s.ReadsBack)
    (hops : ValidOps s.disk.numPages ops)
    (haligned : s.disk.Aligned ∨ ∀ pageType, .allocate pageType ∉ ops) : s.Addressable ops := by
  induction ops generalizing s with
  | nil => exact hs
  | cons op ops ih =>
    cases op with
    | allocate pageType =>
      have haligned := haligned.resolve_right fun h => h pageType List.mem_cons_self
      have hcount := s.disk.numPages_allocatePage pageType
      have hops' : ValidOps (s.disk.numPages + 1) ops := hops
      rcases Nat.lt_or_ge s.disk.numPages (2 ^ 32) with hlt | hge
      · obtain ⟨page, hstores, hlen⟩ : ∃ page, Stores s.disk (.allocate pageType) page ∧ _ :=
          stores_allocate haligned hlt
        refine ⟨hs, hstores.others, ih ?_ (hstores.readsBack hs) ?_ (.inl ?_)⟩
        · intro pageId hpage _
          have hpage' : pageId < s.disk.numPages + 1 := hcount ▸ hpage
          exact (Nat.mul_le_mul_right _ hpage').trans hlen.ge
        · exact hcount.symm ▸ hops'
        · intro _
          exact hlen.trans (by rw [← hcount]; rfl)
      · obtain ⟨happly, hnone⟩ : DiskOp.apply s.disk (.allocate pageType) = _ ∧ _ :=
          apply_allocate_of_ge hge
        have hothers : DiskOp.KeepsOthers s.disk (.allocate pageType) := by
          intro other hother _
          rw [happly]
          exact DiskManager.readPage_congr hother (Nat.lt_succ_of_lt hother) rfl
        refine ⟨hs, hothers, ih ?_ (hs.step hothers ?_) ?_ (.inl ?_)⟩
        · intro pageId _ hpage
          show _ ≤ (DiskOp.apply s.disk (.allocate pageType)).file.length
          rw [happly]
          exact hinside pageId (by omega) hpage
        · intro page hpage
          rw [hnone] at hpage
          cases hpage
        · exact hcount.symm ▸ hops'
        · intro hlt
          have : s.disk.numPages + 1 < 2 ^ 32 := hcount ▸ hlt
          omega
    | write page =>
      obtain ⟨⟨hpage, hpreserved⟩, hops⟩ := hops
      have hcount := s.disk.numPages_writePage page
      obtain ⟨page', hstores, hlen⟩ := stores_write hinside hpage hpreserved
      refine ⟨hs, hstores.others, ih ?_ (hstores.readsBack hs) ?_ ?_⟩
      · intro pageId hid hid'
        exact (hinside pageId (hcount ▸ hid) hid').trans hlen.ge
      · exact hcount.symm ▸ hops
      · refine haligned.imp (fun h hlt => ?_) fun h pageType hmem =>
          h pageType (List.mem_cons_of_mem _ hmem)
        have hlt' : s.disk.numPages < 2 ^ 32 := hcount ▸ hlt
        exact hlen.trans ((h hlt').trans (by rw [← hcount]; rfl))

/-! ## A torn file -/

theorem DiskRun.readsBack_of_addressable (h : s.Addressable ops) : s.ReadsBack := by
  cases ops with
  | nil => exact h
  | cons op ops => exact h.1

/-- The first byte of a page is the first byte of its number. -/
theorem firstByte_of_fromBytes {data : Bytes} (hlen : data.length = PAGE_SIZE)
    (h : Page.fromBytes data = some page) :
    field data 0 1 = [UInt8.ofNat (page.header.pageId / 2 ^ 24 % 256)] := by
  obtain ⟨-, hheader, -⟩ := (Page.fromBytes_eq_some hlen).mp h
  obtain ⟨-, hpack⟩ := PageHeader.pack_of_unpack hheader
  have hfirst : field (field data 0 HEADER_SIZE) 0 1 = field data 0 1 := field_field (by decide)
  have hbyte : ((page.header.pageId : ℤ) / 256 / 256 / 256 % 256).toNat =
      page.header.pageId / 2 ^ 24 % 256 := by
    omega
  rw [← hfirst, ← hpack, ← hbyte]
  simp [PageHeader.pack, packBE, field]

/-- A file that goes on after its last whole page with a byte that no page with the next number
begins with. -/
structure DiskManager.Torn (d : DiskManager) (b : UInt8) : Prop where
  count : d.numPages < 2 ^ 32
  start : field d.file (d.numPages * PAGE_SIZE) 1 = [b]
  stop : d.file.length < (d.numPages + 1) * PAGE_SIZE
  other : b ≠ UInt8.ofNat (d.numPages / 2 ^ 24 % 256)

/-- The page that is allocated in a torn file does not read back. -/
theorem not_readsBack_of_torn {b : UInt8} (h : s.disk.Torn b) :
    ¬ (s.step (.allocate pageType)).ReadsBack := by
  intro hreads
  obtain ⟨data, page, halloc, hlen, -, -, -, hid⟩ := s.disk.allocatePage_spec pageType h.count
  have hlast : (s.step (.allocate pageType)).last s.disk.numPages = some page := by
    have hpage : DiskOp.page? s.disk (.allocate pageType) = some page := by
      rw [DiskOp.page?, halloc]
      rfl
    rw [DiskRun.step, hpage]
    show Function.update s.last page.header.pageId (some page) s.disk.numPages = some page
    rw [← hid, Function.update_self]
  obtain ⟨q, hq, hcontents⟩ := hreads _ _ hlast
  have hq' : DiskManager.readPage { file := s.disk.file ++ data, numPages := s.disk.numPages + 1 }
      s.disk.numPages = .ok q := by
    rw [← hq, DiskRun.step, DiskOp.apply, halloc]
  -- the first byte of what is read was in the file before
  have hstart : s.disk.numPages * PAGE_SIZE < s.disk.file.length := by
    have hone := congrArg List.length h.start
    rw [length_field, List.length_singleton] at hone
    omega
  have hroom : (s.disk.numPages + 1) * PAGE_SIZE ≤ (s.disk.file ++ data).length := by
    rw [List.length_append, hlen, Nat.add_mul, one_mul]
    omega
  have hfirst := firstByte_of_fromBytes (length_block hroom)
    (DiskManager.fromBytes_of_readPage hroom hq')
  have hbyte : field (block (s.disk.file ++ data) s.disk.numPages) 0 1 = [b] := by
    rw [← h.start, block, field_field (by decide), Nat.add_zero, field_append_left hstart]
  have hpageId : q.header.pageId = s.disk.numPages := by
    have hheader := (Page.contents_eq_iff.mp hcontents).1
    have hfield := congrArg PageHeader.pageId hheader
    exact hfield.trans hid
  rw [hbyte, hpageId] at hfirst
  exact h.other (List.singleton_inj.mp hfirst)

theorem not_addressable_of_torn {b : UInt8} (h : s.disk.Torn b) (hinside : s.disk.Inside)
    (hops : ValidOps s.disk.numPages ops) (hallocate : ∃ pageType, .allocate pageType ∈ ops) :
    ¬ s.Addressable ops := by
  induction ops generalizing s with
  | nil =>
    obtain ⟨pageType, hmem⟩ := hallocate
    cases hmem
  | cons op ops ih =>
    rintro ⟨-, -, hrest⟩
    cases op with
    | allocate pageType =>
      exact not_readsBack_of_torn h (DiskRun.readsBack_of_addressable hrest)
    | write page =>
      -- a write leaves the rest of a page where it is
      obtain ⟨⟨hpage, hpreserved⟩, hops⟩ := hops
      have hcount := s.disk.numPages_writePage page
      obtain ⟨page', -, hlen⟩ := stores_write hinside hpage hpreserved
      have hroom := hinside _ hpage hpreserved.pageId_lt
      obtain ⟨data, page'', hwrite, hdata, -⟩ := hpreserved.writePage s.disk
      have htail : field (s.step (.write page)).disk.file (s.disk.numPages * PAGE_SIZE) 1 = [b] := by
        show field (s.disk.writePage page).1.1.file _ 1 = [b]
        rw [hwrite, ← h.start]
        show field (writeAt s.disk.file _ data) _ 1 = _
        rw [writeAt_eq_patch hroom]
        refine field_patch_of_disjoint ?_ (.inr ?_)
        · exact (Nat.mul_le_mul_right _ (Nat.le_succ _)).trans hroom
        · rw [hdata, ← Nat.succ_mul]
          exact Nat.mul_le_mul_right _ hpage
      have hcount' : (s.step (.write page)).disk.numPages = s.disk.numPages := hcount
      refine ih ⟨?_, ?_, ?_, ?_⟩ ?_ ?_ ?_ hrest
      · exact hcount'.symm ▸ h.count
      · rw [hcount']
        exact htail
      · rw [hcount']
        exact hlen.trans_lt h.stop
      · rw [hcount']
        exact h.other
      · intro pageId hid hid'
        exact (hinside pageId (hcount ▸ hid) hid').trans hlen.ge
      · exact hcount'.symm ▸ hops
      · obtain ⟨pageType, hmem⟩ := hallocate
        exact ⟨pageType, (List.mem_cons.mp hmem).resolve_left nofun⟩

/-! ## Which files are sound -/

end PySQL.Storage
