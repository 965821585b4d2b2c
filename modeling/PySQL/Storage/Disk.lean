import PySQL.Storage.PageBytes

/-!
# The disk manager

A database file is a sequence of pages, page `N` at offset `N * PAGE_SIZE`.
-/

namespace PySQL.Storage

open Lib

/-- What the storage layer raises. -/
inductive StorageError where
  /-- `ValueError: Page {page_id} does not exist (max: {num_pages - 1})` -/
  | pageDoesNotExist (pageId max : ℤ)
  /-- a seek to a negative offset -/
  | negativeSeek
  /-- bytes that are no page: a short slot or an unknown page type -/
  | badPage
  /-- `struct.error`: a field does not fit its width -/
  | doesNotFit
  /-- `RuntimeError: Buffer pool exhausted: all frames are pinned.` -/
  | poolExhausted
  /-- `KeyError` of the page table -/
  | keyError (pageId : ℤ)
  /-- a `None` frame used as a page -/
  | noPage
  deriving DecidableEq, Repr

structure DiskManager where
  file : Bytes
  numPages : ℕ
  deriving DecidableEq, Repr

/-- The bytes of page `pageId` in a file. -/
def block (file : Bytes) (pageId : ℕ) : Bytes := field file (pageId * PAGE_SIZE) PAGE_SIZE

/-- Write at a position; a gap between the end of the file and the position reads as zeros. -/
def writeAt (file : Bytes) (pos : ℕ) (data : Bytes) : Bytes :=
  patch (file ++ List.replicate (pos - file.length) 0) pos data

namespace DiskManager

/-- Open an existing file, or an empty one. -/
def ofFile (file : Bytes) : DiskManager := { file, numPages := file.length / PAGE_SIZE }

def readPage (d : DiskManager) (pageId : ℤ) : Except StorageError Page :=
  if pageId ≥ d.numPages then .error (.pageDoesNotExist pageId (d.numPages - 1))
  else if pageId < 0 then .error .negativeSeek
  else
    let data := block d.file pageId.toNat
    match Page.fromBytes (data ++ List.replicate (PAGE_SIZE - data.length) 0) with
    | none => .error .badPage
    | some page => .ok page

/-- Write a page at its designated position.  The page itself is serialized in place. -/
def writePage (d : DiskManager) (page : Page) : (DiskManager × Page) × Except StorageError Unit :=
  match page.toBytes with
  | (page, none) => ((d, page), .error .doesNotFit)
  | (page, some data) =>
    (({ d with file := writeAt d.file (page.header.pageId * PAGE_SIZE) data }, page), .ok ())

/-- Allocate a page at the end of the file.  A page number that does not fit the header raises
after the page was counted. -/
def allocatePage (d : DiskManager) (pageType : PageType) :
    DiskManager × Except StorageError Page :=
  match (Page.new d.numPages pageType).toBytes with
  | (_, none) => ({ d with numPages := d.numPages + 1 }, .error .doesNotFit)
  | (page, some data) => ({ file := d.file ++ data, numPages := d.numPages + 1 }, .ok page)

end DiskManager

/-! ## Blocks -/

section Blocks

variable {file data : Bytes} {pageId n : ℕ}

theorem length_block (h : (pageId + 1) * PAGE_SIZE ≤ file.length) :
    (block file pageId).length = PAGE_SIZE :=
  length_field_of_le (by rw [Nat.add_mul, one_mul] at h; exact h)

theorem writeAt_eq_patch (h : (pageId + 1) * PAGE_SIZE ≤ file.length) :
    writeAt file (pageId * PAGE_SIZE) data = patch file (pageId * PAGE_SIZE) data := by
  have hin : pageId * PAGE_SIZE ≤ file.length :=
    (Nat.mul_le_mul_right _ (Nat.le_succ pageId)).trans h
  rw [writeAt, Nat.sub_eq_zero_of_le hin, List.replicate_zero, List.append_nil]

theorem length_writeAt (hdata : data.length = PAGE_SIZE)
    (h : (pageId + 1) * PAGE_SIZE ≤ file.length) :
    (writeAt file (pageId * PAGE_SIZE) data).length = file.length := by
  rw [writeAt_eq_patch h, length_patch (by rw [hdata]; rw [Nat.add_mul, one_mul] at h; exact h)]

/-- Writing a page changes that page's block and no other. -/
theorem block_writeAt (hdata : data.length = PAGE_SIZE)
    (h : (pageId + 1) * PAGE_SIZE ≤ file.length) (other : ℕ) :
    block (writeAt file (pageId * PAGE_SIZE) data) other =
      if other = pageId then data else block file other := by
  have hin : pageId * PAGE_SIZE ≤ file.length :=
    (Nat.mul_le_mul_right _ (Nat.le_succ pageId)).trans h
  rw [writeAt_eq_patch h]
  split
  · next heq => rw [heq, block, field_patch_self hin hdata.symm]
  · next hne =>
    refine field_patch_of_disjoint hin ?_
    rw [hdata]
    simp only [PAGE_SIZE]
    omega

/-- Extending the file by a page adds one block. -/
theorem block_append (hfile : file.length = n * PAGE_SIZE) (hdata : data.length = PAGE_SIZE)
    {other : ℕ} (h : other ≤ n) :
    block (file ++ data) other = if other = n then data else block file other := by
  split
  · next heq =>
    rw [heq, block, field_append_right hfile.le, hfile, Nat.sub_self, field_eq_self hdata.le]
  · next hne =>
    refine field_append_left ?_
    rw [hfile]
    simp only [PAGE_SIZE]
    omega

theorem readPage_eq {d : DiskManager} (hpage : pageId < d.numPages)
    (h : (pageId + 1) * PAGE_SIZE ≤ d.file.length) {page : Page}
    (hread : Page.fromBytes (block d.file pageId) = some page) : d.readPage pageId = .ok page := by
  rw [DiskManager.readPage, if_neg (by omega), if_neg (by omega)]
  simp only [Int.toNat_natCast, length_block h, Nat.sub_self, List.replicate_zero, List.append_nil,
    hread]

end Blocks

theorem DiskManager.lt_numPages_of_readPage {d : DiskManager} {pageId : ℤ} {page : Page}
    (h : d.readPage pageId = .ok page) : pageId < d.numPages := by
  unfold readPage at h
  split at h
  · cases h
  · omega

theorem Page.toBytes_pageId (p : Page) : p.toBytes.1.header.pageId = p.header.pageId := by
  unfold Page.toBytes
  split
  · split <;> rfl
  · rfl

theorem DiskManager.writePage_pageId (d : DiskManager) (page : Page) :
    (d.writePage page).1.2.header.pageId = page.header.pageId := by
  have h := page.toBytes_pageId
  unfold writePage
  split <;> next heq => rw [heq] at h; exact h

theorem DiskManager.numPages_writePage (d : DiskManager) (page : Page) :
    (d.writePage page).1.1.numPages = d.numPages := by
  unfold writePage
  split <;> rfl

theorem DiskManager.numPages_allocatePage (d : DiskManager) (pageType : PageType) :
    (d.allocatePage pageType).1.numPages = d.numPages + 1 := by
  unfold allocatePage
  split <;> rfl

theorem DiskManager.allocatePage_pageId {d d' : DiskManager} {pageType : PageType} {page : Page}
    (h : d.allocatePage pageType = (d', .ok page)) : page.header.pageId = d.numPages := by
  have hid := (Page.new d.numPages pageType).toBytes_pageId
  unfold allocatePage at h
  split at h
  · cases h
  · next heq =>
    cases h
    rw [heq] at hid
    exact hid

/-- Writing a preserved page puts its own bytes into its block. -/
theorem Page.Preserved.writePage {page : Page} (h : page.Preserved) (d : DiskManager) :
    ∃ data page', d.writePage page =
        (({ d with file := writeAt d.file (page.header.pageId * PAGE_SIZE) data }, page'), .ok ()) ∧
      data.length = PAGE_SIZE ∧ Page.fromBytes data = some page' ∧
      page'.contents = page.contents ∧ page'.Preserved ∧
      page'.header.pageId = page.header.pageId := by
  have hid := page.toBytes_pageId
  obtain ⟨data, page', hbytes, hlen, hread, hcontents, hagain⟩ := h.toBytes
  rw [hbytes] at hid
  have hdata := ((Page.fromBytes_eq_some hlen).mp hread).1
  refine ⟨data, page', ?_, hlen, hread, hcontents, ?_, hid⟩
  · simp only [DiskManager.writePage, hbytes, ← hid]
  · exact ⟨by rw [hdata, hlen], data, page', by rw [hagain], hread, rfl⟩

/-- A page that can be allocated is appended to the file; it reads as a fresh page. -/
theorem DiskManager.allocatePage_spec (d : DiskManager) (pageType : PageType)
    (h : d.numPages < 2 ^ 32) : ∃ data page, d.allocatePage pageType =
        ({ file := d.file ++ data, numPages := d.numPages + 1 }, .ok page) ∧
      data.length = PAGE_SIZE ∧ Page.fromBytes data = some page ∧
      page.contents = (Page.new d.numPages pageType).contents ∧ page.Preserved ∧
      page.header.pageId = d.numPages := by
  obtain ⟨data, page, hbytes, hlen, hread, hcontents, hagain⟩ :=
    (Page.preserved_new h pageType).toBytes
  have hdata := ((Page.fromBytes_eq_some hlen).mp hread).1
  have halloc : d.allocatePage pageType =
      ({ file := d.file ++ data, numPages := d.numPages + 1 }, .ok page) := by
    simp only [allocatePage, hbytes]
  refine ⟨data, page, halloc, hlen, hread, hcontents, ?_, DiskManager.allocatePage_pageId halloc⟩
  exact ⟨by rw [hdata, hlen], data, page, by rw [hagain], hread, rfl⟩

/-- A page number that does not fit its field. -/
theorem DiskManager.allocatePage_of_ge (d : DiskManager) (pageType : PageType)
    (h : 2 ^ 32 ≤ d.numPages) : d.allocatePage pageType =
      ({ d with numPages := d.numPages + 1 }, .error .doesNotFit) := by
  have hrange : ¬ (Page.new d.numPages pageType).header.InRange := by
    intro hr
    exact absurd hr.pageId (not_lt.mpr h)
  have hbytes : (Page.new d.numPages pageType).toBytes = (Page.new d.numPages pageType, none) := by
    rw [Page.toBytes, if_neg hrange]
  simp only [allocatePage, hbytes]

end PySQL.Storage
