import PySQL.Storage.PageAccounting
import PySQL.Storage.PageReplace

/-!
# Pages as maps from slots to records

On a page in the documented layout whose counters are right, a call that fits changes the one
record that it is about.
-/

namespace PySQL.Storage

open Lib

namespace Page

/-- A page that a heap file keeps records on. -/
structure Kept (p : Page) : Prop where
  intact : p.Intact
  accounts : p.Accounts

variable {p q : Page} {i k : ℕ} {s : SlotEntry} {record : Bytes}

theorem kept_new {pageId : ℕ} (h : pageId < 2 ^ 32) (pageType : PageType) :
    (Page.new pageId pageType).Kept := ⟨intact_new h pageType, accounts_new pageId pageType⟩

/-- A header field that a page and its contents share. -/
theorem field_of_contents {α : Type} (f : PageHeader → α)
    (hf : ∀ h : PageHeader, f { h with checksum := 0 } = f h) (hc : q.contents = p.contents) :
    f q.header = f p.header := by
  rw [← hf q.header, ← hf p.header]
  exact congrArg f (contents_eq_iff.mp hc).1

theorem Kept.of_contents (h : p.Kept) (hq : q.Preserved) (hc : q.contents = p.contents) :
    q.Kept := by
  have hslots : q.slots = p.slots := (contents_eq_iff.mp hc).2.1
  have hcount : q.header.numSlots = p.header.numSlots := field_of_contents _ (fun _ => rfl) hc
  have hfree : q.header.freeSpace = p.header.freeSpace := field_of_contents _ (fun _ => rfl) hc
  refine ⟨h.intact.of_contents hq hc, ?_, ?_, ?_⟩
  · rw [hcount, hslots]
    exact h.accounts.slotCount
  · rw [hfree, hslots, slotDirEnd, hcount]
    exact h.accounts.free
  · rw [hfree]
    exact h.accounts.free_nonneg

/-- No page has more free space than a fresh one. -/
theorem Accounts.freeSpace_le (h : p.Accounts) : p.header.freeSpace ≤ PAGE_SIZE - HEADER_SIZE := by
  have hfree := h.free
  rw [slotDirEnd] at hfree
  simp only [HEADER_SIZE, SLOT_SIZE] at hfree ⊢
  omega

/-! ## Links -/

/-- The page with other neighbours. -/
def link (p : Page) (nextPage prevPage : ℕ) : Page :=
  { p with header := { p.header with nextPage, prevPage } }

theorem Kept.link (h : p.Kept) {nextPage prevPage : ℕ} (hnext : nextPage < 2 ^ 32)
    (hprev : prevPage < 2 ^ 32) : (p.link nextPage prevPage).Kept where
  intact := {
    layout := ⟨h.intact.layout.size, h.intact.layout.dirEnd, h.intact.layout.inside,
      h.intact.layout.apart⟩
    header := { h.intact.header with nextPage := hnext, prevPage := hprev }
    numSlots := h.intact.numSlots
    slots := h.intact.slots
    dataEnd_le := h.intact.dataEnd_le
    free := h.intact.free }
  accounts := ⟨h.accounts.slotCount, h.accounts.free, h.accounts.free_nonneg⟩

/-! ## Inserting -/

theorem Intact.extend (h : p.Intact) (hrec : record ≠ [])
    (hadm : record.length + SLOT_SIZE ≤ p.header.freeSpace)
    (hfit : p.slotDirEnd + SLOT_SIZE ≤ p.header.dataEnd - record.length) :
    (p.extend record).Intact := by
  have hcount : (p.extend record).slots.length = p.slots.length + 1 := by
    rw [Page.extend, List.length_append, List.length_singleton]
  have hfree := h.free
  have hend := h.dataEnd_le
  have hdir := h.slotDirEnd_eq
  have hpage : PAGE_SIZE = 4096 := rfl
  rw [slotOffset_eq] at hdir
  simp only [SLOT_SIZE] at hadm hfit
  push_cast at hdir
  have hroom : 0 ≤ p.header.dataEnd - record.length := by omega
  exact {
    layout := (h.laid.extend hrec hroom).layout (by
      rw [hcount, slotOffset_eq]
      simp only [Page.extend]
      push_cast
      omega)
    header := { h.header with
      flags := Nat.or_lt_two_pow h.header.flags (by decide)
      numSlots := by
        have := h.numSlots
        simp only [Page.extend]
        omega
      freeSpace := by
        have := h.header.freeSpace
        simp only [Page.extend, SLOT_SIZE]
        omega
      dataEnd := by
        simp only [Page.extend]
        omega }
    numSlots := by
      rw [hcount, ← h.numSlots]
      rfl
    slots := by
      intro t ht
      rcases List.mem_append.mp ht with ht | ht
      · exact h.slots t ht
      · rw [List.mem_singleton.mp ht]
        simp only [SlotEntry.InRange]
        omega
    dataEnd_le := by
      simp only [Page.extend]
      omega
    free := by
      simp only [Page.extend, liveBytes_snoc, SLOT_SIZE]
      push_cast
      omega }

/-- An insert that is admitted and fits fills a slot that had no record. -/
theorem Kept.insert (h : p.Kept) (hrec : record ≠ [])
    (hadm : record.length + SLOT_SIZE ≤ p.header.freeSpace) (hfits : p.Fits (.insert record)) :
    ∃ i, (p.insertRecord record).2 = some i ∧ (p.insertRecord record).1.Kept ∧
      p.readRecord i = none ∧
      (p.insertRecord record).1.readRecord = Function.update p.readRecord i (some record) := by
  have hfit := hfits hadm
  have haccounts := h.accounts.insertRecord record
  have hdirEnd : 0 ≤ p.slotDirEnd := by
    rw [slotDirEnd_eq]
    omega
  rw [dirEndAfterInsert, any_isDeleted] at hfit
  cases hi : p.slots.findIdx? SlotEntry.isDeleted with
  | some i =>
    obtain ⟨s, hs, hdel⟩ := deleted_of_findIdx? hi
    have hlt : i < p.slots.length := (List.getElem?_eq_some_iff.mp hs).1
    simp only [hi, Option.isSome_some, if_true] at hfit
    rw [insertRecord_reuse hadm hi] at haccounts ⊢
    refine ⟨i, rfl, ⟨h.intact.reuse hrec hs hdel hadm hfit, haccounts⟩, ?_, ?_⟩
    · exact h.intact.laid.stored_of_deleted hs hdel
    · funext j
      exact (h.intact.laid.reuse hrec hlt (by omega)).reads_eq j
  | none =>
    simp only [hi, Option.isSome_none, Bool.false_eq_true, if_false] at hfit
    rw [insertRecord_extend hadm hi] at haccounts ⊢
    refine ⟨p.slots.length, rfl, ⟨h.intact.extend hrec hadm hfit, haccounts⟩, ?_, ?_⟩
    · rw [readRecord, List.getElem?_eq_none le_rfl]
    · funext j
      simp only [SLOT_SIZE] at hfit
      exact (h.intact.laid.extend hrec (by omega)).reads_eq j

/-- A record fits a fresh page if it is admitted. -/
theorem fits_new (pageId : ℕ) (pageType : PageType) (record : Bytes) :
    (Page.new pageId pageType).Fits (.insert record) := by
  intro hadm
  have hspace : (Page.new pageId pageType).header.freeSpace = 4064 := rfl
  have hdir : (Page.new pageId pageType).dirEndAfterInsert = 36 := rfl
  have hend : (Page.new pageId pageType).header.dataEnd = 4096 := rfl
  rw [hspace, SLOT_SIZE] at hadm
  rw [hdir, hend]
  omega

theorem SameShape.fits_insert (h : q.SameShape p) (hfits : p.Fits (.insert record)) :
    q.Fits (.insert record) := by
  intro hadm
  rw [h.freeSpace] at hadm
  rw [dirEndAfterInsert, slotDirEnd, h.numSlots, h.slots, h.dataEnd]
  exact hfits hadm

/-! ## Pages without holes -/

/-- No record of the page was deleted, and its data has no gaps. -/
structure Packed (p : Page) : Prop where
  live : ∀ s ∈ p.slots, s.length ≠ 0
  dataEnd : p.header.dataEnd = PAGE_SIZE - liveBytes p.slots

theorem packed_new (pageId : ℕ) (pageType : PageType) : (Page.new pageId pageType).Packed where
  live s hs := by
    rw [show (Page.new pageId pageType).slots = [] from rfl] at hs
    cases hs
  dataEnd := rfl

theorem SameShape.packed (h : q.SameShape p) (hp : p.Packed) : q.Packed where
  live := by
    rw [h.slots]
    exact hp.live
  dataEnd := by
    rw [h.dataEnd, h.slots]
    exact hp.dataEnd

theorem Packed.findIdx? (h : p.Packed) : p.slots.findIdx? SlotEntry.isDeleted = none := by
  rw [List.findIdx?_eq_none_iff]
  intro s hs
  rw [← Bool.not_eq_true, SlotEntry.isDeleted_iff]
  exact h.live s hs

/-- On such a page the free space is in one piece. -/
theorem Packed.fits (h : p.Packed) (haccounts : p.Accounts) (record : Bytes) :
    p.Fits (.insert record) := by
  intro hadm
  have hfree := haccounts.free
  have hend := h.dataEnd
  rw [dirEndAfterInsert, any_isDeleted, h.findIdx?]
  simp only [Option.isSome_none, Bool.false_eq_true, if_false, SLOT_SIZE] at hadm ⊢
  omega

theorem Packed.insertRecord (h : p.Packed) (hrec : record ≠ []) :
    (p.insertRecord record).1.Packed := by
  by_cases hadm : record.length + SLOT_SIZE ≤ p.header.freeSpace
  · rw [insertRecord_extend hadm h.findIdx?]
    refine ⟨?_, ?_⟩
    · intro s hs
      rcases List.mem_append.mp hs with hs | hs
      · exact h.live s hs
      · rw [List.mem_singleton.mp hs]
        simpa using hrec
    · have hend := h.dataEnd
      simp only [Page.extend, liveBytes_snoc]
      push_cast
      omega
  · rw [insertRecord_refused hadm]
    exact h

/-! ## Deleting and updating -/

theorem Kept.delete (h : p.Kept) (hs : p.Live i s) : (p.tombstone i s).Kept ∧
    (p.tombstone i s).readRecord = Function.update p.readRecord i none := by
  refine ⟨⟨h.intact.tombstone hs, h.accounts.tombstone hs⟩, ?_⟩
  funext j
  exact (h.intact.laid.tombstone hs).reads_eq j

theorem Kept.update (h : p.Kept) (hrec : record ≠ []) (hs : p.Live i s)
    (hfits : p.Fits (.update i record)) : (p.updateRecord i record).2 = true ∧
      (p.updateRecord i record).1.Kept ∧
      (p.updateRecord i record).1.readRecord = Function.update p.readRecord i (some record) := by
  obtain ⟨hreply, hintact, -⟩ := h.intact.update hrec hs hfits
  have hexact := h.intact.updateExact hrec hfits
  rw [UpdateExact, if_pos hreply] at hexact
  refine ⟨hreply, ⟨hintact, h.accounts.updateRecord i record⟩, ?_⟩
  funext j
  by_cases hj : j = i
  · rw [hj, hexact.1, Function.update_self]
  · rw [hexact.2 j hj, Function.update_of_ne hj]

/-! ## The next page -/

theorem nextPage_insertRecord (p : Page) (record : Bytes) :
    (p.insertRecord record).1.header.nextPage = p.header.nextPage := by
  by_cases hadm : record.length + SLOT_SIZE ≤ p.header.freeSpace
  · cases hi : p.slots.findIdx? SlotEntry.isDeleted with
    | some k => rw [insertRecord_reuse hadm hi, Page.reuse]
    | none => rw [insertRecord_extend hadm hi, Page.extend]
  · rw [insertRecord_refused hadm]

theorem nextPage_updateRecord (hs : p.Live i s) (hfits : p.Fits (.update i record)) :
    (p.updateRecord i record).1.header.nextPage = p.header.nextPage := by
  by_cases hle : record.length ≤ s.length
  · rw [updateRecord_shrink hs hle, Page.overwrite]
  · obtain ⟨k, t, -, -, hupdate⟩ := updateRecord_grow hs (not_le.mp hle) (hfits s hs (not_le.mp hle)).1
    rw [hupdate]
    split <;> rfl

/-! ## The live records -/

theorem mem_liveRecords_iff {record : Bytes} :
    (i, record) ∈ p.liveRecords ↔ p.readRecord i = some record := by
  rw [mem_liveRecords]
  constructor
  · intro h
    obtain ⟨s, hs, hrecord⟩ := h
    rw [readRecord_of_live hs, hrecord]
  · intro h
    by_cases hlive : ∃ s, p.Live i s
    · obtain ⟨s, hs⟩ := hlive
      rw [readRecord_of_live hs, Option.some.injEq] at h
      exact ⟨s, hs, h⟩
    · rw [readRecord_eq_none.mpr (not_exists.mp hlive)] at h
      cases h

theorem length_liveRecords (p : Page) :
    p.liveRecords.length = (p.slots.filter fun s => !s.isDeleted).length := by
  have hlive : ∀ (slots : List SlotEntry) (k : ℕ), (liveFrom p.recordAt k slots).length =
      (slots.filter fun s => !s.isDeleted).length := by
    intro slots
    induction slots with
    | nil => exact fun _ => rfl
    | cons s rest ih =>
      intro k
      by_cases hdel : s.isDeleted = true
      · rw [liveFrom_cons_deleted hdel, ih, List.filter_cons_of_neg (by simp [hdel])]
      · rw [Bool.not_eq_true] at hdel
        rw [liveFrom_cons_live hdel, List.filter_cons_of_pos (by simp [hdel]), List.length_cons, ih,
          List.length_cons]
  rw [liveRecords_eq]
  exact hlive p.slots 0

end Page

end PySQL.Storage
