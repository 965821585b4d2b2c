import PySQL.Storage.Compaction

/-!
# The two counters of a page header

`insert_record`, `update_record` and `delete_record` keep `free_space` up to date by differences and
`compact` computes it afresh.  On a fresh page all of them agree with one formula, whatever the
lengths of the records, and also after records have overwritten each other: a slot that `compact`
moves never grows.
-/

namespace PySQL.Storage

open Lib

/-- A fresh page under any sequence of calls, with records of any length. -/
def openPageMachine (pageId : ℕ) (pageType : PageType) : Machine Page PageCall PageReply where
  init := Page.new pageId pageType
  enabled _ _ := True
  step := Page.step

/-- The lengths in the live slots make up the lengths in all slots. -/
theorem sum_filter_live (slots : List SlotEntry) :
    ((slots.filter fun s => !s.isDeleted).map SlotEntry.length).sum = liveBytes slots := by
  induction slots with
  | nil => rfl
  | cons s slots ih =>
    by_cases hs : s.length = 0
    · simpa [SlotEntry.isDeleted, hs, liveBytes] using ih
    · simpa [SlotEntry.isDeleted, List.filter_cons, hs, liveBytes] using ih

namespace Page

/-- The header counts the slots and the bytes outside header, directory and live records. -/
structure Accounts (p : Page) : Prop where
  slotCount : p.header.numSlots = p.slots.length
  free : p.header.freeSpace = PAGE_SIZE - p.slotDirEnd - liveBytes p.slots
  free_nonneg : 0 ≤ p.header.freeSpace

variable {p q : Page} {i k : ℕ} {s : SlotEntry} {record : Bytes}

theorem accounts_new (pageId : ℕ) (pageType : PageType) : (new pageId pageType).Accounts :=
  have hwf := wf_new pageId pageType
  ⟨hwf.slotCount, hwf.free, hwf.free_nonneg⟩

theorem Accounts.tombstone (h : p.Accounts) (hs : p.Live i s) : (p.tombstone i s).Accounts := by
  have hlen := liveBytes_set hs.1 { offset := 0, length := 0 }
  have hfree := h.free
  have hpos := h.free_nonneg
  refine ⟨?_, ?_, ?_⟩
  · simp [Page.tombstone, h.slotCount]
  · simp only [Page.tombstone, slotDirEnd_eq] at hfree hlen ⊢
    omega
  · simp only [Page.tombstone]
    omega

/-- Reusing a slot pays for the record only; its entry is counted already. -/
theorem Accounts.reuse (h : p.Accounts) (hs : p.slots[i]? = some s) (hdel : s.length = 0)
    (hadm : record.length + SLOT_SIZE ≤ p.header.freeSpace) : (p.reuse record i).Accounts := by
  have hlen := liveBytes_set hs
    { offset := p.header.dataEnd - record.length, length := record.length }
  have hfree := h.free
  refine ⟨?_, ?_, ?_⟩
  · simp [Page.reuse, h.slotCount]
  · simp only [Page.reuse, slotDirEnd_eq, hdel] at hfree hlen ⊢
    omega
  · simp only [Page.reuse, SLOT_SIZE] at hadm ⊢
    omega

theorem Accounts.extend (h : p.Accounts)
    (hadm : record.length + SLOT_SIZE ≤ p.header.freeSpace) : (p.extend record).Accounts := by
  have hfree := h.free
  refine ⟨?_, ?_, ?_⟩
  · simp [Page.extend, h.slotCount]
  · simp only [Page.extend, slotDirEnd_eq, liveBytes_snoc, SLOT_SIZE] at hfree ⊢
    push_cast
    omega
  · simp only [Page.extend]
    omega

theorem Accounts.overwrite (h : p.Accounts) (hs : p.Live i s) (hle : record.length ≤ s.length) :
    (p.overwrite i s record).Accounts := by
  have hlen := liveBytes_set hs.1 { offset := s.offset, length := record.length }
  have hfree := h.free
  have hpos := h.free_nonneg
  refine ⟨?_, ?_, ?_⟩
  · simp [Page.overwrite, h.slotCount]
  · simp only [Page.overwrite, slotDirEnd_eq] at hfree hlen ⊢
    omega
  · simp only [Page.overwrite]
    omega

theorem Accounts.swap (h : p.Accounts) (hik : i ≠ k) :
    Accounts { p with slots := swap p.slots i k } := by
  have hlen : (Page.swap p.slots i k).length = p.slots.length := by
    unfold Page.swap
    split <;> simp
  refine ⟨h.slotCount.trans hlen.symm, ?_, h.free_nonneg⟩
  rw [liveBytes_swap hik]
  exact h.free

/-! ## Each call -/

theorem Accounts.insertRecord (h : p.Accounts) (record : Bytes) :
    (p.insertRecord record).1.Accounts := by
  by_cases hadm : record.length + SLOT_SIZE ≤ p.header.freeSpace
  · cases hi : p.slots.findIdx? SlotEntry.isDeleted with
    | some i =>
      obtain ⟨s, hs, hdel⟩ := deleted_of_findIdx? hi
      rw [insertRecord_reuse hadm hi]
      exact h.reuse hs hdel hadm
    | none =>
      rw [insertRecord_extend hadm hi]
      exact h.extend hadm
  · rw [insertRecord_refused hadm]
    exact h

theorem Accounts.deleteRecord (h : p.Accounts) (i : ℕ) : (p.deleteRecord i).1.Accounts := by
  by_cases hlive : ∃ s, p.Live i s
  · obtain ⟨s, hs⟩ := hlive
    rw [deleteRecord_of_live hs]
    exact h.tombstone hs
  · rw [deleteRecord_of_not_live (not_exists.mp hlive)]
    exact h

theorem Accounts.updateRecord (h : p.Accounts) (i : ℕ) (record : Bytes) :
    (p.updateRecord i record).1.Accounts := by
  by_cases hlive : ∃ s, p.Live i s
  · obtain ⟨s, hs⟩ := hlive
    rcases Nat.lt_or_ge s.length record.length with hlt | hle
    · by_cases hadm : record.length + SLOT_SIZE ≤ p.header.freeSpace + s.length
      · obtain ⟨k, t, ht, hdel, hupdate⟩ := updateRecord_grow hs hlt hadm
        have hreuse := (h.tombstone hs).reuse ht hdel hadm
        rw [hupdate]
        split
        · next hki => exact hreuse.swap (Ne.symm hki)
        · exact hreuse
      · -- The old record stays deleted.
        rw [updateRecord_refused hs hlt hadm]
        exact h.tombstone hs
    · rw [updateRecord_shrink hs hle]
      exact h.overwrite hs hle
  · rw [updateRecord_of_not_live (not_exists.mp hlive)]
    exact h

/-! ## Compaction -/

theorem length_recordAt_le (p : Page) (s : SlotEntry) : (p.recordAt s).length ≤ s.length :=
  length_slice_add_le p.data s.offset s.length

/-- The loop of `compact` has moved the slots after `before`: they take up what lies between the
old and the new `data_end`, and no more than they took up. -/
structure Moved (q : Page) (before slots : List SlotEntry) (r : Page) : Prop where
  numSlots : r.header.numSlots = q.header.numSlots
  slots : ∃ moved, r.slots = before ++ moved ∧ moved.length = slots.length ∧
    r.header.dataEnd = q.header.dataEnd - liveBytes moved ∧ liveBytes moved ≤ liveBytes slots

theorem moved_foldl_place {slots : List SlotEntry} {record : SlotEntry → Bytes}
    (hle : ∀ s, (record s).length ≤ s.length) (before : List SlotEntry)
    (hq : q.slots = before ++ slots) :
    Moved q before slots ((liveFrom record before.length slots).foldl place q) := by
  induction slots generalizing before q with
  | nil => exact ⟨rfl, [], hq, rfl, by simp [liveFrom, liveBytes], le_rfl⟩
  | cons s slots ih =>
    by_cases hdel : s.isDeleted = true
    · -- A tombstone stays where it is and counts for nothing.
      have hzero : s.length = 0 := SlotEntry.isDeleted_iff.mp hdel
      have hrest := ih (before ++ [s]) (q := q) (by simp [hq])
      rw [List.length_append, List.length_singleton] at hrest
      obtain ⟨hnum, moved, hslots, hlen, hend, hbytes⟩ := hrest
      rw [liveFrom_cons_deleted hdel]
      refine ⟨hnum, s :: moved, by simpa using hslots, by simp [hlen], ?_, ?_⟩
      · simpa [liveBytes, hzero] using hend
      · simpa [liveBytes, hzero] using hbytes
    · rw [Bool.not_eq_true] at hdel
      let s' : SlotEntry := ⟨q.header.dataEnd - (record s).length, (record s).length⟩
      have hplaced : (q.place (before.length, record s)).slots = (before ++ [s']) ++ slots := by
        simp [place, hq, s']
      have hrest := ih (before ++ [s']) hplaced
      rw [List.length_append, List.length_singleton] at hrest
      obtain ⟨hnum, moved, hslots, hlen, hend, hbytes⟩ := hrest
      rw [liveFrom_cons_live hdel, List.foldl_cons]
      refine ⟨hnum, s' :: moved, by simpa using hslots, by simp [hlen], ?_, ?_⟩
      · have hcons : liveBytes (s' :: moved) = (record s).length + liveBytes moved := by
          simp [liveBytes, s']
        have htop : (q.place (before.length, record s)).header.dataEnd
            = q.header.dataEnd - (record s).length := rfl
        rw [hend, htop, hcons]
        push_cast
        omega
      · have hshort := hle s
        simp only [liveBytes, List.map_cons, List.sum_cons, s'] at hbytes ⊢
        omega

theorem Accounts.compact (h : p.Accounts) : p.compact.Accounts := by
  let q : Page := { p with header := { p.header with dataEnd := PAGE_SIZE } }
  obtain ⟨hnum, moved, hslots, hlen, hend, hbytes⟩ :=
    moved_foldl_place (q := q) (length_recordAt_le p) [] rfl
  have hcompact : p.compact.slots = moved := hslots
  have hshort : liveBytes moved ≤ liveBytes p.slots := hbytes
  have hsame : moved.length = p.slots.length := hlen
  have hcount : p.compact.header.numSlots = p.header.numSlots := hnum
  have hspace : p.compact.header.freeSpace
      = (PAGE_SIZE : ℤ) - liveBytes moved - (HEADER_SIZE + p.slots.length * SLOT_SIZE) :=
    congrArg (· - _) hend
  have hslotCount := h.slotCount
  have hfree := h.free
  have hpos := h.free_nonneg
  rw [slotDirEnd_eq, PAGE_SIZE] at hfree
  rw [PAGE_SIZE, HEADER_SIZE, SLOT_SIZE] at hspace
  refine ⟨?_, ?_, ?_⟩
  · rw [hcount, hcompact, hsame, hslotCount]
  · rw [slotDirEnd_eq, hcount, hcompact, hspace, PAGE_SIZE]
    push_cast
    omega
  · push_cast at hspace hfree
    omega

/-! ## Runs -/

theorem Accounts.step (h : p.Accounts) (call : PageCall) : (p.step call).1.Accounts := by
  cases call with
  | insert record => exact h.insertRecord record
  | update i newRecord => exact h.updateRecord i newRecord
  | delete i => exact h.deleteRecord i
  | compact => exact h.compact

theorem accounts_of_reachable {pageId : ℕ} {pageType : PageType}
    (h : (openPageMachine pageId pageType).Reachable p) : p.Accounts :=
  h.invariant (accounts_new pageId pageType) fun _ call _ hp _ => hp.step call

end Page

/-- The free-space counter of a page is exact after any sequence of calls. -/
theorem freeSpace_accounting (pageId : ℕ) (pageType : PageType) (calls : List PageCall) :
    let p := (openPageMachine pageId pageType).exec (Page.new pageId pageType) calls
    p.header.numSlots = p.slots.length ∧
      p.header.freeSpace = PAGE_SIZE - HEADER_SIZE - SLOT_SIZE * p.header.numSlots -
        ((p.slots.filter fun s => !s.isDeleted).map SlotEntry.length).sum ∧
      0 ≤ p.header.freeSpace := by
  intro p
  have hlegal : ∀ q, (openPageMachine pageId pageType).Legal q calls := by
    induction calls with
    | nil => exact fun _ => trivial
    | cons call calls ih => exact fun _ => ⟨trivial, ih _⟩
  have haccounts : p.Accounts := Page.accounts_of_reachable (Machine.reachable_of_legal (hlegal _))
  refine ⟨haccounts.slotCount, ?_, haccounts.free_nonneg⟩
  rw [sum_filter_live, haccounts.free, Page.slotDirEnd]
  ring

end PySQL.Storage
