import PySQL.Lib.Extent
import PySQL.Storage.Page

/-!
# When a page keeps its records

`insert_record` admits a record by `free_space`, which counts the holes that deletes and shrinking
updates leave, and places it below `data_end`, which no hole moves.  A page keeps its records as
long as every record it admits also fits between the slot directory and `data_end`, and no growing
update is refused after its old record was deleted.
-/

namespace PySQL.Storage

open Lib

abbrev PageStep := Event Page PageCall PageReply

/-- What each slot should hold: the record last stored in it by a call that reported success. -/
abbrev Stored := ℕ → Option Bytes

def Stored.record (st : Stored) (e : PageStep) : Stored :=
  match e.input, e.reply with
  | .insert record, .slot (some i) => Function.update st i (some record)
  | .update i newRecord, .bool true => Function.update st i (some newRecord)
  | .delete i, .bool true => Function.update st i none
  | _, _ => st

def stored (tr : List PageStep) : Stored := tr.foldl Stored.record fun _ => none

theorem stored_snoc (tr : List PageStep) (e : PageStep) :
    stored (tr ++ [e]) = (stored tr).record e := by
  rw [stored, List.foldl_append]
  rfl

namespace Page

/-- The first byte after the slot directory. -/
def slotDirEnd (p : Page) : ℤ := HEADER_SIZE + SLOT_SIZE * p.header.numSlots

theorem slotDirEnd_eq (p : Page) : p.slotDirEnd = 32 + 4 * (p.header.numSlots : ℤ) := rfl

/-- Slot `i` is `s`, which is not deleted. -/
def Live (p : Page) (i : ℕ) (s : SlotEntry) : Prop := p.slots[i]? = some s ∧ s.length ≠ 0

theorem readRecord_of_live {p : Page} {i : ℕ} {s : SlotEntry} (h : p.Live i s) :
    p.readRecord i = some (p.recordAt s) := by
  simp [readRecord, h.1, SlotEntry.isDeleted, h.2]

theorem readRecord_eq_none {p : Page} {i : ℕ} : p.readRecord i = none ↔ ∀ s, ¬ p.Live i s := by
  constructor
  · intro h s hs
    rw [readRecord_of_live hs] at h
    cases h
  · intro h
    unfold readRecord
    cases hs : p.slots[i]? with
    | none => rfl
    | some s =>
      have hdel : s.length = 0 := not_not.mp fun hne => h s ⟨hs, hne⟩
      simp [SlotEntry.isDeleted, hdel]

structure Sound (p : Page) (st : Stored) : Prop where
  size : p.data.length = PAGE_SIZE
  inside : ∀ i s, p.Live i s → p.slotDirEnd ≤ s.offset ∧ s.offset + s.length ≤ PAGE_SIZE
  apart : ∀ i j s s', i ≠ j → p.Live i s → p.Live j s' →
    s.offset + s.length ≤ s'.offset ∨ s'.offset + s'.length ≤ s.offset
  reads : ∀ i, p.readRecord i = st i

/-- The room that the slot directory needs once a record is inserted. -/
def dirEndAfterInsert (p : Page) : ℤ :=
  p.slotDirEnd + if p.slots.any SlotEntry.isDeleted then 0 else SLOT_SIZE

/-- A record that the call stores by `insert_record` fits below `data_end` if it is admitted, and
a growing update is admitted. -/
def Fits (p : Page) : PageCall → Prop
  | .insert record => record.length + SLOT_SIZE ≤ p.header.freeSpace →
      p.dirEndAfterInsert ≤ p.header.dataEnd - record.length
  | .update i newRecord => ∀ s, p.Live i s → s.length < newRecord.length →
      newRecord.length + SLOT_SIZE ≤ p.header.freeSpace + s.length ∧
        p.slotDirEnd ≤ p.header.dataEnd - newRecord.length
  | .delete _ | .compact => True

/-! ## The extents of the live slots -/

end Page

/-- The extent of a live slot. -/
def SlotEntry.extent? (s : SlotEntry) : Option Extent :=
  if s.isDeleted then none else some ⟨s.offset, s.length⟩

theorem SlotEntry.isDeleted_iff {s : SlotEntry} : s.isDeleted = true ↔ s.length = 0 := by
  simp [SlotEntry.isDeleted]

theorem SlotEntry.extent?_of_deleted {s : SlotEntry} (h : s.length = 0) : s.extent? = none := by
  simp [extent?, isDeleted_iff, h]

theorem SlotEntry.extent?_of_live {s : SlotEntry} (h : s.length ≠ 0) :
    s.extent? = some ⟨s.offset, s.length⟩ := by
  simp [extent?, isDeleted_iff, h]

def extentAt (slots : List SlotEntry) (i : ℕ) : Option Extent := slots[i]?.bind SlotEntry.extent?

section Extents

variable {slots : List SlotEntry} {i j : ℕ}

theorem extentAt_eq_some {e : Extent} :
    extentAt slots i = some e ↔ ∃ s, slots[i]? = some s ∧ s.length ≠ 0 ∧ ⟨s.offset, s.length⟩ = e := by
  cases h : slots[i]? with
  | none => simp [extentAt, h]
  | some s => by_cases hs : s.length = 0 <;>
      simp [extentAt, h, SlotEntry.extent?, SlotEntry.isDeleted_iff, hs]

theorem extentAt_set (hi : i < slots.length) (s : SlotEntry) :
    extentAt (slots.set i s) = Function.update (extentAt slots) i s.extent? := by
  funext j
  by_cases hj : j = i
  · simp [extentAt, hj, List.getElem?_set_self hi]
  · simp [extentAt, hj, List.getElem?_set_ne (Ne.symm hj)]

theorem extentAt_snoc (slots : List SlotEntry) (s : SlotEntry) :
    extentAt (slots ++ [s]) = Function.update (extentAt slots) slots.length s.extent? := by
  funext j
  rcases Nat.lt_trichotomy j slots.length with hj | rfl | hj
  · rw [Function.update_of_ne hj.ne, extentAt, List.getElem?_append_left hj]
    rfl
  · simp [extentAt]
  · rw [Function.update_of_ne hj.ne', extentAt, extentAt, List.getElem?_eq_none (by simpa using hj),
      List.getElem?_eq_none hj.le]

theorem extentAt_swap (hi : i < slots.length) (hj : j < slots.length) :
    extentAt (Page.swap slots i j) = extentAt slots ∘ Equiv.swap i j := by
  obtain ⟨a, ha⟩ : ∃ a, slots[i]? = some a := ⟨_, List.getElem?_eq_getElem hi⟩
  obtain ⟨b, hb⟩ : ∃ b, slots[j]? = some b := ⟨_, List.getElem?_eq_getElem hj⟩
  have hai : extentAt slots i = a.extent? := by simp [extentAt, ha]
  have hbj : extentAt slots j = b.extent? := by simp [extentAt, hb]
  simp only [Page.swap, ha, hb]
  rw [extentAt_set (by simpa using hj), extentAt_set hi]
  funext k
  by_cases hkj : k = j
  · simp [hkj, hai]
  · by_cases hki : k = i
    · subst hki
      simp [hkj, hbj]
    · simp [hkj, hki, Equiv.swap_apply_of_ne_of_ne hki hkj]

theorem getElem?_swap {a b : SlotEntry} (ha : slots[i]? = some a) (hb : slots[j]? = some b)
    (hij : i ≠ j) : (Page.swap slots i j)[i]? = some b := by
  have hi : i < slots.length := (List.getElem?_eq_some_iff.mp ha).1
  simp only [Page.swap, ha, hb]
  rw [List.getElem?_set_ne hij.symm, List.getElem?_set_self hi]

/-- The bytes that live slots hold in all. -/
def liveBytes (slots : List SlotEntry) : ℕ := (slots.map SlotEntry.length).sum

theorem liveBytes_set {s : SlotEntry} (h : slots[i]? = some s) (s' : SlotEntry) :
    liveBytes (slots.set i s') + s.length = liveBytes slots + s'.length := by
  induction slots generalizing i with
  | nil => cases h
  | cons t ts ih =>
    cases i with
    | zero =>
      obtain rfl : t = s := by simpa using h
      simp only [liveBytes, List.set_cons_zero, List.map_cons, List.sum_cons]
      omega
    | succ i =>
      have hrest := ih (i := i) (by simpa using h)
      simp only [liveBytes, List.set_cons_succ, List.map_cons, List.sum_cons] at hrest ⊢
      omega

theorem liveBytes_snoc (slots : List SlotEntry) (s : SlotEntry) :
    liveBytes (slots ++ [s]) = liveBytes slots + s.length := by
  simp [liveBytes]

theorem liveBytes_swap (hij : i ≠ j) : liveBytes (Page.swap slots i j) = liveBytes slots := by
  unfold Page.swap
  split
  · next a b ha hb =>
    have hset := liveBytes_set ha b
    have hb' : (slots.set i b)[j]? = some b := (List.getElem?_set_ne hij).trans hb
    have hset' := liveBytes_set hb' a
    omega
  · rfl

end Extents

namespace Page

/-! ## The invariant -/

/-- What every call that fits keeps: the records lie above `data_end`, which lies above the slot
directory, and `free_space` counts all bytes that are neither header, directory nor record. -/
structure WF (p : Page) (st : Stored) : Prop where
  size : p.data.length = PAGE_SIZE
  holds : Holds p.data p.header.dataEnd PAGE_SIZE (extentAt p.slots) st
  slotCount : p.header.numSlots = p.slots.length
  free : p.header.freeSpace = PAGE_SIZE - p.slotDirEnd - liveBytes p.slots
  free_nonneg : 0 ≤ p.header.freeSpace
  dirEnd_le : p.slotDirEnd ≤ p.header.dataEnd
  dataEnd_le : p.header.dataEnd ≤ PAGE_SIZE

theorem readRecord_eq (p : Page) (i : ℕ) :
    p.readRecord i = (extentAt p.slots i).map fun e => slice p.data e.offset e.stop := by
  unfold readRecord extentAt
  cases h : p.slots[i]? with
  | none => rfl
  | some s =>
    by_cases hs : s.length = 0 <;>
      simp [SlotEntry.extent?, SlotEntry.isDeleted_iff, hs, recordAt, Extent.stop]

theorem Live.extentAt {p : Page} {i : ℕ} {s : SlotEntry} (h : p.Live i s) :
    extentAt p.slots i = some ⟨s.offset, s.length⟩ :=
  extentAt_eq_some.mpr ⟨s, h.1, h.2, rfl⟩

/-- What a page keeps as long as no record is placed before the start of the buffer. -/
structure Laid (p : Page) (st : Stored) : Prop where
  size : p.data.length = PAGE_SIZE
  holds : Holds p.data p.header.dataEnd PAGE_SIZE (extentAt p.slots) st
  dataEnd_le : p.header.dataEnd ≤ PAGE_SIZE

theorem WF.laid {p : Page} {st : Stored} (h : p.WF st) : p.Laid st := ⟨h.size, h.holds, h.dataEnd_le⟩

theorem Laid.reads_eq {p : Page} {st : Stored} (h : p.Laid st) (i : ℕ) : p.readRecord i = st i := by
  rw [h.holds.reads i, readRecord_eq]

theorem WF.sound {p : Page} {st : Stored} (h : p.WF st) : p.Sound st where
  size := h.size
  inside i s hs := by
    have hin := h.holds.inside i _ hs.extentAt
    have hle := h.dirEnd_le
    simp only [Extent.stop] at hin
    omega
  apart i j s s' hij hs hs' := h.holds.apart i j _ _ hij hs.extentAt hs'.extentAt
  reads := h.laid.reads_eq

theorem length_data_new (pageId : ℕ) (pageType : PageType) :
    (new pageId pageType).data.length = PAGE_SIZE := by
  let header : PageHeader := { pageId, pageType }
  have hfit : (0 : ℤ) + header.pack.length ≤ (List.replicate PAGE_SIZE (0 : UInt8)).length := by
    rw [header.length_pack, List.length_replicate]
    decide
  have hset := length_setSlice le_rfl hfit
  rwa [header.length_pack, List.length_replicate, zero_add] at hset

theorem wf_new (pageId : ℕ) (pageType : PageType) : (new pageId pageType).WF fun _ => none where
  size := length_data_new pageId pageType
  holds := (Holds.empty ⟨show (0 : ℤ) ≤ PAGE_SIZE by decide, by rw [length_data_new]⟩).congr (fun _ => rfl) fun _ => rfl
  slotCount := rfl
  free := rfl
  free_nonneg := show (0 : ℤ) ≤ PAGE_SIZE - HEADER_SIZE by decide
  dirEnd_le := show (HEADER_SIZE + SLOT_SIZE * (0 : ℕ) : ℤ) ≤ PAGE_SIZE by decide
  dataEnd_le := le_rfl

theorem laid_new (pageId : ℕ) (pageType : PageType) : (new pageId pageType).Laid fun _ => none :=
  (wf_new pageId pageType).laid

/-! ## Every call that fits keeps the invariant -/

variable {p : Page} {st : Stored} {i : ℕ} {s : SlotEntry} {record : Bytes}

theorem Live.lt (h : p.Live i s) : i < p.slots.length := (List.getElem?_eq_some_iff.mp h.1).1

/-- The page after a successful delete. -/
def tombstone (p : Page) (i : ℕ) (s : SlotEntry) : Page :=
  { p with
    slots := p.slots.set i { offset := 0, length := 0 }
    header := { p.header with
      freeSpace := p.header.freeSpace + s.length
      flags := p.header.flags ||| DIRTY } }

theorem deleteRecord_of_live (h : p.Live i s) : p.deleteRecord i = (p.tombstone i s, true) := by
  simp [deleteRecord, h.1, SlotEntry.isDeleted_iff, h.2, tombstone]

theorem deleteRecord_of_not_live (h : ∀ s, ¬ p.Live i s) : p.deleteRecord i = (p, false) := by
  unfold deleteRecord
  cases hs : p.slots[i]? with
  | none => rfl
  | some s =>
    have hdel : s.length = 0 := not_not.mp fun hne => h s ⟨hs, hne⟩
    simp [SlotEntry.isDeleted_iff, hdel]

theorem Laid.tombstone (h : p.Laid st) (hs : p.Live i s) :
    (p.tombstone i s).Laid (Function.update st i none) where
  size := h.size
  holds := by
    have hext := extentAt_set hs.lt { offset := 0, length := 0 }
    rw [SlotEntry.extent?_of_deleted rfl] at hext
    exact (h.holds.erase i).congr (fun j => congrFun hext j) fun _ => rfl
  dataEnd_le := h.dataEnd_le

theorem WF.tombstone (h : p.WF st) (hs : p.Live i s) :
    (p.tombstone i s).WF (Function.update st i none) where
  size := h.size
  holds := (h.laid.tombstone hs).holds
  slotCount := by simp [Page.tombstone, h.slotCount]
  free := by
    have hlen := liveBytes_set hs.1 { offset := 0, length := 0 }
    have hfree := h.free
    simp only [Page.tombstone, slotDirEnd_eq] at hfree ⊢
    simp only at hlen
    omega
  free_nonneg := by
    have hfree := h.free_nonneg
    simp only [Page.tombstone]
    omega
  dirEnd_le := h.dirEnd_le
  dataEnd_le := h.dataEnd_le

/-- The page after a record is inserted into slot `i`, the first deleted one. -/
def reuse (p : Page) (record : Bytes) (i : ℕ) : Page :=
  let newDataEnd := p.header.dataEnd - record.length
  { data := setSlice p.data newDataEnd (newDataEnd + record.length) record
    slots := p.slots.set i { offset := newDataEnd, length := record.length }
    header := { p.header with
      dataEnd := newDataEnd
      freeSpace := p.header.freeSpace - record.length
      flags := p.header.flags ||| DIRTY } }

/-- The page after a record is inserted into a new slot. -/
def extend (p : Page) (record : Bytes) : Page :=
  let newDataEnd := p.header.dataEnd - record.length
  { data := setSlice p.data newDataEnd (newDataEnd + record.length) record
    slots := p.slots ++ [{ offset := newDataEnd, length := record.length }]
    header := { p.header with
      numSlots := p.header.numSlots + 1
      dataEnd := newDataEnd
      freeSpace := p.header.freeSpace - (record.length + SLOT_SIZE)
      flags := p.header.flags ||| DIRTY } }

theorem insertRecord_refused (h : ¬ record.length + SLOT_SIZE ≤ p.header.freeSpace) :
    p.insertRecord record = (p, none) := by
  simp [insertRecord, not_le.mp h]

theorem insertRecord_reuse (h : record.length + SLOT_SIZE ≤ p.header.freeSpace)
    (hi : p.slots.findIdx? SlotEntry.isDeleted = some i) :
    p.insertRecord record = (p.reuse record i, some i) := by
  simp [insertRecord, not_lt.mpr h, hi, reuse]

theorem insertRecord_extend (h : record.length + SLOT_SIZE ≤ p.header.freeSpace)
    (hi : p.slots.findIdx? SlotEntry.isDeleted = none) :
    p.insertRecord record = (p.extend record, some p.slots.length) := by
  simp [insertRecord, not_lt.mpr h, hi, extend]

theorem Laid.reuse (h : p.Laid st) (hrec : record ≠ []) (hlt : i < p.slots.length)
    (hroom : 0 ≤ p.header.dataEnd - record.length) :
    (p.reuse record i).Laid (Function.update st i (some record)) := by
  have hle := h.dataEnd_le
  have hput := h.holds.putBelow i record hroom hle
  refine ⟨?_, ?_, ?_⟩
  · rw [← h.size]
    exact length_setSlice hroom (by rw [h.size]; omega)
  · have hext := extentAt_set hlt { offset := p.header.dataEnd - record.length, length := record.length }
    rw [SlotEntry.extent?_of_live (by simpa using hrec)] at hext
    exact hput.congr (fun j => congrFun hext j) fun _ => rfl
  · simp only [Page.reuse]
    omega

theorem Laid.extend (h : p.Laid st) (hrec : record ≠ [])
    (hroom : 0 ≤ p.header.dataEnd - record.length) :
    (p.extend record).Laid (Function.update st p.slots.length (some record)) := by
  have hle := h.dataEnd_le
  have hput := h.holds.putBelow p.slots.length record hroom hle
  refine ⟨?_, ?_, ?_⟩
  · rw [← h.size]
    exact length_setSlice hroom (by rw [h.size]; omega)
  · have hext := extentAt_snoc p.slots
      { offset := p.header.dataEnd - record.length, length := record.length }
    rw [SlotEntry.extent?_of_live (by simpa using hrec)] at hext
    exact hput.congr (fun j => congrFun hext j) fun _ => rfl
  · simp only [Page.extend]
    omega

theorem WF.reuse (h : p.WF st) (hrec : record ≠ []) (hs : p.slots[i]? = some s)
    (hdel : s.length = 0) (hadm : record.length + SLOT_SIZE ≤ p.header.freeSpace)
    (hfit : p.slotDirEnd ≤ p.header.dataEnd - record.length) :
    (p.reuse record i).WF (Function.update st i (some record)) := by
  have hlt : i < p.slots.length := (List.getElem?_eq_some_iff.mp hs).1
  rw [slotDirEnd_eq] at hfit
  have hlaid := h.laid.reuse hrec hlt (by omega)
  refine ⟨hlaid.size, hlaid.holds, ?_, ?_, ?_, ?_, hlaid.dataEnd_le⟩
  · simp [Page.reuse, h.slotCount]
  · have hlen := liveBytes_set hs
      { offset := p.header.dataEnd - record.length, length := record.length }
    have hfree := h.free
    simp only [Page.reuse, slotDirEnd_eq] at hfree ⊢
    simp only [hdel] at hlen
    omega
  · simp only [Page.reuse, SLOT_SIZE] at hadm ⊢
    omega
  · simpa only [Page.reuse, slotDirEnd_eq] using hfit

theorem WF.extend (h : p.WF st) (hrec : record ≠ [])
    (hadm : record.length + SLOT_SIZE ≤ p.header.freeSpace)
    (hfit : p.slotDirEnd + SLOT_SIZE ≤ p.header.dataEnd - record.length) :
    (p.extend record).WF (Function.update st p.slots.length (some record)) := by
  rw [slotDirEnd_eq] at hfit
  have hlaid := h.laid.extend hrec (by omega)
  refine ⟨hlaid.size, hlaid.holds, ?_, ?_, ?_, ?_, hlaid.dataEnd_le⟩
  · simp [Page.extend, h.slotCount]
  · have hfree := h.free
    simp only [Page.extend, slotDirEnd_eq, liveBytes_snoc, SLOT_SIZE] at hfree ⊢
    push_cast
    omega
  · simp only [Page.extend]
    omega
  · simp only [Page.extend, slotDirEnd_eq, SLOT_SIZE] at hfit ⊢
    push_cast at hfit ⊢
    omega

/-- Exchanging two slots exchanges what they hold. -/
theorem Laid.swap (h : p.Laid st) {j : ℕ} (hi : i < p.slots.length) (hj : j < p.slots.length) :
    Laid { p with slots := swap p.slots i j } (st ∘ Equiv.swap i j) where
  size := h.size
  holds := (h.holds.comp (Equiv.swap i j)).congr (fun k => congrFun (extentAt_swap hi hj) k)
    fun _ => rfl
  dataEnd_le := h.dataEnd_le

theorem WF.swap (h : p.WF st) {j : ℕ} (hij : i ≠ j) (hi : i < p.slots.length)
    (hj : j < p.slots.length) :
    WF { p with slots := swap p.slots i j } (st ∘ Equiv.swap i j) where
  size := h.size
  holds := (h.laid.swap hi hj).holds
  slotCount := by
    have hlen : (Page.swap p.slots i j).length = p.slots.length := by
      unfold Page.swap
      split <;> simp
    exact h.slotCount.trans hlen.symm
  free := by rw [liveBytes_swap hij]; exact h.free
  free_nonneg := h.free_nonneg
  dirEnd_le := h.dirEnd_le
  dataEnd_le := h.dataEnd_le

theorem Laid.stored_of_deleted (h : p.Laid st) (hs : p.slots[i]? = some s) (hdel : s.length = 0) :
    st i = none := by
  rw [h.holds.reads i, extentAt, hs, Option.bind_some, SlotEntry.extent?_of_deleted hdel,
    Option.map_none]

/-- The first deleted slot. -/
theorem deleted_of_findIdx? (hi : p.slots.findIdx? SlotEntry.isDeleted = some i) :
    ∃ s, p.slots[i]? = some s ∧ s.length = 0 := by
  obtain ⟨hlt, hdel, -⟩ := List.findIdx?_eq_some_iff_getElem.mp hi
  exact ⟨_, List.getElem?_eq_getElem hlt, SlotEntry.isDeleted_iff.mp hdel⟩

theorem any_isDeleted (p : Page) :
    p.slots.any SlotEntry.isDeleted = (p.slots.findIdx? SlotEntry.isDeleted).isSome :=
  List.findIdx?_isSome.symm

theorem WF.insert (h : p.WF st) (hrec : record ≠ []) (hfits : p.Fits (.insert record)) :
    (p.insertRecord record).1.WF
      (st.record ⟨p, .insert record, .slot (p.insertRecord record).2⟩) := by
  by_cases hadm : record.length + SLOT_SIZE ≤ p.header.freeSpace
  · have hfit := hfits hadm
    rw [dirEndAfterInsert, any_isDeleted] at hfit
    cases hi : p.slots.findIdx? SlotEntry.isDeleted with
    | some i =>
      obtain ⟨s, hs, hdel⟩ := deleted_of_findIdx? hi
      rw [insertRecord_reuse hadm hi]
      exact h.reuse hrec hs hdel hadm (by simpa [hi] using hfit)
    | none =>
      rw [insertRecord_extend hadm hi]
      exact h.extend hrec hadm (by simpa [hi] using hfit)
  · rw [insertRecord_refused hadm]
    exact h

/-- The page after a record that does not grow is written over the one in slot `i`. -/
def overwrite (p : Page) (i : ℕ) (s : SlotEntry) (record : Bytes) : Page :=
  { data := setSlice p.data s.offset (s.offset + record.length) record
    slots := p.slots.set i { offset := s.offset, length := record.length }
    header := { p.header with
      freeSpace := p.header.freeSpace + (s.length - record.length)
      flags := p.header.flags ||| DIRTY } }

theorem updateRecord_shrink (hs : p.Live i s) (hle : record.length ≤ s.length) :
    p.updateRecord i record = (p.overwrite i s record, true) := by
  simp [updateRecord, hs.1, SlotEntry.isDeleted_iff, hs.2, hle, overwrite]

theorem updateRecord_of_not_live (h : ∀ s, ¬ p.Live i s) : p.updateRecord i record = (p, false) := by
  unfold updateRecord
  cases hs : p.slots[i]? with
  | none => rfl
  | some s =>
    have hdel : s.length = 0 := not_not.mp fun hne => h s ⟨hs, hne⟩
    simp [SlotEntry.isDeleted_iff, hdel]

theorem Laid.overwrite (h : p.Laid st) (hrec : record ≠ []) (hs : p.Live i s)
    (hle : record.length ≤ s.length) :
    (p.overwrite i s record).Laid (Function.update st i (some record)) := by
  have hlo : p.header.dataEnd ≤ s.offset := (h.holds.inside i _ hs.extentAt).1
  have hhi : s.offset + s.length ≤ PAGE_SIZE := (h.holds.inside i _ hs.extentAt).2
  have hwin := h.holds.window
  have hput := h.holds.put i record hlo (by omega) (by
    intro j e hj he
    have hdis := h.holds.apart j i e _ hj he hs.extentAt
    simp only [Extent.Disjoint, Extent.stop] at hdis ⊢
    omega)
  refine ⟨?_, ?_, h.dataEnd_le⟩
  · rw [← h.size]
    exact length_setSlice (by omega) (by omega)
  · have hext := extentAt_set hs.lt { offset := s.offset, length := record.length }
    rw [SlotEntry.extent?_of_live (by simpa using hrec)] at hext
    exact hput.congr (fun j => congrFun hext j) fun _ => rfl

/-- An update that is not refused: in place if the record does not grow. -/
theorem WF.shrink (h : p.WF st) (hrec : record ≠ []) (hs : p.Live i s)
    (hle : record.length ≤ s.length) : (p.updateRecord i record).1.WF
      (st.record ⟨p, .update i record, .bool (p.updateRecord i record).2⟩) := by
  have hlaid := h.laid.overwrite hrec hs hle
  rw [updateRecord_shrink hs hle]
  refine ⟨hlaid.size, hlaid.holds, ?_, ?_, ?_, h.dirEnd_le, h.dataEnd_le⟩
  · simp [Page.overwrite, h.slotCount]
  · have hlen := liveBytes_set hs.1 { offset := s.offset, length := record.length }
    have hfree := h.free
    simp only [Page.overwrite, slotDirEnd_eq] at hfree hlen ⊢
    omega
  · have hfree := h.free_nonneg
    simp only [Page.overwrite]
    omega

theorem swap_update {k : ℕ} (hki : k ≠ i) (hk : st k = none) :
    (Function.update (Function.update st i none) k (some record)) ∘ Equiv.swap i k =
      Function.update st i (some record) := by
  funext j
  by_cases hji : j = i
  · simp [hji]
  by_cases hjk : j = k
  · subst hjk
    simp [hji, hk, Ne.symm hji]
  · simp [Equiv.swap_apply_of_ne_of_ne hji hjk, hji, hjk]

/-- A growing update deletes the old record, inserts the new one into the first deleted slot and
exchanges the slots. -/
theorem updateRecord_grow (hs : p.Live i s) (hlt : s.length < record.length)
    (hadm : record.length + SLOT_SIZE ≤ p.header.freeSpace + s.length) :
    ∃ k t, (p.tombstone i s).slots[k]? = some t ∧ t.length = 0 ∧ p.updateRecord i record =
      (if k ≠ i then { (p.tombstone i s).reuse record k with
        slots := Page.swap ((p.tombstone i s).reuse record k).slots i k }
      else (p.tombstone i s).reuse record k, true) := by
  have hti : (p.tombstone i s).slots[i]? = some { offset := 0, length := 0 } :=
    List.getElem?_set_self hs.lt
  obtain ⟨k, hk⟩ : ∃ k, (p.tombstone i s).slots.findIdx? SlotEntry.isDeleted = some k := by
    rw [← Option.isSome_iff_exists, List.findIdx?_isSome, List.any_eq_true]
    exact ⟨_, List.mem_of_getElem? hti, rfl⟩
  obtain ⟨t, ht, hdel⟩ := deleted_of_findIdx? hk
  have hins : (p.tombstone i s).insertRecord record = ((p.tombstone i s).reuse record k, some k) :=
    insertRecord_reuse hadm hk
  refine ⟨k, t, ht, hdel, ?_⟩
  simp only [updateRecord, hs.1, SlotEntry.isDeleted_iff, hs.2, not_le.mpr hlt, if_false,
    deleteRecord_of_live hs, hins]
  split <;> rfl

theorem updateRecord_refused (hs : p.Live i s) (hlt : s.length < record.length)
    (hadm : ¬ record.length + SLOT_SIZE ≤ p.header.freeSpace + s.length) :
    p.updateRecord i record = (p.tombstone i s, false) := by
  have hins : (p.tombstone i s).insertRecord record = (p.tombstone i s, none) :=
    insertRecord_refused hadm
  simp only [updateRecord, hs.1, SlotEntry.isDeleted_iff, hs.2, not_le.mpr hlt, if_false,
    deleteRecord_of_live hs, hins]

/-- An invariant that reusing a deleted slot establishes and an exchange of slots keeps holds after a
growing update. -/
theorem invariant_grow {Inv : Page → Stored → Prop} (h : p.Laid st) (hs : p.Live i s)
    (hlt : s.length < record.length)
    (hadm : record.length + SLOT_SIZE ≤ p.header.freeSpace + s.length)
    (hreuse : ∀ k t, (p.tombstone i s).slots[k]? = some t → t.length = 0 →
      Inv ((p.tombstone i s).reuse record k)
        (Function.update (Function.update st i none) k (some record)))
    (hswap : ∀ (q : Page) (st' : Stored) (k : ℕ), Inv q st' → i ≠ k → i < q.slots.length →
      k < q.slots.length → Inv { q with slots := Page.swap q.slots i k } (st' ∘ Equiv.swap i k)) :
    Inv (p.updateRecord i record).1 (Function.update st i (some record)) := by
  obtain ⟨k, t, ht, hdel, hupdate⟩ := updateRecord_grow hs hlt hadm
  have hinv := hreuse k t ht hdel
  rw [hupdate]
  split
  · next hki =>
    have hlen : ((p.tombstone i s).reuse record k).slots.length = p.slots.length := by
      simp [Page.reuse, Page.tombstone]
    have hklt : k < p.slots.length := by
      have := (List.getElem?_eq_some_iff.mp ht).1
      simpa [Page.tombstone] using this
    have hnone : st k = none := by
      refine h.stored_of_deleted ?_ hdel
      rwa [Page.tombstone, List.getElem?_set_ne (Ne.symm hki)] at ht
    have hswapped := hswap _ _ k hinv (Ne.symm hki) (hlen ▸ hs.lt) (hlen ▸ hklt)
    rwa [swap_update hki hnone] at hswapped
  · next hki =>
    obtain rfl : k = i := not_not.mp hki
    rwa [Function.update_idem] at hinv

/-- After a growing update slot `i` points to the place below the old `data_end`. -/
theorem slot_grow (hs : p.Live i s) (hlt : s.length < record.length)
    (hadm : record.length + SLOT_SIZE ≤ p.header.freeSpace + s.length) :
    (p.updateRecord i record).1.slots[i]? =
      some ⟨p.header.dataEnd - record.length, record.length⟩ := by
  obtain ⟨k, t, ht, -, hupdate⟩ := updateRecord_grow hs hlt hadm
  have hklt : k < p.slots.length := by
    have := (List.getElem?_eq_some_iff.mp ht).1
    simpa [Page.tombstone] using this
  have hslot : ((p.tombstone i s).reuse record k).slots[k]? =
      some ⟨p.header.dataEnd - record.length, record.length⟩ :=
    List.getElem?_set_self (by simpa [Page.tombstone] using hklt)
  rw [hupdate]
  split
  · next hki =>
    have hi : ((p.tombstone i s).reuse record k).slots[i]? = some ⟨0, 0⟩ :=
      (List.getElem?_set_ne hki).trans (List.getElem?_set_self hs.lt)
    exact getElem?_swap hi hslot (Ne.symm hki)
  · next hki =>
    obtain rfl : k = i := not_not.mp hki
    exact hslot

theorem reply_grow (hs : p.Live i s) (hlt : s.length < record.length)
    (hadm : record.length + SLOT_SIZE ≤ p.header.freeSpace + s.length) :
    (p.updateRecord i record).2 = true := by
  obtain ⟨k, t, -, -, hupdate⟩ := updateRecord_grow hs hlt hadm
  rw [hupdate]

theorem WF.grow (h : p.WF st) (hrec : record ≠ []) (hs : p.Live i s)
    (hlt : s.length < record.length) (hfits : p.Fits (.update i record)) :
    (p.updateRecord i record).1.WF
      (st.record ⟨p, .update i record, .bool (p.updateRecord i record).2⟩) := by
  obtain ⟨hadm, hfit⟩ := hfits s hs hlt
  rw [reply_grow hs hlt hadm]
  exact invariant_grow h.laid hs hlt hadm
    (fun k t ht hdel => (h.tombstone hs).reuse hrec ht hdel hadm hfit)
    fun q st' k hq hik hi hk => hq.swap hik hi hk

/-! ## Compaction -/

theorem mem_liveRecords {i : ℕ} {record : Bytes} :
    (i, record) ∈ p.liveRecords ↔ ∃ s, p.Live i s ∧ p.recordAt s = record := by
  simp only [liveRecords, List.mem_filterMap, Prod.exists, List.mem_zipIdx_iff_getElem?, Live]
  constructor
  · rintro ⟨s, j, hs, heq⟩
    split at heq
    · cases heq
    · next hdel =>
      cases heq
      exact ⟨s, ⟨hs, by simpa [SlotEntry.isDeleted_iff] using hdel⟩, rfl⟩
  · rintro ⟨s, ⟨hs, hlen⟩, rfl⟩
    exact ⟨s, i, hs, by simp [SlotEntry.isDeleted_iff, hlen]⟩

theorem nodup_liveRecords (p : Page) : (p.liveRecords.map Prod.fst).Nodup := by
  have hidx : (p.slots.zipIdx.map Prod.snd).Nodup := by
    rw [List.zipIdx_map_snd]
    exact List.nodup_range'
  rw [List.Nodup, List.pairwise_map] at hidx ⊢
  rw [liveRecords, List.pairwise_filterMap]
  refine hidx.imp ?_
  rintro ⟨s, i⟩ ⟨s', i'⟩ hne ⟨j, r⟩ hj ⟨j', r'⟩ hj'
  have hsnd : ∀ {t : SlotEntry} {k j : ℕ} {r : Bytes},
      (if t.isDeleted then none else some (k, p.recordAt t)) = some (j, r) → k = j := by
    intro t k j r heq
    split at heq
    · cases heq
    · exact (Prod.mk.inj (Option.some.inj heq)).1
  rwa [hsnd hj, hsnd hj'] at hne

theorem sum_liveRecords (h : ∀ s ∈ p.slots, s.length ≠ 0 → (p.recordAt s).length = s.length) :
    (p.liveRecords.map fun live => live.2.length).sum = liveBytes p.slots := by
  have aux : ∀ (slots : List SlotEntry) (n : ℕ),
      (∀ s ∈ slots, s.length ≠ 0 → (p.recordAt s).length = s.length) →
      (((slots.zipIdx n).filterMap fun x : SlotEntry × ℕ =>
        if x.1.isDeleted then none else some (x.2, p.recordAt x.1)).map
          fun live => live.2.length).sum =
        liveBytes slots := by
    intro slots
    induction slots with
    | nil => intros; rfl
    | cons s slots ih =>
      intro n hlen
      have hrest := ih (n + 1) fun t ht => hlen t (List.mem_cons_of_mem _ ht)
      rw [List.zipIdx_cons, List.filterMap_cons]
      by_cases hs : s.length = 0
      · simpa [SlotEntry.isDeleted_iff, hs, liveBytes] using hrest
      · simpa [SlotEntry.isDeleted_iff, hs, liveBytes, hlen s List.mem_cons_self hs] using hrest
  exact aux p.slots 0 h

/-- A family cut down to the indices in a list. -/
def restrict {β : Type*} (is : List ℕ) (f : ℕ → Option β) (i : ℕ) : Option β :=
  if i ∈ is then f i else none

theorem restrict_snoc {β : Type*} (is : List ℕ) (f : ℕ → Option β) (i j : ℕ) :
    restrict (is ++ [i]) f j = Function.update (restrict is f) i (f i) j := by
  by_cases hj : j = i
  · simp [restrict, hj]
  · by_cases hmem : j ∈ is <;> simp [restrict, hj, hmem]

theorem restrict_update {β : Type*} {is : List ℕ} {i : ℕ} (hi : i ∉ is) (f : ℕ → Option β)
    (b : Option β) : restrict is (Function.update f i b) = restrict is f := by
  funext j
  by_cases hj : j = i
  · simp [restrict, hj, hi]
  · simp [restrict, hj]

/-- The page in the middle of a compaction: the records `done` are packed at its end. -/
structure Compacting (p : Page) (st : Stored) (done : List (ℕ × Bytes)) (q : Page) : Prop where
  size : q.data.length = PAGE_SIZE
  holds : Holds q.data q.header.dataEnd PAGE_SIZE
    (restrict (done.map Prod.fst) (extentAt q.slots)) (restrict (done.map Prod.fst) st)
  dataEnd : q.header.dataEnd + (done.map fun live => live.2.length).sum = PAGE_SIZE
  numSlots : q.header.numSlots = p.header.numSlots
  slotCount : q.slots.length = p.slots.length
  bytes : liveBytes q.slots = liveBytes p.slots
  rest : ∀ i ∉ done.map Prod.fst, q.slots[i]? = p.slots[i]?

theorem Compacting.place {done : List (ℕ × Bytes)} {q : Page} (h : Compacting p st done q)
    (hs : p.Live i s) (hlen : record.length = s.length) (hst : st i = some record)
    (hnew : i ∉ done.map Prod.fst) (hroom : 0 ≤ q.header.dataEnd - record.length) :
    Compacting p st (done ++ [(i, record)]) (q.place (i, record)) := by
  have hqi := (h.rest i hnew).trans hs.1
  have hlt : i < q.slots.length := (List.getElem?_eq_some_iff.mp hqi).1
  have hsum := h.dataEnd
  have hput := h.holds.putBelow i record hroom (by omega)
  refine ⟨?_, ?_, ?_, h.numSlots, ?_, ?_, ?_⟩
  · rw [← h.size]
    exact length_setSlice hroom (by rw [h.size]; omega)
  · have hext := extentAt_set hlt
      { offset := q.header.dataEnd - record.length, length := record.length }
    rw [SlotEntry.extent?_of_live (by rw [hlen]; exact hs.2)] at hext
    rw [List.map_append]
    refine hput.congr (fun j => (restrict_snoc _ _ i j).trans ?_)
      fun j => (restrict_snoc _ _ i j).trans (by rw [hst])
    simp only [Page.place, hext, restrict_update hnew, Function.update_self]
  · simp only [Page.place, List.map_append, List.sum_append, List.map_cons, List.map_nil,
      List.sum_singleton, Nat.cast_add]
    omega
  · simp [Page.place, h.slotCount]
  · have hset := liveBytes_set hqi
      { offset := q.header.dataEnd - record.length, length := record.length }
    simp only [hlen] at hset
    rw [← h.bytes]
    simpa [Page.place, hlen] using hset
  · intro j hj
    rw [List.map_append, List.mem_append, not_or] at hj
    have hji : j ≠ i := by simpa using hj.2
    exact (List.getElem?_set_ne hji.symm).trans (h.rest j hj.1)

theorem Laid.reads (h : p.Laid st) (hs : p.Live i s) : st i = some (p.recordAt s) := by
  rw [← h.reads_eq i, readRecord_of_live hs]

theorem Laid.length_recordAt (h : p.Laid st) (hs : p.Live i s) :
    (p.recordAt s).length = s.length := by
  obtain ⟨hlo, hhi⟩ := h.holds.inside i _ hs.extentAt
  have hlen := length_slice (h.holds.window.1.trans hlo)
    (show s.offset ≤ s.offset + s.length by omega) (by rw [h.size]; exact hhi)
  simp only at hlen
  rw [recordAt]
  omega

/-- The records are apart, so they can all be packed at the end of the page. -/
theorem Laid.liveBytes_le (h : p.Laid st) : liveBytes p.slots ≤ PAGE_SIZE := by
  have hsum := h.holds.sum_length_le h.dataEnd_le (Finset.range p.slots.length)
  have hlen : ∀ i : Fin p.slots.length,
      (extentAt p.slots i).elim 0 Extent.length = p.slots[i.val].length := by
    intro i
    rw [extentAt, List.getElem?_eq_getElem i.isLt, Option.bind_some]
    by_cases hs : p.slots[i.val].length = 0
    · rw [SlotEntry.extent?_of_deleted hs, hs, Option.elim_none]
    · rw [SlotEntry.extent?_of_live hs, Option.elim_some]
  rw [Finset.sum_range, Finset.sum_congr rfl fun i _ => hlen i,
    Fin.sum_univ_fun_getElem p.slots SlotEntry.length] at hsum
  have hwin := h.holds.window.1
  rw [liveBytes]
  omega

theorem Laid.sum_liveRecords (h : p.Laid st) :
    (p.liveRecords.map fun live => live.2.length).sum = liveBytes p.slots := by
  refine Page.sum_liveRecords fun s hmem hne => ?_
  obtain ⟨i, hi⟩ := List.mem_iff_getElem?.mp hmem
  exact h.length_recordAt ⟨hi, hne⟩

/-- All records that are still to be moved fit. -/
theorem Compacting.run {done todo : List (ℕ × Bytes)} {q : Page} (hlaid : p.Laid st)
    (h : Compacting p st done q) (hall : done ++ todo = p.liveRecords) :
    Compacting p st p.liveRecords (todo.foldl Page.place q) := by
  induction todo generalizing done q with
  | nil => simpa [← hall] using h
  | cons live todo ih =>
    obtain ⟨i, record⟩ := live
    have hmem : (i, record) ∈ p.liveRecords := hall ▸ List.mem_append_right done List.mem_cons_self
    obtain ⟨s, hs, rfl⟩ := mem_liveRecords.mp hmem
    have hnew : i ∉ done.map Prod.fst := by
      have hnd := p.nodup_liveRecords
      rw [← hall, List.map_append, List.map_cons] at hnd
      exact fun hi => (List.disjoint_of_nodup_append hnd) hi List.mem_cons_self
    have hroom : 0 ≤ q.header.dataEnd - (p.recordAt s).length := by
      have hsum := hlaid.sum_liveRecords
      have hle := hlaid.liveBytes_le
      have hend := h.dataEnd
      simp only [← hall, List.map_append, List.sum_append, List.map_cons, List.sum_cons] at hsum
      omega
    exact ih (h.place hs (hlaid.length_recordAt hs) (hlaid.reads hs) hnew hroom)
      (by simpa using hall)

/-- The page when the second loop of `compact` has ended. -/
def packed (p : Page) : Page :=
  p.liveRecords.foldl place { p with header := { p.header with dataEnd := PAGE_SIZE } }

theorem Laid.packed (h : p.Laid st) : Compacting p st p.liveRecords p.packed := by
  have hbegin : Compacting p st [] { p with header := { p.header with dataEnd := PAGE_SIZE } } :=
    { size := h.size
      holds := (Holds.empty ⟨show (0 : ℤ) ≤ PAGE_SIZE by decide, h.size ▸ le_rfl⟩).congr
        (fun _ => rfl) fun _ => rfl
      dataEnd := by simp
      numSlots := rfl
      slotCount := rfl
      bytes := rfl
      rest := fun _ _ => rfl }
  exact hbegin.run h (List.nil_append _)

theorem Laid.compact (h : p.Laid st) : p.compact.Laid st := by
  have hend := h.packed
  have hlive : ∀ i ∉ p.liveRecords.map Prod.fst, ∀ s, ¬ p.Live i s := fun i hi s hs =>
    hi (List.mem_map_of_mem (mem_liveRecords.mpr ⟨s, hs, rfl⟩))
  have hdata := hend.dataEnd
  refine ⟨hend.size, hend.holds.congr (fun i => ?_) fun i => ?_, ?_⟩
  · by_cases hi : i ∈ p.liveRecords.map Prod.fst
    · rw [restrict, if_pos hi]
      rfl
    · rw [restrict, if_neg hi]
      refine Option.eq_none_iff_forall_ne_some.mpr fun e he => ?_
      obtain ⟨s, hs, hne, -⟩ := extentAt_eq_some.mp he
      exact hlive i hi s ⟨(hend.rest i hi).symm.trans hs, hne⟩
  · by_cases hi : i ∈ p.liveRecords.map Prod.fst
    · simp [restrict, hi]
    · rw [restrict, if_neg hi, ← h.reads_eq i, readRecord_eq_none]
      exact hlive i hi
  · change p.packed.header.dataEnd ≤ PAGE_SIZE
    omega

theorem WF.compact (h : p.WF st) : p.compact.WF st := by
  have hlaid := h.laid.compact
  have hend := h.laid.packed
  have hdata := hend.dataEnd
  have hfree := h.free
  have hnonneg := h.free_nonneg
  rw [h.laid.sum_liveRecords] at hdata
  rw [slotDirEnd_eq] at hfree
  have hcount := h.slotCount
  have hbytes := hend.bytes
  have hslots := hend.numSlots
  have hcompact : p.compact = { p.packed with
      header := { p.packed.header with
        freeSpace := p.packed.header.dataEnd - (HEADER_SIZE + p.slots.length * SLOT_SIZE)
        flags := p.packed.header.flags ||| DIRTY } } := rfl
  rw [hcompact] at hlaid ⊢
  refine ⟨hlaid.size, hlaid.holds, ?_, ?_, ?_, ?_, hlaid.dataEnd_le⟩
  · simp only [hend.slotCount, hslots, hcount]
  · simp only [slotDirEnd_eq, hslots, hcount, hbytes, HEADER_SIZE, SLOT_SIZE]
    omega
  · simp only [HEADER_SIZE, SLOT_SIZE]
    omega
  · simp only [slotDirEnd_eq, hslots]
    omega

/-- The step lemma. -/
theorem WF.step (h : p.WF st) {call : PageCall} (hrec : ∀ record ∈ call.record?, record ≠ [])
    (hfits : p.Fits call) : (p.step call).1.WF (st.record ⟨p, call, (p.step call).2⟩) := by
  cases call with
  | insert record => exact h.insert (hrec record rfl) hfits
  | update i record =>
    by_cases hlive : ∃ s, p.Live i s
    · obtain ⟨s, hs⟩ := hlive
      by_cases hle : record.length ≤ s.length
      · exact h.shrink (hrec record rfl) hs hle
      · exact h.grow (hrec record rfl) hs (not_le.mp hle) hfits
    · rw [not_exists] at hlive
      simp only [Page.step, updateRecord_of_not_live hlive]
      exact h
  | delete i =>
    by_cases hlive : ∃ s, p.Live i s
    · obtain ⟨s, hs⟩ := hlive
      simp only [Page.step, deleteRecord_of_live hs]
      exact h.tombstone hs
    · rw [not_exists] at hlive
      simp only [Page.step, deleteRecord_of_not_live hlive]
      exact h
  | compact => exact h.compact

end Page

/-! ## Whole runs -/

section Runs

variable {pageId : ℕ} {pageType : PageType} {tr : List PageStep} {p : Page}

/-- The page is sound after every call of the run. -/
def SoundThroughout (tr : List PageStep) (p : Page) : Prop :=
  p.Sound (stored tr) ∧
    ∀ (n : ℕ) (e : PageStep), tr[n]? = some e → e.pre.Sound (stored (tr.take n))

theorem wf_of_fits (h : (pageMachine pageId pageType).Run tr p)
    (hfits : ∀ e ∈ tr, Page.Fits e.pre e.input) : p.WF (stored tr) := by
  induction h with
  | nil => exact Page.wf_new pageId pageType
  | @snoc tr p call hr hen ih =>
    have hprev := ih fun e he => hfits e (List.mem_append_left _ he)
    have hlast : p.Fits call := hfits _ (List.mem_append_right _ (List.mem_singleton_self _))
    rw [stored_snoc]
    exact hprev.step hen hlast

/-- A call that does not fit leaves a page that is not sound: the record it stores reaches into the
slot directory, or the record it was to replace is gone. -/
theorem fits_of_sound {p : Page} {st : Stored} {call : PageCall}
    (hrec : ∀ record ∈ call.record?, record ≠ []) (hpre : p.Sound st)
    (hpost : (p.step call).1.Sound (st.record ⟨p, call, (p.step call).2⟩)) : p.Fits call := by
  cases call with
  | delete i => trivial
  | compact => trivial
  | insert record =>
    intro hadm
    have hne : record.length ≠ 0 := by simpa using hrec record rfl
    rw [Page.dirEndAfterInsert, Page.any_isDeleted]
    cases hi : p.slots.findIdx? SlotEntry.isDeleted with
    | some i =>
      obtain ⟨s, hs, -⟩ := Page.deleted_of_findIdx? hi
      have hlt := (List.getElem?_eq_some_iff.mp hs).1
      rw [Page.step, Page.insertRecord_reuse hadm hi] at hpost
      have hin := (hpost.inside i _ ⟨List.getElem?_set_self hlt, hne⟩).1
      simpa [Page.slotDirEnd, Page.reuse] using hin
    | none =>
      rw [Page.step, Page.insertRecord_extend hadm hi] at hpost
      have hin := (hpost.inside p.slots.length _ ⟨List.getElem?_concat_length, hne⟩).1
      simp only [Page.slotDirEnd, Page.extend, Nat.cast_add, Nat.cast_one] at hin
      simp only [Page.slotDirEnd, Option.isSome_none, Bool.false_eq_true, if_false]
      linarith
  | update i record =>
    intro s hs hlt
    by_cases hadm : record.length + SLOT_SIZE ≤ p.header.freeSpace + s.length
    · refine ⟨hadm, ?_⟩
      have hin := (hpost.inside i ⟨p.header.dataEnd - record.length, record.length⟩
        ⟨Page.slot_grow hs hlt hadm, by simpa using hrec record rfl⟩).1
      obtain ⟨k, t, -, -, hupdate⟩ := Page.updateRecord_grow hs hlt hadm
      rw [Page.step, hupdate] at hin
      split at hin <;> exact hin
    · rw [Page.step, Page.updateRecord_refused hs hlt hadm] at hpost
      have hgone := hpost.reads i
      have hthere := hpre.reads i
      have hnone : (p.tombstone i s).readRecord i = none := by
        simp [Page.readRecord, Page.tombstone, List.getElem?_set_self hs.lt, SlotEntry.isDeleted]
      rw [Page.readRecord_of_live hs] at hthere
      change (p.tombstone i s).readRecord i = st i at hgone
      rw [hnone, ← hthere] at hgone
      cases hgone

/-- A page keeps its records in a run if and only if every call of the run fits. -/
theorem soundThroughout_iff (h : (pageMachine pageId pageType).Run tr p) :
    SoundThroughout tr p ↔ ∀ e ∈ tr, Page.Fits e.pre e.input := by
  constructor
  · rintro ⟨hlast, hmid⟩ e he
    obtain ⟨n, hn⟩ := List.mem_iff_getElem?.mp he
    obtain ⟨hr, hen, hev⟩ := h.event_at hn
    refine fits_of_sound hen (hmid n e hn) ?_
    have hst : (stored (tr.take n)).record e = stored (tr.take (n + 1)) := by
      rw [List.take_add_one, hn, Option.toList_some, stored_snoc]
    rw [← show e = ⟨e.pre, e.input, (e.pre.step e.input).2⟩ from hev, hst]
    rcases h.next hn with ⟨e', hn', hpre⟩ | ⟨hlen, hp⟩
    · have hsound := hmid (n + 1) e' hn'
      rwa [hpre] at hsound
    · rw [hlen, List.take_length]
      rwa [hp] at hlast
  · intro hfits
    refine ⟨(wf_of_fits h hfits).sound, fun n e hn => ?_⟩
    obtain ⟨hr, -, -⟩ := h.event_at hn
    exact (wf_of_fits hr fun x hx => hfits x (List.mem_of_mem_take hx)).sound

/-- Two records that fill the page, one of them deleted, and a record as long as the hole. -/
def refillHole : List PageCall :=
  [.insert (List.replicate 2000 1), .insert (List.replicate 2000 2), .delete 0,
    .insert (List.replicate 2000 3)]

theorem refillHole_run : (pageMachine 0 .heapData).Run
    ((pageMachine 0 .heapData).trace (Page.new 0 .heapData) refillHole)
    ((pageMachine 0 .heapData).exec (Page.new 0 .heapData) refillHole) :=
  Machine.run_of_legal (by decide)

theorem soundThroughout_iff_refillHole :
    SoundThroughout ((pageMachine 0 .heapData).trace (Page.new 0 .heapData) refillHole)
        ((pageMachine 0 .heapData).exec (Page.new 0 .heapData) refillHole) ↔
      ∀ e ∈ (pageMachine 0 .heapData).trace (Page.new 0 .heapData) refillHole,
        Page.Fits e.pre e.input :=
  soundThroughout_iff refillHole_run

theorem refillHole_not_sound : ¬ ∀ (tr : List PageStep) (p : Page),
    (pageMachine 0 .heapData).Run tr p → SoundThroughout tr p := by
  intro h
  have hslot : ((pageMachine 0 .heapData).exec (Page.new 0 .heapData) refillHole).slots[0]? =
      some ⟨-1904, 2000⟩ := by decide +kernel
  have hin := ((h _ _ refillHole_run).1.inside 0 _ ⟨hslot, by decide⟩).1
  rw [Page.slotDirEnd_eq] at hin
  simp only at hin
  omega

end Runs

end PySQL.Storage
