import PySQL.Storage.PageDelete
import PySQL.Storage.PageUpdate

/-!
# Updating intact pages

An update that fits keeps a page in the documented layout, and replaces the one record.
-/

namespace PySQL.Storage

open Lib

namespace Page

variable {p q : Page} {st : Stored} {i k : ℕ} {s : SlotEntry} {record : Bytes}

/-! ## The layout -/

theorem Intact.laid (h : p.Intact) : p.Laid p.readRecord := by
  have hlaid := h.layout.laid
  rwa [min_eq_left h.dataEnd_le] at hlaid

theorem Laid.layout (h : p.Laid st) (hdir : (slotOffset p.slots.length : ℤ) ≤ p.header.dataEnd) :
    p.Layout where
  size := h.size
  dirEnd := hdir
  inside i _ hs := h.holds.inside i _ hs.extentAt
  apart i j _ _ hij hs hs' := h.holds.apart i j _ _ hij hs.extentAt hs'.extentAt

theorem Intact.slotDirEnd_eq (h : p.Intact) : p.slotDirEnd = slotOffset p.slots.length := by
  rw [Page.slotDirEnd_eq, h.numSlots, slotOffset_eq]
  push_cast
  omega

/-- A record that fits is put into a deleted slot. -/
theorem Intact.reuse (h : p.Intact) (hrec : record ≠ []) (hs : p.slots[k]? = some s)
    (hdel : s.length = 0) (hadm : record.length + SLOT_SIZE ≤ p.header.freeSpace)
    (hfit : p.slotDirEnd ≤ p.header.dataEnd - record.length) : (p.reuse record k).Intact := by
  have hlt : k < p.slots.length := (List.getElem?_eq_some_iff.mp hs).1
  have hcount : (p.reuse record k).slots.length = p.slots.length := List.length_set
  have hbytes := liveBytes_set hs ⟨p.header.dataEnd - record.length, record.length⟩
  have hfree := h.free
  have hend := h.dataEnd_le
  have hpage : PAGE_SIZE = 4096 := rfl
  have hroom : 0 ≤ p.header.dataEnd - record.length := by
    rw [Page.slotDirEnd_eq] at hfit
    omega
  simp only [hdel, Nat.add_zero] at hbytes
  simp only [SLOT_SIZE] at hadm
  exact {
    layout := (h.laid.reuse hrec hlt hroom).layout (by
      rw [hcount, ← h.slotDirEnd_eq]
      exact hfit)
    header := { h.header with
      flags := Nat.or_lt_two_pow h.header.flags (by decide)
      freeSpace := by
        have := h.header.freeSpace
        simp only [Page.reuse]
        omega
      dataEnd := by
        simp only [Page.reuse]
        omega }
    numSlots := h.numSlots.trans hcount.symm
    slots := by
      intro t ht
      rcases List.mem_or_eq_of_mem_set ht with ht | rfl
      · exact h.slots t ht
      · simp only [SlotEntry.InRange]
        omega
    dataEnd_le := by
      simp only [Page.reuse]
      omega
    free := by
      simp only [Page.reuse]
      omega }

theorem mem_swap {slots : List SlotEntry} (h : s ∈ swap slots i k) : s ∈ slots := by
  unfold swap at h
  split at h
  · next a b ha hb =>
    rcases List.mem_or_eq_of_mem_set h with h | rfl
    · rcases List.mem_or_eq_of_mem_set h with h | rfl
      · exact h
      · exact List.mem_of_getElem? hb
    · exact List.mem_of_getElem? ha
  · exact h

theorem length_swap (slots : List SlotEntry) : (swap slots i k).length = slots.length := by
  unfold swap
  split <;> simp

theorem Intact.swap (h : p.Intact) (hik : i ≠ k) (hi : i < p.slots.length)
    (hk : k < p.slots.length) : Intact { p with slots := swap p.slots i k } where
  layout := (h.laid.swap hi hk).layout (by
    rw [length_swap]
    exact h.layout.dirEnd)
  header := h.header
  numSlots := h.numSlots.trans (length_swap _).symm
  slots t ht := h.slots t (mem_swap ht)
  dataEnd_le := h.dataEnd_le
  free := by
    rw [liveBytes_swap hik]
    exact h.free

theorem Intact.overwrite (h : p.Intact) (hrec : record ≠ []) (hs : p.Live i s)
    (hle : record.length ≤ s.length) : (p.overwrite i s record).Intact := by
  have hcount : (p.overwrite i s record).slots.length = p.slots.length := List.length_set
  have hbytes := liveBytes_set hs.1 ⟨s.offset, record.length⟩
  have hfree := h.free
  have hpage : PAGE_SIZE = 4096 := rfl
  have hin := h.layout.inside i s hs
  have hend := h.header.dataEnd
  simp only at hbytes
  exact {
    layout := (h.laid.overwrite hrec hs hle).layout (by
      rw [hcount]
      exact h.layout.dirEnd)
    header := { h.header with
      flags := Nat.or_lt_two_pow h.header.flags (by decide)
      freeSpace := by
        have := h.header.freeSpace
        simp only [Page.overwrite]
        omega }
    numSlots := h.numSlots.trans hcount.symm
    slots := by
      intro t ht
      rcases List.mem_or_eq_of_mem_set ht with ht | rfl
      · exact h.slots t ht
      · simp only [SlotEntry.InRange]
        omega
    dataEnd_le := h.dataEnd_le
    free := by
      simp only [Page.overwrite]
      omega }

/-! ## The page after an update -/

/-- An update that fits is not refused, and keeps the page intact and the number of its slots. -/
theorem Intact.update (h : p.Intact) (hrec : record ≠ []) (hs : p.Live i s)
    (hfits : p.Fits (.update i record)) : (p.updateRecord i record).2 = true ∧
      (p.updateRecord i record).1.Intact ∧
      (p.updateRecord i record).1.slots.length = p.slots.length := by
  by_cases hle : record.length ≤ s.length
  · rw [updateRecord_shrink hs hle]
    exact ⟨rfl, h.overwrite hrec hs hle, List.length_set⟩
  · have hlt : s.length < record.length := not_le.mp hle
    obtain ⟨hadm, hfit⟩ := hfits s hs hlt
    refine ⟨reply_grow hs hlt hadm, ?_⟩
    let Inv : Page → Stored → Prop := fun q _ => q.Intact ∧ q.slots.length = p.slots.length
    show Inv (p.updateRecord i record).1 (Function.update p.readRecord i (some record))
    refine invariant_grow h.laid hs hlt hadm ?_ ?_
    · intro k t ht hdel
      exact ⟨(h.tombstone hs).reuse hrec ht hdel hadm hfit,
        List.length_set.trans List.length_set⟩
    · rintro q st' k ⟨hq, hlen⟩ hik hi hk
      exact ⟨hq.swap hik hi hk, (length_swap _).trans hlen⟩

theorem Intact.updateExact (h : p.Intact) (hrec : record ≠ [])
    (hfits : p.Fits (.update i record)) : p.UpdateExact i record := by
  refine h.laid.updateExact_of_replaceable fun s hs => ⟨hrec, fun hlt => ?_⟩
  obtain ⟨hadm, hfit⟩ := hfits s hs hlt
  rw [Page.slotDirEnd_eq] at hfit
  exact ⟨hadm, by omega⟩

theorem liveFrom_eq_reads {f : SlotEntry → Bytes} {slots : List SlotEntry} {k : ℕ} :
    liveFrom f k slots = (List.range' k slots.length).filterMap fun i =>
      (slots[i - k]?).bind fun s => if s.isDeleted then none else some (i, f s) := by
  induction slots generalizing k with
  | nil => rfl
  | cons s slots ih =>
    have hrest : (List.range' (k + 1) slots.length).filterMap (fun i =>
        ((s :: slots)[i - k]?).bind fun s => if s.isDeleted then none else some (i, f s)) =
        liveFrom f (k + 1) slots := by
      rw [ih]
      refine List.filterMap_congr fun i hi => ?_
      obtain ⟨j, hj, rfl⟩ := List.mem_range'.mp hi
      rw [show k + 1 + 1 * j - k = j + 1 by omega, List.getElem?_cons_succ,
        show k + 1 + 1 * j - (k + 1) = j by omega]
    rw [List.length_cons, List.range'_succ, List.filterMap_cons, hrest, Nat.sub_self,
      List.getElem?_cons_zero, Option.bind_some]
    by_cases hdel : s.isDeleted = true
    · rw [liveFrom_cons_deleted hdel, if_pos hdel]
    · rw [Bool.not_eq_true] at hdel
      rw [liveFrom_cons_live hdel, if_neg (by simp [hdel])]

/-- The live records, slot by slot. -/
theorem liveRecords_eq_reads (p : Page) : p.liveRecords =
    (List.range p.slots.length).filterMap fun i => (p.readRecord i).map fun r => (i, r) := by
  rw [liveRecords_eq, liveFrom_eq_reads, List.range_eq_range']
  refine List.filterMap_congr fun i _ => ?_
  rw [Nat.sub_zero, readRecord]
  cases p.slots[i]? with
  | none => rfl
  | some s => cases hdel : s.isDeleted <;> simp [hdel]

/-- The other records stay, in their order. -/
theorem Intact.liveRecords_update (h : p.Intact) (hrec : record ≠ []) (hs : p.Live i s)
    (hfits : p.Fits (.update i record)) : (p.updateRecord i record).1.liveRecords =
      p.liveRecords.map fun r => if r.1 = i then (i, record) else r := by
  obtain ⟨hreply, -, hcount⟩ := h.update hrec hs hfits
  have hexact := h.updateExact hrec hfits
  rw [UpdateExact, if_pos hreply] at hexact
  rw [liveRecords_eq_reads, liveRecords_eq_reads, hcount, List.map_filterMap]
  refine List.filterMap_congr fun j _ => ?_
  rw [Option.map_map]
  by_cases hj : j = i
  · subst hj
    rw [hexact.1, readRecord_of_live hs]
    simp
  · rw [hexact.2 j hj]
    cases p.readRecord j <;> simp [hj]

theorem pageId_insertRecord (p : Page) (record : Bytes) :
    (p.insertRecord record).1.header.pageId = p.header.pageId := by
  by_cases hadm : record.length + SLOT_SIZE ≤ p.header.freeSpace
  · cases hi : p.slots.findIdx? SlotEntry.isDeleted with
    | some k => rw [insertRecord_reuse hadm hi, Page.reuse]
    | none => rw [insertRecord_extend hadm hi, Page.extend]
  · rw [insertRecord_refused hadm]

theorem pageId_updateRecord (p : Page) (i : ℕ) (record : Bytes) :
    (p.updateRecord i record).1.header.pageId = p.header.pageId := by
  have hdelete : (p.deleteRecord i).1.header.pageId = p.header.pageId := by
    unfold deleteRecord
    split
    · split <;> rfl
    · rfl
  have hboth := (pageId_insertRecord (p.deleteRecord i).1 record).trans hdelete
  unfold updateRecord
  split
  · split
    · rfl
    · split
      · rfl
      · split
        · next p' j heq =>
          rw [heq] at hboth
          split <;> exact hboth
        · next p' heq =>
          rw [heq] at hboth
          exact hboth
  · rfl

/-! ## What decides whether an update fits -/

/-- The slots and counters, which alone decide where a record is put. -/
structure SameShape (q p : Page) : Prop where
  slots : q.slots = p.slots
  freeSpace : q.header.freeSpace = p.header.freeSpace
  dataEnd : q.header.dataEnd = p.header.dataEnd
  numSlots : q.header.numSlots = p.header.numSlots

theorem SameShape.refl (p : Page) : p.SameShape p := ⟨rfl, rfl, rfl, rfl⟩

theorem SameShape.of_contents (h : q.contents = p.contents) : q.SameShape p where
  slots := congrArg (fun c => c.2.1) h
  freeSpace := congrArg (fun c => c.1.freeSpace) h
  dataEnd := congrArg (fun c => c.1.dataEnd) h
  numSlots := congrArg (fun c => c.1.numSlots) h

theorem SameShape.trans {r : Page} (h : r.SameShape q) (h' : q.SameShape p) : r.SameShape p where
  slots := h.slots.trans h'.slots
  freeSpace := h.freeSpace.trans h'.freeSpace
  dataEnd := h.dataEnd.trans h'.dataEnd
  numSlots := h.numSlots.trans h'.numSlots

theorem SameShape.fits (h : q.SameShape p) (hfits : p.Fits (.update i record)) :
    q.Fits (.update i record) := by
  intro s hs hlt
  have hs' : p.Live i s := ⟨h.slots ▸ hs.1, hs.2⟩
  rw [h.freeSpace, h.dataEnd, Page.slotDirEnd, h.numSlots]
  exact hfits s hs' hlt

theorem SameShape.insertRecord (h : q.SameShape p) (record : Bytes) :
    (q.insertRecord record).1.SameShape (p.insertRecord record).1 ∧
      (q.insertRecord record).2 = (p.insertRecord record).2 := by
  by_cases hadm : record.length + SLOT_SIZE ≤ p.header.freeSpace
  · have hadm' : record.length + SLOT_SIZE ≤ q.header.freeSpace := h.freeSpace ▸ hadm
    cases hi : p.slots.findIdx? SlotEntry.isDeleted with
    | some k =>
      rw [insertRecord_reuse hadm hi, insertRecord_reuse hadm' (h.slots ▸ hi)]
      refine ⟨⟨?_, congrArg (· - _) h.freeSpace, congrArg (· - _) h.dataEnd, h.numSlots⟩, rfl⟩
      simp only [Page.reuse, h.slots, h.dataEnd]
    | none =>
      rw [insertRecord_extend hadm hi, insertRecord_extend hadm' (h.slots ▸ hi)]
      refine ⟨⟨?_, congrArg (· - _) h.freeSpace, congrArg (· - _) h.dataEnd,
        congrArg (· + 1) h.numSlots⟩, ?_⟩
      · simp only [Page.extend, h.slots, h.dataEnd]
      · simp only [h.slots]
  · have hadm' : ¬ record.length + SLOT_SIZE ≤ q.header.freeSpace := h.freeSpace ▸ hadm
    rw [insertRecord_refused hadm, insertRecord_refused hadm']
    exact ⟨h, rfl⟩

theorem SameShape.deleteRecord (h : q.SameShape p) (i : ℕ) :
    (q.deleteRecord i).1.SameShape (p.deleteRecord i).1 := by
  unfold Page.deleteRecord
  rw [h.slots]
  split
  · split
    · exact h
    · exact ⟨rfl, congrArg (· + _) h.freeSpace, h.dataEnd, h.numSlots⟩
  · exact h

theorem SameShape.updateRecord (h : q.SameShape p) (i : ℕ) (record : Bytes) :
    (q.updateRecord i record).1.SameShape (p.updateRecord i record).1 := by
  unfold Page.updateRecord
  rw [h.slots]
  split
  · split
    · exact h
    · split
      · exact ⟨rfl, congrArg (· + _) h.freeSpace, h.dataEnd, h.numSlots⟩
      · obtain ⟨hpage, hslot⟩ := (h.deleteRecord i).insertRecord record
        cases hq : (q.deleteRecord i).1.insertRecord record with
        | mk q' slot =>
          cases hp : (p.deleteRecord i).1.insertRecord record with
          | mk p' slot' =>
            rw [hq, hp] at hpage hslot
            obtain rfl : slot = slot' := hslot
            cases slot with
            | none => exact hpage
            | some j =>
              simp only
              split
              · exact ⟨congrArg (Page.swap · i j) hpage.slots, hpage.freeSpace, hpage.dataEnd,
                  hpage.numSlots⟩
              · exact hpage
  · exact h

end Page

end PySQL.Storage
