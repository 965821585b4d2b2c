import PySQL.Storage.PageSound

/-!
# What an update does to the other records

`update_record` makes room for a longer record by deleting the old one first, and does not put it
back when the new one is refused.
-/

namespace PySQL.Storage

open Lib

namespace Page

variable {p : Page} {st : Stored} {i : ℕ} {s : SlotEntry} {record : Bytes}

/-- A refused update changes nothing that can be read; an update that is not refused replaces the
record of its slot and no other. -/
def UpdateExact (p : Page) (i : ℕ) (newRecord : Bytes) : Prop :=
  let p' := (p.updateRecord i newRecord).1
  if (p.updateRecord i newRecord).2 then
    p'.readRecord i = some newRecord ∧ ∀ j ≠ i, p'.readRecord j = p.readRecord j
  else p'.slots = p.slots ∧ p'.header = p.header ∧ ∀ j, p'.readRecord j = p.readRecord j

theorem slots_of_refused (h : p.UpdateExact i record) (hreply : (p.updateRecord i record).2 = false) :
    (p.updateRecord i record).1.slots = p.slots := by
  rw [UpdateExact, hreply, if_neg Bool.false_ne_true] at h
  exact h.1

/-- No record that `insert_record` admits is placed before the start of the buffer. -/
def StaysInside (p : Page) : PageCall → Prop
  | .insert record => record.length + SLOT_SIZE ≤ p.header.freeSpace →
      record.length ≤ p.header.dataEnd
  | .update i newRecord => ∀ s, p.Live i s → s.length < newRecord.length →
      newRecord.length + SLOT_SIZE ≤ p.header.freeSpace + s.length →
        newRecord.length ≤ p.header.dataEnd
  | .delete _ | .compact => True

instance (p : Page) (call : PageCall) : Decidable (p.StaysInside call) :=
  match call with
  | .insert record => inferInstanceAs (Decidable (record.length + SLOT_SIZE ≤ p.header.freeSpace →
      record.length ≤ p.header.dataEnd))
  | .update i newRecord => decidable_of_iff (∀ s ∈ p.slots[i]?, s.length ≠ 0 →
      s.length < newRecord.length → newRecord.length + SLOT_SIZE ≤ p.header.freeSpace + s.length →
        newRecord.length ≤ p.header.dataEnd)
      ⟨fun h s hs => h s hs.1 hs.2, fun h s hs hne => h s ⟨hs, hne⟩⟩
  | .delete _ | .compact => .isTrue trivial

/-- The new record is not empty; if it is longer than the old one it is admitted and fits below
`data_end`. -/
def Replaceable (p : Page) (i : ℕ) (newRecord : Bytes) : Prop :=
  ∀ s, p.Live i s → newRecord ≠ [] ∧ (s.length < newRecord.length →
    newRecord.length + SLOT_SIZE ≤ p.header.freeSpace + s.length ∧
      newRecord.length ≤ p.header.dataEnd)

theorem Laid.grow (h : p.Laid st) (hrec : record ≠ []) (hs : p.Live i s)
    (hlt : s.length < record.length)
    (hadm : record.length + SLOT_SIZE ≤ p.header.freeSpace + s.length)
    (hroom : record.length ≤ p.header.dataEnd) :
    (p.updateRecord i record).1.Laid (Function.update st i (some record)) := by
  refine invariant_grow h hs hlt hadm (fun k t ht _ => ?_) fun q st' k hq _ hi hk => hq.swap hi hk
  have hk : k < (p.tombstone i s).slots.length := (List.getElem?_eq_some_iff.mp ht).1
  exact (h.tombstone hs).reuse hrec hk (by simp only [Page.tombstone]; omega)

theorem Laid.insert (h : p.Laid st) (hrec : record ≠ []) (hin : p.StaysInside (.insert record)) :
    ∃ st', (p.insertRecord record).1.Laid st' := by
  by_cases hadm : record.length + SLOT_SIZE ≤ p.header.freeSpace
  · have hroom : 0 ≤ p.header.dataEnd - record.length := by
      have := hin hadm
      omega
    cases hi : p.slots.findIdx? SlotEntry.isDeleted with
    | some i =>
      obtain ⟨s, hs, -⟩ := deleted_of_findIdx? hi
      rw [insertRecord_reuse hadm hi]
      exact ⟨_, h.reuse hrec (List.getElem?_eq_some_iff.mp hs).1 hroom⟩
    | none =>
      rw [insertRecord_extend hadm hi]
      exact ⟨_, h.extend hrec hroom⟩
  · rw [insertRecord_refused hadm]
    exact ⟨st, h⟩

theorem Laid.update (h : p.Laid st) (hrec : record ≠ []) (hin : p.StaysInside (.update i record)) :
    ∃ st', (p.updateRecord i record).1.Laid st' := by
  by_cases hlive : ∃ s, p.Live i s
  · obtain ⟨s, hs⟩ := hlive
    by_cases hle : record.length ≤ s.length
    · rw [updateRecord_shrink hs hle]
      exact ⟨_, h.overwrite hrec hs hle⟩
    · have hlt : s.length < record.length := not_le.mp hle
      by_cases hadm : record.length + SLOT_SIZE ≤ p.header.freeSpace + s.length
      · exact ⟨_, h.grow hrec hs hlt hadm (hin s hs hlt hadm)⟩
      · -- the old record is gone, the page is otherwise as before
        rw [updateRecord_refused hs hlt hadm]
        exact ⟨_, h.tombstone hs⟩
  · rw [updateRecord_of_not_live (not_exists.mp hlive)]
    exact ⟨st, h⟩

/-- The step lemma. -/
theorem Laid.step (h : p.Laid st) {call : PageCall} (hrec : ∀ record ∈ call.record?, record ≠ [])
    (hin : p.StaysInside call) : ∃ st', (p.step call).1.Laid st' := by
  cases call with
  | insert record => exact h.insert (hrec record rfl) hin
  | update i record => exact h.update (hrec record rfl) hin
  | delete i =>
    by_cases hlive : ∃ s, p.Live i s
    · obtain ⟨s, hs⟩ := hlive
      rw [Page.step, deleteRecord_of_live hs]
      exact ⟨_, h.tombstone hs⟩
    · rw [Page.step, deleteRecord_of_not_live (not_exists.mp hlive)]
      exact ⟨st, h⟩
  | compact => exact ⟨st, h.compact⟩

/-- The invariant before and after an update says what each slot reads as. -/
theorem Laid.updateExact (h : p.Laid st) (hreply : (p.updateRecord i record).2 = true)
    (h' : (p.updateRecord i record).1.Laid (Function.update st i (some record))) :
    p.UpdateExact i record := by
  rw [UpdateExact, if_pos hreply]
  constructor
  · rw [h'.reads_eq, Function.update_self]
  · intro j hj
    rw [h'.reads_eq, h.reads_eq, Function.update_of_ne hj]

theorem Laid.updateExact_of_replaceable (h : p.Laid st) (hrep : p.Replaceable i record) :
    p.UpdateExact i record := by
  by_cases hlive : ∃ s, p.Live i s
  · obtain ⟨s, hs⟩ := hlive
    obtain ⟨hrec, hgrow⟩ := hrep s hs
    by_cases hle : record.length ≤ s.length
    · have hshrink := updateRecord_shrink hs hle
      refine h.updateExact (by rw [hshrink]) ?_
      rw [hshrink]
      exact h.overwrite hrec hs hle
    · have hlt : s.length < record.length := not_le.mp hle
      obtain ⟨hadm, hroom⟩ := hgrow hlt
      exact h.updateExact (reply_grow hs hlt hadm) (h.grow hrec hs hlt hadm hroom)
  · rw [UpdateExact, updateRecord_of_not_live (not_exists.mp hlive)]
    exact ⟨rfl, rfl, fun _ => rfl⟩

theorem Laid.replaceable_of_updateExact (h : p.Laid st) (hexact : p.UpdateExact i record) :
    p.Replaceable i record := by
  intro s hs
  rw [UpdateExact] at hexact
  by_cases hle : record.length ≤ s.length
  · rw [updateRecord_shrink hs hle, if_pos rfl] at hexact
    refine ⟨?_, fun hlt => absurd hle (not_le.mpr hlt)⟩
    -- an empty record leaves a slot that counts as deleted
    rintro rfl
    have hread := hexact.1
    simp [readRecord, Page.overwrite, List.getElem?_set_self hs.lt, SlotEntry.isDeleted] at hread
  · have hlt : s.length < record.length := not_le.mp hle
    refine ⟨fun hnil => by simp [hnil] at hlt, fun _ => ?_⟩
    by_cases hadm : record.length + SLOT_SIZE ≤ p.header.freeSpace + s.length
    · rw [if_pos (reply_grow hs hlt hadm)] at hexact
      refine ⟨hadm, ?_⟩
      have hread := hexact.1
      rw [readRecord_of_live ⟨slot_grow hs hlt hadm, by simp only; omega⟩, Option.some_inj] at hread
      -- what is read ends at the old `data_end`
      have hlen : ((slice (p.updateRecord i record).1.data (p.header.dataEnd - record.length)
          p.header.dataEnd).length : ℤ) ≤ p.header.dataEnd := length_slice_le h.holds.window.1
      rw [recordAt, show p.header.dataEnd - (record.length : ℤ) + record.length = p.header.dataEnd
        by omega] at hread
      rw [hread] at hlen
      exact hlen
    · rw [updateRecord_refused hs hlt hadm, if_neg Bool.false_ne_true] at hexact
      have hread := hexact.2.2 i
      rw [readRecord_of_live hs] at hread
      simp [readRecord, Page.tombstone, List.getElem?_set_self hs.lt, SlotEntry.isDeleted] at hread

end Page

section Runs

variable {pageId : ℕ} {pageType : PageType} {tr : List PageStep} {p : Page}

theorem laid_of_staysInside (h : (pageMachine pageId pageType).Run tr p)
    (hin : ∀ e ∈ tr, Page.StaysInside e.pre e.input) : ∃ st, p.Laid st := by
  induction h with
  | nil => exact ⟨_, Page.laid_new pageId pageType⟩
  | @snoc tr p call hr hen ih =>
    obtain ⟨st, hst⟩ := ih fun e he => hin e (List.mem_append_left _ he)
    exact hst.step hen (hin _ (List.mem_append_right _ (List.mem_singleton_self _)))

/-- After any calls that stay inside the page, an update does what it reports if and only if the
new record is not empty and is not refused. -/
theorem updateExact_iff (h : (pageMachine pageId pageType).Run tr p)
    (hin : ∀ e ∈ tr, Page.StaysInside e.pre e.input) (i : ℕ) (newRecord : Bytes) :
    p.UpdateExact i newRecord ↔ p.Replaceable i newRecord := by
  obtain ⟨st, hst⟩ := laid_of_staysInside h hin
  exact ⟨hst.replaceable_of_updateExact, hst.updateExact_of_replaceable⟩

/-- Two records that nearly fill the page. -/
def nearlyFull : List PageCall :=
  [.insert (List.replicate 2000 1), .insert (List.replicate 2000 2)]

/-- The page after these calls. -/
def nearlyFullPage : Page := (pageMachine 0 .heapData).exec (Page.new 0 .heapData) nearlyFull

theorem nearlyFull_run : (pageMachine 0 .heapData).Run
    ((pageMachine 0 .heapData).trace (Page.new 0 .heapData) nearlyFull) nearlyFullPage :=
  Machine.run_of_legal (by decide)

theorem updateExact_iff_nearlyFull :
    nearlyFullPage.UpdateExact 0 (List.replicate 2050 3) ↔
      nearlyFullPage.Replaceable 0 (List.replicate 2050 3) :=
  updateExact_iff nearlyFull_run (by decide +kernel) 0 (List.replicate 2050 3)

/-- A record of 2100 bytes is refused, and the record it was to replace is deleted. -/
theorem nearlyFull_refused : ∃ (tr : List PageStep) (p : Page) (newRecord : Bytes),
    (pageMachine 0 .heapData).Run tr p ∧ (p.updateRecord 0 newRecord).2 = false ∧
      (p.updateRecord 0 newRecord).1.slots ≠ p.slots :=
  ⟨_, nearlyFullPage, List.replicate 2100 3, nearlyFull_run, by decide +kernel, by decide +kernel⟩

theorem nearlyFull_not_exact : ¬ ∀ (tr : List PageStep) (p : Page),
    (pageMachine 0 .heapData).Run tr p →
      ∀ (i : ℕ) (newRecord : Bytes), p.UpdateExact i newRecord := by
  intro h
  obtain ⟨tr, p, newRecord, hrun, hreply, hlost⟩ := nearlyFull_refused
  exact hlost (Page.slots_of_refused (h tr p hrun 0 newRecord) hreply)

end Runs

end PySQL.Storage
