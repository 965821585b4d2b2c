import PySQL.Storage.PageBytes
import PySQL.Storage.PageSound

/-!
# Compaction

The records of a compacted page lie one below the other, in the order of their slots, from the end
of the page down to `data_end`.
-/

namespace PySQL.Storage

open Lib

/-- The documented layout: the slot directory ends where the data begins at the latest, and the live
records lie between there and the end of the page without overlap. -/
structure Page.Layout (p : Page) : Prop where
  size : p.data.length = PAGE_SIZE
  dirEnd : (slotOffset p.slots.length : ℤ) ≤ p.header.dataEnd
  inside : ∀ i s, p.Live i s → p.header.dataEnd ≤ s.offset ∧ s.offset + s.length ≤ PAGE_SIZE
  apart : ∀ i j s s', i ≠ j → p.Live i s → p.Live j s' →
    s.offset + s.length ≤ s'.offset ∨ s'.offset + s'.length ≤ s.offset

/-- The live slots lie one below the other from `top` down to `bottom`. -/
def Stacked (top : ℤ) : List SlotEntry → ℤ → Prop
  | [], bottom => top = bottom
  | s :: slots, bottom =>
    if s.isDeleted then Stacked top slots bottom
    else s.offset + s.length = top ∧ Stacked s.offset slots bottom

/-- The slots with the live ones moved one below the other from `top` down. -/
def stack (top : ℤ) : List SlotEntry → List SlotEntry
  | [] => []
  | s :: slots =>
    if s.isDeleted then s :: stack top slots
    else ⟨top - s.length, s.length⟩ :: stack (top - s.length) slots

section

variable {top bottom : ℤ} {slots : List SlotEntry}

@[simp] theorem length_stack : (stack top slots).length = slots.length := by
  induction slots generalizing top with
  | nil => rfl
  | cons s slots ih =>
    rw [stack]
    split <;> simp [ih]

theorem stacked_stack : Stacked top (stack top slots) (top - liveBytes slots) := by
  induction slots generalizing top with
  | nil => simp [stack, Stacked, liveBytes]
  | cons s slots ih =>
    rw [stack]
    by_cases hdel : s.length = 0
    · have hbytes : liveBytes (s :: slots) = liveBytes slots := by simp [liveBytes, hdel]
      rw [if_pos (SlotEntry.isDeleted_iff.mpr hdel), Stacked,
        if_pos (SlotEntry.isDeleted_iff.mpr hdel), hbytes]
      exact ih
    · have hbytes : (liveBytes (s :: slots) : ℤ) = s.length + liveBytes slots := by simp [liveBytes]
      have hrest : Stacked (top - s.length) (stack (top - s.length) slots)
          (top - s.length - liveBytes slots) := ih
      rw [if_neg (by simpa [SlotEntry.isDeleted_iff] using hdel), Stacked,
        if_neg (by simpa [SlotEntry.isDeleted_iff] using hdel), hbytes, ← sub_sub]
      exact ⟨sub_add_cancel _ _, hrest⟩

/-- A tombstone stays as it is. -/
theorem getElem?_stack_deleted {i : ℕ} {s : SlotEntry} (hs : slots[i]? = some s)
    (hdel : s.isDeleted = true) : (stack top slots)[i]? = some s := by
  induction slots generalizing top i with
  | nil => cases hs
  | cons t slots ih =>
    rw [stack]
    cases i with
    | zero =>
      obtain rfl := Option.some.inj hs
      rw [if_pos hdel]
      rfl
    | succ i => split <;> exact ih hs

end

namespace Page

variable {p q : Page} {st : Stored}

/-! ## Where the records go -/

/-- The live slots of a part of the directory that starts at slot `i`, with their records. -/
def liveFrom (record : SlotEntry → Bytes) (i : ℕ) (slots : List SlotEntry) : List (ℕ × Bytes) :=
  (slots.zipIdx i).filterMap fun (s, i) => if s.isDeleted then none else some (i, record s)

theorem liveRecords_eq (p : Page) : p.liveRecords = liveFrom p.recordAt 0 p.slots := rfl

theorem liveFrom_cons_deleted {record : SlotEntry → Bytes} {i : ℕ} {s : SlotEntry}
    {slots : List SlotEntry} (h : s.isDeleted = true) :
    liveFrom record i (s :: slots) = liveFrom record (i + 1) slots := by
  simp [liveFrom, h]

theorem liveFrom_cons_live {record : SlotEntry → Bytes} {i : ℕ} {s : SlotEntry}
    {slots : List SlotEntry} (h : s.isDeleted = false) :
    liveFrom record i (s :: slots) = (i, record s) :: liveFrom record (i + 1) slots := by
  simp [liveFrom, h]

/-- The loop leaves the slots before it alone and stacks the others. -/
theorem slots_foldl_place {record : SlotEntry → Bytes} {slots : List SlotEntry}
    (before : List SlotEntry)
    (hslots : q.slots = before ++ slots)
    (hlen : ∀ s ∈ slots, s.length ≠ 0 → (record s).length = s.length) :
    ((liveFrom record before.length slots).foldl place q).slots
        = before ++ stack q.header.dataEnd slots := by
  induction slots generalizing before q with
  | nil => exact hslots
  | cons s slots ih =>
    have hrest := fun t ht => hlen t (List.mem_cons_of_mem s ht)
    by_cases hdel : s.isDeleted = true
    · rw [liveFrom_cons_deleted hdel, stack, if_pos hdel]
      have hmore := ih (before ++ [s]) (q := q) (by simp [hslots]) hrest
      simpa using hmore
    · rw [Bool.not_eq_true] at hdel
      have hne : s.length ≠ 0 := by simpa [SlotEntry.isDeleted] using hdel
      have hrec := hlen s List.mem_cons_self hne
      rw [liveFrom_cons_live hdel, stack, if_neg (by simp [hdel]), List.foldl_cons]
      have hplaced : (q.place (before.length, record s)).slots =
          (before ++ [⟨q.header.dataEnd - s.length, s.length⟩]) ++ slots := by
        simp [place, hslots, hrec]
      have hmore := ih _ hplaced hrest
      rw [List.length_append, List.length_singleton] at hmore
      rw [hmore, List.append_assoc]
      simp [place, hrec]

/-- Placing a record where it already lies changes nothing but `data_end`. -/
theorem place_self {i : ℕ} {s : SlotEntry} (hs : q.slots[i]? = some s) (h0 : 0 ≤ s.offset)
    (hend : s.offset + s.length ≤ q.data.length) (htop : q.header.dataEnd = s.offset + s.length) :
    q.place (i, q.recordAt s) = { q with header := { q.header with dataEnd := s.offset } } := by
  have hlen : ((q.recordAt s).length : ℤ) = s.length := by
    rw [recordAt, length_slice h0 (by omega) hend]
    omega
  have hoff : q.header.dataEnd - (q.recordAt s).length = s.offset := by omega
  have hdata : setSlice q.data s.offset (s.offset + (q.recordAt s).length) (q.recordAt s) = q.data := by
    have hfield : q.recordAt s = field q.data s.offset.toNat s.length := by
      rw [recordAt, slice_eq_field h0 (by omega)]
      congr 1
      omega
    have hin : s.offset.toNat + s.length ≤ q.data.length := by omega
    have hpatch : setSlice q.data s.offset (s.offset + (q.recordAt s).length) (q.recordAt s)
        = patch q.data s.offset.toNat (q.recordAt s) :=
      setSlice_eq_patch (by omega) (by omega) (by omega)
    rw [hpatch, hfield, patch_field_self hin]
  have hslots : q.slots.set i ⟨s.offset, (q.recordAt s).length⟩ = q.slots := by
    have hs' : (⟨s.offset, (q.recordAt s).length⟩ : SlotEntry) = s := by
      rw [Nat.cast_inj.mp hlen]
    rw [hs']
    obtain ⟨hi, rfl⟩ := List.getElem?_eq_some_iff.mp hs
    exact List.set_getElem_self hi
  simp only [place, hoff, hdata, hslots]

/-- The loop changes nothing but `data_end` where the records are stacked already. -/
theorem foldl_place_self {record : SlotEntry → Bytes} {slots : List SlotEntry} {bottom : ℤ}
    (before : List SlotEntry) (hrecord : record = q.recordAt) (hslots : q.slots = before ++ slots)
    (hstacked : Stacked q.header.dataEnd slots bottom)
    (h0 : ∀ s ∈ slots, s.length ≠ 0 → 0 ≤ s.offset) (hend : q.header.dataEnd ≤ q.data.length) :
    (liveFrom record before.length slots).foldl place q
      = { q with header := { q.header with dataEnd := bottom } } := by
  induction slots generalizing before q with
  | nil =>
    obtain rfl : q.header.dataEnd = bottom := hstacked
    rfl
  | cons s slots ih =>
    have hnext : q.slots = (before ++ [s]) ++ slots := by simp [hslots]
    have hrest := fun t ht => h0 t (List.mem_cons_of_mem s ht)
    rw [Stacked] at hstacked
    by_cases hdel : s.isDeleted = true
    · rw [if_pos hdel] at hstacked
      have hmore := ih (before ++ [s]) hrecord hnext hstacked hrest hend
      rw [liveFrom_cons_deleted hdel]
      simpa using hmore
    · rw [if_neg hdel] at hstacked
      rw [Bool.not_eq_true] at hdel
      have hne : s.length ≠ 0 := by simpa [SlotEntry.isDeleted] using hdel
      have hnonneg := h0 s List.mem_cons_self hne
      obtain ⟨htop, hstacked⟩ := hstacked
      have hs : q.slots[before.length]? = some s := by simp [hslots]
      rw [liveFrom_cons_live hdel, List.foldl_cons, hrecord,
        place_self hs hnonneg (by omega) htop.symm]
      have hmore := ih (before ++ [s])
        (q := { q with header := { q.header with dataEnd := s.offset } }) hrecord hnext hstacked hrest
        (show s.offset ≤ q.data.length by omega)
      rw [List.length_append, List.length_singleton, hrecord] at hmore
      exact hmore

/-! ## The compacted page -/

/-- Before a compaction `data_end` may lie anywhere below the live records. -/
theorem Layout.laid (h : p.Layout) :
    Laid { p with header := { p.header with dataEnd := min p.header.dataEnd PAGE_SIZE } }
      p.readRecord := by
  have hdir := h.dirEnd
  refine ⟨h.size, ⟨⟨?_, h.size ▸ le_rfl⟩, ?_, ?_, readRecord_eq p⟩, min_le_right _ _⟩
  · show 0 ≤ min p.header.dataEnd (PAGE_SIZE : ℤ)
    omega
  · intro i e he
    obtain ⟨s, hs, hlen, rfl⟩ := extentAt_eq_some.mp he
    obtain ⟨hlo, hhi⟩ := h.inside i s ⟨hs, hlen⟩
    exact ⟨(min_le_left _ _).trans hlo, hhi⟩
  · intro i j e e' hij he he'
    obtain ⟨s, hs, hlen, rfl⟩ := extentAt_eq_some.mp he
    obtain ⟨s', hs', hlen', rfl⟩ := extentAt_eq_some.mp he'
    exact h.apart i j s s' hij ⟨hs, hlen⟩ ⟨hs', hlen'⟩

/-- The slots of a compacted page. -/
theorem Laid.slots_compact (h : p.Laid st) : p.compact.slots = stack PAGE_SIZE p.slots := by
  have hlen : ∀ s ∈ p.slots, s.length ≠ 0 → (p.recordAt s).length = s.length := by
    intro s hmem hne
    obtain ⟨i, hi⟩ := List.mem_iff_getElem?.mp hmem
    exact h.length_recordAt ⟨hi, hne⟩
  exact slots_foldl_place (q := { p with header := { p.header with dataEnd := PAGE_SIZE } })
    [] rfl hlen

theorem Laid.dataEnd_compact (h : p.Laid st) :
    p.compact.header.dataEnd = PAGE_SIZE - liveBytes p.slots := by
  have hend := h.packed.dataEnd
  rw [h.sum_liveRecords] at hend
  show p.packed.header.dataEnd = _
  omega

theorem Laid.stacked_compact (h : p.Laid st) :
    Stacked PAGE_SIZE p.compact.slots p.compact.header.dataEnd := by
  rw [h.slots_compact, h.dataEnd_compact]
  exact stacked_stack

/-- A second compaction has nothing to do. -/
theorem Laid.compact_compact (h : p.Laid st) : p.compact.compact = p.compact := by
  have hlaid := h.compact
  have h0 : ∀ s ∈ p.compact.slots, s.length ≠ 0 → 0 ≤ s.offset := by
    intro s hmem hne
    obtain ⟨i, hi⟩ := List.mem_iff_getElem?.mp hmem
    have hwin := hlaid.holds.window.1
    have hin := (hlaid.holds.inside i _ (Live.extentAt ⟨hi, hne⟩)).1
    exact hwin.trans hin
  have hpacked : p.compact.packed = p.compact :=
    foldl_place_self (q := { p.compact with header := { p.compact.header with dataEnd := PAGE_SIZE } })
      [] rfl rfl h.stacked_compact h0 (by rw [hlaid.size])
  have hslots : p.compact.slots.length = p.slots.length := by rw [h.slots_compact, length_stack]
  have hagain : p.compact.compact = { p.compact.packed with
      header := { p.compact.packed.header with
        freeSpace := p.compact.packed.header.dataEnd
          - (HEADER_SIZE + p.compact.slots.length * SLOT_SIZE)
        flags := p.compact.packed.header.flags ||| DIRTY } } := rfl
  have hflags : p.compact.header.flags ||| DIRTY = p.compact.header.flags := by
    show (p.packed.header.flags ||| DIRTY) ||| DIRTY = p.packed.header.flags ||| DIRTY
    rw [Nat.or_assoc]
    rfl
  rw [hagain, hpacked, hslots, hflags]
  rfl

/-- A compaction keeps the slots, the tombstones and what every slot reads; it leaves the records
one below the other, counts the gap as free, and has nothing to do a second time. -/
theorem Layout.compact_invisible (h : p.Layout) :
    p.compact.slots.length = p.slots.length ∧
    (∀ (i : ℕ) (s : SlotEntry), p.slots[i]? = some s → s.isDeleted = true →
      p.compact.slots[i]? = some s) ∧
    (∀ i, p.compact.readRecord i = p.readRecord i) ∧
    Stacked PAGE_SIZE p.compact.slots p.compact.header.dataEnd ∧
    p.compact.header.freeSpace = p.compact.header.dataEnd - slotOffset p.compact.slots.length ∧
    p.compact.compact = p.compact := by
  -- `compact` does not look at the old `data_end`
  have hlaid := h.laid
  have hslots : p.compact.slots = stack PAGE_SIZE p.slots := hlaid.slots_compact
  have hcount : p.compact.slots.length = p.slots.length := by rw [hslots, length_stack]
  refine ⟨hcount, fun i s hs hdel => ?_, hlaid.compact.reads_eq, hlaid.stacked_compact, ?_,
    hlaid.compact_compact⟩
  · rw [hslots]
    exact getElem?_stack_deleted hs hdel
  · rw [hcount]
    show p.compact.header.dataEnd - (HEADER_SIZE + p.slots.length * SLOT_SIZE : ℤ) = _
    simp [slotOffset]

/-- A hole above the lower of two records, and a tombstone between them. -/
def holed : Page where
  data := List.replicate PAGE_SIZE 0
  header := { numSlots := 3, dataEnd := 4000 }
  slots := [⟨4000, 10⟩, ⟨0, 0⟩, ⟨4050, 20⟩]

theorem live_holed {i : ℕ} {s : SlotEntry} (h : holed.Live i s) :
    i = 0 ∧ s = ⟨4000, 10⟩ ∨ i = 2 ∧ s = ⟨4050, 20⟩ := by
  obtain ⟨hs, hlen⟩ := h
  match i with
  | 0 => exact .inl ⟨rfl, (Option.some.inj hs).symm⟩
  | 1 =>
    obtain rfl := Option.some.inj hs
    exact absurd rfl hlen
  | 2 => exact .inr ⟨rfl, (Option.some.inj hs).symm⟩
  | i + 3 => simp [holed] at hs

theorem layout_holed : holed.Layout where
  size := by simp [holed]
  dirEnd := by decide
  inside i s hs := by
    rcases live_holed hs with ⟨-, rfl⟩ | ⟨-, rfl⟩ <;> decide
  apart i j s s' hij hs hs' := by
    rcases live_holed hs with ⟨rfl, rfl⟩ | ⟨rfl, rfl⟩ <;>
      rcases live_holed hs' with ⟨rfl, rfl⟩ | ⟨rfl, rfl⟩ <;>
      first
        | exact absurd rfl hij
        | decide

theorem compact_holed :
    holed.compact.slots.length = holed.slots.length ∧
    (∀ (i : ℕ) (s : SlotEntry), holed.slots[i]? = some s → s.isDeleted = true →
      holed.compact.slots[i]? = some s) ∧
    (∀ i, holed.compact.readRecord i = holed.readRecord i) ∧
    Stacked PAGE_SIZE holed.compact.slots holed.compact.header.dataEnd ∧
    holed.compact.header.freeSpace
      = holed.compact.header.dataEnd - slotOffset holed.compact.slots.length ∧
    holed.compact.compact = holed.compact :=
  layout_holed.compact_invisible

end Page

end PySQL.Storage
