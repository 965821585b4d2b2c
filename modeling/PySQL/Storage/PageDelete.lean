import PySQL.Storage.Compaction
import PySQL.Storage.PageRoundTrip

/-!
# Deleting from intact pages

A page in the documented layout stays in it, and loses the one record.
-/

namespace PySQL.Storage

open Lib

namespace Page

/-- A page in the documented layout, which can be written: the live records are in bounds and
disjoint, and together with the free space that the header counts they fit in the page. -/
structure Intact (p : Page) : Prop where
  layout : p.Layout
  header : p.header.InRange
  numSlots : p.header.numSlots = p.slots.length
  slots : ∀ s ∈ p.slots, s.InRange
  dataEnd_le : p.header.dataEnd ≤ PAGE_SIZE
  free : p.header.freeSpace + liveBytes p.slots ≤ PAGE_SIZE

variable {p q : Page} {i : ℕ} {s : SlotEntry}

theorem Intact.documented (h : p.Intact) : p.Documented where
  size := h.layout.size
  header := h.header
  numSlots := h.numSlots
  dirInside := by
    have := h.layout.dirEnd
    have := h.dataEnd_le
    omega
  slots := h.slots
  live t ht hlen := by
    obtain ⟨j, hj⟩ := List.getElem?_of_mem ht
    have := (h.layout.inside j t ⟨hj, hlen⟩).1
    have := h.layout.dirEnd
    omega

/-- Whether a page is intact shows in what its users see of it. -/
theorem Intact.of_contents (h : p.Intact) (hq : q.Preserved) (hc : q.contents = p.contents) :
    q.Intact := by
  obtain ⟨hheader, hslots, -⟩ := contents_eq_iff.mp hc
  have hfield : ∀ {α : Type} (f : PageHeader → α),
      f { q.header with checksum := 0 } = f { p.header with checksum := 0 } := by
    intro α f
    rw [hheader]
  have hlive : ∀ j t, q.Live j t ↔ p.Live j t := by
    intro j t
    rw [Live, Live, hslots]
  have hend : q.header.dataEnd = p.header.dataEnd := hfield PageHeader.dataEnd
  have hfree : q.header.freeSpace = p.header.freeSpace := hfield PageHeader.freeSpace
  exact {
    layout := {
      size := hq.1
      dirEnd := by
        rw [hslots, hend]
        exact h.layout.dirEnd
      inside := by
        intro j t ht
        rw [hend]
        exact h.layout.inside j t ((hlive j t).mp ht)
      apart := fun j k t u hjk ht hu =>
        h.layout.apart j k t u hjk ((hlive j t).mp ht) ((hlive k u).mp hu) }
    header := by
      obtain ⟨-, b, -, hbytes, -⟩ := hq
      unfold toBytes at hbytes
      split at hbytes
      · assumption
      · cases hbytes
    numSlots := by
      rw [hslots, ← h.numSlots]
      exact hfield PageHeader.numSlots
    slots := by
      rw [hslots]
      exact h.slots
    dataEnd_le := hend.trans_le h.dataEnd_le
    free := by
      rw [hslots, hfree]
      exact h.free }

/-- A page that was just allocated. -/
theorem intact_new {pageId : ℕ} (h : pageId < 2 ^ 32) (pageType : PageType) :
    (Page.new pageId pageType).Intact where
  layout := {
    size := length_data_new pageId pageType
    dirEnd := show ((slotOffset 0 : ℕ) : ℤ) ≤ PAGE_SIZE by decide
    inside := by simp [Live, Page.new, writeHeader]
    apart := by simp [Live, Page.new, writeHeader] }
  header := by
    show ({ pageId, pageType } : PageHeader).InRange
    refine ⟨h, ?_, ?_, ?_, ?_, ?_, ?_, ?_, ?_⟩ <;> simp [PAGE_SIZE, HEADER_SIZE, INVALID_PAGE_ID]
  numSlots := rfl
  slots := by simp [Page.new, writeHeader]
  dataEnd_le := le_rfl
  free := show (PAGE_SIZE - HEADER_SIZE : ℤ) + (liveBytes [] : ℕ) ≤ PAGE_SIZE by decide

theorem liveRecords_new (pageId : ℕ) (pageType : PageType) :
    (Page.new pageId pageType).liveRecords = [] := rfl

/-! ## The page after a delete -/

theorem live_tombstone {j : ℕ} {t : SlotEntry} (h : (p.tombstone i s).Live j t) :
    j ≠ i ∧ p.Live j t := by
  obtain ⟨hj, hlen⟩ := h
  have hne : j ≠ i := by
    rintro rfl
    rw [show (p.tombstone j s).slots = p.slots.set j ⟨0, 0⟩ from rfl, List.getElem?_set_self'] at hj
    obtain ⟨u, -, rfl⟩ := Option.map_eq_some_iff.mp hj
    exact hlen rfl
  rw [show (p.tombstone i s).slots = p.slots.set i ⟨0, 0⟩ from rfl,
    List.getElem?_set_ne hne.symm] at hj
  exact ⟨hne, hj, hlen⟩

theorem Intact.tombstone (h : p.Intact) (hs : p.Live i s) : (p.tombstone i s).Intact := by
  have hlen := liveBytes_set hs.1 ⟨0, 0⟩
  have hfree := h.free
  have hnonneg := h.header.freeSpace.1
  have hpage : PAGE_SIZE = 4096 := rfl
  have hcount : (p.tombstone i s).slots.length = p.slots.length := List.length_set
  simp only [Nat.add_zero] at hlen
  exact {
    layout := {
      size := h.layout.size
      dirEnd := by
        rw [hcount]
        exact h.layout.dirEnd
      inside := fun j t ht => h.layout.inside j t (live_tombstone ht).2
      apart := fun j k t u hjk ht hu =>
        h.layout.apart j k t u hjk (live_tombstone ht).2 (live_tombstone hu).2 }
    header := { h.header with
      flags := Nat.or_lt_two_pow h.header.flags (by decide)
      freeSpace := by
        show 0 ≤ p.header.freeSpace + (s.length : ℤ) ∧ p.header.freeSpace + (s.length : ℤ) < 2 ^ 16
        omega }
    numSlots := h.numSlots.trans hcount.symm
    slots := by
      intro t ht
      rcases List.mem_or_eq_of_mem_set ht with ht | rfl
      · exact h.slots t ht
      · decide
    dataEnd_le := h.dataEnd_le
    free := by
      show p.header.freeSpace + (s.length : ℤ) + (liveBytes (p.slots.set i ⟨0, 0⟩) : ℤ) ≤ PAGE_SIZE
      omega }

theorem liveFrom_set {record : SlotEntry → Bytes} {slots : List SlotEntry} {k : ℕ} :
    liveFrom record k (slots.set i ⟨0, 0⟩) =
      (liveFrom record k slots).filter fun r => r.1 ≠ k + i := by
  induction slots generalizing i k with
  | nil => rfl
  | cons t ts ih =>
    have hlater : ∀ r ∈ liveFrom record (k + 1) ts, k + 1 ≤ r.1 := by
      rintro ⟨j, bs⟩ hr
      obtain ⟨⟨u, j'⟩, hu, heq⟩ := List.mem_filterMap.mp hr
      have hj := List.le_snd_of_mem_zipIdx hu
      simp only at heq
      split at heq
      · cases heq
      · cases heq
        exact hj
    cases i with
    | zero =>
      -- the slots that follow keep their records
      have hrest : (liveFrom record (k + 1) ts).filter (fun r => r.1 ≠ k) =
          liveFrom record (k + 1) ts := by
        rw [List.filter_eq_self]
        intro r hr
        have := hlater r hr
        simp
        omega
      rw [List.set_cons_zero, liveFrom_cons_deleted rfl]
      simp only [Nat.add_zero]
      by_cases hdel : t.isDeleted = true
      · rw [liveFrom_cons_deleted hdel, hrest]
      · rw [liveFrom_cons_live (by simpa using hdel), List.filter_cons_of_neg (by simp), hrest]
    | succ i =>
      have hmore := ih (i := i) (k := k + 1)
      rw [show k + 1 + i = k + (i + 1) by omega] at hmore
      rw [List.set_cons_succ]
      by_cases hdel : t.isDeleted = true
      · rw [liveFrom_cons_deleted hdel, liveFrom_cons_deleted hdel, hmore]
      · rw [Bool.not_eq_true] at hdel
        rw [liveFrom_cons_live hdel, liveFrom_cons_live hdel, List.filter_cons_of_pos (by simp),
          hmore]

/-- The other records stay, in their order. -/
theorem liveRecords_tombstone :
    (p.tombstone i s).liveRecords = p.liveRecords.filter fun r => r.1 ≠ i := by
  have hset : liveFrom p.recordAt 0 (p.slots.set i ⟨0, 0⟩) = _ := liveFrom_set
  rw [Nat.zero_add] at hset
  exact hset

end Page

end PySQL.Storage
