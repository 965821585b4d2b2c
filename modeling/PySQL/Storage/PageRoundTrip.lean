import PySQL.Storage.PageBytes
import PySQL.Storage.PageSound

/-!
# Pages written and read back

A page in the documented layout is read back from its bytes as it is left by `to_bytes`.
-/

namespace PySQL.Storage

open Lib

namespace Page

variable {p q : Page}

/-- A page whose header fits its bytes, in the documented layout: as many slots as the header says,
the slot directory before `data_end` and the live records behind it. -/
structure Writable (p : Page) : Prop where
  size : p.data.length = PAGE_SIZE
  header : p.header.InRange
  numSlots : p.header.numSlots = p.slots.length
  dirEnd : (slotOffset p.slots.length : ℤ) ≤ p.header.dataEnd
  live : ∀ s ∈ p.slots, s.isDeleted = false →
    p.header.dataEnd ≤ s.offset ∧ s.offset + s.length ≤ PAGE_SIZE

/-- `from_bytes(to_bytes())` has the header the page is left with, which differs from the one before
in the checksum only, the same slots and records, a checksum that is right, and the same bytes. -/
def RoundTrips (p : Page) : Prop :=
  ∃ p' b q, p.toBytes = (p', some b) ∧ fromBytes b = some q ∧
    q.header = p'.header ∧ { q.header with checksum := p.header.checksum } = p.header ∧
    q.slots = p.slots ∧ q.liveRecords = p.liveRecords ∧
    q.verifyChecksum = true ∧ q.toBytes.2 = some b

/-- The records of a page are what its slots read. -/
theorem liveRecords_congr (hslots : q.slots = p.slots) (hreads : q.readRecord = p.readRecord) :
    q.liveRecords = p.liveRecords := by
  unfold liveRecords
  rw [hslots]
  apply List.filterMap_congr
  rintro ⟨s, i⟩ hmem
  have hs : p.slots[i]? = some s := List.mem_zipIdx_iff_getElem?.mp hmem
  by_cases hlen : s.length = 0
  · simp [SlotEntry.isDeleted_iff.mpr hlen]
  · have hread := congrFun hreads i
    rw [readRecord_of_live ⟨hslots ▸ hs, hlen⟩, readRecord_of_live ⟨hs, hlen⟩] at hread
    simp only [Option.some.inj hread]

theorem Preserved.readsBack (h : p.Preserved) : p.RoundTrips := by
  obtain ⟨b, q, hwrite, hlen, hread, hcontents, hagain⟩ := h.toBytes
  obtain ⟨hheader, hslots, hreads⟩ := contents_eq_iff.mp hcontents
  refine ⟨q, b, q, hwrite, hread, rfl, ?_, hslots, liveRecords_congr hslots hreads, ?_, ?_⟩
  · have hfields := congrArg (fun h => { h with checksum := p.header.checksum }) hheader
    exact hfields
  · -- the page that is read has the checksum that is written for it
    have hsealed := toBytes_of_fromBytes hlen hread
    rw [hagain, Prod.mk.injEq] at hsealed
    have hsum : q.header.checksum = checksumOf b := by rw [hsealed.1]
    obtain ⟨hdata, -⟩ := (fromBytes_eq_some hlen).mp hread
    rw [verifyChecksum, hsum, hdata]
    exact beq_self_eq_true _
  · rw [hagain]

/-- A record and a tombstone. -/
def written : Page where
  data := List.replicate PAGE_SIZE 0
  header := { numSlots := 2, dataEnd := 4000, freeSpace := 3960 }
  slots := [⟨4000, 10⟩, ⟨0, 0⟩]

theorem writable_written : written.Writable where
  size := by simp [written]
  header := by
    refine ⟨?_, ?_, ?_, ?_, ?_, ?_, ?_, ?_, ?_⟩ <;> decide
  numSlots := rfl
  dirEnd := by decide
  live := by decide

/-- A tombstone whose offset does not fit two bytes. -/
def farTombstone : Page where
  data := List.replicate PAGE_SIZE 0
  header := { numSlots := 1, dataEnd := 4096, freeSpace := 4060 }
  slots := [⟨65536, 0⟩]

/-- So many tombstones that the directory is longer than the page. -/
def manyTombstones : Page where
  data := List.replicate PAGE_SIZE 0
  header := { numSlots := 1017, dataEnd := 5000, freeSpace := 0 }
  slots := List.replicate 1017 ⟨0, 0⟩

theorem slots_manyTombstones : manyTombstones.slots = List.replicate 1017 ⟨0, 0⟩ := rfl

theorem length_manyTombstones : manyTombstones.slots.length = 1017 := List.length_replicate

end Page

end PySQL.Storage
