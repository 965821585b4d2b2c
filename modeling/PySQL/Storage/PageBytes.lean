import PySQL.Storage.Page

/-!
# Pages as bytes

`to_bytes` writes the header and the slot directory into the page's own buffer and seals it with a
checksum, so serializing a page also changes it.  What a page's user can see of it does not include
the checksum.
-/

namespace PySQL.Storage

open Lib

/-! ## Numbers -/

def unpackBE (bs : Bytes) : ℕ := bs.foldl (fun v b => 256 * v + b.toNat) 0

/-- Two's complement, as `struct` reads a signed format. -/
def unpackSignedBE (bs : Bytes) : ℤ :=
  if 2 * unpackBE bs < 256 ^ bs.length then unpackBE bs else unpackBE bs - 256 ^ bs.length

theorem unpackBE_snoc (bs : Bytes) (b : UInt8) :
    unpackBE (bs ++ [b]) = 256 * unpackBE bs + b.toNat := by
  rw [unpackBE, List.foldl_append]
  rfl

theorem unpackBE_lt (bs : Bytes) : unpackBE bs < 256 ^ bs.length := by
  induction bs using List.reverseRecOn with
  | nil => simp [unpackBE]
  | append_singleton bs b ih =>
    have hb : b.toNat < 256 := b.toNat_lt
    rw [unpackBE_snoc, List.length_append, List.length_singleton, pow_succ]
    omega

theorem packBE_add_mul (width : ℕ) (v k : ℤ) : packBE width (v + k * 256 ^ width) = packBE width v := by
  induction width generalizing v with
  | zero => rfl
  | succ width ih =>
    have hdiv : (v + k * 256 ^ (width + 1)) / 256 = v / 256 + k * 256 ^ width := by
      rw [pow_succ, ← mul_assoc, Int.add_mul_ediv_right _ _ (by norm_num)]
    have hmod : (v + k * 256 ^ (width + 1)) % 256 = v % 256 := by
      rw [pow_succ, ← mul_assoc, Int.add_mul_emod_self_right]
    rw [packBE, packBE, hdiv, hmod, ih]

theorem packBE_unpackBE (bs : Bytes) : packBE bs.length (unpackBE bs) = bs := by
  induction bs using List.reverseRecOn with
  | nil => rfl
  | append_singleton bs b ih =>
    have hb : b.toNat < 256 := b.toNat_lt
    have hdiv : ((256 * unpackBE bs + b.toNat : ℕ) : ℤ) / 256 = unpackBE bs := by omega
    have hmod : (((256 * unpackBE bs + b.toNat : ℕ) : ℤ) % 256).toNat = b.toNat := by omega
    rw [List.length_append, List.length_singleton, unpackBE_snoc, packBE, hdiv, hmod, ih,
      UInt8.ofNat_toNat]

theorem packBE_unpackSignedBE (bs : Bytes) : packBE bs.length (unpackSignedBE bs) = bs := by
  unfold unpackSignedBE
  split
  · exact packBE_unpackBE bs
  · have h := packBE_add_mul bs.length (unpackBE bs) (-1)
    rw [neg_one_mul, ← sub_eq_add_neg] at h
    rw [h, packBE_unpackBE]

theorem unpackBE_packBE {w : ℕ} {v : ℤ} (h0 : 0 ≤ v) (hv : v < 256 ^ w) :
    (unpackBE (packBE w v) : ℤ) = v := by
  induction w generalizing v with
  | zero =>
    rw [pow_zero] at hv
    rw [show v = 0 from by omega]
    rfl
  | succ w ih =>
    rw [pow_succ] at hv
    have hhigh := ih (v := v / 256) (by omega) (by omega)
    rw [packBE, unpackBE_snoc]
    push_cast
    rw [hhigh, UInt8.toNat_ofNat_of_lt' (show (v % 256).toNat < 256 by omega)]
    omega

theorem unpackSignedBE_packBE {w : ℕ} {v : ℤ} (h0 : -256 ^ w ≤ 2 * v)
    (hv : 2 * v < 256 ^ w) : unpackSignedBE (packBE w v) = v := by
  have hpos : (0 : ℤ) < 256 ^ w := by positivity
  unfold unpackSignedBE
  rw [length_packBE]
  rcases lt_or_ge v 0 with hneg | hnn
  · -- a negative number is stored as its residue
    have hres : packBE w v = packBE w (v + 256 ^ w) := by
      rw [← packBE_add_mul w v 1, one_mul]
    have hread := unpackBE_packBE (w := w) (v := v + 256 ^ w) (by omega) (by omega)
    rw [← hres] at hread
    have hbig : ¬ 2 * unpackBE (packBE w v) < 256 ^ w := by
      zify
      omega
    rw [if_neg hbig, hread]
    omega
  · have hread := unpackBE_packBE (w := w) hnn (by omega)
    have hsmall : 2 * unpackBE (packBE w v) < 256 ^ w := by
      zify
      omega
    rw [if_pos hsmall, hread]

/-! ## The header and the slots -/

def PageType.ofValue? : ℕ → Option PageType
  | 0 => some .free
  | 1 => some .heapData
  | 2 => some .btreeInternal
  | 3 => some .btreeLeaf
  | 4 => some .overflow
  | 5 => some .metadata
  | _ => none

theorem PageType.ofValue?_value (t : PageType) : ofValue? t.value = some t := by
  cases t <;> rfl

theorem PageType.value_of_ofValue? {n : ℕ} {t : PageType} (h : ofValue? n = some t) :
    t.value = n := by
  unfold ofValue? at h
  split at h <;> cases h <;> rfl

/-- Every field fits the width that `struct.pack` gives it. -/
structure PageHeader.InRange (h : PageHeader) : Prop where
  pageId : h.pageId < 2 ^ 32
  flags : h.flags < 2 ^ 8
  numSlots : h.numSlots < 2 ^ 16
  freeSpace : 0 ≤ h.freeSpace ∧ h.freeSpace < 2 ^ 16
  dataEnd : 0 ≤ h.dataEnd ∧ h.dataEnd < 2 ^ 16
  nextPage : h.nextPage < 2 ^ 32
  prevPage : h.prevPage < 2 ^ 32
  lsn : -2 ^ 63 ≤ h.lsn ∧ h.lsn < 2 ^ 63
  checksum : h.checksum < 2 ^ 32

instance (h : PageHeader) : Decidable h.InRange :=
  decidable_of_iff
    (h.pageId < 2 ^ 32 ∧ h.flags < 2 ^ 8 ∧ h.numSlots < 2 ^ 16 ∧
      (0 ≤ h.freeSpace ∧ h.freeSpace < 2 ^ 16) ∧ (0 ≤ h.dataEnd ∧ h.dataEnd < 2 ^ 16) ∧
      h.nextPage < 2 ^ 32 ∧ h.prevPage < 2 ^ 32 ∧ (-2 ^ 63 ≤ h.lsn ∧ h.lsn < 2 ^ 63) ∧
      h.checksum < 2 ^ 32)
    ⟨fun ⟨a, b, c, d, e, f, g, i, j⟩ => ⟨a, b, c, d, e, f, g, i, j⟩,
      fun ⟨a, b, c, d, e, f, g, i, j⟩ => ⟨a, b, c, d, e, f, g, i, j⟩⟩

/-- Deserialize the header; `none` is an exception, for a short buffer or an unknown page type. -/
def PageHeader.unpack (data : Bytes) : Option PageHeader :=
  if data.length ≠ HEADER_SIZE then none
  else
    match PageType.ofValue? (unpackBE (field data 4 1)) with
    | none => none
    | some pageType => some {
        pageId := unpackBE (field data 0 4)
        pageType
        flags := unpackBE (field data 5 1)
        numSlots := unpackBE (field data 6 2)
        freeSpace := unpackBE (field data 8 2)
        dataEnd := unpackBE (field data 10 2)
        nextPage := unpackBE (field data 12 4)
        prevPage := unpackBE (field data 16 4)
        lsn := unpackSignedBE (field data 20 8)
        checksum := unpackBE (field data 28 4) }

def SlotEntry.InRange (s : SlotEntry) : Prop := 0 ≤ s.offset ∧ s.offset < 2 ^ 16 ∧ s.length < 2 ^ 16

instance (s : SlotEntry) : Decidable s.InRange :=
  inferInstanceAs (Decidable (0 ≤ s.offset ∧ s.offset < 2 ^ 16 ∧ s.length < 2 ^ 16))

def SlotEntry.pack (s : SlotEntry) : Bytes := packBE 2 s.offset ++ packBE 2 s.length

def SlotEntry.unpack (data : Bytes) : Option SlotEntry :=
  if data.length ≠ SLOT_SIZE then none
  else some { offset := unpackBE (field data 0 2), length := unpackBE (field data 2 2) }

@[simp] theorem SlotEntry.length_pack (s : SlotEntry) : s.pack.length = SLOT_SIZE := by
  simp [pack, SLOT_SIZE]

/-- What `unpack` reads off 32 bytes, `pack` writes back. -/
theorem PageHeader.pack_of_unpack {data : Bytes} {h : PageHeader} (hu : unpack data = some h) :
    h.InRange ∧ h.pack = data := by
  unfold unpack at hu
  split at hu
  · cases hu
  next hlen =>
  rw [ne_eq, not_not] at hlen
  split at hu
  · cases hu
  next pageType htype =>
  cases hu
  have hwidth : ∀ off width, off + width ≤ 32 → (field data off width).length = width :=
    fun off width hle => length_field_of_le (by rw [hlen]; exact hle)
  have hlt : ∀ off width, off + width ≤ 32 → unpackBE (field data off width) < 256 ^ width :=
    fun off width hle => (unpackBE_lt _).trans_eq (by rw [hwidth off width hle])
  have hput : ∀ off width, off + width ≤ 32 →
      packBE width (unpackBE (field data off width)) = field data off width := by
    intro off width hle
    have h := packBE_unpackBE (field data off width)
    rwa [hwidth off width hle] at h
  have hsigned : packBE 8 (unpackSignedBE (field data 20 8)) = field data 20 8 := by
    have h := packBE_unpackSignedBE (field data 20 8)
    rwa [hwidth 20 8 (by omega)] at h
  constructor
  · refine ⟨hlt 0 4 (by omega), hlt 5 1 (by omega), hlt 6 2 (by omega), ⟨by positivity, ?_⟩,
      ⟨by positivity, ?_⟩, hlt 12 4 (by omega), hlt 16 4 (by omega), ?_, hlt 28 4 (by omega)⟩
    · show ((unpackBE (field data 8 2) : ℕ) : ℤ) < 2 ^ 16
      exact_mod_cast hlt 8 2 (by omega)
    · show ((unpackBE (field data 10 2) : ℕ) : ℤ) < 2 ^ 16
      exact_mod_cast hlt 10 2 (by omega)
    · have hlsn := hlt 20 8 (by omega)
      simp only [unpackSignedBE, hwidth 20 8 (by omega)]
      split <;> constructor <;> omega
  · simp only [pack, PageType.value_of_ofValue? htype, hsigned]
    rw [hput 0 4 (by omega), hput 4 1 (by omega), hput 5 1 (by omega), hput 6 2 (by omega),
      hput 8 2 (by omega), hput 10 2 (by omega), hput 12 4 (by omega), hput 16 4 (by omega),
      hput 28 4 (by omega)]
    simp only [field_append_field (i := 0)]
    exact field_eq_self (by rw [hlen]; decide)

theorem SlotEntry.pack_of_unpack {data : Bytes} {s : SlotEntry} (hu : unpack data = some s) :
    s.InRange ∧ s.pack = data := by
  unfold unpack at hu
  split at hu
  · cases hu
  next hlen =>
  rw [ne_eq, not_not] at hlen
  cases hu
  have hlen' : data.length = 4 := hlen
  have hoff := unpackBE_lt (field data 0 2)
  have hlength := unpackBE_lt (field data 2 2)
  have hpack := packBE_unpackBE (field data 0 2)
  have hpack' := packBE_unpackBE (field data 2 2)
  rw [length_field_of_le (by omega)] at hoff hlength hpack hpack'
  constructor
  · have hoff' : ((unpackBE (field data 0 2) : ℕ) : ℤ) < 2 ^ 16 := by exact_mod_cast hoff
    exact ⟨by positivity, hoff', hlength⟩
  · show packBE 2 (unpackBE (field data 0 2)) ++ packBE 2 (unpackBE (field data 2 2)) = data
    rw [hpack, hpack', field_append_field (i := 0), field_eq_self (by rw [hlen'])]

theorem SlotEntry.unpack_pack {s : SlotEntry} (h : s.InRange) : unpack s.pack = some s := by
  obtain ⟨h0, hoff, hlen⟩ := h
  have hfirst : field s.pack 0 2 = packBE 2 s.offset := by simp [field, pack]
  have hsecond : field s.pack 2 2 = packBE 2 s.length := by
    simp [field, pack]
  have hlength := unpackBE_packBE (w := 2) (v := s.length) (by omega) (by omega)
  rw [unpack, if_neg (by simp), hfirst, hsecond, unpackBE_packBE h0 (by omega)]
  rw [Nat.cast_inj] at hlength
  rw [hlength]

theorem PageHeader.unpack_pack {h : PageHeader} (hr : h.InRange) : unpack h.pack = some h := by
  have hnat : ∀ (width : ℕ) (v : ℕ), v < 256 ^ width → unpackBE (packBE width v) = v := by
    intro width v hv
    exact_mod_cast unpackBE_packBE (w := width) (v := v) (by omega) (by exact_mod_cast hv)
  have hfields : field h.pack 0 4 = packBE 4 h.pageId ∧ field h.pack 4 1 = packBE 1 h.pageType.value ∧
      field h.pack 5 1 = packBE 1 h.flags ∧ field h.pack 6 2 = packBE 2 h.numSlots ∧
      field h.pack 8 2 = packBE 2 h.freeSpace ∧ field h.pack 10 2 = packBE 2 h.dataEnd ∧
      field h.pack 12 4 = packBE 4 h.nextPage ∧ field h.pack 16 4 = packBE 4 h.prevPage ∧
      field h.pack 20 8 = packBE 8 h.lsn ∧ field h.pack 28 4 = packBE 4 h.checksum := by
    refine ⟨?_, ?_, ?_, ?_, ?_, ?_, ?_, ?_, ?_, ?_⟩ <;>
      simp (disch := simp) [pack, field_append_left, field_append_right, field_eq_self]
  obtain ⟨h0, h4, h5, h6, h8, h10, h12, h16, h20, h28⟩ := hfields
  have hfree := unpackBE_packBE (w := 2) hr.freeSpace.1 (by have := hr.freeSpace; omega)
  have hend := unpackBE_packBE (w := 2) hr.dataEnd.1 (by have := hr.dataEnd; omega)
  have hlsn : unpackSignedBE (packBE 8 h.lsn) = h.lsn :=
    unpackSignedBE_packBE (by have := hr.lsn; omega) (by have := hr.lsn; omega)
  have htype : h.pageType.value < 256 ^ 1 := by cases h.pageType <;> decide
  rw [unpack, if_neg (by simp), h0, h4, h5, h6, h8, h10, h12, h16, h20, h28, hnat 1 _ htype,
    PageType.ofValue?_value]
  simp only [hnat 4 _ hr.pageId, hnat 1 _ hr.flags, hnat 2 _ hr.numSlots, hnat 4 _ hr.nextPage,
    hnat 4 _ hr.prevPage, hnat 4 _ hr.checksum, hfree, hend, hlsn]

/-! ## Serializing a page -/

def crcBit (c : UInt32) : UInt32 := if c &&& 1 = 1 then (c >>> 1) ^^^ 0xEDB88320 else c >>> 1

def crcByte (c : UInt32) (b : UInt8) : UInt32 := crcBit^[8] (c ^^^ b.toUInt32)

/-- `zlib.crc32` -/
def crc32 (bs : Bytes) : ℕ := (bs.foldl crcByte 0xFFFFFFFF ^^^ 0xFFFFFFFF).toNat

theorem crc32_lt (bs : Bytes) : crc32 bs < 2 ^ 32 := UInt32.toNat_lt _

example : crc32 [0x31, 0x32, 0x33, 0x34, 0x35, 0x36, 0x37, 0x38, 0x39] = 0xCBF43926 := by
  decide +kernel

/-- Where slot `i` of the directory starts. -/
def slotOffset (i : ℕ) : ℕ := HEADER_SIZE + i * SLOT_SIZE

/-- Write the slots from number `i` on; `false` is the exception of a slot that does not fit its
two numbers, and the slots before it stay written. -/
def writeSlots (data : Bytes) (i : ℕ) : List SlotEntry → Bytes × Bool
  | [] => (data, true)
  | s :: slots =>
    if s.InRange then
      writeSlots (setSlice data (slotOffset i) (slotOffset i + SLOT_SIZE) s.pack) (i + 1) slots
    else (data, false)

/-- Read `n` slots from number `i` on. -/
def readSlots (data : Bytes) (i : ℕ) : ℕ → Option (List SlotEntry)
  | 0 => some []
  | n + 1 =>
    match SlotEntry.unpack (field data (slotOffset i) SLOT_SIZE) with
    | none => none
    | some s => (readSlots data (i + 1) n).map (s :: ·)

/-- The checksum covers everything but its own four bytes. -/
def checksumOf (data : Bytes) : ℕ :=
  crc32 (field data 0 (HEADER_SIZE - 4) ++ data.drop HEADER_SIZE)

/-- Put the checksum in its place. -/
def sealed (data : Bytes) : Bytes :=
  setSlice data (HEADER_SIZE - 4 : ℕ) HEADER_SIZE (packBE 4 (checksumOf data))

namespace Page

/-- Serialize the page, which also changes it; no bytes is an exception. -/
def toBytes (p : Page) : Page × Option Bytes :=
  if p.header.InRange then
    match writeSlots p.writeHeader.data 0 p.slots with
    | (data, false) => ({ p with data }, none)
    | (data, true) =>
      ({ data := sealed data
         header := { p.header with checksum := checksumOf data }
         slots := p.slots }, some (sealed data))
  else (p, none)

/-- Deserialize a page; `none` is an exception. -/
def fromBytes (data : Bytes) : Option Page :=
  let data := data.take PAGE_SIZE
  match PageHeader.unpack (field data 0 HEADER_SIZE) with
  | none => none
  | some header => (readSlots data 0 header.numSlots).map fun slots => { data, header, slots }

def verifyChecksum (p : Page) : Bool := p.header.checksum == checksumOf p.data

/-- What a page shows to those who use it: its header fields but for the checksum, its slots and
its records. -/
def contents (p : Page) : PageHeader × List SlotEntry × (ℕ → Option Bytes) :=
  ({ p.header with checksum := 0 }, p.slots, p.readRecord)

/-- A page of the fixed size that `from_bytes(to_bytes())` preserves. -/
def Preserved (p : Page) : Prop :=
  p.data.length = PAGE_SIZE ∧
    ∃ b q, p.toBytes.2 = some b ∧ fromBytes b = some q ∧ q.contents = p.contents

end Page

/-! ## Reading back -/

theorem slotOffset_eq (i : ℕ) : slotOffset i = 32 + i * 4 := rfl

section Slots

variable {data : Bytes} {i n : ℕ} {slots : List SlotEntry}

/-- Every slot read lies inside the buffer. -/
theorem readSlots_inside (h : readSlots data i n = some slots) (hn : n ≠ 0) :
    slotOffset (i + n) ≤ data.length := by
  induction n generalizing i slots with
  | zero => exact absurd rfl hn
  | succ n ih =>
    unfold readSlots at h
    split at h
    · cases h
    next s hs =>
    rw [Option.map_eq_some_iff] at h
    obtain ⟨rest, hrest, -⟩ := h
    rcases Nat.eq_zero_or_pos n with rfl | hpos
    · -- the last slot read had all its bytes
      unfold SlotEntry.unpack at hs
      split at hs
      · cases hs
      next hlen =>
      rw [ne_eq, not_not, length_field] at hlen
      simp only [SLOT_SIZE, slotOffset_eq] at hlen ⊢
      omega
    · have := ih hrest hpos.ne'
      rwa [show i + (n + 1) = i + 1 + n by omega]

theorem length_of_readSlots (h : readSlots data i n = some slots) : slots.length = n := by
  induction n generalizing i slots with
  | zero =>
    cases h
    rfl
  | succ n ih =>
    unfold readSlots at h
    split at h
    · cases h
    rw [Option.map_eq_some_iff] at h
    obtain ⟨rest, hrest, rfl⟩ := h
    rw [List.length_cons, ih hrest]

/-- Writing back the slots that were read changes nothing. -/
theorem writeSlots_of_readSlots (h : readSlots data i n = some slots) :
    writeSlots data i slots = (data, true) := by
  induction n generalizing i slots with
  | zero =>
    cases h
    rfl
  | succ n ih =>
    have hinside := readSlots_inside h (Nat.succ_ne_zero n)
    unfold readSlots at h
    split at h
    · cases h
    next s hs =>
    rw [Option.map_eq_some_iff] at h
    obtain ⟨rest, hrest, rfl⟩ := h
    obtain ⟨hrange, hpack⟩ := SlotEntry.pack_of_unpack hs
    have hfit : slotOffset i + SLOT_SIZE ≤ data.length := by
      simp only [SLOT_SIZE, slotOffset_eq] at hinside ⊢
      omega
    have hsame : setSlice data (slotOffset i) (slotOffset i + SLOT_SIZE) s.pack = data := by
      rw [setSlice_eq_patch rfl (by simp) (by simpa using hfit), hpack, patch_field_self hfit]
    rw [writeSlots, if_pos hrange, hsame, ih hrest]

/-- Slots written inside the buffer keep its size. -/
theorem length_writeSlots (hfit : slots ≠ [] → slotOffset (i + slots.length) ≤ data.length) :
    (writeSlots data i slots).1.length = data.length := by
  induction slots generalizing data i with
  | nil => rfl
  | cons s slots ih =>
    unfold writeSlots
    split
    · have hroom : slotOffset i + s.pack.length ≤ data.length := by
        have h := hfit (List.cons_ne_nil _ _)
        simp only [slotOffset_eq, List.length_cons, SlotEntry.length_pack, SLOT_SIZE] at h ⊢
        omega
      have hset : setSlice data (slotOffset i) (slotOffset i + SLOT_SIZE) s.pack =
          patch data (slotOffset i) s.pack := setSlice_eq_patch rfl (by simp) hroom
      rw [hset, ih, length_patch hroom]
      intro _
      have h := hfit (List.cons_ne_nil _ _)
      rw [length_patch hroom]
      rwa [List.length_cons, Nat.add_comm slots.length 1, ← Nat.add_assoc] at h
    · rfl

end Slots

/-! ## What the checksum seals -/

section Sealed

variable {data : Bytes}

theorem sealed_eq (h : data.length = PAGE_SIZE) :
    sealed data = patch data 28 (packBE 4 (checksumOf data)) :=
  setSlice_eq_patch rfl (by simp [HEADER_SIZE]) (by rw [h]; simp [PAGE_SIZE])

theorem length_sealed (h : data.length = PAGE_SIZE) : (sealed data).length = PAGE_SIZE := by
  rw [sealed_eq h, length_patch (by rw [h]; simp [PAGE_SIZE]), h]

theorem checksumOf_sealed (h : data.length = PAGE_SIZE) :
    checksumOf (sealed data) = checksumOf data := by
  have hlt : 28 ≤ data.length := by rw [h]; decide
  have hdrop : ∀ xs : Bytes, xs.length = PAGE_SIZE →
      xs.drop HEADER_SIZE = field xs HEADER_SIZE (PAGE_SIZE - HEADER_SIZE) := by
    intro xs hxs
    rw [field, List.take_of_length_le (by rw [List.length_drop, hxs])]
  rw [checksumOf, checksumOf, hdrop _ (length_sealed h), hdrop _ h, sealed_eq h,
    field_patch_of_disjoint hlt (.inl (by decide)),
    field_patch_of_disjoint hlt (.inr (by simp [HEADER_SIZE]))]

/-- Sealing again changes nothing. -/
theorem sealed_sealed (h : data.length = PAGE_SIZE) : sealed (sealed data) = sealed data := by
  rw [sealed_eq (length_sealed h), checksumOf_sealed h, sealed_eq h,
    patch_patch (by rw [h]; decide) (by simp)]

theorem unpackBE_checksum (h : data.length = PAGE_SIZE) :
    unpackBE (field (sealed data) 28 4) = checksumOf data := by
  have hlt := crc32_lt (field data 0 (HEADER_SIZE - 4) ++ data.drop HEADER_SIZE)
  rw [sealed_eq h, field_patch_self (by rw [h]; decide) (by simp)]
  exact_mod_cast unpackBE_packBE (w := 4) (v := (checksumOf data : ℤ)) (by omega)
    (by exact_mod_cast hlt)

end Sealed

namespace Page

variable {p q : Page} {b : Bytes}

theorem fromBytes_eq_some (hlen : b.length = PAGE_SIZE) : fromBytes b = some q ↔
    q.data = b ∧ PageHeader.unpack (field b 0 HEADER_SIZE) = some q.header ∧
      readSlots b 0 q.header.numSlots = some q.slots := by
  unfold fromBytes
  rw [List.take_of_length_le hlen.le]
  simp only
  cases hu : PageHeader.unpack (field b 0 HEADER_SIZE) with
  | none => simp
  | some header =>
    simp only [Option.map_eq_some_iff, Option.some.injEq]
    constructor
    · rintro ⟨slots, hslots, rfl⟩
      exact ⟨rfl, rfl, hslots⟩
    · rintro ⟨rfl, rfl, hslots⟩
      exact ⟨q.slots, hslots, rfl⟩

theorem contents_eq_iff : q.contents = p.contents ↔
    { q.header with checksum := 0 } = { p.header with checksum := 0 } ∧ q.slots = p.slots ∧
      q.readRecord = p.readRecord := by
  simp [contents]

theorem checksum_of_fromBytes (hlen : b.length = PAGE_SIZE) (h : fromBytes b = some q) :
    q.header.checksum = unpackBE (field b 28 4) := by
  obtain ⟨-, hheader, -⟩ := (fromBytes_eq_some hlen).mp h
  have hfield : field (field b 0 HEADER_SIZE) 28 4 = field b 28 4 := by
    simp [field, List.drop_take, List.take_take, HEADER_SIZE]
  unfold PageHeader.unpack at hheader
  split at hheader
  · cases hheader
  split at hheader
  · cases hheader
  · rw [Option.some.injEq] at hheader
    rw [← hheader, ← hfield]

/-- A page read from its bytes writes the same bytes, but for the checksum. -/
theorem toBytes_of_fromBytes (hlen : b.length = PAGE_SIZE) (h : fromBytes b = some q) :
    q.toBytes = ({ q with data := sealed b, header := { q.header with checksum := checksumOf b } },
      some (sealed b)) := by
  obtain ⟨hdata, hheader, hslots⟩ := (fromBytes_eq_some hlen).mp h
  obtain ⟨hrange, hpack⟩ := PageHeader.pack_of_unpack hheader
  have hfit : 0 + HEADER_SIZE ≤ b.length := by rw [hlen]; decide
  have hwrite : q.writeHeader.data = b := by
    show setSlice q.data 0 HEADER_SIZE q.header.pack = b
    rw [hdata, hpack, setSlice_eq_patch (by rfl) (by rw [length_field_of_le hfit]; rfl)
      (by rwa [length_field_of_le hfit]), patch_field_self hfit]
  rw [toBytes, if_pos hrange, hwrite, writeSlots_of_readSlots hslots]

theorem pageId_lt_of_fromBytes (h : fromBytes b = some q) : q.header.pageId < 2 ^ 32 := by
  unfold fromBytes at h
  simp only at h
  split at h
  · cases h
  next header hheader =>
  rw [Option.map_eq_some_iff] at h
  obtain ⟨slots, -, rfl⟩ := h
  exact (PageHeader.pack_of_unpack hheader).1.pageId

theorem slots_inside_of_fromBytes (h : fromBytes b = some q) (hne : q.slots ≠ []) :
    slotOffset q.slots.length ≤ PAGE_SIZE := by
  unfold fromBytes at h
  simp only at h
  split at h
  · cases h
  next header _ =>
  rw [Option.map_eq_some_iff] at h
  obtain ⟨slots, hslots, rfl⟩ := h
  have hlen := length_of_readSlots hslots
  have hinside := readSlots_inside hslots fun h0 => hne (List.eq_nil_of_length_eq_zero (hlen.trans h0))
  rw [Nat.zero_add, ← hlen, List.length_take] at hinside
  exact hinside.trans (Nat.min_le_left _ _)

theorem length_writeHeader (hsize : p.data.length = PAGE_SIZE) :
    p.writeHeader.data.length = PAGE_SIZE := by
  have hfit : 0 + p.header.pack.length ≤ p.data.length := by
    rw [hsize, PageHeader.length_pack]
    decide
  have hwrite : p.writeHeader.data = patch p.data 0 p.header.pack :=
    setSlice_eq_patch rfl (by simp) hfit
  rw [hwrite, length_patch hfit, hsize]

/-- Serializing a preserved page yields bytes that read back as the page that serializing left
behind, and serializing that one again changes nothing. -/
theorem Preserved.toBytes (h : p.Preserved) : ∃ b p', p.toBytes = (p', some b) ∧
    b.length = PAGE_SIZE ∧ fromBytes b = some p' ∧ p'.contents = p.contents ∧
      p'.toBytes = (p', some b) := by
  obtain ⟨hsize, b, q, himage, hread, hcontents⟩ := h
  obtain ⟨hheader, hslots, hrecords⟩ := contents_eq_iff.mp hcontents
  unfold Page.toBytes at himage
  split at himage
  swap
  · cases himage
  next hrange =>
  split at himage
  · cases himage
  next d hwrite =>
  cases himage
  have hd : d.length = PAGE_SIZE := by
    have hkeep : (writeSlots p.writeHeader.data 0 p.slots).1.length = _ := length_writeSlots <| by
      intro hne
      rw [length_writeHeader hsize, Nat.zero_add, ← hslots]
      exact slots_inside_of_fromBytes hread (by rwa [hslots])
    rwa [hwrite, length_writeHeader hsize] at hkeep
  -- what was read is the page that serializing left behind
  have hlen := length_sealed hd
  have hsum := checksum_of_fromBytes hlen hread
  rw [unpackBE_checksum hd] at hsum
  have hleft : q = ⟨sealed d, { p.header with checksum := checksumOf d }, p.slots⟩ := by
    obtain ⟨hdata, -, -⟩ := (fromBytes_eq_some hlen).mp hread
    have hh : q.header = { p.header with checksum := checksumOf d } := by
      have h := congrArg (fun x : PageHeader => { x with checksum := checksumOf d }) hheader
      simp only at h
      rw [← hsum] at h ⊢
      exact h
    rw [← hdata, ← hh, ← hslots]
  have hagain := toBytes_of_fromBytes hlen hread
  rw [sealed_sealed hd, checksumOf_sealed hd] at hagain
  refine ⟨sealed d, q, ?_, hlen, hread, hcontents, ?_⟩
  · rw [Page.toBytes, if_pos hrange, hwrite, hleft]
  · rw [hagain, hleft]

end Page

/-! ## The documented layout is preserved -/

section Layout

variable {data d : Bytes} {i : ℕ} {slots : List SlotEntry}

theorem readSlots_congr {d' : Bytes} {n : ℕ}
    (h : ∀ off width, slotOffset i ≤ off → field d off width = field d' off width) :
    readSlots d i n = readSlots d' i n := by
  induction n generalizing i with
  | zero => rfl
  | succ n ih =>
    have hlater : ∀ off width, slotOffset (i + 1) ≤ off → field d off width = field d' off width := by
      intro off width hoff
      refine h off width ?_
      rw [slotOffset_eq] at hoff ⊢
      omega
    rw [readSlots, readSlots, h _ _ le_rfl, ih hlater]

/-- Slots that fit are written where they are read, and nowhere else. -/
theorem writeSlots_spec (hfit : slotOffset (i + slots.length) ≤ data.length)
    (hrange : ∀ s ∈ slots, s.InRange) : ∃ d, writeSlots data i slots = (d, true) ∧
      d.length = data.length ∧ readSlots d i slots.length = some slots ∧
      ∀ off width, off + width ≤ slotOffset i ∨ slotOffset (i + slots.length) ≤ off →
        field d off width = field data off width := by
  induction slots generalizing data i with
  | nil => exact ⟨data, rfl, rfl, rfl, fun _ _ _ => rfl⟩
  | cons s slots ih =>
    rw [List.forall_mem_cons] at hrange
    rw [List.length_cons, Nat.add_comm slots.length 1, ← Nat.add_assoc] at hfit
    have hstep : slotOffset (i + 1) = slotOffset i + 4 := by
      rw [slotOffset_eq, slotOffset_eq]
      omega
    have hmono : slotOffset (i + 1) ≤ slotOffset (i + 1 + slots.length) := by
      rw [slotOffset_eq, slotOffset_eq]
      omega
    have hpack : s.pack.length = 4 := SlotEntry.length_pack s
    have hroom : slotOffset i + s.pack.length ≤ data.length := by omega
    have hset : setSlice data (slotOffset i) (slotOffset i + SLOT_SIZE) s.pack =
        patch data (slotOffset i) s.pack := setSlice_eq_patch rfl (by simp) hroom
    have hlater : slotOffset (i + 1 + slots.length) ≤ (patch data (slotOffset i) s.pack).length := by
      rwa [length_patch hroom]
    obtain ⟨d, hwrite, hlen, hread, hframe⟩ := ih hlater hrange.2
    refine ⟨d, ?_, by rw [hlen, length_patch hroom], ?_, ?_⟩
    · rw [writeSlots, if_pos hrange.1, hset, hwrite]
    · -- the slots written later lie above this one
      have hhere : field d (slotOffset i) SLOT_SIZE = s.pack := by
        rw [hframe _ _ (.inl (by rw [hstep]; rfl)), field_patch_self (by omega) (by simp)]
      rw [List.length_cons, readSlots, hhere, SlotEntry.unpack_pack hrange.1, hread]
      rfl
    · intro off width hdis
      rw [List.length_cons, Nat.add_comm slots.length 1, ← Nat.add_assoc] at hdis
      rw [hframe off width (by omega), field_patch_of_disjoint (by omega) (by omega)]

end Layout

namespace Page

/-- The layout the page documents: as many slots as the header says, a directory inside the page,
and every live slot after it. -/
structure Documented (p : Page) : Prop where
  size : p.data.length = PAGE_SIZE
  header : p.header.InRange
  numSlots : p.header.numSlots = p.slots.length
  dirInside : slotOffset p.slots.length ≤ PAGE_SIZE
  slots : ∀ s ∈ p.slots, s.InRange
  live : ∀ s ∈ p.slots, s.length ≠ 0 → (slotOffset p.slots.length : ℤ) ≤ s.offset

theorem pack_with_checksum (h : PageHeader) (c : ℕ) :
    ({ h with checksum := c } : PageHeader).pack = field h.pack 0 28 ++ packBE 4 c := by
  have hcut : h.pack = field h.pack 0 28 ++ packBE 4 h.checksum := by
    have hlast : field h.pack 28 4 = packBE 4 h.checksum := by
      simp (disch := simp) [PageHeader.pack, field_append_right, field_eq_self]
    rw [← hlast, field_append_field (i := 0), field_eq_self (by simp [HEADER_SIZE])]
  exact congrArg (· ++ packBE 4 (c : ℤ)) (List.append_cancel_right hcut)

theorem Documented.preserved {p : Page} (h : p.Documented) : p.Preserved := by
  have hroom : slotOffset (0 + p.slots.length) ≤ p.writeHeader.data.length := by
    rw [length_writeHeader h.size, Nat.zero_add]
    exact h.dirInside
  obtain ⟨d, hwrite, hlen, hread, hframe⟩ := writeSlots_spec hroom h.slots
  rw [length_writeHeader h.size] at hlen
  rw [Nat.zero_add] at hframe
  have hfit : 0 + p.header.pack.length ≤ p.data.length := by
    rw [h.size, PageHeader.length_pack]
    decide
  have hput : p.writeHeader.data = patch p.data 0 p.header.pack :=
    setSlice_eq_patch rfl (by simp) hfit
  have himage : p.toBytes.2 = some (sealed d) := by
    rw [Page.toBytes, if_pos h.header, hwrite]
  -- apart from its own four bytes the checksum changes nothing
  have hseal : ∀ off width, off + width ≤ 28 ∨ 32 ≤ off →
      field (sealed d) off width = field d off width := by
    intro off width hdis
    rw [sealed_eq hlen, field_patch_of_disjoint (by rw [hlen]; decide) (by simpa using hdis)]
  let header := { p.header with checksum := checksumOf d }
  have hheader : field (sealed d) 0 HEADER_SIZE = header.pack := by
    have hlow : field (sealed d) 0 28 = field p.header.pack 0 28 := by
      have hpack : field d 0 HEADER_SIZE = p.header.pack := by
        rw [hframe 0 HEADER_SIZE (.inl le_rfl), hput, field_patch_self (Nat.zero_le _) (by simp)]
      rw [hseal 0 28 (.inl le_rfl), ← hpack]
      simp [field, List.take_take, HEADER_SIZE]
    have hhigh : field (sealed d) 28 4 = packBE 4 (checksumOf d) := by
      rw [sealed_eq hlen, field_patch_self (by rw [hlen]; decide) (by simp)]
    rw [pack_with_checksum, ← hlow, ← hhigh, field_append_field (i := 0)]
    rfl
  have hslots : readSlots (sealed d) 0 header.numSlots = some p.slots := by
    have hnum : header.numSlots = p.slots.length := h.numSlots
    rw [hnum, ← hread]
    exact readSlots_congr fun off width hoff => hseal off width (.inr hoff)
  have hrange : header.InRange := { h.header with checksum := crc32_lt _ }
  have hfrom : fromBytes (sealed d) = some ⟨sealed d, header, p.slots⟩ := by
    rw [fromBytes_eq_some (length_sealed hlen)]
    exact ⟨rfl, by rw [hheader, PageHeader.unpack_pack hrange], hslots⟩
  refine ⟨h.size, sealed d, _, himage, hfrom, contents_eq_iff.mpr ⟨rfl, rfl, ?_⟩⟩
  -- a live record lies past everything that serializing wrote
  funext slotIndex
  unfold readRecord
  cases hs : p.slots[slotIndex]? with
  | none => rfl
  | some s =>
    simp only
    split
    · rfl
    next hlive =>
    have hafter := h.live s (List.mem_of_getElem? hs) (by simpa [SlotEntry.isDeleted] using hlive)
    rw [slotOffset_eq] at hafter
    have hpast : slotOffset p.slots.length ≤ s.offset.toNat := by
      rw [slotOffset_eq]
      omega
    have hend : s.offset ≤ s.offset + s.length := by omega
    simp only [recordAt]
    rw [slice_eq_field (by omega) hend, slice_eq_field (by omega) hend,
      hseal _ _ (.inr (by omega)), hframe _ _ (.inr hpast), hput,
      field_patch_of_disjoint (Nat.zero_le _) (.inr (by simp [HEADER_SIZE]; omega))]

/-- A page that was just allocated. -/
theorem preserved_new {pageId : ℕ} (h : pageId < 2 ^ 32) (pageType : PageType) :
    (Page.new pageId pageType).Preserved := by
  have hrange : ({ pageId, pageType } : PageHeader).InRange := by
    refine ⟨h, ?_, ?_, ?_, ?_, ?_, ?_, ?_, ?_⟩ <;> simp [PAGE_SIZE, HEADER_SIZE, INVALID_PAGE_ID]
  refine Documented.preserved ⟨?_, hrange, rfl, show slotOffset 0 ≤ PAGE_SIZE by decide, ?_, ?_⟩
  · exact length_writeHeader (p := { data := _, header := _, slots := [] }) (by simp)
  · simp [Page.new, writeHeader]
  · simp [Page.new, writeHeader]

end Page

end PySQL.Storage
