import PySQL.Storage.Record

/-!
# Encodings of numbers and texts

The bytes of a number are meant to be in the order of the numbers.
-/

namespace PySQL.Storage

open Query

/-! ## Big-endian bytes -/

theorem unpackBE_cons (b : UInt8) (bs : Bytes) :
    unpackBE (b :: bs) = b.toNat * 256 ^ bs.length + unpackBE bs := by
  induction bs using List.reverseRecOn with
  | nil => simp [unpackBE]
  | append_singleton bs c ih =>
    rw [← List.cons_append, unpackBE_snoc, ih, unpackBE_snoc, List.length_append,
      List.length_singleton, pow_succ]
    ring

/-- Numbers of one width are in the order of their bytes. -/
theorem unpackBE_lt_iff {as bs : Bytes} (h : as.length = bs.length) :
    unpackBE as < unpackBE bs ↔ as < bs := by
  induction as generalizing bs with
  | nil =>
    obtain rfl := List.length_eq_zero_iff.mp h.symm
    simp
  | cons a as ih =>
    obtain ⟨b, bs, rfl⟩ := List.exists_cons_of_length_eq_add_one h.symm
    have hlen : as.length = bs.length := by simpa using h
    have ha : unpackBE as < 256 ^ bs.length := hlen ▸ unpackBE_lt as
    have hb : unpackBE bs < 256 ^ bs.length := unpackBE_lt bs
    rw [List.cons_lt_cons_iff, ← ih hlen, unpackBE_cons, unpackBE_cons, hlen,
      UInt8.lt_iff_toNat_lt, ← UInt8.toNat_inj]
    -- the first byte decides unless both are the same
    rcases lt_trichotomy a.toNat b.toNat with hab | hab | hab
    · have hstep : (a.toNat + 1) * 256 ^ bs.length ≤ b.toNat * 256 ^ bs.length :=
        Nat.mul_le_mul_right _ hab
      have hlt : a.toNat * 256 ^ bs.length + unpackBE as
          < b.toNat * 256 ^ bs.length + unpackBE bs := by
        rw [Nat.succ_mul] at hstep
        omega
      simp [hab, hlt]
    · simp [hab]
    · have hstep : (b.toNat + 1) * 256 ^ bs.length ≤ a.toNat * 256 ^ bs.length :=
        Nat.mul_le_mul_right _ hab
      have hnlt : ¬ a.toNat * 256 ^ bs.length + unpackBE as
          < b.toNat * 256 ^ bs.length + unpackBE bs := by
        rw [Nat.succ_mul] at hstep
        omega
      have hne : a.toNat ≠ b.toNat := hab.ne'
      simp [hab.le, hne, hnlt]

theorem packBE_lt_iff {width : ℕ} {m n : ℤ} (hm : 0 ≤ m ∧ m < 256 ^ width)
    (hn : 0 ≤ n ∧ n < 256 ^ width) : packBE width m < packBE width n ↔ m < n := by
  have hm' := unpackBE_packBE hm.1 hm.2
  have hn' := unpackBE_packBE hn.1 hn.2
  rw [← unpackBE_lt_iff (by simp)]
  omega

theorem packUnsigned_eq {width : ℕ} {n : ℤ} (h : 0 ≤ n ∧ n < 256 ^ width) :
    packUnsigned width n = .ok (packBE width n) := if_pos h

theorem unpackUnsigned_packBE {width : ℕ} {n : ℤ} (h : 0 ≤ n ∧ n < 256 ^ width) :
    unpackUnsigned width (packBE width n) = .ok n.toNat := by
  have hread := unpackBE_packBE h.1 h.2
  rw [unpackUnsigned, if_pos (by simp)]
  congr 1
  omega

/-! ## Texts -/

theorem decodeUtf8_eq_ok {bs : Bytes} {s : String} : decodeUtf8 bs = .ok s ↔ bs = encodeUtf8 s := by
  have hbytes : (⟨bs.toArray⟩ : ByteArray) = s.toByteArray ↔ bs = encodeUtf8 s := by
    rw [encodeUtf8, String.toUTF8_eq_toByteArray, ByteArray.ext_iff, ← Array.toList_inj]
  unfold decodeUtf8 String.fromUTF8?
  rw [← hbytes]
  by_cases hvalid : ByteArray.IsValidUTF8 ⟨bs.toArray⟩
  · simp only [hvalid, dif_pos, Except.ok.injEq]
    rw [← String.toByteArray_inj]
    rfl
  · simp only [hvalid, dif_neg, not_false_eq_true]
    constructor
    · intro h
      cases h
    · intro h
      exact absurd (h ▸ s.isValidUTF8) hvalid

theorem decodeUtf8_encodeUtf8 (s : String) : decodeUtf8 (encodeUtf8 s) = .ok s :=
  decodeUtf8_eq_ok.mpr rfl

theorem encodeUtf8_append (s t : String) : encodeUtf8 (s ++ t) = encodeUtf8 s ++ encodeUtf8 t := by
  simp [encodeUtf8, String.toUTF8_eq_toByteArray]

theorem encodeUtf8_inj {s t : String} : encodeUtf8 s = encodeUtf8 t ↔ s = t := by
  constructor
  · intro h
    have hs := decodeUtf8_encodeUtf8 s
    rw [h, decodeUtf8_encodeUtf8] at hs
    exact (Except.ok.inj hs).symm
  · rintro rfl
    rfl

/-- A text whose bytes start with those of another text starts with that text. -/
theorem exists_append_of_encodeUtf8 {s r : String} {bs : Bytes}
    (h : encodeUtf8 r ++ bs = encodeUtf8 s) : ∃ t, s = r ++ t := by
  have hbytes : r.toList.utf8Encode ++ ⟨bs.toArray⟩ = s.toList.utf8Encode := by
    rw [String.utf8Encode_toList, String.utf8Encode_toList, ByteArray.ext_iff, ← Array.toList_inj]
    simpa [encodeUtf8, String.toUTF8_eq_toByteArray] using h
  obtain ⟨rest, hrest⟩ := List.isPrefix_of_utf8Encode_append_eq_utf8Encode _ hbytes
  refine ⟨String.ofList rest, ?_⟩
  rw [← String.toList_inj, String.toList_append, String.toList_ofList, hrest]

theorem encodeUtf8_spaces (n : ℕ) :
    encodeUtf8 (String.ofList (List.replicate n ' ')) = List.replicate n 0x20 := by
  induction n with
  | zero => rfl
  | succ n ih =>
    rw [List.replicate_succ, ← List.singleton_append, String.ofList_append, encodeUtf8_append, ih]
    rfl

/-! ## Integers -/

theorem flipSign_of_nonneg {n : ℤ} (h0 : 0 ≤ n) (h : n < 2 ^ 63) : flipSign n = n + 2 ^ 63 := by
  rw [flipSign, Int.ediv_eq_zero_of_lt h0 h]
  rfl

theorem flipSign_flipSign (n : ℤ) : flipSign (flipSign n) = n := by
  unfold flipSign
  split <;> split <;> omega

/-- The sign bit is flipped in a number of any size, and all bits above it stay set. -/
theorem flipSign_neg {n : ℤ} (hlo : -2 ^ 63 ≤ n) (hneg : n < 0) : flipSign n < 0 := by
  unfold flipSign
  split <;> omega

/-- What the encoding of two integers promises: both take eight bytes and read back, and the bytes
are in the order of the numbers. -/
def SortPreserving (py : Py) (t : DataType) (a b : ℤ) : Prop :=
  ∃ as bs, t.serialize py (.int a) = .ok as ∧ t.serialize py (.int b) = .ok bs ∧
    as.length = 8 ∧ bs.length = 8 ∧
    t.deserialize py as = .ok (.int a) ∧ t.deserialize py bs = .ok (.int b) ∧
    (a < b ↔ as < bs)

section

variable {py : Py} {t : DataType}

theorem serialize_int (ht : t = .integer ∨ t = .timestamp) (n : ℤ) :
    t.serialize py (.int n) = packUnsigned 8 (flipSign n) := by
  rcases ht with rfl | rfl <;> rfl

theorem deserialize_int (ht : t = .integer ∨ t = .timestamp) (data : Bytes) :
    t.deserialize py data =
      (unpackUnsigned 8 (data.take 8)).map fun n => .int (flipSign n) := by
  rcases ht with rfl | rfl <;>
    · simp only [DataType.deserialize]
      cases unpackUnsigned 8 (data.take 8) <;> rfl

theorem serialize_int_of_nonneg (ht : t = .integer ∨ t = .timestamp) {n : ℤ} (h0 : 0 ≤ n)
    (h : n < 2 ^ 63) : t.serialize py (.int n) = .ok (packBE 8 (n + 2 ^ 63)) := by
  rw [serialize_int ht, flipSign_of_nonneg h0 h, packUnsigned_eq (by omega)]

theorem deserialize_packBE (ht : t = .integer ∨ t = .timestamp) {n : ℤ} (h0 : 0 ≤ n)
    (h : n < 2 ^ 63) : t.deserialize py (packBE 8 (n + 2 ^ 63)) = .ok (.int n) := by
  have hpos : 0 ≤ n + 2 ^ 63 := by omega
  rw [deserialize_int ht, List.take_of_length_le (by simp), unpackUnsigned_packBE (by omega)]
  show Except.ok (Value.int (flipSign ((n + 2 ^ 63).toNat : ℤ))) = _
  rw [Int.toNat_of_nonneg hpos, ← flipSign_of_nonneg h0 h, flipSign_flipSign]

/-- A negative integer is refused by `struct.pack`. -/
theorem serialize_int_of_neg (ht : t = .integer ∨ t = .timestamp) {n : ℤ} (hlo : -2 ^ 63 ≤ n)
    (hneg : n < 0) : t.serialize py (.int n) = .error .structError := by
  have hflip := flipSign_neg hlo hneg
  rw [serialize_int ht, packUnsigned, if_neg (by omega)]

/-- The encoding of 64-bit integers keeps its promise exactly when neither number is negative. -/
theorem sortPreserving_iff (ht : t = .integer ∨ t = .timestamp) {a b : ℤ}
    (ha : -2 ^ 63 ≤ a ∧ a < 2 ^ 63) (hb : -2 ^ 63 ≤ b ∧ b < 2 ^ 63) :
    SortPreserving py t a b ↔ 0 ≤ a ∧ 0 ≤ b := by
  constructor
  · rintro ⟨as, bs, has, hbs, -⟩
    constructor
    · by_contra hneg
      rw [serialize_int_of_neg ht ha.1 (by omega)] at has
      cases has
    · by_contra hneg
      rw [serialize_int_of_neg ht hb.1 (by omega)] at hbs
      cases hbs
  · intro ⟨h0a, h0b⟩
    refine ⟨_, _, serialize_int_of_nonneg ht h0a ha.2, serialize_int_of_nonneg ht h0b hb.2,
      length_packBE _ _, length_packBE _ _, deserialize_packBE ht h0a ha.2,
      deserialize_packBE ht h0b hb.2, ?_⟩
    rw [packBE_lt_iff (by omega) (by omega)]
    omega

theorem sortPreserving_three_five : SortPreserving Py.ascii .integer 3 5 :=
  (sortPreserving_iff (.inl rfl) (by decide) (by decide)).mpr (by decide)

theorem not_sortPreserving_neg_one : ¬ SortPreserving Py.ascii .integer (-1) 0 := by
  rintro ⟨as, bs, has, -⟩
  rw [show DataType.integer.serialize Py.ascii (.int (-1)) = .error .structError by decide] at has
  cases has

end

/-! ## Floats -/

section

variable (x y : PyFloat)

/-- A pattern without its sign bit. -/
def magnitude : ℕ := x.bits.toNat % 2 ^ 63

/-- The order of signs and magnitudes: negative patterns by decreasing magnitude, then the others
by increasing magnitude. -/
def precedes : Bool :=
  match x.negative, y.negative with
  | true, true => magnitude y < magnitude x
  | true, false => true
  | false, true => false
  | false, false => magnitude x < magnitude y

theorem msb_encodeFloat : (encodeFloat x).msb = !x.negative := by
  have hflip : (BitVec.ofNat 64 (2 ^ 63)).msb = true := by decide
  unfold encodeFloat PyFloat.negative
  cases hneg : x.bits.msb with
  | true => rw [if_pos rfl, BitVec.msb_not, hneg]; rfl
  | false => rw [if_neg (by decide), BitVec.msb_xor, hneg, hflip]; rfl

theorem decodeFloat_encodeFloat : decodeFloat (encodeFloat x) = x := by
  have hmsb := msb_encodeFloat x
  unfold decodeFloat
  rw [hmsb]
  unfold encodeFloat PyFloat.negative
  cases hneg : x.bits.msb with
  | true => simp
  | false => simp [BitVec.xor_assoc]

theorem encodeFloat_decodeFloat (bits : BitVec 64) : encodeFloat (decodeFloat bits) = bits := by
  have hflip : (BitVec.ofNat 64 (2 ^ 63)).msb = true := by decide
  unfold encodeFloat decodeFloat
  cases hmsb : bits.msb with
  | true =>
    have hneg : (bits ^^^ BitVec.ofNat 64 (2 ^ 63)).msb = false := by
      rw [BitVec.msb_xor, hmsb, hflip]
      rfl
    simp only [if_true, hneg, Bool.false_eq_true, if_false, BitVec.xor_assoc, BitVec.xor_self,
      BitVec.xor_zero]
  | false => simp [hmsb]

theorem negative_iff : x.negative = true ↔ 2 ^ 63 ≤ x.bits.toNat := by
  rw [PyFloat.negative, BitVec.msb_eq_decide]
  simp

theorem xor_two_pow_self {k n : ℕ} (h : n < 2 ^ k) : n ^^^ 2 ^ k = n + 2 ^ k := by
  have hdiv : (n ^^^ 2 ^ k) / 2 ^ k = 1 := by
    rw [Nat.xor_div_two_pow, Nat.div_eq_of_lt h, Nat.div_self (by positivity), Nat.zero_xor]
  have hmod : (n ^^^ 2 ^ k) % 2 ^ k = n := by
    rw [Nat.xor_mod_two_pow, Nat.mod_eq_of_lt h, Nat.mod_self, Nat.xor_zero]
  calc n ^^^ 2 ^ k
      = 2 ^ k * ((n ^^^ 2 ^ k) / 2 ^ k) + (n ^^^ 2 ^ k) % 2 ^ k := (Nat.div_add_mod _ _).symm
    _ = n + 2 ^ k := by rw [hdiv, hmod, mul_one, Nat.add_comm]

/-- The encoding as a number counts down for a negative pattern and up for the others. -/
theorem toNat_encodeFloat :
    (encodeFloat x).toNat =
      if x.negative then 2 ^ 63 - 1 - magnitude x else 2 ^ 63 + magnitude x := by
  have hlt : x.bits.toNat < 2 ^ 64 := x.bits.isLt
  have hbig := negative_iff x
  unfold encodeFloat magnitude
  rw [← PyFloat.negative]
  cases hneg : x.negative with
  | true =>
    have hle : 2 ^ 63 ≤ x.bits.toNat := hbig.mp hneg
    rw [if_pos rfl, if_pos rfl, BitVec.toNat_not]
    omega
  | false =>
    have hsmall : x.bits.toNat < 2 ^ 63 := by
      rw [hneg] at hbig
      simpa using hbig
    rw [if_neg (by decide), if_neg (by decide), BitVec.toNat_xor, BitVec.toNat_ofNat,
      Nat.mod_eq_of_lt (show 2 ^ 63 < 2 ^ 64 by decide), xor_two_pow_self hsmall]
    omega

/-- The patterns of floats are encoded in the order of signs and magnitudes. -/
theorem encodeFloat_lt_iff :
    (encodeFloat x).toNat < (encodeFloat y).toNat ↔ precedes x y = true := by
  have hx : magnitude x < 2 ^ 63 := Nat.mod_lt _ (by decide)
  have hy : magnitude y < 2 ^ 63 := Nat.mod_lt _ (by decide)
  rw [toNat_encodeFloat, toNat_encodeFloat, precedes]
  cases x.negative <;> cases y.negative <;> simp <;> omega

variable (py : Py)

theorem serialize_float :
    DataType.float.serialize py (.float x) = .ok (packBE 8 (encodeFloat x).toNat) := rfl

theorem deserialize_float {bs : Bytes} (h : bs.length = 8) :
    DataType.float.deserialize py bs =
      .ok (.float (decodeFloat (BitVec.ofNat 64 (unpackBE bs)))) := by
  rw [DataType.deserialize, List.take_of_length_le h.le]

theorem bounds_toNat (bits : BitVec 64) : 0 ≤ (bits.toNat : ℤ) ∧ (bits.toNat : ℤ) < 256 ^ 8 := by
  have := bits.isLt
  omega

theorem deserialize_packBE_encodeFloat :
    DataType.float.deserialize py (packBE 8 (encodeFloat x).toNat) = .ok (.float x) := by
  have hbits := bounds_toNat (encodeFloat x)
  have hread := unpackBE_packBE hbits.1 hbits.2
  rw [deserialize_float py (by simp), Int.ofNat_inj.mp hread, BitVec.ofNat_toNat,
    BitVec.setWidth_eq, decodeFloat_encodeFloat]

theorem packBE_encodeFloat_decodeFloat {bs : Bytes} (h : bs.length = 8) :
    packBE 8 (encodeFloat (decodeFloat (BitVec.ofNat 64 (unpackBE bs)))).toNat = bs := by
  have hlt : unpackBE bs < 2 ^ 64 := by simpa [h] using unpackBE_lt bs
  have hpack := packBE_unpackBE bs
  rw [h] at hpack
  rw [encodeFloat_decodeFloat, BitVec.toNat_ofNat, Nat.mod_eq_of_lt hlt, hpack]

/-- The encoding of floats is a bijection between the patterns and the texts of eight bytes, and
the bytes are in the order of signs and magnitudes. -/
theorem float_encoding :
    (∀ x : PyFloat, decodeFloat (encodeFloat x) = x) ∧
    (∀ bits : BitVec 64, encodeFloat (decodeFloat bits) = bits) ∧
    (∀ x : PyFloat, ∃ bs : List.Vector UInt8 8,
      DataType.float.serialize py (.float x) = .ok bs.val ∧
      DataType.float.deserialize py bs.val = .ok (.float x)) ∧
    (∀ bs : List.Vector UInt8 8, ∃ x : PyFloat,
      DataType.float.deserialize py bs.val = .ok (.float x) ∧
      DataType.float.serialize py (.float x) = .ok bs.val) ∧
    (∀ x y : PyFloat, ∃ xs ys,
      DataType.float.serialize py (.float x) = .ok xs ∧
      DataType.float.serialize py (.float y) = .ok ys ∧
      (xs < ys ↔ precedes x y = true)) := by
  refine ⟨decodeFloat_encodeFloat, encodeFloat_decodeFloat, fun x => ?_, fun bs => ?_,
    fun x y => ?_⟩
  · exact ⟨⟨_, length_packBE 8 (encodeFloat x).toNat⟩, serialize_float x py,
      deserialize_packBE_encodeFloat x py⟩
  · refine ⟨_, deserialize_float py bs.property, ?_⟩
    rw [serialize_float, packBE_encodeFloat_decodeFloat bs.property]
  · refine ⟨_, _, serialize_float x py, serialize_float y py, ?_⟩
    rw [packBE_lt_iff (bounds_toNat _) (bounds_toNat _), Nat.cast_lt, encodeFloat_lt_iff]

end

end PySQL.Storage
