import PySQL.Storage.Encoding

/-!
# Rows read back

The decoder finds the next column by the storage size of the value it has just read.  So the bytes
of a column must read back the same whatever follows them, and the value that is read must have the
size that was written.
-/

namespace PySQL.Storage

open Query

namespace DataType

/-- Whether a column type accepts a value. -/
def validate : DataType → Value → Bool
  | .boolean, .bool _ | .boolean, .int _ => true
  | .integer, .int n => -2 ^ 63 ≤ n ∧ n < 2 ^ 63
  | .float, .int _ | .float, .float _ => true
  | .text, .str _ => true
  | .varchar maxLength, .str s => (encodeUtf8 s).length ≤ maxLength
  | .char length, .str s => (encodeUtf8 s).length ≤ length
  | .blob, .bytes _ => true
  | .timestamp, .bool _ | .timestamp, .int _ | .timestamp, .float _ => true
  | _, _ => false

end DataType

variable (py : Py)

/-- Bytes that read as a value whatever follows them, and as many as its storage size says. -/
structure Framed (t : DataType) (bs : Bytes) (v : Value) : Prop where
  notNull : v.isNull = false
  reads : ∀ rest, t.deserialize py (bs ++ rest) = .ok v
  size : t.storageSize py v = .ok bs.length

section

variable {py}

theorem packUnsigned_eq_ok {width : ℕ} {n : ℤ} {bs : Bytes} (h : packUnsigned width n = .ok bs) :
    (0 ≤ n ∧ n < 256 ^ width) ∧ bs = packBE width n := by
  unfold packUnsigned at h
  split at h
  · exact ⟨‹_›, (Except.ok.inj h).symm⟩
  · cases h

theorem take_packBE_append (width : ℕ) (n : ℤ) (rest : Bytes) :
    (packBE width n ++ rest).take width = packBE width n := by
  rw [List.take_append_of_le_length (by simp), List.take_of_length_le (by simp)]

/-- Eight bytes of an integer. -/
theorem framed_int {t : DataType} (ht : t = .integer ∨ t = .timestamp) {n : ℤ} {bs : Bytes}
    (h : packUnsigned 8 (flipSign n) = .ok bs) : Framed py t bs (.int n) := by
  obtain ⟨hrange, rfl⟩ := packUnsigned_eq_ok h
  refine ⟨rfl, fun rest => ?_, ?_⟩
  · rw [deserialize_int ht, take_packBE_append, unpackUnsigned_packBE hrange]
    show Except.ok (Value.int (flipSign ((flipSign n).toNat : ℤ))) = _
    rw [Int.toNat_of_nonneg hrange.1, flipSign_flipSign]
  · rcases ht with rfl | rfl <;> simp [DataType.storageSize]

theorem framed_float (x : PyFloat) :
    Framed py .float (packBE 8 (encodeFloat x).toNat) (.float x) := by
  refine ⟨rfl, fun rest => ?_, by simp [DataType.storageSize]⟩
  rw [← deserialize_packBE_encodeFloat x py, DataType.deserialize, take_packBE_append,
    deserialize_float py (by simp)]

/-- A length and so many bytes read back as those bytes. -/
theorem framed_prefixed {width : ℕ} {raw bs : Bytes} (rest : Bytes)
    (h : packUnsigned width raw.length = .ok bs) :
    unpackUnsigned width ((bs ++ raw ++ rest).take width) = .ok raw.length ∧
      ((bs ++ raw ++ rest).drop width).take raw.length = raw ∧ bs.length = width := by
  obtain ⟨hrange, rfl⟩ := packUnsigned_eq_ok h
  refine ⟨?_, ?_, by simp⟩
  · rw [List.append_assoc, take_packBE_append, unpackUnsigned_packBE hrange]
    rfl
  · rw [List.append_assoc, List.drop_left' (by simp), List.take_left' rfl]

theorem framed_bool (v : Value) :
    Framed py .boolean [if v.truthy then 1 else 0] (.bool v.truthy) := by
  refine ⟨rfl, fun rest => ?_, rfl⟩
  cases v.truthy <;> rfl

theorem framed_text {s : String} {bs : Bytes}
    (h : packUnsigned 4 (encodeUtf8 s).length = .ok bs) :
    Framed py .text (bs ++ encodeUtf8 s) (.str s) := by
  refine ⟨rfl, fun rest => ?_, ?_⟩
  · obtain ⟨hlength, hraw, -⟩ := framed_prefixed rest h
    simp only [DataType.deserialize, hlength, Lib.ok_bind, hraw, decodeUtf8_encodeUtf8]
    rfl
  · have hlen := (framed_prefixed [] h).2.2
    simp [DataType.storageSize, Value.toStr, hlen]

theorem framed_varchar {n : ℤ} {s : String} {bs : Bytes} (hfits : (encodeUtf8 s).length ≤ n)
    (h : packUnsigned 2 (encodeUtf8 s).length = .ok bs) :
    Framed py (.varchar n) (bs ++ encodeUtf8 s) (.str s) := by
  refine ⟨rfl, fun rest => ?_, ?_⟩
  · obtain ⟨hlength, hraw, -⟩ := framed_prefixed rest h
    simp only [DataType.deserialize, hlength, Lib.ok_bind, hraw, decodeUtf8_encodeUtf8]
    rfl
  · have hlen := (framed_prefixed [] h).2.2
    simp [DataType.storageSize, Value.toStr, hlen, min_eq_left hfits]

theorem framed_blob {raw bs : Bytes} (h : packUnsigned 4 raw.length = .ok bs) :
    Framed py .blob (bs ++ raw) (.bytes raw) := by
  refine ⟨rfl, fun rest => ?_, ?_⟩
  · obtain ⟨hlength, hraw, -⟩ := framed_prefixed rest h
    simp only [DataType.deserialize, hlength, Lib.ok_bind, hraw]
    rfl
  · have hlen := (framed_prefixed [] h).2.2
    simp only [DataType.storageSize, toBytes, Lib.ok_bind, List.length_append, hlen]
    push_cast
    rfl

theorem slice_of_nonneg {xs : Bytes} {a b : ℤ} (ha : 0 ≤ a) (hb : 0 ≤ b) :
    Query.slice xs a b = (xs.take b.toNat).drop a.toNat := by
  unfold Query.slice
  simp only [not_lt.mpr ha, not_lt.mpr hb, if_false]

theorem slice_zero {xs : Bytes} {n : ℤ} (h0 : 0 ≤ n) : Query.slice xs 0 n = xs.take n.toNat :=
  slice_of_nonneg le_rfl h0

/-- `data[offset:]` -/
theorem slice_append (xs ys : Bytes) :
    Query.slice (xs ++ ys) xs.length (xs ++ ys).length = ys := by
  rw [slice_of_nonneg (Int.natCast_nonneg _) (Int.natCast_nonneg _), Int.toNat_natCast,
    Int.toNat_natCast, List.take_length, List.drop_left' rfl]

/-- The padding is read as spaces, which `rstrip` takes off again. -/
theorem framed_char {n : ℤ} {s : String} (hfits : (encodeUtf8 s).length ≤ n) :
    ∃ v, Framed py (.char n)
      (encodeUtf8 s ++ List.replicate (n - (encodeUtf8 s).length).toNat 0x20) v := by
  have hlen : (encodeUtf8 s ++ List.replicate (n - (encodeUtf8 s).length).toNat (0x20 : UInt8)).length
      = n.toNat := by
    rw [List.length_append, List.length_replicate]
    omega
  refine ⟨.str (py.rstrip (s ++ String.ofList (List.replicate (n - (encodeUtf8 s).length).toNat ' '))),
    rfl, fun rest => ?_, ?_⟩
  · rw [DataType.deserialize, slice_zero (by omega), List.take_left' hlen, ← encodeUtf8_spaces,
      ← encodeUtf8_append, decodeUtf8_encodeUtf8]
    rfl
  · rw [DataType.storageSize, hlen, Int.toNat_of_nonneg (by omega)]

/-- Every column type writes the values it accepts in a frame of their own. -/
theorem exists_framed {t : DataType} {v : Value} {bs : Bytes} (hvalid : t.validate v = true)
    (h : t.serialize py v = .ok bs) : ∃ w, Framed py t bs w := by
  cases t with
  | boolean =>
    obtain rfl := Except.ok.inj h
    exact ⟨_, framed_bool v⟩
  | integer =>
    obtain ⟨n, -, hpack⟩ := Lib.bind_eq_ok h
    exact ⟨_, framed_int (.inl rfl) hpack⟩
  | timestamp =>
    obtain ⟨n, -, hpack⟩ := Lib.bind_eq_ok h
    exact ⟨_, framed_int (.inr rfl) hpack⟩
  | float =>
    obtain ⟨x, -, hpack⟩ := Lib.bind_eq_ok h
    obtain rfl := Except.ok.inj hpack
    exact ⟨_, framed_float x⟩
  | text =>
    obtain ⟨len, hpack, hbs⟩ := Lib.bind_eq_ok h
    obtain rfl := Except.ok.inj hbs
    exact ⟨_, framed_text hpack⟩
  | varchar n =>
    cases v with
    | str s =>
      have hfits : (encodeUtf8 s).length ≤ n := by simpa [DataType.validate] using hvalid
      have hall : Query.slice (encodeUtf8 s) 0 n = encodeUtf8 s := by
        rw [slice_zero (by omega), List.take_of_length_le (by omega)]
      obtain ⟨len, hpack, hbs⟩ := Lib.bind_eq_ok h
      simp only [Value.toStr, hall] at hpack hbs
      obtain rfl := Except.ok.inj hbs
      exact ⟨_, framed_varchar hfits hpack⟩
    | _ => simp [DataType.validate] at hvalid
  | char n =>
    cases v with
    | str s =>
      have hfits : (encodeUtf8 s).length ≤ n := by simpa [DataType.validate] using hvalid
      have hall : Query.slice (encodeUtf8 s) 0 n = encodeUtf8 s := by
        rw [slice_zero (by omega), List.take_of_length_le (by omega)]
      obtain rfl := Except.ok.inj h
      simp only [Value.toStr, hall]
      exact framed_char hfits
    | _ => simp [DataType.validate] at hvalid
  | blob =>
    obtain ⟨raw, -, h⟩ := Lib.bind_eq_ok h
    obtain ⟨len, hpack, hbs⟩ := Lib.bind_eq_ok h
    obtain rfl := Except.ok.inj hbs
    exact ⟨_, framed_blob hpack⟩

end

/-! ## The bitmap of the NULL columns -/

namespace RecordSerializer

/-- The bits of a byte that is a sum of powers of two. -/
theorem bit_of_sum (f : ℕ → Bool) {k : ℕ} (hk : k < 8) :
    (UInt8.ofNat ((List.range 8).map fun bit => if f bit then 2 ^ bit else 0).sum).toNat / 2 ^ k % 2
      = if f k then 1 else 0 := by
  have hrange : List.range 8 = [0, 1, 2, 3, 4, 5, 6, 7] := rfl
  simp only [hrange, List.map_cons, List.map_nil, List.sum_cons, List.sum_nil]
  -- eight bits that may be anything, and each of them is asked for
  have hbits : ∀ b0 b1 b2 b3 b4 b5 b6 b7 : Bool, ∀ i : Fin 8,
      (UInt8.ofNat ((if b0 then 2 ^ 0 else 0) + ((if b1 then 2 ^ 1 else 0) +
        ((if b2 then 2 ^ 2 else 0) + ((if b3 then 2 ^ 3 else 0) + ((if b4 then 2 ^ 4 else 0) +
        ((if b5 then 2 ^ 5 else 0) + ((if b6 then 2 ^ 6 else 0) +
        ((if b7 then 2 ^ 7 else 0) + 0))))))))).toNat / 2 ^ i.val % 2
      = if [b0, b1, b2, b3, b4, b5, b6, b7][i.val] then 1 else 0 := by
    decide +kernel
  rw [hbits (f 0) (f 1) (f 2) (f 3) (f 4) (f 5) (f 6) (f 7) ⟨k, hk⟩]
  interval_cases k <;> rfl

/-- Each column has its bit, in whatever byte it falls. -/
theorem nullBitmap_bit {row : Row} {i : ℕ} {v : Value} (h : row[i]? = some v) :
    ∃ byte, (nullBitmap row)[i / 8]? = some byte ∧
      (byte.toNat / 2 ^ (i % 8) % 2 = 1 ↔ v.isNull = true) := by
  have hi : i < row.length := (List.getElem?_eq_some_iff.mp h).1
  have hbyte : i / 8 < nullBitmapSize row.length := by
    unfold nullBitmapSize
    omega
  refine ⟨_, by rw [nullBitmap, List.getElem?_map, List.getElem?_range hbyte]; rfl, ?_⟩
  rw [bit_of_sum (fun bit => (row[8 * (i / 8) + bit]?).elim false Value.isNull) (by omega),
    Nat.div_add_mod, h]
  show (if v.isNull then 1 else 0) = 1 ↔ _
  cases v.isNull <;> simp

@[simp] theorem length_nullBitmap (row : Row) :
    (nullBitmap row).length = nullBitmapSize row.length := by
  simp [nullBitmap]

end RecordSerializer

/-! ## Rows -/

/-- NULL, or a value that the column's type accepts and can write. -/
def Storable (t : DataType) (v : Value) : Prop :=
  v = .null ∨ t.validate v = true ∧ ∃ bs, t.serialize py v = .ok bs

/-- What a column's own type reads back of a value. -/
def reread (t : DataType) (v : Value) : Except PyError Value := do
  t.deserialize py (← t.serialize py v)

/-- NULL is read at a NULL column, and at every other column what its own type reads back. -/
def ReadsBack (column : DataType × Value) (v : Value) : Prop :=
  if column.2 = .null then v = .null else v ≠ .null ∧ reread py column.1 column.2 = .ok v

namespace RecordSerializer

variable {py}

/-- A NULL column takes no bytes. -/
theorem serializeColumns_null (t : DataType) (types : List DataType) (row : Row) :
    serializeColumns py (t :: types) (.null :: row) = serializeColumns py types row := by
  rw [serializeColumns]
  cases serializeColumns py types row <;> rfl

theorem serializeColumns_cons {v : Value} (h : v.isNull = false) (t : DataType)
    (types : List DataType) (row : Row) :
    serializeColumns py (t :: types) (v :: row) = do
      let part ← t.serialize py v
      return part ++ (← serializeColumns py types row) := by
  rw [serializeColumns, h]
  rfl

theorem exists_serializeColumns {types : List DataType} {row : Row}
    (h : List.Forall₂ (Storable py) types row) : ∃ bs, serializeColumns py types row = .ok bs := by
  induction h with
  | nil => exact ⟨[], rfl⟩
  | @cons t v types row hv hrow ih =>
    obtain ⟨bs, hbs⟩ := ih
    rcases hv with rfl | ⟨-, part, hpart⟩
    · exact ⟨bs, by rw [serializeColumns_null, hbs]⟩
    · cases hnull : v.isNull with
      | true =>
        obtain rfl := Value.isNull_iff.mp hnull
        exact ⟨bs, by rw [serializeColumns_null, hbs]⟩
      | false =>
        exact ⟨part ++ bs, by rw [serializeColumns_cons hnull, hpart, Lib.ok_bind, hbs]; rfl⟩

/-- The columns that remain are read from the byte where the next one starts. -/
theorem deserializeColumns_serializeColumns {types : List DataType} {row : Row}
    (h : List.Forall₂ (Storable py) types row) {bitmap bs : Bytes} (before : Bytes) {i : ℕ}
    (hbs : serializeColumns py types row = .ok bs)
    (hbits : ∀ j v, row[j]? = some v → ∃ byte, bitmap[(i + j) / 8]? = some byte ∧
      (byte.toNat / 2 ^ ((i + j) % 8) % 2 = 1 ↔ v.isNull = true)) :
    ∃ row', deserializeColumns py bitmap (before ++ bs) i before.length types = .ok row' ∧
      List.Forall₂ (ReadsBack py) (types.zip row) row' := by
  induction h generalizing before bs i with
  | nil => exact ⟨[], rfl, .nil⟩
  | @cons t v types row hv hrow ih =>
    have hnext : ∀ j w, row[j]? = some w → ∃ byte, bitmap[(i + 1 + j) / 8]? = some byte ∧
        (byte.toNat / 2 ^ ((i + 1 + j) % 8) % 2 = 1 ↔ w.isNull = true) := by
      intro j w hw
      have hbit := hbits (j + 1) w (by simpa using hw)
      rwa [show i + (j + 1) = i + 1 + j by omega] at hbit
    obtain ⟨byte, hbyte, hbit⟩ := hbits 0 v rfl
    rw [Nat.add_zero] at hbyte hbit
    cases hnull : v.isNull with
    | true =>
      obtain rfl := Value.isNull_iff.mp hnull
      rw [serializeColumns_null] at hbs
      obtain ⟨row', hrow', hreads⟩ := ih before hbs hnext
      refine ⟨.null :: row', ?_, .cons (by simp [ReadsBack]) hreads⟩
      rw [deserializeColumns, hbyte]
      simp only [hbit.mpr hnull, if_true, hrow']
      rfl
    | false =>
      rw [serializeColumns_cons hnull] at hbs
      obtain ⟨part, hpart, hbs⟩ := Lib.bind_eq_ok hbs
      obtain ⟨more, hmore, hbs⟩ := Lib.bind_eq_ok hbs
      obtain rfl := Except.ok.inj hbs
      obtain ⟨hvalid, -⟩ : t.validate v = true ∧ _ := by
        rcases hv with rfl | hv
        · cases hnull
        · exact hv
      obtain ⟨w, hw⟩ := exists_framed hvalid hpart
      obtain ⟨row', hrow', hreads⟩ := ih (before ++ part) hmore hnext
      refine ⟨w :: row', ?_, .cons ?_ hreads⟩
      · have hlen : ((before ++ part).length : ℤ) = before.length + part.length := by simp
        rw [List.append_assoc, hlen] at hrow'
        rw [deserializeColumns, hbyte]
        simp only [hbit, hnull, Bool.false_eq_true, if_false, slice_append, hw.reads, hw.size,
          Lib.ok_bind, hrow']
        rfl
      · have hread := hw.reads []
        rw [List.append_nil] at hread
        have hv : v ≠ .null := fun h => by simp [h] at hnull
        have hw' : w ≠ .null := fun h => by simpa [h] using hw.notNull
        rw [ReadsBack, if_neg hv, reread, hpart]
        exact ⟨hw', hread⟩

/-- A row of values that its table's columns accept and can write is read back column by column. -/
theorem deserialize_serialize {schema : TableSchema} {row : Row}
    (hcolumns : schema.columnTypes.length = schema.columnNames.length)
    (hrow : List.Forall₂ (Storable py) schema.columnTypes row) :
    ∃ data row', serialize py schema row = .ok data ∧ deserialize py schema data = .ok row' ∧
      List.Forall₂ (ReadsBack py) (schema.columnTypes.zip row) row' := by
  have hlen : row.length = schema.columnNames.length := by rw [← hrow.length_eq, hcolumns]
  obtain ⟨bs, hbs⟩ := exists_serializeColumns hrow
  have hsize : nullBitmapSize schema.columnNames.length = (nullBitmap row).length := by
    rw [length_nullBitmap, hlen]
  have hbits : ∀ j v, row[j]? = some v → ∃ byte, (nullBitmap row)[(0 + j) / 8]? = some byte ∧
      (byte.toNat / 2 ^ ((0 + j) % 8) % 2 = 1 ↔ v.isNull = true) := by
    intro j v hv
    rw [Nat.zero_add]
    exact nullBitmap_bit hv
  obtain ⟨row', hread, hback⟩ :=
    deserializeColumns_serializeColumns hrow (nullBitmap row) hbs hbits
  refine ⟨nullBitmap row ++ bs, row', ?_, ?_, hback⟩
  · rw [serialize, if_neg (by simp [hlen]), hbs]
    rfl
  · unfold deserialize
    simp only [hsize, List.take_left' rfl, hread]

/-- Three columns, the second of them NULL. -/
theorem deserialize_serialize_three :
    ∃ data row',
      serialize .ascii ⟨"t", ["a", "b", "c"], [.integer, .text, .varchar 4], none⟩
        [.int 7, .null, .str "hm"] = .ok data ∧
      deserialize .ascii ⟨"t", ["a", "b", "c"], [.integer, .text, .varchar 4], none⟩ data
        = .ok row' ∧
      List.Forall₂ (ReadsBack .ascii)
        [(.integer, .int 7), (.text, .null), (.varchar 4, .str "hm")] row' :=
  deserialize_serialize rfl
    (.cons (.inr ⟨by decide, Lib.exists_ok_of_isOk (by decide +kernel)⟩) (.cons (.inl rfl)
      (.cons (.inr ⟨by decide +kernel, Lib.exists_ok_of_isOk (by decide +kernel)⟩) .nil)))

end RecordSerializer

end PySQL.Storage
