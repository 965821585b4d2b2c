import Mathlib.Data.List.DropRight
import PySQL.Storage.RowFraming

/-!
# Text columns of a limited width

VARCHAR and CHAR cut a text after so many bytes.  The bytes that are left are a text again only if
the cut falls between two characters.
-/

namespace PySQL.Storage

open Query

/-- The longest beginning of a text that takes at most `n` bytes. -/
structure LongestFit (n : ℕ) (s r : String) : Prop where
  initial : ∃ rest, s = r ++ rest
  fits : (encodeUtf8 r).length ≤ n
  longest : ∀ r' rest, s = r' ++ rest → (encodeUtf8 r').length ≤ n → ∃ more, r = r' ++ more

/-- A cut of a text after `n` bytes that falls between two characters, or behind the last one. -/
structure CleanCut (n : ℕ) (s r : String) : Prop where
  fits : (encodeUtf8 r).length ≤ n
  cut : s = r ∨ (encodeUtf8 r).length = n ∧ ∃ rest, s = r ++ rest

section

variable {n : ℕ} {s r r' : String}

theorem eq_of_append {more : String} (h : r = r' ++ more)
    (hlen : (encodeUtf8 r).length ≤ (encodeUtf8 r').length) : r = r' := by
  have hbytes : encodeUtf8 r = encodeUtf8 r' ++ encodeUtf8 more := by rw [h, encodeUtf8_append]
  have hmore : encodeUtf8 more = [] := by
    rw [hbytes, List.length_append] at hlen
    exact List.length_eq_zero_iff.mp (by omega)
  rw [← encodeUtf8_inj, hbytes, hmore, List.append_nil]

theorem LongestFit.unique (h : LongestFit n s r) (h' : LongestFit n s r') : r = r' := by
  obtain ⟨rest, hrest⟩ := h.initial
  obtain ⟨rest', hrest'⟩ := h'.initial
  obtain ⟨a, ha⟩ := h.longest r' rest' hrest' h'.fits
  obtain ⟨b, hb⟩ := h'.longest r rest hrest h.fits
  apply eq_of_append ha
  rw [hb, encodeUtf8_append, List.length_append]
  omega

/-- Of two beginnings of a text the one with fewer bytes is a beginning of the other. -/
theorem exists_append_of_length_le {rest rest' : String} (h : r ++ rest = r' ++ rest')
    (hlen : (encodeUtf8 r').length ≤ (encodeUtf8 r).length) : ∃ more, r = r' ++ more := by
  have hbytes : encodeUtf8 r ++ encodeUtf8 rest = encodeUtf8 r' ++ encodeUtf8 rest' := by
    rw [← encodeUtf8_append, h, encodeUtf8_append]
  obtain ⟨bs, hbs⟩ := List.prefix_of_prefix_length_le (List.prefix_append _ _)
    (hbytes ▸ List.prefix_append _ _) hlen
  exact exists_append_of_encodeUtf8 hbs

theorem CleanCut.longestFit (h : CleanCut n s r) : LongestFit n s r := by
  rcases h.cut with rfl | ⟨hlen, rest, rfl⟩
  · exact ⟨⟨"", by simp⟩, h.fits, fun r' rest hs _ => ⟨rest, hs⟩⟩
  · refine ⟨⟨rest, rfl⟩, h.fits, fun r' rest' hs hfits => ?_⟩
    exact exists_append_of_length_le hs (hlen ▸ hfits)

/-- The first bytes of a text are a text exactly if the cut is clean. -/
theorem decodeUtf8_take_iff : decodeUtf8 ((encodeUtf8 s).take n) = .ok r ↔ CleanCut n s r := by
  rw [decodeUtf8_eq_ok]
  constructor
  · intro h
    have hlen : (encodeUtf8 r).length = min n (encodeUtf8 s).length := by
      rw [← h, List.length_take]
    have hwhole : encodeUtf8 r ++ (encodeUtf8 s).drop n = encodeUtf8 s := by
      rw [← h, List.take_append_drop]
    obtain ⟨rest, hrest⟩ := exists_append_of_encodeUtf8 hwhole
    refine ⟨by omega, ?_⟩
    rcases le_or_gt (encodeUtf8 s).length n with hle | hgt
    · exact .inl (eq_of_append hrest (by omega))
    · exact .inr ⟨by omega, rest, hrest⟩
  · rintro ⟨hfits, rfl | ⟨hlen, rest, rfl⟩⟩
    · exact List.take_of_length_le hfits
    · rw [encodeUtf8_append, List.take_left' hlen]

end

/-! ## VARCHAR and CHAR -/

variable (py : Py)

/-- What a text column promises: a text reads back as its longest beginning that fits, and the
storage size of that is the number of bytes written. -/
def Readable (t : DataType) (n : ℕ) (s : String) : Prop :=
  ∃ bs r, t.serialize py (.str s) = .ok bs ∧ t.deserialize py bs = .ok (.str r) ∧
    LongestFit n s r ∧ t.storageSize py (.str r) = .ok bs.length

section

variable {py} {n : ℕ} {s : String}

/-- The bytes that a VARCHAR column reads are those that it wrote. -/
theorem varchar_reread (hn : n ≤ 65535) :
    ∃ bs, (DataType.varchar n).serialize py (.str s) = .ok bs ∧
      bs.length = 2 + ((encodeUtf8 s).take n).length ∧
      (DataType.varchar n).deserialize py bs =
        (decodeUtf8 ((encodeUtf8 s).take n)).map .str := by
  set raw := (encodeUtf8 s).take n with hraw
  have hlen : raw.length ≤ n := List.length_take_le _ _
  have hpack : packUnsigned 2 raw.length = .ok (packBE 2 raw.length) := packUnsigned_eq (by omega)
  obtain ⟨hlength, hread, -⟩ := framed_prefixed [] hpack
  refine ⟨packBE 2 raw.length ++ raw, ?_, by simp, ?_⟩
  · simp only [DataType.serialize, Value.toStr, slice_zero (Int.natCast_nonneg n), Int.toNat_natCast,
      ← hraw, hpack]
    rfl
  · rw [List.append_nil] at hlength hread
    simp only [DataType.deserialize, hlength, Lib.ok_bind, hread]
    cases decodeUtf8 raw <;> rfl

theorem readable_varchar_iff (hn : n ≤ 65535) :
    Readable py (.varchar n) n s ↔ ∃ r, CleanCut n s r := by
  obtain ⟨bs, hserialize, hlen, hdeserialize⟩ := @varchar_reread py n s hn
  constructor
  · rintro ⟨bs', r, hbs', hr, -⟩
    obtain rfl : bs = bs' := Except.ok.inj (hserialize.symm.trans hbs')
    rw [hdeserialize] at hr
    cases hdecode : decodeUtf8 ((encodeUtf8 s).take n) with
    | error e =>
      rw [hdecode] at hr
      cases hr
    | ok r => exact ⟨r, decodeUtf8_take_iff.mp hdecode⟩
  · rintro ⟨r, hr⟩
    have hdecode := decodeUtf8_take_iff.mpr hr
    refine ⟨bs, r, hserialize, by rw [hdeserialize, hdecode]; rfl, hr.longestFit, ?_⟩
    have hraw := decodeUtf8_eq_ok.mp hdecode
    have hfits := hr.fits
    rw [hlen, hraw, DataType.storageSize, Value.toStr, min_eq_left (by omega)]
    push_cast
    rfl

-- the white space that `rstrip` takes off
variable {isSpace : Char → Bool}

theorem rstrip_spaces (hspace : isSpace ' ' = true) (k : ℕ) :
    (s ++ String.ofList (List.replicate k ' ')).toList.rdropWhile isSpace
      = s.toList.rdropWhile isSpace := by
  induction k with
  | zero => simp
  | succ k ih =>
    rw [← ih, List.replicate_succ', String.ofList_append, ← String.append_assoc,
      String.toList_append, String.toList_ofList, List.rdropWhile_concat_pos _ _ _ hspace]

/-- A CHAR column reads what it wrote, less the white space at the end. -/
theorem char_reread (hspace : isSpace ' ' = true)
    (hrstrip : ∀ s, py.rstrip s = String.ofList (s.toList.rdropWhile isSpace)) :
    ∃ bs, (DataType.char n).serialize py (.str s) = .ok bs ∧ bs.length = n ∧
      (DataType.char n).deserialize py bs =
        (decodeUtf8 ((encodeUtf8 s).take n)).map fun r => .str (py.rstrip r) := by
  set raw := (encodeUtf8 s).take n with hraw
  have hlen : raw.length = min n (encodeUtf8 s).length := List.length_take
  have hbytes : (raw ++ List.replicate ((n : ℤ) - raw.length).toNat (0x20 : UInt8)).length = n := by
    rw [List.length_append, List.length_replicate]
    omega
  refine ⟨raw ++ List.replicate ((n : ℤ) - raw.length).toNat 0x20, ?_, hbytes, ?_⟩
  · simp only [DataType.serialize, Value.toStr, slice_zero (Int.natCast_nonneg n), Int.toNat_natCast,
      ← hraw]
  · rw [DataType.deserialize, slice_zero (Int.natCast_nonneg n), Int.toNat_natCast,
      List.take_of_length_le hbytes.le]
    rcases le_or_gt n (encodeUtf8 s).length with hle | hgt
    · -- the text fills the column
      rw [show ((n : ℤ) - raw.length).toNat = 0 by omega, List.replicate_zero, List.append_nil]
      cases decodeUtf8 raw <;> rfl
    · -- the whole text and the padding
      rw [hraw, List.take_of_length_le hgt.le, ← encodeUtf8_spaces, ← encodeUtf8_append,
        decodeUtf8_encodeUtf8, decodeUtf8_encodeUtf8]
      show Except.ok (Value.str (py.rstrip _)) = Except.ok (Value.str (py.rstrip _))
      rw [hrstrip, hrstrip, rstrip_spaces hspace]

theorem rstrip_eq_self_iff
    (hrstrip : ∀ s, py.rstrip s = String.ofList (s.toList.rdropWhile isSpace)) {r : String} :
    py.rstrip r = r ↔ ∀ c ∈ r.toList.getLast?, isSpace c = false := by
  rw [hrstrip, ← String.toList_inj, String.toList_ofList, List.rdropWhile_eq_self_iff]
  constructor
  · intro h c hc
    obtain ⟨hne, rfl⟩ := List.mem_getLast?_eq_getLast hc
    exact Bool.eq_false_iff.mpr (h hne)
  · intro h hne
    exact Bool.eq_false_iff.mp (h _ (List.getLast?_eq_getLast_of_ne_nil hne))

theorem readable_char_iff (hspace : isSpace ' ' = true)
    (hrstrip : ∀ s, py.rstrip s = String.ofList (s.toList.rdropWhile isSpace)) :
    Readable py (.char n) n s ↔
      ∃ r, CleanCut n s r ∧ ∀ c ∈ r.toList.getLast?, isSpace c = false := by
  obtain ⟨bs, hserialize, hlen, hdeserialize⟩ := char_reread (n := n) (s := s) hspace hrstrip
  constructor
  · rintro ⟨bs', r, hbs', hr, hlongest, -⟩
    obtain rfl : bs = bs' := Except.ok.inj (hserialize.symm.trans hbs')
    rw [hdeserialize] at hr
    cases hdecode : decodeUtf8 ((encodeUtf8 s).take n) with
    | error e =>
      rw [hdecode] at hr
      cases hr
    | ok r' =>
      rw [hdecode] at hr
      have hcut := decodeUtf8_take_iff.mp hdecode
      have hstrip : py.rstrip r' = r := by injection Except.ok.inj hr
      -- what was read has to be the longest beginning itself
      rw [hlongest.unique hcut.longestFit] at hstrip
      exact ⟨r', hcut, (rstrip_eq_self_iff hrstrip).mp hstrip⟩
  · rintro ⟨r, hr, hlast⟩
    have hdecode := decodeUtf8_take_iff.mpr hr
    refine ⟨bs, r, hserialize, ?_, hr.longestFit, by rw [DataType.storageSize, hlen]⟩
    rw [hdeserialize, hdecode]
    show Except.ok (Value.str (py.rstrip r)) = _
    rw [(rstrip_eq_self_iff hrstrip).mpr hlast]

/-- VARCHAR keeps its promise exactly if the cut falls between two characters, and CHAR if besides
what is left does not end in white space of its own. -/
theorem readable_iff (hspace : isSpace ' ' = true)
    (hrstrip : ∀ s, py.rstrip s = String.ofList (s.toList.rdropWhile isSpace)) (hn : n ≤ 65535) :
    (Readable py (.varchar n) n s ↔ ∃ r, CleanCut n s r) ∧
    (Readable py (.char n) n s ↔
      ∃ r, CleanCut n s r ∧ ∀ c ∈ r.toList.getLast?, isSpace c = false) :=
  ⟨readable_varchar_iff hn, readable_char_iff hspace hrstrip⟩

theorem readable_iff_abc :
    (Readable .ascii (.varchar 2) 2 "abc" ↔ ∃ r, CleanCut 2 "abc" r) ∧
    (Readable .ascii (.char 2) 2 "abc" ↔
      ∃ r, CleanCut 2 "abc" r ∧ ∀ c ∈ r.toList.getLast?, c.isWhitespace = false) :=
  readable_iff rfl (fun _ => rfl) (by decide)

/-- The cut falls inside the second character, so the column cannot be read; a tab at the end of a
text in a CHAR column is lost. -/
theorem not_readable :
    ¬ Readable .ascii (.varchar 2) 2 "aé" ∧ ¬ Readable .ascii (.char 3) 3 "a\t" := by
  constructor
  · rintro ⟨bs, r, hbs, hr, -⟩
    have hwritten : (DataType.varchar 2).serialize .ascii (.str "aé") = .ok [0, 2, 0x61, 0xC3] := by
      decide +kernel
    have hread : (DataType.varchar 2).deserialize .ascii [0, 2, 0x61, 0xC3]
        = .error (.valueError none) := by
      decide +kernel
    obtain rfl := Except.ok.inj (hwritten.symm.trans hbs)
    cases hread.symm.trans hr
  · rintro ⟨bs, r, hbs, hr, hlongest, -⟩
    have hwritten : (DataType.char 3).serialize .ascii (.str "a\t") = .ok [0x61, 0x09, 0x20] := by
      decide +kernel
    have hread : (DataType.char 3).deserialize .ascii [0x61, 0x09, 0x20] = .ok (.str "a") := by
      decide +kernel
    obtain rfl := Except.ok.inj (hwritten.symm.trans hbs)
    obtain rfl : "a" = r := by injection Except.ok.inj (hread.symm.trans hr)
    obtain ⟨more, hmore⟩ := hlongest.longest "a\t" "" (by simp) (by decide +kernel)
    have hlen := congrArg String.length hmore
    rw [String.length_append] at hlen
    have h1 : "a".length = 1 := by decide +kernel
    have h2 : "a\t".length = 2 := by decide +kernel
    omega

end

end PySQL.Storage
