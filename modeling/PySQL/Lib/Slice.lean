import Mathlib.Tactic

/-!
# Slices with integer bounds

A bound below zero counts from the end, and every bound is clamped to the sequence.  Assigning to a
slice whose start lies past its stop inserts at the start, so it changes the length.
-/

namespace Lib

variable {α : Type*}

/-- The position a slice bound stands for in a sequence of length `n`. -/
def bound (n : ℕ) (i : ℤ) : ℕ := if i < 0 then (i + n).toNat else min i.toNat n

/-- `xs[a:b]` -/
def slice (xs : List α) (a b : ℤ) : List α :=
  (xs.take (bound xs.length b)).drop (bound xs.length a)

/-- `xs[a:b] = ys` -/
def setSlice (xs : List α) (a b : ℤ) (ys : List α) : List α :=
  xs.take (bound xs.length a) ++ ys ++ xs.drop (max (bound xs.length a) (bound xs.length b))

theorem bound_of_le {n : ℕ} {i : ℤ} (h0 : 0 ≤ i) (hi : i ≤ n) : bound n i = i.toNat := by
  rw [bound, if_neg (by omega), Nat.min_eq_left (by omega)]

section InRange

variable {xs ys : List α} {a b : ℤ}

theorem slice_eq (h0 : 0 ≤ a) (hab : a ≤ b) (hb : b ≤ xs.length) :
    slice xs a b = (xs.drop a.toNat).take (b - a).toNat := by
  rw [slice, bound_of_le (by omega) hb, bound_of_le h0 (by omega), List.drop_take]
  congr 1
  omega

theorem setSlice_eq (h0 : 0 ≤ a) (ha : a + ys.length ≤ xs.length) :
    setSlice xs a (a + ys.length) ys =
      xs.take a.toNat ++ ys ++ xs.drop (a.toNat + ys.length) := by
  rw [setSlice, bound_of_le h0 (by omega), bound_of_le (by omega) ha, Nat.max_eq_right (by omega)]
  congr 2
  omega

theorem length_setSlice (h0 : 0 ≤ a) (ha : a + ys.length ≤ xs.length) :
    (setSlice xs a (a + ys.length) ys).length = xs.length := by
  rw [setSlice_eq h0 ha]
  simp only [List.length_append, List.length_take, List.length_drop]
  omega

theorem getElem?_setSlice (h0 : 0 ≤ a) (ha : a + ys.length ≤ xs.length) (n : ℕ) :
    (setSlice xs a (a + ys.length) ys)[n]? =
      if a ≤ n ∧ n < a + ys.length then ys[n - a.toNat]? else xs[n]? := by
  have hlen : (xs.take a.toNat).length = a.toNat := by rw [List.length_take]; omega
  rw [setSlice_eq h0 ha, List.append_assoc]
  by_cases hbelow : n < a.toNat
  · rw [List.getElem?_append_left (by omega), List.getElem?_take_of_lt hbelow, if_neg (by omega)]
  · rw [List.getElem?_append_right (by omega), hlen]
    by_cases hin : n - a.toNat < ys.length
    · rw [List.getElem?_append_left hin, if_pos (by omega)]
    · rw [List.getElem?_append_right (by omega), List.getElem?_drop, if_neg (by omega)]
      congr 1
      omega

theorem getElem?_slice (h0 : 0 ≤ a) (hab : a ≤ b) (hb : b ≤ xs.length) (n : ℕ) :
    (slice xs a b)[n]? = if n < b - a then xs[a.toNat + n]? else none := by
  rw [slice_eq h0 hab hb]
  split
  · rw [List.getElem?_take_of_lt (by omega), List.getElem?_drop]
  · rw [List.getElem?_eq_none (by rw [List.length_take]; omega)]

/-- Reading back what was written. -/
theorem slice_setSlice (h0 : 0 ≤ a) (ha : a + ys.length ≤ xs.length) :
    slice (setSlice xs a (a + ys.length) ys) a (a + ys.length) = ys := by
  refine List.ext_getElem? fun n => ?_
  rw [getElem?_slice h0 (by omega) (by rw [length_setSlice h0 ha]; exact ha),
    getElem?_setSlice h0 ha]
  by_cases hn : n < ys.length
  · rw [if_pos (by omega), if_pos (by omega)]
    congr 1
    omega
  · rw [if_neg (by omega), List.getElem?_eq_none (by omega)]

/-- Writing leaves every range apart from the written one as it was. -/
theorem slice_setSlice_of_disjoint (h0 : 0 ≤ a) (ha : a + ys.length ≤ xs.length) {c d : ℤ}
    (hc : 0 ≤ c) (hcd : c ≤ d) (hd : d ≤ xs.length) (hdis : d ≤ a ∨ a + ys.length ≤ c) :
    slice (setSlice xs a (a + ys.length) ys) c d = slice xs c d := by
  refine List.ext_getElem? fun n => ?_
  rw [getElem?_slice hc hcd (by rw [length_setSlice h0 ha]; exact hd), getElem?_slice hc hcd hd]
  split
  · rw [getElem?_setSlice h0 ha, if_neg (by omega)]
  · rfl

theorem length_slice (h0 : 0 ≤ a) (hab : a ≤ b) (hb : b ≤ xs.length) :
    ((slice xs a b).length : ℤ) = b - a := by
  rw [slice_eq h0 hab hb, List.length_take, List.length_drop]
  omega

/-- Nothing past the stop of a slice is read. -/
theorem length_slice_le (h : 0 ≤ b) : ((slice xs a b).length : ℤ) ≤ b := by
  have hstop : (bound xs.length b : ℤ) ≤ b := by
    rw [bound, if_neg (not_lt.mpr h)]
    omega
  rw [slice, List.length_drop, List.length_take]
  omega

end InRange

/-- A slice from anywhere is no longer than the distance of its bounds. -/
theorem length_slice_add_le (xs : List α) (a : ℤ) (width : ℕ) :
    (slice xs a (a + width)).length ≤ width := by
  rw [slice, List.length_drop, List.length_take]
  unfold bound
  split <;> split <;> omega

/-! ## Fixed-width fields -/

/-- The `width` entries from `off` on. -/
def field (xs : List α) (off width : ℕ) : List α := (xs.drop off).take width

/-- The entries from `off` on replaced by `ys`. -/
def patch (xs : List α) (off : ℕ) (ys : List α) : List α :=
  xs.take off ++ ys ++ xs.drop (off + ys.length)

section Fields

variable {xs ys : List α} {off width : ℕ}

theorem setSlice_eq_patch {a b : ℤ} (ha : a = off) (hb : b = off + ys.length)
    (h : off + ys.length ≤ xs.length) : setSlice xs a b ys = patch xs off ys := by
  subst ha hb
  rw [setSlice_eq (by omega) (by omega), patch, Int.toNat_natCast]

theorem slice_eq_field {a b : ℤ} (h0 : 0 ≤ a) (hab : a ≤ b) :
    slice xs a b = field xs a.toNat (b - a).toNat := by
  refine List.ext_getElem? fun n => ?_
  rw [slice, field, bound, bound, if_neg (by omega), if_neg (by omega), List.getElem?_drop,
    List.getElem?_take, List.getElem?_take, List.getElem?_drop]
  rcases Nat.lt_or_ge (a.toNat + n) xs.length with hin | hout
  · have hmin : min a.toNat xs.length = a.toNat := by omega
    rw [hmin]
    congr 1
    exact propext ⟨fun h => by omega, fun h => by omega⟩
  · rw [List.getElem?_eq_none hout, List.getElem?_eq_none (by omega)]
    split <;> split <;> rfl

@[simp] theorem length_field : (field xs off width).length = min width (xs.length - off) := by
  simp [field]

theorem length_field_of_le (h : off + width ≤ xs.length) : (field xs off width).length = width := by
  rw [length_field]
  omega

theorem length_patch (h : off + ys.length ≤ xs.length) : (patch xs off ys).length = xs.length := by
  simp only [patch, List.length_append, List.length_take, List.length_drop]
  omega

theorem getElem?_field (n : ℕ) :
    (field xs off width)[n]? = if n < width then xs[off + n]? else none := by
  rw [field, List.getElem?_take]
  split <;> simp

theorem getElem?_patch (h : off ≤ xs.length) (n : ℕ) :
    (patch xs off ys)[n]? =
      if off ≤ n ∧ n < off + ys.length then ys[n - off]? else xs[n]? := by
  have hlen : (xs.take off).length = off := by rw [List.length_take]; omega
  rw [patch, List.append_assoc]
  by_cases hbelow : n < off
  · rw [List.getElem?_append_left (by omega), List.getElem?_take_of_lt hbelow, if_neg (by omega)]
  · rw [List.getElem?_append_right (by omega), hlen]
    by_cases hin : n - off < ys.length
    · rw [List.getElem?_append_left hin, if_pos (by omega)]
    · rw [List.getElem?_append_right (by omega), List.getElem?_drop, if_neg (by omega)]
      congr 1
      omega

theorem field_patch_self (h : off ≤ xs.length) (hw : width = ys.length) :
    field (patch xs off ys) off width = ys := by
  refine List.ext_getElem? fun n => ?_
  rw [getElem?_field, getElem?_patch h]
  by_cases hn : n < ys.length
  · rw [if_pos (by omega), if_pos (by omega), Nat.add_sub_cancel_left]
  · rw [if_neg (by omega), List.getElem?_eq_none (by omega)]

/-- A patch leaves every field apart from the written one as it was. -/
theorem field_patch_of_disjoint (h : off ≤ xs.length) {off' : ℕ}
    (hdis : off' + width ≤ off ∨ off + ys.length ≤ off') :
    field (patch xs off ys) off' width = field xs off' width := by
  refine List.ext_getElem? fun n => ?_
  rw [getElem?_field, getElem?_field, getElem?_patch h]
  split
  · rw [if_neg (by omega)]
  · rfl

/-- Writing a field back. -/
@[simp] theorem patch_field_self (h : off + width ≤ xs.length) :
    patch xs off (field xs off width) = xs := by
  refine List.ext_getElem? fun n => ?_
  rw [getElem?_patch (by omega), length_field_of_le h, getElem?_field]
  split
  · rw [if_pos (by omega)]
    congr 1
    omega
  · rfl

theorem field_append_left (h : off + width ≤ xs.length) :
    field (xs ++ ys) off width = field xs off width := by
  refine List.ext_getElem? fun n => ?_
  rw [getElem?_field, getElem?_field]
  split
  · exact List.getElem?_append_left (by omega)
  · rfl

theorem field_append_right (h : xs.length ≤ off) :
    field (xs ++ ys) off width = field ys (off - xs.length) width := by
  refine List.ext_getElem? fun n => ?_
  rw [getElem?_field, getElem?_field]
  split
  · rw [List.getElem?_append_right (by omega), Nat.sub_add_comm h]
  · rfl

theorem field_eq_self (h : xs.length ≤ width) : field xs 0 width = xs := by
  rw [field, List.drop_zero, List.take_of_length_le h]

theorem field_append_field {i w w' : ℕ} :
    field xs i w ++ field xs (i + w) w' = field xs i (w + w') := by
  rw [field, field, field, ← List.drop_drop, List.take_add]

theorem field_field {i w i' w' : ℕ} (h : i' + w' ≤ w) :
    field (field xs i w) i' w' = field xs (i + i') w' := by
  refine List.ext_getElem? fun n => ?_
  rw [getElem?_field, getElem?_field, getElem?_field]
  split
  · rw [if_pos (by omega), Nat.add_assoc]
  · rfl

/-- A second patch at the same place wins. -/
theorem patch_patch {zs : List α} (h : off ≤ xs.length) (hlen : zs.length = ys.length) :
    patch (patch xs off ys) off zs = patch xs off zs := by
  have hsize : off ≤ (patch xs off ys).length := by
    simp only [patch, List.length_append, List.length_take]
    omega
  refine List.ext_getElem? fun n => ?_
  rw [getElem?_patch hsize, getElem?_patch h, getElem?_patch h]
  split
  · rfl
  · rw [if_neg (by omega)]

end Fields

end Lib
