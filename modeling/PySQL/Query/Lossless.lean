import PySQL.Query.Columnar

/-!
# When a batch gives its rows back

`from_rows` takes the type of a vector from the first value of a column that is not NULL, and `append`
converts every other value to it.  What comes back is what the conversion has left of a value.  A
column whose first value is neither an int nor a float nor a str becomes a column of texts.
-/

namespace PySQL.Query

open Lib

variable {py : Py} {schema : List String} {rows : List Row} {batch : RecordBatch} {j : ℕ}

/-! ## What the appends leave -/

namespace ColumnVector

variable {vec vec' : ColumnVector} {v : Value}

theorem append_eq_ok (h : vec.append py v = .ok vec') :
    (∃ w, vec.type.stored py v = .ok w) ∧ vec'.type = vec.type := by
  rw [append] at h
  cases hnull : v.isNull with
  | true =>
    refine ⟨⟨.null, by rw [VectorType.stored, hnull, if_pos rfl]⟩, ?_⟩
    rw [hnull, if_pos rfl, setNull] at h
    cases hbit : setBit vec.nullMask vec.length with
    | none => rw [hbit] at h; cases h
    | some mask =>
      rw [hbit] at h
      obtain rfl := Except.ok.inj h
      rfl
  | false =>
    rw [hnull, if_neg Bool.false_ne_true] at h
    obtain ⟨w, hw, hset⟩ := bind_eq_ok h
    refine ⟨⟨w, by rw [VectorType.stored, hnull, if_neg Bool.false_ne_true, hw]⟩, ?_⟩
    split at hset
    · obtain rfl := Except.ok.inj hset
      rfl
    · cases hset

/-- A loop that appends values raises unless the vector can keep each of them. -/
theorem stored_of_appendAll {α : Type} {f : α → Except PyError Value} {g : α → Value} {l : List α}
    (hf : ∀ x ∈ l, f x = .ok (g x))
    (h : l.foldlM (fun vec x => do vec.append py (← f x)) vec = .ok vec') :
    ∀ x ∈ l, ∃ w, vec.type.stored py (g x) = .ok w := by
  induction l generalizing vec with
  | nil => exact fun x hx => nomatch hx
  | cons x xs ih =>
    rw [List.forall_mem_cons] at hf
    rw [List.foldlM_cons, hf.1] at h
    obtain ⟨next, hnext, hrest⟩ := bind_eq_ok h
    obtain ⟨hx, htype⟩ := append_eq_ok hnext
    exact List.forall_mem_cons.mpr ⟨hx, htype ▸ ih hf.2 hrest⟩

end ColumnVector

/-- The type of the vector for a column. -/
def columnType (j : ℕ) (rows : List Row) : VectorType :=
  .ofSample (((column j rows).find? fun v => !v.isNull).getD .null)

/-- What the vector of a column keeps of a value. -/
def keptCell (py : Py) (rows : List Row) (j : ℕ) (v : Value) : Value :=
  ((columnType j rows).stored py v).toOption.getD .null

def keptRows (py : Py) (rows : List Row) : List Row :=
  rows.map fun row => row.mapIdx (keptCell py rows)

/-- Every value can be converted to the type of its column. -/
def Convertible (py : Py) (schema : List String) (rows : List Row) : Prop :=
  ∀ j < schema.length, ∀ v ∈ column j rows, ∃ w, (columnType j rows).stored py v = .ok w

@[simp] theorem keptCell_null : keptCell py rows j .null = .null := rfl

theorem stored_eq_keptCell {v w : Value} (h : (columnType j rows).stored py v = .ok w) :
    keptCell py rows j v = w := by
  rw [keptCell, h]
  rfl

theorem column_keptRows : column j (keptRows py rows) = (column j rows).map (keptCell py rows j) := by
  rw [column, column, keptRows, List.map_map, List.map_map]
  refine List.map_congr_left fun row _ => ?_
  show ((row.mapIdx (keptCell py rows))[j]?).getD .null = keptCell py rows j ((row[j]?).getD .null)
  rw [List.getElem?_mapIdx]
  cases row[j]? <;> rfl

section Rectangular

variable (hrect : ∀ row ∈ rows, row.length = schema.length)
include hrect

theorem cell_of_rect (hj : j < schema.length) :
    ∀ row ∈ rows, cell j row = .ok ((row[j]?).getD .null) := by
  intro row hrow
  rw [Query.cell, List.getElem?_eq_getElem (by rw [hrect row hrow]; exact hj)]
  rfl

theorem vectorOf_eq (hj : j < schema.length) : RecordBatch.vectorOf py rows j =
    rows.foldlM (fun vec row => do vec.append py (← cell j row))
      (.new (columnType j rows) (max rows.length vectorSize)) := by
  rw [RecordBatch.vectorOf, sampleOf_eq (cell_of_rect hrect hj)]
  rfl

theorem convertible_of_fromRows (h : RecordBatch.fromRows py schema rows = .ok batch) :
    Convertible py schema rows := by
  intro j hj v hv
  have hrows : rows ≠ [] := by
    rintro rfl
    cases hv
  rw [RecordBatch.fromRows, if_neg hrows] at h
  obtain ⟨vectors, hvectors, -⟩ := bind_eq_ok h
  have hok := mapE_isOk.mp (isOk_iff.mpr ⟨vectors, hvectors⟩) j (List.mem_range.mpr hj)
  obtain ⟨vec, hvec⟩ := exists_ok_of_isOk hok
  rw [vectorOf_eq hrect hj] at hvec
  obtain ⟨row, hrow, rfl⟩ := List.mem_map.mp hv
  exact ColumnVector.stored_of_appendAll (cell_of_rect hrect hj) hvec row hrow

/-- If every value can be converted, the converted values come back. -/
theorem toRows_fromRows (h : Convertible py schema rows) :
    ∃ batch, RecordBatch.fromRows py schema rows = .ok batch ∧
      batch.toRows = .ok (keptRows py rows) := by
  by_cases hrows : rows = []
  · subst hrows
    exact ⟨_, rfl, rfl⟩
  obtain ⟨vectors, hmap, hlen, hvec⟩ := exists_mapE (f := RecordBatch.vectorOf py rows)
    (l := List.range schema.length)
    (P := fun j vec => vec.Holds py (column j (keptRows py rows))) (by
      intro i j hj
      obtain ⟨hi, rfl⟩ := List.getElem?_eq_some_iff.mp hj
      rw [List.length_range] at hi
      rw [List.getElem_range, vectorOf_eq hrect hi]
      obtain ⟨vec, hvec, hholds, -⟩ := (ColumnVector.holds_new py (columnType i rows)
        (max rows.length vectorSize)).appendStored (f := cell i)
        (g := fun row => (row[i]?).getD .null)
        (k := fun row => keptCell py rows i ((row[i]?).getD .null)) (l := rows)
        (by simp [ColumnVector.new]) (cell_of_rect hrect hi) (fun row hrow => by
          obtain ⟨w, hw⟩ := h i hi _ (List.mem_map.mpr ⟨row, hrow, rfl⟩)
          rw [stored_eq_keptCell hw]
          exact hw)
      refine ⟨vec, hvec, ?_⟩
      rw [column_keptRows, column, List.map_map]
      exact hholds)
  have hbatch : RecordBatch.Holds py { schema, vectors, numRows := rows.length } schema
      (keptRows py rows) :=
    ⟨rfl, by rw [keptRows, List.length_map], by simpa using hlen, hvec⟩
  refine ⟨_, ?_, hbatch.toRows fun row hrow => ?_⟩
  · rw [RecordBatch.fromRows, if_neg hrows, hmap]
    rfl
  · obtain ⟨old, hold, rfl⟩ := List.mem_map.mp hrow
    rw [List.length_mapIdx, hrect old hold]

end Rectangular

/-! ## Which values survive -/

/-- What `==` of two lists asks of their elements: an object counts as equal to itself, NaN too. -/
def SameCell (a b : Value) : Prop := a = b ∨ a.eq b = true

/-- `rows == rows'` -/
def RowsEqual (rows rows' : List Row) : Prop := List.Forall₂ (List.Forall₂ SameCell) rows rows'

/-- A vector of the type keeps a value that is equal to the one it was given: NULL always; in a
vector of ints also a bool and a float without fractional part; in a vector of floats also a bool and
an int that is a float; in a vector of texts a text only. -/
def VectorType.Keeps : VectorType → Value → Prop
  | _, .null | .int64, .int _ | .int64, .bool _ => True
  | .int64, .float x => ∃ n : ℤ, x.toNum = some (.ofRat n)
  | .float64, .float _ | .float64, .bool _ => True
  | .float64, .int n => ∃ x, PyFloat.ofInt n = some x ∧ x.toNum = some (.ofRat n)
  | .string, .str _ => True
  | _, _ => False

theorem toNum_zero : (PyFloat.ofRat false 0).toNum = some (.ofRat 0) := by
  have hfraction : (PyFloat.ofNat false 0).fraction = 0 := by decide
  have hexponent : (PyFloat.ofNat false 0).exponent = 0 := by decide
  have hrat : (PyFloat.ofNat false 0).toRat = 0 := by
    simp [PyFloat.toRat, hfraction, hexponent]
  rw [PyFloat.ofRat, if_pos rfl, PyFloat.zero, PyFloat.toNum_ofNat (by decide), hrat]

theorem toNum_ofBool (b : Bool) : (PyFloat.ofRat false (if b then 1 else 0)).toNum =
    some (.ofRat (if b then 1 else 0)) := by
  cases b with
  | false => exact toNum_zero
  | true =>
    have hone : (PyFloat.ofRat false ((1 : ℕ) : ℚ)).toNum = some (.ofRat ((1 : ℕ) : ℚ)) :=
      PyFloat.toNum_ofRat_natCast (by decide) (by decide)
    simpa using hone

/-- `int` of a float that is an integer. -/
theorem toInt_of_integral {x : PyFloat} {n : ℤ} (h : x.toNum = some (.ofRat n)) :
    (Value.float x).toInt py = .ok n := by
  unfold PyFloat.toNum at h
  split at h
  · cases h
  next hnan =>
  split at h
  · cases hneg : x.negative <;> rw [hneg] at h <;> cases h
  next hinf =>
  have hrat : x.toRat = n := Num.ofRat_inj.mp (Option.some.inj h)
  have htrunc : x.trunc = n := by
    rw [PyFloat.trunc, hrat, Int.ceil_intCast, Int.floor_intCast, ite_self]
  rw [Value.toInt, if_neg hnan, if_neg hinf, htrunc]

theorem sameCell_int_float {n : ℤ} {x : PyFloat} :
    SameCell (.int n) (.float x) ↔ x.toNum = some (.ofRat n) := by
  have hkey : (Value.int n).key = some (.num (.ofRat n)) := rfl
  have hkey' : (Value.float x).key = x.toNum.map .num := rfl
  rw [SameCell, Value.eq_iff, hkey, hkey']
  constructor
  · rintro (h | ⟨k, hk, hx⟩)
    · cases h
    · obtain rfl := Option.some.inj hk
      obtain ⟨y, hy, heq⟩ := Option.map_eq_some_iff.mp hx
      rw [hy, Value.Key.num.inj heq]
  · intro h
    exact .inr ⟨_, rfl, by rw [h]; rfl⟩

theorem sameCell_float_int {n : ℤ} {x : PyFloat} :
    SameCell (.float x) (.int n) ↔ x.toNum = some (.ofRat n) := by
  rw [← sameCell_int_float, SameCell, SameCell, Value.eq_comm]
  constructor <;> rintro (h | h)
  · cases h
  · exact .inr h
  · cases h
  · exact .inr h

/-- What a conversion to another kind leaves is not equal to a text, nor to bytes. -/
theorem not_sameCell {a b : Value} (hne : a ≠ b) (hkey : ∀ k, b.key = some k → a.key ≠ some k) :
    ¬ SameCell a b := by
  rintro (h | h)
  · exact hne h
  · obtain ⟨k, ha, hb⟩ := Value.eq_iff.mp h
    exact hkey k hb ha

theorem keeps_int64 (py : Py) {v : Value} (hnull : v.isNull = false) : VectorType.int64.Keeps v ↔
    ∃ n, v.toInt py = .ok n ∧ SameCell (.int n) v := by
  cases v with
  | null => cases hnull
  | bool b =>
    refine ⟨fun _ => ⟨if b then 1 else 0, rfl, .inr ?_⟩, fun _ => trivial⟩
    cases b <;> simp [Value.eq, Value.key, Value.num]
  | int n => exact ⟨fun _ => ⟨n, rfl, .inl rfl⟩, fun _ => trivial⟩
  | float x =>
    constructor
    · rintro ⟨n, hn⟩
      exact ⟨n, toInt_of_integral hn, sameCell_int_float.mpr hn⟩
    · rintro ⟨n, -, hn⟩
      exact ⟨n, sameCell_int_float.mp hn⟩
  | str s =>
    refine ⟨False.elim, ?_⟩
    rintro ⟨n, -, hn⟩
    exact not_sameCell (a := .int n) (b := .str s) (by rintro ⟨⟩) (by simp [Value.key, Value.num]) hn
  | bytes bs =>
    refine ⟨False.elim, ?_⟩
    rintro ⟨n, -, hn⟩
    exact not_sameCell (a := .int n) (b := .bytes bs) (by rintro ⟨⟩) (by simp [Value.key, Value.num]) hn

theorem keeps_float64 (py : Py) {v : Value} (hnull : v.isNull = false) : VectorType.float64.Keeps v ↔
    ∃ x, v.toFloat py = .ok x ∧ SameCell (.float x) v := by
  cases v with
  | null => cases hnull
  | bool b =>
    refine ⟨fun _ => ⟨_, rfl, .inr (Value.eq_iff.mpr ⟨_, ?_, rfl⟩)⟩, fun _ => trivial⟩
    show ((PyFloat.ofRat false (if b then 1 else 0)).toNum.map Value.Key.num) = _
    rw [toNum_ofBool]
    rfl
  | int n =>
    constructor
    · rintro ⟨x, hx, hnum⟩
      exact ⟨x, by rw [Value.toFloat, hx]; rfl, sameCell_float_int.mpr hnum⟩
    · rintro ⟨x, hx, hsame⟩
      refine ⟨x, ?_, sameCell_float_int.mp hsame⟩
      rw [Value.toFloat] at hx
      cases hof : PyFloat.ofInt n with
      | none => rw [hof] at hx; cases hx
      | some y =>
        rw [hof] at hx
        rw [Except.ok.inj hx]
  | float x => exact ⟨fun _ => ⟨x, rfl, .inl rfl⟩, fun _ => trivial⟩
  | str s =>
    refine ⟨False.elim, ?_⟩
    rintro ⟨x, -, hx⟩
    exact not_sameCell (a := .float x) (b := .str s) (by rintro ⟨⟩) (by simp [Value.key, Value.num]) hx
  | bytes bs =>
    refine ⟨False.elim, ?_⟩
    rintro ⟨x, -, hx⟩
    exact not_sameCell (a := .float x) (b := .bytes bs) (by rintro ⟨⟩) (by simp [Value.key, Value.num]) hx

theorem keeps_string (py : Py) {v : Value} (hnull : v.isNull = false) : VectorType.string.Keeps v ↔
    SameCell (.str (v.toStr py)) v := by
  cases v with
  | null => cases hnull
  | str s => exact ⟨fun _ => .inl rfl, fun _ => trivial⟩
  | bool b => exact ⟨False.elim, not_sameCell (by rintro ⟨⟩) (by simp [Value.key, Value.num])⟩
  | int n => exact ⟨False.elim, not_sameCell (by rintro ⟨⟩) (by simp [Value.key, Value.num])⟩
  | float x => exact ⟨False.elim, not_sameCell (by rintro ⟨⟩) (by simp [Value.key, Value.num])⟩
  | bytes bs => exact ⟨False.elim, not_sameCell (by rintro ⟨⟩) (by simp [Value.key])⟩

theorem VectorType.keeps_iff {type : VectorType} {v : Value} :
    type.Keeps v ↔ ∃ w, type.stored py v = .ok w ∧ SameCell w v := by
  cases hnull : v.isNull with
  | true =>
    obtain rfl := Value.isNull_iff.mp hnull
    exact ⟨fun _ => ⟨.null, rfl, .inl rfl⟩, fun _ => by cases type <;> trivial⟩
  | false =>
    have hstored : type.stored py v = type.convert py v := by
      rw [VectorType.stored, hnull, if_neg Bool.false_ne_true]
    rw [hstored]
    cases type with
    | int64 =>
      rw [keeps_int64 py hnull]
      constructor
      · rintro ⟨n, hn, hsame⟩
        exact ⟨.int n, by rw [VectorType.convert, hn]; rfl, hsame⟩
      · rintro ⟨w, hw, hsame⟩
        obtain ⟨n, hn, rfl⟩ := except_map_eq_ok hw
        exact ⟨n, hn, hsame⟩
    | float64 =>
      rw [keeps_float64 py hnull]
      constructor
      · rintro ⟨x, hx, hsame⟩
        exact ⟨.float x, by rw [VectorType.convert, hx]; rfl, hsame⟩
      · rintro ⟨w, hw, hsame⟩
        obtain ⟨x, hx, rfl⟩ := except_map_eq_ok hw
        exact ⟨x, hx, hsame⟩
    | string =>
      rw [keeps_string py hnull]
      constructor
      · exact fun hsame => ⟨_, rfl, hsame⟩
      · rintro ⟨w, hw, hsame⟩
        rwa [← Except.ok.inj hw] at hsame

theorem forall₂_mapIdx {α : Type} {R : α → α → Prop} {f : ℕ → α → α} {l : List α} :
    List.Forall₂ R (l.mapIdx f) l ↔ ∀ (j : ℕ) x, l[j]? = some x → R (f j x) x := by
  induction l generalizing f with
  | nil => simp
  | cons a l ih =>
    rw [List.mapIdx_cons, List.forall₂_cons, ih]
    constructor
    · rintro ⟨ha, hl⟩ j x hx
      cases j with
      | zero =>
        obtain rfl := Option.some.inj hx
        exact ha
      | succ j => exact hl j x hx
    · exact fun h => ⟨h 0 a rfl, fun j x hx => h (j + 1) x hx⟩

theorem rowsEqual_keptRows : RowsEqual (keptRows py rows) rows ↔
    ∀ row ∈ rows, ∀ (j : ℕ) v, row[j]? = some v → SameCell (keptCell py rows j v) v := by
  rw [RowsEqual, keptRows, List.forall₂_map_left_iff, List.forall₂_same]
  simp only [forall₂_mapIdx]

/-- The rows come back as they were.  `.null` is `NULL` as well as `None`: the conversion makes no
difference between the two. -/
def Lossless (py : Py) (schema : List String) (rows : List Row) : Prop :=
  ∃ batch out, RecordBatch.fromRows py schema rows = .ok batch ∧ batch.toRows = .ok out ∧
    RowsEqual out rows

/-- Rows come back as they were if and only if the type of each column keeps its values. -/
theorem lossless_iff (py : Py) {schema : List String} {rows : List Row}
    (hrect : ∀ row ∈ rows, row.length = schema.length) : Lossless py schema rows ↔
      ∀ j < schema.length, ∀ v ∈ column j rows, (columnType j rows).Keeps v := by
  have hmem : ∀ j < schema.length, ∀ v ∈ column j rows, ∃ row ∈ rows, row[j]? = some v := by
    intro j hj v hv
    obtain ⟨row, hrow, rfl⟩ := List.mem_map.mp hv
    refine ⟨row, hrow, ?_⟩
    rw [List.getElem?_eq_getElem (by rw [hrect row hrow]; exact hj)]
    rfl
  constructor
  · rintro ⟨batch, out, hfrom, hto, hsame⟩ j hj v hv
    have hconv := convertible_of_fromRows hrect hfrom
    obtain ⟨batch', hfrom', hto'⟩ := toRows_fromRows hrect hconv
    obtain rfl := Except.ok.inj (hfrom.symm.trans hfrom')
    obtain rfl := Except.ok.inj (hto.symm.trans hto')
    obtain ⟨w, hw⟩ := hconv j hj v hv
    obtain ⟨row, hrow, hcell⟩ := hmem j hj v hv
    have hv' := rowsEqual_keptRows.mp hsame row hrow j v hcell
    rw [stored_eq_keptCell hw] at hv'
    exact VectorType.keeps_iff.mpr ⟨w, hw, hv'⟩
  · intro hkeeps
    have hconv : Convertible py schema rows := fun j hj v hv => by
      obtain ⟨w, hw, -⟩ := VectorType.keeps_iff.mp (hkeeps j hj v hv)
      exact ⟨w, hw⟩
    obtain ⟨batch, hfrom, hto⟩ := toRows_fromRows hrect hconv
    refine ⟨batch, _, hfrom, hto, rowsEqual_keptRows.mpr fun row hrow j v hcell => ?_⟩
    have hj : j < schema.length := by
      rw [← hrect row hrow]
      exact (List.getElem?_eq_some_iff.mp hcell).1
    have hv : v ∈ column j rows := List.mem_map.mpr ⟨row, hrow, by rw [hcell]; rfl⟩
    obtain ⟨w, hw, hsame⟩ := VectorType.keeps_iff.mp (hkeeps j hj v hv)
    rw [stored_eq_keptCell hw]
    exact hsame

theorem lossless_iff_mixedNumbers :
    Lossless Py.ascii ["n", "s"] [[.null, .null], [.int 2, .str "x"], [.bool true, .null]] := by
  refine (lossless_iff Py.ascii (by decide)).mpr fun j hj v hv => ?_
  have hlt : j < 2 := hj
  interval_cases j <;> fin_cases hv <;> trivial

/-- A column of truth values comes back as a column of texts. -/
theorem not_lossless_flag :
    ((RecordBatch.fromRows Py.ascii ["flag"] [[.bool true]]).bind fun batch => batch.toRows) =
      .ok [[.str "True"]] ∧ ¬ Lossless Py.ascii ["flag"] [[.bool true]] := by
  have hrun : ((RecordBatch.fromRows Py.ascii ["flag"] [[.bool true]]).bind fun batch =>
      batch.toRows) = .ok [[.str "True"]] := by
    decide +kernel
  refine ⟨hrun, ?_⟩
  rintro ⟨batch, out, hfrom, hto, hsame⟩
  rw [hfrom] at hrun
  obtain rfl := Except.ok.inj (hto.symm.trans hrun)
  rw [RowsEqual, List.forall₂_cons, List.forall₂_cons] at hsame
  exact not_sameCell (a := .str "True") (b := .bool true) (by rintro ⟨⟩) (by simp [Value.key, Value.num])
    hsame.1.1

end PySQL.Query
