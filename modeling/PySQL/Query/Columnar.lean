import PySQL.Lib.Bitmask
import PySQL.Lib.Fallible
import PySQL.Query.Operators

/-!
# Column vectors and record batches

A batch keeps its rows by columns.  A column vector has a fixed capacity; which of its values are
NULL stands in a bit-packed mask, and the others in an array of the vector's type.
-/

namespace PySQL.Query

open Lib

/-! ## Column vectors -/

/-- The classes Int64Vector, Float64Vector and StringVector. -/
inductive VectorType where
  | int64
  | float64
  | string
deriving DecidableEq, Repr

/-- What the array holds before a value is stored. -/
def VectorType.initial : VectorType → Value
  | .int64 => .int 0
  | .float64 => .float (.ofRat false 0)
  | .string => .str ""

/-- `int(value)`, `float(value)` or `str(value)`. -/
def VectorType.convert (py : Py) (type : VectorType) (value : Value) : Except PyError Value :=
  match type with
  | .int64 => (value.toInt py).map .int
  | .float64 => (value.toFloat py).map .float
  | .string => .ok (.str (value.toStr py))

structure ColumnVector where
  type : VectorType
  length : ℕ
  nullMask : List ℕ
  data : List Value

namespace ColumnVector

def new (type : VectorType) (capacity : ℕ) : ColumnVector where
  type := type
  length := 0
  nullMask := List.replicate ((capacity + 7) / 8) 0
  data := List.replicate capacity type.initial

def isNull (vec : ColumnVector) (index : ℕ) : Except PyError Bool :=
  (readBit vec.nullMask index).elim (.error .indexError) .ok

def setNull (vec : ColumnVector) (index : ℕ) : Except PyError ColumnVector :=
  (setBit vec.nullMask index).elim (.error .indexError) fun mask =>
    .ok { vec with nullMask := mask }

def get (vec : ColumnVector) (index : ℕ) : Except PyError Value := do
  if ← vec.isNull index then return .null
  cell index vec.data

def append (py : Py) (vec : ColumnVector) (value : Value) : Except PyError ColumnVector := do
  let stored ←
    if value.isNull then vec.setNull vec.length
    else do
      let v ← vec.type.convert py value
      if vec.length < vec.data.length then pure { vec with data := vec.data.set vec.length v }
      else throw .indexError
  return { stored with length := vec.length + 1 }

def slice (py : Py) (vec : ColumnVector) (selection : List ℕ) : Except PyError ColumnVector :=
  selection.foldlM (fun res idx => do res.append py (← vec.get idx))
    (new vec.type selection.length)

/-- The indices of the values above a number. -/
def vecGt (vec : ColumnVector) (scalar : Value) : Except PyError (List ℕ) :=
  filterE (fun i => do
    if ← vec.isNull i then return false
    (← cell i vec.data).compare .gt scalar) (List.range vec.length)

end ColumnVector

/-! ## Record batches -/

structure RecordBatch where
  schema : List String
  vectors : List ColumnVector
  numRows : ℕ

/-- The first value of a column that is not NULL; NULL if there is none. -/
def sampleOf (colIdx : ℕ) : List Row → Except PyError Value
  | [] => .ok .null
  | row :: rows => do
    let value ← cell colIdx row
    if value.isNull then sampleOf colIdx rows else return value

def VectorType.ofSample : Value → VectorType
  | .float _ => .float64
  | .int _ => .int64
  | _ => .string

/-- VECTOR_SIZE -/
def vectorSize : ℕ := 2048

namespace RecordBatch

def vectorOf (py : Py) (rows : List Row) (colIdx : ℕ) : Except PyError ColumnVector := do
  let sample ← sampleOf colIdx rows
  rows.foldlM (fun vec row => do vec.append py (← cell colIdx row))
    (.new (.ofSample sample) (max rows.length vectorSize))

def fromRows (py : Py) (schema : List String) (rows : List Row) : Except PyError RecordBatch :=
  if rows = [] then .ok { schema, vectors := [], numRows := 0 }
  else do
    let vectors ← mapE (vectorOf py rows) (List.range schema.length)
    return { schema, vectors, numRows := rows.length }

def row (batch : RecordBatch) (i : ℕ) : Except PyError Row :=
  mapE (fun vec => vec.get i) batch.vectors

def toRows (batch : RecordBatch) : Except PyError (List Row) :=
  mapE batch.row (List.range batch.numRows)

def filterBySelection (py : Py) (batch : RecordBatch) (selection : List ℕ) :
    Except PyError RecordBatch := do
  let vectors ← mapE (fun vec => vec.slice py selection) batch.vectors
  return { schema := batch.schema, vectors, numRows := selection.length }

end RecordBatch

/-! ## What a vector holds -/

/-- A vector of the type stores the value as it is. -/
def VectorType.Fits (py : Py) (type : VectorType) (value : Value) : Prop :=
  value.isNull = false → type.convert py value = .ok value

/-- What a vector of the type keeps of a value. -/
def VectorType.stored (py : Py) (type : VectorType) (value : Value) : Except PyError Value :=
  if value.isNull then .ok .null else type.convert py value

/-- A converted value is converted no further. -/
theorem VectorType.convert_eq_ok {py : Py} {type : VectorType} {v w : Value}
    (h : type.convert py v = .ok w) : type.convert py w = .ok w ∧ w.isNull = false := by
  cases type with
  | int64 =>
    obtain ⟨n, -, rfl⟩ := except_map_eq_ok h
    exact ⟨rfl, rfl⟩
  | float64 =>
    obtain ⟨x, -, rfl⟩ := except_map_eq_ok h
    exact ⟨rfl, rfl⟩
  | string =>
    obtain rfl := Except.ok.inj h
    exact ⟨rfl, rfl⟩

theorem VectorType.fits_of_stored {py : Py} {type : VectorType} {v w : Value}
    (h : type.stored py v = .ok w) : type.Fits py w := by
  intro hw
  cases hnull : v.isNull with
  | true =>
    rw [VectorType.stored, hnull, if_pos rfl] at h
    obtain rfl := Except.ok.inj h
    cases hw
  | false =>
    rw [VectorType.stored, hnull, if_neg Bool.false_ne_true] at h
    exact (convert_eq_ok h).1

theorem VectorType.stored_of_fits {py : Py} {type : VectorType} {v : Value}
    (h : type.Fits py v) : type.stored py v = .ok v := by
  cases hnull : v.isNull with
  | true =>
    obtain rfl := Value.isNull_iff.mp hnull
    rfl
  | false => rw [VectorType.stored, hnull, if_neg Bool.false_ne_true, h hnull]

namespace ColumnVector

/-- A vector holds a list of values: its mask tells which of them are NULL, its array has the
others, and no bit is set beyond them. -/
structure Holds (py : Py) (vec : ColumnVector) (values : List Value) : Prop where
  length : vec.length = values.length
  room : values.length ≤ vec.data.length
  mask : vec.data.length ≤ 8 * vec.nullMask.length
  null : ∀ i < vec.data.length, readBit vec.nullMask i = some ((values[i]?).any Value.isNull)
  value : ∀ (i : ℕ) (v : Value), values[i]? = some v → v.isNull = false → vec.data[i]? = some v
  fits : ∀ v ∈ values, vec.type.Fits py v

variable {py : Py} {vec vec' : ColumnVector} {values : List Value} {v : Value} {i : ℕ}

theorem holds_new (py : Py) (type : VectorType) (capacity : ℕ) : Holds py (new type capacity) [] where
  length := rfl
  room := Nat.zero_le _
  mask := by
    simp only [new, List.length_replicate]
    omega
  null i hi := by
    simp only [new, List.length_replicate] at hi ⊢
    exact readBit_replicate (by omega)
  value i v h := by simp at h
  fits v h := by simp at h

theorem Holds.isNull (h : Holds py vec values) (hv : values[i]? = some v) :
    vec.isNull i = .ok v.isNull := by
  have hi : i < values.length := (List.getElem?_eq_some_iff.mp hv).1
  rw [ColumnVector.isNull, h.null i (lt_of_lt_of_le hi h.room), hv]
  rfl

theorem Holds.cell (h : Holds py vec values) (hv : values[i]? = some v) (hnull : v.isNull = false) :
    cell i vec.data = .ok v := by
  rw [Query.cell, h.value i v hv hnull]
  rfl

theorem Holds.get (h : Holds py vec values) (hv : values[i]? = some v) : vec.get i = .ok v := by
  rw [ColumnVector.get, h.isNull hv]
  cases hnull : v.isNull with
  | true =>
    obtain rfl := Value.isNull_iff.mp hnull
    rfl
  | false => exact h.cell hv hnull

theorem getElem?_concat {α : Type} (xs : List α) (x : α) (i : ℕ) :
    (xs ++ [x])[i]? = if i = xs.length then some x else xs[i]? := by
  split
  · next h => rw [h, List.getElem?_concat_length]
  · next h =>
    rcases Nat.lt_or_gt_of_ne h with hlt | hgt
    · exact List.getElem?_append_left hlt
    · rw [List.getElem?_eq_none hgt.le, List.getElem?_eq_none (by simp; omega)]

/-- A vector with one value more, where the rest of its mask and of its array is as before. -/
theorem Holds.concat (h : Holds py vec values) (hroom : values.length < vec.data.length)
    (hfits : vec.type.Fits py v) (htype : vec'.type = vec.type)
    (hlength : vec'.length = vec.length + 1) (hdata : vec'.data.length = vec.data.length)
    (hmask : vec'.nullMask.length = vec.nullMask.length)
    (hbit : ∀ i, i < vec.data.length → readBit vec'.nullMask i =
      if i = values.length then some v.isNull else readBit vec.nullMask i)
    (hself : v.isNull = false → vec'.data[values.length]? = some v)
    (hrest : ∀ i, i ≠ values.length → vec'.data[i]? = vec.data[i]?) :
    Holds py vec' (values ++ [v]) where
  length := by simp [hlength, h.length]
  room := by simpa [hdata] using hroom
  mask := by simpa only [hdata, hmask] using h.mask
  null i hi := by
    rw [hdata] at hi
    rw [hbit i hi, getElem?_concat]
    split
    · rfl
    · exact h.null i hi
  value i w hw hnull := by
    rw [getElem?_concat] at hw
    split at hw
    · next hi =>
      obtain rfl := Option.some.inj hw
      rw [hi, hself hnull]
    · next hi => rw [hrest i hi, h.value i w hw hnull]
  fits w hw := by
    rw [htype]
    rcases List.mem_append.mp hw with hw | hw
    · exact h.fits w hw
    · rwa [List.mem_singleton.mp hw]

/-- Appending adds the value at the end, as long as there is room for it. -/
theorem Holds.append (h : Holds py vec values) (hroom : values.length < vec.data.length)
    (hfits : vec.type.Fits py v) :
    ∃ vec', vec.append py v = .ok vec' ∧ Holds py vec' (values ++ [v]) ∧
      vec'.type = vec.type ∧ vec'.data.length = vec.data.length := by
  have hend : vec.length = values.length := h.length
  cases hnull : v.isNull with
  | true =>
    have hbyte : vec.length < 8 * vec.nullMask.length := by
      have := h.mask
      omega
    obtain ⟨mask, hset, hlen⟩ := exists_setBit hbyte
    refine ⟨{ vec with nullMask := mask, length := vec.length + 1 }, ?_, ?_, rfl, rfl⟩
    · rw [ColumnVector.append, hnull, if_pos rfl, ColumnVector.setNull, hset]
      rfl
    · refine h.concat hroom hfits rfl rfl rfl hlen ?_ ?_ fun i _ => rfl
      · intro i _
        rw [readBit_setBit hset, hend, hnull]
      · intro hv
        rw [hnull] at hv
        cases hv
  | false =>
    refine ⟨{ vec with data := vec.data.set vec.length v, length := vec.length + 1 }, ?_, ?_, rfl,
      List.length_set⟩
    · have hlt : vec.length < vec.data.length := hend ▸ hroom
      rw [ColumnVector.append, hnull, if_neg Bool.false_ne_true, hfits hnull]
      simp only [bind, Except.bind, if_pos hlt]
      rfl
    · refine h.concat hroom hfits rfl rfl List.length_set rfl ?_ ?_ ?_
      · intro i hi
        split
        · next hi' => rw [hi', h.null _ hroom, List.getElem?_eq_none le_rfl, hnull]; rfl
        · rfl
      · intro _
        rw [hend, List.getElem?_set_self hroom]
      · intro i hi
        rw [hend, List.getElem?_set_ne hi.symm]

/-- A value is appended as what the vector keeps of it. -/
theorem append_stored {w : Value} (h : vec.type.stored py v = .ok w) :
    vec.append py v = vec.append py w := by
  cases hnull : v.isNull with
  | true =>
    rw [VectorType.stored, hnull, if_pos rfl] at h
    obtain rfl := Except.ok.inj h
    rw [Value.isNull_iff.mp hnull]
  | false =>
    rw [VectorType.stored, hnull, if_neg Bool.false_ne_true] at h
    obtain ⟨hagain, hw⟩ := VectorType.convert_eq_ok h
    rw [append, append, hnull, hw, h, hagain]

/-- A loop that appends the value of each element of a list. -/
theorem Holds.appendStored {α : Type} {f : α → Except PyError Value} {g k : α → Value} {l : List α}
    (h : Holds py vec values) (hroom : values.length + l.length ≤ vec.data.length)
    (hf : ∀ x ∈ l, f x = .ok (g x)) (hstored : ∀ x ∈ l, vec.type.stored py (g x) = .ok (k x)) :
    ∃ vec', l.foldlM (fun vec x => do vec.append py (← f x)) vec = .ok vec' ∧
      Holds py vec' (values ++ l.map k) ∧ vec'.type = vec.type := by
  induction l generalizing vec values with
  | nil => exact ⟨vec, rfl, by simpa using h, rfl⟩
  | cons x xs ih =>
    rw [List.forall_mem_cons] at hf hstored
    rw [List.length_cons] at hroom
    obtain ⟨next, hnext, hholds, htype, hdata⟩ :=
      h.append (by omega) (VectorType.fits_of_stored hstored.1)
    obtain ⟨last, hlast, hresult, htype'⟩ := ih hholds (by simp; omega) hf.2
      fun y hy => htype ▸ hstored.2 y hy
    refine ⟨last, ?_, by simpa using hresult, htype'.trans htype⟩
    rw [List.foldlM_cons, hf.1]
    simp only [bind, Except.bind, append_stored hstored.1, hnext]
    exact hlast

theorem Holds.appendAll {α : Type} {f : α → Except PyError Value} {g : α → Value} {l : List α}
    (h : Holds py vec values) (hroom : values.length + l.length ≤ vec.data.length)
    (hf : ∀ x ∈ l, f x = .ok (g x)) (hfits : ∀ x ∈ l, vec.type.Fits py (g x)) :
    ∃ vec', l.foldlM (fun vec x => do vec.append py (← f x)) vec = .ok vec' ∧
      Holds py vec' (values ++ l.map g) ∧ vec'.type = vec.type :=
  h.appendStored hroom hf fun x hx => VectorType.stored_of_fits (hfits x hx)

/-- The vector of the selected values, in the order of the selection. -/
theorem Holds.slice {selection : List ℕ} (h : Holds py vec values)
    (hsel : ∀ i ∈ selection, i < values.length) :
    ∃ vec', vec.slice py selection = .ok vec' ∧
      Holds py vec' (selection.map fun i => (values[i]?).getD .null) := by
  have hget : ∀ i ∈ selection, values[i]? = some ((values[i]?).getD .null) := by
    intro i hi
    rw [List.getElem?_eq_getElem (hsel i hi), Option.getD_some]
  obtain ⟨vec', hfold, hholds, -⟩ := (holds_new py vec.type selection.length).appendAll
    (f := vec.get) (g := fun i => (values[i]?).getD .null) (l := selection) (by simp [new])
    (fun i hi => h.get (hget i hi)) fun i hi => h.fits _ (List.mem_of_getElem? (hget i hi))
  exact ⟨vec', hfold, hholds⟩

end ColumnVector

/-! ## What a batch holds -/

/-- The values of a column, row by row. -/
def column (j : ℕ) (rows : List Row) : List Value := rows.map fun row => (row[j]?).getD .null

/-- Rows under a schema each of whose columns holds integers or holds strings, NULL aside. -/
structure Typed (schema : List String) (rows : List Row) : Prop where
  width : ∀ row ∈ rows, row.length = schema.length
  column : ∀ j < schema.length, (∀ v ∈ column j rows, v = .null ∨ ∃ n, v = .int n) ∨
    ∀ v ∈ column j rows, v = .null ∨ ∃ s, v = .str s

variable {py : Py} {schema : List String} {rows : List Row} {batch : RecordBatch} {j : ℕ}

theorem Typed.subset {rows' : List Row} (h : Typed schema rows) (hsub : ∀ row ∈ rows', row ∈ rows) :
    Typed schema rows' where
  width row hrow := h.width row (hsub row hrow)
  column j hj := by
    have hcol : ∀ v ∈ Query.column j rows', v ∈ Query.column j rows := by
      simp only [Query.column, List.forall_mem_map]
      exact fun row hrow => List.mem_map.mpr ⟨row, hsub row hrow, rfl⟩
    exact (h.column j hj).imp (fun hint v hv => hint v (hcol v hv))
      fun hstr v hv => hstr v (hcol v hv)

theorem Typed.cell {row : Row} (h : Typed schema rows) (hj : j < schema.length) (hrow : row ∈ rows) :
    cell j row = .ok ((row[j]?).getD .null) := by
  rw [Query.cell, List.getElem?_eq_getElem (by rw [h.width row hrow]; exact hj)]
  rfl

theorem sampleOf_eq (h : ∀ row ∈ rows, cell j row = .ok ((row[j]?).getD .null)) :
    sampleOf j rows = .ok (((column j rows).find? fun v => !v.isNull).getD .null) := by
  induction rows with
  | nil => rfl
  | cons row rows ih =>
    rw [List.forall_mem_cons] at h
    rw [sampleOf, h.1, column, List.map_cons, List.find?_cons]
    cases hnull : ((row[j]?).getD .null).isNull with
    | true =>
      simp only [bind, Except.bind, hnull, if_true, Bool.not_true]
      exact ih h.2
    | false => simp [bind, Except.bind, hnull]; rfl

/-- The type that the first value of a column asks for fits the others. -/
theorem Typed.fits {v : Value} (h : Typed schema rows) (hj : j < schema.length)
    (hv : v ∈ Query.column j rows) :
    (VectorType.ofSample (((Query.column j rows).find? fun v => !v.isNull).getD .null)).Fits py v := by
  intro hnull
  cases hfind : (Query.column j rows).find? fun v => !v.isNull with
  | none =>
    have := List.find?_eq_none.mp hfind v hv
    simp [hnull] at this
  | some sample =>
    have hmem := List.mem_of_find?_eq_some hfind
    have hsome := List.find?_some hfind
    rcases h.column j hj with hint | hstr
    · rcases hint sample hmem with rfl | ⟨m, rfl⟩
      · cases hsome
      · rcases hint v hv with rfl | ⟨n, rfl⟩
        · cases hnull
        · rfl
    · rcases hstr sample hmem with rfl | ⟨s, rfl⟩
      · cases hsome
      · rcases hstr v hv with rfl | ⟨t, rfl⟩
        · cases hnull
        · rfl

namespace RecordBatch

/-- A batch holds rows under a schema: one vector for each column. -/
structure Holds (py : Py) (batch : RecordBatch) (schema : List String) (rows : List Row) : Prop where
  names : batch.schema = schema
  numRows : batch.numRows = rows.length
  width : batch.vectors.length = schema.length
  vectors : ∀ (j : ℕ) vec, batch.vectors[j]? = some vec → vec.Holds py (column j rows)

theorem vectorOf_holds (h : Typed schema rows) (hj : j < schema.length) :
    ∃ vec, vectorOf py rows j = .ok vec ∧ vec.Holds py (column j rows) := by
  have hcell : ∀ row ∈ rows, cell j row = .ok ((row[j]?).getD .null) := fun row => h.cell hj
  obtain ⟨vec, hvec, hholds, -⟩ := (ColumnVector.holds_new py
    (.ofSample (((column j rows).find? fun v => !v.isNull).getD .null))
    (max rows.length vectorSize)).appendAll (f := cell j) (g := fun row => (row[j]?).getD .null)
    (l := rows) (by simp [ColumnVector.new]) hcell
    fun row hrow => h.fits hj (List.mem_map.mpr ⟨row, hrow, rfl⟩)
  refine ⟨vec, ?_, hholds⟩
  rw [vectorOf, sampleOf_eq hcell]
  exact hvec

theorem fromRows_holds (py : Py) (h : Typed schema rows) (hrows : rows ≠ []) :
    ∃ batch, fromRows py schema rows = .ok batch ∧ batch.Holds py schema rows := by
  obtain ⟨vectors, hmap, hlen, hvec⟩ := exists_mapE (f := vectorOf py rows)
    (l := List.range schema.length) (P := fun j vec => vec.Holds py (column j rows)) (by
      intro i j hj
      obtain ⟨hi, rfl⟩ := List.getElem?_eq_some_iff.mp hj
      rw [List.length_range] at hi
      rw [List.getElem_range]
      exact vectorOf_holds h hi)
  refine ⟨{ schema, vectors, numRows := rows.length }, ?_, rfl, rfl, by simpa using hlen, hvec⟩
  rw [fromRows, if_neg hrows, hmap]
  rfl

theorem getElem?_column {i : ℕ} {row : Row} (hrow : rows[i]? = some row) :
    (column j rows)[i]? = some ((row[j]?).getD .null) := by
  rw [column, List.getElem?_map, hrow]
  rfl

theorem Holds.row {i : ℕ} {row : Row} (h : batch.Holds py schema rows)
    (hrow : rows[i]? = some row) (hwidth : row.length = schema.length) :
    batch.row i = .ok row := by
  refine mapE_of_getElem (hwidth.trans h.width.symm) fun j vec v hvec hv => ?_
  have hcell : (column j rows)[i]? = some v := by rw [getElem?_column hrow, hv]; rfl
  exact (h.vectors j vec hvec).get hcell

theorem Holds.toRows (h : batch.Holds py schema rows)
    (hwidth : ∀ row ∈ rows, row.length = schema.length) : batch.toRows = .ok rows := by
  refine mapE_of_getElem (by rw [List.length_range, h.numRows]) fun k i row hi hrow => ?_
  obtain ⟨hk, rfl⟩ := List.getElem?_eq_some_iff.mp hi
  rw [List.getElem_range]
  exact h.row hrow (hwidth row (List.mem_of_getElem? hrow))

theorem Holds.filterBySelection {selection : List ℕ} (h : batch.Holds py schema rows)
    (hsel : ∀ i ∈ selection, i < rows.length) :
    ∃ batch', batch.filterBySelection py selection = .ok batch' ∧
      batch'.Holds py schema (selection.map fun i => (rows[i]?).getD []) := by
  have hcolumn : ∀ j, (selection.map fun i => ((column j rows)[i]?).getD .null) =
      column j (selection.map fun i => (rows[i]?).getD []) := by
    intro j
    rw [show column j (selection.map fun i => (rows[i]?).getD []) =
      selection.map fun i => ((((rows[i]?).getD [])[j]?).getD .null) from List.map_map]
    refine List.map_congr_left fun i hi => ?_
    simp only [ List.getElem?_eq_getElem (hsel i hi)]
    rw [getElem?_column (List.getElem?_eq_getElem (hsel i hi))]
    rfl
  obtain ⟨vectors, hmap, hlen, hvec⟩ := exists_mapE (f := fun vec => vec.slice py selection)
    (l := batch.vectors)
    (P := fun j vec => vec.Holds py (column j (selection.map fun i => (rows[i]?).getD []))) (by
      intro j vec hvec
      have hcol : ∀ i ∈ selection, i < (column j rows).length := by simpa [column] using hsel
      obtain ⟨vec', hslice, hholds⟩ := (h.vectors j vec hvec).slice hcol
      exact ⟨vec', hslice, hcolumn j ▸ hholds⟩)
  refine ⟨{ schema := batch.schema, vectors, numRows := selection.length }, ?_, h.names,
    by simp, hlen.trans h.width, hvec⟩
  rw [RecordBatch.filterBySelection, hmap]
  rfl

end RecordBatch

end PySQL.Query
