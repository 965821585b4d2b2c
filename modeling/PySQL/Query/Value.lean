import PySQL.Query.Syntax

/-!
# Values

What a row holds and what Python does with it: `==`, the orderings, arithmetic, `str`, `int`,
`float` and `bool`.  A bool is an int to Python, and numbers of all types compare by what they are.
-/

namespace PySQL.Query

inductive PyError where
  | typeError
  | valueError (message : Option String)
  | overflowError
  | indexError
  | structError
  | attributeError
  | runtimeError (message : String)
deriving DecidableEq, Repr

/-- The exceptions that `except (TypeError, ValueError)` catches. -/
def PyError.caught : PyError → Bool
  | .typeError => true
  | .valueError _ => true
  | _ => false

/-- The parts of Python's library that rest on tables or on text formats: case mapping, stripping,
printing and reading of numbers, `%` on texts, when two characters differ only in case, and the
text of a syntax tree. -/
structure Py where
  lower : String → String
  upper : String → String
  strip : String → String
  rstrip : String → String
  strFloat : PyFloat → String
  strBytes : List UInt8 → String
  /-- `int(text)` of a str or of bytes; none is a ValueError. -/
  parseInt : Value → Option ℤ
  parseFloat : Value → Option PyFloat
  percent : Value → Value → Except PyError Value
  sameIgnoringCase : Char → Char → Bool
  repr : Expr → String

/-- A library that is right on ASCII texts and unsigned numerals, for runs in which no float is read
or printed and no syntax tree is printed. -/
def Py.ascii : Py where
  lower s := s.map Char.toLower
  upper s := s.map Char.toUpper
  strip s := String.ofList (((s.toList.dropWhile Char.isWhitespace).reverse.dropWhile
    Char.isWhitespace).reverse)
  rstrip s := String.ofList ((s.toList.reverse.dropWhile Char.isWhitespace).reverse)
  strFloat _ := ""
  strBytes _ := ""
  parseInt
    | .str s =>
      if s ≠ "" ∧ s.toList.all Char.isDigit then
        some (s.toList.foldl (fun n c => 10 * n + (c.toNat - '0'.toNat)) 0)
      else none
    | _ => none
  parseFloat _ := none
  percent _ _ := .error .typeError
  sameIgnoringCase c d := c.toLower = d.toLower
  repr _ := ""

/-- `xs[start:stop]`. -/
def slice {α : Type} (xs : List α) (start stop : ℤ) : List α :=
  let index (i : ℤ) : ℕ := (if i < 0 then i + xs.length else i).toNat
  (xs.take (index stop)).drop (index start)

namespace Value

def isNull : Value → Bool
  | .null => true
  | _ => false

@[simp] theorem isNull_null : Value.null.isNull = true := rfl

theorem isNull_iff {v : Value} : v.isNull = true ↔ v = .null := by
  cases v <;> simp [isNull]

/-- The number that a value is, none if it is NaN or no number. -/
def num : Value → Option Num
  | .bool b => some (.ofRat (if b then 1 else 0))
  | .int n => some (.ofRat n)
  | .float x => x.toNum
  | _ => none

/-! ## Equality -/

/-- What `==` and `hash` see of a value. -/
inductive Key where
  | null
  | num (x : Num)
  | str (s : String)
  | bytes (bs : List UInt8)
deriving DecidableEq

/-- NaN has no key: it equals nothing. -/
def key : Value → Option Key
  | .null => some .null
  | .str s => some (.str s)
  | .bytes bs => some (.bytes bs)
  | v => v.num.map .num

/-- `a == b`. -/
def eq (a b : Value) : Bool :=
  match a.key, b.key with
  | some x, some y => decide (x = y)
  | _, _ => false

theorem eq_iff {a b : Value} : a.eq b = true ↔ ∃ k, a.key = some k ∧ b.key = some k := by
  cases ha : a.key <;> cases hb : b.key <;> simp [eq, ha, hb, eq_comm]

theorem eq_comm {a b : Value} : a.eq b = b.eq a := by
  rw [Bool.eq_iff_iff, eq_iff, eq_iff]
  simp only [and_comm]

theorem eq_trans {a b c : Value} (hab : a.eq b = true) (hbc : b.eq c = true) :
    a.eq c = true := by
  obtain ⟨k, ha, hb⟩ := eq_iff.mp hab
  obtain ⟨k', hb', hc⟩ := eq_iff.mp hbc
  obtain rfl : k = k' := Option.some.inj (hb.symm.trans hb')
  exact eq_iff.mpr ⟨k, ha, hc⟩

@[simp] theorem eq_null {v : Value} : v.eq .null = v.isNull := by
  cases v with
  | null => rfl
  | bool b => rfl
  | int n => rfl
  | float x => cases h : x.toNum <;> simp [eq, key, num, h, isNull]
  | str s => rfl
  | bytes bs => rfl

/-! ## Ordering -/

inductive CompareOp where
  | lt
  | gt
  | le
  | ge
deriving DecidableEq

def CompareOp.holds : CompareOp → Ordering → Bool
  | .lt, o => o == .lt
  | .gt, o => o == .gt
  | .le, o => o != .gt
  | .ge, o => o != .lt

/-- How two values are ordered; none if one of them is NaN. -/
def order (a b : Value) : Except PyError (Option Ordering) :=
  match a, b with
  | .str s, .str t => .ok (some (cmp s t))
  | .bytes s, .bytes t => .ok (some (cmp s t))
  | .null, _ | _, .null | .str _, _ | _, .str _ | .bytes _, _ | _, .bytes _ => .error .typeError
  | a, b => .ok (Option.map₂ cmp a.num b.num)

/-- `a < b` and the other orderings. -/
def compare (op : CompareOp) (a b : Value) : Except PyError Bool :=
  (a.order b).map fun o => o.elim false op.holds

/-! ## Conversions -/

/-- `bool(v)`. -/
def truthy : Value → Bool
  | .null => false
  | .bool b => b
  | .int n => n ≠ 0
  | .float x => x.isNaN || x.isInf || x.toRat ≠ 0
  | .str s => s ≠ ""
  | .bytes bs => bs ≠ []

/-- `int(v)`. -/
def toInt (py : Py) : Value → Except PyError ℤ
  | .null => .error .typeError
  | .bool b => .ok (if b then 1 else 0)
  | .int n => .ok n
  | .float x =>
    if x.isNaN then .error (.valueError none)
    else if x.isInf then .error .overflowError
    else .ok x.trunc
  | v => (py.parseInt v).elim (.error (.valueError none)) .ok

/-- `float(v)`. -/
def toFloat (py : Py) : Value → Except PyError PyFloat
  | .null => .error .typeError
  | .bool b => .ok (.ofRat false (if b then 1 else 0))
  | .int n => (PyFloat.ofInt n).elim (.error .overflowError) .ok
  | .float x => .ok x
  | v => (py.parseFloat v).elim (.error (.valueError none)) .ok

/-- `str(v)`. -/
def toStr (py : Py) : Value → String
  | .null => "NULL"
  | .bool b => if b then "True" else "False"
  | .int n => toString n
  | .float x => py.strFloat x
  | .str s => s
  | .bytes bs => py.strBytes bs

/-! ## Arithmetic -/

/-- A bool or an int, as an int. -/
def integer : Value → Option ℤ
  | .bool b => some (if b then 1 else 0)
  | .int n => some n
  | _ => none

/-- A number as an operand of float arithmetic. -/
def operand : Value → Except PyError PyFloat
  | .float x => .ok x
  | v =>
    match v.integer with
    | some n => (PyFloat.ofInt n).elim (.error .overflowError) .ok
    | none => .error .typeError

/-- Arithmetic of two numbers: of ints by `onInts`, of others by `onFloats`. -/
def arith (onInts : ℤ → ℤ → Except PyError Value) (onFloats : PyFloat → PyFloat → PyFloat)
    (a b : Value) : Except PyError Value :=
  match a.integer, b.integer with
  | some m, some n => onInts m n
  | _, _ => do
    let x ← a.operand
    let y ← b.operand
    return .float (onFloats x y)

/-- `n * text`: the lengths that fit a machine word. -/
def replicate {α : Type} (n : ℤ) (xs : List α) : Except PyError (List α) :=
  if 2 ^ 63 ≤ n ∨ n < -2 ^ 63 ∨ 2 ^ 63 ≤ n * xs.length then .error .overflowError
  else .ok (List.replicate n.toNat xs).flatten

def add : Value → Value → Except PyError Value
  | .str s, .str t => .ok (.str (s ++ t))
  | .bytes s, .bytes t => .ok (.bytes (s ++ t))
  | a, b => arith (fun m n => .ok (.int (m + n))) PyFloat.add a b

def sub : Value → Value → Except PyError Value :=
  arith (fun m n => .ok (.int (m - n))) PyFloat.sub

def mul (a b : Value) : Except PyError Value :=
  match a, b, a.integer, b.integer with
  | .str s, _, _, some n | _, .str s, some n, _ => do
    return .str (String.ofList (← replicate n s.toList))
  | .bytes s, _, _, some n | _, .bytes s, some n, _ => do
    return .bytes (← replicate n s)
  | _, _, _, _ => arith (fun m n => .ok (.int (m * n))) PyFloat.mul a b

/-- `a / b` of a `b` that is not zero. -/
def div : Value → Value → Except PyError Value :=
  arith (fun m n =>
    let x := PyFloat.ofRat ((m < 0) != (n < 0)) (m / n)
    if x.isInf then .error .overflowError else .ok (.float x)) PyFloat.div

/-- `a % b` of a `b` that is not zero. -/
def mod (py : Py) (a b : Value) : Except PyError Value :=
  match a with
  | .str _ | .bytes _ => py.percent a b
  | _ => arith (fun m n => .ok (.int (m.fmod n))) PyFloat.mod a b

/-- `-v`. -/
def negate : Value → Except PyError Value
  | .float x => .ok (.float x.neg)
  | v =>
    match v.integer with
    | some n => .ok (.int (-n))
    | none => .error .typeError

/-- `abs(v)`. -/
def abs : Value → Except PyError Value
  | .float x => .ok (.float x.abs)
  | v =>
    match v.integer with
    | some n => .ok (.int |n|)
    | none => .error .typeError

end Value

end PySQL.Query
