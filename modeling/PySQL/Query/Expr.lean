import PySQL.Lib.Dict
import PySQL.Query.Value

/-!
# Evaluating expressions

What the executor evaluates an expression to on a row, which is a dictionary from column names to
values.
-/

namespace PySQL.Query

open Lib

/-- `dict(pairs)`: a key given twice keeps its first place and its last value. -/
def dict {κ ν : Type} [DecidableEq κ] (pairs : List (κ × ν)) : Dict κ ν :=
  pairs.foldl (fun d p => d.set p.1 p.2) .empty

theorem items_dict {κ ν : Type} [DecidableEq κ] {pairs : List (κ × ν)}
    (h : (pairs.map Prod.fst).Nodup) : (dict pairs).items = pairs := by
  induction pairs using List.reverseRecOn with
  | nil => rfl
  | append_singleton pairs p ih =>
    rw [List.map_append, List.map_singleton, ← List.concat_eq_append, List.nodup_concat] at h
    have hitems : (dict (pairs ++ [p])).items = Dict.store p.1 p.2 (dict pairs).items := by
      rw [dict, List.foldl_append]
      rfl
    rw [hitems, ih h.2, Dict.store_of_not_mem h.1]

/-- `dict(zip(cols, row))`. -/
def rowDict (cols : List String) (row : List Value) : Dict String Value := dict (cols.zip row)

theorem map_fst_zip_sublist {α β : Type} : ∀ (xs : List α) (ys : List β),
    ((xs.zip ys).map Prod.fst).Sublist xs
  | [], _ => .slnil
  | _ :: _, [] => List.nil_sublist _
  | _ :: xs, _ :: ys => (map_fst_zip_sublist xs ys).cons_cons _

theorem items_rowDict {cols : List String} {row : List Value} (h : cols.Nodup) :
    (rowDict cols row).items = cols.zip row :=
  items_dict (h.sublist (map_fst_zip_sublist cols row))

theorem get?_rowDict {cols : List String} {row : List Value} {c : String} {v : Value} {j : ℕ}
    (h : cols.Nodup) (hc : cols[j]? = some c) (hv : row[j]? = some v) :
    (rowDict cols row).get? c = some v := by
  rw [Dict.get?]
  apply Dict.lookup_eq_some_of_mem (rowDict cols row).nodup
  rw [items_rowDict h]
  exact List.mem_of_getElem? (List.getElem?_zip_eq_some.mpr ⟨hc, hv⟩)

/-! ## Column references -/

/-- The qualified name first, then the column, then a key that differs in case only. -/
def columnValue (py : Py) (row : Dict String Value) (table : Option String) (column : String) :
    Value :=
  let qualified := table.bind fun t => if t = "" then none else row.get? (t ++ "." ++ column)
  match qualified, row.get? column with
  | some v, _ => v
  | none, some v => v
  | none, none =>
    ((row.items.find? fun p => py.lower p.1 = py.lower column).map Prod.snd).getD .null

/-! ## Operators -/

/-- `except (TypeError, ValueError): return NULL`. -/
def orNull : Except PyError Value → Except PyError Value
  | .error e => if e.caught then .ok .null else .error e
  | .ok v => .ok v

/-- NULL propagation; `right is False` asks for the value False itself. -/
def nullOp (op : BinaryOpType) (left right : Value) : Value :=
  match op with
  | .and => if left = .bool false ∨ right = .bool false then .bool false else .null
  | .or => if left = .bool true ∨ right = .bool true then .bool true else .null
  | _ => .null

/-- The table `ops`. -/
def applyOp (py : Py) (op : BinaryOpType) (a b : Value) : Except PyError Value :=
  match op with
  | .add => a.add b
  | .sub => a.sub b
  | .mul => a.mul b
  | .div => if b.eq (.int 0) then .ok .null else a.div b
  | .mod => if b.eq (.int 0) then .ok .null else a.mod py b
  | .eq => .ok (.bool (a.eq b))
  | .neq => .ok (.bool (!a.eq b))
  | .lt => (a.compare .lt b).map .bool
  | .gt => (a.compare .gt b).map .bool
  | .lte => (a.compare .le b).map .bool
  | .gte => (a.compare .ge b).map .bool
  | .and => .ok (if a.truthy then b else a)
  | .or => .ok (if a.truthy then a else b)
  | .concat => .ok (.str (a.toStr py ++ b.toStr py))

def evalBinaryOp (py : Py) (op : BinaryOpType) (left right : Value) : Except PyError Value :=
  if left.isNull || right.isNull then .ok (nullOp op left right)
  else orNull (applyOp py op left right)

def evalUnaryOp (op : UnaryOpType) (operand : Value) : Except PyError Value :=
  if operand.isNull then .ok .null
  else
    match op with
    | .not => .ok (.bool !operand.truthy)
    | .negate => operand.negate

/-! ## LIKE -/

/-- The pieces of the regular expression: `.*`, `.` and an escaped character. -/
inductive RegexPiece where
  | anything
  | anyChar
  | char (c : Char)
deriving DecidableEq

/-- The pieces between `^` and `$`. -/
def likeToRegex (pattern : List Char) : List RegexPiece :=
  pattern.map fun ch =>
    if ch = '%' then .anything else if ch = '_' then .anyChar else .char ch

/-- What can follow a match of `.*`: it stops at a newline. -/
def afterAnything : List Char → List (List Char)
  | [] => [[]]
  | c :: cs => (c :: cs) :: if c = '\n' then [] else afterAnything cs

/-- `re.match` without regard to case; `$` also matches before a newline at the very end. -/
def reMatch (py : Py) : List RegexPiece → List Char → Bool
  | [], s => s = [] ∨ s = ['\n']
  | .anything :: rest, s => (afterAnything s).any (reMatch py rest)
  | .anyChar :: rest, c :: cs => c ≠ '\n' && reMatch py rest cs
  | .char d :: rest, c :: cs => py.sameIgnoringCase d c && reMatch py rest cs
  | _, [] => false

/-! ## Functions -/

/-- `s.replace(old, new)`, with so many characters of the last match still to skip. -/
def replaceFrom (old new : List Char) : ℕ → List Char → List Char
  | _, [] => if old = [] then new else []
  | skip + 1, _ :: cs => replaceFrom old new skip cs
  | 0, c :: cs =>
    if old = [] then new ++ c :: replaceFrom old new 0 cs
    else if old.isPrefixOf (c :: cs) then new ++ replaceFrom old new (old.length - 1) cs
    else c :: replaceFrom old new 0 cs

def evalFunction (py : Py) (name : String) (args : List Value) : Except PyError Value :=
  let text (v : Value) : List Char := (v.toStr py).toList
  match py.upper name, args with
  | "ABS", v :: _ => v.abs
  | "UPPER", v :: _ => .ok (.str (py.upper (v.toStr py)))
  | "LOWER", v :: _ => .ok (.str (py.lower (v.toStr py)))
  | "LENGTH", v :: _ | "LEN", v :: _ => .ok (.int (text v).length)
  | "COALESCE", vs => .ok ((vs.find? fun v => !v.isNull).getD .null)
  | "NULLIF", v :: w :: _ => .ok (if v.eq w then .null else v)
  | "NULLIF", [v] => .ok v
  | "SUBSTR", v :: i :: rest | "SUBSTRING", v :: i :: rest => do
    let s := text v
    let start := (← i.toInt py) - 1
    let length ← match rest with
      | n :: _ => n.toInt py
      | [] => pure (s.length : ℤ)
    return .str (String.ofList (slice s start (start + length)))
  | "REPLACE", v :: old :: new :: _ =>
    .ok (.str (String.ofList (replaceFrom (text old) (text new) 0 (text v))))
  | "TRIM", v :: _ => .ok (.str (py.strip (v.toStr py)))
  | "ROUND", v :: rest => do
    let decimals ← match rest with
      | n :: _ => n.toInt py
      | [] => pure 0
    let x ← v.toFloat py
    -- beyond 400 digits on either side nothing changes any more
    match x.round (max (-400) (min 400 decimals)) with
    | some r => return .float r
    | none => throw .overflowError
  | "TYPEOF", v :: _ =>
    .ok <| .str <| match v with
      | .null => "null"
      | .bool _ | .int _ => "integer"
      | .float _ => "real"
      | .str _ => "text"
      | .bytes _ => "blob"
  | _, _ => .ok .null

def castValue (py : Py) (value : Value) (targetType : String) : Except PyError Value :=
  if value.isNull then .ok .null
  else
    let target := py.upper targetType
    orNull <|
      if target ∈ ["INTEGER", "INT"] then (value.toInt py).map .int
      else if target ∈ ["FLOAT", "DOUBLE", "REAL"] then (value.toFloat py).map .float
      else if target ∈ ["TEXT", "VARCHAR"] then .ok (.str (value.toStr py))
      else if target ∈ ["BOOLEAN", "BOOL"] then .ok (.bool value.truthy)
      else .ok value

/-! ## Evaluation -/

/-- `low <= value <= high`. -/
def between (low value high : Value) : Except PyError Bool := do
  if ← low.compare .le value then value.compare .le high else return false

mutual

def evalExpr (py : Py) (row : Dict String Value) : Expr → Except PyError Value
  | .literal value => .ok value
  | .columnRef table column => .ok (columnValue py row table column)
  | .binaryOp op left right => do
    let l ← evalExpr py row left
    let r ← evalExpr py row right
    evalBinaryOp py op l r
  | .unaryOp op operand => do
    evalUnaryOp op (← evalExpr py row operand)
  | .functionCall name args _ isAggregate => do
    if isAggregate then return .null
    evalFunction py name (← evalExprs py row args)
  | .isNullExpr expr negated => do
    let val ← evalExpr py row expr
    return .bool (val.isNull != negated)
  | .betweenExpr expr low high negated => do
    let val ← evalExpr py row expr
    let l ← evalExpr py row low
    let h ← evalExpr py row high
    return .bool ((← between l val h) != negated)
  | .inExpr expr values negated => do
    let val ← evalExpr py row expr
    let vs ← evalExprs py row values
    return .bool ((vs.any fun v => v.eq val) != negated)
  | .likeExpr expr pattern negated => do
    let val ← evalExpr py row expr
    let p ← evalExpr py row pattern
    if val.isNull || p.isNull then return .null
    let result := reMatch py (likeToRegex (p.toStr py).toList) (val.toStr py).toList
    return .bool (result != negated)
  | .caseExpr operand whenClauses elseClause => do
    let operandVal ← evalOption py row operand
    match ← evalWhen py row operandVal whenClauses with
    | some v => return v
    | none => return (← evalOption py row elseClause).getD .null
  | .castExpr expr targetType => do
    castValue py (← evalExpr py row expr) targetType
  | .starExpr _ | .existsExpr | .subqueryExpr => .ok .null

def evalOption (py : Py) (row : Dict String Value) : Option Expr → Except PyError (Option Value)
  | none => .ok none
  | some expr => do return some (← evalExpr py row expr)

def evalExprs (py : Py) (row : Dict String Value) : List Expr → Except PyError (List Value)
  | [] => .ok []
  | expr :: rest => do
    let v ← evalExpr py row expr
    return v :: (← evalExprs py row rest)

/-- The result of the first clause that applies: its test equals the operand or, without an
operand, is true. -/
def evalWhen (py : Py) (row : Dict String Value) (operand : Option Value) :
    List (Expr × Expr) → Except PyError (Option Value)
  | [] => .ok none
  | (when, result) :: rest => do
    let test ← evalExpr py row when
    if operand.elim test.truthy fun v => v.eq test then
      return some (← evalExpr py row result)
    evalWhen py row operand rest

end

/-- Whether a row is kept: NULL is not true. -/
def evalPredicate (py : Py) (predicate : Option Expr) (row : Dict String Value) :
    Except PyError Bool :=
  match predicate with
  | none => .ok true
  | some expr => (evalExpr py row expr).map Value.truthy

end PySQL.Query
