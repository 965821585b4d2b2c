import PySQL.Lib.Fallible
import PySQL.Query.Expr

/-!
# Three-valued logic

A predicate is true, false or unknown, and NULL is what it evaluates to if it is unknown.
-/

namespace PySQL.Query

open Lib

/-- A truth value of Kleene's logic; none is unknown. -/
abbrev Truth := Option Bool

namespace Truth

/-- False if one of the two is, true if both are. -/
def and : Truth → Truth → Truth
  | some false, _ => some false
  | _, some false => some false
  | some true, some true => some true
  | _, _ => none

/-- True if one of the two is, false if both are. -/
def or : Truth → Truth → Truth
  | some true, _ => some true
  | _, some true => some true
  | some false, some false => some false
  | _, _ => none

def not (t : Truth) : Truth := t.map Bool.not

def value : Truth → Value
  | none => .null
  | some b => .bool b

@[simp] theorem value_none : value none = .null := rfl

@[simp] theorem value_some (b : Bool) : value (some b) = .bool b := rfl

theorem truthy_value (t : Truth) : t.value.truthy = decide (t = some true) := by
  rcases t with _ | _ | _ <;> rfl

theorem value_inj {s t : Truth} : s.value = t.value ↔ s = t := by
  rcases s with _ | _ | _ <;> rcases t with _ | _ | _ <;> simp

end Truth

/-- What a comparison of two values says: unknown if one of them is NULL or if Python cannot order
them, which `=` and `!=` do not ask of it. -/
def comparison (op : BinaryOpType) (a b : Value) : Truth :=
  if a.isNull || b.isNull then none
  else
    match op with
    | .eq => some (a.eq b)
    | .neq => some (!a.eq b)
    | .lt => (a.compare .lt b).toOption
    | .gt => (a.compare .gt b).toOption
    | .lte => (a.compare .le b).toOption
    | .gte => (a.compare .ge b).toOption
    | _ => none

def BinaryOpType.isComparison (op : BinaryOpType) : Bool :=
  op ∈ [.eq, .neq, .lt, .gt, .lte, .gte]

section

variable {py : Py}

/-- Two values that cannot be ordered raise a TypeError and nothing else. -/
theorem order_eq_error {a b : Value} {e : PyError} (h : a.order b = .error e) : e = .typeError := by
  unfold Value.order at h
  split at h <;> cases h <;> rfl

theorem orNull_compare (op : Value.CompareOp) (a b : Value) :
    orNull ((a.compare op b).map .bool) = .ok (Truth.value (a.compare op b).toOption) := by
  unfold Value.compare
  cases h : a.order b with
  | ok o => rfl
  | error e =>
    obtain rfl := order_eq_error h
    rfl

theorem evalBinaryOp_comparison {op : BinaryOpType} (hop : op.isComparison = true) (a b : Value) :
    evalBinaryOp py op a b = .ok (comparison op a b).value := by
  unfold evalBinaryOp comparison
  cases hnull : a.isNull || b.isNull with
  | true => cases op <;> first | rfl | cases hop
  | false =>
    cases op with
    | eq => rfl
    | neq => rfl
    | lt => exact orNull_compare .lt a b
    | gt => exact orNull_compare .gt a b
    | lte => exact orNull_compare .le a b
    | gte => exact orNull_compare .ge a b
    | _ => cases hop

theorem evalBinaryOp_and (s t : Truth) :
    evalBinaryOp py .and s.value t.value = .ok (s.and t).value := by
  rcases s with _ | _ | _ <;> rcases t with _ | _ | _ <;> rfl

theorem evalBinaryOp_or (s t : Truth) :
    evalBinaryOp py .or s.value t.value = .ok (s.or t).value := by
  rcases s with _ | _ | _ <;> rcases t with _ | _ | _ <;> rfl

theorem evalUnaryOp_not (t : Truth) : evalUnaryOp .not t.value = .ok t.not.value := by
  rcases t with _ | _ | _ <;> rfl

end

/-- The truth value of a predicate on a row.  The operands of its comparisons and NULL tests may be
any expressions that can be evaluated. -/
inductive Denotes (py : Py) (row : Dict String Value) : Expr → Truth → Prop
  | literal (t : Truth) : Denotes py row (.literal t.value) t
  | column {table : Option String} {column : String} {t : Truth}
      (h : columnValue py row table column = t.value) : Denotes py row (.columnRef table column) t
  | comparison {op : BinaryOpType} {left right : Expr} {a b : Value} (hop : op.isComparison = true)
      (hleft : evalExpr py row left = .ok a) (hright : evalExpr py row right = .ok b) :
      Denotes py row (.binaryOp op left right) (comparison op a b)
  | isNull {expr : Expr} {v : Value} (negated : Bool) (h : evalExpr py row expr = .ok v) :
      Denotes py row (.isNullExpr expr negated) (some (v.isNull != negated))
  | and {left right : Expr} {s t : Truth} (hleft : Denotes py row left s)
      (hright : Denotes py row right t) : Denotes py row (.binaryOp .and left right) (s.and t)
  | or {left right : Expr} {s t : Truth} (hleft : Denotes py row left s)
      (hright : Denotes py row right t) : Denotes py row (.binaryOp .or left right) (s.or t)
  | not {expr : Expr} {t : Truth} (h : Denotes py row expr t) :
      Denotes py row (.unaryOp .not expr) t.not

section

variable {py : Py} {row : Dict String Value} {expr : Expr} {t : Truth}

theorem Denotes.evalExpr_eq (h : Denotes py row expr t) : evalExpr py row expr = .ok t.value := by
  induction h with
  | literal t => rw [evalExpr]
  | column h => rw [evalExpr, h]
  | comparison hop hleft hright =>
    rw [evalExpr, hleft, ok_bind, hright, ok_bind, evalBinaryOp_comparison hop]
  | isNull negated h =>
    rw [evalExpr, h]
    rfl
  | and _ _ ihleft ihright =>
    rw [evalExpr, ihleft, ok_bind, ihright, ok_bind, evalBinaryOp_and]
  | or _ _ ihleft ihright =>
    rw [evalExpr, ihleft, ok_bind, ihright, ok_bind, evalBinaryOp_or]
  | not _ ih => rw [evalExpr, ih, ok_bind, evalUnaryOp_not]

/-- A predicate evaluates to its truth value, and a row is kept if that is true. -/
theorem Denotes.evaluates (h : Denotes py row expr t) :
    evalExpr py row expr = .ok t.value ∧
      evalPredicate py (some expr) row = .ok (decide (t = some true)) := by
  refine ⟨h.evalExpr_eq, ?_⟩
  rw [evalPredicate, h.evalExpr_eq, ← Truth.truthy_value]
  rfl

theorem evaluates_not_less :
    evalExpr .ascii .empty (.unaryOp .not (.binaryOp .lt (.literal .null) (.literal (.int 1))))
      = .ok (comparison .lt .null (.int 1)).not.value ∧
    evalPredicate .ascii
        (some (.unaryOp .not (.binaryOp .lt (.literal .null) (.literal (.int 1))))) .empty
      = .ok (decide ((comparison .lt .null (.int 1)).not = some true)) :=
  Denotes.evaluates (.not (.comparison rfl rfl rfl))

/-- Python cannot order 1 and 'a', but `1 = 'a'` is false and not unknown; and an operand that
cannot be evaluated raises. -/
theorem unordered_equality :
    (Value.int 1).order (.str "a") = .error .typeError ∧
    evalExpr .ascii .empty (.binaryOp .eq (.literal (.int 1)) (.literal (.str "a")))
      = .ok (.bool false) ∧
    evalExpr .ascii .empty (.binaryOp .eq (.unaryOp .negate (.literal (.str "a")))
      (.literal (.int 1))) = .error .typeError := by
  decide +kernel

end

end PySQL.Query
