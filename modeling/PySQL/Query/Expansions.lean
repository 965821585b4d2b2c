import PySQL.Query.Kleene

/-!
# BETWEEN, IN and the simple CASE

The executor has code of its own for these forms.  Here it is compared with what the forms stand
for: comparisons joined by AND and OR, and a CASE whose tests are comparisons.
-/

namespace PySQL.Query

open Lib

/-- `[NOT] e` -/
def negateIf (negated : Bool) (e : Expr) : Expr := if negated then .unaryOp .not e else e

/-- `[NOT] (x >= a AND x <= b)` -/
def expandBetween (x a b : Expr) (negated : Bool) : Expr :=
  negateIf negated (.binaryOp .and (.binaryOp .gte x a) (.binaryOp .lte x b))

/-- `[NOT] (x = v1 OR ... OR x = vn)` -/
def expandIn (x v : Expr) (vs : List Expr) (negated : Bool) : Expr :=
  negateIf negated
    (vs.foldl (fun e w => .binaryOp .or e (.binaryOp .eq x w)) (.binaryOp .eq x v))

/-- `CASE WHEN x = v1 THEN r1 ... END` -/
def expandCase (x : Expr) (whenClauses : List (Expr × Expr)) (elseClause : Option Expr) : Expr :=
  .caseExpr none (whenClauses.map fun p => (.binaryOp .eq x p.1, p.2)) elseClause

section

variable {py : Py} {row : Dict String Value}

theorem evalExpr_negateIf {e : Expr} {t : Truth} (negated : Bool)
    (h : evalExpr py row e = .ok t.value) :
    evalExpr py row (negateIf negated e) = .ok (if negated then t.not else t).value := by
  cases negated with
  | true =>
    show evalExpr py row (.unaryOp .not e) = _
    rw [evalExpr, h, ok_bind, evalUnaryOp_not]
    rfl
  | false => exact h

theorem evalExpr_negateIf_error {e : Expr} {err : PyError} (negated : Bool)
    (h : evalExpr py row e = .error err) : evalExpr py row (negateIf negated e) = .error err := by
  cases negated with
  | true =>
    show evalExpr py row (.unaryOp .not e) = _
    rw [evalExpr, h]
    rfl
  | false => exact h

theorem evalExpr_comparison (op : BinaryOpType) (hop : op.isComparison = true) {left right : Expr}
    {a b : Value} (hleft : evalExpr py row left = .ok a) (hright : evalExpr py row right = .ok b) :
    evalExpr py row (.binaryOp op left right) = .ok (comparison op a b).value :=
  (Denotes.comparison hop hleft hright).evalExpr_eq

/-! ## BETWEEN -/

theorem cmp_swap_of_asymm {α : Type} [LT α] [DecidableLT α] (h : ∀ a b : α, a < b → ¬ b < a)
    (a b : α) : cmp b a = (cmp a b).swap := by
  unfold cmp cmpUsing
  by_cases hab : a < b
  · rw [if_neg (h a b hab), if_pos hab, if_pos hab]
    rfl
  · by_cases hba : b < a
    · rw [if_pos hba, if_neg hab, if_pos hba]
      rfl
    · rw [if_neg hba, if_neg hab, if_neg hab, if_neg hba]
      rfl

theorem map₂_cmp_swap {α : Type} [LinearOrder α] (x y : Option α) :
    Option.map₂ cmp y x = (Option.map₂ cmp x y).map Ordering.swap := by
  cases x with
  | none => cases y <;> rfl
  | some a =>
    cases y with
    | none => rfl
    | some b => exact congrArg some (cmp_swap a b).symm

theorem order_swap (a b : Value) :
    b.order a = (a.order b).map fun o => o.map Ordering.swap := by
  cases a <;> cases b <;>
    first
      | rfl
      | exact congrArg Except.ok (map₂_cmp_swap _ _)
      | exact congrArg (fun o => Except.ok (some o))
          (cmp_swap_of_asymm (fun _ _ => String.lt_asymm) _ _)
      | exact congrArg (fun o => Except.ok (some o))
          (cmp_swap_of_asymm (fun _ _ => List.lt_asymm) _ _)

/-- `low <= v` and `v >= low` are the same question. -/
theorem compare_swap (a b : Value) : b.compare .ge a = a.compare .le b := by
  unfold Value.compare
  rw [order_swap]
  rcases a.order b with e | _ | _ | _ | _ <;> rfl

theorem isOk_compare (op : Value.CompareOp) (a b : Value) :
    (a.compare op b).isOk = (a.order b).isOk := by
  unfold Value.compare
  cases a.order b <;> rfl

/-- NULL is ordered with nothing. -/
theorem compare_toOption_of_null {op : Value.CompareOp} {a b : Value}
    (h : (a.isNull || b.isNull) = true) : (a.compare op b).toOption = none := by
  rw [Bool.or_eq_true, Value.isNull_iff, Value.isNull_iff] at h
  rcases h with rfl | rfl
  · rfl
  · cases a <;> rfl

theorem comparison_lte (a b : Value) : comparison .lte a b = (a.compare .le b).toOption := by
  unfold comparison
  split
  · next h => exact (compare_toOption_of_null h).symm
  · rfl

theorem comparison_gte (a b : Value) : comparison .gte a b = (b.compare .le a).toOption := by
  rw [← compare_swap]
  unfold comparison
  split
  · next h => exact (compare_toOption_of_null h).symm
  · rfl

/-- What `low <= value <= high` asks to be ordered is ordered. -/
def Comparable (low value high : Value) : Prop :=
  (low.order value).isOk = true ∧
    (low.compare .le value = .ok true → (value.order high).isOk = true)

theorem between_eq_iff (low v high : Value) (negated : Bool) :
    (do return .bool ((← between low v high) != negated)) =
      (.ok (if negated then ((comparison .gte v low).and (comparison .lte v high)).not
        else (comparison .gte v low).and (comparison .lte v high)).value : Except PyError Value) ↔
      Comparable low v high := by
  unfold Comparable between
  rw [comparison_gte, comparison_lte, ← isOk_compare .le low v, ← isOk_compare .le v high]
  rcases low.compare .le v with e | low_le
  · -- the comparison raises, and NULL or what follows it never does
    exact iff_of_false (fun h => by cases h) fun h => by cases h.1
  · rcases v.compare .le high with e | le_high <;> cases low_le
    · exact iff_of_true (by cases negated <;> rfl) ⟨rfl, fun h => by cases h⟩
    · exact iff_of_false (fun h => by cases h) fun h => by cases h.2 rfl
    · exact iff_of_true (by cases negated <;> cases le_high <;> rfl) ⟨rfl, fun h => by cases h⟩
    · exact iff_of_true (by cases negated <;> cases le_high <;> rfl) ⟨rfl, fun _ => rfl⟩

/-- A binary operation whose operands cannot both be evaluated raises. -/
theorem evalExpr_binaryOp_error {op : BinaryOpType} {left right : Expr} {e : PyError}
    (h : evalExpr py row left = .error e ∨
      (∃ v, evalExpr py row left = .ok v) ∧ evalExpr py row right = .error e) :
    evalExpr py row (.binaryOp op left right) = .error e := by
  rcases h with h | ⟨⟨v, hv⟩, h⟩
  · rw [evalExpr, h]
    rfl
  · rw [evalExpr, hv, ok_bind, h]
    rfl

/-- BETWEEN agrees with its expansion exactly on values that can be ordered. -/
theorem evalExpr_between_iff (x a b : Expr) (negated : Bool) :
    evalExpr py row (.betweenExpr x a b negated) = evalExpr py row (expandBetween x a b negated) ↔
      ∀ v low high, evalExpr py row x = .ok v → evalExpr py row a = .ok low →
        evalExpr py row b = .ok high → Comparable low v high := by
  unfold expandBetween
  -- an operand that raises does so in both forms
  cases hx : evalExpr py row x with
  | error e =>
    rw [evalExpr_negateIf_error negated
      (evalExpr_binaryOp_error (.inl (evalExpr_binaryOp_error (.inl hx)))), evalExpr, hx]
    exact iff_of_true rfl fun v _ _ h => by cases h
  | ok v =>
    cases ha : evalExpr py row a with
    | error e =>
      rw [evalExpr_negateIf_error negated
        (evalExpr_binaryOp_error (.inl (evalExpr_binaryOp_error (.inr ⟨⟨v, hx⟩, ha⟩)))), evalExpr,
        hx, ok_bind, ha]
      exact iff_of_true rfl fun _ _ _ _ h => by cases h
    | ok low =>
      have hlow := evalExpr_comparison .gte rfl hx ha
      cases hb : evalExpr py row b with
      | error e =>
        rw [evalExpr_negateIf_error negated
          (evalExpr_binaryOp_error (.inr ⟨⟨_, hlow⟩, evalExpr_binaryOp_error (.inr ⟨⟨v, hx⟩, hb⟩)⟩)),
          evalExpr, hx, ok_bind, ha, ok_bind, hb]
        exact iff_of_true rfl fun _ _ _ _ _ h => by cases h
      | ok high =>
        have hhigh := evalExpr_comparison .lte rfl hx hb
        have hand : evalExpr py row (.binaryOp .and (.binaryOp .gte x a) (.binaryOp .lte x b))
            = .ok ((comparison .gte v low).and (comparison .lte v high)).value := by
          rw [evalExpr, hlow, ok_bind, hhigh, ok_bind, evalBinaryOp_and]
        rw [evalExpr_negateIf negated hand, evalExpr, hx, ok_bind, ha, ok_bind, hb, ok_bind,
          between_eq_iff]
        constructor
        · rintro h v' low' high' ⟨⟩ ⟨⟩ ⟨⟩
          exact h
        · exact fun h => h v low high rfl rfl rfl

/-! ## IN -/

/-- `x = v1 OR ... OR x = vn` -/
def anyEqual (v : Value) (ws : List Value) (t : Truth) : Truth :=
  ws.foldl (fun t w => t.or (comparison .eq v w)) t

theorem anyEqual_null (ws : List Value) : anyEqual .null ws none = none := by
  induction ws with
  | nil => rfl
  | cons w ws ih => exact ih

/-- True if one of the values is equal, and else unknown if one of them is NULL. -/
theorem anyEqual_eq {v : Value} (hv : v.isNull = false) (ws : List Value) (t : Truth) :
    anyEqual v ws t =
      if t = some true ∨ ws.any (fun w => w.eq v) = true then some true
      else if t = none ∨ ws.any Value.isNull = true then none
      else some false := by
  induction ws generalizing t with
  | nil => rcases t with _ | _ | _ <;> rfl
  | cons w ws ih =>
    have hstep : anyEqual v (w :: ws) t = anyEqual v ws (t.or (comparison .eq v w)) := rfl
    rw [hstep, ih]
    cases hw : w.isNull with
    | true =>
      obtain rfl := Value.isNull_iff.mp hw
      have hcmp : comparison .eq v .null = none := by
        unfold comparison
        rw [Value.isNull_null, Bool.or_true]
        rfl
      have hne : Value.null.eq v = false := by rw [Value.eq_comm, Value.eq_null, hv]
      rcases t with _ | _ | _ <;> simp [hcmp, hne, Truth.or]
    | false =>
      have hcmp : comparison .eq v w = some (w.eq v) := by
        unfold comparison
        rw [hv, hw, Value.eq_comm]
        rfl
      rcases t with _ | _ | _ <;> cases heq : w.eq v <;> simp [hcmp, heq, hw, Truth.or]

/-- Membership agrees with the expansion if the value is not NULL, and none of the others is unless
one of them is equal. -/
def Decided (v : Value) (ws : List Value) : Prop :=
  v ≠ .null ∧ (.null ∈ ws → ∃ w ∈ ws, w.eq v = true)

theorem in_eq_iff (v : Value) (ws : List Value) (hws : ws ≠ []) (negated : Bool) :
    Value.bool ((ws.any fun w => w.eq v) != negated) =
        (if negated then (anyEqual v ws (some false)).not else anyEqual v ws (some false)).value ↔
      Decided v ws := by
  unfold Decided
  cases hv : v.isNull with
  | true =>
    -- a comparison with NULL is never true
    obtain rfl := Value.isNull_iff.mp hv
    obtain ⟨w, ws, rfl⟩ := List.exists_cons_of_ne_nil hws
    have hnull : anyEqual .null (w :: ws) (some false) = none := anyEqual_null ws
    rw [hnull]
    exact iff_of_false (by cases negated <;> simp [Truth.not]) (by simp)
  | false =>
    have hne : v ≠ .null := fun h => by simp [h] at hv
    have hmem : ws.any Value.isNull = true ↔ .null ∈ ws := by
      simp [List.any_eq_true, Value.isNull_iff]
    rw [anyEqual_eq hv, ← hmem, ← List.any_eq_true]
    cases hany : ws.any fun w => w.eq v with
    | true => exact iff_of_true (by cases negated <;> rfl) ⟨hne, fun _ => rfl⟩
    | false =>
      cases hnull : ws.any Value.isNull with
      | true => exact iff_of_false (by cases negated <;> simp [Truth.not]) (by simp)
      | false => exact iff_of_true (by cases negated <;> rfl) ⟨hne, fun h => by cases h⟩

section

variable {x : Expr} {v : Value}

theorem evalExpr_foldl (hx : evalExpr py row x = .ok v) {vs : List Expr} {ws : List Value} {e : Expr}
    {t : Truth} (hvs : evalExprs py row vs = .ok ws) (he : evalExpr py row e = .ok t.value) :
    evalExpr py row (vs.foldl (fun e w => .binaryOp .or e (.binaryOp .eq x w)) e)
      = .ok (anyEqual v ws t).value := by
  induction vs generalizing ws e t with
  | nil =>
    obtain rfl : [] = ws := Except.ok.inj hvs
    exact he
  | cons w vs ih =>
    rw [evalExprs] at hvs
    obtain ⟨b, hb, hvs⟩ := bind_eq_ok hvs
    obtain ⟨bs, hbs, hvs⟩ := bind_eq_ok hvs
    obtain rfl := Except.ok.inj hvs
    apply ih hbs
    rw [evalExpr, he, ok_bind, evalExpr_comparison .eq rfl hx hb, ok_bind, evalBinaryOp_or]

theorem evalExpr_foldl_error {vs : List Expr} {e : Expr} {err : PyError}
    (he : evalExpr py row e = .error err) :
    evalExpr py row (vs.foldl (fun e w => .binaryOp .or e (.binaryOp .eq x w)) e) = .error err := by
  induction vs generalizing e with
  | nil => exact he
  | cons w vs ih => exact ih (evalExpr_binaryOp_error (.inl he))

/-- The first value that cannot be evaluated raises. -/
theorem evalExpr_foldl_of_error (hx : evalExpr py row x = .ok v) {vs : List Expr} {e : Expr}
    {t : Truth} {err : PyError} (hvs : evalExprs py row vs = .error err)
    (he : evalExpr py row e = .ok t.value) :
    evalExpr py row (vs.foldl (fun e w => .binaryOp .or e (.binaryOp .eq x w)) e)
      = .error err := by
  induction vs generalizing e t with
  | nil => cases hvs
  | cons w vs ih =>
    rw [evalExprs] at hvs
    cases hw : evalExpr py row w with
    | error err' =>
      rw [hw] at hvs
      obtain rfl : err' = err := Except.error.inj hvs
      rw [List.foldl_cons]
      exact evalExpr_foldl_error
        (evalExpr_binaryOp_error (.inr ⟨⟨_, he⟩, evalExpr_binaryOp_error (.inr ⟨⟨v, hx⟩, hw⟩)⟩))
    | ok b =>
      rw [hw, ok_bind] at hvs
      cases hrest : evalExprs py row vs with
      | ok bs =>
        rw [hrest] at hvs
        cases hvs
      | error err' =>
        rw [hrest] at hvs
        obtain rfl : err' = err := Except.error.inj hvs
        apply ih (t := t.or (comparison .eq v b)) hrest
        rw [evalExpr, he, ok_bind, evalExpr_comparison .eq rfl hx hw, ok_bind,
          evalBinaryOp_or]

end

/-- IN agrees with its expansion exactly where NULL does not decide. -/
theorem evalExpr_in_iff (x u : Expr) (us : List Expr) (negated : Bool) :
    evalExpr py row (.inExpr x (u :: us) negated) = evalExpr py row (expandIn x u us negated) ↔
      ∀ v ws, evalExpr py row x = .ok v → evalExprs py row (u :: us) = .ok ws → Decided v ws := by
  unfold expandIn
  cases hx : evalExpr py row x with
  | error e =>
    rw [evalExpr_negateIf_error negated
      (evalExpr_foldl_error (evalExpr_binaryOp_error (.inl hx))), evalExpr, hx]
    exact iff_of_true rfl fun v _ h => by cases h
  | ok v =>
    cases hu : evalExpr py row u with
    | error e =>
      have hlist : evalExprs py row (u :: us) = .error e := by rw [evalExprs, hu]; rfl
      rw [evalExpr_negateIf_error negated
        (evalExpr_foldl_error (evalExpr_binaryOp_error (.inr ⟨⟨v, hx⟩, hu⟩))), evalExpr, hx, ok_bind,
        hlist]
      exact iff_of_true rfl fun _ _ _ h => by cases h
    | ok w =>
      have hfirst := evalExpr_comparison .eq rfl hx hu
      cases hus : evalExprs py row us with
      | error e =>
        have hlist : evalExprs py row (u :: us) = .error e := by
          rw [evalExprs, hu, ok_bind, hus]
          rfl
        rw [evalExpr_negateIf_error negated (evalExpr_foldl_of_error hx hus hfirst), evalExpr, hx,
          ok_bind, hlist]
        exact iff_of_true rfl fun _ _ _ h => by cases h
      | ok ws =>
        have hlist : evalExprs py row (u :: us) = .ok (w :: ws) := by
          rw [evalExprs, hu, ok_bind, hus]
          rfl
        have hor : anyEqual v ws (comparison .eq v w) = anyEqual v (w :: ws) (some false) := by
          have hstep : Truth.or (some false) (comparison .eq v w) = comparison .eq v w := by
            rcases comparison .eq v w with _ | _ | _ <;> rfl
          rw [← hstep]
          rfl
        rw [evalExpr_negateIf negated (evalExpr_foldl hx hus hfirst), hor, evalExpr, hx, ok_bind,
          hlist, ok_bind]
        show (Except.ok _ : Except PyError Value) = Except.ok _ ↔ _
        rw [Except.ok.injEq, in_eq_iff v (w :: ws) (List.cons_ne_nil _ _)]
        constructor
        · rintro h v' ws' ⟨⟩ ⟨⟩
          exact h
        · exact fun h => h v (w :: ws) rfl rfl

/-! ## CASE -/

theorem truthy_comparison_eq (v w : Value) :
    (comparison .eq v w).value.truthy = (!(v.isNull || w.isNull) && v.eq w) := by
  unfold comparison
  cases v.isNull || w.isNull with
  | true => rfl
  | false => rfl

/-- A test of the simple form and that of its expansion agree unless both values are NULL. -/
theorem test_eq {v w : Value} (h : v = .null → w ≠ .null) :
    (comparison .eq v w).value.truthy = v.eq w := by
  rw [truthy_comparison_eq]
  cases hv : v.isNull with
  | true =>
    obtain rfl := Value.isNull_iff.mp hv
    have hw : w.isNull = false := Bool.eq_false_iff.mpr fun hw => h rfl (Value.isNull_iff.mp hw)
    rw [Value.eq_comm, Value.eq_null, hw]
    rfl
  | false =>
    cases hw : w.isNull with
    | true =>
      obtain rfl := Value.isNull_iff.mp hw
      rw [Value.eq_null, hv]
      rfl
    | false => rfl

/-- No test that is reached is NULL. -/
def NoNullTest (py : Py) (row : Dict String Value) (tests : List Expr) : Prop :=
  ∀ before test after, tests = before ++ test :: after →
    (∀ e ∈ before, (evalExpr py row e).isOk = true) → evalExpr py row test ≠ .ok .null

theorem NoNullTest.head {test : Expr} {tests : List Expr} (h : NoNullTest py row (test :: tests)) :
    evalExpr py row test ≠ .ok .null :=
  h [] test tests rfl (by simp)

theorem NoNullTest.tail {test : Expr} {tests : List Expr} (h : NoNullTest py row (test :: tests))
    (hok : (evalExpr py row test).isOk = true) : NoNullTest py row tests := by
  rintro before u after rfl hbefore
  exact h (test :: before) u after rfl (List.forall_mem_cons.mpr ⟨hok, hbefore⟩)

section

variable {x : Expr} {v : Value} {clauses : List (Expr × Expr)}

theorem evalWhen_expand (hx : evalExpr py row x = .ok v)
    (htests : v = .null → NoNullTest py row (clauses.map Prod.fst)) :
    evalWhen py row (some v) clauses
      = evalWhen py row none (clauses.map fun p => (.binaryOp .eq x p.1, p.2)) := by
  induction clauses with
  | nil => rfl
  | cons clause clauses ih =>
    obtain ⟨test, result⟩ := clause
    rw [List.map_cons, evalWhen, evalWhen]
    cases htest : evalExpr py row test with
    | error e =>
      rw [evalExpr_binaryOp_error (.inr ⟨⟨v, hx⟩, htest⟩)]
      rfl
    | ok w =>
      have hagree : (comparison .eq v w).value.truthy = v.eq w :=
        test_eq fun hv hw => (htests hv).head (hw ▸ htest)
      have hrest := ih fun hv => (htests hv).tail (by rw [htest]; rfl)
      rw [evalExpr_comparison .eq rfl hx htest, ok_bind, ok_bind]
      simp only [Option.elim_some, Option.elim_none, hagree, hrest]

/-- Nothing is equal to NULL in the expansion. -/
theorem evalWhen_expand_null (hx : evalExpr py row x = .ok .null) (v : Value) :
    evalWhen py row none (clauses.map fun p => (.binaryOp .eq x p.1, p.2)) ≠ .ok (some v) := by
  induction clauses with
  | nil =>
    intro h
    cases h
  | cons clause clauses ih =>
    obtain ⟨test, result⟩ := clause
    rw [List.map_cons, evalWhen]
    cases htest : evalExpr py row test with
    | error e =>
      rw [evalExpr_binaryOp_error (.inr ⟨⟨_, hx⟩, htest⟩)]
      intro h
      cases h
    | ok w =>
      have hfalse : (comparison .eq .null w).value.truthy = false := by rw [truthy_comparison_eq]; rfl
      rw [evalExpr_comparison .eq rfl hx htest, ok_bind]
      simp only [Option.elim_none, hfalse, Bool.false_eq_true, if_false]
      exact ih

/-- In the simple form NULL is equal to NULL. -/
theorem evalWhen_null {before after : List Expr} {test : Expr}
    (hbefore : ∀ e ∈ before, (evalExpr py row e).isOk = true)
    (htest : evalExpr py row test = .ok .null) (v : Value) :
    evalWhen py row (some .null) ((before ++ test :: after).map fun e => (e, .literal v))
      = .ok (some v) := by
  induction before with
  | nil =>
    rw [List.nil_append, List.map_cons, evalWhen, htest]
    rfl
  | cons e before ih =>
    rw [List.forall_mem_cons] at hbefore
    obtain ⟨w, hw⟩ := exists_ok_of_isOk hbefore.1
    rw [List.cons_append, List.map_cons, evalWhen, hw, ok_bind, ih hbefore.2]
    cases hmatch : (some Value.null).elim w.truthy fun v => v.eq w with
    | true => rfl
    | false => rfl

end

/-- A simple CASE agrees with its expansion, whatever its results are, exactly if no NULL among its
tests meets a NULL operand. -/
theorem evalExpr_case_iff (x test : Expr) (tests : List Expr) :
    (∀ clauses elseClause, clauses.map Prod.fst = test :: tests →
      evalExpr py row (.caseExpr (some x) clauses elseClause)
        = evalExpr py row (expandCase x clauses elseClause)) ↔
      (evalExpr py row x = .ok .null → NoNullTest py row (test :: tests)) := by
  constructor
  · rintro h hx before u after htests hbefore hu
    -- a CASE that returns 1 for the NULL among its tests, and 2 otherwise
    have heval := h ((test :: tests).map fun e => (e, .literal (.int 1))) (some (.literal (.int 2)))
      (by rw [List.map_map]; exact List.map_id _)
    have hsimple : evalExpr py row (.caseExpr (some x)
        ((test :: tests).map fun e => (e, .literal (.int 1))) (some (.literal (.int 2))))
        = .ok (.int 1) := by
      rw [evalExpr, evalOption, hx, htests]
      show (evalWhen py row (some .null) _ >>= _) = _
      rw [evalWhen_null hbefore hu]
      rfl
    rw [hsimple, expandCase, evalExpr, evalOption] at heval
    cases hwhen : evalWhen py row none (((test :: tests).map fun e => (e, Expr.literal (.int 1))).map
        fun p => (.binaryOp .eq x p.1, p.2)) with
    | error e =>
      rw [ok_bind, hwhen] at heval
      cases heval
    | ok result =>
      rw [ok_bind, hwhen, ok_bind] at heval
      cases result with
      | some v => exact evalWhen_expand_null hx v hwhen
      | none => cases heval
  · rintro h clauses elseClause hclauses
    rw [expandCase, evalExpr, evalExpr, evalOption, evalOption]
    cases hx : evalExpr py row x with
    | error e =>
      obtain ⟨⟨when, result⟩, clauses, rfl⟩ := List.exists_cons_of_ne_nil
        (l := clauses) (fun hnil => by rw [hnil] at hclauses; cases hclauses)
      rw [ok_bind, List.map_cons, evalWhen, evalExpr_binaryOp_error (.inl hx)]
      rfl
    | ok v =>
      have hwhen := evalWhen_expand hx fun hv => hclauses ▸ h (hv ▸ hx)
      show (evalWhen py row (some v) clauses >>= _) = _
      rw [hwhen]
      rfl

/-! ## The three forms -/

/-- Each form agrees with its expansion exactly under its own condition.  IN also tests identity,
so nothing is said about a NaN on its left side. -/
theorem evalExpr_expansions_iff (py : Py) (row : Dict String Value) (x : Expr) :
    (∀ a b negated,
      evalExpr py row (.betweenExpr x a b negated) = evalExpr py row (expandBetween x a b negated) ↔
        ∀ v low high, evalExpr py row x = .ok v → evalExpr py row a = .ok low →
          evalExpr py row b = .ok high → Comparable low v high) ∧
    ((∀ y, evalExpr py row x = .ok (.float y) → y.isNaN = false) → ∀ u us negated,
      (evalExpr py row (.inExpr x (u :: us) negated) = evalExpr py row (expandIn x u us negated) ↔
        ∀ v ws, evalExpr py row x = .ok v → evalExprs py row (u :: us) = .ok ws → Decided v ws)) ∧
    (∀ test tests,
      (∀ clauses elseClause, clauses.map Prod.fst = test :: tests →
        evalExpr py row (.caseExpr (some x) clauses elseClause)
          = evalExpr py row (expandCase x clauses elseClause)) ↔
        (evalExpr py row x = .ok .null → NoNullTest py row (test :: tests))) :=
  ⟨evalExpr_between_iff x, fun _ => evalExpr_in_iff x, evalExpr_case_iff x⟩

theorem evalExpr_in_iff_one_two :
    evalExpr .ascii .empty (.inExpr (.literal (.int 1)) [.literal (.int 2)] false)
        = evalExpr .ascii .empty (expandIn (.literal (.int 1)) (.literal (.int 2)) [] false) ↔
      ∀ v ws, evalExpr .ascii .empty (.literal (.int 1)) = .ok v →
        evalExprs .ascii .empty [.literal (.int 2)] = .ok ws → Decided v ws :=
  (evalExpr_expansions_iff .ascii .empty (.literal (.int 1))).2.1 (fun _ h => by cases h) _ [] false

/-- NULL BETWEEN 1 AND 2 raises; NULL IN (NULL) is true and 1 IN (2, NULL) is false where the
expansions are unknown; CASE NULL WHEN NULL finds its test. -/
theorem expansions_differ :
    (evalExpr .ascii .empty
        (.betweenExpr (.literal .null) (.literal (.int 1)) (.literal (.int 2)) false)
        = .error .typeError ∧
      evalExpr .ascii .empty
        (expandBetween (.literal .null) (.literal (.int 1)) (.literal (.int 2)) false) = .ok .null) ∧
    (evalExpr .ascii .empty (.inExpr (.literal .null) [.literal .null] false) = .ok (.bool true) ∧
      evalExpr .ascii .empty (expandIn (.literal .null) (.literal .null) [] false) = .ok .null) ∧
    (evalExpr .ascii .empty (.inExpr (.literal (.int 1)) [.literal (.int 2), .literal .null] false)
        = .ok (.bool false) ∧
      evalExpr .ascii .empty
        (expandIn (.literal (.int 1)) (.literal (.int 2)) [.literal .null] false) = .ok .null) ∧
    (evalExpr .ascii .empty (.caseExpr (some (.literal .null))
        [(.literal .null, .literal (.int 1))] none) = .ok (.int 1) ∧
      evalExpr .ascii .empty (expandCase (.literal .null)
        [(.literal .null, .literal (.int 1))] none) = .ok .null) := by
  decide +kernel

end

end PySQL.Query
