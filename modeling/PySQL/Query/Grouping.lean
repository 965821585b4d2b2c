import PySQL.Lib.Groups
import PySQL.Query.Distinct

/-!
# GROUP BY and aggregates

The executor puts the rows into a dictionary of lists, by the tuple of their keys, and computes the
aggregates of each list.
-/

namespace PySQL.Query

open Lib

variable {py : Py} {columns : List String} {rows : List Row}

/-! ## Aggregates of integers -/

/-- The integers among the values of an expression in some rows. -/
def integers (py : Py) (columns : List String) (arg : Expr) (rows : List Row) : List ℤ :=
  rows.filterMap fun row =>
    match evalExpr py (rowDict columns row) arg with
    | .ok (.int n) => some n
    | _ => none

/-- What an aggregate of integers means: a number of rows for COUNT(*), otherwise the number, the
sum, the minimum or the maximum of the integers. -/
def aggregateOf (py : Py) (columns : List String) (rows : List Row) : Expr → Value
  | .functionCall name args _ _ =>
    match py.upper name, args with
    | "COUNT", [] | "COUNT", .starExpr _ :: _ => .int rows.length
    | "COUNT", arg :: _ => .int (integers py columns arg rows).length
    | "SUM", arg :: _ =>
      if integers py columns arg rows = [] then .null else .int (integers py columns arg rows).sum
    | "MIN", arg :: _ => (integers py columns arg rows).min?.elim .null .int
    | "MAX", arg :: _ => (integers py columns arg rows).max?.elim .null .int
    | _, _ => .null
  | _ => .null

/-- The values of an expression in some rows are integers and NULLs. -/
def IntegersOrNull (py : Py) (columns : List String) (arg : Expr) (rows : List Row) : Prop :=
  ∀ row ∈ rows, evalExpr py (rowDict columns row) arg = .ok .null ∨
    ∃ n, evalExpr py (rowDict columns row) arg = .ok (.int n)

/-- COUNT(*), or COUNT, SUM, MIN or MAX of integers and NULLs, without DISTINCT. -/
def IntegerCall (py : Py) (columns : List String) (rows : List Row) : Expr → Prop
  | .functionCall name args distinct _ => distinct = false ∧
    ((py.upper name = "COUNT" ∧ (args = [] ∨ ∃ table rest, args = .starExpr table :: rest)) ∨
      (py.upper name ∈ ["COUNT", "SUM", "MIN", "MAX"] ∧
        ∃ arg rest, args = arg :: rest ∧ IntegersOrNull py columns arg rows))
  | _ => False

theorem Value.compare_int (op : CompareOp) (m n : ℤ) : (Value.int m).compare op (.int n) =
    .ok (op.holds (cmp (Num.ofRat m) (Num.ofRat n))) := rfl

theorem Value.lt_int (m n : ℤ) : (Value.int m).compare .lt (.int n) = .ok (decide (m < n)) := by
  rw [Value.compare_int, CompareOp.holds, Except.ok.injEq, Bool.eq_iff_iff, decide_eq_true_iff,
    beq_iff_eq, cmp_eq_lt_iff, Num.ofRat_lt, Int.cast_lt]

theorem Value.gt_int (m n : ℤ) : (Value.int m).compare .gt (.int n) = .ok (decide (n < m)) := by
  rw [Value.compare_int, CompareOp.holds, Except.ok.injEq, Bool.eq_iff_iff, decide_eq_true_iff,
    beq_iff_eq, cmp_eq_gt_iff, Num.ofRat_lt, Int.cast_lt]

theorem sumValues_ints (ns : List ℤ) : sumValues (ns.map .int) = .ok (.int ns.sum) := by
  have hfold : ∀ m : ℤ, (ns.map Value.int).foldlM Value.add (.int m) = .ok (.int (m + ns.sum)) := by
    induction ns with
    | nil =>
      intro m
      simp [pure, Except.pure]
    | cons n ns ih =>
      intro m
      rw [List.map_cons, List.foldlM_cons, List.sum_cons, ← add_assoc]
      exact ih (m + n)
  rw [sumValues, hfold, zero_add]

theorem minValue_ints (n : ℤ) (ns : List ℤ) :
    bestValue .lt ((n :: ns).map .int) = .ok (.int (ns.foldl min n)) := by
  rw [List.map_cons, bestValue]
  induction ns generalizing n with
  | nil => rfl
  | cons m ns ih =>
    rw [List.map_cons, List.foldlM_cons, List.foldl_cons, Value.lt_int]
    simp only [bind, Except.bind]
    by_cases hlt : m < n
    · rw [min_eq_right hlt.le, ← ih m, decide_eq_true hlt]
      rfl
    · rw [min_eq_left (not_lt.mp hlt), ← ih n, decide_eq_false hlt]
      rfl

theorem maxValue_ints (n : ℤ) (ns : List ℤ) :
    bestValue .gt ((n :: ns).map .int) = .ok (.int (ns.foldl max n)) := by
  rw [List.map_cons, bestValue]
  induction ns generalizing n with
  | nil => rfl
  | cons m ns ih =>
    rw [List.map_cons, List.foldlM_cons, List.foldl_cons, Value.gt_int]
    simp only [bind, Except.bind]
    by_cases hlt : n < m
    · rw [max_eq_right hlt.le, ← ih m, decide_eq_true hlt]
      rfl
    · rw [max_eq_left (not_lt.mp hlt), ← ih n, decide_eq_false hlt]
      rfl

/-- The values that are not NULL are the integers. -/
theorem mapE_integers {arg : Expr} (h : IntegersOrNull py columns arg rows) :
    ∃ values, mapE (fun row => evalExpr py (rowDict columns row) arg) rows = .ok values ∧
      (values.filter fun v => !v.isNull) = (integers py columns arg rows).map .int := by
  induction rows with
  | nil => exact ⟨[], rfl, rfl⟩
  | cons row rows ih =>
    obtain ⟨values, hvalues, hfilter⟩ := ih fun r hr => h r (List.mem_cons_of_mem _ hr)
    rcases h row List.mem_cons_self with hrow | ⟨n, hrow⟩
    · refine ⟨.null :: values, by rw [mapE, hrow, hvalues]; rfl, ?_⟩
      rw [integers, List.filterMap_cons, hrow]
      exact hfilter
    · refine ⟨.int n :: values, by rw [mapE, hrow, hvalues]; rfl, ?_⟩
      rw [integers, List.filterMap_cons, hrow]
      exact congrArg (Value.int n :: ·) hfilter

/-- COUNT, SUM, MIN and MAX of the integers that an argument has in some rows. -/
theorem computeAggregate_values {name : String} {arg : Expr} {rest : List Expr}
    {distinct isAggregate : Bool} (hvalues : IntegersOrNull py columns arg rows)
    (hrows : ¬ (py.upper name = "COUNT" ∧ ∃ table, arg = .starExpr table)) :
    computeAggregate py columns rows (.functionCall name (arg :: rest) distinct isAggregate) =
      let values := (integers py columns arg rows).map Value.int
      if py.upper name = "COUNT" then .ok (.int values.length)
      else if values.isEmpty then .ok .null
      else match py.upper name with
        | "SUM" => sumValues values
        | "AVG" => do (← sumValues values).div (.int values.length)
        | "MIN" => bestValue .lt values
        | "MAX" => bestValue .gt values
        | _ => .error (.runtimeError ("Unknown aggregate function: " ++ py.upper name)) := by
  obtain ⟨values, hmap, hfilter⟩ := mapE_integers hvalues
  unfold computeAggregate
  refine (if_neg ?_).trans ?_
  · rintro ⟨hname, hargs⟩
    refine hrows ⟨hname, ?_⟩
    cases arg with
    | starExpr table => exact ⟨table, rfl⟩
    | _ => cases hargs
  · simp only [hmap, bind, Except.bind, hfilter]
    rfl

theorem IntegerCall.computeAggregate {call : Expr} (h : IntegerCall py columns rows call) :
    computeAggregate py columns rows call = .ok (aggregateOf py columns rows call) := by
  cases call with
  | functionCall name args distinct isAggregate =>
    obtain ⟨-, ⟨hname, rfl | ⟨table, rest, rfl⟩⟩ | ⟨hname, arg, rest, rfl, hvalues⟩⟩ := h
    · simp [Query.computeAggregate, aggregateOf, hname, pure, Except.pure]
    · simp [Query.computeAggregate, aggregateOf, hname, pure, Except.pure]
    · simp only [List.mem_cons, List.not_mem_nil, or_false] at hname
      rcases hname with hname | hname | hname | hname
      · by_cases hstar : ∃ table, arg = .starExpr table
        · obtain ⟨table, rfl⟩ := hstar
          simp [Query.computeAggregate, aggregateOf, hname, pure, Except.pure]
        · rw [computeAggregate_values hvalues fun hrows => hstar hrows.2]
          cases arg with
          | starExpr table => exact absurd ⟨table, rfl⟩ hstar
          | _ => simp [aggregateOf, hname]
      · rw [computeAggregate_values hvalues (by simp [hname])]
        simp only [aggregateOf, hname, sumValues_ints]
        cases integers py columns arg rows <;> rfl
      · rw [computeAggregate_values hvalues (by simp [hname])]
        simp only [aggregateOf, hname]
        cases integers py columns arg rows with
        | nil => rfl
        | cons n ns => exact minValue_ints n ns
      · rw [computeAggregate_values hvalues (by simp [hname])]
        simp only [aggregateOf, hname]
        cases integers py columns arg rows with
        | nil => rfl
        | cons n ns => exact maxValue_ints n ns
  | _ => exact h.elim

theorem IntegerCall.subset {rows' : List Row} {call : Expr} (h : IntegerCall py columns rows call)
    (hsub : ∀ row ∈ rows', row ∈ rows) : IntegerCall py columns rows' call := by
  cases call with
  | functionCall name args distinct isAggregate =>
    refine ⟨h.1, h.2.imp_right ?_⟩
    rintro ⟨hname, arg, rest, hargs, hvalues⟩
    exact ⟨hname, arg, rest, hargs, fun row hrow => hvalues row (hsub row hrow)⟩
  | _ => exact h.elim

/-! ## Grouping -/

/-- The tuple of the keys of a row. -/
def groupKey (py : Py) (columns : List String) (groupBy : List Expr) (row : Row) :
    Except PyError (List Value) :=
  mapE (evalExpr py (rowDict columns row)) groupBy

theorem groupInsert_eq {key : List Value} {row : Row} {groups : List (List Value × List Row)} :
    groupInsert key row groups = insertGroup tupleEq key row groups := by
  induction groups with
  | nil => rfl
  | cons g groups ih => rw [groupInsert, insertGroup, ih]

/-- The loop computes the keys and inserts the rows. -/
theorem foldlM_groupInsert (f : Row → Except PyError (List Value))
    (groups : List (List Value × List Row)) :
    rows.foldlM (fun groups row => do
        let key ← f row
        return groupInsert key row groups) groups =
      (mapE f rows).map fun keys =>
        (keys.zip rows).foldl (fun groups p => insertGroup tupleEq p.1 p.2 groups) groups := by
  induction rows generalizing groups with
  | nil => rfl
  | cons row rows ih =>
    rw [List.foldlM_cons, mapE]
    cases f row with
    | error e => rfl
    | ok key =>
      simp only [bind, Except.bind]
      refine (ih _).trans ?_
      cases mapE f rows with
      | error e => rfl
      | ok keys =>
        rw [groupInsert_eq]
        rfl

/-- Without keys all rows fall into one group. -/
theorem foldl_insertGroup_nil {keys : List (List Value)} (hlen : keys.length = rows.length)
    (hkeys : ∀ key ∈ keys, key = []) (members : List Row) :
    (keys.zip rows).foldl (fun groups p => insertGroup tupleEq p.1 p.2 groups) [([], members)] =
      [([], members ++ rows)] := by
  induction rows generalizing keys members with
  | nil => simp
  | cons row rows ih =>
    obtain ⟨key, keys, rfl⟩ := List.exists_cons_of_length_eq_add_one hlen
    rw [List.forall_mem_cons] at hkeys
    obtain ⟨rfl, hkeys⟩ := hkeys
    rw [List.zip_cons_cons, List.foldl_cons]
    refine (ih (Nat.succ.inj hlen) hkeys (members ++ [row])).trans ?_
    rw [List.append_assoc, List.singleton_append]

theorem groupKey_nil {row : Row} : groupKey py columns [] row = .ok [] := rfl

/-- The groups from which the rows of the result are made.  A key with a NaN equals no key: each of
its rows has a NaN of its own, and so a group of its own. -/
def GroupsOf (groupBy : List Expr) (keys : List (List Value)) (rows : List Row)
    (groups : List (List Value × List Row)) : Prop :=
  if groupBy = [] then groups = [([], rows)] else Grouped tupleEq (keys.zip rows) groups

theorem GroupsOf.subset {groupBy : List Expr} {keys : List (List Value)}
    {groups : List (List Value × List Row)} (h : GroupsOf groupBy keys rows groups)
    (hlen : keys.length = rows.length) {g : List Value × List Row} (hg : g ∈ groups) :
    ∀ row ∈ g.2, row ∈ rows := by
  intro row hrow
  rw [GroupsOf] at h
  split at h
  · subst h
    rw [List.mem_singleton.mp hg] at hrow
    exact hrow
  · have hmem := h.once.mem_iff.mp (List.mem_flatMap.mpr ⟨g, hg, hrow⟩)
    rwa [List.map_snd_zip hlen.ge] at hmem

/-- The groups that the loop leaves, with the one that is added for no rows at all. -/
theorem groupsOf_foldl {groupBy : List Expr} {keys : List (List Value)}
    (hkeys : mapE (groupKey py columns groupBy) rows = .ok keys) :
    GroupsOf groupBy keys rows
      (let groups := (keys.zip rows).foldl (fun groups p => insertGroup tupleEq p.1 p.2 groups) []
      if groups.isEmpty && groupBy.isEmpty then [([], [])] else groups) := by
  have hlen := length_of_mapE hkeys
  rw [GroupsOf]
  by_cases hgroup : groupBy = []
  · subst hgroup
    rw [if_pos rfl]
    have hnil : ∀ key ∈ keys, key = [] := by
      intro key hkey
      obtain ⟨row, -, hrow⟩ := mem_of_mapE hkeys hkey
      exact (Except.ok.inj hrow).symm
    cases rows with
    | nil =>
      rw [List.zip_nil_right]
      rfl
    | cons row rows =>
      obtain ⟨key, keys, rfl⟩ := List.exists_cons_of_length_eq_add_one hlen
      rw [List.forall_mem_cons] at hnil
      obtain ⟨rfl, hnil⟩ := hnil
      have hfold : (([] :: keys).zip (row :: rows)).foldl
          (fun groups p => insertGroup tupleEq p.1 p.2 groups) [] = [([], row :: rows)] :=
        foldl_insertGroup_nil (Nat.succ.inj hlen) hnil [row]
      simp only [hfold]
      rfl
  · have hempty : groupBy.isEmpty = false := by simpa using hgroup
    simp only [if_neg hgroup, hempty, Bool.and_false, Bool.false_eq_true, if_false]
    exact grouped_foldl tupleEq_partialEquiv _

end PySQL.Query
