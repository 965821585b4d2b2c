import PySQL.Query.Operators

/-!
# What a column reference finds

A row is looked up by name: of two columns of one name the last is found.
-/

namespace PySQL.Query

open Lib

section Last

variable {κ ν ν' : Type} [DecidableEq κ] {k : κ} {xs ys pairs : List (κ × ν)}

/-- What `dict(pairs)` holds under a key: the last of the values that are given for it. -/
def lastOf (k : κ) (pairs : List (κ × ν)) : Option ν := Dict.lookup k pairs.reverse

@[simp] theorem lastOf_nil : lastOf k ([] : List (κ × ν)) = none := rfl

theorem lookup_append : Dict.lookup k (xs ++ ys) = (Dict.lookup k xs).or (Dict.lookup k ys) := by
  induction xs with
  | nil => rfl
  | cons p xs ih =>
    rw [List.cons_append, Dict.lookup, Dict.lookup, ih]
    split <;> simp

theorem lastOf_append : lastOf k (xs ++ ys) = (lastOf k ys).or (lastOf k xs) := by
  rw [lastOf, List.reverse_append, lookup_append]
  rfl

theorem lastOf_cons (p : κ × ν) :
    lastOf k (p :: xs) = (lastOf k xs).or (if p.1 = k then some p.2 else none) := by
  rw [← List.singleton_append, lastOf_append]
  rfl

theorem get?_dict : (dict pairs).get? k = lastOf k pairs := by
  induction pairs using List.reverseRecOn with
  | nil => rfl
  | append_singleton pairs p ih =>
    have hset : dict (pairs ++ [p]) = (dict pairs).set p.1 p.2 := by
      rw [dict, List.foldl_append]
      rfl
    rw [hset, Dict.get?_set, ih, lastOf_append, lastOf_cons]
    split <;> rfl

theorem lastOf_isSome : (lastOf k pairs).isSome = true ↔ k ∈ pairs.map Prod.fst := by
  induction pairs with
  | nil => simp
  | cons p pairs ih =>
    rw [lastOf_cons, Option.isSome_or, Bool.or_eq_true, ih, List.map_cons, List.mem_cons, or_comm]
    refine or_congr_left ?_
    split
    · next hp => exact iff_of_true rfl hp.symm
    · next hp => exact iff_of_false Bool.false_ne_true (Ne.symm hp)

theorem lastOf_eq_none (h : k ∉ pairs.map Prod.fst) : lastOf k pairs = none := by
  rwa [← Option.isNone_iff_eq_none, ← Option.not_isSome, Bool.not_eq_true', ← Bool.not_eq_true,
    lastOf_isSome]

theorem lastOf_map (g : ν → ν') :
    lastOf k (pairs.map fun p => (p.1, g p.2)) = (lastOf k pairs).map g := by
  induction pairs with
  | nil => rfl
  | cons p pairs ih =>
    rw [List.map_cons, lastOf_cons, lastOf_cons, ih, Option.map_or]
    split <;> rfl

theorem lastOf_graph {keys : List κ} (g : κ → ν) :
    lastOf k (keys.map fun key => (key, g key)) = if k ∈ keys then some (g k) else none := by
  induction keys with
  | nil => rfl
  | cons key keys ih =>
    rw [List.map_cons, lastOf_cons, ih]
    by_cases hmem : k ∈ keys
    · rw [if_pos hmem, if_pos (List.mem_cons_of_mem _ hmem), Option.some_or]
    · rw [if_neg hmem, Option.none_or]
      by_cases hkey : key = k
      · rw [if_pos hkey, if_pos (List.mem_cons.mpr (.inl hkey.symm)), hkey]
      · rw [if_neg hkey, if_neg (by simp [hmem, Ne.symm hkey])]

theorem lastOf_mem {v : ν} (h : lastOf k pairs = some v) : (k, v) ∈ pairs := by
  induction pairs with
  | nil => cases h
  | cons p pairs ih =>
    rw [lastOf_cons, Option.or_eq_some_iff] at h
    rcases h with h | ⟨-, h⟩
    · exact List.mem_cons_of_mem _ (ih h)
    · split at h
      · next hp =>
        obtain rfl := Option.some.inj h
        exact hp ▸ List.mem_cons_self
      · cases h

theorem lastOf_filter (P : κ → Bool) :
    lastOf k (pairs.filter fun p => P p.1) = if P k = true then lastOf k pairs else none := by
  induction pairs with
  | nil => split <;> rfl
  | cons p pairs ih =>
    rw [List.filter_cons, lastOf_cons]
    by_cases hp : p.1 = k
    · subst hp
      split
      · next hP => rw [lastOf_cons, ih, if_pos hP, if_pos rfl]
      · next hP => rw [ih, if_neg hP]
    · rw [if_neg hp, Option.or_none, ← ih]
      split
      · rw [lastOf_cons, if_neg hp, Option.or_none]
      · rfl

theorem dict_concat (p : κ × ν) :
    (dict (pairs ++ [p])).items = Dict.store p.1 p.2 (dict pairs).items := by
  rw [dict, List.foldl_append]
  rfl

theorem map_fst_store {k : κ} {v : ν} : (Dict.store k v pairs).map Prod.fst =
    if k ∈ pairs.map Prod.fst then pairs.map Prod.fst else pairs.map Prod.fst ++ [k] := by
  induction pairs with
  | nil => rfl
  | cons p pairs ih =>
    rw [Dict.store]
    by_cases hp : p.1 = k
    · simp [hp]
    · rw [if_neg hp, List.map_cons, ih, List.map_cons]
      by_cases hk : k ∈ pairs.map Prod.fst
      · rw [if_pos hk, if_pos (List.mem_cons_of_mem _ hk)]
      · rw [if_neg hk, if_neg (by simpa [Ne.symm hp] using hk), List.cons_append]

theorem mem_keys_dict : k ∈ (dict pairs).items.map Prod.fst ↔ k ∈ pairs.map Prod.fst := by
  induction pairs using List.reverseRecOn with
  | nil => rfl
  | append_singleton pairs p ih =>
    rw [dict_concat, Dict.mem_keys_store, ih, List.map_append, List.map_singleton, List.mem_append,
      List.mem_singleton, or_comm]

/-- The keys stand in the order in which they are first given. -/
theorem find?_keys_dict (P : κ → Bool) :
    ((dict pairs).items.map Prod.fst).find? P = (pairs.map Prod.fst).find? P := by
  induction pairs using List.reverseRecOn with
  | nil => rfl
  | append_singleton pairs p ih =>
    rw [dict_concat, map_fst_store, List.map_append, List.map_singleton, List.find?_append, ← ih]
    split
    · next hmem =>
      -- the key of `p` is there already
      cases hfind : ((dict pairs).items.map Prod.fst).find? P with
      | some key => rfl
      | none =>
        have hp : P p.1 = false := by simpa using List.find?_eq_none.mp hfind p.1 hmem
        simp [hp]
    · rw [List.find?_append]

end Last

/-! ## References -/

/-- The table and the column that a reference names. -/
abbrev ColumnName : Type := Option String × String

/-- The key that a reference reads in a row with the given column names. -/
def resolve (py : Py) (names : List String) (ref : ColumnName) : Option String :=
  let qualified := ref.1.bind fun t =>
    if t = "" ∨ t ++ "." ++ ref.2 ∉ names then none else some (t ++ "." ++ ref.2)
  match qualified with
  | some key => some key
  | none =>
    if ref.2 ∈ names then some ref.2
    else names.find? fun name => py.lower name = py.lower ref.2

variable {py : Py}

theorem columnValue_eq (pairs : List (String × Value)) (ref : ColumnName) :
    columnValue py (dict pairs) ref.1 ref.2 =
      ((resolve py (pairs.map Prod.fst) ref).bind fun key => lastOf key pairs).getD .null := by
  have hnone : ∀ {key : String}, key ∉ pairs.map Prod.fst → (dict pairs).get? key = none :=
    fun h => by rw [get?_dict, lastOf_eq_none h]
  have hsome : ∀ {key : String}, key ∈ pairs.map Prod.fst →
      ∃ v, lastOf key pairs = some v ∧ (dict pairs).get? key = some v := by
    intro key h
    obtain ⟨v, hv⟩ := Option.isSome_iff_exists.mp (lastOf_isSome.mpr h)
    exact ⟨v, hv, by rw [get?_dict, hv]⟩
  -- what is found by the bare column, if the qualified name is no key
  have hbare : columnValue py (dict pairs) none ref.2 =
      ((if ref.2 ∈ pairs.map Prod.fst then some ref.2
        else (pairs.map Prod.fst).find? fun name => py.lower name = py.lower ref.2).bind
          fun key => lastOf key pairs).getD .null := by
    unfold columnValue
    by_cases hcolumn : ref.2 ∈ pairs.map Prod.fst
    · obtain ⟨v, hv, hget⟩ := hsome hcolumn
      rw [hget, if_pos hcolumn, Option.bind_some, hv]
      rfl
    · rw [hnone hcolumn, if_neg hcolumn, ← find?_keys_dict, List.find?_map]
      simp only [Function.comp_def]
      cases hfind : (dict pairs).items.find? fun p => py.lower p.1 = py.lower ref.2 with
      | none => rfl
      | some p =>
        have hmem := List.mem_of_find?_eq_some hfind
        have hget : (dict pairs).get? p.1 = some p.2 :=
          Dict.lookup_eq_some_of_mem (dict pairs).nodup hmem
        rw [get?_dict] at hget
        simp [hget]
  obtain ⟨table, column⟩ := ref
  cases table with
  | none => exact hbare
  | some t =>
    unfold columnValue resolve
    dsimp only [Option.bind_some]
    by_cases ht : t = ""
    · rw [if_pos ht, if_pos (.inl ht)]
      exact hbare
    · rw [if_neg ht]
      by_cases hqualified : t ++ "." ++ column ∈ pairs.map Prod.fst
      · obtain ⟨v, hv, hget⟩ := hsome hqualified
        rw [hget, if_neg (by tauto), Option.bind_some, hv]
        rfl
      · rw [hnone hqualified, if_pos (.inr hqualified)]
        exact hbare

theorem columnValue_of_get? {row : Dict String Value} {column : String} {v : Value}
    (h : row.get? column = some v) : columnValue py row none column = v := by
  unfold columnValue
  rw [h]
  rfl

/-- The value that a row holds for a reference. -/
theorem columnValue_rowDict {names : List String} {row : Row} (hlen : row.length = names.length)
    (ref : ColumnName) : columnValue py (rowDict names row) ref.1 ref.2 =
      ((resolve py names ref).bind fun key => lastOf key (names.zip row)).getD .null := by
  rw [rowDict, columnValue_eq, List.map_fst_zip hlen.ge]

/-! ## The references of an expression -/

mutual

def columnRefs : Expr → List ColumnName
  | .columnRef table column => [(table, column)]
  | .binaryOp _ left right => columnRefs left ++ columnRefs right
  | .unaryOp _ operand => columnRefs operand
  | .functionCall _ args _ _ => columnRefsAll args
  | .isNullExpr expr _ => columnRefs expr
  | .betweenExpr expr low high _ => columnRefs expr ++ columnRefs low ++ columnRefs high
  | .inExpr expr values _ => columnRefs expr ++ columnRefsAll values
  | .likeExpr expr pattern _ => columnRefs expr ++ columnRefs pattern
  | .caseExpr operand whenClauses elseClause =>
    columnRefsOption operand ++ columnRefsWhen whenClauses ++ columnRefsOption elseClause
  | .castExpr expr _ => columnRefs expr
  | .literal _ | .starExpr _ | .existsExpr | .subqueryExpr => []

def columnRefsOption : Option Expr → List ColumnName
  | none => []
  | some expr => columnRefs expr

def columnRefsAll : List Expr → List ColumnName
  | [] => []
  | expr :: rest => columnRefs expr ++ columnRefsAll rest

def columnRefsWhen : List (Expr × Expr) → List ColumnName
  | [] => []
  | (when, result) :: rest => columnRefs when ++ columnRefs result ++ columnRefsWhen rest

end

/-- Two rows hold the same for a reference. -/
def SameColumn (py : Py) (row row' : Dict String Value) (ref : ColumnName) : Prop :=
  columnValue py row ref.1 ref.2 = columnValue py row' ref.1 ref.2

variable {row row' : Dict String Value}

mutual

/-- An expression sees of a row only what its references find. -/
theorem evalExpr_congr : ∀ (e : Expr), (∀ ref ∈ columnRefs e, SameColumn py row row' ref) →
    evalExpr py row e = evalExpr py row' e
  | .columnRef table column, h => by
    rw [evalExpr, evalExpr]
    exact congrArg _ (h (table, column) (by simp [columnRefs]))
  | .binaryOp op left right, h => by
    rw [evalExpr, evalExpr, evalExpr_congr left fun ref hr => h ref (by simp [columnRefs, hr]),
      evalExpr_congr right fun ref hr => h ref (by simp [columnRefs, hr])]
  | .unaryOp op operand, h => by
    rw [evalExpr, evalExpr, evalExpr_congr operand h]
  | .functionCall name args _ _, h => by
    rw [evalExpr, evalExpr, evalExprs_congr args h]
  | .isNullExpr expr _, h => by
    rw [evalExpr, evalExpr, evalExpr_congr expr h]
  | .betweenExpr expr low high _, h => by
    rw [evalExpr, evalExpr, evalExpr_congr expr fun ref hr => h ref (by simp [columnRefs, hr]),
      evalExpr_congr low fun ref hr => h ref (by simp [columnRefs, hr]),
      evalExpr_congr high fun ref hr => h ref (by simp [columnRefs, hr])]
  | .inExpr expr values _, h => by
    rw [evalExpr, evalExpr, evalExpr_congr expr fun ref hr => h ref (by simp [columnRefs, hr]),
      evalExprs_congr values fun ref hr => h ref (by simp [columnRefs, hr])]
  | .likeExpr expr pattern _, h => by
    rw [evalExpr, evalExpr, evalExpr_congr expr fun ref hr => h ref (by simp [columnRefs, hr]),
      evalExpr_congr pattern fun ref hr => h ref (by simp [columnRefs, hr])]
  | .caseExpr operand whenClauses elseClause, h => by
    rw [evalExpr, evalExpr,
      evalOption_congr operand fun ref hr => h ref (by simp [columnRefs, hr]),
      evalOption_congr elseClause fun ref hr => h ref (by simp [columnRefs, hr])]
    congr 1
    funext value
    rw [evalWhen_congr value whenClauses fun ref hr => h ref (by simp [columnRefs, hr])]
  | .castExpr expr _, h => by
    rw [evalExpr, evalExpr, evalExpr_congr expr h]
  | .literal _, _ => by rw [evalExpr, evalExpr]
  | .starExpr _, _ => by rw [evalExpr, evalExpr]
  | .existsExpr, _ => by rw [evalExpr, evalExpr]
  | .subqueryExpr, _ => by rw [evalExpr, evalExpr]

theorem evalOption_congr : ∀ (e : Option Expr),
    (∀ ref ∈ columnRefsOption e, SameColumn py row row' ref) →
    evalOption py row e = evalOption py row' e
  | none, _ => rfl
  | some expr, h => by rw [evalOption, evalOption, evalExpr_congr expr h]

theorem evalExprs_congr : ∀ (es : List Expr),
    (∀ ref ∈ columnRefsAll es, SameColumn py row row' ref) →
    evalExprs py row es = evalExprs py row' es
  | [], _ => rfl
  | expr :: rest, h => by
    rw [evalExprs, evalExprs, evalExpr_congr expr fun ref hr => h ref (by simp [columnRefsAll, hr]),
      evalExprs_congr rest fun ref hr => h ref (by simp [columnRefsAll, hr])]

theorem evalWhen_congr (value : Option Value) : ∀ (clauses : List (Expr × Expr)),
    (∀ ref ∈ columnRefsWhen clauses, SameColumn py row row' ref) →
    evalWhen py row value clauses = evalWhen py row' value clauses
  | [], _ => rfl
  | (when, result) :: rest, h => by
    rw [evalWhen, evalWhen, evalExpr_congr when fun ref hr => h ref (by simp [columnRefsWhen, hr]),
      evalExpr_congr result fun ref hr => h ref (by simp [columnRefsWhen, hr]),
      evalWhen_congr value rest fun ref hr => h ref (by simp [columnRefsWhen, hr])]

end

end PySQL.Query
