import PySQL.Lib.StableSort
import PySQL.Query.Index
import PySQL.Query.Operators

/-!
# ORDER BY

The sort puts NULLs last and negates the numbers of descending keys; texts of descending keys are
left to a reversal of the whole list.
-/

namespace PySQL.Query

open Lib

/-! ## What is to be sorted by -/

/-- The place of a key value: NULLs are last. -/
abbrev SortRank : Type := WithTop (Value.Key ⊕ₗ Value.Keyᵒᵈ)

def sortRank (descending : Bool) (v : Value) : SortRank :=
  match v.key with
  | none | some .null => ⊤
  | some k => ((if descending then Sum.inrₗ (.toDual k) else Sum.inlₗ k : Value.Key ⊕ₗ Value.Keyᵒᵈ))

/-- The ranks of the key values of a row, which are compared lexicographically. -/
def sortRanks (descending : List Bool) (values : List Value) : List SortRank :=
  List.zipWith sortRank descending values

/-- Two key values can be compared, or one of them is NULL. -/
def ComparableValues (v w : Value) : Prop :=
  v = .null ∨ w = .null ∨ ∃ o, v.order w = .ok (some o)

/-- The first key on which two rows differ: whether it is descending, and the two values. -/
def firstDifference (descending : List Bool) (values values' : List Value) :
    Option (Bool × Value × Value) :=
  (descending.zip (values.zip values')).find? fun c => !c.2.1.eq c.2.2

/-! ## What the code sorts by -/

/-- The component of a sort key. -/
def sortCell (descending : Bool) (v : Value) : Option Value :=
  if v.isNull then none
  else if descending && v.num.isSome then v.negate.toOption
  else
    match descending, v with
    | true, .float x => some (.float x.neg)
    | _, _ => some v

/-- The place of a key value in the code: only numbers of a descending key descend. -/
def codeRank (descending : Bool) (v : Value) : SortRank :=
  sortRank (descending && v.num.isSome) v

def codeRanks (descending : List Bool) (values : List Value) : List SortRank :=
  List.zipWith codeRank descending values

variable {py : Py} {v w : Value} {x y : Value.Key} {d : Bool} {ds : List Bool}
  {vs ws : List Value}

theorem Value.keys_of_order {o : Ordering} (h : v.order w = .ok (some o)) :
    ∃ x y, v.key = some x ∧ w.key = some y ∧ x.comparable y = true := by
  have hnums : Option.map₂ cmp v.num w.num = some o →
      ∃ x y, v.key = some x ∧ w.key = some y ∧ x.comparable y = true := by
    intro hmap
    obtain ⟨m, n, hm, hn, -⟩ := Option.map₂_eq_some_iff.mp hmap
    refine ⟨.num m, .num n, ?_, ?_, rfl⟩
    · cases v <;> first | exact congrArg (Option.map Key.num) hm | cases hm
    · cases w <;> first | exact congrArg (Option.map Key.num) hn | cases hn
  cases v <;> cases w <;>
    first | exact ⟨_, _, rfl, rfl, rfl⟩ | exact hnums (Except.ok.inj h) | cases h

theorem Value.eq_of_keys (hv : v.key = some x) (hw : w.key = some y) :
    v.eq w = decide (x = y) := by
  simp only [Value.eq, hv, hw]

theorem Value.compare_lt_of_keys (hv : v.key = some x) (hw : w.key = some y)
    (h : x.comparable y = true) : v.compare .lt w = .ok (decide (x < y)) := by
  rw [Value.compare, Value.order_of_keys hv hw h]
  show Except.ok (cmp x y == .lt) = _
  congr 1
  rw [Bool.eq_iff_iff, beq_iff_eq, decide_eq_true_iff]
  exact cmp_eq_lt_iff x y

theorem sortRank_of_key (hv : v.key = some x) (hx : x ≠ .null) : sortRank d v =
    ((if d then Sum.inrₗ (.toDual x) else Sum.inlₗ x : Value.Key ⊕ₗ Value.Keyᵒᵈ) : SortRank) := by
  rw [sortRank, hv]
  cases x <;> first | rfl | exact absurd rfl hx

theorem negate_of_num {m : Num} (h : v.num = some m) :
    ∃ u, v.negate = .ok u ∧ u.key = some (.num m.neg) := by
  cases v with
  | bool b =>
    obtain rfl := Option.some.inj h
    refine ⟨.int (-(if b then 1 else 0)), by cases b <;> rfl, ?_⟩
    show some (Value.Key.num (Num.ofRat _)) = _
    rw [Num.neg_ofRat]
    cases b <;> simp
  | int n =>
    obtain rfl := Option.some.inj h
    refine ⟨.int (-n), rfl, ?_⟩
    show some (Value.Key.num (Num.ofRat _)) = _
    rw [Num.neg_ofRat]
    simp
  | float f =>
    refine ⟨.float f.neg, rfl, ?_⟩
    have hnum : f.toNum = some m := h
    show (f.neg.toNum).map Value.Key.num = _
    rw [PyFloat.toNum_neg, hnum]
    rfl
  | null => cases h
  | str s => cases h
  | bytes bs => cases h

/-- The number that a key stands for. -/
def Value.Key.num? : Value.Key → Option Num
  | .num m => some m
  | _ => none

theorem num_of_key (h : v.key = some x) : v.num = x.num? := by
  cases v with
  | float f =>
    obtain ⟨m, hm, rfl⟩ := Option.map_eq_some_iff.mp h
    exact hm
  | null => cases h; rfl
  | bool b => cases h; rfl
  | int n => cases h; rfl
  | str s => cases h; rfl
  | bytes bs => cases h; rfl

/-- The component of a value that is no number of a descending key is the value. -/
theorem sortCell_of_not (hv : v.key = some x) (hx : x ≠ .null)
    (h : (d && v.num.isSome) = false) : sortCell d v = some v := by
  have hnull : v.isNull = false := by
    rw [Bool.eq_false_iff, Ne, Value.isNull_iff]
    rintro rfl
    exact hx (Option.some.inj hv).symm
  unfold sortCell
  rw [hnull, h, if_neg Bool.false_ne_true, if_neg Bool.false_ne_true]
  split
  · -- a float that is not NaN is a number
    next f =>
      obtain ⟨m, hm, -⟩ := Option.map_eq_some_iff.mp hv
      rw [show (Value.float f).num = some m from hm] at h
      cases h
  · rfl

theorem sortCell_of_negate {m : Num} (hv : v.key = some (.num m)) :
    ∃ u, sortCell true v = some u ∧ u.key = some (.num m.neg) := by
  have hnum : v.num = some m := num_of_key hv
  have hnull : v.isNull = false := by
    rw [Bool.eq_false_iff, Ne, Value.isNull_iff]
    rintro rfl
    cases hv
  obtain ⟨u, hu, hkey⟩ := negate_of_num hnum
  refine ⟨u, ?_, hkey⟩
  unfold sortCell
  rw [hnull, hnum, if_neg Bool.false_ne_true, hu]
  rfl

theorem Value.Key.num_lt {m n : Num} : Key.num m < Key.num n ↔ m < n := by
  rw [← cmp_eq_lt_iff, Key.cmp_num, cmp_eq_lt_iff]

/-- Two comparable components compare as their ranks. -/
theorem sortCell_compare (hv : v.key = some x) (hw : w.key = some y)
    (h : x.comparable y = true) : ∃ v' w', sortCell d v = some v' ∧ sortCell d w = some w' ∧
      v'.eq w' = decide (codeRank d v = codeRank d w) ∧
      v'.compare .lt w' = .ok (decide (codeRank d v < codeRank d w)) := by
  have hx : x ≠ .null := by
    rintro rfl
    simp [Value.Key.comparable, Value.Key.kind] at h
  have hy : y ≠ .null := by
    rintro rfl
    cases x <;> simp [Value.Key.comparable, Value.Key.kind] at h
  have hsame : x.num?.isSome = y.num?.isSome := by
    cases x <;> cases y <;> first | rfl | simp [Value.Key.comparable, Value.Key.kind] at h
  rw [codeRank, codeRank, sortRank_of_key hv hx, sortRank_of_key hw hy, num_of_key hv,
    num_of_key hw, ← hsame]
  by_cases hneg : (d && x.num?.isSome) = true
  · -- negating two numbers turns their order round
    rw [Bool.and_eq_true] at hneg
    obtain ⟨rfl, hnum⟩ := hneg
    obtain ⟨m, rfl⟩ : ∃ m, x = .num m := by
      cases x <;> first | exact ⟨_, rfl⟩ | cases hnum
    obtain ⟨n, rfl⟩ : ∃ n, y = .num n := by
      cases y <;> first | exact ⟨_, rfl⟩ | simp [Value.Key.comparable, Value.Key.kind] at h
    obtain ⟨v', hv', hvkey⟩ := sortCell_of_negate hv
    obtain ⟨w', hw', hwkey⟩ := sortCell_of_negate hw
    refine ⟨v', w', hv', hw', ?_, ?_⟩
    · rw [Value.eq_of_keys hvkey hwkey]
      simp [Value.Key.num?, Num.strictAnti_neg.injective.eq_iff]
    · rw [Value.compare_lt_of_keys hvkey hwkey (by rfl)]
      simp [Value.Key.num?, Value.Key.num_lt, Num.strictAnti_neg.lt_iff_gt]
  · rw [Bool.not_eq_true] at hneg
    have hneg' : (d && y.num?.isSome) = false := hsame ▸ hneg
    refine ⟨v, w, sortCell_of_not hv hx (by rwa [num_of_key hv]),
      sortCell_of_not hw hy (by rwa [num_of_key hw]), ?_, ?_⟩
    · rw [Value.eq_of_keys hv hw, hneg]
      simp
    · rw [Value.compare_lt_of_keys hv hw h, hneg]
      simp

theorem sortCell_null : sortCell d .null = none := rfl

theorem Value.ne_null_of_key (hv : v.key = some x) (hne : v ≠ .null) : x ≠ .null := by
  rintro rfl
  cases v with
  | null => exact hne rfl
  | float f =>
    obtain ⟨m, -, hm⟩ := Option.map_eq_some_iff.mp hv
    cases hm
  | bool b => cases hv
  | int n => cases hv
  | str s => cases hv
  | bytes bs => cases hv

theorem sortCell_ne_none (hv : v.key = some x) (hne : v ≠ .null) :
    ∃ u, sortCell d v = some u := by
  by_cases hneg : (d && v.num.isSome) = true
  · rw [Bool.and_eq_true, num_of_key hv] at hneg
    obtain ⟨rfl, hnum⟩ := hneg
    obtain ⟨m, rfl⟩ : ∃ m, x = .num m := by
      cases x <;> first | exact ⟨_, rfl⟩ | cases hnum
    obtain ⟨u, hu, -⟩ := sortCell_of_negate hv
    exact ⟨u, hu⟩
  · rw [Bool.not_eq_true] at hneg
    exact ⟨v, sortCell_of_not hv (Value.ne_null_of_key hv hne) hneg⟩

/-- What can be compared with itself and is not NULL has a key. -/
theorem ComparableValues.key (h : ComparableValues v v) : ∃ x, v.key = some x := by
  rcases h with rfl | rfl | ⟨o, ho⟩
  · exact ⟨.null, rfl⟩
  · exact ⟨.null, rfl⟩
  · obtain ⟨x, -, hx, -⟩ := Value.keys_of_order ho
    exact ⟨x, hx⟩

theorem codeRank_null : codeRank d .null = ⊤ := by
  rw [codeRank, sortRank]
  rfl

theorem codeRank_lt_top (hv : v.key = some x) (hne : v ≠ .null) : codeRank d v < ⊤ := by
  rw [codeRank, sortRank_of_key hv (Value.ne_null_of_key hv hne)]
  exact WithTop.coe_lt_top _

/-- Two sort keys compare as the ranks of their rows. -/
theorem sortKeyLess_eq (hlen : vs.length = ds.length) (hlen' : ws.length = ds.length)
    (hvs : ∀ v ∈ vs, ∃ x, v.key = some x) (hws : ∀ w ∈ ws, ∃ x, w.key = some x)
    (h : List.Forall₂ ComparableValues vs ws) :
    ∃ less, sortKeyLess (List.zipWith sortCell ds vs) (List.zipWith sortCell ds ws) = .ok less ∧
      (less = true ↔ codeRanks ds vs < codeRanks ds ws) := by
  induction h generalizing ds with
  | nil =>
    obtain rfl := List.length_eq_zero_iff.mp hlen.symm
    exact ⟨false, rfl, by simp [codeRanks]⟩
  | @cons v w vs ws hvw _ ih =>
    obtain ⟨d, ds, rfl⟩ := List.exists_cons_of_length_eq_add_one hlen.symm
    rw [List.forall_mem_cons] at hvs hws
    obtain ⟨less, hrest, hless⟩ :=
      ih (Nat.succ.inj hlen) (Nat.succ.inj hlen') hvs.2 hws.2
    obtain ⟨x, hx⟩ := hvs.1
    obtain ⟨y, hy⟩ := hws.1
    simp only [codeRanks, List.zipWith_cons_cons, List.cons_lt_cons_iff] at hless ⊢
    by_cases hv : v = .null
    · subst hv
      by_cases hw : w = .null
      · subst hw
        refine ⟨less, by rw [sortCell_null, sortKeyLess, hrest], ?_⟩
        simpa using hless
      · obtain ⟨u, hu⟩ := sortCell_ne_none (d := d) hy hw
        have hlt := codeRank_lt_top (d := d) hy hw
        refine ⟨false, by rw [sortCell_null, hu, sortKeyLess], ?_⟩
        simp [codeRank_null, hlt.ne']
    · obtain ⟨u, hu⟩ := sortCell_ne_none (d := d) hx hv
      have hlt := codeRank_lt_top (d := d) hx hv
      by_cases hw : w = .null
      · subst hw
        refine ⟨true, by rw [sortCell_null, hu, sortKeyLess], ?_⟩
        simp [codeRank_null, hlt]
      · obtain ⟨o, ho⟩ := (hvw.resolve_left hv).resolve_left hw
        obtain ⟨x', y', hx', hy', hcomp⟩ := Value.keys_of_order ho
        obtain ⟨v', w', hv', hw', heq, hcompare⟩ := sortCell_compare (d := d) hx' hy' hcomp
        rw [hv', hw', sortKeyLess, heq, hcompare, hrest]
        by_cases hranks : codeRank d v = codeRank d w
        · refine ⟨less, by rw [if_pos (decide_eq_true hranks)], ?_⟩
          simp [hranks, hless]
        · refine ⟨_, by rw [if_neg (by simpa using hranks)], ?_⟩
          simp [hranks]

/-! ## The first difference -/

variable {cell : Bool → Value → SortRank}

/-- Lexicographic order: the first key on which two rows differ decides. -/
theorem ranks_le_iff (hcell : ∀ d, ∀ v ∈ vs, ∀ w ∈ ws, cell d v = cell d w ↔ v.eq w = true)
    (hlen : vs.length = ds.length) (hlen' : ws.length = ds.length) :
    List.zipWith cell ds vs ≤ List.zipWith cell ds ws ↔
      ∀ c ∈ firstDifference ds vs ws, cell c.1 c.2.1 < cell c.1 c.2.2 := by
  induction ds generalizing vs ws with
  | nil => simp [firstDifference]
  | cons d ds ih =>
    obtain ⟨v, vs, rfl⟩ := List.exists_cons_of_length_eq_add_one hlen
    obtain ⟨w, ws, rfl⟩ := List.exists_cons_of_length_eq_add_one hlen'
    have hhead := hcell d v List.mem_cons_self w List.mem_cons_self
    rw [List.zipWith_cons_cons, List.zipWith_cons_cons, ← not_lt, List.cons_lt_cons_iff,
      firstDifference, List.zip_cons_cons, List.zip_cons_cons, List.find?_cons]
    by_cases heq : v.eq w = true
    · have hrest := ih
        (fun d v hv w hw => hcell d v (List.mem_cons_of_mem _ hv) w (List.mem_cons_of_mem _ hw))
        (Nat.succ.inj hlen) (Nat.succ.inj hlen')
      rw [← not_lt, firstDifference] at hrest
      simpa [heq, hhead.mpr heq] using hrest
    · have hne : cell d v ≠ cell d w := fun h => heq (hhead.mp h)
      simp [heq, hne.symm, lt_iff_le_and_ne, hne]

theorem ranks_eq_iff (hcell : ∀ d, ∀ v ∈ vs, ∀ w ∈ ws, cell d v = cell d w ↔ v.eq w = true)
    (hlen : vs.length = ds.length) (hlen' : ws.length = ds.length) :
    List.zipWith cell ds vs = List.zipWith cell ds ws ↔ firstDifference ds vs ws = none := by
  induction ds generalizing vs ws with
  | nil => simp [firstDifference]
  | cons d ds ih =>
    obtain ⟨v, vs, rfl⟩ := List.exists_cons_of_length_eq_add_one hlen
    obtain ⟨w, ws, rfl⟩ := List.exists_cons_of_length_eq_add_one hlen'
    have hhead := hcell d v List.mem_cons_self w List.mem_cons_self
    have hrest := ih
      (fun d v hv w hw => hcell d v (List.mem_cons_of_mem _ hv) w (List.mem_cons_of_mem _ hw))
      (Nat.succ.inj hlen) (Nat.succ.inj hlen')
    rw [List.zipWith_cons_cons, List.zipWith_cons_cons, List.cons.injEq, hhead, hrest,
      firstDifference, firstDifference, List.zip_cons_cons, List.zip_cons_cons, List.find?_cons]
    cases v.eq w <;> simp

/-- A rank tells which value it is the rank of. -/
theorem sortRank_inj {d' : Bool} (hv : v.key = some x) (hw : w.key = some y)
    (h : sortRank d v = sortRank d' w) : x = y := by
  by_cases hnull : v = .null
  · subst hnull
    obtain rfl : Value.Key.null = x := Option.some.inj hv
    by_contra hne
    have hw' : w ≠ .null := by
      rintro rfl
      exact hne (Option.some.inj hw)
    rw [sortRank_of_key hw (Ne.symm hne)] at h
    cases h
  · have hx := Value.ne_null_of_key hv hnull
    rw [sortRank_of_key hv hx] at h
    by_cases hnull' : w = .null
    · subst hnull'
      cases h
    · rw [sortRank_of_key hw (Value.ne_null_of_key hw hnull'), WithTop.coe_inj] at h
      cases d <;> cases d' <;> simp_all

theorem sortRank_eq_iff (hv : v.key = some x) (hw : w.key = some y) :
    sortRank d v = sortRank d w ↔ v.eq w = true := by
  rw [Value.eq_of_keys hv hw, decide_eq_true_iff]
  constructor
  · exact sortRank_inj hv hw
  · rintro rfl
    rw [sortRank, sortRank, hv, hw]

theorem codeRank_eq_iff (hv : v.key = some x) (hw : w.key = some y) :
    codeRank d v = codeRank d w ↔ v.eq w = true := by
  rw [Value.eq_of_keys hv hw, decide_eq_true_iff]
  constructor
  · exact sortRank_inj hv hw
  · rintro rfl
    rw [codeRank, codeRank, sortRank, sortRank, hv, hw, num_of_key hv, num_of_key hw]

/-! ## Sorting -/

variable {keys : List (Expr × Bool)} {child : QueryResult} {keyValues : Row → List Value}

/-- The key values of the rows, which can be compared with each other. -/
structure Keyed (py : Py) (keys : List (Expr × Bool)) (child : QueryResult)
    (keyValues : Row → List Value) : Prop where
  values : ∀ row ∈ child.rows,
    mapE (fun k => evalExpr py (rowDict child.columns row) k.1) keys = .ok (keyValues row)
  comparable : ∀ a ∈ child.rows, ∀ b ∈ child.rows,
    List.Forall₂ ComparableValues (keyValues a) (keyValues b)

/-- The order that ORDER BY asks for. -/
def orderByRanks (keys : List (Expr × Bool)) (keyValues : Row → List Value) (row : Row) :
    List SortRank :=
  sortRanks (keys.map Prod.snd) (keyValues row)

theorem Keyed.length (h : Keyed py keys child keyValues) {row : Row} (hrow : row ∈ child.rows) :
    (keyValues row).length = (keys.map Prod.snd).length := by
  rw [length_of_mapE (h.values row hrow), List.length_map]

theorem Keyed.key (h : Keyed py keys child keyValues) {row : Row} (hrow : row ∈ child.rows) :
    ∀ v ∈ keyValues row, ∃ x, v.key = some x := fun v hv =>
  (List.forall₂_same.mp (h.comparable row hrow row hrow) v hv).key

theorem sortCell_run (d : Bool) (v : Value) :
    (if v.isNull = true then pure none
      else if (d && v.num.isSome) = true then do return some (← v.negate)
      else
        match d, v with
        | true, .float f => pure (some (.float f.neg))
        | _, _ => pure (some v) : Except PyError (Option Value)) = .ok (sortCell d v) := by
  unfold sortCell
  split
  · rfl
  split
  · next hneg =>
    rw [Bool.and_eq_true] at hneg
    obtain ⟨m, hm⟩ := Option.isSome_iff_exists.mp hneg.2
    obtain ⟨u, hu, -⟩ := negate_of_num hm
    rw [hu]
    rfl
  · split <;> rfl

theorem sortKey_eq {columns : List String} {row : Row} {values : List Value}
    (h : mapE (fun k => evalExpr py (rowDict columns row) k.1) keys = .ok values) :
    sortKey py columns keys row = .ok (List.zipWith sortCell (keys.map Prod.snd) values) := by
  unfold sortKey
  induction keys generalizing values with
  | nil =>
    obtain rfl := Except.ok.inj h
    rfl
  | cons k keys ih =>
    obtain ⟨expr, d⟩ := k
    obtain ⟨v, hv, h⟩ := bind_eq_ok h
    obtain ⟨rest, hrest, h⟩ := bind_eq_ok h
    obtain rfl := Except.ok.inj h
    replace hv : evalExpr py (rowDict columns row) expr = .ok v := hv
    rw [mapE, ih hrest]
    dsimp only
    rw [hv, ok_bind]
    exact congrArg (fun cell => do
      let y ← cell
      let ys ← Except.ok (List.zipWith sortCell (keys.map Prod.snd) rest)
      pure (y :: ys)) (sortCell_run d v)

/-- The sort of the code: by its own ranks, and turned round if every key descends. -/
theorem execSort_eq (hkeys : keys ≠ []) (h : Keyed py keys child keyValues) :
    execSort py (some keys) child = .ok { child with
      rows :=
        let sorted := sortBy (fun row => codeRanks (keys.map Prod.snd) (keyValues row)) child.rows
        if keys.all Prod.snd then sorted.reverse else sorted } := by
  let cells (row : Row) := List.zipWith sortCell (keys.map Prod.snd) (keyValues row)
  have hkeyed : mapE (fun row => do return (← sortKey py child.columns keys row, row)) child.rows =
      Except.ok (ε := PyError) (child.rows.map fun row => (cells row, row)) := by
    refine mapE_of_ok fun row hrow => ?_
    rw [sortKey_eq (h.values row hrow)]
    rfl
  have hless : ∀ a ∈ child.rows, ∀ b ∈ child.rows, ∃ less,
      sortKeyLess (cells a) (cells b) = .ok less ∧ (less = true ↔
        codeRanks (keys.map Prod.snd) (keyValues a) <
          codeRanks (keys.map Prod.snd) (keyValues b)) :=
    fun a ha b hb => sortKeyLess_eq (h.length ha) (h.length hb) (h.key ha) (h.key hb)
      (h.comparable a ha b hb)
  have hraise : ((child.rows.map fun row => (cells row, row)).any fun a =>
      (child.rows.map fun row => (cells row, row)).any fun b =>
        !(sortKeyLess a.1 b.1).isOk) = false := by
    simp only [List.any_map, List.any_eq_false, Function.comp_apply]
    intro a ha hany
    obtain ⟨b, hb, hbad⟩ := List.any_eq_true.mp hany
    obtain ⟨less, hok, -⟩ := hless a ha b hb
    rw [Function.comp_apply, hok] at hbad
    cases hbad
  have hsort : ((child.rows.map fun row => (cells row, row)).mergeSort fun a b =>
      !isTrue (sortKeyLess b.1 a.1)).map Prod.snd =
        sortBy (fun row => codeRanks (keys.map Prod.snd) (keyValues row)) child.rows := by
    rw [List.map_mergeSort (s := fun a b => decide
      (codeRanks (keys.map Prod.snd) (keyValues a) ≤ codeRanks (keys.map Prod.snd) (keyValues b)))]
    · rw [List.map_map]
      show (child.rows.map id).mergeSort _ = _
      rw [List.map_id]
      rfl
    · intro a ha b hb
      obtain ⟨row, hrow, rfl⟩ := List.mem_map.mp ha
      obtain ⟨row', hrow', rfl⟩ := List.mem_map.mp hb
      obtain ⟨less, hok, hiff⟩ := hless row' hrow' row hrow
      rw [hok, isTrue_ok, Bool.eq_iff_iff, Bool.not_eq_true', ← Bool.not_eq_true, hiff,
        decide_eq_true_iff, not_lt]
  unfold execSort
  cases keys with
  | nil => exact absurd rfl hkeys
  | cons k keys =>
    dsimp only
    rw [hkeyed, ok_bind, hraise, hsort]
    rfl

/-- The rows of the code's order of the key values. -/
def codeOrder (keys : List (Expr × Bool)) (keyValues : Row → List Value) (row : Row) :
    List SortRank :=
  codeRanks (keys.map Prod.snd) (keyValues row)

/-- A text or a blob: what cannot be negated. -/
def Value.isText : Value → Bool
  | .str _ | .bytes _ => true
  | _ => false

/-- When the sort does what ORDER BY asks for.  If every key descends the list is turned round, so
the first difference of any two rows has to be one of texts and no order of ties may be lost;
otherwise it must not be one of texts in a descending key. -/
def SortsRight (keys : List (Expr × Bool)) (keyValues : Row → List Value) (rows : List Row) :
    Prop :=
  if keys.all Prod.snd then
    (∀ a ∈ rows, ∀ b ∈ rows,
      ∀ c ∈ firstDifference (keys.map Prod.snd) (keyValues a) (keyValues b),
        c.2.1.isText = true ∧ c.2.2.isText = true) ∧
    ∀ a ∈ rows, (ofRank (orderByRanks keys keyValues) a rows).reverse =
      ofRank (orderByRanks keys keyValues) a rows
  else
    ∀ a ∈ rows, ∀ b ∈ rows,
      ∀ c ∈ firstDifference (keys.map Prod.snd) (keyValues a) (keyValues b),
        ¬(c.1 = true ∧ c.2.1.isText = true ∧ c.2.2.isText = true)

section Difference

variable {c : Bool × Value × Value}

theorem mem_of_firstDifference (h : firstDifference ds vs ws = some c) :
    c.1 ∈ ds ∧ c.2.1 ∈ vs ∧ c.2.2 ∈ ws ∧ c.2.1.eq c.2.2 = false := by
  have hmem := List.mem_of_find?_eq_some h
  have hdiff := List.find?_some h
  obtain ⟨hd, hpair⟩ := List.of_mem_zip hmem
  obtain ⟨hv, hw⟩ := List.of_mem_zip hpair
  exact ⟨hd, hv, hw, by simpa using hdiff⟩

theorem firstDifference_swap :
    firstDifference ds ws vs = (firstDifference ds vs ws).map fun c => (c.1, c.2.2, c.2.1) := by
  have hzip : ws.zip vs = (vs.zip ws).map Prod.swap := (List.zip_swap vs ws).symm
  rw [firstDifference, firstDifference, hzip, List.zip_map_right, List.find?_map]
  congr 2
  funext c
  exact congrArg Bool.not Value.eq_comm

theorem isText_eq (hv : v.key = some x) (hne : v ≠ .null) : v.isText = x.num?.isNone := by
  rw [← num_of_key hv]
  cases v with
  | float f =>
    obtain ⟨m, hm, -⟩ := Option.map_eq_some_iff.mp hv
    simp [Value.isText, show (Value.float f).num = some m from hm]
  | null => exact absurd rfl hne
  | bool b => simp [Value.isText, Value.num]
  | int n => simp [Value.isText, Value.num]
  | str s => simp [Value.isText, Value.num]
  | bytes bs => simp [Value.isText, Value.num]

/-- Texts of a descending key come in the wrong order, all else in the right one. -/
theorem codeRank_lt_iff (hv : v.key = some x) (hw : w.key = some y)
    (hcomp : ComparableValues v w) : codeRank d v < codeRank d w ↔
      if d = true ∧ v.isText = true ∧ w.isText = true then sortRank d w < sortRank d v
      else sortRank d v < sortRank d w := by
  by_cases hnull : v = .null
  · subst hnull
    rw [if_neg (by simp [Value.isText]), codeRank_null]
    exact iff_of_false not_top_lt not_top_lt
  have hx := Value.ne_null_of_key hv hnull
  by_cases hnull' : w = .null
  · subst hnull'
    rw [if_neg (by simp [Value.isText]), codeRank_null, sortRank_of_key hv hx]
    exact iff_of_true (codeRank_lt_top hv hnull) (WithTop.coe_lt_top _)
  have hy := Value.ne_null_of_key hw hnull'
  obtain ⟨o, ho⟩ := (hcomp.resolve_left hnull).resolve_left hnull'
  obtain ⟨x', y', hx', hy', hkinds⟩ := Value.keys_of_order ho
  rw [hv, Option.some.injEq] at hx'
  rw [hw, Option.some.injEq] at hy'
  subst hx' hy'
  have hsame : x.num?.isSome = y.num?.isSome := by
    cases x <;> cases y <;> first | rfl | simp [Value.Key.comparable, Value.Key.kind] at hkinds
  rw [isText_eq hv hnull, isText_eq hw hnull', codeRank, codeRank, num_of_key hv,
    num_of_key hw, sortRank_of_key hv hx, sortRank_of_key hw hy, sortRank_of_key hv hx,
    sortRank_of_key hw hy, ← hsame]
  cases hnum : x.num? with
  | some m => simp
  | none =>
    have hnum' : y.num? = none := by
      rw [hnum] at hsame
      exact Option.isNone_iff_eq_none.mp (by simpa using hsame.symm)
    cases d <;> simp [hnum']

theorem Keyed.sameTies (h : Keyed py keys child keyValues) :
    SameTies (codeOrder keys keyValues) (orderByRanks keys keyValues) child.rows := by
  intro a ha b hb
  rw [codeOrder, codeOrder, orderByRanks, orderByRanks, codeRanks, codeRanks, sortRanks, sortRanks,
    ranks_eq_iff _ (h.length ha) (h.length hb), ranks_eq_iff _ (h.length ha) (h.length hb)]
  · intro d v hv w hw
    obtain ⟨x, hx⟩ := h.key ha v hv
    obtain ⟨y, hy⟩ := h.key hb w hw
    exact sortRank_eq_iff hx hy
  · intro d v hv w hw
    obtain ⟨x, hx⟩ := h.key ha v hv
    obtain ⟨y, hy⟩ := h.key hb w hw
    exact codeRank_eq_iff hx hy

variable {a b : Row}

theorem Keyed.codeOrder_le_iff (h : Keyed py keys child keyValues) (ha : a ∈ child.rows)
    (hb : b ∈ child.rows) : codeOrder keys keyValues a ≤ codeOrder keys keyValues b ↔
      ∀ c ∈ firstDifference (keys.map Prod.snd) (keyValues a) (keyValues b),
        codeRank c.1 c.2.1 < codeRank c.1 c.2.2 := by
  refine ranks_le_iff (fun d v hv w hw => ?_) (h.length ha) (h.length hb)
  obtain ⟨x, hx⟩ := h.key ha v hv
  obtain ⟨y, hy⟩ := h.key hb w hw
  exact codeRank_eq_iff hx hy

theorem Keyed.orderByRanks_le_iff (h : Keyed py keys child keyValues) (ha : a ∈ child.rows)
    (hb : b ∈ child.rows) : orderByRanks keys keyValues a ≤ orderByRanks keys keyValues b ↔
      ∀ c ∈ firstDifference (keys.map Prod.snd) (keyValues a) (keyValues b),
        sortRank c.1 c.2.1 < sortRank c.1 c.2.2 := by
  refine ranks_le_iff (fun d v hv w hw => ?_) (h.length ha) (h.length hb)
  obtain ⟨x, hx⟩ := h.key ha v hv
  obtain ⟨y, hy⟩ := h.key hb w hw
  exact sortRank_eq_iff hx hy

theorem comparable_of_zip (h : List.Forall₂ ComparableValues vs ws)
    (hmem : c ∈ ds.zip (vs.zip ws)) : ComparableValues c.2.1 c.2.2 :=
  (List.forall₂_iff_zip.mp h).2 (List.of_mem_zip hmem).2

/-- What is known of the first difference of two rows. -/
theorem Keyed.firstDifference_spec (h : Keyed py keys child keyValues) (ha : a ∈ child.rows)
    (hb : b ∈ child.rows)
    (hc : firstDifference (keys.map Prod.snd) (keyValues a) (keyValues b) = some c) :
    c.1 ∈ keys.map Prod.snd ∧ sortRank c.1 c.2.1 ≠ sortRank c.1 c.2.2 ∧
      (codeRank c.1 c.2.1 < codeRank c.1 c.2.2 ↔
        if c.1 = true ∧ c.2.1.isText = true ∧ c.2.2.isText = true
        then sortRank c.1 c.2.2 < sortRank c.1 c.2.1
        else sortRank c.1 c.2.1 < sortRank c.1 c.2.2) := by
  obtain ⟨hd, hv, hw, hne⟩ := mem_of_firstDifference hc
  obtain ⟨x, hx⟩ := h.key ha _ hv
  obtain ⟨y, hy⟩ := h.key hb _ hw
  have hcomp := comparable_of_zip (h.comparable a ha b hb) (List.mem_of_find?_eq_some hc)
  refine ⟨hd, fun heq => ?_, codeRank_lt_iff hx hy hcomp⟩
  rw [(sortRank_eq_iff hx hy).mp heq] at hne
  cases hne

theorem firstDifference_eq_swap
    (hc : firstDifference (keys.map Prod.snd) (keyValues a) (keyValues b) = some c) :
    firstDifference (keys.map Prod.snd) (keyValues b) (keyValues a) = some (c.1, c.2.2, c.2.1) := by
  rw [firstDifference_swap, hc]
  rfl

end Difference

/-- The code orders no two rows against the keys exactly if no two texts of a descending key decide
between two rows. -/
theorem Keyed.agrees_iff (h : Keyed py keys child keyValues) :
    (∀ a ∈ child.rows, ∀ b ∈ child.rows, codeOrder keys keyValues a ≤ codeOrder keys keyValues b →
      orderByRanks keys keyValues a ≤ orderByRanks keys keyValues b) ↔
    ∀ a ∈ child.rows, ∀ b ∈ child.rows,
      ∀ c ∈ firstDifference (keys.map Prod.snd) (keyValues a) (keyValues b),
        ¬(c.1 = true ∧ c.2.1.isText = true ∧ c.2.2.isText = true) := by
  constructor
  · intro hall a ha b hb c hc htext
    obtain ⟨-, hne, hlt⟩ := h.firstDifference_spec ha hb hc
    have hc' := firstDifference_eq_swap hc
    obtain ⟨-, -, hlt'⟩ := h.firstDifference_spec hb ha hc'
    rw [if_pos htext] at hlt
    rw [if_pos ⟨htext.1, htext.2.2, htext.2.1⟩] at hlt'
    rcases hne.lt_or_gt with hdown | hup
    · -- the code puts `b` before `a`
      have hle := hall b hb a ha ((h.codeOrder_le_iff hb ha).mpr fun c' hc'' => by
        obtain rfl := Option.some.inj (hc'.symm.trans hc'')
        exact hlt'.mpr hdown)
      exact lt_asymm hdown ((h.orderByRanks_le_iff hb ha).mp hle _ hc')
    · have hle := hall a ha b hb ((h.codeOrder_le_iff ha hb).mpr fun c' hc'' => by
        obtain rfl := Option.some.inj (hc.symm.trans hc'')
        exact hlt.mpr hup)
      exact lt_asymm hup ((h.orderByRanks_le_iff ha hb).mp hle _ hc)
  · intro hall a ha b hb hle
    rw [h.orderByRanks_le_iff ha hb]
    intro c hc
    obtain ⟨-, -, hlt⟩ := h.firstDifference_spec ha hb hc
    rw [if_neg (hall a ha b hb c hc)] at hlt
    exact hlt.mp ((h.codeOrder_le_iff ha hb).mp hle c hc)

/-- If every key descends the code's order is the wrong way round exactly if two texts decide
between any two rows that differ. -/
theorem Keyed.opposes_iff (h : Keyed py keys child keyValues) (hdesc : keys.all Prod.snd = true) :
    (∀ a ∈ child.rows, ∀ b ∈ child.rows, codeOrder keys keyValues b ≤ codeOrder keys keyValues a →
      orderByRanks keys keyValues a ≤ orderByRanks keys keyValues b) ↔
    ∀ a ∈ child.rows, ∀ b ∈ child.rows,
      ∀ c ∈ firstDifference (keys.map Prod.snd) (keyValues a) (keyValues b),
        c.2.1.isText = true ∧ c.2.2.isText = true := by
  constructor
  · intro hall a ha b hb c hc
    by_contra htext
    obtain ⟨-, hne, hlt⟩ := h.firstDifference_spec ha hb hc
    have hc' := firstDifference_eq_swap hc
    obtain ⟨-, -, hlt'⟩ := h.firstDifference_spec hb ha hc'
    rw [if_neg fun hboth => htext hboth.2] at hlt
    rw [if_neg fun hboth => htext hboth.2.symm] at hlt'
    rcases hne.lt_or_gt with hdown | hup
    · have hle := hall b hb a ha ((h.codeOrder_le_iff ha hb).mpr fun c' hc'' => by
        obtain rfl := Option.some.inj (hc.symm.trans hc'')
        exact hlt.mpr hdown)
      exact lt_asymm hdown ((h.orderByRanks_le_iff hb ha).mp hle _ hc')
    · have hle := hall a ha b hb ((h.codeOrder_le_iff hb ha).mpr fun c' hc'' => by
        obtain rfl := Option.some.inj (hc'.symm.trans hc'')
        exact hlt'.mpr hup)
      exact lt_asymm hup ((h.orderByRanks_le_iff ha hb).mp hle _ hc)
  · intro hall a ha b hb hle
    rw [h.orderByRanks_le_iff ha hb]
    intro c hc
    have hc' := firstDifference_eq_swap hc
    obtain ⟨hd, -, hlt'⟩ := h.firstDifference_spec hb ha hc'
    obtain ⟨k, hk, hkd⟩ := List.mem_map.mp hd
    have hflag : c.1 = true := hkd.symm.trans (List.all_eq_true.mp hdesc k hk)
    rw [if_pos ⟨hflag, (hall a ha b hb c hc).symm⟩] at hlt'
    exact hlt'.mp ((h.codeOrder_le_iff hb ha).mp hle _ hc')

/-- ORDER BY sorts exactly if the two ways to descend do not get into each other's way. -/
theorem execSort_sorts_iff (hkeys : keys ≠ []) (h : Keyed py keys child keyValues) :
    (∃ res, execSort py (some keys) child = .ok res ∧ res.columns = child.columns ∧
      StablySorted (orderByRanks keys keyValues) child.rows res.rows) ↔
    SortsRight keys keyValues child.rows := by
  have hrun := execSort_eq hkeys h
  have hproperty : (∃ res, execSort py (some keys) child = .ok res ∧ res.columns = child.columns ∧
      StablySorted (orderByRanks keys keyValues) child.rows res.rows) ↔
      StablySorted (orderByRanks keys keyValues) child.rows
        (if keys.all Prod.snd then (sortBy (codeOrder keys keyValues) child.rows).reverse
          else sortBy (codeOrder keys keyValues) child.rows) := by
    rw [hrun]
    constructor
    · rintro ⟨res, hres, -, hsorted⟩
      obtain rfl := Except.ok.inj hres
      exact hsorted
    · intro hsorted
      exact ⟨_, rfl, rfl, hsorted⟩
  rw [hproperty, SortsRight]
  split
  · next hall =>
    rw [stablySorted_reverse_sortBy_iff h.sameTies, h.opposes_iff hall]
    refine and_congr_right fun _ => forall₂_congr fun a ha => ?_
    rw [h.sameTies.ofRank_eq (List.Subset.refl _) ha]
  · rw [stablySorted_sortBy_iff h.sameTies, h.agrees_iff]

/-- Names that ascend: nothing descends. -/
theorem execSort_sorts_iff_names :
    let child : QueryResult := ⟨["a"], [[.str "y"], [.str "x"]], 0, ""⟩
    let keys : List (Expr × Bool) := [(.columnRef none "a", false)]
    (∃ res, execSort .ascii (some keys) child = .ok res ∧ res.columns = child.columns ∧
      StablySorted (orderByRanks keys id) child.rows res.rows) ↔ SortsRight keys id child.rows := by
  refine execSort_sorts_iff (by simp) ⟨by decide +kernel, ?_⟩
  simp only [List.forall_mem_cons, List.not_mem_nil, false_imp_iff, implies_true, and_true, id_eq,
    List.forall₂_cons, List.forall₂_nil_left_iff]
  refine ⟨⟨?_, ?_⟩, ?_, ?_⟩ <;> exact .inr (.inr ⟨_, rfl⟩)

/-- Two numbers in descending order: negated and turned round they ascend. -/
theorem descendingNumbers_ascend : ¬∀ (py : Py) (keys : List (Expr × Bool)) (child : QueryResult)
    (keyValues : Row → List Value), keys ≠ [] → Keyed py keys child keyValues →
    ∃ res, execSort py (some keys) child = .ok res ∧ res.columns = child.columns ∧
      StablySorted (orderByRanks keys keyValues) child.rows res.rows := by
  intro h
  have hkeyed : Keyed .ascii [(.columnRef none "a", true)] ⟨["a"], [[.int 1], [.int 2]], 0, ""⟩
      id := by
    refine ⟨by decide +kernel, ?_⟩
    simp only [List.forall_mem_cons, List.not_mem_nil, false_imp_iff, implies_true, and_true, id_eq,
      List.forall₂_cons, List.forall₂_nil_left_iff]
    refine ⟨⟨?_, ?_⟩, ?_, ?_⟩ <;> exact .inr (.inr ⟨_, rfl⟩)
  obtain ⟨res, hres, -, hsorted⟩ := h _ _ _ _ (by simp) hkeyed
  rw [execSort_eq (by simp) hkeyed] at hres
  obtain rfl := Except.ok.inj hres
  have htexts := (hkeyed.opposes_iff rfl).mp
    ((stablySorted_reverse_sortBy_iff hkeyed.sameTies).mp hsorted).1
  exact absurd (htexts [.int 1] (by simp) [.int 2] (by simp) _ rfl).1 (by decide)

end PySQL.Query
