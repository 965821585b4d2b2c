import PySQL.Query.Names
import PySQL.Query.Pushdown

/-!
# Qualified column references

A join puts the columns of its tables side by side without their tables' names, so that a qualified
reference is looked up by its column alone.
-/

namespace PySQL.Query

open Lib

/-! ## The rows of a tree of joins -/

/-- A table of a join under its alias. -/
structure Leaf where
  table : String
  aliasName : String
deriving DecidableEq

/-- The tables of a join, in order. -/
def TableRef.leaves : TableRef → List Leaf
  | .simple name aliasName => [⟨name, aliasName.getD name⟩]
  | .join left right _ _ _ => leaves left ++ leaves right
  | .subquery _ _ => []

def Leaf.columns (catalog : Catalog) (leaf : Leaf) : List String :=
  ((catalog.getTable leaf.table).map TableInfo.columnNames).getD []

/-- What a table contributes to a joined row: one of its rows, or NULLs if it has no partner. -/
def Contributes (src : Source) (leaf : Leaf) (row : Row) : Prop :=
  (∃ live, src.scan leaf.table = .ok live ∧ row ∈ live.map Prod.snd ∧
    (src.catalog.getTable leaf.table).isSome = true) ∨
  row = nulls (leaf.columns src.catalog).length

variable {py : Py} {src : Source} {catalog : Catalog} {ref : TableRef} {leaf : Leaf}

theorem columnNames_eq_leaves : ∀ ref : TableRef,
    ref.columnNames catalog = ref.leaves.flatMap (Leaf.columns catalog)
  | .simple name aliasName => by
    rw [TableRef.columnNames, TableRef.leaves, List.flatMap_singleton]
    rfl
  | .join left right _ _ _ => by
    rw [TableRef.columnNames, TableRef.leaves, List.flatMap_append, columnNames_eq_leaves left,
      columnNames_eq_leaves right]
  | .subquery _ _ => rfl

theorem Contributes.length {row : Row} (h : Contributes src leaf row) :
    row.length = (leaf.columns src.catalog).length := by
  rcases h with ⟨live, hlive, hrow, htable⟩ | rfl
  · obtain ⟨info, hinfo⟩ := Option.isSome_iff_exists.mp htable
    obtain ⟨p, hp, rfl⟩ := List.mem_map.mp hrow
    rw [src.width hinfo hlive p hp, Leaf.columns, hinfo]
    exact (List.length_map _).symm
  · exact length_nulls _

/-- The rows that a join combines. -/
abbrev Combined (src : Source) (leaves : List Leaf) (rows : List Row) : Prop :=
  List.Forall₂ (Contributes src) leaves rows

theorem Combined.length {leaves : List Leaf} {rows : List Row} (h : Combined src leaves rows) :
    rows.flatten.length = (leaves.flatMap (Leaf.columns src.catalog)).length := by
  induction h with
  | nil => rfl
  | cons hrow _ ih =>
    rw [List.flatten_cons, List.flatMap_cons, List.length_append, List.length_append, ih,
      hrow.length]

/-- A table without a partner contributes NULLs. -/
theorem combined_nulls (src : Source) (leaves : List Leaf) : ∃ rows, Combined src leaves rows ∧
    rows.flatten = nulls (leaves.flatMap (Leaf.columns src.catalog)).length := by
  induction leaves with
  | nil => exact ⟨[], .nil, rfl⟩
  | cons leaf leaves ih =>
    obtain ⟨rows, hrows, hflat⟩ := ih
    refine ⟨_, .cons (.inr rfl) hrows, ?_⟩
    rw [List.flatten_cons, hflat, List.flatMap_cons, List.length_append, nulls, nulls, nulls,
      List.replicate_append_replicate]

/-- The rows of a plan are the combined rows of its tables, under the columns of the tables. -/
theorem executeNode_combined (h : ref.Plain) : ∀ {tree : PlanNode} {res : QueryResult},
    planTableRef src.catalog ref = .ok tree → executeNode py src tree = .ok res →
    res.columns = ref.columnNames src.catalog ∧
      ∀ row ∈ res.rows, ∃ rows, Combined src ref.leaves rows ∧ row = rows.flatten := by
  induction h with
  | simple name aliasName =>
    intro tree res htree hres
    obtain ⟨x, -, htree⟩ := bind_eq_ok htree
    obtain rfl := Except.ok.inj htree
    simp only [executeNode] at hres
    rw [execSeqScan] at hres
    dsimp only [Option.getD_some] at hres
    cases htable : src.catalog.getTable name with
    | none =>
      rw [htable] at hres
      cases hres
    | some table =>
      rw [htable] at hres
      obtain ⟨live, hlive, hres⟩ := bind_eq_ok hres
      obtain ⟨rows, hrows, hres⟩ := bind_eq_ok hres
      obtain rfl := Except.ok.inj hres
      refine ⟨by rw [TableRef.columnNames, htable]; rfl, fun row hrow => ?_⟩
      refine ⟨[row], .cons (.inl ⟨live, hlive, mem_of_filterE hrows hrow, ?_⟩) .nil, ?_⟩
      · rw [htable]
        rfl
      · rw [List.flatten_singleton]
  | join joinType condition usingColumns hl hr ihl ihr =>
    rename_i left right
    intro tree res htree hres
    obtain ⟨a, ha, htree⟩ := bind_eq_ok htree
    obtain ⟨b, hb, htree⟩ := bind_eq_ok htree
    obtain ⟨hfroma, x, hx⟩ := planTableRef_fromTree hl ha
    obtain ⟨hfromb, y, hy⟩ := planTableRef_fromTree hr hb
    obtain ⟨type, cost, htype, rfl⟩ := planJoin_of_float hx hy htree
    rw [executeNode_join htype] at hres
    obtain ⟨l, hl, hres⟩ := bind_eq_ok hres
    obtain ⟨r, hr, hres⟩ := bind_eq_ok hres
    obtain ⟨hcolumnsl, hrowsl⟩ := ihl ha hl
    obtain ⟨hcolumnsr, hrowsr⟩ := ihr hb hr
    rw [execJoin_of_condOk (hfroma.rectangular hl) (hfromb.rectangular hr)
      (condOk_of_execJoin (by rw [hres]; rfl))] at hres
    obtain rfl := Except.ok.inj hres
    refine ⟨by rw [TableRef.columnNames, ← hcolumnsl, ← hcolumnsr]; rfl, fun row hrow => ?_⟩
    obtain ⟨⟨u, v⟩, hpair, rfl⟩ := List.mem_map.mp hrow
    -- each side is a row of its result or NULLs
    have hside : (∃ rows, Combined src left.leaves rows ∧ u = rows.flatten) ∧
        ∃ rows, Combined src right.leaves rows ∧ v = rows.flatten := by
      have hnullsl := combined_nulls src left.leaves
      have hnullsr := combined_nulls src right.leaves
      rw [← columnNames_eq_leaves, ← hcolumnsl] at hnullsl
      rw [← columnNames_eq_leaves, ← hcolumnsr] at hnullsr
      rcases mem_joinPairs.mp hpair with ⟨hu, hv, -⟩ | ⟨-, hu, -, rfl⟩ | ⟨-, hv, -, rfl⟩
      · exact ⟨hrowsl u hu, hrowsr v hv⟩
      · exact ⟨hrowsl u hu, hnullsr.imp fun _ h => ⟨h.1, h.2.symm⟩⟩
      · exact ⟨hnullsl.imp fun _ h => ⟨h.1, h.2.symm⟩, hrowsr v hv⟩
    obtain ⟨⟨us, hus, rfl⟩, vs, hvs, rfl⟩ := hside
    exact ⟨us ++ vs, List.rel_append hus hvs, List.flatten_append.symm⟩

/-! ## Reading a qualified reference -/

section Cut

variable {before after : List Leaf} {rows rows' : List Row} {row : Row} {key : String}

/-- The cells of the tables before a table, of the table and of the tables after it. -/
theorem lastOf_combined (hrows : Combined src before rows) (hrow : Contributes src leaf row) :
    lastOf key (((before ++ leaf :: after).flatMap (Leaf.columns src.catalog)).zip
      (rows ++ row :: rows').flatten) =
      (lastOf key ((after.flatMap (Leaf.columns src.catalog)).zip rows'.flatten)).or
        ((lastOf key ((leaf.columns src.catalog).zip row)).or
          (lastOf key ((before.flatMap (Leaf.columns src.catalog)).zip rows.flatten))) := by
  rw [List.flatMap_append, List.flatMap_cons, List.flatten_append, List.flatten_cons,
    List.zip_append hrows.length.symm, List.zip_append hrow.length.symm, lastOf_append,
    lastOf_append, Option.or_assoc]

theorem length_combined (hrows : Combined src before rows) (hrow : Contributes src leaf row)
    (hrows' : Combined src after rows') : (rows ++ row :: rows').flatten.length =
      ((before ++ leaf :: after).flatMap (Leaf.columns src.catalog)).length :=
  Combined.length (List.rel_append hrows (.cons hrow hrows'))

end Cut

theorem lastOf_nulls {names : List String} {key : String} {n : ℕ} {v : Value}
    (h : lastOf key (names.zip (nulls n)) = some v) : v = .null :=
  List.eq_of_mem_replicate (List.of_mem_zip (lastOf_mem h)).2

/-- The row whose cells are the names of their columns. -/
def nameRow (names : List String) : Row := names.map .str

theorem lastOf_nameRow {names : List String} {key : String} :
    lastOf key (names.zip (nameRow names)) = if key ∈ names then some (.str key) else none := by
  rw [nameRow, List.zip_map_right, List.zip_eq_zipWith, List.zipWith_self, List.map_map]
  exact lastOf_graph Value.str

/-- Every table has the one row of its column names. -/
def namesSource (catalog : Catalog) : Source where
  catalog
  scan name := .ok [(⟨0, 0⟩, nameRow (Leaf.columns catalog ⟨name, name⟩))]
  read _ _ := .ok none
  indexes := .empty
  width := by
    intro name table live htable hlive p hp
    obtain rfl := Except.ok.inj hlive
    obtain rfl := List.mem_singleton.mp hp
    rw [nameRow, List.length_map, Leaf.columns, htable]
    exact List.length_map _

/-- If all other tables have only NULLs, the name of a column is read from its table only. -/
theorem reads_own {before own after : List String} {key c : String} {m n : ℕ}
    (h : ((lastOf key (after.zip (nulls n))).or ((lastOf key (own.zip (nameRow own))).or
      (lastOf key (before.zip (nulls m))))).getD .null = .str c) :
    key = c ∧ lastOf key (after.zip (nulls n)) = none := by
  rw [lastOf_nameRow] at h
  cases hafter : lastOf key (after.zip (nulls n)) with
  | some v =>
    rw [hafter, lastOf_nulls hafter] at h
    cases h
  | none =>
    rw [hafter, Option.none_or] at h
    split at h
    · exact ⟨Value.str.inj h, rfl⟩
    · cases hbefore : lastOf key (before.zip (nulls m)) with
      | some v =>
        rw [hbefore, lastOf_nulls hbefore] at h
        cases h
      | none =>
        rw [hbefore] at h
        cases h

theorem qualified_ne (t c : String) : t ++ "." ++ c ≠ c := by
  intro h
  have hlen := congrArg String.length h
  rw [String.length_append, String.length_append] at hlen
  have hdot : ".".length = 1 := rfl
  omega

/-- A reference `t.c` reads the column of its table exactly if no table after it has a column of that
name, and no column is called `t.c` itself. -/
theorem qualified_iff (hplain : ref.Plain) {before after : List Leaf} {c : String}
    (hleaves : ref.leaves = before ++ leaf :: after) (hc : c ∈ leaf.columns catalog) :
    (∀ src : Source, src.catalog = catalog →
      (∀ tree res, planTableRef catalog ref = .ok tree → executeNode py src tree = .ok res →
        res.columns = ref.columnNames catalog ∧
          ∀ row ∈ res.rows, ∃ rows, Combined src ref.leaves rows ∧ row = rows.flatten) ∧
      ∀ rows row rows', Combined src before rows → Contributes src leaf row →
        Combined src after rows' →
        evalExpr py (rowDict (ref.columnNames catalog) (rows ++ row :: rows').flatten)
            (.columnRef (some leaf.aliasName) c) =
          evalExpr py (rowDict (leaf.columns catalog) row) (.columnRef none c)) ↔
    (leaf.aliasName = "" ∨ leaf.aliasName ++ "." ++ c ∉ ref.columnNames catalog) ∧
      ∀ l ∈ after, c ∉ l.columns catalog := by
  rw [columnNames_eq_leaves, hleaves]
  have hmem : c ∈ (before ++ leaf :: after).flatMap (Leaf.columns catalog) :=
    List.mem_flatMap.mpr ⟨leaf, by simp, hc⟩
  constructor
  · intro h
    obtain ⟨-, h⟩ := h (namesSource catalog) rfl
    obtain ⟨rows, hrows, hnulls⟩ := combined_nulls (namesSource catalog) before
    obtain ⟨rows', hrows', hnulls'⟩ := combined_nulls (namesSource catalog) after
    have hrow : Contributes (namesSource catalog) leaf (nameRow (leaf.columns catalog)) := by
      refine .inl ⟨_, rfl, List.mem_singleton.mpr rfl, ?_⟩
      cases htable : catalog.getTable leaf.table with
      | none =>
        rw [Leaf.columns, htable] at hc
        cases hc
      | some info => exact congrArg Option.isSome htable
    have hlen : (rows ++ nameRow (leaf.columns catalog) :: rows').flatten.length =
        ((before ++ leaf :: after).flatMap (Leaf.columns catalog)).length :=
      length_combined hrows hrow hrows'
    have heq := h rows _ rows' hrows hrow hrows'
    have hget : (rowDict (leaf.columns catalog) (nameRow (leaf.columns catalog))).get? c =
        some (.str c) := get?_dict.trans (by rw [lastOf_nameRow, if_pos hc])
    rw [evalExpr, evalExpr, columnValue_of_get? hget,
      columnValue_rowDict hlen (some leaf.aliasName, c)] at heq
    replace heq := Except.ok.inj heq
    cases hkey : resolve py ((before ++ leaf :: after).flatMap (Leaf.columns catalog))
        (some leaf.aliasName, c) with
    | none =>
      rw [hkey] at heq
      cases heq
    | some key =>
      obtain ⟨rfl, hafter⟩ : key = c ∧ lastOf key
          ((after.flatMap (Leaf.columns catalog)).zip
            (nulls (after.flatMap (Leaf.columns catalog)).length)) = none := by
        have hcombined : lastOf key (((before ++ leaf :: after).flatMap (Leaf.columns catalog)).zip
            (rows ++ nameRow (leaf.columns catalog) :: rows').flatten) = _ :=
          lastOf_combined hrows hrow
        rw [hkey, Option.bind_some, hcombined, hnulls, hnulls'] at heq
        exact reads_own heq
      refine ⟨?_, fun l hl hcl => ?_⟩
      swap
      · rw [← Option.not_isSome_iff_eq_none, lastOf_isSome, List.map_fst_zip (length_nulls _).ge]
          at hafter
        exact hafter (List.mem_flatMap.mpr ⟨l, hl, hcl⟩)
      unfold resolve at hkey
      rw [Option.bind_some] at hkey
      by_contra hname
      rw [if_neg fun hor => hname hor] at hkey
      exact qualified_ne _ _ (Option.some.inj hkey)
  · rintro ⟨hname, hafter⟩ src rfl
    refine ⟨fun tree res htree hres => ?_, fun rows row rows' hrows hrow hrows' => ?_⟩
    · rw [← hleaves, ← columnNames_eq_leaves]
      exact executeNode_combined hplain htree hres
    · obtain ⟨v, hv⟩ := Option.isSome_iff_exists.mp (lastOf_isSome.mpr
        (by rw [List.map_fst_zip hrow.length.ge]; exact hc))
      have hget : (rowDict (leaf.columns src.catalog) row).get? c = some v := get?_dict.trans hv
      have hnone : lastOf c ((after.flatMap (Leaf.columns src.catalog)).zip rows'.flatten) = none := by
        refine lastOf_eq_none fun hmem => ?_
        rw [List.map_fst_zip hrows'.length.ge] at hmem
        obtain ⟨l, hl, hcl⟩ := List.mem_flatMap.mp hmem
        exact hafter l hl hcl
      have hresolve : resolve py ((before ++ leaf :: after).flatMap (Leaf.columns src.catalog))
          (some leaf.aliasName, c) = some c := by
        unfold resolve
        rw [Option.bind_some, if_pos hname]
        exact if_pos hmem
      rw [evalExpr, evalExpr, columnValue_of_get? hget,
        columnValue_rowDict (length_combined hrows hrow hrows') (some leaf.aliasName, c), hresolve,
        Option.bind_some, lastOf_combined hrows hrow, hnone, hv]
      rfl

/-- Tables `users(id)` and `orders(id)` with one row each. -/
def usersAndOrders : Source where
  catalog := {
    tables := (Dict.empty.set "users" { name := "users", columns := [⟨"id", "INTEGER", []⟩] }).set
      "orders" { name := "orders", columns := [⟨"id", "INTEGER", []⟩] }
    indexes := .empty }
  scan name := .ok [(⟨0, 0⟩, [.int (if name = "users" then 1 else 2)])]
  read _ _ := .ok none
  indexes := .empty
  width := by
    intro name table live htable hlive p hp
    obtain rfl := Except.ok.inj hlive
    obtain rfl := List.mem_singleton.mp hp
    rcases Dict.get?_set_cases htable with ⟨-, rfl⟩ | ⟨-, htable⟩
    · rfl
    · rcases Dict.get?_set_cases htable with ⟨-, rfl⟩ | ⟨-, hnone⟩
      · rfl
      · cases hnone

/-- `users AS u CROSS JOIN orders AS o` -/
def usersOrders : TableRef := .join (.simple "users" (some "u")) (.simple "orders" (some "o")) .cross
  none none

theorem usersOrders_plain : usersOrders.Plain := .join _ _ _ (.simple _ _) (.simple _ _)

/-- `o.id`, the column of the last table. -/
theorem qualified_iff_last :
    (∀ src : Source, src.catalog = usersAndOrders.catalog →
      (∀ tree res, planTableRef usersAndOrders.catalog usersOrders = .ok tree →
        executeNode .ascii src tree = .ok res →
        res.columns = usersOrders.columnNames usersAndOrders.catalog ∧
          ∀ row ∈ res.rows, ∃ rows, Combined src usersOrders.leaves rows ∧ row = rows.flatten) ∧
      ∀ rows row rows', Combined src [⟨"users", "u"⟩] rows → Contributes src ⟨"orders", "o"⟩ row →
        Combined src [] rows' →
        evalExpr .ascii (rowDict (usersOrders.columnNames usersAndOrders.catalog)
            (rows ++ row :: rows').flatten) (.columnRef (some "o") "id") =
          evalExpr .ascii (rowDict (Leaf.columns usersAndOrders.catalog ⟨"orders", "o"⟩) row)
            (.columnRef none "id")) ↔
    (("o" : String) = "" ∨ "o" ++ "." ++ "id" ∉ usersOrders.columnNames usersAndOrders.catalog) ∧
      ∀ l ∈ ([] : List Leaf), "id" ∉ l.columns usersAndOrders.catalog :=
  qualified_iff usersOrders_plain rfl (by decide)

/-- `u.id` reads the id of the order. -/
theorem shadowedId_read : ¬∀ (py : Py) (src : Source) (ref : TableRef) (tree : PlanNode)
    (res : QueryResult) (before : List Leaf) (leaf : Leaf) (after : List Leaf) (c : String)
    (rows : List Row) (row : Row) (rows' : List Row), ref.Plain →
    (ref.leaves.map Leaf.aliasName).Nodup → planTableRef src.catalog ref = .ok tree →
    executeNode py src tree = .ok res → ref.leaves = before ++ leaf :: after →
    c ∈ leaf.columns src.catalog → Combined src before rows → Contributes src leaf row →
    Combined src after rows' → (rows ++ row :: rows').flatten ∈ res.rows →
    evalExpr py (rowDict res.columns (rows ++ row :: rows').flatten)
        (.columnRef (some leaf.aliasName) c) =
      evalExpr py (rowDict (leaf.columns src.catalog) row) (.columnRef none c) := by
  intro h
  have hrun : (do
      let tree ← planTableRef usersAndOrders.catalog usersOrders
      executeNode .ascii usersAndOrders tree) =
      .ok ⟨["id", "id"], [[.int 1, .int 2]], 0, ""⟩ := by decide +kernel
  obtain ⟨tree, htree, hres⟩ := bind_eq_ok hrun
  have hread := h .ascii usersAndOrders usersOrders tree _ [] ⟨"users", "u"⟩ [⟨"orders", "o"⟩] "id"
    [] [.int 1] [[.int 2]] usersOrders_plain (by decide) htree hres rfl (by decide) .nil
    (.inl ⟨_, rfl, List.mem_singleton.mpr rfl, rfl⟩)
    (.cons (.inl ⟨_, rfl, List.mem_singleton.mpr rfl, rfl⟩) .nil) (List.mem_singleton.mpr rfl)
  exact absurd hread (by decide +kernel)

end PySQL.Query
