import PySQL.Query.Names
import PySQL.Query.Pushdown

/-!
# What ORDER BY sorts by

The plan of a SELECT sorts above its projection, so that the keys are evaluated on rows whose names
are those of the select list.
-/

namespace PySQL.Query

open Lib

/-! ## The select list -/

/-- The output columns of a select list item, each with the expression of its value; a star stands for
references to its columns. -/
def writtenOut (py : Py) (columns : List String) (item : SelectItem) : List (String × Expr) :=
  (outputColumns py columns item).map fun name =>
    match item.1 with
    | .starExpr _ => (name, .columnRef none name)
    | expr => (name, expr)

/-- The expression of the output column that a reference finds, NULL if it finds none. -/
def carrier (py : Py) (columns : List String) (items : List SelectItem) (ref : ColumnName) : Expr :=
  ((resolve py (items.flatMap (outputColumns py columns)) ref).bind fun key =>
    lastOf key (items.flatMap (writtenOut py columns))).getD (.literal .null)

variable {py : Py} {columns : List String} {row : Row}

/-- Whether `table.*` takes a column. -/
def starTakes (table : Option String) (c : String) : Bool :=
  match table with
  | none | some "" => true
  | some t => (t ++ ".").toList.isPrefixOf c.toList || !c.toList.contains '.'

theorem starColumns_eq (table : Option String) :
    starColumns table columns = columns.map (starTakes table) := rfl

theorem outputColumns_star (table : Option String) (aliasName : Option String) :
    outputColumns py columns (.starExpr table, aliasName) = columns.filter (starTakes table) := by
  show ((columns.zip (starColumns table columns)).filter Prod.snd).map Prod.fst = _
  rw [starColumns_eq]
  induction columns with
  | nil => rfl
  | cons c cs ih =>
    rw [List.map_cons, List.zip_cons_cons, List.filter_cons, List.filter_cons, ← ih]
    cases starTakes table c <;> rfl

/-- The cells at the flagged positions. -/
theorem mapE_flagged (before : Row) {rest : Row} {flags : List Bool} (hlen : rest.length = flags.length) :
    mapE (fun i => ((before ++ rest)[i]?).elim (.error PyError.indexError) .ok)
      ((flags.zipIdx before.length).filterMap fun c => if c.1 then some c.2 else none) =
      .ok (((flags.zip rest).filter Prod.fst).map Prod.snd) := by
  induction flags generalizing before rest with
  | nil => rfl
  | cons flag flags ih =>
    obtain ⟨v, rest, rfl⟩ := List.exists_cons_of_length_eq_add_one hlen
    have hrest := ih (before ++ [v]) (Nat.succ.inj hlen)
    rw [List.append_assoc, List.singleton_append, List.length_append, List.length_singleton] at hrest
    rw [List.zipIdx_cons, List.filterMap_cons, List.zip_cons_cons, List.filter_cons]
    cases flag with
    | false => exact hrest
    | true =>
      have hcell : (before ++ v :: rest)[before.length]? = some v := by simp
      simp only [if_true, mapE, hcell, Option.elim_some, ok_bind, hrest]
      rfl

theorem projectItem_star (hlen : row.length = columns.length) (table : Option String)
    (aliasName : Option String) : projectItem py columns row (.starExpr table, aliasName) =
      .ok (((columns.zip row).filter fun p => starTakes table p.1).map Prod.snd) := by
  have hall : ∀ {table}, (∀ c, starTakes table c = true) →
      ((columns.zip row).filter fun p => starTakes table p.1).map Prod.snd = row := by
    intro table h
    rw [List.filter_eq_self.mpr fun p _ => h p.1, List.map_snd_zip hlen.le]
  have hflagged : ∀ {table},
      mapE (fun i => (row[i]?).elim (.error PyError.indexError) .ok)
        ((starColumns table columns).zipIdx.filterMap fun c => if c.1 then some c.2 else none) =
        .ok (((columns.zip row).filter fun p => starTakes table p.1).map Prod.snd) := by
    intro table
    have hlen' : row.length = (starColumns table columns).length := by
      rw [starColumns_eq, List.length_map, hlen]
    have hcells := mapE_flagged [] hlen'
    rw [List.nil_append, List.length_nil] at hcells
    rw [hcells, starColumns_eq, List.zip_map_left, List.filter_map, List.map_map]
    rfl
  cases table with
  | none => exact congrArg _ (hall fun _ => rfl).symm
  | some t =>
    unfold projectItem
    split
    · next heq => cases heq
    · next heq =>
      cases heq
      exact congrArg _ (hall fun _ => rfl).symm
    · next heq =>
      cases heq
      exact hflagged
    · next hne heq =>
      cases heq
      exact absurd rfl (hne _)

theorem projectItem_expr {expr : Expr} (hstar : ∀ table, expr ≠ .starExpr table)
    (aliasName : Option String) : projectItem py columns row (expr, aliasName) =
      (do return [← evalExpr py (rowDict columns row) expr]) := by
  cases expr with
  | starExpr table => exact absurd rfl (hstar table)
  | _ => rfl

theorem outputColumns_expr {expr : Expr} (hstar : ∀ table, expr ≠ .starExpr table)
    (aliasName : Option String) : ∃ name, outputColumns py columns (expr, aliasName) = [name] := by
  cases expr with
  | starExpr table => exact absurd rfl (hstar table)
  | _ =>
    unfold outputColumns
    dsimp only
    split <;> exact ⟨_, rfl⟩

theorem writtenOut_expr {expr : Expr} (hstar : ∀ table, expr ≠ .starExpr table)
    (aliasName : Option String) : writtenOut py columns (expr, aliasName) =
      (outputColumns py columns (expr, aliasName)).map (·, expr) := by
  cases expr with
  | starExpr table => exact absurd rfl (hstar table)
  | _ => rfl

/-- The values of expressions on a source row, where there is an expression. -/
def Evaluated (py : Py) (row : Dict String Value) : Option Expr → Option Value → Prop :=
  Option.Rel fun e v => evalExpr py row e = .ok v

theorem Evaluated.or {dict : Dict String Value} {a b : Option Expr} {v w : Option Value}
    (ha : Evaluated py dict a v) (hb : Evaluated py dict b w) :
    Evaluated py dict (a.or b) (v.or w) := by
  cases ha with
  | none => exact hb
  | some h => exact .some h

/-- What is found in the cells of one item is what the item writes out. -/
theorem lastOf_projectItem {item : SelectItem} {cells : Row} (hlen : row.length = columns.length)
    (h : projectItem py columns row item = .ok cells) (key : String) :
    cells.length = (outputColumns py columns item).length ∧
      Evaluated py (rowDict columns row) (lastOf key (writtenOut py columns item))
        (lastOf key ((outputColumns py columns item).zip cells)) := by
  obtain ⟨expr, aliasName⟩ := item
  by_cases hstar : ∃ table, expr = .starExpr table
  · obtain ⟨table, rfl⟩ := hstar
    rw [projectItem_star hlen] at h
    obtain rfl := Except.ok.inj h
    have hnames : columns.filter (starTakes table) =
        ((columns.zip row).filter fun p => starTakes table p.1).map Prod.fst := by
      conv_lhs => rw [← List.map_fst_zip hlen.ge, List.filter_map]
      rfl
    have hzip : (columns.filter (starTakes table)).zip
        (((columns.zip row).filter fun p => starTakes table p.1).map Prod.snd) =
        (columns.zip row).filter fun p => starTakes table p.1 := by
      rw [hnames]
      exact (List.zip_of_prod rfl rfl).symm
    rw [writtenOut, outputColumns_star, hzip, lastOf_graph, lastOf_filter]
    refine ⟨by rw [hnames, List.length_map, List.length_map], ?_⟩
    by_cases hkey : key ∈ columns ∧ starTakes table key = true
    · obtain ⟨v, hv⟩ := Option.isSome_iff_exists.mp
        (lastOf_isSome.mpr (by rw [List.map_fst_zip hlen.ge]; exact hkey.1))
      rw [if_pos (List.mem_filter.mpr hkey), if_pos hkey.2, hv]
      refine .some ?_
      have hget : (rowDict columns row).get? key = some v := get?_dict.trans hv
      rw [evalExpr, columnValue_of_get? hget]
    · rw [if_neg fun hmem => hkey (List.mem_filter.mp hmem)]
      split
      · next htakes =>
        rw [lastOf_eq_none]
        · exact .none
        · rw [List.map_fst_zip hlen.ge]
          exact fun hmem => hkey ⟨hmem, htakes⟩
      · exact .none
  · rw [projectItem_expr fun table heq => hstar ⟨table, heq⟩] at h
    obtain ⟨v, hv, h⟩ := bind_eq_ok h
    obtain rfl := Except.ok.inj h
    obtain ⟨name, hname⟩ : ∃ name, outputColumns py columns (expr, aliasName) = [name] :=
      outputColumns_expr (fun table heq => hstar ⟨table, heq⟩) aliasName
    rw [writtenOut_expr fun table heq => hstar ⟨table, heq⟩, hname]
    refine ⟨rfl, ?_⟩
    simp only [List.map_cons, List.map_nil, List.zip_cons_cons, List.zip_nil_left, lastOf_cons,
      lastOf_nil, Option.none_or]
    split
    · exact .some hv
    · exact .none

theorem lastOf_project {items : List SelectItem} {parts : List Row}
    (hlen : row.length = columns.length) (h : mapE (projectItem py columns row) items = .ok parts)
    (key : String) : parts.flatten.length = (items.flatMap (outputColumns py columns)).length ∧
      Evaluated py (rowDict columns row) (lastOf key (items.flatMap (writtenOut py columns)))
        (lastOf key ((items.flatMap (outputColumns py columns)).zip parts.flatten)) := by
  induction items generalizing parts with
  | nil =>
    obtain rfl := Except.ok.inj h
    exact ⟨rfl, .none⟩
  | cons item items ih =>
    obtain ⟨cells, hcells, h⟩ := bind_eq_ok h
    obtain ⟨rest, hrest, h⟩ := bind_eq_ok h
    obtain rfl := Except.ok.inj h
    obtain ⟨hcellsLength, hitem⟩ := lastOf_projectItem hlen hcells key
    obtain ⟨hrestLength, hitems⟩ := ih hrest
    rw [List.flatMap_cons, List.flatMap_cons, List.flatten_cons, List.zip_append hcellsLength.symm,
      lastOf_append, lastOf_append, List.length_append, List.length_append, hcellsLength,
      hrestLength]
    exact ⟨rfl, hitems.or hitem⟩

/-- A reference reads in the projected row what the select list carries under its name. -/
theorem evalExpr_carrier {items : List SelectItem} {parts : List Row}
    (hlen : row.length = columns.length) (h : mapE (projectItem py columns row) items = .ok parts)
    (ref : ColumnName) : evalExpr py (rowDict columns row) (carrier py columns items ref) =
      evalExpr py (rowDict (items.flatMap (outputColumns py columns)) parts.flatten)
        (.columnRef ref.1 ref.2) := by
  have hlength := (lastOf_project hlen h "").1
  rw [evalExpr, columnValue_rowDict hlength, carrier]
  cases resolve py (items.flatMap (outputColumns py columns)) ref with
  | none => rw [Option.bind_none, Option.bind_none, Option.getD_none, Option.getD_none, evalExpr]
  | some key =>
    rw [Option.bind_some, Option.bind_some]
    have hkey := (lastOf_project hlen h key).2
    revert hkey
    generalize lastOf key (items.flatMap (writtenOut py columns)) = e
    generalize lastOf key ((items.flatMap (outputColumns py columns)).zip parts.flatten) = v
    intro hkey
    cases hkey with
    | none => rw [Option.getD_none, Option.getD_none, evalExpr]
    | some h => exact h

/-- `SELECT *` carries every column. -/
theorem evalExpr_carrier_star (hlen : row.length = columns.length) (ref : ColumnName) :
    evalExpr py (rowDict columns row) (carrier py columns star ref) =
      evalExpr py (rowDict columns row) (.columnRef ref.1 ref.2) := by
  have hstar : mapE (projectItem py columns row) star = .ok [row] := rfl
  have hall : columns.filter (starTakes none) = columns := List.filter_eq_self.mpr fun _ _ => rfl
  rw [evalExpr_carrier hlen hstar, star, List.flatMap_singleton, outputColumns_star, hall,
    List.flatten_singleton]

/-! ## Sorting a projection -/

/-- The projection of a row. -/
def projectRow (py : Py) (columns : List String) (items : List SelectItem) (row : Row) :
    Except PyError Row := do
  return (← mapE (projectItem py columns row) items).flatten

theorem execProject_eq {items : List SelectItem} (hitems : items ≠ []) (child : QueryResult) :
    execProject py (some items) child = (do
      let rows ← mapE (projectRow py child.columns items) child.rows
      return { columns := items.flatMap (outputColumns py child.columns), rows }) := by
  cases items with
  | nil => exact absurd rfl hitems
  | cons item items => rfl

/-- The sort of rows under their keys, without what computes the keys. -/
def sortKeyed (descending : Bool) (keyed : List (List (Option Value) × Row)) :
    Except PyError (List Row) := do
  if keyed.any fun a => keyed.any fun b => !(sortKeyLess a.1 b.1).isOk then throw .typeError
  let sorted := (keyed.mergeSort fun a b => !isTrue (sortKeyLess b.1 a.1)).map Prod.snd
  return if descending then sorted.reverse else sorted

theorem execSort_cons (k : Expr × Bool) (keys : List (Expr × Bool)) (child : QueryResult) :
    execSort py (some (k :: keys)) child = (do
      let keyed ← mapE (fun row => do
        return (← sortKey py child.columns (k :: keys) row, row)) child.rows
      let rows ← sortKeyed ((k :: keys).all Prod.snd) keyed
      return { child with rows }) := by
  unfold execSort
  dsimp only
  cases mapE (fun row => do
    return (← sortKey py child.columns (k :: keys) row, row)) child.rows with
  | error e => rfl
  | ok keyed =>
    rw [ok_bind, ok_bind, sortKeyed]
    split <;> rfl

/-- The rows may be replaced before the sort or after it. -/
theorem sortKeyed_map (descending : Bool) (keyed : List (List (Option Value) × Row))
    (out : Row → Row) : sortKeyed descending (keyed.map (Prod.map id out)) =
      (sortKeyed descending keyed).map (List.map out) := by
  have hraise : ((keyed.map (Prod.map id out)).any fun a =>
      (keyed.map (Prod.map id out)).any fun b => !(sortKeyLess a.1 b.1).isOk) =
      keyed.any fun a => keyed.any fun b => !(sortKeyLess a.1 b.1).isOk := by
    simp only [List.any_map, Function.comp_def, Prod.map_fst, id_eq]
  have hsort : ((keyed.map (Prod.map id out)).mergeSort fun a b =>
      !isTrue (sortKeyLess b.1 a.1)).map Prod.snd =
      ((keyed.mergeSort fun a b => !isTrue (sortKeyLess b.1 a.1)).map Prod.snd).map out := by
    rw [← List.map_mergeSort (r := fun a b => !isTrue (sortKeyLess b.1 a.1)) fun a _ b _ => rfl,
      List.map_map, List.map_map]
    rfl
  rw [sortKeyed, sortKeyed, hraise, hsort]
  split
  · rfl
  · cases descending
    · rfl
    · exact congrArg Except.ok List.map_reverse.symm

theorem mem_of_sortKeyed {descending : Bool} {keyed : List (List (Option Value) × Row)}
    {rows : List Row} (h : sortKeyed descending keyed = .ok rows) :
    ∀ row ∈ rows, ∃ c ∈ keyed, c.2 = row := by
  rw [sortKeyed] at h
  split at h
  · cases h
  · obtain rfl := Except.ok.inj h
    intro row hrow
    have hsorted : row ∈ (keyed.mergeSort fun a b => !isTrue (sortKeyLess b.1 a.1)).map Prod.snd := by
      cases descending
      · exact hrow
      · exact List.mem_reverse.mp hrow
    obtain ⟨c, hc, hrow⟩ := List.mem_map.mp hsorted
    exact ⟨c, List.mem_mergeSort.mp hc, hrow⟩

/-- What projects the rows of a result. -/
theorem exists_projectRow {items : List SelectItem} {source projected : QueryResult}
    (hitems : items ≠ []) (h : execProject py (some items) source = .ok projected) :
    ∃ out : Row → Row,
      (∀ row ∈ source.rows, projectRow py source.columns items row = .ok (out row)) ∧
      projected = {
        columns := items.flatMap (outputColumns py source.columns)
        rows := source.rows.map out } := by
  rw [execProject_eq hitems] at h
  obtain ⟨rows, hrows, h⟩ := bind_eq_ok h
  obtain rfl := Except.ok.inj h
  let out (row : Row) : Row := (projectRow py source.columns items row).toOption.getD []
  have hout : ∀ row ∈ source.rows, projectRow py source.columns items row = .ok (out row) := by
    intro row hrow
    obtain ⟨cells, hcells⟩ := exists_ok_of_isOk (mapE_isOk.mp (by rw [hrows]; rfl) row hrow)
    rw [hcells]
    show _ = Except.ok ((projectRow py source.columns items row).toOption.getD [])
    rw [hcells]
    rfl
  rw [mapE_of_ok hout] at hrows
  obtain rfl := Except.ok.inj hrows
  exact ⟨out, hout, rfl⟩

/-- If the keys of the projected rows are those of the source rows, the projection of the sorted rows
is the sorted projection. -/
theorem execSort_execProject {items : List SelectItem} {keys : List (Expr × Bool)}
    {source projected : QueryResult} (hitems : items ≠ [])
    (hproject : execProject py (some items) source = .ok projected)
    (hkeys : ∀ row ∈ source.rows, ∀ out, projectRow py source.columns items row = .ok out →
      sortKey py projected.columns keys out = sortKey py source.columns keys row) :
    execSort py (some keys) projected =
      (do execProject py (some items) (← execSort py (some keys) source)) := by
  cases keys with
  | nil => exact hproject.symm
  | cons k keys =>
    obtain ⟨out, hout, rfl⟩ := exists_projectRow hitems hproject
    have hkeyed : mapE (fun row => do
        return (← sortKey py (items.flatMap (outputColumns py source.columns)) (k :: keys) row, row))
        (source.rows.map out) =
        (mapE (fun row => do return (← sortKey py source.columns (k :: keys) row, row))
          source.rows).map (List.map (Prod.map id out)) := by
      rw [mapE_map, ← mapE_mapOk]
      refine mapE_congr fun row hrow => ?_
      rw [hkeys row hrow _ (hout row hrow)]
      cases sortKey py source.columns (k :: keys) row <;> rfl
    rw [execSort_cons, execSort_cons, hkeyed]
    cases hsource : mapE (fun row => do
        return (← sortKey py source.columns (k :: keys) row, row)) source.rows with
    | error e => rfl
    | ok keyed =>
      show (do
        let rows ← sortKeyed _ (keyed.map (Prod.map id out))
        return _) = _
      rw [sortKeyed_map]
      show _ = (do
        let source ← (do
          let rows ← sortKeyed _ keyed
          return { source with rows })
        execProject py (some items) source)
      cases hsorted : sortKeyed ((k :: keys).all Prod.snd) keyed with
      | error e => rfl
      | ok rows =>
        -- what is sorted are source rows
        have hrows : ∀ row ∈ rows, projectRow py source.columns items row = .ok (out row) := by
          intro row hrow
          obtain ⟨c, hc, rfl⟩ := mem_of_sortKeyed hsorted row hrow
          obtain ⟨row', hrow', h⟩ := mem_of_mapE hsource hc
          obtain ⟨key, -, h⟩ := bind_eq_ok h
          obtain rfl := Except.ok.inj h
          exact hout row' hrow'
        show _ = execProject py (some items) { source with rows }
        rw [execProject_eq hitems, mapE_of_ok hrows]
        rfl

/-! ## The sort of a plan -/

/-- A sort with nothing above it but what keeps the order of the rows. -/
inductive SortOf (sort : PlanNode) : PlanNode → Prop where
  | here : SortOf sort sort
  | above {info : PlanInfo} {child : PlanNode} (htype : info.type = .distinct ∨ info.type = .limit)
    (h : SortOf sort child) : SortOf sort (.mk info [child])

/-- Two nodes for which the planner estimates the same. -/
def SameEstimates (node node' : PlanNode) : Prop :=
  node'.info.estimatedRows = node.info.estimatedRows ∧
    node'.info.estimatedCost = node.info.estimatedCost

variable {node node' result : PlanNode}

theorem planDistinct_congr {distinct : Bool} (hsame : SameEstimates node node')
    (h : planDistinct distinct node = .ok result) : ∃ result',
      planDistinct distinct node' = .ok result' ∧ SameEstimates result result' ∧
      ∀ sort, SortOf sort node' → SortOf sort result' := by
  cases distinct with
  | false =>
    obtain rfl := Except.ok.inj h
    exact ⟨node', rfl, hsame, fun _ => id⟩
  | true =>
    obtain ⟨rows, hrows, h⟩ := bind_eq_ok h
    obtain ⟨cost, hcost, h⟩ := bind_eq_ok h
    obtain rfl := Except.ok.inj h
    rw [← hsame.1] at hrows hcost
    rw [← hsame.2] at hcost
    refine ⟨.mk { type := .distinct, estimatedRows := rows, estimatedCost := cost } [node'], ?_,
      ⟨rfl, rfl⟩, fun _ => .above (.inl rfl)⟩
    show above _ _ _ _ = _
    rw [above, hrows, ok_bind, hcost]
    rfl

theorem planLimit_congr {limit offset : Option ℤ} (hsame : SameEstimates node node')
    (h : planLimit limit offset node = .ok result) : ∃ result',
      planLimit limit offset node' = .ok result' ∧
      ∀ sort, SortOf sort node' → SortOf sort result' := by
  cases limit with
  | none => exact ⟨node', rfl, fun _ => id⟩
  | some n =>
    obtain ⟨less, hless, h⟩ := bind_eq_ok h
    rw [← hsame.1] at hless
    let rows := node'.info.estimatedRows
    refine ⟨.mk {
      type := .limit
      limit := some n
      offset := some (offset.getD 0)
      estimatedRows := if less then rows else .int n
      estimatedCost := node'.info.estimatedCost.add (.ofRat false (1 / 10)) } [node'], ?_,
      fun _ => .above (.inr rfl)⟩
    rw [planLimit, hless]
    rfl

/-- A sort that the planner makes. -/
def sortNode (orderBy : List OrderByItem) (x : Value × PyFloat) (child : PlanNode) : PlanNode :=
  .mk {
    type := .sort
    sortKeys := some (orderBy.map fun item => (item.expr, item.descending))
    estimatedRows := x.1
    estimatedCost := x.2 } [child]

/-- Whether a plan can be sorted does not depend on the keys. -/
theorem planSort_congr {orderBy : List OrderByItem} (horder : orderBy ≠ [])
    (h : planSort (some orderBy) node = .ok result) : ∃ x, result = sortNode orderBy x node ∧
      ∀ orderBy', orderBy' ≠ [] → planSort (some orderBy') node = .ok (sortNode orderBy' x node) := by
  cases orderBy with
  | nil => exact absurd rfl horder
  | cons item items =>
    obtain ⟨bits, hbits, h⟩ := bind_eq_ok h
    obtain ⟨product, hproduct, h⟩ := bind_eq_ok h
    obtain ⟨cost, hcost, h⟩ := bind_eq_ok h
    obtain rfl := Except.ok.inj h
    refine ⟨(node.info.estimatedRows, cost), rfl, fun orderBy' horder' => ?_⟩
    obtain ⟨item', items', rfl⟩ := List.exists_cons_of_ne_nil horder'
    unfold planSort
    dsimp only
    rw [hbits, ok_bind, hproduct, ok_bind, hcost]
    rfl

/-! ## SELECT … ORDER BY -/

/-- A query of one table, up to its ORDER BY clause. -/
structure TableSelect where
  items : List SelectItem
  table : String
  aliasName : Option String := none
  whereClause : Option Expr := none
  limit : Option ℤ := none
  offset : Option ℤ := none
  distinct : Bool := false

def TableSelect.statement (q : TableSelect) (orderBy : List OrderByItem) : SelectStatement :=
  .mk q.items (some (.simple q.table q.aliasName)) q.whereClause none none (some orderBy) q.limit
    q.offset q.distinct

/-- The plan of the FROM and WHERE clauses. -/
def TableSelect.below (q : TableSelect) (catalog : Catalog) : Except PyError PlanNode := do
  planFilter q.whereClause (33 / 100) (← planTableRef catalog (.simple q.table q.aliasName))

theorem TableSelect.planSelect_eq {q : TableSelect} {catalog : Catalog}
    (hscalar : hasAggregates q.items = false) (orderBy : List OrderByItem) :
    planSelect catalog (q.statement orderBy) = (do
      let below ← q.below catalog
      let project ← planProject q.items below
      let sort ← planSort (some orderBy) project
      let current ← planDistinct q.distinct sort
      planLimit q.limit q.offset current) := by
  have haggregate : ∀ current, planAggregate q.items none current = .ok current := by
    intro current
    rw [planAggregate, hscalar]
    rfl
  rw [TableSelect.statement, planSelect, planFrom, TableSelect.below, bind_assoc]
  simp only [haggregate, ok_bind]
  rfl

/-- The sort of the plan evaluates its keys as on the source rows, so that it puts the projected rows
in the order of the source rows. -/
def SortsBySource (py : Py) (src : Source) (items : List SelectItem) (below : PlanNode)
    (source projected : QueryResult) (orderBy : List OrderByItem) (plan : PlanNode) : Prop :=
  let keys := orderBy.map fun item => (item.expr, item.descending)
  ∃ sort project, SortOf (.mk sort [.mk project [below]]) plan ∧
    sort.type = .sort ∧ sort.sortKeys = some keys ∧
    project.type = .project ∧ project.columns = some items ∧
    (∀ row ∈ source.rows, ∀ out, projectRow py source.columns items row = .ok out →
      ∀ item ∈ orderBy, evalExpr py (rowDict projected.columns out) item.expr =
        evalExpr py (rowDict source.columns row) item.expr) ∧
    executeNode py src (.mk sort [.mk project [below]]) =
      (do execProject py (some items) (← execSort py (some keys) source))

variable {src : Source} {q : TableSelect} {below : PlanNode} {source projected : QueryResult}

theorem TableSelect.rectangular (hbelow : q.below src.catalog = .ok below)
    (hsource : executeNode py src below = .ok source) : source.Rectangular := by
  obtain ⟨tree, htree, hbelow⟩ := bind_eq_ok hbelow
  obtain ⟨hfrom, -⟩ := planTableRef_fromTree (.simple q.table q.aliasName) htree
  cases hwhere : q.whereClause with
  | none =>
    rw [hwhere] at hbelow
    obtain rfl := Except.ok.inj hbelow
    exact hfrom.rectangular hsource
  | some predicate =>
    obtain ⟨x, cost, hfilter⟩ := planFilter_some hfrom.scalable predicate (33 / 100)
    rw [hwhere, hfilter] at hbelow
    obtain rfl := Except.ok.inj hbelow
    rw [executeNode_filterNode] at hsource
    obtain ⟨res, hres, hsource⟩ := bind_eq_ok hsource
    rw [execFilter_of_evaluates (evaluates_of_execFilter (by rw [hsource]; rfl))] at hsource
    obtain rfl := Except.ok.inj hsource
    exact filtered_rectangular (hfrom.rectangular hres)

/-- ORDER BY sorts by the source columns exactly if the select list carries each of them under the
name by which the keys refer to it. -/
theorem orderBy_source_iff {refs : Set ColumnName} (hitems : q.items ≠ [])
    (hscalar : hasAggregates q.items = false) (hbelow : q.below src.catalog = .ok below)
    (hsource : executeNode py src below = .ok source)
    (hprojected : execProject py (some q.items) source = .ok projected)
    (hplan : ∃ orderBy, orderBy ≠ [] ∧ (planSelect src.catalog (q.statement orderBy)).isOk = true) :
    (∀ orderBy, orderBy ≠ [] → (∀ item ∈ orderBy, ∀ ref ∈ columnRefs item.expr, ref ∈ refs) →
      ∃ plan, planSelect src.catalog (q.statement orderBy) = .ok plan ∧
        SortsBySource py src q.items below source projected orderBy plan) ↔
    ∀ row ∈ source.rows, ∀ ref ∈ refs,
      evalExpr py (rowDict source.columns row) (carrier py source.columns q.items ref) =
        evalExpr py (rowDict source.columns row) (.columnRef ref.1 ref.2) := by
  have hrect := TableSelect.rectangular hbelow hsource
  obtain ⟨out, hout, rfl⟩ := exists_projectRow hitems hprojected
  -- what a reference reads in a projected row
  have hcarrier : ∀ row ∈ source.rows, ∀ ref : ColumnName,
      evalExpr py (rowDict source.columns row) (carrier py source.columns q.items ref) =
        evalExpr py (rowDict (q.items.flatMap (outputColumns py source.columns)) (out row))
          (.columnRef ref.1 ref.2) := by
    intro row hrow ref
    obtain ⟨parts, hparts, h⟩ := bind_eq_ok (hout row hrow)
    rw [← Except.ok.inj h]
    exact evalExpr_carrier (hrect row hrow) hparts ref
  constructor
  · intro hall row hrow ref href
    obtain ⟨plan, -, sort, project, -, -, -, -, -, hsame, -⟩ :=
      hall [⟨.columnRef ref.1 ref.2, false⟩] (List.cons_ne_nil _ _) (by
        intro item hitem ref' hmem
        obtain rfl := List.mem_singleton.mp hitem
        rw [columnRefs, List.mem_singleton] at hmem
        exact hmem ▸ href)
    rw [hcarrier row hrow]
    exact hsame row hrow _ (hout row hrow) _ List.mem_cons_self
  · intro hcarried orderBy horder hrefs
    obtain ⟨orderBy₀, horder₀, hok⟩ := hplan
    obtain ⟨plan₀, hselect⟩ := exists_ok_of_isOk hok
    rw [TableSelect.planSelect_eq hscalar, hbelow, ok_bind] at hselect
    obtain ⟨project, hproject, hrest⟩ := bind_eq_ok hselect
    obtain ⟨sort₀, hsort₀, hrest⟩ := bind_eq_ok hrest
    obtain ⟨current₀, hcurrent₀, hplan₀⟩ := bind_eq_ok hrest
    obtain ⟨x, rfl, hsort⟩ := planSort_congr horder₀ hsort₀
    have hsame : SameEstimates (sortNode orderBy₀ x project) (sortNode orderBy x project) :=
      ⟨rfl, rfl⟩
    obtain ⟨current, hcurrent, hsame, habove⟩ := planDistinct_congr hsame hcurrent₀
    obtain ⟨plan, hplan, habove'⟩ := planLimit_congr hsame hplan₀
    refine ⟨plan, ?_, ?_⟩
    · rw [TableSelect.planSelect_eq hscalar, hbelow, ok_bind, hproject, ok_bind,
        hsort orderBy horder, ok_bind, hcurrent, ok_bind, hplan]
    obtain ⟨cost, hcost, hproject⟩ := bind_eq_ok hproject
    obtain rfl := Except.ok.inj hproject
    have hkeys : ∀ row ∈ source.rows, ∀ item ∈ orderBy,
        evalExpr py (rowDict (q.items.flatMap (outputColumns py source.columns)) (out row))
          item.expr = evalExpr py (rowDict source.columns row) item.expr := by
      intro row hrow item hitem
      refine evalExpr_congr _ fun ref href => ?_
      have heq := (hcarrier row hrow ref).symm.trans (hcarried row hrow ref (hrefs item hitem ref href))
      rw [evalExpr, evalExpr] at heq
      exact Except.ok.inj heq
    refine ⟨_, _, habove' _ (habove _ .here), rfl, rfl, rfl, rfl, ?_, ?_⟩
    · intro row hrow cells hcells item hitem
      obtain rfl := Except.ok.inj ((hout row hrow).symm.trans hcells)
      exact hkeys row hrow item hitem
    · simp only [executeNode, hsource, ok_bind, hprojected]
      refine execSort_execProject hitems hprojected fun row hrow cells hcells => ?_
      obtain rfl := Except.ok.inj ((hout row hrow).symm.trans hcells)
      refine mapE_congr fun k hk => ?_
      obtain ⟨item, hitem, rfl⟩ := List.mem_map.mp hk
      dsimp only
      rw [hkeys row hrow item hitem]

/-- The table `people(name, age)` with one row. -/
def onePerson : Source where
  catalog := {
    tables := Dict.empty.set "people" {
      name := "people"
      columns := [⟨"name", "TEXT", []⟩, ⟨"age", "INTEGER", []⟩]
      rowCountEstimate := 1 }
    indexes := .empty }
  scan _ := .ok [(⟨0, 0⟩, [.str "Ann", .int 30])]
  read _ _ := .ok none
  indexes := .empty
  width := by
    intro name table live htable hlive p hp
    obtain rfl := Except.ok.inj hlive
    obtain rfl := List.mem_singleton.mp hp
    rcases Dict.get?_set_cases htable with ⟨-, rfl⟩ | ⟨-, hnone⟩
    · rfl
    · cases hnone

/-- `SELECT name FROM people` -/
def selectName : TableSelect where
  items := [(.columnRef none "name", none)]
  table := "people"

theorem selectName_run : (do
    let below ← selectName.below onePerson.catalog
    let source ← executeNode .ascii onePerson below
    let projected ← execProject .ascii (some selectName.items) source
    return (source, projected)) = .ok (⟨["name", "age"], [[.str "Ann", .int 30]], 0, ""⟩,
      ⟨["name"], [[.str "Ann"]], 0, ""⟩) := by
  decide +kernel

/-- `SELECT name FROM people ORDER BY name` -/
theorem orderBy_source_iff_name : ∃ below source projected,
    (∀ orderBy, orderBy ≠ [] →
      (∀ item ∈ orderBy, ∀ ref ∈ columnRefs item.expr, ref ∈ ({(none, "name")} : Set ColumnName)) →
      ∃ plan, planSelect onePerson.catalog (selectName.statement orderBy) = .ok plan ∧
        SortsBySource .ascii onePerson selectName.items below source projected orderBy plan) ↔
    ∀ row ∈ source.rows, ∀ ref ∈ ({(none, "name")} : Set ColumnName),
      evalExpr .ascii (rowDict source.columns row)
          (carrier .ascii source.columns selectName.items ref) =
        evalExpr .ascii (rowDict source.columns row) (.columnRef ref.1 ref.2) := by
  obtain ⟨below, hbelow, hrun⟩ := bind_eq_ok selectName_run
  obtain ⟨source, hsource, hrun⟩ := bind_eq_ok hrun
  obtain ⟨projected, hprojected, -⟩ := bind_eq_ok hrun
  exact ⟨below, source, projected, orderBy_source_iff (by decide) rfl hbelow hsource hprojected
    ⟨[⟨.columnRef none "name", false⟩], by decide, by decide +kernel⟩⟩

/-- `SELECT name FROM people ORDER BY age`: the key is NULL. -/
theorem unselectedKey_null : ¬∀ (py : Py) (src : Source) (q : TableSelect) (below : PlanNode)
    (source projected : QueryResult) (orderBy : List OrderByItem), q.items ≠ [] →
    hasAggregates q.items = false →
    (∀ item ∈ q.items, ∀ name ∈ item.2, name ∉ source.columns) → q.below src.catalog = .ok below →
    executeNode py src below = .ok source → execProject py (some q.items) source = .ok projected →
    orderBy ≠ [] → (∀ item ∈ orderBy, ∀ ref ∈ columnRefs item.expr, ref.2 ∈ source.columns) →
    (planSelect src.catalog (q.statement orderBy)).isOk = true →
    ∃ plan, planSelect src.catalog (q.statement orderBy) = .ok plan ∧
      SortsBySource py src q.items below source projected orderBy plan := by
  intro h
  obtain ⟨below, hbelow, hrun⟩ := bind_eq_ok selectName_run
  obtain ⟨source, hsource, hrun⟩ := bind_eq_ok hrun
  obtain ⟨projected, hprojected, hrun⟩ := bind_eq_ok hrun
  obtain ⟨rfl, rfl⟩ := Prod.mk.inj (Except.ok.inj hrun)
  obtain ⟨plan, -, sort, project, -, -, -, -, -, hsame, -⟩ :=
    h .ascii onePerson selectName below _ _ [⟨.columnRef none "age", false⟩] (by decide) rfl
      (by decide) hbelow hsource hprojected (by decide) (by decide) (by decide +kernel)
  have hkey := hsame _ List.mem_cons_self [.str "Ann"] rfl _ List.mem_cons_self
  exact absurd hkey (by decide +kernel)

end PySQL.Query
