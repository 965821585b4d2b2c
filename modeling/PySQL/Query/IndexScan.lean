import PySQL.BTree.Multimap
import PySQL.Query.Execute
import PySQL.Query.HashJoin
import PySQL.Query.Kleene

/-!
# Index scans and the scans they replace

A scan range is taken from the operator and the literal of the predicate alone, and the rows in it
are not tested again.
-/

namespace PySQL.Query

open BTree Lib Storage

namespace Index

variable {idx : Index} {m : Multiset (Value.Key × RecordId)} {low high : Option Value} {kind : ℕ}

/-- The bounds are compared with a key without an exception. -/
def boundsCompare (low high : Option Value) (key : Value.Key) : Bool :=
  low.all (comparableTo · key) && high.all (comparableTo · key)

/-- The key is within the closed range. -/
def inRange (low high : Option Value) (key : Value.Key) : Bool :=
  inBounds (low.bind Value.key) (high.bind Value.key) true true key

theorem comparableTo_congr {v : Value} {a b : Value.Key} (h : a.kind = b.kind) :
    comparableTo v a = comparableTo v b := by
  simp only [comparableTo, Value.Key.comparable, h]

/-- All keys of the tree are of one kind. -/
theorem kind_rootKeys (h : RepresentsMulti idx m) (hkind : ∀ p ∈ m, p.1.kind = kind) :
    ∀ k ∈ (idx.node idx.root).keys, k.kind = kind := by
  intro k hk
  obtain ⟨p, hp, q, hq, hlow, hhigh⟩ := h.rootKeys.1 k hk
  have hle := Value.Key.kind_mono hlow
  have hge := Value.Key.kind_mono hhigh
  rw [hkind p hp] at hle
  rw [hkind q hq] at hge
  exact le_antisymm hge hle

theorem checkKinds_eq (h : RepresentsMulti idx m) (hkind : ∀ p ∈ m, p.1.kind = kind) (v : Value) :
    idx.checkKinds v =
      if ∀ p ∈ m, comparableTo v p.1 = true then .ok () else .error .typeError := by
  have hroot := kind_rootKeys h hkind
  unfold checkKinds
  by_cases hall : ∀ p ∈ m, comparableTo v p.1 = true
  · have hkeys : (idx.node idx.root).keys.all (comparableTo v) = true := by
      rw [List.all_eq_true]
      intro k hk
      obtain ⟨p, hp, -⟩ := h.rootKeys.1 k hk
      rw [comparableTo_congr ((hroot k hk).trans (hkind p hp).symm)]
      exact hall p hp
    rw [if_pos hkeys, if_pos hall]
  · -- a tree with a pair has a key in its root
    have hkeys : ¬ (idx.node idx.root).keys.all (comparableTo v) = true := by
      rw [List.all_eq_true]
      intro hkeys
      refine hall fun p hp => ?_
      have hne : m ≠ 0 := by
        rintro rfl
        exact Multiset.notMem_zero p hp
      obtain ⟨k, hk⟩ := List.exists_mem_of_ne_nil _ (h.rootKeys.2 hne)
      rw [comparableTo_congr ((hkind p hp).trans (hroot k hk).symm)]
      exact hkeys k hk
    rw [if_neg hkeys, if_neg hall]

/-- The scan of the tree below the checks. -/
theorem scan_steps {low : Option Value} {pairs : List (Value.Key × RecordId)}
    {above : Option Value.Key} (hlow : ∀ v ∈ low, v.key.isSome)
    (h : BPlusTree.rangeScan idx (low.bind Value.key) above true true = some pairs) :
    ∃ leaf, startLeaf idx low = some leaf ∧
      idx.scanFrom (BPlusTree.belowLow (low.bind Value.key) true) (BPlusTree.aboveHigh above true)
        idx.fresh (some leaf) = some pairs := by
  unfold BPlusTree.rangeScan at h
  cases low with
  | none =>
    simp only [Option.bind_none, Option.bind_eq_bind, Option.bind_eq_some_iff] at h
    exact h
  | some v =>
    obtain ⟨k, hk⟩ := Option.isSome_iff_exists.mp (hlow v rfl)
    simp only [Option.bind_some, hk, Option.bind_eq_bind, Option.bind_eq_some_iff] at h
    simp only [startLeaf, hk, Option.bind_some]
    exact h

theorem rangeScan_eq {leaf : ℕ} {pairs : List (Value.Key × RecordId)}
    (hcheck : ∀ v ∈ low, idx.checkKinds v = .ok ()) (hleaf : startLeaf idx low = some leaf)
    (hpairs : idx.scanFrom (BPlusTree.belowLow (low.bind Value.key) true) (fun _ => false) idx.fresh
      (some leaf) = some pairs) :
    Index.rangeScan idx low high = match high with
      | none => .ok pairs
      | some v =>
        if pairs.all fun p => comparableTo v p.1 then
          lift (idx.scanFrom (BPlusTree.belowLow (low.bind Value.key) true)
            (BPlusTree.aboveHigh v.key true) idx.fresh (some leaf))
        else .error .typeError := by
  unfold Index.rangeScan
  cases low with
  | none =>
    simp only [hleaf, hpairs, lift, Option.elim_some, ok_bind]
    cases high <;> rfl
  | some v =>
    simp only [hcheck v rfl, hleaf, hpairs, lift, Option.elim_some, ok_bind]
    cases high <;> rfl

/-- The scan without an upper bound. -/
theorem scan_below (low : Option Value) (h : RepresentsMulti idx m)
    (hlow : ∀ v ∈ low, v.key.isSome) :
    ∃ leaf pairs, startLeaf idx low = some leaf ∧
      idx.scanFrom (BPlusTree.belowLow (low.bind Value.key) true) (fun _ => false) idx.fresh
        (some leaf) = some pairs ∧
      (pairs : Multiset (Value.Key × RecordId)) = Multimap.within m (inRange low none) := by
  obtain ⟨pairs, hscan, hpairs⟩ := h.reads.rangeScan (low.bind Value.key) none true true
  obtain ⟨leaf, hleaf, hfrom⟩ := scan_steps hlow hscan
  exact ⟨leaf, pairs, hleaf, hfrom, hpairs⟩

/-- A scan whose bounds can be compared with the keys yields the pairs in the range. -/
theorem rangeScan_ok (h : RepresentsMulti idx m) (hkind : ∀ p ∈ m, p.1.kind = kind)
    (hlow : ∀ v ∈ low, v.key.isSome) (hhigh : ∀ v ∈ high, v.key.isSome)
    (hcompare : ∀ p ∈ m, boundsCompare low high p.1 = true) :
    ∃ pairs, Index.rangeScan idx low high = .ok pairs ∧
      (pairs : Multiset (Value.Key × RecordId)) = Multimap.within m (inRange low high) := by
  obtain ⟨leaf, pairs, hleaf, hfrom, hpairs⟩ := scan_below low h hlow
  have hcheck : ∀ v ∈ low, idx.checkKinds v = .ok () := by
    intro v hv
    obtain rfl : low = some v := hv
    rw [checkKinds_eq h hkind, if_pos]
    intro p hp
    have := hcompare p hp
    simp only [boundsCompare, Option.all_some, Bool.and_eq_true] at this
    exact this.1
  rw [rangeScan_eq hcheck hleaf hfrom]
  cases high with
  | none => exact ⟨pairs, rfl, hpairs⟩
  | some v =>
    have hall : (pairs.all fun p => comparableTo v p.1) = true := by
      rw [List.all_eq_true]
      intro p hp
      have hmem : p ∈ (pairs : Multiset (Value.Key × RecordId)) := hp
      rw [hpairs] at hmem
      have := hcompare p (Multiset.mem_of_mem_filter hmem)
      simp only [boundsCompare, Option.all_some, Bool.and_eq_true] at this
      exact this.2
    obtain ⟨pairs', hscan, hpairs'⟩ := h.reads.rangeScan (low.bind Value.key) v.key true true
    obtain ⟨leaf', hleaf', hfrom'⟩ := scan_steps hlow hscan
    obtain rfl : leaf = leaf' := Option.some.inj (hleaf.symm.trans hleaf')
    refine ⟨pairs', ?_, hpairs'⟩
    simp only [if_pos hall, hfrom']
    rfl

/-- A bound that cannot be compared with the keys raises.  An upper bound is compared with the keys
that are not below the range, so there the range has no lower bound of another kind. -/
theorem rangeScan_error (h : RepresentsMulti idx m) (hkind : ∀ p ∈ m, p.1.kind = kind)
    (hsame : ∀ v ∈ low, ∀ w ∈ high, v = w)
    (hcompare : ∃ p ∈ m, boundsCompare low high p.1 = false) :
    ∃ e, Index.rangeScan idx low high = .error e := by
  obtain ⟨p, hp, hfalse⟩ := hcompare
  cases low with
  | some v =>
    have hraises : idx.checkKinds v = .error .typeError := by
      rw [checkKinds_eq h hkind, if_neg]
      intro hall
      have hhigh : high.all (comparableTo · p.1) = true := by
        cases high with
        | none => rfl
        | some w => rw [Option.all_some, ← hsame v rfl w rfl, hall p hp]
      simp [boundsCompare, hall p hp, hhigh] at hfalse
    refine ⟨.typeError, ?_⟩
    unfold Index.rangeScan
    simp only [hraises]
    rfl
  | none =>
    obtain ⟨leaf, pairs, hleaf, hfrom, hpairs⟩ := scan_below none h (by simp)
    have hmem : p ∈ (pairs : Multiset (Value.Key × RecordId)) := by
      rw [hpairs, Multimap.within, Multiset.mem_filter]
      exact ⟨hp, rfl⟩
    rw [rangeScan_eq (by simp) hleaf hfrom]
    cases high with
    | none => simp [boundsCompare] at hfalse
    | some v =>
      refine ⟨.typeError, if_neg ?_⟩
      rw [List.all_eq_true]
      intro hall
      have := hall p hmem
      simp [boundsCompare, this] at hfalse

/-- The scan of the whole tree, whatever its keys are. -/
theorem rangeScan_whole (h : RepresentsMulti idx m) :
    ∃ pairs, Index.rangeScan idx none none = .ok pairs ∧
      (pairs : Multiset (Value.Key × RecordId)) = Multimap.within m fun _ => true := by
  obtain ⟨leaf, pairs, hleaf, hfrom, hpairs⟩ := scan_below none h (by simp)
  refine ⟨pairs, rangeScan_eq (by simp) hleaf hfrom, ?_⟩
  rw [hpairs]
  rfl

end Index

/-! ## The two scans -/

/-- The key of a row in column `c`. -/
def keyAt (c : ℕ) (row : Row) : Value.Key := (row[c]?.bind Value.key).getD .null

/-- The index lists each live row once under its key, which is not NULL and can be compared with the
others, and the tree finds what it holds. -/
structure IndexConsistent (src : Source) (tableName : String) (table : TableInfo)
    (index : IndexInfo) (idx : Index) (c : ℕ) (live : List (RecordId × Row)) : Prop where
  column : ∃ column, index.columns.head? = some column ∧ table.columnNames[c]? = some column
  keyed : ∀ p ∈ live, keyAt c p.2 ≠ .null
  oneKind : ∀ p ∈ live, ∀ q ∈ live, (keyAt c p.2).kind = (keyAt c q.2).kind
  entries : RepresentsMulti idx (live.map fun p => (keyAt c p.2, p.1) : List (Value.Key × RecordId))
  read : ∀ p ∈ live, src.read tableName p.1 = .ok (some p.2)

/-- The predicate is true of exactly the rows in the range; if a bound cannot be compared with the
keys it raises for some row. -/
def RangeAgrees (py : Py) (columns : List String) (predicate : Expr) (c : ℕ)
    (low high : Option Value) (rows : List Row) : Prop :=
  let test row := evalPredicate py (some predicate) (rowDict columns row)
  if ∀ row ∈ rows, Index.boundsCompare low high (keyAt c row) = true then
    ∀ row ∈ rows, test row = .ok (Index.inRange low high (keyAt c row))
  else ∃ row ∈ rows, (test row).isOk = false

variable {src : Source} {tableName : String} {table : TableInfo} {idx : Index} {c : ℕ}
  {live : List (RecordId × Row)} {index : IndexInfo} {info : PlanInfo} {predicate : Expr}

theorem mapE_read (hread : ∀ p ∈ live, src.read tableName p.1 = .ok (some p.2))
    {l : List (RecordId × Row)} (hl : ∀ p ∈ l, p ∈ live) :
    mapE (src.read tableName) (l.map Prod.fst) = .ok (l.map fun p => some p.2) := by
  induction l with
  | nil => rfl
  | cons p l ih =>
    rw [List.forall_mem_cons] at hl
    rw [List.map_cons, mapE, hread p hl.1, ih hl.2]
    rfl

/-- Reading the records that the index names for some of the live rows. -/
theorem IndexConsistent.readRows (h : IndexConsistent src tableName table index idx c live)
    {pairs : List (Value.Key × RecordId)} {P : Value.Key → Bool}
    (hpairs : (pairs : Multiset (Value.Key × RecordId)) =
      Multimap.within (live.map fun p => (keyAt c p.2, p.1) : List (Value.Key × RecordId)) P) :
    ∃ rows, Query.readRows src tableName (pairs.map Prod.snd) = .ok rows ∧
      rows.Perm ((live.map Prod.snd).filter fun row => P (keyAt c row)) := by
  let chosen := live.filter fun p => P (keyAt c p.2)
  have hchosen : ∀ p ∈ chosen, p ∈ live := fun p hp => (List.mem_filter.mp hp).1
  have hperm : (pairs.map Prod.snd).Perm (chosen.map Prod.fst) := by
    rw [Multimap.within_coe, Multiset.coe_eq_coe, List.filter_map] at hpairs
    have := hpairs.map Prod.snd
    rwa [List.map_map] at this
  have hread := mapE_read h.read hchosen
  rcases mapE_perm hperm.symm with ⟨ys, ys', hys, hys', hperm'⟩ | ⟨hfail, -⟩
  · rw [hread, Except.ok.injEq] at hys
    subst hys
    refine ⟨ys'.filterMap fun row => row.filter (· ≠ []), ?_, ?_⟩
    · rw [Query.readRows, hys']
      rfl
    · -- a row with a key is not empty
      have hnonempty : (chosen.map fun p => some p.2).filterMap (fun row => row.filter (· ≠ [])) =
          chosen.map Prod.snd := by
        rw [List.filterMap_map, ← List.filterMap_eq_map]
        refine List.filterMap_congr fun p hp => ?_
        have hne : p.2 ≠ [] := by
          intro hnil
          refine h.keyed p (hchosen p hp) ?_
          rw [hnil]
          rfl
        simp [hne]
      have := (hperm'.symm.filterMap fun row => row.filter (· ≠ []))
      rw [hnonempty] at this
      rwa [List.filter_map]
  · rw [hread] at hfail
    cases hfail

theorem IndexConsistent.kinds (h : IndexConsistent src tableName table index idx c live) :
    ∃ kind, ∀ p ∈ (live.map fun p => (keyAt c p.2, p.1) : List (Value.Key × RecordId)),
      p.1.kind = kind := by
  cases live with
  | nil => exact ⟨0, fun p hp => by cases hp⟩
  | cons q rest =>
    refine ⟨(keyAt c q.2).kind, fun p hp => ?_⟩
    obtain ⟨r, hr, rfl⟩ := List.mem_map.mp hp
    exact h.oneKind r hr q List.mem_cons_self

/-- The bounds are the literal of the predicate. -/
theorem extractScanRange_bounds {low high : Option Value}
    (h : extractScanRange predicate = some (low, high)) :
    ∃ op left value, predicate = .binaryOp op left (.literal value) ∧
      (∀ v ∈ low, v = value) ∧ ∀ v ∈ high, v = value := by
  cases predicate with
  | binaryOp op left right =>
    cases right with
    | literal value =>
      refine ⟨op, left, value, rfl, ?_⟩
      cases hnull : value.isNull <;> cases op <;> simp [extractScanRange, hnull] at h
      all_goals
        obtain ⟨rfl, rfl⟩ := h
        simp
    | _ => cases h
  | _ => cases h

section

variable {py : Py}

theorem execSeqScan_eq (htable : src.catalog.getTable (info.tableName.getD "") = some table)
    (hscan : src.scan (info.tableName.getD "") = .ok live)
    (hpredicate : info.predicate = some predicate) :
    execSeqScan py src info =
      (filterE (fun row => evalPredicate py (some predicate) (rowDict table.columnNames row))
        (live.map Prod.snd)).map fun rows => { columns := table.columnNames, rows } := by
  unfold execSeqScan
  simp only [htable, hscan, hpredicate, ok_bind]
  cases filterE (fun row => evalPredicate py (some predicate) (rowDict table.columnNames row))
    (live.map Prod.snd) <;> rfl

/-- A scan of the whole index tests the predicate on each row. -/
theorem sameRows_wholeScan (htable : src.catalog.getTable (info.tableName.getD "") = some table)
    (hidx : src.indexes.get? index.name = some idx)
    (hscan : src.scan (info.tableName.getD "") = .ok live)
    (hpredicate : info.predicate = some predicate)
    (h : IndexConsistent src (info.tableName.getD "") table index idx c live)
    (hrange : extractScanRange predicate = none) :
    SameRows (execIndexScan py src (toIndexScan info index predicate))
      (execSeqScan py src info) := by
  obtain ⟨pairs, hpairs, hmem⟩ := Index.rangeScan_whole h.entries
  obtain ⟨rows, hrows, hperm⟩ := h.readRows hmem
  rw [List.filter_true] at hperm
  have hrun : execIndexScan py src (toIndexScan info index predicate) =
      (filterE (fun row => evalPredicate py (some predicate) (rowDict table.columnNames row))
        rows).map fun rows => { columns := table.columnNames, rows } := by
    unfold execIndexScan
    simp only [toIndexScan, htable, Option.getD_some, hidx, hrange, hpairs, ok_bind, hrows,
      hpredicate]
    cases filterE (fun row => evalPredicate py (some predicate) (rowDict table.columnNames row))
      rows <;> rfl
  rw [hrun, execSeqScan_eq htable hscan hpredicate]
  rcases filterE_perm (p := fun row => evalPredicate py (some predicate)
    (rowDict table.columnNames row)) hperm with ⟨ys, ys', hys, hys', hsame⟩ | ⟨hleft, hright⟩
  · rw [hys, hys']
    exact ⟨rfl, hsame⟩
  · obtain ⟨e, he⟩ := exists_error_of_isOk hleft
    obtain ⟨e', he'⟩ := exists_error_of_isOk hright
    rw [he, he']
    trivial

/-- A scan of a range gives the rows in the range, or raises where a bound cannot be compared. -/
theorem execIndexScan_range (py : Py)
    (htable : src.catalog.getTable (info.tableName.getD "") = some table)
    (hidx : src.indexes.get? index.name = some idx)
    (h : IndexConsistent src (info.tableName.getD "") table index idx c live)
    {low high : Option Value} (hrange : extractScanRange predicate = some (low, high))
    (hkeys : ∀ v, v ∈ low ∨ v ∈ high → v.key.isSome = true) :
    if ∀ row ∈ live.map Prod.snd, Index.boundsCompare low high (keyAt c row) = true then
      ∃ rows, execIndexScan py src (toIndexScan info index predicate) =
          .ok { columns := table.columnNames, rows } ∧
        rows.Perm ((live.map Prod.snd).filter fun row => Index.inRange low high (keyAt c row))
    else ∃ e, execIndexScan py src (toIndexScan info index predicate) = .error e := by
  obtain ⟨kind, hkind⟩ := h.kinds
  have hrun : execIndexScan py src (toIndexScan info index predicate) = (do
      let rows ← readRows src (info.tableName.getD "") ((← idx.rangeScan low high).map Prod.snd)
      return { columns := table.columnNames, rows }) := by
    unfold execIndexScan
    simp only [toIndexScan, htable, Option.getD_some, hidx, hrange]
  rw [hrun]
  split
  case isTrue hall =>
    have hcompare : ∀ p ∈ (live.map fun p => (keyAt c p.2, p.1) :
        List (Value.Key × RecordId)), Index.boundsCompare low high p.1 = true := by
      intro p hp
      obtain ⟨q, hq, rfl⟩ := List.mem_map.mp hp
      exact hall q.2 (List.mem_map_of_mem hq)
    obtain ⟨pairs, hpairs, hmem⟩ := Index.rangeScan_ok h.entries hkind
      (fun v hv => hkeys v (.inl hv)) (fun v hv => hkeys v (.inr hv)) hcompare
    obtain ⟨rows, hrows, hperm⟩ := h.readRows hmem
    refine ⟨rows, ?_, hperm⟩
    simp only [hpairs, ok_bind, hrows]
    rfl
  case isFalse hsome =>
    push Not at hsome
    obtain ⟨row, hrow, hfalse⟩ := hsome
    obtain ⟨q, hq, rfl⟩ := List.mem_map.mp hrow
    obtain ⟨op, left, value, -, hlow, hhigh⟩ := extractScanRange_bounds hrange
    have hsame : ∀ v ∈ low, ∀ w ∈ high, v = w := by
      intro v hv w hw
      rw [hlow v hv, hhigh w hw]
    obtain ⟨e, he⟩ := Index.rangeScan_error h.entries hkind hsame
      ⟨_, List.mem_map_of_mem (f := fun p : RecordId × Row => (keyAt c p.2, p.1)) hq,
        by simpa using hfalse⟩
    refine ⟨e, ?_⟩
    simp only [he]
    rfl

theorem sameRows_rangeScan_iff
    (htable : src.catalog.getTable (info.tableName.getD "") = some table)
    (hidx : src.indexes.get? index.name = some idx)
    (hscan : src.scan (info.tableName.getD "") = .ok live)
    (hpredicate : info.predicate = some predicate)
    (h : IndexConsistent src (info.tableName.getD "") table index idx c live)
    {low high : Option Value} (hrange : extractScanRange predicate = some (low, high))
    (hkeys : ∀ v, v ∈ low ∨ v ∈ high → v.key.isSome = true) :
    SameRows (execIndexScan py src (toIndexScan info index predicate)) (execSeqScan py src info) ↔
      RangeAgrees py table.columnNames predicate c low high (live.map Prod.snd) := by
  have hindex := execIndexScan_range py htable hidx h hrange hkeys
  rw [execSeqScan_eq htable hscan hpredicate]
  unfold RangeAgrees
  split at hindex
  case isTrue hall =>
    obtain ⟨rows, hrows, hperm⟩ := hindex
    simp only [if_pos hall]
    rw [hrows, ← filterE_perm_filter_iff]
    constructor
    · intro hsame
      cases hfilter : filterE (fun row => evalPredicate py (some predicate)
          (rowDict table.columnNames row)) (live.map Prod.snd) with
      | error e =>
        rw [hfilter] at hsame
        exact hsame.elim
      | ok kept =>
        rw [hfilter] at hsame
        exact ⟨kept, rfl, hperm.symm.trans hsame.2⟩
    · rintro ⟨kept, hkept, hsame⟩
      rw [hkept]
      exact ⟨rfl, hperm.trans hsame⟩
  case isFalse hsome =>
    obtain ⟨e, he⟩ := hindex
    simp only [if_neg hsome]
    rw [he]
    constructor
    · intro hsame
      by_contra hnone
      push Not at hnone
      have hok : (filterE (fun row => evalPredicate py (some predicate)
          (rowDict table.columnNames row)) (live.map Prod.snd)).isOk = true :=
        filterE_isOk.mpr fun row hrow => by simpa using hnone row hrow
      obtain ⟨kept, hkept⟩ := exists_ok_of_isOk hok
      rw [hkept] at hsame
      exact hsame
    · rintro ⟨row, hrow, hraises⟩
      have hfalse : (filterE (fun row => evalPredicate py (some predicate)
          (rowDict table.columnNames row)) (live.map Prod.snd)).isOk = false := by
        rw [Bool.eq_false_iff]
        intro hok
        rw [filterE_isOk.mp hok row hrow] at hraises
        cases hraises
      obtain ⟨e', he'⟩ := exists_error_of_isOk hfalse
      rw [he']
      trivial

end

/-- The index scan that replaces a sequential scan gives its rows exactly if no range is taken from
the predicate, or the predicate is the test for that range. -/
theorem indexScan_sameRows_iff {py : Py} {tableName : String}
    (hname : info.tableName = some tableName) (hpredicate : info.predicate = some predicate)
    (_ : findApplicableIndex src.catalog tableName predicate = some index)
    (htable : src.catalog.getTable tableName = some table)
    (hscan : src.scan tableName = .ok live) (hidx : src.indexes.get? index.name = some idx)
    (h : IndexConsistent src tableName table index idx c live)
    -- no text of a literal denotes NaN
    (hliteral : ∀ op left value, predicate = .binaryOp op left (.literal value) →
      value.key.isSome = true) :
    SameRows (execIndexScan py src (toIndexScan info index predicate)) (execSeqScan py src info) ↔
      ∀ low high, extractScanRange predicate = some (low, high) →
        RangeAgrees py table.columnNames predicate c low high (live.map Prod.snd) := by
  obtain rfl : info.tableName.getD "" = tableName := by
    rw [hname]
    rfl
  cases hrange : extractScanRange predicate with
  | none =>
    refine iff_of_true (sameRows_wholeScan htable hidx hscan hpredicate h hrange) ?_
    intro low high hsome
    cases hsome
  | some range =>
    obtain ⟨low, high⟩ := range
    obtain ⟨op, left, value, hop, hlow, hhigh⟩ := extractScanRange_bounds hrange
    have hkeys : ∀ v, v ∈ low ∨ v ∈ high → v.key.isSome = true := by
      rintro v (hv | hv)
      · rw [hlow v hv]
        exact hliteral op left value hop
      · rw [hhigh v hv]
        exact hliteral op left value hop
    rw [sameRows_rangeScan_iff htable hidx hscan hpredicate h hrange hkeys]
    constructor
    · intro hagrees low' high' hsome
      cases hsome
      exact hagrees
    · intro hagrees
      exact hagrees low high rfl

/-! ## Comparisons of the column -/

/-- What a comparison with a literal says of a key. -/
def keyTest (op : BinaryOpType) (bound key : Value.Key) : Bool :=
  match op with
  | .eq => key = bound
  | .lt => key < bound
  | .lte => key ≤ bound
  | .gt => bound < key
  | .gte => bound ≤ key
  | _ => false

theorem isNull_of_key {v : Value} {x : Value.Key} (h : v.key = some x) (hx : x ≠ .null) :
    v.isNull = false := by
  cases v with
  | null => exact absurd (Option.some.inj h).symm hx
  | _ => rfl

theorem comparison_keys {op : BinaryOpType} (hop : op ∈ [.eq, .lt, .lte, .gt, .gte]) {a b : Value}
    {x y : Value.Key} (ha : a.key = some x) (hb : b.key = some y) (h : x.comparable y = true) :
    comparison op a b = some (keyTest op y x) := by
  have hkind : x.kind = y.kind ∧ x.kind ≠ 0 := by simpa [Value.Key.comparable] using h
  have hx : x ≠ .null := by
    rintro rfl
    exact hkind.2 rfl
  have hy : y ≠ .null := by
    rintro rfl
    exact hkind.2 hkind.1
  have horder := Value.order_of_keys ha hb h
  generalize hcmp : cmp x y = o at horder
  unfold comparison
  simp only [isNull_of_key ha hx, isNull_of_key hb hy, Value.compare, horder, Value.eq, ha, hb]
  fin_cases hop
  · rfl
  all_goals
    rcases lt_trichotomy x y with hlt | rfl | hgt
    · obtain rfl : Ordering.lt = o := ((cmp_eq_lt_iff x y).mpr hlt).symm.trans hcmp
      simp [keyTest, hlt, hlt.le, hlt.not_ge, hlt.not_gt, Value.CompareOp.holds, Except.map,
        Except.toOption]
    · obtain rfl : Ordering.eq = o := (cmp_self_eq_eq x).symm.trans hcmp
      simp [keyTest, Value.CompareOp.holds, Except.map, Except.toOption]
    · obtain rfl : Ordering.gt = o := ((cmp_eq_gt_iff x y).mpr hgt).symm.trans hcmp
      simp [keyTest, hgt, hgt.le, hgt.not_ge, hgt.not_gt, Value.CompareOp.holds, Except.map,
        Except.toOption]

theorem inRange_comparison {op : BinaryOpType} {left : Expr} {value : Value} {bound : Value.Key}
    (hkey : value.key = some bound) (hbound : bound ≠ .null) {low high : Option Value}
    (h : extractScanRange (.binaryOp op left (.literal value)) = some (low, high)) :
    op ∈ [.eq, .lt, .lte, .gt, .gte] ∧
      (∀ key : Value.Key, key.comparable bound = true → Index.boundsCompare low high key = true) ∧
      ∀ key, Index.inRange low high key =
        (keyTest op bound key || decide (op ≠ .eq ∧ key = bound)) := by
  have hnull := isNull_of_key hkey hbound
  have hsymm : ∀ key : Value.Key, key.comparable bound = true →
      Index.comparableTo value key = true := by
    intro key hcomparable
    have hkind : key.kind = bound.kind ∧ key.kind ≠ 0 := by
      simpa [Value.Key.comparable] using hcomparable
    simp [Index.comparableTo, hkey, Value.Key.comparable, hkind.1.symm, hkind.2]
  cases op <;> simp [extractScanRange, hnull] at h
  all_goals
    obtain ⟨rfl, rfl⟩ := h
    refine ⟨by decide, fun key hcomparable => by simp [Index.boundsCompare, hsymm key hcomparable],
      fun key => ?_⟩
    rw [Bool.eq_iff_iff]
    simp only [Index.inRange, inBounds, hkey, keyTest, Option.bind_some, Option.bind_none, if_true,
      Bool.and_true, Bool.true_and, Bool.and_eq_true, Bool.or_eq_true, decide_eq_true_eq]
    grind

/-- A comparison of the column itself on a row whose key is of the kind of the literal. -/
theorem evalPredicate_comparison {py : Py} {columns : List String} {column : String}
    {op : BinaryOpType} {value : Value} {bound : Value.Key} {row : Row} (hnodup : columns.Nodup)
    (hcolumn : columns[c]? = some column) (hop : op ∈ [.eq, .lt, .lte, .gt, .gte])
    (hkey : value.key = some bound) (hcomparable : (keyAt c row).comparable bound = true) :
    evalPredicate py (some (.binaryOp op (.columnRef none column) (.literal value)))
      (rowDict columns row) = .ok (keyTest op bound (keyAt c row)) := by
  have hne : keyAt c row ≠ .null := by
    intro hnull
    rw [hnull] at hcomparable
    simp [Value.Key.comparable, Value.Key.kind] at hcomparable
  -- the row has a value with that key in the column
  obtain ⟨v, hv, hvkey⟩ : ∃ v, row[c]? = some v ∧ v.key = some (keyAt c row) := by
    unfold keyAt at hne ⊢
    cases hv : row[c]? with
    | none => simp [hv] at hne
    | some v =>
      cases hk : v.key with
      | none => simp [hv, hk] at hne
      | some k => exact ⟨v, rfl, by simp [hk]⟩
  have hvalue : columnValue py (rowDict columns row) none column = v := by
    simp [columnValue, get?_rowDict hnodup hcolumn hv]
  have hisComparison : op.isComparison = true := by
    fin_cases hop <;> rfl
  simp only [evalPredicate, evalExpr, hvalue, ok_bind, evalBinaryOp_comparison hisComparison,
    comparison_keys hop hvkey hkey hcomparable]
  rfl

/-- A comparison of the column itself with a literal of its type is the test for its range, unless
it is strict and some row has the literal in the column. -/
theorem rangeAgrees_comparison_iff {py : Py} {columns : List String} {column : String}
    {op : BinaryOpType} {value : Value} {bound : Value.Key} {rows : List Row}
    {low high : Option Value}
    (hnodup : columns.Nodup) (hcolumn : columns[c]? = some column) (hkey : value.key = some bound)
    (hbound : bound ≠ .null) (hcomparable : ∀ row ∈ rows, (keyAt c row).comparable bound = true)
    (hrange : extractScanRange (.binaryOp op (.columnRef none column) (.literal value)) =
      some (low, high)) :
    RangeAgrees py columns (.binaryOp op (.columnRef none column) (.literal value)) c low high
        rows ↔
      (op ∈ [.lt, .gt] → ∀ row ∈ rows, keyAt c row ≠ bound) := by
  obtain ⟨hop, hcompare, hin⟩ := inRange_comparison hkey hbound hrange
  have hall : ∀ row ∈ rows, Index.boundsCompare low high (keyAt c row) = true :=
    fun row hrow => hcompare _ (hcomparable row hrow)
  -- a closed range holds the literal itself, which only a strict comparison leaves out
  have hkeys : ∀ key : Value.Key, keyTest op bound key = Index.inRange low high key ↔
      (op ∈ [.lt, .gt] → key ≠ bound) := by
    intro key
    rw [hin, Bool.eq_iff_iff]
    fin_cases hop <;> simp [keyTest]
    all_goals grind
  have htest : ∀ row ∈ rows,
      (evalPredicate py (some (.binaryOp op (.columnRef none column) (.literal value)))
        (rowDict columns row) = .ok (Index.inRange low high (keyAt c row)) ↔
      (op ∈ [.lt, .gt] → keyAt c row ≠ bound)) := by
    intro row hrow
    rw [evalPredicate_comparison hnodup hcolumn hop hkey (hcomparable row hrow), Except.ok.injEq,
      hkeys]
  simp only [RangeAgrees, if_pos hall]
  constructor
  · intro h hstrict row hrow
    exact (htest row hrow).mp (h row hrow) hstrict
  · intro h row hrow
    exact (htest row hrow).mpr fun hstrict => h hstrict row hrow

/-! ## One row -/

/-- An index with one pair. -/
def oneKey (key : Value.Key) (rid : RecordId) : Index :=
  (BPlusTree.insert Index.new key rid).getD Index.new

theorem oneKey_represents (key : Value.Key) (rid : RecordId) :
    RepresentsMulti (oneKey key rid) {(key, rid)} := by
  have hspec : ∃ t : Index, BPlusTree.new 64 = some t ∧ t.order = 64 ∧
      Represents t SortedMap.empty := new_spec (by decide)
  obtain ⟨t₀, hnew, -, h₀⟩ := hspec
  obtain ⟨F, hstores, hord, hm⟩ := h₀.stores
  have hmulti : RepresentsMulti t₀ 0 :=
    ⟨h₀.sized, F, hstores, hord.separated, by rw [← hm]; rfl⟩
  obtain rfl : Index.new = t₀ := Option.some.inj hnew
  have hclean : Clean Index.new (.insert key rid) := by
    intro leaf hleaf
    obtain rfl : 0 = leaf := Option.some.inj hleaf
    intro hfull
    change 64 - 1 < 1 at hfull
    omega
  obtain ⟨t', result, m', hcall, hstep, hrep⟩ := hmulti.call (.insert key rid) hclean
  obtain ⟨-, rfl⟩ := hstep.of_insert
  have hinsert : BPlusTree.insert Index.new key rid = some t' := by
    rw [BPlusTree.multiCall] at hcall
    obtain ⟨t, ht, hpair⟩ := Option.map_eq_some_iff.mp hcall
    rw [ht, (Prod.mk.inj hpair).1]
  rw [oneKey, hinsert]
  exact hrep

/-- A table `t(a)` with one row and an index on it. -/
def indexedRow (n : ℤ) : Source where
  catalog := {
    tables := Dict.empty.set "t" { name := "t", columns := [⟨"a", "INTEGER", []⟩] }
    indexes := Dict.empty.set "i" { name := "i", tableName := "t", columns := ["a"] } }
  scan _ := .ok [(⟨0, 0⟩, [.int n])]
  read _ _ := .ok (some [.int n])
  indexes := Dict.empty.set "i" (oneKey (.num (.ofRat n)) ⟨0, 0⟩)
  width := by
    intro name table live htable hlive p hp
    cases hlive
    rw [List.mem_singleton] at hp
    obtain ⟨-, rfl⟩ | ⟨-, hnone⟩ := Dict.get?_set_cases htable
    · rw [hp]
      rfl
    · cases hnone

/-- `a op n` -/
def compareWith (op : BinaryOpType) (n : ℤ) : Expr :=
  .binaryOp op (.columnRef none "a") (.literal (.int n))

/-- The sequential scan of the table, for a predicate. -/
def scanFor (predicate : Expr) : PlanInfo where
  type := .seqScan
  tableName := some "t"
  predicate := some predicate

theorem indexedRow_consistent (n : ℤ) :
    IndexConsistent (indexedRow n) "t" { name := "t", columns := [⟨"a", "INTEGER", []⟩] }
      { name := "i", tableName := "t", columns := ["a"] } (oneKey (.num (.ofRat n)) ⟨0, 0⟩) 0
      [(⟨0, 0⟩, [.int n])] where
  column := ⟨"a", rfl, rfl⟩
  keyed := by
    intro p hp
    obtain rfl := List.mem_singleton.mp hp
    exact Value.Key.noConfusion
  oneKind := by
    intro p hp q hq
    obtain rfl := List.mem_singleton.mp hp
    obtain rfl := List.mem_singleton.mp hq
    rfl
  entries := oneKey_represents _ _
  read := by
    intro p hp
    obtain rfl := List.mem_singleton.mp hp
    rfl

theorem indexScan_sameRows_iff_oneRow :
    SameRows
      (execIndexScan .ascii (indexedRow 5) (toIndexScan (scanFor (compareWith .gte 5))
        { name := "i", tableName := "t", columns := ["a"] } (compareWith .gte 5)))
      (execSeqScan .ascii (indexedRow 5) (scanFor (compareWith .gte 5))) ↔
    ∀ low high, extractScanRange (compareWith .gte 5) = some (low, high) →
      RangeAgrees .ascii ["a"] (compareWith .gte 5) 0 low high [[.int 5]] := by
  have hscan : (indexedRow 5).scan "t" = .ok [(⟨0, 0⟩, [.int 5])] := rfl
  have htable : (indexedRow 5).catalog.getTable "t" =
      some { name := "t", columns := [⟨"a", "INTEGER", []⟩] } := by
    decide +kernel
  refine indexScan_sameRows_iff rfl rfl (by decide +kernel) htable hscan
    (Dict.get?_set_self _ _ _) (indexedRow_consistent 5) ?_
  intro op left value hop
  cases hop
  rfl

/-- `a > 5` finds the row with 5 in the index. -/
theorem strictBound_indexScan : ¬∀ (py : Py) (src : Source) (table : TableInfo) (index : IndexInfo)
    (idx : Index) (c : ℕ) (live : List (RecordId × Row)) (info : PlanInfo) (predicate : Expr)
    (tableName : String), info.tableName = some tableName → info.predicate = some predicate →
    findApplicableIndex src.catalog tableName predicate = some index →
    src.catalog.getTable tableName = some table → src.scan tableName = .ok live →
    src.indexes.get? index.name = some idx →
    IndexConsistent src tableName table index idx c live →
    SameRows (execIndexScan py src (toIndexScan info index predicate))
      (execSeqScan py src info) := by
  intro h
  have hsame := h .ascii (indexedRow 5) { name := "t", columns := [⟨"a", "INTEGER", []⟩] }
    { name := "i", tableName := "t", columns := ["a"] } _ 0 _ (scanFor (compareWith .gt 5))
    (compareWith .gt 5) "t" rfl rfl (by decide +kernel) (by decide +kernel) rfl
    (Dict.get?_set_self _ _ _) (indexedRow_consistent 5)
  have hindex : (execIndexScan .ascii (indexedRow 5) (toIndexScan (scanFor (compareWith .gt 5))
      { name := "i", tableName := "t", columns := ["a"] } (compareWith .gt 5))).map
        QueryResult.rows = .ok [[.int 5]] := by
    decide +kernel
  have hseq : (execSeqScan .ascii (indexedRow 5) (scanFor (compareWith .gt 5))).map
      QueryResult.rows = .ok [] := by
    decide +kernel
  cases hl : execIndexScan .ascii (indexedRow 5) (toIndexScan (scanFor (compareWith .gt 5))
      { name := "i", tableName := "t", columns := ["a"] } (compareWith .gt 5)) with
  | error e =>
    rw [hl] at hindex
    cases hindex
  | ok l =>
    cases hr : execSeqScan .ascii (indexedRow 5) (scanFor (compareWith .gt 5)) with
    | error e =>
      rw [hr] at hseq
      cases hseq
    | ok r =>
      rw [hl] at hindex hsame
      rw [hr] at hseq hsame
      have hrows := hsame.2
      rw [show l.rows = [[.int 5]] from Except.ok.inj hindex,
        show r.rows = [] from Except.ok.inj hseq] at hrows
      exact absurd hrows.length_eq (by decide)

end PySQL.Query
