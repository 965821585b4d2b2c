import PySQL.Query.Pushdown

/-!
# The passes of the optimizer

The pushdown and the new estimates of the costs raise on no plan whose estimates can be scaled; the
index selection may raise on the scans that it turns into index scans.
-/

namespace PySQL.Query

open Lib

/-! ## Pushdown -/

theorem pushdownPredicates_other {info : PlanInfo} {children : List PlanNode}
    (h : ∀ child, info.type = .filter → children ≠ [child]) :
    pushdownPredicates (.mk info children) = (do return .mk info (← pushdownAll children)) := by
  rw [pushdownPredicates.eq_def]
  dsimp only
  split
  · next child grandchildren htype => exact absurd rfl (h _ htype)
  · rfl

theorem pushdownPredicates_filter {info child : PlanInfo} {grandchildren : List PlanNode}
    (h : info.type = .filter) :
    pushdownPredicates (.mk info [.mk child grandchildren]) =
      if child.type = .seqScan ∧ child.predicate.isNone then do
        let estimatedRows ← scaled child.estimatedRows (33 / 100)
        return .mk { child with predicate := info.predicate, estimatedRows } grandchildren
      else do
        let pushed ←
          if child.type.isJoin then tryPushToJoin info.predicate grandchildren else .ok none
        match pushed with
        | some pushed => return .mk child pushed
        | none => return .mk info [← pushdownPredicates (.mk child grandchildren)] := by
  rw [pushdownPredicates.eq_def]
  simp only [h]
  split
  · rfl
  · split
    · cases hp : tryPushToJoin info.predicate grandchildren with
      | error e => rfl
      | ok pushed =>
        cases pushed with
        | none => 
          simp only [pushdownAll]
          cases pushdownPredicates (.mk child grandchildren) <;> rfl
        | some pushed => rfl
    · simp only [pushdownAll]
      cases pushdownPredicates (.mk child grandchildren) <;> rfl
mutual

/-- The estimates of all nodes can be scaled. -/
def Scales : PlanNode → Prop
  | .mk info children => Scalable info.estimatedRows ∧ ScalesAll children

def ScalesAll : List PlanNode → Prop
  | [] => True
  | c :: cs => Scales c ∧ ScalesAll cs

end

theorem Scales.scalable {node : PlanNode} (h : Scales node) : Scalable node.info.estimatedRows := by
  obtain ⟨info, children⟩ := node
  rw [Scales] at h
  exact h.1

theorem scales_filterNode {node : PlanNode} (h : Scales node) (predicate : Option Expr)
    (x cost : PyFloat) : Scales (filterNode predicate (.float x, cost) node) := by
  rw [filterNode, Scales, ScalesAll, ScalesAll]
  exact ⟨scalable_float x, h, trivial⟩

theorem pushToChild_scales (predicate : Expr) (table : String) : ∀ {children : List PlanNode},
    ScalesAll children → ∃ pushed, pushToChild predicate table children = .ok pushed ∧
      ∀ children' ∈ pushed, ScalesAll children'
  | [], _ => ⟨none, rfl, fun _ h => nomatch h⟩
  | child :: rest, h => by
    rw [ScalesAll] at h
    rw [pushToChild]
    split
    · obtain ⟨x, cost, hfilter⟩ := planFilter_some h.1.scalable predicate (33 / 100)
      rw [hfilter]
      refine ⟨_, rfl, fun children' hmem => ?_⟩
      obtain rfl := Option.some.inj hmem
      rw [ScalesAll]
      exact ⟨scales_filterNode h.1 _ _ _, h.2⟩
    · obtain ⟨pushed, hpushed, hall⟩ := pushToChild_scales predicate table h.2
      rw [hpushed]
      refine ⟨_, rfl, fun children' hmem => ?_⟩
      obtain ⟨rest', hrest, rfl⟩ := Option.map_eq_some_iff.mp hmem
      rw [ScalesAll]
      exact ⟨h.1, hall _ hrest⟩

theorem tryPushToJoin_scales (predicate : Option Expr) {children : List PlanNode}
    (h : ScalesAll children) : ∃ pushed, tryPushToJoin predicate children = .ok pushed ∧
      ∀ children' ∈ pushed, ScalesAll children' := by
  unfold tryPushToJoin
  split
  · split
    · exact pushToChild_scales _ _ h
    · exact ⟨none, rfl, fun _ h => nomatch h⟩
  · exact ⟨none, rfl, fun _ h => nomatch h⟩

mutual

theorem pushdownPredicates_scales : ∀ {node : PlanNode}, Scales node →
    ∃ node', pushdownPredicates node = .ok node' ∧ Scales node'
  | .mk info children, h => by
    obtain ⟨children', hchildren, hscales⟩ : ∃ children', pushdownAll children = .ok children' ∧
        ScalesAll children' := by
      rw [Scales] at h
      exact pushdownAll_scales h.2
    rw [Scales] at h
    have hother : pushdownPredicates (.mk info children) =
        (do return .mk info (← pushdownAll children)) →
        ∃ node', pushdownPredicates (.mk info children) = .ok node' ∧ Scales node' := by
      intro heq
      rw [heq, hchildren]
      refine ⟨_, rfl, ?_⟩
      rw [Scales]
      exact ⟨h.1, hscales⟩
    by_cases hfilter : info.type = .filter
    · rcases children with _ | ⟨⟨child, grandchildren⟩, _ | ⟨second, rest⟩⟩
      · exact hother (pushdownPredicates_other fun _ _ hnil => nomatch hnil)
      · have hchild := h.2
        rw [ScalesAll] at hchild
        obtain ⟨node, hnode, hnodeScales⟩ := pushdownPredicates_scales hchild.1
        have hparts := hchild.1
        rw [Scales] at hparts
        rw [pushdownPredicates_filter hfilter, hnode]
        split
        · obtain ⟨x, hx⟩ := hparts.1 (33 / 100)
          rw [hx]
          refine ⟨_, rfl, ?_⟩
          rw [Scales]
          exact ⟨scalable_float x, hparts.2⟩
        · obtain ⟨pushed, hpushed, hall⟩ := tryPushToJoin_scales info.predicate hparts.2
          have hkept : Scales (.mk info [node]) := by
            rw [Scales, ScalesAll, ScalesAll]
            exact ⟨h.1, hnodeScales, trivial⟩
          split
          · rw [hpushed]
            cases pushed with
            | none => exact ⟨_, rfl, hkept⟩
            | some children' =>
              refine ⟨_, rfl, ?_⟩
              rw [Scales]
              exact ⟨hparts.1, hall children' rfl⟩
          · exact ⟨_, rfl, hkept⟩
      · exact hother (pushdownPredicates_other fun _ _ htwo => nomatch htwo)
    · exact hother (pushdownPredicates_other fun _ heq => absurd heq hfilter)

theorem pushdownAll_scales : ∀ {children : List PlanNode}, ScalesAll children →
    ∃ children', pushdownAll children = .ok children' ∧ ScalesAll children'
  | [], h => ⟨[], rfl, h⟩
  | c :: cs, h => by
    rw [ScalesAll] at h
    obtain ⟨c', hc, hscales⟩ := pushdownPredicates_scales h.1
    obtain ⟨cs', hcs, hall⟩ := pushdownAll_scales h.2
    refine ⟨c' :: cs', ?_, ?_⟩
    · rw [pushdownAll, hc, ok_bind, hcs]
      rfl
    · rw [ScalesAll]
      exact ⟨hscales, hall⟩

end

/-! ## Index selection -/

theorem selectIndex_estimatedRows {catalog : Catalog} {info info' : PlanInfo}
    (h : selectIndex catalog info = .ok info') : info'.estimatedRows = info.estimatedRows := by
  unfold selectIndex at h
  split at h
  · split at h
    · obtain rfl := Except.ok.inj h
      rfl
    · obtain ⟨bits, -, h⟩ := bind_eq_ok h
      obtain rfl := Except.ok.inj h
      rfl
  · obtain rfl := Except.ok.inj h
    rfl

mutual

/-- The index selection raises on none of the nodes. -/
def Selectable (catalog : Catalog) : PlanNode → Prop
  | .mk info children => (selectIndex catalog info).isOk = true ∧ SelectableAll catalog children

def SelectableAll (catalog : Catalog) : List PlanNode → Prop
  | [] => True
  | c :: cs => Selectable catalog c ∧ SelectableAll catalog cs

end

mutual

theorem selectIndexes_isOk (catalog : Catalog) : ∀ node : PlanNode,
    (selectIndexes catalog node).isOk = true ↔ Selectable catalog node
  | .mk info children => by
    rw [selectIndexes, Selectable, ← selectIndexesAll_isOk catalog children, bind_isOk, isOk_iff]
    constructor
    · rintro ⟨info', hinfo, hok⟩
      obtain ⟨children', hchildren, -⟩ := bind_isOk.mp hok
      exact ⟨⟨info', hinfo⟩, isOk_iff.mpr ⟨children', hchildren⟩⟩
    · rintro ⟨⟨info', hinfo⟩, hok⟩
      obtain ⟨children', hchildren⟩ := isOk_iff.mp hok
      exact ⟨info', hinfo, bind_isOk.mpr ⟨children', hchildren, rfl⟩⟩

theorem selectIndexesAll_isOk (catalog : Catalog) : ∀ children : List PlanNode,
    (selectIndexesAll catalog children).isOk = true ↔ SelectableAll catalog children
  | [] => by
    rw [selectIndexesAll, SelectableAll]
    exact iff_of_true rfl trivial
  | c :: cs => by
    rw [selectIndexesAll, SelectableAll, ← selectIndexes_isOk catalog c,
      ← selectIndexesAll_isOk catalog cs, bind_isOk, isOk_iff]
    constructor
    · rintro ⟨c', hc, hok⟩
      obtain ⟨cs', hcs, -⟩ := bind_isOk.mp hok
      exact ⟨⟨c', hc⟩, isOk_iff.mpr ⟨cs', hcs⟩⟩
    · rintro ⟨⟨c', hc⟩, hok⟩
      obtain ⟨cs', hcs⟩ := isOk_iff.mp hok
      exact ⟨c', hc, bind_isOk.mpr ⟨cs', hcs, rfl⟩⟩

end

mutual

theorem selectIndexes_scales {catalog : Catalog} : ∀ {node node' : PlanNode}, Scales node →
    selectIndexes catalog node = .ok node' → Scales node'
  | .mk info children, node', h, hselect => by
    rw [selectIndexes] at hselect
    obtain ⟨info', hinfo, hselect⟩ := bind_eq_ok hselect
    obtain ⟨children', hchildren, hselect⟩ := bind_eq_ok hselect
    obtain rfl := Except.ok.inj hselect
    rw [Scales] at h ⊢
    rw [selectIndex_estimatedRows hinfo]
    exact ⟨h.1, selectIndexesAll_scales h.2 hchildren⟩

theorem selectIndexesAll_scales {catalog : Catalog} : ∀ {children children' : List PlanNode},
    ScalesAll children → selectIndexesAll catalog children = .ok children' → ScalesAll children'
  | [], children', h, hselect => by
    obtain rfl := Except.ok.inj hselect
    exact h
  | c :: cs, children', h, hselect => by
    rw [selectIndexesAll] at hselect
    obtain ⟨c', hc, hselect⟩ := bind_eq_ok hselect
    obtain ⟨cs', hcs, hselect⟩ := bind_eq_ok hselect
    obtain rfl := Except.ok.inj hselect
    rw [ScalesAll] at h ⊢
    exact ⟨selectIndexes_scales h.1 hc, selectIndexesAll_scales h.2 hcs⟩

end

/-! ## Costs -/

mutual

theorem estimateCosts_scales : ∀ {node : PlanNode}, Scales node →
    ∃ node', estimateCosts node = .ok node'
  | .mk info children, h => by
    rw [Scales] at h
    obtain ⟨children', hchildren⟩ := estimateCostsAll_scales h.2
    rw [estimateCosts, hchildren, ok_bind]
    dsimp only
    generalize List.foldl (fun (sum : PyFloat) (c : PlanNode) => sum.add c.info.estimatedCost)
      (PyFloat.zero false) children' = childCost
    obtain ⟨less, hless⟩ : ∃ less,
        (Value.float info.estimatedCost).compare .lt (.float childCost) = .ok less := ⟨_, rfl⟩
    obtain ⟨cost, hcost⟩ := costPlus_of_scalable h.1 childCost (1 / 10)
    rw [hless, ok_bind, hcost]
    split <;> exact ⟨_, rfl⟩

theorem estimateCostsAll_scales : ∀ {children : List PlanNode}, ScalesAll children →
    ∃ children', estimateCostsAll children = .ok children'
  | [], _ => ⟨[], rfl⟩
  | c :: cs, h => by
    rw [ScalesAll] at h
    obtain ⟨c', hc⟩ := estimateCosts_scales h.1
    obtain ⟨cs', hcs⟩ := estimateCostsAll_scales h.2
    refine ⟨c' :: cs', ?_⟩
    rw [estimateCostsAll, hc, ok_bind, hcs]
    rfl

end

end PySQL.Query
