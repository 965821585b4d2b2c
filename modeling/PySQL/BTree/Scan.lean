import PySQL.BTree.Delete
import PySQL.Lib.SortedMap

/-!
# Lookups and scans

A lookup reads one leaf.  A scan starts at a leaf left of which there is nothing in the range, and
follows the links to the right until a key is above the range.
-/

namespace PySQL.BTree

open BPlusTree Lib

set_option linter.unusedSectionVars false

variable {κ ν : Type} [LinearOrder κ] [DecidableEq ν]
  {t : BPlusTree κ ν} {n lo : ℕ} {F : List (Piece κ ν)} {m : SortedMap κ ν}

/-! ## Lookups -/

theorem contents_whole (c : Ctx κ ν 0) (id : ℕ) (items : List (κ × ν)) :
    contents (c.whole (leaf id items)) = contents c.before ++ items ++ contents c.after := by
  simp [Ctx.whole]

/-- `search` returns the first value that is stored under the key. -/
theorem search_separated (h : StoresFrom lo t F) (hord : Separated F) (key : κ) :
    t.search key = some (((contents F).find? (·.1 = key)).map Prod.snd) := by
  obtain ⟨c, l, hfind, hheld, -, hwhole, hroute⟩ := h.findLeaf hord key
  obtain ⟨id, items, rfl⟩ := exists_leaf l
  rw [Tree.id_leaf] at hfind
  subst hwhole
  rw [contents_whole]
  obtain ⟨hkeys, hvalues, -⟩ := hheld.leaf_fields
  have hbefore : (contents c.before).find? (·.1 = key) = none :=
    List.find?_eq_none.mpr fun p hp => by simpa using (hroute.contents.1 p hp).ne
  have hafter : (contents c.after).find? (·.1 = key) = none :=
    List.find?_eq_none.mpr fun p hp => by simpa using (hroute.contents.2 p hp).ne'
  rw [search, hfind, List.find?_append, List.find?_append, hbefore, hafter]
  simp only [Option.bind_eq_bind, Option.bind_some, hkeys, hvalues, Option.none_or, Option.or_none]
  by_cases hmem : key ∈ items.map Prod.fst
  · obtain ⟨A, v, B, rfl, hA⟩ := exists_first hmem
    have hidx : ((A ++ (key, v) :: B).map Prod.fst).findIdx? (fun x => decide (x = key)) =
        some A.length := by
      have hlen : A.length = (A.map Prod.fst).length := (List.length_map _).symm
      rw [List.map_append, List.map_cons, hlen, findIdx?_append hA]
    have hnone : A.find? (·.1 = key) = none :=
      List.find?_eq_none.mpr fun p hp => by simpa using hA p.1 (List.mem_map_of_mem hp)
    rw [hidx, List.find?_append, hnone]
    simp
  · have hidx : (items.map Prod.fst).findIdx? (fun x => decide (x = key)) = none :=
      List.findIdx?_eq_none_iff.mpr fun a ha => decide_eq_false fun heq => hmem (heq ▸ ha)
    have hnone : items.find? (·.1 = key) = none :=
      List.find?_eq_none.mpr fun p hp => by
        simpa using fun heq : p.1 = key => hmem (heq ▸ List.mem_map_of_mem hp)
    rw [hidx, hnone]
    rfl

theorem search_spec (h : StoresFrom lo t F) (hord : Ordered F) (hm : m.items = contents F)
    (key : κ) : t.search key = some (m.get? key) := by
  rw [search_separated h hord.separated key, SortedMap.get?, hm]

/-- A leaf without pairs is the root. -/
theorem Fit.empty_leaf {lo hi : ℕ} {c : Ctx κ ν 0} {id : ℕ} (h : Fit lo hi c (leaf id []))
    (hlo : 1 ≤ lo) : c.before = [] ∧ c.after = [] := by
  cases c with
  | top => exact ⟨rfl, rfl⟩
  | up f c =>
    have hleast := h.2.2.1
    rw [Ctx.least_up, Tree.size_leaf, List.length_nil] at hleast
    omega

theorem StoresFrom.at_root (h : StoresFrom lo t F) :
    ∃ (n : ℕ) (x : Tree κ ν n), Held t .top x ∧ Fit lo (t.order - 1) .top x ∧
      Ctx.top.whole x = F ∧ t.root = x.id ∧ n < t.fresh := by
  obtain ⟨n, x, hheld, hfit, hflat⟩ := h
  have hlen := hheld.length_ids_le
  have hheight := x.height_lt
  rw [Ctx.ids, List.nil_append] at hlen
  refine ⟨n, x, hheld, hfit, ?_, hheld.root, by omega⟩
  rw [← hflat]
  simp [Ctx.whole, Ctx.before, Ctx.after]

/-- Nothing is left of the subtree. -/
def Ctx.Leftmost {n : ℕ} (c : Ctx κ ν n) : Prop := c.before = []

/-- Nothing is right of the subtree. -/
def Ctx.Rightmost {n : ℕ} (c : Ctx κ ν n) : Prop := c.after = []

/-- The loop that always takes the first child. -/
theorem StoresFrom.leftmost (h : StoresFrom lo t F) :
    ∃ (c : Ctx κ ν 0) (l : Tree κ ν 0), t.descend (·.children.head?) t.fresh t.root = some l.id ∧
      Held t c l ∧ Fit lo (t.order - 1) c l ∧ c.whole l = F ∧ c.Leftmost := by
  obtain ⟨n, x, hheld, hfit, hwhole, hroot, hfresh⟩ := h.at_root
  rw [hroot]
  apply descend_spec _ hfresh hheld hfit hwhole
  · rfl
  · intro n c b hb _ hinv
    obtain ⟨f, x, rfl, hlen⟩ := Frame.exists_fill b (Nat.zero_le _)
    have hleft : f.left = [] := List.eq_nil_of_length_eq_zero hlen
    refine ⟨f, x, rfl, ?_, ?_⟩
    · rw [Frame.id_fill, hb.focus.children_eq.2, Frame.childrenWith, hleft]
      rfl
    · rw [Ctx.Leftmost, Ctx.before, hinv, Frame.before, hleft]
      rfl

/-- The loop that always takes the last child. -/
theorem StoresFrom.rightmost (h : StoresFrom lo t F) :
    ∃ (c : Ctx κ ν 0) (l : Tree κ ν 0), t.descend (·.children.getLast?) t.fresh t.root = some l.id ∧
      Held t c l ∧ Fit lo (t.order - 1) c l ∧ c.whole l = F ∧ c.Rightmost := by
  obtain ⟨n, x, hheld, hfit, hwhole, hroot, hfresh⟩ := h.at_root
  rw [hroot]
  apply descend_spec _ hfresh hheld hfit hwhole
  · rfl
  · intro n c b hb _ hinv
    obtain ⟨f, x, rfl, hlen⟩ := Frame.exists_fill b (le_refl _)
    have hright : f.right = [] := by
      have hsize : (Branch.keys (f.fill x)).length = f.left.length + f.right.length :=
        f.size_fill x
      exact List.eq_nil_of_length_eq_zero (by omega)
    refine ⟨f, x, rfl, ?_, ?_⟩
    · rw [Frame.id_fill, hb.focus.children_eq.2, Frame.childrenWith, hright]
      simp
    · rw [Ctx.Rightmost, Ctx.after, hinv, Frame.after, hright]
      rfl

theorem getMin_contents (h : StoresFrom lo t F) (hlo : 1 ≤ lo) :
    t.getMin = some (contents F).head? := by
  obtain ⟨c, l, hfind, hheld, hfit, hwhole, hbefore⟩ := h.leftmost
  obtain ⟨id, items, rfl⟩ := exists_leaf l
  rw [Tree.id_leaf] at hfind
  subst hwhole
  obtain ⟨hkeys, hvalues, -⟩ := hheld.leaf_fields
  rw [contents_whole, hbefore, contents_nil, List.nil_append, getMin, hfind]
  simp only [Option.bind_eq_bind, Option.bind_some, hkeys, hvalues]
  cases items with
  | nil => simp [(hfit.empty_leaf hlo).2]
  | cons p items => rfl

theorem getMax_contents (h : StoresFrom lo t F) (hlo : 1 ≤ lo) :
    t.getMax = some (contents F).getLast? := by
  obtain ⟨c, l, hfind, hheld, hfit, hwhole, hafter⟩ := h.rightmost
  obtain ⟨id, items, rfl⟩ := exists_leaf l
  rw [Tree.id_leaf] at hfind
  subst hwhole
  obtain ⟨hkeys, hvalues, -⟩ := hheld.leaf_fields
  rw [contents_whole, hafter, contents_nil, List.append_nil, getMax, hfind]
  simp only [Option.bind_eq_bind, Option.bind_some, hkeys, hvalues]
  rcases items.eq_nil_or_concat with rfl | ⟨items, p, rfl⟩
  · simp [(hfit.empty_leaf hlo).1]
  · simp

theorem getMin_spec (h : StoresFrom lo t F) (hlo : 1 ≤ lo) (hm : m.items = contents F) :
    t.getMin = some m.min? := by
  rw [getMin_contents h hlo, SortedMap.min?, hm]

theorem getMax_spec (h : StoresFrom lo t F) (hlo : 1 ≤ lo) (hm : m.items = contents F) :
    t.getMax = some m.max? := by
  rw [getMax_contents h hlo, SortedMap.max?, hm]

/-! ## Range scans -/

/-- The pairs that a scan over a list yields, and whether it goes on. -/
def scanItems (below above : κ → Bool) : List (κ × ν) → List (κ × ν) × Bool
  | [] => ([], true)
  | p :: items =>
    if below p.1 then scanItems below above items
    else if above p.1 then ([], false)
    else (p :: (scanItems below above items).1, (scanItems below above items).2)

section Scan

variable {below above : κ → Bool}

theorem scanLeaf_eq (items : List (κ × ν)) :
    scanLeaf below above (items.map Prod.fst) (items.map Prod.snd) =
      some (scanItems below above items) := by
  induction items with
  | nil => rfl
  | cons p items ih =>
    simp only [List.map_cons, scanLeaf, scanItems, List.tail_cons, List.head?_cons, ih]
    split
    · rfl
    · split
      · rfl
      · rfl

theorem scanItems_append (A B : List (κ × ν)) :
    scanItems below above (A ++ B) =
      if (scanItems below above A).2 then
        ((scanItems below above A).1 ++ (scanItems below above B).1, (scanItems below above B).2)
      else ((scanItems below above A).1, false) := by
  induction A with
  | nil => simp [scanItems]
  | cons p A ih =>
    simp only [List.cons_append, scanItems]
    split
    · exact ih
    · split
      · rfl
      · rw [ih]
        split <;> simp [*]

/-- On ascending keys, a scan that stops at the first key above the range misses nothing. -/
theorem scanItems_eq_filter (habove : ∀ x y, x ≤ y → above x = true → above y = true)
    {items : List (κ × ν)} (hsorted : items.Pairwise fun p q => p.1 ≤ q.1) :
    (scanItems below above items).1 = items.filter fun p => !below p.1 && !above p.1 := by
  induction items with
  | nil => rfl
  | cons p items ih =>
    obtain ⟨hp, hitems⟩ := List.pairwise_cons.mp hsorted
    rw [scanItems, List.filter_cons]
    cases hb : below p.1 with
    | true => simpa using ih hitems
    | false =>
      cases ha : above p.1 with
      | true =>
        have hrest : items.filter (fun q => !below q.1 && !above q.1) = [] := by
          rw [List.filter_eq_nil_iff]
          intro q hq
          simp [habove _ _ (hp q hq) ha]
        simp [hrest]
      | false => simp [ih hitems]

/-- The leaves of a sequence lie at their nodes. -/
theorem Tree.At.leaf_mem {h : ℕ → BPlusTreeNode κ ν} {parent : Option ℕ} {x : Tree κ ν n}
    (hx : x.At h parent) {l : Leaf κ ν} (hl : Piece.leaf l ∈ x.flat) :
    (h l.id).keys = l.items.map Prod.fst ∧ (h l.id).values = l.items.map Prod.snd := by
  induction n generalizing parent with
  | zero =>
    obtain ⟨id, items, rfl⟩ := exists_leaf x
    rw [Tree.flat_leaf, List.mem_singleton] at hl
    obtain rfl : l = ⟨id, items⟩ := Piece.leaf.inj hl
    exact hx.leaf_eq
  | succ n ih =>
    obtain ⟨id, keys, children, hlen, rfl⟩ := exists_branch x
    have hmem : ∀ (ks : List κ) (ps : List (List (Piece κ ν))), Piece.leaf l ∈ weave ks ps →
        ∃ p ∈ ps, Piece.leaf l ∈ p := by
      intro ks
      induction ks with
      | nil =>
        intro ps hl
        rw [weave_nil] at hl
        exact List.mem_flatten.mp hl
      | cons k ks ihk =>
        intro ps hl
        cases ps with
        | nil => simp [weave] at hl
        | cons p ps =>
          rw [weave, List.mem_append, List.mem_cons] at hl
          rcases hl with hl | hl | hl
          · exact ⟨p, List.mem_cons_self, hl⟩
          · cases hl
          · obtain ⟨q, hq, hlq⟩ := ihk ps hl
            exact ⟨q, List.mem_cons_of_mem _ hq, hlq⟩
    obtain ⟨p, hp, hlp⟩ := hmem _ _ hl
    obtain ⟨c, hc, rfl⟩ := List.mem_map.mp hp
    exact ih (hx.branch_eq.2.2 c hc) hlp

/-- The rest of a linked list is linked. -/
theorem Linked.suffix {h : ℕ → BPlusTreeNode κ ν} {prev : Option ℕ} {A B : List ℕ}
    (hl : Linked h prev (A ++ B)) : ∃ prev', Linked h prev' B := by
  induction A generalizing prev with
  | nil => exact ⟨prev, hl⟩
  | cons a A ih => exact ih hl.2.2

/-- The scan along the links. -/
theorem scanFrom_spec {prev : Option ℕ} {G : List (Piece κ ν)} (hlinked : Linked t.node prev (leafIds G))
    (hleaves : ∀ l, Piece.leaf l ∈ G →
      (t.node l.id).keys = l.items.map Prod.fst ∧ (t.node l.id).values = l.items.map Prod.snd)
    {fuel : ℕ} (hfuel : (leafIds G).length ≤ fuel) :
    t.scanFrom below above fuel (leafIds G).head? = some (scanItems below above (contents G)).1 := by
  induction G generalizing prev fuel with
  | nil => cases fuel <;> rfl
  | cons p G ih =>
    have hrest : ∀ l, Piece.leaf l ∈ G → _ := fun l hl => hleaves l (List.mem_cons_of_mem _ hl)
    cases p with
    | sep k => exact ih hlinked hrest hfuel
    | leaf l =>
      rw [leafIds_leaf, List.length_cons] at hfuel
      obtain ⟨fuel, rfl⟩ := Nat.exists_eq_succ_of_ne_zero (Nat.ne_zero_of_lt hfuel)
      obtain ⟨-, hnext, htail⟩ := hlinked
      obtain ⟨hkeys, hvalues⟩ := hleaves l List.mem_cons_self
      have hlater := ih htail hrest (Nat.le_of_succ_le_succ hfuel)
      have hnext' : (t.node l.id).nextLeaf = (leafIds G).head? := hnext
      rw [leafIds_leaf, List.head?_cons, scanFrom, hkeys, hvalues, scanLeaf_eq, contents_leaf,
        scanItems_append, hnext', hlater]
      cases hmore : (scanItems below above l.items).2 with
      | true => simp [hmore]
      | false => simp [hmore]

end Scan

/-- The key is within the bounds. -/
def inBounds (low high : Option κ) (includeLow includeHigh : Bool) (key : κ) : Bool :=
  (match low with
    | some low => if includeLow then decide (low ≤ key) else decide (low < key)
    | none => true) &&
  match high with
  | some high => if includeHigh then decide (key ≤ high) else decide (key < high)
  | none => true

theorem inBounds_eq (low high : Option κ) (includeLow includeHigh : Bool) (key : κ) :
    inBounds low high includeLow includeHigh key =
      (!belowLow low includeLow key && !aboveHigh high includeHigh key) := by
  cases low <;> cases high <;> cases includeLow <;> cases includeHigh <;>
    simp [inBounds, belowLow, aboveHigh, ← decide_not]

theorem aboveHigh_mono {high : Option κ} {includeHigh : Bool} (x y : κ) (hxy : x ≤ y)
    (hx : aboveHigh high includeHigh x = true) : aboveHigh high includeHigh y = true := by
  cases high with
  | none => exact hx
  | some high =>
    cases includeHigh with
    | true =>
      have hlt : high < x := of_decide_eq_true hx
      exact decide_eq_true (hlt.trans_le hxy)
    | false =>
      have hle : high ≤ x := of_decide_eq_true hx
      exact decide_eq_true (hle.trans hxy)

theorem belowLow_of_lt {low x : κ} {includeLow : Bool} (hx : x < low) :
    belowLow (some low) includeLow x = true := by
  cases includeLow with
  | true => exact decide_eq_true hx
  | false => exact decide_eq_true hx.le

/-- A scan that starts at a leaf with nothing in the range left of it. -/
theorem Held.scanFrom {c : Ctx κ ν 0} {l : Tree κ ν 0} (h : Held t c l)
    (hasc : Ascending (c.whole l))
    {low high : Option κ} {includeLow includeHigh : Bool}
    (hleft : ∀ p ∈ contents c.before, belowLow low includeLow p.1 = true) :
    t.scanFrom (belowLow low includeLow) (aboveHigh high includeHigh) t.fresh (some l.id) =
      some ((contents (c.whole l)).filter fun p => inBounds low high includeLow includeHigh p.1) := by
  obtain ⟨id, items, rfl⟩ := exists_leaf l
  obtain ⟨m, y, hy, hflat⟩ := h.exists_root
  have hwhole : c.whole (leaf id items) = c.before ++ (.leaf ⟨id, items⟩ :: c.after) := by
    simp [Ctx.whole]
  have hlinked := h.linked
  rw [hwhole, leafIds_append] at hlinked
  obtain ⟨prev, hlinked⟩ := hlinked.suffix
  have hlen : (leafIds (.leaf ⟨id, items⟩ :: c.after)).length ≤ t.fresh := by
    have hle := hy.length_ids_le
    have hsub := y.leafIds_sublist.length_le
    rw [hflat, hwhole, leafIds_append, List.length_append] at hsub
    rw [Ctx.ids, List.nil_append] at hle
    omega
  have hscan : t.scanFrom (belowLow low includeLow) (aboveHigh high includeHigh) t.fresh (some id) =
      some (scanItems (belowLow low includeLow) (aboveHigh high includeHigh)
        (contents (.leaf ⟨id, items⟩ :: c.after))).1 := by
    refine scanFrom_spec hlinked (fun l hl => hy.focus.leaf_mem ?_) hlen
    rw [hflat, hwhole]
    exact List.mem_append_right _ hl
  have hsorted := hasc.contents
  rw [hwhole, contents_append] at hsorted ⊢
  rw [Tree.id_leaf, hscan, scanItems_eq_filter aboveHigh_mono (List.pairwise_append.mp hsorted).2.1,
    List.filter_append]
  have hnone : (contents c.before).filter
      (fun p => inBounds low high includeLow includeHigh p.1) = [] := by
    rw [List.filter_eq_nil_iff]
    intro p hp
    rw [inBounds_eq, hleft p hp]
    simp
  rw [hnone, List.nil_append]
  congr 1
  exact List.filter_congr fun p _ => (inBounds_eq low high includeLow includeHigh p.1).symm

/-- A scan from the leftmost leaf. -/
theorem rangeScan_none (h : StoresFrom lo t F) (hasc : Ascending F) (high : Option κ)
    (includeLow includeHigh : Bool) : t.rangeScan none high includeLow includeHigh =
      some ((contents F).filter fun p => inBounds none high includeLow includeHigh p.1) := by
  obtain ⟨c, l, hfind, hheld, -, hwhole, hbefore⟩ := h.leftmost
  subst hwhole
  simp only [rangeScan, hfind, Option.bind_eq_bind, Option.bind_some]
  refine hheld.scanFrom hasc fun p hp => ?_
  rw [show c.before = [] from hbefore] at hp
  cases hp

/-- A scan without bounds yields all pairs, whatever the separators are. -/
theorem scanAll_contents (h : StoresFrom lo t F) (hasc : Ascending F) :
    t.scanAll = some (contents F) := by
  rw [scanAll, rangeScan_none h hasc]
  exact congrArg some (List.filter_eq_self.mpr fun p _ => rfl)

/-- A scan yields the pairs in the range, in the order of the leaves. -/
theorem rangeScan_separated (h : StoresFrom lo t F) (hord : Separated F) (low high : Option κ)
    (includeLow includeHigh : Bool) : t.rangeScan low high includeLow includeHigh =
      some ((contents F).filter fun p => inBounds low high includeLow includeHigh p.1) := by
  cases low with
  | none => exact rangeScan_none h hord.ascending high includeLow includeHigh
  | some low =>
    obtain ⟨c, l, hfind, hheld, -, hwhole, hroute⟩ := h.findLeaf hord low
    subst hwhole
    simp only [rangeScan, hfind, Option.bind_eq_bind, Option.bind_some]
    exact hheld.scanFrom hord.ascending fun p hp => belowLow_of_lt (hroute.contents.1 p hp)

theorem collectLeaf_eq (key : κ) (keys : List κ) (values : List ν) :
    collectLeaf key keys values =
      (scanLeaf (belowLow (some key) true) (aboveHigh (some key) true) keys values).map
        fun r => (r.1.map Prod.snd, r.2) := by
  induction keys generalizing values with
  | nil => rfl
  | cons k keys ih =>
    rw [collectLeaf, scanLeaf, ih]
    rcases lt_trichotomy k key with hlt | rfl | hgt
    · simp [belowLow, hlt, hlt.ne, hlt.le]
    · cases values with
      | nil => simp [belowLow, aboveHigh]
      | cons value values =>
        cases hrest : scanLeaf (belowLow (some k) true) (aboveHigh (some k) true) keys values <;>
          simp [belowLow, aboveHigh, hrest]
    · simp [belowLow, aboveHigh, hgt, hgt.ne', hgt.le]

/-- The values under a key are the values in the range from the key to itself. -/
theorem searchAll_eq (t : BPlusTree κ ν) (key : κ) :
    t.searchAll key = (t.rangeScan (some key) (some key) true true).map (List.map Prod.snd) := by
  have hfrom : ∀ (fuel : ℕ) (leaf : Option ℕ), t.collectFrom key fuel leaf =
      (t.scanFrom (belowLow (some key) true) (aboveHigh (some key) true) fuel leaf).map
        (List.map Prod.snd) := by
    intro fuel
    induction fuel with
    | zero =>
      intro leaf
      cases leaf <;> rfl
    | succ fuel ih =>
      intro leaf
      cases leaf with
      | none => rfl
      | some leaf =>
        rw [collectFrom, scanFrom, collectLeaf_eq]
        cases scanLeaf (belowLow (some key) true) (aboveHigh (some key) true) (t.node leaf).keys
          (t.node leaf).values with
        | none => rfl
        | some r =>
          simp only [Option.map_some, Option.bind_eq_bind, Option.bind_some, ih]
          split
          · cases t.scanFrom (belowLow (some key) true) (aboveHigh (some key) true) fuel
              (t.node leaf).nextLeaf <;> simp
          · rfl
  rw [searchAll, rangeScan]
  cases t.findLeaf key with
  | none => rfl
  | some leaf => exact hfrom _ _

/-- `search_all` returns all values that are stored under the key. -/
theorem searchAll_separated (h : StoresFrom lo t F) (hord : Separated F) (key : κ) :
    t.searchAll key = some (((contents F).filter (·.1 = key)).map Prod.snd) := by
  rw [searchAll_eq, rangeScan_separated h hord, Option.map_some]
  have hbounds : ∀ k, inBounds (some key) (some key) true true k = decide (k = key) := by
    intro k
    rw [Bool.eq_iff_iff]
    simp [inBounds, le_antisymm_iff, and_comm]
  simp only [hbounds]

theorem rangeScan_spec (h : StoresFrom lo t F) (hord : Ordered F) (hm : m.items = contents F)
    (low high : Option κ) (includeLow includeHigh : Bool) :
    t.rangeScan low high includeLow includeHigh =
      some (m.restrict (inBounds low high includeLow includeHigh)).items := by
  rw [SortedMap.items_restrict, hm]
  exact rangeScan_separated h hord.separated low high includeLow includeHigh

end PySQL.BTree
