import PySQL.BTree.Store

/-!
# Finding a leaf

The way down by binary search ends at the leaf between whose neighbouring separators the key lies, so
everything left of that leaf comes before the key and everything right of it after.
-/

namespace PySQL.BTree

open BPlusTree

set_option linter.unusedSectionVars false

variable {κ ν : Type} [LinearOrder κ] [DecidableEq ν]

/-! ## Binary search -/

theorem bisectLoop_spec {l : List κ} {target : κ} (hl : l.Pairwise (· ≤ ·)) {fuel lo hi : ℕ}
    (hlohi : lo ≤ hi) (hhi : hi ≤ l.length) (hfuel : hi - lo ≤ fuel)
    (hleft : ∀ x ∈ l.take lo, x ≤ target) (hright : ∀ x ∈ l.drop hi, target < x) :
    bisectLoop l target fuel lo hi ≤ l.length ∧
      (∀ x ∈ l.take (bisectLoop l target fuel lo hi), x ≤ target) ∧
      ∀ x ∈ l.drop (bisectLoop l target fuel lo hi), target < x := by
  induction fuel generalizing lo hi with
  | zero =>
    obtain rfl : lo = hi := by omega
    exact ⟨hhi, hleft, hright⟩
  | succ fuel ih =>
    unfold bisectLoop
    split
    · next hlt =>
      have hmid : (lo + hi) / 2 < l.length := by omega
      simp only [List.getElem?_eq_getElem hmid]
      have hcut : l.take ((lo + hi) / 2) ++ l[(lo + hi) / 2] :: l.drop ((lo + hi) / 2 + 1) = l := by
        rw [← List.drop_eq_getElem_cons hmid, List.take_append_drop]
      have hsorted := hl
      rw [← hcut, List.pairwise_append, List.pairwise_cons] at hsorted
      obtain ⟨-, ⟨hafter, -⟩, hbefore⟩ := hsorted
      split
      · next hle =>
        refine ih (by omega) hhi (by omega) ?_ hright
        intro x hx
        rw [List.take_succ_eq_append_getElem hmid, List.mem_append, List.mem_singleton] at hx
        rcases hx with hx | rfl
        · exact (hbefore x hx _ List.mem_cons_self).trans hle
        · exact hle
      · next hgt =>
        refine ih (by omega) hmid.le (by omega) hleft ?_
        intro x hx
        rw [List.drop_eq_getElem_cons hmid, List.mem_cons] at hx
        rcases hx with rfl | hx
        · exact not_le.mp hgt
        · exact (not_le.mp hgt).trans_le (hafter x hx)
    · next hge =>
      obtain rfl : lo = hi := by omega
      exact ⟨hhi, hleft, hright⟩

/-- The insertion point lies after the elements up to the target. -/
theorem bisectRight_spec {l : List κ} (hl : l.Pairwise (· ≤ ·)) (target : κ) :
    bisectRight l target ≤ l.length ∧ (∀ x ∈ l.take (bisectRight l target), x ≤ target) ∧
      ∀ x ∈ l.drop (bisectRight l target), target < x :=
  bisectLoop_spec hl (Nat.zero_le _) le_rfl (by omega) (by simp) (by simp)

/-- The insertion point lies at the end of a list whose elements are up to the target, and at the
start of one whose elements are above it, in whatever order they are. -/
theorem bisectRight_of_all {l : List κ} {target : κ} :
    ((∀ x ∈ l, x ≤ target) → bisectRight l target = l.length) ∧
      ((∀ x ∈ l, target < x) → bisectRight l target = 0) := by
  have hup : (∀ x ∈ l, x ≤ target) → ∀ fuel lo hi, lo ≤ hi → hi ≤ l.length → hi - lo ≤ fuel →
      bisectLoop l target fuel lo hi = hi := by
    intro hall fuel
    induction fuel with
    | zero =>
      intro lo hi hle _ hfuel
      exact (by omega : lo = hi)
    | succ fuel ih =>
      intro lo hi hle hhi hfuel
      unfold bisectLoop
      split
      · have hmid : (lo + hi) / 2 < l.length := by omega
        simp only [List.getElem?_eq_getElem hmid, if_pos (hall _ (List.getElem_mem hmid))]
        exact ih _ _ (by omega) hhi (by omega)
      · omega
  have hdown : (∀ x ∈ l, target < x) → ∀ fuel lo hi, lo ≤ hi → hi ≤ l.length →
      bisectLoop l target fuel lo hi = lo := by
    intro hall fuel
    induction fuel with
    | zero => exact fun _ _ _ _ => rfl
    | succ fuel ih =>
      intro lo hi hle hhi
      unfold bisectLoop
      split
      · have hmid : (lo + hi) / 2 < l.length := by omega
        simp only [List.getElem?_eq_getElem hmid, if_neg (hall _ (List.getElem_mem hmid)).not_ge]
        exact ih _ _ (by omega) (by omega)
      · rfl
  exact ⟨fun hall => hup hall _ _ _ (Nat.zero_le _) (le_refl _) (by omega),
    fun hall => hdown hall _ _ _ (Nat.zero_le _) (le_refl _)⟩

/-! ## Descending -/

variable {t : BPlusTree κ ν} {F : List (Piece κ ν)} {n lo : ℕ}

theorem Tree.height_lt (x : Tree κ ν n) : n < x.ids.length := by
  induction n with
  | zero => exact Nat.one_pos
  | succ n ih =>
    obtain ⟨id, keys, children, hlen⟩ := x
    cases children with
    | nil => simp at hlen
    | cons c children =>
      have hc := ih c
      simp only [Tree.ids, List.flatMap_cons, List.length_cons, List.length_append]
      omega

/-- A tree has at most as many nodes as have been made. -/
theorem Held.length_ids_le {c : Ctx κ ν n} {x : Tree κ ν n} (h : Held t c x) :
    (c.ids ++ x.ids).length ≤ t.fresh := by
  have hsub : c.ids ++ x.ids ⊆ List.range t.fresh := fun i hi => List.mem_range.mpr (h.fresh i hi)
  have hle := (List.subperm_of_subset h.nodup hsub).length_le
  rwa [List.length_range] at hle

/-- A loop that goes down the tree ends at a leaf, with all that each step has kept. -/
theorem descend_spec {choose : BPlusTreeNode κ ν → Option ℕ} {Inv : ∀ {n : ℕ}, Ctx κ ν n → Prop}
    (hstep : ∀ {n : ℕ} (c : Ctx κ ν (n + 1)) (b : Tree κ ν (n + 1)), Held t c b → c.whole b = F →
      Inv c → ∃ (f : Frame κ ν n) (x : Tree κ ν n), b = f.fill x ∧
        choose (t.node b.id) = some x.id ∧ Inv (.up f c))
    {fuel : ℕ} (hfuel : n < fuel) {c : Ctx κ ν n} {x : Tree κ ν n} (h : Held t c x)
    (hfit : Fit lo (t.order - 1) c x) (hF : c.whole x = F) (hinv : Inv c) :
    ∃ (c' : Ctx κ ν 0) (l : Tree κ ν 0), t.descend choose fuel x.id = some l.id ∧ Held t c' l ∧
      Fit lo (t.order - 1) c' l ∧ c'.whole l = F ∧ Inv c' := by
  induction n generalizing fuel with
  | zero =>
    obtain ⟨fuel, rfl⟩ := Nat.exists_eq_succ_of_ne_zero hfuel.ne'
    refine ⟨c, x, ?_, h, hfit, hF, hinv⟩
    rw [descend, h.focus.isLeaf_eq]
    rfl
  | succ n ih =>
    obtain ⟨fuel, rfl⟩ := Nat.exists_eq_succ_of_ne_zero (Nat.ne_zero_of_lt hfuel)
    obtain ⟨f, y, rfl, hchoose, hnext⟩ := hstep c x h hF hinv
    have hy := ih (Nat.lt_of_succ_lt_succ hfuel) (held_up.mpr h) (fit_up.mpr hfit)
      ((Ctx.whole_up f c y).trans hF) hnext
    rw [descend, h.focus.isLeaf_eq, hchoose]
    exact hy

theorem Tree.At.children_eq {h : ℕ → BPlusTreeNode κ ν} {parent : Option ℕ} {f : Frame κ ν n}
    {x : Tree κ ν n} (hx : (f.fill x).At h parent) :
    (h f.id).keys = f.keys ∧ (h f.id).children = f.childrenWith Tree.id x.id := by
  have hids : (Branch.children (f.fill x)).map (fun c : Tree κ ν n => c.id) =
      f.childrenWith Tree.id x.id := by
    simp only [Frame.fill, Frame.childrenWith, List.map_append, List.map_cons, List.map_map]
    rfl
  rw [← hids]
  exact ⟨congrArg BPlusTreeNode.keys hx.1, congrArg BPlusTreeNode.children hx.1⟩

theorem Frame.getElem?_childrenWith {α : Type} (f : Frame κ ν n) (g : Tree κ ν n → α) (a : α) :
    (f.childrenWith g a)[f.left.length]? = some a := by
  simp [Frame.childrenWith]

/-! ## By key -/

/-- All that is left of a subtree is at most a key, all that is right of it above. -/
def Leads (key : κ) {n : ℕ} (c : Ctx κ ν n) : Prop :=
  (∀ a ∈ tokens c.before, a.key ≤ key) ∧ ∀ b ∈ tokens c.after, key < b.key

theorem le_of_keys {key : κ} {left : List (Tree κ ν n × κ)}
    (hasc : Ascending (left.flatMap fun p => p.1.flat ++ [.sep p.2])) (hkeys : ∀ p ∈ left, p.2 ≤ key) :
    ∀ a ∈ tokens (left.flatMap fun p => p.1.flat ++ [.sep p.2]), a.key ≤ key := by
  induction left with
  | nil => simp
  | cons p left ih =>
    simp only [Ascending, List.flatMap_cons, tokens_append, tokens_sep,
      List.append_assoc, List.singleton_append] at hasc ⊢
    rw [List.pairwise_append, List.pairwise_cons] at hasc
    have hsep : p.2 ≤ key := hkeys p List.mem_cons_self
    intro a ha
    rcases List.mem_append.mp ha with ha | ha
    · exact (hasc.2.2 a ha (.sep p.2) List.mem_cons_self).trans hsep
    · rcases List.mem_cons.mp ha with rfl | ha
      · exact hsep
      · exact ih hasc.2.1.2 (fun q hq => hkeys q (List.mem_cons_of_mem _ hq)) a ha

theorem lt_of_keys {key : κ} {right : List (κ × Tree κ ν n)}
    (hasc : Ascending (right.flatMap fun p => .sep p.1 :: p.2.flat)) (hkeys : ∀ p ∈ right, key < p.1) :
    ∀ b ∈ tokens (right.flatMap fun p => .sep p.1 :: p.2.flat), key < b.key := by
  induction right with
  | nil => simp
  | cons p right ih =>
    simp only [Ascending, List.flatMap_cons, tokens_append, tokens_sep, List.cons_append] at hasc ⊢
    rw [List.pairwise_cons, List.pairwise_append] at hasc
    have hsep : key < p.1 := hkeys p List.mem_cons_self
    intro b hb
    rcases List.mem_cons.mp hb with rfl | hb
    · exact hsep
    · rcases List.mem_append.mp hb with hin | hin
      · exact hsep.trans_le (hasc.1 b (List.mem_append_left _ hin))
      · exact ih hasc.2.2.1 (fun q hq => hkeys q (List.mem_cons_of_mem _ hq)) b hin

/-- The keys of a branch ascend. -/
theorem Frame.pairwise_keys {f : Frame κ ν n} {x : Tree κ ν n} (hasc : Ascending (f.fill x).flat) :
    f.keys.Pairwise (· ≤ ·) := by
  have hsub : ∀ (ks : List κ) (ps : List (List (Piece κ ν))), ks.length ≤ ps.length →
      (ks.map Token.sep).Sublist (tokens (weave ks ps)) := by
    intro ks
    induction ks with
    | nil => simp
    | cons k ks ih =>
      intro ps hlen
      cases ps with
      | nil => simp at hlen
      | cons p ps =>
        rw [weave, tokens_append, tokens_sep, List.map_cons]
        exact ((ih ps (Nat.le_of_succ_le_succ hlen)).cons_cons _).trans (List.sublist_append_right _ _)
  have hlen : f.keys.length ≤
      ((f.childrenWith (fun c => c) x).map fun c : Tree κ ν n => c.flat).length := by
    simp only [Frame.keys, Frame.childrenWith, List.length_map, List.length_append, List.length_cons]
    omega
  have hseps := List.Pairwise.sublist (hsub _ _ hlen) hasc
  rw [List.pairwise_map] at hseps
  exact hseps

theorem separated_whole {c : Ctx κ ν n} {x : Tree κ ν n} (hord : Separated (c.whole x)) :
    Separated x.flat :=
  hord.append.1.append.2

/-- One step of the way down. -/
theorem Held.lead {c : Ctx κ ν (n + 1)} {b : Tree κ ν (n + 1)} (h : Held t c b)
    (hasc : Ascending (c.whole b)) {key : κ} (hlead : Leads key c) :
    ∃ (f : Frame κ ν n) (x : Tree κ ν n), b = f.fill x ∧
      (t.node b.id).children[bisectRight (t.node b.id).keys key]? = some x.id ∧
        Leads key (.up f c) := by
  have hkeys : (t.node b.id).keys = Branch.keys b := congrArg BPlusTreeNode.keys h.focus.1
  have hsorted : (Branch.keys b).Pairwise (· ≤ ·) := by
    obtain ⟨f, x, rfl, -⟩ := Frame.exists_fill b (Nat.zero_le _)
    exact Frame.pairwise_keys hasc.append.1.append.2
  obtain ⟨hle, hleft, hright⟩ := bisectRight_spec hsorted key
  obtain ⟨f, x, rfl, hlen⟩ := Frame.exists_fill b hle
  refine ⟨f, x, rfl, ?_, ?_⟩
  · rw [hkeys, ← hlen, show (f.fill x).id = f.id from rfl, h.focus.children_eq.2]
    exact f.getElem?_childrenWith _ _
  · have hcut : f.left.length = (f.left.map Prod.snd).length := by rw [List.length_map]
    change (∀ k ∈ f.keys.take _, _) at hleft
    change (∀ k ∈ f.keys.drop _, _) at hright
    rw [← hlen, Frame.keys, hcut, List.take_left] at hleft
    rw [← hlen, Frame.keys, hcut, List.drop_left] at hright
    rw [Ctx.whole, Frame.flat_fill] at hasc
    have hfill := hasc.append.1.append.2.append
    have hbefore : Ascending f.before := hfill.1.append.1
    have hafter : Ascending f.after := hfill.2
    constructor
    · intro a ha
      rw [Ctx.before, tokens_append, List.mem_append] at ha
      rcases ha with ha | ha
      · exact hlead.1 a ha
      · exact le_of_keys hbefore (fun p hp => hleft _ (List.mem_map_of_mem hp)) a ha
    · intro a ha
      rw [Ctx.after, tokens_append, List.mem_append] at ha
      rcases ha with ha | ha
      · exact lt_of_keys hafter (fun p hp => hright _ (List.mem_map_of_mem hp)) a ha
      · exact hlead.2 a ha

/-- The leaf that `_find_leaf` returns. -/
theorem StoresFrom.findLeaf_leads (h : StoresFrom lo t F) (hasc : Ascending F) (key : κ) :
    ∃ (c : Ctx κ ν 0) (l : Tree κ ν 0), t.findLeaf key = some l.id ∧ Held t c l ∧
      Fit lo (t.order - 1) c l ∧ c.whole l = F ∧ Leads key c := by
  obtain ⟨n, x, hheld, hfit, hflat⟩ := h
  have hlen := hheld.length_ids_le
  have hheight := x.height_lt
  rw [Ctx.ids, List.nil_append] at hlen
  have hwhole : Ctx.top.whole x = F := by
    rw [← hflat]
    simp [Ctx.whole, Ctx.before, Ctx.after]
  have hroot : t.root = x.id := hheld.root
  rw [BPlusTree.findLeaf, hroot]
  apply descend_spec _ (by omega : n < t.fresh) hheld hfit hwhole
  · exact ⟨by simp [Ctx.before], by simp [Ctx.after]⟩
  · intro n c b hb hwhole hlead
    exact hb.lead (hwhole ▸ hasc) hlead

/-- What is left of a subtree ends with a separator. -/
theorem Ctx.before_eq (c : Ctx κ ν n) : c.before = [] ∨ ∃ G k, c.before = G ++ [.sep k] := by
  induction c with
  | top => exact .inl rfl
  | up f c ih =>
    rcases f.left.eq_nil_or_concat with hleft | ⟨left, p, hleft⟩
    · rw [Ctx.before, Frame.before, hleft, List.flatMap_nil, List.append_nil]
      exact ih
    · refine .inr ⟨c.before ++ (left.flatMap fun p => p.1.flat ++ [.sep p.2]) ++ p.1.flat, p.2, ?_⟩
      rw [Ctx.before, Frame.before, hleft]
      simp

/-- A separator parts what is left of a subtree from the subtree. -/
theorem Ctx.before_parted {c : Ctx κ ν n} {G : List (Piece κ ν)} (hord : Separated (c.before ++ G)) :
    ∀ a ∈ tokens c.before, ∀ b ∈ tokens G, a.Before b := by
  intro a ha b hb
  rcases c.before_eq with hnil | ⟨G', k, hlast⟩
  · rw [hnil] at ha
    cases ha
  · rw [Separated, hlast, tokens_append, tokens_append, List.pairwise_append,
      List.pairwise_append] at hord
    obtain ⟨⟨-, -, hsep⟩, -, hcross⟩ := hord
    have hkb := hcross (.sep k) (List.mem_append_right _ List.mem_cons_self) b hb
    rw [hlast, tokens_append, List.mem_append] at ha
    rcases ha with ha | ha
    · exact (hsep a ha _ List.mem_cons_self).before hkb
    · rw [List.mem_singleton.mp ha]
      cases b <;> exact hkb

/-- All that is left of a subtree comes before a key, all that is right of it after. -/
def Routes (key : κ) {n : ℕ} (c : Ctx κ ν n) : Prop :=
  (∀ a ∈ tokens c.before, a.Before (.item key)) ∧
    ∀ b ∈ tokens c.after, Token.Before (.item key) b

/-- What is left of a leaf is below the last separator before it. -/
theorem Leads.routes {key : κ} {c : Ctx κ ν n} (h : Leads key c) (hord : Separated c.before) :
    Routes key c := by
  refine ⟨fun a ha => ?_, fun b hb => ?_⟩
  · rcases c.before_eq with hnil | ⟨G, k, hlast⟩
    · rw [hnil] at ha
      cases ha
    · have hk : Token.Upto (.sep k) (.item key) :=
        h.1 (.sep k) (by rw [hlast, tokens_append]; exact List.mem_append_right _ List.mem_cons_self)
      rw [Separated, hlast, tokens_append, List.pairwise_append] at hord
      rw [hlast, tokens_append, List.mem_append] at ha
      rcases ha with ha | ha
      · exact (hord.2.2 a ha _ List.mem_cons_self).before hk
      · rw [List.mem_singleton.mp ha]
        exact hk
  · have hlt := h.2 b hb
    cases b <;> exact hlt

theorem StoresFrom.findLeaf (h : StoresFrom lo t F) (hord : Separated F) (key : κ) :
    ∃ (c : Ctx κ ν 0) (l : Tree κ ν 0), t.findLeaf key = some l.id ∧ Held t c l ∧
      Fit lo (t.order - 1) c l ∧ c.whole l = F ∧ Routes key c := by
  obtain ⟨c, l, hfind, hheld, hfit, hwhole, hlead⟩ := h.findLeaf_leads hord.ascending key
  have hbefore : Separated c.before := by
    rw [← hwhole] at hord
    exact hord.append.1.append.1
  exact ⟨c, l, hfind, hheld, hfit, hwhole, hlead.routes hbefore⟩

/-! ## Siblings have different keys

So the search of a parent for one of its children never compares more than the keys.
-/

section Siblings

variable {hi : ℕ}

/-- The keys in the root node of a tree. -/
def Tree.rootKeys : {n : ℕ} → Tree κ ν n → List κ
  | 0, l => (Leaf.items l).map Prod.fst
  | _ + 1, b => Branch.keys b

theorem Tree.At.keys_eq {h : ℕ → BPlusTreeNode κ ν} {parent : Option ℕ} {x : Tree κ ν n}
    (hx : x.At h parent) : (h x.id).keys = x.rootKeys := by
  cases n with
  | zero => exact congrArg BPlusTreeNode.keys (show (h (Leaf.id x)).core = _ from hx)
  | succ n => exact congrArg BPlusTreeNode.keys hx.1

theorem Tree.length_rootKeys (x : Tree κ ν n) : x.rootKeys.length = x.size := by
  cases n with
  | zero => exact List.length_map _
  | succ n => rfl

/-- A subtree that is as full as it should be has a pair. -/
theorem Tree.Full.exists_item {x : Tree κ ν n} (hlo : 1 ≤ lo) (hx : x.Full lo hi) :
    ∃ z, Token.item z ∈ tokens x.flat := by
  induction n with
  | zero =>
    obtain ⟨id, items⟩ := x
    cases items with
    | nil =>
      have hsize : lo ≤ 0 := hx.1
      omega
    | cons p items => exact ⟨p.1, List.mem_append_left _ List.mem_cons_self⟩
  | succ n ih =>
    obtain ⟨f, c, rfl, -⟩ := Frame.exists_fill x (Nat.zero_le _)
    have hc := hx.2.2 c ((f.mem_children_fill c c).mpr (.inl rfl))
    obtain ⟨z, hz⟩ := ih hc
    refine ⟨z, ?_⟩
    rw [Frame.flat_fill, tokens_append, tokens_append]
    exact List.mem_append_left _ (List.mem_append_right _ hz)

/-- The first key of a branch stands between pairs of its own. -/
theorem Tree.exists_around {x : Tree κ ν (n + 1)} {a : κ} {ks : List κ}
    (hkeys : x.rootKeys = a :: ks) (hlo : 1 ≤ lo) (hx : x.Below lo hi) :
    ∃ P Q y z, tokens x.flat = P ++ .sep a :: Q ∧ Token.item y ∈ P ∧ Token.item z ∈ Q := by
  obtain ⟨id, keys, children, hlen, rfl⟩ := exists_branch x
  obtain rfl : keys = a :: ks := hkeys
  match children, hlen with
  | c :: d :: cs, _ =>
    obtain ⟨y, hy⟩ := (Tree.below_succ.mp hx c List.mem_cons_self).exists_item hlo
    obtain ⟨z, hz⟩ := (Tree.below_succ.mp hx d (by simp [branch])).exists_item hlo
    refine ⟨tokens c.flat, tokens (weave ks ((d :: cs).map fun s : Tree κ ν n => s.flat)), y, z, ?_,
      hy, ?_⟩
    · simp [Tree.flat_branch, weave]
    · rw [List.map_cons]
      cases ks with
      | nil =>
        rw [weave_nil, List.flatten_cons, tokens_append]
        exact List.mem_append_left _ hz
      | cons k ks =>
        rw [weave, tokens_append]
        exact List.mem_append_left _ hz

theorem rootKeys_ne {s x : Tree κ ν n}
    (hcross : ∀ a ∈ tokens s.flat, ∀ b ∈ tokens x.flat, a.Before b) (hord : Separated x.flat)
    (hs : 1 ≤ s.size) (hlo : 1 ≤ lo) (hx : x.Below lo hi) : s.rootKeys ≠ x.rootKeys := by
  intro heq
  obtain ⟨a, ks, hkeys⟩ : ∃ a ks, s.rootKeys = a :: ks := by
    rw [← List.ne_nil_iff_exists_cons, ← List.length_pos_iff, s.length_rootKeys]
    exact hs
  have hkeys' := heq ▸ hkeys
  cases n with
  | zero =>
    have hmem : ∀ (l : Tree κ ν 0), l.rootKeys = a :: ks → Token.item a ∈ tokens l.flat := by
      intro l hl
      have ha : a ∈ (Leaf.items l).map Prod.fst := by
        change a ∈ l.rootKeys
        rw [hl]
        exact List.mem_cons_self
      obtain ⟨p, hp, rfl⟩ := List.mem_map.mp ha
      exact mem_contents.mp ⟨p.2, List.mem_append_left _ hp⟩
    exact lt_irrefl a (hcross _ (hmem s hkeys) _ (hmem x hkeys'))
  | succ n =>
    have hsep : Token.sep a ∈ tokens s.flat := by
      obtain ⟨id, keys, children, hlen, rfl⟩ := exists_branch s
      obtain rfl : keys = a :: ks := hkeys
      match children, hlen with
      | c :: d :: cs, _ => simp [Tree.flat_branch, weave]
    obtain ⟨P, Q, y, z, hflat, hy, -⟩ := Tree.exists_around hkeys' hlo hx
    -- a pair of `x` before its first key lies between the two equal keys
    rw [Separated, hflat, List.pairwise_append] at hord
    have hlt : y < a := hord.2.2 _ hy _ List.mem_cons_self
    have hitem : Token.item y ∈ tokens x.flat := hflat ▸ List.mem_append_left _ hy
    have hle : a ≤ y := hcross _ hsep _ hitem
    exact absurd (hlt.trans_le hle) (lt_irrefl y)

/-- Where a parent finds one of its children. -/
theorem index_spec {f : Frame κ ν n} {c : Ctx κ ν (n + 1)} {x : Tree κ ν n}
    (hc : (Ctx.up f c).At t.node x.id) (hx : x.At t.node (some f.id)) (hlo : 1 ≤ lo)
    (hfull : ∀ s ∈ f.siblings, s.Full lo hi) (hbelow : x.Below lo hi)
    (hord : Separated (f.before ++ x.flat)) :
    t.index x.id (f.childrenWith Tree.id x.id) = some f.left.length := by
  have hlen : f.left.length = (f.left.map fun p => p.1.id).length := by rw [List.length_map]
  rw [Frame.childrenWith, hlen]
  apply index_append
  intro i hi
  obtain ⟨p, hp, rfl⟩ := List.mem_map.mp hi
  have hs : p.1 ∈ f.siblings := List.mem_append_left _ (List.mem_map_of_mem hp)
  rw [(hc.2.1 _ hs).keys_eq, hx.keys_eq]
  refine rootKeys_ne ?_ hord.append.2 (hlo.trans (hfull _ hs).1) hlo hbelow
  intro a ha b hb
  -- the separator after the sibling parts it from what follows
  obtain ⟨as, bs, hleft⟩ := List.append_of_mem hp
  have htokens : tokens (f.before ++ x.flat) =
      tokens (as.flatMap fun p => p.1.flat ++ [.sep p.2]) ++ (tokens p.1.flat ++ .sep p.2 ::
        (tokens (bs.flatMap fun p => p.1.flat ++ [.sep p.2]) ++ tokens x.flat)) := by
    simp [Frame.before, hleft]
  rw [Separated, htokens, List.pairwise_append, List.pairwise_append, List.pairwise_cons] at hord
  obtain ⟨-, ⟨-, ⟨hafter, -⟩, hbefore⟩, -⟩ := hord
  exact (hbefore a ha _ List.mem_cons_self).before (hafter b (List.mem_append_right _ hb))

end Siblings

end PySQL.BTree
