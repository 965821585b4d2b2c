import PySQL.BTree.Insert

/-!
# Two neighbours

Deletion mends a node with one of its neighbours: the two and the separator between them are a window
in the sequence, and what happens in it is all that happens.
-/

namespace PySQL.BTree

open BPlusTree

set_option linter.unusedSectionVars false

variable {κ ν : Type} [LinearOrder κ] [DecidableEq ν]
  {t t' : BPlusTree κ ν} {n : ℕ} {f : Frame κ ν n} {a b a' b' : Tree κ ν n} {k k' : κ}
  {lo hi : ℕ}

/-! ## The window -/

/-- A branch with two neighbouring children in the place of the one taken out. -/
def Frame.pair (f : Frame κ ν n) (a : Tree κ ν n) (k : κ) (b : Tree κ ν n) : Tree κ ν (n + 1) :=
  (f.putRight k b).fill a

/-- The frame with a child put in left of the one taken out. -/
def Frame.putLeft (f : Frame κ ν n) (a : Tree κ ν n) (k : κ) : Frame κ ν n :=
  { f with left := f.left ++ [(a, k)] }

namespace Frame

@[simp] theorem id_putLeft (f : Frame κ ν n) (a : Tree κ ν n) (k : κ) :
    (f.putLeft a k).id = f.id := rfl

/-- The two ways to look at neighbours. -/
theorem fill_putLeft (f : Frame κ ν n) (a : Tree κ ν n) (k : κ) (b : Tree κ ν n) :
    (f.putLeft a k).fill b = f.pair a k b := by
  have hkeys : (f.putLeft a k).keys = (f.putRight k b).keys := by
    simp [keys, putLeft, putRight]
  have hchildren : (f.putLeft a k).childrenWith (fun c => c) b =
      (f.putRight k b).childrenWith (fun c => c) a := by
    simp [childrenWith, putLeft, putRight]
  simp only [pair, fill, hkeys, hchildren]
  rfl

@[simp] theorem id_pair (f : Frame κ ν n) (a : Tree κ ν n) (k : κ) (b : Tree κ ν n) :
    (f.pair a k b).id = f.id := rfl

theorem flat_pair (f : Frame κ ν n) (a : Tree κ ν n) (k : κ) (b : Tree κ ν n) :
    (f.pair a k b).flat = f.before ++ (a.flat ++ .sep k :: b.flat) ++ f.after := by
  rw [pair, flat_fill]
  simp [before, after, putRight]

theorem size_pair (f : Frame κ ν n) (a : Tree κ ν n) (k : κ) (b : Tree κ ν n) :
    (f.pair a k b).size = f.left.length + f.right.length + 1 := by
  rw [pair, size_fill]
  rfl

theorem ids_pair (f : Frame κ ν n) (a : Tree κ ν n) (k : κ) (b : Tree κ ν n) :
    (f.pair a k b).ids.Perm (f.ids ++ (a.ids ++ b.ids)) := by
  refine ((f.putRight k b).ids_fill a).trans (((f.ids_putRight k b).append_right _).trans ?_)
  rw [List.append_assoc]
  exact List.perm_append_comm.append_left _

theorem mem_children_pair (f : Frame κ ν n) (a : Tree κ ν n) (k : κ) (b c : Tree κ ν n) :
    c ∈ Branch.children (f.pair a k b) ↔ c = a ∨ c = b ∨ c ∈ f.siblings := by
  rw [pair, mem_children_fill, (f.siblings_putRight k b).mem_iff, List.mem_cons]

/-- The keys and the children of the branch, as the code keeps them. -/
theorem fields_pair {h : ℕ → BPlusTreeNode κ ν} {parent : Option ℕ}
    (hx : (f.pair a k b).At h parent) :
    (h f.id).keys = f.left.map Prod.snd ++ k :: f.right.map Prod.fst ∧
      (h f.id).children =
        f.left.map (fun p => p.1.id) ++ a.id :: b.id :: f.right.map fun p => p.2.id :=
  Tree.At.children_eq hx

theorem below_pair : (f.pair a k b).Below lo hi ↔
    a.Full lo hi ∧ b.Full lo hi ∧ ∀ s ∈ f.siblings, s.Full lo hi := by
  rw [Tree.below_succ]
  constructor
  · intro h
    exact ⟨h a ((f.mem_children_pair a k b a).mpr (.inl rfl)),
      h b ((f.mem_children_pair a k b b).mpr (.inr (.inl rfl))),
      fun s hs => h s ((f.mem_children_pair a k b s).mpr (.inr (.inr hs)))⟩
  · rintro ⟨ha, hb, hs⟩ s hmem
    rcases (f.mem_children_pair a k b s).mp hmem with rfl | rfl | hmem
    · exact ha
    · exact hb
    · exact hs s hmem

end Frame

/-- What is known of two neighbours: where they lie, and that their nodes are their own. -/
structure Window (t : BPlusTree κ ν) (f : Frame κ ν n) (a b : Tree κ ν n) : Prop where
  left : a.At t.node (some f.id)
  right : b.At t.node (some f.id)
  leftNodup : a.ids.Nodup
  rightNodup : b.ids.Nodup
  parentLeft : f.id ∉ a.ids
  parentRight : f.id ∉ b.ids
  disjoint : ∀ i ∈ a.ids, i ∉ b.ids

variable {c : Ctx κ ν (n + 1)}

theorem Held.window (h : Held t c (f.pair a k b)) : Window t f a b := by
  have hall := h.focus.2
  have hnd := (f.ids_pair a k b).nodup_iff.mp (List.nodup_append'.mp h.nodup).2.1
  obtain ⟨-, hab, hdis⟩ := List.nodup_append'.mp hnd
  obtain ⟨ha, hb, hdis'⟩ := List.nodup_append'.mp hab
  exact {
    left := hall a ((f.mem_children_pair a k b a).mpr (.inl rfl))
    right := hall b ((f.mem_children_pair a k b b).mpr (.inr (.inl rfl)))
    leftNodup := ha
    rightNodup := hb
    parentLeft := fun hi => hdis List.mem_cons_self (List.mem_append_left _ hi)
    parentRight := fun hi => hdis List.mem_cons_self (List.mem_append_right _ hi)
    disjoint := fun i hi hi' => hdis' hi hi' }

/-- A change that is confined to the window. -/
theorem Held.setPair (h : Held t c (f.pair a k b)) (hia : a'.id = a.id) (hib : b'.id = b.id)
    (ha : a'.At t'.node (some f.id)) (hb : b'.At t'.node (some f.id))
    (hids : (a'.ids ++ b'.ids).Perm (a.ids ++ b.ids))
    (hleaves : leafIds a'.flat ++ leafIds b'.flat = leafIds a.flat ++ leafIds b.flat)
    (hf : t'.node f.id =
      { t.node f.id with keys := f.left.map Prod.snd ++ k' :: f.right.map Prod.fst })
    (hother : ∀ i, i ≠ f.id → i ∉ a.ids → i ∉ b.ids → t'.node i = t.node i)
    (hlinks : ∀ i, (t'.node i).prevLeaf = (t.node i).prevLeaf ∧
      (t'.node i).nextLeaf = (t.node i).nextLeaf)
    (hfresh : t'.fresh = t.fresh) (hr : t'.root = t.root) (hh : t'.height = t.height) :
    Held t' c (f.pair a' k' b') := by
  obtain ⟨-, hnd, hdis⟩ := List.nodup_append'.mp h.nodup
  have hperm := f.ids_pair a k b
  have hperm' : (f.pair a' k' b').ids.Perm (f.pair a k b).ids :=
    (f.ids_pair a' k' b').trans ((hids.append_left _).trans hperm.symm)
  have hin : ∀ i, i = f.id ∨ i ∈ a.ids ∨ i ∈ b.ids → i ∈ (f.pair a k b).ids := by
    intro i hi
    rw [hperm.mem_iff, List.mem_append, List.mem_append]
    rcases hi with rfl | hi | hi
    · exact .inl List.mem_cons_self
    · exact .inr (.inl hi)
    · exact .inr (.inr hi)
  refine h.setFocus rfl ⟨?_, fun s hs => ?_⟩ (fun i hi => ?_) (hperm'.nodup_iff.mpr hnd)
    hperm'.subset hfresh hr hh ?_
  · have hcore : (t.node f.id).core = _ := h.focus.1
    change (t'.node f.id).core = _
    rw [hf]
    calc _ = { (t.node f.id).core with
          keys := f.left.map Prod.snd ++ k' :: f.right.map Prod.fst } := rfl
      _ = _ := by
        rw [hcore]
        simp [Frame.pair, Frame.fill, Frame.keys, Frame.childrenWith, Frame.putRight, hia, hib]
  · rcases (f.mem_children_pair a' k' b' s).mp hs with rfl | rfl | hs
    · exact ha
    · exact hb
    · have hs' := h.focus.2 s ((f.mem_children_pair a k b s).mpr (.inr (.inr hs)))
      refine hs'.congr fun i hi => ?_
      have hif : i ∈ f.ids.tail := List.mem_flatMap.mpr ⟨s, hs, hi⟩
      obtain ⟨hfnd, -, hfdis⟩ := List.nodup_append'.mp (hperm.nodup_iff.mp hnd)
      rw [hother i]
      · exact fun heq => (List.nodup_cons.mp hfnd).1 (heq ▸ hif)
      · exact fun hia => hfdis (List.mem_cons_of_mem _ hif) (List.mem_append_left _ hia)
      · exact fun hib => hfdis (List.mem_cons_of_mem _ hif) (List.mem_append_right _ hib)
  · have hni : i ∉ (f.pair a k b).ids := fun hi' => hdis hi hi'
    rw [hother i (fun heq => hni (hin i (.inl heq))) (fun hia => hni (hin i (.inr (.inl hia))))
      fun hib => hni (hin i (.inr (.inr hib)))]
  · have hsame : leafIds (c.whole (f.pair a' k' b')) = leafIds (c.whole (f.pair a k b)) := by
      simp only [Ctx.whole, Frame.flat_pair, leafIds_append, leafIds_sep, List.append_assoc]
      rw [← List.append_assoc (leafIds a'.flat), hleaves, List.append_assoc]
    rw [hsame]
    exact h.linked.congr fun i _ => hlinks i

/-! ## A new separator -/

theorem setAt_append {α : Type} (as bs : List α) (x y : α) :
    setAt (as ++ x :: bs) as.length y = some (as ++ y :: bs) := by
  simp [setAt]

/-- A separator takes the key of the pair right of it. -/
theorem pairwise_moveSep {P Q : List (Token κ)} {z : κ}
    (h : (P ++ .sep k :: .item z :: Q).Pairwise Token.Upto) :
    (P ++ .sep z :: .item z :: Q).Pairwise Token.Upto := by
  refine pairwise_insertSep (h.sublist ((List.sublist_cons_self _ _).append_left P)) fun x hx => ?_
  rw [List.pairwise_append, List.pairwise_cons] at h
  have hxk : x < k := h.2.2 _ hx _ List.mem_cons_self
  have hkz : k ≤ z := h.2.1.1 _ List.mem_cons_self
  exact hxk.trans_le hkz

/-- A pair goes from the left of a separator to its right. -/
theorem pairwise_passRight {P Q : List (Token κ)} {z : κ}
    (h : (P ++ .item z :: .sep k :: Q).Pairwise Token.Upto) (hz : ∀ x, Token.item x ∈ P → x < z) :
    (P ++ .sep z :: .item z :: Q).Pairwise Token.Upto :=
  pairwise_insertSep (h.sublist (((List.sublist_cons_self _ _).cons_cons _).append_left P)) hz

/-- A pair goes from the right of a separator to its left, if another follows. -/
theorem pairwise_passLeft {P Q : List (Token κ)} {x z : κ}
    (h : (P ++ .sep k :: .item x :: .item z :: Q).Pairwise Token.Upto) (hxz : x < z) :
    (P ++ .item x :: .sep z :: .item z :: Q).Pairwise Token.Upto := by
  have hdrop : ((P ++ [Token.item x]) ++ .item z :: Q).Pairwise Token.Upto := by
    rw [List.append_assoc]
    exact h.sublist ((List.sublist_cons_self _ _).append_left P)
  have hbefore : ∀ y, Token.item y ∈ P ++ [Token.item x] → y < z := by
    intro y hy
    rw [List.pairwise_append, List.pairwise_cons] at h
    rcases List.mem_append.mp hy with hy | hy
    · have hyk : y < k := h.2.2 _ hy _ List.mem_cons_self
      have hkx : k ≤ x := h.2.1.1 _ List.mem_cons_self
      exact (hyk.trans_le hkx).trans hxz
    · obtain rfl := Token.item.inj (List.mem_singleton.mp hy)
      exact hxz
  simpa using pairwise_insertSep hdrop hbefore

/-- The last pair of a leaf has a key of its own. -/
def Tree.LendsLast : {n : ℕ} → Tree κ ν n → Prop
  | 0, l => Apart ((Leaf.items l).length - 1) ((Leaf.items l).map Prod.fst)
  | _ + 1, _ => True

/-- The first pair of a leaf has a key of its own. -/
def Tree.LendsFirst : {n : ℕ} → Tree κ ν n → Prop
  | 0, l => Apart 1 ((Leaf.items l).map Prod.fst)
  | _ + 1, _ => True

theorem lendsLast_leaf {id : ℕ} {A : List (κ × ν)} {p : κ × ν} :
    (leaf id (A ++ [p])).LendsLast ↔ ∀ q ∈ A, q.1 < p.1 := by
  have hlen : (A ++ [p]).length - 1 = (A.map Prod.fst).length := by simp
  change Apart ((A ++ [p]).length - 1) ((A ++ [p]).map Prod.fst) ↔ _
  rw [hlen, List.map_append, apart_append]
  simp

theorem lendsFirst_leaf {id : ℕ} {B : List (κ × ν)} {p q : κ × ν}
    (h : (leaf id (p :: q :: B)).LendsFirst) : p.1 < q.1 :=
  h p.1 List.mem_cons_self q.1 List.mem_cons_self

/-! ## A pair moves between leaves -/

theorem popLast_append {α : Type} (as : List α) (x : α) : popLast (as ++ [x]) = some (x, as) := by
  simp [popLast]

theorem popAt_zero {α : Type} (as : List α) (x : α) : popAt (x :: as) 0 = some (x, as) := rfl

/-- Leaves that exchange pairs while the separator between them is set to the first key of the right
one. -/
theorem Held.setLeaves {f : Frame κ ν 0} {c : Ctx κ ν 1} {ia ib : ℕ} {A B A' B' : List (κ × ν)}
    (h : Held t c (f.pair (leaf ia A) k (leaf ib B)))
    (hna : t'.node ia = { t.node ia with keys := A'.map Prod.fst, values := A'.map Prod.snd })
    (hnb : t'.node ib = { t.node ib with keys := B'.map Prod.fst, values := B'.map Prod.snd })
    (hf : t'.node f.id =
      { t.node f.id with keys := f.left.map Prod.snd ++ k' :: f.right.map Prod.fst })
    (hother : ∀ i, i ≠ f.id → i ≠ ia → i ≠ ib → t'.node i = t.node i)
    (hfresh : t'.fresh = t.fresh) (hr : t'.root = t.root) (hh : t'.height = t.height) :
    Held t' c (f.pair (leaf ia A') k' (leaf ib B')) := by
  have hw := h.window
  refine h.setPair rfl rfl (hw.left.setLeaf hna) (hw.right.setLeaf hnb) (List.Perm.refl _) rfl hf
    (fun i hif hia hib => ?_) (fun i => ?_) hfresh hr hh
  · exact hother i hif (fun heq => hia (List.mem_singleton.mpr heq))
      fun heq => hib (List.mem_singleton.mpr heq)
  · by_cases hif : i = f.id
    · rw [hif, hf]
      exact ⟨rfl, rfl⟩
    · by_cases hia : i = ia
      · rw [hia, hna]
        exact ⟨rfl, rfl⟩
      · by_cases hib : i = ib
        · rw [hib, hnb]
          exact ⟨rfl, rfl⟩
        · rw [hother i hif hia hib]
          exact ⟨rfl, rfl⟩

/-- The tokens of the whole sequence around two leaves. -/
theorem tokens_leaves (f : Frame κ ν 0) (c : Ctx κ ν 1) (ia ib : ℕ) (A B : List (κ × ν)) (k : κ) :
    tokens (c.whole (f.pair (leaf ia A) k (leaf ib B))) =
      tokens (c.before ++ f.before) ++ A.map (fun p => .item p.1) ++
        .sep k :: (B.map (fun p => .item p.1) ++ tokens (f.after ++ c.after)) := by
  simp [Ctx.whole, Frame.flat_pair]

theorem contents_pair (f : Frame κ ν n) (c : Ctx κ ν (n + 1)) (a b : Tree κ ν n) (k : κ) :
    contents (c.whole (f.pair a k b)) =
      contents (c.before ++ f.before) ++ (contents a.flat ++ contents b.flat) ++
        contents (f.after ++ c.after) := by
  simp [Ctx.whole, Frame.flat_pair]

/-- What moving keys between two neighbours comes to. -/
structure Moved (t t' : BPlusTree κ ν) (c : Ctx κ ν (n + 1)) (f : Frame κ ν n) (a : Tree κ ν n)
    (k : κ) (b : Tree κ ν n) (a' : Tree κ ν n) (k' : κ) (b' : Tree κ ν n) : Prop where
  held : Held t' c (f.pair a' k' b')
  separated : Separated (c.whole (f.pair a' k' b'))
  contents : contents (c.whole (f.pair a' k' b')) = contents (c.whole (f.pair a k b))
  below : ∀ {lo hi}, a.Below lo hi → b.Below lo hi → a'.Below lo hi ∧ b'.Below lo hi
  params : SameParams t t'

/-- The last pair of the left leaf becomes the first of the right one. -/
theorem leafFromLeft {f : Frame κ ν 0} {c : Ctx κ ν 1} {ia ib : ℕ} {A B : List (κ × ν)} {p : κ × ν}
    (h : Held t c (f.pair (leaf ia (A ++ [p])) k (leaf ib B)))
    (hord : Separated (c.whole (f.pair (leaf ia (A ++ [p])) k (leaf ib B))))
    (hlend : ∀ q ∈ A, q.1 < p.1) :
    ∃ t', t.redistributeFromLeft ib ia f.id (f.left.length + 1) = some t' ∧
      Moved t t' c f (leaf ia (A ++ [p])) k (leaf ib B) (leaf ia A) p.1 (leaf ib (p :: B)) := by
  have hw := h.window
  obtain ⟨hka, hva⟩ := hw.left.leaf_eq
  obtain ⟨hkb, hvb⟩ := hw.right.leaf_eq
  have hleaf : (t.node ib).isLeaf = true := hw.right.isLeaf_eq
  have hkf := (Frame.fields_pair h.focus).1
  have hfa : f.id ≠ ia := fun heq => hw.parentLeft (List.mem_singleton.mpr heq)
  have hfb : f.id ≠ ib := fun heq => hw.parentRight (List.mem_singleton.mpr heq)
  have hab : ia ≠ ib := fun heq =>
    hw.disjoint ia (List.mem_singleton_self _) (List.mem_singleton.mpr heq)
  have hset : setAt (t.node f.id).keys f.left.length p.1 =
      some (f.left.map Prod.snd ++ p.1 :: f.right.map Prod.fst) := by
    have hlen : f.left.length = (f.left.map Prod.snd).length := (List.length_map _).symm
    rw [hkf, hlen, setAt_append]
  rw [List.map_append, List.map_singleton] at hka hva
  have hrun : t.redistributeFromLeft ib ia f.id (f.left.length + 1) = some
      (((t.update ia ({ · with keys := A.map Prod.fst, values := A.map Prod.snd })).update ib fun n =>
        { n with keys := p.1 :: n.keys, values := p.2 :: n.values }).update f.id
          ({ · with keys := f.left.map Prod.snd ++ p.1 :: f.right.map Prod.fst })) := by
    rw [redistributeFromLeft, hka, hva, popLast_append, popLast_append]
    simp [hleaf, update_node_ne, hfa, hfb, hset]
  refine ⟨_, hrun, ?_⟩
  constructor
  case held =>
    refine h.setLeaves ?_ ?_ ?_ ?_ rfl rfl rfl
    · simp [update_node_ne, hfa.symm, hab]
    · simp [update_node_ne, hfb.symm, hab.symm, hkb, hvb]
    · simp [update_node_ne, hfa, hfb]
    · intro i hif hia hib
      simp [update_node_ne, hif, hia, hib]
  case separated =>
    have hbefore : ∀ x, Token.item x ∈ tokens (c.before ++ f.before) → x < p.1 := by
      have hup : Separated ((Ctx.up (f.putRight k (leaf ib B)) c).before ++
          (.leaf ⟨ia, A ++ [p]⟩ :: (Ctx.up (f.putRight k (leaf ib B)) c).after)) := by
        rw [Frame.pair, ← Ctx.whole_up, Ctx.whole, List.append_assoc] at hord
        exact hord
      exact fun x hx => Ctx.before_parted hup _ hx (.item p.1) (by simp)
    rw [Separated, tokens_leaves] at hord ⊢
    apply pairwise_passRight (k := k)
    · rw [List.map_append, ← List.append_assoc, List.append_assoc] at hord
      exact hord
    · intro x hx
      rcases List.mem_append.mp hx with hx | hx
      · exact hbefore x hx
      · obtain ⟨q, hq, heq⟩ := List.mem_map.mp hx
        obtain rfl := Token.item.inj heq
        exact hlend q hq
  case contents => simp [contents_pair]
  case below => exact fun _ _ => ⟨trivial, trivial⟩
  case params => exact ⟨rfl, rfl, rfl⟩

/-- The first pair of the right leaf becomes the last of the left one. -/
theorem leafFromRight {f : Frame κ ν 0} {c : Ctx κ ν 1} {ia ib : ℕ} {A B : List (κ × ν)}
    {p q : κ × ν} (h : Held t c (f.pair (leaf ia A) k (leaf ib (p :: q :: B))))
    (hord : Separated (c.whole (f.pair (leaf ia A) k (leaf ib (p :: q :: B)))))
    (hlend : p.1 < q.1) :
    ∃ t', t.redistributeFromRight ia ib f.id f.left.length = some t' ∧
      Moved t t' c f (leaf ia A) k (leaf ib (p :: q :: B)) (leaf ia (A ++ [p])) q.1
        (leaf ib (q :: B)) := by
  have hw := h.window
  obtain ⟨hka, hva⟩ := hw.left.leaf_eq
  obtain ⟨hkb, hvb⟩ := hw.right.leaf_eq
  have hleaf : (t.node ia).isLeaf = true := hw.left.isLeaf_eq
  have hkf := (Frame.fields_pair h.focus).1
  have hfa : f.id ≠ ia := fun heq => hw.parentLeft (List.mem_singleton.mpr heq)
  have hfb : f.id ≠ ib := fun heq => hw.parentRight (List.mem_singleton.mpr heq)
  have hab : ia ≠ ib := fun heq =>
    hw.disjoint ia (List.mem_singleton_self _) (List.mem_singleton.mpr heq)
  have hset : setAt (t.node f.id).keys f.left.length q.1 =
      some (f.left.map Prod.snd ++ q.1 :: f.right.map Prod.fst) := by
    have hlen : f.left.length = (f.left.map Prod.snd).length := (List.length_map _).symm
    rw [hkf, hlen, setAt_append]
  rw [List.map_cons] at hkb hvb
  have hrun : t.redistributeFromRight ia ib f.id f.left.length = some
      (((t.update ib ({ · with
          keys := (q :: B).map Prod.fst, values := (q :: B).map Prod.snd })).update ia fun n =>
        { n with keys := n.keys ++ [p.1], values := n.values ++ [p.2] }).update f.id
          ({ · with keys := f.left.map Prod.snd ++ q.1 :: f.right.map Prod.fst })) := by
    rw [redistributeFromRight, hkb, hvb, popAt_zero, popAt_zero]
    simp [hleaf, update_node_ne, hfa, hfb, hset]
  refine ⟨_, hrun, ?_⟩
  constructor
  case held =>
    refine h.setLeaves ?_ ?_ ?_ ?_ rfl rfl rfl
    · simp [update_node_ne, hfa.symm, hab, hka, hva]
    · simp [update_node_ne, hfb.symm, hab.symm]
    · simp [update_node_ne, hfa, hfb]
    · intro i hif hia hib
      simp [update_node_ne, hif, hia, hib]
  case separated =>
    rw [Separated, tokens_leaves] at hord ⊢
    rw [List.map_append, ← List.append_assoc, List.append_assoc]
    exact pairwise_passLeft (k := k) hord hlend
  case contents => simp [contents_pair]
  case below => exact fun _ _ => ⟨trivial, trivial⟩
  case params => exact ⟨rfl, rfl, rfl⟩

/-! ## A child moves between branches -/

section Children

variable {f : Frame κ ν (n + 1)} {c : Ctx κ ν (n + 2)} {ia ib : ℕ} {ks ks₂ ks' ks₂' : List κ}
  {cs cs₂ cs' cs₂' : List (Tree κ ν n)} {hl hr}

/-- The children of both neighbours, of which one has been given another parent. -/
theorem Window.afterMove (hw : Window t f (branch ia ks cs hl) (branch ib ks₂ cs₂ hr))
    {L R : List (Tree κ ν n)} {d : Tree κ ν n} (hcut : cs ++ cs₂ = L ++ d :: R) {j : Option ℕ}
    (hmoved : t'.node d.id = { t.node d.id with parent := j })
    (hother : ∀ i, i ≠ f.id → i ≠ ia → i ≠ ib → i ≠ d.id → t'.node i = t.node i) :
    (∀ s ∈ L ++ R, ∀ p, s.At t.node p → s.At t'.node p) ∧
      ∀ p, d.At t.node p → d.At t'.node j := by
  have hnd : ((cs ++ cs₂).flatMap Tree.ids).Nodup := by
    rw [List.flatMap_append, List.nodup_append']
    refine ⟨(List.nodup_cons.mp hw.leftNodup).2, (List.nodup_cons.mp hw.rightNodup).2, ?_⟩
    exact fun i hi hi' => hw.disjoint i (List.mem_cons_of_mem _ hi) (List.mem_cons_of_mem _ hi')
  have hne : ∀ i ∈ (cs ++ cs₂).flatMap Tree.ids, i ≠ f.id ∧ i ≠ ia ∧ i ≠ ib := by
    intro i hi
    rw [List.flatMap_append, List.mem_append] at hi
    rcases hi with hi | hi
    · refine ⟨fun heq => hw.parentLeft (heq ▸ List.mem_cons_of_mem _ hi), fun heq => ?_,
        fun heq => hw.disjoint i (List.mem_cons_of_mem _ hi) (heq ▸ List.mem_cons_self)⟩
      exact (List.nodup_cons.mp hw.leftNodup).1 (heq ▸ hi)
    · refine ⟨fun heq => hw.parentRight (heq ▸ List.mem_cons_of_mem _ hi),
        fun heq => hw.disjoint i (heq ▸ List.mem_cons_self) (List.mem_cons_of_mem _ hi),
        fun heq => ?_⟩
      exact (List.nodup_cons.mp hw.rightNodup).1 (heq ▸ hi)
  rw [hcut] at hnd hne
  have hperm : ((L ++ d :: R).flatMap Tree.ids).Perm (d.ids ++ (L ++ R).flatMap Tree.ids) := by
    have hmid := (@List.perm_middle _ d L R).flatMap_right Tree.ids
    rwa [List.flatMap_cons] at hmid
  obtain ⟨hdnd, -, hdis⟩ := List.nodup_append'.mp (hperm.nodup_iff.mp hnd)
  constructor
  · intro s hs p hsat
    refine hsat.congr fun i hi => ?_
    have hmem : i ∈ (L ++ R).flatMap Tree.ids := List.mem_flatMap.mpr ⟨s, hs, hi⟩
    obtain ⟨hif, hia, hib⟩ := hne i (hperm.mem_iff.mpr (List.mem_append_right _ hmem))
    rw [hother i hif hia hib fun heq => hdis (heq ▸ d.id_mem_ids) hmem]
  · intro p hdat
    refine hdat.reparent hdnd (by rw [hmoved]; rfl) fun i hi hid => ?_
    obtain ⟨hif, hia, hib⟩ := hne i (hperm.mem_iff.mpr (List.mem_append_left _ hi))
    rw [hother i hif hia hib hid]

/-- Branches that exchange children. -/
theorem Held.setBranches (h : Held t c (f.pair (branch ia ks cs hl) k (branch ib ks₂ cs₂ hr)))
    (hcut : cs' ++ cs₂' = cs ++ cs₂) (hl') (hr')
    (hleft : ∀ s ∈ cs', s.At t'.node (some ia)) (hright : ∀ s ∈ cs₂', s.At t'.node (some ib))
    (hna : t'.node ia = { t.node ia with keys := ks', children := cs'.map Tree.id })
    (hnb : t'.node ib = { t.node ib with keys := ks₂', children := cs₂'.map Tree.id })
    (hf : t'.node f.id =
      { t.node f.id with keys := f.left.map Prod.snd ++ k' :: f.right.map Prod.fst })
    {d : Tree κ ν n} (hd : d ∈ cs ++ cs₂) {j : Option ℕ}
    (hmoved : t'.node d.id = { t.node d.id with parent := j })
    (hother : ∀ i, i ≠ f.id → i ≠ ia → i ≠ ib → i ≠ d.id → t'.node i = t.node i)
    (hfresh : t'.fresh = t.fresh) (hroot : t'.root = t.root) (hheight : t'.height = t.height) :
    Held t' c (f.pair (branch ia ks' cs' hl') k' (branch ib ks₂' cs₂' hr')) := by
  have hw := h.window
  refine h.setPair rfl rfl (hw.left.setBranch hna hleft hl') (hw.right.setBranch hnb hright hr')
    ?_ ?_ hf (fun i hif hia hib => ?_) (fun i => ?_) hfresh hroot hheight
  · have hmid : ∀ xs ys : List (Tree κ ν n), ((ia :: xs.flatMap Tree.ids) ++
        (ib :: ys.flatMap Tree.ids)).Perm (ia :: ib :: (xs ++ ys).flatMap Tree.ids) := by
      intro xs ys
      rw [List.flatMap_append, List.cons_append]
      exact List.perm_middle.cons _
    refine (hmid cs' cs₂').trans ?_
    rw [hcut]
    exact (hmid cs cs₂).symm
  · simp only [Tree.flat_branch, leafIds_weave]
    rw [← List.flatMap_append, ← List.flatMap_append, ← List.map_append, ← List.map_append, hcut]
  · refine hother i hif (fun heq => hia (heq ▸ List.mem_cons_self))
      (fun heq => hib (heq ▸ List.mem_cons_self)) fun heq => ?_
    rcases List.mem_append.mp hd with hd | hd
    · exact hia (List.mem_cons_of_mem _ (List.mem_flatMap.mpr ⟨d, hd, heq ▸ d.id_mem_ids⟩))
    · exact hib (List.mem_cons_of_mem _ (List.mem_flatMap.mpr ⟨d, hd, heq ▸ d.id_mem_ids⟩))
  · by_cases hif : i = f.id
    · rw [hif, hf]
      exact ⟨rfl, rfl⟩
    · by_cases hia : i = ia
      · rw [hia, hna]
        exact ⟨rfl, rfl⟩
      · by_cases hib : i = ib
        · rw [hib, hnb]
          exact ⟨rfl, rfl⟩
        · by_cases hid : i = d.id
          · rw [hid, hmoved]
            exact ⟨rfl, rfl⟩
          · rw [hother i hif hia hib hid]
            exact ⟨rfl, rfl⟩

/-- A branch with one child more at an end, and the sequence of two neighbours. -/
theorem flat_rotate {i j : ℕ} {m : κ} {d : Tree κ ν n} (hl hr hl' hr') :
    (branch i (ks ++ [m]) (cs ++ [d]) hl).flat ++ .sep k :: (branch j ks₂ cs₂ hr).flat =
      (branch i ks cs hl').flat ++ .sep m :: (branch j (k :: ks₂) (d :: cs₂) hr').flat := by
  have hlen : (cs.map fun s : Tree κ ν n => s.flat).length = ks.length + 1 :=
    (List.length_map _).trans hl'
  simp only [Tree.flat_branch, List.map_append, weave_append hlen, List.map_cons, List.map_nil]
  simp [weave]

/-- Two neighbours that hold the same sequence as before between them. -/
theorem whole_pair_congr {f : Frame κ ν n} {c : Ctx κ ν (n + 1)} {a b a' b' : Tree κ ν n} {k k' : κ}
    (h : a.flat ++ .sep k :: b.flat = a'.flat ++ .sep k' :: b'.flat) :
    c.whole (f.pair a' k' b') = c.whole (f.pair a k b) := by
  rw [Ctx.whole, Ctx.whole, Frame.flat_pair, Frame.flat_pair, h]

/-- The last child of the left branch becomes the first of the right one. -/
theorem branchFromLeft {m : κ} {d : Tree κ ν n} {hl hr}
    (h : Held t c (f.pair (branch ia (ks ++ [m]) (cs ++ [d]) hl) k (branch ib ks₂ cs₂ hr)))
    (hord : Separated (c.whole (f.pair (branch ia (ks ++ [m]) (cs ++ [d]) hl) k
      (branch ib ks₂ cs₂ hr)))) (hl') (hr') :
    ∃ t', t.redistributeFromLeft ib ia f.id (f.left.length + 1) = some t' ∧
      Moved t t' c f (branch ia (ks ++ [m]) (cs ++ [d]) hl) k (branch ib ks₂ cs₂ hr)
        (branch ia ks cs hl') m (branch ib (k :: ks₂) (d :: cs₂) hr') := by
  have hw := h.window
  obtain ⟨hka, hca, hkids⟩ := hw.left.branch_eq
  obtain ⟨hkb, hcb, hkids₂⟩ := hw.right.branch_eq
  have hleaf : (t.node ib).isLeaf = false := hw.right.isLeaf_eq
  have hkf := (Frame.fields_pair h.focus).1
  have hfa : f.id ≠ ia := fun heq => hw.parentLeft (heq ▸ List.mem_cons_self)
  have hfb : f.id ≠ ib := fun heq => hw.parentRight (heq ▸ List.mem_cons_self)
  have hab : ia ≠ ib := fun heq => hw.disjoint ia List.mem_cons_self (heq ▸ List.mem_cons_self)
  have hdmem : d.id ∈ (cs ++ [d]).flatMap Tree.ids :=
    List.mem_flatMap.mpr ⟨d, List.mem_append_right _ (List.mem_singleton_self d), d.id_mem_ids⟩
  have hda : d.id ≠ ia := fun heq => (List.nodup_cons.mp hw.leftNodup).1 (heq ▸ hdmem)
  have hdb : d.id ≠ ib := fun heq =>
    hw.disjoint d.id (List.mem_cons_of_mem _ hdmem) (heq ▸ List.mem_cons_self)
  have hdf : d.id ≠ f.id := fun heq => hw.parentLeft (heq ▸ List.mem_cons_of_mem _ hdmem)
  have hlen : f.left.length = (f.left.map Prod.snd).length := (List.length_map _).symm
  have hget : (t.node f.id).keys[f.left.length]? = some k := by
    rw [hkf, hlen, List.getElem?_append_right le_rfl, Nat.sub_self]
    rfl
  have hset : setAt (t.node f.id).keys f.left.length m =
      some (f.left.map Prod.snd ++ m :: f.right.map Prod.fst) := by
    rw [hkf, hlen, setAt_append]
  rw [List.map_append, List.map_singleton] at hca
  generalize ht' : ((((t.update ib fun n =>
      { n with keys := k :: n.keys, children := d.id :: n.children }).update f.id
      ({ · with keys := f.left.map Prod.snd ++ m :: f.right.map Prod.fst })).update ia
      ({ · with keys := ks, children := cs.map Tree.id })).update d.id
      ({ · with parent := some ib })) = t'
  have hrun : t.redistributeFromLeft ib ia f.id (f.left.length + 1) = some t' := by
    rw [← ht', redistributeFromLeft, hka, hca, popLast_append, popLast_append]
    simp [hleaf, hget, hset]
  have hmoved : t'.node d.id = { t.node d.id with parent := some ib } := by
    rw [← ht']
    simp [update_node_ne, hda, hdb, hdf]
  have hother : ∀ i, i ≠ f.id → i ≠ ia → i ≠ ib → i ≠ d.id → t'.node i = t.node i := by
    intro i hif hia hib hid
    rw [← ht']
    simp [update_node_ne, hif, hia, hib, hid]
  have hcut : (cs ++ [d]) ++ cs₂ = cs ++ d :: cs₂ := by simp
  obtain ⟨hkeep, hgive⟩ := hw.afterMove hcut hmoved hother
  have hflat := flat_rotate (i := ia) (j := ib) (k := k) (m := m) hl hr hl' hr'
  refine ⟨t', hrun, ?_⟩
  constructor
  case held =>
    refine h.setBranches hcut.symm hl' hr' (fun s hs => ?_) (fun s hs => ?_) ?_ ?_ ?_
      (hcut ▸ List.mem_append_right _ List.mem_cons_self) hmoved hother ?_ ?_ ?_
    · exact hkeep s (List.mem_append_left _ hs) _ (hkids s (List.mem_append_left _ hs))
    · rcases List.mem_cons.mp hs with rfl | hs
      · exact hgive _ (hkids s (List.mem_append_right _ (List.mem_singleton_self s)))
      · exact hkeep s (List.mem_append_right _ hs) _ (hkids₂ s hs)
    all_goals rw [← ht']
    · simp [update_node_ne, hda.symm, hfa.symm, hab]
    · simp [update_node_ne, hdb.symm, hfb.symm, hab.symm, hkb, hcb]
    · simp [update_node_ne, hdf.symm, hfa, hfb]
    all_goals rfl
  case separated => exact whole_pair_congr hflat ▸ hord
  case contents => rw [whole_pair_congr hflat]
  case below =>
    intro lo hi ha hb
    refine ⟨fun s hs => ha s (List.mem_append_left _ hs), fun s hs => ?_⟩
    rcases List.mem_cons.mp hs with rfl | hs
    · exact ha s (List.mem_append_right _ (List.mem_singleton_self s))
    · exact hb s hs
  case params => exact ht' ▸ ⟨rfl, rfl, rfl⟩

/-- The first child of the right branch becomes the last of the left one. -/
theorem branchFromRight {m : κ} {d : Tree κ ν n} {hl hr}
    (h : Held t c (f.pair (branch ia ks cs hl) k (branch ib (m :: ks₂) (d :: cs₂) hr)))
    (hord : Separated (c.whole (f.pair (branch ia ks cs hl) k
      (branch ib (m :: ks₂) (d :: cs₂) hr)))) (hl') (hr') :
    ∃ t', t.redistributeFromRight ia ib f.id f.left.length = some t' ∧
      Moved t t' c f (branch ia ks cs hl) k (branch ib (m :: ks₂) (d :: cs₂) hr)
        (branch ia (ks ++ [k]) (cs ++ [d]) hl') m (branch ib ks₂ cs₂ hr') := by
  have hw := h.window
  obtain ⟨hka, hca, hkids⟩ := hw.left.branch_eq
  obtain ⟨hkb, hcb, hkids₂⟩ := hw.right.branch_eq
  have hleaf : (t.node ia).isLeaf = false := hw.left.isLeaf_eq
  have hkf := (Frame.fields_pair h.focus).1
  have hfa : f.id ≠ ia := fun heq => hw.parentLeft (heq ▸ List.mem_cons_self)
  have hfb : f.id ≠ ib := fun heq => hw.parentRight (heq ▸ List.mem_cons_self)
  have hab : ia ≠ ib := fun heq => hw.disjoint ia List.mem_cons_self (heq ▸ List.mem_cons_self)
  have hdmem : d.id ∈ (d :: cs₂).flatMap Tree.ids :=
    List.mem_flatMap.mpr ⟨d, List.mem_cons_self, d.id_mem_ids⟩
  have hdb : d.id ≠ ib := fun heq => (List.nodup_cons.mp hw.rightNodup).1 (heq ▸ hdmem)
  have hda : d.id ≠ ia := fun heq =>
    hw.disjoint ia List.mem_cons_self (heq ▸ List.mem_cons_of_mem _ hdmem)
  have hdf : d.id ≠ f.id := fun heq => hw.parentRight (heq ▸ List.mem_cons_of_mem _ hdmem)
  have hlen : f.left.length = (f.left.map Prod.snd).length := (List.length_map _).symm
  have hget : (t.node f.id).keys[f.left.length]? = some k := by
    rw [hkf, hlen, List.getElem?_append_right le_rfl, Nat.sub_self]
    rfl
  have hset : setAt (t.node f.id).keys f.left.length m =
      some (f.left.map Prod.snd ++ m :: f.right.map Prod.fst) := by
    rw [hkf, hlen, setAt_append]
  rw [List.map_cons] at hcb
  generalize ht' : ((((t.update ia fun n =>
      { n with keys := n.keys ++ [k], children := n.children ++ [d.id] }).update f.id
      ({ · with keys := f.left.map Prod.snd ++ m :: f.right.map Prod.fst })).update ib
      ({ · with keys := ks₂, children := cs₂.map Tree.id })).update d.id
      ({ · with parent := some ia })) = t'
  have hrun : t.redistributeFromRight ia ib f.id f.left.length = some t' := by
    rw [← ht', redistributeFromRight, hkb, hcb, popAt_zero, popAt_zero]
    simp [hleaf, hget, hset]
  have hmoved : t'.node d.id = { t.node d.id with parent := some ia } := by
    rw [← ht']
    simp [update_node_ne, hda, hdb, hdf]
  have hother : ∀ i, i ≠ f.id → i ≠ ia → i ≠ ib → i ≠ d.id → t'.node i = t.node i := by
    intro i hif hia hib hid
    rw [← ht']
    simp [update_node_ne, hif, hia, hib, hid]
  have hcut : cs ++ d :: cs₂ = (cs ++ [d]) ++ cs₂ := by simp
  obtain ⟨hkeep, hgive⟩ := hw.afterMove rfl hmoved hother
  have hflat := flat_rotate (i := ia) (j := ib) (k := m) (m := k) hl' hr' hl hr
  refine ⟨t', hrun, ?_⟩
  constructor
  case held =>
    refine h.setBranches hcut.symm hl' hr' (fun s hs => ?_) (fun s hs => ?_) ?_ ?_ ?_
      (List.mem_append_right _ List.mem_cons_self) hmoved hother ?_ ?_ ?_
    · rcases List.mem_append.mp hs with hs | hs
      · exact hkeep s (List.mem_append_left _ hs) _ (hkids s hs)
      · obtain rfl := List.mem_singleton.mp hs
        exact hgive _ (hkids₂ s List.mem_cons_self)
    · exact hkeep s (List.mem_append_right _ hs) _ (hkids₂ s (List.mem_cons_of_mem _ hs))
    all_goals rw [← ht']
    · simp [update_node_ne, hda.symm, hfa.symm, hab, hka, hca]
    · simp [update_node_ne, hdb.symm, hfb.symm, hab.symm]
    · simp [update_node_ne, hdf.symm, hfa, hfb]
    all_goals rfl
  case separated => exact whole_pair_congr hflat.symm ▸ hord
  case contents => rw [whole_pair_congr hflat.symm]
  case below =>
    intro lo hi ha hb
    refine ⟨fun s hs => ?_, fun s hs => hb s (List.mem_cons_of_mem _ hs)⟩
    rcases List.mem_append.mp hs with hs | hs
    · exact ha s hs
    · obtain rfl := List.mem_singleton.mp hs
      exact hb s List.mem_cons_self
  case params => exact ht' ▸ ⟨rfl, rfl, rfl⟩

end Children

/-! ## Any two neighbours -/

variable {f : Frame κ ν n} {c : Ctx κ ν (n + 1)}

theorem redistributeFromLeft_spec (h : Held t c (f.pair a k b))
    (hord : Separated (c.whole (f.pair a k b))) (ha : 1 ≤ a.size) (hlend : a.LendsLast) :
    ∃ t' a' k' b', t.redistributeFromLeft b.id a.id f.id (f.left.length + 1) = some t' ∧
      Moved t t' c f a k b a' k' b' ∧ a'.size + 1 = a.size ∧ b'.size = b.size + 1 := by
  cases n with
  | zero =>
    obtain ⟨ia, A, rfl⟩ := exists_leaf a
    obtain ⟨ib, B, rfl⟩ := exists_leaf b
    rcases A.eq_nil_or_concat with rfl | ⟨A, p, rfl⟩
    · rw [Tree.size_leaf, List.length_nil] at ha
      omega
    · rw [List.concat_eq_append] at h hord hlend ⊢
      obtain ⟨t', hrun, hmoved⟩ := leafFromLeft h hord (lendsLast_leaf.mp hlend)
      exact ⟨t', _, _, _, hrun, hmoved, by simp, by simp⟩
  | succ n =>
    obtain ⟨ia, ks, cs, hl, rfl⟩ := exists_branch a
    obtain ⟨ib, ks₂, cs₂, hr, rfl⟩ := exists_branch b
    rcases ks.eq_nil_or_concat with rfl | ⟨ks, m, rfl⟩
    · rw [Tree.size_branch, List.length_nil] at ha
      omega
    rcases cs.eq_nil_or_concat with rfl | ⟨cs, d, rfl⟩
    · simp at hl
    simp only [List.concat_eq_append] at h hord hl ⊢
    have hl' : cs.length = ks.length + 1 := by simpa using hl
    have hr' : (d :: cs₂).length = (k :: ks₂).length + 1 := by simpa using hr
    obtain ⟨t', hrun, hmoved⟩ := branchFromLeft h hord hl' hr'
    exact ⟨t', _, _, _, hrun, hmoved, by simp, by simp⟩

theorem redistributeFromRight_spec (h : Held t c (f.pair a k b))
    (hord : Separated (c.whole (f.pair a k b))) (hb : 2 ≤ b.size) (hlend : b.LendsFirst) :
    ∃ t' a' k' b', t.redistributeFromRight a.id b.id f.id f.left.length = some t' ∧
      Moved t t' c f a k b a' k' b' ∧ a'.size = a.size + 1 ∧ b'.size + 1 = b.size := by
  cases n with
  | zero =>
    obtain ⟨ia, A, rfl⟩ := exists_leaf a
    obtain ⟨ib, B, rfl⟩ := exists_leaf b
    match B, hb with
    | p :: q :: B, _ =>
      obtain ⟨t', hrun, hmoved⟩ := leafFromRight h hord (lendsFirst_leaf hlend)
      exact ⟨t', _, _, _, hrun, hmoved, by simp, by simp⟩
  | succ n =>
    obtain ⟨ia, ks, cs, hl, rfl⟩ := exists_branch a
    obtain ⟨ib, ks₂, cs₂, hr, rfl⟩ := exists_branch b
    match ks₂, cs₂, hr, hb with
    | m :: ks₂, d :: cs₂, hr, _ =>
      have hl' : (cs ++ [d]).length = (ks ++ [k]).length + 1 := by simpa using hl
      have hr' : cs₂.length = ks₂.length + 1 := by simpa using hr
      obtain ⟨t', hrun, hmoved⟩ := branchFromRight h hord hl' hr'
      exact ⟨t', _, _, _, hrun, hmoved, by simp, by simp⟩

/-- After a key has been moved the tree is a B+ tree if the neighbours are as full as they should
be. -/
theorem Moved.stores {a' b' : Tree κ ν n} {k' : κ} (h : Moved t t' c f a k b a' k' b')
    (hc : c.Full lo (t.order - 1)) (hs : ∀ s ∈ f.siblings, s.Full lo (t.order - 1))
    (ha : a.Below lo (t.order - 1)) (hb : b.Below lo (t.order - 1))
    (hleast : c.least lo ≤ (f.pair a k b).size) (hmost : (f.pair a k b).size ≤ t.order - 1)
    (ha' : lo ≤ a'.size ∧ a'.size ≤ t.order - 1) (hb' : lo ≤ b'.size ∧ b'.size ≤ t.order - 1) :
    StoresFrom lo t' (c.whole (f.pair a' k' b')) := by
  refine storesFrom_of_held h.held ?_
  rw [h.params.order]
  obtain ⟨hba, hbb⟩ := h.below ha hb
  refine ⟨hc, Frame.below_pair.mpr ⟨⟨ha'.1, ha'.2, hba⟩, ⟨hb'.1, hb'.2, hbb⟩, hs⟩, ?_, ?_⟩
  · rw [Frame.size_pair] at hleast ⊢
    exact hleast
  · rw [Frame.size_pair] at hmost ⊢
    exact hmost

end PySQL.BTree
