import PySQL.BTree.Refine
import PySQL.Lib.Chunks

/-!
# Bulk loading

`bulk_load` cuts the pairs into full leaves, and makes a level of branches above a level until one
node is left.  The separators of a branch are the first keys of its children, which is right only
where these are leaves: the tree answers like one that was built by insertion as long as one branch
holds all leaves.
-/

namespace PySQL.BTree

open BPlusTree Lib

set_option linter.unusedSectionVars false

variable {κ ν : Type} [LinearOrder κ] [DecidableEq ν]

namespace BPlusTree

/-- The loop over the pairs: the keys and values of the current leaf, which is made when it is full or
no pair is left.  Returns the new leaves. -/
def bulkLeaves (t : BPlusTree κ ν) (keys : List κ) (values : List ν) :
    List (κ × ν) → BPlusTree κ ν × List ℕ
  | [] => if keys = [] then (t, []) else (t.alloc { keys, values, isLeaf := true }, [t.fresh])
  | (key, value) :: items =>
    let keys := keys ++ [key]
    let values := values ++ [value]
    if keys.length = t.order - 1 then
      let rest := (t.alloc { keys, values, isLeaf := true }).bulkLeaves [] [] items
      (rest.1, t.fresh :: rest.2)
    else t.bulkLeaves keys values items

/-- Link leaves to their neighbours. -/
def linkLeaves (t : BPlusTree κ ν) : List ℕ → BPlusTree κ ν
  | a :: b :: leaves =>
    ((t.update a ({ · with nextLeaf := some b })).update b
      ({ · with prevLeaf := some a })).linkLeaves (b :: leaves)
  | _ => t

/-- The parents of the nodes in a level, which is given in slices of `order` nodes. -/
def bulkParents (t : BPlusTree κ ν) : List (List ℕ) → Option (BPlusTree κ ν × List ℕ)
  | [] => some (t, [])
  | children :: slices => do
    let keys ← children.tail.mapM fun child => (t.node child).keys.head?
    let parent := t.fresh
    let t := (t.alloc { keys, children, isLeaf := false }).setParents parent children
    let (t, parents) ← t.bulkParents slices
    some (t, parent :: parents)

/-- Build internal levels bottom-up. -/
def bulkLevels : ℕ → BPlusTree κ ν → List ℕ → Option (BPlusTree κ ν)
  | fuel, t, level =>
    if 1 < level.length then
      match fuel with
      | 0 => none
      | fuel + 1 => do
        let t := { t with height := t.height + 1 }
        let (t, parents) ← t.bulkParents (chunks t.order level)
        bulkLevels fuel t parents
    else do
      let root ← level.head?
      some { t with root := root }

theorem bulkLevels_singleton (fuel : ℕ) (t : BPlusTree κ ν) (root : ℕ) :
    bulkLevels fuel t [root] = some { t with root := root } := by
  unfold bulkLevels
  rfl

theorem bulkLevels_succ (fuel : ℕ) (t : BPlusTree κ ν) {level : List ℕ} (h : 1 < level.length) :
    bulkLevels (fuel + 1) t level =
      ({ t with height := t.height + 1 }.bulkParents (chunks t.order level)).bind fun r =>
        bulkLevels fuel r.1 r.2 := by
  rw [bulkLevels.eq_def]
  simp only [if_pos h]
  rfl

theorem bulkParents_length {t t' : BPlusTree κ ν} {slices : List (List ℕ)} {parents : List ℕ}
    (h : t.bulkParents slices = some (t', parents)) :
    parents.length = slices.length ∧ t'.order = t.order := by
  induction slices generalizing t parents with
  | nil =>
    obtain ⟨rfl, rfl⟩ := Prod.mk.inj (Option.some.inj h)
    exact ⟨rfl, rfl⟩
  | cons s slices ih =>
    rw [bulkParents] at h
    simp only [Option.bind_eq_bind, Option.bind_eq_some_iff, Option.some.injEq, Prod.mk.injEq] at h
    obtain ⟨keys, -, r, hrest, rfl, rfl⟩ := h
    obtain ⟨hlen, horder⟩ := ih hrest
    refine ⟨congrArg (· + 1) hlen, horder.trans ?_⟩
    exact (setParents_spec _ _ _).2.1.order

/-- The bound on the number of levels is never reached, so that `none` stands for an exception. -/
theorem bulkLevels_of_length_le {t : BPlusTree κ ν} (horder : 2 ≤ t.order) {level : List ℕ}
    {fuel fuel' : ℕ} (h : level.length ≤ fuel) (h' : level.length ≤ fuel') :
    bulkLevels fuel t level = bulkLevels fuel' t level := by
  induction fuel generalizing fuel' t level with
  | zero =>
    rw [List.eq_nil_of_length_eq_zero (Nat.le_zero.mp h), bulkLevels.eq_def, bulkLevels.eq_def]
    rfl
  | succ fuel ih =>
    by_cases hlen : 1 < level.length
    · obtain ⟨fuel', rfl⟩ := Nat.exists_eq_succ_of_ne_zero (by omega : fuel' ≠ 0)
      rw [bulkLevels_succ _ _ hlen, bulkLevels_succ _ _ hlen]
      refine Option.bind_congr fun r hr => ?_
      obtain ⟨hparents, hsame⟩ := bulkParents_length hr
      have hfewer := length_chunks_lt horder hlen
      exact ih (hsame ▸ horder) (by omega) (by omega)
    · rw [bulkLevels.eq_def, bulkLevels.eq_def]
      simp only [if_neg hlen]

/-- Build the tree from a sorted list of (key, value) pairs. -/
def bulkLoad (t : BPlusTree κ ν) (items : List (κ × ν)) : Option (BPlusTree κ ν) :=
  if items = [] then some t
  else
    let (t, leaves) := t.bulkLeaves [] [] items
    let t := { t.linkLeaves leaves with size := items.length }
    match leaves with
    | [leaf] => some { t with root := leaf, height := 1 }
    | leaves => bulkLevels leaves.length { t with height := 1 } leaves

end BPlusTree

variable {t t' : BPlusTree κ ν} {items : List (κ × ν)} {ids : List ℕ} {cs : List (List (κ × ν))}

/-! ## The leaves -/

/-- The nodes hold the pairs of the chunks, and are not linked yet. -/
def HoldChunks (t : BPlusTree κ ν) : List ℕ → List (List (κ × ν)) → Prop :=
  List.Forall₂ fun i c => t.node i = { keys := c.map Prod.fst, values := c.map Prod.snd }

theorem bulkLeaves_spec (hn : 1 ≤ t.order - 1) (cur : List (κ × ν)) (hcur : cur.length < t.order - 1)
    (items : List (κ × ν)) :
    ∃ t' leaves, t.bulkLeaves (cur.map Prod.fst) (cur.map Prod.snd) items = (t', leaves) ∧
      HoldChunks t' leaves (chunks (t.order - 1) (cur ++ items)) ∧
      leaves = List.range' t.fresh leaves.length ∧ t'.fresh = t.fresh + leaves.length ∧
      (∀ i < t.fresh, t'.node i = t.node i) ∧ t'.order = t.order ∧ t'.minKeys = t.minKeys := by
  induction items generalizing t cur with
  | nil =>
    rw [bulkLeaves, List.append_nil]
    by_cases hnil : cur = []
    · subst hnil
      exact ⟨t, [], rfl, .nil, rfl, rfl, fun _ _ => rfl, rfl, rfl⟩
    · rw [if_neg (by simpa using hnil), chunks_of_length_le hn hnil hcur.le]
      refine ⟨_, _, rfl, .cons ?_ .nil, rfl, rfl, fun i hi => alloc_node_ne _ _ hi.ne, rfl, rfl⟩
      rw [alloc_node_fresh]
  | cons p items ih =>
    obtain ⟨key, value⟩ := p
    have hkeys : cur.map Prod.fst ++ [key] = (cur ++ [(key, value)]).map Prod.fst := by simp
    have hvalues : cur.map Prod.snd ++ [value] = (cur ++ [(key, value)]).map Prod.snd := by simp
    have hlen : ((cur ++ [(key, value)]).map Prod.fst).length = cur.length + 1 := by simp
    rw [List.append_cons, bulkLeaves, hkeys, hvalues]
    simp only [hlen]
    split
    · next hfull =>
      generalize ht₁ : t.alloc { keys := (cur ++ [(key, value)]).map Prod.fst
                                 values := (cur ++ [(key, value)]).map Prod.snd } = t₁
      have horder : t₁.order = t.order := by rw [← ht₁, alloc_order]
      have hfresh : t₁.fresh = t.fresh + 1 := by rw [← ht₁, alloc_fresh]
      obtain ⟨t', leaves, hrun, hheld, hids, hfresh', hsame, horder', hmin'⟩ :=
        ih (t := t₁) (horder ▸ hn) [] (by rw [horder]; exact hn)
      rw [List.map_nil, List.map_nil] at hrun
      rw [hrun]
      rw [List.nil_append, horder] at hheld
      have hlength : (cur ++ [(key, value)]).length = t.order - 1 := by
        rw [List.length_append, List.length_singleton]
        exact hfull
      refine ⟨t', t.fresh :: leaves, rfl, ?_, ?_, ?_, fun i hi => ?_, horder'.trans horder, ?_⟩
      · rw [chunks_append hn hlength]
        refine .cons ?_ hheld
        rw [hsame _ (by omega), ← ht₁, alloc_node_fresh]
      · rw [List.length_cons, List.range'_succ, ← hfresh, ← hids]
      · rw [hfresh', hfresh, List.length_cons]
        omega
      · rw [hsame i (by omega), ← ht₁, alloc_node_ne _ _ hi.ne]
      · rw [hmin', ← ht₁, alloc_minKeys]
    · next hmore =>
      refine ih hn (cur ++ [(key, value)]) ?_
      rw [List.length_append, List.length_singleton]
      omega

/-- Linking changes nothing but the links. -/
theorem linkLeaves_spec {leaf : ℕ} {leaves : List ℕ} (hnd : (leaf :: leaves).Nodup)
    (hnone : ∀ i ∈ leaf :: leaves, (t.node i).nextLeaf = none) :
    ∃ t', t.linkLeaves (leaf :: leaves) = t' ∧
      Linked t'.node (t.node leaf).prevLeaf (leaf :: leaves) ∧
      (∀ i, (t'.node i).core = (t.node i).core) ∧ (∀ i, i ∉ leaf :: leaves → t'.node i = t.node i) ∧
      t'.order = t.order ∧ t'.minKeys = t.minKeys ∧ t'.fresh = t.fresh := by
  induction leaves generalizing t leaf with
  | nil =>
    exact ⟨t, rfl, ⟨rfl, hnone leaf List.mem_cons_self, trivial⟩, fun _ => rfl, fun _ _ => rfl, rfl,
      rfl, rfl⟩
  | cons b leaves ih =>
    obtain ⟨hleaf, hnd'⟩ := List.nodup_cons.mp hnd
    have hne : leaf ≠ b := fun heq => hleaf (heq ▸ List.mem_cons_self)
    generalize ht₁ : (t.update leaf ({ · with nextLeaf := some b })).update b
      ({ · with prevLeaf := some leaf }) = t₁
    have hfirst : t₁.node leaf = { t.node leaf with nextLeaf := some b } := by
      rw [← ht₁, update_node_ne _ _ hne, update_node_self]
    have hsecond : t₁.node b = { t.node b with prevLeaf := some leaf } := by
      rw [← ht₁, update_node_self, update_node_ne _ _ hne.symm]
    have hother : ∀ i, i ≠ leaf → i ≠ b → t₁.node i = t.node i := by
      intro i hi hib
      rw [← ht₁, update_node_ne _ _ hib, update_node_ne _ _ hi]
    have hnone₁ : ∀ i ∈ b :: leaves, (t₁.node i).nextLeaf = none := by
      intro i hi
      have hold := hnone i (List.mem_cons_of_mem _ hi)
      by_cases hib : i = b
      · rw [hib, hsecond]
        exact hib ▸ hold
      · rw [hother i (fun heq => hleaf (heq ▸ hi)) hib]
        exact hold
    have hcore₁ : ∀ i, (t₁.node i).core = (t.node i).core := by
      intro i
      by_cases hi : i = leaf
      · rw [hi, hfirst]
        rfl
      · by_cases hib : i = b
        · rw [hib, hsecond]
          rfl
        · rw [hother i hi hib]
    obtain ⟨t', hrun, hlinked, hcore, hsame, horder, hmin, hfresh⟩ := ih hnd' hnone₁
    have hparams : t₁.order = t.order ∧ t₁.minKeys = t.minKeys ∧ t₁.fresh = t.fresh :=
      ht₁ ▸ ⟨rfl, rfl, rfl⟩
    refine ⟨t', ?_, ?_, fun i => (hcore i).trans (hcore₁ i), fun i hi => ?_,
      horder.trans hparams.1, hmin.trans hparams.2.1, hfresh.trans hparams.2.2⟩
    · rw [linkLeaves, ht₁]
      exact hrun
    · have hkept : t'.node leaf = { t.node leaf with nextLeaf := some b } := by
        rw [hsame leaf hleaf, hfirst]
      rw [hsecond] at hlinked
      refine ⟨?_, ?_, hlinked⟩ <;> rw [hkept] <;> rfl
    · rw [hsame i fun hmem => hi (List.mem_cons_of_mem _ hmem)]
      exact hother i (fun heq => hi (heq ▸ List.mem_cons_self))
        fun heq => hi (heq ▸ List.mem_cons_of_mem _ List.mem_cons_self)

/-! ## One branch over the leaves -/

/-- The first keys of chunks. -/
def FirstKeys : List (List (κ × ν)) → List κ → Prop :=
  List.Forall₂ fun c k => (c.map Prod.fst).head? = some k

theorem HoldChunks.exists_firstKeys (h : HoldChunks t ids cs) (hne : ∀ c ∈ cs, c ≠ []) :
    ∃ keys, ids.mapM (fun i => (t.node i).keys.head?) = some keys ∧ FirstKeys cs keys := by
  induction h with
  | nil => exact ⟨[], rfl, .nil⟩
  | @cons i c ids cs hi _ ih =>
    obtain ⟨keys, hrun, hkeys⟩ := ih fun c' hc => hne c' (List.mem_cons_of_mem _ hc)
    obtain ⟨p, c', rfl⟩ := List.exists_cons_of_ne_nil (hne c List.mem_cons_self)
    refine ⟨p.1 :: keys, ?_, .cons rfl hkeys⟩
    rw [List.mapM_cons, hi, hrun]
    rfl

theorem HoldChunks.exists_chunk (h : HoldChunks t ids cs) : ∀ i ∈ ids, ∃ c ∈ cs,
    t.node i = { keys := c.map Prod.fst, values := c.map Prod.snd } := by
  induction h with
  | nil => exact nofun
  | @cons i c ids cs hi _ ih =>
    intro j hj
    rcases List.mem_cons.mp hj with rfl | hj
    · exact ⟨c, List.mem_cons_self, hi⟩
    · obtain ⟨d, hd, hnode⟩ := ih j hj
      exact ⟨d, List.mem_cons_of_mem _ hd, hnode⟩

theorem HoldChunks.unlinked (h : HoldChunks t ids cs) :
    ∀ i ∈ ids, (t.node i).nextLeaf = none ∧ (t.node i).prevLeaf = none := by
  intro i hi
  obtain ⟨c, -, hnode⟩ := h.exists_chunk i hi
  rw [hnode]
  exact ⟨rfl, rfl⟩

/-- Leaves with ascending keys, and the first key of each but the first as the separator before it. -/
theorem ordered_leaves (i : ℕ) (c : List (κ × ν)) {keys : List κ} (hids : ids.length = cs.length)
    (hkeys : FirstKeys cs keys) (hsorted : (c :: cs).flatten.Pairwise fun p q => p.1 < q.1) :
    let F := weave keys ((List.zipWith leaf (i :: ids) (c :: cs)).map Tree.flat)
    Ordered F ∧ contents F = (c :: cs).flatten ∧ leafIds F = i :: ids ∧
      ∀ k ∈ (c.map Prod.fst).head?, ∀ a ∈ tokens F, k ≤ a.key := by
  induction cs generalizing i c ids keys with
  | nil =>
    obtain rfl := List.eq_nil_of_length_eq_zero hids
    cases hkeys
    rw [List.flatten_cons, List.flatten_nil, List.append_nil] at hsorted
    refine ⟨?_, by simp [weave], by simp [weave], ?_⟩
    · have htokens : Ordered [Piece.leaf (⟨i, c⟩ : Leaf κ ν)] := by
        rw [Ordered, tokens_leaf, tokens_nil, List.append_nil, List.pairwise_map]
        exact hsorted
      exact htokens
    · intro k hk a ha
      obtain ⟨q, hq, rfl⟩ : ∃ q ∈ c, Token.item q.1 = a := by simpa [weave] using ha
      cases c with
      | nil => cases hq
      | cons p c =>
        obtain rfl : p.1 = k := Option.some.inj hk
        rcases List.mem_cons.mp hq with rfl | hq
        · exact le_refl _
        · exact ((List.pairwise_cons.mp hsorted).1 q hq).le
  | cons c' cs ih =>
    obtain ⟨j, ids, rfl⟩ : ∃ j ids', ids = j :: ids' := by
      cases ids with
      | nil => cases hids
      | cons j ids => exact ⟨j, ids, rfl⟩
    cases hkeys with
    | @cons _ k _ keys hk hkeys =>
    rw [List.flatten_cons, List.pairwise_append] at hsorted
    obtain ⟨hc, hrest, hcross⟩ := hsorted
    obtain ⟨hord, hcontents, hleafIds, hleast⟩ :=
      ih j c' (Nat.succ.inj hids) hkeys hrest
    generalize hF : weave keys ((List.zipWith leaf (j :: ids) (c' :: cs)).map Tree.flat) = F at *
    have hcons : weave (k :: keys) ((List.zipWith leaf (i :: j :: ids) (c :: c' :: cs)).map
        Tree.flat) = .leaf ⟨i, c⟩ :: .sep k :: F := by
      rw [← hF]
      rfl
    have hmem : ∃ v, (k, v) ∈ (c' :: cs).flatten := by
      cases c' with
      | nil => cases hk
      | cons p c' =>
        obtain rfl : p.1 = k := Option.some.inj hk
        exact ⟨p.2, by simp⟩
    have hbelow : ∀ q ∈ c, q.1 < k := by
      obtain ⟨v, hv⟩ := hmem
      exact fun q hq => hcross q hq (k, v) hv
    simp only [hcons]
    refine ⟨?_, ?_, ?_, ?_⟩
    · rw [Ordered, tokens_leaf, tokens_sep, List.pairwise_append, List.pairwise_map,
        List.pairwise_cons]
      refine ⟨hc, ⟨fun b hb => ?_, hord⟩, fun a ha b hb => ?_⟩
      · have hkb := hleast k hk b hb
        cases b <;> exact hkb
      · obtain ⟨q, hq, rfl⟩ := List.mem_map.mp ha
        have hlt : q.1 < b.key := by
          rcases List.mem_cons.mp hb with rfl | hb
          · exact hbelow q hq
          · exact (hbelow q hq).trans_le (hleast k hk b hb)
        cases b <;> exact hlt
    · simp [hcontents]
    · rw [leafIds_leaf, leafIds_sep, hleafIds]
    · intro k' hk' a ha
      cases c with
      | nil => cases hk'
      | cons p c =>
        obtain rfl : p.1 = k' := Option.some.inj hk'
        rw [tokens_leaf, tokens_sep, List.mem_append, List.mem_cons] at ha
        rcases ha with ha | rfl | ha
        · obtain ⟨q, hq, rfl⟩ := List.mem_map.mp ha
          rcases List.mem_cons.mp hq with rfl | hq
          · exact le_refl _
          · exact ((List.pairwise_cons.mp hc).1 q hq).le
        · exact (hbelow p List.mem_cons_self).le
        · exact (hbelow p List.mem_cons_self).le.trans (hleast k hk a ha)

theorem zipWith_leaf (h : ids.length = cs.length) :
    (List.zipWith leaf ids cs).map Tree.id = ids ∧
      (List.zipWith leaf ids cs).flatMap Tree.ids = ids := by
  induction ids generalizing cs with
  | nil => exact ⟨rfl, rfl⟩
  | cons i ids ih =>
    cases cs with
    | nil => cases h
    | cons c cs =>
      obtain ⟨hmap, hflat⟩ := ih (Nat.succ.inj h)
      constructor
      · rw [List.zipWith_cons_cons, List.map_cons, hmap, Tree.id_leaf]
      · rw [List.zipWith_cons_cons, List.flatMap_cons, hflat, Tree.ids_leaf, List.singleton_append]

theorem forall_zipWith_leaf {R : ℕ → List (κ × ν) → Prop} {P : Tree κ ν 0 → Prop}
    (h : List.Forall₂ R ids cs) (hR : ∀ i ∈ ids, ∀ c ∈ cs, R i c → P (leaf i c)) :
    ∀ s ∈ List.zipWith leaf ids cs, P s := by
  induction h with
  | nil => exact nofun
  | @cons i c ids cs hi _ ih =>
    intro s hs
    rw [List.zipWith_cons_cons, List.mem_cons] at hs
    rcases hs with rfl | hs
    · exact hR i List.mem_cons_self c List.mem_cons_self hi
    · exact ih (fun i hi c hc => hR i (List.mem_cons_of_mem _ hi) c (List.mem_cons_of_mem _ hc)) s hs

/-- All leaves below one branch. -/
theorem storesFrom_branch {parent : ℕ} {keys : List κ} (hlen : ids.length = cs.length)
    (hkeys : ids.length = keys.length + 1)
    (hleaves : ∀ s ∈ List.zipWith leaf ids cs, s.At t.node (some parent))
    (hbranch : (t.node parent).core = { keys, children := ids, isLeaf := false })
    (hnd : (parent :: ids).Nodup) (hfresh : ∀ i ∈ parent :: ids, i < t.fresh)
    (hroot : t.root = parent) (hheight : t.height = 2) (hlinked : Linked t.node none ids)
    (hsize : ∀ c ∈ cs, 1 ≤ c.length ∧ c.length ≤ t.order - 1)
    (hpos : 1 ≤ keys.length) (hmost : keys.length ≤ t.order - 1)
    (hflat : leafIds (weave keys ((List.zipWith leaf ids cs).map Tree.flat)) = ids) :
    StoresFrom 1 t (weave keys ((List.zipWith leaf ids cs).map Tree.flat)) := by
  obtain ⟨hids, hflatIds⟩ := zipWith_leaf hlen
  have hlength : (List.zipWith leaf ids cs).length = keys.length + 1 := by
    rw [List.length_zipWith, ← hlen, min_self, hkeys]
  have hall : (branch parent keys (List.zipWith leaf ids cs) hlength).ids = parent :: ids := by
    rw [Tree.ids_branch, hflatIds]
  refine ⟨1, branch parent keys (List.zipWith leaf ids cs) hlength, ?_, ?_, rfl⟩
  · constructor
    case ctx => trivial
    case focus =>
      refine ⟨?_, hleaves⟩
      change (t.node parent).core =
        { keys, children := (List.zipWith leaf ids cs).map Tree.id, isLeaf := false }
      rw [hids, hbranch]
    case nodup => rwa [Ctx.ids, List.nil_append, hall]
    case fresh => rwa [Ctx.ids, List.nil_append, hall]
    case root => exact hroot
    case height => exact hheight
    case linked =>
      have hwhole : leafIds (Ctx.top.whole (branch parent keys (List.zipWith leaf ids cs) hlength)) =
          ids := by
        simpa [Ctx.whole, Ctx.before, Ctx.after, Tree.flat_branch] using hflat
      rwa [hwhole]
  · refine ⟨trivial, ?_, hpos, hmost⟩
    have hforall : List.Forall₂ (fun _ _ => True) ids cs :=
      List.forall₂_iff_get.mpr ⟨hlen, fun _ _ _ => trivial⟩
    refine forall_zipWith_leaf hforall fun i _ c hc _ => ?_
    exact ⟨(hsize c hc).1, (hsize c hc).2, trivial⟩

/-- As long as one branch holds all leaves, the tree has the pairs in order. -/
theorem bulkLoad_spec (ht : Sized t) (hne : items ≠ [])
    (hsorted : items.Pairwise fun p q => p.1 < q.1)
    (hle : items.length ≤ t.order * (t.order - 1)) :
    ∃ t' F, t.bulkLoad items = some t' ∧ StoresFrom 1 t' F ∧ Ordered F ∧ contents F = items ∧
      t'.order = t.order ∧ t'.minKeys = t.minKeys ∧ t'.size = items.length := by
  have horder := ht.order
  have hn : 1 ≤ t.order - 1 := by omega
  obtain ⟨t₁, leaves, hrun, hchunks, hrange, hfresh₁, -, horder₁, hmin₁⟩ :=
    bulkLeaves_spec hn [] (by rw [List.length_nil]; omega) items
  rw [List.nil_append] at hchunks
  have hlength := hchunks.length_eq
  have hflatten := flatten_chunks hn items
  have hsizes : ∀ c ∈ chunks (t.order - 1) items, 1 ≤ c.length ∧ c.length ≤ t.order - 1 :=
    fun c hc => length_chunk hn hc
  have hcount : (chunks (t.order - 1) items).length ≤ t.order := (length_chunks_le hn items _).mpr hle
  generalize chunks (t.order - 1) items = cs at *
  have hnd : leaves.Nodup := hrange ▸ List.nodup_range'
  have hlt : ∀ i ∈ leaves, i < t₁.fresh := by
    intro i hi
    rw [hrange, List.mem_range'_1] at hi
    omega
  cases hchunks with
  | nil => exact absurd hflatten.symm hne
  | @cons i c ids cs hi hrest =>
    have hall : HoldChunks t₁ (i :: ids) (c :: cs) := .cons hi hrest
    obtain ⟨t₂, hlink, hlinked, hcore, -, horder₂, hmin₂, hfresh₂⟩ :=
      linkLeaves_spec hnd fun j hj => (hall.unlinked j hj).1
    rw [(hall.unlinked i List.mem_cons_self).2] at hlinked
    have hkeep : ∀ j, (t₂.node j).keys = (t₁.node j).keys := by
      intro j
      have hkeys := congrArg BPlusTreeNode.keys (hcore j)
      exact hkeys
    rw [List.map_nil, List.map_nil] at hrun
    rw [bulkLoad, if_neg hne, hrun]
    simp only [hlink]
    cases hrest with
    | nil =>
      -- the only leaf is the root
      rw [List.flatten_cons, List.flatten_nil, List.append_nil] at hflatten
      refine ⟨_, [.leaf ⟨i, c⟩], rfl, ⟨0, leaf i c, ?_, ⟨trivial, trivial, Nat.zero_le _, ?_⟩, rfl⟩,
        ?_, ?_, horder₂.trans horder₁, hmin₂.trans hmin₁, rfl⟩
      · constructor
        case ctx => trivial
        case focus =>
          change (t₂.node i).core = _
          rw [hcore i, hi]
          rfl
        case nodup => exact List.nodup_singleton i
        case fresh =>
          intro j hj
          obtain rfl := List.mem_singleton.mp hj
          exact hfresh₂ ▸ hlt j List.mem_cons_self
        case root => rfl
        case height => rfl
        case linked => exact hlinked
      · change c.length ≤ t₂.order - 1
        rw [horder₂, horder₁]
        exact (hsizes c List.mem_cons_self).2
      · rw [Ordered, tokens_leaf, tokens_nil, List.append_nil, List.pairwise_map, hflatten]
        exact hsorted
      · rw [contents_leaf, contents_nil, List.append_nil, hflatten]
    | @cons j d ids cs hj hrest =>
      -- one branch takes all leaves
      have hrest' : HoldChunks t₁ (j :: ids) (d :: cs) := .cons hj hrest
      obtain ⟨keys, hmap, hfirst⟩ := hrest'.exists_firstKeys fun e he hnil => by
        have hsize := hsizes e (List.mem_cons_of_mem _ he)
        rw [hnil, List.length_nil] at hsize
        omega
      have hkeysLength := hfirst.length_eq
      simp only [List.length_cons] at hlength hcount hkeysLength
      have hslices : chunks t.order (i :: j :: ids) = [i :: j :: ids] :=
        chunks_of_length_le (by omega) (List.cons_ne_nil _ _)
          (by simp only [List.length_cons]; omega)
      generalize ht₃ : ({ t₂ with size := items.length, height := 2 } : BPlusTree κ ν) = t₃
      have hnode₃ : t₃.node = t₂.node := ht₃ ▸ rfl
      have hfresh₃ : t₃.fresh = t₁.fresh := ht₃ ▸ hfresh₂
      have horder₃ : t₃.order = t.order := ht₃ ▸ horder₂.trans horder₁
      have hmin₃ : t₃.minKeys = t.minKeys := ht₃ ▸ hmin₂.trans hmin₁
      have hsize₃ : t₃.size = items.length := ht₃ ▸ rfl
      have hheight₃ : t₃.height = 2 := ht₃ ▸ rfl
      have hnot : t₁.fresh ∉ i :: j :: ids := fun hmem => (hlt _ hmem).ne rfl
      generalize ht₄ : (t₃.alloc { keys, children := i :: j :: ids, isLeaf := false }).setParents
        t₃.fresh (i :: j :: ids) = t₄
      obtain ⟨hnode₄, hparams₄, hfresh₄, -, hheight₄⟩ := setParents_spec
        (t₃.alloc { keys, children := i :: j :: ids, isLeaf := false }) t₃.fresh (i :: j :: ids)
      rw [ht₄] at hnode₄ hparams₄ hfresh₄ hheight₄
      have hrun₄ : bulkLevels (i :: j :: ids).length { t₂ with size := items.length, height := 1 }
          (i :: j :: ids) = some { t₄ with root := t₁.fresh } := by
        have hmapped : (j :: ids).mapM (fun i => (t₃.node i).keys.head?) = some keys := by
          rw [← hmap]
          congr 1
          funext k
          rw [hnode₃, hkeep]
        have hstep : bulkLevels (i :: j :: ids).length
            { t₂ with size := items.length, height := 1 } (i :: j :: ids) =
              (t₃.bulkParents (chunks t₃.order (i :: j :: ids))).bind fun r =>
                bulkLevels (j :: ids).length r.1 r.2 := by
          rw [← ht₃]
          exact bulkLevels_succ _ _ (by simp)
        rw [hstep, horder₃, hslices]
        simp only [bulkParents, List.tail_cons, hmapped, Option.bind_eq_bind, Option.bind_some, ht₄,
          bulkLevels_singleton]
        rw [hfresh₃]
      have hlengths : (j :: ids).length = (d :: cs).length := by
        simp only [List.length_cons]
        omega
      obtain ⟨hord, hcontents, hids, -⟩ :=
        ordered_leaves i c hlengths hfirst (by rw [hflatten]; exact hsorted)
      have hbody : ∀ k, (t₄.node k).core =
          if k ∈ i :: j :: ids then { (t₁.node k).core with parent := some t₁.fresh }
          else if k = t₁.fresh then { keys, children := i :: j :: ids, isLeaf := false }
          else (t₁.node k).core := by
        intro k
        rw [hnode₄ k]
        by_cases hk : k ∈ i :: j :: ids
        · have hne : k ≠ t₃.fresh := hfresh₃ ▸ (hlt k hk).ne
          rw [if_pos hk, if_pos hk, alloc_node_ne _ _ hne, hnode₃, ← hcore k, hfresh₃]
          rfl
        · rw [if_neg hk, if_neg hk]
          by_cases hnew : k = t₁.fresh
          · rw [if_pos hnew, hnew, ← hfresh₃, alloc_node_fresh]
            rfl
          · have hne : k ≠ t₃.fresh := hfresh₃ ▸ hnew
            rw [if_neg hnew, alloc_node_ne _ _ hne, hnode₃, hcore k]
      have hlengths' : (i :: j :: ids).length = (c :: d :: cs).length := by
        simp only [List.length_cons]
        omega
      refine ⟨_, _, hrun₄, storesFrom_branch hlengths' ?_ ?_ ?_ ?_ ?_ rfl ?_ ?_ ?_ ?_ ?_ hids, hord,
        ?_, ?_, ?_, ?_⟩
      · simp only [List.length_cons]
        omega
      · refine forall_zipWith_leaf hall fun k hk e _ hnode => ?_
        change (t₄.node k).core = _
        rw [hbody k, if_pos hk, hnode]
        rfl
      · change (t₄.node t₁.fresh).core = _
        rw [hbody, if_neg hnot, if_pos rfl]
      · exact List.nodup_cons.mpr ⟨hnot, hnd⟩
      · intro k hk
        change k < t₄.fresh
        rw [hfresh₄, alloc_fresh, hfresh₃]
        rcases List.mem_cons.mp hk with rfl | hk
        · exact Nat.lt_succ_self _
        · exact Nat.lt_succ_of_lt (hlt k hk)
      · change t₄.height = 2
        rw [hheight₄, alloc_height, hheight₃]
      · refine hlinked.congr fun k hk => ?_
        change (t₄.node k).prevLeaf = _ ∧ (t₄.node k).nextLeaf = _
        rw [hnode₄ k, if_pos hk, alloc_node_ne _ _ (hfresh₃ ▸ (hlt k hk).ne), hnode₃]
        exact ⟨rfl, rfl⟩
      · change ∀ e ∈ c :: d :: cs, 1 ≤ e.length ∧ e.length ≤ t₄.order - 1
        rw [hparams₄.order, alloc_order, horder₃]
        exact hsizes
      · omega
      · change keys.length ≤ t₄.order - 1
        rw [hparams₄.order, alloc_order, horder₃]
        omega
      · rw [hcontents, hflatten]
      · exact hparams₄.order.trans horder₃
      · exact hparams₄.minKeys.trans hmin₃
      · exact hparams₄.size.trans hsize₃

/-! ## More than one branch over the leaves -/

/-- The search for a key goes down from a node to a leaf without the key. -/
inductive LeadsAstray (t : BPlusTree κ ν) (key : κ) (leaf : ℕ) : ℕ → ℕ → Prop where
  | here (hlt : leaf < t.fresh) (hleaf : (t.node leaf).isLeaf = true)
    (hnot : key ∉ (t.node leaf).keys) : LeadsAstray t key leaf 0 leaf
  | down {d i j : ℕ} (hlt : i < t.fresh) (hbranch : (t.node i).isLeaf = false)
    (hchild : (t.node i).children[bisectRight (t.node i).keys key]? = some j)
    (rest : LeadsAstray t key leaf d j) : LeadsAstray t key leaf (d + 1) i

theorem LeadsAstray.search {key : κ} {leaf d : ℕ} (h : LeadsAstray t key leaf d t.root)
    (hd : d < t.fresh) : t.search key = some none := by
  have hdescend : ∀ {d i : ℕ}, LeadsAstray t key leaf d i → ∀ fuel, d < fuel →
      t.descend (fun n => n.children[bisectRight n.keys key]?) fuel i = some leaf := by
    intro d i hi
    induction hi with
    | here hlt hleaf hnot =>
      intro fuel hfuel
      obtain ⟨fuel, rfl⟩ := Nat.exists_eq_succ_of_ne_zero hfuel.ne'
      rw [descend, if_pos hleaf]
    | down hlt hbranch hchild _ ih =>
      intro fuel hfuel
      obtain ⟨fuel, rfl⟩ := Nat.exists_eq_succ_of_ne_zero (Nat.ne_zero_of_lt hfuel)
      rw [descend, hbranch, hchild]
      exact ih fuel (Nat.lt_of_succ_lt_succ hfuel)
  have hkey : ∀ {d i : ℕ}, LeadsAstray t key leaf d i → key ∉ (t.node leaf).keys := by
    intro d i hi
    induction hi with
    | here _ _ hnot => exact hnot
    | down _ _ _ _ ih => exact ih
  have hnone : (t.node leaf).keys.findIdx? (fun x => decide (x = key)) = none :=
    List.findIdx?_eq_none_iff.mpr fun a ha => decide_eq_false fun heq => hkey h (heq ▸ ha)
  rw [BPlusTree.search, findLeaf, hdescend h _ hd]
  simp only [Option.bind_eq_bind, Option.bind_some, hnone]

/-- Nodes have been made, and none that was there has changed but for its parent and its links. -/
structure Grown (t t' : BPlusTree κ ν) : Prop where
  fresh : t.fresh ≤ t'.fresh
  keys : ∀ i < t.fresh, (t'.node i).keys = (t.node i).keys
  children : ∀ i < t.fresh, (t'.node i).children = (t.node i).children
  isLeaf : ∀ i < t.fresh, (t'.node i).isLeaf = (t.node i).isLeaf

theorem Grown.trans {t'' : BPlusTree κ ν} (h : Grown t t') (h' : Grown t' t'') : Grown t t'' where
  fresh := h.fresh.trans h'.fresh
  keys i hi := (h'.keys i (hi.trans_le h.fresh)).trans (h.keys i hi)
  children i hi := (h'.children i (hi.trans_le h.fresh)).trans (h.children i hi)
  isLeaf i hi := (h'.isLeaf i (hi.trans_le h.fresh)).trans (h.isLeaf i hi)

theorem LeadsAstray.grown {key : κ} {leaf d i : ℕ} (h : LeadsAstray t key leaf d i)
    (hg : Grown t t') : LeadsAstray t' key leaf d i := by
  induction h with
  | here hlt hleaf hnot =>
    exact .here (hlt.trans_le hg.fresh) ((hg.isLeaf _ hlt).trans hleaf) (hg.keys _ hlt ▸ hnot)
  | down hlt hbranch hchild _ ih =>
    refine .down (hlt.trans_le hg.fresh) ((hg.isLeaf _ hlt).trans hbranch) ?_ ih
    rw [hg.children _ hlt, hg.keys _ hlt]
    exact hchild

theorem mem_of_mapM {α β : Type} {f : α → Option β} {xs : List α} {ys : List β}
    (h : xs.mapM f = some ys) : ys.length = xs.length ∧ ∀ y ∈ ys, ∃ x ∈ xs, f x = some y := by
  induction xs generalizing ys with
  | nil =>
    obtain rfl : [] = ys := Option.some.inj h
    exact ⟨rfl, nofun⟩
  | cons x xs ih =>
    rw [List.mapM_cons] at h
    cases hx : f x with
    | none => simp [hx] at h
    | some y =>
      cases hxs : xs.mapM f with
      | none => simp [hx, hxs] at h
      | some ys' =>
        obtain rfl : y :: ys' = ys := by simpa [hx, hxs] using h
        obtain ⟨hlen, hmem⟩ := ih hxs
        refine ⟨congrArg (· + 1) hlen, fun z hz => ?_⟩
        rcases List.mem_cons.mp hz with rfl | hz
        · exact ⟨x, List.mem_cons_self, hx⟩
        · obtain ⟨x', hx', hf⟩ := hmem z hz
          exact ⟨x', List.mem_cons_of_mem _ hx', hf⟩

/-- What the nodes made above a level are. -/
theorem bulkParents_spec {slices : List (List ℕ)} {parents : List ℕ}
    (h : t.bulkParents slices = some (t', parents)) (hlt : ∀ s ∈ slices, ∀ i ∈ s, i < t.fresh) :
    Grown t t' ∧ t'.fresh = t.fresh + slices.length ∧ t'.order = t.order ∧
      List.Forall₂ (fun s p => p < t'.fresh ∧ (t'.node p).isLeaf = false ∧
        (t'.node p).children = s ∧ (t'.node p).keys.length = s.tail.length ∧
        ∀ k ∈ (t'.node p).keys, ∃ i ∈ s.tail, k ∈ (t'.node i).keys) slices parents := by
  induction slices generalizing t parents with
  | nil =>
    obtain ⟨rfl, rfl⟩ := Prod.mk.inj (Option.some.inj h)
    exact ⟨⟨le_refl _, fun _ _ => rfl, fun _ _ => rfl, fun _ _ => rfl⟩, rfl, rfl, .nil⟩
  | cons s slices ih =>
    rw [bulkParents] at h
    cases hmap : s.tail.mapM (fun i => (t.node i).keys.head?) with
    | none => simp [hmap] at h
    | some keys =>
      simp only [hmap, Option.bind_eq_bind, Option.bind_some] at h
      generalize ht₁ : (t.alloc { keys, children := s, isLeaf := false }).setParents t.fresh s = t₁
        at h
      obtain ⟨hnode, hparams, hfresh, -, -⟩ :=
        setParents_spec (t.alloc { keys, children := s, isLeaf := false }) t.fresh s
      rw [ht₁] at hnode hparams hfresh
      rw [alloc_fresh] at hfresh
      have hgrown : Grown t t₁ := by
        constructor
        case fresh => omega
        all_goals
          intro i hi
          rw [hnode i, alloc_node_ne _ _ hi.ne]
          split <;> rfl
      have hnew : (t₁.node t.fresh).isLeaf = false ∧ (t₁.node t.fresh).children = s ∧
          (t₁.node t.fresh).keys = keys := by
        have hnot : t.fresh ∉ s := fun hmem => (hlt s List.mem_cons_self _ hmem).ne rfl
        rw [hnode, if_neg hnot, alloc_node_fresh]
        exact ⟨rfl, rfl, rfl⟩
      cases hrest : t₁.bulkParents slices with
      | none => simp [hrest] at h
      | some r =>
        simp only [hrest, Option.bind_some] at h
        obtain ⟨rfl, rfl⟩ := Prod.mk.inj (Option.some.inj h)
        have hbefore : ∀ s' ∈ slices, ∀ i ∈ s', i < t.fresh := fun s' hs' =>
          hlt s' (List.mem_cons_of_mem _ hs')
        obtain ⟨hgrown', hfresh', horder', hall⟩ :=
          ih hrest fun s' hs' i hi => (hbefore s' hs' i hi).trans_le hgrown.fresh
        have hin : t.fresh < t₁.fresh := by omega
        have hboth := hgrown.trans hgrown'
        obtain ⟨hlength, hmem⟩ := mem_of_mapM hmap
        refine ⟨hboth, ?_, horder'.trans hparams.order, .cons ⟨?_, ?_, ?_, ?_, ?_⟩ hall⟩
        · rw [hfresh', hfresh, List.length_cons]
          omega
        · exact hin.trans_le hgrown'.fresh
        · rw [hgrown'.isLeaf _ hin, hnew.1]
        · rw [hgrown'.children _ hin, hnew.2.1]
        · rw [hgrown'.keys _ hin, hnew.2.2, hlength]
        · intro k hk
          rw [hgrown'.keys _ hin, hnew.2.2] at hk
          obtain ⟨i, hi, hhead⟩ := hmem k hk
          refine ⟨i, hi, ?_⟩
          rw [hboth.keys i (hlt s List.mem_cons_self i (List.mem_of_mem_tail hi))]
          exact List.mem_of_mem_head? hhead

/-- The search for a key goes astray below the first node of a level, and all keys in the others are
above the key. -/
def Misses (t : BPlusTree κ ν) (key : κ) (leaf d : ℕ) : List ℕ → Prop
  | [] => False
  | head :: rest => LeadsAstray t key leaf d head ∧
      ∀ i ∈ rest, i < t.fresh ∧ ∀ k ∈ (t.node i).keys, key < k

/-- The parents of nodes all of whose keys are above a key. -/
theorem keys_above {key : κ} {slices : List (List ℕ)} {parents rest : List ℕ}
    (hall : List.Forall₂ (fun s p => p < t'.fresh ∧ (t'.node p).isLeaf = false ∧
      (t'.node p).children = s ∧ (t'.node p).keys.length = s.tail.length ∧
      ∀ k ∈ (t'.node p).keys, ∃ i ∈ s.tail, k ∈ (t'.node i).keys) slices parents)
    (hslices : ∀ s ∈ slices, ∀ i ∈ s.tail, i ∈ rest)
    (hrest : ∀ i ∈ rest, ∀ k ∈ (t'.node i).keys, key < k) :
    ∀ p ∈ parents, p < t'.fresh ∧ ∀ k ∈ (t'.node p).keys, key < k := by
  induction hall with
  | nil => exact nofun
  | @cons s p slices parents hp _ ih =>
    intro q hq
    rcases List.mem_cons.mp hq with rfl | hq
    · refine ⟨hp.1, fun k hk => ?_⟩
      obtain ⟨i, hi, hki⟩ := hp.2.2.2.2 k hk
      exact hrest i (hslices s List.mem_cons_self i hi) k hki
    · exact ih (fun s' hs' => hslices s' (List.mem_cons_of_mem _ hs')) q hq

/-- Above the first level of branches the search turns to the first node: the separator before a
branch is the first key of its second child, though it has keys below that. -/
theorem Misses.parents {key : κ} {leaf d : ℕ} {level parents : List ℕ}
    (h : Misses t key leaf d level) (horder : 1 ≤ t.order)
    (hrun : t.bulkParents (chunks t.order level) = some (t', parents)) :
    Misses t' key leaf (d + 1) parents ∧ t.fresh < t'.fresh ∧ t'.order = t.order := by
  cases level with
  | nil => exact h.elim
  | cons head rest =>
    obtain ⟨hhead, hrest⟩ := h
    have hheadlt : head < t.fresh := by
      cases hhead with
      | here hlt _ _ => exact hlt
      | down hlt _ _ _ => exact hlt
    have hlt : ∀ s ∈ chunks t.order (head :: rest), ∀ i ∈ s, i < t.fresh := by
      intro s hs i hi
      rcases List.mem_cons.mp (mem_of_mem_chunk horder hs hi) with rfl | hmem
      · exact hheadlt
      · exact (hrest i hmem).1
    obtain ⟨hgrown, hfresh, horder', hall⟩ := bulkParents_spec hrun hlt
    have habove : ∀ i ∈ rest, ∀ k ∈ (t'.node i).keys, key < k := by
      intro i hi k hk
      rw [hgrown.keys i (hrest i hi).1] at hk
      exact (hrest i hi).2 k hk
    have hslices : ∀ s ∈ chunks t.order (head :: rest), ∀ i ∈ s.tail, i ∈ rest := fun s hs i hi =>
      mem_tail_of_mem_chunk horder hs hi
    have hcons := chunks_eq horder (List.cons_ne_nil head rest)
    have hparents := keys_above hall hslices habove
    rw [hcons] at hall hfresh
    cases hall with
    | @cons _ p _ parents hp _ =>
      obtain ⟨hplt, hbranch, hchildren, -, -⟩ := hp
      have hzero : bisectRight (t'.node p).keys key = 0 :=
        bisectRight_of_all.2 (hparents p List.mem_cons_self).2
      obtain ⟨m, hm⟩ := Nat.exists_eq_succ_of_ne_zero (Nat.one_le_iff_ne_zero.mp horder)
      refine ⟨⟨.down hplt hbranch ?_ (hhead.grown hgrown), fun q hq =>
        hparents q (List.mem_cons_of_mem _ hq)⟩, ?_, horder'⟩
      · rw [hzero, hchildren, hm]
        rfl
      · rw [hfresh, List.length_cons]
        omega

theorem Misses.levels {key : κ} {leaf d : ℕ} {level : List ℕ} (h : Misses t key leaf d level)
    (horder : 1 ≤ t.order) (hd : d < t.fresh) {fuel : ℕ}
    (hrun : bulkLevels fuel t level = some t') : t'.search key = some none := by
  have hroot : ∀ (t : BPlusTree κ ν) {d : ℕ} {level : List ℕ} {fuel : ℕ},
      Misses t key leaf d level → d < t.fresh → ¬1 < level.length →
        bulkLevels fuel t level = some t' → t'.search key = some none := by
    intro t d level fuel h hd hlen hrun
    match level, h, hlen with
    | [head], h, _ =>
      rw [bulkLevels_singleton] at hrun
      obtain rfl := Option.some.inj hrun
      have hg : Grown t { t with root := head } :=
        ⟨le_refl _, fun _ _ => rfl, fun _ _ => rfl, fun _ _ => rfl⟩
      exact (h.1.grown hg).search hd
    | _ :: _ :: _, _, hlen =>
      simp only [List.length_cons] at hlen
      omega
  induction fuel generalizing t d level with
  | zero =>
    by_cases hlen : 1 < level.length
    · rw [bulkLevels.eq_def] at hrun
      simp [hlen] at hrun
    · exact hroot t h hd hlen hrun
  | succ fuel ih =>
    by_cases hlen : 1 < level.length
    · rw [bulkLevels_succ _ _ hlen] at hrun
      generalize ht₁ : ({ t with height := t.height + 1 } : BPlusTree κ ν) = t₁ at hrun
      have horder₁ : t₁.order = t.order := ht₁ ▸ rfl
      have hfresh₁ : t₁.fresh = t.fresh := ht₁ ▸ rfl
      have hmisses : Misses t₁ key leaf d level := by
        have hg : Grown t t₁ :=
          ht₁ ▸ ⟨le_refl _, fun _ _ => rfl, fun _ _ => rfl, fun _ _ => rfl⟩
        cases level with
        | nil => exact h
        | cons head rest =>
          refine ⟨h.1.grown hg, fun i hi => ?_⟩
          rw [hfresh₁, hg.keys i (h.2 i hi).1]
          exact h.2 i hi
      rw [← horder₁] at hrun horder
      cases hparents : t₁.bulkParents (chunks t₁.order level) with
      | none => simp [hparents] at hrun
      | some r =>
        rw [hparents, Option.bind_some] at hrun
        obtain ⟨hnext, hlt, hsame⟩ := hmisses.parents horder hparents
        exact ih hnext (hsame ▸ horder) (by omega) hrun
    · exact hroot t h hd hlen hrun

/-- The first key of the first leaf that is not below the first branch is not found. -/
theorem bulkLoad_misses (ht : Sized t) (hsorted : items.Pairwise fun p q => p.1 < q.1)
    (hlt : t.order * (t.order - 1) < items.length) (hrun : t.bulkLoad items = some t') :
    ∃ p ∈ items, t'.search p.1 = some none := by
  have horder := ht.order
  have hn : 1 ≤ t.order - 1 := by omega
  obtain ⟨t₁, leaves, hleaves, hchunks, hrange, hfresh₁, -, horder₁, -⟩ :=
    bulkLeaves_spec hn [] (by rw [List.length_nil]; omega) items
  rw [List.nil_append] at hchunks
  have hlength := hchunks.length_eq
  have hcount : ¬(chunks (t.order - 1) items).length ≤ t.order := by
    rw [length_chunks_le hn]
    omega
  have hflatten := flatten_chunks hn items
  have hsizes : ∀ c ∈ chunks (t.order - 1) items, 1 ≤ c.length ∧ c.length ≤ t.order - 1 :=
    fun c hc => length_chunk hn hc
  generalize chunks (t.order - 1) items = cs at *
  have hnd : leaves.Nodup := hrange ▸ List.nodup_range'
  have hltLeaves : ∀ i ∈ leaves, i < t₁.fresh := by
    intro i hi
    rw [hrange, List.mem_range'_1] at hi
    omega
  -- the leaves below the first branch, and the first leaf that is not below it
  obtain ⟨CA, c, CB, hCA, rfl⟩ := exists_cut cs (not_le.mp hcount)
  have hA : HoldChunks t₁ (leaves.take t.order) CA := hCA ▸ List.forall₂_take_append _ _ _ hchunks
  have hB : HoldChunks t₁ (leaves.drop t.order) (c :: CB) :=
    hCA ▸ List.forall₂_drop_append _ _ _ hchunks
  obtain ⟨p, c, rfl⟩ : ∃ p c', c = p :: c' := by
    have hsize := (hsizes c (by simp)).1
    exact List.exists_cons_of_ne_nil (List.length_pos_iff.mp hsize)
  have hp : p ∈ items := by
    rw [← hflatten]
    simp
  refine ⟨p, hp, ?_⟩
  rw [← hflatten, List.flatten_append, List.flatten_cons, List.pairwise_append,
    List.cons_append, List.pairwise_cons] at hsorted
  obtain ⟨-, ⟨hafter, -⟩, hbefore⟩ := hsorted
  have hlow : ∀ i ∈ leaves.take t.order,
      (t₁.node i).isLeaf = true ∧ ∀ k ∈ (t₁.node i).keys, k < p.1 := by
    intro i hi
    obtain ⟨d, hd, hnode⟩ := hA.exists_chunk i hi
    rw [hnode]
    refine ⟨rfl, fun k hk => ?_⟩
    obtain ⟨q, hq, rfl⟩ := List.mem_map.mp hk
    exact hbefore q (List.mem_flatten.mpr ⟨d, hd, hq⟩) p List.mem_cons_self
  have hhigh : ∀ i ∈ (leaves.drop t.order).tail, ∀ k ∈ (t₁.node i).keys, p.1 < k := by
    intro i hi k hk
    cases hdrop : leaves.drop t.order with
    | nil => simp [hdrop] at hi
    | cons j ids =>
      rw [hdrop] at hB hi
      cases hB with
      | cons _ hCB =>
        obtain ⟨d, hd, hnode⟩ := HoldChunks.exists_chunk hCB i hi
        rw [hnode] at hk
        obtain ⟨q, hq, rfl⟩ := List.mem_map.mp hk
        exact hafter q (List.mem_append_right _ (List.mem_flatten.mpr ⟨d, hd, hq⟩))
  have hlen : t.order < leaves.length := by
    rw [hlength, List.length_append, List.length_cons]
    omega
  -- the tree while the first level of branches is made
  obtain ⟨a, b, rest, hcons⟩ : ∃ a b rest, leaves = a :: b :: rest := by
    match leaves, hlen with
    | a :: b :: rest, _ => exact ⟨a, b, rest, rfl⟩
    | [_], hlen | [], hlen =>
      simp only [List.length_cons, List.length_nil] at hlen
      omega
  rw [hcons] at hnd hchunks
  obtain ⟨t₂, hlink, -, hcore, -, horder₂, -, hfresh₂⟩ :=
    linkLeaves_spec hnd fun j hj => (HoldChunks.unlinked hchunks j hj).1
  rw [List.map_nil, List.map_nil] at hleaves
  rw [bulkLoad, if_neg (List.ne_nil_of_mem hp), hleaves, hcons] at hrun
  simp only [hlink] at hrun
  rw [List.length_cons, bulkLevels_succ _ _ (by simp)] at hrun
  generalize ht₃ : ({ t₂ with size := items.length, height := 2 } : BPlusTree κ ν) = t₃
  have horder₃ : t₃.order = t.order := ht₃ ▸ horder₂.trans horder₁
  have hfresh₃ : t₃.fresh = t₁.fresh := ht₃ ▸ hfresh₂
  have hkeys₃ : ∀ i, (t₃.node i).keys = (t₁.node i).keys ∧
      (t₃.node i).isLeaf = (t₁.node i).isLeaf := by
    intro i
    have hkeys := congrArg BPlusTreeNode.keys (hcore i)
    have hleaf := congrArg BPlusTreeNode.isLeaf (hcore i)
    rw [← ht₃]
    exact ⟨hkeys, hleaf⟩
  have hstep : (t₃.bulkParents (chunks t₃.order leaves)).bind (fun r =>
      bulkLevels (b :: rest).length r.1 r.2) = some t' := by
    rw [← ht₃, hcons]
    exact hrun
  rw [horder₃] at hstep
  cases hparents : t₃.bulkParents (chunks t.order leaves) with
  | none => simp [hparents] at hstep
  | some r =>
    obtain ⟨t₄, parents⟩ := r
    rw [hparents, Option.bind_some] at hstep
    have hone : 1 ≤ t.order := by omega
    have hlt₃ : ∀ s ∈ chunks t.order leaves, ∀ i ∈ s, i < t₃.fresh := by
      intro s hs i hi
      rw [hfresh₃]
      exact hltLeaves i (mem_of_mem_chunk hone hs hi)
    obtain ⟨hgrown, hfresh₄, horder₄, hall⟩ := bulkParents_spec hparents hlt₃
    have hkeys₄ : ∀ i ∈ leaves, (t₄.node i).keys = (t₁.node i).keys ∧
        (t₄.node i).isLeaf = (t₁.node i).isLeaf := by
      intro i hi
      have hi₃ : i < t₃.fresh := hfresh₃ ▸ hltLeaves i hi
      rw [hgrown.keys i hi₃, hgrown.isLeaf i hi₃]
      exact hkeys₃ i
    rw [chunks_eq hone (by rw [hcons]; exact List.cons_ne_nil _ _)] at hall hfresh₄
    cases hall with
    | @cons _ q _ parents hq hrest =>
      obtain ⟨hqlt, hbranch, hchildren, hqlen, hqmem⟩ := hq
      obtain ⟨front, last, hlast⟩ : ∃ front last, leaves.take t.order = front ++ [last] := by
        rcases (leaves.take t.order).eq_nil_or_concat with hnil | ⟨front, last, h⟩
        · have hzero := congrArg List.length hnil
          rw [List.length_take, List.length_nil] at hzero
          omega
        · exact ⟨front, last, by rw [h, List.concat_eq_append]⟩
      rw [hlast] at hlow hchildren hqlen hqmem
      have hin : ∀ i ∈ front ++ [last], i ∈ leaves := fun i hi =>
        List.mem_of_mem_take (hlast ▸ hi)
      have hlastmem : last ∈ front ++ [last] := by simp
      have hmisses : Misses t₄ p.1 last 1 (q :: parents) := by
        constructor
        · refine .down hqlt hbranch ?_ (.here ?_ ?_ ?_)
          · have hpos : bisectRight (t₄.node q).keys p.1 = front.length := by
              rw [bisectRight_of_all.1, hqlen, List.length_tail, List.length_append,
                List.length_singleton, Nat.add_sub_cancel]
              intro k hk
              obtain ⟨i, hi, hki⟩ := hqmem k hk
              have hi' := List.mem_of_mem_tail hi
              rw [(hkeys₄ i (hin i hi')).1] at hki
              exact ((hlow i hi').2 k hki).le
            rw [hpos, hchildren]
            simp
          · have hlastlt := hltLeaves last (hin last hlastmem)
            have hle := hgrown.fresh
            omega
          · rw [(hkeys₄ last (hin last hlastmem)).2]
            exact (hlow last hlastmem).1
          · rw [(hkeys₄ last (hin last hlastmem)).1]
            exact fun hmem => lt_irrefl _ ((hlow last hlastmem).2 _ hmem)
        · have hin' : ∀ s ∈ chunks t.order (leaves.drop t.order), ∀ i ∈ s.tail,
              i ∈ (leaves.drop t.order).tail :=
            fun s hs i hi => mem_tail_of_mem_chunk hone hs hi
          refine keys_above hrest hin' ?_
          · intro i hi k hk
            rw [(hkeys₄ i (List.mem_of_mem_drop (List.mem_of_mem_tail hi))).1] at hk
            exact hhigh i hi k hk
      refine hmisses.levels ?_ ?_ hstep
      · omega
      · omega

/-! ## Comparison with insertion -/

/-- `bulk_load` on a fresh tree does not raise, and the tree replies like one that the pairs were
inserted into one by one. -/
def AgreesWithInsertion (order : ℕ) (items : List (κ × ν)) : Prop :=
  ∃ (t₀ loaded inserted : BPlusTree κ ν) (results : List Bool), BPlusTree.new order = some t₀ ∧
    t₀.bulkLoad items = some loaded ∧
    t₀.calls (items.map fun p => .insertUnique p.1 p.2) = some (inserted, results) ∧
    ∀ os, (loaded.ops os).map Prod.snd = (inserted.ops os).map Prod.snd

/-- The map after ascending pairs have been inserted. -/
theorem mapCalls_insertUnique (m : SortedMap κ ν) (items : List (κ × ν))
    (hsorted : (m.items ++ items).Pairwise fun p q => p.1 < q.1) :
    (mapCalls m (items.map fun p => .insertUnique p.1 p.2)).1.items = m.items ++ items := by
  induction items generalizing m with
  | nil => simp [mapCalls]
  | cons p items ih =>
    have hbelow : ∀ q ∈ m.items, q.1 < p.1 := fun q hq =>
      (List.pairwise_append.mp hsorted).2.2 q hq p List.mem_cons_self
    have hget : m.get? p.1 = none :=
      SortedMap.get?_of_gap (Q := []) (List.append_nil _).symm hbelow nofun
    have hinsert : (m.insert p.1 p.2).items = m.items ++ [p] :=
      SortedMap.insert_of_gap (Q := []) (List.append_nil _).symm hbelow nofun
    have hnext := ih (m.insert p.1 p.2) (by rw [hinsert, List.append_assoc]; exact hsorted)
    rw [hinsert, List.append_assoc] at hnext
    simp only [List.map_cons, mapCalls, mapCall, hget, Option.isNone_none, if_true]
    exact hnext

/-- Bulk loading agrees with insertion if and only if one branch can hold all leaves. -/
theorem agreesWithInsertion_iff {order : ℕ} (h : 3 ≤ order) {items : List (κ × ν)}
    (hsorted : items.Pairwise fun p q => p.1 < q.1) :
    AgreesWithInsertion order items ↔ items.length ≤ order * (order - 1) := by
  obtain ⟨t₀, hnew, horder₀, h₀⟩ := new_spec (κ := κ) (ν := ν) h
  obtain ⟨t, hcalls, -, hinserted⟩ := h₀.calls (items.map fun p => .insertUnique p.1 p.2)
  have hitems := mapCalls_insertUnique SortedMap.empty items hsorted
  rw [show (SortedMap.empty : SortedMap κ ν).items = [] from rfl, List.nil_append] at hitems
  have hreplies := hinserted.from.ops
  generalize (mapCalls SortedMap.empty (items.map fun p => .insertUnique p.1 p.2)).1 = m at *
  constructor
  · rintro ⟨t₀', loaded, inserted, results, hnew', hload, hcalls', hagree⟩
    obtain rfl : t₀ = t₀' := Option.some.inj (hnew.symm.trans hnew')
    obtain ⟨rfl, -⟩ := Prod.mk.inj (Option.some.inj (hcalls.symm.trans hcalls'))
    by_contra hlarge
    obtain ⟨p, hp, hmiss⟩ :=
      bulkLoad_misses h₀.sized hsorted (by rw [horder₀]; omega) hload
    have hfound : m.get? p.1 = some p.2 := SortedMap.get?_eq_some.mpr (hitems ▸ hp)
    have hreply := hagree [.search p.1]
    rw [hreplies] at hreply
    simp [BPlusTree.ops, BPlusTree.op, hmiss, mapOps, mapOp, hfound] at hreply
  · intro hsmall
    by_cases hne : items = []
    · subst hne
      exact ⟨t₀, t₀, t₀, [], hnew, rfl, rfl, fun _ => rfl⟩
    · obtain ⟨loaded, F, hload, hstores, hord, hcontents, horder, hmin, hsize⟩ :=
        bulkLoad_spec h₀.sized hne hsorted (by rw [horder₀]; exact hsmall)
      have hpos := h₀.from.pos
      have hloaded : RepresentsFrom 1 loaded m := {
        sized := ⟨horder ▸ h₀.sized.order, by rw [hmin, horder]; exact h₀.sized.minKeys⟩
        size := by rw [hsize, SortedMap.size, hitems]
        stores := ⟨F, hstores, hord, hitems.trans hcontents.symm⟩
        pos := le_refl 1
        le := hmin ▸ hpos }
      exact ⟨t₀, loaded, t, _, hnew, hload, hcalls, fun os => (hloaded.ops os).trans (hreplies os).symm⟩

theorem agreesWithInsertion_iff_four :
    ([(1, 10), (2, 20), (3, 30), (4, 40)] : List (ℕ × ℕ)).length ≤ 3 * (3 - 1) ∧
      AgreesWithInsertion 3 ([(1, 10), (2, 20), (3, 30), (4, 40)] : List (ℕ × ℕ)) :=
  ⟨by decide, (agreesWithInsertion_iff (by decide) (by decide)).mpr (by decide)⟩

/-- With seven pairs and order 3 the second branch has one child and no key, and `bulk_load` raises
IndexError. -/
theorem not_agreesWithInsertion_seven :
    ¬AgreesWithInsertion 3 ((List.range 7).map fun i => (i, i)) := by
  rintro ⟨t₀, loaded, inserted, results, hnew, hload, -⟩
  have hraises : ((BPlusTree.new 3 : Option (BPlusTree ℕ ℕ)).bind fun t =>
      (t.bulkLoad ((List.range 7).map fun i => (i, i))).map fun t => t.root) = none := by
    decide +kernel
  rw [hnew, Option.bind_some, hload] at hraises
  cases hraises

end PySQL.BTree
