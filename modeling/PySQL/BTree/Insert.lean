import PySQL.BTree.Split

/-!
# Insertion

A pair goes into the leaf that the search for its key ends at.  Should the leaf overflow, the first
key of its right half becomes a separator, which is where a separator may stand.
-/

namespace PySQL.BTree

open BPlusTree

set_option linter.unusedSectionVars false

variable {κ ν : Type} [LinearOrder κ] [DecidableEq ν]
  {t t' : BPlusTree κ ν} {c : Ctx κ ν 0} {id : ℕ} {items items' : List (κ × ν)}
  {F : List (Piece κ ν)} {lo : ℕ}

/-! ## Other pairs in a leaf -/

theorem Held.leaf_fields (h : Held t c (leaf id items)) :
    (t.node id).keys = items.map Prod.fst ∧ (t.node id).values = items.map Prod.snd ∧
      (t.node id).nextLeaf = (leafIds c.after).head? := by
  refine ⟨h.focus.leaf_eq.1, h.focus.leaf_eq.2, ?_⟩
  have hlinked := h.linked
  rw [Ctx.whole, leafIds_append, leafIds_append, Tree.flat_leaf, leafIds_leaf, leafIds_nil,
    List.append_assoc, List.singleton_append] at hlinked
  exact hlinked.nextLeaf_eq

/-- A leaf may be given other pairs. -/
theorem Held.setItems (h : Held t c (leaf id items))
    (hid : t'.node id =
      { t.node id with keys := items'.map Prod.fst, values := items'.map Prod.snd })
    (hother : ∀ i, i ≠ id → t'.node i = t.node i) (hfresh : t'.fresh = t.fresh)
    (hr : t'.root = t.root) (hh : t'.height = t.height) : Held t' c (leaf id items') := by
  have hcid : ∀ i ∈ c.ids, i ≠ id := fun i hi heq =>
    (List.nodup_append'.mp h.nodup).2.2 hi (List.mem_singleton.mpr heq)
  refine h.setFocus rfl (h.focus.setLeaf hid) (fun i hi => by rw [hother i (hcid i hi)])
    (List.nodup_singleton id) (List.Subset.refl _) hfresh hr hh ?_
  have hsame : leafIds (c.whole (leaf id items')) = leafIds (c.whole (leaf id items)) := by
    simp [Ctx.whole]
  rw [hsame]
  refine h.linked.congr fun i _ => ?_
  by_cases heq : i = id
  · rw [heq, hid]
    exact ⟨rfl, rfl⟩
  · rw [hother i heq]
    exact ⟨rfl, rfl⟩

/-! ## Splitting a leaf -/

/-- The store after a leaf has handed its right part to a new leaf. -/
def cutLeaf (t : BPlusTree κ ν) (leaf : ℕ) : BPlusTree κ ν :=
  let n := t.node leaf
  let mid := (n.keys.length + 1) / 2
  let newLeaf := t.fresh
  let t := t.alloc { keys := n.keys.drop mid, values := n.values.drop mid, isLeaf := true }
  let t := t.update leaf fun n => { n with keys := n.keys.take mid, values := n.values.take mid }
  let t := t.update newLeaf ({ · with nextLeaf := n.nextLeaf, prevLeaf := some leaf })
  let t := match n.nextLeaf with
    | some next => t.update next ({ · with prevLeaf := some newLeaf })
    | none => t
  t.update leaf ({ · with nextLeaf := some newLeaf })

theorem splitLeaf_eq (t : BPlusTree κ ν) (leaf : ℕ) :
    t.splitLeaf leaf = ((cutLeaf t leaf).node t.fresh).keys.head?.bind fun separator =>
      insertIntoParent (2 * (cutLeaf t leaf).fresh) (cutLeaf t leaf) leaf separator t.fresh := rfl

theorem cutLeaf_spec {A B : List (κ × ν)} (hlen : A.length = (A.length + B.length + 1) / 2)
    (hkeys : (t.node id).keys = (A ++ B).map Prod.fst)
    (hvalues : (t.node id).values = (A ++ B).map Prod.snd) (hid : id < t.fresh)
    (hnext : ∀ b ∈ (t.node id).nextLeaf, b ≠ id ∧ b < t.fresh) :
    (cutLeaf t id).node t.fresh = {
        keys := B.map Prod.fst, values := B.map Prod.snd, nextLeaf := (t.node id).nextLeaf
        prevLeaf := some id } ∧
      (cutLeaf t id).node id = { t.node id with
        keys := A.map Prod.fst, values := A.map Prod.snd, nextLeaf := some t.fresh } ∧
      (∀ b ∈ (t.node id).nextLeaf,
        (cutLeaf t id).node b = { t.node b with prevLeaf := some t.fresh }) ∧
      (∀ i, i ≠ t.fresh → i ≠ id → (t.node id).nextLeaf ≠ some i →
        (cutLeaf t id).node i = t.node i) ∧
      (cutLeaf t id).fresh = t.fresh + 1 ∧ (cutLeaf t id).root = t.root ∧
      (cutLeaf t id).height = t.height ∧ SameParams t (cutLeaf t id) := by
  have hmid : ((t.node id).keys.length + 1) / 2 = A.length := by
    rw [hkeys, List.length_map, List.length_append, hlen]
    omega
  have htake : (t.node id).keys.take A.length = A.map Prod.fst ∧
      (t.node id).values.take A.length = A.map Prod.snd := by
    rw [hkeys, hvalues, List.map_append, List.map_append]
    exact ⟨List.take_left' (List.length_map _), List.take_left' (List.length_map _)⟩
  have hdrop : (t.node id).keys.drop A.length = B.map Prod.fst ∧
      (t.node id).values.drop A.length = B.map Prod.snd := by
    rw [hkeys, hvalues, List.map_append, List.map_append]
    exact ⟨List.drop_left' (List.length_map _), List.drop_left' (List.length_map _)⟩
  unfold cutLeaf
  simp only [hmid, hdrop.1, hdrop.2]
  cases hn : (t.node id).nextLeaf with
  | none =>
    refine ⟨?_, ?_, ?_, ?_, rfl, rfl, rfl, ⟨rfl, rfl, rfl⟩⟩
    · simp [update_node_ne, hid.ne']
    · simp [update_node_ne, alloc_node_ne, hid.ne, htake]
    · simp
    · intro i hif hii _
      simp [update_node_ne, alloc_node_ne, hif, hii]
  | some b =>
    obtain ⟨hbid, hbf⟩ := hnext b hn
    refine ⟨?_, ?_, ?_, ?_, rfl, rfl, rfl, ⟨rfl, rfl, rfl⟩⟩
    · simp [update_node_ne, hid.ne', hbf.ne']
    · simp [update_node_ne, alloc_node_ne, hid.ne, hbid.symm, htake]
    · intro b' hb'
      obtain rfl : b = b' := Option.some.inj hb'
      simp [update_node_ne, alloc_node_ne, hbid, hbf.ne]
    · intro i hif hii hib
      have hib' : i ≠ b := fun heq => hib (heq ▸ rfl)
      simp [update_node_ne, alloc_node_ne, hif, hii, hib']

/-- The halves of an overflowing leaf. -/
theorem Held.splitLeaf {A B : List (κ × ν)} {k : κ} {v : ν}
    (h : Held t c (leaf id (A ++ (k, v) :: B)))
    (hlen : A.length = (A.length + (B.length + 1) + 1) / 2) :
    SplitHeld (cutLeaf t id) c (leaf id A) k (leaf t.fresh ((k, v) :: B)) ∧
      SameParams t (cutLeaf t id) ∧ (cutLeaf t id).fresh = t.fresh + 1 ∧
      ((cutLeaf t id).node t.fresh).keys.head? = some k := by
  obtain ⟨hkeys, hvalues, hnextLeaf⟩ := h.leaf_fields
  obtain ⟨hcnd, -, hdis⟩ := List.nodup_append'.mp h.nodup
  have hcid : ∀ i ∈ c.ids, i ≠ id := fun i hi heq => hdis hi (List.mem_singleton.mpr heq)
  have hcf : ∀ i ∈ c.ids, i < t.fresh := fun i hi => h.fresh i (List.mem_append_left _ hi)
  have hid : id < t.fresh := h.fresh id (List.mem_append_right _ (List.mem_singleton_self _))
  have hnext : ∀ b ∈ (t.node id).nextLeaf, b ∈ c.ids := fun b hb =>
    c.leafIds_subset.2 (List.mem_of_head? (hnextLeaf ▸ hb))
  obtain ⟨hnew, hold, hright, hother, hfresh, hroot, hheight, hparams⟩ := cutLeaf_spec hlen hkeys
    hvalues hid fun b hb => ⟨hcid b (hnext b hb), hcf b (hnext b hb)⟩
  -- apart from the links, the other nodes stay as they are
  have hcore : ∀ i ∈ c.ids, ((cutLeaf t id).node i).core = (t.node i).core := by
    intro i hi
    by_cases hb : (t.node id).nextLeaf = some i
    · rw [hright i hb]
      rfl
    · rw [hother i (hcf i hi).ne (hcid i hi) hb]
  refine ⟨?_, hparams, hfresh, by rw [hnew]; rfl⟩
  constructor
  case ctx => exact h.ctx.congr hcore
  case focus =>
    have hfocus : (t.node id).core = _ := h.focus
    change ((cutLeaf t id).node id).core = _
    rw [hold]
    calc _ = { (t.node id).core with keys := A.map Prod.fst, values := A.map Prod.snd } := rfl
      _ = _ := by rw [hfocus]; rfl
  case orphan =>
    change ((cutLeaf t id).node t.fresh).core = _
    rw [hnew]
    rfl
  case nodup =>
    have hall : (c.ids ++ ([id] ++ [t.fresh])).Nodup := by
      rw [← List.append_assoc, List.nodup_append']
      refine ⟨h.nodup, List.nodup_singleton _, fun i hi hi' => ?_⟩
      exact (h.fresh i hi).ne (List.mem_singleton.mp hi')
    exact hall
  case fresh =>
    intro i hi
    rw [hfresh]
    rw [Tree.ids_leaf, Tree.ids_leaf, ← List.append_assoc, List.mem_append] at hi
    rcases hi with hi | hi
    · exact Nat.lt_succ_of_lt (h.fresh i hi)
    · rw [List.mem_singleton.mp hi]
      exact Nat.lt_succ_self _
  case root => exact hroot.trans h.root
  case height => exact hheight.trans h.height
  case linked =>
    have hsplit : leafIds (c.wholeSplit (leaf id A) k (leaf t.fresh ((k, v) :: B))) =
        leafIds c.before ++ id :: t.fresh :: leafIds c.after := by
      simp [Ctx.wholeSplit]
    have hwhole : leafIds (c.whole (leaf id (A ++ (k, v) :: B))) =
        leafIds c.before ++ id :: leafIds c.after := by
      simp [Ctx.whole]
    have hlinked := h.linked
    have hnodup := h.nodup_leafIds
    rw [hwhole] at hlinked hnodup
    rw [hsplit]
    refine hlinked.insert hnodup ?_ ?_ ?_ ?_
    · rw [hold]
      exact ⟨rfl, rfl⟩
    · rw [hnew]
      exact ⟨rfl, hnextLeaf⟩
    · intro b hb
      rw [hright b (hnextLeaf ▸ hb)]
      exact ⟨rfl, rfl⟩
    · intro b hb hne
      have hbc : b ∈ c.ids := by
        rcases List.mem_append.mp hb with hb | hb
        · exact c.leafIds_subset.1 hb
        · exact c.leafIds_subset.2 hb
      rw [hother b (hcf b hbc).ne (hcid b hbc) (hnextLeaf ▸ hne)]
      exact ⟨rfl, rfl⟩

/-! ## A pair is added -/

/-- `_split_leaf` puts a separator before the first pair of the right half. -/
theorem splitLeaf_spec (h : Held t c (leaf id items)) (hc : c.Full lo (t.order - 1))
    (hlen : items.length = t.order) (ht : Sized t) (hle : lo ≤ t.minKeys) :
    ∃ t' A k v B, items = A ++ (k, v) :: B ∧ A.length = (items.length + 1) / 2 ∧
      t.splitLeaf id = some t' ∧
      StoresFrom lo t' (c.wholeSplit (leaf id A) k (leaf t.fresh ((k, v) :: B))) ∧
      SameParams t t' := by
  have horder := ht.order
  have hmin := ht.minKeys
  have hmid : (items.length + 1) / 2 < items.length := by omega
  obtain ⟨A, ⟨k, v⟩, B, hA, rfl⟩ := exists_cut items hmid
  have hcut := hA
  simp only [List.length_append, List.length_cons] at hA hlen
  obtain ⟨hsplit, hparams, hfresh, hkey⟩ := h.splitLeaf hA
  -- enough fuel: there are two calls a level, and a node on each level
  have hdepth : 2 * c.depth < 2 * (cutLeaf t id).fresh := by
    obtain ⟨m, y, hy, -⟩ := h.exists_root
    have hheight := y.height_lt
    have hle := hy.length_ids_le
    have hm : t.height = m + 1 := hy.height
    have hd := c.depth_add
    rw [Ctx.ids, List.nil_append] at hle
    have hch := h.height
    omega
  obtain ⟨t', hrun, hstores, hsame⟩ := insertIntoParent_spec hsplit
    (by rw [hparams.order]; exact hc)
    (by
      rw [hparams.order]
      refine ⟨?_, ?_, trivial⟩ <;> rw [Tree.size_leaf] <;> omega)
    (by
      rw [hparams.order]
      refine ⟨?_, ?_, trivial⟩ <;> rw [Tree.size_leaf, List.length_cons] <;> omega)
    (hparams.sized ht) (hparams.minKeys ▸ hle) hdepth
  refine ⟨t', A, k, v, B, rfl, hcut, ?_, hstores, hparams.trans hsame⟩
  rw [splitLeaf_eq, hkey]
  exact hrun

/-- The sequence with other pairs in a leaf: the leaf holds them, or it is cut in the middle. -/
inductive Refilled (order : ℕ) (c : Ctx κ ν 0) (id : ℕ) (items : List (κ × ν)) :
    List (Piece κ ν) → Prop where
  | whole : Refilled order c id items (c.whole (leaf id items))
  | split (new : ℕ) {A B : List (κ × ν)} {k : κ} {v : ν} : order - 1 < items.length →
      items = A ++ (k, v) :: B → A.length = (items.length + 1) / 2 →
      Refilled order c id items (c.wholeSplit (leaf id A) k (leaf new ((k, v) :: B)))

theorem Refilled.contents {order : ℕ} (h : Refilled order c id items F) :
    contents F = contents (c.whole (leaf id items)) := by
  cases h with
  | whole => rfl
  | split new _ hcut _ =>
    subst hcut
    simp [Ctx.wholeSplit, Ctx.whole]

/-- The separator of a leaf that is cut between different keys may stand there. -/
theorem Refilled.separated {order : ℕ} (h : Refilled order c id items F)
    (hord : Separated (c.whole (leaf id items)))
    (hapart : order - 1 < items.length → Apart ((items.length + 1) / 2) (items.map Prod.fst)) :
    Separated F := by
  cases h with
  | whole => exact hord
  | @split new A B k v hover hcut hA =>
    replace hapart := hapart hover
    subst hcut
    have hbelow : ∀ p ∈ A, p.1 < k := by
      have hlen : A.length = (A.map Prod.fst).length := (List.length_map _).symm
      rw [← hA, hlen, List.map_append, List.map_cons, apart_append] at hapart
      exact fun p hp => hapart p.1 (List.mem_map_of_mem hp) k List.mem_cons_self
    have htokens : tokens (c.whole (leaf id (A ++ (k, v) :: B))) =
        tokens (c.before ++ [.leaf ⟨id, A⟩]) ++ .item k ::
          tokens ([.leaf ⟨new, B⟩] ++ c.after) := by
      simp [Ctx.whole]
    have hparted := Ctx.before_parted hord.append.1
    rw [Separated, htokens] at hord
    have hsep := pairwise_insertSep hord (by
      intro x hx
      rw [tokens_append, tokens_leaf, tokens_nil, List.append_nil, List.mem_append] at hx
      rcases hx with hx | hx
      · exact hparted _ hx (.item k) (by simp)
      · obtain ⟨p, hp, heq⟩ := List.mem_map.mp hx
        obtain rfl := Token.item.inj heq
        exact hbelow p hp)
    have heq : tokens (c.wholeSplit (leaf id A) k (leaf new ((k, v) :: B))) =
        tokens (c.before ++ [.leaf ⟨id, A⟩]) ++ .sep k :: .item k ::
          tokens ([.leaf ⟨new, B⟩] ++ c.after) := by
      simp [Ctx.wholeSplit]
    rwa [Separated, heq]

/-- The keys of a leaf ascend. -/
theorem separated_items (hord : Separated (c.whole (leaf id items))) :
    items.Pairwise fun p q => p.1 ≤ q.1 := by
  have hitems := (separated_whole hord).ascending.contents
  rwa [Tree.flat_leaf, contents_leaf, contents_nil, List.append_nil] at hitems

/-- Where no key stands twice, they ascend strictly. -/
theorem ordered_items (hord : Ordered (c.whole (leaf id items))) :
    items.Pairwise fun p q => p.1 < q.1 := by
  have hitems := hord.contents
  rw [Ctx.whole, contents_append, contents_append, Tree.flat_leaf, contents_leaf, contents_nil,
    List.append_nil] at hitems
  exact (List.pairwise_append.mp (List.pairwise_append.mp hitems).1).2.1

/-- The pairs around a leaf are on their side of the key that leads to it. -/
theorem Routes.contents {key : κ} (h : Routes key c) :
    (∀ p ∈ contents c.before, p.1 < key) ∧ ∀ q ∈ contents c.after, key < q.1 :=
  ⟨fun p hp => h.1 _ (mem_contents.mp ⟨p.2, hp⟩), fun q hq => h.2 _ (mem_contents.mp ⟨q.2, hq⟩)⟩

/-- The keys of a leaf with one key more. -/
def keysWith (t : BPlusTree κ ν) (leaf : ℕ) (key : κ) : List κ :=
  insertAt (t.node leaf).keys (bisectRight (t.node leaf).keys key) key

/-- With one key more, a leaf that overflows is not split between equal keys. -/
def SplitsClean (t : BPlusTree κ ν) (leaf : ℕ) (key : κ) : Prop :=
  t.order - 1 < (keysWith t leaf key).length →
    Apart (((keysWith t leaf key).length + 1) / 2) (keysWith t leaf key)

instance (t : BPlusTree κ ν) (leaf : ℕ) (key : κ) : Decidable (SplitsClean t leaf key) :=
  inferInstanceAs (Decidable (_ → Apart _ _))

/-- The pair goes behind the pairs of the leaf with keys up to its own. -/
theorem insertIntoLeaf_held (h : Held t c (leaf id items))
    (hfit : Fit lo (t.order - 1) c (leaf id items)) (ht : Sized t) (hle : lo ≤ t.minKeys)
    (hasc : items.Pairwise fun p q => p.1 ≤ q.1) (key : κ) (value : ν) :
    ∃ t' F' A B, items = A ++ B ∧ (∀ p ∈ A, p.1 ≤ key) ∧ (∀ q ∈ B, key < q.1) ∧
      keysWith t id key = (A ++ (key, value) :: B).map Prod.fst ∧
      t.insertIntoLeaf id key value = some t' ∧ StoresFrom lo t' F' ∧
      Refilled t.order c id (A ++ (key, value) :: B) F' ∧ SameParams t t' := by
  obtain ⟨hkeys, hvalues, -⟩ := h.leaf_fields
  have hsorted : (items.map Prod.fst).Pairwise (· ≤ ·) := by
    rw [List.pairwise_map]
    exact hasc
  obtain ⟨hpos, hleft, hright⟩ := bisectRight_spec hsorted key
  -- the pairs on both sides of the place for the new one
  rw [List.length_map] at hpos
  obtain ⟨A, B, hA, rfl⟩ := exists_append items hpos
  rw [← hA, List.map_append, List.take_left' (List.length_map _)] at hleft
  rw [← hA, List.map_append, List.drop_left' (List.length_map _)] at hright
  have hAle : ∀ p ∈ A, p.1 ≤ key := fun p hp => hleft _ (List.mem_map_of_mem hp)
  have hBlt : ∀ q ∈ B, key < q.1 := fun q hq => hright _ (List.mem_map_of_mem hq)
  have hwith : keysWith t id key = (A ++ (key, value) :: B).map Prod.fst := by
    have hk : A.length = (A.map Prod.fst).length := (List.length_map _).symm
    rw [keysWith, hkeys, ← hA, hk, List.map_append, insertAt_append]
    simp
  generalize ht₁ : t.update id (fun n => { n with
    keys := insertAt n.keys (bisectRight (t.node id).keys key) key
    values := insertAt n.values (bisectRight (t.node id).keys key) value }) = t₁
  have hnode : t₁.node id = { t.node id with
      keys := (A ++ (key, value) :: B).map Prod.fst
      values := (A ++ (key, value) :: B).map Prod.snd } := by
    have hk : A.length = (A.map Prod.fst).length := (List.length_map _).symm
    have hv : A.length = (A.map Prod.snd).length := (List.length_map _).symm
    rw [← ht₁, update_node_self, hkeys, hvalues, ← hA, List.map_append, List.map_append]
    nth_rewrite 1 [hk]
    rw [hv, insertAt_append, insertAt_append]
    simp
  have hheld : Held t₁ c (leaf id (A ++ (key, value) :: B)) := by
    subst ht₁
    exact h.setItems hnode (fun i hi => update_node_ne _ _ hi) rfl rfl rfl
  have hparams : SameParams t t₁ := ht₁ ▸ ⟨rfl, rfl, rfl⟩
  have hitems : (A ++ (key, value) :: B).length = A.length + B.length + 1 := by
    rw [List.length_append, List.length_cons]
    omega
  have hlen : (t₁.node id).keys.length = A.length + B.length + 1 := by
    rw [hnode]
    simp only [List.length_map, hitems]
  obtain ⟨hcfull, -, hleast, hmost⟩ := hfit
  have horder := ht.order
  rw [Tree.size_leaf, List.length_append] at hleast hmost
  unfold insertIntoLeaf
  simp only [ht₁, hlen, hparams.order]
  split
  · next hover =>
    obtain ⟨t', A', k, v, B', hcut, hA', hrun, hstores, hboth⟩ := splitLeaf_spec hheld
      (by rw [hparams.order]; exact hcfull)
      (by
        rw [hparams.order, hitems]
        omega)
      (hparams.sized ht) (hparams.minKeys ▸ hle)
    exact ⟨t', _, A, B, rfl, hAle, hBlt, hwith, hrun, hstores,
      .split _ (by rw [hitems]; exact hover) hcut hA', hparams.trans hboth⟩
  · next hroom =>
    refine ⟨t₁, _, A, B, rfl, hAle, hBlt, hwith, rfl, storesFrom_of_held hheld ?_, .whole, hparams⟩
    rw [hparams.order]
    refine ⟨hcfull, trivial, ?_, ?_⟩ <;>
      rw [Tree.size_leaf, List.length_append, List.length_cons] <;> omega

theorem insertIntoLeaf_spec (h : Held t c (leaf id items))
    (hfit : Fit lo (t.order - 1) c (leaf id items)) (ht : Sized t) (hle : lo ≤ t.minKeys)
    (hord : Separated (c.whole (leaf id items))) {key : κ} (value : ν) (hroute : Routes key c)
    (hclean : SplitsClean t id key) :
    ∃ t' F' P Q, t.insertIntoLeaf id key value = some t' ∧ StoresFrom lo t' F' ∧ Separated F' ∧
      contents (c.whole (leaf id items)) = P ++ Q ∧ contents F' = P ++ (key, value) :: Q ∧
      (∀ p ∈ P, p.1 ≤ key) ∧ (∀ q ∈ Q, key < q.1) ∧ SameParams t t' := by
  obtain ⟨t', F', A, B, rfl, hAle, hBlt, hwith, hrun, hstores, hfilled, hsame⟩ :=
    insertIntoLeaf_held h hfit ht hle (separated_items hord) key value
  have hord₁ : Separated (c.whole (leaf id (A ++ (key, value) :: B))) := by
    have hold : tokens (c.whole (leaf id (A ++ B))) = tokens (c.before ++ [.leaf ⟨id, A⟩]) ++
        tokens (.leaf ⟨id, B⟩ :: c.after) := by
      simp [Ctx.whole]
    have hnew : tokens (c.whole (leaf id (A ++ (key, value) :: B))) =
        tokens (c.before ++ [.leaf ⟨id, A⟩]) ++ .item key :: tokens (.leaf ⟨id, B⟩ :: c.after) := by
      simp [Ctx.whole]
    rw [Separated, hold] at hord
    rw [Separated, hnew]
    refine pairwise_insertItem hord ?_ ?_
    · intro a ha
      rw [tokens_append, tokens_leaf, tokens_nil, List.append_nil, List.mem_append] at ha
      rcases ha with ha | ha
      · exact (hroute.1 a ha).upto
      · obtain ⟨p, hp, rfl⟩ := List.mem_map.mp ha
        exact hAle p hp
    · intro b hb
      rw [tokens_leaf, List.mem_append] at hb
      rcases hb with hb | hb
      · obtain ⟨q, hq, rfl⟩ := List.mem_map.mp hb
        exact (hBlt q hq).le
      · exact (hroute.2 b hb).upto
  have hcontents : contents (c.whole (leaf id (A ++ (key, value) :: B))) =
      (contents c.before ++ A) ++ (key, value) :: (B ++ contents c.after) := by
    simp [Ctx.whole]
  have hcut : contents (c.whole (leaf id (A ++ B))) =
      (contents c.before ++ A) ++ (B ++ contents c.after) := by
    simp [Ctx.whole]
  have hsep := hfilled.separated hord₁ (fun hover => by
    rw [← List.length_map Prod.fst, ← hwith] at hover ⊢
    exact hclean hover)
  refine ⟨t', F', _, _, hrun, hstores, hsep, hcut, hfilled.contents.trans hcontents, ?_, ?_, hsame⟩
  · exact fun p hp => (List.mem_append.mp hp).elim (fun hp => (hroute.contents.1 p hp).le) (hAle p)
  · exact fun q hq => (List.mem_append.mp hq).elim (hBlt q) (hroute.contents.2 q)

/-- What `insert` does to the pairs of the tree. -/
theorem insert_separated (h : StoresFrom lo t F) (hord : Separated F) (ht : Sized t)
    (hle : lo ≤ t.minKeys) (key : κ) (value : ν)
    (hclean : ∀ leaf ∈ t.findLeaf key, SplitsClean t leaf key) :
    ∃ t' F' P Q, t.insert key value = some t' ∧ StoresFrom lo t' F' ∧ Separated F' ∧
      contents F = P ++ Q ∧ contents F' = P ++ (key, value) :: Q ∧ t'.order = t.order ∧
      t'.minKeys = t.minKeys ∧ t'.size = t.size + 1 := by
  obtain ⟨c, l, hfind, hheld, hfit, hwhole, hroute⟩ := h.findLeaf hord key
  obtain ⟨id, items, rfl⟩ := exists_leaf l
  rw [Tree.id_leaf] at hfind
  subst hwhole
  obtain ⟨t', F', P, Q, hrun, hstores, hsep, hcut, hcontents, -, -, hsame⟩ :=
    insertIntoLeaf_spec hheld hfit ht hle hord value hroute (hclean id hfind)
  refine ⟨{ t' with size := t'.size + 1 }, F', P, Q, ?_, hstores.setSize _, hsep, hcut, hcontents,
    hsame.order, hsame.minKeys, congrArg (· + 1) hsame.size⟩
  rw [BPlusTree.insert, hfind]
  simp only [Option.bind_eq_bind, Option.bind_some, hrun]

/-- Where no key stands twice, nothing can be split between equal keys. -/
theorem splitsClean_of_absent (h : Held t c (leaf id items))
    (hord : Ordered (c.whole (leaf id items))) {key : κ} (habsent : key ∉ items.map Prod.fst) :
    SplitsClean t id key := by
  intro _
  refine apart_of_pairwise ?_ _
  have hstrict : (items.map Prod.fst).Pairwise (· < ·) := by
    rw [List.pairwise_map]
    exact ordered_items hord
  obtain ⟨-, hleft, hright⟩ := bisectRight_spec (hstrict.imp le_of_lt) key
  rw [keysWith, h.leaf_fields.1, insertAt]
  rw [← List.take_append_drop (bisectRight (items.map Prod.fst) key) (items.map Prod.fst),
    List.pairwise_append] at hstrict
  obtain ⟨htake, hdrop, hcross⟩ := hstrict
  have hlt : ∀ x ∈ (items.map Prod.fst).take (bisectRight (items.map Prod.fst) key), x < key :=
    fun x hx => lt_of_le_of_ne (hleft x hx) fun heq => habsent (heq ▸ List.mem_of_mem_take hx)
  rw [List.pairwise_append, List.pairwise_cons]
  refine ⟨htake, ⟨hright, hdrop⟩, fun x hx y hy => ?_⟩
  rcases List.mem_cons.mp hy with rfl | hy
  · exact hlt x hx
  · exact hcross x hx y hy

/-- What `insert_unique` does to the pairs of the tree. -/
theorem insertUnique_spec (h : StoresFrom lo t F) (hord : Ordered F) (ht : Sized t)
    (hle : lo ≤ t.minKeys) (key : κ) (value : ν) :
    (t.insertUnique key value = some (t, false) ∧ ∃ P v Q, contents F = P ++ (key, v) :: Q) ∨
      ∃ t' F' P Q, t.insertUnique key value = some (t', true) ∧ StoresFrom lo t' F' ∧ Ordered F' ∧
        contents F = P ++ Q ∧ contents F' = P ++ (key, value) :: Q ∧ (∀ p ∈ P, p.1 < key) ∧
        (∀ q ∈ Q, key < q.1) ∧ t'.order = t.order ∧ t'.minKeys = t.minKeys ∧
        t'.size = t.size + 1 := by
  obtain ⟨c, l, hfind, hheld, hfit, hwhole, hroute⟩ := h.findLeaf hord.separated key
  obtain ⟨id, items, rfl⟩ := exists_leaf l
  rw [Tree.id_leaf] at hfind
  subst hwhole
  rw [insertUnique, hfind]
  simp only [Option.bind_eq_bind, Option.bind_some, hheld.leaf_fields.1]
  by_cases hmem : key ∈ items.map Prod.fst
  · obtain ⟨p, hp, rfl⟩ := List.mem_map.mp hmem
    obtain ⟨A, B, rfl⟩ := List.append_of_mem hp
    refine .inl ⟨if_pos hmem, contents c.before ++ A, p.2, B ++ contents c.after, ?_⟩
    simp [Ctx.whole]
  · obtain ⟨t', F', P, Q, hrun, hstores, hsep, hcut, hcontents, hP, hQ, hsame⟩ :=
      insertIntoLeaf_spec hheld hfit ht hle hord.separated value hroute
        (splitsClean_of_absent hheld hord hmem)
    have habsent : ∀ p ∈ contents (c.whole (leaf id items)), p.1 ≠ key := by
      intro p hp heq
      simp only [Ctx.whole, Tree.flat_leaf, contents_append, contents_leaf, contents_nil,
        List.append_nil, List.mem_append] at hp
      rcases hp with (hp | hp) | hp
      · exact (hroute.contents.1 p hp).ne heq
      · exact hmem (heq ▸ List.mem_map_of_mem hp)
      · exact (hroute.contents.2 p hp).ne' heq
    have hPlt : ∀ p ∈ P, p.1 < key := fun p hp =>
      lt_of_le_of_ne (hP p hp) (habsent p (hcut ▸ List.mem_append_left _ hp))
    have hstrict : (contents F').Pairwise fun p q => p.1 < q.1 := by
      have hold := hord.contents
      rw [hcut, List.pairwise_append] at hold
      rw [hcontents, List.pairwise_append, List.pairwise_cons]
      refine ⟨hold.1, ⟨hQ, hold.2.1⟩, fun p hp q hq => ?_⟩
      rcases List.mem_cons.mp hq with rfl | hq
      · exact hPlt p hp
      · exact hold.2.2 p hp q hq
    refine .inr ⟨{ t' with size := t'.size + 1 }, F', P, Q, ?_, hstores.setSize _,
      hsep.ordered hstrict, hcut, hcontents, hPlt, hQ, hsame.order, hsame.minKeys,
      congrArg (· + 1) hsame.size⟩
    rw [if_neg hmem, hrun]
    rfl

end PySQL.BTree
