import PySQL.BTree.Merge

/-!
# Deletion

A pair is taken out of the leaf that the search for its key ends at.  Separators further up may stay
behind: they still divide what is left.  A node with too few keys takes one from a neighbour or is
merged with it, which may leave the parent with too few.
-/

namespace PySQL.BTree

open BPlusTree

set_option linter.unusedSectionVars false

variable {κ ν : Type} [LinearOrder κ] [DecidableEq ν]
  {t t' : BPlusTree κ ν} {n : ℕ} {f : Frame κ ν n} {a b x : Tree κ ν n} {k : κ} {lo hi : ℕ}
  {F : List (Piece κ ν)}

/-! ## The root is told apart from the other nodes -/

/-- What lies above a subtree ends at the root. -/
theorem Held.exists_rootFrame {c : Ctx κ ν n} (h : Held t c x) (hdepth : 0 < c.depth)
    (hfull : c.Full lo hi) :
    ∃ (m : ℕ) (g : Frame κ ν m) (y : Tree κ ν m) (P Q : List (Piece κ ν)),
      Held t .top (g.fill y) ∧ (g.fill y).flat = c.whole x ∧ y.flat = P ++ x.flat ++ Q ∧
        1 ≤ g.left.length + g.right.length := by
  induction c with
  | top => exact absurd hdepth (lt_irrefl 0)
  | @up n f c ih =>
    cases c with
    | top =>
      refine ⟨n, f, x, [], [], held_up.mp h, ?_, by simp, hfull.2.1⟩
      rw [Ctx.whole_up]
      simp [Ctx.whole, Ctx.before, Ctx.after]
    | up g c =>
      obtain ⟨m, g', y, P, Q, hroot, hflat, hpart, hsize⟩ :=
        ih (held_up.mp h) (Nat.succ_pos _) hfull.2.2.2
      refine ⟨m, g', y, P ++ f.before, f.after ++ Q, hroot, ?_, ?_, hsize⟩
      · rw [hflat, ← Ctx.whole_up]
      · rw [hpart, Frame.flat_fill]
        simp only [List.append_assoc]

/-- The comparison of a branch with the root. -/
theorem Held.eq_root {c : Ctx κ ν (n + 1)} {b : Tree κ ν (n + 1)} (h : Held t c b)
    (hdepth : 0 < c.depth) (hlo : 1 ≤ lo) (hfull : c.Full lo hi) (hb : b.Below lo hi)
    (hord : Separated (c.whole b)) : t.eq b.id t.root = some false := by
  obtain ⟨m, g, y, P, Q, hroot, hflat, hpart, hsize⟩ := h.exists_rootFrame hdepth hfull
  have hrootId : t.root = (g.fill y).id := hroot.root
  rw [hrootId]
  apply eq_of_keys_ne
  rw [h.focus.keys_eq, hroot.focus.keys_eq]
  intro heq
  obtain ⟨a, ks, hkeys⟩ : ∃ a ks, g.keys = a :: ks := by
    rw [← List.ne_nil_iff_exists_cons, ← List.length_pos_iff, Frame.keys, List.length_append,
      List.length_map, List.length_map]
    exact hsize
  obtain ⟨A, B, i, j, htokens, hi, hj⟩ := Tree.exists_around (heq.trans hkeys) hlo hb
  -- pairs of `b` on both sides of its first key, which is the first key of the root
  rw [← hflat, Frame.flat_fill, hpart] at hord
  have hmem : ∀ z ∈ tokens b.flat, z ∈ tokens (P ++ b.flat ++ Q) := by
    intro z hz
    rw [tokens_append, tokens_append]
    exact List.mem_append_left _ (List.mem_append_right _ hz)
  have hb' : Separated b.flat := hord.append.1.append.2.append.1.append.2
  rw [Separated, htokens, List.pairwise_append] at hb'
  have hlt : i < a := hb'.2.2 _ hi _ List.mem_cons_self
  have hge : a ≤ j := (List.pairwise_cons.mp hb'.2.1).1 _ hj
  rw [Separated, tokens_append, tokens_append, List.pairwise_append, List.pairwise_append] at hord
  obtain ⟨⟨-, -, hbefore⟩, -, hafter⟩ := hord
  have hi' := hmem _ (htokens ▸ List.mem_append_left _ hi)
  have hj' := hmem _ (htokens ▸ List.mem_append_right _ (List.mem_cons_of_mem _ hj))
  cases hleft : g.left with
  | nil =>
    cases hright : g.right with
    | nil => simp [hleft, hright] at hsize
    | cons p right =>
      have hp : p.1 = a := by
        simp only [Frame.keys, hleft, hright, List.map_nil, List.nil_append, List.map_cons] at hkeys
        exact (List.cons.inj hkeys).1
      have hsep : Token.sep a ∈ tokens g.after := by
        rw [Frame.after, hright, List.flatMap_cons, hp]
        exact List.mem_cons_self
      have hlt' : j < a := hafter _ (List.mem_append_right _ hj') _ hsep
      exact absurd (hlt'.trans_le hge) (lt_irrefl j)
  | cons p left =>
    have hp : p.2 = a := by
      simp only [Frame.keys, hleft, List.map_cons, List.cons_append] at hkeys
      exact (List.cons.inj hkeys).1
    have hsep : Token.sep a ∈ tokens g.before := by
      rw [Frame.before, hleft, List.flatMap_cons, hp, tokens_append, tokens_append]
      exact List.mem_append_left _ (List.mem_append_right _ List.mem_cons_self)
    have hle : a ≤ i := hbefore _ hsep _ hi'
    exact absurd (hlt.trans_le hle) (lt_irrefl i)

/-! ## Mending a node with too few keys -/

/-- The store holds a tree with the same pairs as the sequence. -/
def Mended (lo : ℕ) (t t' : BPlusTree κ ν) (F : List (Piece κ ν)) : Prop :=
  ∃ F', StoresFrom lo t' F' ∧ Separated F' ∧ contents F' = contents F ∧ SameParams t t'

/-- The node at this place has too few keys, at most one less than it may have, and all else is in
order. -/
structure Short (lo : ℕ) (t : BPlusTree κ ν) (c : Ctx κ ν n) (x : Tree κ ν n) : Prop where
  held : Held t c x
  full : c.Full lo (t.order - 1)
  below : x.Below lo (t.order - 1)
  least : lo ≤ x.size + 1
  most : x.size < t.minKeys
  separated : Separated (c.whole x)
  sized : Sized t
  pos : 1 ≤ lo
  le : lo ≤ t.minKeys

theorem popAt_append {α : Type} (as bs : List α) (x : α) :
    popAt (as ++ x :: bs) as.length = some (x, as ++ bs) := by
  simp [popAt, List.eraseIdx_append_of_length_le]

/-- A root without keys gives way to its only child. -/
theorem Held.collapse {m : Tree κ ν n} (h : Held t .top (f.fill m)) (hleft : f.left = [])
    (hright : f.right = []) (hnode : ∀ i, i ≠ m.id → t'.node i = t.node i)
    (hm : t'.node m.id = { t.node m.id with parent := none }) (hroot : t'.root = m.id)
    (hfresh : t'.fresh = t.fresh) (hheight : t'.height = t.height - 1) : Held t' .top m := by
  have hids : (f.fill m).ids = f.id :: m.ids := by
    simp [Frame.fill, Tree.ids, Frame.childrenWith, hleft, hright]
  have hflat : (f.fill m).flat = m.flat := by
    rw [Frame.flat_fill]
    simp [Frame.before, Frame.after, hleft, hright]
  have hnd : m.ids.Nodup := by
    have hall := h.nodup
    rw [Ctx.ids, List.nil_append, hids] at hall
    exact (List.nodup_cons.mp hall).2
  have hkid := (at_fill.mp ⟨h.ctx, h.focus⟩).2
  constructor
  case ctx => trivial
  case focus =>
    refine hkid.reparent hnd (by rw [hm]; rfl) fun i hi hne => ?_
    rw [hnode i hne]
  case nodup => exact hnd
  case fresh =>
    intro i hi
    rw [hfresh]
    exact h.fresh i (List.mem_append_right _ (hids ▸ List.mem_cons_of_mem _ hi))
  case root => exact hroot
  case height =>
    have hh : t.height = n + 1 + 1 := h.height
    change t'.height = n + 1
    omega
  case linked =>
    have hlinked := h.linked
    simp only [Ctx.whole, Ctx.before, Ctx.after, List.nil_append, List.append_nil, hflat]
      at hlinked ⊢
    refine hlinked.congr fun i _ => ?_
    by_cases hi : i = m.id
    · rw [hi, hm]
      exact ⟨rfl, rfl⟩
    · rw [hnode i hi]
      exact ⟨rfl, rfl⟩

/-- `_merge_nodes`, given what `_handle_underflow` does to the parent. -/
theorem mergeNodes_spec {c : Ctx κ ν (n + 1)} (h : Held t c (f.pair a k b))
    (hord : Separated (c.whole (f.pair a k b))) (ht : Sized t) (hlo : 1 ≤ lo) (hle : lo ≤ t.minKeys)
    (hc : c.Full lo (t.order - 1)) (hs : ∀ s ∈ f.siblings, s.Full lo (t.order - 1))
    (ha : a.Below lo (t.order - 1)) (hb : b.Below lo (t.order - 1))
    (hsum : lo ≤ a.size + b.size ∧ a.size + b.size < 2 * t.minKeys)
    (hleast : c.least lo ≤ (f.pair a k b).size) (hmost : (f.pair a k b).size ≤ t.order - 1)
    {fuel : ℕ} (hup : 0 < c.depth → ∀ (t₁ : BPlusTree κ ν) (x : Tree κ ν (n + 1)), Short lo t₁ c x →
      ∃ t', handleUnderflow fuel t₁ x.id = some t' ∧ Mended lo t₁ t' (c.whole x)) :
    ∃ t', mergeNodes (fuel + 1) t a.id b.id f.id f.left.length = some t' ∧
      Mended lo t t' (c.whole (f.pair a k b)) := by
  have horder := ht.order
  have hmin := ht.minKeys
  obtain ⟨t₁, m, hrun, habs⟩ := absorb_spec h
  obtain ⟨hkeys, hchildren⟩ := Frame.fields_pair h.focus
  have hkeys₁ : (t₁.node f.id).keys = f.left.map Prod.snd ++ k :: f.right.map Prod.fst := by
    have hcore : (t₁.node f.id).core.keys = (t.node f.id).core.keys := by rw [habs.parent]
    exact hcore.trans hkeys
  have hchildren₁ : (t₁.node f.id).children =
      f.left.map (fun p => p.1.id) ++ a.id :: b.id :: f.right.map fun p => p.2.id := by
    have hcore : (t₁.node f.id).core.children = (t.node f.id).core.children := by rw [habs.parent]
    exact hcore.trans hchildren
  have hpopKeys : popAt (t₁.node f.id).keys f.left.length = some (k, f.keys) := by
    have hlen : f.left.length = (f.left.map Prod.snd).length := (List.length_map _).symm
    rw [hkeys₁, hlen, popAt_append]
    rfl
  have hpopChildren : popAt (t₁.node f.id).children (f.left.length + 1) =
      some (b.id, f.childrenWith Tree.id a.id) := by
    have hlen : f.left.length + 1 = (f.left.map (fun p => p.1.id) ++ [a.id]).length := by simp
    rw [hchildren₁, List.append_cons, hlen, popAt_append]
    simp [Frame.childrenWith]
  rw [mergeNodes, hrun]
  simp only [Option.bind_eq_bind, Option.bind_some, hpopKeys, hpopChildren]
  have hheld := habs.held
  generalize ht₂ : t₁.update f.id ({ · with
    keys := f.keys, children := f.childrenWith Tree.id a.id }) = t₂ at *
  have hparams : SameParams t t₂ := ht₂ ▸ ⟨habs.params.order, habs.params.minKeys, habs.params.size⟩
  -- the merged node is as full as it should be
  have hsizes := habs.sizes
  have hmbelow := habs.below ha hb
  have hbelow : (f.fill m).Below lo (t.order - 1) := by
    refine Tree.below_succ.mpr fun s hmem => ?_
    rcases (f.mem_children_fill m s).mp hmem with rfl | hmem
    · exact ⟨by omega, by omega, hmbelow⟩
    · exact hs s hmem
  have htokens : (tokens (c.whole (f.fill m))).Sublist (tokens (c.whole (f.pair a k b))) := by
    simp only [Ctx.whole, Frame.flat_fill, Frame.flat_pair, tokens_append, List.append_assoc]
    have hsub := habs.tokens
    rw [tokens_append] at hsub
    have hmid := ((hsub.append_right (tokens f.after ++ tokens c.after)).append_left
      (tokens f.before)).append_left (tokens c.before)
    simpa only [List.append_assoc] using hmid
  have hord₂ : Separated (c.whole (f.fill m)) := hord.sublist htokens
  have hcontents : contents (c.whole (f.fill m)) = contents (c.whole (f.pair a k b)) := by
    rw [contents_pair]
    simp [Ctx.whole, Frame.flat_fill, habs.contents]
  have hsize : (f.pair a k b).size = (f.fill m).size + 1 := by
    rw [Frame.size_pair, Frame.size_fill]
  have hkeysLength : f.keys.length = (f.fill m).size := rfl
  have hmin₂ : t₂.minKeys = t.minKeys := hparams.minKeys
  have hhi : t₂.order = t.order := hparams.order
  cases c with
  | top =>
    have hroot : t₂.root = f.id := hheld.root
    rw [hroot, BPlusTree.eq_self]
    simp only [Option.bind_some, if_true, hkeysLength]
    split
    · next hempty =>
      -- the root has one child left
      rw [Frame.size_fill] at hempty
      have hleft : f.left = [] := List.eq_nil_of_length_eq_zero (by omega)
      have hright : f.right = [] := List.eq_nil_of_length_eq_zero (by omega)
      refine ⟨_, rfl, m.flat, ⟨n, m, hheld.collapse hleft hright (fun i hi => ?_) ?_ ?_ rfl rfl, ?_,
        rfl⟩, ?_, ?_, ⟨hparams.order, hparams.minKeys, hparams.size⟩⟩
      · rw [habs.id] at hi
        simp only [update_node_ne _ _ hi]
      · rw [habs.id]
        simp only [update_node_self]
      · exact habs.id.symm
      · change Fit lo (t₂.order - 1) .top m
        rw [hhi]
        refine ⟨trivial, hmbelow, ?_, by omega⟩
        cases n with
        | zero => exact Nat.zero_le _
        | succ n => exact hsizes.2.2 (Nat.succ_pos n)
      · exact (separated_whole hord₂).sublist (by
          rw [Frame.flat_fill]
          simp [Frame.before, Frame.after, hleft, hright])
      · rw [← hcontents]
        simp [Ctx.whole, Ctx.before, Ctx.after, Frame.flat_fill, Frame.before, Frame.after, hleft,
          hright]
    · next hrest =>
      refine ⟨t₂, rfl, _, storesFrom_of_held hheld ?_, hord₂, hcontents, hparams⟩
      rw [hhi]
      exact ⟨trivial, hbelow, Nat.one_le_iff_ne_zero.mpr hrest, by omega⟩
  | up g c =>
    have hroot := hheld.eq_root (Nat.succ_pos _) hlo hc hbelow hord₂
    rw [Frame.id_fill] at hroot
    rw [Ctx.least_up] at hleast
    rw [hroot]
    simp only [Option.bind_some, Bool.false_eq_true, if_false, hkeysLength, hmin₂]
    split
    · next hshort =>
      obtain ⟨t', hrun', F', hstores, hordered, hsame, hboth⟩ := hup (Nat.succ_pos _) t₂ (f.fill m) {
        held := hheld
        full := by rw [hhi]; exact hc
        below := by rw [hhi]; exact hbelow
        least := by omega
        most := by rw [hmin₂]; exact hshort
        separated := hord₂
        sized := hparams.sized ht
        pos := hlo
        le := by rw [hmin₂]; exact hle }
      exact ⟨t', hrun', F', hstores, hordered, hsame.trans hcontents, hparams.trans hboth⟩
    · next hrest =>
      refine ⟨t₂, rfl, _, storesFrom_of_held hheld ?_, hord₂, hcontents, hparams⟩
      rw [hhi]
      refine ⟨hc, hbelow, ?_, by omega⟩
      rw [Ctx.least_up]
      omega

/-! ## The choices of `_handle_underflow` -/

section Choices

variable {c : Ctx κ ν (n + 1)} {s : Tree κ ν n}

theorem Frame.mem_putLeft_siblings {s' : Tree κ ν n} :
    s' ∈ (f.putLeft s k).siblings ↔ s' = s ∨ s' ∈ f.siblings := by
  simp only [Frame.siblings, Frame.putLeft, List.map_append, List.map_cons, List.map_nil,
    List.mem_append, List.mem_singleton]
  grind

theorem Frame.mem_putRight_siblings {s' : Tree κ ν n} :
    s' ∈ (f.putRight k s).siblings ↔ s' = s ∨ s' ∈ f.siblings := by
  rw [(f.siblings_putRight k s).mem_iff, List.mem_cons]

/-- A short node and its left neighbour. -/
theorem Short.pairLeft (h : Short lo t (.up (f.putLeft s k) c) x) :
    Held t c (f.pair s k x) ∧ Separated (c.whole (f.pair s k x)) ∧
      c.whole (f.pair s k x) = (Ctx.up (f.putLeft s k) c).whole x ∧
      s.Full lo (t.order - 1) ∧ (∀ s' ∈ f.siblings, s'.Full lo (t.order - 1)) ∧
      c.Full lo (t.order - 1) ∧ c.least lo ≤ (f.pair s k x).size ∧
      (f.pair s k x).size ≤ t.order - 1 := by
  obtain ⟨hsib, hleast, hmost, hc⟩ := h.full
  have hwhole : c.whole (f.pair s k x) = (Ctx.up (f.putLeft s k) c).whole x := by
    rw [Ctx.whole_up, Frame.fill_putLeft]
  have hsize : (f.pair s k x).size = (f.putLeft s k).left.length + (f.putLeft s k).right.length := by
    rw [← Frame.fill_putLeft, Frame.size_fill]
  refine ⟨?_, hwhole ▸ h.separated, hwhole, hsib s (Frame.mem_putLeft_siblings.mpr (.inl rfl)),
    fun s' hs' => hsib s' (Frame.mem_putLeft_siblings.mpr (.inr hs')), hc, ?_, ?_⟩
  · rw [← Frame.fill_putLeft]
    exact held_up.mp h.held
  · rw [hsize]
    exact hleast
  · rw [hsize]
    exact hmost

/-- A short node and its right neighbour. -/
theorem Short.pairRight (h : Short lo t (.up (f.putRight k s) c) x) :
    Held t c (f.pair x k s) ∧ Separated (c.whole (f.pair x k s)) ∧
      c.whole (f.pair x k s) = (Ctx.up (f.putRight k s) c).whole x ∧
      s.Full lo (t.order - 1) ∧ (∀ s' ∈ f.siblings, s'.Full lo (t.order - 1)) ∧
      c.Full lo (t.order - 1) ∧ c.least lo ≤ (f.pair x k s).size ∧
      (f.pair x k s).size ≤ t.order - 1 := by
  obtain ⟨hsib, hleast, hmost, hc⟩ := h.full
  have hwhole : c.whole (f.pair x k s) = (Ctx.up (f.putRight k s) c).whole x := by
    rw [Ctx.whole_up, Frame.pair]
  have hsize : (f.pair x k s).size =
      (f.putRight k s).left.length + (f.putRight k s).right.length := by
    rw [Frame.pair, Frame.size_fill]
  refine ⟨held_up.mp h.held, hwhole ▸ h.separated, hwhole,
    hsib s (Frame.mem_putRight_siblings.mpr (.inl rfl)),
    fun s' hs' => hsib s' (Frame.mem_putRight_siblings.mpr (.inr hs')), hc, ?_, ?_⟩
  · rw [hsize]
    exact hleast
  · rw [hsize]
    exact hmost

theorem Short.fromLeft (h : Short lo t (.up (f.putLeft s k) c) x) (hrich : t.minKeys < s.size)
    (hlend : s.LendsLast) : ∃ t', t.redistributeFromLeft x.id s.id f.id (f.left.length + 1) = some t' ∧
      Mended lo t t' ((Ctx.up (f.putLeft s k) c).whole x) := by
  obtain ⟨hheld, hord, hwhole, hs, hsib, hc, hleast, hmost⟩ := h.pairLeft
  have hsize := h.least
  have hshort := h.most
  have hle := h.le
  have hmin := h.sized.minKeys
  have hsmost := hs.2.1
  obtain ⟨t', s', k', x', hrun, hmoved, hs', hx'⟩ :=
    redistributeFromLeft_spec hheld hord (by omega) hlend
  refine ⟨t', hrun, _, hmoved.stores hc hsib hs.2.2 h.below hleast hmost ⟨?_, ?_⟩ ⟨?_, ?_⟩,
    hmoved.separated, hwhole ▸ hmoved.contents, hmoved.params⟩ <;> omega

theorem Short.fromRight (h : Short lo t (.up (f.putRight k s) c) x) (hrich : t.minKeys < s.size)
    (hlend : s.LendsFirst) : ∃ t', t.redistributeFromRight x.id s.id f.id f.left.length = some t' ∧
      Mended lo t t' ((Ctx.up (f.putRight k s) c).whole x) := by
  obtain ⟨hheld, hord, hwhole, hs, hsib, hc, hleast, hmost⟩ := h.pairRight
  have hsize := h.least
  have hshort := h.most
  have hle := h.le
  have hmin := h.sized.minKeys
  have hsmost := hs.2.1
  obtain ⟨t', x', k', s', hrun, hmoved, hx', hs'⟩ :=
    redistributeFromRight_spec hheld hord (by have := h.pos; omega) hlend
  refine ⟨t', hrun, _, hmoved.stores hc hsib h.below hs.2.2 hleast hmost ⟨?_, ?_⟩ ⟨?_, ?_⟩,
    hmoved.separated, hwhole ▸ hmoved.contents, hmoved.params⟩ <;> omega

variable {fuel : ℕ} (hup : 0 < c.depth → ∀ (t₁ : BPlusTree κ ν) (x : Tree κ ν (n + 1)),
  Short lo t₁ c x → ∃ t', handleUnderflow fuel t₁ x.id = some t' ∧ Mended lo t₁ t' (c.whole x))

include hup

theorem Short.mergeLeft (h : Short lo t (.up (f.putLeft s k) c) x) (hpoor : ¬t.minKeys < s.size) :
    ∃ t', mergeNodes (fuel + 1) t s.id x.id f.id f.left.length = some t' ∧
      Mended lo t t' ((Ctx.up (f.putLeft s k) c).whole x) := by
  obtain ⟨hheld, hord, hwhole, hs, hsib, hc, hleast, hmost⟩ := h.pairLeft
  have hshort := h.most
  have hsleast := hs.1
  rw [← hwhole]
  exact mergeNodes_spec hheld hord h.sized h.pos h.le hc hsib hs.2.2 h.below (by omega) hleast hmost
    hup

theorem Short.mergeRight (h : Short lo t (.up (f.putRight k s) c) x) (hpoor : ¬t.minKeys < s.size) :
    ∃ t', mergeNodes (fuel + 1) t x.id s.id f.id f.left.length = some t' ∧
      Mended lo t t' ((Ctx.up (f.putRight k s) c).whole x) := by
  obtain ⟨hheld, hord, hwhole, hs, hsib, hc, hleast, hmost⟩ := h.pairRight
  have hshort := h.most
  have hsleast := hs.1
  rw [← hwhole]
  exact mergeNodes_spec hheld hord h.sized h.pos h.le hc hsib h.below hs.2.2 (by omega) hleast hmost
    hup

end Choices

theorem Frame.lookup_putLeft (f : Frame κ ν n) (s : Tree κ ν n) (k : κ) (i : ℕ) :
    (if (f.putLeft s k).left.length > 0 then
      ((f.putLeft s k).childrenWith Tree.id i)[(f.putLeft s k).left.length - 1]? else none) =
        some s.id := by
  simp [Frame.putLeft, Frame.childrenWith]

theorem Frame.lookup_putRight (f : Frame κ ν n) (s : Tree κ ν n) (k : κ) (i : ℕ) :
    ((f.putRight k s).childrenWith Tree.id i)[(f.putRight k s).left.length + 1]? = some s.id := by
  simp [Frame.putRight, Frame.childrenWith]

/-- The left neighbour, as the code looks it up. -/
theorem Frame.leftSibling (f : Frame κ ν n) (i : ℕ) :
    (f.left = [] ∧ (if f.left.length > 0 then (f.childrenWith Tree.id i)[f.left.length - 1]?
        else none) = none) ∨
      ∃ (g : Frame κ ν n) (s : Tree κ ν n) (k : κ), f = g.putLeft s k ∧
        (if f.left.length > 0 then (f.childrenWith Tree.id i)[f.left.length - 1]? else none) =
          some s.id := by
  obtain ⟨id, left, right⟩ := f
  rcases left.eq_nil_or_concat with rfl | ⟨left, ⟨s, k⟩, rfl⟩
  · exact .inl ⟨rfl, rfl⟩
  · have hput : (⟨id, left.concat (s, k), right⟩ : Frame κ ν n) =
        (⟨id, left, right⟩ : Frame κ ν n).putLeft s k := by
      simp [Frame.putLeft]
    rw [hput]
    exact .inr ⟨_, s, k, rfl, Frame.lookup_putLeft _ s k i⟩

/-- The right neighbour, as the code looks it up. -/
theorem Frame.rightSibling (f : Frame κ ν n) (i : ℕ) :
    (f.right = [] ∧ (f.childrenWith Tree.id i)[f.left.length + 1]? = none) ∨
      ∃ (g : Frame κ ν n) (s : Tree κ ν n) (k : κ), f = g.putRight k s ∧
        (f.childrenWith Tree.id i)[f.left.length + 1]? = some s.id := by
  obtain ⟨id, left, right⟩ := f
  cases right with
  | nil =>
    refine .inl ⟨rfl, ?_⟩
    simp [Frame.childrenWith]
  | cons p right =>
    exact .inr ⟨⟨id, left, right⟩, p.2, p.1, rfl,
      Frame.lookup_putRight ⟨id, left, right⟩ p.2 p.1 i⟩

/-- The neighbour that would lend a pair lends one with a key of its own. -/
def Frame.Lends (minKeys : ℕ) (f : Frame κ ν n) : Prop :=
  (∀ (g : Frame κ ν n) (s : Tree κ ν n) (k : κ), f = g.putLeft s k → minKeys < s.size →
    s.LendsLast) ∧
  ∀ (g : Frame κ ν n) (s : Tree κ ν n) (k : κ), f = g.putRight k s → minKeys < s.size →
    (∀ (g' : Frame κ ν n) (s' : Tree κ ν n) (k' : κ), f = g'.putLeft s' k' → ¬minKeys < s'.size) →
      s.LendsFirst

def Ctx.Lends (minKeys : ℕ) : {n : ℕ} → Ctx κ ν n → Prop
  | _, .top => True
  | _, .up f _ => f.Lends minKeys

/-- A branch lends a child, whatever its keys are. -/
theorem Ctx.lends_succ (minKeys : ℕ) (c : Ctx κ ν (n + 1)) : c.Lends minKeys := by
  cases c with
  | top => exact True.intro
  | up f c => exact ⟨fun _ _ _ _ _ => True.intro, fun _ _ _ _ _ _ => True.intro⟩

theorem Frame.putLeft_inj {g g' : Frame κ ν n} {s s' : Tree κ ν n} {k k' : κ}
    (h : g.putLeft s k = g'.putLeft s' k') : s = s' := by
  have hleft : g.left ++ [(s, k)] = g'.left ++ [(s', k')] := congrArg Frame.left h
  have hlast := (List.append_inj' hleft rfl).2
  exact congrArg Prod.fst (List.cons.inj hlast).1

/-- `_handle_underflow` mends a node that has too few keys, whatever it merges on its way up. -/
theorem handleUnderflow_spec {c : Ctx κ ν n} (h : Short lo t c x) (hdepth : 0 < c.depth)
    (hlends : c.Lends t.minKeys) {fuel : ℕ} (hfuel : 2 * c.depth ≤ fuel) :
    ∃ t', handleUnderflow fuel t x.id = some t' ∧ Mended lo t t' (c.whole x) := by
  induction c generalizing t fuel with
  | top => exact absurd hdepth (lt_irrefl 0)
  | @up n f c ih =>
    rw [Ctx.depth] at hfuel
    obtain ⟨fuel, rfl⟩ : ∃ m, fuel = m + 2 := ⟨fuel - 2, by omega⟩
    have hup : 0 < c.depth → ∀ (t₁ : BPlusTree κ ν) (x : Tree κ ν (n + 1)), Short lo t₁ c x →
        ∃ t', handleUnderflow fuel t₁ x.id = some t' ∧ Mended lo t₁ t' (c.whole x) :=
      fun hc t₁ x hx => ih hx hc (c.lends_succ _) (by omega)
    obtain ⟨hsib, hleast, hmost, hcfull⟩ := h.full
    have hlo := h.pos
    obtain ⟨hlast, hfirst⟩ := hlends
    have hfn : (t.node f.id).children = f.childrenWith Tree.id x.id :=
      congrArg BPlusTreeNode.children h.held.ctx.1
    have hindex : t.index x.id (f.childrenWith Tree.id x.id) = some f.left.length := by
      refine index_spec h.held.ctx h.held.focus hlo hsib h.below ?_
      have hpart := h.separated.append.1
      rw [Ctx.before, List.append_assoc] at hpart
      exact hpart.append.2
    have hkeys : ∀ s ∈ f.siblings, (t.node s.id).keys.length = s.size := fun s hs =>
      (h.held.ctx.2.1 s hs).keys_length
    rw [handleUnderflow, h.held.focus.parent_eq]
    simp only [Ctx.parent, Option.bind_eq_bind, hfn, hindex, Option.bind_some]
    rcases f.leftSibling x.id with ⟨hleft, hnone⟩ | ⟨g, s, k, hg, hsome⟩
    · rw [hnone]
      rcases f.rightSibling x.id with ⟨hright, -⟩ | ⟨g, s, k, rfl, hsome⟩
      · -- a branch has at least one key
        have hpos : 1 ≤ c.least lo := by
          cases c with
          | top => exact le_refl 1
          | up f c => exact (Ctx.least_up _ f c).symm ▸ hlo
        simp only [hleft, hright, List.length_nil] at hleast
        omega
      · rw [hsome]
        have hs := hkeys s (Frame.mem_putRight_siblings.mpr (.inl rfl))
        by_cases hrich : t.minKeys < s.size
        · simp only [Option.filter, hs, hrich, decide_true, if_true]
          refine h.fromRight hrich (hfirst g s k rfl hrich fun g' s' k' heq => ?_)
          have hnil := congrArg Frame.left heq
          simp only [Frame.putLeft] at hnil
          rw [hleft] at hnil
          simp at hnil
        · simp only [Option.filter, hs, hrich, decide_false, Bool.false_eq_true, if_false,
            Option.bind_some]
          exact h.mergeRight hup hrich
    · subst hg
      rw [hsome]
      have hs := hkeys s (Frame.mem_putLeft_siblings.mpr (.inl rfl))
      have hlen : (g.putLeft s k).left.length = g.left.length + 1 := by simp [Frame.putLeft]
      by_cases hrich : t.minKeys < s.size
      · simp only [Option.filter, hs, hrich, decide_true, if_true]
        rw [hlen]
        exact h.fromLeft hrich (hlast g s k rfl hrich)
      · have hmerge := h.mergeLeft hup hrich
        rcases (g.putLeft s k).rightSibling x.id with ⟨-, hnone⟩ | ⟨g', s', k', heq, hsome'⟩
        · simp only [Option.filter, hs, hrich, hnone, decide_false, Bool.false_eq_true, if_false]
          rw [hlen]
          exact hmerge
        · have hs' := hkeys s' (heq ▸ Frame.mem_putRight_siblings.mpr (.inl rfl))
          rw [hsome']
          by_cases hrich' : t.minKeys < s'.size
          · simp only [Option.filter, hs, hrich, hs', hrich', decide_false, decide_true,
              Bool.false_eq_true, if_false, if_true]
            have hlend := hfirst g' s' k' heq hrich' fun g₁ s₁ k₁ heq₁ => by
              rw [← Frame.putLeft_inj heq₁]
              exact hrich
            rw [heq] at h ⊢
            exact h.fromRight hrich' hlend
          · simp only [Option.filter, hs, hrich, hs', hrich', decide_false, Bool.false_eq_true,
              if_false]
            rw [hlen]
            exact hmerge

/-! ## A pair is taken out -/

/-- `_update_parent_key` sets the separator left of a leaf to its first key. -/
theorem updateParentKey_spec {f : Frame κ ν 0} {c : Ctx κ ν 1} {id : ℕ} {p : κ × ν}
    {B : List (κ × ν)} (h : Held t (.up f c) (leaf id (p :: B)))
    (hfit : Fit lo (t.order - 1) (.up f c) (leaf id (p :: B))) (hlo : 1 ≤ lo)
    (hord : Separated ((Ctx.up f c).whole (leaf id (p :: B)))) :
    ∃ t', t.updateParentKey id = some t' ∧
      Mended lo t t' ((Ctx.up f c).whole (leaf id (p :: B))) := by
  have hfn : (t.node f.id).children = f.childrenWith Tree.id id :=
    congrArg BPlusTreeNode.children h.ctx.1
  have hindex : t.index id (f.childrenWith Tree.id id) = some f.left.length := by
    refine index_spec h.ctx h.focus hlo hfit.1.1 trivial ?_
    have hpart := hord.append.1
    rw [Ctx.before, List.append_assoc] at hpart
    exact hpart.append.2
  have hparent : (t.node id).parent = some f.id := h.focus.parent_eq
  rw [updateParentKey, hparent]
  simp only [hfn, hindex, Option.bind_eq_bind, Option.bind_some]
  rcases f.leftSibling id with ⟨hleft, -⟩ | ⟨g, s, k, rfl, -⟩
  · rw [hleft]
    exact ⟨t, rfl, _, storesFrom_of_held h hfit, hord, rfl, ⟨rfl, rfl, rfl⟩⟩
  · have hlen : (g.putLeft s k).left.length = g.left.length + 1 := by simp [Frame.putLeft]
    have hheld : Held t c (g.pair s k (leaf id (p :: B))) := by
      rw [← Frame.fill_putLeft]
      exact held_up.mp h
    have hfit' : Fit lo (t.order - 1) c (g.pair s k (leaf id (p :: B))) := by
      rw [← Frame.fill_putLeft]
      exact fit_up.mp hfit
    rw [Ctx.whole_up, Frame.fill_putLeft] at hord ⊢
    have hset : setAt (t.node g.id).keys g.left.length p.1 =
        some (g.left.map Prod.snd ++ p.1 :: g.right.map Prod.fst) := by
      have hlen : g.left.length = (g.left.map Prod.snd).length := (List.length_map _).symm
      rw [(Frame.fields_pair hheld.focus).1, hlen, setAt_append]
    rw [hlen]
    simp only [Nat.zero_lt_succ, if_true, h.leaf_fields.1, List.map_cons, List.head?_cons,
      Option.bind_some, Nat.add_sub_cancel, Frame.id_putLeft, hset]
    generalize ht' : t.update g.id ({ · with
      keys := g.left.map Prod.snd ++ p.1 :: g.right.map Prod.fst }) = t'
    have hself : t'.node g.id =
        { t.node g.id with keys := g.left.map Prod.snd ++ p.1 :: g.right.map Prod.fst } := by
      rw [← ht', update_node_self]
    have hkeep : ∀ i, i ≠ g.id → t'.node i = t.node i := by
      intro i hi
      rw [← ht', update_node_ne _ _ hi]
    have hw := hheld.window
    have hheld' : Held t' c (g.pair s p.1 (leaf id (p :: B))) := by
      refine hheld.setPair rfl rfl (hw.left.congr fun i hi => ?_) (hw.right.congr fun i hi => ?_)
        (List.Perm.refl _) rfl hself (fun i hi _ _ => hkeep i hi) (fun i => ?_) ?_ ?_ ?_
      · rw [hkeep i fun heq => hw.parentLeft (heq ▸ hi)]
      · rw [hkeep i fun heq => hw.parentRight (heq ▸ hi)]
      · by_cases hi : i = g.id
        · rw [hi, hself]
          exact ⟨rfl, rfl⟩
        · rw [hkeep i hi]
          exact ⟨rfl, rfl⟩
      all_goals rw [← ht']; rfl
    have hparams : SameParams t t' := ht' ▸ ⟨rfl, rfl, rfl⟩
    refine ⟨t', rfl, _, storesFrom_of_held hheld' ?_, ?_, ?_, hparams⟩
    · obtain ⟨hc, hbelow, hleast, hmost⟩ := hfit'
      rw [Frame.size_pair] at hleast hmost
      rw [hparams.order]
      refine ⟨hc, Frame.below_pair.mpr (Frame.below_pair.mp hbelow), ?_, ?_⟩ <;>
        rwa [Frame.size_pair]
    · obtain ⟨is, A, rfl⟩ := exists_leaf s
      rw [Separated, tokens_leaves] at hord ⊢
      exact pairwise_moveSep hord
    · rw [contents_pair, contents_pair]

theorem findIdx?_append {key : κ} {A B : List κ} (hA : ∀ a ∈ A, a ≠ key) :
    (A ++ key :: B).findIdx? (fun x => decide (x = key)) = some A.length := by
  have hnone : A.findIdx? (fun x => decide (x = key)) = none :=
    List.findIdx?_eq_none_iff.mpr fun a ha => decide_eq_false (hA a ha)
  rw [List.findIdx?_append, hnone]
  simp [List.findIdx?_cons]

/-- The comparison of a leaf with the root. -/
theorem Held.eq_root_leaf {c : Ctx κ ν 0} {l : Tree κ ν 0} (h : Held t c l) (hfull : c.Full lo hi) :
    t.eq l.id t.root = some (decide (c.depth = 0)) := by
  cases c with
  | top =>
    rw [show t.root = l.id from h.root, BPlusTree.eq_self]
    rfl
  | up f c =>
    obtain ⟨m, g, y, P, Q, hroot, -, -, hsize⟩ := h.exists_rootFrame (Nat.succ_pos _) hfull
    have hrootId : t.root = g.id := hroot.root
    have hleaf : (t.node l.id).children = [] :=
      congrArg BPlusTreeNode.children (show (t.node l.id).core = _ from h.focus)
    rw [hrootId, eq_of_children_ne]
    · rfl
    · rw [hleaf, hroot.focus.children_eq.2]
      simp [Frame.childrenWith]

/-- The store after a leaf has lost a pair. -/
def dropPair (t : BPlusTree κ ν) (leaf : ℕ) (keys : List κ) (values : List ν) : BPlusTree κ ν :=
  { t.update leaf ({ · with keys := keys, values := values }) with size := t.size - 1 }

/-- The rest of `delete`. -/
def finishDelete (t : BPlusTree κ ν) (leaf idx : ℕ) (keys : List κ) : Option (BPlusTree κ ν × Bool) :=
  (t.eq leaf t.root).bind fun isRoot =>
    if isRoot = true ∨ t.minKeys ≤ keys.length then
      if (t.node leaf).parent.isSome ∧ idx = 0 ∧ 0 < keys.length then
        (t.updateParentKey leaf).bind fun t => some (t, true)
      else some (t, true)
    else (handleUnderflow (2 * t.fresh) t leaf).bind fun t => some (t, true)

theorem delete_found {key key' : κ} {leaf idx : ℕ} {keys : List κ} {value : ν} {values : List ν}
    (hfind : t.findLeaf key = some leaf)
    (hidx : (t.node leaf).keys.findIdx? (fun x => decide (x = key)) = some idx)
    (hkeys : popAt (t.node leaf).keys idx = some (key', keys))
    (hvalues : popAt (t.node leaf).values idx = some (value, values)) :
    t.delete key = finishDelete (dropPair t leaf keys values) leaf idx keys := by
  rw [delete, hfind]
  simp only [Option.bind_eq_bind, Option.bind_some, hidx, hkeys, hvalues]
  rfl

theorem finishDelete_spec {c : Ctx κ ν 0} {id : ℕ} {A B : List (κ × ν)} {p : κ × ν}
    (h : Held t c (leaf id (A ++ B))) (hfull : c.Full lo (t.order - 1))
    (hleast : c.least lo ≤ (A ++ p :: B).length) (hmost : (A ++ p :: B).length ≤ t.order - 1)
    (ht : Sized t) (hlo : 1 ≤ lo) (hle : lo ≤ t.minKeys)
    (hord : Separated (c.whole (leaf id (A ++ B))))
    (hlends : A.length + B.length < t.minKeys → c.Lends t.minKeys) :
    ∃ t', finishDelete t id A.length ((A ++ B).map Prod.fst) = some (t', true) ∧
      Mended lo t t' (c.whole (leaf id (A ++ B))) := by
  have hroot : t.eq id t.root = some (decide (c.depth = 0)) := h.eq_root_leaf hfull
  have hparent : (t.node id).parent = c.parent := h.focus.parent_eq
  have hlen : ((A ++ B).map Prod.fst).length = A.length + B.length := by
    rw [List.length_map, List.length_append]
  rw [List.length_append, List.length_cons] at hleast hmost
  rw [finishDelete, hroot, hparent, hlen, Option.bind_some]
  cases c with
  | top =>
    -- a root leaf may have any number of keys
    refine ⟨t, by simp [Ctx.depth, Ctx.parent], _, storesFrom_of_held h ?_, hord, rfl, ⟨rfl, rfl, rfl⟩⟩
    refine ⟨trivial, trivial, Nat.zero_le _, ?_⟩
    rw [Tree.size_leaf, List.length_append]
    omega
  | up f c =>
    rw [Ctx.least_up] at hleast
    by_cases henough : t.minKeys ≤ A.length + B.length
    · have hfit : Fit lo (t.order - 1) (.up f c) (leaf id (A ++ B)) := by
        refine ⟨hfull, trivial, ?_, ?_⟩ <;> rw [Tree.size_leaf, List.length_append]
        · rw [Ctx.least_up]
          exact hle.trans henough
        · omega
      rw [if_pos (.inr henough)]
      by_cases hfirst : A.length = 0
      · obtain rfl := List.eq_nil_of_length_eq_zero hfirst
        rw [List.length_nil, Nat.zero_add] at henough
        obtain ⟨q, B, rfl⟩ : ∃ q B', B = q :: B' := by
          rw [← List.ne_nil_iff_exists_cons, ← List.length_pos_iff]
          omega
        obtain ⟨t', hrun, hmended⟩ := updateParentKey_spec h hfit hlo hord
        refine ⟨t', ?_, hmended⟩
        simp [Ctx.parent, hrun]
      · rw [if_neg fun hall => hfirst hall.2.1]
        exact ⟨t, rfl, _, storesFrom_of_held h hfit, hord, rfl, ⟨rfl, rfl, rfl⟩⟩
    · rw [if_neg (by simpa [Ctx.depth] using henough)]
      have hfuel : 2 * (Ctx.up f c).depth ≤ 2 * t.fresh := by
        obtain ⟨m, y, hy, -⟩ := h.exists_root
        have hheight := y.height_lt
        have hle := hy.length_ids_le
        have hm : t.height = m + 1 := hy.height
        have hd := (Ctx.up f c).depth_add
        rw [Ctx.ids, List.nil_append] at hle
        have hch := h.height
        omega
      obtain ⟨t', hrun, hmended⟩ := handleUnderflow_spec {
        held := h
        full := hfull
        below := trivial
        least := by
          rw [Tree.size_leaf, List.length_append]
          omega
        most := by
          rw [Tree.size_leaf, List.length_append]
          omega
        separated := hord
        sized := ht
        pos := hlo
        le := hle } (Nat.succ_pos _) (hlends (by omega)) hfuel
      rw [Tree.id_leaf] at hrun
      exact ⟨t', by rw [hrun]; rfl, hmended⟩

/-- The first pair with a key. -/
theorem exists_first {items : List (κ × ν)} {key : κ} (h : key ∈ items.map Prod.fst) :
    ∃ A v B, items = A ++ (key, v) :: B ∧ ∀ a ∈ A.map Prod.fst, a ≠ key := by
  obtain ⟨as, bs, hcut, hnot⟩ := List.eq_append_cons_of_mem h
  obtain ⟨A, rest, rfl, rfl, hrest⟩ := List.map_eq_append_iff.mp hcut
  obtain ⟨p, B, rfl, rfl, -⟩ := List.map_eq_cons_iff.mp hrest
  exact ⟨A, p.2, B, rfl, fun a ha heq => hnot (heq ▸ ha)⟩

variable {c : Ctx κ ν 0} {id : ℕ} {A B : List (κ × ν)} {key : κ} {v : ν}

/-- The pair that `delete` takes out of a leaf. -/
theorem Held.delete (h : Held t c (leaf id (A ++ (key, v) :: B)))
    (hfit : Fit lo (t.order - 1) c (leaf id (A ++ (key, v) :: B))) (ht : Sized t) (hlo : 1 ≤ lo)
    (hle : lo ≤ t.minKeys) (hord : Separated (c.whole (leaf id (A ++ (key, v) :: B))))
    (hfind : t.findLeaf key = some id) (hA : ∀ a ∈ A.map Prod.fst, a ≠ key)
    (hlends : (A ++ (key, v) :: B).length ≤ t.minKeys → c.Lends t.minKeys) :
    ∃ t' F', t.delete key = some (t', true) ∧ StoresFrom lo t' F' ∧ Separated F' ∧
      contents F' = (contents c.before ++ A) ++ (B ++ contents c.after) ∧ t'.order = t.order ∧
      t'.minKeys = t.minKeys ∧ t'.size = t.size - 1 := by
  obtain ⟨hkeys, hvalues, -⟩ := h.leaf_fields
  have hpopKeys : popAt (t.node id).keys A.length = some (key, (A ++ B).map Prod.fst) := by
    have hlen : A.length = (A.map Prod.fst).length := (List.length_map _).symm
    rw [hkeys, List.map_append, List.map_cons, hlen, popAt_append, List.map_append]
  have hpopValues : popAt (t.node id).values A.length = some (v, (A ++ B).map Prod.snd) := by
    have hlen : A.length = (A.map Prod.snd).length := (List.length_map _).symm
    rw [hvalues, List.map_append, List.map_cons, hlen, popAt_append, List.map_append]
  have hidx : (t.node id).keys.findIdx? (fun x => decide (x = key)) = some A.length := by
    have hlen : A.length = (A.map Prod.fst).length := (List.length_map _).symm
    rw [hkeys, List.map_append, List.map_cons, hlen, findIdx?_append hA]
  have hheld : Held (dropPair t id ((A ++ B).map Prod.fst) ((A ++ B).map Prod.snd)) c
      (leaf id (A ++ B)) := by
    refine h.setItems ?_ (fun i hi => ?_) rfl rfl rfl
    · simp only [dropPair, update_node_self]
    · simp only [dropPair, update_node_ne _ _ hi]
  have hord' : Separated (c.whole (leaf id (A ++ B))) := by
    refine hord.sublist ?_
    simp [Ctx.whole]
  have hshort : A.length + B.length < t.minKeys → c.Lends t.minKeys := by
    intro hlt
    apply hlends
    rw [List.length_append, List.length_cons]
    omega
  obtain ⟨hfull, -, hleast, hmost⟩ := hfit
  obtain ⟨t', hrun, F', hstores, hsep, hsame, hparams⟩ :=
    finishDelete_spec (p := (key, v)) hheld hfull hleast hmost ⟨ht.order, ht.minKeys⟩ hlo hle hord'
      hshort
  refine ⟨t', F', ?_, hstores, hsep, ?_, hparams.order, hparams.minKeys, hparams.size⟩
  · rw [delete_found hfind hidx hpopKeys hpopValues]
    exact hrun
  · rw [hsame]
    simp [Ctx.whole]

/-- `delete` of a key that the leaf does not have. -/
theorem Held.delete_absent {items : List (κ × ν)} (h : Held t c (leaf id items))
    (hfind : t.findLeaf key = some id) (hroute : Routes key c) (hnot : key ∉ items.map Prod.fst) :
    t.delete key = some (t, false) ∧ ∀ p ∈ contents (c.whole (leaf id items)), p.1 ≠ key := by
  have hnone : (t.node id).keys.findIdx? (fun x => decide (x = key)) = none := by
    rw [h.leaf_fields.1]
    exact List.findIdx?_eq_none_iff.mpr fun a ha => decide_eq_false fun heq => hnot (heq ▸ ha)
  constructor
  · rw [BPlusTree.delete, hfind]
    simp only [Option.bind_eq_bind, Option.bind_some, hnone]
  · intro p hp heq
    simp only [Ctx.whole, Tree.flat_leaf, contents_append, contents_leaf, contents_nil,
      List.append_nil, List.mem_append] at hp
    rcases hp with (hp | hp) | hp
    · exact (hroute.contents.1 p hp).ne heq
    · exact hnot (heq ▸ List.mem_map_of_mem hp)
    · exact (hroute.contents.2 p hp).ne' heq

theorem Ordered.pairwise_neighbours {f : Frame κ ν 0} {c : Ctx κ ν 1} {a b : Tree κ ν 0} {k : κ}
    (hord : Ordered (c.whole (f.pair a k b))) :
    a.rootKeys.Pairwise (· < ·) ∧ b.rootKeys.Pairwise (· < ·) := by
  obtain ⟨ia, A, rfl⟩ := exists_leaf a
  obtain ⟨ib, B, rfl⟩ := exists_leaf b
  have hall := hord.contents
  rw [contents_pair, List.pairwise_append, List.pairwise_append, List.pairwise_append] at hall
  obtain ⟨⟨-, ⟨hA, hB, -⟩, -⟩, -⟩ := hall
  rw [Tree.flat_leaf, contents_leaf, contents_nil, List.append_nil] at hA hB
  exact ⟨List.pairwise_map.mpr hA, List.pairwise_map.mpr hB⟩

/-- Where no key stands twice, every neighbour lends a pair with a key of its own. -/
theorem Ordered.lends {x : Tree κ ν 0} (hord : Ordered (c.whole x)) (minKeys : ℕ) :
    c.Lends minKeys := by
  cases c with
  | top => exact True.intro
  | up f c =>
    rw [Ctx.whole_up] at hord
    constructor
    · rintro g s k rfl -
      rw [Frame.fill_putLeft] at hord
      exact apart_of_pairwise hord.pairwise_neighbours.1 _
    · rintro g s k rfl - -
      exact apart_of_pairwise (hord : Ordered (c.whole (g.pair x k s))).pairwise_neighbours.2 _

/-- The neighbour that the leaf of a key would borrow from, should `delete` leave it too few keys,
lends a pair with a key of its own. -/
def BorrowsClean (t : BPlusTree κ ν) (key : κ) : Prop :=
  ∀ leaf ∈ t.findLeaf key, key ∈ (t.node leaf).keys → (t.node leaf).keys.length ≤ t.minKeys →
    ∀ parent ∈ (t.node leaf).parent,
      let children := (t.node parent).children
      let idx := children.idxOf leaf
      let leftSibling := if idx > 0 then children[idx - 1]? else none
      let rightSibling := children[idx + 1]?
      (∀ s ∈ leftSibling, t.minKeys < (t.node s).keys.length →
        Apart ((t.node s).keys.length - 1) (t.node s).keys) ∧
      ((∀ s ∈ leftSibling, ¬t.minKeys < (t.node s).keys.length) →
        ∀ s ∈ rightSibling, t.minKeys < (t.node s).keys.length → Apart 1 (t.node s).keys)

instance (t : BPlusTree κ ν) (key : κ) : Decidable (BorrowsClean t key) :=
  inferInstanceAs (Decidable (∀ leaf ∈ t.findLeaf key, _ → _ → ∀ parent ∈ _, _ ∧ (_ → _)))

theorem BorrowsClean.lends {items : List (κ × ν)} (hclean : BorrowsClean t key)
    (h : Held t c (leaf id items)) (hfind : t.findLeaf key = some id)
    (hmem : key ∈ items.map Prod.fst) (hshort : items.length ≤ t.minKeys) : c.Lends t.minKeys := by
  cases c with
  | top => exact True.intro
  | up f c =>
    have hkeys : ∀ s ∈ f.siblings, (t.node s.id).keys = s.rootKeys := fun s hs =>
      (h.ctx.2.1 s hs).keys_eq
    have hchildren : (t.node f.id).children = f.childrenWith Tree.id id :=
      congrArg BPlusTreeNode.children h.ctx.1
    have hidx : (f.childrenWith Tree.id id).idxOf id = f.left.length := by
      have hnot : id ∉ f.left.map fun p => p.1.id := by
        intro hmem
        obtain ⟨p, hp, heq⟩ := List.mem_map.mp hmem
        refine (List.nodup_append'.mp h.nodup).2.2 ?_ (List.mem_singleton_self id)
        have hs : p.1 ∈ f.siblings := List.mem_append_left _ (List.mem_map_of_mem hp)
        refine List.mem_append_right _ (List.mem_cons_of_mem _ ?_)
        exact List.mem_flatMap.mpr ⟨p.1, hs, heq ▸ p.1.id_mem_ids⟩
      rw [Frame.childrenWith, List.idxOf_append_of_notMem hnot, List.idxOf_cons_self,
        List.length_map, Nat.add_zero]
    obtain ⟨hlast, hfirst⟩ := hclean id hfind (by rw [h.leaf_fields.1]; exact hmem)
      (by rw [h.leaf_fields.1, List.length_map]; exact hshort) f.id h.focus.parent_eq
    simp only [hchildren, hidx] at hlast hfirst
    constructor
    · intro g s k hf hrich
      have hs := hkeys s (hf ▸ Frame.mem_putLeft_siblings.mpr (.inl rfl))
      have hlookup := hlast s.id (hf ▸ g.lookup_putLeft s k id)
      rw [hs, Tree.length_rootKeys] at hlookup
      exact hlookup hrich
    · intro g s k hf hrich hnone
      have hs := hkeys s (hf ▸ Frame.mem_putRight_siblings.mpr (.inl rfl))
      have hlookup := hfirst ?_ s.id (hf ▸ g.lookup_putRight s k id)
      · rw [hs, Tree.length_rootKeys] at hlookup
        exact hlookup hrich
      · intro i hi
        rcases f.leftSibling id with ⟨-, hnil⟩ | ⟨g', s', k', hf', hsome⟩
        · rw [hnil] at hi
          cases hi
        · rw [hsome] at hi
          obtain rfl := Option.some.inj hi
          rw [hkeys s' (hf' ▸ Frame.mem_putLeft_siblings.mpr (.inl rfl)), Tree.length_rootKeys]
          exact hnone g' s' k' hf'

/-- What `delete` does to the pairs of the tree: the first of those with the key goes. -/
theorem delete_separated (h : StoresFrom lo t F) (hord : Separated F) (ht : Sized t) (hlo : 1 ≤ lo)
    (hle : lo ≤ t.minKeys) (key : κ) (hclean : BorrowsClean t key) :
    (t.delete key = some (t, false) ∧ ∀ p ∈ contents F, p.1 ≠ key) ∨
      ∃ t' F' P v Q, t.delete key = some (t', true) ∧ StoresFrom lo t' F' ∧ Separated F' ∧
        contents F = P ++ (key, v) :: Q ∧ contents F' = P ++ Q ∧ (∀ p ∈ P, p.1 ≠ key) ∧
        t'.order = t.order ∧ t'.minKeys = t.minKeys ∧ t'.size = t.size - 1 := by
  obtain ⟨c, l, hfind, hheld, hfit, hwhole, hroute⟩ := h.findLeaf hord key
  obtain ⟨id, items, rfl⟩ := exists_leaf l
  rw [Tree.id_leaf] at hfind
  subst hwhole
  by_cases hmem : key ∈ items.map Prod.fst
  · have hlends := hclean.lends hheld hfind hmem
    obtain ⟨A, v, B, rfl, hA⟩ := exists_first hmem
    obtain ⟨t', F', hrun, hstores, hsep, hrest, hparams⟩ :=
      hheld.delete hfit ht hlo hle hord hfind hA hlends
    refine .inr ⟨t', F', _, v, _, hrun, hstores, hsep, ?_, hrest, ?_, hparams⟩
    · simp [Ctx.whole]
    · intro p hp
      rcases List.mem_append.mp hp with hp | hp
      · exact (hroute.contents.1 p hp).ne
      · exact hA p.1 (List.mem_map_of_mem hp)
  · exact .inl (hheld.delete_absent hfind hroute hmem)

/-- As `delete_separated`, where no key stands twice. -/
theorem delete_spec (h : StoresFrom lo t F) (hord : Ordered F) (ht : Sized t) (hlo : 1 ≤ lo)
    (hle : lo ≤ t.minKeys) (key : κ) :
    (t.delete key = some (t, false) ∧ ∀ p ∈ contents F, p.1 ≠ key) ∨
      ∃ t' F' P v Q, t.delete key = some (t', true) ∧ StoresFrom lo t' F' ∧ Ordered F' ∧
        contents F = P ++ (key, v) :: Q ∧ contents F' = P ++ Q ∧ t'.order = t.order ∧
        t'.minKeys = t.minKeys ∧ t'.size = t.size - 1 := by
  obtain ⟨c, l, hfind, hheld, hfit, hwhole, hroute⟩ := h.findLeaf hord.separated key
  obtain ⟨id, items, rfl⟩ := exists_leaf l
  rw [Tree.id_leaf] at hfind
  subst hwhole
  by_cases hmem : key ∈ items.map Prod.fst
  · obtain ⟨A, v, B, rfl, hA⟩ := exists_first hmem
    obtain ⟨t', F', hrun, hstores, hsep, hrest, hparams⟩ :=
      hheld.delete hfit ht hlo hle hord.separated hfind hA fun _ => hord.lends _
    have hcut : contents (c.whole (leaf id (A ++ (key, v) :: B))) =
        (contents c.before ++ A) ++ (key, v) :: (B ++ contents c.after) := by
      simp [Ctx.whole]
    have hstrict : (contents F').Pairwise fun p q => p.1 < q.1 := by
      have hold := hord.contents
      rw [hcut] at hold
      rw [hrest]
      exact hold.sublist ((List.sublist_cons_self _ _).append_left _)
    exact .inr ⟨t', F', _, v, _, hrun, hstores, hsep.ordered hstrict, hcut, hrest, hparams⟩
  · exact .inl (hheld.delete_absent hfind hroute hmem)

end PySQL.BTree
