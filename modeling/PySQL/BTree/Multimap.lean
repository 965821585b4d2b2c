import PySQL.BTree.Structure
import PySQL.Lib.Multimap

/-!
# The tree with duplicate keys

`insert` takes any number of pairs with one key.  They are found as long as they stay between two
separators: a leaf that is split between equal keys, or that lends a pair whose key it has once more,
leaves some of them left of a separator that is not above them, where no search looks.
-/

namespace PySQL.BTree

open BPlusTree Lib

set_option linter.unusedSectionVars false

variable {κ ν : Type} [LinearOrder κ] [DecidableEq ν]

/-- A call on the tree, with what it returns: `insert` returns None. -/
def BPlusTree.multiCall (t : BPlusTree κ ν) :
    Multimap.Call κ ν → Option (BPlusTree κ ν × Option Bool)
  | .insert key value => (t.insert key value).map fun t => (t, none)
  | .delete key => (t.delete key).map fun r => (r.1, some r.2)

/-- Calls in order, with what they return. -/
def BPlusTree.multiCalls (t : BPlusTree κ ν) :
    List (Multimap.Call κ ν) → Option (BPlusTree κ ν × List (Option Bool))
  | [] => some (t, [])
  | c :: cs => do
    let (t, result) ← t.multiCall c
    let (t, results) ← t.multiCalls cs
    some (t, result :: results)

/-- The call puts no separator between equal keys. -/
def Clean (t : BPlusTree κ ν) : Multimap.Call κ ν → Prop
  | .insert key _ => ∀ leaf ∈ t.findLeaf key, SplitsClean t leaf key
  | .delete key => BorrowsClean t key

/-- No call of the run puts a separator between equal keys. -/
def CleanRun (t : BPlusTree κ ν) : List (Multimap.Call κ ν) → Prop
  | [] => True
  | c :: cs => Clean t c ∧ ∀ r ∈ t.multiCall c, CleanRun r.1 cs

instance (t : BPlusTree κ ν) (c : Multimap.Call κ ν) : Decidable (Clean t c) :=
  match c with
  | .insert key _ => inferInstanceAs (Decidable (∀ leaf ∈ t.findLeaf key, SplitsClean t leaf key))
  | .delete key => inferInstanceAs (Decidable (BorrowsClean t key))

instance cleanRunDecidable (t : BPlusTree κ ν) (cs : List (Multimap.Call κ ν)) :
    Decidable (CleanRun t cs) :=
  match cs with
  | [] => inferInstanceAs (Decidable True)
  | c :: cs =>
    have : ∀ r : BPlusTree κ ν × Option Bool, Decidable (CleanRun r.1 cs) := fun r =>
      cleanRunDecidable r.1 cs
    inferInstanceAs (Decidable (Clean t c ∧ ∀ r ∈ t.multiCall c, CleanRun r.1 cs))

/-- What can be read from the tree is what is in the multimap. -/
structure ReadsAs (t : BPlusTree κ ν) (m : Multiset (κ × ν)) : Prop where
  searchAll : ∀ key, ∃ values : List ν,
    t.searchAll key = some values ∧ (values : Multiset ν) = Multimap.valuesAt m key
  rangeScan : ∀ low high includeLow includeHigh, ∃ pairs : List (κ × ν),
    t.rangeScan low high includeLow includeHigh = some pairs ∧
      (pairs : Multiset (κ × ν)) =
        Multimap.within m (inBounds low high includeLow includeHigh)

/-- The run on an initially empty tree is a run of the multimap. -/
def RefinesMultimap (order : ℕ) (cs : List (Multimap.Call κ ν)) : Prop :=
  ∃ (t₀ t : BPlusTree κ ν) (results : List (Option Bool)) (m : Multiset (κ × ν)),
    BPlusTree.new order = some t₀ ∧ t₀.multiCalls cs = some (t, results) ∧
      Multimap.Run 0 cs results m ∧ ReadsAs t m

/-- The store holds a tree with the pairs of the multimap, and no separator stands between equal
keys. -/
structure RepresentsMulti (t : BPlusTree κ ν) (m : Multiset (κ × ν)) : Prop where
  sized : Sized t
  stores : ∃ F, Stores t F ∧ Separated F ∧ m = (contents F : Multiset (κ × ν))

section

variable {t : BPlusTree κ ν} {m : Multiset (κ × ν)}

/-- One call on the tree is one on the multimap. -/
theorem RepresentsMulti.call (h : RepresentsMulti t m) (c : Multimap.Call κ ν) (hclean : Clean t c) :
    ∃ t' result m', t.multiCall c = some (t', result) ∧ Multimap.Step m c result m' ∧
      RepresentsMulti t' m' := by
  have horder := h.sized.order
  have hmin := h.sized.minKeys
  have hpos : 1 ≤ t.minKeys := by omega
  obtain ⟨F, hstores, hsep, rfl⟩ := h.stores
  cases c with
  | insert key value =>
    obtain ⟨t', F', P, Q, hrun, hstores', hsep', hgap, hcut, horder', hmin', -⟩ :=
      insert_separated hstores hsep h.sized (le_refl _) key value hclean
    refine ⟨t', none, (contents F' : Multiset (κ × ν)), ?_, ?_, ?_⟩
    · rw [BPlusTree.multiCall, hrun]
      rfl
    · rw [hgap, hcut]
      exact Multimap.Step.insert_between
    · rw [← hmin'] at hstores'
      exact ⟨⟨horder' ▸ horder, by rw [hmin', horder', hmin]⟩, F', hstores', hsep', rfl⟩
  | delete key =>
    rcases delete_separated hstores hsep h.sized hpos (le_refl _) key hclean with
      ⟨hrun, habsent⟩ | ⟨t', F', P, v, Q, hrun, hstores', hsep', hcut, hgap, -, horder', hmin', -⟩
    · refine ⟨t, some false, (contents F : Multiset (κ × ν)), ?_, ?_, h⟩
      · rw [BPlusTree.multiCall, hrun]
        rfl
      · exact .absent _ key habsent
    · refine ⟨t', some true, (contents F' : Multiset (κ × ν)), ?_, ?_, ?_⟩
      · rw [BPlusTree.multiCall, hrun]
        rfl
      · rw [hgap, hcut]
        exact Multimap.Step.remove_between
      · rw [← hmin'] at hstores'
        exact ⟨⟨horder' ▸ horder, by rw [hmin', horder', hmin]⟩, F', hstores', hsep', rfl⟩

theorem RepresentsMulti.calls (h : RepresentsMulti t m) (cs : List (Multimap.Call κ ν))
    (hclean : CleanRun t cs) :
    ∃ t' results m', t.multiCalls cs = some (t', results) ∧ Multimap.Run m cs results m' ∧
      RepresentsMulti t' m' := by
  induction cs generalizing t m with
  | nil => exact ⟨t, [], m, rfl, .nil m, h⟩
  | cons c cs ih =>
    obtain ⟨t₁, result, m₁, hcall, hstep, h₁⟩ := h.call c hclean.1
    obtain ⟨t₂, results, m₂, hcalls, hrun, h₂⟩ := ih h₁ (hclean.2 _ hcall)
    refine ⟨t₂, result :: results, m₂, ?_, .cons hstep hrun, h₂⟩
    rw [BPlusTree.multiCalls, hcall]
    simp only [Option.bind_eq_bind, Option.bind_some, hcalls]

theorem RepresentsMulti.reads (h : RepresentsMulti t m) : ReadsAs t m := by
  obtain ⟨F, hstores, hsep, rfl⟩ := h.stores
  constructor
  case searchAll =>
    intro key
    exact ⟨_, searchAll_separated hstores hsep key, Multimap.valuesAt_coe _ key⟩
  case rangeScan =>
    intro low high includeLow includeHigh
    refine ⟨_, rangeScan_separated hstores hsep low high includeLow includeHigh, ?_⟩
    exact (Multimap.within_coe _ _).symm

end

/-- The keys of the root lie between keys of the multimap, and there are some unless it is empty. -/
theorem RepresentsMulti.rootKeys {t : BPlusTree κ ν} {m : Multiset (κ × ν)}
    (h : RepresentsMulti t m) :
    (∀ k ∈ (t.node t.root).keys, ∃ p ∈ m, ∃ q ∈ m, p.1 ≤ k ∧ k ≤ q.1) ∧
      (m ≠ 0 → (t.node t.root).keys ≠ []) := by
  have hlo : 1 ≤ t.minKeys := by
    have := h.sized.order
    have := h.sized.minKeys
    omega
  obtain ⟨F, hstores, hsep, rfl⟩ := h.stores
  obtain ⟨n, x, hheld, hfit, hwhole, hroot, -⟩ := StoresFrom.at_root hstores
  have hflat : x.flat = F := by
    rw [← hwhole]
    simp [Ctx.whole, Ctx.before, Ctx.after]
  rw [hroot, hheld.focus.keys_eq]
  have hitem : ∀ z, Token.item z ∈ tokens F → ∃ p ∈ (contents F : Multiset (κ × ν)), p.1 = z := by
    intro z hz
    obtain ⟨v, hv⟩ := mem_contents.mpr hz
    exact ⟨(z, v), hv, rfl⟩
  cases n with
  | zero =>
    obtain ⟨id, items, rfl⟩ := exists_leaf x
    have hcontents : contents F = items := by simp [← hflat]
    constructor
    · intro k hk
      obtain ⟨p, hp, rfl⟩ := List.mem_map.mp (show k ∈ items.map Prod.fst from hk)
      have hmem : p ∈ (contents F : Multiset (κ × ν)) := by rwa [hcontents]
      exact ⟨p, hmem, p, hmem, le_rfl, le_rfl⟩
    · intro hne hnil
      have hnone : items = [] := List.map_eq_nil_iff.mp hnil
      rw [hcontents, hnone] at hne
      exact hne rfl
  | succ n =>
    constructor
    · intro k hk
      obtain ⟨f, c, rfl, hlen⟩ := Frame.exists_fill x (le_refl _)
      have hkeys : Branch.keys (f.fill c) = f.keys := rfl
      have hright : f.right = [] := by
        have hsize : (Branch.keys (f.fill c)).length = f.left.length + f.right.length :=
          f.size_fill c
        exact List.eq_nil_of_length_eq_zero (by omega)
      -- the key stands behind one of the children before the last
      have hk' : k ∈ f.left.map Prod.snd := by
        have : k ∈ f.keys := hk
        simpa [Frame.keys, hright] using this
      obtain ⟨⟨s, k'⟩, hs, rfl⟩ := List.mem_map.mp hk'
      obtain ⟨as, bs, hleft⟩ := List.append_of_mem hs
      have hfull := Tree.below_succ.mp hfit.2.1
      have hsibling : s ∈ f.siblings := List.mem_append_left _ (List.mem_map_of_mem hs)
      obtain ⟨y, hy⟩ := (hfull s ((f.mem_children_fill c s).mpr (.inr hsibling))).exists_item hlo
      obtain ⟨z, hz⟩ := (hfull c ((f.mem_children_fill c c).mpr (.inl rfl))).exists_item hlo
      have htokens : tokens F = tokens (as.flatMap fun p => p.1.flat ++ [.sep p.2]) ++
          (tokens s.flat ++ .sep k' :: (tokens (bs.flatMap fun p => p.1.flat ++ [.sep p.2]) ++
            (tokens c.flat ++ tokens f.after))) := by
        rw [← hflat, Frame.flat_fill]
        simp [Frame.before, hleft]
      obtain ⟨p, hp, rfl⟩ := hitem y (by simp [htokens, hy])
      obtain ⟨q, hq, rfl⟩ := hitem z (by simp [htokens, hz])
      rw [Separated, htokens, List.pairwise_append, List.pairwise_append, List.pairwise_cons] at hsep
      obtain ⟨-, ⟨-, ⟨hafter, -⟩, hbefore⟩, -⟩ := hsep
      refine ⟨p, hp, q, hq, ?_, ?_⟩
      · exact (hbefore _ hy _ List.mem_cons_self).le
      · exact hafter _ (List.mem_append_right _ (List.mem_append_left _ hz))
    · intro _ hnil
      have hsize : 1 ≤ x.size := hfit.2.2.1
      rw [← x.length_rootKeys, hnil] at hsize
      cases hsize

/-- A run on an initially empty tree none of whose calls puts a separator between equal keys is a run
of the multimap. -/
theorem refinesMultimap_of_clean {order : ℕ} (h : 3 ≤ order) (cs : List (Multimap.Call κ ν))
    (hclean : ∀ t₀ ∈ (BPlusTree.new order : Option (BPlusTree κ ν)), CleanRun t₀ cs) :
    RefinesMultimap order cs := by
  obtain ⟨t₀, hnew, -, h₀⟩ := new_spec (κ := κ) (ν := ν) h
  obtain ⟨F, hstores, hord, hm⟩ := h₀.stores
  have hmulti : RepresentsMulti t₀ 0 :=
    ⟨h₀.sized, F, hstores, hord.separated, by rw [← hm]; rfl⟩
  obtain ⟨t, results, m, hcalls, hrun, hrep⟩ := hmulti.calls cs (hclean t₀ hnew)
  exact ⟨t₀, t, results, m, hnew, hcalls, hrun, hrep.reads⟩

theorem refinesMultimap_of_clean_split :
    RefinesMultimap 4 [.insert 1 10, .insert 1 11, .insert 2 20, .insert 3 30, .insert 1 12,
      .delete 2, .delete (1 : ℕ)] := by
  refine refinesMultimap_of_clean (ν := ℕ) (by decide) _ ?_
  decide +kernel

/-- A leaf with three equal keys is split, and `search_all` finds one of the three. -/
theorem refinesMultimap_not_of_split :
    ¬RefinesMultimap 3 [.insert 1 10, .insert 1 20, .insert (1 : ℕ) (30 : ℕ)] := by
  rintro ⟨t₀, t, results, m, hnew, hcalls, hrun, hreads⟩
  have hfound : ((BPlusTree.new 3 : Option (BPlusTree ℕ ℕ)).bind fun t =>
      (t.multiCalls [.insert 1 10, .insert 1 20, .insert 1 30]).bind fun r => r.1.searchAll 1) =
        some [30] := by
    decide +kernel
  rw [hnew, Option.bind_some, hcalls, Option.bind_some] at hfound
  obtain ⟨values, hvalues, hall⟩ := hreads.searchAll 1
  obtain rfl : [30] = values := Option.some.inj (hfound.symm.trans hvalues)
  cases hrun with
  | cons step₁ rest =>
    cases rest with
    | cons step₂ rest =>
      cases rest with
      | cons step₃ rest =>
        cases rest
        rw [step₃.eq_of_insert, step₂.eq_of_insert, step₁.eq_of_insert] at hall
        revert hall
        decide

end PySQL.BTree
