import PySQL.BTree.Duplicates
import PySQL.Query.Insert

/-!
# What the tree of an index lists

An index that keys were only added to lists every key with its record ids, in the order of the keys;
a unique index keeps the record id that came first.
-/

namespace PySQL.Query

open Lib BTree Storage

/-- An entry of an index. -/
abbrev IndexEntry : Type := Value.Key × RecordId

/-- The insertion into a tree is that of the B+ tree; what it does with NaN is left open. -/
def Runtime.Trees (rt : Runtime Index) : Prop :=
  ∀ (isUnique : Bool) (t : Index) (v : Value) (k : Value.Key) (rid : RecordId), v.key = some k →
    rt.insertKey isUnique t v rid =
      if isUnique then (t.insertUnique k rid).map Prod.fst else t.insert k rid

/-- The record id that was entered first under a key. -/
def firstUnder (entries : List IndexEntry) (k : Value.Key) : Option RecordId :=
  (entries.find? (·.1 = k)).map Prod.snd

/-- The tree after these entries were put into it one after the other. -/
def Index.Lists : Bool → Index → List IndexEntry → Prop
  | false, t, entries => HoldsSorted t entries
  | true, t, entries =>
    ∃ m : SortedMap Value.Key RecordId, Represents t m ∧ ∀ k, m.get? k = firstUnder entries k

/-- What a scan of an index goes through. -/
inductive IndexListing (entries : List IndexEntry) : Bool → List IndexEntry → Prop where
  | all {pairs : List IndexEntry} (hperm : pairs.Perm entries)
      (hsorted : pairs.Pairwise fun p q => p.1 ≤ q.1) : IndexListing entries false pairs
  | firsts {pairs : List IndexEntry} (hsorted : pairs.Pairwise fun p q => p.1 < q.1)
      (hsound : ∀ p ∈ pairs, p ∈ entries) (hcomplete : ∀ p ∈ entries, p.1 ∈ pairs.map Prod.fst) :
      IndexListing entries true pairs

theorem IndexListing.of_perm {entries entries' pairs : List IndexEntry} {isUnique : Bool}
    (h : IndexListing entries isUnique pairs) (hperm : entries.Perm entries') :
    IndexListing entries' isUnique pairs := by
  cases h with
  | all h hsorted => exact .all (h.trans hperm) hsorted
  | firsts hsorted hsound hcomplete =>
    refine .firsts hsorted (fun p hp => hperm.mem_iff.mp (hsound p hp)) fun p hp => ?_
    exact hcomplete p (hperm.mem_iff.mpr hp)

variable {rt : Runtime Index} {t t' : Index} {entries : List IndexEntry} {isUnique : Bool}
  {k : Value.Key} {rid : RecordId}

theorem firstUnder_append (entries : List IndexEntry) (p : IndexEntry) (k : Value.Key) :
    firstUnder (entries ++ [p]) k =
      (firstUnder entries k).or (if p.1 = k then some p.2 else none) := by
  unfold firstUnder
  rw [List.find?_append]
  cases entries.find? (·.1 = k) with
  | some q => rfl
  | none =>
    by_cases hp : p.1 = k <;> simp [hp]

theorem firstUnder_isSome {p : IndexEntry} (h : p ∈ entries) : (firstUnder entries p.1).isSome := by
  unfold firstUnder
  rw [Option.isSome_map, List.find?_isSome]
  exact ⟨p, h, by simp⟩

theorem mem_of_firstUnder (h : firstUnder entries k = some rid) : (k, rid) ∈ entries := by
  obtain ⟨p, hp, rfl⟩ := Option.map_eq_some_iff.mp h
  have hk : p.1 = k := by simpa using List.find?_some hp
  rw [← hk]
  exact List.mem_of_find?_eq_some hp

namespace Index

theorem new_eq : (BPlusTree.new 64 : Option Index) = some Index.new := rfl

theorem lists_new (isUnique : Bool) : Lists isUnique Index.new [] := by
  cases isUnique with
  | false =>
    obtain ⟨t, hnew, h⟩ := holdsSorted_new (κ := Value.Key) (ν := RecordId) (by decide : 3 ≤ 64)
    rw [new_eq, Option.some.injEq] at hnew
    exact hnew ▸ h
  | true =>
    obtain ⟨t, hnew, -, h⟩ := new_spec (κ := Value.Key) (ν := RecordId) (by decide : 3 ≤ 64)
    rw [new_eq, Option.some.injEq] at hnew
    exact ⟨.empty, hnew ▸ h, fun k => rfl⟩

theorem insert_eq_ok (h : t.insert k rid = .ok t') : BPlusTree.insert t k rid = some t' := by
  unfold insert at h
  split at h
  · cases hinsert : BPlusTree.insert t k rid with
    | none =>
      rw [hinsert] at h
      cases h
    | some t₁ =>
      rw [hinsert] at h
      cases h
      rfl
  · cases h

/-- A call on a tree that represents a map. -/
theorem represents_insertUnique {m : SortedMap Value.Key RecordId} (hm : Represents t m)
    (k : Value.Key) (rid : RecordId) :
    ∃ t₁ flag, BPlusTree.insertUnique t k rid = some (t₁, flag) ∧
      Represents t₁ (mapCall m (.insertUnique k rid)).1 := by
  obtain ⟨t₁, hcalls, -, hrep⟩ := hm.calls [.insertUnique k rid]
  rw [BPlusTree.calls, Option.bind_eq_bind, Option.bind_eq_some_iff] at hcalls
  obtain ⟨r, hcall, hrest⟩ := hcalls
  obtain rfl : r.1 = t₁ := congrArg Prod.fst (Option.some.inj hrest)
  exact ⟨r.1, r.2, hcall, hrep⟩

theorem findLeaf_root {m : SortedMap Value.Key RecordId} (hm : Represents t m) (k : Value.Key)
    (hroot : (t.node t.root).isLeaf = true) : BPlusTree.findLeaf t k = some t.root := by
  cases hfresh : t.fresh with
  | zero =>
    -- a tree without nodes takes no call
    obtain ⟨t₁, flag, hinsert, -⟩ := represents_insertUnique hm k ⟨0, 0⟩
    rw [BPlusTree.insertUnique, BPlusTree.findLeaf, hfresh] at hinsert
    cases hinsert
  | succ fuel =>
    rw [BPlusTree.findLeaf, hfresh, BPlusTree.descend, if_pos hroot]

/-- The shortcut for a root that is a leaf gives what the tree gives. -/
theorem insertUnique_eq_ok {m : SortedMap Value.Key RecordId} (hm : Represents t m) {flag : Bool}
    (h : t.insertUnique k rid = .ok (t', flag)) :
    BPlusTree.insertUnique t k rid = some (t', flag) := by
  unfold insertUnique at h
  dsimp only at h
  split at h
  · next hroot =>
    cases h
    have hfind := findLeaf_root hm k hroot.1
    simp [BPlusTree.insertUnique, hfind, hroot.2]
  · split at h
    · cases hinsert : BPlusTree.insertUnique t k rid with
      | none =>
        rw [hinsert] at h
        cases h
      | some r =>
        rw [hinsert] at h
        cases h
        rfl
    · cases h

/-- An entry that was put into the tree is the last of them. -/
theorem Lists.insert (h : Lists isUnique t entries) (hrt : rt.Trees) {v : Value}
    (hkey : v.key = some k) (hok : rt.insertKey isUnique t v rid = .ok t') :
    Lists isUnique t' (entries ++ [(k, rid)]) := by
  rw [hrt isUnique t v k rid hkey] at hok
  cases isUnique with
  | false =>
    obtain ⟨t₁, hinsert, hlists⟩ := HoldsSorted.insert h (k, rid)
    rw [insert_eq_ok hok, Option.some.injEq] at hinsert
    exact hinsert ▸ hlists
  | true =>
    obtain ⟨m, hm, hget⟩ := h
    cases hinsert : t.insertUnique k rid with
    | error e =>
      rw [if_pos rfl, hinsert] at hok
      cases hok
    | ok r =>
      rw [if_pos rfl, hinsert] at hok
      obtain rfl : r.1 = t' := Except.ok.inj hok
      obtain ⟨t₁, flag, htree, hrep⟩ := represents_insertUnique hm k rid
      rw [insertUnique_eq_ok hm hinsert] at htree
      obtain rfl : r.1 = t₁ := congrArg Prod.fst (Option.some.inj htree)
      refine ⟨_, hrep, fun k' => ?_⟩
      rw [firstUnder_append, ← hget]
      dsimp only [mapCall]
      cases hold : m.get? k with
      | none =>
        rw [Option.isNone_none, if_pos rfl, SortedMap.get?_insert]
        by_cases hk : k' = k
        · rw [if_pos hk, hk, hold, if_pos rfl, Option.none_or]
        · rw [if_neg hk, if_neg (Ne.symm hk), Option.or_none]
      | some first =>
        rw [Option.isNone_some, if_neg Bool.false_ne_true]
        by_cases hk : k' = k
        · rw [hk, hold, Option.some_or]
        · rw [if_neg (Ne.symm hk), Option.or_none]

theorem rangeScan_of_scanAll {pairs : List IndexEntry} (h : BPlusTree.scanAll t = some pairs) :
    Index.rangeScan t none none = .ok pairs := by
  rw [BPlusTree.scanAll, BPlusTree.rangeScan, Option.bind_eq_bind, Option.bind_eq_some_iff] at h
  obtain ⟨leaf, hleaf, hpairs⟩ := h
  have hstart : startLeaf t none = some leaf := hleaf
  have hscan : t.scanFrom (BPlusTree.belowLow none true) (fun _ => false) t.fresh (some leaf) =
      some pairs := hpairs
  simp only [Index.rangeScan, hstart, Option.bind_none, hscan, lift, Option.elim_some, ok_bind]
  rfl

/-- A scan of the whole tree. -/
theorem Lists.rangeScan (h : Lists isUnique t entries) :
    ∃ pairs, t.rangeScan none none = .ok pairs ∧ IndexListing entries isUnique pairs := by
  cases isUnique with
  | false =>
    obtain ⟨F, hstores, hasc, hsorted⟩ := h.stores
    refine ⟨_, rangeScan_of_scanAll (scanAll_contents hstores hasc), ?_⟩
    exact .all hsorted.perm hsorted.ascending
  | true =>
    obtain ⟨m, hm, hget⟩ := h
    obtain ⟨F, hstores, hord, hitems⟩ := hm.stores
    refine ⟨_, rangeScan_of_scanAll (scanAll_contents hstores hord.separated.ascending), ?_⟩
    rw [← hitems]
    refine .firsts m.sorted ?_ ?_
    · intro p hp
      have hp' : m.get? p.1 = some p.2 := SortedMap.get?_eq_some.mpr hp
      rw [hget] at hp'
      exact mem_of_firstUnder hp'
    · intro p hp
      have hsome := firstUnder_isSome hp
      rw [← hget] at hsome
      obtain ⟨rid, hrid⟩ := Option.isSome_iff_exists.mp hsome
      exact List.mem_map.mpr ⟨_, SortedMap.get?_eq_some.mp hrid, rfl⟩

end Index

end PySQL.Query
