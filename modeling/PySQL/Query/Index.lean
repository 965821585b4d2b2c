import Mathlib.Data.String.Basic
import PySQL.BTree.Node
import PySQL.Storage.Record

/-!
# Indexes of the executor

A B+ tree from column values to record ids.  Its keys are what `==` sees of the values, so NaN is no
key; comparing keys of different kinds, or NULL with anything, raises.
-/

namespace PySQL.Query

open BTree Storage

namespace Value.Key

/-- Python orders keys of one kind. -/
def kind : Key → ℕ
  | .null => 0
  | .num _ => 1
  | .str _ => 2
  | .bytes _ => 3

def comparable (a b : Key) : Bool := a.kind = b.kind && a.kind ≠ 0

/-- The kinds one after the other. -/
abbrev Position : Type := Unit ⊕ₗ Num ⊕ₗ String ⊕ₗ List ℕ

def position : Key → Position
  | .null => .inlₗ ()
  | .num x => .inrₗ (.inlₗ x)
  | .str s => .inrₗ (.inrₗ (.inlₗ s))
  | .bytes bs => .inrₗ (.inrₗ (.inrₗ (bs.map UInt8.toNat)))

theorem position_injective : Function.Injective position := by
  intro a b h
  have hbytes : Function.Injective (List.map UInt8.toNat) :=
    List.map_injective_iff.mpr fun _ _ => UInt8.toNat.inj
  cases a <;> cases b <;> simp_all [position, hbytes.eq_iff]

instance : LinearOrder Key := LinearOrder.lift' position position_injective

end Value.Key

namespace Value.Key

/-- The order of the keys goes by their kinds first. -/
theorem kind_mono {a b : Key} (h : a ≤ b) : a.kind ≤ b.kind := by
  have hpos : a.position ≤ b.position := h
  cases a <;> cases b <;> simp [kind, position] at hpos ⊢

theorem cmp_num (x y : Num) : cmp (Key.num x) (Key.num y) = cmp x y := by
  have hmono : StrictMono Key.num := by
    intro a b h
    show position (.num a) < position (.num b)
    simpa [position] using h
  exact hmono.cmp_map_eq x y

theorem cmp_str (s t : String) : cmp (Key.str s) (Key.str t) = cmp s t := by
  have hmono : StrictMono Key.str := by
    intro a b h
    show position (.str a) < position (.str b)
    simpa [position] using h
  exact hmono.cmp_map_eq s t

theorem map_toNat_lt (bs cs : List UInt8) : bs.map UInt8.toNat < cs.map UInt8.toNat ↔ bs < cs := by
  induction bs generalizing cs with
  | nil => cases cs <;> simp
  | cons b bs ih =>
    cases cs with
    | nil => simp
    | cons c cs =>
      rw [List.map_cons, List.map_cons, List.cons_lt_cons_iff, List.cons_lt_cons_iff, ih,
        UInt8.lt_iff_toNat_lt, UInt8.toNat_inj]

theorem cmp_bytes (bs cs : List UInt8) : cmp (Key.bytes bs) (Key.bytes cs) = cmp bs cs := by
  have hlt : ∀ a b : List UInt8, Key.bytes a < Key.bytes b ↔ a < b := by
    intro a b
    show position (.bytes a) < position (.bytes b) ↔ a < b
    simp [position, ← map_toNat_lt]
  simp only [cmp, cmpUsing, hlt]

end Value.Key

/-- Values of one kind are ordered as their keys. -/
theorem Value.order_of_keys {a b : Value} {x y : Value.Key} (ha : a.key = some x)
    (hb : b.key = some y) (h : x.comparable y = true) : a.order b = .ok (some (cmp x y)) := by
  cases x with
  | null => simp [Key.comparable, Key.kind] at h
  | num m =>
    cases y with
    | num n =>
      have hm : a.num = some m := by cases a <;> simp_all [key, num]
      have hn : b.num = some n := by cases b <;> simp_all [key, num]
      have hnums : Option.map₂ cmp a.num b.num = some (cmp m n) := by rw [hm, hn]; rfl
      rw [Key.cmp_num, ← hnums]
      cases a <;> cases b <;> first | rfl | simp [key, num] at ha hb
    | _ => simp [Key.comparable, Key.kind] at h
  | str s =>
    cases y with
    | str t =>
      have hs : a = .str s := by cases a <;> simp_all [key, num]
      have ht : b = .str t := by cases b <;> simp_all [key, num]
      rw [Key.cmp_str, hs, ht]
      rfl
    | _ => simp [Key.comparable, Key.kind] at h
  | bytes s =>
    cases y with
    | bytes t =>
      have hs : a = .bytes s := by cases a <;> simp_all [key, num]
      have ht : b = .bytes t := by cases b <;> simp_all [key, num]
      rw [Key.cmp_bytes, hs, ht]
      rfl
    | _ => simp [Key.comparable, Key.kind] at h

abbrev Index : Type := BPlusTree Value.Key RecordId

namespace Index

/-- `BPlusTree(order=64)` -/
def new : Index where
  order := 64
  node _ := {}
  fresh := 1
  root := 0
  size := 0
  height := 1
  minKeys := 31

/-- Exceptions of the tree itself: a missing child or an endless recursion. -/
def lift {α : Type} (result : Option α) : Except PyError α := result.elim (.error .indexError) .ok

/-- Whether a value can be compared with a key; NaN can with any number. -/
def comparableTo (v : Value) (key : Value.Key) : Bool := (v.key.getD (.num ⊥)).comparable key

/-- A value that is looked for is compared with keys of the root. -/
def checkKinds (t : Index) (v : Value) : Except PyError Unit :=
  if (t.node t.root).keys.all (comparableTo v) then .ok () else .error .typeError

def insert (t : Index) (key : Value.Key) (rid : RecordId) : Except PyError Index :=
  if (t.node t.root).keys.all key.comparable then lift (BPlusTree.insert t key rid)
  else .error .typeError

/-- The keys of a leaf are first tested for equality, which never raises. -/
def insertUnique (t : Index) (key : Value.Key) (rid : RecordId) : Except PyError (Index × Bool) :=
  let root := t.node t.root
  if root.isLeaf ∧ key ∈ root.keys then .ok (t, false)
  else if root.keys.all key.comparable then lift (BPlusTree.insertUnique t key rid)
  else .error .typeError

/-- The leaf where a scan starts.  NaN is above no key, so the way down to it keeps to the right. -/
def startLeaf (t : Index) : Option Value → Option ℕ
  | none => t.descend (·.children.head?) t.fresh t.root
  | some v =>
    match v.key with
    | some k => t.findLeaf k
    | none => t.descend (·.children.getLast?) t.fresh t.root

/-- Scan a closed range.  The upper bound is compared with the keys that are not below the range. -/
def rangeScan (t : Index) (low high : Option Value) : Except PyError (List (Value.Key × RecordId)) := do
  if let some v := low then
    checkKinds t v
  let leaf ← lift (startLeaf t low)
  let below := BPlusTree.belowLow (low.bind Value.key) true
  let pairs ← lift (t.scanFrom below (fun _ => false) t.fresh (some leaf))
  match high with
  | none => return pairs
  | some v =>
    if pairs.all fun p => comparableTo v p.1 then
      lift (t.scanFrom below (BPlusTree.aboveHigh v.key true) t.fresh (some leaf))
    else throw .typeError

end Index

end PySQL.Query
