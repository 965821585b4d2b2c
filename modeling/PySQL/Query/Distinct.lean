import PySQL.Lib.Distinct
import PySQL.Query.Operators

/-!
# DISTINCT

The hash set holds rows in which NULL is replaced by its text.
-/

namespace PySQL.Query

open Lib

/-- One cell is NULL and the other one its text. -/
def NullAndText (v w : Value) : Prop :=
  (v = .null ∧ w = .str "NULL") ∨ (v = .str "NULL" ∧ w = .null)

/-- Two rows that agree except where one has NULL and the other one its text, which is somewhere. -/
def Confused (a b : Row) : Prop :=
  List.Forall₂ (fun v w => v.eq w = true ∨ NullAndText v w) a b ∧ tupleEq a b = false

/-- One copy of each row is kept: the rows that equal no earlier row, in their order. -/
structure KeepsOneCopy (rows kept : List Row) : Prop where
  firsts : kept = firsts tupleEq rows
  distinct : kept.Pairwise fun a b => tupleEq a b = false
  once : ∀ row ∈ rows, kept.countP (tupleEq row) = 1

/-! ## Tuples -/

theorem tupleEq_iff {a b : Row} :
    tupleEq a b = true ↔ List.Forall₂ (fun v w => v.eq w = true) a b := by
  rw [tupleEq, Bool.and_eq_true, beq_iff_eq, List.all_eq_true, List.forall₂_iff_zip]
  refine and_congr_right fun _ => ?_
  exact ⟨fun h v w hmem => h (v, w) hmem, fun h p hp => h hp⟩

theorem tupleEq_partialEquiv : PartialEquiv tupleEq where
  symm {a b} h := by
    rw [tupleEq_iff] at h ⊢
    exact h.flip.imp fun v w hvw => Value.eq_comm ▸ hvw
  trans {a b c} hab hbc := by
    rw [tupleEq_iff] at hab hbc ⊢
    induction hab generalizing c with
    | nil => exact hbc
    | cons hvw _ ih =>
      cases hbc with
      | cons hwu hrest => exact .cons (Value.eq_trans hvw hwu) (ih hrest)

theorem Value.eq_self_iff {v : Value} : v.eq v = true ↔ v.key ≠ none := by
  rw [Value.eq_iff, Option.ne_none_iff_exists']
  simp only [and_self]

/-- A row equals itself unless one of its cells is NaN. -/
theorem tupleEq_self_iff {row : Row} : tupleEq row row = true ↔ ∀ v ∈ row, v.key ≠ none := by
  rw [tupleEq_iff, List.forall₂_same]
  simp only [Value.eq_self_iff]

/-! ## Keys of the hash set -/

theorem Value.str_eq_iff {s : String} {v : Value} : (Value.str s).eq v = true ↔ v = .str s := by
  rw [Value.eq_iff]
  constructor
  · rintro ⟨k, hk, hv⟩
    obtain rfl : Key.str s = k := Option.some.inj hk
    cases v with
    | str t =>
      rw [Value.key, Option.some.injEq, Key.str.injEq] at hv
      rw [hv]
    | null => cases hv
    | bytes bs => cases hv
    | bool b => cases hv
    | int n => cases hv
    | float x =>
      obtain ⟨y, -, hy⟩ := Option.map_eq_some_iff.mp hv
      cases hy
  · rintro rfl
    exact ⟨_, rfl, rfl⟩

theorem Value.null_eq_iff {v : Value} : Value.null.eq v = true ↔ v = .null := by
  rw [Value.eq_comm, Value.eq_null, Value.isNull_iff]

/-- Once NULL is replaced by its text, a NULL and the text are the same. -/
theorem eq_text_iff {v w : Value} :
    (if v.isNull then Value.str "NULL" else v).eq (if w.isNull then .str "NULL" else w) = true ↔
      v.eq w = true ∨ NullAndText v w := by
  by_cases hv : v = .null
  · subst hv
    by_cases hw : w = .null
    · subst hw
      exact iff_of_true rfl (.inl rfl)
    · have hnull : w.isNull = false := by rw [Bool.eq_false_iff, Ne, Value.isNull_iff]; exact hw
      rw [hnull, if_pos Value.isNull_null, if_neg Bool.false_ne_true, Value.str_eq_iff,
        Value.null_eq_iff]
      simp [NullAndText, hw]
  · have hnull : v.isNull = false := by rw [Bool.eq_false_iff, Ne, Value.isNull_iff]; exact hv
    rw [hnull, if_neg Bool.false_ne_true]
    by_cases hw : w = .null
    · subst hw
      rw [if_pos Value.isNull_null, Value.eq_comm, Value.str_eq_iff, Value.eq_null, hnull]
      simp [NullAndText, hv]
    · have hnull' : w.isNull = false := by rw [Bool.eq_false_iff, Ne, Value.isNull_iff]; exact hw
      rw [hnull', if_neg Bool.false_ne_true]
      simp [NullAndText, hv, hw]

theorem tupleEq_distinctKey_iff {a b : Row} :
    tupleEq (distinctKey a) (distinctKey b) = true ↔
      List.Forall₂ (fun v w => v.eq w = true ∨ NullAndText v w) a b := by
  rw [tupleEq_iff, distinctKey, distinctKey, List.forall₂_map_left_iff,
    List.forall₂_map_right_iff]
  simp only [eq_text_iff]

theorem distinctKey_partialEquiv :
    PartialEquiv fun a b => tupleEq (distinctKey a) (distinctKey b) where
  symm := tupleEq_partialEquiv.symm
  trans := tupleEq_partialEquiv.trans

/-- DISTINCT keeps one copy of each row exactly if there is no NaN and no two rows differ only by
NULLs in the place of the text NULL. -/
theorem keepsOneCopy_iff (child : QueryResult) :
    KeepsOneCopy child.rows (execDistinct child).rows ↔
      (∀ row ∈ child.rows, ∀ v ∈ row, v.key ≠ none) ∧
        child.rows.Pairwise fun a b => ¬Confused a b := by
  have hrun : (execDistinct child).rows =
      firsts (fun a b => tupleEq (distinctKey a) (distinctKey b)) child.rows :=
    foldl_keep_eq distinctKey_partialEquiv fun _ => rfl
  have hsub : ∀ a b : Row, tupleEq a b = true →
      tupleEq (distinctKey a) (distinctKey b) = true := fun a b h =>
    tupleEq_distinctKey_iff.mpr ((tupleEq_iff.mp h).imp fun _ _ => .inl)
  have hconfused : ∀ a b : Row, (tupleEq (distinctKey a) (distinctKey b) = true →
      tupleEq a b = true) ↔ ¬Confused a b := by
    intro a b
    rw [Confused, tupleEq_distinctKey_iff, not_and, Bool.not_eq_false]
  have heq : firsts (fun a b => tupleEq (distinctKey a) (distinctKey b)) child.rows =
      firsts tupleEq child.rows ↔ ([] ++ child.rows).Pairwise fun a b =>
        tupleEq (distinctKey a) (distinctKey b) = true → tupleEq a b = true :=
    firsts_eq_iff tupleEq_partialEquiv distinctKey_partialEquiv hsub .nil
  simp only [hconfused, List.nil_append] at heq
  rw [hrun]
  constructor
  · intro h
    refine ⟨fun row hrow => ?_, heq.mp h.firsts⟩
    have honce := h.once row hrow
    rw [h.firsts, countP_firsts tupleEq_partialEquiv hrow] at honce
    exact tupleEq_self_iff.mp honce
  · rintro ⟨hnan, hpair⟩
    rw [show firsts _ child.rows = firsts tupleEq child.rows from heq.mpr hpair]
    exact {
      firsts := rfl
      distinct := pairwise_firsts
      once := fun row hrow => (countP_firsts tupleEq_partialEquiv hrow).mpr
        (tupleEq_self_iff.mpr (hnan row hrow)) }

/-- A row with NULL and a row with the text. -/
theorem nullAndText_merged : ¬∀ child : QueryResult,
    KeepsOneCopy child.rows (execDistinct child).rows := by
  intro h
  have honce := (h ⟨["a"], [[.null], [.str "NULL"]], 0, ""⟩).once [.str "NULL"] (by decide)
  exact absurd honce (by decide)

end PySQL.Query
