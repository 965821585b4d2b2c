import PySQL.Lib.Fallible
import PySQL.Query.Expr

/-!
# LIKE

A value matches a pattern if it can be cut into one segment for each character of the pattern.  The
regular expression that the executor builds matches a little less and a little more: `.` stops at a
newline, and `$` also matches before a newline at the end.
-/

namespace PySQL.Query

open Lib

variable (py : Py)

/-- What a character of a pattern stands for. -/
def segment (ch : Char) (cs : List Char) : Prop :=
  if ch = '%' then True
  else if ch = '_' then cs.length = 1
  else ∃ c, cs = [c] ∧ py.sameIgnoringCase ch c = true

/-- The same without a newline under a wildcard. -/
def lineSegment (ch : Char) (cs : List Char) : Prop :=
  segment py ch cs ∧ (ch = '%' ∨ ch = '_' → '\n' ∉ cs)

/-- A value split along a pattern. -/
def Splits (segment : Char → List Char → Prop) (p s : List Char) : Prop :=
  ∃ segments, List.Forall₂ segment p segments ∧ s = segments.flatten

section

variable {segment : Char → List Char → Prop} {ch : Char} {p s : List Char}

@[simp] theorem splits_nil : Splits segment [] s ↔ s = [] := by
  simp [Splits]

theorem splits_cons :
    Splits segment (ch :: p) s ↔ ∃ t u, s = t ++ u ∧ segment ch t ∧ Splits segment p u := by
  constructor
  · rintro ⟨_, _ | ⟨hch, hp⟩, rfl⟩
    exact ⟨_, _, rfl, hch, _, hp, rfl⟩
  · rintro ⟨t, u, rfl, hch, segments, hp, rfl⟩
    exact ⟨t :: segments, .cons hch hp, rfl⟩

theorem Splits.mono {segment' : Char → List Char → Prop} (h : Splits segment p s)
    (himp : ∀ ch cs, segment ch cs → segment' ch cs) : Splits segment' p s := by
  obtain ⟨segments, hp, hs⟩ := h
  exact ⟨segments, hp.imp fun ch cs => himp ch cs, hs⟩

/-- A value that splits along a pattern, but for a newline at its end. -/
def SplitsLine (segment : Char → List Char → Prop) (p s : List Char) : Prop :=
  Splits segment p s ∨ ∃ t, s = t ++ ['\n'] ∧ Splits segment p t

theorem splitsLine_cons :
    SplitsLine segment (ch :: p) s ↔ ∃ t u, s = t ++ u ∧ segment ch t ∧ SplitsLine segment p u := by
  unfold SplitsLine
  constructor
  · rintro (h | ⟨s, rfl, h⟩)
    · obtain ⟨t, u, hs, hch, hp⟩ := splits_cons.mp h
      exact ⟨t, u, hs, hch, .inl hp⟩
    · obtain ⟨t, u, rfl, hch, hp⟩ := splits_cons.mp h
      exact ⟨t, u ++ ['\n'], by rw [List.append_assoc], hch, .inr ⟨u, rfl, hp⟩⟩
  · rintro ⟨t, u, rfl, hch, hp | ⟨u, rfl, hp⟩⟩
    · exact .inl (splits_cons.mpr ⟨t, u, rfl, hch, hp⟩)
    · exact .inr ⟨t ++ u, by rw [List.append_assoc], splits_cons.mpr ⟨t, u, rfl, hch, hp⟩⟩

end

/-! ## The regular expression -/

section

variable {py} {ch : Char} {p s : List Char}

theorem mem_afterAnything {u : List Char} :
    u ∈ afterAnything s ↔ ∃ t, s = t ++ u ∧ '\n' ∉ t := by
  induction s with
  | nil =>
    rw [afterAnything, List.mem_singleton]
    constructor
    · rintro rfl
      exact ⟨[], rfl, by simp⟩
    · rintro ⟨t, hs, -⟩
      exact (List.append_eq_nil_iff.mp hs.symm).2
  | cons c cs ih =>
    rw [afterAnything, List.mem_cons]
    constructor
    · rintro (rfl | hu)
      · exact ⟨[], rfl, by simp⟩
      · split at hu
        · cases hu
        · next hc =>
          obtain ⟨t, rfl, ht⟩ := ih.mp hu
          exact ⟨c :: t, rfl, by simp [ht, Ne.symm hc]⟩
    · rintro ⟨_ | ⟨d, t⟩, hs, ht⟩
      · exact .inl hs.symm
      · obtain ⟨rfl, rfl⟩ := List.cons_eq_cons.mp hs
        rw [List.mem_cons, not_or] at ht
        rw [if_neg (Ne.symm ht.1)]
        exact .inr (ih.mpr ⟨t, rfl, ht.2⟩)

/-- One piece of the regular expression matches a segment without newlines. -/
theorem reMatch_cons :
    reMatch py (likeToRegex (ch :: p)) s = true ↔
      ∃ t u, s = t ++ u ∧ lineSegment py ch t ∧ reMatch py (likeToRegex p) u = true := by
  have hpieces : likeToRegex (ch :: p) = (if ch = '%' then RegexPiece.anything
      else if ch = '_' then .anyChar else .char ch) :: likeToRegex p := rfl
  rw [hpieces]
  unfold lineSegment segment
  by_cases hany : ch = '%'
  · simp only [hany, if_true, true_or, true_imp_iff, true_and, reMatch, List.any_eq_true,
      mem_afterAnything]
    constructor
    · rintro ⟨u, ⟨t, hs, ht⟩, hu⟩
      exact ⟨t, u, hs, ht, hu⟩
    · rintro ⟨t, u, hs, ht, hu⟩
      exact ⟨u, ⟨t, hs, ht⟩, hu⟩
  · by_cases hone : ch = '_'
    · simp only [hone, if_true, or_true, true_imp_iff, show ('_' = '%') = False by decide, if_false]
      constructor
      · intro h
        cases s with
        | nil => cases h
        | cons c cs =>
          rw [reMatch, Bool.and_eq_true, decide_eq_true_eq] at h
          exact ⟨[c], cs, rfl, ⟨rfl, by simpa using Ne.symm h.1⟩, h.2⟩
      · rintro ⟨t, u, rfl, ⟨hlen, ht⟩, hu⟩
        obtain ⟨c, rfl⟩ := List.length_eq_one_iff.mp hlen
        rw [List.singleton_append, reMatch, Bool.and_eq_true, decide_eq_true_eq]
        exact ⟨fun hc => ht (by simp [hc]), hu⟩
    · simp only [hany, hone, if_false, or_self, false_imp_iff, and_true]
      constructor
      · intro h
        cases s with
        | nil => cases h
        | cons c cs =>
          rw [reMatch, Bool.and_eq_true] at h
          exact ⟨[c], cs, rfl, ⟨c, rfl, h.1⟩, h.2⟩
      · rintro ⟨t, u, rfl, ⟨c, rfl, hc⟩, hu⟩
        rw [List.singleton_append, reMatch, hc, hu]
        rfl

/-- What the regular expression matches. -/
theorem reMatch_iff : reMatch py (likeToRegex p) s = true ↔ SplitsLine (lineSegment py) p s := by
  induction p generalizing s with
  | nil => simp [likeToRegex, reMatch, SplitsLine]
  | cons ch p ih => simp only [reMatch_cons, splitsLine_cons, ih]

/-! ## Newlines -/

section

-- no character differs only in case from a newline
variable (hnewline : ∀ c d, py.sameIgnoringCase c d = true → (c = '\n' ↔ d = '\n'))

include hnewline

theorem count_le_of_segment (h : segment py ch s) : [ch].count '\n' ≤ s.count '\n' := by
  unfold segment at h
  split at h
  · next hany => simp [hany]
  · split at h
    · next hone => simp [hone]
    · obtain ⟨c, rfl, hc⟩ := h
      have hiff := hnewline ch c hc
      simp only [List.count_singleton, beq_iff_eq, hiff]
      exact le_rfl

theorem lineSegment_iff :
    lineSegment py ch s ↔ segment py ch s ∧ s.count '\n' = [ch].count '\n' := by
  unfold lineSegment
  refine and_congr_right fun h => ?_
  by_cases hwild : ch = '%' ∨ ch = '_'
  · have hzero : [ch].count '\n' = 0 := by
      rcases hwild with rfl | rfl <;> rfl
    rw [hzero, List.count_eq_zero]
    simp [hwild]
  · rw [not_or] at hwild
    unfold segment at h
    rw [if_neg hwild.1, if_neg hwild.2] at h
    obtain ⟨c, rfl, hc⟩ := h
    have hiff := hnewline ch c hc
    simp [List.count_singleton, hiff, hwild]

theorem Splits.count_le (h : Splits (segment py) p s) : p.count '\n' ≤ s.count '\n' := by
  induction p generalizing s with
  | nil => simp
  | cons ch p ih =>
    obtain ⟨t, u, rfl, hch, hp⟩ := splits_cons.mp h
    have hfirst := count_le_of_segment hnewline hch
    have hrest := ih hp
    rw [← List.singleton_append, List.count_append, List.count_append]
    omega

/-- The wildcards stand for no newline exactly if the value has no more of them than the pattern. -/
theorem splits_lineSegment_iff : Splits (lineSegment py) p s ↔
    Splits (segment py) p s ∧ s.count '\n' = p.count '\n' := by
  induction p generalizing s with
  | nil =>
    simp only [splits_nil]
    constructor
    · rintro rfl
      exact ⟨rfl, rfl⟩
    · exact fun h => h.1
  | cons ch p ih =>
    simp only [splits_cons, lineSegment_iff hnewline, ih]
    constructor
    · rintro ⟨t, u, rfl, ⟨hch, ht⟩, hp, hu⟩
      refine ⟨⟨t, u, rfl, hch, hp⟩, ?_⟩
      rw [← List.singleton_append, List.count_append, List.count_append, ht, hu]
    · rintro ⟨⟨t, u, rfl, hch, hp⟩, hcount⟩
      have hfirst := count_le_of_segment hnewline hch
      have hrest := hp.count_le hnewline
      rw [← List.singleton_append, List.count_append, List.count_append] at hcount
      exact ⟨t, u, rfl, ⟨hch, by omega⟩, hp, by omega⟩

end

/-! ## LIKE and NOT LIKE -/

variable (py p s)

/-- LIKE of two texts is true if the value splits along the pattern and false if not, and NOT LIKE
the other way round. -/
def LikeCorrect : Prop :=
  ∀ (row : Dict String Value) (expr pattern : Expr) (negated : Bool),
    evalExpr py row expr = .ok (.str (String.ofList s)) →
    evalExpr py row pattern = .ok (.str (String.ofList p)) →
    ∃ result, evalExpr py row (.likeExpr expr pattern negated) = .ok (.bool (result != negated)) ∧
      (result = true ↔ Splits (segment py) p s)

variable {py p s}

theorem evalExpr_likeExpr {row : Dict String Value} {expr pattern : Expr} {negated : Bool}
    (hexpr : evalExpr py row expr = .ok (.str (String.ofList s)))
    (hpattern : evalExpr py row pattern = .ok (.str (String.ofList p))) :
    evalExpr py row (.likeExpr expr pattern negated)
      = .ok (.bool (reMatch py (likeToRegex p) s != negated)) := by
  simp only [evalExpr, hexpr, hpattern, ok_bind, Value.isNull, Value.toStr, String.toList_ofList]
  rfl

theorem likeCorrect_iff_splitsLine :
    LikeCorrect py p s ↔ (SplitsLine (lineSegment py) p s ↔ Splits (segment py) p s) := by
  rw [← reMatch_iff]
  constructor
  · intro h
    obtain ⟨result, heval, hresult⟩ := h .empty (.literal (.str (String.ofList s)))
      (.literal (.str (String.ofList p))) false rfl rfl
    rw [evalExpr_likeExpr rfl rfl, Bool.bne_false, Bool.bne_false] at heval
    obtain rfl : _ = result := Value.bool.inj (Except.ok.inj heval)
    exact hresult
  · intro h row expr pattern negated hexpr hpattern
    exact ⟨_, evalExpr_likeExpr hexpr hpattern, h⟩

/-- LIKE is right on every value that has at most as many newlines as the pattern.  On one that has
more of them it is right exactly if the value splits along the pattern when and only when it does
without a last newline that the pattern does not ask for. -/
theorem likeCorrect_iff
    (hnewline : ∀ c d, py.sameIgnoringCase c d = true → (c = '\n' ↔ d = '\n')) :
    LikeCorrect py p s ↔ s.count '\n' ≤ p.count '\n' ∨
      (Splits (segment py) p s ↔
        ∃ t, s = t ++ ['\n'] ∧ t.count '\n' = p.count '\n' ∧ Splits (segment py) p t) := by
  have hlast : (∃ t, s = t ++ ['\n'] ∧ Splits (lineSegment py) p t) ↔
      ∃ t, s = t ++ ['\n'] ∧ t.count '\n' = p.count '\n' ∧ Splits (segment py) p t := by
    simp only [splits_lineSegment_iff hnewline, and_comm (b := List.count _ _ = _)]
  rw [likeCorrect_iff_splitsLine, SplitsLine, hlast, splits_lineSegment_iff hnewline]
  rcases le_or_gt (s.count '\n') (p.count '\n') with hle | hgt
  · -- a value without its last newline has too few of them
    refine iff_of_true ?_ (.inl hle)
    constructor
    · rintro (h | ⟨t, rfl, ht, -⟩)
      · exact h.1
      · rw [List.count_append] at hle
        simp at hle
        omega
    · intro h
      exact .inl ⟨h, le_antisymm hle (h.count_le hnewline)⟩
  · simp only [hgt.ne', and_false, false_or, not_le.mpr hgt]
    exact ⟨fun h => h.symm, fun h => h.symm⟩

theorem toLower_eq_newline (c : Char) : c.toLower = '\n' ↔ c = '\n' := by
  unfold Char.toLower
  split
  · next hupper =>
    have hlo : 65 ≤ c.val.toNat := UInt32.le_iff_toNat_le.mp hupper.1
    have hhi : c.val.toNat ≤ 90 := UInt32.le_iff_toNat_le.mp hupper.2
    constructor
    · intro h
      have hval := congrArg (fun d => d.val.toNat) h
      simp only [UInt32.toNat_add] at hval
      rw [show ('a'.val - 'A'.val).toNat = 32 by decide, show '\n'.val.toNat = 10 by decide] at hval
      omega
    · rintro rfl
      exact absurd hlo (by decide)
  · rfl

theorem likeCorrect_iff_ascii :
    LikeCorrect .ascii ['A', '%'] ['a', 'b'] ↔
      ['a', 'b'].count '\n' ≤ ['A', '%'].count '\n' ∨
      (Splits (segment .ascii) ['A', '%'] ['a', 'b'] ↔ ∃ t, ['a', 'b'] = t ++ ['\n'] ∧
        t.count '\n' = ['A', '%'].count '\n' ∧ Splits (segment .ascii) ['A', '%'] t) :=
  likeCorrect_iff fun c d h => by
    rw [← toLower_eq_newline c, of_decide_eq_true h, toLower_eq_newline]

/-- A newline under a wildcard is not matched, and a newline at the end is overlooked. -/
theorem not_likeCorrect :
    ¬ LikeCorrect .ascii ['a', '_', 'b'] ['a', '\n', 'b'] ∧ ¬ LikeCorrect .ascii ['a'] ['a', '\n'] := by
  constructor
  · intro h
    obtain ⟨result, heval, hresult⟩ := h .empty (.literal (.str "a\nb")) (.literal (.str "a_b")) false
      rfl rfl
    have hfalse : evalExpr .ascii .empty (.likeExpr (.literal (.str "a\nb")) (.literal (.str "a_b")) false)
        = .ok (.bool false) := by
      decide +kernel
    rw [hfalse, Bool.bne_false] at heval
    obtain rfl : false = result := Value.bool.inj (Except.ok.inj heval)
    have hsplits : Splits (segment .ascii) ['a', '_', 'b'] ['a', '\n', 'b'] :=
      ⟨[['a'], ['\n'], ['b']], .cons ⟨'a', rfl, rfl⟩ (.cons rfl (.cons ⟨'b', rfl, rfl⟩ .nil)), rfl⟩
    exact absurd (hresult.mpr hsplits) (by decide)
  · intro h
    obtain ⟨result, heval, hresult⟩ := h .empty (.literal (.str "a\n")) (.literal (.str "a")) false
      rfl rfl
    have htrue : evalExpr .ascii .empty (.likeExpr (.literal (.str "a\n")) (.literal (.str "a")) false)
        = .ok (.bool true) := by
      decide +kernel
    rw [htrue, Bool.bne_false] at heval
    obtain rfl : true = result := Value.bool.inj (Except.ok.inj heval)
    obtain ⟨t, u, hs, ⟨c, rfl, -⟩, hu⟩ := splits_cons.mp (hresult.mp rfl)
    rw [splits_nil] at hu
    subst hu
    cases hs

end

end PySQL.Query
