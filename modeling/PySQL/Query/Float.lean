import Mathlib.Data.Int.Log
import Mathlib.Data.Rat.Floor
import Mathlib.Tactic

/-!
# Python's floats

A float is a 64-bit pattern.  An operation takes the numbers its operands stand for, computes with
them exactly and rounds the result to the nearest float, a tie to the even one.
-/

namespace PySQL.Query

/-- What a float that is not NaN stands for: a rational or one of the infinities. -/
abbrev Num : Type := WithBot (WithTop ℚ)

namespace Num

def ofRat (q : ℚ) : Num := ((q : WithTop ℚ) : WithBot (WithTop ℚ))

def inf (negative : Bool) : Num := if negative then ⊥ else ((⊤ : WithTop ℚ) : WithBot (WithTop ℚ))

theorem ofRat_inj {p q : ℚ} : ofRat p = ofRat q ↔ p = q := by
  simp [ofRat]

theorem ofRat_lt {p q : ℚ} : ofRat p < ofRat q ↔ p < q := by
  simp [ofRat]

/-- `-x` -/
def neg : Num → Num
  | none => inf false
  | some none => inf true
  | some (some q) => ofRat (-q)

theorem neg_ofRat (q : ℚ) : neg (ofRat q) = ofRat (-q) := rfl

theorem neg_inf (negative : Bool) : neg (inf negative) = inf !negative := by
  cases negative <;> rfl

theorem strictAnti_neg : StrictAnti neg := by
  intro x y h
  induction x using WithBot.recBotCoe with
  | bot =>
    induction y using WithBot.recBotCoe with
    | bot => exact absurd h (lt_irrefl _)
    | coe y =>
      induction y using WithTop.recTopCoe with
      | top => exact WithBot.bot_lt_coe _
      | coe q => exact WithBot.coe_lt_coe.mpr (WithTop.coe_lt_top _)
  | coe x =>
    induction y using WithBot.recBotCoe with
    | bot => exact absurd h not_lt_bot
    | coe y =>
      rw [WithBot.coe_lt_coe] at h
      induction x using WithTop.recTopCoe with
      | top => exact absurd h not_top_lt
      | coe p =>
        induction y using WithTop.recTopCoe with
        | top => exact WithBot.bot_lt_coe _
        | coe q =>
          rw [WithTop.coe_lt_coe] at h
          exact ofRat_lt.mpr (neg_lt_neg h)

end Num

structure PyFloat where
  bits : BitVec 64
deriving DecidableEq, Repr

namespace PyFloat

def negative (x : PyFloat) : Bool := x.bits.msb

def exponent (x : PyFloat) : ℕ := x.bits.toNat / 2 ^ 52 % 2 ^ 11

def fraction (x : PyFloat) : ℕ := x.bits.toNat % 2 ^ 52

def isNaN (x : PyFloat) : Bool := x.exponent = 2047 ∧ x.fraction ≠ 0

def isInf (x : PyFloat) : Bool := x.exponent = 2047 ∧ x.fraction = 0

/-- The number that a finite pattern stands for. -/
def toRat (x : PyFloat) : ℚ :=
  let magnitude : ℚ :=
    if x.exponent = 0 then x.fraction * 2 ^ (-1074 : ℤ)
    else (2 ^ 52 + x.fraction : ℕ) * 2 ^ ((x.exponent : ℤ) - 1075)
  if x.negative then -magnitude else magnitude

/-- The number a float stands for, none for NaN. -/
def toNum (x : PyFloat) : Option Num :=
  if x.isNaN then none
  else if x.isInf then some (.inf x.negative)
  else some (.ofRat x.toRat)

def ofNat (negative : Bool) (bits : ℕ) : PyFloat :=
  ⟨BitVec.ofNat 64 (bits + if negative then 2 ^ 63 else 0)⟩

def nan : PyFloat := ofNat false (2047 * 2 ^ 52 + 2 ^ 51)

def inf (negative : Bool) : PyFloat := ofNat negative (2047 * 2 ^ 52)

def zero (negative : Bool) : PyFloat := ofNat negative 0

/-- The integer nearest to a rational, the even one of two. -/
def roundHalfEven (q : ℚ) : ℤ :=
  let below := ⌊q⌋
  if q - below < 1 / 2 ∨ (q - below = 1 / 2 ∧ below % 2 = 0) then below else below + 1

/-- The float nearest to a rational; `negative` is the sign of a zero. -/
def ofRat (negative : Bool) (q : ℚ) : PyFloat :=
  if q = 0 then zero negative
  else
    -- the unit in the last place is 2 ^ unit, and the patterns count these units
    let unit := max (Int.log 2 |q| - 52) (-1074)
    let bits := (roundHalfEven (|q| * 2 ^ (-unit)) + (unit + 1074) * 2 ^ 52).toNat
    if 2047 * 2 ^ 52 ≤ bits then inf (q < 0) else ofNat (q < 0) bits

/-- `float(n)`; none is an OverflowError. -/
def ofInt (n : ℤ) : Option PyFloat :=
  let x := ofRat false n
  if x.isInf then none else some x

def neg (x : PyFloat) : PyFloat := ⟨x.bits ^^^ BitVec.ofNat 64 (2 ^ 63)⟩

def abs (x : PyFloat) : PyFloat := if x.negative then x.neg else x

def add (x y : PyFloat) : PyFloat :=
  if x.isNaN ∨ y.isNaN then nan
  else if x.isInf ∧ y.isInf then if x.negative = y.negative then x else nan
  else if x.isInf then x
  else if y.isInf then y
  else ofRat (x.negative && y.negative) (x.toRat + y.toRat)

def sub (x y : PyFloat) : PyFloat := x.add y.neg

def mul (x y : PyFloat) : PyFloat :=
  let negative := x.negative != y.negative
  if x.isNaN ∨ y.isNaN then nan
  else if x.isInf ∨ y.isInf then
    if (¬x.isInf ∧ x.toRat = 0) ∨ (¬y.isInf ∧ y.toRat = 0) then nan else inf negative
  else ofRat negative (x.toRat * y.toRat)

/-- Division by a number that is not zero. -/
def div (x y : PyFloat) : PyFloat :=
  let negative := x.negative != y.negative
  if x.isNaN ∨ y.isNaN then nan
  else if x.isInf then if y.isInf then nan else inf negative
  else if y.isInf then zero negative
  else ofRat negative (x.toRat / y.toRat)

/-- The remainder of a division by a number that is not zero: it has the sign of the divisor. -/
def mod (x y : PyFloat) : PyFloat :=
  if x.isNaN ∨ y.isNaN ∨ x.isInf then nan
  else
    -- fmod rounds the quotient towards zero and is exact
    let rest : ℚ := if y.isInf then x.toRat else
      let q := x.toRat / y.toRat
      x.toRat - (if q < 0 then ⌈q⌉ else ⌊q⌋) * y.toRat
    if rest = 0 then zero y.negative
    else if (decide (rest < 0)) = y.negative then ofRat false rest
    else (ofRat false rest).add y

/-- `int(x)` of a finite float. -/
def trunc (x : PyFloat) : ℤ := if x.toRat < 0 then ⌈x.toRat⌉ else ⌊x.toRat⌋

/-- `round(x, digits)`; none is an OverflowError. -/
def round (x : PyFloat) (digits : ℤ) : Option PyFloat :=
  if x.isNaN ∨ x.isInf then some x
  else
    let r := ofRat x.negative (roundHalfEven (x.toRat * 10 ^ digits) / 10 ^ digits)
    if r.isInf then none else some r

/-! ## Negation -/

theorem toNat_neg_mod (x : PyFloat) : x.neg.bits.toNat % 2 ^ 63 = x.bits.toNat % 2 ^ 63 := by
  rw [neg, BitVec.toNat_xor, Nat.xor_mod_two_pow]
  simp

theorem negative_neg (x : PyFloat) : x.neg.negative = !x.negative := by
  rw [negative, neg, BitVec.msb_xor, show (BitVec.ofNat 64 (2 ^ 63)).msb = true by decide,
    Bool.xor_true, negative]

theorem exponent_neg (x : PyFloat) : x.neg.exponent = x.exponent := by
  have h := x.toNat_neg_mod
  unfold exponent
  omega

theorem fraction_neg (x : PyFloat) : x.neg.fraction = x.fraction := by
  have h := x.toNat_neg_mod
  unfold fraction
  omega

theorem toRat_neg (x : PyFloat) : x.neg.toRat = -x.toRat := by
  unfold toRat
  rw [exponent_neg, fraction_neg, negative_neg]
  cases x.negative <;> simp

theorem toNum_neg (x : PyFloat) : x.neg.toNum = x.toNum.map Num.neg := by
  have hnan : x.neg.isNaN = x.isNaN := by rw [isNaN, isNaN, exponent_neg, fraction_neg]
  have hinf : x.neg.isInf = x.isInf := by rw [isInf, isInf, exponent_neg, fraction_neg]
  rw [toNum, toNum, hnan, hinf, negative_neg, toRat_neg]
  split
  · rfl
  · split
    · rw [Option.map_some, Num.neg_inf]
    · rfl

/-! ## Overflow -/

theorem exponent_ofNat {negative : Bool} {bits : ℕ} (h : bits < 2047 * 2 ^ 52) :
    (ofNat negative bits).exponent = bits / 2 ^ 52 := by
  unfold exponent ofNat
  rw [BitVec.toNat_ofNat]
  cases negative
  · rw [if_neg Bool.false_ne_true]
    omega
  · rw [if_pos rfl]
    omega

theorem isInf_ofNat {negative : Bool} {bits : ℕ} (h : bits < 2047 * 2 ^ 52) :
    (ofNat negative bits).isInf = false := by
  unfold isInf
  rw [exponent_ofNat h, decide_eq_false_iff_not]
  omega

theorem roundHalfEven_le (q : ℚ) : roundHalfEven q ≤ ⌊q⌋ + 1 := by
  unfold roundHalfEven
  dsimp only
  split <;> omega

/-- No rational up to `2 ^ 1000` is taken for an infinity. -/
theorem isInf_ofRat {negative : Bool} {q : ℚ} (h : |q| ≤ 2 ^ 1000) :
    (ofRat negative q).isInf = false := by
  unfold ofRat
  split
  · exact isInf_ofNat (by decide)
  · next hq =>
    have hpos : 0 < |q| := abs_pos.mpr hq
    have hlog : Int.log 2 |q| ≤ 1000 := by
      calc Int.log 2 |q| ≤ Int.log 2 ((2 : ℚ) ^ 1000) := Int.log_mono_right hpos h
        _ = 1000 := by
          have hpow := Int.log_zpow (R := ℚ) (b := 2) (by decide) 1000
          exact_mod_cast hpow
    dsimp only
    generalize hunit : max (Int.log 2 |q| - 52) (-1074) = unit
    have hle : unit ≤ 948 := by omega
    have hfloor : ⌊|q| * 2 ^ (-unit)⌋ < 2 ^ 53 := by
      rw [Int.floor_lt]
      push_cast
      calc |q| * 2 ^ (-unit) < 2 ^ (Int.log 2 |q| + 1) * 2 ^ (-unit) := by
            gcongr
            exact_mod_cast Int.lt_zpow_succ_log_self (b := 2) (by decide) |q|
        _ = 2 ^ (Int.log 2 |q| + 1 - unit) := by
            rw [← zpow_add₀ two_ne_zero, sub_eq_add_neg]
        _ ≤ 2 ^ (53 : ℤ) := zpow_le_zpow_right₀ one_le_two (by omega)
        _ = 2 ^ 53 := by norm_cast
    have hround := roundHalfEven_le (|q| * 2 ^ (-unit))
    have hbits : (roundHalfEven (|q| * 2 ^ (-unit)) + (unit + 1074) * 2 ^ 52).toNat <
        2047 * 2 ^ 52 := by
      omega
    rw [if_neg (not_le.mpr hbits)]
    exact isInf_ofNat hbits

theorem ofInt_isSome {n : ℤ} (h : |n| ≤ 2 ^ 1000) : (ofInt n).isSome = true := by
  have hq : |(n : ℚ)| ≤ 2 ^ 1000 := by
    rw [← Int.cast_abs]
    apply (Int.cast_le.mpr h).trans
    rw [Int.cast_pow, Int.cast_ofNat]
  unfold ofInt
  dsimp only
  rw [isInf_ofRat hq]
  rfl

/-! ## Numbers that need no rounding -/

theorem roundHalfEven_natCast (s : ℕ) : roundHalfEven s = s := by
  unfold roundHalfEven
  dsimp only
  rw [Int.floor_natCast, Int.cast_natCast, sub_self, if_pos (.inl (by norm_num))]

theorem toNum_ofNat {bits : ℕ} (h : bits < 2047 * 2 ^ 52) :
    (ofNat false bits).toNum = some (.ofRat (ofNat false bits).toRat) := by
  have hnan : (ofNat false bits).isNaN = false := by
    unfold isNaN
    rw [exponent_ofNat h, decide_eq_false_iff_not]
    omega
  rw [toNum, hnan, isInf_ofNat h]
  rfl

/-- A number of 53 bits times a power of two is a float. -/
theorem toNum_ofRat_of_normal {negative : Bool} {s : ℕ} {unit : ℤ} (hlow : 2 ^ 52 ≤ s)
    (hhigh : s < 2 ^ 53) (hunit : -1074 ≤ unit) (hunit' : unit ≤ 971) :
    (ofRat negative (s * 2 ^ unit)).toNum = some (.ofRat (s * 2 ^ unit)) := by
  have hpow : (0 : ℚ) < 2 ^ unit := by positivity
  have hs : (0 : ℚ) < s := by
    have : 0 < s := by omega
    exact_mod_cast this
  have hq : (0 : ℚ) < s * 2 ^ unit := mul_pos hs hpow
  have hlog : Int.log 2 ((s : ℚ) * 2 ^ unit) = 52 + unit := by
    apply le_antisymm
    · rw [← Int.lt_add_one_iff, ← Int.lt_zpow_iff_log_lt (by decide) hq]
      rw [show (52 + unit + 1 : ℤ) = 53 + unit by ring, Nat.cast_ofNat, zpow_add₀ two_ne_zero]
      gcongr
      exact_mod_cast hhigh
    · rw [← Int.zpow_le_iff_le_log (by decide) hq, Nat.cast_ofNat, zpow_add₀ two_ne_zero]
      gcongr
      exact_mod_cast hlow
  have hmax : max (52 + unit - 52) (-1074) = unit := by omega
  have hcancel : (s : ℚ) * 2 ^ unit * 2 ^ (-unit) = s := by
    rw [mul_assoc, ← zpow_add₀ two_ne_zero, add_neg_cancel, zpow_zero, mul_one]
  obtain ⟨e, he⟩ : ∃ e : ℕ, unit + 1074 = e := ⟨(unit + 1074).toNat, by omega⟩
  have hbits : ((s : ℤ) + (unit + 1074) * 2 ^ 52).toNat = s + e * 2 ^ 52 := by
    rw [he]
    norm_cast
  have hlt : s + e * 2 ^ 52 < 2047 * 2 ^ 52 := by omega
  unfold ofRat
  dsimp only
  rw [if_neg hq.ne', abs_of_pos hq, hlog, hmax, hcancel, roundHalfEven_natCast, hbits,
    if_neg (not_le.mpr hlt), decide_eq_false (not_lt.mpr hq.le), toNum_ofNat hlt]
  congr 2
  have hmod : (s + e * 2 ^ 52) % 2 ^ 64 = s + e * 2 ^ 52 := by omega
  have hexponent : (ofNat false (s + e * 2 ^ 52)).exponent = e + 1 := by
    rw [exponent_ofNat hlt]
    omega
  have hfraction : 2 ^ 52 + (ofNat false (s + e * 2 ^ 52)).fraction = s := by
    unfold fraction ofNat
    rw [BitVec.toNat_ofNat, if_neg Bool.false_ne_true, Nat.add_zero, hmod]
    omega
  have hnegative : (ofNat false (s + e * 2 ^ 52)).negative = false := by
    unfold PyFloat.negative ofNat
    rw [if_neg Bool.false_ne_true, Nat.add_zero, BitVec.msb_eq_decide, BitVec.toNat_ofNat, hmod,
      decide_eq_false_iff_not]
    omega
  unfold toRat
  dsimp only
  rw [hexponent, if_neg (Nat.succ_ne_zero e), hfraction, hnegative]
  rw [show ((e + 1 : ℕ) : ℤ) - 1075 = unit by omega]
  rfl

/-- Every integer up to `2 ^ 53` is a float. -/
theorem toNum_ofRat_natCast {negative : Bool} {m : ℕ} (h0 : 0 < m) (h : m ≤ 2 ^ 53) :
    (ofRat negative m).toNum = some (.ofRat m) := by
  obtain ⟨s, unit, hlow, hhigh, hunit, hunit', heq⟩ : ∃ (s : ℕ) (unit : ℤ), 2 ^ 52 ≤ s ∧
      s < 2 ^ 53 ∧ -1074 ≤ unit ∧ unit ≤ 971 ∧ (m : ℚ) = s * 2 ^ unit := by
    rcases h.lt_or_eq with hlt | rfl
    · have hlog : Nat.log 2 m < 53 := Nat.log_lt_of_lt_pow (by omega) hlt
      refine ⟨m * 2 ^ (52 - Nat.log 2 m), Nat.log 2 m - 52, ?_, ?_, by omega, by omega, ?_⟩
      · calc 2 ^ 52 = 2 ^ Nat.log 2 m * 2 ^ (52 - Nat.log 2 m) := by
              rw [← pow_add]; congr 1; omega
          _ ≤ m * 2 ^ (52 - Nat.log 2 m) := by
              gcongr
              exact Nat.pow_log_le_self 2 (by omega)
      · calc m * 2 ^ (52 - Nat.log 2 m) < 2 ^ (Nat.log 2 m + 1) * 2 ^ (52 - Nat.log 2 m) := by
              gcongr
              exact Nat.lt_pow_succ_log_self (by decide) m
          _ = 2 ^ 53 := by rw [← pow_add]; congr 1; omega
      · rw [Nat.cast_mul, Nat.cast_pow, Nat.cast_ofNat, mul_assoc, ← zpow_natCast,
          ← zpow_add₀ two_ne_zero, Nat.cast_sub (by omega)]
        norm_num
    · exact ⟨2 ^ 52, 1, le_rfl, by norm_num, by norm_num, by norm_num, by norm_num⟩
  rw [heq]
  exact toNum_ofRat_of_normal hlow hhigh hunit hunit'

end PyFloat

end PySQL.Query
