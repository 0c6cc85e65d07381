import Exoredis.Keyspace.Frame

/-!
# Scores

`stringTolongDouble` reads the two halves of a numeral into `int`s that wrap, and counts
the fraction digits in a third. The value is exact if and only if the integer part is
below `2 ^ 31` and either the fraction is zero or has at most nine digits, or the
multiples of `2 ^ 32` that the fraction and its scale lose are in the proportion of the
fraction itself (`stringTolongDouble_eq_iff`).
-/

namespace Exoredis

open Decimal

/-! ## 32-bit accumulators -/

/-- The multiples of `2 ^ 32` that an `int` loses of a number. -/
def lost (n : ℕ) : ℕ := (n + 2 ^ 31) / 2 ^ 32

theorem wrap32_eq_sub (n : ℕ) : wrap32 n = n - 2 ^ 32 * lost n := by
  unfold wrap32 lost
  rw [Int.bmod_def]
  split_ifs <;> omega

theorem wrap32_push (v : ℕ) (c : UInt8) :
    wrap32 (wrap32 v * 10 + digitVal c) = wrap32 (push v c) := by
  unfold push wrap32
  push_cast
  rw [Int.bmod_def, Int.bmod_def, Int.bmod_def]
  split_ifs <;> omega

theorem wrap32_scale (v : ℕ) : wrap32 (wrap32 v * 10) = wrap32 ((v * 10 : ℕ) : ℤ) := by
  unfold wrap32
  push_cast
  rw [Int.bmod_def, Int.bmod_def, Int.bmod_def]
  split_ifs <;> omega

theorem lost_eq_zero_iff (n : ℕ) : lost n = 0 ↔ n < 2 ^ 31 := by
  unfold lost
  omega

theorem abs_wrap32_le (n : ℕ) : |wrap32 n| ≤ 2 ^ 31 := by
  unfold wrap32
  rw [Int.bmod_def, abs_le]
  split_ifs <;> omega

/-- The digits in front of the point. -/
theorem stringTolongDoubleLoop_whole {ds : List UInt8} (h : ∀ c ∈ ds, isDigit c = true)
    (rest : List UInt8) (v : ℕ) (fraction frac_len : ℤ) :
    stringTolongDoubleLoop (ds ++ rest) (wrap32 v) fraction frac_len false =
      stringTolongDoubleLoop rest (wrap32 (ds.foldl push v : ℕ)) fraction frac_len false := by
  induction ds generalizing v with
  | nil => rfl
  | cons c ds ih =>
      have hc : isDigit c = true := h c List.mem_cons_self
      rw [List.cons_append, stringTolongDoubleLoop, if_neg (by simp [hc]),
        if_neg (by simp), wrap32_push, List.foldl_cons]
      exact ih (fun d hd => h d (List.mem_cons_of_mem c hd)) _

/-- The digits behind the point. -/
theorem stringTolongDoubleLoop_frac {ds : List UInt8} (h : ∀ c ∈ ds, isDigit c = true)
    (num : ℤ) (v w : ℕ) :
    stringTolongDoubleLoop ds num (wrap32 v) (wrap32 w) true =
      some (num, wrap32 (ds.foldl push v : ℕ), wrap32 (w * 10 ^ ds.length : ℕ)) := by
  induction ds generalizing v w with
  | nil =>
      rw [List.length_nil, pow_zero, Nat.mul_one]
      rfl
  | cons c ds ih =>
      have hc : isDigit c = true := h c List.mem_cons_self
      rw [stringTolongDoubleLoop, if_neg (by simp [hc]), if_pos rfl, wrap32_push, wrap32_scale,
        ih (fun d hd => h d (List.mem_cons_of_mem c hd)), List.foldl_cons, List.length_cons,
        pow_succ', Nat.mul_assoc]

/-! ## Numerals -/

/-- The numeral of a score: digits, or digits, a point and digits, with a sign. -/
structure ScoreNumeral where
  minus : Bool
  whole : List UInt8
  frac : Option (List UInt8)
  whole_ne_nil : whole ≠ []
  whole_digit : ∀ c ∈ whole, isDigit c = true
  frac_ne_nil : ∀ ds ∈ frac, ds ≠ []
  frac_digit : ∀ ds ∈ frac, ∀ c ∈ ds, isDigit c = true

namespace ScoreNumeral

variable (x : ScoreNumeral)

/-- The digits and the point. -/
def digits : List UInt8 :=
  x.whole ++ match x.frac with
    | none => []
    | some ds => 46 :: ds

def bytes : List UInt8 := (if x.minus then [45] else []) ++ x.digits

/-- The fraction as an integer. -/
def fracVal : ℕ := decVal (x.frac.getD [])

/-- The number of fraction digits. -/
def fracLen : ℕ := (x.frac.getD []).length

/-- The value without the sign. -/
def magnitude : ℚ := decVal x.whole + x.fracVal / 10 ^ x.fracLen

def value : ℚ := if x.minus then -x.magnitude else x.magnitude

/-- The numerals that 32-bit accumulators hold, or that they lose in proportion. -/
def Fits : Prop :=
  decVal x.whole < 2 ^ 31 ∧
    (x.fracLen ≤ 9 ∨ x.fracVal = 0 ∨
      x.fracLen < 32 ∧ lost x.fracVal * 10 ^ x.fracLen = lost (10 ^ x.fracLen) * x.fracVal)

instance : Decidable x.Fits := inferInstanceAs (Decidable (_ ∧ _))

theorem fracVal_lt : x.fracVal < 10 ^ x.fracLen := by
  refine decVal_lt fun c hc => ?_
  cases hfrac : x.frac with
  | none =>
      rw [hfrac] at hc
      cases hc
  | some ds =>
      rw [hfrac] at hc
      exact x.frac_digit ds hfrac c hc

theorem magnitude_nonneg : 0 ≤ x.magnitude := by
  unfold magnitude
  positivity

/-- What the loop accumulates. -/
theorem loop_digits :
    stringTolongDoubleLoop x.digits 0 0 1 false =
      some (wrap32 (decVal x.whole), wrap32 x.fracVal, wrap32 (10 ^ x.fracLen : ℕ)) := by
  have hzero : (0 : ℤ) = wrap32 (0 : ℕ) := by decide
  have hone : (1 : ℤ) = wrap32 (1 : ℕ) := by decide
  rw [digits, fracVal, fracLen]
  cases hfrac : x.frac with
  | none =>
      nth_rewrite 1 [hzero]
      rw [stringTolongDoubleLoop_whole x.whole_digit]
      rfl
  | some ds =>
      nth_rewrite 1 [hzero]
      rw [stringTolongDoubleLoop_whole x.whole_digit]
      rw [stringTolongDoubleLoop, if_pos (by decide), if_pos ⟨rfl, rfl⟩]
      nth_rewrite 1 [hzero]
      nth_rewrite 1 [hone]
      rw [stringTolongDoubleLoop_frac (x.frac_digit ds hfrac), Nat.one_mul]
      rfl

end ScoreNumeral

/-! ## The fraction -/

/-- The fraction as it is computed. -/
def readFrac (F L : ℕ) : ℚ :=
  if wrap32 F ≠ 0 then doubleDiv (wrap32 F) (wrap32 (10 ^ L : ℕ)) else 0

/-- The scale wraps to zero behind 31 digits. -/
theorem wrap32_scale_eq_zero_iff (L : ℕ) : wrap32 (10 ^ L : ℕ) = 0 ↔ 32 ≤ L := by
  have hdvd : wrap32 (10 ^ L : ℕ) = 0 ↔ 2 ^ 32 ∣ 10 ^ L := by
    rw [wrap32, ← Int.dvd_iff_bmod_eq_zero]
    exact_mod_cast Int.natCast_dvd_natCast
  have hpow : 10 ^ L = 2 ^ L * 5 ^ L := by rw [← Nat.mul_pow]
  have hcop : Nat.Coprime (2 ^ 32) (5 ^ L) := Nat.Coprime.pow 32 L (by decide)
  rw [hdvd, hpow, hcop.dvd_mul_right, Nat.pow_dvd_pow_iff_le_right (by decide)]

theorem frac_nonneg (F L : ℕ) : (0 : ℚ) ≤ F / 10 ^ L := by positivity

variable {F L : ℕ}

theorem frac_lt_one (hF : F < 10 ^ L) : (F : ℚ) / 10 ^ L < 1 := by
  rw [div_lt_one (by positivity)]
  exact_mod_cast hF

/-- A proper fraction that is an integer is zero. -/
theorem eq_zero_of_integer (hF : F < 10 ^ L) {z : ℤ} (h : (F : ℚ) / 10 ^ L = z) : F = 0 := by
  have hnonneg := frac_nonneg F L
  have hlt := frac_lt_one hF
  rw [h] at hnonneg hlt
  have hz : z = 0 := by
    have h₁ : (0 : ℤ) ≤ z := by exact_mod_cast hnonneg
    have h₂ : z < 1 := by exact_mod_cast hlt
    omega
  rw [hz, Int.cast_zero, div_eq_zero_iff] at h
  rcases h with h | h
  · exact_mod_cast h
  · exact absurd h (by positivity)

theorem ldblMax_integer : ∃ z : ℤ, LDBL_MAX = z :=
  ⟨2 ^ 16384 - 2 ^ 16320, by
    simp only [LDBL_MAX, Int.cast_sub, Int.cast_pow, Int.cast_ofNat]⟩

theorem doubleDiv_zero (n : ℤ) : ∃ z : ℤ, doubleDiv n 0 = z := by
  obtain ⟨z, hz⟩ := ldblMax_integer
  rw [doubleDiv, if_pos rfl, hz]
  split
  · exact ⟨2 * z, by push_cast; rfl⟩
  · exact ⟨-2 * z, by push_cast; rfl⟩

/-- The quotient never makes up for a wrap of the integer part. -/
theorem eq_zero_of_readFrac (hF : F < 10 ^ L) {k : ℕ}
    (h : readFrac F L = 2 ^ 32 * k + F / 10 ^ L) : k = 0 := by
  have hnonneg := frac_nonneg F L
  rw [readFrac] at h
  by_cases hfr : wrap32 F = 0
  · rw [if_neg (by simpa using hfr)] at h
    have hk : (k : ℚ) = 0 := by
      have : (0 : ℚ) ≤ k := by positivity
      linarith
    exact_mod_cast hk
  · rw [if_pos hfr] at h
    by_cases hfl : wrap32 (10 ^ L : ℕ) = 0
    · obtain ⟨z, hz⟩ := doubleDiv_zero (wrap32 F)
      rw [hfl, hz] at h
      have hzero : F = 0 := by
        refine eq_zero_of_integer hF (z := z - 2 ^ 32 * k) ?_
        push_cast
        linarith
      rw [hzero] at hfr
      exact absurd (by decide) hfr
    · rw [doubleDiv, if_neg hfl] at h
      have hle : (wrap32 F : ℚ) / wrap32 (10 ^ L : ℕ) ≤ 2 ^ 31 := by
        have hnum : |(wrap32 F : ℚ)| ≤ 2 ^ 31 := by exact_mod_cast abs_wrap32_le F
        have hden : (1 : ℚ) ≤ |(wrap32 (10 ^ L : ℕ) : ℚ)| := by
          exact_mod_cast Int.one_le_abs hfl
        calc (wrap32 F : ℚ) / wrap32 (10 ^ L : ℕ)
            ≤ |(wrap32 F : ℚ) / wrap32 (10 ^ L : ℕ)| := le_abs_self _
          _ = |(wrap32 F : ℚ)| / |(wrap32 (10 ^ L : ℕ) : ℚ)| := abs_div _ _
          _ ≤ |(wrap32 F : ℚ)| := div_le_self (abs_nonneg _) hden
          _ ≤ 2 ^ 31 := hnum
      by_contra hk
      have : (1 : ℚ) ≤ k := by exact_mod_cast Nat.one_le_iff_ne_zero.2 hk
      linarith

/-- The quotient is the fraction if and only if nothing is lost, or it is lost in
proportion. -/
theorem readFrac_eq_iff (hF : F < 10 ^ L) : readFrac F L = F / 10 ^ L ↔
    L ≤ 9 ∨ F = 0 ∨ L < 32 ∧ lost F * 10 ^ L = lost (10 ^ L) * F := by
  have hscale : (10 : ℚ) ^ L ≠ 0 := by positivity
  have hcast : ((wrap32 F * 10 ^ L : ℤ) = F * wrap32 (10 ^ L : ℕ)) ↔
      lost F * 10 ^ L = lost (10 ^ L) * F := by
    rw [wrap32_eq_sub, wrap32_eq_sub]
    push_cast
    constructor
    · intro h
      have h' : (2 ^ 32 * (lost F * 10 ^ L) : ℤ) = 2 ^ 32 * (lost (10 ^ L) * F) := by linarith
      exact_mod_cast mul_left_cancel₀ (by norm_num) h'
    · intro h
      have h' : (lost F * 10 ^ L : ℤ) = lost (10 ^ L) * F := by exact_mod_cast h
      linear_combination (-2 ^ 32) * h'
  constructor
  · intro h
    rw [readFrac] at h
    by_cases hfr : wrap32 F = 0
    · rw [if_neg (by simpa using hfr), eq_comm, div_eq_zero_iff] at h
      exact .inr (.inl (by exact_mod_cast h.resolve_right hscale))
    · rw [if_pos hfr] at h
      by_cases hfl : wrap32 (10 ^ L : ℕ) = 0
      · obtain ⟨z, hz⟩ := doubleDiv_zero (wrap32 F)
        rw [hfl, hz] at h
        exact .inr (.inl (eq_zero_of_integer hF h.symm))
      · have hfl' : (wrap32 (10 ^ L : ℕ) : ℚ) ≠ 0 := by exact_mod_cast hfl
        rw [doubleDiv, if_neg hfl, div_eq_div_iff hfl' hscale] at h
        have hlength : L < 32 := not_le.1 fun hle => hfl ((wrap32_scale_eq_zero_iff L).2 hle)
        exact .inr (.inr ⟨hlength, hcast.1 (by exact_mod_cast h)⟩)
  · intro h
    have hprop : F = 0 ∨ L < 32 ∧ lost F * 10 ^ L = lost (10 ^ L) * F := by
      rcases h with hlength | h
      · have hD : 10 ^ L ≤ 10 ^ 9 := Nat.pow_le_pow_right (by decide) hlength
        rw [(lost_eq_zero_iff F).2 (by omega), (lost_eq_zero_iff (10 ^ L)).2 (by omega)]
        exact .inr ⟨by omega, by rw [Nat.zero_mul, Nat.zero_mul]⟩
      · exact h
    rcases hprop with rfl | ⟨hlength, hprop⟩
    · simp [readFrac, wrap32]
    · have hfl : wrap32 (10 ^ L : ℕ) ≠ 0 := fun hzero => by
        have := (wrap32_scale_eq_zero_iff L).1 hzero
        omega
      have hcross := hcast.2 hprop
      rw [readFrac]
      by_cases hfr : wrap32 F = 0
      · have hzero : F = 0 := by
          rw [hfr, Int.zero_mul, eq_comm, Int.mul_eq_zero] at hcross
          exact_mod_cast hcross.resolve_right hfl
        rw [if_neg (by simpa using hfr), hzero, Nat.cast_zero, zero_div]
      · have hfl' : (wrap32 (10 ^ L : ℕ) : ℚ) ≠ 0 := by exact_mod_cast hfl
        rw [if_pos hfr, doubleDiv, if_neg hfl, div_eq_div_iff hfl' hscale]
        exact_mod_cast hcross

/-! ## Numerals that are read exactly -/

namespace ScoreNumeral

variable (x : ScoreNumeral)

theorem digit_or_point : ∀ c ∈ x.digits, isDigit c = true ∨ c = 46 := by
  intro c hc
  rw [digits, List.mem_append] at hc
  rcases hc with hc | hc
  · exact .inl (x.whole_digit c hc)
  · cases hfrac : x.frac with
    | none =>
        rw [hfrac] at hc
        cases hc
    | some ds =>
        rw [hfrac] at hc
        rcases List.mem_cons.1 hc with rfl | hc
        · exact .inr rfl
        · exact .inl (x.frac_digit ds hfrac c hc)

/-- The characters of a numeral end no string and are no letters. -/
theorem toNat_of_mem {c : UInt8} (hc : c ∈ x.digits) : c.toNat ≠ 0 ∧ c.toNat ≤ 57 := by
  rcases x.digit_or_point c hc with h | rfl
  · rw [isDigit_iff] at h
    omega
  · decide

theorem cstr_digits : cstr x.digits = x.digits := by
  rw [cstr, List.takeWhile_eq_self_iff]
  intro c hc
  have := (x.toNat_of_mem hc).1
  simp only [ne_eq, decide_not, Bool.not_eq_true', decide_eq_false_iff_not]
  rintro rfl
  exact this rfl

theorem strUpCase_digits : strUpCase x.digits = x.digits := by
  have key : ∀ s : List UInt8, (∀ c ∈ s, c.toNat ≤ 57) → strUpCase s = s := by
    intro s hs
    induction s with
    | nil => rfl
    | cons c s ih =>
        have hc := hs c List.mem_cons_self
        rw [strUpCase]
        split
        · rfl
        · rw [if_neg, ih fun d hd => hs d (List.mem_cons_of_mem c hd)]
          rintro ⟨hle, -⟩
          have : (97 : ℕ) ≤ c.toNat := hle
          omega
  exact key _ fun c hc => (x.toNat_of_mem hc).2

theorem stringTolongDouble_digits :
    stringTolongDouble x.digits = wrap32 (decVal x.whole) + readFrac x.fracVal x.fracLen := by
  have hinf : x.digits ≠ ascii "INF" := by
    intro h
    have hmem : (73 : UInt8) ∈ x.digits := by
      rw [h]
      decide
    exact absurd (x.toNat_of_mem hmem).2 (by decide)
  rw [stringTolongDouble, strUpCase_digits, cstr_digits, if_neg hinf, loop_digits]
  rfl

/-- A numeral is read exactly if and only if it fits. -/
theorem stringTolongDouble_eq_iff : stringTolongDouble x.digits = x.magnitude ↔ x.Fits := by
  rw [stringTolongDouble_digits, magnitude, Fits, ← readFrac_eq_iff x.fracVal_lt,
    ← lost_eq_zero_iff, wrap32_eq_sub]
  push_cast
  constructor
  · intro h
    have hzero : lost (decVal x.whole) = 0 :=
      eq_zero_of_readFrac x.fracVal_lt (by linarith)
    rw [hzero] at h
    refine ⟨hzero, ?_⟩
    push_cast at h
    linarith
  · rintro ⟨hzero, hfrac⟩
    rw [hzero, hfrac]
    push_cast
    ring

/-! ### With a sign -/

/-- The numeral behind its sign, and behind a plus sign as well in a bound. -/
def boundBytes (plus : Bool) : List UInt8 :=
  (if x.minus then [45] else []) ++ ((if plus then [43] else []) ++ x.digits)

theorem firstChar_digits {c : UInt8} (hc : isDigit c = false) (hpoint : c ≠ 46) :
    firstChar x.digits ≠ c := by
  cases hdigits : x.digits with
  | nil =>
      have hwhole := x.whole_ne_nil
      rw [digits, List.append_eq_nil_iff] at hdigits
      exact absurd hdigits.1 hwhole
  | cons d ds =>
      rintro rfl
      rcases x.digit_or_point d (by rw [hdigits]; exact List.mem_cons_self) with h | h
      · exact absurd h (by simpa [firstChar] using hc)
      · exact hpoint h

theorem splitMinus_sign {minus : Bool} {str : List UInt8} (h : firstChar str ≠ 45) :
    SkipList.splitMinus ((if minus then [45] else []) ++ str) = (minus, str) := by
  cases minus with
  | true => rfl
  | false => exact if_neg h

theorem splitMinus_bytes : SkipList.splitMinus x.bytes = (x.minus, x.digits) :=
  splitMinus_sign (x.firstChar_digits (by decide) (by decide))

/-- A score with its sign is read exactly if and only if the numeral fits. -/
theorem signed_eq_iff :
    (if stringTolongDouble x.digits = -1 then none
      else some (if x.minus then -1 * stringTolongDouble x.digits
        else stringTolongDouble x.digits)) = some x.value ↔ x.Fits := by
  rw [← stringTolongDouble_eq_iff, value]
  have hnonneg := x.magnitude_nonneg
  constructor
  · intro h
    split at h
    · cases h
    · have h := Option.some.inj h
      cases hminus : x.minus <;> simp only [hminus, if_true] at h <;> simp at h <;> linarith
  · intro h
    rw [h, if_neg (by linarith)]
    simp

theorem parseScore_eq_iff : SkipList.parseScore x.bytes = some x.value ↔ x.Fits := by
  rw [SkipList.parseScore, splitMinus_bytes]
  exact x.signed_eq_iff

theorem parseBound_eq_iff (plus : Bool) :
    parseBound (x.boundBytes plus) = some x.value ↔ x.Fits := by
  have hplus : firstChar x.digits ≠ 43 := x.firstChar_digits (by decide) (by decide)
  have hsplit : SkipList.splitMinus (x.boundBytes plus) =
      (x.minus, (if plus then [43] else []) ++ x.digits) := by
    apply splitMinus_sign
    cases plus with
    | true =>
        change (43 : UInt8) ≠ 45
        decide
    | false => exact x.firstChar_digits (by decide) (by decide)
  rw [parseBound, hsplit, ← signed_eq_iff]
  cases plus with
  | true => rfl
  | false =>
      simp only [Bool.false_eq_true, if_false, List.nil_append, if_neg hplus]

end ScoreNumeral

/-! ## The arguments of ZADD and ZCOUNT -/

/-- The pairs of a ZADD. -/
def scoreArgs : List (ScoreNumeral × ℕ × ExoString) → ArgList
  | [] => []
  | (x, id, member) :: ps => newArg ⟨id, x.bytes⟩ :: newArg member :: scoreArgs ps

/-- The bounds of a ZCOUNT. -/
def boundArgs (bs : List (ScoreNumeral × Bool × ℕ)) : ArgList :=
  bs.map fun b => newArg ⟨b.2.2, b.1.boundBytes b.2.1⟩

theorem readPairs_scoreArgs_iff (ps : List (ScoreNumeral × ℕ × ExoString)) :
    readPairs (scoreArgs ps) = some (ps.map fun p => (p.1.value, p.2.2)) ↔
      ∀ p ∈ ps, p.1.Fits := by
  induction ps with
  | nil => simp [scoreArgs, readPairs]
  | cons p ps ih =>
      obtain ⟨x, id, member⟩ := p
      rw [List.forall_mem_cons, ← ih, ← x.parseScore_eq_iff, scoreArgs, readPairs]
      simp only [newArg]
      cases SkipList.parseScore x.bytes with
      | none => simp
      | some score =>
          cases readPairs (scoreArgs ps) with
          | none => simp
          | some pairs => simp

theorem parseMinMax_boundArgs_iff (bs : List (ScoreNumeral × Bool × ℕ)) :
    parseMinMax (boundArgs bs) = some (bs.map fun b => b.1.value) ↔ ∀ b ∈ bs, b.1.Fits := by
  induction bs with
  | nil => simp [boundArgs, parseMinMax]
  | cons b bs ih =>
      rw [boundArgs] at ih
      rw [List.forall_mem_cons, ← ih, ← b.1.parseBound_eq_iff b.2.1, boundArgs, List.map_cons,
        parseMinMax]
      simp only [newArg]
      cases parseBound (b.1.boundBytes b.2.1) with
      | none => simp
      | some score =>
          cases parseMinMax _ with
          | none => simp
          | some scores => simp

/-- Where the arrays have room for the pairs, `parseArgs` ends. -/
theorem parseArgs_run {room : ℕ} (ps : List (ScoreNumeral × ℕ × ExoString))
    (hroom : ps.length ≤ room) (s : Server) :
    ∃ args, SkipList.parseArgs room (scoreArgs ps) s =
      .ok ((readPairs (scoreArgs ps), args), s) := by
  induction ps generalizing room with
  | nil => exact ⟨[], rfl⟩
  | cons p ps ih =>
      obtain ⟨x, id, member⟩ := p
      rw [List.length_cons] at hroom
      obtain ⟨args, hargs⟩ := @ih (room - 1) (by omega)
      rw [scoreArgs, SkipList.parseArgs, readPairs]
      simp only [newArg]
      cases SkipList.parseScore x.bytes with
      | none => exact ⟨_, rfl⟩
      | some score =>
          simp only
          rw [if_neg (by omega)]
          exact ⟨_, (Effect.bind_run_ok hargs).trans rfl⟩

/-- ZADD and ZCOUNT are given the values of the numerals that a client wrote if and only if
these fit. Any two numerals that fit are compared as their values are. -/
theorem scores_exact_iff (x y : ScoreNumeral) (ps : List (ScoreNumeral × ℕ × ExoString))
    (bs : List (ScoreNumeral × Bool × ℕ)) (room : ℕ) (hroom : ps.length ≤ room) (s : Server) :
    (stringTolongDouble x.digits = x.magnitude ↔ x.Fits) ∧
    ((∃ args, SkipList.parseArgs room (scoreArgs ps) s =
      .ok ((some (ps.map fun p => (p.1.value, p.2.2)), args), s)) ↔ ∀ p ∈ ps, p.1.Fits) ∧
    (parseMinMax (boundArgs bs) = some (bs.map fun b => b.1.value) ↔ ∀ b ∈ bs, b.1.Fits) ∧
    ((∃ p q, SkipList.parseScore x.bytes = some p ∧ SkipList.parseScore y.bytes = some q ∧
      p = x.value ∧ q = y.value ∧ (p ≤ q ↔ x.value ≤ y.value)) ↔ x.Fits ∧ y.Fits) := by
  refine ⟨x.stringTolongDouble_eq_iff, ?_, parseMinMax_boundArgs_iff bs, ?_⟩
  · rw [← readPairs_scoreArgs_iff]
    obtain ⟨args, hargs⟩ := parseArgs_run ps hroom s
    rw [hargs]
    constructor
    · rintro ⟨args', heq⟩
      injection heq with heq
      exact congrArg (fun p => p.1.1) heq
    · intro h
      exact ⟨args, by rw [h]⟩
  · rw [← x.parseScore_eq_iff, ← y.parseScore_eq_iff]
    constructor
    · rintro ⟨p, q, hp, hq, rfl, rfl, -⟩
      exact ⟨hp, hq⟩
    · rintro ⟨hp, hq⟩
      exact ⟨_, _, hp, hq, rfl, rfl, Iff.rfl⟩

/-- `0.5000000000`: the fraction and its scale both wrap, in proportion. -/
def halfNumeral : ScoreNumeral where
  minus := true
  whole := ascii "0"
  frac := some (ascii "5000000000")
  whole_ne_nil := by decide
  whole_digit c hc := by fin_cases hc; rfl
  frac_ne_nil ds hds := by cases hds; decide
  frac_digit ds hds c hc := by cases hds; fin_cases hc <;> rfl

theorem scores_exact_iff_half :
    ∃ args, SkipList.parseArgs 1 (scoreArgs [(halfNumeral, 2, ⟨3, ascii "a"⟩)])
        (started (fun _ => 0) none) =
      .ok ((some [(halfNumeral.value, ⟨3, ascii "a"⟩)], args), started (fun _ => 0) none) := by
  refine (scores_exact_iff halfNumeral halfNumeral [(halfNumeral, 2, ⟨3, ascii "a"⟩)] [] 1
    (by decide) (started (fun _ => 0) none)).2.1.2 fun p hp => ?_
  obtain rfl := List.mem_singleton.1 hp
  change halfNumeral.Fits
  decide

/-- The first number that an `int` does not hold. -/
def topNumeral : ScoreNumeral where
  minus := false
  whole := ascii "2147483648"
  frac := none
  whole_ne_nil := by decide
  whole_digit c hc := by fin_cases hc <;> rfl
  frac_ne_nil ds hds := by cases hds
  frac_digit ds hds := by cases hds

/-- `2147483648` is read as a negative number, below every other, and `4294967295` is taken
for an error. -/
theorem scores_inexact :
    stringTolongDouble (ascii "2147483648") = -2147483648 ∧
      SkipList.parseScore (ascii "4294967295") = none ∧
      ¬ ∀ x : ScoreNumeral, stringTolongDouble x.digits = x.magnitude := by
  refine ⟨by decide +kernel, by decide +kernel, fun h => ?_⟩
  have hfits := topNumeral.stringTolongDouble_eq_iff.1 (h topNumeral)
  exact absurd hfits (by decide)

end Exoredis
