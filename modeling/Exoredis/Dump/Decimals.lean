import Exoredis.Dump.Replay
import Exoredis.Numbers.Scores

/-!
# Scores in the dump

A score is saved with six decimals. Up to `2 ^ 31` these are read back exactly, so that a score
comes back as its six decimals (`parseScore_doubleToString`).
-/

namespace Exoredis

open Decimal

/-- The millionths of a score, without its sign. -/
def millionths (x : ℚ) : ℕ := (roundHalfEven (|x| * 10 ^ 6)).toNat

/-- A score with six decimals. -/
def sixDecimals (x : ℚ) : ℚ := (if x < 0 then -1 else 1) * (millionths x / 10 ^ 6)

/-- The numeral of a score in the dump. -/
def dumpNumeral (x : ℚ) : ScoreNumeral where
  minus := decide (x < 0)
  whole := decimal (millionths x / 10 ^ 6)
  frac := some (padded 6 (millionths x % 10 ^ 6))
  whole_ne_nil := decimal_ne_nil _
  whole_digit := decimal_digit _
  frac_ne_nil ds hds := by
    obtain rfl := Option.some.inj hds
    exact List.ne_nil_of_length_pos (by rw [length_padded]; decide)
  frac_digit ds hds := by
    obtain rfl := Option.some.inj hds
    exact padded_digit _ _

theorem formatLf_eq (x : ℚ) : formatLf x = (dumpNumeral x).bytes := by
  simp only [formatLf, ScoreNumeral.bytes, ScoreNumeral.digits, dumpNumeral, millionths,
    decide_eq_true_eq, List.append_assoc]
  rfl

theorem value_dumpNumeral (x : ℚ) : (dumpNumeral x).value = sixDecimals x := by
  have hwhole : decVal (dumpNumeral x).whole = millionths x / 10 ^ 6 := decVal_decimal _
  have hfrac : (dumpNumeral x).fracVal = millionths x % 10 ^ 6 := by
    change decVal (padded 6 _) = _
    rw [decVal_padded, Nat.mod_mod]
  have hlen : (dumpNumeral x).fracLen = 6 := length_padded _ _
  have hmagnitude : (dumpNumeral x).magnitude = millionths x / 10 ^ 6 := by
    have hsplit : ((10 ^ 6 * (millionths x / 10 ^ 6) + millionths x % 10 ^ 6 : ℕ) : ℚ) =
        millionths x := by rw [Nat.div_add_mod]
    rw [ScoreNumeral.magnitude, hwhole, hfrac, hlen, ← hsplit]
    push_cast
    ring
  have hminus : (dumpNumeral x).minus = decide (x < 0) := rfl
  rw [ScoreNumeral.value, hmagnitude, hminus, sixDecimals]
  by_cases hneg : x < 0
  · simp [hneg]
  · simp [hneg]

theorem abs_sixDecimals (x : ℚ) : |sixDecimals x| = millionths x / 10 ^ 6 := by
  have hnonneg : (0 : ℚ) ≤ millionths x / 10 ^ 6 := by positivity
  rw [sixDecimals, abs_mul, abs_of_nonneg hnonneg]
  split <;> simp

theorem length_doubleToString_le (x : ℚ) : (doubleToString x).length ≤ LOAD_BUFFER := by
  rw [doubleToString]
  exact (List.length_take_le _ _).trans (by decide)

theorem abs_roundHalfEven_sub_le (q : ℚ) : |roundHalfEven q - q| ≤ 1 / 2 := by
  have hfloor := Int.floor_le q
  have hlt := Int.lt_floor_add_one q
  unfold roundHalfEven
  dsimp only
  split
  · next hhalf =>
      have hle : q - ⌊q⌋ ≤ 1 / 2 := hhalf.elim le_of_lt fun h => h.1.le
      rw [abs_le]
      constructor <;> linarith
  · next hhalf =>
      rw [not_or, not_lt] at hhalf
      push_cast
      rw [abs_le]
      constructor <;> linarith [hhalf.1]

theorem roundHalfEven_natCast (n : ℕ) : roundHalfEven n = n := by
  rw [roundHalfEven]
  simp

theorem roundHalfEven_nonneg {q : ℚ} (h : 0 ≤ q) : 0 ≤ roundHalfEven q := by
  have hfloor := Int.floor_nonneg.2 h
  unfold roundHalfEven
  dsimp only
  split
  · exact hfloor
  · omega

theorem cast_millionths (x : ℚ) : (millionths x : ℚ) = roundHalfEven (|x| * 10 ^ 6) := by
  rw [millionths]
  exact_mod_cast Int.toNat_of_nonneg (roundHalfEven_nonneg (by positivity))

/-- A score changes by half a millionth at most. -/
theorem abs_sixDecimals_sub_le (x : ℚ) : |sixDecimals x - x| ≤ 1 / (2 * 10 ^ 6) := by
  have hround := abs_roundHalfEven_sub_le (|x| * 10 ^ 6)
  rw [sixDecimals, cast_millionths]
  generalize hy : (roundHalfEven (|x| * 10 ^ 6) : ℚ) = y at hround
  rw [abs_le] at hround ⊢
  by_cases hneg : x < 0
  · rw [abs_of_neg hneg] at hround
    rw [if_pos hneg]
    constructor <;> linarith
  · rw [abs_of_nonneg (not_lt.1 hneg)] at hround
    rw [if_neg hneg]
    constructor <;> linarith

/-- Six decimals stay as they are. -/
theorem sixDecimals_sixDecimals (x : ℚ) : sixDecimals (sixDecimals x) = sixDecimals x := by
  have hsame : millionths (sixDecimals x) = millionths x := by
    rw [millionths, abs_sixDecimals, div_mul_cancel₀ _ (by positivity), roundHalfEven_natCast,
      Int.toNat_natCast]
  rw [sixDecimals, hsame]
  rcases eq_or_ne (millionths x) 0 with hzero | hpos
  · rw [sixDecimals, hzero]
    simp
  · have hpos' : (0 : ℚ) < millionths x / 10 ^ 6 := by positivity
    rw [sixDecimals]
    by_cases hneg : x < 0
    · simp only [if_pos hneg]
      rw [if_pos (by linarith)]
    · simp only [if_neg hneg]
      rw [if_neg (by linarith)]

variable {x : ℚ} (h : |sixDecimals x| < 2 ^ 31)

include h

theorem millionths_lt : millionths x < 2 ^ 31 * 10 ^ 6 := by
  rw [abs_sixDecimals, div_lt_iff₀ (by positivity)] at h
  exact_mod_cast h

theorem fits_dumpNumeral : (dumpNumeral x).Fits := by
  have hwhole : decVal (dumpNumeral x).whole = millionths x / 10 ^ 6 := decVal_decimal _
  have hlen : (dumpNumeral x).fracLen = 6 := length_padded _ _
  refine ⟨?_, .inl ?_⟩
  · rw [hwhole]
    exact Nat.div_lt_of_lt_mul (by rw [mul_comm]; exact millionths_lt h)
  · rw [hlen]
    decide

/-- Nothing of the numeral is cut off. -/
theorem doubleToString_eq : doubleToString x = (dumpNumeral x).bytes := by
  have hlt := millionths_lt h
  have hwhole : (decimal (millionths x / 10 ^ 6)).length ≤ 9 + 1 :=
    length_decimal_le (by omega)
  rw [doubleToString, formatLf_eq, List.take_of_length_le]
  have hsign : (if (dumpNumeral x).minus then [(45 : UInt8)] else []).length ≤ 1 := by
    split <;> simp
  rw [ScoreNumeral.bytes, List.length_append]
  change _ + (decimal _ ++ 46 :: padded 6 _).length ≤ 99
  rw [List.length_append, List.length_cons, length_padded]
  omega

/-- A score is read back with six decimals. -/
theorem parseScore_doubleToString :
    SkipList.parseScore (doubleToString x) = some (sixDecimals x) := by
  rw [doubleToString_eq h, ← value_dumpNumeral]
  exact (ScoreNumeral.parseScore_eq_iff _).2 (fits_dumpNumeral h)

end Exoredis
