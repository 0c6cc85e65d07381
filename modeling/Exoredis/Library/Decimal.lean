import Mathlib

/-!
# Decimal numerals

A numeral is a list of ASCII digits. `decVal` is its value, unbounded and
indifferent to leading zeros; `decimal n` is the shortest numeral of `n` and
`padded w n` the last `w` digits of `n`. The two are inverse to `decVal`, the
second one below `10 ^ w`.

A machine that reads a numeral into a fixed-width accumulator computes the same
fold with every step reduced; `foldl_reduce` shows that it ends in the value of
the numeral reduced once.
-/

namespace Decimal

def isDigit (c : UInt8) : Bool := decide (48 ≤ c) && decide (c ≤ 57)

def digitVal (c : UInt8) : ℕ := c.toNat - 48

def digitChar (d : ℕ) : UInt8 := UInt8.ofNat (48 + d)

theorem isDigit_iff (c : UInt8) : isDigit c = true ↔ 48 ≤ c.toNat ∧ c.toNat ≤ 57 := by
  simp [isDigit, UInt8.le_iff_toNat_le]

theorem toNat_digitChar {d : ℕ} (h : d < 10) : (digitChar d).toNat = 48 + d := by
  have h' : 48 + d < 256 := by omega
  simp [digitChar, Nat.mod_eq_of_lt h']

theorem isDigit_digitChar {d : ℕ} (h : d < 10) : isDigit (digitChar d) = true := by
  rw [isDigit_iff, toNat_digitChar h]
  omega

@[simp] theorem digitVal_digitChar {d : ℕ} (h : d < 10) : digitVal (digitChar d) = d := by
  rw [digitVal, toNat_digitChar h]
  omega

theorem digitVal_lt {c : UInt8} (h : isDigit c = true) : digitVal c < 10 := by
  rw [isDigit_iff] at h
  unfold digitVal
  omega

/-! ## The value of a numeral -/

/-- One digit more: the value of a numeral is the fold of this step. -/
def push (v : ℕ) (c : UInt8) : ℕ := 10 * v + digitVal c

def decVal (ds : List UInt8) : ℕ := ds.foldl push 0

@[simp] theorem decVal_nil : decVal [] = 0 := rfl

theorem foldl_push (ds : List UInt8) (v : ℕ) :
    ds.foldl push v = v * 10 ^ ds.length + decVal ds := by
  induction ds generalizing v with
  | nil => simp
  | cons c ds ih =>
      have hstep : decVal (c :: ds) = digitVal c * 10 ^ ds.length + decVal ds := by
        rw [decVal, List.foldl_cons, ih]
        simp [push]
      rw [List.foldl_cons, ih, hstep, List.length_cons, push]
      ring

theorem decVal_cons (c : UInt8) (ds : List UInt8) :
    decVal (c :: ds) = digitVal c * 10 ^ ds.length + decVal ds := by
  rw [decVal, List.foldl_cons, foldl_push]
  simp [push]

theorem decVal_append (ds es : List UInt8) :
    decVal (ds ++ es) = decVal ds * 10 ^ es.length + decVal es := by
  rw [decVal, List.foldl_append, foldl_push]
  rfl

@[simp] theorem decVal_singleton (c : UInt8) : decVal [c] = digitVal c := by
  simp [decVal_cons]

theorem decVal_lt {ds : List UInt8} (h : ∀ c ∈ ds, isDigit c = true) :
    decVal ds < 10 ^ ds.length := by
  induction ds with
  | nil => simp
  | cons c ds ih =>
      have hc := digitVal_lt (h c (by simp))
      have hds := ih fun d hd => h d (by simp [hd])
      rw [decVal_cons, List.length_cons, pow_succ]
      nlinarith

/-- An accumulator reduced by `red` at each digit ends in the reduced value,
when `red` can be applied early. -/
theorem foldl_reduce {α : Type} (red : ℕ → α) (step : α → UInt8 → α)
    (hstep : ∀ v c, step (red v) c = red (push v c)) (ds : List UInt8) (v : ℕ) :
    ds.foldl step (red v) = red (ds.foldl push v) := by
  induction ds generalizing v with
  | nil => rfl
  | cons c ds ih =>
      rw [List.foldl_cons, List.foldl_cons, hstep, ih]

/-! ## The numerals of a number -/

/-- The shortest numeral of `n`. -/
def decimal (n : ℕ) : List UInt8 :=
  if n = 0 then [digitChar 0] else (Nat.digits 10 n).reverse.map digitChar

/-- The last `w` digits of `n`. -/
def padded : ℕ → ℕ → List UInt8
  | 0, _ => []
  | w + 1, n => padded w (n / 10) ++ [digitChar (n % 10)]

@[simp] theorem decimal_zero : decimal 0 = [digitChar 0] := rfl

theorem decimal_of_lt {n : ℕ} (h : n < 10) : decimal n = [digitChar n] := by
  rcases Nat.eq_zero_or_pos n with rfl | hn
  · rfl
  · rw [decimal, if_neg (by omega), Nat.digits_of_lt 10 n (by omega) h]
    rfl

theorem decimal_of_le {n : ℕ} (h : 10 ≤ n) :
    decimal n = decimal (n / 10) ++ [digitChar (n % 10)] := by
  have hdiv : n / 10 ≠ 0 := by omega
  rw [decimal, if_neg (by omega), decimal, if_neg hdiv,
    Nat.digits_def' (by norm_num) (by omega)]
  simp

theorem decimal_digit (n : ℕ) : ∀ c ∈ decimal n, isDigit c = true := by
  induction n using Nat.strong_induction_on with
  | _ n ih =>
      intro c hc
      by_cases h : n < 10
      · rw [decimal_of_lt h, List.mem_singleton] at hc
        exact hc ▸ isDigit_digitChar h
      · rw [decimal_of_le (by omega), List.mem_append, List.mem_singleton] at hc
        rcases hc with hc | rfl
        · exact ih (n / 10) (by omega) c hc
        · exact isDigit_digitChar (Nat.mod_lt _ (by norm_num))

@[simp] theorem decVal_decimal (n : ℕ) : decVal (decimal n) = n := by
  induction n using Nat.strong_induction_on with
  | _ n ih =>
      by_cases h : n < 10
      · rw [decimal_of_lt h, decVal_singleton, digitVal_digitChar h]
      · rw [decimal_of_le (by omega), decVal_append, ih (n / 10) (by omega),
          decVal_singleton, digitVal_digitChar (Nat.mod_lt _ (by norm_num))]
        simp only [List.length_singleton, pow_one]
        omega

theorem decimal_ne_nil (n : ℕ) : decimal n ≠ [] := by
  by_cases h : n < 10
  · simp [decimal_of_lt h]
  · simp [decimal_of_le (by omega : 10 ≤ n)]

/-- A numeral of a number below `10 ^ w` has at most `w` digits. -/
theorem length_decimal_le {n w : ℕ} (h : n < 10 ^ (w + 1)) : (decimal n).length ≤ w + 1 := by
  induction w generalizing n with
  | zero => simp [decimal_of_lt (by simpa using h : n < 10)]
  | succ w ih =>
      by_cases hn : n < 10
      · simp [decimal_of_lt hn]
      · have hdiv : n / 10 < 10 ^ (w + 1) := by
          rw [Nat.div_lt_iff_lt_mul (by norm_num), ← pow_succ]
          exact h
        have := ih hdiv
        rw [decimal_of_le (by omega), List.length_append, List.length_singleton]
        omega

@[simp] theorem length_padded (w n : ℕ) : (padded w n).length = w := by
  induction w generalizing n with
  | zero => rfl
  | succ w ih => simp [padded, ih]

theorem padded_digit (w n : ℕ) : ∀ c ∈ padded w n, isDigit c = true := by
  induction w generalizing n with
  | zero => simp [padded]
  | succ w ih =>
      intro c hc
      rw [padded, List.mem_append, List.mem_singleton] at hc
      rcases hc with hc | rfl
      · exact ih (n / 10) c hc
      · exact isDigit_digitChar (Nat.mod_lt _ (by norm_num))

@[simp] theorem decVal_padded (w n : ℕ) : decVal (padded w n) = n % 10 ^ w := by
  induction w generalizing n with
  | zero => simp [padded, Nat.mod_one]
  | succ w ih =>
      rw [padded, decVal_append, ih, decVal_singleton,
        digitVal_digitChar (Nat.mod_lt _ (by norm_num)), pow_succ', Nat.mod_mul]
      simp only [List.length_singleton, pow_one]
      ring

example : decimal 1048576 = [49, 48, 52, 56, 53, 55, 54] := by decide

end Decimal
