import Exoredis.Protocol.Grammar

/-!
# One pass of the RESP tokenizer

`getRespInt` returns the value of a numeral modulo `2 ^ 64`, and an error value
where no numeral stands. A pass of the main loop first moves to the next CR; what
it does there is decided by the bytes behind that CR (`respPass_eq_cut_iff`,
`respPass_eq_last_iff`).
-/

namespace Exoredis

open Decimal

variable {mem : ℕ → UInt8} {len : ℕ}

theorem getRespIntLoop_numeral {a b : ℕ} (h : Numeral mem len a b) {fuel : ℕ}
    (hfuel : b - a < fuel) (v : ℕ) :
    getRespIntLoop mem len fuel a (v % 2 ^ 64) =
      (slice mem a (b - a)).foldl push v % 2 ^ 64 := by
  induction fuel generalizing a v with
  | zero => omega
  | succ fuel ih =>
      rw [getRespIntLoop]
      rcases Nat.eq_or_lt_of_le h.le with rfl | hab
      · have hlf : ¬ (a + 1 < len ∧ mem (a + 1) ≠ 10) := fun hl => hl.2 (h.lf hl.1)
        rw [if_pos h.cr, if_neg hlf, Nat.sub_self]
        rfl
      · have hd := h.digits a le_rfl hab
        have hstop : ¬ (a ≥ len ∨ isDigit (mem a) = false) := by
          rintro (hl | hl)
          · omega
          · rw [hd.2] at hl
            exact absurd hl (by decide)
        have hpush : (v % 2 ^ 64 * 10 + digitVal (mem a)) % 2 ^ 64 =
            push v (mem a) % 2 ^ 64 := by
          unfold push
          omega
        rw [if_neg (h.ne_cr le_rfl hab), if_neg hstop, hpush,
          ih (h.tail hab) (by omega), show b - a = (b - (a + 1)) + 1 by omega, slice_succ]
        rfl

theorem getRespInt_numeral {a b : ℕ} (h : Numeral mem len a b) :
    getRespInt mem len a = numeralVal mem a b % 2 ^ 64 := by
  have hfuel : b - a < len - a + 1 := by
    have := h.sub_le
    omega
  have hloop := getRespIntLoop_numeral h hfuel 0
  simpa [getRespInt, numeralVal, decVal] using hloop

theorem numeral_of_getRespIntLoop {fuel a l : ℕ}
    (h : getRespIntLoop mem len fuel a l ≠ ULONG_MAX) : ∃ b, Numeral mem len a b := by
  induction fuel generalizing a l with
  | zero => exact absurd rfl h
  | succ fuel ih =>
      rw [getRespIntLoop] at h
      by_cases hcr : mem a = 13
      · rw [if_pos hcr] at h
        refine ⟨a, le_rfl, fun i h₁ h₂ => by omega, hcr, fun hl => ?_⟩
        by_contra hlf
        rw [if_pos ⟨hl, hlf⟩] at h
        exact h rfl
      · rw [if_neg hcr] at h
        by_cases hstop : a ≥ len ∨ isDigit (mem a) = false
        · rw [if_pos hstop] at h
          exact absurd rfl h
        · rw [if_neg hstop] at h
          obtain ⟨b, hb⟩ := ih h
          refine ⟨b, by have := hb.le; omega, fun i h₁ h₂ => ?_, hb.cr, hb.lf⟩
          rcases Nat.eq_or_lt_of_le h₁ with rfl | hi
          · exact ⟨by omega, by simpa using fun hd => hstop (.inr hd)⟩
          · exact hb.digits i hi h₂

theorem numeral_of_getRespInt {a : ℕ} (h : getRespInt mem len a ≠ ULONG_MAX) :
    ∃ b, Numeral mem len a b :=
  numeral_of_getRespIntLoop h

/-! ## Moving to the next CR -/

theorem skipToCr_of_cr {str fuel : ℕ} (h : mem str = 13) :
    skipToCr mem len fuel str = str := by
  cases fuel with
  | zero => rfl
  | succ fuel => simp [skipToCr, h]

/-- From the start of a numeral the next CR is the one that closes it. -/
theorem skipToCr_numeral {a b : ℕ} (h : Numeral mem len a b) :
    skipToCr mem len (len - a) a = b := by
  have hgen : ∀ fuel, b - a ≤ fuel → skipToCr mem len fuel a = b := by
    intro fuel
    induction fuel generalizing a with
    | zero =>
        intro hf
        have := h.le
        rw [skipToCr]
        omega
    | succ fuel ih =>
        intro hf
        rcases Nat.eq_or_lt_of_le h.le with rfl | hab
        · exact skipToCr_of_cr h.cr
        · have hd := h.digits a le_rfl hab
          rw [skipToCr, if_pos ⟨hd.1, h.ne_cr le_rfl hab⟩]
          exact ih (h.tail hab) (by omega)
  exact hgen (len - a) h.sub_le

theorem le_skipToCr (fuel str : ℕ) : str ≤ skipToCr mem len fuel str := by
  induction fuel generalizing str with
  | zero => exact le_rfl
  | succ fuel ih =>
      rw [skipToCr]
      split
      · exact le_trans (Nat.le_succ str) (ih (str + 1))
      · exact le_rfl

/-! ## The pass -/

/-- The pass cuts a token exactly where the next CR begins the header of a bulk
string, and the length modulo `2 ^ 64` passes the guard. -/
theorem respPass_eq_cut_iff {str pos l : ℕ} :
    respPass mem len str = .cut pos l ↔
      ∃ v, BulkHeader mem len (skipToCr mem len (len - str) str) v pos ∧
        l = v % 2 ^ 64 ∧ l ≠ ULONG_MAX ∧ (pos + l + 1) % 2 ^ 64 < len := by
  rw [respPass]
  generalize hc : skipToCr mem len (len - str) str = c
  constructor
  · intro h
    split at h
    next hcr =>
      split at h
      next hlt =>
        split at h
        next hdollar =>
          simp only at h
          split at h
          next => simp at h
          next hint =>
            split at h
            next hguard =>
              obtain ⟨b, hb⟩ := numeral_of_getRespInt hint
              rw [skipToCr_numeral hb, getRespInt_numeral hb] at h hguard
              rw [getRespInt_numeral hb] at hint
              simp only [Pass.cut.injEq] at h
              obtain ⟨rfl, rfl⟩ := h
              exact ⟨numeralVal mem (c + 3) b, ⟨hcr.1, hcr.2.2, hdollar, hlt,
                b, hb, rfl, rfl⟩, rfl, hint, hguard⟩
            next => simp at h
        next => simp at h
      next => simp at h
    next => simp at h
  · rintro ⟨v, hh, rfl, hmax, hguard⟩
    obtain ⟨b, hb, hv, hp⟩ := hh.numeral
    have hlt := hh.lt
    rw [if_pos ⟨hh.cr, by omega, hh.lf⟩, if_pos hh.lt, if_pos hh.dollar]
    simp only [skipToCr_numeral hb, getRespInt_numeral hb, ← hv, ← hp]
    rw [if_neg hmax, if_pos hguard]

/-- The pass ends the loop exactly where the next CR begins the last line end. -/
theorem respPass_eq_last_iff {str stop : ℕ} :
    respPass mem len str = .last stop ↔
      ∃ c, skipToCr mem len (len - str) str = c ∧ mem c = 13 ∧ mem (c + 1) = 10 ∧
        c + 2 = len ∧ stop = c + 1 := by
  rw [respPass]
  generalize hc : skipToCr mem len (len - str) str = c
  constructor
  · intro h
    split at h
    next hcr =>
      split at h
      next hlt =>
        split at h
        next hdollar =>
          simp only at h
          split at h
          · simp at h
          · split at h <;> simp at h
        next => simp at h
      next hlt =>
        simp only [Pass.last.injEq] at h
        exact ⟨c, rfl, hcr.1, hcr.2.2, by omega, h.symm⟩
    next => simp at h
  · rintro ⟨c, rfl, hcr, hlf, hlen, rfl⟩
    rw [if_pos ⟨hcr, by omega, hlf⟩, if_neg (by omega)]

end Exoredis
