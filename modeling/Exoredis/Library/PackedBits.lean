import Mathlib

/-!
# Bits packed in words

The bit at position `p` of a list of `w`-bit words is bit `p % w` of word `p / w`, and
it is unset behind the last word. Setting or clearing the bit in its word updates this
function at one position (`bitAt_set_or`, `bitAt_set_andNot`), and zero words at the end
leave it as it is.
-/

namespace PackedBits

variable {w : ℕ}

/-- The bit at position `p`. -/
def bitAt (mem : List (BitVec w)) (p : ℕ) : Bool := (mem.getD (p / w) 0).getLsbD (p % w)

@[simp] theorem bitAt_nil : bitAt ([] : List (BitVec w)) = fun _ => false := by
  funext p
  simp [bitAt]

theorem bitAt_of_le {mem : List (BitVec w)} {p : ℕ} (h : mem.length * w ≤ p) :
    bitAt mem p = false := by
  rcases Nat.eq_zero_or_pos w with rfl | hw
  · simp [bitAt]
  · have hword : mem.length ≤ p / w := (Nat.le_div_iff_mul_le hw).2 h
    rw [bitAt, List.getD_eq_default _ _ hword]
    exact BitVec.getLsbD_zero

/-- Zero words at the end hold no bit. -/
theorem bitAt_append_zero (mem : List (BitVec w)) (n : ℕ) :
    bitAt (mem ++ List.replicate n 0) = bitAt mem := by
  funext p
  rw [bitAt, bitAt]
  by_cases hp : p / w < mem.length
  · rw [List.getD_append _ _ _ _ hp]
  · rw [List.getD_append_right _ _ _ _ (not_lt.1 hp), List.getD_eq_default _ _ (not_lt.1 hp)]
    by_cases hn : p / w - mem.length < n
    · rw [List.getD_replicate _ hn]
    · rw [List.getD_eq_default _ _ (by simpa using not_lt.1 hn)]

theorem getLsbD_one_shiftLeft {k q : ℕ} (hk : k < w) (hq : q < w) :
    (1#w <<< k).getLsbD q = decide (q = k) := by
  rw [BitVec.getLsbD_shiftLeft, BitVec.getLsbD_one]
  rw [decide_eq_true hq, Bool.true_and, decide_eq_true (Nat.zero_lt_of_lt hk), Bool.true_and]
  by_cases hlt : q < k
  · simp [hlt, hlt.ne]
  · have hiff : q - k = 0 ↔ q = k := by omega
    simp [hlt, hiff]

section

variable {mem : List (BitVec w)} {p : ℕ}

/-- A changed word changes the bits at its own positions only. -/
theorem bitAt_set_word (hw : 0 < w) (hp : p / w < mem.length) {word : BitVec w} {b : Bool}
    (hword : ∀ q < w, word.getLsbD q = if q = p % w then b else (mem.getD (p / w) 0).getLsbD q) :
    bitAt (mem.set (p / w) word) = Function.update (bitAt mem) p b := by
  funext q
  rw [Function.update_apply, bitAt]
  by_cases hq : q / w = p / w
  · rw [hq, List.getD_eq_getElem?_getD, List.getElem?_set_self hp, Option.getD_some,
      hword _ (Nat.mod_lt _ hw)]
    have hiff : q % w = p % w ↔ q = p := by
      constructor
      · intro hmod
        rw [← Nat.div_add_mod q w, ← Nat.div_add_mod p w, hq, hmod]
      · rintro rfl
        rfl
    simp only [hiff]
    rw [bitAt, hq]
  · have hne : q ≠ p := by
      rintro rfl
      exact hq rfl
    rw [List.getD_eq_getElem?_getD, List.getElem?_set_ne (fun h => hq h.symm), if_neg hne, bitAt,
      List.getD_eq_getElem?_getD]

theorem bitAt_set_or (hw : 0 < w) (hp : p / w < mem.length) :
    bitAt (mem.set (p / w) (mem.getD (p / w) 0 ||| 1#w <<< (p % w))) =
      Function.update (bitAt mem) p true := by
  refine bitAt_set_word hw hp fun q hq => ?_
  rw [BitVec.getLsbD_or, getLsbD_one_shiftLeft (Nat.mod_lt _ hw) hq]
  by_cases hqp : q = p % w
  · simp [hqp]
  · simp [hqp]

theorem bitAt_set_andNot (hw : 0 < w) (hp : p / w < mem.length) :
    bitAt (mem.set (p / w) (mem.getD (p / w) 0 &&& ~~~(1#w <<< (p % w)))) =
      Function.update (bitAt mem) p false := by
  refine bitAt_set_word hw hp fun q hq => ?_
  rw [BitVec.getLsbD_and, BitVec.getLsbD_not, getLsbD_one_shiftLeft (Nat.mod_lt _ hw) hq]
  by_cases hqp : q = p % w
  · simp [hqp]
  · simp [hqp, hq]

/-- A bit is tested with the mask of its position. -/
theorem and_mask_ne_zero_iff (hw : 0 < w) :
    mem.getD (p / w) 0 &&& 1#w <<< (p % w) ≠ 0 ↔ bitAt mem p = true := by
  have hmod := Nat.mod_lt p hw
  constructor
  · intro hne
    by_contra hbit
    refine hne (BitVec.eq_of_getLsbD_eq fun q hq => ?_)
    rw [BitVec.getLsbD_and, getLsbD_one_shiftLeft hmod hq]
    by_cases hqp : q = p % w
    · rw [hqp]
      simpa [bitAt] using hbit
    · simp [hqp]
  · intro hbit hzero
    have hbit' : (mem.getD (p / w) 0 &&& 1#w <<< (p % w)).getLsbD (p % w) = false := by
      rw [hzero]
      exact BitVec.getLsbD_zero
    rw [BitVec.getLsbD_and, getLsbD_one_shiftLeft hmod hmod] at hbit'
    rw [bitAt] at hbit
    rw [hbit] at hbit'
    simp at hbit'

end

end PackedBits
