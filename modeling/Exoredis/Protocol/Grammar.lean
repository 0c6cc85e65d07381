import Exoredis.Server.RedisServer

/-!
# The RESP grammar

`RespArray strs bytes` says what a RESP array of bulk strings is: a count, and
for every string its length and its bytes, each line ended by CRLF. Numerals may
be empty or padded with zeros, and their values are unbounded. What
`writeRespArrayToBuffer` emits is such an array.

The tokenizer reads memory through positions, so the second half puts the
ingredients of the grammar there: `Numeral mem len a b` is a numeral at
`[a, b)` closed by a CR, and `BulkHeader` the line that announces a string.
-/

namespace Exoredis

open Decimal

/-! ## Slices of memory -/

section Slice

variable (mem : ℕ → UInt8)

@[simp] theorem length_slice (pos n : ℕ) : (slice mem pos n).length = n := by
  simp [slice]

@[simp] theorem slice_zero (pos : ℕ) : slice mem pos 0 = [] := rfl

theorem slice_add (pos m n : ℕ) :
    slice mem pos (m + n) = slice mem pos m ++ slice mem (pos + m) n := by
  simp only [slice, List.range_add, List.map_append, List.map_map]
  congr 1
  apply List.map_congr_left
  intro i _
  simp [Nat.add_assoc]

theorem slice_succ (pos n : ℕ) : slice mem pos (n + 1) = mem pos :: slice mem (pos + 1) n := by
  rw [Nat.add_comm n 1, slice_add]
  simp [slice]

theorem slice_eq_append_iff (pos n : ℕ) (xs ys : List UInt8) :
    slice mem pos n = xs ++ ys ↔
      ∃ k, n = xs.length + k ∧ slice mem pos xs.length = xs ∧
        slice mem (pos + xs.length) k = ys := by
  constructor
  · intro h
    have hlen : n = xs.length + ys.length := by
      simpa using congrArg List.length h
    refine ⟨ys.length, hlen, ?_⟩
    rw [hlen, slice_add] at h
    exact List.append_inj h (by simp)
  · rintro ⟨k, rfl, hx, hy⟩
    rw [slice_add, hx, hy]

theorem slice_eq_cons_iff (pos n : ℕ) (x : UInt8) (ys : List UInt8) :
    slice mem pos n = x :: ys ↔
      ∃ k, n = k + 1 ∧ mem pos = x ∧ slice mem (pos + 1) k = ys := by
  constructor
  · intro h
    cases n with
    | zero => simp at h
    | succ k =>
        rw [slice_succ, List.cons.injEq] at h
        exact ⟨k, rfl, h.1, h.2⟩
  · rintro ⟨k, rfl, rfl, rfl⟩
    exact slice_succ mem pos k

theorem mem_slice_iff (pos n : ℕ) (c : UInt8) :
    c ∈ slice mem pos n ↔ ∃ i, pos ≤ i ∧ i < pos + n ∧ mem i = c := by
  simp only [slice, List.mem_map, List.mem_range]
  constructor
  · rintro ⟨i, hi, rfl⟩
    exact ⟨pos + i, by omega, by omega, rfl⟩
  · rintro ⟨i, h₁, h₂, rfl⟩
    exact ⟨i - pos, by omega, by rw [Nat.add_sub_cancel' h₁]⟩

end Slice

/-! ## Arrays as bytes -/

def IsNumeral (d : List UInt8) : Prop := ∀ c ∈ d, isDigit c = true

/-- The bulk strings of an array, one after the other. -/
inductive BulkStrings : List (List UInt8) → List UInt8 → Prop
  | nil : BulkStrings [] []
  | cons {d t : List UInt8} {ts : List (List UInt8)} {bytes : List UInt8} :
      IsNumeral d → decVal d = t.length → BulkStrings ts bytes →
        BulkStrings (t :: ts) (36 :: d ++ crlf ++ t ++ crlf ++ bytes)

theorem BulkStrings.length_le {strs : List (List UInt8)} {bytes : List UInt8}
    (h : BulkStrings strs bytes) : strs.length ≤ bytes.length := by
  induction h with
  | nil => exact le_rfl
  | cons _ _ _ ih =>
      simp only [List.length_cons, List.length_append]
      omega

def RespArray (strs : List (List UInt8)) (bytes : List UInt8) : Prop :=
  ∃ d body, IsNumeral d ∧ decVal d = strs.length ∧ BulkStrings strs body ∧
    bytes = 42 :: d ++ crlf ++ body

theorem bulkStrings_flatMap_writeBulk (args : ArgList) :
    BulkStrings (args.map fun node => node.key.buf)
      (args.flatMap fun node => writeBulk node.key.buf) := by
  induction args with
  | nil => exact .nil
  | cons node args ih =>
      have h := BulkStrings.cons (d := decimal node.key.buf.length) (t := node.key.buf)
        (decimal_digit _) (decVal_decimal _) ih
      simpa [writeBulk, numberToString] using h

/-- The encoder of replies writes RESP arrays. -/
theorem respArray_writeRespArray (args : ArgList) :
    RespArray (args.map fun node => node.key.buf) (writeRespArray args) := by
  refine ⟨decimal args.length, _, decimal_digit _, ?_, bulkStrings_flatMap_writeBulk args, ?_⟩
  · simp
  · simp [writeRespArray, numberToString]

/-! ## Numerals in memory -/

/-- The bytes at `[a, b)` are digits, all of them received, and a CR follows. The
byte behind the CR is a LF unless the CR is the last byte received. -/
structure Numeral (mem : ℕ → UInt8) (len a b : ℕ) : Prop where
  le : a ≤ b
  digits : ∀ i, a ≤ i → i < b → i < len ∧ isDigit (mem i) = true
  cr : mem b = 13
  lf : b + 1 < len → mem (b + 1) = 10

/-- The value of the numeral at `[a, b)`. -/
def numeralVal (mem : ℕ → UInt8) (a b : ℕ) : ℕ := decVal (slice mem a (b - a))

theorem isDigit_cr : isDigit 13 = false := by decide

namespace Numeral

variable {mem : ℕ → UInt8} {len a b : ℕ}

theorem ne_cr (h : Numeral mem len a b) {i : ℕ} (ha : a ≤ i) (hb : i < b) : mem i ≠ 13 := by
  intro hi
  have := (h.digits i ha hb).2
  rw [hi, isDigit_cr] at this
  exact absurd this (by decide)

/-- A numeral ends at the first CR, so its end is determined. -/
theorem end_unique (h : Numeral mem len a b) {b' : ℕ} (h' : Numeral mem len a b') : b = b' := by
  rcases Nat.lt_trichotomy b b' with hlt | heq | hlt
  · exact absurd h.cr (h'.ne_cr h.le hlt)
  · exact heq
  · exact absurd h'.cr (h.ne_cr h'.le hlt)

theorem isNumeral (h : Numeral mem len a b) : IsNumeral (slice mem a (b - a)) := by
  intro c hc
  obtain ⟨i, h₁, h₂, rfl⟩ := (mem_slice_iff mem a (b - a) c).1 hc
  exact (h.digits i h₁ (by have := h.le; omega)).2

theorem sub_le (h : Numeral mem len a b) : b - a ≤ len - a := by
  rcases Nat.lt_or_ge a b with hab | hab
  · have := (h.digits (b - 1) (by omega) (by omega)).1
    omega
  · omega

theorem tail (h : Numeral mem len a b) (hab : a < b) : Numeral mem len (a + 1) b :=
  ⟨hab, fun i h₁ h₂ => h.digits i (by omega) h₂, h.cr, h.lf⟩

end Numeral

/-- At the CR `c` begins the header of a bulk string of length `v`, and its bytes
begin at `pos`. -/
structure BulkHeader (mem : ℕ → UInt8) (len c v pos : ℕ) : Prop where
  cr : mem c = 13
  lf : mem (c + 1) = 10
  dollar : mem (c + 2) = 36
  lt : c + 2 < len
  numeral : ∃ b, Numeral mem len (c + 3) b ∧ v = numeralVal mem (c + 3) b ∧ pos = b + 2

namespace BulkHeader

variable {mem : ℕ → UInt8} {len c v pos v' pos' : ℕ}

theorem unique (h : BulkHeader mem len c v pos) (h' : BulkHeader mem len c v' pos') :
    v = v' ∧ pos = pos' := by
  obtain ⟨b, hb, hv, hp⟩ := h.numeral
  obtain ⟨b', hb', hv', hp'⟩ := h'.numeral
  obtain rfl := hb.end_unique hb'
  exact ⟨hv.trans hv'.symm, hp.trans hp'.symm⟩

theorem lt_pos (h : BulkHeader mem len c v pos) : c + 5 ≤ pos := by
  obtain ⟨b, hb, -, rfl⟩ := h.numeral
  have := hb.le
  omega

/-- A length of more than `k` digits takes more than `k` bytes to announce. -/
theorem value_lt (h : BulkHeader mem len c v pos) : v < 10 ^ (pos - (c + 5)) := by
  obtain ⟨b, hb, rfl, rfl⟩ := h.numeral
  have hlen : b + 2 - (c + 5) = b - (c + 3) := by omega
  have hval := decVal_lt hb.isNumeral
  rw [length_slice] at hval
  rw [hlen]
  exact hval

end BulkHeader

end Exoredis
