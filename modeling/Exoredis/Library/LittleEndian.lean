import Mathlib

/-!
# Little-endian integers in a byte stream

`le w n` is `n` in `w` bytes, least significant first, and `ofLE` reads bytes
back. `takeBytes` and `takeLE` cut a fixed-width field off the front of a
stream; they fail on a stream that is too short. Each of them undoes the
corresponding writer on a stream that starts with what was written.
-/

namespace LittleEndian

/-- `n` in `w` bytes; what does not fit is dropped. -/
def le : ℕ → ℕ → List UInt8
  | 0, _ => []
  | w + 1, n => UInt8.ofNat n :: le w (n / 256)

def ofLE : List UInt8 → ℕ
  | [] => 0
  | b :: bs => b.toNat + 256 * ofLE bs

@[simp] theorem length_le (w n : ℕ) : (le w n).length = w := by
  induction w generalizing n with
  | zero => rfl
  | succ w ih => rw [le, List.length_cons, ih]

theorem ofLE_le {w n : ℕ} (h : n < 256 ^ w) : ofLE (le w n) = n := by
  induction w generalizing n with
  | zero =>
      have hn : n = 0 := by simpa using h
      simp [le, ofLE, hn]
  | succ w ih =>
      have hdiv : n / 256 < 256 ^ w := by
        rw [Nat.div_lt_iff_lt_mul (by norm_num), ← pow_succ]
        exact h
      rw [le, ofLE, ih hdiv]
      simp only [UInt8.toNat_ofNat']
      omega

/-! ## Reading from a stream -/

/-- The first `n` bytes of a stream and the rest. -/
def takeBytes (n : ℕ) (bytes : List UInt8) : Option (List UInt8 × List UInt8) :=
  if bytes.length < n then none else some (bytes.take n, bytes.drop n)

/-- A `w`-byte integer at the front of a stream and the rest. -/
def takeLE (w : ℕ) (bytes : List UInt8) : Option (ℕ × List UInt8) :=
  (takeBytes w bytes).map fun p => (ofLE p.1, p.2)

theorem takeBytes_append (a rest : List UInt8) :
    takeBytes a.length (a ++ rest) = some (a, rest) := by
  simp [takeBytes]

theorem takeBytes_eq_some_iff {n : ℕ} {bytes a rest : List UInt8} :
    takeBytes n bytes = some (a, rest) ↔ a.length = n ∧ bytes = a ++ rest := by
  constructor
  · intro h
    rw [takeBytes] at h
    split at h
    · simp at h
    · simp only [Option.some.injEq, Prod.mk.injEq] at h
      obtain ⟨rfl, rfl⟩ := h
      exact ⟨by simp; omega, (List.take_append_drop n bytes).symm⟩
  · rintro ⟨rfl, rfl⟩
    exact takeBytes_append a rest

theorem takeLE_le {w n : ℕ} (h : n < 256 ^ w) (rest : List UInt8) :
    takeLE w (le w n ++ rest) = some (n, rest) := by
  have htake : takeBytes w (le w n ++ rest) = some (le w n, rest) := by
    simpa using takeBytes_append (le w n) rest
  rw [takeLE, htake, Option.map_some, ofLE_le h]

/-- Reading takes something off the stream. -/
theorem length_lt_of_takeLE {w n : ℕ} {bytes rest : List UInt8} (hw : 0 < w)
    (h : takeLE w bytes = some (n, rest)) : rest.length < bytes.length := by
  rw [takeLE, Option.map_eq_some_iff] at h
  obtain ⟨⟨a, r⟩, htake, hp⟩ := h
  obtain ⟨ha, rfl⟩ := takeBytes_eq_some_iff.1 htake
  simp only [Prod.mk.injEq] at hp
  obtain ⟨-, rfl⟩ := hp
  rw [List.length_append]
  omega

/-! ## Arrays of words -/

/-- The words of an array, one after the other. -/
def leArray (w : ℕ) (words : List ℕ) : List UInt8 := words.flatMap (le w)

/-- The `w`-byte words of a byte string, read one after the other. -/
def ofLEArray (w : ℕ) : ℕ → List UInt8 → List ℕ
  | 0, _ => []
  | k + 1, bytes => ofLE (bytes.take w) :: ofLEArray w k (bytes.drop w)

@[simp] theorem length_leArray (w : ℕ) (words : List ℕ) :
    (leArray w words).length = w * words.length := by
  induction words with
  | nil => rfl
  | cons n words ih =>
      rw [leArray, List.flatMap_cons, List.length_append, length_le, ← leArray, ih,
        List.length_cons]
      ring

theorem ofLEArray_leArray {w : ℕ} {words : List ℕ} (h : ∀ n ∈ words, n < 256 ^ w) :
    ofLEArray w words.length (leArray w words) = words := by
  induction words with
  | nil => rfl
  | cons n words ih =>
      have hlen : w = (le w n).length := (length_le w n).symm
      have htake : (le w n ++ leArray w words).take w = le w n := by
        rw [List.take_append_of_le_length (by simp), List.take_of_length_le (by simp)]
      have hdrop : (le w n ++ leArray w words).drop w = leArray w words := by
        rw [List.drop_append_of_le_length (by simp), List.drop_of_length_le (by simp)]
        rfl
      rw [leArray, List.flatMap_cons, ← leArray, List.length_cons, ofLEArray, htake, hdrop,
        ofLE_le (h n (by simp)), ih fun m hm => h m (by simp [hm])]

end LittleEndian
