import Exoredis.Keyspace.Table
import Exoredis.Server.RedisServer

/-!
# What the hash of a string reads

The first and the third pass of `stringHash` stay inside the string and its terminator. The
second counts down to `-1` and takes in the byte in front of the string, so the bucket of a
key depends on its bytes and on that byte, and on nothing else (`stringHash_eq_iff`).
-/

namespace Exoredis

/-! ## One step -/

theorem hashStep_mod (h : ℕ) (c : UInt8) :
    ((hashStep h c % INITIAL_SIZE : ℕ) : ℤ) = (33 * h + signedChar c) % 2048 := by
  have hsum : (((h <<< 5) + h : ℕ) : ℤ) + signedChar c = 33 * h + signedChar c := by
    rw [Nat.shiftLeft_eq]
    push_cast
    ring
  have hwrap : ((hashStep h c : ℕ) : ℤ) = (33 * h + signedChar c) % 2 ^ 64 := by
    rw [hashStep, hsum]
    exact Int.toNat_of_nonneg (Int.emod_nonneg _ (by decide))
  rw [Int.natCast_emod, hwrap]
  exact Int.emod_emod_of_dvd _ (by decide)

/-- A step tells the hashes in front of it apart, and the characters. -/
theorem hashStep_mod_iff {h h' : ℕ} (c : UInt8) :
    hashStep h c % INITIAL_SIZE = hashStep h' c % INITIAL_SIZE ↔
      h % INITIAL_SIZE = h' % INITIAL_SIZE := by
  rw [← Int.natCast_inj, hashStep_mod, hashStep_mod, ← Int.natCast_inj]
  unfold INITIAL_SIZE
  push_cast
  have hcancel : ∀ x : ℤ, (33 * h + x) % 2048 = (33 * h' + x) % 2048 ↔
      (h : ℤ) % 2048 = h' % 2048 := by
    intro x
    rw [Int.emod_eq_emod_iff_emod_sub_eq_zero, Int.emod_eq_emod_iff_emod_sub_eq_zero]
    omega
  exact hcancel _

theorem signedChar_injective : Function.Injective signedChar := by
  intro c c' h
  unfold signedChar at h
  have hc := c.toNat_lt
  have hc' := c'.toNat_lt
  rw [Int.bmod_def, Int.bmod_def] at h
  refine UInt8.toNat_inj.1 ?_
  split_ifs at h <;> omega

theorem signedChar_bounds (c : UInt8) : -128 ≤ signedChar c ∧ signedChar c < 128 := by
  unfold signedChar
  have hc := c.toNat_lt
  rw [Int.bmod_def]
  split_ifs <;> omega

theorem hashStep_char_iff (h : ℕ) (c c' : UInt8) :
    hashStep h c % INITIAL_SIZE = hashStep h c' % INITIAL_SIZE ↔ c = c' := by
  refine ⟨fun heq => signedChar_injective ?_, fun heq => by rw [heq]⟩
  have hc := signedChar_bounds c
  have hc' := signedChar_bounds c'
  rw [← Int.natCast_inj, hashStep_mod, hashStep_mod] at heq
  omega

/-! ## The passes -/

variable {m₁ m₂ : ℤ → UInt8} {len : ℕ}

/-- The bytes of a string with `len` characters and its terminator are the same. -/
def AgreeOn (len : ℕ) (m₁ m₂ : ℤ → UInt8) : Prop := ∀ i : ℕ, i ≤ len → m₁ i = m₂ i

theorem hashForward_congr (h : AgreeOn len m₁ m₂) (hend : m₁ len = 0) {l i : ℕ} (hi : i ≤ len)
    (hash : ℕ) : hashForward m₁ l i hash = hashForward m₂ l i hash := by
  induction l generalizing i hash with
  | zero => rfl
  | succ l ih =>
      rw [hashForward, hashForward, ← h i hi]
      by_cases hstop : m₁ i = 0
      · rw [if_pos hstop, if_pos hstop]
      · have hlt : i < len := by
          refine lt_of_le_of_ne hi ?_
          rintro rfl
          exact hstop hend
        rw [if_neg hstop, if_neg hstop]
        exact_mod_cast ih hlt _

theorem hashBackward_congr (h : AgreeOn len m₁ m₂) {n : ℕ} (hn : n ≤ len + 1) (hash : ℕ) :
    hashBackward m₁ n (n - 1) hash = hashBackward m₂ n (n - 1) hash := by
  induction n generalizing hash with
  | zero => rfl
  | succ n ih =>
      have hpos : ((n + 1 : ℕ) : ℤ) - 1 = n := by push_cast; ring
      rw [hashBackward, hashBackward, hpos, h n (by omega)]
      exact ih (by omega) _

/-- The last step of the second pass. -/
theorem hashBackward_succ (m : ℤ → UInt8) (n : ℕ) (p : ℤ) (hash : ℕ) :
    hashBackward m (n + 1) p hash = hashStep (hashBackward m n p hash) (m (p - n)) := by
  induction n generalizing p hash with
  | zero => simp [hashBackward]
  | succ n ih =>
      rw [hashBackward, ih, hashBackward]
      congr 2
      push_cast
      ring

theorem hashJump_congr (h : AgreeOn len m₁ m₂) (hlen : 0 < len) (l : ℕ) (c : UInt8) (hash : ℕ) :
    hashJump m₁ len l c hash = hashJump m₂ len l c hash := by
  induction l generalizing c hash with
  | zero => rfl
  | succ l ih =>
      have hread := h (((signedChar c - 65) % 2 ^ 64).toNat % len) (Nat.mod_lt _ hlen).le
      rw [hashJump, hashJump]
      simp only [hread]
      exact ih _ _

theorem hashJump_mod_iff (m : ℤ → UInt8) (l : ℕ) (c : UInt8) {h h' : ℕ} :
    hashJump m len l c h % INITIAL_SIZE = hashJump m len l c h' % INITIAL_SIZE ↔
      h % INITIAL_SIZE = h' % INITIAL_SIZE := by
  induction l generalizing c h h' with
  | zero => rfl
  | succ l ih =>
      rw [hashJump, hashJump, ih, hashStep_mod_iff]

/-! ## The bucket -/

theorem hashOf_eq_iff (h : AgreeOn len m₁ m₂) (hlen : 0 < len) (hend : m₁ len = 0) :
    hashOf m₁ len = hashOf m₂ len ↔ m₁ (-1) = m₂ (-1) := by
  have hzero := h 0 (Nat.zero_le _)
  have hmin : min len HASH_LEN ≤ len + 1 := (Nat.min_le_left _ _).trans (Nat.le_succ _)
  have hfront : ((min len HASH_LEN : ℕ) : ℤ) - 1 - (min len HASH_LEN : ℕ) = -1 := by ring
  have hforward := hashForward_congr h hend (l := HASH_LEN) (Nat.zero_le _) 5381
  unfold hashOf
  dsimp only
  rw [hashBackward_succ, hashBackward_succ, hfront, hashJump_congr h hlen]
  rw [show m₁ 0 = m₂ 0 from hzero, hashJump_mod_iff]
  rw [show hashForward m₁ HASH_LEN 0 5381 = hashForward m₂ HASH_LEN 0 5381 from hforward,
    hashBackward_congr h hmin, hashStep_char_iff]

theorem literalMemory_natCast (before : UInt8) (s : List UInt8) (i : ℕ) :
    literalMemory before s i = s.getD i 0 := by
  rw [literalMemory, if_pos (Int.natCast_nonneg i), Int.toNat_natCast]

theorem memory_natCast (key : ExoString) (i : ℕ) : key.memory i = key.buf.getD i 0 := by
  rw [ExoString.memory, if_pos (Int.natCast_nonneg i), Int.toNat_natCast]

/-- Two places in memory with the bytes of the same string have the same hash exactly if the
bytes in front of the string are the same. The bucket in which a command is registered is
the one that a token with its name is looked up in exactly if the byte in front of the
literal is the last byte of the length of the token. -/
theorem stringHash_eq_iff (s : List UInt8) (hs : s ≠ []) (m₁ m₂ : ℤ → UInt8)
    (h₁ : ∀ i : ℕ, i ≤ s.length → m₁ i = s.getD i 0)
    (h₂ : ∀ i : ℕ, i ≤ s.length → m₂ i = s.getD i 0) (u : Server) :
    (stringHash m₁ s.length u = stringHash m₂ s.length u ↔ m₁ (-1) = m₂ (-1)) ∧
      ∀ before id, (stringHash (literalMemory before s) s.length u =
          stringHash (ExoString.memory ⟨id, s⟩) s.length u ↔
        before = UInt8.ofNat (s.length / 256 ^ 7)) := by
  have hlen : 0 < s.length := List.length_pos_of_ne_nil hs
  have hpair : ∀ m m' : ℤ → UInt8, (∀ i : ℕ, i ≤ s.length → m i = s.getD i 0) →
      (∀ i : ℕ, i ≤ s.length → m' i = s.getD i 0) →
      (stringHash m s.length u = stringHash m' s.length u ↔ m (-1) = m' (-1)) := by
    intro m m' hm hm'
    have hagree : AgreeOn s.length m m' := fun i hi => (hm i hi).trans (hm' i hi).symm
    have hend : m s.length = 0 := by
      rw [hm _ le_rfl]
      simp
    rw [stringHash_eq_hashOf hlen.ne', stringHash_eq_hashOf hlen.ne', Except.ok.injEq,
      Prod.mk.injEq, and_iff_left rfl]
    exact hashOf_eq_iff hagree hlen hend
  refine ⟨hpair m₁ m₂ h₁ h₂, fun before id => ?_⟩
  exact hpair (literalMemory before s) (ExoString.memory ⟨id, s⟩)
    (fun i _ => literalMemory_natCast before s i) fun i _ => memory_natCast ⟨id, s⟩ i

/-- A literal behind a NUL byte and a token. -/
theorem stringHash_eq_iff_get :
    stringHash (literalMemory 0 (ascii "GET")) 3 (blankServer (fun _ => 0) none) =
      stringHash (ExoString.memory ⟨7, ascii "GET"⟩) 3 (blankServer (fun _ => 0) none) :=
  (stringHash_eq_iff (ascii "GET") (by decide) (literalMemory 0 (ascii "GET"))
    (ExoString.memory ⟨7, ascii "GET"⟩) (fun i _ => literalMemory_natCast 0 _ i)
    (fun i _ => memory_natCast ⟨7, ascii "GET"⟩ i) _).1.2 (by decide)

/-- A literal behind the letter `x` is registered in another bucket. -/
theorem stringHash_ne :
    (∀ i : ℕ, literalMemory 120 (ascii "GET") i = ExoString.memory ⟨7, ascii "GET"⟩ i) ∧
      (stringHash (literalMemory 120 (ascii "GET")) 3 (blankServer (fun _ => 0) none)).map
          Prod.fst ≠
        (stringHash (ExoString.memory ⟨7, ascii "GET"⟩) 3 (blankServer (fun _ => 0) none)).map
          Prod.fst := by
  refine ⟨fun i => ?_, by decide +kernel⟩
  rw [literalMemory_natCast, memory_natCast]

end Exoredis
