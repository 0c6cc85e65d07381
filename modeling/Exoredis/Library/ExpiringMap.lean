import Mathlib

/-!
# Maps whose entries expire

An entry carries the last time at which it counts. Two maps agree at a time if
they have the same entries that still count; they then agree at every later time,
so an expired entry may be dropped at any moment or never.
-/

/-- A map from keys to values with the last time at which they count. -/
abbrev ExpiringMap (κ ν : Type) := κ → Option (ν × ℕ)

namespace ExpiringMap

variable {κ ν : Type}

def empty : ExpiringMap κ ν := fun _ => none

/-- The entry of a key at time `now`, where expired entries count as absent. -/
def entryAt (m : ExpiringMap κ ν) (now : ℕ) (k : κ) : Option (ν × ℕ) :=
  (m k).filter fun e => now ≤ e.2

/-- The same entries count at time `now`. -/
def AgreeAt (now : ℕ) (m m' : ExpiringMap κ ν) : Prop := ∀ k, m.entryAt now k = m'.entryAt now k

theorem entryAt_eq_some_iff {m : ExpiringMap κ ν} {now : ℕ} {k : κ} {e : ν × ℕ} :
    m.entryAt now k = some e ↔ m k = some e ∧ now ≤ e.2 := by
  rw [entryAt, Option.filter_eq_some_iff]
  simp

theorem entryAt_eq_none_iff {m : ExpiringMap κ ν} {now : ℕ} {k : κ} :
    m.entryAt now k = none ↔ ∀ e, m k = some e → e.2 < now := by
  rw [entryAt, Option.filter_eq_none_iff]
  simp

theorem entryAt_later {m : ExpiringMap κ ν} {now later : ℕ} (h : now ≤ later) (k : κ) :
    m.entryAt later k = (m.entryAt now k).filter fun e => later ≤ e.2 := by
  have hdrop : (fun e : ν × ℕ => decide (later ≤ e.2)) =
      fun e => decide (now ≤ e.2) && decide (later ≤ e.2) := by
    funext e
    by_cases hlater : later ≤ e.2
    · simp [hlater, le_trans h hlater]
    · simp [hlater]
  rw [entryAt, entryAt, Option.filter_filter, hdrop]

theorem AgreeAt.later {m m' : ExpiringMap κ ν} {now later : ℕ} (hm : AgreeAt now m m')
    (h : now ≤ later) : AgreeAt later m m' := by
  intro k
  rw [entryAt_later h, entryAt_later h, hm k]

variable [DecidableEq κ]

def insert (m : ExpiringMap κ ν) (k : κ) (e : ν × ℕ) : ExpiringMap κ ν :=
  Function.update m k (some e)

def erase (m : ExpiringMap κ ν) (k : κ) : ExpiringMap κ ν := Function.update m k none

theorem AgreeAt.update {m m' : ExpiringMap κ ν} {now : ℕ} (hm : AgreeAt now m m') (k : κ)
    (e : Option (ν × ℕ)) : AgreeAt now (Function.update m k e) (Function.update m' k e) := by
  intro k'
  have hk := hm k'
  unfold entryAt at hk ⊢
  by_cases h : k' = k
  · subst h
    rw [Function.update_self, Function.update_self]
  · rwa [Function.update_of_ne h, Function.update_of_ne h]

/-- Dropping an entry that does not count changes nothing. -/
theorem agreeAt_erase {m : ExpiringMap κ ν} {now : ℕ} {k : κ} (h : m.entryAt now k = none) :
    AgreeAt now m (m.erase k) := by
  intro k'
  by_cases hk : k' = k
  · subst hk
    rw [h, entryAt, erase, Function.update_self]
    rfl
  · rw [entryAt, entryAt, erase, Function.update_of_ne hk]

end ExpiringMap
