import Mathlib

/-!
# Scoreboards

A scoreboard is a store that knows the scores of its members and can put a member at a
score. A batch of pairs is worked off one after the other. With `only` the pairs of absent
members are held back, with `keep` those of present ones. `Along P` says that `P` holds
whenever the batch puts a member. A raise adds to the score of a member, or enters it.

On a lawful scoreboard a batch without either switch leaves every member with the score of
its last pair (`scoreOf_work`).
-/

structure Scoreboard (β μ σ : Type) where
  scoreOf : β → μ → Option σ
  put : β → μ → σ → β

namespace Scoreboard

variable {β μ σ : Type} (S : Scoreboard β μ σ)

def admits (only keep : Bool) (b : β) (m : μ) : Bool :=
  if (S.scoreOf b m).isSome then only || !keep else !only

def next (only keep : Bool) (b : β) (p : σ × μ) : β :=
  if S.admits only keep b p.2 then S.put b p.2 p.1 else b

def work (only keep : Bool) : β → List (σ × μ) → β
  | b, [] => b
  | b, p :: ps => work only keep (S.next only keep b p) ps

/-- The numbers of pairs that insert a member and of those that move one. -/
def tally (only keep : Bool) : β → List (σ × μ) → ℕ × ℕ
  | _, [] => (0, 0)
  | b, p :: ps =>
      let rest := tally only keep (S.next only keep b p) ps
      let n := (S.admits only keep b p.2).toNat
      if (S.scoreOf b p.2).isSome then (rest.1, rest.2 + n) else (rest.1 + n, rest.2)

def Along (P : β → μ → σ → Prop) (only keep : Bool) : β → List (σ × μ) → Prop
  | _, [] => True
  | b, p :: ps => (S.admits only keep b p.2 = true → P b p.2 p.1) ∧
      Along P only keep (S.next only keep b p) ps

instance decidableAlong (P : β → μ → σ → Prop) [∀ b m x, Decidable (P b m x)] (only keep : Bool) :
    ∀ b ps, Decidable (S.Along P only keep b ps)
  | _, [] => .isTrue trivial
  | b, p :: ps =>
      have := decidableAlong P only keep (S.next only keep b p) ps
      inferInstanceAs (Decidable ((_ → _) ∧ _))

/-- The score that a raise sets. -/
def raised [Zero σ] [Add σ] (b : β) (p : σ × μ) : σ := (S.scoreOf b p.2).getD 0 + p.1

/-- With `keep` a member that is present is not raised. -/
def raise [Zero σ] [Add σ] (keep : Bool) (b : β) (p : σ × μ) : Option σ × β :=
  if (S.scoreOf b p.2).isSome && keep then (none, b)
  else (some (S.raised b p), S.put b p.2 (S.raised b p))

variable {S} {P : β → μ → σ → Prop} {only keep : Bool}

theorem tally_cons (b : β) (p : σ × μ) (ps : List (σ × μ)) :
    S.tally only keep b (p :: ps) =
      ((S.admits only keep b p.2 && (S.scoreOf b p.2).isNone).toNat +
          (S.tally only keep (S.next only keep b p) ps).1,
        (S.admits only keep b p.2 && (S.scoreOf b p.2).isSome).toNat +
          (S.tally only keep (S.next only keep b p) ps).2) := by
  rw [tally]
  cases S.scoreOf b p.2 <;> simp [Nat.add_comm]

/-- What every allowed put keeps, an allowed batch keeps. -/
theorem work_invariant {I : β → Prop} (hput : ∀ b m x, I b → P b m x → I (S.put b m x)) {b : β}
    {ps : List (σ × μ)} (hb : I b) (hps : S.Along P only keep b ps) : I (S.work only keep b ps) := by
  induction ps generalizing b with
  | nil => exact hb
  | cons p ps ih =>
      refine ih ?_ hps.2
      rw [next]
      split
      · next hadmits => exact hput b p.2 p.1 hb (hps.1 hadmits)
      · exact hb

/-- What a put brings about and keeps holds behind a batch that puts anything. -/
theorem work_of_put {I : β → Prop} (hput : ∀ b m x, I (S.put b m x)) {b : β} {ps : List (σ × μ)}
    (hb : I b ∨ ∃ p ∈ ps.head?, S.admits only keep b p.2 = true) : I (S.work only keep b ps) := by
  induction ps generalizing b with
  | nil => exact hb.resolve_right fun ⟨_, hp, _⟩ => by cases hp
  | cons p ps ih =>
      refine ih (.inl ?_)
      rw [next]
      split
      · exact hput b p.2 p.1
      · next hadmits =>
          refine hb.resolve_right ?_
          rintro ⟨q, hq, hadmits'⟩
          cases hq
          exact hadmits hadmits'

section Lawful

variable [DecidableEq μ]

def Lawful (S : Scoreboard β μ σ) : Prop :=
  ∀ b m x k, S.scoreOf (S.put b m x) k = if k = m then some x else S.scoreOf b k

theorem scoreOf_work (hS : S.Lawful) (b : β) (ps : List (σ × μ)) (k : μ) :
    S.scoreOf (S.work false false b ps) k =
      ((ps.reverse.find? fun p => p.2 = k).map Prod.fst).or (S.scoreOf b k) := by
  induction ps generalizing b with
  | nil => rfl
  | cons p ps ih =>
      have hnext : S.next false false b p = S.put b p.2 p.1 := by
        rw [next, admits]
        split <;> rfl
      rw [work, ih, hnext, hS, List.reverse_cons, List.find?_append, Option.map_or, Option.or_assoc]
      congr 1
      by_cases hk : p.2 = k
      · simp [hk]
      · simp [hk, Ne.symm hk]

end Lawful

end Scoreboard
