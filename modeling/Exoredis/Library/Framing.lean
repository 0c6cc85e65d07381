import Mathlib

/-!
# Streams of framed values

A framing writes values one behind the other. If every value can be taken off the front of
whatever follows it, a stream of values is split in one way only: it is decoded to the values
that were written (`decodeAll_encodeAll`), and no two streams are alike (`encodeAll_injOn`).
-/

/-- An encoding whose values are taken off the front of a stream. -/
structure Framing (α β : Type) where
  encode : α → List β
  decode : List β → Option (α × List β)
  Valid : α → Prop
  ne_nil : ∀ a, Valid a → encode a ≠ []
  decode_encode : ∀ a rest, Valid a → decode (encode a ++ rest) = some (a, rest)

namespace Framing

variable {α β : Type} (F : Framing α β)

def encodeAll (as : List α) : List β := as.flatMap F.encode

/-- Takes values off a stream until it is empty. -/
def decodeLoop : ℕ → List β → Option (List α)
  | _, [] => some []
  | 0, _ :: _ => none
  | fuel + 1, b :: bs => do
      let p ← F.decode (b :: bs)
      let as ← decodeLoop fuel p.2
      return p.1 :: as

/-- Every value takes at least one element of the stream. -/
def decodeAll (bs : List β) : Option (List α) := F.decodeLoop bs.length bs

variable {F}

theorem decodeLoop_encodeAll {as : List α} (h : ∀ a ∈ as, F.Valid a) {fuel : ℕ}
    (hfuel : (F.encodeAll as).length ≤ fuel) : F.decodeLoop fuel (F.encodeAll as) = some as := by
  induction as generalizing fuel with
  | nil =>
      change F.decodeLoop fuel [] = _
      cases fuel <;> rfl
  | cons a as ih =>
      have ha := h a List.mem_cons_self
      have hcons : F.encodeAll (a :: as) = F.encode a ++ F.encodeAll as := rfl
      have hpos := List.length_pos_of_ne_nil (F.ne_nil a ha)
      rw [hcons, List.length_append] at hfuel
      obtain ⟨fuel, rfl⟩ := Nat.exists_eq_succ_of_ne_zero (show fuel ≠ 0 by omega)
      obtain ⟨b, bs, hbs⟩ := List.exists_cons_of_ne_nil (F.ne_nil a ha)
      have hdecode := F.decode_encode a (F.encodeAll as) ha
      have hrest := ih (fun a ha => h a (List.mem_cons_of_mem _ ha)) (show _ ≤ fuel by omega)
      rw [hbs, List.cons_append] at hdecode
      rw [hcons, hbs, List.cons_append, decodeLoop, hdecode, Option.bind_eq_bind, Option.bind_some]
      simp only [hrest]
      rfl

/-- A stream of values is decoded to them. -/
theorem decodeAll_encodeAll {as : List α} (h : ∀ a ∈ as, F.Valid a) :
    F.decodeAll (F.encodeAll as) = some as :=
  decodeLoop_encodeAll h le_rfl

theorem encodeAll_injOn : Set.InjOn F.encodeAll { as | ∀ a ∈ as, F.Valid a } := by
  intro as ha bs hb heq
  have hdecode := decodeAll_encodeAll ha
  rw [heq, decodeAll_encodeAll hb] at hdecode
  exact (Option.some.inj hdecode).symm

end Framing
