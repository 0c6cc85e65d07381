import Exoredis.Library.Effect

/-!
# Computations that are watched

A `Watched σ ε π α` is a computation on a state that can be looked at on its way. Beside
its result it lists the points at which an observer can come upon it. `forget` leaves the
points out and commutes with sequencing, so a watched computation is checked step by step
against the plain one it watches.

`AtOnce look n p q ps` says of a computation that leads from the point `p` to the point
`q` by way of the points `ps`, with `n` changes on its way, that an observer who sees what
`look` shows finds it at the beginning or at the end if `n` is at most one. Two such
computations behind each other make `m + n` changes (`AtOnce.append`).
-/

def Watched (σ ε π α : Type) := σ → List π × Except ε (α × σ)

namespace Watched

variable {σ ε π ρ α β : Type}

instance : Monad (Watched σ ε π) where
  pure a := fun s => ([], .ok (a, s))
  bind x f := fun s =>
    match x s with
    | (ps, .ok (a, t)) => (ps ++ (f a t).1, (f a t).2)
    | (ps, .error e) => (ps, .error e)

/-- A computation that is not looked at. -/
def unseen (x : Effect σ ε α) : Watched σ ε π α := fun s => ([], x s)

/-- A computation behind which there is a point. -/
def marked (point : α → σ → π) (x : Effect σ ε α) : Watched σ ε π α := fun s =>
  match x s with
  | .ok (a, t) => ([point a t], .ok (a, t))
  | .error e => ([], .error e)

/-- A computation in front of which there is a point, also if it fails. -/
def entered (p : π) (x : Effect σ ε α) : Watched σ ε π α := fun s => ([p], x s)

/-- The points are looked at through `g`. -/
def mapPoints (g : π → ρ) (x : Watched σ ε π α) : Watched σ ε ρ α := fun s =>
  ((x s).1.map g, (x s).2)

def forget (x : Watched σ ε π α) : Effect σ ε α := fun s => (x s).2

/-! ## The computation that is watched -/

@[simp] theorem forget_pure (a : α) : (pure a : Watched σ ε π α).forget = pure a := rfl

@[simp] theorem forget_bind (x : Watched σ ε π α) (f : α → Watched σ ε π β) :
    (x >>= f).forget = x.forget >>= fun a => (f a).forget := by
  funext s
  rw [Effect.bind_run]
  simp only [forget, bind]
  rcases x s with ⟨ps, e | ⟨a, t⟩⟩ <;> rfl

@[simp] theorem forget_unseen (x : Effect σ ε α) :
    (unseen x : Watched σ ε π α).forget = x := rfl

@[simp] theorem forget_marked (point : α → σ → π) (x : Effect σ ε α) :
    (marked point x).forget = x := by
  funext s
  simp only [forget, marked]
  rcases x s with e | ⟨a, t⟩ <;> rfl

@[simp] theorem forget_entered (p : π) (x : Effect σ ε α) : (entered p x).forget = x := rfl

@[simp] theorem forget_mapPoints (g : π → ρ) (x : Watched σ ε π α) :
    (mapPoints g x).forget = x.forget := rfl

@[simp] theorem forget_ite (c : Prop) [Decidable c] (x y : Watched σ ε π α) :
    (if c then x else y).forget = if c then x.forget else y.forget := by
  split <;> rfl

/-- A run of the plain computation has points. -/
theorem exists_points {x : Watched σ ε π α} {s t : σ} {a : α}
    (h : x.forget s = .ok (a, t)) : ∃ ps, x s = (ps, .ok (a, t)) :=
  ⟨(x s).1, Prod.ext rfl h⟩

theorem forget_run {x : Watched σ ε π α} {s t : σ} {a : α} {ps : List π}
    (h : x s = (ps, .ok (a, t))) : x.forget s = .ok (a, t) :=
  congrArg Prod.snd h

/-! ## Runs with their points -/

theorem pure_eq_ok_iff {a b : α} {s t : σ} {ps : List π} :
    (pure a : Watched σ ε π α) s = (ps, .ok (b, t)) ↔ ps = [] ∧ a = b ∧ s = t := by
  simp only [pure, Prod.mk.injEq, Except.ok.injEq]
  tauto

/-- The points of a sequence are those of its halves, one behind the other. -/
theorem bind_eq_ok_iff {x : Watched σ ε π α} {f : α → Watched σ ε π β} {s t : σ} {b : β}
    {ps : List π} : (x >>= f) s = (ps, .ok (b, t)) ↔
      ∃ a s' ps₁ ps₂, x s = (ps₁, .ok (a, s')) ∧ f a s' = (ps₂, .ok (b, t)) ∧
        ps = ps₁ ++ ps₂ := by
  simp only [bind]
  constructor
  · intro h
    rcases hx : x s with ⟨ps₁, e | ⟨a, s'⟩⟩
    · simp [hx] at h
    · simp only [hx, Prod.mk.injEq] at h
      exact ⟨a, s', ps₁, (f a s').1, rfl, Prod.ext rfl h.2, h.1.symm⟩
  · rintro ⟨a, s', ps₁, ps₂, hx, hf, rfl⟩
    simp only [hx, hf]

theorem unseen_eq_ok_iff {x : Effect σ ε α} {s t : σ} {a : α} {ps : List π} :
    (unseen x : Watched σ ε π α) s = (ps, .ok (a, t)) ↔ ps = [] ∧ x s = .ok (a, t) := by
  simp only [unseen, Prod.mk.injEq]
  tauto

theorem marked_eq_ok_iff {point : α → σ → π} {x : Effect σ ε α} {s t : σ} {a : α}
    {ps : List π} : marked point x s = (ps, .ok (a, t)) ↔
      ps = [point a t] ∧ x s = .ok (a, t) := by
  simp only [marked]
  rcases x s with e | ⟨b, u⟩
  · simp
  · simp only [Prod.mk.injEq, Except.ok.injEq]
    constructor
    · rintro ⟨rfl, rfl, rfl⟩
      exact ⟨rfl, rfl, rfl⟩
    · rintro ⟨rfl, rfl, rfl⟩
      exact ⟨rfl, rfl, rfl⟩

theorem mapPoints_eq_ok_iff {g : π → ρ} {x : Watched σ ε π α} {s t : σ} {a : α}
    {ps : List ρ} : mapPoints g x s = (ps, .ok (a, t)) ↔
      ∃ qs, x s = (qs, .ok (a, t)) ∧ ps = qs.map g := by
  simp only [mapPoints, Prod.mk.injEq]
  constructor
  · rintro ⟨rfl, h⟩
    exact ⟨(x s).1, Prod.ext rfl h, rfl⟩
  · rintro ⟨qs, h, rfl⟩
    rw [h]
    exact ⟨rfl, rfl⟩

/-! ## What holds at every point -/

/-- Every point has `Q`, whether or not the computation fails. -/
def Always (Q : π → Prop) (x : Watched σ ε π α) : Prop := ∀ s, ∀ p ∈ (x s).1, Q p

namespace Always

variable {Q : π → Prop}

theorem pure (a : α) : Always Q (pure a : Watched σ ε π α) := fun _ _ h => by cases h

theorem unseen (x : Effect σ ε α) : Always Q (Watched.unseen x) := fun _ _ h => by cases h

theorem entered {p : π} (hp : Q p) (x : Effect σ ε α) : Always Q (Watched.entered p x) :=
  fun _ _ h => List.mem_singleton.1 h ▸ hp

theorem bind {x : Watched σ ε π α} {f : α → Watched σ ε π β} (hx : Always Q x)
    (hf : ∀ a, Always Q (f a)) : Always Q (x >>= f) := by
  intro s p hp
  simp only [Bind.bind] at hp
  have hfirst := hx s p
  rcases hrun : x s with ⟨ps, e | ⟨a, t⟩⟩
  · rw [hrun] at hp hfirst
    exact hfirst hp
  · rw [hrun] at hp hfirst
    rcases List.mem_append.1 hp with hmem | hmem
    · exact hfirst hmem
    · exact hf a t p hmem

end Always

/-! ## At most one change -/

/-- With at most one change on the way, every point looks like the beginning or the end;
with none the two look alike. -/
def AtOnce (look : π → β) (n : ℕ) (p q : π) (ps : List π) : Prop :=
  n ≤ 1 → (∀ r ∈ ps, look r = look p ∨ look r = look q) ∧ (n = 0 → look q = look p)

namespace AtOnce

variable {look : π → β} {m n : ℕ} {p q r : π} {ps qs : List π}

/-- Nothing is claimed of more than one change. -/
theorem of_one_lt (h : 1 < n) : AtOnce look n p q ps := fun hn => absurd hn (by omega)

theorem nil (h : look q = look p) : AtOnce look n p q [] :=
  fun _ => ⟨fun _ hr => absurd hr List.not_mem_nil, fun _ => h⟩

/-- A single step that makes one change or none. -/
theorem single (h : n = 0 → look q = look p) : AtOnce look n p q [q] :=
  fun _ => ⟨fun r hr => .inr (by rw [List.mem_singleton.1 hr]), h⟩

/-- The end may be looked at at once. -/
theorem congr_end {q' : π} (h : AtOnce look n p q ps) (hq : look q' = look q) :
    AtOnce look n p q' ps := by
  intro hn
  rw [hq]
  exact h hn

theorem append (h : AtOnce look m p q ps) (h' : AtOnce look n q r qs) :
    AtOnce look (m + n) p r (ps ++ qs) := by
  intro hmn
  obtain ⟨hps, hpq⟩ := h (by omega)
  obtain ⟨hqs, hqr⟩ := h' (by omega)
  refine ⟨fun x hx => ?_, fun h0 => ?_⟩
  · rcases List.mem_append.1 hx with hx | hx
    · rcases Nat.eq_zero_or_pos n with h0 | hpos
      · rw [hqr h0]
        exact hps x hx
      · have hx' := hps x hx
        rw [hpq (by omega), or_self] at hx'
        exact .inl hx'
    · rcases Nat.eq_zero_or_pos m with h0 | hpos
      · rw [← hpq h0]
        exact hqs x hx
      · have hx' := hqs x hx
        rw [hqr (by omega), or_self] at hx'
        exact .inr (by rw [hx', hqr (by omega)])
  · rw [hqr (by omega), hpq (by omega)]

/-- Points that look alike still do so through `g`. -/
theorem map {γ : Type} {look' : ρ → γ} {g : π → ρ}
    (hg : ∀ x y, look x = look y → look' (g x) = look' (g y)) (h : AtOnce look n p q ps) :
    AtOnce look' n (g p) (g q) (ps.map g) := by
  intro hn
  obtain ⟨hps, hpq⟩ := h hn
  refine ⟨List.forall_mem_map.2 fun x hx => ?_, fun h0 => hg _ _ (hpq h0)⟩
  rcases hps x hx with hx | hx
  · exact .inl (hg _ _ hx)
  · exact .inr (hg _ _ hx)

end AtOnce

end Watched
