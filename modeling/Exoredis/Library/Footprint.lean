import Exoredis.Library.Machine

/-!
# Computations on maps with a footprint

A computation has the footprint `K` if it leaves what is outside of `K`, and its outcome is that
of any other map with the same entries in `K` (`Local`). Computations are built up from reads and
updates of keys in `K`. Inputs of a machine that work on different entries can be run in any
order, and have the outputs that they have without the other ones (`run_interleaves`).
-/

structure Local {κ β ε α : Type} (K : Set κ) (f : (κ → β) → Except ε (α × (κ → β))) : Prop where
  frame : ∀ {m r m'}, f m = .ok (r, m') → ∀ k ∉ K, m' k = m k
  agree : ∀ {m₁ m₂ r m₁'}, Set.EqOn m₁ m₂ K → f m₁ = .ok (r, m₁') →
    ∃ m₂', f m₂ = .ok (r, m₂') ∧ Set.EqOn m₁' m₂' K

namespace Local

variable {κ β ε α : Type} {K : Set κ} {f g : (κ → β) → Except ε (α × (κ → β))}

theorem error (e : ε) : Local K fun _ : κ → β => (.error e : Except ε (α × (κ → β))) where
  frame h := by cases h
  agree _ h := by cases h

theorem ok (a : α) : Local K fun m : κ → β => (.ok (a, m) : Except ε (α × (κ → β))) where
  frame h k _ := by
    cases h
    rfl
  agree hm h := by
    cases h
    exact ⟨_, rfl, hm⟩

theorem ite {p : Prop} [Decidable p] (hf : Local K f) (hg : Local K g) :
    Local K fun m => if p then f m else g m := by
  split
  · exact hf
  · exact hg

/-- A read of a key. -/
theorem read {k : κ} (hk : k ∈ K) {f : β → (κ → β) → Except ε (α × (κ → β))}
    (hf : ∀ b, Local K (f b)) : Local K fun m => f (m k) m where
  frame h := (hf _).frame h
  agree hm h := by
    rw [hm hk] at h
    exact (hf _).agree hm h

/-- An update of a key. -/
theorem update [DecidableEq κ] {k : κ} (hk : k ∈ K) (b : β) (hf : Local K f) :
    Local K fun m => f (Function.update m k b) where
  frame h k' hk' := by
    rw [hf.frame h k' hk', Function.update_of_ne]
    rintro rfl
    exact hk' hk
  agree {m₁ m₂ _ _} hm h := by
    refine hf.agree (fun k' hk' => ?_) h
    rw [Function.update_apply, Function.update_apply, hm hk']

theorem map {α' : Type} (hf : Local K f) (g : α → α') :
    Local K fun m => (f m).map fun p => (g p.1, p.2) where
  frame {m _ _} h := by
    cases hm : f m with
    | error e =>
        rw [hm] at h
        cases h
    | ok p =>
        rw [hm] at h
        cases h
        exact hf.frame hm
  agree {m₁ m₂ _ _} hagree h := by
    cases hm : f m₁ with
    | error e =>
        rw [hm] at h
        cases h
    | ok p =>
        rw [hm] at h
        cases h
        obtain ⟨m₂', hm₂, heq⟩ := hf.agree hagree hm
        refine ⟨m₂', ?_, heq⟩
        rw [hm₂]
        rfl

theorem mono {K' : Set κ} (hf : Local K f) (hK : K ⊆ K') : Local K' f where
  frame h k hk := hf.frame h k fun hmem => hk (hK hmem)
  agree {m₁ m₂ _ _} hm h := by
    obtain ⟨m₂', hm₂, heq⟩ := hf.agree (hm.mono hK) h
    refine ⟨m₂', hm₂, fun k hk => ?_⟩
    by_cases hmem : k ∈ K
    · exact heq hmem
    · rw [hf.frame h k hmem, hf.frame hm₂ k hmem, hm hk]

end Local

namespace Machine

variable {κ β ι ω ε : Type} {m : Machine (κ → β) ι ω ε} {footprint : ι → Set κ}
  (hlocal : ∀ i, Local (footprint i) fun x => m x i)

include hlocal

/-- The other entries are as they were. -/
theorem run_frame {x y : κ → β} {is : List ι} {os : List ω} (h : m.run x is = .ok (os, y)) {k : κ}
    (hk : ∀ i ∈ is, k ∉ footprint i) : y k = x k := by
  induction is generalizing x os with
  | nil =>
      cases h
      rfl
  | cons i is ih =>
      obtain ⟨o, x', os', hm, hr, -⟩ := run_cons_ok_iff.1 h
      rw [ih hr fun j hj => hk j (List.mem_cons_of_mem _ hj)]
      exact (hlocal i).frame hm k (hk i List.mem_cons_self)

/-- Every input works on the entries of its owner. If the inputs of every owner alone can be run,
so can all of them together, and every owner has the outputs of its own run. -/
theorem run_interleaves {γ : Type} [DecidableEq γ] {owner : ι → γ} {keys : γ → Set κ}
    (hdisjoint : Pairwise fun c d => Disjoint (keys c) (keys d)) {is : List ι}
    (howns : ∀ i ∈ is, footprint i ⊆ keys (owner i)) {x : κ → β} {xs : γ → κ → β}
    (hx : ∀ c, Set.EqOn x (xs c) (keys c)) {os : γ → List ω}
    (h : ∀ c, ∃ y, m.run (xs c) (is.filter fun i => owner i = c) = .ok (os c, y)) :
    ∃ o y, m.run x is = .ok (o, y) ∧
      ∀ c, ((is.zip o).filter fun p => owner p.1 = c).map Prod.snd = os c := by
  induction is generalizing x xs os with
  | nil =>
      refine ⟨[], x, rfl, fun c => ?_⟩
      obtain ⟨y, hrun⟩ := h c
      exact (Prod.mk.inj (Except.ok.inj hrun)).1
  | cons i is ih =>
      obtain ⟨y, hown⟩ := h (owner i)
      rw [List.filter_cons_of_pos (by simp)] at hown
      obtain ⟨o, z, os', hm, hr, hos⟩ := run_cons_ok_iff.1 hown
      obtain ⟨z', hm', hz⟩ := ((hlocal i).mono (howns i List.mem_cons_self)).agree
        (hx (owner i)).symm hm
      have hz' : ∀ c, Set.EqOn z' (Function.update xs (owner i) z c) (keys c) := by
        intro c
        rcases eq_or_ne c (owner i) with rfl | hne
        · rw [Function.update_self]
          exact hz.symm
        · rw [Function.update_of_ne hne]
          intro k hk
          rw [(hlocal i).frame hm' k fun hmem =>
            Set.disjoint_left.1 (hdisjoint hne) hk (howns i List.mem_cons_self hmem), hx c hk]
      have hrest : ∀ c, ∃ y, m.run (Function.update xs (owner i) z c)
          (is.filter fun i => owner i = c) = .ok (Function.update os (owner i) os' c, y) := by
        intro c
        rcases eq_or_ne c (owner i) with rfl | hne
        · rw [Function.update_self, Function.update_self]
          exact ⟨y, hr⟩
        · rw [Function.update_of_ne hne, Function.update_of_ne hne]
          obtain ⟨y, hrun⟩ := h c
          rw [List.filter_cons_of_neg (by simpa using hne.symm)] at hrun
          exact ⟨y, hrun⟩
      obtain ⟨outputs, y, hrun, houtputs⟩ := ih
        (fun j hj => howns j (List.mem_cons_of_mem _ hj)) hz' hrest
      refine ⟨o :: outputs, y, run_cons_ok_iff.2 ⟨o, z', outputs, hm', hrun, rfl⟩, fun c => ?_⟩
      have hc := houtputs c
      rcases eq_or_ne c (owner i) with rfl | hne
      · rw [Function.update_self] at hc
        rw [List.zip_cons_cons, List.filter_cons_of_pos (by simp), List.map_cons, hc,
          hos]
      · rw [Function.update_of_ne hne] at hc
        rw [List.zip_cons_cons, List.filter_cons_of_neg (by simpa using hne.symm), hc]

end Machine
