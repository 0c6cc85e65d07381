import Exoredis.Library.Scoreboard

/-!
# Rankings

A ranking keeps the pairs of scores and members in the order of their ranks, with one pair for
a member. To put a member at a score is to take its pair out and to insert the new one where it
belongs. Rankings are lawful scoreboards (`lawful_board`), and a ranking is known by its scores
(`ext_scoreOf`).
-/

structure Ranking {σ μ ρ : Type} [LinearOrder ρ] (rank : σ × μ ↪ ρ) where
  pairs : List (σ × μ)
  sorted : pairs.Pairwise fun p q => rank p < rank q
  distinct : (pairs.map Prod.snd).Nodup

namespace Ranking

variable {σ μ ρ : Type} [LinearOrder ρ] {rank : σ × μ ↪ ρ}

@[ext] theorem ext {r r' : Ranking rank} (h : r.pairs = r'.pairs) : r = r' := by
  cases r
  cases r'
  cases h
  rfl

def empty : Ranking rank := ⟨[], List.Pairwise.nil, List.nodup_nil⟩

def size (r : Ranking rank) : ℕ := r.pairs.length

/-- The pairs with `p` at its rank. -/
def insertPair (rank : σ × μ ↪ ρ) (p : σ × μ) (ps : List (σ × μ)) : List (σ × μ) :=
  ps.orderedInsert (fun q r => rank q ≤ rank r) p

theorem sorted_insertPair {p : σ × μ} {ps : List (σ × μ)}
    (hps : ps.Pairwise fun q r => rank q < rank r) (hp : p ∉ ps) :
    (insertPair rank p ps).Pairwise fun q r => rank q < rank r := by
  induction ps with
  | nil => exact List.pairwise_singleton _ _
  | cons q ps ih =>
      have hne : rank p ≠ rank q := fun heq => hp (rank.injective heq ▸ List.mem_cons_self)
      rw [List.pairwise_cons] at hps
      rw [insertPair, List.orderedInsert]
      split
      · next hle =>
          have hlt := lt_of_le_of_ne hle hne
          refine List.pairwise_cons.2 ⟨fun r hr => ?_, List.pairwise_cons.2 hps⟩
          rcases List.mem_cons.1 hr with rfl | hr
          · exact hlt
          · exact hlt.trans (hps.1 r hr)
      · next hle =>
          refine List.pairwise_cons.2 ⟨fun r hr => ?_, ih hps.2 fun h => hp (List.mem_cons_of_mem _ h)⟩
          rcases List.mem_cons.1 ((List.perm_orderedInsert _ _ _).mem_iff.1 hr) with rfl | hr
          · exact not_le.1 hle
          · exact hps.1 r hr

variable [DecidableEq μ]

/-- The pairs of the other members. -/
def without (r : Ranking rank) (m : μ) : List (σ × μ) := r.pairs.filter fun p => p.2 ≠ m

theorem mem_without {r : Ranking rank} {m : μ} {p : σ × μ} :
    p ∈ r.without m ↔ p ∈ r.pairs ∧ p.2 ≠ m := by
  simp [without]

/-- The member at a new score. -/
def put (r : Ranking rank) (m : μ) (x : σ) : Ranking rank where
  pairs := insertPair rank (x, m) (r.without m)
  sorted := sorted_insertPair (r.sorted.filter _) fun h => (mem_without.1 h).2 rfl
  distinct := by
    refine (((List.perm_orderedInsert _ _ _).map Prod.snd).nodup_iff).2 (List.nodup_cons.2 ⟨?_, ?_⟩)
    · rintro hm
      obtain ⟨p, hp, hpm⟩ := List.mem_map.1 hm
      exact (mem_without.1 hp).2 hpm
    · exact r.distinct.sublist ((List.filter_sublist).map Prod.snd)

theorem mem_put {r : Ranking rank} {m : μ} {x : σ} {p : σ × μ} :
    p ∈ (r.put m x).pairs ↔ p = (x, m) ∨ p ∈ r.pairs ∧ p.2 ≠ m := by
  rw [← mem_without, ← List.mem_cons]
  exact (List.perm_orderedInsert _ _ _).mem_iff

def scoreOf (r : Ranking rank) (m : μ) : Option σ :=
  (r.pairs.find? fun p => p.2 = m).map Prod.fst

theorem scoreOf_eq_some_iff {r : Ranking rank} {m : μ} {x : σ} :
    r.scoreOf m = some x ↔ (x, m) ∈ r.pairs := by
  rw [scoreOf, Option.map_eq_some_iff]
  constructor
  · rintro ⟨p, hp, rfl⟩
    have hm : p.2 = m := by simpa using List.find?_some hp
    exact hm ▸ List.mem_of_find?_eq_some hp
  · intro hx
    obtain ⟨p, hp⟩ := Option.isSome_iff_exists.1
      (List.find?_isSome.2 ⟨(x, m), hx, decide_eq_true rfl⟩ :
        (r.pairs.find? fun p => p.2 = m).isSome = true)
    have hm : p.2 = m := by simpa using List.find?_some hp
    have heq := List.inj_on_of_nodup_map r.distinct (List.mem_of_find?_eq_some hp) hx hm
    exact ⟨p, hp, by rw [heq]⟩

theorem scoreOf_eq_none_iff {r : Ranking rank} {m : μ} :
    r.scoreOf m = none ↔ ∀ p ∈ r.pairs, p.2 ≠ m := by
  rw [scoreOf, Option.map_eq_none_iff, List.find?_eq_none]
  simp

/-- Rankings as scoreboards. -/
def board (rank : σ × μ ↪ ρ) : Scoreboard (Ranking rank) μ σ := ⟨scoreOf, put⟩

theorem lawful_board : (board rank).Lawful := by
  intro r m x k
  change (r.put m x).scoreOf k = if k = m then some x else r.scoreOf k
  ext y
  rw [scoreOf_eq_some_iff, mem_put]
  by_cases hk : k = m
  · simp [hk, eq_comm]
  · simp [hk, scoreOf_eq_some_iff]

/-- Rankings with the same scores are the same. -/
theorem ext_scoreOf {r r' : Ranking rank} (h : ∀ m, r.scoreOf m = r'.scoreOf m) : r = r' := by
  have hmem : ∀ p : σ × μ, p ∈ r.pairs ↔ p ∈ r'.pairs := fun p => by
    rw [← scoreOf_eq_some_iff, ← scoreOf_eq_some_iff, h]
  have hperm : r.pairs.Perm r'.pairs :=
    (List.perm_ext_iff_of_nodup (r.distinct.of_map _) (r'.distinct.of_map _)).2 hmem
  exact ext (hperm.eq_of_pairwise
    (fun p q _ _ hpq hqp => absurd (hpq.trans hqp) (lt_irrefl _)) r.sorted r'.sorted)

/-- The ranking that the pairs make when they are put one after the other. -/
def ofPairs (rank : σ × μ ↪ ρ) (ps : List (σ × μ)) : Ranking rank :=
  ps.foldl (fun r p => r.put p.2 p.1) empty

theorem ofPairs_concat (ps : List (σ × μ)) (p : σ × μ) :
    ofPairs rank (ps ++ [p]) = (ofPairs rank ps).put p.2 p.1 := by
  rw [ofPairs, List.foldl_append]
  rfl

theorem mem_of_mem_ofPairs {ps : List (σ × μ)} {p : σ × μ} (h : p ∈ (ofPairs rank ps).pairs) :
    p ∈ ps := by
  induction ps using List.reverseRecOn with
  | nil => cases h
  | append_singleton ps q ih =>
      rw [ofPairs_concat] at h
      rcases mem_put.1 h with rfl | ⟨hp, -⟩
      · exact List.mem_append_right _ (List.mem_singleton_self _)
      · exact List.mem_append_left _ (ih hp)

/-- Pairs with distinct members are all there. -/
theorem mem_ofPairs {ps : List (σ × μ)} (hps : (ps.map Prod.snd).Nodup) {p : σ × μ} :
    p ∈ (ofPairs rank ps).pairs ↔ p ∈ ps := by
  refine ⟨mem_of_mem_ofPairs, fun hp => ?_⟩
  induction ps using List.reverseRecOn with
  | nil => cases hp
  | append_singleton ps q ih =>
      rw [List.map_append, List.nodup_append] at hps
      rw [ofPairs_concat, mem_put]
      rcases List.mem_append.1 hp with hp | hp
      · refine .inr ⟨ih hps.1 hp, ?_⟩
        exact hps.2.2 _ (List.mem_map_of_mem hp) _ (List.mem_map_of_mem List.mem_cons_self)
      · exact .inl (List.mem_singleton.1 hp)

/-- A ranking is made of its pairs. -/
theorem ofPairs_pairs (r : Ranking rank) : ofPairs rank r.pairs = r := by
  refine ext_scoreOf fun m => Option.ext fun x => ?_
  rw [scoreOf_eq_some_iff, scoreOf_eq_some_iff, mem_ofPairs r.distinct]

theorem size_put_le (r : Ranking rank) (m : μ) (x : σ) : (r.put m x).size ≤ r.size + 1 := by
  change (List.orderedInsert _ _ _).length ≤ _
  rw [List.orderedInsert_length]
  exact Nat.succ_le_succ (List.length_filter_le _ _)

theorem size_ofPairs_le (ps : List (σ × μ)) : (ofPairs rank ps).size ≤ ps.length := by
  induction ps using List.reverseRecOn with
  | nil => exact le_rfl
  | append_singleton ps p ih =>
      rw [ofPairs_concat, List.length_append]
      exact (size_put_le _ _ _).trans (Nat.succ_le_succ ih)

end Ranking
