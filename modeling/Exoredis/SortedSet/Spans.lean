import Exoredis.SortedSet.Order

/-!
# Spans

The rank of a tower is its place on the bottom level, behind the head at rank `0`. A list
has exact spans if `children` is, in every cell, the distance in rank to the next tower of
the level, and the end of a level has the rank behind the last tower. A search that adds
up the spans it passes then knows the rank at which it stops (`Shape.descend_run`).
-/

namespace Exoredis

open SkipList

namespace Towers

def rank (T : Towers) (t : ℕ) : ℕ := (0 :: T.levels 0).idxOf t

/-- The rank of the next tower, or of the end of the level. -/
def rankOr (T : Towers) : Option ℕ → ℕ
  | some t => T.rank t
  | none => (T.levels 0).length + 1

/-- The distance from a tower to the next one of a level. -/
def span (T : Towers) (i t : ℕ) : ℕ := T.rankOr (behind t (0 :: T.levels i)).head? - T.rank t

end Towers

/-- A skip list with nested levels and exact spans, in any order of labels. The nodes of
the bottom level, 64 bytes each, lie in a 64-bit address space. -/
structure Shape (list : SkipList) (T : Towers) : Prop where
  head : list.head = sentinel list.levels
  level : ∀ i ≤ list.levels, LevelOk list.heap T.label i (0 :: T.levels i)
  nested : ∀ i, (T.levels (i + 1)).Sublist (T.levels i)
  nodup : (0 :: T.levels 0).Nodup
  lt_fresh : ∀ t ∈ 0 :: T.levels 0, t < list.fresh
  span : ∀ i ≤ list.levels, ∀ t ∈ 0 :: T.levels i, ∀ n, list.heap ⟨t, i⟩ = some n →
    n.children = T.span i t
  size : list.size = (T.levels 0).length
  fits : 64 * ((T.levels 0).length + 1) ≤ 2 ^ 64

namespace Shape

variable {list : SkipList} {T : Towers} (h : Shape list T)

include h

theorem sublist_zero (i : ℕ) : (0 :: T.levels i).Sublist (0 :: T.levels 0) := by
  refine List.Sublist.cons_cons 0 ?_
  induction i with
  | zero => exact List.Sublist.refl _
  | succ i ih => exact (h.nested i).trans ih

theorem nodup_level (i : ℕ) : (0 :: T.levels i).Nodup := h.nodup.sublist (h.sublist_zero i)

theorem length_lt (i : ℕ) : (T.levels i).length < list.nodeBound := by
  have hsub : (0 :: T.levels i).Subperm (List.range list.fresh) :=
    List.subperm_of_subset (h.nodup_level i) fun t ht =>
      List.mem_range.2 (h.lt_fresh t ((h.sublist_zero i).subset ht))
  have hle := hsub.length_le
  rw [List.length_range, List.length_cons] at hle
  unfold nodeBound SKIPLIST_MAX_LEVEL
  omega

/-! ## Ranks -/

theorem rank_le {i t : ℕ} (ht : t ∈ 0 :: T.levels i) : T.rank t ≤ (T.levels 0).length := by
  have hlt := List.idxOf_lt_length_of_mem ((h.sublist_zero i).subset ht)
  rw [List.length_cons] at hlt
  exact Nat.le_of_lt_succ hlt

omit h in
theorem rank_head : T.rank 0 = 0 := List.idxOf_cons_self

/-- Ranks increase along every level. -/
theorem rank_lt_rankOr {i t : ℕ} {pre rest : List ℕ} (hsplit : 0 :: T.levels i = pre ++ t :: rest) :
    T.rank t < T.rankOr rest.head? := by
  cases rest with
  | nil =>
      refine Nat.lt_succ_of_le (h.rank_le (i := i) ?_)
      rw [hsplit]
      simp
  | cons u rest =>
      have hpair : [t, u].Sublist (0 :: T.levels 0) := by
        refine List.Sublist.trans ?_ (h.sublist_zero i)
        rw [hsplit]
        exact List.sublist_append_of_sublist_right
          (((List.nil_sublist rest).cons_cons u).cons_cons t)
      exact idxOf_lt_of_sublist h.nodup hpair

theorem behind_eq {i t : ℕ} {pre rest : List ℕ} (hsplit : 0 :: T.levels i = pre ++ t :: rest) :
    behind t (0 :: T.levels i) = rest := by
  have hnodup := h.nodup_level i
  rw [hsplit, List.nodup_middle, List.nodup_cons, List.mem_append, not_or] at hnodup
  rw [hsplit, behind_append hnodup.1.1]

theorem rankOr_le {i t : ℕ} {pre rest : List ℕ} (hsplit : 0 :: T.levels i = pre ++ t :: rest) :
    T.rankOr rest.head? ≤ (T.levels 0).length + 1 := by
  cases rest with
  | nil => exact le_rfl
  | cons u rest =>
      refine Nat.le_succ_of_le (h.rank_le (i := i) ?_)
      rw [hsplit]
      simp

/-- A span carries a counter from the rank of a tower to that of the next one. -/
theorem addSize_span {i t u c₀ : ℕ} {pre rest : List ℕ} (hi : i ≤ list.levels)
    (hsplit : 0 :: T.levels i = pre ++ t :: u :: rest) {n : SkipListNode}
    (hn : list.heap ⟨t, i⟩ = some n) (hc₀ : c₀ ≤ 1) :
    addSize (c₀ + T.rank t) n.children = c₀ + T.rank u := by
  have ht : t ∈ 0 :: T.levels i := by
    rw [hsplit]
    simp
  have hspan := h.span i hi t ht n hn
  rw [Towers.span, h.behind_eq hsplit] at hspan
  have hlt := h.rank_lt_rankOr hsplit
  have hle := h.rankOr_le hsplit
  have hfits := h.fits
  rw [List.head?_cons, Towers.rankOr] at hspan hlt hle
  rw [addSize, hspan]
  omega

theorem guides {advance : Advance} {q : ℕ → ℕ → Bool} {c₀ : ℕ} (hc₀ : c₀ ≤ 1) {i : ℕ}
    (hi : i ≤ list.levels)
    (hq : ∀ pre t u rest, 0 :: T.levels i = pre ++ t :: u :: rest → ∀ n m,
      list.heap ⟨t, i⟩ = some n → list.heap ⟨u, i⟩ = some m →
        advance n m (c₀ + T.rank t) = q t u) :
    Guides list advance q (fun t count => count = c₀ + T.rank t) i (0 :: T.levels i) := by
  rintro pre t u rest hsplit n m count hn hm rfl
  exact ⟨hq pre t u rest hsplit n m hn hm, h.addSize_span hi hsplit hn hc₀⟩

/-- A search from the head counts the rank at which it leaves each level. -/
theorem descend_run {advance : Advance} {q : ℕ → ℕ → Bool} {c₀ : ℕ} (hc₀ : c₀ ≤ 1)
    (hq : ∀ i ≤ list.levels, ∀ pre t u rest, 0 :: T.levels i = pre ++ t :: u :: rest → ∀ n m,
      list.heap ⟨t, i⟩ = some n → list.heap ⟨u, i⟩ = some m →
        advance n m (c₀ + T.rank t) = q t u) (s : Server) :
    ∃ D, list.descend advance list.levels list.head c₀ s =
        .ok ((List.range (list.levels + 1)).map fun j => (⟨D j, j⟩, c₀ + T.rank (D j)), s) ∧
      Stops q T.levels list.levels 0 D := by
  obtain ⟨D, C, hrun, hD, hC⟩ := SkipList.descend_run h.level
    (fun j hj => h.guides hc₀ hj (hq j hj)) (fun j _ => h.length_lt j)
    (fun j _ => (h.nested j).subset) List.mem_cons_self (by rw [rank_head]) s
  refine ⟨D, ?_, hD⟩
  rw [h.head]
  refine hrun.trans (congrArg (fun l => Except.ok (l, s)) (List.map_congr_left fun j hj => ?_))
  rw [hC j (Nat.le_of_lt_succ (List.mem_range.1 hj))]

/-! ## Ranks by score -/

/-- The number of members with `P`, where they come first on every level. -/
theorem rankBy_run {advance : Advance} {P : ℕ → Prop} [DecidablePred P]
    (hinit : ∀ i, (T.levels i).Pairwise fun t u => P u → P t)
    (hq : ∀ i ≤ list.levels, ∀ pre t u rest, 0 :: T.levels i = pre ++ t :: u :: rest → ∀ n m,
      list.heap ⟨t, i⟩ = some n → list.heap ⟨u, i⟩ = some m →
        advance n m (0 + T.rank t) = decide (P u)) (s : Server) :
    list.rankBy advance s = .ok ((T.levels 0).countP fun t => decide (P t), s) := by
  have hne : ∀ i, ∀ t ∈ T.levels i, t ≠ 0 := by
    rintro i t ht rfl
    exact (List.nodup_cons.1 (h.nodup_level i)).1 ht
  obtain ⟨D, hrun, hD⟩ := h.descend_run (q := fun _ u => decide (P u)) (Nat.zero_le 1) hq s
  have hlast : LastWith (fun t => t = 0 ∨ P t) (0 :: T.levels 0) (D 0) := by
    refine hD.lastWith (.inl rfl) (fun j => (h.nested j).subset) (fun i => ?_)
      (fun i _ pre t u rest hsplit _ => ?_) (Nat.zero_le _)
    · refine List.pairwise_cons.2 ⟨fun _ _ _ => .inl rfl, ?_⟩
      refine (hinit i).imp_of_mem fun {t u} _ hu hP hor => .inr (hP ?_)
      exact hor.resolve_left (hne i u hu)
    · have hu := (suffix_of_cons_eq hsplit).subset List.mem_cons_self
      simp [hne i u hu]
  have hcount := LastWith.countP_eq h.nodup hlast
  rw [List.countP_cons, if_pos (by simp)] at hcount
  have hrank : T.rank (D 0) = (T.levels 0).countP fun t => decide (P t) := by
    rw [Towers.rank, ← Nat.succ_injective hcount]
    refine List.countP_congr fun t ht => ?_
    simp [hne 0 t ht]
  rw [rankBy, Effect.bind_run_ok hrun, List.range_succ_eq_map, List.map_cons, List.headD_cons,
    Nat.zero_add, hrank]
  rfl

end Shape

/-! ## A list of one member -/

/-- The list after `ZADD k 5 a` with a tower of height `0`. -/
def loneList : SkipList where
  heap p :=
    if p = ⟨0, 0⟩ then some ⟨⟨0, ascii "sentinel"⟩, DOUBLE_MIN, 1, some ⟨1, 0⟩, none⟩
    else if p = ⟨1, 0⟩ then some ⟨⟨1, ascii "a"⟩, 5, 1, none, none⟩
    else none
  head := SkipList.sentinel 0
  size := 1
  levels := 0
  table := HashTable.newHashTable.putBucket (ascii "a") [newNode ⟨1, ascii "a"⟩ ⟨1, 0⟩]
  fresh := 2

def loneTowers : Towers where
  levels i := if i = 0 then [1] else []
  label t := if t = 0 then (ascii "sentinel", DOUBLE_MIN) else (ascii "a", 5)
  height _ := 0

theorem shape_loneList : Shape loneList loneTowers where
  head := rfl
  level i hi := by
    obtain rfl := Nat.le_zero.1 hi
    refine ⟨fun t ht => ?_, rfl, rfl, trivial⟩
    rcases List.mem_cons.1 ht with rfl | ht
    · exact ⟨_, rfl, rfl, rfl⟩
    · obtain rfl := List.mem_singleton.1 ht
      exact ⟨_, rfl, rfl, rfl⟩
  nested i := by
    rw [loneTowers]
    exact List.nil_sublist _
  nodup := by decide
  lt_fresh := by decide
  span i hi t ht n hn := by
    obtain rfl := Nat.le_zero.1 hi
    rcases List.mem_cons.1 ht with rfl | ht
    · cases hn
      rfl
    · obtain rfl := List.mem_singleton.1 ht
      cases hn
      rfl
  size := rfl
  fits := by decide

end Exoredis
