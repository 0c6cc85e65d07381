import Exoredis.SortedSet.Spans
import Exoredis.Server.RedisServer

/-!
# Well-formed lists

A list is well formed if its levels are nested and in the order of ranks and its spans are
exact. `OneMore` compares two such lists that differ in one tower: the ranks behind it and
the end of the level move by one, and so do the spans across it. The insertion computes
the spans of the larger list from those of the smaller one, and the removal the converse.
-/

namespace Exoredis

open SkipList

theorem addSize_of_lt {a b : ℕ} (h : a + b < 2 ^ 64) : addSize a b = a + b := Nat.mod_eq_of_lt h

theorem subSize_of_le {a b : ℕ} (hab : b ≤ a) (ha : a < 2 ^ 64) : subSize a b = a - b := by
  unfold subSize
  omega

/-! ## One tower more -/

/-- On the levels up to `h` tower `x` stands in `B` behind the last tower with `P` of `S`. -/
structure OneMore (S B : Towers) (D : ℕ → ℕ) (P : ℕ → Prop) (x h n : ℕ) : Prop where
  low : ∀ j ≤ h, 0 :: B.levels j = insertBehind (D j) x (0 :: S.levels j)
  high : ∀ j, h < j → B.levels j = S.levels j
  fresh : ∀ j, x ∉ 0 :: S.levels j
  nodup : ∀ j, (0 :: S.levels j).Nodup
  sub : ∀ j, S.levels j ⊆ S.levels 0
  last : ∀ j ≤ n, LastWith P (0 :: S.levels j) (D j)

namespace OneMore

variable {S B : Towers} {D : ℕ → ℕ} {P : ℕ → Prop} {x h n : ℕ} (hmore : OneMore S B D P x h n)

include hmore

theorem mem_bottom {j a : ℕ} (ha : a ∈ 0 :: S.levels j) : a ∈ 0 :: S.levels 0 := by
  rcases List.mem_cons.1 ha with rfl | ha
  · exact List.mem_cons_self
  · exact List.mem_cons_of_mem _ (hmore.sub j ha)

theorem last_bottom : LastWith P (0 :: S.levels 0) (D 0) := hmore.last 0 (Nat.zero_le _)

theorem iff_rank_le {a : ℕ} (ha : a ∈ 0 :: S.levels 0) : P a ↔ S.rank a ≤ S.rank (D 0) :=
  hmore.last_bottom.iff_idxOf_le (hmore.nodup 0) ha

theorem rank_old {a : ℕ} (ha : a ∈ 0 :: S.levels 0) :
    B.rank a = if S.rank a ≤ S.rank (D 0) then S.rank a else S.rank a + 1 := by
  rw [Towers.rank, hmore.low 0 (Nat.zero_le _)]
  exact idxOf_insertBehind hmore.last_bottom.mem (hmore.fresh 0) ha

theorem rank_new : B.rank x = S.rank (D 0) + 1 := by
  rw [Towers.rank, hmore.low 0 (Nat.zero_le _)]
  exact idxOf_insertBehind_self hmore.last_bottom.mem (hmore.fresh 0)

theorem length_eq : (B.levels 0).length = (S.levels 0).length + 1 := by
  obtain ⟨pre, hsplit, hpre⟩ := eq_append_behind hmore.last_bottom.mem
  have hlow := congrArg List.length (hmore.low 0 (Nat.zero_le _))
  have hlength := congrArg List.length hsplit
  rw [hsplit, insertBehind_append hpre] at hlow
  simp only [List.length_cons, List.length_append] at hlow hlength
  omega

theorem rankOr_old {o : Option ℕ} (ho : ∀ u ∈ o, u ∈ S.levels 0) :
    B.rankOr o = if S.rankOr o ≤ S.rank (D 0) then S.rankOr o else S.rankOr o + 1 := by
  cases o with
  | none =>
      have hlt := List.idxOf_lt_length_of_mem hmore.last_bottom.mem
      rw [List.length_cons] at hlt
      rw [Towers.rankOr, Towers.rankOr, hmore.length_eq, if_neg]
      exact not_le.2 hlt
  | some u => exact hmore.rank_old (List.mem_cons_of_mem _ (ho u rfl))

variable {j : ℕ}

theorem mem_next {a u : ℕ} (hu : u ∈ (behind a (0 :: S.levels j)).head?) : u ∈ S.levels 0 :=
  hmore.sub j (behind_cons_subset (List.mem_of_head? hu))

theorem rank_lt_of_not {o : Option ℕ} (ho : ∀ u ∈ o, u ∈ S.levels 0) (hnot : ∀ u ∈ o, ¬ P u) :
    S.rank (D 0) < S.rankOr o := by
  cases o with
  | none =>
      have hlt := List.idxOf_lt_length_of_mem hmore.last_bottom.mem
      rwa [List.length_cons] at hlt
  | some u =>
      rw [Towers.rankOr, ← not_le]
      exact fun hle =>
        hnot u rfl ((hmore.iff_rank_le (List.mem_cons_of_mem _ (ho u rfl))).2 hle)

variable (hj : j ≤ n)

include hj

theorem mem_level : D j ∈ 0 :: S.levels j := (hmore.last j hj).mem

/-- The search has passed no more on a higher level than on the bottom one. -/
theorem rank_le : S.rank (D j) ≤ S.rank (D 0) :=
  (hmore.iff_rank_le (hmore.mem_bottom (hmore.mem_level hj))).1 (hmore.last j hj).of_mem

/-- The span at which the search stopped crosses the place of the tower. -/
theorem lt_rankOr : S.rank (D 0) < S.rankOr (behind (D j) (0 :: S.levels j)).head? := by
  refine hmore.rank_lt_of_not (fun u => hmore.mem_next) ?_
  rcases (hmore.last j hj).successor (hmore.nodup j) (hmore.mem_level hj) with
    ⟨-, hnot⟩ | ⟨hne, -⟩ | ⟨hne, -⟩
  · exact hnot
  · exact absurd rfl hne
  · exact absurd rfl hne

theorem sub_lt_span : S.rank (D 0) - S.rank (D j) < S.span j (D j) := by
  have hle := hmore.rank_le hj
  have hlt := hmore.lt_rankOr hj
  rw [Towers.span]
  omega

theorem span_before (hjh : j ≤ h) : B.span j (D j) = S.rank (D 0) - S.rank (D j) + 1 := by
  have hle := hmore.rank_le hj
  have hmem := hmore.mem_level hj
  rw [Towers.span, hmore.low j hjh,
    head?_behind_insertBehind (hmore.nodup j) hmem (hmore.fresh j) hmem, if_pos rfl, Towers.rankOr,
    hmore.rank_new, hmore.rank_old (hmore.mem_bottom hmem), if_pos hle]
  omega

theorem span_new (hjh : j ≤ h) :
    B.span j x = S.span j (D j) - (S.rank (D 0) - S.rank (D j)) := by
  have hle := hmore.rank_le hj
  have hlt := hmore.lt_rankOr hj
  rw [Towers.span, hmore.low j hjh, behind_insertBehind_self (hmore.mem_level hj) (hmore.fresh j),
    hmore.rank_new, hmore.rankOr_old fun u => hmore.mem_next, if_neg (not_le.2 hlt), Towers.span]
  omega

theorem span_above (hjh : h < j) : B.span j (D j) = S.span j (D j) + 1 := by
  have hle := hmore.rank_le hj
  have hlt := hmore.lt_rankOr hj
  rw [Towers.span, hmore.high j hjh, hmore.rankOr_old fun u => hmore.mem_next, if_neg (not_le.2 hlt),
    hmore.rank_old (hmore.mem_bottom (hmore.mem_level hj)), if_pos hle, Towers.span]
  omega

/-- The spans that do not cross the place of the tower stay. -/
theorem span_other {a : ℕ} (ha : a ∈ 0 :: S.levels j) (had : a ≠ D j) :
    B.span j a = S.span j a := by
  have hnext : (behind a (0 :: B.levels j)).head? = (behind a (0 :: S.levels j)).head? := by
    by_cases hjh : j ≤ h
    · rw [hmore.low j hjh,
        head?_behind_insertBehind (hmore.nodup j) (hmore.mem_level hj) (hmore.fresh j) ha, if_neg had]
    · rw [hmore.high j (not_le.1 hjh)]
  have hbottom := hmore.mem_bottom ha
  rw [Towers.span, hnext, hmore.rankOr_old fun u => hmore.mem_next, hmore.rank_old hbottom,
    Towers.span]
  rcases (hmore.last j hj).successor (hmore.nodup j) ha with ⟨heq, -⟩ | ⟨-, hP, u, hu, hPu⟩ | ⟨-, hP, hnot⟩
  · exact absurd heq had
  · have hle := (hmore.iff_rank_le hbottom).1 hP
    have hle' : S.rank u ≤ S.rank (D 0) :=
      (hmore.iff_rank_le (List.mem_cons_of_mem _ (hmore.mem_next hu))).1 hPu
    rw [if_pos hle, hu, Towers.rankOr, if_pos hle']
  · have hgt : ¬ S.rank a ≤ S.rank (D 0) := fun hle => hP ((hmore.iff_rank_le hbottom).2 hle)
    have hgt' := hmore.rank_lt_of_not (fun u => hmore.mem_next) hnot
    rw [if_neg hgt, if_neg (not_le.2 hgt')]
    omega

end OneMore

/-! ## The spans of an insertion -/

theorem Towers.span_le (T : Towers) {j a : ℕ} (hsub : T.levels j ⊆ T.levels 0) :
    T.span j a ≤ (T.levels 0).length + 1 := by
  rw [Towers.span]
  refine (Nat.sub_le _ _).trans ?_
  cases hnext : (behind a (0 :: T.levels j)).head? with
  | none => exact le_rfl
  | some u =>
      have hu := hsub (behind_cons_subset (List.mem_of_head? hnext))
      have hlt := List.idxOf_lt_length_of_mem (List.mem_cons_of_mem 0 hu)
      rw [List.length_cons] at hlt
      exact hlt.le

section

variable {list list' : SkipList} {T T' : Towers} {D C : ℕ → ℕ} {P : ℕ → Prop} {r : ℕ}
  {key : ExoString} {score : ℚ} (hins : Inserted list list' D C r key score)
  (hmore : OneMore T T' D P list.fresh r (max list.levels r)) (hsize : list.size = (T.levels 0).length)
  (hlt : (T.levels 0).length + 2 < 2 ^ 64)

include hins hmore hsize hlt

/-- The insertion computes the spans of the larger list. -/
theorem Inserted.span (habove : ∀ j, list.levels < j → T.levels j = [])
    (hC : ∀ j ≤ max list.levels r, C j = 1 + T.rank (D j))
    (hspan : ∀ i ≤ list.levels, ∀ t ∈ 0 :: T.levels i, ∀ n, list.heap ⟨t, i⟩ = some n →
      n.children = T.span i t) {i : ℕ} (hi : i ≤ list'.levels) :
    ∀ t ∈ 0 :: T'.levels i, ∀ n, list'.heap ⟨t, i⟩ = some n → n.children = T'.span i t := by
  obtain ⟨heap, hold, hnew, hsplice, hwide⟩ := hins.cells
  rw [hins.levels] at hi
  have hle : ∀ t, T.span i t ≤ (T.levels 0).length + 1 := fun t => T.span_le (hmore.sub i)
  -- the sentinels of new levels have the span of an empty level
  have hbase : ∀ t ∈ 0 :: T.levels i, ∀ n, heap ⟨t, i⟩ = some n → n.children = T.span i t := by
    intro t ht n hn
    by_cases hil : i ≤ list.levels
    · rw [hold _ (.inl hil)] at hn
      exact hspan i hil t ht n hn
    · have hempty := habove i (not_le.1 hil)
      rw [hempty] at ht
      obtain rfl := List.mem_singleton.1 ht
      obtain ⟨m, hm, hchildren, -⟩ := hnew i (not_le.1 hil) (by omega)
      obtain rfl : n = m := Option.some.inj (hn.symm.trans hm)
      have hend : (behind 0 [0]).head? = none := rfl
      rw [hchildren, addSize_of_lt (by omega), Towers.span, hempty, hend, Towers.rankOr, hsize,
        Towers.rank, List.idxOf_cons_self]
      rfl
  have hmem := hmore.mem_level hi
  have hrank := hmore.rank_le hi
  have hcut := hmore.sub_lt_span hi
  have hw : subSize (C 0) (C i) = T.rank (D 0) - T.rank (D i) := by
    have hbound := List.idxOf_lt_length_of_mem hmore.last_bottom.mem
    rw [List.length_cons] at hbound
    change T.rank (D 0) < _ at hbound
    rw [hC 0 (Nat.zero_le _), hC i hi, subSize_of_le (by omega) (by omega)]
    omega
  intro t ht n hn
  by_cases hir : i ≤ r
  · have hedit := hsplice i hir
    obtain ⟨d, hd, hd', hx'⟩ := hedit.cell
    have hspanD := hbase (D i) hmem d hd
    rw [hw] at hd' hx'
    rw [hmore.low i hir] at ht
    rcases (mem_insertBehind hmem).1 ht with rfl | ht
    · obtain rfl := Option.some.inj (hn.symm.trans hx')
      have hbound := hle (D i)
      simp only
      rw [hmore.span_new hi hir, hspanD, subSize_of_le hcut.le (by omega)]
    · by_cases htd : t = D i
      · subst htd
        obtain rfl := Option.some.inj (hn.symm.trans hd')
        have hbound := hle (D i)
        simp only
        rw [hmore.span_before hi hir, addSize_of_lt (by omega)]
      · have htx : t ≠ list.fresh := by
          rintro rfl
          exact hmore.fresh i ht
        rw [hedit.others t htd htx] at hn
        rw [hmore.span_other hi ht htd]
        exact hbase t ht n hn
  · have hedit := hwide i (by omega) (not_le.1 hir)
    rw [hmore.high i (not_le.1 hir)] at ht
    by_cases htd : t = D i
    · subst htd
      obtain ⟨d, hd, hd'⟩ := hedit.cell
      obtain rfl := Option.some.inj (hn.symm.trans hd')
      have hbound := hle (D i)
      simp only
      rw [hmore.span_above hi (not_le.1 hir), hbase _ ht d hd, addSize_of_lt (by omega)]
    · have htx : t ≠ list.fresh := by
        rintro rfl
        exact hmore.fresh i ht
      rw [hedit.others t htd htx] at hn
      rw [hmore.span_other hi ht htd]
      exact hbase t ht n hn

end

/-! ## The spans of a removal -/

/-- The removal computes the spans of the smaller list. -/
theorem Removed.span {list list' : SkipList} {S T : Towers} {D : ℕ → ℕ} {P : ℕ → Prop} {t h : ℕ}
    (hrem : Removed list list' D t h) (hmore : OneMore S T D P t h list.levels)
    (hlt : (T.levels 0).length + 1 < 2 ^ 64)
    (hspan : ∀ i ≤ list.levels, ∀ u ∈ 0 :: T.levels i, ∀ n, list.heap ⟨u, i⟩ = some n →
      n.children = T.span i u) {i : ℕ} (hi : i ≤ list.levels) :
    ∀ u ∈ 0 :: S.levels i, ∀ n, list'.heap ⟨u, i⟩ = some n → n.children = S.span i u := by
  have hlength := hmore.length_eq
  have hle : ∀ u, S.span i u ≤ (S.levels 0).length + 1 := fun u => S.span_le (hmore.sub i)
  have hmem := hmore.mem_level hi
  have hcut := hmore.sub_lt_span hi
  have hbound := hle (D i)
  have hin : ∀ u ∈ 0 :: S.levels i, u ∈ 0 :: T.levels i := by
    intro u hu
    by_cases hih : i ≤ h
    · rw [hmore.low i hih]
      exact (mem_insertBehind hmem).2 (.inr hu)
    · rwa [hmore.high i (not_le.1 hih)]
  intro u hu n hn
  have hut : u ≠ t := by
    rintro rfl
    exact hmore.fresh i hu
  by_cases hih : i ≤ h
  · obtain ⟨m, hm, hedit⟩ := hrem.on i hih
    by_cases hud : u = D i
    · subst hud
      obtain ⟨d, hd, hd'⟩ := hedit.cell
      obtain rfl := Option.some.inj (hn.symm.trans hd')
      have ht : t ∈ 0 :: T.levels i := by
        rw [hmore.low i hih]
        exact (mem_insertBehind hmem).2 (.inl rfl)
      have hchildren : (unlinked m d).children = addSize d.children (subSize m.children 1) := by
        rw [unlinked]
      rw [hchildren, hspan i hi _ (hin _ hu) d hd, hspan i hi t ht m hm, hmore.span_before hi hih,
        hmore.span_new hi hih, subSize_of_le (by omega) (by omega), addSize_of_lt (by omega)]
      omega
    · rw [hedit.others u hud hut] at hn
      rw [← hmore.span_other hi hu hud]
      exact hspan i hi u (hin u hu) n hn
  · have hedit := hrem.above i hi (not_le.1 hih)
    by_cases hud : u = D i
    · subst hud
      obtain ⟨d, hd, hd'⟩ := hedit.cell
      obtain rfl := Option.some.inj (hn.symm.trans hd')
      have hchildren : (narrowed d).children = subSize d.children 1 := by
        rw [narrowed]
      rw [hchildren, hspan i hi _ (hin _ hu) d hd, hmore.span_above hi (not_le.1 hih),
        subSize_of_le (by omega) (by omega)]
      omega
    · rw [hedit.others u hud hut] at hn
      rw [← hmore.span_other hi hu hud]
      exact hspan i hi u (hin u hu) n hn

/-! ## Well-formed lists -/

/-- The levels are nested and in the order of ranks, the spans are exact, and the nodes of
the bottom level, 64 bytes each, lie in a 64-bit address space. -/
structure WellFormed (list : SkipList) (T : Towers) : Prop where
  rep : Rep list T
  ranked : Ranked T
  span : ∀ i ≤ list.levels, ∀ t ∈ 0 :: T.levels i, ∀ n, list.heap ⟨t, i⟩ = some n →
    n.children = T.span i t
  fits : 64 * ((T.levels 0).length + 1) ≤ 2 ^ 64

theorem Ranked.nested {list : SkipList} {T : Towers} (h : Rep list T) (hT : Ranked T) (i : ℕ) :
    (T.levels (i + 1)).Sublist (T.levels i) := by
  rw [hT.levels_eq h i, hT.levels_eq h (i + 1)]
  refine List.monotone_filter_right _ fun t ht => ?_
  rw [decide_eq_true_eq] at ht ⊢
  exact Nat.le_of_succ_le ht

theorem WellFormed.shape {list : SkipList} {T : Towers} (h : WellFormed list T) : Shape list T where
  head := h.rep.head
  level := h.rep.level
  nested := h.ranked.nested h.rep
  nodup := h.rep.nodup 0
  lt_fresh := h.rep.lt_fresh
  span := h.span
  size := h.rep.size
  fits := h.fits

/-- A member that its table does not know is not empty, as the look-up hashes it. -/
theorem Rep.absent_of_get {list : SkipList} {T : Towers} (h : Rep list T) {key : ExoString}
    {s : Server} (hget : list.table.get key s = .ok ((none, list.table), s)) :
    key.buf ≠ [] ∧ list.table.lookup key.buf = none := by
  have hne : key.buf ≠ [] := by
    intro hnil
    rw [HashTable.get, Effect.bind_run_error (stringHash_nil hnil s)] at hget
    cases hget
  refine ⟨hne, Option.eq_none_iff_forall_ne_some.2 fun node hlookup => ?_⟩
  obtain ⟨c, hc, rfl⟩ := HashTable.cursor_of_lookup hlookup
  have hlive : ¬ c.node.Expired s.now := by
    rintro ⟨htype, -⟩
    change SORTED_SET_ENTRY = BULKSTRING at htype
    exact absurd htype (by decide)
  rw [HashTable.get_live h.keyed.unfreed hne hc hlive] at hget
  cases hget

namespace SkipList

/-- No subtraction of an insertion that left the levels at `path` goes below zero: the
counters are at most `children[0]`, and the rest is at most the span that is cut. -/
def InsertExact (list : SkipList) (path : List (NodePtr × ℕ)) : Prop :=
  let rank := (path.headD (list.head, 1)).2
  1 ≤ rank ∧ rank - 1 ≤ list.size + 1 ∧
    ∀ e ∈ path, e.2 ≤ rank ∧ ∀ d, list.heap e.1 = some d → rank - e.2 ≤ d.children

/-- No subtraction of a removal of the tower under `node` goes below zero: the spans that
lose one are positive. -/
def RemoveExact (list : SkipList) (path : List (NodePtr × ℕ)) (node : NodePtr) : Prop :=
  (∀ e ∈ path, ∀ d, list.heap e.1 = some d → 1 ≤ d.children) ∧
    ∀ j ≤ node.level, ∀ m, list.heap ⟨node.tower, j⟩ = some m → 1 ≤ m.children

end SkipList

/-- An insertion whose search ends, on every level, at the last node of a lower rank. -/
theorem WellFormed.add_run {list : SkipList} {T : Towers} (h : WellFormed list T) {key : ExoString}
    (hne : key.buf ≠ []) (hlookup : list.table.lookup key.buf = none)
    (hplain : cstr key.buf = key.buf) {score : ℚ} (hfits : 64 * ((T.levels 0).length + 2) ≤ 2 ^ 64)
    (hlast : ∀ D, Stops (onTowers (insertCond key.buf score) T.label) T.levels list.levels 0 D →
      ∀ j ≤ list.levels,
        LastWith (T.HeadOr fun l => rankOf l < rankOf (key.buf, score)) (0 :: T.levels j) (D j))
    (s : Server) :
    ∃ list' T' s' path, list.addNodeToSkiplist key score s = .ok (list', s') ∧
      s' = { s with
        coins := fun n => s.coins (n + 1)
        nextId := s.nextId + (s.coins 0 % SKIPLIST_MAX_LEVEL - list.levels) } ∧
      list.descend (beforeInsert key score) list.levels list.head 1
          { s with coins := fun n => s.coins (n + 1) } =
        .ok (path, { s with coins := fun n => s.coins (n + 1) }) ∧
      InsertExact list path ∧ WellFormed list' T' ∧
      T'.entries = place ⟨key.buf, score, s.coins 0 % SKIPLIST_MAX_LEVEL⟩ T.entries ∧
      list'.size = list.size + 1 := by
  set r := s.coins 0 % SKIPLIST_MAX_LEVEL with hr
  let e : Entry := ⟨key.buf, score, r⟩
  obtain ⟨D, C, list', s', hrun, hs', hdescend, hD, habove, hins, hrep⟩ :=
    h.rep.addNodeToSkiplist_run hne hlookup (by omega) score s
  have hempty : ∀ j, list.levels < j → T.levels j = [] := fun j hj => h.rep.levels_above hj
  have hrank : ∀ j, LastWith (T.HeadOr fun l => rankOf l < e.rank) (0 :: T.levels j) (D j) := by
    intro j
    by_cases hj : j ≤ list.levels
    · exact hlast D hD j hj
    · rw [hempty j (not_le.1 hj), (habove j (not_le.1 hj)).1]
      exact ⟨[], [], rfl, by simp, .inl rfl, by simp⟩
  have hnew : ∀ t ∈ T.levels 0, (T.label t).1 ≠ e.member := by
    intro t ht heq
    have htable := (h.rep.table _ _).2 ⟨t, ht, heq, rfl⟩
    rw [hlookup] at htable
    cases htable
  have hranked := h.ranked.insert h.rep (e := e) hplain hnew fun j _ => hrank j
  -- the counters are the ranks at which the search left the levels
  obtain ⟨D', hdescend', -⟩ := h.shape.descend_run (q := onTowers (insertCond key.buf score) T.label)
    le_rfl (fun i hi pre t u rest hsplit n m hn hm =>
      (guides_labelled (h.rep.level i hi) (insertCond key.buf score) pre t u rest hsplit n m _ hn hm
        trivial).1) { s with coins := fun n => s.coins (n + 1) }
  have hC : ∀ j ≤ max list.levels r, C j = 1 + T.rank (D j) := by
    intro j _
    by_cases hj : j ≤ list.levels
    · rw [← beforeInsert_eq, hdescend, pathOf, ← List.range_eq_range'] at hdescend'
      have hpath := (Prod.mk.inj (Except.ok.inj hdescend')).1
      have hj' := List.map_inj_left.1 hpath j (List.mem_range.2 (Nat.lt_succ_of_le hj))
      rw [Prod.mk.injEq, NodePtr.mk.injEq] at hj'
      rw [hj'.2, hj'.1.1]
    · rw [(habove j (not_le.1 hj)).1, (habove j (not_le.1 hj)).2, Shape.rank_head]
  have hmore : OneMore T (T.insert D list.fresh r (key.buf, score)) D
      (T.HeadOr fun l => rankOf l < e.rank) list.fresh r (max list.levels r) :=
    ⟨fun j hj => Towers.levels_insert_of_le hj, fun j hj => Towers.levels_insert_of_lt hj,
      h.rep.fresh_not_mem, h.rep.nodup, fun j t ht => ((h.rep.mem_iff j t).1 ht).1, fun j _ => hrank j⟩
  have hlength := hmore.length_eq
  have hsize := h.rep.size
  have hfits' : 64 * (((T.insert D list.fresh r (key.buf, score)).levels 0).length + 1) ≤ 2 ^ 64 := by
    rw [hlength]
    exact hfits
  refine ⟨list', _, s', _, hrun, hs', hdescend, ?_, ⟨hrep, hranked, fun i hi => ?_, hfits'⟩,
    entries_insert h.rep h.ranked hranked hnew (hrank 0).mem, ?_⟩
  · have hhead : ((pathOf D C 0 (list.levels + 1)).headD (list.head, 1)).2 = C 0 := by
      rw [pathOf, List.range'_succ, List.map_cons, List.headD_cons]
    rw [InsertExact, hhead, hC 0 (Nat.zero_le _)]
    have hbound := List.idxOf_lt_length_of_mem hmore.last_bottom.mem
    rw [List.length_cons] at hbound
    change T.rank (D 0) < _ at hbound
    refine ⟨by omega, by omega, fun p hp => ?_⟩
    obtain ⟨j, hj, rfl⟩ := List.mem_map.1 hp
    rw [List.mem_range'_1] at hj
    have hjl : j ≤ max list.levels r := by omega
    have hle := hmore.rank_le hjl
    have hcut := hmore.sub_lt_span hjl
    simp only [hC j hjl]
    refine ⟨by omega, fun d hd => ?_⟩
    rw [h.span j (by omega) (D j) (hrank j).mem d hd]
    omega
  · exact hins.span hmore hsize (by omega) hempty hC h.span hi
  · rw [hrep.size, hlength, hsize]

/-- The search for a score that no member has ends behind the lower scores, which are the
lower ranks. -/
theorem WellFormed.lastWith_untied {list : SkipList} {T : Towers} (h : WellFormed list T)
    {m : List UInt8} (hplain : cstr m = m) {score : ℚ}
    (hscore : ∀ t ∈ T.levels 0, (T.label t).2 ≠ score) {D : ℕ → ℕ}
    (hD : Stops (onTowers (insertCond m score) T.label) T.levels list.levels 0 D) {j : ℕ}
    (hj : j ≤ list.levels) :
    LastWith (T.HeadOr fun l => rankOf l < rankOf (m, score)) (0 :: T.levels j) (D j) := by
  let e : Entry := ⟨m, score, 0⟩
  have htied : ∀ i, tied T.entries e.score i = [] := fun i => by
    rw [← not_ne_iff, tied_ne_nil_iff h.rep]
    rintro ⟨t, ht, heq⟩
    exact hscore t ((h.rep.mem_iff i t).1 ht).1 heq
  exact lastWith_rank h.rep h.ranked (e := e) hplain
    (lastWith_low h.rep h.ranked (e := e) (fun i _ henters => henters.1 (htied i)) hD hj)
    fun t ht heq => absurd heq (hscore t ((h.rep.mem_iff j t).1 ht).1)

theorem WellFormed.addNodeToSkiplist_run {list : SkipList} {T : Towers} (h : WellFormed list T)
    {key : ExoString} {s₀ : Server} (habsent : list.table.get key s₀ = .ok ((none, list.table), s₀))
    (hplain : cstr key.buf = key.buf) {score : ℚ} (hscore : ∀ t ∈ T.levels 0, (T.label t).2 ≠ score)
    (hfits : 64 * ((T.levels 0).length + 2) ≤ 2 ^ 64) (s : Server) :
    ∃ list' T' s' path, list.addNodeToSkiplist key score s = .ok (list', s') ∧
      list.descend (beforeInsert key score) list.levels list.head 1
          { s with coins := fun n => s.coins (n + 1) } =
        .ok (path, { s with coins := fun n => s.coins (n + 1) }) ∧
      InsertExact list path ∧ WellFormed list' T' ∧
      T'.entries = place ⟨key.buf, score, s.coins 0 % SKIPLIST_MAX_LEVEL⟩ T.entries ∧
      list'.size = list.size + 1 := by
  obtain ⟨hne, hlookup⟩ := h.rep.absent_of_get habsent
  obtain ⟨list', T', s', path, hrun, -, hend⟩ := h.add_run hne hlookup hplain hfits
    (fun D hD j hj => h.lastWith_untied hplain hscore hD hj) s
  exact ⟨list', T', s', path, hrun, hend⟩

theorem WellFormed.removeNodeFromSkipList_run {list : SkipList} {T : Towers}
    (h : WellFormed list T) {t : ℕ} (ht : t ∈ T.levels 0) {key : ExoString}
    (hkey : key.buf = (T.label t).1) (s : Server) :
    ∃ list' T' s' path,
      list.removeNodeFromSkipList key (T.label t).2 ⟨t, T.height t⟩ s = .ok (list', s') ∧
      list.descend (beforeRemove key (T.label t).2) list.levels list.head 0 s = .ok (path, s) ∧
      RemoveExact list path ⟨t, T.height t⟩ ∧ WellFormed list' T' ∧
      T'.entries = others T.entries key.buf ∧ list'.size + 1 = list.size := by
  have hfits := h.fits
  obtain ⟨D, list', s', freed, hrun, -, hD, hrem, hrep⟩ :=
    h.ranked.removeNodeFromSkipList_run h.rep ht hkey (by omega) s
  have hbehind : ∀ j ≤ T.height t, T.successor D j = some t := fun j hj =>
    h.ranked.behind_remove h.rep ht hD hj
  have hlast : ∀ j ≤ list.levels,
      LastWith (T.HeadOr fun l => rankOf l < rankOf (T.label t)) (0 :: T.levels j) (D j) :=
    fun j hj => h.ranked.lastWith_remove h.rep ht hD hj
  have hcons : ∀ j, (0 :: T.levels j).erase t = 0 :: (T.remove t).levels j := by
    intro j
    rw [List.erase_cons_tail (by simpa using (h.rep.ne_zero ht).symm)]
    rfl
  have htop := h.rep.height_le t ht
  have hmore : OneMore (T.remove t) T D (T.HeadOr fun l => rankOf l < rankOf (T.label t)) t
      (T.height t) list.levels := by
    refine ⟨fun j hj => ?_, fun j hj => ?_, fun j => ?_, hrep.nodup, fun j u hu => ?_, fun j hj => ?_⟩
    · rw [← hcons, insertBehind_erase (h.rep.nodup j) (hD.mem j (hj.trans htop)) (hbehind j hj)]
    · refine (List.erase_of_not_mem fun hmem => ?_).symm
      exact absurd ((h.rep.mem_iff j t).1 hmem).2 (not_le.2 hj)
    · rw [← hcons]
      exact fun hmem => (h.rep.nodup j).not_mem_erase hmem
    · exact ((hrep.mem_iff j u).1 hu).1
    · rw [← hcons]
      exact (hlast j hj).erase (h.rep.not_headOr_self ht)
  have hlength := hmore.length_eq
  have hpos : ∀ j ≤ list.levels, 1 ≤ T.span j (D j) := by
    intro j hj
    by_cases hjt : j ≤ T.height t
    · rw [hmore.span_before hj hjt]
      exact Nat.succ_pos _
    · rw [hmore.span_above hj (not_le.1 hjt)]
      exact Nat.succ_pos _
  obtain ⟨D', hdescend', hD'⟩ := h.shape.descend_run
    (q := onTowers (removeCond key.buf (T.label t).2) T.label) (Nat.zero_le 1)
    (fun i hi pre t u rest hsplit n m hn hm => (guides_labelled (h.rep.level i hi)
      (removeCond key.buf _) pre t u rest hsplit n m _ hn hm trivial).1) s
  refine ⟨list', _, s', _, hrun, hdescend', ⟨fun e he d hd => ?_, fun j hj m hm => ?_⟩,
    ⟨hrep, h.ranked.remove t, fun i hi => ?_, by omega⟩, ?_, ?_⟩
  · obtain ⟨j, hj, rfl⟩ := List.mem_map.1 he
    have hj' := Nat.le_of_lt_succ (List.mem_range.1 hj)
    rw [hkey] at hD'
    rw [hD'.unique hD hj'] at hd
    rw [h.span j hj' (D j) (hlast j hj').mem d hd]
    exact hpos j hj'
  · have hcut := hmore.sub_lt_span (hj.trans htop)
    rw [h.span j (hj.trans htop) t (List.mem_cons_of_mem _ ((h.rep.mem_iff j t).2 ⟨ht, hj⟩)) m hm,
      hmore.span_new (hj.trans htop) hj]
    omega
  · rw [hrem.levels] at hi
    exact hrem.span hmore (by omega) h.span hi
  · rw [hkey]
    exact entries_remove h.rep h.ranked ht
  · rw [hrep.size, h.rep.size, hlength]

/-- The insertion of an absent member whose score no other member has, for every height of
its tower, and the removal of any member keep a list well formed. The bottom level gets the
member at its rank, and loses it; the size changes by one; and no span or counter goes
below zero on the way. -/
theorem wellFormed_update {list : SkipList} {T : Towers} (h : WellFormed list T) :
    (∀ (key : ExoString) (s₀ : Server) (score : ℚ) (s : Server),
      list.table.get key s₀ = .ok ((none, list.table), s₀) → cstr key.buf = key.buf →
      (∀ t ∈ T.levels 0, (T.label t).2 ≠ score) → 64 * ((T.levels 0).length + 2) ≤ 2 ^ 64 →
      ∃ list' T' s' path, list.addNodeToSkiplist key score s = .ok (list', s') ∧
        list.descend (beforeInsert key score) list.levels list.head 1
            { s with coins := fun n => s.coins (n + 1) } =
          .ok (path, { s with coins := fun n => s.coins (n + 1) }) ∧
        InsertExact list path ∧ WellFormed list' T' ∧
        T'.entries = place ⟨key.buf, score, s.coins 0 % SKIPLIST_MAX_LEVEL⟩ T.entries ∧
        list'.size = list.size + 1 ∧ list'.levels ≤ 15) ∧
    ∀ t ∈ T.levels 0, ∀ (key : ExoString) (s : Server), key.buf = (T.label t).1 →
      ∃ list' T' s' path,
        list.removeNodeFromSkipList key (T.label t).2 ⟨t, T.height t⟩ s = .ok (list', s') ∧
        list.descend (beforeRemove key (T.label t).2) list.levels list.head 0 s = .ok (path, s) ∧
        RemoveExact list path ⟨t, T.height t⟩ ∧ WellFormed list' T' ∧
        T'.entries = others T.entries key.buf ∧ list'.size + 1 = list.size ∧ list'.levels ≤ 15 := by
  refine ⟨fun key s₀ score s habsent hplain hscore hfits => ?_, fun t ht key s hkey => ?_⟩
  · obtain ⟨list', T', s', path, hrun, hdescend, hexact, hwell, hentries, hsize⟩ :=
      h.addNodeToSkiplist_run habsent hplain hscore hfits s
    exact ⟨list', T', s', path, hrun, hdescend, hexact, hwell, hentries, hsize,
      Nat.le_of_lt_succ hwell.rep.bound⟩
  · obtain ⟨list', T', s', path, hrun, hdescend, hexact, hwell, hentries, hsize⟩ :=
      h.removeNodeFromSkipList_run ht hkey s
    exact ⟨list', T', s', path, hrun, hdescend, hexact, hwell, hentries, hsize,
      Nat.le_of_lt_succ hwell.rep.bound⟩

theorem lookup_loneList (m : List UInt8) : loneList.table.lookup m =
    if m = ascii "a" then some (newNode ⟨1, ascii "a"⟩ ⟨1, 0⟩) else none :=
  @HashTable.Keyed.lookup_append NodePtr HashTable.newHashTable (ascii "a") _ rfl rfl m

theorem rep_loneList : Rep loneList loneTowers where
  head := rfl
  bound := by decide
  level := shape_loneList.level
  mem_iff i t := by
    cases i with
    | zero => simp [loneTowers]
    | succ i => simp [loneTowers]
  height_le _ _ := le_rfl
  nodup i := by
    cases i with
    | zero => decide
    | succ i => exact List.nodup_singleton 0
  lt_fresh := shape_loneList.lt_fresh
  sentinel := rfl
  keyed := HashTable.keyed_newHashTable.keyed_append rfl rfl (by decide) rfl
  table m p := by
    rw [lookup_loneList]
    constructor
    · intro hm
      split at hm
      · next heq =>
          cases hm
          exact ⟨1, List.mem_singleton_self 1, heq.symm, rfl⟩
      · cases hm
    · rintro ⟨t, ht, hm, rfl⟩
      obtain rfl := List.mem_singleton.1 ht
      have hm' : m = ascii "a" := hm.symm
      rw [if_pos hm']
      rfl
  size := rfl

theorem wellFormed_loneList : WellFormed loneList loneTowers where
  rep := rep_loneList
  ranked := by
    refine ⟨fun t ht => ?_, fun i => ?_⟩
    · obtain rfl := List.mem_singleton.1 ht
      decide
    · cases i with
      | zero => exact List.pairwise_singleton _ _
      | succ i => exact List.Pairwise.nil
  span := shape_loneList.span
  fits := shape_loneList.fits

theorem wellFormed_update_loneList :
    (∃ list' T' s', loneList.addNodeToSkiplist ⟨2, ascii "b"⟩ 7 (blankServer (fun _ => 3) none) =
        .ok (list', s') ∧ WellFormed list' T' ∧
      T'.entries = [⟨ascii "a", 5, 0⟩, ⟨ascii "b", 7, 3⟩] ∧ list'.size = 2) ∧
    ∃ list' T' s', loneList.removeNodeFromSkipList ⟨2, ascii "a"⟩ 5 ⟨1, 0⟩
        (blankServer (fun _ => 3) none) = .ok (list', s') ∧ WellFormed list' T' ∧ T'.entries = [] := by
  refine ⟨?_, ?_⟩
  · have hlookup : loneList.table.lookup (ascii "b") = none :=
      (lookup_loneList _).trans (if_neg (by decide))
    have hne : (⟨2, ascii "b"⟩ : ExoString).buf ≠ [] := by decide
    have habsent := HashTable.get_missing (s := blankServer (fun _ => 3) none)
      rep_loneList.keyed.unfreed hne (HashTable.cursor_eq_none_iff.2 hlookup)
    obtain ⟨list', T', s', -, hrun, -, -, hwell, hentries, hsize, -⟩ :=
      (wellFormed_update wellFormed_loneList).1 ⟨2, ascii "b"⟩ (blankServer (fun _ => 3) none) 7
        (blankServer (fun _ => 3) none) habsent (by decide) (by decide +kernel) (by decide)
    exact ⟨list', T', s', hrun, hwell, hentries.trans (by decide +kernel), hsize⟩
  · obtain ⟨list', T', s', -, hrun, -, -, hwell, hentries, -⟩ :=
      (wellFormed_update wellFormed_loneList).2 1 (List.mem_singleton_self 1) ⟨2, ascii "a"⟩
        (blankServer (fun _ => 3) none) rfl
    exact ⟨list', T', s', hrun, hwell, hentries.trans (by decide +kernel)⟩

end Exoredis
