import Exoredis.SortedSet.Remove

/-!
# The order of the towers

The members of a sorted set are ranked by score and, among equal scores, by their
bytes. If every level is in that order, the search of a removal stops right before the
tower it looks for, and so removal keeps the order. The search of an insertion compares
the wrong node at equal scores: it stops at the right place on every level exactly under
a condition on the entries with the new score, `TieSafe`.
-/

namespace Exoredis

/-- A member with its score and the height of its tower. -/
structure Entry where
  member : List UInt8
  score : ℚ
  height : ℕ
deriving DecidableEq, Repr

/-- Scores first, then bytes. -/
def rankOf (label : List UInt8 × ℚ) : ℚ ×ₗ List ℕ := toLex (label.2, label.1.map UInt8.toNat)

def Entry.rank (e : Entry) : ℚ ×ₗ List ℕ := rankOf (e.member, e.score)

theorem rankOf_lt_iff {a b : List UInt8 × ℚ} (ha : cstr a.1 = a.1) (hb : cstr b.1 = b.1) :
    rankOf a < rankOf b ↔ a.2 < b.2 ∨ a.2 = b.2 ∧ strcmp a.1 b.1 = .lt := by
  rw [rankOf, rankOf, Prod.Lex.toLex_lt_toLex, strcmp_lt_iff, ha, hb]

theorem score_le_of_rank_lt {a b : List UInt8 × ℚ} (h : rankOf a < rankOf b) : a.2 ≤ b.2 := by
  rcases Prod.Lex.toLex_lt_toLex.1 h with hlt | ⟨heq, -⟩
  · exact hlt.le
  · exact heq.le

theorem rankOf_injective : Function.Injective rankOf := by
  intro a b h
  have hbytes : Function.Injective (List.map UInt8.toNat) :=
    List.map_injective_iff.2 fun a b h => UInt8.toNat_inj.1 h
  have h' := toLex.injective h
  exact Prod.ext (hbytes (Prod.mk.inj h').2) (Prod.mk.inj h').1

/-- Every level is in the order of ranks, and no member contains a NUL byte. -/
structure Ranked (T : Towers) : Prop where
  plain : ∀ t ∈ T.levels 0, cstr (T.label t).1 = (T.label t).1
  sorted : ∀ i, (T.levels i).Pairwise fun t u => rankOf (T.label t) < rankOf (T.label u)

/-- The head of the level, or a tower whose label has `P`. -/
def Towers.HeadOr (T : Towers) (P : List UInt8 × ℚ → Prop) (t : ℕ) : Prop := t = 0 ∨ P (T.label t)

theorem Ranked.pairwise_headOr {T : Towers} (hT : Ranked T) {P : List UInt8 × ℚ → Prop}
    (hP : ∀ a b, rankOf a < rankOf b → P b → P a) (i : ℕ) (hnodup : (0 :: T.levels i).Nodup) :
    (0 :: T.levels i).Pairwise fun t u => T.HeadOr P u → T.HeadOr P t := by
  rw [List.pairwise_cons]
  refine ⟨fun u _ _ => .inl rfl, (hT.sorted i).imp_of_mem fun {t u} _ hu hlt hor => ?_⟩
  rcases hor with rfl | hor
  · exact absurd hu (List.nodup_cons.1 hnodup).1
  · exact .inr (hP _ _ hlt hor)

/-- A search that on every level goes on exactly to the towers with `P`. -/
theorem Stops.lastWith {q : ℕ → ℕ → Bool} {L : ℕ → List ℕ} {n : ℕ} {D : ℕ → ℕ} {P : ℕ → Prop}
    (h : Stops q L n 0 D) (h0 : P 0) (hsub : ∀ j, L (j + 1) ⊆ L j)
    (hinit : ∀ j, (0 :: L j).Pairwise fun t u => P u → P t)
    (hq : ∀ j ≤ n, ∀ pre b c rest, 0 :: L j = pre ++ b :: c :: rest → P b →
      (q b c = true ↔ P c)) {j : ℕ} (hj : j ≤ n) : LastWith P (0 :: L j) (D j) := by
  have hstep : ∀ i ≤ n, ∀ a ∈ 0 :: L i, P a →
      LastWith P (0 :: L i) (stopAt q a (behind a (0 :: L i))) := by
    intro i hi a ha hPa
    refine lastWith_stopAt (hinit i) ha hPa fun pre b c rest hsplit => ?_
    obtain ⟨pre₀, hwhole, -⟩ := eq_append_behind ha
    rw [hsplit, ← List.append_assoc] at hwhole
    exact hq i hi _ b c rest hwhole
  induction hj using Nat.decreasingInduction with
  | self =>
      rw [h.top]
      exact hstep n le_rfl 0 List.mem_cons_self h0
  | of_succ k hk ih =>
      rw [h.step k hk]
      refine hstep k hk.le _ ?_ ih.of_mem
      rcases List.mem_cons.1 (h.mem (k + 1) hk) with hmem | hmem
      · rw [hmem]
        exact List.mem_cons_self
      · exact List.mem_cons_of_mem _ (hsub k hmem)

theorem Rep.successor {list : SkipList} {T : Towers} (h : Rep list T) {i b c : ℕ}
    {pre rest : List ℕ} (hsplit : 0 :: T.levels i = pre ++ b :: c :: rest) :
    c ∈ T.levels i ∧ c ≠ 0 := by
  have hc := (suffix_of_cons_eq hsplit).subset List.mem_cons_self
  exact ⟨hc, h.ne_zero hc⟩

/-! ## The search of a removal -/

/-- In the order of ranks the search of a removal goes on to the last tower before. -/
theorem Ranked.lastWith_remove {list : SkipList} {T : Towers} (h : Rep list T) (hT : Ranked T)
    {t : ℕ} (ht : t ∈ T.levels 0) {D : ℕ → ℕ}
    (hD : Stops (onTowers (removeCond (T.label t).1 (T.label t).2) T.label) T.levels list.levels 0 D)
    {j : ℕ} (hj : j ≤ list.levels) :
    LastWith (T.HeadOr fun l => rankOf l < rankOf (T.label t)) (0 :: T.levels j) (D j) := by
  refine hD.lastWith (.inl rfl) h.subset (fun i => ?_) (fun i _ pre b c rest hsplit _ => ?_) hj
  · exact hT.pairwise_headOr (fun a b hab hb => hab.trans hb) i (h.nodup i)
  · obtain ⟨hc, hc0⟩ := h.successor hsplit
    have hcond : onTowers (removeCond (T.label t).1 (T.label t).2) T.label b c = true ↔
        rankOf (T.label c) < rankOf (T.label t) := by
      rw [rankOf_lt_iff (hT.plain c ((h.mem_iff i c).1 hc).1) (hT.plain t ht)]
      simp [onTowers, removeCond]
    rw [hcond, Towers.HeadOr, or_iff_right hc0]

theorem Rep.not_headOr_self {list : SkipList} {T : Towers} (h : Rep list T) {t : ℕ}
    (ht : t ∈ T.levels 0) : ¬ T.HeadOr (fun l => rankOf l < rankOf (T.label t)) t := by
  rintro (rfl | hlt)
  · exact h.ne_zero ht rfl
  · exact lt_irrefl _ hlt

/-- So it stops right before the tower. -/
theorem Ranked.behind_remove {list : SkipList} {T : Towers} (h : Rep list T) (hT : Ranked T) {t : ℕ}
    (ht : t ∈ T.levels 0) {D : ℕ → ℕ}
    (hD : Stops (onTowers (removeCond (T.label t).1 (T.label t).2) T.label) T.levels list.levels 0 D)
    {j : ℕ} (hj : j ≤ T.height t) : T.successor D j = some t := by
  refine (hT.lastWith_remove h ht hD (hj.trans (h.height_le t ht))).head?_behind (h.nodup j)
    (List.mem_cons_of_mem _ ((h.mem_iff j t).2 ⟨ht, hj⟩)) (h.not_headOr_self ht) fun u hu => ?_
  have hsorted : (0 :: T.levels j).Pairwise fun u t =>
      T.HeadOr (fun l => rankOf l < rankOf (T.label t)) u :=
    List.pairwise_cons.2 ⟨fun _ _ => .inl rfl, (hT.sorted j).imp .inr⟩
  exact List.pairwise_iff_forall_sublist.1 hsorted hu

theorem Ranked.remove {T : Towers} (hT : Ranked T) (t : ℕ) : Ranked (T.remove t) where
  plain u hu := hT.plain u (List.mem_of_mem_erase hu)
  sorted i := (hT.sorted i).sublist List.erase_sublist

/-- A removal in the order of ranks takes its tower out. -/
theorem Ranked.removeNodeFromSkipList_run {list : SkipList} {T : Towers} (h : Rep list T)
    (hT : Ranked T) {t : ℕ} (ht : t ∈ T.levels 0) {key : ExoString} (hkey : key.buf = (T.label t).1)
    (hsize : (T.levels 0).length < 2 ^ 64) (s : Server) :
    ∃ D list' s' freed,
      list.removeNodeFromSkipList key (T.label t).2 ⟨t, T.height t⟩ s = .ok (list', s') ∧
      s' = { s with
        freed := freed
        GARBAGE_LIST := s.GARBAGE_LIST ++ [.sortedSetEntry ⟨t, T.height t⟩] } ∧
      Stops (onTowers (removeCond (T.label t).1 (T.label t).2) T.label) T.levels list.levels 0 D ∧
      Removed list list' D t (T.height t) ∧ Rep list' (T.remove t) := by
  rw [← hkey]
  refine h.removeNodeFromSkipList_run ht hkey rfl (fun D hD j hj => ?_) hsize
    (fun D _ j _ hjt u hu hcmp => ?_) s
  · rw [hkey] at hD
    exact hT.behind_remove h ht hD hj
  · have hu' := (h.mem_iff j u).1 (Towers.mem_of_successor hu)
    have heq := (strcmp_eq_iff _ _).1 hcmp
    rw [hT.plain t ht, hT.plain u hu'.1] at heq
    obtain rfl := h.key_injective ht hu'.1 heq
    exact absurd hu'.2 (not_le.2 hjt)

/-! ## The search of an insertion -/

/-- The entries with a score on level `i`. -/
def tied (es : List Entry) (score : ℚ) (i : ℕ) : List Entry :=
  es.filter fun o => o.score = score ∧ i ≤ o.height

/-- The bytes of the node before them. -/
def lastBelow (es : List Entry) (score : ℚ) (i : ℕ) : List UInt8 :=
  ((es.filter fun o => o.score < score ∧ i ≤ o.height).getLast?.map Entry.member).getD
    (ascii "sentinel")

/-- The search for `e` goes on to the first of them. -/
def Enters (es : List Entry) (e : Entry) (i : ℕ) : Prop :=
  tied es e.score i ≠ [] ∧ strcmp (lastBelow es e.score i) e.member = .lt

/-- The search for `e` ends in the right place: before the entries with the same score,
because no level leads to them, or behind all of them, because on every level of the new
tower that has any of them this level or a higher one does. -/
def TieSafe (es : List Entry) (e : Entry) : Prop :=
  (∀ o ∈ tied es e.score 0, strcmp e.member o.member = .lt) ∧
      (∀ i < SKIPLIST_MAX_LEVEL, ¬ Enters es e i) ∨
    (∀ o ∈ tied es e.score 0, strcmp o.member e.member = .lt) ∧
      ∀ i ≤ e.height, tied es e.score i ≠ [] → ∃ j < SKIPLIST_MAX_LEVEL, i ≤ j ∧ Enters es e j

instance (es : List Entry) (e : Entry) (i : ℕ) : Decidable (Enters es e i) :=
  inferInstanceAs (Decidable (_ ∧ _))

instance (es : List Entry) (e : Entry) : Decidable (TieSafe es e) :=
  inferInstanceAs (Decidable (_ ∧ _ ∨ _ ∧ _))

namespace Towers

def entry (T : Towers) (t : ℕ) : Entry := ⟨(T.label t).1, (T.label t).2, T.height t⟩

/-- The entries of the bottom level, in its order. -/
def entries (T : Towers) : List Entry := (T.levels 0).map T.entry

end Towers

/-- Where the search for `e` may leave level `i`: behind the lower scores, as long as no
level was entered, or behind the entries that belong before `e`. -/
def Descended (T : Towers) (e : Entry) (i d : ℕ) : Prop :=
  (LastWith (T.HeadOr fun l => l.2 < e.score) (0 :: T.levels i) d ∧
      ∀ k, i ≤ k → ¬ Enters T.entries e k) ∨
    LastWith (T.HeadOr fun l => rankOf l < e.rank) (0 :: T.levels i) d ∧
      d ∈ T.levels i ∧ (T.label d).2 = e.score

section

variable {list : SkipList} {T : Towers} (h : Rep list T) (hT : Ranked T) {e : Entry}

include h hT

theorem Ranked.levels_eq (i : ℕ) :
    T.levels i = (T.levels 0).filter fun t => decide (i ≤ T.height t) := by
  have hirrefl : Std.Irrefl fun t u => rankOf (T.label t) < rankOf (T.label u) :=
    ⟨fun _ => lt_irrefl _⟩
  have hantisymm : Std.Antisymm fun t u => rankOf (T.label t) < rankOf (T.label u) :=
    ⟨fun _ _ hlt hlt' => absurd (hlt.trans hlt') (lt_irrefl _)⟩
  refine (hT.sorted i).eq_of_mem_iff ((hT.sorted 0).sublist List.filter_sublist) fun t => ?_
  rw [h.mem_iff, List.mem_filter, decide_eq_true_eq]

omit hT in
theorem mem_tied {o : Entry} {score : ℚ} {i : ℕ} :
    o ∈ tied T.entries score i ↔ ∃ t ∈ T.levels i, (T.label t).2 = score ∧ T.entry t = o := by
  simp only [tied, Towers.entries, List.mem_filter, List.mem_map, decide_eq_true_eq]
  constructor
  · rintro ⟨⟨t, ht, rfl⟩, hscore, hi⟩
    exact ⟨t, (h.mem_iff i t).2 ⟨ht, hi⟩, hscore, rfl⟩
  · rintro ⟨t, ht, hscore, rfl⟩
    obtain ⟨ht0, hi⟩ := (h.mem_iff i t).1 ht
    exact ⟨⟨t, ht0, rfl⟩, hscore, hi⟩

/-- The node before the first tower with a score. -/
theorem lastBelow_eq {i b c : ℕ} {pre rest : List ℕ} {score : ℚ}
    (hsplit : 0 :: T.levels i = pre ++ b :: c :: rest) (hb : T.HeadOr (fun l => l.2 < score) b)
    (hc : (T.label c).2 = score) : lastBelow T.entries score i = (T.label b).1 := by
  have hfilter : (T.entries.filter fun o => o.score < score ∧ i ≤ o.height) =
      ((T.levels i).filter fun t => (T.label t).2 < score).map T.entry := by
    rw [hT.levels_eq h i, List.filter_filter, Towers.entries, List.filter_map]
    congr 1
    refine List.filter_congr fun t _ => ?_
    rw [Function.comp_apply, Bool.decide_and]
    rfl
  have hsorted := hT.sorted i
  have habove : ((c :: rest).filter fun t => (T.label t).2 < score) = [] := by
    rw [List.filter_eq_nil_iff]
    intro t ht
    rw [decide_eq_true_eq, not_lt, ← hc]
    rcases List.mem_cons.1 ht with rfl | ht
    · exact le_rfl
    · exact score_le_of_rank_lt ((List.pairwise_cons.1
        (hsorted.sublist (suffix_of_cons_eq hsplit).sublist)).1 t ht)
  rw [lastBelow, hfilter]
  cases pre with
  | nil =>
      obtain ⟨rfl, hlevel⟩ := List.cons.inj hsplit
      rw [hlevel, habove, h.sentinel]
      rfl
  | cons a pre =>
      have hlevel : T.levels i = pre ++ b :: c :: rest := (List.cons.inj hsplit).2
      have hb' : (T.label b).2 < score := by
        refine hb.resolve_left (h.ne_zero (i := i) ?_)
        rw [hlevel]
        simp
      rw [hlevel, List.filter_append, List.filter_cons, if_pos (by simpa using hb'), habove,
        List.map_append, List.map_singleton, List.getLast?_concat]
      rfl

omit hT in
theorem tied_ne_nil_iff {i : ℕ} : tied T.entries e.score i ≠ [] ↔
    ∃ t ∈ T.levels i, (T.label t).2 = e.score := by
  constructor
  · intro hne
    obtain ⟨o, ho⟩ := List.exists_mem_of_ne_nil _ hne
    obtain ⟨t, ht, hscore, -⟩ := (mem_tied h).1 ho
    exact ⟨t, ht, hscore⟩
  · rintro ⟨t, ht, hscore⟩
    exact List.ne_nil_of_mem ((mem_tied h).2 ⟨t, ht, hscore, rfl⟩)

omit h hT in
theorem onTowers_insertCond_iff {b c : ℕ} :
    onTowers (insertCond e.member e.score) T.label b c = true ↔ (T.label c).2 < e.score ∨
      (T.label c).2 = e.score ∧ strcmp (T.label b).1 e.member = .lt := by
  simp [onTowers, insertCond]

/-- A level that the search does not enter takes it to the last lower score. -/
theorem insertCond_low {i b c : ℕ} {pre rest : List ℕ}
    (hsplit : 0 :: T.levels i = pre ++ b :: c :: rest)
    (hb : T.HeadOr (fun l => l.2 < e.score) b) (hnot : ¬ Enters T.entries e i) :
    onTowers (insertCond e.member e.score) T.label b c = true ↔
      T.HeadOr (fun l => l.2 < e.score) c := by
  obtain ⟨hc, hc0⟩ := h.successor hsplit
  rw [onTowers_insertCond_iff, Towers.HeadOr, or_iff_right hc0, or_iff_left]
  rintro ⟨hscore, hlt⟩
  refine hnot ⟨(tied_ne_nil_iff h).2 ⟨c, hc, hscore⟩, ?_⟩
  rwa [lastBelow_eq h hT hsplit hb hscore]

variable (he : cstr e.member = e.member)

include he

omit h in
theorem rank_lt_iff {t : ℕ} (ht : t ∈ T.levels 0) : rankOf (T.label t) < e.rank ↔
    (T.label t).2 < e.score ∨ (T.label t).2 = e.score ∧ strcmp (T.label t).1 e.member = .lt :=
  rankOf_lt_iff (hT.plain t ht) he

/-- Among equal scores, all of lower bytes, the search goes on. -/
theorem insertCond_rank {i b c : ℕ} {pre rest : List ℕ}
    (hsplit : 0 :: T.levels i = pre ++ b :: c :: rest)
    (hb : T.HeadOr (fun l => rankOf l < e.rank) b)
    (hless : ∀ o ∈ tied T.entries e.score 0, strcmp o.member e.member = .lt)
    (henters : T.HeadOr (fun l => l.2 < e.score) b → Enters T.entries e i) :
    onTowers (insertCond e.member e.score) T.label b c = true ↔
      T.HeadOr (fun l => rankOf l < e.rank) c := by
  obtain ⟨hc, hc0⟩ := h.successor hsplit
  have hlower : ∀ t ∈ T.levels i, (T.label t).2 = e.score →
      strcmp (T.label t).1 e.member = .lt := fun t ht hscore =>
    hless _ ((mem_tied h).2 ⟨t, ((h.mem_iff i t).1 ht).1, hscore, rfl⟩)
  rw [onTowers_insertCond_iff, Towers.HeadOr, or_iff_right hc0,
    rank_lt_iff hT he ((h.mem_iff i c).1 hc).1]
  refine or_congr_right (and_congr_right fun hscore => ?_)
  refine iff_of_true ?_ (hlower c hc hscore)
  by_cases hlow : T.HeadOr (fun l => l.2 < e.score) b
  · rw [← lastBelow_eq h hT hsplit hlow hscore]
    exact (henters hlow).2
  · have hbi : b ∈ T.levels i := by
      cases pre with
      | nil => exact absurd (.inl (List.cons.inj hsplit).1.symm) hlow
      | cons a pre =>
          have hlevel : T.levels i = pre ++ b :: c :: rest := (List.cons.inj hsplit).2
          rw [hlevel]
          simp
    have hrank := (rank_lt_iff hT he ((h.mem_iff i b).1 hbi).1).1
      (hb.resolve_left (h.ne_zero hbi))
    exact (hrank.resolve_left fun hlt => hlow (.inr hlt)).2

theorem before_of_tied (hless : ∀ o ∈ tied T.entries e.score 0, strcmp o.member e.member = .lt)
    {i t : ℕ} (ht : t ∈ T.levels i)
    (hscore : (T.label t).2 = e.score) : T.HeadOr (fun l => rankOf l < e.rank) t := by
  have ht0 := ((h.mem_iff i t).1 ht).1
  exact .inr ((rank_lt_iff hT he ht0).2 (.inr ⟨hscore, hless _ ((mem_tied h).2
    ⟨t, ht0, hscore, rfl⟩)⟩))

/-- A search that has passed an entry with the score of `e` has stopped at one. -/
theorem tied_of_lastWith {i d t : ℕ}
    (hd : LastWith (T.HeadOr fun l => rankOf l < e.rank) (0 :: T.levels i) d)
    (ht : t ∈ T.levels i) (hscore : (T.label t).2 = e.score)
    (hbefore : T.HeadOr (fun l => rankOf l < e.rank) t) :
    d ∈ T.levels i ∧ (T.label d).2 = e.score := by
  obtain ⟨pre, rest, hsplit, -, hd, hrest⟩ := hd
  have hmem := List.mem_cons_of_mem 0 ht
  rw [hsplit, List.mem_append, List.mem_cons] at hmem
  rcases hmem with hmem | rfl | hmem
  · cases pre with
    | nil => cases hmem
    | cons a pre =>
        have hlevel : T.levels i = pre ++ d :: rest := (List.cons.inj hsplit).2
        have hdi : d ∈ T.levels i := by
          rw [hlevel]
          simp
        have htpre : t ∈ pre := (List.mem_cons.1 hmem).resolve_left fun heq =>
          h.ne_zero ht (heq.trans (List.cons.inj hsplit).1.symm)
        have hsorted := hT.sorted i
        rw [hlevel, List.pairwise_append] at hsorted
        have hle := score_le_of_rank_lt (hsorted.2.2 t htpre d List.mem_cons_self)
        rw [hscore] at hle
        refine ⟨hdi, ?_⟩
        rcases (rank_lt_iff hT he ((h.mem_iff i d).1 hdi).1).1 (hd.resolve_left (h.ne_zero hdi))
          with hlt | ⟨heq, -⟩
        · exact absurd hle (not_le.2 hlt)
        · exact heq
  · exact ⟨ht, hscore⟩
  · exact absurd hbefore (hrest t hmem)

/-- One level of a search among lower bytes: it goes on to the last entry before `e` if it
starts at an entry with the same score or the level leads there. -/
theorem lastWith_of_enters {i a : ℕ} (ha : a ∈ 0 :: T.levels i)
    (hless : ∀ o ∈ tied T.entries e.score 0, strcmp o.member e.member = .lt)
    (hbefore : T.HeadOr (fun l => rankOf l < e.rank) a)
    (henters : T.HeadOr (fun l => l.2 < e.score) a → Enters T.entries e i) :
    LastWith (T.HeadOr fun l => rankOf l < e.rank) (0 :: T.levels i)
      (stopAt (onTowers (insertCond e.member e.score) T.label) a (behind a (0 :: T.levels i))) := by
  obtain ⟨pre₀, hwhole, -⟩ := eq_append_behind ha
  refine lastWith_stopAt (hT.pairwise_headOr (fun _ _ hab hb => hab.trans hb) i (h.nodup i)) ha
    hbefore fun pre b c rest hsplit hb => ?_
  have hlevel := hwhole
  rw [hsplit, ← List.append_assoc] at hlevel
  refine insertCond_rank h hT he hlevel hb hless fun hlow => henters ?_
  -- whatever stands before a node of lower score has a lower score
  have hmono := hT.pairwise_headOr (P := fun l => l.2 < e.score)
    (fun x y hxy hy => (score_le_of_rank_lt hxy).trans_lt hy) i (h.nodup i)
  rw [hwhole] at hmono
  cases pre with
  | nil => exact (List.cons.inj hsplit).1 ▸ hlow
  | cons a' pre =>
      obtain ⟨rfl, hbehind⟩ := List.cons.inj hsplit
      refine (List.pairwise_cons.1 (List.pairwise_append.1 hmono).2.1).1 b ?_ hlow
      rw [hbehind]
      simp

omit he in
theorem lastWith_of_not_enters {i a : ℕ} (ha : a ∈ 0 :: T.levels i)
    (hlow : T.HeadOr (fun l => l.2 < e.score) a) (hnot : ¬ Enters T.entries e i) :
    LastWith (T.HeadOr fun l => l.2 < e.score) (0 :: T.levels i)
      (stopAt (onTowers (insertCond e.member e.score) T.label) a (behind a (0 :: T.levels i))) := by
  obtain ⟨pre₀, hwhole, -⟩ := eq_append_behind ha
  refine lastWith_stopAt (hT.pairwise_headOr
    (fun x y hxy hy => (score_le_of_rank_lt hxy).trans_lt hy) i (h.nodup i)) ha hlow
    fun pre b c rest hsplit hb => ?_
  have hlevel := hwhole
  rw [hsplit, ← List.append_assoc] at hlevel
  exact insertCond_low h hT hlevel hb hnot

/-- The last lower score is the last node before `e` on a level without lower entries of
the same score. -/
theorem lastWith_rank {i d : ℕ} (hd : LastWith (T.HeadOr fun l => l.2 < e.score) (0 :: T.levels i) d)
    (hnone : ∀ t ∈ T.levels i, (T.label t).2 = e.score → strcmp (T.label t).1 e.member ≠ .lt) :
    LastWith (T.HeadOr fun l => rankOf l < e.rank) (0 :: T.levels i) d := by
  refine hd.congr fun t ht => ?_
  rcases List.mem_cons.1 ht with rfl | ht
  · exact iff_of_true (.inl rfl) (.inl rfl)
  · refine or_congr_right ((rank_lt_iff hT he ((h.mem_iff i t).1 ht).1).trans ?_).symm
    exact or_iff_left fun hh => hnone t ht hh.1 hh.2

theorem descended_of_low {i a : ℕ} (ha : a ∈ 0 :: T.levels i)
    (hless : ∀ o ∈ tied T.entries e.score 0, strcmp o.member e.member = .lt)
    (hlow : T.HeadOr (fun l => l.2 < e.score) a) (hnot : ∀ k, i < k → ¬ Enters T.entries e k) :
    Descended T e i
      (stopAt (onTowers (insertCond e.member e.score) T.label) a (behind a (0 :: T.levels i))) := by
  by_cases henters : Enters T.entries e i
  · have hbefore : T.HeadOr (fun l => rankOf l < e.rank) a := by
      rcases List.mem_cons.1 ha with rfl | ha
      · exact .inl rfl
      · exact .inr ((rank_lt_iff hT he ((h.mem_iff i a).1 ha).1).2
          (.inl (hlow.resolve_left (h.ne_zero ha))))
    have hlast := lastWith_of_enters h hT he ha hless hbefore fun _ => henters
    obtain ⟨t, ht, hscore⟩ := (tied_ne_nil_iff h).1 henters.1
    exact .inr ⟨hlast, tied_of_lastWith h hT he hlast ht hscore
      (before_of_tied h hT he hless ht hscore)⟩
  · refine .inl ⟨lastWith_of_not_enters h hT ha hlow henters, fun k hk => ?_⟩
    rcases Nat.eq_or_lt_of_le hk with rfl | hk
    · exact henters
    · exact hnot k hk

theorem descended_of_tied {i a : ℕ} (ha : a ∈ T.levels i)
    (hless : ∀ o ∈ tied T.entries e.score 0, strcmp o.member e.member = .lt)
    (hscore : (T.label a).2 = e.score) :
    Descended T e i
      (stopAt (onTowers (insertCond e.member e.score) T.label) a (behind a (0 :: T.levels i))) := by
  have hbefore := before_of_tied h hT he hless ha hscore
  have hlast := lastWith_of_enters h hT he (List.mem_cons_of_mem 0 ha) hless hbefore
    fun hlow => absurd hscore (ne_of_lt (hlow.resolve_left (h.ne_zero ha)))
  exact .inr ⟨hlast, tied_of_lastWith h hT he hlast ha hscore hbefore⟩

/-- On the way down among lower bytes the search stays behind the lower scores until a
level is entered, and from there on it stays among the entries with the score of `e`. -/
theorem Stops.descended (hless : ∀ o ∈ tied T.entries e.score 0, strcmp o.member e.member = .lt)
    {D : ℕ → ℕ}
    (hD : Stops (onTowers (insertCond e.member e.score) T.label) T.levels list.levels 0 D)
    {i : ℕ} (hi : i ≤ list.levels) : Descended T e i (D i) := by
  induction hi using Nat.decreasingInduction with
  | self =>
      rw [hD.top]
      refine descended_of_low h hT he List.mem_cons_self hless (.inl rfl) fun k hk henters => ?_
      obtain ⟨t, ht, -⟩ := (tied_ne_nil_iff h).1 henters.1
      rw [h.levels_above hk] at ht
      cases ht
  | of_succ k hk ih =>
      rw [hD.step k hk]
      rcases ih with ⟨hlast, hnot⟩ | ⟨-, hmem, hscore⟩
      · refine descended_of_low h hT he ?_ hless hlast.of_mem fun i hi => hnot i hi
        rcases List.mem_cons.1 (hD.mem (k + 1) hk) with hmem | hmem
        · rw [hmem]
          exact List.mem_cons_self
        · exact List.mem_cons_of_mem _ (h.subset k hmem)
      · exact descended_of_tied h hT he (h.subset k hmem) hless hscore

omit he in
/-- A search that no level leads among the entries with its score stops behind the lower
scores. -/
theorem lastWith_low (hnot : ∀ i < SKIPLIST_MAX_LEVEL, ¬ Enters T.entries e i) {D : ℕ → ℕ}
    (hD : Stops (onTowers (insertCond e.member e.score) T.label) T.levels list.levels 0 D)
    {j : ℕ} (hj : j ≤ list.levels) :
    LastWith (T.HeadOr fun l => l.2 < e.score) (0 :: T.levels j) (D j) := by
  refine hD.lastWith (.inl rfl) h.subset (fun i => ?_) (fun i hi pre b c rest hsplit hb => ?_) hj
  · exact hT.pairwise_headOr (fun x y hxy hy => (score_le_of_rank_lt hxy).trans_lt hy) i
      (h.nodup i)
  · exact insertCond_low h hT hsplit hb (hnot i (hi.trans_lt h.bound))

/-- Under the condition on equal scores the search ends, on every level of the new tower,
at the last node that belongs before it. -/
theorem lastWith_insert (hsafe : TieSafe T.entries e) {D : ℕ → ℕ}
    (hD : Stops (onTowers (insertCond e.member e.score) T.label) T.levels list.levels 0 D)
    {j : ℕ} (hj : j ≤ list.levels) (hje : j ≤ e.height) :
    LastWith (T.HeadOr fun l => rankOf l < e.rank) (0 :: T.levels j) (D j) := by
  rcases hsafe with ⟨hgreater, hnot⟩ | ⟨hless, henters⟩
  · refine lastWith_rank h hT he (lastWith_low h hT hnot hD hj) fun t ht hscore hlt => ?_
    have hgt := hgreater _ ((mem_tied h).2 ⟨t, ((h.mem_iff j t).1 ht).1, hscore, rfl⟩)
    exact lt_asymm ((strcmp_lt_iff _ _).1 hlt) ((strcmp_lt_iff _ _).1 hgt)
  · rcases hD.descended h hT he hless hj with ⟨hlow, hnot⟩ | ⟨hlast, -⟩
    · refine lastWith_rank h hT he hlow fun t ht hscore _ => ?_
      obtain ⟨k, -, hjk, hk⟩ := henters j hje ((tied_ne_nil_iff h).2 ⟨t, ht, hscore⟩)
      exact hnot k hjk hk
    · exact hlast

end

/-! ## The new order -/

/-- The entries with `e` at its rank. -/
def place (e : Entry) (es : List Entry) : List Entry :=
  es.orderedInsert (fun a b => a.rank ≤ b.rank) e

/-- The entries of the other members. -/
def others (es : List Entry) (member : List UInt8) : List Entry :=
  es.filter fun o => o.member ≠ member

theorem place_sorted {e : Entry} {es : List Entry} (hes : es.Pairwise fun a b => a.rank < b.rank)
    (he : ∀ o ∈ es, o.member ≠ e.member) : (place e es).Pairwise fun a b => a.rank < b.rank := by
  have htotal : Std.Total fun a b : Entry => a.rank ≤ b.rank := ⟨fun _ _ => le_total _ _⟩
  have htrans : IsTrans Entry fun a b => a.rank ≤ b.rank := ⟨fun _ _ _ => le_trans⟩
  have hle : (place e es).Pairwise fun a b => a.rank ≤ b.rank :=
    List.Pairwise.orderedInsert e es (hes.imp le_of_lt)
  have hne : (place e es).Pairwise fun a b => a.rank ≠ b.rank := by
    refine ((List.perm_orderedInsert _ e es).pairwise_iff fun hab => hab.symm).2 ?_
    rw [List.pairwise_cons]
    refine ⟨fun o ho heq => he o ho ?_, hes.imp ne_of_lt⟩
    exact (Prod.mk.inj (rankOf_injective heq)).1.symm
  exact (hle.and hne).imp fun hab => lt_of_le_of_ne hab.1 hab.2

theorem eq_of_rank_sorted {es es' : List Entry} (h : es.Pairwise fun a b => a.rank < b.rank)
    (h' : es'.Pairwise fun a b => a.rank < b.rank) (hmem : ∀ o, o ∈ es ↔ o ∈ es') : es = es' := by
  have hirrefl : Std.Irrefl fun a b : Entry => a.rank < b.rank := ⟨fun _ => lt_irrefl _⟩
  have hantisymm : Std.Antisymm fun a b : Entry => a.rank < b.rank :=
    ⟨fun _ _ hlt hlt' => absurd (hlt.trans hlt') (lt_irrefl _)⟩
  exact h.eq_of_mem_iff h' hmem

theorem mem_place {e o : Entry} {es : List Entry} : o ∈ place e es ↔ o = e ∨ o ∈ es :=
  List.mem_orderedInsert _

section

variable {list : SkipList} {T : Towers} (h : Rep list T) (hT : Ranked T) {e : Entry}

include hT

theorem Ranked.entries_sorted : T.entries.Pairwise fun a b => a.rank < b.rank :=
  List.pairwise_map.2 (hT.sorted 0)

include h

/-- The new tower keeps the order if it stands behind the nodes that belong before it. -/
theorem Ranked.insert (he : cstr e.member = e.member)
    (hnew : ∀ t ∈ T.levels 0, (T.label t).1 ≠ e.member) {D : ℕ → ℕ}
    (hD : ∀ j ≤ e.height, LastWith (T.HeadOr fun l => rankOf l < e.rank) (0 :: T.levels j) (D j)) :
    Ranked (T.insert D list.fresh e.height (e.member, e.score)) := by
  set T' := T.insert D list.fresh e.height (e.member, e.score) with hT'
  have hx : T'.label list.fresh = (e.member, e.score) := Function.update_self _ _ _
  have hold : ∀ i, ∀ t ∈ 0 :: T.levels i, T'.label t = T.label t := by
    intro i t ht
    refine Function.update_of_ne ?_ _ _
    rintro rfl
    exact h.fresh_not_mem i ht
  have hx0 : list.fresh ≠ 0 := fun h0 => h.fresh_not_mem 0 (h0 ▸ List.mem_cons_self)
  have hbase : ∀ i, (0 :: T.levels i).Pairwise fun t u =>
      t ≠ 0 → rankOf (T'.label t) < rankOf (T'.label u) := by
    intro i
    refine List.pairwise_cons.2 ⟨fun _ _ h0 => absurd rfl h0, ?_⟩
    refine (hT.sorted i).imp_of_mem fun {t u} ht hu hlt _ => ?_
    rwa [hold i t (List.mem_cons_of_mem 0 ht), hold i u (List.mem_cons_of_mem 0 hu)]
  constructor
  · intro t ht
    by_cases htx : t = list.fresh
    · rw [htx, hx]
      exact he
    · have ht0 : t ∈ T.levels 0 :=
        ((Towers.mem_insert (hD 0 (Nat.zero_le _)).mem).1 ht).resolve_left fun hh => htx hh.1
      rw [hold 0 t (List.mem_cons_of_mem 0 ht0)]
      exact hT.plain t ht0
  · intro i
    by_cases hi : i ≤ e.height
    · have hmem := (hD i hi).mem
      obtain ⟨pre, rest, hsplit, hpre, hd, hrest⟩ := hD i hi
      set d := D i with hdi
      have hnodup := h.nodup i
      have hall : (0 :: T'.levels i).Pairwise fun t u =>
          t ≠ 0 → rankOf (T'.label t) < rankOf (T'.label u) := by
        have hbase' := hbase i
        have hold' := hold i
        rw [hsplit] at hnodup hbase' hold'
        rw [List.nodup_middle, List.nodup_cons, List.mem_append, not_or] at hnodup
        rw [hT', Towers.levels_insert_of_le hi, ← hT', hsplit, insertBehind_append hnodup.1.1,
          List.append_cons]
        rw [List.append_cons] at hbase' hold'
        rw [List.pairwise_append] at hbase' ⊢
        have hbefore : ∀ a ∈ pre ++ [d], a ≠ 0 → rankOf (T'.label a) < e.rank := by
          intro a ha ha0
          rw [hold' a (List.mem_append_left _ ha)]
          rcases List.mem_append.1 ha with ha | ha
          · exact (hpre a ha).resolve_left ha0
          · rw [List.mem_singleton.1 ha] at ha0 ⊢
            exact hd.resolve_left ha0
        refine ⟨hbase'.1, List.pairwise_cons.2 ⟨fun c hc _ => ?_, hbase'.2.1⟩, fun a ha b hb ha0 => ?_⟩
        · have hc0 := (h.mem_iff i c).1 ((suffix_of_cons_eq hsplit).subset hc)
          have hge : ¬ rankOf (T.label c) < e.rank := fun hlt => hrest c hc (.inr hlt)
          rw [hold' c (List.mem_append_right _ hc), hx]
          refine lt_of_le_of_ne (not_lt.1 hge) fun heq => hnew c hc0.1 ?_
          exact (congrArg Prod.fst (rankOf_injective heq)).symm
        · rcases List.mem_cons.1 hb with rfl | hb
          · rw [hx]
            exact hbefore a ha ha0
          · exact hbase'.2.2 a ha b hb ha0
      refine (List.pairwise_cons.1 hall).2.imp_of_mem fun {t u} ht _ hlt => hlt ?_
      rcases (Towers.mem_insert hmem).1 ht with ⟨rfl, -⟩ | ht
      · exact hx0
      · exact h.ne_zero ht
    · rw [hT', Towers.levels_insert_of_lt (not_le.1 hi), ← hT']
      refine (List.pairwise_cons.1 (hbase i)).2.imp_of_mem fun {t u} ht _ hlt => hlt ?_
      exact h.ne_zero ht

theorem entries_insert {D : ℕ → ℕ}
    (hT' : Ranked (T.insert D list.fresh e.height (e.member, e.score)))
    (hnew : ∀ t ∈ T.levels 0, (T.label t).1 ≠ e.member) (hD : D 0 ∈ 0 :: T.levels 0) :
    (T.insert D list.fresh e.height (e.member, e.score)).entries = place e T.entries := by
  have hnew' : ∀ o ∈ T.entries, o.member ≠ e.member := by
    intro o ho
    obtain ⟨t, ht, rfl⟩ := List.mem_map.1 ho
    exact hnew t ht
  refine eq_of_rank_sorted hT'.entries_sorted (place_sorted hT.entries_sorted hnew') fun o => ?_
  have hentry : (T.insert D list.fresh e.height (e.member, e.score)).entry list.fresh = e := by
    simp only [Towers.entry, Towers.insert, Function.update_self]
  have hold : ∀ t ∈ T.levels 0,
      (T.insert D list.fresh e.height (e.member, e.score)).entry t = T.entry t := by
    intro t ht
    have htx : t ≠ list.fresh := by
      rintro rfl
      exact h.fresh_not_mem 0 (List.mem_cons_of_mem 0 ht)
    simp only [Towers.entry, Towers.insert, Function.update_of_ne htx]
  rw [mem_place, Towers.entries, List.mem_map, Towers.entries, List.mem_map]
  constructor
  · rintro ⟨t, ht, rfl⟩
    rcases (Towers.mem_insert hD).1 ht with ⟨rfl, -⟩ | ht
    · exact .inl hentry
    · exact .inr ⟨t, ht, (hold t ht).symm⟩
  · rintro (rfl | ⟨t, ht, rfl⟩)
    · exact ⟨_, (Towers.mem_insert hD).2 (.inl ⟨rfl, Nat.zero_le _⟩), hentry⟩
    · exact ⟨t, (Towers.mem_insert hD).2 (.inr ht), hold t ht⟩

theorem entries_remove {t : ℕ} (ht : t ∈ T.levels 0) :
    (T.remove t).entries = others T.entries (T.label t).1 := by
  refine eq_of_rank_sorted (hT.remove t).entries_sorted
    (hT.entries_sorted.sublist List.filter_sublist) fun o => ?_
  have hmem : ∀ u, u ∈ (T.levels 0).erase t ↔ u ≠ t ∧ u ∈ T.levels 0 := fun u =>
    (List.nodup_cons.1 (h.nodup 0)).2.mem_erase_iff
  rw [others, List.mem_filter, Towers.entries, List.mem_map, Towers.entries, List.mem_map,
    decide_eq_true_eq]
  constructor
  · rintro ⟨u, hu, rfl⟩
    obtain ⟨hne, hu⟩ := (hmem u).1 hu
    exact ⟨⟨u, hu, rfl⟩, fun heq => hne (h.key_injective hu ht heq)⟩
  · rintro ⟨⟨u, hu, rfl⟩, hne⟩
    refine ⟨u, (hmem u).2 ⟨?_, hu⟩, rfl⟩
    rintro rfl
    exact hne rfl

end

end Exoredis
