import Exoredis.Keyspace.Keyed
import Exoredis.Ds.SkipList
import Exoredis.Library.Linked

/-!
# Towers

A skip list in terms of its towers: the towers on every level in order, the label of
each, which is what the searches compare, and its height. Tower `0` is that of the
sentinels and heads every level. `Rep` says that the cells of the heap and the member
table represent such towers; the spans are left out.
-/

namespace Exoredis

theorem strcmp_lt_iff (a b : List UInt8) :
    strcmp a b = .lt ↔ (cstr a).map UInt8.toNat < (cstr b).map UInt8.toNat := by
  rw [strcmp, cmp, cmpUsing]
  split_ifs with h <;> simp [h]

theorem strcmp_eq_iff (a b : List UInt8) : strcmp a b = .eq ↔ cstr a = cstr b := by
  have hinj : Function.Injective (List.map UInt8.toNat) :=
    List.map_injective_iff.2 fun a b h => UInt8.toNat_inj.1 h
  rw [strcmp, cmp, cmpUsing, ← hinj.eq_iff]
  split_ifs with h h'
  · simp [ne_of_lt h]
  · simp [ne_of_gt h']
  · simp [le_antisymm (not_lt.1 h') (not_lt.1 h)]

/-- The bytes and the score of a node. -/
def SkipListNode.label (n : SkipListNode) : List UInt8 × ℚ := (n.key.buf, n.score)

def nextOf (heap : NodePtr → Option SkipListNode) (p : NodePtr) : Option NodePtr :=
  (heap p).bind SkipListNode.next

/-- The cell of a tower one level down. -/
def below (t : ℕ) : ℕ → Option NodePtr
  | 0 => none
  | i + 1 => some ⟨t, i⟩

/-- The cells of level `i` form the chain of the towers `l`. -/
structure LevelOk (heap : NodePtr → Option SkipListNode) (label : ℕ → List UInt8 × ℚ) (i : ℕ)
    (l : List ℕ) : Prop where
  cell : ∀ t ∈ l, ∃ n, heap ⟨t, i⟩ = some n ∧ n.label = label t ∧ n.down = below t i
  linked : Linked (nextOf heap) (l.map fun t => ⟨t, i⟩)

namespace LevelOk

variable {heap heap' : NodePtr → Option SkipListNode} {label label' : ℕ → List UInt8 × ℚ}
  {i : ℕ} {l : List ℕ}

/-- Only the cells of its own towers on its own level matter to a level. -/
theorem congr (h : LevelOk heap label i l) (hheap : ∀ t ∈ l, heap' ⟨t, i⟩ = heap ⟨t, i⟩)
    (hlabel : ∀ t ∈ l, label' t = label t) : LevelOk heap' label' i l where
  cell t ht := by
    rw [hheap t ht, hlabel t ht]
    exact h.cell t ht
  linked := by
    refine h.linked.congr fun p hp => ?_
    obtain ⟨t, ht, rfl⟩ := List.mem_map.1 hp
    rw [nextOf, nextOf, hheap t ht]

theorem next {pre rest : List ℕ} {t : ℕ} (h : LevelOk heap label i (pre ++ t :: rest)) :
    nextOf heap ⟨t, i⟩ = rest.head?.map fun u => ⟨u, i⟩ := by
  have hlinked := h.linked
  rw [List.map_append, List.map_cons] at hlinked
  rw [hlinked.next_eq, List.head?_map]

end LevelOk

/-! ## Searches -/

/-- A loop condition on the labels of the current node and of its successor. -/
def labelled (p : List UInt8 × ℚ → List UInt8 × ℚ → Bool) : SkipList.Advance :=
  fun tmp next _ => p tmp.label next.label

/-- The condition as one on towers. -/
def onTowers (p : List UInt8 × ℚ → List UInt8 × ℚ → Bool) (label : ℕ → List UInt8 × ℚ) :
    ℕ → ℕ → Bool :=
  fun t u => p (label t) (label u)

/-- On the cells of the chain `l` the loop condition is `q`, and a step keeps `Inv`, which
relates the tower that the loop has reached to its counter. -/
def Guides (list : SkipList) (advance : SkipList.Advance) (q : ℕ → ℕ → Bool)
    (Inv : ℕ → ℕ → Prop) (i : ℕ) (l : List ℕ) : Prop :=
  ∀ pre t u rest, l = pre ++ t :: u :: rest → ∀ n m count, list.heap ⟨t, i⟩ = some n →
    list.heap ⟨u, i⟩ = some m → Inv t count →
      advance n m count = q t u ∧ Inv u (addSize count n.children)

theorem guides_labelled {list : SkipList} {label : ℕ → List UInt8 × ℚ} {i : ℕ} {l : List ℕ}
    (h : LevelOk list.heap label i l) (p : List UInt8 × ℚ → List UInt8 × ℚ → Bool) :
    Guides list (labelled p) (onTowers p label) (fun _ _ => True) i l := by
  rintro pre t u rest rfl n m count hn hm -
  obtain ⟨n', hn', hlabel, -⟩ := h.cell t (by simp)
  obtain ⟨m', hm', hlabel', -⟩ := h.cell u (by simp)
  obtain rfl := Option.some.inj (hn.symm.trans hn')
  obtain rfl := Option.some.inj (hm.symm.trans hm')
  exact ⟨by rw [labelled, onTowers, hlabel, hlabel'], trivial⟩

namespace SkipList

variable {list : SkipList} {label : ℕ → List UInt8 × ℚ} {advance : Advance} {q : ℕ → ℕ → Bool}
  {Inv : ℕ → ℕ → Prop}

theorem deref_run {p : NodePtr} {n : SkipListNode} (h : list.heap p = some n) (s : Server) :
    list.deref p s = .ok (n, s) := by
  rw [deref, h]
  rfl

theorem walk_run {i t : ℕ} {pre rest : List ℕ} (h : LevelOk list.heap label i (pre ++ t :: rest))
    (hguides : Guides list advance q Inv i (pre ++ t :: rest)) {fuel : ℕ}
    (hfuel : rest.length < fuel) {count : ℕ} (hcount : Inv t count) (s : Server) :
    ∃ c, list.walk advance fuel ⟨t, i⟩ count s = .ok ((⟨stopAt q t rest, i⟩, c), s) ∧
      Inv (stopAt q t rest) c := by
  induction rest generalizing pre t fuel count with
  | nil =>
      cases fuel with
      | zero => cases hfuel
      | succ fuel =>
          obtain ⟨n, hn, -⟩ := h.cell t (by simp)
          have hnext := h.next
          rw [nextOf, hn] at hnext
          rw [walk, Effect.bind_run_ok (deref_run hn s), show n.next = none from hnext]
          exact ⟨count, rfl, hcount⟩
  | cons u rest ih =>
      cases fuel with
      | zero => cases hfuel
      | succ fuel =>
          obtain ⟨n, hn, -⟩ := h.cell t (by simp)
          obtain ⟨m, hm, -⟩ := h.cell u (by simp)
          have hnext := h.next
          rw [nextOf, hn] at hnext
          obtain ⟨hcond, hcount'⟩ := hguides pre t u rest rfl n m count hn hm hcount
          rw [walk, Effect.bind_run_ok (deref_run hn s), show n.next = some ⟨u, i⟩ from hnext]
          simp only
          rw [Effect.bind_run_ok (deref_run hm s), stopAt, hcond]
          by_cases hq : q t u = true
          · rw [if_pos hq, if_pos hq]
            rw [List.append_cons] at h hguides
            exact ih h hguides (Nat.lt_of_succ_lt_succ hfuel) hcount'
          · rw [if_neg hq, if_neg hq]
            exact ⟨count, rfl, hcount⟩

/-- The search on one level from any of its towers. -/
theorem walk_level {i start : ℕ} {l : List ℕ} (h : LevelOk list.heap label i (0 :: l))
    (hguides : Guides list advance q Inv i (0 :: l)) (hlength : l.length < list.nodeBound)
    (hstart : start ∈ 0 :: l) {count : ℕ} (hcount : Inv start count) (s : Server) :
    ∃ d c, list.walk advance list.nodeBound ⟨start, i⟩ count s = .ok ((⟨d, i⟩, c), s) ∧
      d = stopAt q start (behind start (0 :: l)) ∧ d ∈ 0 :: l ∧ Inv d c := by
  obtain ⟨pre, hsplit, -⟩ := eq_append_behind hstart
  have hlen := congrArg List.length hsplit
  rw [List.length_cons, List.length_append, List.length_cons] at hlen
  have h' := h
  rw [hsplit] at h' hguides
  obtain ⟨c, hrun, hcount'⟩ := @walk_run list label advance q Inv i start pre _ h' hguides
    list.nodeBound (by omega) count hcount s
  have hmem := List.mem_append_right pre (stopAt_mem q start (behind start (0 :: l)))
  rw [← hsplit] at hmem
  exact ⟨_, c, hrun, rfl, hmem, hcount'⟩

end SkipList

/-- `D j` is where a search from level `n` down leaves level `j`. -/
structure Stops (q : ℕ → ℕ → Bool) (L : ℕ → List ℕ) (n start : ℕ) (D : ℕ → ℕ) : Prop where
  top : D n = stopAt q start (behind start (0 :: L n))
  step : ∀ j < n, D j = stopAt q (D (j + 1)) (behind (D (j + 1)) (0 :: L j))
  mem : ∀ j ≤ n, D j ∈ 0 :: L j

theorem Stops.unique {q : ℕ → ℕ → Bool} {L : ℕ → List ℕ} {n start : ℕ} {D D' : ℕ → ℕ}
    (h : Stops q L n start D) (h' : Stops q L n start D') {j : ℕ} (hj : j ≤ n) : D j = D' j := by
  induction hj using Nat.decreasingInduction with
  | self => rw [h.top, h'.top]
  | of_succ k hk ih => rw [h.step k hk, h'.step k hk, ih]

theorem SkipList.descend_run {list : SkipList} {label : ℕ → List UInt8 × ℚ} {advance : Advance}
    {q : ℕ → ℕ → Bool} {Inv : ℕ → ℕ → Prop} {L : ℕ → List ℕ} {i start : ℕ}
    (hlevel : ∀ j ≤ i, LevelOk list.heap label j (0 :: L j))
    (hguides : ∀ j ≤ i, Guides list advance q Inv j (0 :: L j))
    (hlength : ∀ j ≤ i, (L j).length < list.nodeBound) (hsub : ∀ j < i, L (j + 1) ⊆ L j)
    (hstart : start ∈ 0 :: L i) {count : ℕ} (hcount : Inv start count) (s : Server) :
    ∃ D C : ℕ → ℕ, list.descend advance i ⟨start, i⟩ count s =
        .ok ((List.range (i + 1)).map fun j => (⟨D j, j⟩, C j), s) ∧
      Stops q L i start D ∧ ∀ j ≤ i, Inv (D j) (C j) := by
  induction i generalizing start count with
  | zero =>
      obtain ⟨d, c, hrun, hd, hmem, hcount'⟩ := walk_level (hlevel 0 le_rfl) (hguides 0 le_rfl)
        (hlength 0 le_rfl) hstart hcount s
      refine ⟨fun _ => d, fun _ => c, ?_, ⟨hd, ?_, ?_⟩, fun _ _ => hcount'⟩
      · rw [descend, Effect.bind_run_ok hrun]
        rfl
      · exact fun j hj => absurd hj (Nat.not_lt_zero j)
      · intro j hj
        obtain rfl := Nat.le_zero.1 hj
        exact hmem
  | succ i ih =>
      obtain ⟨d, c, hrun, hd, hmem, hcount'⟩ := walk_level (hlevel (i + 1) le_rfl)
        (hguides (i + 1) le_rfl) (hlength (i + 1) le_rfl) hstart hcount s
      have hmem' : d ∈ 0 :: L i := by
        rcases List.mem_cons.1 hmem with h | h
        · exact h ▸ List.mem_cons_self
        · exact List.mem_cons_of_mem _ (hsub i (Nat.lt_succ_self i) h)
      obtain ⟨n, hn, -, hdown⟩ := (hlevel (i + 1) le_rfl).cell d hmem
      obtain ⟨D, C, hrun', hD, hC⟩ := ih (fun j hj => hlevel j (Nat.le_succ_of_le hj))
        (fun j hj => hguides j (Nat.le_succ_of_le hj))
        (fun j hj => hlength j (Nat.le_succ_of_le hj)) (fun j hj => hsub j (Nat.lt_succ_of_lt hj))
        hmem' hcount'
      refine ⟨fun j => if j ≤ i then D j else d, fun j => if j ≤ i then C j else c, ?_,
        ⟨?_, fun j hj => ?_, fun j hj => ?_⟩, fun j hj => ?_⟩
      · rw [descend, Effect.bind_run_ok hrun, Effect.bind_run_ok (deref_run hn s), hdown]
        simp only [below]
        rw [Effect.bind_run_ok hrun', @List.range_succ (i + 1), List.map_append]
        refine congrArg (fun l => Except.ok (l, s)) (congrArg₂ _ ?_ ?_)
        · refine List.map_congr_left fun j hj => ?_
          rw [if_pos (Nat.le_of_lt_succ (List.mem_range.1 hj)),
            if_pos (Nat.le_of_lt_succ (List.mem_range.1 hj))]
        · simp
      · rw [if_neg (by omega), hd]
      · rw [if_pos (Nat.le_of_lt_succ hj)]
        by_cases hji : j + 1 ≤ i
        · rw [if_pos hji]
          exact hD.step j hji
        · obtain rfl : j = i := by omega
          rw [if_neg hji]
          exact hD.top
      · by_cases hji : j ≤ i
        · rw [if_pos hji]
          exact hD.mem j hji
        · obtain rfl : j = i + 1 := by omega
          rw [if_neg hji]
          exact hmem
      · by_cases hji : j ≤ i
        · simp only [if_pos hji]
          exact hC j hji
        · simp only [if_neg hji]
          exact hcount'

/-! ## Lists that represent towers -/

/-- The towers on each level, in order, with their labels and the level of their top
cell. -/
structure Towers where
  levels : ℕ → List ℕ
  label : ℕ → List UInt8 × ℚ
  height : ℕ → ℕ

/-- The list represents the towers. -/
structure Rep (list : SkipList) (T : Towers) : Prop where
  head : list.head = SkipList.sentinel list.levels
  bound : list.levels < SKIPLIST_MAX_LEVEL
  level : ∀ i ≤ list.levels, LevelOk list.heap T.label i (0 :: T.levels i)
  mem_iff : ∀ i t, t ∈ T.levels i ↔ t ∈ T.levels 0 ∧ i ≤ T.height t
  height_le : ∀ t ∈ T.levels 0, T.height t ≤ list.levels
  nodup : ∀ i, (0 :: T.levels i).Nodup
  lt_fresh : ∀ t ∈ 0 :: T.levels 0, t < list.fresh
  sentinel : T.label 0 = (ascii "sentinel", DOUBLE_MIN)
  keyed : list.table.Keyed
  table : ∀ m p, (list.table.lookup m).map ListNode.value = some p ↔
    ∃ t ∈ T.levels 0, (T.label t).1 = m ∧ p = ⟨t, T.height t⟩
  size : list.size = (T.levels 0).length

namespace Rep

variable {list : SkipList} {T : Towers} (h : Rep list T)

include h

theorem subset (i : ℕ) : T.levels (i + 1) ⊆ T.levels i := by
  intro t ht
  obtain ⟨h0, hi⟩ := (h.mem_iff (i + 1) t).1 ht
  exact (h.mem_iff i t).2 ⟨h0, Nat.le_of_succ_le hi⟩

theorem mem_zero {i t : ℕ} (ht : t ∈ 0 :: T.levels i) : t ∈ 0 :: T.levels 0 := by
  rcases List.mem_cons.1 ht with rfl | ht
  · exact List.mem_cons_self
  · exact List.mem_cons_of_mem _ ((h.mem_iff i t).1 ht).1

theorem ne_zero {i t : ℕ} (ht : t ∈ T.levels i) : t ≠ 0 := by
  rintro rfl
  exact (List.nodup_cons.1 (h.nodup i)).1 ht

theorem levels_above {i : ℕ} (hi : list.levels < i) : T.levels i = [] := by
  rw [List.eq_nil_iff_forall_not_mem]
  intro t ht
  obtain ⟨h0, hle⟩ := (h.mem_iff i t).1 ht
  exact absurd (h.height_le t h0) (by omega)

theorem fresh_not_mem (i : ℕ) : list.fresh ∉ 0 :: T.levels i :=
  fun hmem => absurd (h.lt_fresh _ (h.mem_zero hmem)) (lt_irrefl _)

/-- The fuel of the loops suffices for every level. -/
theorem length_lt (i : ℕ) : (T.levels i).length < list.nodeBound := by
  have hsub : (0 :: T.levels i).Subperm (List.range list.fresh) :=
    List.subperm_of_subset (h.nodup i) fun t ht =>
      List.mem_range.2 (h.lt_fresh t (h.mem_zero ht))
  have hle := hsub.length_le
  rw [List.length_range, List.length_cons] at hle
  unfold SkipList.nodeBound SKIPLIST_MAX_LEVEL
  omega

/-- A search from the head. -/
theorem descend_run (p : List UInt8 × ℚ → List UInt8 × ℚ → Bool) (count : ℕ) (s : Server) :
    ∃ D path, list.descend (labelled p) list.levels list.head count s = .ok (path, s) ∧
      path.map Prod.fst = (List.range (list.levels + 1)).map (fun j => ⟨D j, j⟩) ∧
      Stops (onTowers p T.label) T.levels list.levels 0 D := by
  obtain ⟨D, C, hrun, hD, -⟩ := SkipList.descend_run h.level
    (fun j hj => guides_labelled (h.level j hj) p) (fun j _ => h.length_lt j)
    (fun j _ => h.subset j) List.mem_cons_self trivial s
  rw [h.head]
  exact ⟨D, _, hrun, List.map_map, hD⟩

/-- No two towers have the same bytes. -/
theorem key_injective {t u : ℕ} (ht : t ∈ T.levels 0) (hu : u ∈ T.levels 0)
    (hkey : (T.label t).1 = (T.label u).1) : t = u := by
  have hlookup := (h.table _ _).2 ⟨t, ht, hkey, rfl⟩
  obtain ⟨v, hv, -, hptr⟩ := (h.table _ _).1 ((h.table _ _).2 ⟨u, hu, rfl, rfl⟩)
  have hptr' := (h.table _ _).2 ⟨u, hu, rfl, rfl⟩
  rw [hlookup] at hptr'
  exact congrArg NodePtr.tower (Option.some.inj hptr')

/-- A look-up in the member table finds the top cell of the tower of a member. -/
theorem get_run {member : ExoString} (hne : member.buf ≠ []) (s : Server) :
    (∃ u ∈ T.levels 0, member.buf = (T.label u).1 ∧
        list.table.get member s = .ok ((some ⟨u, T.height u⟩, list.table), s)) ∨
      (∀ u ∈ T.levels 0, (T.label u).1 ≠ member.buf) ∧ list.table.lookup member.buf = none ∧
        list.table.get member s = .ok ((none, list.table), s) := by
  cases hlookup : list.table.lookup member.buf with
  | none =>
      refine .inr ⟨fun u hu hkey => ?_, rfl, HashTable.get_missing h.keyed.unfreed hne
        (HashTable.cursor_eq_none_iff.2 hlookup)⟩
      have htable := (h.table _ _).2 ⟨u, hu, hkey, rfl⟩
      rw [hlookup] at htable
      cases htable
  | some node =>
      obtain ⟨u, hu, hkey, hvalue⟩ := (h.table member.buf node.value).1 (by rw [hlookup]; rfl)
      obtain ⟨c, hc, rfl⟩ := HashTable.cursor_of_lookup hlookup
      have hlive : ¬ c.node.Expired s.now := by
        rintro ⟨htype, -⟩
        change SORTED_SET_ENTRY = BULKSTRING at htype
        exact absurd htype (by decide)
      refine .inl ⟨u, hu, hkey.symm, ?_⟩
      rw [HashTable.get_live h.keyed.unfreed hne hc hlive, hvalue]

end Rep

end Exoredis
