import Exoredis.SortedSet.Towers

/-!
# Insertion of a tower

`addNodeToSkiplist` puts a new tower behind the nodes at which its search left the
levels, up to the height that `randomLevelRaiser` draws, whatever the order of the
labels is. What it writes on every level is `Inserted`.
-/

namespace Exoredis

open SkipList

/-- On level `i` the cell of tower `d` changes, and no other than that of `x` does. -/
structure Edited (heap heap' : NodePtr → Option SkipListNode) (i d x : ℕ)
    (f : SkipListNode → SkipListNode) : Prop where
  cell : ∃ n, heap ⟨d, i⟩ = some n ∧ heap' ⟨d, i⟩ = some (f n)
  others : ∀ t, t ≠ d → t ≠ x → heap' ⟨t, i⟩ = heap ⟨t, i⟩

/-- On level `i` a cell of tower `x` is linked behind that of `d`, `w` places after it. -/
structure Spliced (heap heap' : NodePtr → Option SkipListNode) (i d x : ℕ) (key : ExoString)
    (score : ℚ) (w : ℕ) : Prop where
  cell : ∃ n, heap ⟨d, i⟩ = some n ∧
    heap' ⟨d, i⟩ = some { n with next := some ⟨x, i⟩, children := addSize w 1 } ∧
    heap' ⟨x, i⟩ = some ⟨key, score, subSize n.children w, n.next, below x i⟩
  others : ∀ t, t ≠ d → t ≠ x → heap' ⟨t, i⟩ = heap ⟨t, i⟩

/-- Only its own level matters to an edit. -/
theorem Edited.congr {heap heap' heap₁ heap₁' : NodePtr → Option SkipListNode} {i d x : ℕ}
    {f : SkipListNode → SkipListNode} (h : Edited heap heap' i d x f)
    (hheap : ∀ t, heap₁ ⟨t, i⟩ = heap ⟨t, i⟩) (hheap' : ∀ t, heap₁' ⟨t, i⟩ = heap' ⟨t, i⟩) :
    Edited heap₁ heap₁' i d x f where
  cell := by
    rw [hheap, hheap']
    exact h.cell
  others t ht htx := by
    rw [hheap, hheap']
    exact h.others t ht htx

theorem Spliced.congr {heap heap' heap₁ heap₁' : NodePtr → Option SkipListNode} {i d x w : ℕ}
    {key : ExoString} {score : ℚ} (h : Spliced heap heap' i d x key score w)
    (hheap : ∀ t, heap₁ ⟨t, i⟩ = heap ⟨t, i⟩) (hheap' : ∀ t, heap₁' ⟨t, i⟩ = heap' ⟨t, i⟩) :
    Spliced heap₁ heap₁' i d x key score w where
  cell := by
    rw [hheap, hheap', hheap']
    exact h.cell
  others t ht htx := by
    rw [hheap, hheap']
    exact h.others t ht htx

theorem edited_write {list : SkipList} {i d : ℕ} {n : SkipListNode}
    (hn : list.heap ⟨d, i⟩ = some n) (x : ℕ) (f : SkipListNode → SkipListNode) :
    Edited list.heap (list.write ⟨d, i⟩ (f n)).heap i d x f where
  cell := ⟨n, hn, Function.update_self _ _ _⟩
  others _ ht _ := Function.update_of_ne (fun heq => ht (congrArg NodePtr.tower heq)) _ _

namespace LevelOk

variable {heap heap' : NodePtr → Option SkipListNode} {label : ℕ → List UInt8 × ℚ} {i d : ℕ}
  {l : List ℕ}

/-- A level does not depend on its spans. -/
theorem edit (h : LevelOk heap label i l) {x : ℕ} (hx : x ∉ l) {f : SkipListNode → SkipListNode}
    (hedit : Edited heap heap' i d x f)
    (hf : ∀ n, (f n).label = n.label ∧ (f n).down = n.down ∧ (f n).next = n.next) :
    LevelOk heap' label i l := by
  obtain ⟨n, hn, hn'⟩ := hedit.cell
  have hne : ∀ t ∈ l, t ≠ x := fun t ht heq => hx (heq ▸ ht)
  refine ⟨fun t ht => ?_, h.linked.congr fun p hp => ?_⟩
  · obtain ⟨m, hm, hlabel, hdown⟩ := h.cell t ht
    by_cases htd : t = d
    · subst htd
      obtain rfl : n = m := Option.some.inj (hn.symm.trans hm)
      exact ⟨f n, hn', (hf n).1.trans hlabel, (hf n).2.1.trans hdown⟩
    · exact ⟨m, (hedit.others t htd (hne t ht)).trans hm, hlabel, hdown⟩
  · obtain ⟨t, ht, rfl⟩ := List.mem_map.1 hp
    by_cases htd : t = d
    · subst htd
      rw [nextOf, nextOf, hn, hn']
      exact (hf n).2.2
    · rw [nextOf, nextOf, hedit.others t htd (hne t ht)]

/-- The new cell of tower `x` linked behind that of tower `d`. -/
theorem splice (h : LevelOk heap label i l) {x w : ℕ} (hd : d ∈ l) (hx : x ∉ l) (hl : l.Nodup)
    {key : ExoString} {score : ℚ} (hlabel : label x = (key.buf, score))
    (hsplice : Spliced heap heap' i d x key score w) :
    LevelOk heap' label i (insertBehind d x l) := by
  obtain ⟨n, hn, hn', hnew⟩ := hsplice.cell
  have hne : ∀ t ∈ l, t ≠ x := fun t ht heq => hx (heq ▸ ht)
  constructor
  · intro t ht
    rcases (mem_insertBehind hd).1 ht with rfl | ht
    · exact ⟨_, hnew, hlabel.symm, rfl⟩
    · obtain ⟨m, hm, hmlabel, hmdown⟩ := h.cell t ht
      by_cases htd : t = d
      · subst htd
        obtain rfl : n = m := Option.some.inj (hn.symm.trans hm)
        exact ⟨_, hn', hmlabel, hmdown⟩
      · exact ⟨m, (hsplice.others t htd (hne t ht)).trans hm, hmlabel, hmdown⟩
  · obtain ⟨pre, hsplit, hpre⟩ := eq_append_behind hd
    have hlinked := h.linked
    rw [hsplit] at hlinked hl hne ⊢
    rw [insertBehind_append hpre]
    rw [List.map_append, List.map_cons] at hlinked
    rw [List.map_append, List.map_cons, List.map_cons]
    rw [List.nodup_middle, List.nodup_cons] at hl
    refine hlinked.insert ?_ ?_ fun p hp => ?_
    · rw [nextOf, hn']
      rfl
    · rw [nextOf, nextOf, hnew, hn]
      rfl
    · rw [← List.map_append] at hp
      obtain ⟨t, ht, rfl⟩ := List.mem_map.1 hp
      have htd : t ≠ d := fun heq => hl.1 (heq ▸ ht)
      rw [nextOf, nextOf, hsplice.others t htd (hne t ?_)]
      rcases List.mem_append.1 ht with ht | ht
      · exact List.mem_append_left _ ht
      · exact List.mem_append_right _ (List.mem_cons_of_mem _ ht)

end LevelOk

namespace SkipList

variable {D C : ℕ → ℕ}

/-- The entries of `dirty` and `children` on `k` levels from `i` on. -/
def pathOf (D C : ℕ → ℕ) (i k : ℕ) : List (NodePtr × ℕ) :=
  (List.range' i k).map fun j => (⟨D j, j⟩, C j)

/-- The loop that links the cells of a new tower. -/
theorem linkTower_run {key : ExoString} {score : ℚ} {x rank i k : ℕ} {list : SkipList}
    (hcell : ∀ j, i ≤ j → j < i + k → ∃ n, list.heap ⟨D j, j⟩ = some n) (hne : ∀ j, D j ≠ x)
    (s : Server) :
    ∃ heap', linkTower key score x rank i (below x i) (pathOf D C i k) list s =
        .ok ((below x (i + k), { list with heap := heap' }), s) ∧
      (∀ j, i ≤ j → j < i + k →
        Spliced list.heap heap' j (D j) x key score (subSize rank (C j))) ∧
      ∀ p : NodePtr, p.level < i ∨ i + k ≤ p.level → heap' p = list.heap p := by
  induction k generalizing i list with
  | zero =>
      refine ⟨list.heap, rfl, fun j hi hj => ?_, fun _ _ => rfl⟩
      exact absurd hj (not_lt.2 hi)
  | succ k ih =>
      obtain ⟨n, hn⟩ := hcell i le_rfl (by omega)
      have hptr : (⟨x, i⟩ : NodePtr) ≠ ⟨D i, i⟩ := fun heq => hne i (congrArg NodePtr.tower heq).symm
      let w := subSize rank (C i)
      let new : SkipListNode := ⟨key, score, subSize n.children w, n.next, below x i⟩
      let n' : SkipListNode := { n with next := some ⟨x, i⟩, children := addSize w 1 }
      let list' : SkipList := (list.write ⟨x, i⟩ new).write ⟨D i, i⟩ n'
      have hspliced : Spliced list.heap list'.heap i (D i) x key score w := by
        refine ⟨⟨n, hn, Function.update_self _ _ _, ?_⟩, fun t htd htx => ?_⟩
        · exact (Function.update_of_ne hptr _ _).trans (Function.update_self _ _ _)
        · refine (Function.update_of_ne ?_ _ _).trans (Function.update_of_ne ?_ _ _)
          · exact fun heq => htd (congrArg NodePtr.tower heq)
          · exact fun heq => htx (congrArg NodePtr.tower heq)
      have hup : ∀ p : NodePtr, p.level ≠ i → list'.heap p = list.heap p := by
        intro p hp
        refine (Function.update_of_ne ?_ _ _).trans (Function.update_of_ne ?_ _ _)
        · exact fun heq => hp (congrArg NodePtr.level heq)
        · exact fun heq => hp (congrArg NodePtr.level heq)
      obtain ⟨heap', hrun, hlevels, hsame⟩ := @ih (i + 1) list' fun j hj hj' => by
        obtain ⟨m, hm⟩ := hcell j (by omega) (by omega)
        exact ⟨m, (hup _ (by simp only; omega)).trans hm⟩
      have hsum : i + 1 + k = i + (k + 1) := by omega
      rw [hsum] at hrun hsame hlevels
      refine ⟨heap', ?_, fun j hj hj' => ?_, fun p hp => ?_⟩
      · rw [pathOf, List.range'_succ, List.map_cons, linkTower, Effect.bind_run_ok (deref_run hn s)]
        exact hrun
      · by_cases hji : j = i
        · subst hji
          exact hspliced.congr (fun _ => rfl) fun t => hsame _ (.inl (Nat.lt_succ_self j))
        · exact (hlevels j (by omega) hj').congr (fun t => (hup _ hji).symm) fun _ => rfl
      · rw [hsame p (by omega), hup p (by omega)]

/-- The loop that widens the spans above a new tower. -/
theorem widenSpans_run {i k : ℕ} {list : SkipList} (x : ℕ)
    (hcell : ∀ j, i ≤ j → j < i + k → ∃ n, list.heap ⟨D j, j⟩ = some n) (s : Server) :
    ∃ heap', widenSpans (pathOf D C i k) list s = .ok ({ list with heap := heap' }, s) ∧
      (∀ j, i ≤ j → j < i + k → Edited list.heap heap' j (D j) x fun n =>
        { n with children := addSize n.children 1 }) ∧
      ∀ p : NodePtr, p.level < i ∨ i + k ≤ p.level → heap' p = list.heap p := by
  induction k generalizing i list with
  | zero =>
      refine ⟨list.heap, rfl, fun j hi hj => ?_, fun _ _ => rfl⟩
      exact absurd hj (not_lt.2 hi)
  | succ k ih =>
      obtain ⟨n, hn⟩ := hcell i le_rfl (by omega)
      let list' := list.write ⟨D i, i⟩ { n with children := addSize n.children 1 }
      have hup : ∀ p : NodePtr, p.level ≠ i → list'.heap p = list.heap p := fun p hp =>
        Function.update_of_ne (fun heq => hp (congrArg NodePtr.level heq)) _ _
      obtain ⟨heap', hrun, hlevels, hsame⟩ := @ih (i + 1) list' fun j hj hj' => by
        obtain ⟨m, hm⟩ := hcell j (by omega) (by omega)
        exact ⟨m, (hup _ (by simp only; omega)).trans hm⟩
      have hsum : i + 1 + k = i + (k + 1) := by omega
      rw [hsum] at hlevels hsame
      refine ⟨heap', ?_, fun j hj hj' => ?_, fun p hp => ?_⟩
      · rw [pathOf, List.range'_succ, List.map_cons, widenSpans,
          Effect.bind_run_ok (deref_run hn s)]
        exact hrun
      · by_cases hji : j = i
        · subst hji
          exact (edited_write hn x _).congr (fun _ => rfl) fun t =>
            hsame _ (.inl (Nat.lt_succ_self j))
        · exact (hlevels j (by omega) hj').congr (fun t => (hup _ hji).symm) fun _ => rfl
      · rw [hsame p (by omega), hup p (by omega)]

/-- The loop that puts new sentinels on top of the list. -/
theorem raiseLevels_run {n : ℕ} {list : SkipList} (hhead : list.head = sentinel list.levels)
    (path : List (NodePtr × ℕ)) (s : Server) :
    ∃ list' s', raiseLevels n list path s =
        .ok ((list', path ++ pathOf (fun _ => 0) (fun _ => 1) (list.levels + 1) n), s') ∧
      s' = { s with nextId := s.nextId + n } ∧
      list' = { list with
        heap := list'.heap, head := sentinel (list.levels + n), levels := list.levels + n } ∧
      (∀ p : NodePtr, p.level ≤ list.levels ∨ p.tower ≠ 0 → list'.heap p = list.heap p) ∧
      ∀ j, list.levels < j → j ≤ list.levels + n → ∃ m, list'.heap ⟨0, j⟩ = some m ∧
        m.label = (ascii "sentinel", DOUBLE_MIN) ∧ m.children = addSize list.size 1 ∧
        m.next = none ∧ m.down = below 0 j := by
  induction n generalizing list path s with
  | zero =>
      refine ⟨list, s, by rw [pathOf, List.range'_zero, List.map_nil, List.append_nil]; rfl, rfl,
        ?_, fun _ _ => rfl, ?_⟩
      · rw [Nat.add_zero, ← hhead]
      · exact fun j hj hj' => absurd hj (not_lt.2 hj')
  | succ n ih =>
      let tmp := sentinel (list.levels + 1)
      let node : SkipListNode :=
        { newSkipListNode ⟨s.nextId, ascii "sentinel"⟩ DOUBLE_MIN with
          down := some list.head, children := addSize list.size 1 }
      let raised : SkipList := { list.write tmp node with head := tmp, levels := list.levels + 1 }
      obtain ⟨list', s', hrun, hs', hlist', hsame, htop⟩ :=
        @ih raised rfl (path ++ [(tmp, 1)]) { s with nextId := s.nextId + 1 }
      have hsum : list.levels + 1 + n = list.levels + (n + 1) := by omega
      have hraised : ∀ p : NodePtr, p ≠ tmp → raised.heap p = list.heap p :=
        fun p hp => Function.update_of_ne hp _ _
      refine ⟨list', s', ?_, ?_, ?_, fun p hp => ?_, fun j hj hj' => ?_⟩
      · have hnew : newString (ascii "sentinel") s =
            .ok (⟨s.nextId, ascii "sentinel"⟩, { s with nextId := s.nextId + 1 }) := rfl
        rw [pathOf, List.range'_succ, List.map_cons, List.append_cons, raiseLevels,
          Effect.bind_run_ok hnew]
        exact hrun
      · rw [hs', Nat.add_assoc, Nat.add_comm 1]
      · rw [← hsum]
        exact hlist'
      · rw [hsame p (hp.imp_left Nat.le_succ_of_le), hraised p]
        rintro rfl
        rcases hp with hp | hp
        · exact absurd hp (Nat.not_succ_le_self _)
        · exact hp rfl
      · by_cases hjl : j = list.levels + 1
        · subst hjl
          refine ⟨node, ?_, rfl, rfl, rfl, ?_⟩
          · rw [hsame _ (.inl le_rfl)]
            exact Function.update_self _ _ _
          · change some list.head = _
            rw [hhead]
            rfl
        · exact htop j (by change list.levels + 1 < j; omega)
            (by change j ≤ list.levels + 1 + n; omega)

end SkipList

/-! ## The new list -/

/-- The towers with a new one of height `h` behind the tower `D j` of every level `j`. -/
def Towers.insert (T : Towers) (D : ℕ → ℕ) (x h : ℕ) (label : List UInt8 × ℚ) : Towers where
  levels j := if j ≤ h then (insertBehind (D j) x (0 :: T.levels j)).tail else T.levels j
  label := Function.update T.label x label
  height := Function.update T.height x h

theorem cons_tail_insertBehind (d x : ℕ) (l : List ℕ) :
    0 :: (insertBehind d x (0 :: l)).tail = insertBehind d x (0 :: l) := by
  rw [insertBehind]
  split <;> rfl

/-- The condition of the search on labels. -/
def insertCond (key : List UInt8) (score : ℚ) (a b : List UInt8 × ℚ) : Bool :=
  decide (b.2 < score) || (decide (b.2 = score) && decide (strcmp a.1 key = .lt))

theorem beforeInsert_eq (key : ExoString) (score : ℚ) :
    beforeInsert key score = labelled (insertCond key.buf score) := rfl

namespace Towers

variable {T : Towers} {D : ℕ → ℕ} {x h : ℕ} {label : List UInt8 × ℚ}

theorem levels_insert_of_le {j : ℕ} (hj : j ≤ h) :
    0 :: (T.insert D x h label).levels j = insertBehind (D j) x (0 :: T.levels j) := by
  rw [insert]
  simp only [if_pos hj]
  exact cons_tail_insertBehind _ _ _

theorem levels_insert_of_lt {j : ℕ} (hj : h < j) :
    (T.insert D x h label).levels j = T.levels j := by
  rw [insert]
  simp only [if_neg (not_le.2 hj)]

theorem mem_insert {j t : ℕ} (hD : D j ∈ 0 :: T.levels j) :
    t ∈ (T.insert D x h label).levels j ↔ t = x ∧ j ≤ h ∨ t ∈ T.levels j := by
  by_cases hj : j ≤ h
  · have hcases : (T.insert D x h label).levels j =
        if 0 = D j then x :: T.levels j else insertBehind (D j) x (T.levels j) := by
      rw [insert]
      simp only [if_pos hj]
      rw [insertBehind]
      split <;> rfl
    rw [hcases]
    by_cases h0 : 0 = D j
    · rw [if_pos h0, List.mem_cons]
      simp only [hj, and_true]
    · rw [if_neg h0, mem_insertBehind ((List.mem_cons.1 hD).resolve_left fun h => h0 h.symm)]
      simp only [hj, and_true]
  · rw [levels_insert_of_lt (not_le.1 hj)]
    simp only [hj, and_false, false_or]

theorem length_insert (hD : D 0 ∈ 0 :: T.levels 0) :
    ((T.insert D x h label).levels 0).length = (T.levels 0).length + 1 := by
  obtain ⟨pre, hpre, hnot⟩ := eq_append_behind hD
  have hlevel : 0 :: (T.insert D x h label).levels 0 = insertBehind (D 0) x (0 :: T.levels 0) :=
    levels_insert_of_le (Nat.zero_le h)
  have hlevels := congrArg List.length hlevel
  have hlength := congrArg List.length hpre
  rw [hpre, insertBehind_append hnot] at hlevels
  simp only [List.length_cons, List.length_append] at hlevels hlength
  omega

end Towers

namespace Rep

variable {list : SkipList} {T : Towers}

/-- The new tower behind nodes of its levels, whatever they are. -/
theorem insert (h : Rep list T) {D : ℕ → ℕ} (hD : ∀ j, D j ∈ 0 :: T.levels j) {key : ExoString}
    (hkey : key.buf ≠ []) (hnew : list.table.lookup key.buf = none)
    (hsize : (T.levels 0).length + 1 < 2 ^ 64) {score : ℚ} {r : ℕ} (hr : r < SKIPLIST_MAX_LEVEL)
    {list' : SkipList} (hhead : list'.head = SkipList.sentinel list'.levels)
    (hlevels : list'.levels = max list.levels r)
    (hlevel : ∀ j ≤ max list.levels r, LevelOk list'.heap
      (Function.update T.label list.fresh (key.buf, score)) j
      (0 :: (T.insert D list.fresh r (key.buf, score)).levels j))
    (htable : list'.table = list.table.putBucket key.buf
      (list.table.buckets (keyHash key.buf) ++ [newNode key ⟨list.fresh, r⟩]))
    (hsize' : list'.size = addSize list.size 1) (hfresh : list'.fresh = list.fresh + 1) :
    Rep list' (T.insert D list.fresh r (key.buf, score)) := by
  have hmem := fun j t => @Towers.mem_insert T D list.fresh r (key.buf, score) j t (hD j)
  have hx : ∀ j, list.fresh ∉ T.levels j := fun j hx =>
    h.fresh_not_mem j (List.mem_cons_of_mem _ hx)
  have hx0 : (0 : ℕ) ≠ list.fresh := fun h0 => h.fresh_not_mem 0 (h0 ▸ List.mem_cons_self)
  have hcursor := HashTable.cursor_eq_none_iff.2 hnew
  have hold : ∀ j, ∀ t ∈ T.levels j, t ≠ list.fresh := fun j t ht heq => hx j (heq ▸ ht)
  constructor
  · exact hhead
  · have hbound := h.bound
    omega
  · rw [hlevels]
    exact hlevel
  · intro i t
    rw [hmem, hmem, h.mem_iff i t]
    by_cases ht : t = list.fresh
    · subst ht
      simp only [Towers.insert, Function.update_self, Nat.zero_le, hx 0, true_and, false_and,
        or_false]
    · simp only [Towers.insert, Function.update_of_ne ht, ht, false_and, false_or]
  · intro t ht
    rw [hlevels]
    rcases (hmem 0 t).1 ht with ⟨rfl, -⟩ | ht
    · simp only [Towers.insert, Function.update_self]
      exact le_max_right _ _
    · simp only [Towers.insert, Function.update_of_ne (hold 0 t ht)]
      exact (h.height_le t ht).trans (le_max_left _ _)
  · intro j
    by_cases hj : j ≤ r
    · rw [Towers.levels_insert_of_le hj]
      exact nodup_insertBehind (h.nodup j) (hD j) (h.fresh_not_mem j)
    · rw [Towers.levels_insert_of_lt (not_le.1 hj)]
      exact h.nodup j
  · intro t ht
    rw [hfresh]
    rcases List.mem_cons.1 ht with rfl | ht
    · exact Nat.succ_pos _
    · rcases (hmem 0 t).1 ht with ⟨rfl, -⟩ | ht
      · exact Nat.lt_succ_self _
      · exact Nat.lt_succ_of_lt (h.lt_fresh t (List.mem_cons_of_mem _ ht))
  · rw [Towers.insert]
    simp only [Function.update_of_ne hx0]
    exact h.sentinel
  · rw [htable]
    exact h.keyed.keyed_append rfl rfl hkey hcursor
  · intro m p
    have hlookup : list'.table.lookup m =
        if m = key.buf then some (newNode key ⟨list.fresh, r⟩) else list.table.lookup m := by
      rw [htable]
      exact @HashTable.Keyed.lookup_append NodePtr list.table key.buf
        (newNode key ⟨list.fresh, r⟩) rfl hcursor m
    rw [hlookup]
    by_cases hm : m = key.buf
    · subst hm
      rw [if_pos rfl]
      constructor
      · rintro ⟨rfl⟩
        refine ⟨list.fresh, (hmem 0 _).2 (.inl ⟨rfl, Nat.zero_le _⟩), ?_, ?_⟩
        · simp only [Towers.insert, Function.update_self]
        · simp only [Towers.insert, Function.update_self]
          rfl
      · rintro ⟨t, ht, hlabel, rfl⟩
        rcases (hmem 0 t).1 ht with ⟨rfl, -⟩ | ht
        · simp only [Towers.insert, Function.update_self]
          rfl
        · simp only [Towers.insert, Function.update_of_ne (hold 0 t ht)] at hlabel
          have hlookup := (h.table _ _).2 ⟨t, ht, hlabel, rfl⟩
          rw [hnew] at hlookup
          cases hlookup
    · rw [if_neg hm, h.table]
      constructor
      · rintro ⟨t, ht, hlabel, rfl⟩
        refine ⟨t, (hmem 0 t).2 (.inr ht), ?_, ?_⟩
        · simp only [Towers.insert, Function.update_of_ne (hold 0 t ht)]
          exact hlabel
        · simp only [Towers.insert, Function.update_of_ne (hold 0 t ht)]
      · rintro ⟨t, ht, hlabel, rfl⟩
        rcases (hmem 0 t).1 ht with ⟨rfl, -⟩ | ht
        · simp only [Towers.insert, Function.update_self] at hlabel
          exact absurd hlabel.symm hm
        · simp only [Towers.insert, Function.update_of_ne (hold 0 t ht)] at hlabel ⊢
          exact ⟨t, ht, hlabel, rfl⟩
  · rw [hsize', h.size, Towers.length_insert (hD 0), addSize, Nat.mod_eq_of_lt hsize]

end Rep

/-- What the insertion of a tower of height `r` writes: sentinels on new levels, the cells of
the tower behind `D j`, and wider spans on the levels above it. -/
structure Inserted (list list' : SkipList) (D C : ℕ → ℕ) (r : ℕ) (key : ExoString) (score : ℚ) :
    Prop where
  levels : list'.levels = max list.levels r
  size : list'.size = addSize list.size 1
  cells : ∃ heap : NodePtr → Option SkipListNode,
    (∀ p : NodePtr, p.level ≤ list.levels ∨ p.tower ≠ 0 → heap p = list.heap p) ∧
    (∀ j, list.levels < j → j ≤ r →
      ∃ m, heap ⟨0, j⟩ = some m ∧ m.children = addSize list.size 1 ∧ m.next = none) ∧
    (∀ j ≤ r, Spliced heap list'.heap j (D j) list.fresh key score (subSize (C 0) (C j))) ∧
    ∀ j ≤ list.levels, r < j → Edited heap list'.heap j (D j) list.fresh fun n =>
      { n with children := addSize n.children 1 }

theorem Stops.congr {q : ℕ → ℕ → Bool} {L : ℕ → List ℕ} {n start : ℕ} {D D' : ℕ → ℕ}
    (h : Stops q L n start D) (heq : ∀ j ≤ n, D' j = D j) : Stops q L n start D' where
  top := (heq n le_rfl).trans h.top
  step j hj := by
    rw [heq j hj.le, heq (j + 1) hj]
    exact h.step j hj
  mem j hj := by
    rw [heq j hj]
    exact h.mem j hj

namespace SkipList

theorem pathOf_append {D C : ℕ → ℕ} {n k m : ℕ} (hn : n + k = m) :
    pathOf D C 0 n ++ pathOf D C n k = pathOf D C 0 m := by
  rw [pathOf, pathOf, ← List.map_append, pathOf, ← hn]
  exact congrArg (List.map _) (by simpa using (List.range'_append_1 (s := 0) (m := n) (n := k)))

theorem pathOf_congr {D D' C C' : ℕ → ℕ} {i k : ℕ}
    (h : ∀ j, i ≤ j → j < i + k → D j = D' j ∧ C j = C' j) : pathOf D C i k = pathOf D' C' i k := by
  refine List.map_congr_left fun j hj => ?_
  rw [List.mem_range'_1] at hj
  rw [(h j hj.1 hj.2).1, (h j hj.1 hj.2).2]

theorem take_pathOf (D C : ℕ → ℕ) {n m : ℕ} (h : n ≤ m) :
    (pathOf D C 0 m).take n = pathOf D C 0 n := by
  rw [pathOf, ← List.map_take, List.take_range'_of_length_ge h]
  rfl

theorem drop_pathOf (D C : ℕ → ℕ) (n m : ℕ) :
    (pathOf D C 0 m).drop n = pathOf D C n (m - n) := by
  rw [pathOf, ← List.map_drop, List.drop_range']
  rw [Nat.mul_one, Nat.zero_add]
  rfl

end SkipList

/-- The new tower is the next one to be allocated, its height is drawn, and it stands
behind the nodes at which the search stopped; on new levels it stands behind the sentinel. -/
theorem Rep.addNodeToSkiplist_run {list : SkipList} {T : Towers} (h : Rep list T) {key : ExoString}
    (hkey : key.buf ≠ []) (hnew : list.table.lookup key.buf = none)
    (hsize : (T.levels 0).length + 1 < 2 ^ 64) (score : ℚ) (s : Server) :
    ∃ D C list' s', list.addNodeToSkiplist key score s = .ok (list', s') ∧
      s' = { s with
        coins := fun n => s.coins (n + 1)
        nextId := s.nextId + (s.coins 0 % SKIPLIST_MAX_LEVEL - list.levels) } ∧
      list.descend (beforeInsert key score) list.levels list.head 1
          { s with coins := fun n => s.coins (n + 1) } =
        .ok (pathOf D C 0 (list.levels + 1), { s with coins := fun n => s.coins (n + 1) }) ∧
      Stops (onTowers (insertCond key.buf score) T.label) T.levels list.levels 0 D ∧
      (∀ j, list.levels < j → D j = 0 ∧ C j = 1) ∧
      Inserted list list' D C (s.coins 0 % SKIPLIST_MAX_LEVEL) key score ∧
      Rep list' (T.insert D list.fresh (s.coins 0 % SKIPLIST_MAX_LEVEL) (key.buf, score)) := by
  set s₀ : Server := { s with coins := fun n => s.coins (n + 1) } with hs₀
  set raise_to := s.coins 0 % SKIPLIST_MAX_LEVEL with hraise
  set x := list.fresh with hx
  have hraise_lt : raise_to < SKIPLIST_MAX_LEVEL := Nat.mod_lt _ (by decide)
  have hguides : ∀ j ≤ list.levels, Guides list (beforeInsert key score) _
      (fun _ _ => True) j (0 :: T.levels j) :=
    fun j hj => guides_labelled (h.level j hj) (insertCond key.buf score)
  have hcount : (fun _ _ => True : ℕ → ℕ → Prop) 0 1 := trivial
  obtain ⟨D₀, C₀, hdescend, hD₀, -⟩ := SkipList.descend_run h.level hguides
    (fun j _ => h.length_lt j) (fun j _ => h.subset j) List.mem_cons_self hcount s₀
  obtain ⟨D, hDdef⟩ : ∃ D : ℕ → ℕ, D = fun j => if j ≤ list.levels then D₀ j else 0 := ⟨_, rfl⟩
  obtain ⟨C, hCdef⟩ : ∃ C : ℕ → ℕ, C = fun j => if j ≤ list.levels then C₀ j else 1 := ⟨_, rfl⟩
  have hlow : ∀ j ≤ list.levels, D j = D₀ j ∧ C j = C₀ j := fun j hj => by
    rw [hDdef, hCdef]
    exact ⟨if_pos hj, if_pos hj⟩
  have habove : ∀ j, list.levels < j → D j = 0 ∧ C j = 1 := fun j hj => by
    rw [hDdef, hCdef]
    exact ⟨if_neg (not_le.2 hj), if_neg (not_le.2 hj)⟩
  have hD : Stops (onTowers (insertCond key.buf score) T.label) T.levels list.levels 0 D :=
    hD₀.congr fun j hj => (hlow j hj).1
  have hdescend' : list.descend (beforeInsert key score) list.levels list.head 1 s₀ =
      .ok (pathOf D C 0 (list.levels + 1), s₀) := by
    rw [h.head, beforeInsert_eq]
    refine hdescend.trans (congrArg (fun path => Except.ok (path, s₀)) ?_)
    rw [List.range_eq_range']
    exact pathOf_congr fun j _ hj => by
      rw [(hlow j (by omega)).1, (hlow j (by omega)).2]
      exact ⟨rfl, rfl⟩
  obtain ⟨raised, s', hraised, hs', hraisedEq, hsame, htop⟩ :=
    @raiseLevels_run (raise_to - list.levels) list h.head (pathOf D C 0 (list.levels + 1)) s₀
  have hlevels : list.levels + (raise_to - list.levels) = max list.levels raise_to := by omega
  have hpath : pathOf D C 0 (list.levels + 1) ++
      pathOf (fun _ => 0) (fun _ => 1) (list.levels + 1) (raise_to - list.levels) =
        pathOf D C 0 (max list.levels raise_to + 1) := by
    rw [← pathOf_append (show list.levels + 1 + (raise_to - list.levels) =
      max list.levels raise_to + 1 by omega)]
    congr 1
    refine pathOf_congr fun j hj _ => ?_
    rw [(habove j hj).1, (habove j hj).2]
    exact ⟨rfl, rfl⟩
  rw [hpath] at hraised
  -- the levels before the tower is linked
  set T' := T.insert D x raise_to (key.buf, score) with hT'
  have hx' : T'.label x = (key.buf, score) := Function.update_self _ _ _
  have hmem : ∀ j, D j ∈ 0 :: T.levels j := by
    intro j
    by_cases hj : j ≤ list.levels
    · exact hD.mem j hj
    · rw [(habove j (not_le.1 hj)).1]
      exact List.mem_cons_self
  have hok : ∀ j ≤ max list.levels raise_to, LevelOk raised.heap T'.label j (0 :: T.levels j) := by
    intro j hj
    have hlabel : ∀ t ∈ 0 :: T.levels j, T'.label t = T.label t := by
      intro t ht
      refine Function.update_of_ne ?_ _ _
      rintro rfl
      exact h.fresh_not_mem j ht
    by_cases hjl : j ≤ list.levels
    · exact (h.level j hjl).congr (fun t _ => hsame _ (.inl hjl)) hlabel
    · rw [h.levels_above (not_le.1 hjl)] at hlabel ⊢
      obtain ⟨m, hm, hmlabel, -, hmnext, hmdown⟩ := htop j (not_le.1 hjl) (hlevels ▸ hj)
      refine ⟨fun t ht => ?_, ?_, trivial⟩
      · obtain rfl := List.mem_singleton.1 ht
        exact ⟨m, hm, by rw [hlabel 0 List.mem_cons_self, h.sentinel, hmlabel], hmdown⟩
      · change nextOf raised.heap ⟨0, j⟩ = none
        rw [nextOf, hm]
        exact hmnext
  have hcell : ∀ j ≤ max list.levels raise_to, ∃ n, raised.heap ⟨D j, j⟩ = some n := fun j hj => by
    obtain ⟨n, hn, -⟩ := (hok j hj).cell (D j) (hmem j)
    exact ⟨n, hn⟩
  have hne : ∀ j, D j ≠ x := by
    rintro j heq
    have hj := hmem j
    rw [heq] at hj
    exact h.fresh_not_mem j hj
  -- the tower is linked on the levels up to its height, and the spans above it grow
  obtain ⟨heap', hlink, hspliced, hunlinked⟩ := @linkTower_run D C key score x (C 0) 0 (raise_to + 1)
    raised (fun j _ hj => hcell j (by omega)) hne s'
  rw [Nat.zero_add] at hlink hspliced hunlinked
  have hlink' : linkTower key score x (C 0) 0 none (pathOf D C 0 (raise_to + 1)) raised s' =
      .ok ((some ⟨x, raise_to⟩, { raised with heap := heap' }), s') := hlink
  obtain ⟨heap'', hwiden, hwidened, hunwidened⟩ := @widenSpans_run D C (raise_to + 1)
    (max list.levels raise_to + 1 - (raise_to + 1)) { raised with heap := heap' } x (fun j hj hj' => by
      obtain ⟨n, hn⟩ := hcell j (by omega)
      exact ⟨n, (hunlinked _ (.inr hj)).trans hn⟩) s'
  have hspliced' : ∀ j ≤ raise_to,
      Spliced raised.heap heap'' j (D j) x key score (subSize (C 0) (C j)) := fun j hj =>
    (hspliced j (Nat.zero_le _) (Nat.lt_succ_of_le hj)).congr (fun _ => rfl) fun t =>
      hunwidened _ (.inl (Nat.lt_succ_of_le hj))
  have hwidened' : ∀ j ≤ list.levels, raise_to < j → Edited raised.heap heap'' j (D j) x fun n =>
      { n with children := addSize n.children 1 } := fun j hj hjr =>
    (hwidened j hjr (by omega)).congr
      (fun t => (hunlinked ⟨t, j⟩ (.inr (Nat.succ_le_of_lt hjr))).symm) fun _ => rfl
  have htable : raised.table = list.table := by rw [hraisedEq]
  have hset := @HashTable.set_missing NodePtr _ list.table key s' h.keyed.unfreed hkey
    (HashTable.cursor_eq_none_iff.2 hnew) ⟨x, raise_to⟩
  refine ⟨D, C, { raised with
    heap := heap''
    table := list.table.putBucket key.buf (list.table.buckets (keyHash key.buf) ++
      [newNode key ⟨x, raise_to⟩])
    size := addSize raised.size 1
    fresh := x + 1 }, s', ?_, hs', hdescend', hD, habove, ⟨?_, ?_, raised.heap, hsame, ?_,
      hspliced', hwidened'⟩, ?_⟩
  · have hrandom : randomLevelRaiser s = .ok (raise_to, s₀) := rfl
    have hfresh : raised.fresh = x := by rw [hraisedEq]
    have hrank : ((pathOf D C 0 (list.levels + 1)).headD (list.head, 1)).2 = C 0 := by
      rw [pathOf, List.range'_succ, List.map_cons, List.headD_cons]
    rw [addNodeToSkiplist, Effect.bind_run_ok hrandom, Effect.bind_run_ok hdescend']
    simp only [hrank]
    rw [Effect.bind_run_ok hraised]
    simp only
    rw [hfresh, take_pathOf D C (by omega), Effect.bind_run_ok hlink']
    simp only
    rw [drop_pathOf, Effect.bind_run_ok hwiden]
    simp only
    rw [htable, Effect.bind_run_ok hset]
    simp only [hfresh]
    rfl
  · change raised.levels = _
    rw [hraisedEq, ← hlevels]
  · change addSize raised.size 1 = _
    rw [hraisedEq]
  · intro j hj hjr
    obtain ⟨m, hm, -, hchildren, hnext, -⟩ := htop j hj (by omega)
    exact ⟨m, hm, hchildren, hnext⟩
  · refine h.insert hmem hkey hnew hsize hraise_lt ?_ ?_ (fun j hj => ?_) rfl ?_ ?_
    · change raised.head = SkipList.sentinel raised.levels
      rw [hraisedEq]
    · change raised.levels = _
      rw [hraisedEq, ← hlevels]
    · by_cases hjr : j ≤ raise_to
      · rw [Towers.levels_insert_of_le hjr]
        exact (hok j hj).splice (hmem j) (h.fresh_not_mem j) (h.nodup j) hx' (hspliced' j hjr)
      · rw [Towers.levels_insert_of_lt (not_le.1 hjr)]
        exact (hok j hj).edit (h.fresh_not_mem j) (hwidened' j (by omega) (not_le.1 hjr)) fun n => ⟨rfl, rfl, rfl⟩
    · change addSize raised.size 1 = _
      rw [hraisedEq]
    · rfl

end Exoredis
