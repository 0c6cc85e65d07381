import Exoredis.SortedSet.Insert

/-!
# Removal of a tower

`removeNodeFromSkipList` takes a tower out of its levels, frees its cells from the top
down and deletes its entry of the member table. The unlinking loop goes by the bytes of
the successors up to a NUL byte: it ends in the right place if the tower stands behind the
search on its own levels and no successor above it has the same bytes, and it runs off
the tower if one has.
-/

namespace Exoredis

open SkipList

/-- The node before the tower of `m` after that is unlinked. -/
def unlinked (m n : SkipListNode) : SkipListNode :=
  { n with children := addSize n.children (subSize m.children 1), next := m.next }

@[simp] theorem unlinked_label (m n : SkipListNode) : (unlinked m n).label = n.label := by
  rw [SkipListNode.label, SkipListNode.label, unlinked]

@[simp] theorem unlinked_down (m n : SkipListNode) : (unlinked m n).down = n.down := by
  rw [unlinked]

@[simp] theorem unlinked_next (m n : SkipListNode) : (unlinked m n).next = m.next := by
  rw [unlinked]

/-- A node that passes over the tower after that is unlinked. -/
def narrowed (n : SkipListNode) : SkipListNode := { n with children := subSize n.children 1 }

theorem narrowed_links (n : SkipListNode) : (narrowed n).label = n.label ∧
    (narrowed n).down = n.down ∧ (narrowed n).next = n.next := by
  rw [SkipListNode.label, SkipListNode.label, narrowed]
  exact ⟨rfl, rfl, rfl⟩

namespace LevelOk

variable {heap heap' : NodePtr → Option SkipListNode} {label : ℕ → List UInt8 × ℚ} {i : ℕ}
  {l : List ℕ}

/-- The successor `t` of `d` unlinked. -/
theorem unlink (h : LevelOk heap label i l) {d t : ℕ} (hd : d ∈ l) (hl : l.Nodup)
    (hbehind : (behind d l).head? = some t) {m : SkipListNode} (hm : heap ⟨t, i⟩ = some m)
    (hedit : Edited heap heap' i d t (unlinked m)) : LevelOk heap' label i (l.erase t) := by
  obtain ⟨n, hn, hn'⟩ := hedit.cell
  obtain ⟨pre, rest, hsplit, herase, ht, -⟩ := exists_append_of_head?_behind hl hd hbehind
  have hcells := h.cell
  have hlinked := h.linked
  rw [hsplit] at hlinked hl hcells herase ⊢
  have hne : ∀ u ∈ pre ++ d :: rest, u ≠ t := fun u hu heq => ht (heq ▸ hu)
  rw [herase]
  refine ⟨fun u hu => ?_, ?_⟩
  · have hmem : u ∈ pre ++ d :: t :: rest := by
      rw [← herase] at hu
      exact List.mem_of_mem_erase hu
    obtain ⟨k, hk, hklabel, hkdown⟩ := hcells u hmem
    by_cases hud : u = d
    · subst hud
      obtain rfl : n = k := Option.some.inj (hn.symm.trans hk)
      exact ⟨_, hn', (unlinked_label m n).trans hklabel, (unlinked_down m n).trans hkdown⟩
    · exact ⟨k, (hedit.others u hud (hne u hu)).trans hk, hklabel, hkdown⟩
  · rw [List.nodup_middle, List.nodup_cons] at hl
    rw [List.map_append, List.map_cons, List.map_cons] at hlinked
    rw [List.map_append, List.map_cons]
    refine hlinked.remove ?_ fun p hp => ?_
    · rw [nextOf, nextOf, hn', hm]
      rfl
    · rw [← List.map_append] at hp
      obtain ⟨u, hu, rfl⟩ := List.mem_map.1 hp
      have hmem : u ∈ pre ++ d :: rest := by
        rcases List.mem_append.1 hu with hu | hu
        · exact List.mem_append_left _ hu
        · exact List.mem_append_right _ (List.mem_cons_of_mem _ hu)
      have hud : u ≠ d := by
        rintro rfl
        refine hl.1 ?_
        rcases List.mem_append.1 hu with hu | hu
        · exact List.mem_append_left _ hu
        · exact List.mem_append_right _ (List.mem_cons_of_mem _ hu)
      rw [nextOf, nextOf, hedit.others u hud (hne u hmem)]

end LevelOk

namespace SkipList

/-- On the lowest `n` levels the nodes at which a search stopped lead to tower `t` as far as
its top level `h`, and above it to any other node or to none. -/
structure Reaches (list : SkipList) (D : ℕ → ℕ) (t h n : ℕ) (target : SkipListNode) : Prop where
  bottom : list.heap ⟨t, 0⟩ = some target
  ne : ∀ j < n, D j ≠ t
  on : ∀ j < n, j ≤ h → ∃ d m, list.heap ⟨D j, j⟩ = some d ∧ d.next = some ⟨t, j⟩ ∧
    list.heap ⟨t, j⟩ = some m ∧ m.key.buf = target.key.buf ∧ m.down = below t j
  above : ∀ j < n, h < j → ∃ d, list.heap ⟨D j, j⟩ = some d ∧
    ∀ p ∈ d.next, p.level = j ∧ ∃ m, list.heap p = some m

/-- The successor on a level above the tower has its bytes up to the first NUL byte. -/
def Twin (list : SkipList) (D : ℕ → ℕ) (target : SkipListNode) (j : ℕ) : Prop :=
  ∃ d p m, list.heap ⟨D j, j⟩ = some d ∧ d.next = some p ∧ list.heap p = some m ∧
    strcmp target.key.buf m.key.buf = .eq

section

variable {list : SkipList} {D : ℕ → ℕ} {t h n : ℕ} {target : SkipListNode}

/-- The loop writes to the highest of the levels only. -/
theorem Reaches.write (hreach : Reaches list D t h (n + 1) target) (node : SkipListNode) :
    Reaches (list.write ⟨D n, n⟩ node) D t h n target := by
  have htower : ∀ j, (list.write ⟨D n, n⟩ node).heap ⟨t, j⟩ = list.heap ⟨t, j⟩ := fun j =>
    Function.update_of_ne (fun heq => hreach.ne n (Nat.lt_succ_self n) (congrArg NodePtr.tower heq).symm) _ _
  have hlow : ∀ p : NodePtr, p.level ≠ n → (list.write ⟨D n, n⟩ node).heap p = list.heap p :=
    fun p hp => Function.update_of_ne (fun heq => hp (congrArg NodePtr.level heq)) _ _
  refine ⟨(htower 0).trans hreach.bottom,
    fun j hj => hreach.ne j (Nat.lt_succ_of_lt hj), fun j hj hjh => ?_, fun j hj hjh => ?_⟩
  · obtain ⟨d, m, hd, hnext, hm, hkey, hdown⟩ := hreach.on j (Nat.lt_succ_of_lt hj) hjh
    exact ⟨d, m, (hlow _ hj.ne).trans hd, hnext, (htower j).trans hm, hkey, hdown⟩
  · obtain ⟨d, hd, hnext⟩ := hreach.above j (Nat.lt_succ_of_lt hj) hjh
    refine ⟨d, (hlow _ hj.ne).trans hd, fun p hp => ?_⟩
    obtain ⟨hlevel, m, hm⟩ := hnext p hp
    exact ⟨hlevel, m, (hlow p (by omega)).trans hm⟩

theorem unlinkTower_match {d m : SkipListNode} {p q : NodePtr} {k : SkipListNode} {i : ℕ}
    (hd : list.heap ⟨D i, i⟩ = some d) (hnext : d.next = some p) (hm : list.heap p = some m)
    (htarget : list.heap ⟨t, 0⟩ = some target)
    (hcmp : strcmp target.key.buf m.key.buf = .eq) (hq : list.heap q = some k)
    (path : List NodePtr) (s : Server) :
    unlinkTower ⟨t, 0⟩ (⟨D i, i⟩ :: path) (some q) list s =
      unlinkTower ⟨t, 0⟩ path k.down (list.write ⟨D i, i⟩ (unlinked k d)) s := by
  have hfollow : list.follow (some q) s = .ok (k, s) := deref_run hq s
  rw [unlinkTower, Effect.bind_run_ok (deref_run hd s), hnext]
  simp only
  rw [Effect.bind_run_ok (deref_run hm s), Effect.bind_run_ok (deref_run htarget s), if_pos hcmp,
    Effect.bind_run_ok hfollow]
  rfl

theorem unlinkTower_pass {d : SkipListNode} {i : ℕ} (hd : list.heap ⟨D i, i⟩ = some d)
    (hnext : ∀ p ∈ d.next, ∃ m, list.heap p = some m ∧
      strcmp target.key.buf m.key.buf ≠ .eq)
    (htarget : list.heap ⟨t, 0⟩ = some target) (node : Option NodePtr) (path : List NodePtr)
    (s : Server) :
    unlinkTower ⟨t, 0⟩ (⟨D i, i⟩ :: path) node list s =
      unlinkTower ⟨t, 0⟩ path node (list.write ⟨D i, i⟩ (narrowed d)) s := by
  rw [unlinkTower, Effect.bind_run_ok (deref_run hd s), narrowed]
  cases hp : d.next with
  | none => rfl
  | some p =>
      obtain ⟨m, hm, hcmp⟩ := hnext p hp
      simp only
      rw [Effect.bind_run_ok (deref_run hm s), Effect.bind_run_ok (deref_run htarget s),
        if_neg hcmp]

theorem reverse_range_succ (f : ℕ → NodePtr) (n : ℕ) :
    (List.range (n + 1)).reverse.map f = f n :: (List.range n).reverse.map f := by
  rw [List.range_succ, List.reverse_append, List.reverse_singleton, List.singleton_append,
    List.map_cons]

/-- The loop that unlinks tower `t`, run on the lowest `n` levels without a twin. -/
theorem unlinkTower_run (hreach : Reaches list D t h n target)
    (htwin : ∀ j < n, h < j → ¬ Twin list D target j) (s : Server) :
    ∃ heap', unlinkTower ⟨t, 0⟩ ((List.range n).reverse.map fun j => ⟨D j, j⟩)
        (below t (min n (h + 1))) list s = .ok ({ list with heap := heap' }, s) ∧
      (∀ j < n, j ≤ h → ∃ m, list.heap ⟨t, j⟩ = some m ∧
        Edited list.heap heap' j (D j) t (unlinked m)) ∧
      (∀ j < n, h < j → Edited list.heap heap' j (D j) t narrowed) ∧
      (∀ j, heap' ⟨t, j⟩ = list.heap ⟨t, j⟩) ∧ ∀ p : NodePtr, n ≤ p.level → heap' p = list.heap p := by
  induction n generalizing list with
  | zero => exact ⟨list.heap, rfl, by simp, by simp, fun _ => rfl, fun _ _ => rfl⟩
  | succ n ih =>
      -- what is written on level `n`
      obtain ⟨node, hstep, hedit, hedit'⟩ : ∃ node,
          unlinkTower ⟨t, 0⟩ ((List.range (n + 1)).reverse.map fun j => ⟨D j, j⟩)
              (below t (min (n + 1) (h + 1))) list s =
            unlinkTower ⟨t, 0⟩ ((List.range n).reverse.map fun j => ⟨D j, j⟩)
              (below t (min n (h + 1))) (list.write ⟨D n, n⟩ node) s ∧
          (n ≤ h → ∃ m, list.heap ⟨t, n⟩ = some m ∧
            Edited list.heap (list.write ⟨D n, n⟩ node).heap n (D n) t (unlinked m)) ∧
          (h < n → Edited list.heap (list.write ⟨D n, n⟩ node).heap n (D n) t narrowed) := by
        rw [reverse_range_succ]
        by_cases hn : n ≤ h
        · obtain ⟨d, m, hd, hnext, hm, hkey, hdown⟩ := hreach.on n (Nat.lt_succ_self n) hn
          refine ⟨unlinked m d, ?_, fun _ => ⟨m, hm, edited_write hd t _⟩, fun hlt => ?_⟩
          · have hcmp : strcmp target.key.buf m.key.buf = .eq := by
              rw [hkey]
              exact (strcmp_eq_iff _ _).2 rfl
            rw [Nat.min_eq_left (Nat.succ_le_succ hn), below,
              unlinkTower_match hd hnext hm hreach.bottom hcmp hm, hdown,
              Nat.min_eq_left (Nat.le_succ_of_le hn)]
          · exact absurd hlt (not_lt.2 hn)
        · obtain ⟨d, hd, hnext⟩ := hreach.above n (Nat.lt_succ_self n) (not_le.1 hn)
          refine ⟨narrowed d, ?_, fun hle => absurd hle hn, fun _ => edited_write hd t _⟩
          rw [unlinkTower_pass hd (fun p hp => ?_) hreach.bottom,
            Nat.min_eq_right (show h + 1 ≤ n + 1 by omega), Nat.min_eq_right (show h + 1 ≤ n by omega)]
          obtain ⟨-, m, hm⟩ := hnext p hp
          exact ⟨m, hm, fun hcmp =>
            htwin n (Nat.lt_succ_self n) (not_le.1 hn) ⟨d, p, m, hd, hp, hm, hcmp⟩⟩
      have htower : ∀ j, (list.write ⟨D n, n⟩ node).heap ⟨t, j⟩ = list.heap ⟨t, j⟩ := fun j =>
        Function.update_of_ne (fun heq => hreach.ne n (Nat.lt_succ_self n) (congrArg NodePtr.tower heq).symm) _ _
      have hlow : ∀ p : NodePtr, p.level ≠ n → (list.write ⟨D n, n⟩ node).heap p = list.heap p :=
        fun p hp => Function.update_of_ne (fun heq => hp (congrArg NodePtr.level heq)) _ _
      obtain ⟨heap', hrun, hon, habove, hkept, hrest⟩ := ih (hreach.write node) fun j hj hjh => by
        rintro ⟨d, p, m, hd, hnext, hm, hcmp⟩
        rw [hlow _ hj.ne] at hd
        obtain ⟨d', hd', hnext'⟩ := hreach.above j (Nat.lt_succ_of_lt hj) hjh
        obtain rfl : d = d' := Option.some.inj (hd.symm.trans hd')
        rw [hlow p (by rw [(hnext' p hnext).1]; exact hj.ne)] at hm
        exact htwin j (Nat.lt_succ_of_lt hj) hjh ⟨d, p, m, hd, hnext, hm, hcmp⟩
      refine ⟨heap', hstep.trans hrun, fun j hj hjh => ?_, fun j hj hjh => ?_,
        fun j => (hkept j).trans (htower j), fun p hp => ?_⟩
      · rcases Nat.lt_succ_iff_lt_or_eq.1 hj with hj | rfl
        · obtain ⟨m, hm, hedited⟩ := hon j hj hjh
          rw [htower j] at hm
          exact ⟨m, hm, hedited.congr (fun u => (hlow _ hj.ne).symm) fun _ => rfl⟩
        · obtain ⟨m, hm, hedited⟩ := hedit hjh
          exact ⟨m, hm, hedited.congr (fun _ => rfl) fun u => hrest _ le_rfl⟩
      · rcases Nat.lt_succ_iff_lt_or_eq.1 hj with hj | rfl
        · exact (habove j hj hjh).congr (fun u => (hlow _ hj.ne).symm) fun _ => rfl
        · exact (hedit' hjh).congr (fun _ => rfl) fun u => hrest _ le_rfl
      · rw [hrest p (Nat.le_of_succ_le hp), hlow p (by omega)]

/-- With fewer cells left than the loop has to unlink, it follows the missing one. -/
theorem unlinkTower_null (hreach : Reaches list D t h n target) {k : ℕ} (hk : k < min n (h + 1))
    (s : Server) :
    unlinkTower ⟨t, 0⟩ ((List.range n).reverse.map fun j => ⟨D j, j⟩) (below t k) list s =
      .error .nullDereference := by
  induction n generalizing list k with
  | zero => exact absurd hk (by omega)
  | succ n ih =>
      rw [reverse_range_succ]
      -- a level that takes a cell of the tower
      have htake : ∀ d p m, list.heap ⟨D n, n⟩ = some d → d.next = some p → list.heap p = some m →
          strcmp target.key.buf m.key.buf = .eq → k < n + 1 → k < h + 1 →
          (k ≠ 0 → k - 1 < min n (h + 1)) →
          unlinkTower ⟨t, 0⟩ (⟨D n, n⟩ :: (List.range n).reverse.map fun j => ⟨D j, j⟩) (below t k)
            list s = .error .nullDereference := by
        intro d p m hd hnext hm hcmp hkn hkh hk'
        cases k with
        | zero =>
            rw [below, unlinkTower, Effect.bind_run_ok (deref_run hd s), hnext]
            simp only
            rw [Effect.bind_run_ok (deref_run hm s),
              Effect.bind_run_ok (deref_run hreach.bottom s), if_pos hcmp]
            rfl
        | succ k =>
            obtain ⟨-, c, -, -, hc, -, hdown⟩ := hreach.on k (by omega) (by omega)
            rw [below, unlinkTower_match hd hnext hm hreach.bottom hcmp hc, hdown]
            exact ih (hreach.write _) (hk' (Nat.succ_ne_zero k))
      by_cases hn : n ≤ h
      · obtain ⟨d, m, hd, hnext, hm, hkey, -⟩ := hreach.on n (Nat.lt_succ_self n) hn
        refine htake d _ m hd hnext hm ?_ (by omega) (by omega) fun hk0 => by omega
        rw [hkey]
        exact (strcmp_eq_iff _ _).2 rfl
      · obtain ⟨d, hd, hnext⟩ := hreach.above n (Nat.lt_succ_self n) (not_le.1 hn)
        by_cases htwin : ∃ p m, d.next = some p ∧ list.heap p = some m ∧
            strcmp target.key.buf m.key.buf = .eq
        · obtain ⟨p, m, hp, hm, hcmp⟩ := htwin
          exact htake d p m hd hp hm hcmp (by omega) (by omega) fun hk0 => by omega
        · rw [unlinkTower_pass hd (fun p hp => ?_) hreach.bottom]
          · exact ih (hreach.write _) (by omega)
          · obtain ⟨-, m, hm⟩ := hnext p hp
            exact ⟨m, hm, fun hcmp => htwin ⟨p, m, hp, hm, hcmp⟩⟩

/-- A twin above the tower takes a cell of it, which is missing below. -/
theorem unlinkTower_twin (hreach : Reaches list D t h n target) {i : ℕ} (hi : i < n) (hhi : h < i)
    (htwin : Twin list D target i) (s : Server) :
    unlinkTower ⟨t, 0⟩ ((List.range n).reverse.map fun j => ⟨D j, j⟩)
      (below t (min n (h + 1))) list s = .error .nullDereference := by
  induction n generalizing list with
  | zero => cases hi
  | succ n ih =>
      rw [reverse_range_succ, Nat.min_eq_right (show h + 1 ≤ n + 1 by omega)]
      obtain ⟨d, hd, hnext⟩ := hreach.above n (Nat.lt_succ_self n) (by omega)
      by_cases hmatch : ∃ p m, d.next = some p ∧ list.heap p = some m ∧
          strcmp target.key.buf m.key.buf = .eq
      · obtain ⟨p, m, hp, hm, hcmp⟩ := hmatch
        obtain ⟨-, c, -, -, hc, -, hdown⟩ := hreach.on h (by omega) le_rfl
        rw [below, unlinkTower_match hd hp hm hreach.bottom hcmp hc, hdown]
        exact unlinkTower_null (hreach.write _) (by omega) s
      · rw [unlinkTower_pass hd (fun p hp => ?_) hreach.bottom]
        · have hlow : ∀ p : NodePtr, p.level ≠ n →
              (list.write ⟨D n, n⟩ (narrowed d)).heap p = list.heap p :=
            fun p hp => Function.update_of_ne (fun heq => hp (congrArg NodePtr.level heq)) _ _
          obtain ⟨e, p, m, he, hep, hm, hcmp⟩ := htwin
          have hin : i < n := by
            refine lt_of_le_of_ne (Nat.le_of_lt_succ hi) ?_
            rintro rfl
            obtain rfl : d = e := Option.some.inj (hd.symm.trans he)
            exact hmatch ⟨p, m, hep, hm, hcmp⟩
          obtain ⟨e', he', hnext'⟩ := hreach.above i hi hhi
          obtain rfl : e = e' := Option.some.inj (he.symm.trans he')
          rw [← Nat.min_eq_right (show h + 1 ≤ n by omega)]
          refine ih (hreach.write _) hin ⟨e, p, m, (hlow _ hin.ne).trans he, hep, ?_, hcmp⟩
          exact (hlow p (by rw [(hnext' p hep).1]; exact hin.ne)).trans hm
        · obtain ⟨-, m, hm⟩ := hnext p hp
          exact ⟨m, hm, fun hcmp => hmatch ⟨p, m, hp, hm, hcmp⟩⟩

end

/-- The cells of a tower are freed from the top down. -/
theorem freeSkipListNode_run {t n fuel : ℕ} {list : SkipList} (hfuel : n ≤ fuel)
    (hcell : ∀ j < n, ∃ m, list.heap ⟨t, j⟩ = some m ∧ m.down = below t j) (s : Server) :
    ∃ heap', freeSkipListNode fuel (below t n) list s = .ok ({ list with heap := heap' }, s) ∧
      ∀ p : NodePtr, p.tower ≠ t → heap' p = list.heap p := by
  induction n generalizing fuel list with
  | zero =>
      refine ⟨list.heap, ?_, fun _ _ => rfl⟩
      cases fuel <;> rfl
  | succ n ih =>
      cases fuel with
      | zero => cases hfuel
      | succ fuel =>
          obtain ⟨m, hm, hdown⟩ := hcell n (Nat.lt_succ_self n)
          obtain ⟨heap', hrun, hsame⟩ := @ih fuel
            { list with heap := Function.update list.heap ⟨t, n⟩ none } (by omega) fun j hj => by
              obtain ⟨k, hk, hkdown⟩ := hcell j (Nat.lt_succ_of_lt hj)
              refine ⟨k, ?_, hkdown⟩
              rw [← hk]
              exact Function.update_of_ne (fun heq => hj.ne (congrArg NodePtr.level heq)) _ _
          refine ⟨heap', ?_, fun p hp => ?_⟩
          · rw [below, freeSkipListNode, Effect.bind_run_ok (deref_run hm s), hdown]
            exact hrun
          · rw [hsame p hp]
            exact Function.update_of_ne (fun heq => hp (congrArg NodePtr.tower heq)) _ _

end SkipList

/-! ## The new list -/

/-- The towers without `t`. -/
def Towers.remove (T : Towers) (t : ℕ) : Towers :=
  { T with levels := fun j => (T.levels j).erase t }

/-- The condition of the search on labels. -/
def removeCond (key : List UInt8) (score : ℚ) (_ b : List UInt8 × ℚ) : Bool :=
  decide (b.2 < score) || (decide (b.2 = score) && decide (strcmp b.1 key = .lt))

theorem beforeRemove_eq (key : ExoString) (score : ℚ) :
    beforeRemove key score = labelled (removeCond key.buf score) := rfl

namespace Rep

variable {list : SkipList} {T : Towers}

/-- One tower fewer. -/
theorem remove (h : Rep list T) {t : ℕ} (ht : t ∈ T.levels 0)
    (hsize : (T.levels 0).length < 2 ^ 64) {list' : SkipList} (hhead : list'.head = list.head)
    (hlevels : list'.levels = list.levels)
    (hlevel : ∀ j ≤ list.levels, LevelOk list'.heap T.label j ((0 :: T.levels j).erase t))
    {c : Cursor NodePtr} (hc : list.table.cursor (T.label t).1 = some c)
    (htable : list'.table = list.table.putBucket (T.label t).1 (c.before ++ c.after))
    (hsize' : list'.size = subSize list.size 1) (hfresh : list'.fresh = list.fresh) :
    Rep list' (T.remove t) := by
  have ht0 : (0 : ℕ) ≠ t := by
    rintro rfl
    exact (List.nodup_cons.1 (h.nodup 0)).1 ht
  have hcons : ∀ j, (0 :: T.levels j).erase t = 0 :: (T.remove t).levels j := by
    intro j
    rw [List.erase_cons_tail (by simpa using ht0)]
    rfl
  have hmem : ∀ j u, u ∈ (T.remove t).levels j ↔ u ≠ t ∧ u ∈ T.levels j := fun j u =>
    (List.nodup_cons.1 (h.nodup j)).2.mem_erase_iff
  constructor
  · rw [hhead, h.head, hlevels]
  · rw [hlevels]
    exact h.bound
  · intro j hj
    rw [← hcons]
    exact hlevel j (hlevels ▸ hj)
  · intro i u
    rw [hmem, hmem, h.mem_iff i u, and_assoc]
    rfl
  · intro u hu
    rw [hlevels]
    exact h.height_le u ((hmem 0 u).1 hu).2
  · intro j
    rw [← hcons]
    exact (h.nodup j).erase t
  · intro u hu
    rw [hfresh]
    rw [← hcons] at hu
    exact h.lt_fresh u (List.mem_of_mem_erase hu)
  · exact h.sentinel
  · rw [htable]
    exact h.keyed.keyed_remove hc
  · intro m p
    rw [htable, h.keyed.lookup_remove hc]
    by_cases hm : m = (T.label t).1
    · subst hm
      rw [if_pos rfl]
      constructor
      · rintro ⟨⟩
      · rintro ⟨u, hu, hlabel, -⟩
        exact absurd (h.key_injective ((hmem 0 u).1 hu).2 ht hlabel) ((hmem 0 u).1 hu).1
    · rw [if_neg hm, h.table]
      constructor
      · rintro ⟨u, hu, hlabel, hp⟩
        refine ⟨u, (hmem 0 u).2 ⟨?_, hu⟩, hlabel, hp⟩
        rintro rfl
        exact hm hlabel.symm
      · rintro ⟨u, hu, hlabel, hp⟩
        exact ⟨u, ((hmem 0 u).1 hu).2, hlabel, hp⟩
  · have hpos := List.length_pos_of_mem ht
    have hlength := List.length_erase_of_mem ht
    rw [hsize', h.size, Towers.remove, hlength, subSize]
    omega

end Rep

/-- What the removal of tower `t` of height `h` writes: new links and spans before its cells
and narrower spans above it. -/
structure Removed (list list' : SkipList) (D : ℕ → ℕ) (t h : ℕ) : Prop where
  levels : list'.levels = list.levels
  size : list'.size = subSize list.size 1
  fresh : list'.fresh = list.fresh
  on : ∀ j ≤ h, ∃ m, list.heap ⟨t, j⟩ = some m ∧ Edited list.heap list'.heap j (D j) t (unlinked m)
  above : ∀ j ≤ list.levels, h < j → Edited list.heap list'.heap j (D j) t narrowed

/-- The tower behind the place at which a search left level `j`. -/
def Towers.successor (T : Towers) (D : ℕ → ℕ) (j : ℕ) : Option ℕ :=
  (behind (D j) (0 :: T.levels j)).head?

theorem Towers.mem_of_successor {T : Towers} {D : ℕ → ℕ} {j u : ℕ}
    (hu : T.successor D j = some u) : u ∈ T.levels j :=
  behind_cons_subset (List.mem_of_head? hu)

namespace Rep

variable {list : SkipList} {T : Towers} (h : Rep list T)

include h

theorem next_eq {D : ℕ → ℕ} {j : ℕ} (hj : j ≤ list.levels) (hmem : D j ∈ 0 :: T.levels j)
    {d : SkipListNode} (hd : list.heap ⟨D j, j⟩ = some d) :
    d.next = (T.successor D j).map fun u => ⟨u, j⟩ := by
  obtain ⟨pre, hsplit, -⟩ := eq_append_behind hmem
  have hlevel := h.level j hj
  rw [hsplit] at hlevel
  have hnext := hlevel.next
  rwa [nextOf, hd] at hnext

variable {t : ℕ} (ht : t ∈ T.levels 0) {D : ℕ → ℕ} (hmem : ∀ j ≤ list.levels, D j ∈ 0 :: T.levels j)

include ht hmem

theorem reaches (hsearch : ∀ j ≤ T.height t, T.successor D j = some t) :
    ∃ target, target.label = T.label t ∧
      Reaches list D t (T.height t) (list.levels + 1) target := by
  obtain ⟨target, htarget, hlabel, -⟩ := (h.level 0 (Nat.zero_le _)).cell t
    (List.mem_cons_of_mem _ ht)
  have ht0 := h.height_le t ht
  refine ⟨target, hlabel, htarget, fun j hj heq => ?_, fun j hj hjt => ?_, fun j hj hjt => ?_⟩
  · have hnodup := h.nodup j
    have hj' := hmem j (Nat.le_of_lt_succ hj)
    by_cases hjt : j ≤ T.height t
    · obtain ⟨pre, hsplit, -⟩ := eq_append_behind hj'
      have htb := List.mem_of_head? (hsearch j hjt)
      rw [hsplit, List.nodup_append, List.nodup_cons, heq] at hnodup
      rw [heq] at htb
      exact hnodup.2.1.1 htb
    · rw [heq] at hj'
      rcases List.mem_cons.1 hj' with h0 | hj'
      · exact h.ne_zero ht h0
      · exact hjt ((h.mem_iff j t).1 hj').2
  · obtain ⟨d, hd, -⟩ := (h.level j (Nat.le_of_lt_succ hj)).cell (D j)
      (hmem j (Nat.le_of_lt_succ hj))
    obtain ⟨m, hm, hmlabel, hmdown⟩ := (h.level j (Nat.le_of_lt_succ hj)).cell t
      (List.mem_cons_of_mem _ ((h.mem_iff j t).2 ⟨ht, hjt⟩))
    refine ⟨d, m, hd, ?_, hm, ?_, hmdown⟩
    · rw [h.next_eq (Nat.le_of_lt_succ hj) (hmem j (Nat.le_of_lt_succ hj)) hd, hsearch j hjt]
      rfl
    · exact congrArg Prod.fst (hmlabel.trans hlabel.symm)
  · obtain ⟨d, hd, -⟩ := (h.level j (Nat.le_of_lt_succ hj)).cell (D j)
      (hmem j (Nat.le_of_lt_succ hj))
    refine ⟨d, hd, fun p hp => ?_⟩
    rw [h.next_eq (Nat.le_of_lt_succ hj) (hmem j (Nat.le_of_lt_succ hj)) hd] at hp
    obtain ⟨u, hu, rfl⟩ := Option.map_eq_some_iff.1 hp
    obtain ⟨m, hm, -⟩ := (h.level j (Nat.le_of_lt_succ hj)).cell u
      (List.mem_cons_of_mem _ (Towers.mem_of_successor hu))
    exact ⟨rfl, m, hm⟩

omit ht in
theorem twin_iff {target : SkipListNode} (htarget : target.label = T.label t) {j : ℕ}
    (hj : j ≤ list.levels) : Twin list D target j ↔
      ∃ u, T.successor D j = some u ∧ strcmp (T.label t).1 (T.label u).1 = .eq := by
  have hkey : target.key.buf = (T.label t).1 := congrArg Prod.fst htarget
  constructor
  · rintro ⟨d, p, m, hd, hp, hm, hcmp⟩
    rw [h.next_eq hj (hmem j hj) hd] at hp
    obtain ⟨u, hu, rfl⟩ := Option.map_eq_some_iff.1 hp
    obtain ⟨m', hm', hlabel, -⟩ := (h.level j hj).cell u (List.mem_cons_of_mem _ (Towers.mem_of_successor hu))
    obtain rfl : m = m' := Option.some.inj (hm.symm.trans hm')
    rw [hkey, show m.key.buf = (T.label u).1 from congrArg Prod.fst hlabel] at hcmp
    exact ⟨u, hu, hcmp⟩
  · rintro ⟨u, hu, hcmp⟩
    obtain ⟨d, hd, -⟩ := (h.level j hj).cell (D j) (hmem j hj)
    obtain ⟨m, hm, hlabel, -⟩ := (h.level j hj).cell u (List.mem_cons_of_mem _ (Towers.mem_of_successor hu))
    refine ⟨d, ⟨u, j⟩, m, hd, ?_, hm, ?_⟩
    · rw [h.next_eq hj (hmem j hj) hd, hu]
      rfl
    · rw [hkey, show m.key.buf = (T.label u).1 from congrArg Prod.fst hlabel]
      exact hcmp

end Rep

namespace Rep

variable {list : SkipList} {T : Towers} (h : Rep list T) {t : ℕ} (ht : t ∈ T.levels 0)
  {key : ExoString} (hkey : key.buf = (T.label t).1) {score : ℚ} (hscore : score = (T.label t).2)
  (hsearch : ∀ D, Stops (onTowers (removeCond key.buf score) T.label) T.levels list.levels 0 D →
    ∀ j ≤ T.height t, T.successor D j = some t)

include h ht hkey hscore hsearch

/-- A removal up to its unlinking loop. -/
theorem removeNodeFromSkipList_eq (s : Server) : ∃ D target,
    Stops (onTowers (removeCond key.buf score) T.label) T.levels list.levels 0 D ∧
      target.label = T.label t ∧ Reaches list D t (T.height t) (list.levels + 1) target ∧
      list.removeNodeFromSkipList key score ⟨t, T.height t⟩ s =
        (do
          let list ← unlinkTower ⟨t, 0⟩ ((List.range (list.levels + 1)).reverse.map fun j => ⟨D j, j⟩)
            (below t (min (list.levels + 1) (T.height t + 1))) list
          let list ← freeSkipListNode list.nodeBound (some ⟨t, T.height t⟩) list
          let (_, table) ← list.table.del key
          return { list with table := table, size := subSize list.size 1 } : Exo SkipList) s := by
  obtain ⟨D, path, hdescend, hpath, hD⟩ := h.descend_run (removeCond key.buf score) 0 s
  obtain ⟨target, hlabel, hreach⟩ := h.reaches ht hD.mem (hsearch D hD)
  refine ⟨D, target, hD, hlabel, hreach, ?_⟩
  have hhead : (path.headD (list.head, 0)).1 = ⟨D 0, 0⟩ := by
    rw [List.range_succ_eq_map, List.map_cons] at hpath
    cases path with
    | nil => cases hpath
    | cons e path => exact (List.cons.inj hpath).1
  obtain ⟨d, -, hd, hnext, -⟩ := hreach.on 0 (Nat.succ_pos _) (Nat.zero_le _)
  have hfound : score = target.score ∧ strcmp target.key.buf key.buf = .eq := by
    rw [hscore, hkey, show target.score = (T.label t).2 from congrArg Prod.snd hlabel,
      show target.key.buf = (T.label t).1 from congrArg Prod.fst hlabel]
    exact ⟨rfl, (strcmp_eq_iff _ _).2 rfl⟩
  have hreverse : path.reverse.map Prod.fst =
      (List.range (list.levels + 1)).reverse.map fun j => ⟨D j, j⟩ := by
    rw [List.map_reverse, hpath, List.map_reverse]
  have hnode : below t (min (list.levels + 1) (T.height t + 1)) = some ⟨t, T.height t⟩ := by
    rw [Nat.min_eq_right (Nat.succ_le_succ (h.height_le t ht))]
    rfl
  rw [removeNodeFromSkipList, beforeRemove_eq, Effect.bind_run_ok hdescend, hhead,
    Effect.bind_run_ok (deref_run hd s), hnext]
  simp only
  rw [Effect.bind_run_ok (deref_run hreach.bottom s), if_pos hfound, hreverse, hnode]

/-- A tower is taken out if no successor above it is a twin of it. -/
theorem removeNodeFromSkipList_run (hsize : (T.levels 0).length < 2 ^ 64)
    (htwin : ∀ D, Stops (onTowers (removeCond key.buf score) T.label) T.levels list.levels 0 D →
      ∀ j ≤ list.levels, T.height t < j → ∀ u, T.successor D j = some u →
        strcmp (T.label t).1 (T.label u).1 ≠ .eq) (s : Server) :
    ∃ D list' s' freed, list.removeNodeFromSkipList key score ⟨t, T.height t⟩ s = .ok (list', s') ∧
      s' = { s with
        freed := freed
        GARBAGE_LIST := s.GARBAGE_LIST ++ [.sortedSetEntry ⟨t, T.height t⟩] } ∧
      Stops (onTowers (removeCond key.buf score) T.label) T.levels list.levels 0 D ∧
      Removed list list' D t (T.height t) ∧ Rep list' (T.remove t) := by
  obtain ⟨D, target, hD, hlabel, hreach, hrun⟩ :=
    h.removeNodeFromSkipList_eq ht hkey hscore hsearch s
  have htop := h.height_le t ht
  have hmem : ∀ j ≤ T.height t, t ∈ T.levels j := fun j hj => (h.mem_iff j t).2 ⟨ht, hj⟩
  -- it is unlinked and freed
  obtain ⟨heap', hunlink, hon, habove, hkept, -⟩ := unlinkTower_run hreach (fun j hj hjt hmatch => by
    obtain ⟨u, hu, hcmp⟩ := (h.twin_iff hD.mem hlabel (Nat.le_of_lt_succ hj)).1 hmatch
    exact htwin D hD j (Nat.le_of_lt_succ hj) hjt u hu hcmp) s
  have hfuel : T.height t + 1 ≤ { list with heap := heap' }.nodeBound := by
    have hbound := h.bound
    unfold nodeBound
    exact (Nat.succ_le_of_lt (lt_of_le_of_lt htop hbound)).trans (Nat.le_mul_of_pos_right _ (by simp))
  obtain ⟨heap'', hfree, hfreed⟩ := @freeSkipListNode_run t (T.height t + 1) _
    { list with heap := heap' } hfuel (fun j hj => by
      obtain ⟨m, hm, -, hdown⟩ := (h.level j ((Nat.le_of_lt_succ hj).trans htop)).cell t
        (List.mem_cons_of_mem _ (hmem j (Nat.le_of_lt_succ hj)))
      exact ⟨m, (hkept j).trans hm, hdown⟩) s
  rw [show below t (T.height t + 1) = some ⟨t, T.height t⟩ from rfl] at hfree
  have hedited : ∀ {j f}, j < list.levels + 1 → Edited list.heap heap' j (D j) t f →
      Edited list.heap heap'' j (D j) t f := by
    intro j f hj hedit
    obtain ⟨n, hn, hn'⟩ := hedit.cell
    exact ⟨⟨n, hn, (hfreed _ (hreach.ne j hj)).trans hn'⟩, fun u hu hut =>
      (hfreed _ hut).trans (hedit.others u hu hut)⟩
  -- its entry is deleted
  have hlookup := (h.table (T.label t).1 ⟨t, T.height t⟩).2 ⟨t, ht, rfl, rfl⟩
  obtain ⟨node, hentry, hvalue⟩ := Option.map_eq_some_iff.1 hlookup
  obtain ⟨c, hc, hcnode⟩ := HashTable.cursor_of_lookup hentry
  have hne : key.buf ≠ [] := by
    obtain ⟨hnodeMem, hnodeKey⟩ := HashTable.mem_of_lookup hentry
    rw [hkey, ← hnodeKey]
    exact h.keyed.nonempty _ _ hnodeMem
  have hc' := hc
  rw [← hkey] at hc'
  have hdel := HashTable.del_found (s := s) h.keyed.unfreed hne hc'
  rw [hcnode, hvalue] at hdel
  refine ⟨D, { list with
    heap := heap''
    table := list.table.putBucket key.buf (c.before ++ c.after)
    size := subSize list.size 1 }, _, node.key.id :: s.freed, ?_, rfl, hD, ⟨rfl, rfl, rfl, ?_, ?_⟩, ?_⟩
  · rw [hrun, Effect.bind_run_ok hunlink, Effect.bind_run_ok hfree, Effect.bind_run_ok hdel]
    rfl
  · intro j hj
    obtain ⟨m, hm, hedit⟩ := hon j (by omega) hj
    exact ⟨m, hm, hedited (by omega) hedit⟩
  · exact fun j hj hjt => hedited (Nat.lt_succ_of_le hj) (habove j (Nat.lt_succ_of_le hj) hjt)
  · refine h.remove ht hsize rfl rfl (fun j hj => ?_) hc (by rw [hkey]) rfl rfl
    have hj' := Nat.lt_succ_of_le hj
    by_cases hjt : j ≤ T.height t
    · obtain ⟨m, hm, hedit⟩ := hon j hj' hjt
      exact (h.level j hj).unlink (hD.mem j hj) (h.nodup j) (hsearch D hD j hjt) hm
        (hedited hj' hedit)
    · have htl : t ∉ 0 :: T.levels j := by
        rw [List.mem_cons, not_or]
        exact ⟨h.ne_zero ht, fun hmem => hjt ((h.mem_iff j t).1 hmem).2⟩
      rw [List.erase_of_not_mem htl]
      exact (h.level j hj).edit htl (hedited hj' (habove j hj' (not_le.1 hjt)))
        narrowed_links

/-- The removal runs off the tower if some successor above it is a twin of it. -/
theorem removeNodeFromSkipList_twin
    (htwin : ∀ D, Stops (onTowers (removeCond key.buf score) T.label) T.levels list.levels 0 D →
      ∃ j ≤ list.levels, T.height t < j ∧ ∃ u, T.successor D j = some u ∧
        strcmp (T.label t).1 (T.label u).1 = .eq) (s : Server) :
    list.removeNodeFromSkipList key score ⟨t, T.height t⟩ s = .error .nullDereference := by
  obtain ⟨D, target, hD, hlabel, hreach, hrun⟩ :=
    h.removeNodeFromSkipList_eq ht hkey hscore hsearch s
  obtain ⟨j, hj, hjt, u, hu, hcmp⟩ := htwin D hD
  rw [hrun, Effect.bind_run_error (unlinkTower_twin hreach (Nat.lt_succ_of_le hj) hjt
    ((h.twin_iff hD.mem hlabel hj).2 ⟨u, hu, hcmp⟩) s)]

end Rep

/-! ## Before and behind the removal of a tower -/

namespace Rep

variable {list : SkipList} {T : Towers} (h : Rep list T) {t : ℕ} (ht : t ∈ T.levels 0)

include h ht

theorem deref_top (s : Server) :
    ∃ n, list.deref ⟨t, T.height t⟩ s = .ok (n, s) ∧ n.score = (T.label t).2 := by
  obtain ⟨n, hn, hlabel, -⟩ := (h.level _ (h.height_le t ht)).cell t
    (List.mem_cons_of_mem _ ((h.mem_iff _ t).2 ⟨ht, le_rfl⟩))
  exact ⟨n, deref_run hn s, congrArg Prod.snd hlabel⟩

omit h in
theorem length_remove : ((T.remove t).levels 0).length + 1 = (T.levels 0).length := by
  have hpos := List.length_pos_of_mem ht
  rw [Towers.remove, List.length_erase_of_mem ht]
  omega

theorem key_ne_nil : (T.label t).1 ≠ [] := by
  obtain ⟨node, hnode, -⟩ := Option.map_eq_some_iff.1
    ((h.table (T.label t).1 ⟨t, T.height t⟩).2 ⟨t, ht, rfl, rfl⟩)
  obtain ⟨hmem, hkey⟩ := HashTable.mem_of_lookup hnode
  rw [← hkey]
  exact h.keyed.nonempty _ _ hmem

/-- The table does not know the member of a tower that is taken out. -/
theorem absent_of_remove {list' : SkipList} (h' : Rep list' (T.remove t)) :
    list'.table.lookup (T.label t).1 = none := by
  rw [← Option.map_eq_none_iff (f := ListNode.value), Option.eq_none_iff_forall_ne_some]
  intro p hp
  obtain ⟨u, hu, hlabel, -⟩ := (h'.table _ _).1 hp
  have hu' := ((List.nodup_cons.1 (h.nodup 0)).2.mem_erase_iff).1 hu
  exact hu'.1 (h.key_injective hu'.2 ht hlabel)

end Rep

end Exoredis
