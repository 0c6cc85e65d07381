import Exoredis.SortedSet.WellFormed
import Exoredis.Server.Garbage

/-!
# Freeing a sorted set

`freeSkipList` goes down the levels and along each of them, and reads the links of a node
before it frees it. On a list that represents towers it ends: it frees every node of every
level, comes to none of them a second time, and puts the entry of every member on the garbage
list once (`freeSkipList_reclaims`).
-/

namespace Exoredis

open Effect SkipList

/-! ## The nodes -/

theorem LevelOk.of_append {heap : NodePtr → Option SkipListNode} {label : ℕ → List UInt8 × ℚ}
    {i : ℕ} {pre l : List ℕ} (h : LevelOk heap label i (pre ++ l)) : LevelOk heap label i l where
  cell t ht := h.cell t (List.mem_append_right pre ht)
  linked := by
    have hlinked := h.linked
    rw [List.map_append] at hlinked
    exact hlinked.of_append

namespace SkipList

variable {list : SkipList} {label : ℕ → List UInt8 × ℚ} {i : ℕ}

/-- A chain is freed from its head on. -/
theorem freeLevel_run {l : List ℕ} (h : LevelOk list.heap label i l) (hl : l.Nodup) {fuel : ℕ}
    (hfuel : l.length ≤ fuel) (s : Server) :
    freeLevel fuel (l.head?.map fun t => ⟨t, i⟩) list s = .ok ({ list with
      heap := fun p => if p.level = i ∧ p.tower ∈ l then none else list.heap p }, s) := by
  induction l generalizing list fuel with
  | nil =>
      have hsame : list = { list with
          heap := fun p => if p.level = i ∧ p.tower ∈ [] then none else list.heap p } := by
        simp
      rw [← hsame]
      cases fuel <;> rfl
  | cons t l ih =>
      obtain ⟨hnew, hl'⟩ := List.nodup_cons.1 hl
      obtain ⟨n, hn, -⟩ := h.cell t List.mem_cons_self
      obtain ⟨fuel, rfl⟩ : ∃ k, fuel = k + 1 :=
        Nat.exists_eq_succ_of_ne_zero (Nat.ne_of_gt ((Nat.succ_pos _).trans_le hfuel))
      have hnext : n.next = l.head?.map fun u => ⟨u, i⟩ := by
        have hlink : nextOf list.heap ⟨t, i⟩ = l.head?.map fun u => ⟨u, i⟩ :=
          @LevelOk.next _ _ _ [] l t h
        rwa [nextOf, hn] at hlink
      have htail : LevelOk (Function.update list.heap ⟨t, i⟩ none) label i l := by
        have hbehind : LevelOk list.heap label i l := @LevelOk.of_append _ _ _ [t] l h
        refine hbehind.congr (fun u hu => ?_) fun _ _ => rfl
        refine Function.update_of_ne (fun heq => ?_) _ _
        rw [NodePtr.mk.injEq] at heq
        exact hnew (heq.1 ▸ hu)
      have hrest := @ih { list with heap := Function.update list.heap ⟨t, i⟩ none } htail hl' fuel
        (Nat.le_of_succ_le_succ hfuel)
      have hhead : (List.head? (t :: l)).map (fun u => (⟨u, i⟩ : NodePtr)) = some ⟨t, i⟩ := rfl
      rw [hhead, freeLevel, bind_run_ok (deref_run hn s), hnext, hrest]
      congr 3
      funext p
      by_cases hp : p = ⟨t, i⟩
      · subst hp
        simp [hnew]
      · have hne : ¬ (p.level = i ∧ p.tower = t) := fun heq =>
          hp (by rw [← heq.1, ← heq.2])
        change (if p.level = i ∧ p.tower ∈ l then none else
          Function.update list.heap ⟨t, i⟩ none p) = _
        rw [Function.update_of_ne hp]
        refine if_congr ⟨fun hmem => ⟨hmem.1, List.mem_cons_of_mem t hmem.2⟩,
          fun hmem => ⟨hmem.1, ?_⟩⟩ rfl rfl
        exact (List.mem_cons.1 hmem.2).resolve_left fun heq => hne ⟨hmem.1, heq⟩

/-- The levels from `i` down, each behind its sentinel. -/
theorem freeLevels_run {L : ℕ → List ℕ} (h : ∀ j ≤ i, LevelOk list.heap label j (0 :: L j))
    (hnodup : ∀ j, (0 :: L j).Nodup) (hlength : ∀ j, (L j).length < list.nodeBound) (s : Server) :
    freeLevels i (some ⟨0, i⟩) list s = .ok ({ list with
      heap := fun p => if p.level ≤ i ∧ p.tower ∈ 0 :: L p.level then none else list.heap p }, s) := by
  induction i generalizing list with
  | zero =>
      have hlevel := freeLevel_run (h 0 le_rfl) (hnodup 0) (hlength 0) s
      obtain ⟨n, hn, -⟩ := (h 0 le_rfl).cell 0 List.mem_cons_self
      have hfollow : list.follow (some ⟨0, 0⟩) s = .ok (n, s) := deref_run hn s
      rw [freeLevels, bind_run_ok hfollow]
      refine hlevel.trans ?_
      congr 3
      funext p
      refine if_congr ⟨fun hp => ⟨hp.1.le, hp.1 ▸ hp.2⟩, fun hp => ?_⟩ rfl rfl
      have hzero := Nat.le_zero.1 hp.1
      exact ⟨hzero, hzero ▸ hp.2⟩
  | succ i ih =>
      have hlevel := freeLevel_run (h (i + 1) le_rfl) (hnodup (i + 1)) (hlength (i + 1)) s
      obtain ⟨n, hn, -, hdown⟩ := (h (i + 1) le_rfl).cell 0 List.mem_cons_self
      have hfollow : list.follow (some ⟨0, i + 1⟩) s = .ok (n, s) := deref_run hn s
      set list₁ : SkipList := { list with heap := fun p =>
        if p.level = i + 1 ∧ p.tower ∈ 0 :: L (i + 1) then none else list.heap p } with hlist₁
      have hlower : ∀ j ≤ i, LevelOk list₁.heap label j (0 :: L j) := by
        intro j hj
        refine (h j (Nat.le_succ_of_le hj)).congr (fun u _ => ?_) fun _ _ => rfl
        have hne : ¬ (j = i + 1 ∧ u ∈ 0 :: L (i + 1)) := fun heq => by omega
        exact if_neg hne
      change freeLevel list.nodeBound (some ⟨0, i + 1⟩) list s = .ok (list₁, s) at hlevel
      have hrest := @ih list₁ hlower hlength
      have hnode : n.down = some ⟨0, i⟩ := hdown
      rw [freeLevels, bind_run_ok hfollow, bind_run_ok hlevel, hnode]
      refine hrest.trans ?_
      congr 3
      funext p
      by_cases hp : p.level ≤ i
      · have hne : ¬ (p.level = i + 1 ∧ p.tower ∈ 0 :: L (i + 1)) := fun heq => by omega
        have hle : p.level ≤ i + 1 := Nat.le_succ_of_le hp
        simp only [hlist₁, hp, hle, true_and, hne, if_false]
      · have hiff : p.level = i + 1 ∧ p.tower ∈ 0 :: L (i + 1) ↔
            p.level ≤ i + 1 ∧ p.tower ∈ 0 :: L p.level := by
          constructor
          · rintro ⟨hlevel, hmem⟩
            exact ⟨hlevel.le, hlevel ▸ hmem⟩
          · rintro ⟨hle, hmem⟩
            have heq : p.level = i + 1 := by omega
            exact ⟨heq, heq ▸ hmem⟩
        simp only [hlist₁, hp, false_and, if_false]
        exact if_congr hiff rfl rfl

end SkipList

/-! ## The tables -/

section

variable {V : Type} [IsExoVal V]

theorem freeLinkedList_run {list : List (ListNode V)} (h : ∀ node ∈ list, node.freed = false)
    (s : Server) :
    ∃ freed, freeLinkedList list s = .ok ((), { s with
      freed := freed, GARBAGE_LIST := s.GARBAGE_LIST ++ bucketValues list }) := by
  induction list with
  | nil => exact ⟨s.freed, by rw [bucketValues]; simp [freeLinkedList]⟩
  | cons node list ih =>
      obtain ⟨freed, hrun⟩ := ih fun node hnode => h node (List.mem_cons_of_mem _ hnode)
      refine ⟨node.key.id :: freed, ?_⟩
      rw [freeLinkedList, bind_run_ok hrun, freeListNode_run (h node List.mem_cons_self),
        Server.release, bucketValues, bucketValues, List.reverse_cons, List.map_append,
        ← List.append_assoc]
      rfl

theorem freeHashTable_run {ht : HashTable V} (h : ht.Unfreed) (s : Server) :
    ∃ freed, ht.freeHashTable s = .ok ((), { s with
      freed := freed
      GARBAGE_LIST := s.GARBAGE_LIST ++
        (List.range INITIAL_SIZE).flatMap fun i => bucketValues (ht.buckets i) }) := by
  rw [HashTable.freeHashTable]
  generalize List.range INITIAL_SIZE = is
  induction is generalizing s with
  | nil => exact ⟨s.freed, by simp [HashTable.freeBuckets]⟩
  | cons i is ih =>
      obtain ⟨freed, hbucket⟩ := freeLinkedList_run (h i) s
      obtain ⟨freed', hrest⟩ := ih { s with
        freed := freed, GARBAGE_LIST := s.GARBAGE_LIST ++ bucketValues (ht.buckets i) }
      refine ⟨freed', ?_⟩
      rw [HashTable.freeBuckets, bind_run_ok hbucket, hrest, List.flatMap_cons, List.append_assoc]

end

namespace Rep

variable {list : SkipList} {T : Towers} (h : Rep list T)

include h

/-- The entries of the member table are the top cells of the towers, once each. -/
theorem entriesOf_perm : (entriesOf (.sortedSet list)).Perm
    ((T.levels 0).map fun t => .sortedSetEntry ⟨t, T.height t⟩) := by
  have hlookup : ∀ i, ∀ node ∈ list.table.buckets i,
      list.table.lookup node.key.buf = some node ∧ keyHash node.key.buf = i := fun i node hnode =>
    ⟨(h.keyed.mem_iff_lookup.1 hnode).2, (h.keyed.mem_iff_lookup.1 hnode).1⟩
  have hkey : ∀ i j, ∀ a ∈ list.table.buckets i, ∀ b ∈ list.table.buckets j, a.value = b.value →
      a.key.buf = b.key.buf := by
    intro i j a ha b hb heq
    obtain ⟨t, -, hta, hpa⟩ := (h.table _ _).1 (congrArg (Option.map ListNode.value) (hlookup i a ha).1)
    obtain ⟨u, -, hub, hpb⟩ := (h.table _ _).1 (congrArg (Option.map ListNode.value) (hlookup j b hb).1)
    rw [hpa, hpb, NodePtr.mk.injEq] at heq
    rw [← hta, ← hub, heq.1]
  have hbucket : ∀ i, (bucketValues (list.table.buckets i)).Nodup := by
    intro i
    rw [bucketValues, List.map_reverse, List.nodup_reverse]
    refine (List.nodup_map_iff_inj_on (h.keyed.distinct i).of_map).2 fun a ha b hb heq => ?_
    have hval : a.value = b.value := ExoVal.sortedSetEntry.inj heq
    have hsame := (hlookup i a ha).1
    rw [hkey i i a ha b hb hval, (hlookup i b hb).1] at hsame
    exact (Option.some.inj hsame).symm
  refine (List.perm_ext_iff_of_nodup ?_ ?_).2 fun val => ?_
  · refine List.nodup_flatMap.2 ⟨fun i _ => hbucket i, ?_⟩
    refine List.nodup_range.imp_of_mem fun {i j} _ _ hij => ?_
    intro val hi hj
    obtain ⟨a, ha, rfl⟩ := List.mem_map.1 hi
    obtain ⟨b, hb, heq⟩ := List.mem_map.1 hj
    have ha' := List.mem_reverse.1 ha
    have hb' := List.mem_reverse.1 hb
    have hval : a.value = b.value := (ExoVal.sortedSetEntry.inj heq).symm
    refine hij ?_
    rw [← (hlookup i a ha').2, ← (hlookup j b hb').2, hkey i j a ha' b hb' hval]
  · refine List.Nodup.map (fun t u heq => ?_) (List.nodup_cons.1 (h.nodup 0)).2
    cases heq
    rfl
  · constructor
    · intro hval
      obtain ⟨i, -, hi⟩ := List.mem_flatMap.1 hval
      obtain ⟨node, hnode, rfl⟩ := List.mem_map.1 hi
      have hfound := (hlookup i node (List.mem_reverse.1 hnode)).1
      obtain ⟨t, ht, -, hp⟩ := (h.table _ _).1 (congrArg (Option.map ListNode.value) hfound)
      refine List.mem_map.2 ⟨t, ht, ?_⟩
      rw [← hp]
      rfl
    · intro hval
      obtain ⟨t, ht, rfl⟩ := List.mem_map.1 hval
      obtain ⟨node, hnode, hp⟩ := Option.map_eq_some_iff.1 ((h.table _ _).2 ⟨t, ht, rfl, rfl⟩)
      refine List.mem_flatMap.2 ⟨_, List.mem_range.2 (keyHash_lt _), List.mem_map.2
        ⟨node, List.mem_reverse.2 (HashTable.mem_of_lookup hnode).1, ?_⟩⟩
      rw [hp]
      rfl

theorem freeLevels_run (s : Server) :
    freeLevels list.levels (some list.head) list s = .ok ({ list with
      heap := fun p =>
        if p.level ≤ list.levels ∧ p.tower ∈ 0 :: T.levels p.level then none
        else list.heap p }, s) := by
  have hrun := SkipList.freeLevels_run h.level h.nodup h.length_lt s
  rwa [show (⟨0, list.levels⟩ : NodePtr) = list.head from h.head.symm] at hrun

theorem freeSkipList_run (s : Server) :
    ∃ freed, list.freeSkipList s = .ok ((), { s with
      freed := freed, GARBAGE_LIST := s.GARBAGE_LIST ++ entriesOf (.sortedSet list) }) := by
  obtain ⟨freed, htable⟩ := freeHashTable_run h.keyed.unfreed s
  exact ⟨freed, (bind_run_ok (h.freeLevels_run s)).trans htable⟩

/-- A sorted set can be freed. -/
theorem freeable : Freeable (.sortedSet list) := by
  intro s
  obtain ⟨freed, hrun⟩ := h.freeSkipList_run s
  exact ⟨_, hrun⟩

end Rep

/-- The freeing of a list ends, so that it comes to no node that is freed already. It leaves
no node of any level, and the entries that it puts on the garbage list are the top nodes of
the members, once each. -/
theorem freeSkipList_reclaims {list : SkipList} {T : Towers} (h : Rep list T) (s : Server) :
    ∃ list' freed entries, freeLevels list.levels (some list.head) list s = .ok (list', s) ∧
      (∀ i ≤ list.levels, ∀ t ∈ 0 :: T.levels i, list'.heap ⟨t, i⟩ = none) ∧
      (∀ p, (list.levels < p.level ∨ p.tower ∉ 0 :: T.levels p.level) → list'.heap p = list.heap p) ∧
      list.freeSkipList s = .ok ((), { s with
        freed := freed, GARBAGE_LIST := s.GARBAGE_LIST ++ entries }) ∧
      entries.Perm ((T.levels 0).map fun t => .sortedSetEntry ⟨t, T.height t⟩) ∧
      entries.length = list.size := by
  obtain ⟨freed, hrun⟩ := h.freeSkipList_run s
  refine ⟨_, freed, _, h.freeLevels_run s, fun i hi t ht => if_pos ⟨hi, ht⟩, fun p hp => ?_, hrun,
    h.entriesOf_perm, ?_⟩
  · refine if_neg fun hmem => ?_
    rcases hp with hp | hp
    · exact absurd hmem.1 (not_le.2 hp)
    · exact hp hmem.2
  · rw [h.entriesOf_perm.length_eq, List.length_map, h.size]

theorem freeSkipList_reclaims_loneList : ∃ list' freed entries,
    freeLevels loneList.levels (some loneList.head) loneList (blankServer (fun _ => 0) none) =
        .ok (list', blankServer (fun _ => 0) none) ∧
      (∀ i ≤ loneList.levels, ∀ t ∈ 0 :: loneTowers.levels i, list'.heap ⟨t, i⟩ = none) ∧
      (∀ p, (loneList.levels < p.level ∨ p.tower ∉ 0 :: loneTowers.levels p.level) →
        list'.heap p = loneList.heap p) ∧
      loneList.freeSkipList (blankServer (fun _ => 0) none) =
        .ok ((), { blankServer (fun _ => 0) none with freed := freed, GARBAGE_LIST := [] ++ entries }) ∧
      entries.Perm ((loneTowers.levels 0).map fun t => .sortedSetEntry ⟨t, loneTowers.height t⟩) ∧
      entries.length = loneList.size :=
  freeSkipList_reclaims rep_loneList (blankServer (fun _ => 0) none)

end Exoredis
