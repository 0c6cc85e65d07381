import Exoredis.Keyspace.Frame
import Exoredis.Library.Watched

/-!
# Deferred reclamation

`freeGarbage` reads the successor of an entry before it processes the entry, and a sorted
set puts the entries of its table on the list while it is processed. What the last entry
adds is never reached and is dropped when the list is reset. So every value is processed
exactly once unless the last one is a sorted set with members and no other has any
(`freeGarbage_reclaims_iff`).
-/

namespace Exoredis

open Effect Watched

/-! ## What a value adds to the list -/

/-- The values of the nodes of a bucket, which are freed from the tail to the head. -/
def bucketValues {V : Type} [IsExoVal V] (list : List (ListNode V)) : List ExoVal :=
  list.reverse.map fun node => IsExoVal.toExoVal node.value

/-- The values that the freeing of a value adds to the list. -/
def entriesOf : ExoVal → List ExoVal
  | .sortedSet list =>
      (List.range INITIAL_SIZE).flatMap fun i => bucketValues (list.table.buckets i)
  | _ => []

section

variable {V : Type} [IsExoVal V] {s t : Server} {u : Unit}

theorem freeListNode_garbage {node : ListNode V} (hrun : freeListNode node s = .ok (u, t)) :
    t.GARBAGE_LIST = s.GARBAGE_LIST ++ [IsExoVal.toExoVal node.value] := by
  rw [freeListNode] at hrun
  cases hfreed : node.freed with
  | true =>
      rw [hfreed] at hrun
      cases hrun
  | false =>
      rw [hfreed] at hrun
      cases hrun
      rfl

theorem freeLinkedList_garbage {list : List (ListNode V)}
    (hrun : freeLinkedList list s = .ok (u, t)) :
    t.GARBAGE_LIST = s.GARBAGE_LIST ++ bucketValues list := by
  induction list generalizing t with
  | nil =>
      cases hrun
      exact (List.append_nil _).symm
  | cons node list ih =>
      obtain ⟨_, s₁, hlist, hnode⟩ := bind_eq_ok_iff.1 hrun
      rw [freeListNode_garbage hnode, ih hlist, bucketValues, bucketValues, List.reverse_cons,
        List.map_append, List.append_assoc]
      rfl

theorem freeBuckets_garbage {ht : HashTable V} {is : List ℕ}
    (hrun : ht.freeBuckets is s = .ok (u, t)) :
    t.GARBAGE_LIST = s.GARBAGE_LIST ++ is.flatMap fun i => bucketValues (ht.buckets i) := by
  induction is generalizing s with
  | nil =>
      cases hrun
      exact (List.append_nil _).symm
  | cons i is ih =>
      obtain ⟨_, s₁, hbucket, hrest⟩ := bind_eq_ok_iff.1 hrun
      rw [ih hrest, freeLinkedList_garbage hbucket, List.flatMap_cons, List.append_assoc]

theorem freeLevel_table {fuel : ℕ} {node : Option NodePtr} {list list' : SkipList}
    (hrun : SkipList.freeLevel fuel node list s = .ok (list', t)) : list'.table = list.table := by
  induction fuel generalizing node list s with
  | zero =>
      cases node with
      | none =>
          cases hrun
          rfl
      | some p => cases hrun
  | succ fuel ih =>
      cases node with
      | none =>
          cases hrun
          rfl
      | some p =>
          obtain ⟨sk_node, s₁, -, hrest⟩ := bind_eq_ok_iff.1 hrun
          have htable := ih hrest
          exact htable

theorem freeLevels_table {i : ℕ} {head : Option NodePtr} {list list' : SkipList}
    (hrun : SkipList.freeLevels i head list s = .ok (list', t)) : list'.table = list.table := by
  induction i generalizing head list s with
  | zero =>
      obtain ⟨node, s₁, -, hlevel⟩ := bind_eq_ok_iff.1 hrun
      exact freeLevel_table hlevel
  | succ i ih =>
      obtain ⟨node, s₁, -, hrest⟩ := bind_eq_ok_iff.1 hrun
      obtain ⟨list₁, s₂, hlevel, hlevels⟩ := bind_eq_ok_iff.1 hrest
      rw [ih hlevels, freeLevel_table hlevel]

/-- A value adds its entries behind the list. -/
theorem freeObject_garbage {val : ExoVal} (hrun : freeObject val s = .ok (u, t)) :
    t.GARBAGE_LIST = s.GARBAGE_LIST ++ entriesOf val := by
  cases val with
  | sortedSet list =>
      obtain ⟨list', s₁, hlevels, htable⟩ := bind_eq_ok_iff.1 hrun
      obtain rfl : s₁ = s :=
        (@reads_preserves fun u => u = s).freeLevels _ _ _ _ _ _ rfl hlevels
      rw [freeBuckets_garbage htable, freeLevels_table hlevels]
      rfl
  | bulkString str =>
      cases hrun
      exact (List.append_nil _).symm
  | bitmap node =>
      cases hrun
      exact (List.append_nil _).symm
  | sortedSetEntry node =>
      cases hrun
      exact (List.append_nil _).symm
  | exoCmd cmd =>
      cases hrun
      exact (List.append_nil _).symm

theorem entriesOf_of_mem {val entry : ExoVal} (h : entry ∈ entriesOf val) :
    entriesOf entry = [] := by
  cases val with
  | sortedSet list =>
      obtain ⟨i, -, hi⟩ := List.mem_flatMap.1 h
      obtain ⟨node, -, rfl⟩ := List.mem_map.1 hi
      rfl
  | _ => cases h

end

/-! ## The values that are processed -/

namespace Reclaim

/-- The loop of `freeGarbage` with the values it processes. -/
def freeGarbageLoop : ℕ → ℕ → Watched Server Fault ExoVal Unit
  | 0, _ => unseen (throw .divergence)
  | fuel + 1, i => do
      let s ← unseen get
      match s.GARBAGE_LIST[i]? with
      | none => return
      | some val =>
          marked (fun _ _ => val) (freeObject val)
          if i + 1 < s.GARBAGE_LIST.length then freeGarbageLoop fuel (i + 1) else return

theorem forget_freeGarbageLoop (fuel i : ℕ) :
    (freeGarbageLoop fuel i).forget = Exoredis.freeGarbageLoop fuel i := by
  induction fuel generalizing i with
  | zero => rfl
  | succ fuel ih =>
      rw [freeGarbageLoop, Exoredis.freeGarbageLoop]
      simp only [forget_bind, forget_unseen]
      congr
      funext s
      cases s.GARBAGE_LIST[i]? with
      | none => rfl
      | some val => simp only [forget_bind, forget_marked, forget_ite, forget_pure, ih]

end Reclaim

/-- The fuel of the loop. -/
def garbageFuel (s : Server) : ℕ := (s.GARBAGE_LIST.map garbageWork).sum + 1

/-- The values that `freeGarbage` processes, one after the other. -/
def reclaimed (s : Server) : List ExoVal := (Reclaim.freeGarbageLoop (garbageFuel s) 0 s).1

/-- The last value adds nothing to the list, or one before it does. -/
def Drained (list : List ExoVal) : Prop :=
  ∀ val, list.getLast? = some val →
    entriesOf val = [] ∨ ∃ earlier ∈ list.dropLast, entriesOf earlier ≠ []

theorem drained_nil : Drained [] := fun _ h => by cases h

theorem drained_singleton {val : ExoVal} : Drained [val] ↔ entriesOf val = [] := by
  constructor
  · intro h
    refine (h val rfl).resolve_right ?_
    rintro ⟨earlier, hmem, -⟩
    cases hmem
  · intro h last hlast
    cases hlast
    exact .inl h

theorem drained_cons {val : ExoVal} {list : List ExoVal} (h : list ≠ []) :
    Drained (val :: list) ↔ entriesOf val ≠ [] ∨ Drained list := by
  have hlast : (val :: list).getLast? = list.getLast? := List.getLast?_cons_of_ne_nil h
  have hbefore : (val :: list).dropLast = val :: list.dropLast := List.dropLast_cons_of_ne_nil h
  rw [Drained, hlast, hbefore]
  constructor
  · intro hdrained
    by_cases hval : entriesOf val = []
    · refine .inr fun last heq => (hdrained last heq).imp_right ?_
      rintro ⟨earlier, hmem, hne⟩
      rcases List.mem_cons.1 hmem with rfl | hmem
      · exact absurd hval hne
      · exact ⟨earlier, hmem, hne⟩
    · exact .inl hval
  · rintro (hval | hdrained) last heq
    · exact .inr ⟨val, List.mem_cons_self, hval⟩
    · refine (hdrained last heq).imp_right ?_
      rintro ⟨earlier, hmem, hne⟩
      exact ⟨earlier, List.mem_cons_of_mem _ hmem, hne⟩

/-- From entry `i` on the list holds the values `p` and behind them values `w` that add
nothing. All of `p` is processed, and what it adds if the loop finds something behind the
last of `p`. -/
theorem freeGarbageLoop_processes {fuel i : ℕ} {s t : Server} {ps p w : List ExoVal}
    (hrun : Reclaim.freeGarbageLoop fuel i s = (ps, .ok ((), t)))
    (hdrop : s.GARBAGE_LIST.drop i = p ++ w) (hw : ∀ entry ∈ w, entriesOf entry = []) :
    t.GARBAGE_LIST = s.GARBAGE_LIST ++ p.flatMap entriesOf ∧
      (w ≠ [] ∨ Drained p → ps = p ++ w ++ p.flatMap entriesOf) ∧
      (¬ (w ≠ [] ∨ Drained p) → ps = p) := by
  induction fuel generalizing i s ps p w with
  | zero =>
      obtain ⟨-, hthrow⟩ := unseen_eq_ok_iff.1 hrun
      cases hthrow
  | succ fuel ih =>
      obtain ⟨s₀, s₁, ps₁, ps₂, hstate, hloop, rfl⟩ := Watched.bind_eq_ok_iff.1 hrun
      obtain ⟨rfl, hget⟩ := unseen_eq_ok_iff.1 hstate
      cases hget
      cases hval : s.GARBAGE_LIST[i]? with
      | none =>
          rw [hval] at hloop
          obtain ⟨rfl, -, rfl⟩ := pure_eq_ok_iff.1 hloop
          rw [List.drop_eq_nil_of_le (List.getElem?_eq_none_iff.1 hval)] at hdrop
          obtain ⟨rfl, rfl⟩ := List.append_eq_nil_iff.1 hdrop.symm
          exact ⟨(List.append_nil _).symm, fun _ => rfl, fun _ => rfl⟩
      | some val =>
          rw [hval] at hloop
          obtain ⟨_, s₂, ps₃, ps₄, hmark, hrest, rfl⟩ := Watched.bind_eq_ok_iff.1 hloop
          obtain ⟨rfl, hfree⟩ := marked_eq_ok_iff.1 hmark
          have hgarbage := freeObject_garbage hfree
          obtain ⟨hi, hget⟩ := List.getElem?_eq_some_iff.1 hval
          rw [List.drop_eq_getElem_cons hi, hget] at hdrop
          by_cases hnext : i + 1 < s.GARBAGE_LIST.length
          · rw [if_pos hnext] at hrest
            have hbehind : s₂.GARBAGE_LIST.drop (i + 1) =
                s.GARBAGE_LIST.drop (i + 1) ++ entriesOf val := by
              rw [hgarbage, List.drop_append_of_le_length hnext.le]
            cases p with
            | nil =>
                cases w with
                | nil => cases hdrop
                | cons entry w =>
                    obtain ⟨rfl, hdrop'⟩ := List.cons.inj hdrop
                    have hnone : entriesOf val = [] := hw val List.mem_cons_self
                    rw [hdrop', hnone, List.append_nil] at hbehind
                    obtain ⟨hqueue, hps, -⟩ := ih (p := []) hrest hbehind
                      fun entry hmem => hw entry (List.mem_cons_of_mem _ hmem)
                    rw [hgarbage, hnone, List.append_nil] at hqueue
                    have hps' := hps (.inr drained_nil)
                    refine ⟨hqueue, fun _ => ?_, fun h => absurd (.inl (List.cons_ne_nil _ _)) h⟩
                    rw [hps']
                    rfl
            | cons first p =>
                obtain ⟨rfl, hdrop'⟩ := List.cons.inj hdrop
                change s.GARBAGE_LIST.drop (i + 1) = p ++ w at hdrop'
                rw [hdrop', List.append_assoc] at hbehind
                obtain ⟨hqueue, hps, hps'⟩ := ih hrest hbehind fun entry hmem =>
                  (List.mem_append.1 hmem).elim (hw entry) entriesOf_of_mem
                have hcond : (w ≠ [] ∨ Drained (val :: p)) ↔
                    (w ++ entriesOf val ≠ [] ∨ Drained p) := by
                  by_cases hp : p = []
                  · subst hp
                    have hne : w ≠ [] := by
                      rintro rfl
                      have hlength := congrArg List.length hdrop'
                      rw [List.length_drop] at hlength
                      simp only [List.append_nil, List.length_nil] at hlength
                      omega
                    exact iff_of_true (.inl hne) (.inr drained_nil)
                  · rw [drained_cons hp]
                    simp only [ne_eq, List.append_eq_nil_iff]
                    tauto
                refine ⟨?_, fun h => ?_, fun h => ?_⟩
                · rw [hqueue, hgarbage, List.flatMap_cons, List.append_assoc]
                · rw [hps (hcond.1 h), List.flatMap_cons]
                  simp
                · rw [hps' fun h' => h (hcond.2 h')]
                  rfl
          · rw [if_neg hnext] at hrest
            obtain ⟨rfl, -, rfl⟩ := pure_eq_ok_iff.1 hrest
            rw [List.drop_eq_nil_of_le (Nat.le_of_not_lt hnext)] at hdrop
            cases p with
            | nil =>
                cases w with
                | nil => cases hdrop
                | cons entry w =>
                    obtain ⟨rfl, rfl⟩ := List.cons.inj hdrop
                    refine ⟨?_, fun _ => rfl, fun h => absurd (.inl (List.cons_ne_nil _ _)) h⟩
                    rw [hgarbage, hw val List.mem_cons_self]
                    rfl
            | cons first p =>
                obtain ⟨rfl, hnil⟩ := List.cons.inj hdrop
                obtain ⟨rfl, rfl⟩ := List.append_eq_nil_iff.1 hnil.symm
                rw [drained_singleton, List.flatMap_singleton]
                refine ⟨hgarbage, fun h => ?_, fun _ => rfl⟩
                rw [h.resolve_left fun hne => hne rfl]
                rfl

/-! ## The loop ends -/

/-- Freeing the value ends without a fault. -/
def Freeable (val : ExoVal) : Prop := ∀ s, ∃ t, freeObject val s = .ok ((), t)

theorem freeable_of_mem {val entry : ExoVal} (h : entry ∈ entriesOf val) : Freeable entry := by
  intro s
  cases val with
  | sortedSet list =>
      obtain ⟨i, -, hi⟩ := List.mem_flatMap.1 h
      obtain ⟨node, -, rfl⟩ := List.mem_map.1 hi
      exact ⟨s, rfl⟩
  | _ => cases h

/-- An entry of a sorted set adds nothing, so the work gets less by one. -/
theorem garbageWork_entriesOf (val : ExoVal) :
    garbageWork val = ((entriesOf val).map garbageWork).sum + 1 := by
  cases val with
  | sortedSet list =>
      have hone : ∀ entry ∈ (entriesOf (.sortedSet list)).map garbageWork, entry = 1 := by
        intro work hwork
        obtain ⟨entry, hentry, rfl⟩ := List.mem_map.1 hwork
        obtain ⟨i, -, hi⟩ := List.mem_flatMap.1 hentry
        obtain ⟨node, -, rfl⟩ := List.mem_map.1 hi
        rfl
      rw [List.sum_eq_card_nsmul _ 1 hone, List.length_map, smul_eq_mul, mul_one, garbageWork,
        entryCount, entriesOf, List.length_flatMap]
      simp only [bucketValues, List.length_map, List.length_reverse]
  | _ => rfl

theorem freeGarbageLoop_ends {fuel i : ℕ} {s : Server}
    (hfree : ∀ val ∈ s.GARBAGE_LIST.drop i, Freeable val)
    (hfuel : ((s.GARBAGE_LIST.drop i).map garbageWork).sum < fuel) :
    ∃ t, freeGarbageLoop fuel i s = .ok ((), t) := by
  induction fuel generalizing i s with
  | zero => cases hfuel
  | succ fuel ih =>
      rw [freeGarbageLoop, Effect.bind_run_ok (Effect.get_run s)]
      cases hval : s.GARBAGE_LIST[i]? with
      | none => exact ⟨s, rfl⟩
      | some val =>
          obtain ⟨hi, hget⟩ := List.getElem?_eq_some_iff.1 hval
          rw [List.drop_eq_getElem_cons hi, hget] at hfree hfuel
          obtain ⟨s₁, hrun⟩ := hfree val List.mem_cons_self s
          simp only
          rw [Effect.bind_run_ok hrun]
          by_cases hnext : i + 1 < s.GARBAGE_LIST.length
          · rw [if_pos hnext]
            have hbehind : s₁.GARBAGE_LIST.drop (i + 1) =
                s.GARBAGE_LIST.drop (i + 1) ++ entriesOf val := by
              rw [freeObject_garbage hrun, List.drop_append_of_le_length hnext.le]
            refine ih (fun entry hentry => ?_) ?_
            · rw [hbehind] at hentry
              rcases List.mem_append.1 hentry with hmem | hmem
              · exact hfree entry (List.mem_cons_of_mem _ hmem)
              · exact freeable_of_mem hmem
            · rw [List.map_cons, List.sum_cons, garbageWork_entriesOf] at hfuel
              rw [hbehind, List.map_append, List.sum_append]
              omega
          · rw [if_neg hnext]
            exact ⟨s₁, rfl⟩

/-- A list of values that can be freed one by one is processed to its end. -/
theorem freeGarbage_ends {s : Server} (hfree : ∀ val ∈ s.GARBAGE_LIST, Freeable val) :
    ∃ t, freeGarbage s = .ok ((), t) := by
  obtain ⟨t', hloop⟩ := @freeGarbageLoop_ends (garbageFuel s) 0 s hfree (Nat.lt_succ_self _)
  rw [freeGarbage, Effect.bind_run_ok (Effect.get_run s)]
  exact ⟨_, Effect.bind_run_ok hloop⟩

/-! ## What is lost -/

/-- Every value that is on the list at the start or comes on it on the way is processed
exactly once, and the list is empty in the end, exactly if the last value adds nothing or
one before it does. -/
theorem freeGarbage_reclaims_iff (s t : Server) (hrun : freeGarbage s = .ok ((), t)) :
    ∃ t', freeGarbageLoop (garbageFuel s) 0 s = .ok ((), t') ∧
      s.GARBAGE_LIST <+: t'.GARBAGE_LIST ∧
      ((reclaimed s = t'.GARBAGE_LIST ∧ t.GARBAGE_LIST = []) ↔ Drained s.GARBAGE_LIST) := by
  obtain ⟨s₀, s₁, hget, hrest⟩ := Effect.bind_eq_ok_iff.1 hrun
  cases hget
  obtain ⟨_, t', hloop, hreset⟩ := Effect.bind_eq_ok_iff.1 hrest
  cases hreset
  have hplain : (Reclaim.freeGarbageLoop (garbageFuel s) 0).forget s = .ok ((), t') := by
    rw [Reclaim.forget_freeGarbageLoop]
    exact hloop
  obtain ⟨ps, hwatched⟩ := exists_points hplain
  have hreclaimed : reclaimed s = ps := congrArg Prod.fst hwatched
  obtain ⟨hqueue, hall, hlost⟩ := freeGarbageLoop_processes (p := s.GARBAGE_LIST) (w := [])
    hwatched
    (List.append_nil _).symm fun _ h => absurd h List.not_mem_nil
  refine ⟨t', hloop, ⟨_, hqueue.symm⟩, ?_⟩
  rw [hreclaimed, hqueue]
  constructor
  · rintro ⟨hps, -⟩
    by_contra hnot
    have hsame := hlost fun h => hnot (h.resolve_left fun hne => hne rfl)
    rw [hsame] at hps
    have hnone : s.GARBAGE_LIST.flatMap entriesOf = [] := List.self_eq_append_right.1 hps
    refine hnot fun val hval => .inl ?_
    exact List.flatMap_eq_nil_iff.1 hnone val (List.mem_of_getLast? hval)
  · intro hdrained
    refine ⟨?_, rfl⟩
    rw [hall (.inr hdrained), List.append_nil]

/-- A sorted set with one member. -/
def oneMember : Exo SkipList := do
  let list ← SkipList.newSkipList
  list.addNodeToSkiplist ⟨9, ascii "a"⟩ 1

theorem freeGarbage_reclaims_iff_behind :
    ∃ list s t, oneMember (blankServer (fun _ => 0) none) = .ok (list, s) ∧
      freeGarbage { s with GARBAGE_LIST := [.sortedSet list, .bulkString ⟨8, []⟩] } =
        .ok ((), t) ∧ t.GARBAGE_LIST = [] := by
  have hmap : ((oneMember (blankServer (fun _ => 0) none)).map fun p =>
      (freeGarbage { p.2 with GARBAGE_LIST := [.sortedSet p.1, .bulkString ⟨8, []⟩] }).isOk) =
      .ok true := by decide +kernel
  obtain ⟨list, s, hone, hok⟩ := exists_of_map_eq_ok hmap
  cases hrun : freeGarbage { s with GARBAGE_LIST := [.sortedSet list, .bulkString ⟨8, []⟩] } with
  | error e =>
      rw [hrun] at hok
      cases hok
  | ok p =>
      obtain ⟨t', -, -, hiff⟩ := freeGarbage_reclaims_iff _ p.2 hrun
      refine ⟨list, s, p.2, hone, hrun, (hiff.2 fun val hval => .inl ?_).2⟩
      cases hval
      rfl

/-- The entry of the member of a sorted set that is alone on the list is dropped. -/
theorem freeGarbage_loses :
    ∃ list s t t', oneMember (blankServer (fun _ => 0) none) = .ok (list, s) ∧
      freeGarbage { s with GARBAGE_LIST := [.sortedSet list] } = .ok ((), t) ∧
      freeGarbageLoop (garbageFuel { s with GARBAGE_LIST := [.sortedSet list] }) 0
        { s with GARBAGE_LIST := [.sortedSet list] } = .ok ((), t') ∧
      (reclaimed { s with GARBAGE_LIST := [.sortedSet list] }).length = 1 ∧
      t'.GARBAGE_LIST.length = 2 ∧ t.GARBAGE_LIST = [] := by
  have hmap : ((oneMember (blankServer (fun _ => 0) none)).map fun p =>
      ((freeGarbage { p.2 with GARBAGE_LIST := [.sortedSet p.1] }).toOption.map fun q =>
          q.2.GARBAGE_LIST.length,
        (reclaimed { p.2 with GARBAGE_LIST := [.sortedSet p.1] }).length,
        (freeGarbageLoop (garbageFuel { p.2 with GARBAGE_LIST := [.sortedSet p.1] }) 0
          { p.2 with GARBAGE_LIST := [.sortedSet p.1] }).toOption.map fun q =>
          q.2.GARBAGE_LIST.length)) = .ok (some 0, 1, some 2) := by decide +kernel
  obtain ⟨list, s, hone, hall⟩ := exists_of_map_eq_ok hmap
  simp only [Prod.mk.injEq] at hall
  obtain ⟨hfree, hreclaimed, hqueue⟩ := hall
  cases hrun : freeGarbage { s with GARBAGE_LIST := [.sortedSet list] } with
  | error e =>
      rw [hrun] at hfree
      cases hfree
  | ok p =>
      cases hloop : freeGarbageLoop (garbageFuel { s with GARBAGE_LIST := [.sortedSet list] }) 0
          { s with GARBAGE_LIST := [.sortedSet list] } with
      | error e =>
          rw [hloop] at hqueue
          cases hqueue
      | ok q =>
          rw [hrun] at hfree
          rw [hloop] at hqueue
          refine ⟨list, s, p.2, q.2, hone, hrun, hloop, hreclaimed, ?_, ?_⟩
          · exact Option.some.inj hqueue
          · exact List.length_eq_zero_iff.1 (Option.some.inj hfree)

end Exoredis
