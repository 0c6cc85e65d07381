import Exoredis.SortedSet.Zadd

/-!
# ZADD is all or nothing

A request stores the sorted set that it has worked on, or deletes it where it is empty
(`zaddCommand_live`). An error leaves the sorted set as it was, and a new one that gets no
member is deleted again, so every sorted set of the keyspace has a member
(`zadd_allOrNothing`).
-/

namespace Exoredis

open Effect

/-- What a client finds under a key. -/
def liveAt (s : Server) (key : List UInt8) : Option ExoVal :=
  ((s.HASH_TABLE.lookup key).filter fun node => decide (¬ node.Expired s.now)).map ListNode.value

variable {s t : Server} {key : ExoString} {k : List UInt8} {list list' : SkipList}

theorem liveAt_eq_none (h : ∀ node ∈ s.HASH_TABLE.lookup k, node.Expired s.now) :
    liveAt s k = none := by
  rw [liveAt, Option.map_eq_none_iff, Option.filter_eq_none_iff]
  intro node hnode
  simpa using h node hnode

theorem liveAt_eq_map (h : ∀ node ∈ s.HASH_TABLE.lookup k, ¬ node.Expired s.now) :
    liveAt s k = (s.HASH_TABLE.lookup k).map ListNode.value := by
  rw [liveAt]
  cases hlookup : s.HASH_TABLE.lookup k with
  | none => rfl
  | some node => rw [Option.filter_some_pos (by simpa using h node hlookup)]

theorem liveAt_congr (h : t.HASH_TABLE.lookup k = s.HASH_TABLE.lookup k)
    (hnow : t.now = s.now) : liveAt t k = liveAt s k := by
  rw [liveAt, liveAt, h, hnow]

/-- A sorted set does not expire. -/
theorem liveAt_of_sortedSetAt (h : sortedSetAt s.HASH_TABLE k = some list) :
    liveAt s k = some (.sortedSet list) := by
  rw [sortedSetAt] at h
  split at h
  · rename_i list' hvalue
    obtain rfl := Option.some.inj h
    rw [liveAt_eq_map, hvalue]
    intro node hnode hexp
    rw [hnode, Option.map_some] at hvalue
    obtain ⟨htype, -⟩ := hexp
    rw [Option.some.inj hvalue] at htype
    change SORTED_SET = BULKSTRING at htype
    exact absurd htype (by decide)
  · cases h

theorem sortedSetAt_of_liveAt (h : liveAt s k = some (.sortedSet list)) :
    sortedSetAt s.HASH_TABLE k = some list := by
  rw [liveAt] at h
  obtain ⟨node, hnode, hvalue⟩ := Option.map_eq_some_iff.1 h
  obtain ⟨hlookup, -⟩ := Option.filter_eq_some_iff.1 hnode
  exact sortedSetAt_of_lookup (by rw [hlookup, Option.map_some, hvalue])

/-! ## Opening and closing -/

/-- A search that ends returns what a client finds. -/
theorem get_found {found : Option ExoVal}
    (hrun : onKeyspace (fun ht => ht.get key) s = .ok (found, t)) :
    key.buf ≠ [] ∧ found = liveAt s key.buf := by
  obtain ⟨ht, s₁, hget, -⟩ := onKeyspace_ok hrun
  obtain ⟨hkey, hcases⟩ := HashTable.get_cases hget
  refine ⟨hkey, ?_⟩
  rcases hcases with ⟨hc, rfl, -⟩ | ⟨c, hc, hlive, rfl, -⟩ | ⟨c, hc, hexp, rfl, -⟩
  · rw [liveAt_eq_none]
    rw [HashTable.cursor_eq_none_iff.1 hc]
    simp
  · have hlookup := HashTable.lookup_of_cursor hc
    rw [liveAt_eq_map, hlookup]
    · rfl
    · intro node hnode
      rw [hlookup] at hnode
      obtain rfl := Option.some.inj hnode
      exact hlive
  · have hlookup := HashTable.lookup_of_cursor hc
    rw [liveAt_eq_none]
    intro node hnode
    rw [hlookup] at hnode
    obtain rfl := Option.some.inj hnode
    exact hexp

/-- A search returns what a client finds, and takes out an expired node at most. -/
theorem get_live {found : Option ExoVal} (hs : s.HASH_TABLE.Keyed)
    (hrun : onKeyspace (fun ht => ht.get key) s = .ok (found, t)) :
    found = liveAt s key.buf ∧ t.HASH_TABLE.Keyed ∧ t.now = s.now ∧
      ∀ k ≠ key.buf, t.HASH_TABLE.lookup k = s.HASH_TABLE.lookup k := by
  have hnow : t.now = s.now := (complete_now s.now).get key s found t rfl hrun
  obtain ⟨-, hfound⟩ := get_found hrun
  obtain ⟨ht, s₁, hget, ht₁⟩ := onKeyspace_ok hrun
  have hht : t.HASH_TABLE = ht := by rw [ht₁]
  obtain ⟨hkeyed, ⟨-, -, hsame, -⟩ | ⟨-, -, hlookup⟩⟩ := hs.get_ok hget
  · rw [hht]
    exact ⟨hfound, hkeyed, hnow, fun k _ => by rw [hsame]⟩
  · rw [hht]
    exact ⟨hfound, hkeyed, hnow, fun k hk => by rw [hlookup, if_neg hk]⟩

theorem openSortedSet_none (hs : s.HASH_TABLE.Keyed)
    (hrun : openSortedSet key s = .ok (none, t)) :
    t.HASH_TABLE = s.HASH_TABLE ∧ t.now = s.now := by
  obtain ⟨found, s₁, hget, hrest⟩ := bind_eq_ok_iff.1 hrun
  obtain ⟨hfound, -, hnow, hother⟩ := get_live hs hget
  cases found with
  | none =>
      obtain ⟨list, s₂, -, hrest⟩ := bind_eq_ok_iff.1 hrest
      obtain ⟨_, s₃, -, hrest⟩ := bind_eq_ok_iff.1 hrest
      cases hrest
  | some val =>
      obtain ⟨ht, s₂, hget', hs₁⟩ := onKeyspace_ok hget
      obtain ⟨-, ⟨-, -, hht, -⟩ | ⟨-, hval, -⟩⟩ := hs.get_ok hget'
      · have ht : t = s₁ := by
          cases val with
          | sortedSet list => cases hrest
          | _ =>
              cases hrest
              rfl
        rw [ht]
        refine ⟨?_, hnow⟩
        rw [hs₁]
        exact hht
      · cases hval

/-- A request works on the sorted set that a client finds, or on a new one. -/
theorem openSortedSet_live (hs : s.HASH_TABLE.Keyed)
    (hrun : openSortedSet key s = .ok (some list, t)) :
    (liveAt s key.buf = some (.sortedSet list) ∨
        liveAt s key.buf = none ∧ ∃ id, list = SkipList.emptyList id) ∧
      t.now = s.now ∧ ∀ k ≠ key.buf, t.HASH_TABLE.lookup k = s.HASH_TABLE.lookup k := by
  obtain ⟨found, s₁, hget, hrest⟩ := bind_eq_ok_iff.1 hrun
  obtain ⟨hfound, hkeyed, hnow, hother⟩ := get_live hs hget
  cases found with
  | some val =>
      cases val with
      | sortedSet list' =>
          cases hrest
          exact ⟨.inl hfound.symm, hnow, hother⟩
      | _ => cases hrest
  | none =>
      obtain ⟨list', s₂, hnew, hrest⟩ := bind_eq_ok_iff.1 hrest
      rw [newSkipList_run] at hnew
      cases hnew
      obtain ⟨_, s₃, hput, hrest⟩ := bind_eq_ok_iff.1 hrest
      cases hrest
      have hnow' := (complete_now s.now).set key _ _ _ _ (by exact hnow) hput
      obtain ⟨ht, s₄, hset, ht₁⟩ := onKeyspace_unit_ok hput
      obtain ⟨-, node, -, hlookup⟩ := hkeyed.set_ok hset
      refine ⟨.inr ⟨hfound.symm, _, rfl⟩, hnow', fun k hk => ?_⟩
      rw [ht₁]
      exact (hlookup k).trans ((if_neg hk).trans (hother k hk))

/-- Behind the closing a client finds the sorted set, unless it is empty. -/
theorem Closing.live (h : Closing key list s t) (hs : s.HASH_TABLE.Keyed)
    (hfound : s.HASH_TABLE.lookup key.buf ≠ none) :
    t.HASH_TABLE.Keyed ∧ t.now = s.now ∧
      liveAt t key.buf = (if list.size = 0 then none else some (.sortedSet list)) ∧
      ∀ k ≠ key.buf, t.HASH_TABLE.lookup k = s.HASH_TABLE.lookup k := by
  obtain ⟨s', hput, hclose⟩ := h
  have hnow : s'.now = s.now := (complete_now s.now).update key _ s _ s' rfl hput
  obtain ⟨ht, s₁, hupdate, hs₁⟩ := onKeyspace_unit_ok hput
  obtain ⟨node, hnode⟩ := Option.ne_none_iff_exists'.1 hfound
  obtain ⟨hkeyed, -, hlookup⟩ := updateValue_lookup hs hnode hupdate
  have hht : s'.HASH_TABLE = ht := by rw [hs₁]
  rcases hclose with ⟨hsize, n, hdel⟩ | ⟨hsize, ht⟩
  · have hnow' : t.now = s.now := (complete_now s.now).del key s' n t hnow hdel
    obtain ⟨ht', s₂, hdel, ht₂⟩ := onKeyspace_ok hdel
    rw [hht] at hdel
    obtain ⟨hkeyed', hlookup'⟩ := hkeyed.del_ok hdel
    have hht' : t.HASH_TABLE = ht' := by rw [ht₂]
    rw [if_pos hsize, hht']
    refine ⟨hkeyed', hnow', liveAt_eq_none ?_, fun k hk => ?_⟩
    · rw [hht', hlookup', if_pos rfl]
      simp
    · rw [hlookup', if_neg hk, hlookup, if_neg hk]
  · subst ht
    rw [if_neg hsize, hht]
    refine ⟨hkeyed, hnow, liveAt_of_sortedSetAt ?_, fun k hk => by rw [hlookup, if_neg hk]⟩
    rw [hht]
    exact sortedSetAt_of_lookup (by rw [hlookup, if_pos rfl]; rfl)

/-- What a request that comes to a sorted set leaves in the keyspace. -/
theorem zaddCommand_live {cmd key : ArgListNode} {rest args : ArgList} {reply : Reply}
    (hs : s.HASH_TABLE.Keyed)
    (hrun : zaddCommand (cmd :: key :: rest) s = .ok ((reply, args), t)) :
    t.now = s.now ∧ t.HASH_TABLE.Keyed ∧
      (reply.isError = true ∧ (∀ k, liveAt t k = liveAt s k) ∨
        ∃ list list' args' s₁ s₂,
          (liveAt s key.key.buf = some (.sortedSet list) ∨
            liveAt s key.key.buf = none ∧ ∃ id, list = SkipList.emptyList id) ∧
          list.addToSortedSet (zaddSwitches rest).xx (zaddSwitches rest).nx (zaddSwitches rest).ch
            (zaddSwitches rest).incr (cmd :: key :: (parseSwitches rest noZaddSwitches).2) s₁ =
              .ok ((reply, list', args'), s₂) ∧
          ∀ k, liveAt t k = if k = key.key.buf then
            (if list'.size = 0 then none else some (.sortedSet list')) else liveAt s k) := by
  have hnow : t.now = s.now := (complete_now s.now).toClosed.zaddCommand _ s _ t rfl hrun
  rcases zaddCommand_cases hrun with ⟨herror, hend⟩ |
    ⟨list, list', args', s₁, s₂, hopen, hadd, ⟨hsame, hnow₂⟩, hclosing⟩
  · rcases hend with rfl | hopen
    · exact ⟨rfl, hs, .inl ⟨herror, fun _ => rfl⟩⟩
    · obtain ⟨hsame, -⟩ := openSortedSet_none hs hopen
      exact ⟨hnow, hsame ▸ hs, .inl ⟨herror, fun k => liveAt_congr (by rw [hsame]) hnow⟩⟩
  · obtain ⟨-, hkeyed₁, hvalue⟩ := openSortedSet_ok hs hopen
    obtain ⟨hlist, hnow₁, hother⟩ := openSortedSet_live hs hopen
    have hfound : s₂.HASH_TABLE.lookup key.key.buf ≠ none := by
      rw [hsame]
      intro hnone
      rw [hnone] at hvalue
      cases hvalue
    obtain ⟨hkeyed, hnow₃, hlive, hother'⟩ := hclosing.live (hsame ▸ hkeyed₁) hfound
    refine ⟨hnow, hkeyed, .inr ⟨list, list', args', s₁, s₂, hlist, hadd, fun k => ?_⟩⟩
    split
    · rename_i hk
      rw [hk, hlive]
    · rename_i hk
      exact liveAt_congr (by rw [hother' k hk, hsame, hother k hk]) hnow

/-! ## Errors and empty batches -/

theorem addOrUpdateMember_error {xx nx ch : Bool} {args args' : ArgList} {arg_size : ℕ}
    {reply : Reply}
    (hrun : list.addOrUpdateMember xx nx ch args arg_size s = .ok ((reply, list', args'), t))
    (hreply : reply.isError = true) : list' = list := by
  obtain ⟨⟨pairs, args₁⟩, s₁, -, hrest⟩ := bind_eq_ok_iff.1 hrun
  cases pairs with
  | none =>
      cases hrest
      rfl
  | some pairs =>
      obtain ⟨⟨list₁, changed, new_insert⟩, s₂, -, hrest⟩ := bind_eq_ok_iff.1 hrest
      cases hrest
      cases hreply

theorem scoreIncrement_error {nx : Bool} {args args' : ArgList} {reply : Reply}
    (hrun : list.scoreIncrement args nx s = .ok ((reply, list', args'), t))
    (hreply : reply.isError = true) : list' = list := by
  obtain ⟨⟨pairs, args₁⟩, s₁, -, hrest⟩ := bind_eq_ok_iff.1 hrun
  match pairs, hrest with
  | none, hrest =>
      cases hrest
      rfl
  | some [], hrest => cases hrest
  | some ((score, member) :: _), hrest =>
      obtain ⟨⟨tmp, table⟩, s₂, -, hrest⟩ := bind_eq_ok_iff.1 hrest
      cases tmp with
      | none =>
          obtain ⟨list₁, s₃, -, hrest⟩ := bind_eq_ok_iff.1 hrest
          cases hrest
          cases hreply
      | some target =>
          cases nx with
          | true =>
              obtain ⟨args₂, s₃, -, hrest⟩ := bind_eq_ok_iff.1 hrest
              cases hrest
              cases hreply
          | false =>
              obtain ⟨node, s₃, -, hrest⟩ := bind_eq_ok_iff.1 hrest
              obtain ⟨list₁, s₄, -, hrest⟩ := bind_eq_ok_iff.1 hrest
              cases hrest
              cases hreply

/-- A request that is answered with an error has not touched the sorted set. -/
theorem addToSortedSet_error {xx nx ch incr : Bool} {args args' : ArgList} {reply : Reply}
    (hrun : list.addToSortedSet xx nx ch incr args s = .ok ((reply, list', args'), t))
    (hreply : reply.isError = true) : list' = list := by
  rw [SkipList.addToSortedSet] at hrun
  split at hrun
  · cases hrun
    rfl
  · dsimp only at hrun
    split at hrun
    · split at hrun
      · cases hrun
      · split at hrun
        · split at hrun
          · obtain ⟨⟨ret, list₁, arg⟩, s₁, hincrement, hrest⟩ := bind_eq_ok_iff.1 hrun
            cases hrest
            exact scoreIncrement_error hincrement hreply
          · cases hrun
            rfl
        · obtain ⟨⟨ret, list₁, arg⟩, s₁, hbatch, hrest⟩ := bind_eq_ok_iff.1 hrun
          cases hrest
          exact addOrUpdateMember_error hbatch hreply
    · cases hrun
      rfl

/-- With XX nothing is entered among absent members. -/
theorem addOrUpdateLoop_absent {nx : Bool} {pairs : List (ℚ × ExoString)}
    {changed new_insert changed' new_insert' : ℕ} (h : list.table.Keyed)
    (habsent : ∀ m, list.has m = false)
    (hrun : SkipList.addOrUpdateLoop true nx pairs list changed new_insert s =
      .ok ((list', changed', new_insert'), t)) : list' = list := by
  induction pairs generalizing changed new_insert s with
  | nil =>
      cases hrun
      rfl
  | cons pair pairs ih =>
      obtain ⟨score, member⟩ := pair
      obtain ⟨⟨list₁, isChanged, isNew⟩, s₁, hpair, hrest⟩ := bind_eq_ok_iff.1 hrun
      have hm := habsent member.buf
      rcases SkipList.addOrUpdatePair_ok h hpair with ⟨hm', -⟩ | ⟨hm', -⟩ | ⟨-, -, -, -, rfl⟩ |
        ⟨-, hxx, -⟩
      · rw [hm] at hm'
        cases hm'
      · rw [hm] at hm'
        cases hm'
      · exact ih hrest
      · cases hxx

/-- A sorted set that is stored: it counts its members and has one. -/
structure SkipList.Populated (list : SkipList) : Prop where
  keyed : list.table.Keyed
  counted : list.size ≠ 0
  member : ∃ m, list.has m = true

/-- Every sorted set of the keyspace has a member. -/
def Server.Populated (s : Server) : Prop :=
  ∀ key list, sortedSetAt s.HASH_TABLE key = some list → list.Populated

theorem entered_kept {member : ExoString} (h : SkipList.Entered list list' member.buf) :
    list'.table.Keyed ∧ (∀ m, list.has m = true → list'.has m = true) ∧
      (list' = list ∨ ∃ m, list'.has m = true) := by
  refine ⟨h.keyed, fun m hm => ?_, .inr ⟨member.buf, ?_⟩⟩
  · rw [h.has, hm, Bool.true_or]
  · rw [h.has]
    simp

/-- What was applied to a sorted set leaves it keyed, keeps its members, and has entered a
member unless it has done nothing. -/
theorem Applied.has {sw : ZaddSwitches} {pairs : List (ℚ × ExoString)} {reply : Reply}
    (h : Applied sw pairs list s reply list' t) (hkeyed : list.table.Keyed) :
    list'.table.Keyed ∧ (∀ m, list.has m = true → list'.has m = true) ∧
      (list' = list ∨ ∃ m, list'.has m = true) := by
  obtain ⟨-, ⟨-, changed, new_insert, hloop, -⟩ | ⟨-, score, member, rfl, hinc⟩⟩ := h
  · obtain ⟨hkeyed', hhas, -⟩ := SkipList.addOrUpdateLoop_ok hkeyed hloop
    refine ⟨hkeyed', fun m hm => by rw [hhas, hm, Bool.true_or], ?_⟩
    by_cases hmember : ∃ m, list'.has m = true
    · exact .inr hmember
    · have habsent : ∀ m, list'.has m = false := by simpa using hmember
      refine .inl ?_
      cases hxx : sw.xx with
      | true =>
          rw [hxx] at hloop
          refine addOrUpdateLoop_absent hkeyed (fun m => ?_) hloop
          have hm := habsent m
          rw [hhas] at hm
          exact (Bool.or_eq_false_iff.1 hm).1
      | false =>
          cases pairs with
          | nil =>
              cases hloop
              rfl
          | cons pair pairs =>
              have hm := habsent pair.2.buf
              rw [hhas, hxx] at hm
              simp at hm
  · rcases hinc with ⟨-, -, -, rfl, -⟩ | ⟨-, -, target, node, -, -, -, hmove⟩ | ⟨-, -, hadd⟩
    · exact ⟨hkeyed, fun _ hm => hm, .inl rfl⟩
    · have hentered := SkipList.moveMember_ok hkeyed hmove
      exact entered_kept hentered
    · have hentered := (SkipList.addNodeToSkiplist_ok hkeyed hadd).1
      exact entered_kept hentered

/-- What a request leaves in the sorted set that it has worked on. -/
theorem addToSortedSet_kept {sw : ZaddSwitches} {cmd key : ArgListNode} {rest args' : ArgList}
    {reply : Reply} (hkeyed : list.table.Keyed)
    (hrun : list.addToSortedSet sw.xx sw.nx sw.ch sw.incr (cmd :: key :: rest) s =
      .ok ((reply, list', args'), t)) :
    list'.table.Keyed ∧ (∀ m, list.has m = true → list'.has m = true) ∧
      (list' = list ∨ ∃ m, list'.has m = true) := by
  cases hreply : reply.isError with
  | true =>
      obtain rfl := addToSortedSet_error hrun hreply
      exact ⟨hkeyed, fun _ hm => hm, .inl rfl⟩
  | false =>
      obtain ⟨pairs, -, hhanded⟩ := addToSortedSet_ok hrun hreply
      exact hhanded.applied.has hkeyed

theorem memberAt_of_liveAt (h : liveAt s k = some (.sortedSet list)) (m : List UInt8) :
    memberAt s k m = list.has m := by
  rw [memberAt, sortedSetAt_of_liveAt h]
  rfl

section AllOrNothing

variable {cmd key : ArgListNode} {rest args : ArgList} {reply : Reply}
  (hs : s.HASH_TABLE.Keyed) (hrun : zaddCommand (cmd :: key :: rest) s = .ok ((reply, args), t))

include hs hrun

/-- An error leaves every key as it was. -/
theorem liveAt_of_error (hset : s.Populated) (hreply : reply.isError = true) (k : List UInt8) :
    liveAt t k = liveAt s k := by
  obtain ⟨-, -, ⟨-, hsame⟩ | ⟨list, list', args', s₁, s₂, hlist, hadd, hlive⟩⟩ :=
    zaddCommand_live hs hrun
  · exact hsame k
  · obtain rfl := addToSortedSet_error hadd hreply
    rw [hlive]
    split
    · rename_i hk
      subst hk
      rcases hlist with hfound | ⟨hnone, id, rfl⟩
      · rw [if_neg (hset _ _ (sortedSetAt_of_liveAt hfound)).counted, hfound]
      · rw [hnone]
        rfl
    · rfl

/-- A missing key that is given no member stays missing. -/
theorem liveAt_of_noMember (hmissing : liveAt s key.key.buf = none)
    (hmember : ∀ m, memberAt t key.key.buf m = false) : liveAt t key.key.buf = none := by
  obtain ⟨-, -, ⟨-, hsame⟩ | ⟨list, list', args', s₁, s₂, hlist, hadd, hlive⟩⟩ :=
    zaddCommand_live hs hrun
  · rw [hsame, hmissing]
  · rcases hlist with hfound | ⟨-, id, rfl⟩
    · rw [hmissing] at hfound
      cases hfound
    · obtain ⟨-, -, rfl | ⟨m, hm⟩⟩ := addToSortedSet_kept HashTable.keyed_newHashTable hadd
      · rw [hlive, if_pos rfl]
        rfl
      · have hend := hlive key.key.buf
        rw [if_pos rfl] at hend
        by_cases hsize : list'.size = 0
        · rw [hend, if_pos hsize]
        · rw [if_neg hsize] at hend
          have hno := hmember m
          rw [memberAt_of_liveAt hend, hm] at hno
          cases hno

/-- A request leaves no sorted set without a member. -/
theorem populated_of_zadd (hset : s.Populated) : t.Populated := by
  intro k l hl
  have hfind := liveAt_of_sortedSetAt hl
  obtain ⟨-, -, ⟨-, hsame⟩ | ⟨list, list', args', s₁, s₂, hlist, hadd, hlive⟩⟩ :=
    zaddCommand_live hs hrun
  · rw [hsame] at hfind
    exact hset k l (sortedSetAt_of_liveAt hfind)
  · rw [hlive] at hfind
    split at hfind
    · split at hfind
      · cases hfind
      · rename_i hsize
        cases hfind
        rcases hlist with hfound | ⟨-, id, rfl⟩
        · have hold := hset _ _ (sortedSetAt_of_liveAt hfound)
          obtain ⟨m, hm⟩ := hold.member
          obtain ⟨hkeyed, hkept, -⟩ := addToSortedSet_kept hold.keyed hadd
          exact ⟨hkeyed, hsize, m, hkept m hm⟩
        · obtain ⟨hkeyed, -, rfl | hnew⟩ := addToSortedSet_kept HashTable.keyed_newHashTable hadd
          · exact absurd rfl hsize
          · exact ⟨hkeyed, hsize, hnew⟩
    · exact hset k l (sortedSetAt_of_liveAt hfind)

end AllOrNothing

/-! ## Runs -/

/-- The sorted sets of `ht'` are those of `ht`, or fewer. -/
def NoNewSets (ht ht' : HashTable ExoVal) : Prop :=
  ∀ k list, sortedSetAt ht' k = some list → sortedSetAt ht k = some list

/-- A key of a table is given a value that is no sorted set, or taken out. -/
theorem noNewSets_of_lookup {ht ht' : HashTable ExoVal} {key : List UInt8}
    {found : Option (ListNode ExoVal)} (hplain : ∀ node ∈ found, ∀ list, node.value ≠ .sortedSet list)
    (h : ∀ k, ht'.lookup k = if k = key then found else ht.lookup k) : NoNewSets ht ht' := by
  intro k list hk
  rw [sortedSetAt, h] at hk
  rw [sortedSetAt]
  split at hk
  · rename_i list' hvalue
    split at hvalue
    · obtain ⟨node, hnode, hval⟩ := Option.map_eq_some_iff.1 hvalue
      exact absurd hval (hplain node hnode list')
    · rw [hvalue]
      exact hk
  · cases hk

/-- Between requests: the keys are unique and every sorted set has a member. -/
structure Inhabited (s : Server) : Prop where
  tidy : Tidy s
  populated : s.Populated

theorem Inhabited.of_noNewSets (h : Inhabited s) (ht : Tidy t)
    (hsets : NoNewSets s.HASH_TABLE t.HASH_TABLE) : Inhabited t :=
  ⟨ht, fun k list hk => h.populated k list (hsets k list hk)⟩

theorem updateValue_cases {ht ht' : HashTable ExoVal} {val : ExoVal} (h : ht.Keyed)
    (hrun : ht.updateValue key val s = .ok (ht', t)) :
    ht' = ht ∨ ∃ node : ListNode ExoVal, node.value = val ∧
      ∀ k, ht'.lookup k = if k = key.buf then some node else ht.lookup k := by
  cases hnode : ht.lookup key.buf with
  | some node =>
      obtain ⟨-, -, hlookup⟩ := updateValue_lookup h hnode hrun
      exact .inr ⟨_, rfl, hlookup⟩
  | none =>
      by_cases hkey : key.buf = []
      · rw [HashTable.updateValue, bind_run_error (stringHash_nil hkey s)] at hrun
        cases hrun
      · rw [HashTable.updateValue_missing h.unfreed hkey
          (HashTable.cursor_eq_none_iff.2 hnode)] at hrun
        cases hrun
        exact .inl rfl

attribute [local simp] zaddCommand.eq_def in
theorem populated_zaddCommand {args args' : ArgList} {reply : Reply}
    (hs : Inhabited s) (hrun : zaddCommand args s = .ok ((reply, args'), t)) : t.Populated := by
  by_cases hlength : args.length < 4
  · simp only [zaddCommand.eq_def, if_pos hlength] at hrun
    cases hrun
    exact hs.populated
  · rcases args with _ | ⟨cmd, _ | ⟨key, rest⟩⟩
    · simp at hlength
    · simp at hlength
    · exact populated_of_zadd hs.tidy.keyed hrun hs.populated

theorem serving_inhabited : Serving fun _ x => Preserves x Inhabited where
  toHashing := framed_preserves fun s _ _ _ _ h => h.of_noNewSets (insensitive_tidy s _ _ _ _ h.tidy)
    fun _ _ hk => hk
  get key := by
    intro s found t hs hrun
    refine hs.of_noNewSets (closed_tidy.get key s found t hs.tidy hrun) ?_
    obtain ⟨ht, s₁, hget, rfl⟩ := onKeyspace_ok hrun
    obtain ⟨-, ⟨-, -, rfl, -⟩ | ⟨-, -, hlookup⟩⟩ := hs.tidy.keyed.get_ok hget
    · exact fun _ _ hk => hk
    · exact noNewSets_of_lookup (by simp) hlookup
  del key := by
    intro s n t hs hrun
    refine hs.of_noNewSets (closed_tidy.del key s n t hs.tidy hrun) ?_
    obtain ⟨ht, s₁, hdel, rfl⟩ := onKeyspace_ok hrun
    exact noNewSets_of_lookup (by simp) (hs.tidy.keyed.del_ok hdel).2
  setBitmap key node := by
    intro s u t hs hrun
    refine hs.of_noNewSets (closed_tidy.set key _ s u t hs.tidy hrun) ?_
    obtain ⟨ht, s₁, hset, rfl⟩ := onKeyspace_unit_ok hrun
    obtain ⟨-, node, hvalue, hlookup⟩ := hs.tidy.keyed.set_ok hset
    exact noNewSets_of_lookup (by simp [hvalue]) hlookup
  updateBitmap key node := by
    intro s u t hs hrun
    refine hs.of_noNewSets (closed_tidy.update key _ s u t hs.tidy hrun) ?_
    obtain ⟨ht, s₁, hupdate, rfl⟩ := onKeyspace_unit_ok hrun
    rcases updateValue_cases hs.tidy.keyed hupdate with rfl | ⟨node, hvalue, hlookup⟩
    · exact fun _ _ hk => hk
    · exact noNewSets_of_lookup (by simp [hvalue]) hlookup
  zadd args := by
    rintro s ⟨reply, args'⟩ t hs hrun
    exact ⟨closed_tidy.zaddCommand args s _ t hs.tidy hrun, populated_zaddCommand hs hrun⟩
  flush := preserves_modify fun s h => h.of_noNewSets
    ⟨⟨h.tidy.ready.keyed, h.tidy.ready.lookup⟩, HashTable.keyed_newHashTable⟩
    fun k list hk => by cases hk
  save bytes := preserves_modify fun s h => h.of_noNewSets
    ⟨⟨h.tidy.ready.keyed, h.tidy.ready.lookup⟩, h.tidy.keyed⟩ fun _ _ hk => hk

theorem guarded_inhabited : Guarded Inhabited where
  ready _ h := h.tidy.ready
  insensitive s _ _ _ _ h := h.of_noNewSets (insensitive_tidy s _ _ _ _ h.tidy) fun _ _ hk => hk
  timeless s now h := h.of_noNewSets (guarded_tidy.timeless s now h.tidy) fun _ _ hk => hk
  serving := serving_inhabited
  setWithExpiry := by
    intro key val exp_ms nx xx s reply t hs hlive hrun
    refine hs.of_noNewSets (guarded_tidy.setWithExpiry hs.tidy hlive hrun) ?_
    obtain ⟨ht, s₁, hset, rfl⟩ := onKeyspace_ok hrun
    obtain ⟨-, ⟨-, rfl⟩ | ⟨-, node, hvalue, -, hlookup⟩⟩ :=
      hs.tidy.keyed.setWithExpiry_ok hlive hset
    · exact fun _ _ hk => hk
    · exact noNewSets_of_lookup (by simp [hvalue]) hlookup
  setFromLoad := by
    intro key val exp_ms s reply t hs hnew hrun
    refine hs.of_noNewSets (guarded_tidy.setFromLoad hs.tidy hnew hrun) ?_
    obtain ⟨ht, s₁, hset, rfl⟩ := onKeyspace_ok hrun
    obtain ⟨-, ⟨-, rfl⟩ | ⟨-, node, hvalue, -, hlookup⟩⟩ :=
      hs.tidy.keyed.setFromLoad_ok hnew hset
    · exact fun _ _ hk => hk
    · exact noNewSets_of_lookup (by simp [hvalue]) hlookup

/-- No run whose steps keep the keys unique leaves a sorted set without a member. -/
theorem populated_of_run (coins : ℕ → ℕ) (dump : Option (List UInt8)) (s : Server)
    (hstart : startUp coins dump = .ok s) (rs : List Request) (os : List (List UInt8))
    (t : Server) (hrs : server.Meets KeepsUnique s rs) (hrun : server.run s rs = .ok (os, t)) :
    Inhabited t := by
  refine guarded_inhabited.of_run ⟨tidy_started coins dump hstart, ?_⟩ hrs hrun
  obtain ⟨ht, hready, -⟩ := startUp_run coins dump
  rw [hready] at hstart
  obtain rfl := Except.ok.inj hstart
  intro k list hk
  cases hk


/-- A request of any tokens that is answered with an error leaves every key as it was, and
one that adds no member to a missing key leaves it missing. No sorted set without a member
is left, and none is there to begin with in any run whose steps keep the keys unique. -/
theorem zadd_allOrNothing :
    (∀ (s : Server) (args args' : ArgList) (reply : Reply) (t : Server),
      s.HASH_TABLE.Keyed → s.Populated → zaddCommand args s = .ok ((reply, args'), t) →
        (reply.isError = true → ∀ k, liveAt t k = liveAt s k) ∧
        (∀ cmd key rest, args = cmd :: key :: rest → liveAt s key.key.buf = none →
          (∀ m, memberAt t key.key.buf m = false) → liveAt t key.key.buf = none) ∧
        t.HASH_TABLE.Keyed ∧ t.Populated) ∧
    ∀ (coins : ℕ → ℕ) (dump : Option (List UInt8)) (s : Server), startUp coins dump = .ok s →
      ∀ (rs : List Request) (os : List (List UInt8)) (t : Server),
        server.Meets KeepsUnique s rs → server.run s rs = .ok (os, t) →
          t.HASH_TABLE.Keyed ∧ t.Populated := by
  refine ⟨fun s args args' reply t hs hset hrun => ?_,
    fun coins dump s hstart rs os t hrs hrun => ?_⟩
  · by_cases hlength : args.length < 4
    · rw [zaddCommand.eq_def, if_pos hlength] at hrun
      cases hrun
      exact ⟨fun _ _ => rfl, fun _ _ _ _ h _ => h, hs, hset⟩
    · match args, hlength with
      | [], hlength | [_], hlength => simp at hlength
      | cmd :: key :: rest, _ =>
          refine ⟨liveAt_of_error hs hrun hset, fun cmd' key' rest' heq => ?_,
            (zaddCommand_live hs hrun).2.1, populated_of_zadd hs hrun hset⟩
          cases heq
          exact liveAt_of_noMember hs hrun
  · have hend := populated_of_run coins dump s hstart rs os t hrs hrun
    exact ⟨hend.tidy.keyed, hend.populated⟩

/-- `ZADD k 1 a x b`: the second score is malformed. -/
theorem zadd_allOrNothing_malformed :
    ∃ reply args t, zaddCommand [newArg ⟨0, ascii "ZADD"⟩, newArg ⟨1, ascii "k"⟩,
        newArg ⟨2, ascii "1"⟩, newArg ⟨3, ascii "a"⟩, newArg ⟨4, ascii "x"⟩,
        newArg ⟨5, ascii "b"⟩] (blankServer (fun _ => 0) none) = .ok ((reply, args), t) ∧
      reply.isError = true ∧ ∀ k, liveAt t k = none := by
  have hmap : (zaddCommand [newArg ⟨0, ascii "ZADD"⟩, newArg ⟨1, ascii "k"⟩,
      newArg ⟨2, ascii "1"⟩, newArg ⟨3, ascii "a"⟩, newArg ⟨4, ascii "x"⟩,
      newArg ⟨5, ascii "b"⟩] (blankServer (fun _ => 0) none)).map
        (fun p => p.1.1.isError) = .ok true := by decide +kernel
  obtain ⟨⟨reply, args⟩, t, hrun, hreply⟩ := exists_of_map_eq_ok hmap
  refine ⟨reply, args, t, hrun, hreply, fun k => ?_⟩
  exact (zadd_allOrNothing.1 _ _ _ _ _ HashTable.keyed_newHashTable
    (fun _ _ hk => by cases hk) hrun).1 hreply k

end Exoredis
