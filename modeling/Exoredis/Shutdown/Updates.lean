import Exoredis.Shutdown.Signals
import Exoredis.Dump.Contents
import Exoredis.SortedSet.Zadd

/-!
# The updates of a request

How many updates of the keyspace a command makes can be told from its arguments and the
keyspace in front of it. With at most one, a signal finds the contents of the keyspace as
they were before the command or as they are behind it.
-/

namespace Exoredis

open Watched LittleEndian

/-! ## Pairs -/

/-- The updates of a sorted set that the pairs ask for. An update of a present member
takes two. -/
def pairUpdates (sw : ZaddSwitches) (present : List UInt8 → Bool)
    (members : List (List UInt8)) : ℕ :=
  if sw.incr then
    match members with
    | [m] => if present m then (if sw.nx then 0 else 2) else 1
    | _ => 0
  else
    let (inserted, updated) := pairCounts sw.xx sw.nx present members
    inserted + 2 * updated

/-- The updates of a sorted set with the members `present` by the tokens behind the key. -/
def listUpdates (rest : ArgList) (present : List UInt8 → Bool) : ℕ :=
  if (zaddSwitches rest).nx && (zaddSwitches rest).xx then 0
  else pairUpdates (zaddSwitches rest) present (zaddMembers rest)

namespace Signal

variable {list list' : SkipList} {s t : Server} {ps : List SkipList}

/-- A pair does nothing, inserts its member, or moves it. -/
theorem addOrUpdatePair_points {xx nx : Bool} {score : ℚ} {member : ExoString}
    {isChanged isNew : Bool} (hrun : addOrUpdatePair xx nx list (score, member) s =
      (ps, .ok ((list', isChanged, isNew), t))) :
    (list.has member.buf = true ∧ (xx || !nx) = true) ∨
      ((list.has member.buf = true ∧ (xx || !nx) = false ∨
          list.has member.buf = false ∧ xx = true) ∧ ps = [] ∧ list' = list) ∨
      (list.has member.buf = false ∧ xx = false ∧ ps = [list'] ∧
        (∀ k, list'.has k = (list.has k || decide (k = member.buf))) ∧
        list'.size = addSize list.size 1) := by
  obtain ⟨⟨tmp, table⟩, s₁, ps₁, ps₂, hlook, hrest, rfl⟩ := bind_eq_ok_iff.1 hrun
  obtain ⟨rfl, hget⟩ := unseen_eq_ok_iff.1 hlook
  obtain ⟨htmp, rfl, -⟩ := SkipList.getMember_ok hget
  have hhas : list.has member.buf = tmp.isSome := by rw [SkipList.has, htmp]
  cases tmp with
  | some target =>
      cases xx with
      | true => exact .inl ⟨hhas, rfl⟩
      | false =>
          cases nx with
          | false => exact .inl ⟨hhas, rfl⟩
          | true =>
              obtain ⟨rfl, hend, -⟩ := pure_eq_ok_iff.1 hrest
              cases hend
              exact .inr (.inl ⟨.inl ⟨hhas, rfl⟩, rfl, rfl⟩)
  | none =>
      cases xx with
      | true =>
          obtain ⟨rfl, hend, -⟩ := pure_eq_ok_iff.1 hrest
          cases hend
          exact .inr (.inl ⟨.inr ⟨hhas, rfl⟩, rfl, rfl⟩)
      | false =>
          obtain ⟨list₁, s₂, ps₃, ps₄, hmark, hend, rfl⟩ := bind_eq_ok_iff.1 hrest
          obtain ⟨rfl, hadd⟩ := marked_eq_ok_iff.1 hmark
          obtain ⟨rfl, hpure, -⟩ := pure_eq_ok_iff.1 hend
          cases hpure
          obtain ⟨-, -, -, -, -, hsize, -⟩ := SkipList.addNodeToSkiplist_set hadd
          exact .inr (.inr ⟨hhas, rfl, rfl, SkipList.has_addNodeToSkiplist hhas hadd, hsize⟩)

theorem addOrUpdateLoop_points {xx nx : Bool} {pairs : List (ℚ × ExoString)}
    {changed new_insert changed' new_insert' : ℕ}
    (hrun : addOrUpdateLoop xx nx pairs list changed new_insert s =
      (ps, .ok ((list', changed', new_insert'), t))) :
    ∃ inserted updated,
      pairCounts xx nx list.has (pairs.map fun p => p.2.buf) = (inserted, updated) ∧
        AtOnce id (inserted + 2 * updated) list list' ps ∧
        (inserted + 2 * updated ≤ 1 → list' = list ∨ list'.size = addSize list.size 1) := by
  induction pairs generalizing list changed new_insert ps s with
  | nil =>
      obtain ⟨rfl, hend, -⟩ := pure_eq_ok_iff.1 hrun
      cases hend
      exact ⟨0, 0, rfl, .nil rfl, fun _ => .inl rfl⟩
  | cons pair pairs ih =>
      obtain ⟨score, member⟩ := pair
      obtain ⟨⟨list₁, isChanged, isNew⟩, s₁, ps₁, ps₂, hpair, hrest, rfl⟩ :=
        bind_eq_ok_iff.1 hrun
      obtain ⟨inserted, updated, hcounts, honce, hsize⟩ := ih hrest
      rw [List.map_cons, pairCounts]
      rcases addOrUpdatePair_points hpair with
        ⟨hm, hmove⟩ | ⟨hskip, rfl, rfl⟩ | ⟨hm, rfl, rfl, hhas, hadd⟩
      · rw [if_pos hm]
        simp only [hmove, if_true]
        refine ⟨_, _, rfl, .of_one_lt (by omega), fun h => ?_⟩
        omega
      · refine ⟨inserted, updated, ?_, honce, hsize⟩
        rcases hskip with ⟨hm, hnx⟩ | ⟨hm, rfl⟩
        · rw [if_pos hm]
          simp only [hcounts, hnx, Bool.false_eq_true, if_false]
        · rw [if_neg (by simp [hm])]
          exact hcounts
      · rw [if_neg (by simp [hm])]
        have hpresent : (fun k => list.has k || decide (k = member.buf)) = list₁.has :=
          funext fun k => (hhas k).symm
        simp only [Bool.false_eq_true, if_false, hpresent, hcounts]
        refine ⟨_, _, rfl, ?_, fun h => ?_⟩
        · have hfirst : AtOnce id 1 list list₁ [list₁] := .single fun h => absurd h (by decide)
          have hboth := hfirst.append honce
          rwa [show 1 + (inserted + 2 * updated) = inserted + 1 + 2 * updated by omega] at hboth
        · have hsame : list' = list₁ := (honce (by omega)).2 (by omega)
          exact .inr (by rw [hsame, hadd])

end Signal

namespace Signal

variable {list list' : SkipList} {s t : Server} {ps : List SkipList}

theorem addOrUpdateMember_points {xx nx ch : Bool} {args args' : ArgList} {arg_size : ℕ}
    {reply : Reply} (hrun : addOrUpdateMember list xx nx ch args arg_size s =
      (ps, .ok ((reply, list', args'), t))) :
    ∃ inserted updated, pairCounts xx nx list.has
        (((readPairs args).getD []).map fun p => p.2.buf) = (inserted, updated) ∧
      AtOnce id (inserted + 2 * updated) list list' ps ∧
      (inserted + 2 * updated ≤ 1 → list' = list ∨ list'.size = addSize list.size 1) := by
  obtain ⟨⟨pairs, args₁⟩, s₁, ps₁, ps₂, hseen, hrest, rfl⟩ := bind_eq_ok_iff.1 hrun
  obtain ⟨rfl, hparse⟩ := unseen_eq_ok_iff.1 hseen
  obtain ⟨hpairs, -, -⟩ := parseArgs_ok hparse
  rw [← hpairs]
  cases pairs with
  | none =>
      obtain ⟨rfl, hend, -⟩ := pure_eq_ok_iff.1 hrest
      cases hend
      exact ⟨0, 0, rfl, .nil rfl, fun _ => .inl rfl⟩
  | some pairs =>
      obtain ⟨⟨list₂, changed, new_insert⟩, s₂, ps₃, ps₄, hloop, hend, rfl⟩ :=
        bind_eq_ok_iff.1 hrest
      obtain ⟨rfl, hpure, -⟩ := pure_eq_ok_iff.1 hend
      cases hpure
      rw [List.nil_append, List.append_nil]
      exact addOrUpdateLoop_points hloop

/-- An increment does nothing, moves its member, or inserts it. -/
theorem scoreIncrement_points {nx : Bool} {args args' : ArgList} {reply : Reply}
    (hrun : scoreIncrement list args nx s = (ps, .ok ((reply, list', args'), t))) :
    ps = [] ∧ list' = list ∧ readPairs args = none ∨
      ∃ score member pairs, readPairs args = some ((score, member) :: pairs) ∧
        AtOnce id (if list.has member.buf then (if nx then 0 else 2) else 1) list list' ps ∧
        ((if list.has member.buf then (if nx then 0 else 2) else 1) ≤ 1 →
          list' = list ∨ list'.size = addSize list.size 1) := by
  obtain ⟨⟨pairs, args₁⟩, s₁, ps₁, ps₂, hseen, hrest, rfl⟩ := bind_eq_ok_iff.1 hrun
  obtain ⟨rfl, hparse⟩ := unseen_eq_ok_iff.1 hseen
  obtain ⟨hpairs, -, -⟩ := parseArgs_ok hparse
  match pairs, hpairs, hrest with
  | none, hpairs, hrest =>
      obtain ⟨rfl, hend, -⟩ := pure_eq_ok_iff.1 hrest
      cases hend
      exact .inl ⟨rfl, rfl, hpairs.symm⟩
  | some [], _, hrest =>
      obtain ⟨-, hthrow⟩ := unseen_eq_ok_iff.1 hrest
      cases hthrow
  | some ((score, member) :: pairs), hpairs, hrest =>
      refine .inr ⟨score, member, pairs, hpairs.symm, ?_⟩
      obtain ⟨⟨tmp, table⟩, s₂, ps₃, ps₄, hlook, hcases, rfl⟩ := bind_eq_ok_iff.1 hrest
      obtain ⟨rfl, hget⟩ := unseen_eq_ok_iff.1 hlook
      obtain ⟨htmp, rfl, -⟩ := SkipList.getMember_ok hget
      have hhas : list.has member.buf = tmp.isSome := by rw [SkipList.has, htmp]
      rw [hhas]
      cases tmp with
      | some target =>
          cases nx with
          | false => exact ⟨.of_one_lt (by simp), fun h => absurd h (by simp)⟩
          | true =>
              obtain ⟨args₂, s₃, ps₅, ps₆, hdead, hend, rfl⟩ := bind_eq_ok_iff.1 hcases
              obtain ⟨rfl, -⟩ := unseen_eq_ok_iff.1 hdead
              obtain ⟨rfl, hpure, -⟩ := pure_eq_ok_iff.1 hend
              cases hpure
              exact ⟨.nil rfl, fun _ => .inl rfl⟩
      | none =>
          obtain ⟨list₁, s₃, ps₅, ps₆, hmark, hend, rfl⟩ := bind_eq_ok_iff.1 hcases
          obtain ⟨rfl, hadd⟩ := marked_eq_ok_iff.1 hmark
          obtain ⟨rfl, hpure, -⟩ := pure_eq_ok_iff.1 hend
          cases hpure
          obtain ⟨-, -, -, -, -, hsize, -⟩ := SkipList.addNodeToSkiplist_set hadd
          exact ⟨.single fun h => absurd h (by simp), fun _ => .inr hsize⟩

theorem addToSortedSet_points {sw : ZaddSwitches} {cmd key : ArgListNode} {rest args' : ArgList}
    {reply : Reply} (hrun : addToSortedSet list sw.xx sw.nx sw.ch sw.incr (cmd :: key :: rest) s =
      (ps, .ok ((reply, list', args'), t))) :
    ∃ n, n = (if sw.nx && sw.xx then 0 else pairUpdates sw list.has
        (((readPairs (rest.drop sw.count)).getD []).map fun p => p.2.buf)) ∧
      AtOnce id n list list' ps ∧ (n ≤ 1 → list' = list ∨ list'.size = addSize list.size 1) := by
  refine ⟨_, rfl, ?_⟩
  have hquiet : ∀ n, AtOnce id n list list [] ∧
      (n ≤ 1 → list = list ∨ list.size = addSize list.size 1) :=
    fun _ => ⟨.nil rfl, fun _ => .inl rfl⟩
  rw [addToSortedSet] at hrun
  by_cases hboth : (sw.nx && sw.xx) = true
  · rw [if_pos hboth] at hrun
    obtain ⟨rfl, hend, -⟩ := pure_eq_ok_iff.1 hrun
    cases hend
    exact hquiet _
  · rw [if_neg hboth] at hrun ⊢
    have hcount : (sw.nx || sw.xx).toNat + sw.ch.toNat + sw.incr.toNat = sw.count := rfl
    simp only [hcount] at hrun
    by_cases heven : ((cmd :: key :: rest).length - sw.count) % 2 = 0
    · rw [if_pos heven] at hrun
      by_cases hmove : (cmd :: key :: rest).length < sw.count + 2
      · rw [if_pos hmove] at hrun
        obtain ⟨_, _, _, _, hthrow, -⟩ := bind_eq_ok_iff.1 hrun
        obtain ⟨-, hthrow⟩ := unseen_eq_ok_iff.1 hthrow
        cases hthrow
      · rw [if_neg hmove] at hrun
        have hdrop : (cmd :: key :: rest).drop (sw.count + 2) = rest.drop sw.count := rfl
        rw [hdrop] at hrun
        unfold pairUpdates
        cases hincr : sw.incr with
        | true =>
            rw [hincr, if_pos rfl] at hrun
            rw [if_pos rfl]
            by_cases hfour : (cmd :: key :: rest).length - sw.count = 4
            · rw [if_pos hfour] at hrun
              obtain ⟨⟨ret, list₁, arg⟩, s₁, ps₁, ps₂, hinc, hend, rfl⟩ := bind_eq_ok_iff.1 hrun
              obtain ⟨rfl, hpure, -⟩ := pure_eq_ok_iff.1 hend
              cases hpure
              rw [List.append_nil]
              rcases scoreIncrement_points hinc with
                ⟨rfl, rfl, -⟩ | ⟨score, member, pairs, hpairs, honce⟩
              · exact hquiet _
              · have hlength := length_readPairs hpairs
                simp only [List.length_drop, List.length_cons] at hlength hfour
                obtain rfl : pairs = [] := List.eq_nil_of_length_eq_zero (by omega)
                rw [hpairs]
                exact honce
            · rw [if_neg hfour] at hrun
              obtain ⟨rfl, hend, -⟩ := pure_eq_ok_iff.1 hrun
              cases hend
              exact hquiet _
        | false =>
            rw [hincr, if_neg (by simp)] at hrun
            obtain ⟨⟨ret, list₁, arg⟩, s₁, ps₁, ps₂, hbatch, hend, rfl⟩ := bind_eq_ok_iff.1 hrun
            obtain ⟨rfl, hpure, -⟩ := pure_eq_ok_iff.1 hend
            cases hpure
            obtain ⟨inserted, updated, hcounts, honce⟩ := addOrUpdateMember_points hbatch
            rw [List.append_nil, if_neg (by simp)]
            simp only [hcounts]
            exact honce
    · rw [if_neg heven] at hrun
      obtain ⟨rfl, hend, -⟩ := pure_eq_ok_iff.1 hrun
      cases hend
      exact hquiet _

end Signal

/-! ## The keyspace under its operations -/

namespace HashTable

variable {ht ht' : HashTable ExoVal} {key : List UInt8} {c : Cursor ExoVal}

theorem putBucket_self (ht : HashTable ExoVal) (key : List UInt8) :
    ht.putBucket key (ht.buckets (keyHash key)) = ht := by
  rw [putBucket, setBucket, Function.update_eq_self]

end HashTable

/-- A search passes the nodes of other keys. -/
theorem cursorOf_append {V : Type} {key : List UInt8} {before : List (ListNode V)}
    (hbefore : ∀ n ∈ before, n.key.buf ≠ key) (after : List (ListNode V)) :
    cursorOf key (before ++ after) =
      (cursorOf key after).map fun c => { c with before := before ++ c.before } := by
  induction before with
  | nil =>
      cases hafter : cursorOf key after <;> simp [hafter]
  | cons n before ih =>
      rw [List.cons_append, cursorOf, if_neg (hbefore n List.mem_cons_self),
        ih fun m hm => hbefore m (List.mem_cons_of_mem _ hm), Option.map_map]
      rfl

theorem cursor_putBucket {V : Type} {ht : HashTable V} {key : List UInt8}
    {before after : List (ListNode V)} {node : ListNode V}
    (hbefore : ∀ n ∈ before, n.key.buf ≠ key) (hnode : node.key.buf = key) :
    (ht.putBucket key (before ++ node :: after)).cursor key = some ⟨before, node, after⟩ := by
  rw [HashTable.cursor, HashTable.putBucket, HashTable.setBucket_buckets, Function.update_self,
    cursorOf_append hbefore, cursorOf, if_pos hnode]
  simp

theorem contents_insert {ht : HashTable ExoVal} {key : List UInt8} {node : ListNode ExoVal}
    {before after : List (ListNode ExoVal)} (h : nodeRecords node = some [])
    (hbucket : ht.buckets (keyHash key) = before ++ after) :
    contents (ht.putBucket key (before ++ node :: after)) = contents ht :=
  contents_putBucket (by rw [listRecords_insert h, hbucket])

theorem contents_erase {ht : HashTable ExoVal} {key : List UInt8} {node : ListNode ExoVal}
    {before after : List (ListNode ExoVal)} (h : nodeRecords node = some [])
    (hbucket : ht.buckets (keyHash key) = before ++ node :: after) :
    contents (ht.putBucket key (before ++ after)) = contents ht :=
  contents_putBucket (by rw [hbucket, listRecords_insert h])

theorem nodeRecords_emptyList (key : ExoString) (id : ℕ) :
    nodeRecords (newNode key (.sortedSet (SkipList.emptyList id))) = some [] := rfl

/-- The updates with which a sorted set is opened: an expired string is deleted, and where
LOADDB has left a second node of the key, that is overwritten. -/
def openUpdates (s : Server) (key : List UInt8) : ℕ :=
  match s.HASH_TABLE.cursor key with
  | some c => if c.node.Expired s.now then 1 + (cursorOf key c.after).isSome.toNat else 0
  | none => 0

namespace Signal

variable {s t : Server} {ps : List (HashTable ExoVal)}

theorem updated_eq_ok_iff {α : Type} {x : Exo α} {a : α} :
    updated x s = (ps, .ok (a, t)) ↔ ps = [t.HASH_TABLE] ∧ x s = .ok (a, t) :=
  marked_eq_ok_iff

theorem withSortedSet_self {ht : HashTable ExoVal} {key : ExoString} {c : Cursor ExoVal}
    {list : SkipList} (hc : ht.cursor key.buf = some c) (hvalue : c.node.value = .sortedSet list) :
    withSortedSet ht key list = ht := by
  rw [withSortedSet, hc]
  have hnode : { c.node with value := .sortedSet list } = c.node := by rw [← hvalue]
  simp only [hnode]
  rw [← HashTable.cursor_toList hc, HashTable.putBucket_self]

theorem updateValue_eq {ht ht' : HashTable ExoVal} {key : ExoString} {list : SkipList}
    (hrun : ht.updateValue key (.sortedSet list) s = .ok (ht', t)) :
    ht' = withSortedSet ht key list := by
  obtain ⟨-, hrest⟩ := HashTable.find_ok hrun
  rw [withSortedSet]
  cases hc : ht.cursor key.buf with
  | none =>
      rw [hc] at hrest
      cases hrest
      rfl
  | some c =>
      rw [hc] at hrest
      cases hrest
      rfl

/-- A new sorted set behind a search that has found nothing. -/
theorem newSortedSet_points {key : ExoString} {list : SkipList}
    (hrun : (do let list ← unseen SkipList.newSkipList
                updated (onKeyspace_ fun ht => ht.set key (.sortedSet list))
                return some list : Interrupted (Option SkipList)) s = (ps, .ok (some list, t))) :
    (∃ id, list = SkipList.emptyList id) ∧
      AtOnce contents (s.HASH_TABLE.cursor key.buf).isSome.toNat s.HASH_TABLE t.HASH_TABLE ps ∧
      ∃ c, t.HASH_TABLE.cursor key.buf = some c ∧ c.node.value = .sortedSet list ∧
        (s.HASH_TABLE.cursor key.buf = none → nodeRecords c.node = some []) := by
  obtain ⟨list', s₁, ps₁, ps₂, hseen, hrest, rfl⟩ := bind_eq_ok_iff.1 hrun
  obtain ⟨rfl, hnew⟩ := unseen_eq_ok_iff.1 hseen
  rw [newSkipList_run] at hnew
  cases hnew
  obtain ⟨u, s₂, ps₃, ps₄, hupdate, hend, rfl⟩ := bind_eq_ok_iff.1 hrest
  obtain ⟨rfl, hlist, rfl⟩ := pure_eq_ok_iff.1 hend
  cases hlist
  obtain ⟨rfl, hput⟩ := updated_eq_ok_iff.1 hupdate
  obtain ⟨ht', s₃, hset, ht⟩ := onKeyspace_unit_ok hput
  have hht : s₂.HASH_TABLE = ht' := by rw [ht]
  refine ⟨⟨_, rfl⟩, ?_⟩
  rw [hht, List.nil_append, List.append_nil]
  obtain ⟨-, ⟨hc, -, rfl⟩ | ⟨c, hc, -, rfl⟩⟩ := HashTable.set_cases hset
  · have hempty := nodeRecords_emptyList key s.nextId
    refine ⟨.single fun _ => contents_insert hempty (List.append_nil _).symm,
      ⟨s.HASH_TABLE.buckets (keyHash key.buf), newNode key _, []⟩, ?_, rfl, fun _ => hempty⟩
    exact cursor_putBucket (cursorOf_eq_none_iff.1 hc) rfl
  · let node : ListNode ExoVal :=
      { c.node with key := key, value := .sortedSet (SkipList.emptyList s.nextId) }
    change s.HASH_TABLE.cursor key.buf = some c at hc
    refine ⟨.single fun h => ?_, ⟨c.before, node, c.after⟩, ?_, rfl, fun hnone => ?_⟩
    · rw [hc] at h
      cases h
    · exact cursor_putBucket (cursorOf_eq_some hc).2.2 rfl
    · rw [hc] at hnone
      cases hnone

/-- A sorted set is found in the keyspace, which stays as it is, or it is new. -/
theorem openSortedSet_points {key : ExoString} {list : SkipList}
    (hrun : openSortedSet key s = (ps, .ok (some list, t))) :
    AtOnce contents (openUpdates s key.buf) s.HASH_TABLE t.HASH_TABLE ps ∧
      ∃ c, t.HASH_TABLE.cursor key.buf = some c ∧ c.node.value = .sortedSet list ∧
        ((∃ c', s.HASH_TABLE.cursor key.buf = some c' ∧ ¬ c'.node.Expired s.now ∧
            c'.node.value = .sortedSet list) ∨
          (∀ c', s.HASH_TABLE.cursor key.buf = some c' → c'.node.Expired s.now) ∧
            (∃ id, list = SkipList.emptyList id) ∧
            (openUpdates s key.buf ≤ 1 → nodeRecords c.node = some [])) := by
  obtain ⟨found, s₁, ps₁, ps₂, hupdate, hrest, rfl⟩ := bind_eq_ok_iff.1 hrun
  obtain ⟨rfl, hget⟩ := updated_eq_ok_iff.1 hupdate
  obtain ⟨ht, s', hget', hs₁⟩ := onKeyspace_ok hget
  have hht : s₁.HASH_TABLE = ht := by rw [hs₁]
  rw [openUpdates]
  obtain ⟨-, ⟨hc, rfl, rfl, -⟩ | ⟨c, hc, hlive, rfl, rfl, -⟩ | ⟨c, hc, hexp, rfl, rfl, -⟩⟩ :=
    HashTable.get_cases hget'
  · obtain ⟨hnew, honce, c, hcursor, hvalue, hempty⟩ := newSortedSet_points hrest
    rw [hht] at honce hempty ⊢
    rw [hc] at honce ⊢
    refine ⟨(AtOnce.single fun _ => rfl).append honce, c, hcursor, hvalue, .inr ⟨?_, hnew, ?_⟩⟩
    · simp
    · exact fun _ => hempty hc
  · cases hval : c.node.value with
    | sortedSet list' =>
        rw [hval] at hrest
        obtain ⟨rfl, hlist, rfl⟩ := pure_eq_ok_iff.1 hrest
        cases hlist
        rw [hht, hc]
        exact ⟨.single fun _ => rfl, c, rfl, hval, .inl ⟨c, rfl, hlive, hval⟩⟩
    | _ =>
        rw [hval] at hrest
        obtain ⟨-, hlist, -⟩ := pure_eq_ok_iff.1 hrest
        cases hlist
  · obtain ⟨hnew, honce, c', hcursor, hvalue, hempty⟩ := newSortedSet_points hrest
    have hbehind : s₁.HASH_TABLE.cursor key.buf =
        (cursorOf key.buf c.after).map fun c' => { c' with before := c.before ++ c'.before } := by
      rw [hht, HashTable.cursor, HashTable.putBucket, HashTable.setBucket_buckets,
        Function.update_self, cursorOf_append (cursorOf_eq_some hc).2.2]
    rw [hc]
    simp only [if_pos hexp]
    rw [hbehind, Option.isSome_map] at honce
    rw [hbehind, Option.map_eq_none_iff] at hempty
    refine ⟨(AtOnce.single fun h => absurd h (by decide)).append honce, c', hcursor, hvalue,
      .inr ⟨?_, hnew, fun h => hempty ?_⟩⟩
    · rintro c'' heq
      cases heq
      exact hexp
    · cases hafter : cursorOf key.buf c.after with
      | none => rfl
      | some _ =>
          rw [hafter] at h
          exact absurd h (by simp)

end Signal

/-! ## ZADD -/

/-- The updates that the sorted set of a key gets. A stored one whose size is or becomes
zero is deleted. -/
def addUpdates (s : Server) (key : List UInt8) (rest : ArgList) : ℕ :=
  match s.HASH_TABLE.cursor key with
  | none => listUpdates rest fun _ => false
  | some c =>
      if c.node.Expired s.now then listUpdates rest fun _ => false
      else match c.node.value with
        | .sortedSet list =>
            listUpdates rest list.has + if list.size = 0 ∨ addSize list.size 1 = 0 then 1 else 0
        | _ => 0

def zaddUpdates (s : Server) (args : ArgList) : ℕ :=
  match args with
  | _ :: key :: rest => openUpdates s key.key.buf + addUpdates s key.key.buf rest
  | _ => 0

namespace Signal

variable {s t : Server} {ps : List (HashTable ExoVal)}

theorem openSortedSet_wrongType {key : ExoString}
    (hrun : openSortedSet key s = (ps, .ok (none, t))) :
    ps = [s.HASH_TABLE] ∧ t.HASH_TABLE = s.HASH_TABLE := by
  obtain ⟨found, s₁, ps₁, ps₂, hupdate, hrest, rfl⟩ := bind_eq_ok_iff.1 hrun
  obtain ⟨rfl, hget⟩ := updated_eq_ok_iff.1 hupdate
  obtain ⟨ht, s', hget', hs₁⟩ := onKeyspace_ok hget
  have hht : s₁.HASH_TABLE = ht := by rw [hs₁]
  have hnone : found ≠ none := by
    rintro rfl
    obtain ⟨_, _, _, _, _, hrest, -⟩ := bind_eq_ok_iff.1 hrest
    obtain ⟨_, _, _, _, _, hrest, -⟩ := bind_eq_ok_iff.1 hrest
    obtain ⟨-, hlist, -⟩ := pure_eq_ok_iff.1 hrest
    cases hlist
  obtain ⟨-, ⟨-, rfl, -⟩ | ⟨c, -, -, rfl, rfl, -⟩ | ⟨c, -, -, rfl, -⟩⟩ := HashTable.get_cases hget'
  · exact absurd rfl hnone
  · cases hval : c.node.value with
    | sortedSet list' =>
        rw [hval] at hrest
        obtain ⟨-, hlist, -⟩ := pure_eq_ok_iff.1 hrest
        cases hlist
    | _ =>
        rw [hval] at hrest
        obtain ⟨rfl, -, rfl⟩ := pure_eq_ok_iff.1 hrest
        rw [hht]
        exact ⟨rfl, rfl⟩
  · exact absurd rfl hnone

/-- What ZADD does with a sorted set that it has opened. -/
theorem updateList_points {list : SkipList} {cmd key : ArgListNode} {rest args' : ArgList}
    {reply : Reply} {c : Cursor ExoVal} (hc : s.HASH_TABLE.cursor key.key.buf = some c)
    (hvalue : c.node.value = .sortedSet list)
    (hrun : (do
      let ht := (← unseen get).HASH_TABLE
      let (ret, sk_list, args) ← mapPoints (withSortedSet ht key.key)
        (addToSortedSet list (zaddSwitches rest).xx (zaddSwitches rest).nx (zaddSwitches rest).ch
          (zaddSwitches rest).incr (cmd :: key :: (parseSwitches rest noZaddSwitches).2))
      updated (onKeyspace_ fun ht => ht.updateValue key.key (.sortedSet sk_list))
      if sk_list.size = 0 then
        let _ ← updated (onKeyspace fun ht => ht.del key.key)
      return (ret, args) : Interrupted (Reply × ArgList)) s = (ps, .ok ((reply, args'), t))) :
    ∃ list' ht qs qs', ps = qs ++ qs' ∧
      AtOnce contents (listUpdates rest list.has) s.HASH_TABLE ht qs ∧
      (listUpdates rest list.has ≤ 1 → list' = list ∨ list'.size = addSize list.size 1) ∧
      (list' = list → ht = s.HASH_TABLE) ∧
      (list'.size ≠ 0 ∧ qs' = [] ∧ t.HASH_TABLE = ht ∨
        list'.size = 0 ∧ qs' = [t.HASH_TABLE] ∧ ∃ u u' n,
          ht.del key.key u = .ok ((n, t.HASH_TABLE), u')) := by
  obtain ⟨s₀, s₁, ps₁, ps₂, hstate, hrest, rfl⟩ := bind_eq_ok_iff.1 hrun
  obtain ⟨rfl, hget⟩ := unseen_eq_ok_iff.1 hstate
  cases hget
  obtain ⟨⟨ret, list', args⟩, s₂, ps₃, ps₄, hmap, hrest', rfl⟩ := bind_eq_ok_iff.1 hrest
  obtain ⟨qs, hadd, rfl⟩ := mapPoints_eq_ok_iff.1 hmap
  obtain ⟨_, s₃, ps₅, ps₆, hupdate, hclose, rfl⟩ := bind_eq_ok_iff.1 hrest'
  obtain ⟨rfl, hput⟩ := updated_eq_ok_iff.1 hupdate
  obtain ⟨ht', s₄, hvalue', hs₃⟩ := onKeyspace_unit_ok hput
  have hsame : s₂.HASH_TABLE = s.HASH_TABLE := by
    have hframe : Insensitive fun u => u.HASH_TABLE = s.HASH_TABLE := fun _ _ _ _ _ h => h
    have hplain := forget_run hadd
    rw [forget_addToSortedSet] at hplain
    exact (framed_preserves hframe).addToSortedSet _ _ _ _ _ (.inl lax_preserves)
      (fun _ _ => trivial) _ _ _ rfl hplain
  rw [hsame] at hvalue'
  have hht : s₃.HASH_TABLE = withSortedSet s.HASH_TABLE key.key list' := by
    rw [hs₃]
    exact updateValue_eq hvalue'
  obtain ⟨n, hn, honce, hsize⟩ := addToSortedSet_points hadd
  have hself := withSortedSet_self hc hvalue
  have hcount : n = listUpdates rest list.has := hn
  rw [hcount] at honce hsize
  have hmapped : AtOnce contents (listUpdates rest list.has)
      (withSortedSet s.HASH_TABLE key.key list) (withSortedSet s.HASH_TABLE key.key list')
      (qs.map (withSortedSet s.HASH_TABLE key.key)) :=
    honce.map fun x y hxy => by rw [show x = y from hxy]
  rw [hself, ← hht] at hmapped
  refine ⟨list', s₃.HASH_TABLE, _, ps₆, ?_, hmapped.append (n := 0) (.single fun _ => rfl), hsize,
    fun hlist => by rw [hht, hlist, hself], ?_⟩
  · simp
  · simp only at hclose
    by_cases hzero : list'.size = 0
    · rw [if_pos hzero] at hclose
      obtain ⟨n', s₅, ps₇, ps₈, hupdate', hend, rfl⟩ := bind_eq_ok_iff.1 hclose
      obtain ⟨rfl, -, rfl⟩ := pure_eq_ok_iff.1 hend
      obtain ⟨rfl, hdel⟩ := updated_eq_ok_iff.1 hupdate'
      obtain ⟨ht'', s₆, hdel', hs₅⟩ := onKeyspace_ok hdel
      refine .inr ⟨hzero, rfl, s₃, s₆, n', ?_⟩
      rw [hdel', hs₅]
    · rw [if_neg hzero] at hclose
      obtain ⟨rfl, -, rfl⟩ := pure_eq_ok_iff.1 hclose
      exact .inl ⟨hzero, rfl, rfl⟩

theorem zaddCommand_points {args args' : ArgList} {reply : Reply}
    (hrun : zaddCommand args s = (ps, .ok ((reply, args'), t))) :
    AtOnce contents (zaddUpdates s args) s.HASH_TABLE t.HASH_TABLE ps := by
  match args, hrun with
  | [], hrun | [_], hrun =>
      obtain ⟨rfl, -, rfl⟩ := pure_eq_ok_iff.1 hrun
      exact .nil rfl
  | cmd :: key :: rest, hrun =>
      rw [zaddCommand] at hrun
      by_cases hlength : (cmd :: key :: rest).length < 4
      · rw [if_pos hlength] at hrun
        obtain ⟨rfl, -, rfl⟩ := pure_eq_ok_iff.1 hrun
        exact .nil rfl
      · rw [if_neg hlength] at hrun
        obtain ⟨found, s₁, ps₁, ps₂, hopen, hrest, rfl⟩ := bind_eq_ok_iff.1 hrun
        cases found with
        | none =>
            obtain ⟨rfl, -, rfl⟩ := pure_eq_ok_iff.1 hrest
            obtain ⟨rfl, hht⟩ := openSortedSet_wrongType hopen
            rw [hht]
            exact .single fun _ => rfl
        | some list =>
            obtain ⟨hopened, c, hc, hvalue, hcases⟩ := openSortedSet_points hopen
            obtain ⟨list', ht, qs, qs', rfl, honce, hsize, hsame, hclose⟩ :=
              updateList_points hc hvalue hrest
            rw [zaddUpdates]
            rcases hcases with ⟨c', hc', hlive, hvalue'⟩ | ⟨hnew, ⟨id, rfl⟩, hempty⟩
            · refine hopened.append ?_
              rw [addUpdates, hc']
              simp only [if_neg hlive, hvalue']
              rcases hclose with ⟨-, rfl, hht⟩ | ⟨hzero, rfl, -⟩
              · exact honce.append (.nil (by rw [hht]))
              · by_cases hone : listUpdates rest list.has ≤ 1
                · have hempties : list.size = 0 ∨ addSize list.size 1 = 0 := by
                    rcases hsize hone with rfl | hadd
                    · exact .inl hzero
                    · exact .inr (hadd ▸ hzero)
                  rw [if_pos hempties]
                  exact honce.append (.single fun h => absurd h (by decide))
                · exact .of_one_lt (by omega)
            · have hcount : addUpdates s key.key.buf rest =
                  listUpdates rest (SkipList.emptyList id).has := by
                have hnone : (SkipList.emptyList id).has = fun _ => false :=
                  funext (has_emptyList id)
                rw [hnone, addUpdates]
                cases hcursor : s.HASH_TABLE.cursor key.key.buf with
                | none => rfl
                | some c' => exact if_pos (hnew c' hcursor)
              rw [hcount]
              by_cases hone : openUpdates s key.key.buf +
                  listUpdates rest (SkipList.emptyList id).has ≤ 1
              · refine hopened.append ?_
                rcases hclose with ⟨-, rfl, hht⟩ | ⟨hzero, rfl, u, u', n, hdel⟩
                · exact honce.append (n := 0) (.nil (by rw [hht]))
                · have hlist : list' = SkipList.emptyList id := by
                    refine (hsize (by omega)).resolve_right fun hadd => ?_
                    change list'.size = addSize 0 1 at hadd
                    rw [hzero] at hadd
                    exact absurd hadd (by decide)
                  rw [hsame hlist] at hdel honce
                  refine honce.append (n := 0) (.single fun _ => ?_)
                  obtain ⟨-, ⟨hc', -⟩ | ⟨c', hc', -, hht, -⟩⟩ := HashTable.del_cases hdel
                  · rw [hc] at hc'
                    cases hc'
                  · rw [hc] at hc'
                    cases hc'
                    rw [hht]
                    exact contents_erase (hempty (by omega)) (HashTable.cursor_toList hc)
              · exact .of_one_lt (by omega)

end Signal

end Exoredis
