import Exoredis.SortedSet.Members
import Exoredis.SortedSet.Towers
import Exoredis.Keyspace.Uniqueness

/-!
# ZADD

A request that is answered without an error opens the sorted set of its key, hands the
pairs behind the switches to the batch or to the increment, and writes the sorted set
back unless it is empty (`zaddCommand_ok`). With XX no member is added except by an
increment of an absent member, with NX every score stays (`zadd_gating_iff`), and the
reply counts the pairs that insert, but with CH it counts the updates alone
(`zadd_count_iff`).
-/

namespace Exoredis

open Effect

/-! ## The sorted set of a key -/

/-- The sorted set stored under a key. -/
def sortedSetAt (ht : HashTable ExoVal) (key : List UInt8) : Option SkipList :=
  match (ht.lookup key).map ListNode.value with
  | some (.sortedSet list) => some list
  | _ => none

theorem sortedSetAt_of_lookup {ht : HashTable ExoVal} {key : List UInt8} {list : SkipList}
    (h : (ht.lookup key).map ListNode.value = some (.sortedSet list)) :
    sortedSetAt ht key = some list := by
  rw [sortedSetAt, h]

/-- The sorted set that `newSkipList` makes. -/
def SkipList.emptyList (id : ℕ) : SkipList where
  heap := Function.update (fun _ => none) (SkipList.sentinel 0)
    (some (SkipList.newSkipListNode ⟨id, ascii "sentinel"⟩ DOUBLE_MIN))
  head := SkipList.sentinel 0
  size := 0
  levels := 0
  table := HashTable.newHashTable
  fresh := 1

theorem newSkipList_run (s : Server) :
    SkipList.newSkipList s =
      .ok (SkipList.emptyList s.nextId, { s with nextId := s.nextId + 1 }) := rfl

/-- ZADD works on the sorted set of the key, or on a new one if the key has none. -/
def Opened (s : Server) (key : List UInt8) (list : SkipList) : Prop :=
  sortedSetAt s.HASH_TABLE key = some list ∨
    sortedSetAt s.HASH_TABLE key = none ∧ ∃ id, list = SkipList.emptyList id

theorem openSortedSet_ok {s t : Server} {key : ExoString} {list : SkipList}
    (hs : s.HASH_TABLE.Keyed) (hrun : openSortedSet key s = .ok (some list, t)) :
    Opened s key.buf list ∧ t.HASH_TABLE.Keyed ∧
      (t.HASH_TABLE.lookup key.buf).map ListNode.value = some (.sortedSet list) := by
  obtain ⟨found, s₁, hfound, hrest⟩ := bind_eq_ok_iff.1 hrun
  obtain ⟨ht, s₂, hget, hs₁⟩ := onKeyspace_ok hfound
  obtain ⟨hkeyed, hcases⟩ := hs.get_ok hget
  have hht : s₁.HASH_TABLE = ht := by rw [hs₁]
  cases found with
  | some val =>
      cases val with
      | sortedSet list' =>
          cases hrest
          rcases hcases with ⟨-, hval, hsame, -⟩ | ⟨-, hval, -⟩
          · rw [hht, hsame]
            exact ⟨.inl (sortedSetAt_of_lookup hval.symm), hs, hval.symm⟩
          · cases hval
      | _ => cases hrest
  | none =>
      obtain ⟨list', s₃, hnew, hrest⟩ := bind_eq_ok_iff.1 hrest
      rw [newSkipList_run] at hnew
      cases hnew
      obtain ⟨_, s₄, hput, hrest⟩ := bind_eq_ok_iff.1 hrest
      cases hrest
      obtain ⟨ht', s₅, hset, ht⟩ := onKeyspace_unit_ok hput
      rw [← hht] at hkeyed
      obtain ⟨hkeyed', node, hvalue, hlookup⟩ := hkeyed.set_ok hset
      have hht' : t.HASH_TABLE = ht' := by rw [ht]
      rw [hht']
      refine ⟨.inr ⟨?_, _, rfl⟩, hkeyed', ?_⟩
      · rcases hcases with ⟨-, hval, -, -⟩ | ⟨⟨node, hnode, htype, -⟩, -, -⟩
        · rw [sortedSetAt, ← hval]
        · rw [sortedSetAt, hnode, Option.map_some]
          split
          · rename_i heq
            rw [Option.some.inj heq] at htype
            change SORTED_SET = BULKSTRING at htype
            exact absurd htype (by decide)
          · rfl
      · rw [hlookup, if_pos rfl, Option.map_some, hvalue]

/-! ## What a request asks for -/

/-- The members that the pairs name. -/
def zaddMembers (rest : ArgList) : List (List UInt8) :=
  ((zaddPairs rest).getD []).map fun p => p.2.buf

/-- An increment that ends: nothing, a move to the sum, or an insertion. -/
def Incremented (nx : Bool) (list : SkipList) (score : ℚ) (member : ExoString) (s : Server)
    (reply : Reply) (list' : SkipList) (t : Server) : Prop :=
  list.has member.buf = true ∧ nx = true ∧ reply = _Null ∧ list' = list ∧ t = s ∨
    (list.has member.buf = true ∧ nx = false ∧ ∃ target node,
      list.towerOf member.buf = some target ∧ list.heap target = some node ∧
        reply = .bulkString (doubleToString (node.score + score)) ∧
          list.moveMember member (node.score + score) target s = .ok (list', t)) ∨
    list.has member.buf = false ∧ reply = .bulkString (doubleToString score) ∧
      list.addNodeToSkiplist member score s = .ok (list', t)

/-- What the switches `sw` and the pairs do to a sorted set. -/
def Applied (sw : ZaddSwitches) (pairs : List (ℚ × ExoString)) (list : SkipList) (s : Server)
    (reply : Reply) (list' : SkipList) (t : Server) : Prop :=
  (sw.nx && sw.xx) = false ∧
    (sw.incr = false ∧ (∃ changed new_insert,
        SkipList.addOrUpdateLoop sw.xx sw.nx pairs list 0 0 s =
          .ok ((list', changed, new_insert), t) ∧
        reply = .respInteger (numberToString (if sw.ch then changed else new_insert))) ∨
      sw.incr = true ∧ ∃ score member, pairs = [(score, member)] ∧
        Incremented sw.nx list score member s reply list' t)

/-- The increment of a pair, from the lookup of its member on. -/
def IncrementRun (nx : Bool) (list : SkipList) (score : ℚ) (member : ExoString) (s : Server)
    (reply : Reply) (list' : SkipList) (t : Server) : Prop :=
  ∃ tmp table s₁, list.table.get member s = .ok ((tmp, table), s₁) ∧
    match tmp with
    | none => reply = .bulkString (doubleToString score) ∧
        { list with table := table }.addNodeToSkiplist member score s₁ = .ok (list', t)
    | some target =>
        nx = true ∧ reply = _Null ∧ list' = { list with table := table } ∧ t = s₁ ∨
          nx = false ∧ ∃ node, list.heap target = some node ∧
            reply = .bulkString (doubleToString (node.score + score)) ∧
              { list with table := table }.moveMember member (node.score + score) target s₁ =
                .ok (list', t)

/-- The pairs are handed to the batch or to the increment, as `sw` asks. -/
def Handed (sw : ZaddSwitches) (pairs : List (ℚ × ExoString)) (list : SkipList) (s : Server)
    (reply : Reply) (list' : SkipList) (t : Server) : Prop :=
  (sw.nx && sw.xx) = false ∧
    (sw.incr = false ∧ (∃ changed new_insert,
        SkipList.addOrUpdateLoop sw.xx sw.nx pairs list 0 0 s =
          .ok ((list', changed, new_insert), t) ∧
        reply = .respInteger (numberToString (if sw.ch then changed else new_insert))) ∨
      sw.incr = true ∧ ∃ score member, pairs = [(score, member)] ∧
        IncrementRun sw.nx list score member s reply list' t)

theorem IncrementRun.incremented {list list' : SkipList} {nx : Bool} {score : ℚ}
    {member : ExoString} {reply : Reply} {s t : Server}
    (hinc : IncrementRun nx list score member s reply list' t) :
    Incremented nx list score member s reply list' t := by
  obtain ⟨tmp, table, s₁, hget, hinc⟩ := hinc
  obtain ⟨htmp, htable, hs₁⟩ := SkipList.getMember_ok hget
  subst htable hs₁
  have hhas : list.has member.buf = tmp.isSome := by rw [SkipList.has, htmp]
  cases tmp with
  | none => exact .inr (.inr ⟨hhas, hinc.1, hinc.2⟩)
  | some target =>
      rcases hinc with ⟨hnx, hreply, hlist, ht⟩ | ⟨hnx, node, hnode, hreply, hmove⟩
      · exact .inl ⟨hhas, hnx, hreply, hlist, ht⟩
      · exact .inr (.inl ⟨hhas, hnx, target, node, htmp.symm, hnode, hreply, hmove⟩)

theorem Handed.applied {list list' : SkipList} {sw : ZaddSwitches}
    {pairs : List (ℚ × ExoString)} {reply : Reply} {s t : Server}
    (hhanded : Handed sw pairs list s reply list' t) : Applied sw pairs list s reply list' t := by
  obtain ⟨hboth, hbatch | ⟨hincr, score, member, hpairs, hinc⟩⟩ := hhanded
  · exact ⟨hboth, .inl hbatch⟩
  · exact ⟨hboth, .inr ⟨hincr, score, member, hpairs, hinc.incremented⟩⟩

theorem setPairDead_ok {args args' : ArgList} {s t : Server}
    (hrun : SkipList.setPairDead args s = .ok (args', t)) : t = s := by
  match args, hrun with
  | [], hrun => cases hrun
  | [_], hrun => cases hrun
  | _ :: _ :: _, hrun =>
      cases hrun
      rfl

theorem scoreIncrement_ok {list list' : SkipList} {args args' : ArgList} {nx : Bool}
    {reply : Reply} {s t : Server}
    (hrun : list.scoreIncrement args nx s = .ok ((reply, list', args'), t))
    (hreply : reply.isError = false) :
    ∃ score member pairs, readPairs args = some ((score, member) :: pairs) ∧
      IncrementRun nx list score member s reply list' t := by
  obtain ⟨⟨pairs, args₁⟩, s₁, hparse, hrest⟩ := bind_eq_ok_iff.1 hrun
  obtain ⟨hpairs, -, hs₁⟩ := parseArgs_ok hparse
  subst hs₁
  match pairs, hpairs, hrest with
  | none, hpairs, hrest =>
      cases hrest
      cases hreply
  | some [], hpairs, hrest => cases hrest
  | some ((score, member) :: pairs), hpairs, hrest =>
      obtain ⟨⟨tmp, table⟩, s₂, hget, hrest⟩ := bind_eq_ok_iff.1 hrest
      refine ⟨score, member, pairs, hpairs.symm, tmp, table, s₂, hget, ?_⟩
      cases tmp with
      | none =>
          obtain ⟨list₁, s₃, hadd, hrest⟩ := bind_eq_ok_iff.1 hrest
          cases hrest
          exact ⟨rfl, hadd⟩
      | some target =>
          cases nx with
          | true =>
              obtain ⟨args₂, s₃, hdead, hrest⟩ := bind_eq_ok_iff.1 hrest
              cases hrest
              exact .inl ⟨rfl, rfl, rfl, setPairDead_ok hdead⟩
          | false =>
              obtain ⟨node, s₃, hderef, hrest⟩ := bind_eq_ok_iff.1 hrest
              obtain ⟨hnode, hs₃⟩ := SkipList.deref_ok hderef
              obtain ⟨list₁, s₄, hmove, hrest⟩ := bind_eq_ok_iff.1 hrest
              cases hrest
              subst hs₃
              exact .inr ⟨rfl, node, hnode, rfl, hmove⟩

theorem addToSortedSet_ok {list list' : SkipList} {sw : ZaddSwitches} {cmd key : ArgListNode}
    {rest args' : ArgList} {reply : Reply} {s t : Server}
    (hrun : list.addToSortedSet sw.xx sw.nx sw.ch sw.incr (cmd :: key :: rest) s =
      .ok ((reply, list', args'), t)) (hreply : reply.isError = false) :
    ∃ pairs, readPairs (rest.drop sw.count) = some pairs ∧
      Handed sw pairs list s reply list' t := by
  rw [SkipList.addToSortedSet] at hrun
  by_cases hboth : (sw.nx && sw.xx) = true
  · rw [if_pos hboth] at hrun
    cases hrun
    cases hreply
  · rw [if_neg hboth] at hrun
    have hcount : (sw.nx || sw.xx).toNat + sw.ch.toNat + sw.incr.toNat = sw.count := rfl
    simp only [hcount] at hrun
    by_cases heven : ((cmd :: key :: rest).length - sw.count) % 2 = 0
    · rw [if_pos heven] at hrun
      by_cases hmove : (cmd :: key :: rest).length < sw.count + 2
      · rw [if_pos hmove] at hrun
        cases hrun
      · rw [if_neg hmove] at hrun
        have hdrop : (cmd :: key :: rest).drop (sw.count + 2) = rest.drop sw.count := rfl
        rw [hdrop] at hrun
        simp only [List.length_cons] at hrun heven hmove
        cases hincr : sw.incr with
        | true =>
            rw [hincr, if_pos rfl] at hrun
            by_cases hfour : rest.length + 1 + 1 - sw.count = 4
            · rw [if_pos hfour] at hrun
              obtain ⟨⟨ret, list₁, arg⟩, s₁, hrun₁, hrest⟩ := bind_eq_ok_iff.1 hrun
              cases hrest
              obtain ⟨score, member, pairs, hpairs, hinc⟩ := scoreIncrement_ok hrun₁ hreply
              have hlength := length_readPairs hpairs
              rw [List.length_drop, List.length_cons] at hlength
              obtain rfl : pairs = [] := List.eq_nil_of_length_eq_zero (by omega)
              exact ⟨_, hpairs, by simpa using hboth, .inr ⟨hincr, score, member, rfl, hinc⟩⟩
            · rw [if_neg hfour] at hrun
              cases hrun
              cases hreply
        | false =>
            rw [hincr, if_neg (by simp)] at hrun
            obtain ⟨⟨ret, list₁, arg⟩, s₁, hrun₁, hrest⟩ := bind_eq_ok_iff.1 hrun
            cases hrest
            obtain ⟨⟨pairs, args₁⟩, s₂, hparse, hrest⟩ := bind_eq_ok_iff.1 hrun₁
            obtain ⟨hpairs, -, hs₂⟩ := parseArgs_ok hparse
            subst hs₂
            cases pairs with
            | none =>
                cases hrest
                cases hreply
            | some pairs =>
                obtain ⟨⟨list₂, changed, new_insert⟩, s₃, hloop, hrest⟩ := bind_eq_ok_iff.1 hrest
                cases hrest
                exact ⟨pairs, hpairs.symm, by simpa using hboth,
                  .inl ⟨hincr, changed, new_insert, hloop, rfl⟩⟩
    · rw [if_neg heven] at hrun
      cases hrun
      cases hreply

/-! ## The command -/

theorem updateValue_lookup {ht ht' : HashTable ExoVal} {key : ExoString} {val : ExoVal}
    {node : ListNode ExoVal} {s t : Server} (h : ht.Keyed) (hnode : ht.lookup key.buf = some node)
    (hrun : ht.updateValue key val s = .ok (ht', t)) :
    ht'.Keyed ∧ t = s ∧ ∀ k, ht'.lookup k =
      if k = key.buf then some { node with value := val } else ht.lookup k := by
  refine ⟨h.updateValue hrun, ?_⟩
  have hne : key.buf ≠ [] := (HashTable.mem_of_lookup hnode).2 ▸
    h.nonempty _ _ (HashTable.mem_of_lookup hnode).1
  obtain ⟨c, hc, rfl⟩ := HashTable.cursor_of_lookup hnode
  rw [HashTable.updateValue_found h.unfreed hne hc] at hrun
  cases hrun
  let node : ListNode ExoVal := { c.node with value := val }
  exact ⟨rfl, @HashTable.Keyed.lookup_replace _ _ _ _ node (cursorOf_eq_some hc).2.1 hc⟩

theorem updateValue_ok {ht ht' : HashTable ExoVal} {key : ExoString} {val : ExoVal}
    {s t : Server} (h : ht.Keyed) (hfound : ht.lookup key.buf ≠ none)
    (hrun : ht.updateValue key val s = .ok (ht', t)) :
    ht'.Keyed ∧ t = s ∧ ∀ k, (ht'.lookup k).map ListNode.value =
      if k = key.buf then some val else (ht.lookup k).map ListNode.value := by
  obtain ⟨node, hnode⟩ := Option.ne_none_iff_exists'.1 hfound
  obtain ⟨hkeyed, ht, hlookup⟩ := updateValue_lookup h hnode hrun
  refine ⟨hkeyed, ht, fun k => ?_⟩
  rw [hlookup]
  split <;> rfl

/-- The sorted set that is written back is stored unless it is empty. -/
def Closing (key : ExoString) (list : SkipList) (s t : Server) : Prop :=
  ∃ s', onKeyspace_ (fun ht => ht.updateValue key (.sortedSet list)) s = .ok ((), s') ∧
    (list.size = 0 ∧ (∃ n, onKeyspace (fun ht => ht.del key) s' = .ok (n, t)) ∨
      list.size ≠ 0 ∧ t = s')

/-- A request ends before it comes to a sorted set, or opens that of its key, works on it
and writes it back. -/
theorem zaddCommand_cases {cmd key : ArgListNode} {rest args : ArgList} {reply : Reply}
    {s t : Server} (hrun : zaddCommand (cmd :: key :: rest) s = .ok ((reply, args), t)) :
    reply.isError = true ∧ (t = s ∨ openSortedSet key.key s = .ok (none, t)) ∨
      ∃ list list' args' s₁ s₂, openSortedSet key.key s = .ok (some list, s₁) ∧
        list.addToSortedSet (zaddSwitches rest).xx (zaddSwitches rest).nx (zaddSwitches rest).ch
          (zaddSwitches rest).incr (cmd :: key :: (parseSwitches rest noZaddSwitches).2) s₁ =
            .ok ((reply, list', args'), s₂) ∧
        (s₂.HASH_TABLE = s₁.HASH_TABLE ∧ s₂.now = s₁.now) ∧ Closing key.key list' s₂ t := by
  by_cases hlength : (cmd :: key :: rest).length < 4
  · rw [zaddCommand_short hlength] at hrun
    cases hrun
    exact .inl ⟨rfl, .inl rfl⟩
  · simp only [List.length_cons, not_lt] at hlength
    rw [zaddCommand_eq cmd key (by omega)] at hrun
    obtain ⟨found, s₁, hopen, hrest⟩ := bind_eq_ok_iff.1 hrun
    cases found with
    | none =>
        cases hrest
        exact .inl ⟨rfl, .inr hopen⟩
    | some list =>
        obtain ⟨⟨ret, list', args'⟩, s₂, hadd, hrest⟩ := bind_eq_ok_iff.1 hrest
        obtain ⟨_, s₃, hput, hrest⟩ := bind_eq_ok_iff.1 hrest
        have hsame : s₂.HASH_TABLE = s₁.HASH_TABLE ∧ s₂.now = s₁.now := by
          have hframe : Insensitive fun u => u.HASH_TABLE = s₁.HASH_TABLE ∧ u.now = s₁.now :=
            fun _ _ _ _ _ h => h
          exact (framed_preserves hframe).addToSortedSet _ _ _ _ _ (.inl lax_preserves)
            (fun _ _ => trivial) _ _ _ ⟨rfl, rfl⟩ hadd
        simp only at hrest
        by_cases hsize : list'.size = 0
        · rw [if_pos hsize] at hrest
          obtain ⟨n, s₅, hdel, hrest⟩ := bind_eq_ok_iff.1 hrest
          cases hrest
          exact .inr ⟨list, list', _, s₁, s₂, hopen, hadd, hsame, s₃, hput,
            .inl ⟨hsize, n, hdel⟩⟩
        · rw [if_neg hsize] at hrest
          cases hrest
          exact .inr ⟨list, list', _, s₁, s₂, hopen, hadd, hsame, _, hput, .inr ⟨hsize, rfl⟩⟩

/-- A request that is answered without an error opens the sorted set of its key, hands the
pairs over and writes the sorted set back. -/
theorem zaddCommand_handed {cmd key : ArgListNode} {rest args : ArgList} {reply : Reply}
    {s t : Server} (hrun : zaddCommand (cmd :: key :: rest) s = .ok ((reply, args), t))
    (hreply : reply.isError = false) :
    ∃ list list' pairs s₁ s₂ s₃, openSortedSet key.key s = .ok (some list, s₁) ∧
      zaddPairs rest = some pairs ∧ Handed (zaddSwitches rest) pairs list s₁ reply list' s₂ ∧
      s₂.HASH_TABLE = s₁.HASH_TABLE ∧
      onKeyspace_ (fun ht => ht.updateValue key.key (.sortedSet list')) s₂ = .ok ((), s₃) ∧
      (list'.size = 0 ∧ (∃ n, onKeyspace (fun ht => ht.del key.key) s₃ = .ok (n, t)) ∨
        list'.size ≠ 0 ∧ t = s₃) := by
  rcases zaddCommand_cases hrun with ⟨herror, -⟩ |
    ⟨list, list', args', s₁, s₂, hopen, hadd, ⟨hsame, -⟩, s₃, hput, hclose⟩
  · rw [hreply] at herror
    cases herror
  · obtain ⟨pairs, hpairs, hhanded⟩ := addToSortedSet_ok hadd hreply
    exact ⟨list, list', pairs, s₁, s₂, s₃, hopen, hpairs, hhanded, hsame, hput, hclose⟩

/-- A request that is answered without an error has applied its switches and pairs to the
sorted set of its key, which is deleted if it is empty then. -/
theorem zaddCommand_ok {cmd key : ArgListNode} {rest args : ArgList} {reply : Reply}
    {s t : Server} (hs : s.HASH_TABLE.Keyed)
    (hset : ∀ list, sortedSetAt s.HASH_TABLE key.key.buf = some list → list.table.Keyed)
    (hrun : zaddCommand (cmd :: key :: rest) s = .ok ((reply, args), t))
    (hreply : reply.isError = false) :
    ∃ list list' pairs s₁ s₂, Opened s key.key.buf list ∧ list.table.Keyed ∧
      zaddPairs rest = some pairs ∧ Applied (zaddSwitches rest) pairs list s₁ reply list' s₂ ∧
      sortedSetAt t.HASH_TABLE key.key.buf = if list'.size = 0 then none else some list' := by
  obtain ⟨list, list', pairs, s₁, s₂, s₃, hopen, hpairs, hhanded, hsame, hput, hclose⟩ :=
    zaddCommand_handed hrun hreply
  obtain ⟨hopened, hkeyed, hlookup⟩ := openSortedSet_ok hs hopen
  have htable : list.table.Keyed := by
    rcases hopened with hlist | ⟨-, id, rfl⟩
    · exact hset list hlist
    · exact HashTable.keyed_newHashTable
  refine ⟨list, list', pairs, s₁, s₂, hopened, htable, hpairs, hhanded.applied, ?_⟩
  obtain ⟨ht', s₄, hput, hs₃⟩ := onKeyspace_unit_ok hput
  rw [hsame] at hput
  have hfound : s₁.HASH_TABLE.lookup key.key.buf ≠ none := by
    intro hnone
    rw [hnone] at hlookup
    cases hlookup
  obtain ⟨hkeyed', -, hlookup'⟩ := updateValue_ok hkeyed hfound hput
  have hht₃ : s₃.HASH_TABLE = ht' := by rw [hs₃]
  rcases hclose with ⟨hsize, n, hdel⟩ | ⟨hsize, ht⟩
  · obtain ⟨ht'', s₆, hdel, ht⟩ := onKeyspace_ok hdel
    rw [hht₃] at hdel
    have hnone := (hkeyed'.del_ok hdel).2 key.key.buf
    rw [if_pos rfl] at hnone
    rw [if_pos hsize, ht, sortedSetAt, hnone]
    rfl
  · rw [if_neg hsize, ht, hht₃]
    exact sortedSetAt_of_lookup (by rw [hlookup', if_pos rfl])

/-! ## XX and NX -/

/-- The sorted set of the key has the member. -/
def memberAt (s : Server) (key m : List UInt8) : Bool :=
  ((sortedSetAt s.HASH_TABLE key).map fun list => list.has m).getD false

/-- The score of a member in the sorted set of the key. -/
def scoreAt (s : Server) (key m : List UInt8) : Option ℚ :=
  (sortedSetAt s.HASH_TABLE key).bind fun list => list.scoreOf m

/-- The member table is keyed and leads to towers in use, and a sorted set with a member
counts it. -/
structure SkipList.Sound (list : SkipList) : Prop where
  keyed : list.table.Keyed
  allocated : list.Allocated
  counted : ∀ m, list.has m = true → list.size ≠ 0

/-- A sorted set whose links stand for towers. -/
theorem Rep.sound {list : SkipList} {T : Towers} (h : Rep list T) : list.Sound where
  keyed := h.keyed
  allocated m p hp := by
    obtain ⟨t, ht, -, rfl⟩ := (h.table m p).1 hp
    exact ⟨Nat.pos_of_ne_zero (h.ne_zero ht), h.lt_fresh t (List.mem_cons_of_mem _ ht)⟩
  counted m hm := by
    obtain ⟨p, hp⟩ := Option.isSome_iff_exists.1 hm
    obtain ⟨t, ht, -, -⟩ := (h.table m p).1 hp
    rw [h.size]
    exact (List.length_pos_of_mem ht).ne'

section Gating

variable {s t : Server} {key : List UInt8} {list list' : SkipList}

theorem has_emptyList (id : ℕ) (m : List UInt8) : (SkipList.emptyList id).has m = false := rfl

theorem Opened.memberAt (h : Opened s key list) (m : List UInt8) :
    memberAt s key m = list.has m := by
  rcases h with hlist | ⟨hnone, id, rfl⟩
  · rw [Exoredis.memberAt, hlist]
    rfl
  · rw [Exoredis.memberAt, hnone]
    rfl

theorem Opened.scoreAt (h : Opened s key list) (m : List UInt8) :
    scoreAt s key m = list.scoreOf m := by
  rcases h with hlist | ⟨hnone, id, rfl⟩
  · rw [Exoredis.scoreAt, hlist]
    rfl
  · rw [Exoredis.scoreAt, hnone]
    rfl

theorem SkipList.has_of_scoreOf {m : List UInt8} {q : ℚ} (h : list.scoreOf m = some q) :
    list.has m = true := by
  rw [SkipList.scoreOf] at h
  obtain ⟨p, hp, -⟩ := Option.bind_eq_some_iff.1 h
  rw [SkipList.has, hp]
  rfl

/-- A sorted set that is written back. -/
theorem memberAt_of_end (hend : sortedSetAt t.HASH_TABLE key =
    if list'.size = 0 then none else some list') {m : List UInt8} :
    memberAt t key m = (decide (list'.size ≠ 0) && list'.has m) := by
  rw [memberAt, hend]
  by_cases hsize : list'.size = 0 <;> simp [hsize]

theorem scoreAt_of_end (hend : sortedSetAt t.HASH_TABLE key =
    if list'.size = 0 then none else some list') (hsize : list'.size ≠ 0) (m : List UInt8) :
    scoreAt t key m = list'.scoreOf m := by
  rw [scoreAt, hend, if_neg hsize]
  rfl

/-- What is kept in the sorted set is kept in the keyspace. -/
theorem scoreAt_of_kept {n : ℕ} (hopened : Opened s key list)
    (hsound : sortedSetAt s.HASH_TABLE key = some list → list.Sound ∧ list.size + n < 2 ^ 64)
    (hkept : list.Kept list' n)
    (hend : sortedSetAt t.HASH_TABLE key = if list'.size = 0 then none else some list')
    {m : List UInt8} {q : ℚ} (hq : scoreAt s key m = some q) : scoreAt t key m = some q := by
  rw [hopened.scoreAt] at hq
  have hm := SkipList.has_of_scoreOf hq
  rcases hopened with hlist | ⟨-, id, rfl⟩
  · obtain ⟨hlist, hroom⟩ := hsound hlist
    have hne := hlist.counted m hm
    have hsize := hkept.size hroom
    rw [scoreAt_of_end hend (by omega), hkept.scoreOf hlist.allocated hm, hq]
  · rw [has_emptyList] at hm
    cases hm

/-- An increment of a present member keeps the members, and with NX all; any other
inserts. -/
theorem Incremented.cases (h : list.table.Keyed) {nx : Bool} {score : ℚ} {member : ExoString}
    {reply : Reply} (hinc : Incremented nx list score member s reply list' t) :
    list.has member.buf = true ∧ list'.has = list.has ∧ (nx = true → list' = list) ∨
      list.has member.buf = false ∧ list'.has member.buf = true ∧
        list'.size = addSize list.size 1 ∧ list.Kept list' 1 := by
  rcases hinc with ⟨hm, -, -, rfl, -⟩ | ⟨hm, rfl, target, node, -, -, -, hmove⟩ | ⟨hm, -, hadd⟩
  · exact .inl ⟨hm, rfl, fun _ => rfl⟩
  · have hentered := SkipList.moveMember_ok h hmove
    refine .inl ⟨hm, funext fun k => ?_, fun hnx => by cases hnx⟩
    rw [hentered.has]
    by_cases hk : k = member.buf <;> simp [hk, hm]
  · obtain ⟨hentered, hsize, hscores⟩ := SkipList.addNodeToSkiplist_ok h hadd
    refine .inr ⟨hm, ?_, hsize, SkipList.kept_of_added hm hentered hsize hscores⟩
    rw [hentered.has]
    simp

end Gating

/-- For a request that is answered without an error: XX adds no member and NX keeps every
score if and only if the request is not an increment with XX of an absent member. -/
theorem zadd_gating_iff {cmd key : ArgListNode} {rest args : ArgList} {reply : Reply}
    {s t : Server} (hs : s.HASH_TABLE.Keyed)
    (hsound : ∀ list, sortedSetAt s.HASH_TABLE key.key.buf = some list →
      list.Sound ∧ list.size + rest.length < 2 ^ 64)
    (hrun : zaddCommand (cmd :: key :: rest) s = .ok ((reply, args), t))
    (hreply : reply.isError = false) :
    ((zaddSwitches rest).xx = true → ∀ m, memberAt s key.key.buf m = false →
        memberAt t key.key.buf m = false) ∧
      ((zaddSwitches rest).nx = true → ∀ m q, scoreAt s key.key.buf m = some q →
        scoreAt t key.key.buf m = some q) ↔
    ((zaddSwitches rest).xx = true → (zaddSwitches rest).incr = true →
      ∀ m ∈ zaddMembers rest, memberAt s key.key.buf m = true) := by
  obtain ⟨list, list', pairs, s₁, s₂, hopened, htable, hpairs, ⟨hboth, happly⟩, hend⟩ :=
    zaddCommand_ok hs (fun list hlist => (hsound list hlist).1.keyed) hrun hreply
  have hlength : 2 * pairs.length ≤ rest.length := by
    have h := length_readPairs hpairs
    rw [List.length_drop, length_parseSwitches] at h
    omega
  have hmembers : zaddMembers rest = pairs.map fun p => p.2.buf := by
    rw [zaddMembers, hpairs]
    rfl
  have hroom : ∀ n ≤ pairs.length, sortedSetAt s.HASH_TABLE key.key.buf = some list →
      list.Sound ∧ list.size + n < 2 ^ 64 := fun n hn hlist => by
    obtain ⟨hlist, hsize⟩ := hsound list hlist
    exact ⟨hlist, by omega⟩
  rw [hmembers]
  generalize zaddSwitches rest = sw at hboth happly ⊢
  simp only [hopened.memberAt, memberAt_of_end hend]
  rcases happly with ⟨hincr, ⟨changed, new_insert, hloop, -⟩⟩ | ⟨hincr, score, member, rfl, hinc⟩
  · obtain ⟨-, hhas, -, -, hkept⟩ := SkipList.addOrUpdateLoop_ok htable hloop
    refine iff_of_true ⟨fun hxx m hm => ?_, fun hnx m q hq => ?_⟩ fun _ hincr' => ?_
    · rw [hhas, hm, hxx]
      simp
    · have hxx : sw.xx = false := by simpa [hnx] using hboth
      exact scoreAt_of_kept hopened (hroom _ le_rfl) (hkept hxx hnx) hend hq
    · rw [hincr] at hincr'
      cases hincr'
  · rcases hinc.cases htable with ⟨hm, hhas, hsame⟩ | ⟨hm, hm', hsize, hkept⟩
    · refine iff_of_true ⟨fun _ m hnew => ?_, fun hnx m q hq => ?_⟩ fun _ _ => by simpa using hm
      · rw [hhas, hnew]
        simp
      · have hlist' := hsame hnx
        subst hlist'
        exact scoreAt_of_kept hopened (hroom 0 (Nat.zero_le _)) (.refl list' 0) hend hq
    · have hnew : list'.size ≠ 0 := by
        rcases hopened with hlist | ⟨-, id, rfl⟩
        · obtain ⟨-, hlt⟩ := hroom 1 le_rfl hlist
          rw [hsize, addSize, Nat.mod_eq_of_lt hlt]
          omega
        · rw [hsize]
          change addSize 0 1 ≠ 0
          decide
      cases hxx : sw.xx with
      | true =>
          refine iff_of_false (fun h => ?_) fun h => ?_
          · have habsent := h.1 rfl member.buf hm
            simp [hnew, hm'] at habsent
          · have hpresent := h rfl hincr member.buf (by simp)
            rw [hm] at hpresent
            cases hpresent
      | false =>
          refine iff_of_true ⟨fun h => ?_, fun _ m q hq => ?_⟩ fun h => ?_
          · cases h
          · exact scoreAt_of_kept hopened (hroom 1 le_rfl) hkept hend hq
          · cases h

theorem zadd_gating_iff_missing :
    ∃ reply args t, zaddCommand [newArg ⟨0, ascii "ZADD"⟩, newArg ⟨1, ascii "k"⟩,
        newArg ⟨2, ascii "XX"⟩, newArg ⟨3, ascii "CH"⟩, newArg ⟨4, ascii "5"⟩,
        newArg ⟨5, ascii "a"⟩] (blankServer (fun _ => 0) none) = .ok ((reply, args), t) ∧
      ∀ m, memberAt t (ascii "k") m = false := by
  have hmap : (zaddCommand [newArg ⟨0, ascii "ZADD"⟩, newArg ⟨1, ascii "k"⟩,
      newArg ⟨2, ascii "XX"⟩, newArg ⟨3, ascii "CH"⟩, newArg ⟨4, ascii "5"⟩,
      newArg ⟨5, ascii "a"⟩] (blankServer (fun _ => 0) none)).map
        (fun p => p.1.1.isError) = .ok false := by decide +kernel
  obtain ⟨⟨reply, args⟩, t, hrun, hreply⟩ := exists_of_map_eq_ok hmap
  refine ⟨reply, args, t, hrun, fun m => ?_⟩
  have hiff := zadd_gating_iff HashTable.keyed_newHashTable (fun list hlist => by cases hlist)
    hrun hreply
  refine (hiff.2 fun _ hincr => ?_).1 (by decide +kernel) m rfl
  exact absurd hincr (by decide +kernel)

/-- `ZADD k XX INCR 1 a` adds the member to a key that is missing. -/
theorem zadd_not_gating :
    ∃ args t, zaddCommand [newArg ⟨0, ascii "ZADD"⟩, newArg ⟨1, ascii "k"⟩,
        newArg ⟨2, ascii "XX"⟩, newArg ⟨3, ascii "INCR"⟩, newArg ⟨4, ascii "1"⟩,
        newArg ⟨5, ascii "a"⟩] (blankServer (fun _ => 0) none) =
          .ok ((.bulkString (ascii "1.000000"), args), t) ∧
      (zaddSwitches [newArg ⟨2, ascii "XX"⟩, newArg ⟨3, ascii "INCR"⟩, newArg ⟨4, ascii "1"⟩,
        newArg ⟨5, ascii "a"⟩]).xx = true ∧
      memberAt (blankServer (fun _ => 0) none) (ascii "k") (ascii "a") = false ∧
      memberAt t (ascii "k") (ascii "a") = true := by
  have hmap : (zaddCommand [newArg ⟨0, ascii "ZADD"⟩, newArg ⟨1, ascii "k"⟩,
      newArg ⟨2, ascii "XX"⟩, newArg ⟨3, ascii "INCR"⟩, newArg ⟨4, ascii "1"⟩,
      newArg ⟨5, ascii "a"⟩] (blankServer (fun _ => 0) none)).map
        (fun p => (p.1.1, memberAt p.2 (ascii "k") (ascii "a"))) =
          .ok (.bulkString (ascii "1.000000"), true) := by decide +kernel
  obtain ⟨⟨reply, args⟩, t, hrun, hend⟩ := exists_of_map_eq_ok hmap
  obtain ⟨rfl, hmember⟩ := Prod.mk.inj hend
  exact ⟨args, t, hrun, by decide +kernel, rfl, hmember⟩

/-! ## The reply -/

/-- The reply that counts the pairs that insert a member and, with CH, those that set the
score of one. -/
def countReply (s : Server) (key : List UInt8) (rest : ArgList) : Reply :=
  let sw := zaddSwitches rest
  let (inserted, updated) := pairCounts sw.xx sw.nx (memberAt s key) (zaddMembers rest)
  .respInteger (numberToString (if sw.ch then inserted + updated else inserted))

/-- A request without INCR that is answered with an integer counts its pairs if and only
if CH is off or none of them inserts: with XX, or where every member is known. -/
theorem zadd_count_iff {cmd key : ArgListNode} {rest args : ArgList} {str : List UInt8}
    {s t : Server} (hs : s.HASH_TABLE.Keyed)
    (hset : ∀ list, sortedSetAt s.HASH_TABLE key.key.buf = some list → list.table.Keyed)
    (hincr : (zaddSwitches rest).incr = false)
    (hrun : zaddCommand (cmd :: key :: rest) s = .ok ((.respInteger str, args), t)) :
    .respInteger str = countReply s key.key.buf rest ↔
      ((zaddSwitches rest).ch = true → (zaddSwitches rest).xx = true ∨
        ∀ m ∈ zaddMembers rest, memberAt s key.key.buf m = true) := by
  obtain ⟨list, list', pairs, s₁, s₂, hopened, htable, hpairs, ⟨-, happly⟩, -⟩ :=
    zaddCommand_ok hs hset hrun rfl
  have hmembers : zaddMembers rest = pairs.map fun p => p.2.buf := by
    rw [zaddMembers, hpairs]
    rfl
  have hpresent : memberAt s key.key.buf = list.has := funext hopened.memberAt
  rw [countReply, hmembers, hpresent, ← pairCounts_fst_eq_zero (zaddSwitches rest).nx]
  generalize zaddSwitches rest = sw at hincr happly ⊢
  rcases happly with ⟨-, ⟨changed, new_insert, hloop, hreply⟩⟩ | ⟨hincr', -⟩
  · obtain ⟨-, -, hnew, hchanged, -⟩ := SkipList.addOrUpdateLoop_ok htable hloop
    rw [Nat.zero_add] at hnew hchanged
    rw [hreply, hnew, hchanged]
    generalize pairCounts sw.xx sw.nx list.has (pairs.map fun p => p.2.buf) = counts
    simp only [Reply.respInteger.injEq, numberToString_injective.eq_iff]
    cases sw.ch with
    | true => simp
    | false => simp
  · rw [hincr] at hincr'
    cases hincr'

theorem zadd_count_iff_missing :
    ∃ args t, zaddCommand [newArg ⟨0, ascii "ZADD"⟩, newArg ⟨1, ascii "k"⟩,
        newArg ⟨2, ascii "1"⟩, newArg ⟨3, ascii "a"⟩, newArg ⟨4, ascii "2"⟩,
        newArg ⟨5, ascii "a"⟩] (blankServer (fun _ => 0) none) =
          .ok ((.respInteger (ascii "1"), args), t) ∧
      .respInteger (ascii "1") = countReply (blankServer (fun _ => 0) none) (ascii "k")
        [newArg ⟨2, ascii "1"⟩, newArg ⟨3, ascii "a"⟩, newArg ⟨4, ascii "2"⟩,
          newArg ⟨5, ascii "a"⟩] := by
  have hmap : (zaddCommand [newArg ⟨0, ascii "ZADD"⟩, newArg ⟨1, ascii "k"⟩,
      newArg ⟨2, ascii "1"⟩, newArg ⟨3, ascii "a"⟩, newArg ⟨4, ascii "2"⟩,
      newArg ⟨5, ascii "a"⟩] (blankServer (fun _ => 0) none)).map
        (fun p => p.1.1) = .ok (.respInteger (ascii "1")) := by decide +kernel
  obtain ⟨⟨reply, args⟩, t, hrun, rfl⟩ := exists_of_map_eq_ok hmap
  refine ⟨args, t, hrun, (zadd_count_iff HashTable.keyed_newHashTable
    (fun list hlist => by cases hlist) (by decide +kernel) hrun).2 fun hch => ?_⟩
  exact absurd hch (by decide +kernel)

/-- `ZADD k CH 1 a` inserts the member and is answered with zero. -/
theorem zadd_not_count :
    ∃ args t, zaddCommand [newArg ⟨0, ascii "ZADD"⟩, newArg ⟨1, ascii "k"⟩,
        newArg ⟨2, ascii "CH"⟩, newArg ⟨3, ascii "1"⟩, newArg ⟨4, ascii "a"⟩]
          (blankServer (fun _ => 0) none) = .ok ((.respInteger (ascii "0"), args), t) ∧
      (zaddSwitches [newArg ⟨2, ascii "CH"⟩, newArg ⟨3, ascii "1"⟩,
        newArg ⟨4, ascii "a"⟩]).incr = false ∧
      countReply (blankServer (fun _ => 0) none) (ascii "k") [newArg ⟨2, ascii "CH"⟩,
        newArg ⟨3, ascii "1"⟩, newArg ⟨4, ascii "a"⟩] = .respInteger (ascii "1") := by
  have hmap : (zaddCommand [newArg ⟨0, ascii "ZADD"⟩, newArg ⟨1, ascii "k"⟩,
      newArg ⟨2, ascii "CH"⟩, newArg ⟨3, ascii "1"⟩, newArg ⟨4, ascii "a"⟩]
        (blankServer (fun _ => 0) none)).map (fun p => p.1.1) =
          .ok (.respInteger (ascii "0")) := by decide +kernel
  obtain ⟨⟨reply, args⟩, t, hrun, rfl⟩ := exists_of_map_eq_ok hmap
  exact ⟨args, t, hrun, by decide +kernel, by decide +kernel⟩

end Exoredis
