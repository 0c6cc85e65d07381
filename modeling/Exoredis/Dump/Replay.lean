import Exoredis.Dump.RoundTrip
import Exoredis.Keyspace.Frame

/-!
# Records loaded over a keyspace

The record of a string is appended without a search, that of a bitmap replaces the
first node of its key, and that of a sorted set is an insertion whose reply decides
whether LOADDB goes on: for a member that is there already, it does not.
-/

namespace Exoredis

open Effect LittleEndian Decimal

/-! ## What one record does to the nodes of a key -/

/-- The nodes of a key, in the order of its bucket. -/
def HashTable.nodesOf (ht : HashTable ExoVal) (key : List UInt8) : List (ListNode ExoVal) :=
  (ht.buckets (keyHash key)).filter fun node => node.key.buf = key

theorem lookup_eq_head?_nodesOf (ht : HashTable ExoVal) (key : List UInt8) :
    ht.lookup key = (ht.nodesOf key).head? := by
  rw [HashTable.lookup_eq_find?, HashTable.nodesOf, List.head?_filter]

theorem nodesOf_putBucket (ht : HashTable ExoVal) (key k : List UInt8)
    (list : List (ListNode ExoVal)) :
    (ht.putBucket key list).nodesOf k =
      if keyHash k = keyHash key then list.filter fun node => node.key.buf = k
      else ht.nodesOf k := by
  rw [HashTable.nodesOf, HashTable.putBucket, HashTable.setBucket_buckets, Function.update_apply]
  split
  · rfl
  · rfl

/-- A record adds a node to those of its key or replaces the first of them. -/
theorem Loaded.nodesOf {s t : Server} {node : ListNode ExoVal} (h : Loaded s node t)
    (hlive : ¬ node.Expired s.now) (k : List UInt8) :
    (node.key.buf ≠ k → t.HASH_TABLE.nodesOf k = s.HASH_TABLE.nodesOf k) ∧
      (s.HASH_TABLE.nodesOf k).length ≤ (t.HASH_TABLE.nodesOf k).length ∧
      (node.key.buf = k → (∃ str, node.value = .bulkString str) →
        (t.HASH_TABLE.nodesOf k).length = (s.HASH_TABLE.nodesOf k).length + 1) := by
  cases h with
  | dropped hexpired => exact absurd hexpired hlive
  | appended new _ _ hcontent _ ht _ =>
      have hkey : new.key.buf = node.key.buf := congrArg Prod.fst hcontent
      have hnodes : t.HASH_TABLE.nodesOf k = s.HASH_TABLE.nodesOf k ++
          if node.key.buf = k then [new] else [] := by
        rw [ht, nodesOf_putBucket]
        by_cases hk : node.key.buf = k
        · subst hk
          simp [HashTable.nodesOf, hkey]
        · rw [if_neg hk, List.append_nil]
          split
          · rename_i hhash
            simp [HashTable.nodesOf, hhash, hkey, hk]
          · rfl
      rw [hnodes]
      refine ⟨fun hk => ?_, ?_, fun hk _ => ?_⟩
      · rw [if_neg hk, List.append_nil]
      · rw [List.length_append]
        exact Nat.le_add_right _ _
      · rw [if_pos hk, List.length_append, List.length_singleton]
  | replaced new c bm_node hval hc _ hcontent ht _ =>
      have hkey : new.key.buf = node.key.buf := congrArg Prod.fst hcontent
      obtain ⟨-, hcn, -⟩ := cursorOf_eq_some hc
      have hbucket := HashTable.cursor_toList hc
      by_cases hk : node.key.buf = k
      · subst hk
        have hlength : (t.HASH_TABLE.nodesOf node.key.buf).length =
            (s.HASH_TABLE.nodesOf node.key.buf).length := by
          rw [ht, nodesOf_putBucket, if_pos rfl, HashTable.nodesOf, hbucket]
          simp [hkey, hcn]
        refine ⟨fun hk => absurd rfl hk, hlength.ge, fun _ hstr => ?_⟩
        obtain ⟨str, hstr⟩ := hstr
        rw [hval] at hstr
        cases hstr
      · have hnodes : t.HASH_TABLE.nodesOf k = s.HASH_TABLE.nodesOf k := by
          rw [ht, nodesOf_putBucket]
          split
          · rename_i hhash
            rw [HashTable.nodesOf, hhash, hbucket]
            simp [hkey, hcn, hk]
          · rfl
        exact ⟨fun _ => hnodes, by rw [hnodes], fun h => absurd h hk⟩

/-! ## Loading the records of strings and bitmaps over a keyspace -/

/-- What loading records of strings and bitmaps leaves behind; `keys` are the keys of
the records. -/
structure Piled (s : Server) (keys : List (List UInt8)) (t : Server) : Prop where
  frame : LoadFrame s t
  unfreed : t.HASH_TABLE.Unfreed
  others : ∀ k ∉ keys, t.HASH_TABLE.nodesOf k = s.HASH_TABLE.nodesOf k
  grows : ∀ k, (s.HASH_TABLE.nodesOf k).length ≤ (t.HASH_TABLE.nodesOf k).length

/-- Every value, in the keyspace or among the garbage, owns no skip list. -/
structure AllFlat (s : Server) : Prop where
  table : ∀ i, ∀ node ∈ s.HASH_TABLE.buckets i, node.value.Flat
  garbage : ∀ val ∈ s.GARBAGE_LIST, val.Flat

theorem flat_of_content {node new : ListNode ExoVal} (h : Storable node)
    (hcontent : new.content = node.content) : new.value.Flat := by
  have hvalue := h.value
  cases hnew : new.value with
  | sortedSet list =>
      exfalso
      have hother : node.content.2 = .other := by
        rw [← hcontent, ListNode.content, hnew]
      cases hval : node.value with
      | bulkString str =>
          rw [content_string hval] at hother
          cases hother
      | bitmap bm_node =>
          rw [content_bitmap hval] at hother
          cases hother
      | _ =>
          rw [hval] at hvalue
          exact hvalue
  | _ => trivial

theorem mem_putBucket {V : Type} {ht : HashTable V} {key : List UInt8} {list : List (ListNode V)} {i : ℕ}
    {node : ListNode V} (h : node ∈ (ht.putBucket key list).buckets i) :
    node ∈ list ∨ node ∈ ht.buckets i := by
  rw [HashTable.putBucket, HashTable.setBucket_buckets, Function.update_apply] at h
  split at h
  · exact .inl h
  · exact .inr h

/-- A node of the keyspace after a record was there before or has its content. -/
theorem Loaded.mem {s t : Server} {node : ListNode ExoVal} (h : Loaded s node t) {i : ℕ}
    {n : ListNode ExoVal} (hn : n ∈ t.HASH_TABLE.buckets i) :
    (∃ j, n ∈ s.HASH_TABLE.buckets j) ∨ n.freed = false ∧ n.content = node.content := by
  cases h with
  | dropped _ ht _ => exact .inl ⟨i, ht ▸ hn⟩
  | appended new _ hnew hcontent _ ht _ =>
      rw [ht] at hn
      rcases mem_putBucket hn with hn | hn
      · rcases List.mem_append.1 hn with hn | hn
        · exact .inl ⟨_, hn⟩
        · rw [List.mem_singleton.1 hn]
          exact .inr ⟨hnew, hcontent⟩
      · exact .inl ⟨i, hn⟩
  | replaced new c bm_node _ hc hnew hcontent ht _ =>
      have hbucket := HashTable.cursor_toList hc
      rw [ht] at hn
      rcases mem_putBucket hn with hn | hn
      · rcases List.mem_append.1 hn with hn | hn
        · exact .inl ⟨_, hbucket ▸ List.mem_append_left _ hn⟩
        · rcases List.mem_cons.1 hn with rfl | hn
          · exact .inr ⟨hnew, hcontent⟩
          · exact .inl ⟨_, hbucket ▸ List.mem_append_right _ (List.mem_cons_of_mem _ hn)⟩
      · exact .inl ⟨i, hn⟩

theorem Loaded.unfreed {s t : Server} {node : ListNode ExoVal} (h : Loaded s node t)
    (hs : s.HASH_TABLE.Unfreed) : t.HASH_TABLE.Unfreed := by
  intro i n hn
  rcases h.mem hn with ⟨j, hn⟩ | ⟨hn, -⟩
  · exact hs j n hn
  · exact hn

theorem Loaded.allFlat {s t : Server} {node : ListNode ExoVal} (h : Loaded s node t)
    (hnode : Storable node) (hs : AllFlat s) : AllFlat t := by
  refine ⟨fun i n hn => ?_, ?_⟩
  · rcases h.mem hn with ⟨j, hn⟩ | ⟨-, hcontent⟩
    · exact hs.table j n hn
    · exact flat_of_content hnode hcontent
  · cases h with
    | dropped _ _ hgarbage | appended _ _ _ _ _ _ hgarbage => exact hgarbage ▸ hs.garbage
    | replaced new c bm_node _ hc _ _ _ hgarbage =>
        rw [hgarbage]
        intro val hval
        rcases List.mem_append.1 hval with hval | hval
        · exact hs.garbage val hval
        · rw [List.mem_singleton.1 hval]
          refine hs.table (keyHash node.key.buf) c.node ?_
          rw [HashTable.cursor_toList hc]
          simp

theorem loadLoop_pile {nodes : List (ListNode ExoVal)} (h : ∀ node ∈ nodes, Storable node)
    {s : Server} (hs : s.HASH_TABLE.Unfreed) (hlive : ∀ node ∈ nodes, ¬ node.Expired s.now)
    (fuel : ℕ) (rest : List UInt8) :
    ∃ t, loadLoop (nodes.length + fuel) (nodes.flatMap nodeRecord ++ rest) s =
        loadLoop fuel rest t ∧
      Piled s (nodes.map fun node => node.key.buf) t ∧ (AllFlat s → AllFlat t) := by
  induction nodes generalizing s with
  | nil =>
      refine ⟨s, by rw [List.length_nil, Nat.zero_add]; rfl, ⟨⟨rfl, rfl, rfl⟩, hs, ?_, ?_⟩, id⟩
      · exact fun _ _ => rfl
      · exact fun _ => le_rfl
  | cons node nodes ih =>
      have hnode := h node List.mem_cons_self
      obtain ⟨s', hrun, hloaded, hframe⟩ := loadLoop_record hnode hs (nodes.length + fuel)
        (nodes.flatMap nodeRecord ++ rest)
      obtain ⟨t, hrun', ht, hflat⟩ := ih (fun n hn => h n (List.mem_cons_of_mem _ hn))
        (hloaded.unfreed hs) (fun n hn => hframe.now ▸ hlive n (List.mem_cons_of_mem _ hn))
      have hstep := hloaded.nodesOf (hlive node List.mem_cons_self)
      refine ⟨t, ?_, ⟨⟨?_, ?_, ?_⟩, ht.unfreed, fun k hk => ?_, fun k => ?_⟩,
        fun hs => hflat (hloaded.allFlat hnode hs)⟩
      · rw [List.flatMap_cons, List.append_assoc, List.length_cons, Nat.add_right_comm, hrun, hrun']
      · rw [ht.frame.commands, hframe.commands]
      · rw [ht.frame.now, hframe.now]
      · rw [ht.frame.dump, hframe.dump]
      · rw [List.map_cons, List.mem_cons, not_or] at hk
        rw [ht.others k hk.2, (hstep k).1 fun h => hk.1 h.symm]
      · exact le_trans (hstep k).2.1 (ht.grows k)

/-! ## The record of a member that is there -/

theorem startsScore_doubleToString (score : ℚ) : startsScore (doubleToString score) = true := by
  rw [doubleToString, formatLf]
  by_cases hneg : score < 0
  · simp [hneg, startsScore, firstChar]
  · cases hdigits : decimal ((roundHalfEven (|score| * 10 ^ 6)).toNat / 10 ^ 6) with
    | nil => exact absurd hdigits (decimal_ne_nil _)
    | cons c cs =>
        have hc : isDigit c = true := decimal_digit _ c (hdigits ▸ List.mem_cons_self)
        simp [hneg, startsScore, firstChar, hc]

theorem parseArgs_pair {room : ℕ} {score member : ArgListNode} {s t : Server}
    {p : Option (List (ℚ × ExoString))} {args : ArgList}
    (hrun : SkipList.parseArgs room [score, member] s = .ok ((p, args), t)) :
    t = s ∧ (p = none ∨ ∃ q, p = some [(q, member.key)]) := by
  rw [SkipList.parseArgs] at hrun
  simp only at hrun
  cases hscore : SkipList.parseScore score.key.buf with
  | none =>
      rw [hscore] at hrun
      cases hrun
      exact ⟨rfl, .inl rfl⟩
  | some q =>
      rw [hscore] at hrun
      simp only at hrun
      by_cases hroom : room = 0
      · rw [if_pos hroom] at hrun
        cases hrun
      · rw [if_neg hroom] at hrun
        cases hrun
        exact ⟨rfl, .inr ⟨q, rfl⟩⟩

/-- Adding a member that the table knows does not count as an insertion. -/
theorem addOrUpdatePair_known {list list' : SkipList} {score : ℚ} {member : ExoString}
    {isChanged isNew : Bool} {s t : Server} (hunfreed : list.table.Unfreed)
    (hknown : list.table.lookup member.buf ≠ none)
    (hrun : SkipList.addOrUpdatePair false false list (score, member) s =
      .ok ((list', isChanged, isNew), t)) : isNew = false := by
  obtain ⟨⟨tmp, table⟩, s', hget, hrun⟩ := bind_eq_ok_iff.1 hrun
  cases tmp with
  | none =>
      exfalso
      by_cases hne : member.buf = []
      · rw [HashTable.get, bind_run_error (stringHash_nil hne s)] at hget
        cases hget
      · cases hc : list.table.cursor member.buf with
        | none => exact hknown (HashTable.cursor_eq_none_iff.1 hc)
        | some c =>
            have hlive : ¬ c.node.Expired s.now := fun hexp => absurd hexp.1 (by
              change SORTED_SET_ENTRY ≠ BULKSTRING
              decide)
            rw [HashTable.get_live hunfreed hne hc hlive] at hget
            cases hget
  | some target =>
      obtain ⟨list'', s'', -, hrun⟩ := bind_eq_ok_iff.1 hrun
      cases hrun
      rfl

/-- A ZADD of one member that the sorted set of the key knows is not answered with
the reply that LOADDB takes for a success. -/
theorem zaddCommand_known {cmd key score member : ExoString} {s t : Server} {reply : Reply}
    {args : ArgList} {node : ListNode ExoVal} {list : SkipList}
    (hunfreed : s.HASH_TABLE.Unfreed) (hkey : key.buf ≠ [])
    (hlookup : s.HASH_TABLE.lookup key.buf = some node) (hval : node.value = .sortedSet list)
    (htable : list.table.Unfreed) (hknown : list.table.lookup member.buf ≠ none)
    (hscore : startsScore score.buf = true)
    (hrun : zaddCommand [newArg cmd, newArg key, newArg score, newArg member] s =
      .ok ((reply, args), t)) : resultOf reply "1" = -1 := by
  obtain ⟨c, hc, rfl⟩ := HashTable.cursor_of_lookup hlookup
  have hlive : ¬ c.node.Expired s.now := by
    rintro ⟨htype, -⟩
    rw [hval] at htype
    change SORTED_SET = BULKSTRING at htype
    exact absurd htype (by decide)
  have hopen : openSortedSet key s = .ok (some list, s) := by
    rw [openSortedSet, bind_run_ok (onKeyspace_run (HashTable.get_live hunfreed hkey hc hlive)),
      hval]
    rfl
  have hswitches : parseSwitches [newArg score, newArg member] ⟨false, false, false, false⟩ =
      (⟨false, false, false, false⟩, [newArg score, newArg member]) := by
    rw [parseSwitches, if_pos (by simpa [newArg] using hscore)]
  rw [zaddCommand, if_neg (by simp)] at hrun
  simp only [newArg] at hrun hswitches
  rw [bind_run_ok hopen] at hrun
  simp only [hswitches] at hrun
  obtain ⟨⟨ret, list', args'⟩, s₁, hadd, hrun⟩ := bind_eq_ok_iff.1 hrun
  obtain ⟨_, s₂, -, hrun⟩ := bind_eq_ok_iff.1 hrun
  have hreply : reply = ret := by
    simp only at hrun
    split at hrun
    · obtain ⟨_, s₃, -, hrun⟩ := bind_eq_ok_iff.1 hrun
      cases hrun
      rfl
    · cases hrun
      rfl
  have hsorted : list.addToSortedSet false false false false
      [newArg cmd, newArg key, newArg score, newArg member] s =
        (do let p ← list.addOrUpdateMember false false false [newArg score, newArg member] 2
            return (p.1, p.2.1, [newArg cmd, newArg key] ++ p.2.2) :
          Exo (Reply × SkipList × ArgList)) s := by
    rw [SkipList.addToSortedSet]
    simp
  simp only [newArg] at hsorted
  rw [hsorted] at hadd
  obtain ⟨⟨ret', list'', arg⟩, s₄, hupdate, hadd⟩ := bind_eq_ok_iff.1 hadd
  cases hadd
  obtain ⟨⟨p, args''⟩, s₅, hparse, hupdate⟩ := bind_eq_ok_iff.1 hupdate
  obtain ⟨-, hp⟩ := parseArgs_pair hparse
  subst hreply
  rcases hp with rfl | ⟨q, rfl⟩
  · cases hupdate
    decide
  · obtain ⟨⟨list₃, changed, new_insert⟩, s₃, hloop, hupdate⟩ := bind_eq_ok_iff.1 hupdate
    cases hupdate
    obtain ⟨⟨list₄, isChanged, isNew⟩, s₄, hpair, hloop⟩ := bind_eq_ok_iff.1 hloop
    cases hloop
    rw [addOrUpdatePair_known htable hknown hpair]
    change resultOf (.respInteger (numberToString 0)) "1" = -1
    decide

end Exoredis
