import Exoredis.Dump.RoundTrip
import Exoredis.Dump.StringTables
import Exoredis.Keyspace.Uniqueness
import Exoredis.SortedSet.Atomic

/-!
# Keys without an expiry

A key that is set without EX or PX gets the expiry `DEFAULT_EXPIRY_MS`, a timestamp like any
other. GET finds such a key, and `setFromLoad` restores it, as long as the clock has not
passed that timestamp, and not after (`lasting_iff`).
-/

namespace Exoredis

open Effect LittleEndian

variable {ht ht' : HashTable ExoVal} {s t : Server}

/-! ## What an observer knows -/

/-- The keys whose last successful SET carried neither EX nor PX: those in the keyspace, and
those in the dump. -/
structure Lasting where
  live : Finset (List UInt8)
  saved : Finset (List UInt8)

/-- The options of a SET carry EX or PX. -/
def carriesExpiry (options : List (List UInt8)) : Bool :=
  match switchesOf options with
  | .ok sw => sw.ex || sw.px
  | .error _ => false

namespace Lasting

/-- The record behind a request and its reply. -/
def observe (p : Lasting) (r : Request) (output : List UInt8) : Lasting :=
  match r.tokens with
  | [] => p
  | name :: args =>
      if strUpCase name = ascii "SET" then
        match args with
        | key :: _ :: options =>
            if output = _OK.wire then
              { p with live := if carriesExpiry options then p.live.erase key
                               else insert key p.live }
            else p
        | _ => p
      else if strUpCase name = ascii "DEL" then { p with live := p.live \ args.toFinset }
      else if strUpCase name = ascii "FLUSHALL" then
        if output = _OK.wire then { p with live := ∅ } else p
      else if strUpCase name = ascii "SAVE" then
        if output = _OK.wire then { p with saved := p.live } else p
      else if strUpCase name = ascii "LOADDB" then { p with live := p.saved }
      else p

end Lasting

def stringCommands : List (List UInt8) :=
  [ascii "SET", ascii "GET", ascii "DEL", ascii "FLUSHALL", ascii "SAVE", ascii "LOADDB"]

/-- A request on strings whose tokens fit the request buffer, at a reading of the clock that
is not before the last one. A dump is loaded into an empty keyspace. -/
structure Admissible (s : Server) (r : Request) : Prop where
  clock : s.now ≤ r.now
  command : ∃ name ∈ stringCommands, r.tokens.head?.map strUpCase = some name
  fits : ∀ tkn ∈ r.tokens, tkn.length ≤ INPUT_BUFFER_SIZE
  load : r.tokens.head?.map strUpCase = some (ascii "LOADDB") →
    ∀ i < INITIAL_SIZE, s.HASH_TABLE.buckets i = []

/-! ## The invariant -/

/-- The node of a lasting key, unless it is freed, has the expiry `DEFAULT_EXPIRY_MS`, and
there is one up to then. -/
structure Lasts (ht : HashTable ExoVal) (now : ℕ) (key : List UInt8) : Prop where
  expiry : ∀ node ∈ ht.lookup key, node.freed = true ∨ node.expiry = DEFAULT_EXPIRY_MS
  found : now ≤ DEFAULT_EXPIRY_MS → ht.lookup key ≠ none

/-- A dump of strings with the records of the keys in `saved`. -/
structure DumpOf (saved : Finset (List UInt8)) (now : ℕ) (nodes : List (ListNode ExoVal)) :
    Prop where
  node : ∀ node ∈ nodes, StringNode node
  distinct : (nodes.map fun node => node.key.buf).Nodup
  expiry : ∀ node ∈ nodes, node.key.buf ∈ saved → node.expiry = DEFAULT_EXPIRY_MS
  found : ∀ key ∈ saved, now ≤ DEFAULT_EXPIRY_MS → ∃ node ∈ nodes, node.key.buf = key

structure Tracked (s : Server) (p : Lasting) : Prop where
  ready : s.Ready
  strings : Strings s.HASH_TABLE
  live : ∀ key ∈ p.live, Lasts s.HASH_TABLE s.now key
  dump : ∀ fp ∈ s.dump, ∃ nodes, fp = nodes.flatMap nodeRecord ∧ DumpOf p.saved s.now nodes
  unsaved : s.dump = none → p.saved = ∅

theorem Lasts.mono {now now' : ℕ} {key : List UInt8} (h : Lasts ht now key) (hle : now ≤ now') :
    Lasts ht now' key :=
  ⟨h.expiry, fun hnow => h.found (hle.trans hnow)⟩

theorem Lasts.congr {now : ℕ} {key : List UInt8} (h : Lasts ht now key)
    (hlookup : ht'.lookup key = ht.lookup key) : Lasts ht' now key :=
  ⟨by rw [hlookup]; exact h.expiry, fun hnow => by rw [hlookup]; exact h.found hnow⟩

theorem insensitive_loadFrame (s : Server) : Insensitive (LoadFrame s) :=
  fun _ _ _ _ _ h => ⟨h.commands, h.now, h.dump⟩

theorem insensitive_tracked (p : Lasting) : Insensitive fun s => Tracked s p :=
  fun _ _ _ _ _ h => ⟨⟨h.ready.keyed, h.ready.lookup⟩, h.strings, h.live, h.dump, h.unsaved⟩

namespace Tracked

variable {p : Lasting} (h : Tracked s p)

include h

/-- The state in which the command of a request starts. -/
theorem commandState {r : Request} (hclock : s.now ≤ r.now) : Tracked (commandState s r) p where
  ready := ⟨h.ready.keyed, h.ready.lookup⟩
  strings := h.strings
  live key hkey := (h.live key hkey).mono hclock
  dump fp hfp := by
    obtain ⟨nodes, hnodes, hdump⟩ := h.dump fp hfp
    exact ⟨nodes, hnodes, hdump.node, hdump.distinct, hdump.expiry,
      fun key hkey hnow => hdump.found key hkey (hclock.trans hnow)⟩
  unsaved := h.unsaved

/-- Another keyspace, under the record of fewer or other keys. -/
theorem with_keyspace {live : Finset (List UInt8)} (hframe : LoadFrame s t)
    (hstrings : Strings t.HASH_TABLE) (hlive : ∀ key ∈ live, Lasts t.HASH_TABLE s.now key) :
    Tracked t { p with live := live } where
  ready := by
    constructor
    · rw [hframe.commands]
      exact h.ready.keyed
    · rw [hframe.commands]
      exact h.ready.lookup
  strings := hstrings
  live := by
    rw [hframe.now]
    exact hlive
  dump := by
    rw [hframe.dump, hframe.now]
    exact h.dump
  unsaved := by
    rw [hframe.dump]
    exact h.unsaved

/-- An operation on the entry of one key. -/
theorem operate {α : Type} {f : HashTable ExoVal → Exo (α × HashTable ExoVal)} {a : α}
    {live : Finset (List UInt8)} (key : List UInt8)
    (hframe : ∀ ht, Preserves (f ht) (LoadFrame s)) (hrun : onKeyspace f s = .ok (a, t))
    (hlive : ∀ k ∈ live, k ≠ key → k ∈ p.live)
    (hop : ∀ ht u, f s.HASH_TABLE s = .ok ((a, ht), u) →
      ChangedAt key s.HASH_TABLE ht ∧ (key ∈ live → Lasts ht s.now key)) :
    Tracked t { p with live := live } := by
  obtain ⟨ht, u, hf, rfl⟩ := onKeyspace_ok hrun
  obtain ⟨hchanged, hkey⟩ := hop ht u hf
  have hu : LoadFrame s u := hframe _ _ _ _ ⟨rfl, rfl, rfl⟩ hf
  refine h.with_keyspace ⟨hu.commands, hu.now, hu.dump⟩ hchanged.strings fun k hk => ?_
  by_cases heq : k = key
  · rw [heq] at hk ⊢
    exact hkey hk
  · exact (h.live k (hlive k hk heq)).congr (hchanged.lookup k heq)

/-! ### GET, DEL and FLUSHALL -/

theorem get {key : ExoString} {val : Option ExoVal}
    (hrun : onKeyspace (fun ht => ht.get key) s = .ok (val, t)) : Tracked t p := by
  refine h.operate key.buf
    (fun ht => (framed_preserves (insensitive_loadFrame s)).get ht key trivial) hrun
    (fun k hk _ => hk) fun ht u hget => ?_
  obtain ⟨hchanged, hfreed, hcases⟩ := h.strings.get_ok hget
  refine ⟨hchanged, fun hkey => ?_⟩
  rcases hcases with rfl | ⟨⟨node, hnode, hexp⟩, hnone⟩
  · exact h.live _ hkey
  · have hlasts := h.live _ hkey
    rw [(h.strings.of_lookup hnode).expired_iff] at hexp
    refine ⟨by rw [hnone]; simp, fun hnow => ?_⟩
    rcases hlasts.expiry node hnode with hdead | hexpiry
    · rw [hfreed node hnode] at hdead
      cases hdead
    · rw [hexpiry] at hexp
      omega

theorem del {key : ExoString} {n : ℕ}
    (hrun : onKeyspace (fun ht => ht.del key) s = .ok (n, t)) :
    Tracked t { p with live := p.live.erase key.buf } := by
  refine h.operate key.buf
    (fun ht => (framed_preserves (insensitive_loadFrame s)).del ht key trivial) hrun
    (fun k hk _ => Finset.mem_of_mem_erase hk) fun ht u hdel => ?_
  exact ⟨h.strings.del_ok hdel, fun hkey => absurd hkey (Finset.notMem_erase _ _)⟩

theorem delKeys {args : ArgList} {count n : ℕ} (hrun : delKeys args count s = .ok (n, t)) :
    Tracked t { p with live := p.live \ (args.map fun node => node.key.buf).toFinset } := by
  induction args generalizing s p count with
  | nil =>
      cases hrun
      simpa using h
  | cons node rest ih =>
      obtain ⟨n', s', hdel, hrest⟩ := bind_eq_ok_iff.1 hrun
      have ht := ih (h.del hdel) hrest
      rwa [List.map_cons, List.toFinset_cons, Finset.sdiff_insert, ← Finset.erase_sdiff_comm]

theorem flush {args args' : ArgList} {reply : Reply}
    (hrun : flushCommand args s = .ok ((reply, args'), t)) :
    reply = _OK ∧ Tracked t { p with live := ∅ } := by
  obtain ⟨s', _, hget, hrun⟩ := bind_eq_ok_iff.1 hrun
  cases hget
  obtain ⟨_, s₁, hfree, hrun⟩ := bind_eq_ok_iff.1 hrun
  obtain ⟨_, s₂, hmodify, hrun⟩ := bind_eq_ok_iff.1 hrun
  cases hmodify
  cases hrun
  have hframe : LoadFrame s s₁ := (framed_preserves (insensitive_loadFrame s)).freeHashTable _
    _ _ _ ⟨rfl, rfl, rfl⟩ hfree
  refine ⟨rfl, h.with_keyspace ⟨hframe.commands, hframe.now, hframe.dump⟩ ?_ (by simp)⟩
  exact HashTable.keyed_newHashTable.strings fun k node hnode => by cases hnode

/-! ### SET -/

end Tracked

/-- No value without its switch. -/
structure SetSwitches.Plain (sw : SetSwitches) : Prop where
  ex : sw.ex = false → sw.ex_v = 0
  px : sw.px = false → sw.px_v = 0

theorem parseSetSwitches_plain {args : ArgList} {sw sw' : SetSwitches} (hsw : sw.Plain)
    (hparse : (parseSetSwitches args sw).1 = .ok sw') : sw'.Plain := by
  fun_induction parseSetSwitches args sw with
  | case1 sw =>
      cases hparse
      exact hsw
  | case2 | case3 | case5 | case6 | case10 => cases hparse
  | case4 _ _ _ _ _ _ _ _ _ _ hrest ih =>
      rw [hrest] at ih
      exact ih ⟨by simp, hsw.px⟩ hparse
  | case7 _ _ _ _ _ _ _ _ _ _ _ hrest ih =>
      rw [hrest] at ih
      exact ih ⟨hsw.ex, by simp⟩ hparse
  | case8 _ _ _ _ _ _ _ _ _ hrest ih =>
      rw [hrest] at ih
      exact ih ⟨hsw.ex, hsw.px⟩ hparse
  | case9 _ _ _ _ _ _ _ _ _ _ hrest ih =>
      rw [hrest] at ih
      exact ih ⟨hsw.ex, hsw.px⟩ hparse

/-- Without EX and PX there are no milliseconds to live. -/
theorem exp_ms_of_plain {options : List (List UInt8)} {sw : SetSwitches}
    (hoptions : switchesOf options = .ok sw) (hplain : carriesExpiry options = false) :
    sw.exp_ms = 0 := by
  have hsw := parseSetSwitches_plain ⟨fun _ => rfl, fun _ => rfl⟩ hoptions
  rw [carriesExpiry, hoptions, Bool.or_eq_false_iff] at hplain
  rw [SetSwitches.exp_ms, hsw.ex hplain.1, hsw.px hplain.2]
  rfl

theorem wire_error_ne (code : ErrorCode) : (_Error code).wire ≠ _OK.wire := by
  cases code <;> decide

theorem observe_other {p : Lasting} {r : Request} {name : List UInt8} {args : List (List UInt8)}
    {output : List UInt8} (htokens : r.tokens = name :: args)
    (hname : strUpCase name = ascii "SET") (houtput : output ≠ _OK.wire) :
    p.observe r output = p := by
  rw [Lasting.observe, htokens]
  simp only
  rw [if_pos hname]
  match args with
  | [] | [_] => rfl
  | key :: _ :: options => exact if_neg houtput

namespace Tracked

variable {p : Lasting} (h : Tracked s p)

include h

theorem set {r : Request} {name : List UInt8} {rest : List (List UInt8)} {head : ArgListNode}
    {id : ℕ} {reply : Reply} {args : ArgList} (htokens : r.tokens = name :: rest)
    (hname : strUpCase name = ascii "SET")
    (hfits : ∀ tkn ∈ rest, tkn.length ≤ INPUT_BUFFER_SIZE)
    (hrun : setCommand (head :: argsFrom id rest) s = .ok ((reply, args), t)) :
    Tracked t (p.observe r reply.wire) := by
  have hbuffer : INPUT_BUFFER_SIZE ≤ LOAD_BUFFER := by decide
  rcases setCommand_cases hname head id rest with ⟨-, reply', args', heq, hreply⟩ |
    ⟨key, val, options, sw, args', rfl, hoptions, -, heq⟩
  · rw [heq] at hrun
    cases hrun
    rw [observe_other htokens hname]
    · exact h
    · rcases hreply with rfl | ⟨code, rfl⟩
      · decide
      · exact wire_error_ne code
  · rw [heq] at hrun
    obtain ⟨ret, s', hset, hrun⟩ := bind_eq_ok_iff.1 hrun
    cases hrun
    have hkey : key.length ≤ LOAD_BUFFER := (hfits key (by simp)).trans hbuffer
    have hval : val.length ≤ LOAD_BUFFER := (hfits val (by simp)).trans hbuffer
    have hframe : ∀ ht : HashTable ExoVal, Preserves
        (ht.setWithExpiry ⟨id, key⟩ (.bulkString ⟨id + 1, val⟩) sw.exp_ms sw.nx sw.xx)
        (LoadFrame s) := fun ht =>
      (framed_preserves (insensitive_loadFrame s)).setWithExpiry ht _ _ _ _ _ trivial
    obtain ⟨ht, u, hop, -⟩ := onKeyspace_ok hset
    obtain ⟨-, ⟨rfl, -⟩ | ⟨rfl, -⟩⟩ := h.strings.setWithExpiry_ok hkey hval hop
    · rw [observe_other htokens hname (by decide)]
      refine h.operate key hframe hset (fun k hk _ => hk) fun ht u hop => ?_
      obtain ⟨hchanged, ⟨-, hsame | ⟨node, hnode, hfreed⟩⟩ | ⟨hok, -⟩⟩ :=
        h.strings.setWithExpiry_ok hkey hval hop
      · exact ⟨hchanged, fun hlive => (h.live key hlive).congr hsame⟩
      · refine ⟨hchanged, fun _ => ⟨fun node' hnode' => ?_, fun _ => by rw [hnode]; simp⟩⟩
        rw [hnode] at hnode'
        cases hnode'
        exact .inl hfreed
      · exact absurd hok (by decide)
    · have hobserve : p.observe r _OK.wire =
          ⟨if carriesExpiry options then p.live.erase key else insert key p.live, p.saved⟩ := by
        rw [Lasting.observe, htokens]
        simp only
        rw [if_pos hname, if_pos trivial]
      rw [hobserve]
      refine h.operate key hframe hset (fun k hk hne => ?_) fun ht u hop => ?_
      · split at hk
        · exact Finset.mem_of_mem_erase hk
        · exact (Finset.mem_insert.1 hk).resolve_left hne
      · obtain ⟨hchanged, ⟨hnull, -⟩ | ⟨-, node, hnode, hexpiry⟩⟩ :=
          h.strings.setWithExpiry_ok hkey hval hop
        · exact absurd hnull (by decide)
        · refine ⟨hchanged, fun hlive => ⟨fun node' hnode' => ?_, fun _ => by rw [hnode]; simp⟩⟩
          split at hlive
          · exact absurd hlive (Finset.notMem_erase _ _)
          · rename_i hplain
            rw [hnode] at hnode'
            cases hnode'
            rw [exp_ms_of_plain hoptions (by simpa using hplain)] at hexpiry
            exact hexpiry

end Tracked

/-! ### SAVE -/

theorem writeNode_strings {node : ListNode ExoVal} (h : StringNode node) {bytes : List UInt8}
    (hrun : writeNode node s = .ok (bytes, t)) :
    node.freed = false ∧ bytes = nodeRecord node ∧ t = s := by
  obtain ⟨str, hval, -⟩ := h.value
  rw [writeNode, hval] at hrun
  rw [nodeRecord, hval]
  cases hfreed : node.freed with
  | true =>
      rw [hfreed] at hrun
      cases hrun
  | false =>
      rw [hfreed] at hrun
      cases hrun
      exact ⟨rfl, rfl, rfl⟩

theorem writeList_strings {list : List (ListNode ExoVal)} (h : ∀ node ∈ list, StringNode node)
    {bytes : List UInt8} (hrun : writeList list s = .ok (bytes, t)) :
    (∀ node ∈ list, node.freed = false) ∧ bytes = list.flatMap nodeRecord ∧ t = s := by
  induction list generalizing s t bytes with
  | nil =>
      cases hrun
      exact ⟨by simp, rfl, rfl⟩
  | cons node list ih =>
      obtain ⟨front, s₁, hnode, hrest⟩ := bind_eq_ok_iff.1 hrun
      obtain ⟨rest, s₂, hlist, hend⟩ := bind_eq_ok_iff.1 hrest
      obtain ⟨hfreed, rfl, rfl⟩ := writeNode_strings (h node List.mem_cons_self) hnode
      obtain ⟨hall, rfl, rfl⟩ := ih (fun n hn => h n (List.mem_cons_of_mem _ hn)) hlist
      cases hend
      exact ⟨List.forall_mem_cons.2 ⟨hfreed, hall⟩, rfl, rfl⟩

theorem writeBuckets_strings (h : Strings ht) {is : List ℕ} {bytes : List UInt8}
    (hrun : writeBuckets ht is s = .ok (bytes, t)) :
    (∀ i ∈ is, ∀ node ∈ ht.buckets i, node.freed = false) ∧
      bytes = (is.flatMap ht.buckets).flatMap nodeRecord ∧ t = s := by
  induction is generalizing s t bytes with
  | nil =>
      cases hrun
      exact ⟨by simp, rfl, rfl⟩
  | cons i is ih =>
      obtain ⟨front, s₁, hlist, hrest⟩ := bind_eq_ok_iff.1 hrun
      obtain ⟨rest, s₂, hbuckets, hend⟩ := bind_eq_ok_iff.1 hrest
      obtain ⟨hfreed, rfl, rfl⟩ := writeList_strings (h.node i) hlist
      obtain ⟨hall, rfl, rfl⟩ := ih hbuckets
      cases hend
      refine ⟨List.forall_mem_cons.2 ⟨hfreed, hall⟩, ?_, rfl⟩
      rw [List.flatMap_cons, List.flatMap_append]

theorem HashTable.mem_nodes_of_lookup {key : List UInt8} {node : ListNode ExoVal}
    (hlookup : ht.lookup key = some node) : node ∈ ht.nodes := by
  obtain ⟨hmem, -⟩ := HashTable.mem_of_lookup hlookup
  exact List.mem_flatMap.2 ⟨keyHash key, List.mem_range.2 (keyHash_lt key), hmem⟩

theorem HashTable.Keyed.lookup_of_mem (h : ht.Keyed) {node : ListNode ExoVal}
    (hnode : node ∈ ht.nodes) : ht.lookup node.key.buf = some node := by
  obtain ⟨i, -, hmem⟩ := List.mem_flatMap.1 hnode
  exact (h.mem_iff_lookup.1 hmem).2

namespace Tracked

variable {p : Lasting} (h : Tracked s p)

include h

theorem dumpOf (hfreed : s.HASH_TABLE.Unfreed) :
    DumpOf p.live s.now s.HASH_TABLE.nodes := by
  have hkeyed := h.strings.keyed hfreed
  constructor
  · intro node hnode
    exact h.strings.of_lookup (hkeyed.lookup_of_mem hnode)
  · exact hkeyed.nodup_nodes
  · intro node hnode hkey
    have hlookup := hkeyed.lookup_of_mem hnode
    rcases (h.live _ hkey).expiry node hlookup with hdead | hexpiry
    · rw [hfreed _ node (HashTable.mem_of_lookup hlookup).1] at hdead
      cases hdead
    · exact hexpiry
  · intro key hkey hnow
    obtain ⟨node, hnode⟩ := Option.ne_none_iff_exists'.1 ((h.live key hkey).found hnow)
    exact ⟨node, HashTable.mem_nodes_of_lookup hnode, (HashTable.mem_of_lookup hnode).2⟩

theorem save {reply : Reply} (hrun : saveCommand s = .ok (reply, t)) :
    reply = _Null ∧ t = s ∨ reply = _OK ∧ Tracked t { p with saved := p.live } := by
  rw [saveCommand, bind_run_ok (get_run s)] at hrun
  split at hrun
  · cases hrun
    exact .inl ⟨rfl, rfl⟩
  · obtain ⟨bytes, s₁, hwrite, hrest⟩ := bind_eq_ok_iff.1 hrun
    obtain ⟨hfreed, hbytes, hs₁⟩ := writeBuckets_strings h.strings hwrite
    subst hs₁
    cases hrest
    have hunfreed : s₁.HASH_TABLE.Unfreed := by
      intro i node hnode
      refine hfreed i (List.mem_range.2 ?_) node hnode
      rw [← h.strings.placed i node hnode]
      exact keyHash_lt _
    refine .inr ⟨rfl, ⟨h.ready.keyed, h.ready.lookup⟩, h.strings, h.live, ?_, by simp⟩
    intro fp hfp
    exact ⟨s₁.HASH_TABLE.nodes, (Option.some.inj hfp).symm.trans hbytes, h.dumpOf hunfreed⟩

end Tracked

/-! ### LOADDB -/

/-- The expiry of a node as it is read back from its record. -/
def readExpiry (node : ListNode ExoVal) : ℕ :=
  toUnsigned (stringToLongLong (llToString node.expiry))

theorem readExpiry_default {node : ListNode ExoVal} (h : node.expiry = DEFAULT_EXPIRY_MS) :
    readExpiry node = DEFAULT_EXPIRY_MS := by
  rw [readExpiry, h, toUnsigned_llToString (by decide)]

/-- What has become of a record in the keyspace. -/
def Restored (now : ℕ) (node : ListNode ExoVal) (found : Option (ListNode ExoVal)) : Prop :=
  readExpiry node < now ∧ found = none ∨
    now ≤ readExpiry node ∧ ∃ new, found = some new ∧ StringNode new ∧ new.expiry = readExpiry node

/-- A string record that is loaded, and the loop behind it. -/
theorem loadLoop_string {node : ListNode ExoVal} (h : StringNode node) {fuel : ℕ}
    {rest : List UInt8} {ret : ℤ} (hs : s.HASH_TABLE.Keyed)
    (hmissing : s.HASH_TABLE.lookup node.key.buf = none)
    (hrun : loadLoop fuel (nodeRecord node ++ rest) s = .ok (ret, t)) :
    ∃ fuel' s', loadLoop fuel' rest s' = .ok (ret, t) ∧ LoadFrame s s' ∧ s'.HASH_TABLE.Keyed ∧
      (∀ k ≠ node.key.buf, s'.HASH_TABLE.lookup k = s.HASH_TABLE.lookup k) ∧
      Restored s.now node (s'.HASH_TABLE.lookup node.key.buf) := by
  obtain ⟨str, hval, hstr⟩ := h.value
  have hrecord : nodeRecord node = le 8 BULKSTRING ++ (writeString node.key.buf ++
      writeString str.buf ++ writeString (llToString node.expiry)) := by
    simp only [nodeRecord, hval, writeHashMapToFile, List.append_assoc]
  rw [hrecord, List.append_assoc] at hrun
  obtain ⟨s', hentry, hframe, -, hcases⟩ := loadHashMapEntry_ok h.nonempty h.key hstr
    (length_llToString_le h.expiry) hs.unfreed rest
  cases fuel with
  | zero => cases hrun
  | succ fuel =>
      rw [show loadHashMapEntry = loadEntry BULKSTRING from rfl] at hentry
      rw [loadLoop_cons (by decide) hentry] at hrun
      refine ⟨fuel, s', hrun, hframe, ?_⟩
      rcases hcases with ⟨hexp, hht⟩ | ⟨hlive, key, value, hkey, hvalue, hht⟩
      · rw [hht]
        exact ⟨hs, fun _ _ => rfl, .inl ⟨hexp, hmissing⟩⟩
      · have hc := HashTable.cursor_eq_none_iff.2 hmissing
        have hnode : StringNode
            ({ newNode key (.bulkString value) with expiry := readExpiry node } : ListNode _) :=
          ⟨hkey ▸ h.nonempty, hkey ▸ h.key, ⟨value, rfl, hvalue ▸ hstr⟩, toUnsigned_lt _⟩
        have hlookup := HashTable.Keyed.lookup_append (show ({ newNode key (.bulkString value) with
          expiry := readExpiry node } : ListNode ExoVal).key.buf = node.key.buf from hkey) hc
        rw [hht]
        refine ⟨hs.keyed_append rfl hkey h.nonempty hc, fun k hk => ?_,
          .inr ⟨hlive, { newNode key (.bulkString value) with expiry := readExpiry node }, ?_,
            hnode, rfl⟩⟩
        · exact (hlookup k).trans (if_neg hk)
        · exact (hlookup node.key.buf).trans (if_pos rfl)

/-- What has become of the records of a dump. -/
theorem loadLoop_strings {nodes : List (ListNode ExoVal)} (h : ∀ node ∈ nodes, StringNode node)
    (hdistinct : (nodes.map fun node => node.key.buf).Nodup) {fuel : ℕ} {ret : ℤ}
    (hs : s.HASH_TABLE.Keyed)
    (hmissing : ∀ node ∈ nodes, s.HASH_TABLE.lookup node.key.buf = none)
    (hrun : loadLoop fuel (nodes.flatMap nodeRecord) s = .ok (ret, t)) :
    LoadFrame s t ∧ t.HASH_TABLE.Keyed ∧
      (∀ k, (∀ node ∈ nodes, node.key.buf ≠ k) →
        t.HASH_TABLE.lookup k = s.HASH_TABLE.lookup k) ∧
      ∀ node ∈ nodes, Restored s.now node (t.HASH_TABLE.lookup node.key.buf) := by
  induction nodes generalizing s fuel with
  | nil =>
      cases fuel with
      | zero => cases hrun
      | succ fuel =>
          cases hrun
          exact ⟨⟨rfl, rfl, rfl⟩, hs, fun _ _ => rfl, by simp⟩
  | cons node nodes ih =>
      obtain ⟨hnode, hrest⟩ := List.forall_mem_cons.1 h
      obtain ⟨hmiss, hmissing⟩ := List.forall_mem_cons.1 hmissing
      rw [List.map_cons, List.nodup_cons] at hdistinct
      have hne : ∀ n ∈ nodes, n.key.buf ≠ node.key.buf := by
        intro n hn heq
        exact hdistinct.1 (heq ▸ List.mem_map_of_mem hn)
      rw [List.flatMap_cons] at hrun
      obtain ⟨fuel', s', hrun', hframe, hkeyed, hothers, hrestored⟩ :=
        loadLoop_string hnode hs hmiss hrun
      obtain ⟨hframe', hkeyed', hothers', hrestored'⟩ := ih hrest hdistinct.2 hkeyed
        (fun n hn => (hothers _ (hne n hn)).trans (hmissing n hn)) hrun'
      rw [hframe.now] at hrestored'
      refine ⟨hframe.trans hframe', hkeyed', fun k hk => ?_,
        List.forall_mem_cons.2 ⟨?_, hrestored'⟩⟩
      · obtain ⟨hk, hks⟩ := List.forall_mem_cons.1 hk
        rw [hothers' k hks, hothers k hk.symm]
      · rw [hothers' _ hne]
        exact hrestored

namespace Tracked

variable {p : Lasting} (h : Tracked s p)

include h

/-- A LOADDB on an empty keyspace brings the saved keys back up to `DEFAULT_EXPIRY_MS`. -/
theorem load {ret : ℤ} (hempty : ∀ i < INITIAL_SIZE, s.HASH_TABLE.buckets i = [])
    (hrun : loadFromDB s = .ok (ret, t)) :
    Tracked t { p with live := p.saved } ∧
      ∀ key ∈ p.saved, t.HASH_TABLE.lookup key ≠ none ↔ s.now ≤ DEFAULT_EXPIRY_MS := by
  have hbuckets : ∀ i, s.HASH_TABLE.buckets i = [] := by
    intro i
    refine List.eq_nil_iff_forall_not_mem.2 fun node hnode => ?_
    have hi := h.strings.placed i node hnode
    rw [hempty i (hi ▸ keyHash_lt _)] at hnode
    cases hnode
  have hnone : ∀ k, s.HASH_TABLE.lookup k = none := by
    intro k
    rw [HashTable.lookup_eq_find?, hbuckets]
    rfl
  rw [loadFromDB, bind_run_ok (get_run s)] at hrun
  cases hdump : s.dump with
  | none =>
      rw [hdump] at hrun
      cases hrun
      have hsaved : ∀ key, key ∉ p.saved := by
        rw [h.unsaved hdump]
        exact Finset.notMem_empty
      exact ⟨h.with_keyspace ⟨rfl, rfl, rfl⟩ h.strings fun key hkey => absurd hkey (hsaved key),
        fun key hkey => absurd hkey (hsaved key)⟩
  | some fp =>
      rw [hdump] at hrun
      obtain ⟨nodes, rfl, hof⟩ := h.dump fp hdump
      have hkeyed : s.HASH_TABLE.Keyed := h.strings.keyed fun i node hnode => by
        rw [hbuckets i] at hnode
        cases hnode
      obtain ⟨hframe, ht, hothers, hrestored⟩ :=
        loadLoop_strings hof.node hof.distinct hkeyed (fun node _ => hnone _) hrun
      have hstrings : Strings t.HASH_TABLE := by
        refine ht.strings fun k node hnode => ?_
        by_cases hk : ∀ n ∈ nodes, n.key.buf ≠ k
        · rw [hothers k hk, hnone] at hnode
          cases hnode
        · push Not at hk
          obtain ⟨n, hn, rfl⟩ := hk
          rcases hrestored n hn with ⟨-, hgone⟩ | ⟨-, new, hnew, hstring, -⟩
          · rw [hgone] at hnode
            cases hnode
          · rw [hnew] at hnode
            cases hnode
            exact hstring
      have hsaved : ∀ key ∈ p.saved,
          DEFAULT_EXPIRY_MS < s.now ∧ t.HASH_TABLE.lookup key = none ∨
          s.now ≤ DEFAULT_EXPIRY_MS ∧
            ∃ new, t.HASH_TABLE.lookup key = some new ∧ new.expiry = DEFAULT_EXPIRY_MS := by
        intro key hkey
        by_cases hk : ∀ n ∈ nodes, n.key.buf ≠ key
        · refine .inl ⟨Nat.lt_of_not_le fun hnow => ?_, (hothers key hk).trans (hnone key)⟩
          obtain ⟨n, hn, heq⟩ := hof.found key hkey hnow
          exact hk n hn heq
        · push Not at hk
          obtain ⟨n, hn, rfl⟩ := hk
          have hexpiry := readExpiry_default (hof.expiry n hn hkey)
          rcases hrestored n hn with ⟨hexp, hgone⟩ | ⟨hlive, new, hnew, -, hnewexp⟩
          · exact .inl ⟨hexpiry ▸ hexp, hgone⟩
          · exact .inr ⟨hexpiry ▸ hlive, new, hnew, hnewexp.trans hexpiry⟩
      refine ⟨h.with_keyspace hframe hstrings fun key hkey => ?_, fun key hkey => ?_⟩
      · rcases hsaved key hkey with ⟨hexp, hgone⟩ | ⟨-, new, hnew, hexpiry⟩
        · refine ⟨by rw [hgone]; simp, fun hnow => absurd hnow (Nat.not_le_of_lt hexp)⟩
        · refine ⟨fun node hnode => .inr ?_, fun _ => by rw [hnew]; simp⟩
          rw [hnew] at hnode
          cases hnode
          exact hexpiry
      · rcases hsaved key hkey with ⟨hexp, hgone⟩ | ⟨hlive, new, hnew, -⟩
        · rw [hgone]
          simpa using hexp
        · rw [hnew]
          simpa using hlive

end Tracked

/-! ## Runs -/

theorem cmd_str_of_save :
    ∀ cmd ∈ commandTable, strcmp cmd.cmd_str (ascii "SAVE") = .eq → cmd.cmd_str = ascii "SAVE" := by
  decide

/-- A null reply is not a string. -/
theorem writeBulk_ne_null (str : List UInt8) : writeBulk str ≠ _Null.wire := by
  intro heq
  have hdigit := Decimal.decimal_digit str.length
  obtain ⟨c, cs, hcs⟩ := List.exists_cons_of_ne_nil (Decimal.decimal_ne_nil str.length)
  rw [hcs] at hdigit
  have hc := hdigit c List.mem_cons_self
  rw [writeBulk, numberToString, hcs, show _Null.wire = 36 :: 45 :: 49 :: 13 :: 10 :: [] from rfl]
    at heq
  obtain rfl : c = 45 := (List.cons.inj (List.cons.inj heq).2).1
  exact absurd hc (by decide)

section Observe

variable {p : Lasting} {r : Request} {name : List UInt8} {args : List (List UInt8)}
  {output : List UInt8} (htokens : r.tokens = name :: args)

include htokens

theorem observe_get (hname : strUpCase name = ascii "GET") : p.observe r output = p := by
  rw [Lasting.observe, htokens]
  simp only [hname]
  rw [if_neg (by decide), if_neg (by decide), if_neg (by decide), if_neg (by decide),
    if_neg (by decide)]

theorem observe_del (hname : strUpCase name = ascii "DEL") :
    p.observe r output = { p with live := p.live \ args.toFinset } := by
  rw [Lasting.observe, htokens]
  simp only [hname]
  rw [if_neg (by decide), if_pos trivial]

theorem observe_flush (hname : strUpCase name = ascii "FLUSHALL") :
    p.observe r output = if output = _OK.wire then { p with live := ∅ } else p := by
  rw [Lasting.observe, htokens]
  simp only [hname]
  rw [if_neg (by decide), if_neg (by decide), if_pos trivial]

theorem observe_save (hname : strUpCase name = ascii "SAVE") :
    p.observe r output = if output = _OK.wire then { p with saved := p.live } else p := by
  rw [Lasting.observe, htokens]
  simp only [hname]
  rw [if_neg (by decide), if_neg (by decide), if_neg (by decide), if_pos trivial]

theorem observe_load (hname : strUpCase name = ascii "LOADDB") :
    p.observe r output = { p with live := p.saved } := by
  rw [Lasting.observe, htokens]
  simp only [hname]
  rw [if_neg (by decide), if_neg (by decide), if_neg (by decide), if_neg (by decide),
    if_pos trivial]

end Observe

/-- A command of the table that is not its own special case. -/
theorem executeCommand_plain {cmd : ExoCmd} {tokens args : ArgList} {reply : Reply}
    (hsave : strcmp cmd.cmd_str (ascii "SAVE") ≠ .eq)
    (hload : strcmp cmd.cmd_str (ascii "LOADDB") ≠ .eq)
    (hrun : executeCommand cmd tokens s = .ok ((reply, args), t)) :
    t = s ∧ reply = _Error .WRONG_NUMBER_OF_ARGUMENTS ∨
      callCommand cmd.f_ptr tokens s = .ok ((reply, args), t) := by
  rcases executeCommand_cases hrun with
    ⟨heq, -⟩ | ⟨heq, -⟩ | ⟨rfl, -, rfl, -⟩ | ⟨-, -, hrun⟩
  · exact absurd heq hsave
  · exact absurd heq hload
  · exact .inl ⟨rfl, rfl⟩
  · exact .inr hrun

namespace Tracked

variable {p : Lasting} (h : Tracked s p)

include h

/-- Fewer live keys. -/
theorem mono {live : Finset (List UInt8)} (hlive : live ⊆ p.live) :
    Tracked s { p with live := live } :=
  h.with_keyspace ⟨rfl, rfl, rfl⟩ h.strings fun key hkey => h.live key (hlive hkey)

/-- GET finds a live key up to `DEFAULT_EXPIRY_MS`. -/
theorem found {key : ExoString} {val : Option ExoVal}
    (hrun : onKeyspace (fun ht => ht.get key) s = .ok (val, t)) :
    (∀ v ∈ val, ∃ str, v = .bulkString str) ∧
      (key.buf ∈ p.live → (val ≠ none ↔ s.now ≤ DEFAULT_EXPIRY_MS)) := by
  obtain ⟨ht, u, hget, -⟩ := onKeyspace_ok hrun
  obtain ⟨-, hfreed, -⟩ := h.strings.get_ok hget
  obtain ⟨-, rfl⟩ := get_found hrun
  refine ⟨fun v hv => ?_, fun hkey => ?_⟩
  · obtain ⟨node, hnode, rfl⟩ := Option.map_eq_some_iff.1 hv
    obtain ⟨str, hstr, -⟩ := (h.strings.of_lookup (Option.filter_eq_some_iff.1 hnode).1).value
    exact ⟨str, hstr⟩
  · have hlasts := h.live _ hkey
    cases hlookup : s.HASH_TABLE.lookup key.buf with
    | none =>
        rw [liveAt_eq_none (by rw [hlookup]; simp)]
        exact ⟨fun hne => absurd rfl hne, fun hnow => absurd hlookup (hlasts.found hnow)⟩
    | some node =>
        have hexpiry : node.expiry = DEFAULT_EXPIRY_MS := by
          rcases hlasts.expiry node hlookup with hdead | hexpiry
          · rw [hfreed node hlookup] at hdead
            cases hdead
          · exact hexpiry
        have hiff := (h.strings.of_lookup hlookup).expired_iff s.now
        rw [hexpiry] at hiff
        by_cases hnow : s.now ≤ DEFAULT_EXPIRY_MS
        · rw [liveAt_eq_map, hlookup]
          · simpa using hnow
          · intro n hn
            rw [hlookup] at hn
            cases hn
            exact fun hexp => absurd (hiff.1 hexp) (Nat.not_lt_of_le hnow)
        · rw [liveAt_eq_none]
          · simpa using hnow
          · intro n hn
            rw [hlookup] at hn
            cases hn
            exact hiff.2 (Nat.lt_of_not_le hnow)

/-- GET replies with the string that it finds, or with null. -/
theorem getCommand {head : ArgListNode} {id : ℕ} {key : List UInt8} {rest : List (List UInt8)}
    {reply : Reply} {args : ArgList}
    (hrun : getCommand (head :: argsFrom id (key :: rest)) s = .ok ((reply, args), t)) :
    ∃ val, onKeyspace (fun ht => ht.get ⟨id, key⟩) s = .ok (val, t) ∧
      (reply.wire ≠ _Null.wire ↔ val ≠ none) := by
  obtain ⟨val, s₁, hget, hret⟩ := bind_eq_ok_iff.1 hrun
  cases val with
  | none =>
      cases hret
      exact ⟨none, hget, by simp⟩
  | some v =>
      obtain ⟨str, rfl⟩ := (h.found hget).1 v rfl
      cases hret
      exact ⟨_, hget, iff_of_true (writeBulk_ne_null str.buf) (Option.some_ne_none _)⟩

section Execute

variable {r : Request} {name : List UInt8} {rest : List (List UInt8)} {head : ArgListNode}
  {id : ℕ} {cmd : ExoCmd} {reply : Reply} {args : ArgList}
  (htokens : r.tokens = name :: rest) (hcmd : commandOf (strUpCase name) = some cmd)
  (hrun : executeCommand cmd (head :: argsFrom id rest) s = .ok ((reply, args), t))

include htokens hcmd hrun

theorem execute_set (hname : strUpCase name = ascii "SET")
    (hfits : ∀ tkn ∈ rest, tkn.length ≤ INPUT_BUFFER_SIZE) : Tracked t (p.observe r reply.wire) := by
  rw [hname] at hcmd
  cases hcmd
  rcases executeCommand_plain (by decide) (by decide) hrun with ⟨rfl, rfl⟩ | hcall
  · rw [observe_other htokens hname (wire_error_ne _)]
    exact h
  · exact h.set htokens hname hfits hcall

theorem execute_get (hname : strUpCase name = ascii "GET") : Tracked t (p.observe r reply.wire) := by
  rw [observe_get htokens hname]
  rw [hname] at hcmd
  cases hcmd
  rcases executeCommand_plain (by decide) (by decide) hrun with ⟨rfl, rfl⟩ | hcall
  · exact h
  · match rest, hcall with
    | [], hcall => cases hcall
    | key :: rest, hcall =>
        obtain ⟨val, hget, -⟩ := h.getCommand hcall
        exact h.get hget

theorem execute_del (hname : strUpCase name = ascii "DEL") : Tracked t (p.observe r reply.wire) := by
  rw [observe_del htokens hname]
  rw [hname] at hcmd
  cases hcmd
  rcases executeCommand_plain (by decide) (by decide) hrun with ⟨rfl, rfl⟩ | hcall
  · exact h.mono Finset.sdiff_subset
  · rw [callCommand, delCommand] at hcall
    split at hcall
    · cases hcall
      exact h.mono Finset.sdiff_subset
    · obtain ⟨n, s₁, hkeys, hret⟩ := bind_eq_ok_iff.1 hcall
      cases hret
      have ht := h.delKeys hkeys
      rwa [List.tail_cons, bytes_argsFrom] at ht

theorem execute_flush (hname : strUpCase name = ascii "FLUSHALL") :
    Tracked t (p.observe r reply.wire) := by
  rw [observe_flush htokens hname]
  rw [hname] at hcmd
  cases hcmd
  rcases executeCommand_plain (by decide) (by decide) hrun with ⟨rfl, rfl⟩ | hcall
  · rw [if_neg (wire_error_ne _)]
    exact h
  · obtain ⟨rfl, ht⟩ := h.flush hcall
    exact ht

theorem execute_save (hname : strUpCase name = ascii "SAVE") :
    Tracked t (p.observe r reply.wire) := by
  rw [observe_save htokens hname]
  rw [hname] at hcmd
  cases hcmd
  obtain ⟨reply', s₁, hsave, hret⟩ := bind_eq_ok_iff.1 hrun
  cases hret
  rcases h.save hsave with ⟨rfl, rfl⟩ | ⟨rfl, ht⟩
  · exact h
  · exact ht

theorem execute_load (hname : strUpCase name = ascii "LOADDB")
    (hempty : ∀ i < INITIAL_SIZE, s.HASH_TABLE.buckets i = []) :
    Tracked t (p.observe r reply.wire) ∧
      ∀ key ∈ p.saved, t.HASH_TABLE.lookup key ≠ none ↔ s.now ≤ DEFAULT_EXPIRY_MS := by
  rw [observe_load htokens hname]
  rw [hname] at hcmd
  cases hcmd
  obtain ⟨ret, s₁, hload, hret⟩ := bind_eq_ok_iff.1 hrun
  cases hret
  exact h.load hempty hload

/-- The command of a request, in the state in which it starts. -/
theorem execute (hname : strUpCase name ∈ stringCommands)
    (hfits : ∀ tkn ∈ rest, tkn.length ≤ INPUT_BUFFER_SIZE)
    (hempty : strUpCase name = ascii "LOADDB" →
      ∀ i < INITIAL_SIZE, s.HASH_TABLE.buckets i = []) :
    Tracked t (p.observe r reply.wire) := by
  simp only [stringCommands, List.mem_cons, List.not_mem_nil, or_false] at hname
  rcases hname with hname | hname | hname | hname | hname | hname
  · exact h.execute_set htokens hcmd hrun hname hfits
  · exact h.execute_get htokens hcmd hrun hname
  · exact h.execute_del htokens hcmd hrun hname
  · exact h.execute_flush htokens hcmd hrun hname
  · exact h.execute_save htokens hcmd hrun hname
  · exact (h.execute_load htokens hcmd hrun hname (hempty hname)).1

end Execute

end Tracked

namespace Tracked

variable {p : Lasting} (h : Tracked s p) {r : Request} {output : List UInt8}

include h

/-- What an answered request on strings has executed. -/
theorem serve_command (hr : Admissible s r) (hrun : server s r = .ok (output, t)) :
    ∃ name rest cmd reply args u, r.tokens = name :: rest ∧ strUpCase name ∈ stringCommands ∧
      commandOf (strUpCase name) = some cmd ∧
      executeCommand cmd (newArg ⟨s.nextId, strUpCase name⟩ :: argsFrom (s.nextId + 1) rest)
        (Exoredis.commandState s r) = .ok ((reply, args), u) ∧
      (∀ I, Insensitive I → I u → I t) ∧ output = reply.wire := by
  obtain ⟨name, rest, htokens, hcases⟩ :=
    serve_cases (s := { s with now := r.now }) ⟨h.ready.keyed, h.ready.lookup⟩ hrun
  have hname : strUpCase name ∈ stringCommands := by
    obtain ⟨name', hmem, heq⟩ := hr.command
    rw [htokens] at heq
    cases heq
    exact hmem
  have hknown : ∀ name ∈ stringCommands, commandOf name ≠ none := by decide
  rcases hcases with ⟨hnone, -⟩ | ⟨cmd, reply, args, u, hcmd, hexec, hafter, hout⟩
  · exact absurd hnone (hknown _ hname)
  · exact ⟨name, rest, cmd, reply, args, u, htokens, hname, hcmd, hexec, hafter, hout⟩

theorem step (hr : Admissible s r) (hrun : server s r = .ok (output, t)) :
    Tracked t (p.observe r output) := by
  obtain ⟨name, rest, cmd, reply, args, u, htokens, hname, hcmd, hexec, hafter, rfl⟩ :=
    h.serve_command hr hrun
  refine hafter _ (insensitive_tracked _)
    ((h.commandState hr.clock).execute htokens hcmd hexec hname (fun tkn htkn => ?_) fun hload => ?_)
  · exact hr.fits tkn (htokens ▸ List.mem_cons_of_mem _ htkn)
  · refine hr.load ?_
    rw [htokens, List.head?_cons, Option.map_some, hload]

/-- A GET of a live key is answered with its value up to `DEFAULT_EXPIRY_MS`. -/
theorem step_get (hr : Admissible s r) (hrun : server s r = .ok (output, t)) {name key : List UInt8}
    (htokens : r.tokens = [name, key]) (hget : strUpCase name = ascii "GET") (hkey : key ∈ p.live) :
    output ≠ _Null.wire ↔ r.now ≤ DEFAULT_EXPIRY_MS := by
  obtain ⟨name', rest, cmd, reply, args, u, htokens', -, hcmd, hexec, -, rfl⟩ :=
    h.serve_command hr hrun
  rw [htokens] at htokens'
  cases htokens'
  rw [hget] at hcmd
  cases hcmd
  rw [executeCommand_run (by decide) (by decide) rfl] at hexec
  have hs := h.commandState hr.clock
  obtain ⟨val, hfound, hreply⟩ := hs.getCommand hexec
  rw [hreply]
  exact (hs.found hfound).2 hkey

/-- A LOADDB restores the saved keys up to `DEFAULT_EXPIRY_MS`. -/
theorem step_load (hr : Admissible s r) (hrun : server s r = .ok (output, t))
    (hload : r.tokens.head?.map strUpCase = some (ascii "LOADDB")) :
    ∀ key ∈ p.saved, t.HASH_TABLE.lookup key ≠ none ↔ r.now ≤ DEFAULT_EXPIRY_MS := by
  obtain ⟨name, rest, cmd, reply, args, u, htokens, -, hcmd, hexec, hafter, -⟩ :=
    h.serve_command hr hrun
  have hname : strUpCase name = ascii "LOADDB" := by
    rw [htokens] at hload
    exact Option.some.inj hload
  have hu := ((h.commandState hr.clock).execute_load htokens hcmd hexec hname (hr.load hload)).2
  exact hafter (fun u => ∀ key ∈ p.saved,
    u.HASH_TABLE.lookup key ≠ none ↔ r.now ≤ DEFAULT_EXPIRY_MS) (fun _ _ _ _ _ h => h) hu

end Tracked

theorem tracked_started {coins : ℕ → ℕ} (hstart : startUp coins none = .ok s) :
    Tracked s ⟨∅, ∅⟩ := by
  obtain ⟨u, hrun, hready⟩ := startUp_run coins none
  rw [hrun] at hstart
  obtain rfl := Except.ok.inj hstart
  have hstrings : Strings (HashTable.newHashTable : HashTable ExoVal) :=
    HashTable.keyed_newHashTable.strings fun k node hnode => by cases hnode
  refine ⟨hready, hstrings, fun key hkey => absurd hkey (Finset.notMem_empty key), ?_,
    fun _ => rfl⟩
  intro fp hfp
  cases hfp

instance (s : Server) (r : Request) : Decidable (Admissible s r) :=
  decidable_of_iff
    (s.now ≤ r.now ∧ (∃ name ∈ stringCommands, r.tokens.head?.map strUpCase = some name) ∧
      (∀ tkn ∈ r.tokens, tkn.length ≤ INPUT_BUFFER_SIZE) ∧
      (r.tokens.head?.map strUpCase = some (ascii "LOADDB") →
        ∀ i < INITIAL_SIZE, s.HASH_TABLE.buckets i = []))
    ⟨fun h => ⟨h.1, h.2.1, h.2.2.1, h.2.2.2⟩, fun h => ⟨h.clock, h.command, h.fits, h.load⟩⟩

/-- A key that loses its expiry, and comes back from a dump. -/
def lastingRun : List Request :=
  [request ["SET", "k", "v", "EX", "1"], request ["SET", "k", "v"], request ["SAVE"],
    request ["DEL", "k"], request ["LOADDB"]]

def getLate (now : ℕ) : Request := ⟨now, [ascii "GET", ascii "k"]⟩

/-- A run and the GET behind it. -/
theorem run_getLate {rs : List Request} {now : ℕ} {os : List (List UInt8)} {output : List UInt8}
    (hos : (server.run (started (fun _ => 0) none) rs).map Prod.fst = .ok os)
    (houtput : (server.run (started (fun _ => 0) none) (rs ++ [getLate now])).map Prod.fst =
      .ok (os ++ [output])) :
    ∃ t t', server.run (started (fun _ => 0) none) rs = .ok (os, t) ∧
      server t (getLate now) = .ok (output, t') := by
  cases hrun : server.run (started (fun _ => 0) none) rs with
  | error e =>
      rw [hrun] at hos
      cases hos
  | ok p =>
      obtain ⟨os', t⟩ := p
      rw [hrun] at hos
      obtain rfl : os' = os := Except.ok.inj hos
      rw [Machine.run_append_of_ok hrun, Machine.run] at houtput
      cases hstep : server t (getLate now) with
      | error e =>
          rw [hstep] at houtput
          cases houtput
      | ok q =>
          rw [hstep] at houtput
          have hq : os' ++ [q.1] = os' ++ [output] := Except.ok.inj houtput
          obtain rfl : q.1 = output := by simpa using hq
          exact ⟨t, q.2, rfl, hstep⟩

end Exoredis
