import Exoredis.Dump.Reading
import Exoredis.Keyspace.Keyed

/-!
# Tables of strings

A SET that comes upon an expired node frees it and leaves it in its bucket, at times with a
new node behind it. So in a table of strings a node that comes before another one with its key
is freed (`Strings`), and the operations on a key keep it so.
-/

namespace Exoredis

open Effect

/-- A string that a request has stored. -/
structure StringNode (node : ListNode ExoVal) : Prop where
  nonempty : node.key.buf ≠ []
  key : node.key.buf.length ≤ LOAD_BUFFER
  value : ∃ str, node.value = .bulkString str ∧ str.buf.length ≤ LOAD_BUFFER
  expiry : node.expiry < 2 ^ 64

/-- A table of strings in which a node that comes before another one with its key is
freed. -/
structure Strings (ht : HashTable ExoVal) : Prop where
  node : ∀ i, ∀ n ∈ ht.buckets i, StringNode n
  placed : ∀ i, ∀ n ∈ ht.buckets i, keyHash n.key.buf = i
  stale : ∀ i, (ht.buckets i).Pairwise fun n m => n.key.buf = m.key.buf → n.freed = true

variable {ht ht' : HashTable ExoVal} {s t : Server}

theorem StringNode.expired_iff {node : ListNode ExoVal} (h : StringNode node) (now : ℕ) :
    node.Expired now ↔ node.expiry < now := by
  obtain ⟨str, hval, -⟩ := h.value
  rw [ListNode.Expired, hval]
  exact and_iff_right rfl

theorem HashTable.Keyed.strings (h : ht.Keyed)
    (hnode : ∀ k, ∀ node ∈ ht.lookup k, StringNode node) : Strings ht where
  node i n hn := hnode _ n (h.mem_iff_lookup.1 hn).2
  placed := h.placed
  stale i := by
    refine (List.pairwise_map.1 (h.distinct i)).imp fun {n m} hne heq => ?_
    exact absurd heq hne

namespace Strings

theorem keyed (h : Strings ht) (hfreed : ht.Unfreed) : ht.Keyed where
  unfreed := hfreed
  nonempty i n hn := (h.node i n hn).nonempty
  placed := h.placed
  distinct i := by
    refine List.pairwise_map.2 ((h.stale i).imp_of_mem fun {n m} hn _ hstale heq => ?_)
    rw [hfreed i n hn] at hstale
    exact absurd (hstale heq) (by simp)

theorem of_lookup (h : Strings ht) {key : List UInt8} {node : ListNode ExoVal}
    (hlookup : ht.lookup key = some node) : StringNode node :=
  h.node _ node (HashTable.mem_of_lookup hlookup).1

/-- A table of strings with another bucket for `key`. -/
theorem putBucket (h : Strings ht) {key : List UInt8} {list : List (ListNode ExoVal)}
    (hnode : ∀ n ∈ list, StringNode n ∧ keyHash n.key.buf = keyHash key)
    (hstale : list.Pairwise fun n m => n.key.buf = m.key.buf → n.freed = true) :
    Strings (ht.putBucket key list) := by
  have hcases : ∀ i, (ht.putBucket key list).buckets i = ht.buckets i ∨
      i = keyHash key ∧ (ht.putBucket key list).buckets i = list := by
    intro i
    rw [HashTable.putBucket, HashTable.setBucket_buckets, Function.update_apply]
    split
    · exact .inr ⟨‹_›, rfl⟩
    · exact .inl rfl
  constructor
  · intro i n hn
    rcases hcases i with hi | ⟨-, hi⟩ <;> rw [hi] at hn
    · exact h.node i n hn
    · exact (hnode n hn).1
  · intro i n hn
    rcases hcases i with hi | ⟨rfl, hi⟩ <;> rw [hi] at hn
    · exact h.placed i n hn
    · exact (hnode n hn).2
  · intro i
    rcases hcases i with hi | ⟨-, hi⟩ <;> rw [hi]
    · exact h.stale i
    · exact hstale

variable (h : Strings ht) {key : List UInt8} {c : Cursor ExoVal}

include h

theorem bucket {i : ℕ} : ∀ n ∈ ht.buckets i, StringNode n ∧ keyHash n.key.buf = i :=
  fun n hn => ⟨h.node i n hn, h.placed i n hn⟩

/-- A bucket around the node of a key. -/
theorem around (hc : ht.cursor key = some c) :
    (∀ n, n ∈ c.before ∨ n = c.node ∨ n ∈ c.after →
      StringNode n ∧ keyHash n.key.buf = keyHash key) ∧
    (c.before ++ c.node :: c.after).Pairwise fun n m => n.key.buf = m.key.buf → n.freed = true := by
  have hb := HashTable.cursor_toList hc
  have hnode := h.bucket (i := keyHash key)
  have hstale := h.stale (keyHash key)
  rw [hb] at hnode hstale
  refine ⟨fun n hn => hnode n ?_, hstale⟩
  simpa using hn

/-- No other node has the key of one that is not freed. -/
theorem ne_of_mem (hc : ht.cursor key = some c) (hfreed : c.node.freed = false) :
    ∀ n, n ∈ c.before ∨ n ∈ c.after → n.key.buf ≠ key := by
  obtain ⟨-, hkey, hbefore⟩ := cursorOf_eq_some hc
  obtain ⟨-, hstale⟩ := h.around hc
  obtain ⟨-, hcons, -⟩ := List.pairwise_append.1 hstale
  rintro n (hn | hn)
  · exact hbefore n hn
  · intro heq
    have htrue := (List.pairwise_cons.1 hcons).1 n hn (hkey.trans heq.symm)
    rw [hfreed] at htrue
    cases htrue

theorem remove (hc : ht.cursor key = some c) :
    Strings (ht.putBucket key (c.before ++ c.after)) := by
  obtain ⟨hnode, hstale⟩ := h.around hc
  refine h.putBucket (fun n hn => hnode n ?_) (hstale.sublist ?_)
  · rcases List.mem_append.1 hn with hn | hn
    · exact .inl hn
    · exact .inr (.inr hn)
  · exact (List.Sublist.refl _).append (List.sublist_cons_self _ _)

/-- A node put in the place of that of its key: it is freed, or nothing with its key comes
behind it. -/
theorem put {node : ListNode ExoVal} {rest : List (ListNode ExoVal)}
    (hc : ht.cursor key = some c) (hnode : StringNode node) (hkey : node.key.buf = key)
    (hfreed : node.freed = true ∨ ∀ n ∈ rest, n.key.buf ≠ key)
    (hrest : ∀ n ∈ rest, StringNode n ∧ keyHash n.key.buf = keyHash key)
    (hstale : rest.Pairwise fun n m => n.key.buf = m.key.buf → n.freed = true)
    (hbefore : ∀ n ∈ c.before, ∀ m ∈ rest, n.key.buf = m.key.buf → n.freed = true) :
    Strings (ht.putBucket key (c.before ++ node :: rest)) := by
  obtain ⟨hall, hpairs⟩ := h.around hc
  obtain ⟨hfront, -, -⟩ := List.pairwise_append.1 hpairs
  refine h.putBucket (fun n hn => ?_) (List.pairwise_append.2 ⟨hfront, ?_, fun n hn m hm => ?_⟩)
  · rcases List.mem_append.1 hn with hn | hn
    · exact hall n (.inl hn)
    · rcases List.mem_cons.1 hn with rfl | hn
      · exact ⟨hnode, by rw [hkey]⟩
      · exact hrest n hn
  · refine List.pairwise_cons.2 ⟨fun m hm heq => ?_, hstale⟩
    rcases hfreed with hfreed | hne
    · exact hfreed
    · exact absurd (heq.symm.trans hkey) (hne m hm)
  · rcases List.mem_cons.1 hm with rfl | hm
    · intro heq
      exact absurd (heq.trans hkey) ((cursorOf_eq_some hc).2.2 n hn)
    · exact hbefore n hn m hm

theorem append {node : ListNode ExoVal} (hc : ht.cursor key = none) (hnode : StringNode node)
    (hkey : node.key.buf = key) :
    Strings (ht.putBucket key (ht.buckets (keyHash key) ++ [node])) := by
  refine h.putBucket (fun n hn => ?_) (List.pairwise_append.2 ⟨h.stale _, by simp, ?_⟩)
  · rcases List.mem_append.1 hn with hn | hn
    · exact h.bucket n hn
    · obtain rfl := List.mem_singleton.1 hn
      exact ⟨hnode, by rw [hkey]⟩
  · intro n hn m hm heq
    obtain rfl := List.mem_singleton.1 hm
    exact absurd (heq.trans hkey) (cursorOf_eq_none_iff.1 hc n hn)

end Strings

/-! ## The operations on a key -/

/-- The entry of `key` may have changed. -/
structure ChangedAt (key : List UInt8) (ht ht' : HashTable ExoVal) : Prop where
  strings : Strings ht'
  lookup : ∀ k ≠ key, ht'.lookup k = ht.lookup k

namespace Strings

variable (h : Strings ht) {key : ExoString}

include h

theorem del_ok {n : ℕ} (hrun : ht.del key s = .ok ((n, ht'), t)) :
    ChangedAt key.buf ht ht' := by
  obtain ⟨-, ⟨-, -, rfl, -⟩ | ⟨c, hc, -, rfl, -⟩⟩ := HashTable.del_cases hrun
  · exact ⟨h, fun _ _ => rfl⟩
  · exact ⟨h.remove hc, fun k hk => HashTable.Keyed.lookup_remove_of_ne hc hk⟩

/-- A search that ends has not come upon a freed node, and takes out an expired one. -/
theorem get_ok {val : Option ExoVal} (hrun : ht.get key s = .ok ((val, ht'), t)) :
    ChangedAt key.buf ht ht' ∧ (∀ node ∈ ht.lookup key.buf, node.freed = false) ∧
      (ht' = ht ∨ (∃ node, ht.lookup key.buf = some node ∧ node.Expired s.now) ∧
        ht'.lookup key.buf = none) := by
  have hfreed : ∀ node ∈ ht.lookup key.buf, node.freed = false := by
    intro node hnode
    obtain ⟨c, hc, rfl⟩ := HashTable.cursor_of_lookup hnode
    exact HashTable.find_unfreed hrun hc
  obtain ⟨-, ⟨-, -, rfl, -⟩ | ⟨c, -, -, -, rfl, -⟩ | ⟨c, hc, hexp, -, rfl, -⟩⟩ :=
    HashTable.get_cases hrun
  · exact ⟨⟨h, fun _ _ => rfl⟩, hfreed, .inl rfl⟩
  · exact ⟨⟨h, fun _ _ => rfl⟩, hfreed, .inl rfl⟩
  · have hnode := HashTable.lookup_of_cursor hc
    refine ⟨⟨h.remove hc, fun k hk => HashTable.Keyed.lookup_remove_of_ne hc hk⟩, hfreed,
      .inr ⟨⟨c.node, hnode, hexp⟩, ?_⟩⟩
    rw [HashTable.lookup_putBucket, if_pos rfl, List.find?_eq_none]
    intro n hn
    simpa using h.ne_of_mem hc (hfreed c.node hnode) n (List.mem_append.1 hn)

omit h in
theorem stringNode_entry {val : ExoString} {exp_ms now : ℕ} (hne : key.buf ≠ [])
    (hkey : key.buf.length ≤ LOAD_BUFFER) (hval : val.buf.length ≤ LOAD_BUFFER) :
    StringNode (HashTable.entry key (.bulkString val) exp_ms now) where
  nonempty := hne
  key := hkey
  value := ⟨val, rfl, hval⟩
  expiry := by
    change HashTable.expiryAt exp_ms now < 2 ^ 64
    rw [HashTable.expiryAt]
    split
    · exact Nat.mod_lt _ (by decide)
    · decide

/-- A SET that succeeds leaves its expiry in the node of its key, unless a freed node is in
the way. -/
theorem setWithExpiry_ok {val : ExoString} {exp_ms : ℕ} {nx xx : Bool} {reply : Reply}
    (hkey : key.buf.length ≤ LOAD_BUFFER) (hval : val.buf.length ≤ LOAD_BUFFER)
    (hrun : ht.setWithExpiry key (.bulkString val) exp_ms nx xx s = .ok ((reply, ht'), t)) :
    ChangedAt key.buf ht ht' ∧
      (reply = _Null ∧ (ht'.lookup key.buf = ht.lookup key.buf ∨
          ∃ node, ht'.lookup key.buf = some node ∧ node.freed = true) ∨
        reply = _OK ∧ ∃ node, ht'.lookup key.buf = some node ∧
          (node.freed = true ∨ node.expiry = HashTable.expiryAt exp_ms s.now)) := by
  obtain ⟨hne, hcases⟩ := HashTable.setWithExpiry_cases hrun
  have hentry : StringNode (HashTable.entry key (.bulkString val) exp_ms s.now) :=
    stringNode_entry hne hkey hval
  rcases hcases with ⟨rfl, rfl⟩ | ⟨hc, rfl, rfl⟩ | ⟨c, hc, hfreed, hcases⟩
  · exact ⟨⟨h, fun _ _ => rfl⟩, .inl ⟨rfl, .inl rfl⟩⟩
  · have hlookup := HashTable.Keyed.lookup_append
      (show (HashTable.entry key (.bulkString val) exp_ms s.now).key.buf = key.buf from rfl) hc
    refine ⟨⟨h.append hc hentry rfl, fun k hk => ?_⟩,
      .inr ⟨rfl, HashTable.entry key (.bulkString val) exp_ms s.now, ?_, .inr rfl⟩⟩
    · rw [hlookup, if_neg hk]
    · rw [hlookup, if_pos rfl]
  · obtain ⟨hnode, hpairs⟩ := h.around hc
    obtain ⟨-, hcons, hacross⟩ := List.pairwise_append.1 hpairs
    have hafter := (List.pairwise_cons.1 hcons).2
    have hother := h.ne_of_mem hc hfreed
    obtain ⟨-, hckey, hbefore⟩ := cursorOf_eq_some hc
    have hold := (hnode c.node (.inr (.inl rfl))).1
    have hdead : StringNode { c.node with freed := true } :=
      ⟨hold.nonempty, hold.key, hold.value, hold.expiry⟩
    have hrest : ∀ n ∈ c.after, StringNode n ∧ keyHash n.key.buf = keyHash key.buf :=
      fun n hn => hnode n (.inr (.inr hn))
    have hacross' : ∀ n ∈ c.before, ∀ m ∈ c.after, n.key.buf = m.key.buf → n.freed = true :=
      fun n hn m hm => hacross n hn m (List.mem_cons_of_mem _ hm)
    rcases hcases with ⟨-, rfl, rfl⟩ | ⟨-, rfl, rfl⟩ | ⟨rfl, rfl⟩
    · have hlookup := HashTable.Keyed.lookup_replace
        (show ({ c.node with freed := true } : ListNode ExoVal).key.buf = key.buf from hckey) hc
      refine ⟨⟨h.put hc hdead hckey (.inl rfl) hrest hafter hacross', fun k hk => ?_⟩,
        .inl ⟨rfl, .inr ⟨{ c.node with freed := true }, ?_, rfl⟩⟩⟩
      · rw [hlookup, if_neg hk]
      · rw [hlookup, if_pos rfl]
    · have hlookup := HashTable.Keyed.lookup_put
        (show ({ c.node with freed := true } : ListNode ExoVal).key.buf = key.buf from hckey) hc
        (c.after ++ [HashTable.entry key (.bulkString val) exp_ms s.now]) (by
          intro k hk
          rw [List.find?_append, List.find?_cons_of_neg, List.find?_nil, Option.or_none]
          exact fun heq => hk (of_decide_eq_true heq).symm)
      refine ⟨⟨h.put hc hdead hckey (.inl rfl) ?_ ?_ ?_, fun k hk => ?_⟩,
        .inr ⟨rfl, { c.node with freed := true }, ?_, .inl rfl⟩⟩
      · intro n hn
        rcases List.mem_append.1 hn with hn | hn
        · exact hrest n hn
        · obtain rfl := List.mem_singleton.1 hn
          exact ⟨hentry, rfl⟩
      · refine List.pairwise_append.2 ⟨hafter, by simp, fun n hn m hm heq => ?_⟩
        obtain rfl := List.mem_singleton.1 hm
        exact absurd heq (hother n (.inr hn))
      · intro n hn m hm heq
        rcases List.mem_append.1 hm with hm | hm
        · exact hacross' n hn m hm heq
        · obtain rfl := List.mem_singleton.1 hm
          exact absurd heq (hbefore n hn)
      · rw [hlookup, if_neg hk]
      · rw [hlookup, if_pos rfl]
    · have hlookup := HashTable.Keyed.lookup_replace
        (show (HashTable.entry key (.bulkString val) exp_ms s.now).key.buf = key.buf from rfl) hc
      refine ⟨⟨h.put hc hentry rfl (.inr fun n hn => hother n (.inr hn)) hrest hafter hacross',
        fun k hk => ?_⟩, .inr ⟨rfl, HashTable.entry key (.bulkString val) exp_ms s.now, ?_, .inr rfl⟩⟩
      · rw [hlookup, if_neg hk]
      · rw [hlookup, if_pos rfl]

end Strings

end Exoredis
