import Exoredis.Keyspace.Table

/-!
# Keyed tables

A table is keyed if no two of its nodes have the same key and every node lies in
the bucket of its key. It then stands for the map `lookup`, and taking a node out
of a bucket, replacing it or appending one updates the map at one key.
-/

namespace Exoredis

variable {V : Type}

namespace HashTable

structure Keyed (ht : HashTable V) : Prop where
  unfreed : ht.Unfreed
  nonempty : ∀ i, ∀ node ∈ ht.buckets i, node.key.buf ≠ []
  placed : ∀ i, ∀ node ∈ ht.buckets i, keyHash node.key.buf = i
  distinct : ∀ i, ((ht.buckets i).map fun node => node.key.buf).Nodup

/-- The node of a key. -/
def lookup (ht : HashTable V) (key : List UInt8) : Option (ListNode V) :=
  (ht.cursor key).map Cursor.node

variable {ht : HashTable V} {key : List UInt8} {c : Cursor V} {node : ListNode V}

theorem map_node_cursorOf (key : List UInt8) (list : List (ListNode V)) :
    (cursorOf key list).map Cursor.node = list.find? fun node => node.key.buf = key := by
  induction list with
  | nil => rfl
  | cons tmp list ih =>
      rw [cursorOf, List.find?_cons]
      by_cases htmp : tmp.key.buf = key
      · simp [htmp]
      · simp only [htmp, if_false, decide_false, Option.map_map]
        exact ih

theorem lookup_eq_find? (ht : HashTable V) (key : List UInt8) :
    ht.lookup key = (ht.buckets (keyHash key)).find? fun node => node.key.buf = key :=
  map_node_cursorOf key _

theorem cursor_eq_none_iff : ht.cursor key = none ↔ ht.lookup key = none := by
  rw [lookup, Option.map_eq_none_iff]

theorem lookup_of_cursor (hc : ht.cursor key = some c) : ht.lookup key = some c.node := by
  rw [lookup, hc]
  rfl

theorem cursor_of_lookup (h : ht.lookup key = some node) :
    ∃ c, ht.cursor key = some c ∧ c.node = node := by
  rwa [lookup, Option.map_eq_some_iff] at h

theorem mem_of_lookup (h : ht.lookup key = some node) :
    node ∈ ht.buckets (keyHash key) ∧ node.key.buf = key := by
  rw [lookup_eq_find?] at h
  exact ⟨List.mem_of_find?_eq_some h, by simpa using List.find?_some h⟩

theorem lookup_putBucket (list : List (ListNode V)) (k : List UInt8) :
    (ht.putBucket key list).lookup k =
      if keyHash k = keyHash key then list.find? fun node => node.key.buf = k
      else ht.lookup k := by
  rw [lookup_eq_find?, putBucket, setBucket_buckets, Function.update_apply]
  split
  · rfl
  · rw [lookup_eq_find?]

theorem keyed_newHashTable : (newHashTable : HashTable V).Keyed where
  unfreed := by simp [Unfreed, newHashTable]
  nonempty := by simp [newHashTable]
  placed := by simp [newHashTable]
  distinct := by simp [newHashTable]

theorem lookup_newHashTable (key : List UInt8) :
    (newHashTable : HashTable V).lookup key = none := rfl

namespace Keyed

theorem mem_iff_lookup (h : ht.Keyed) {i : ℕ} :
    node ∈ ht.buckets i ↔ keyHash node.key.buf = i ∧ ht.lookup node.key.buf = some node := by
  constructor
  · intro hnode
    obtain rfl := h.placed i node hnode
    refine ⟨rfl, ?_⟩
    cases hl : ht.lookup node.key.buf with
    | none =>
        rw [lookup_eq_find?, List.find?_eq_none] at hl
        simpa using hl node hnode
    | some node' =>
        obtain ⟨hmem, hkey⟩ := mem_of_lookup hl
        rw [List.inj_on_of_nodup_map (h.distinct _) hmem hnode hkey]
  · rintro ⟨rfl, hl⟩
    exact (mem_of_lookup hl).1

/-- The tables that differ in the bucket of one key only. -/
theorem putBucket (h : ht.Keyed) {list : List (ListNode V)}
    (hlist : ∀ node ∈ list, node.freed = false ∧ node.key.buf ≠ [] ∧
      keyHash node.key.buf = keyHash key)
    (hdistinct : (list.map fun node => node.key.buf).Nodup) :
    (ht.putBucket key list).Keyed := by
  have hcases : ∀ i, (ht.putBucket key list).buckets i = ht.buckets i ∨
      i = keyHash key ∧ (ht.putBucket key list).buckets i = list := by
    intro i
    rw [HashTable.putBucket, setBucket_buckets, Function.update_apply]
    split
    · exact .inr ⟨‹_›, rfl⟩
    · exact .inl rfl
  constructor
  · intro i node hnode
    rcases hcases i with hi | ⟨-, hi⟩ <;> rw [hi] at hnode
    · exact h.unfreed i node hnode
    · exact (hlist node hnode).1
  · intro i node hnode
    rcases hcases i with hi | ⟨-, hi⟩ <;> rw [hi] at hnode
    · exact h.nonempty i node hnode
    · exact (hlist node hnode).2.1
  · intro i node hnode
    rcases hcases i with hi | ⟨rfl, hi⟩ <;> rw [hi] at hnode
    · exact h.placed i node hnode
    · exact (hlist node hnode).2.2
  · intro i
    rcases hcases i with hi | ⟨-, hi⟩ <;> rw [hi]
    · exact h.distinct i
    · exact hdistinct

theorem bucket (h : ht.Keyed) {i : ℕ} : ∀ node ∈ ht.buckets i, node.freed = false ∧
    node.key.buf ≠ [] ∧ keyHash node.key.buf = i := fun node hnode =>
  ⟨h.unfreed i node hnode, h.nonempty i node hnode, h.placed i node hnode⟩

variable (h : ht.Keyed)

include h

theorem ne_of_mem (hc : ht.cursor key = some c) {node : ListNode V}
    (hnode : node ∈ c.before ∨ node ∈ c.after) : node.key.buf ≠ key := by
  have hd := h.distinct (keyHash key)
  rw [cursor_toList hc, List.map_append, List.map_cons, List.nodup_middle,
    List.nodup_cons, (cursorOf_eq_some hc).2.1] at hd
  intro hkey
  refine hd.1 ?_
  rw [← List.map_append, ← hkey]
  exact List.mem_map_of_mem (List.mem_append.2 hnode)

/-! ### Taking a node out -/

theorem keyed_remove (hc : ht.cursor key = some c) :
    (ht.putBucket key (c.before ++ c.after)).Keyed := by
  have hb := cursor_toList hc
  have hsub : (c.before ++ c.after).Sublist (ht.buckets (keyHash key)) := by
    rw [hb]
    exact (List.Sublist.refl _).append (List.sublist_cons_self _ _)
  exact h.putBucket (fun node hnode => h.bucket node (hsub.subset hnode))
    ((h.distinct _).sublist (hsub.map _))

omit h in
theorem lookup_remove_of_ne (hc : ht.cursor key = some c) {k : List UInt8} (hk : k ≠ key) :
    (ht.putBucket key (c.before ++ c.after)).lookup k = ht.lookup k := by
  rw [lookup_putBucket]
  split
  · rename_i hhash
    have hne : ¬ c.node.key.buf = k := fun hh => hk (hh ▸ (cursorOf_eq_some hc).2.1)
    rw [lookup_eq_find?, hhash, cursor_toList hc, List.find?_append, List.find?_append,
      List.find?_cons_of_neg (by simpa using hne)]
  · rfl

theorem lookup_remove (hc : ht.cursor key = some c) (k : List UInt8) :
    (ht.putBucket key (c.before ++ c.after)).lookup k =
      if k = key then none else ht.lookup k := by
  by_cases hk : k = key
  · subst hk
    rw [lookup_putBucket, if_pos rfl, if_pos rfl]
    simp only [List.find?_eq_none, List.mem_append, decide_eq_true_eq]
    exact fun node hnode => h.ne_of_mem hc hnode
  · rw [if_neg hk, lookup_remove_of_ne hc hk]

/-! ### Replacing a node -/

variable (hnode : node.freed = false) (hkey : node.key.buf = key)

include hnode hkey

theorem keyed_replace (hc : ht.cursor key = some c) :
    (ht.putBucket key (c.before ++ node :: c.after)).Keyed := by
  have hb := cursor_toList hc
  have hd := h.distinct (keyHash key)
  have hcn : c.node ∈ ht.buckets (keyHash key) := by
    rw [hb]
    simp
  rw [hb] at hd
  refine h.putBucket (fun n hn => ?_) ?_
  · rcases List.mem_append.1 hn with hn | hn
    · exact h.bucket n (hb ▸ List.mem_append_left _ hn)
    · rcases List.mem_cons.1 hn with rfl | hn
      · refine ⟨hnode, ?_, by rw [hkey]⟩
        rw [hkey, ← (cursorOf_eq_some hc).2.1]
        exact h.nonempty _ _ hcn
      · exact h.bucket n (hb ▸ List.mem_append_right _ (List.mem_cons_of_mem _ hn))
  · simp only [List.map_append, List.map_cons, hkey] at hd ⊢
    rwa [(cursorOf_eq_some hc).2.1] at hd

omit h hnode in
/-- A node put in the place of that of its key. What comes behind it may change, too, but
not for another key. -/
theorem lookup_put (hc : ht.cursor key = some c) (rest : List (ListNode V))
    (hrest : ∀ k ≠ key, (rest.find? fun node => node.key.buf = k) =
      c.after.find? fun node => node.key.buf = k) (k : List UInt8) :
    (ht.putBucket key (c.before ++ node :: rest)).lookup k =
      if k = key then some node else ht.lookup k := by
  obtain ⟨-, hcn, hbefore⟩ := cursorOf_eq_some hc
  rw [lookup_putBucket]
  by_cases hk : k = key
  · subst hk
    have hnone : (c.before.find? fun node => node.key.buf = k) = none := by
      simpa [List.find?_eq_none] using hbefore
    rw [if_pos rfl, if_pos rfl, List.find?_append, hnone,
      List.find?_cons_of_pos (by simpa using hkey)]
    rfl
  · rw [if_neg hk]
    split
    · rename_i hhash
      have hne : ¬ c.node.key.buf = k := fun hh => hk (hh ▸ hcn)
      have hne' : ¬ node.key.buf = k := fun hh => hk (hh ▸ hkey)
      rw [lookup_eq_find?, hhash, cursor_toList hc, List.find?_append, List.find?_append,
        List.find?_cons_of_neg (by simpa using hne'),
        List.find?_cons_of_neg (by simpa using hne), hrest k hk]
    · rfl

omit h hnode in
theorem lookup_replace (hc : ht.cursor key = some c) (k : List UInt8) :
    (ht.putBucket key (c.before ++ node :: c.after)).lookup k =
      if k = key then some node else ht.lookup k :=
  lookup_put hkey hc c.after (fun _ _ => rfl) k

/-! ### Appending a node -/

theorem keyed_append (hne : key ≠ []) (hc : ht.cursor key = none) :
    (ht.putBucket key (ht.buckets (keyHash key) ++ [node])).Keyed := by
  refine h.putBucket (fun n hn => ?_) ?_
  · rcases List.mem_append.1 hn with hn | hn
    · exact h.bucket n hn
    · obtain rfl := List.mem_singleton.1 hn
      exact ⟨hnode, hkey ▸ hne, by rw [hkey]⟩
  · rw [List.map_append, List.map_singleton, List.nodup_append]
    refine ⟨h.distinct _, List.nodup_singleton _, ?_⟩
    intro a ha b hb
    obtain rfl := List.mem_singleton.1 hb
    obtain ⟨n, hn, rfl⟩ := List.mem_map.1 ha
    exact hkey ▸ cursorOf_eq_none_iff.1 hc n hn

omit h hnode in
theorem lookup_append (hc : ht.cursor key = none) (k : List UInt8) :
    (ht.putBucket key (ht.buckets (keyHash key) ++ [node])).lookup k =
      if k = key then some node else ht.lookup k := by
  rw [lookup_putBucket]
  by_cases hk : k = key
  · subst hk
    have hnone : ((ht.buckets (keyHash k)).find? fun node => node.key.buf = k) = none := by
      rw [← lookup_eq_find?, ← cursor_eq_none_iff, hc]
    rw [if_pos rfl, if_pos rfl, List.find?_append, hnone,
      List.find?_cons_of_pos (by simpa using hkey)]
    rfl
  · rw [if_neg hk]
    split
    · rename_i hhash
      have hne' : ¬ node.key.buf = k := fun hh => hk (hh ▸ hkey)
      rw [lookup_eq_find?, hhash, List.find?_append,
        List.find?_cons_of_neg (by simpa using hne')]
      simp
    · rfl

end Keyed

/-! ### Operations that end -/

namespace Keyed

variable [IsExoVal V] {key : ExoString} {ht' : HashTable V} {s t : Server}

theorem del_ok (h : ht.Keyed) {n : ℕ} (hrun : ht.del key s = .ok ((n, ht'), t)) :
    ht'.Keyed ∧ ∀ k, ht'.lookup k = if k = key.buf then none else ht.lookup k := by
  obtain ⟨-, ⟨hc, -, rfl, -⟩ | ⟨c, hc, -, rfl, -⟩⟩ := del_cases hrun
  · refine ⟨h, fun k => ?_⟩
    split
    · rename_i hk
      rw [hk, cursor_eq_none_iff.1 hc]
    · rfl
  · exact ⟨h.keyed_remove hc, h.lookup_remove hc⟩

/-- A search that comes upon an expired node deletes it and finds nothing. Any other
changes nothing. -/
theorem get_ok (h : ht.Keyed) {val : Option V} (hrun : ht.get key s = .ok ((val, ht'), t)) :
    ht'.Keyed ∧
      ((∀ node ∈ ht.lookup key.buf, ¬ node.Expired s.now) ∧
          val = (ht.lookup key.buf).map ListNode.value ∧ ht' = ht ∧ t = s ∨
        (∃ node, ht.lookup key.buf = some node ∧ node.Expired s.now) ∧ val = none ∧
          ∀ k, ht'.lookup k = if k = key.buf then none else ht.lookup k) := by
  obtain ⟨-, ⟨hc, rfl, rfl, rfl⟩ | ⟨c, hc, hlive, rfl, rfl, rfl⟩ | ⟨c, hc, hexp, rfl, rfl, -⟩⟩ :=
    get_cases hrun
  · have hnone := cursor_eq_none_iff.1 hc
    exact ⟨h, .inl ⟨by simp [hnone], by rw [hnone]; rfl, rfl, rfl⟩⟩
  · have hlookup := lookup_of_cursor hc
    refine ⟨h, .inl ⟨fun node hnode => ?_, by rw [hlookup]; rfl, rfl, rfl⟩⟩
    rw [hlookup] at hnode
    cases hnode
    exact hlive
  · exact ⟨h.keyed_remove hc, .inr ⟨⟨c.node, lookup_of_cursor hc, hexp⟩, rfl, h.lookup_remove hc⟩⟩

theorem set_ok (h : ht.Keyed) {val : V} (hrun : ht.set key val s = .ok (ht', t)) :
    ht'.Keyed ∧ ∃ node : ListNode V, node.value = val ∧
      ∀ k, ht'.lookup k = if k = key.buf then some node else ht.lookup k := by
  obtain ⟨hkey, ⟨hc, -, rfl⟩ | ⟨c, hc, -, rfl⟩⟩ := set_cases hrun
  · exact ⟨h.keyed_append rfl rfl hkey hc, newNode key val, rfl, lookup_append rfl hc⟩
  · exact ⟨h.keyed_replace (h.unfreed.node hc) rfl hc,
      { c.node with key := key, value := val }, rfl, lookup_replace rfl hc⟩

end Keyed

end HashTable

end Exoredis
