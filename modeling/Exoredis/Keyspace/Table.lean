import Exoredis.Ds.HashTable

/-!
# Tables as finite maps

The operations of `hashtable.c` on a table none of whose nodes is freed, in terms
of the node they find, and what they do to the map from keys to nodes that a
table stands for. In a keyed table every key has at most one node, and it lies
in the bucket of its hash.
-/

namespace Exoredis

variable {V : Type}

/-- The result of `stringHash` on a string that is not empty. -/
def hashOf (string : ℤ → UInt8) (len : ℕ) : ℕ :=
  let hash := hashForward string HASH_LEN 0 5381
  let l := min len HASH_LEN
  let hash := hashBackward string (l + 1) (l - 1) hash
  hashJump string len HASH_LEN (string 0) hash % INITIAL_SIZE

theorem stringHash_eq_hashOf {string : ℤ → UInt8} {len : ℕ} (hlen : len ≠ 0) (s : Server) :
    stringHash string len s = .ok (hashOf string len, s) := by
  rw [stringHash, if_neg hlen]
  rfl

/-- The hash of the bytes of a key. -/
@[irreducible] def keyHash (key : List UInt8) : ℕ :=
  hashOf (ExoString.memory ⟨0, key⟩) key.length

theorem keyHash_lt (key : List UInt8) : keyHash key < INITIAL_SIZE := by
  unfold keyHash
  exact Nat.mod_lt _ (by decide)

theorem stringHash_run {key : ExoString} (hkey : key.buf ≠ []) (s : Server) :
    stringHash key.memory key.len s = .ok (keyHash key.buf, s) := by
  have hlen : key.len ≠ 0 := by simpa [ExoString.len] using hkey
  rw [stringHash_eq_hashOf hlen]
  unfold keyHash
  rfl

theorem stringHash_nil {key : ExoString} (hkey : key.buf = []) (s : Server) :
    stringHash key.memory key.len s = .error .divisionByZero := by
  rw [stringHash, if_pos (by simp [ExoString.len, hkey])]
  rfl

/-- The first node with the bytes of a key. -/
def cursorOf (key : List UInt8) : List (ListNode V) → Option (Cursor V)
  | [] => none
  | tmp :: list =>
      if tmp.key.buf = key then some ⟨[], tmp, list⟩
      else (cursorOf key list).map fun c => { c with before := tmp :: c.before }

theorem cursorOf_eq_none_iff {key : List UInt8} {list : List (ListNode V)} :
    cursorOf key list = none ↔ ∀ node ∈ list, node.key.buf ≠ key := by
  induction list with
  | nil => simp [cursorOf]
  | cons tmp list ih =>
      rw [cursorOf]
      by_cases htmp : tmp.key.buf = key
      · simp [htmp]
      · simp [htmp, ih]

theorem cursorOf_eq_some {key : List UInt8} {list : List (ListNode V)} {c : Cursor V}
    (h : cursorOf key list = some c) :
    list = c.toList ∧ c.node.key.buf = key ∧ ∀ node ∈ c.before, node.key.buf ≠ key := by
  induction list generalizing c with
  | nil => simp [cursorOf] at h
  | cons tmp list ih =>
      rw [cursorOf] at h
      by_cases htmp : tmp.key.buf = key
      · rw [if_pos htmp] at h
        obtain rfl := Option.some.inj h
        exact ⟨rfl, htmp, by simp⟩
      · rw [if_neg htmp, Option.map_eq_some_iff] at h
        obtain ⟨c', hc', rfl⟩ := h
        obtain ⟨hlist, hnode, hbefore⟩ := ih hc'
        refine ⟨?_, hnode, ?_⟩
        · rw [hlist]
          rfl
        · intro node hmem
          rcases List.mem_cons.1 hmem with rfl | hmem
          · exact htmp
          · exact hbefore node hmem

theorem findNode_run {list : List (ListNode V)} (h : ∀ node ∈ list, node.freed = false)
    (key : ExoString) (s : Server) :
    findNode list key s = .ok (cursorOf key.buf list, s) := by
  induction list with
  | nil => rfl
  | cons tmp list ih =>
      have htmp : tmp.freed = false := h tmp List.mem_cons_self
      have hlist := ih fun node hnode => h node (List.mem_cons_of_mem _ hnode)
      rw [findNode, cursorOf, htmp]
      by_cases hkey : tmp.key.buf = key.buf
      · simp [hkey, ExoString.len]
      · have hne : ¬ (tmp.key.len = key.len ∧ tmp.key.buf = key.buf) := fun hh => hkey hh.2
        rw [if_neg hkey]
        simp only [Bool.false_eq_true, if_false, if_neg hne]
        rw [Effect.bind_run_ok hlist]
        cases cursorOf key.buf list <;> rfl

theorem addNodeToList_run {list : List (ListNode V)}
    (h : ∀ node ∈ list, node.freed = false) (node : ListNode V) (s : Server) :
    addNodeToList list node s = .ok (list ++ [node], s) := by
  rw [addNodeToList]
  cases hlast : list.getLast? with
  | none =>
      rw [List.getLast?_eq_none_iff] at hlast
      rw [hlast]
      rfl
  | some tail =>
      have htail : tail.freed = false := h tail (List.mem_of_getLast? hlast)
      simp only [htail, Bool.false_eq_true, if_false]
      rfl

theorem removeNodeFromList_run {c : Cursor V}
    (h : ∀ node ∈ c.after, node.freed = false) (s : Server) :
    removeNodeFromList c s = .ok (c.before ++ c.after, s) := by
  rw [removeNodeFromList]
  cases hhead : c.after.head? with
  | none =>
      rw [List.head?_eq_none_iff] at hhead
      simp [hhead]
  | some next =>
      have hnext : next.freed = false := h next (List.mem_of_head? hhead)
      simp [hnext]

theorem stringHash_ok {key : ExoString} {n : ℕ} {s t : Server}
    (hrun : stringHash key.memory key.len s = .ok (n, t)) :
    key.buf ≠ [] ∧ n = keyHash key.buf ∧ t = s := by
  by_cases hkey : key.buf = []
  · rw [stringHash_nil hkey] at hrun
    cases hrun
  · rw [stringHash_run hkey] at hrun
    cases hrun
    exact ⟨hkey, rfl, rfl⟩

theorem findNode_ok {list : List (ListNode V)} {key : ExoString} {c : Option (Cursor V)}
    {s t : Server} (hrun : findNode list key s = .ok (c, t)) :
    c = cursorOf key.buf list ∧ t = s := by
  induction list generalizing c t with
  | nil =>
      cases hrun
      exact ⟨rfl, rfl⟩
  | cons tmp list ih =>
      rw [findNode] at hrun
      cases htmp : tmp.freed with
      | true =>
          rw [htmp] at hrun
          cases hrun
      | false =>
          simp only [htmp, Bool.false_eq_true, if_false] at hrun
          by_cases hkey : tmp.key.buf = key.buf
          · rw [if_pos ⟨by rw [ExoString.len, ExoString.len, hkey], hkey⟩] at hrun
            cases hrun
            rw [cursorOf, if_pos hkey]
            exact ⟨rfl, rfl⟩
          · rw [if_neg fun h => hkey h.2] at hrun
            obtain ⟨found, s', hfound, hrest⟩ := Effect.bind_eq_ok_iff.1 hrun
            obtain ⟨rfl, rfl⟩ := ih hfound
            rw [cursorOf, if_neg hkey]
            cases hcursor : cursorOf key.buf list with
            | none =>
                rw [hcursor] at hrest
                cases hrest
                exact ⟨rfl, rfl⟩
            | some c' =>
                rw [hcursor] at hrest
                cases hrest
                exact ⟨rfl, rfl⟩

/-- A node that was found is not freed. -/
theorem findNode_unfreed {list : List (ListNode V)} {key : ExoString} {c : Cursor V}
    {s t : Server} (hrun : findNode list key s = .ok (some c, t)) : c.node.freed = false := by
  induction list generalizing c t with
  | nil => cases hrun
  | cons tmp list ih =>
      rw [findNode] at hrun
      cases htmp : tmp.freed with
      | true =>
          rw [htmp] at hrun
          cases hrun
      | false =>
          simp only [htmp, Bool.false_eq_true, if_false] at hrun
          by_cases hkey : tmp.key.len = key.len ∧ tmp.key.buf = key.buf
          · rw [if_pos hkey] at hrun
            cases hrun
            exact htmp
          · rw [if_neg hkey] at hrun
            obtain ⟨found, s', hfound, hrest⟩ := Effect.bind_eq_ok_iff.1 hrun
            cases found with
            | none => cases hrest
            | some c' =>
                cases hrest
                have hnode : c'.node.freed = false := ih hfound
                exact hnode

theorem addNodeToList_ok {list list' : List (ListNode V)} {node : ListNode V} {s t : Server}
    (hrun : addNodeToList list node s = .ok (list', t)) : list' = list ++ [node] ∧ t = s := by
  rw [addNodeToList] at hrun
  cases hlast : list.getLast? with
  | none =>
      rw [hlast] at hrun
      cases hrun
      rw [List.getLast?_eq_none_iff.1 hlast]
      exact ⟨rfl, rfl⟩
  | some tail =>
      simp only [hlast] at hrun
      cases htail : tail.freed with
      | true =>
          rw [htail] at hrun
          cases hrun
      | false =>
          rw [htail] at hrun
          cases hrun
          exact ⟨rfl, rfl⟩

theorem removeNodeFromList_ok {c : Cursor V} {list : List (ListNode V)} {s t : Server}
    (hrun : removeNodeFromList c s = .ok (list, t)) : list = c.before ++ c.after ∧ t = s := by
  rw [removeNodeFromList] at hrun
  cases hhead : c.after.head? with
  | none =>
      rw [hhead] at hrun
      cases hrun
      rw [List.head?_eq_none_iff.1 hhead, List.append_nil]
      exact ⟨rfl, rfl⟩
  | some next =>
      simp only [hhead] at hrun
      cases hnext : next.freed with
      | true =>
          rw [hnext] at hrun
          cases hrun
      | false =>
          rw [hnext] at hrun
          cases hrun
          exact ⟨rfl, rfl⟩

namespace HashTable

/-- No node of the table is freed. -/
def Unfreed (ht : HashTable V) : Prop := ∀ i, ∀ node ∈ ht.buckets i, node.freed = false

/-- The node that a search for `key` finds. -/
def cursor (ht : HashTable V) (key : List UInt8) : Option (Cursor V) :=
  cursorOf key (ht.buckets (keyHash key))

/-- The table with another bucket for `key`. -/
def putBucket (ht : HashTable V) (key : List UInt8) (list : List (ListNode V)) :
    HashTable V :=
  ht.setBucket (keyHash key) list

variable {ht : HashTable V} {c : Cursor V}

theorem cursor_toList {key : List UInt8} (hc : ht.cursor key = some c) :
    ht.buckets (keyHash key) = c.before ++ c.node :: c.after :=
  (cursorOf_eq_some hc).1

theorem Unfreed.node {key : List UInt8} (h : ht.Unfreed) (hc : ht.cursor key = some c) :
    c.node.freed = false := by
  refine h (keyHash key) c.node ?_
  rw [cursor_toList hc]
  simp

theorem Unfreed.after {key : List UInt8} (h : ht.Unfreed) (hc : ht.cursor key = some c) :
    ∀ node ∈ c.after, node.freed = false := by
  intro node hnode
  refine h (keyHash key) node ?_
  rw [cursor_toList hc]
  simp [hnode]

/-- What every operation on a key begins with. -/
theorem Unfreed.find (h : ht.Unfreed) {key : ExoString} (hkey : key.buf ≠ []) {α : Type}
    (f : ℕ → Option (Cursor V) → Exo α) (s : Server) :
    (do let str_hash ← stringHash key.memory key.len
        let found ← findNode (ht.buckets str_hash) key
        f str_hash found : Exo α) s = f (keyHash key.buf) (ht.cursor key.buf) s := by
  rw [Effect.bind_run_ok (stringHash_run hkey s), Effect.bind_run_ok (findNode_run (h _) key s)]
  rfl

theorem setFromLoad_expired {key : ExoString} {s : Server} {exp_ms : ℕ} (hexp : exp_ms < s.now) (val : V) :
    ht.setFromLoad key val exp_ms s = .ok ((_OK, ht), s) := by
  rw [setFromLoad, timeStamp, bind_assoc, Effect.bind_run_ok (Effect.get_run s),
    Effect.bind_run_ok (Effect.pure_run _ s), if_pos hexp]
  rfl

theorem setFromLoad_live {key : ExoString} {s : Server} (h : ht.Unfreed) (hkey : key.buf ≠ []) {exp_ms : ℕ}
    (hexp : s.now ≤ exp_ms) (val : V) :
    ht.setFromLoad key val exp_ms s =
      .ok ((_OK, ht.putBucket key.buf (ht.buckets (keyHash key.buf) ++
        [{ newNode key val with expiry := exp_ms }])), s) := by
  rw [setFromLoad, timeStamp, bind_assoc, Effect.bind_run_ok (Effect.get_run s),
    Effect.bind_run_ok (Effect.pure_run _ s), if_neg (by omega)]
  rw [Effect.bind_run_ok (stringHash_run hkey s),
    Effect.bind_run_ok (addNodeToList_run (h _) _ s)]
  rfl

end HashTable

variable [IsExoVal V]

/-- The values of strings expire, and this one did before `now`. -/
def ListNode.Expired (node : ListNode V) (now : ℕ) : Prop :=
  (IsExoVal.toExoVal node.value).ds_type = BULKSTRING ∧ node.expiry < now

instance (node : ListNode V) (now : ℕ) : Decidable (node.Expired now) :=
  inferInstanceAs (Decidable (_ ∧ _))

theorem not_expired_bitmap {node : ListNode ExoVal} {bm_node : BitmapNode}
    (h : node.value = .bitmap bm_node) (now : ℕ) : ¬ node.Expired now := by
  rintro ⟨htype, -⟩
  rw [h] at htype
  change BITMAP = BULKSTRING at htype
  exact absurd htype (by decide)

theorem isExpired_run (node : ListNode V) (s : Server) :
    isExpired node s = .ok (decide (node.Expired s.now), s) := by
  rw [isExpired]
  by_cases h : (IsExoVal.toExoVal node.value).ds_type = BULKSTRING
  · rw [if_neg (by simpa using h)]
    rw [timeStamp]
    simp [ListNode.Expired, h, Except.map]
  · rw [if_pos h]
    simp [ListNode.Expired, h]

/-- The key is freed and the value becomes garbage. -/
def Server.release (s : Server) (key : ExoString) (val : V) : Server :=
  { s with
    freed := key.id :: s.freed
    GARBAGE_LIST := s.GARBAGE_LIST ++ [IsExoVal.toExoVal val] }

theorem freeListNode_run {node : ListNode V} (h : node.freed = false) (s : Server) :
    freeListNode node s = .ok ((), s.release node.key node.value) := by
  rw [freeListNode, h]
  rfl

theorem replaceNodeValue_run (node : ListNode V) (newkey : ExoString) (newval : V)
    (s : Server) :
    replaceNodeValue node newkey newval s =
      .ok ({ node with key := newkey, value := newval }, s.release node.key node.value) := rfl

namespace HashTable

variable {ht : HashTable V} {key : ExoString} {c : Cursor V} {s : Server}

theorem del_missing (h : ht.Unfreed) (hkey : key.buf ≠ []) (hc : ht.cursor key.buf = none) :
    ht.del key s = .ok ((0, ht), s) := by
  rw [del, h.find hkey, hc]
  rfl

theorem del_found (h : ht.Unfreed) (hkey : key.buf ≠ []) (hc : ht.cursor key.buf = some c) :
    ht.del key s =
      .ok ((if c.node.Expired s.now then 0 else 1,
        ht.putBucket key.buf (c.before ++ c.after)), s.release c.node.key c.node.value) := by
  rw [del, h.find hkey, hc]
  simp only
  rw [Effect.bind_run_ok (isExpired_run c.node s),
    Effect.bind_run_ok (removeNodeFromList_run (h.after hc) s),
    Effect.bind_run_ok (freeListNode_run (h.node hc) s)]
  simp [putBucket]

theorem get_missing (h : ht.Unfreed) (hkey : key.buf ≠ []) (hc : ht.cursor key.buf = none) :
    ht.get key s = .ok ((none, ht), s) := by
  rw [get, h.find hkey, hc]
  rfl

theorem get_live (h : ht.Unfreed) (hkey : key.buf ≠ []) (hc : ht.cursor key.buf = some c)
    (hlive : ¬ c.node.Expired s.now) :
    ht.get key s = .ok ((some c.node.value, ht), s) := by
  rw [get, h.find hkey, hc]
  simp only
  rw [Effect.bind_run_ok (isExpired_run c.node s)]
  simp [hlive]

theorem get_expired (h : ht.Unfreed) (hkey : key.buf ≠ []) (hc : ht.cursor key.buf = some c)
    (hexp : c.node.Expired s.now) :
    ht.get key s =
      .ok ((none, ht.putBucket key.buf (c.before ++ c.after)),
        s.release c.node.key c.node.value) := by
  rw [get, h.find hkey, hc]
  simp only
  rw [Effect.bind_run_ok (isExpired_run c.node s)]
  simp only [hexp, decide_true, if_true]
  rw [Effect.bind_run_ok (del_found h hkey hc)]
  rfl

theorem set_missing (h : ht.Unfreed) (hkey : key.buf ≠ []) (hc : ht.cursor key.buf = none)
    (val : V) :
    ht.set key val s =
      .ok (ht.putBucket key.buf (ht.buckets (keyHash key.buf) ++ [newNode key val]), s) := by
  rw [set, h.find hkey, hc]
  simp only
  rw [Effect.bind_run_ok (addNodeToList_run (h _) _ s)]
  rfl

theorem set_found (h : ht.Unfreed) (hkey : key.buf ≠ []) (hc : ht.cursor key.buf = some c)
    (val : V) :
    ht.set key val s =
      .ok (ht.putBucket key.buf (c.before ++ { c.node with key := key, value := val } :: c.after),
        s.release c.node.key c.node.value) := by
  rw [set, h.find hkey, hc]
  rfl

/-- The node that `setWithExpiry` makes at time `now`. -/
def entry (key : ExoString) (val : V) (exp_ms now : ℕ) : ListNode V :=
  { newNode key val with expiry := expiryAt exp_ms now }

variable {exp_ms : ℕ} {nx xx : Bool}

theorem setWithExpiry_missing (h : ht.Unfreed) (hkey : key.buf ≠ [])
    (hc : ht.cursor key.buf = none) (val : V) :
    ht.setWithExpiry key val exp_ms nx xx s =
      .ok (if xx then (_Null, ht) else (_OK, ht.putBucket key.buf
        (ht.buckets (keyHash key.buf) ++ [entry key val exp_ms s.now])), s) := by
  rw [setWithExpiry, timeStamp, bind_assoc, Effect.bind_run_ok (Effect.get_run s),
    Effect.bind_run_ok (Effect.pure_run _ s), h.find hkey, hc]
  cases xx with
  | true => rfl
  | false =>
      simp only [Bool.false_eq_true, if_false]
      rw [Effect.bind_run_ok (addNodeToList_run (h _) _ s)]
      rfl

theorem setWithExpiry_live (h : ht.Unfreed) (hkey : key.buf ≠ [])
    (hc : ht.cursor key.buf = some c) (hlive : ¬ c.node.Expired s.now) (val : V) :
    ht.setWithExpiry key val exp_ms nx xx s =
      .ok (if nx then ((_Null, ht), s) else
        ((_OK, ht.putBucket key.buf (c.before ++
          { entry key val exp_ms s.now with freed := c.node.freed } :: c.after)),
          s.release c.node.key c.node.value)) := by
  rw [setWithExpiry, timeStamp, bind_assoc, Effect.bind_run_ok (Effect.get_run s),
    Effect.bind_run_ok (Effect.pure_run _ s), h.find hkey, hc]
  simp only
  rw [Effect.bind_run_ok (isExpired_run c.node s)]
  simp only [hlive, decide_false, Bool.false_eq_true, if_false]
  cases nx <;> rfl

end HashTable

/-! ## Operations that end -/

namespace HashTable

variable {ht ht' : HashTable V} {key : ExoString} {s t : Server}

omit [IsExoVal V] in
/-- What every operation on a key that ends has begun with. -/
theorem find_ok {α : Type} {f : ℕ → Option (Cursor V) → Exo α} {a : α}
    (hrun : (do let str_hash ← stringHash key.memory key.len
                let found ← findNode (ht.buckets str_hash) key
                f str_hash found : Exo α) s = .ok (a, t)) :
    key.buf ≠ [] ∧ f (keyHash key.buf) (ht.cursor key.buf) s = .ok (a, t) := by
  obtain ⟨n, s₁, hhash, hrest⟩ := Effect.bind_eq_ok_iff.1 hrun
  obtain ⟨hkey, rfl, rfl⟩ := stringHash_ok hhash
  obtain ⟨found, s₂, hfind, hf⟩ := Effect.bind_eq_ok_iff.1 hrest
  obtain ⟨rfl, rfl⟩ := findNode_ok hfind
  exact ⟨hkey, hf⟩

omit [IsExoVal V] in
theorem find_unfreed {α : Type} {f : ℕ → Option (Cursor V) → Exo α} {a : α} {c : Cursor V}
    (hrun : (do let str_hash ← stringHash key.memory key.len
                let found ← findNode (ht.buckets str_hash) key
                f str_hash found : Exo α) s = .ok (a, t))
    (hc : ht.cursor key.buf = some c) : c.node.freed = false := by
  obtain ⟨n, s₁, hhash, hrest⟩ := Effect.bind_eq_ok_iff.1 hrun
  obtain ⟨hkey, rfl, rfl⟩ := stringHash_ok hhash
  obtain ⟨found, s₂, hfind, hf⟩ := Effect.bind_eq_ok_iff.1 hrest
  obtain ⟨hfound, rfl⟩ := findNode_ok hfind
  rw [show found = some c from hfound.trans hc] at hfind
  exact findNode_unfreed hfind

theorem del_cases {n : ℕ} (hrun : ht.del key s = .ok ((n, ht'), t)) :
    key.buf ≠ [] ∧
      (ht.cursor key.buf = none ∧ n = 0 ∧ ht' = ht ∧ t = s ∨
        ∃ c, ht.cursor key.buf = some c ∧ n = (if c.node.Expired s.now then 0 else 1) ∧
          ht' = ht.putBucket key.buf (c.before ++ c.after) ∧
          t = s.release c.node.key c.node.value) := by
  obtain ⟨hkey, hrest⟩ := find_ok hrun
  refine ⟨hkey, ?_⟩
  cases hc : ht.cursor key.buf with
  | none =>
      rw [hc] at hrest
      cases hrest
      exact .inl ⟨rfl, rfl, rfl, rfl⟩
  | some c =>
      rw [hc] at hrest
      simp only at hrest
      rw [Effect.bind_run_ok (isExpired_run c.node s)] at hrest
      obtain ⟨list, s₁, hremove, hrest⟩ := Effect.bind_eq_ok_iff.1 hrest
      obtain ⟨rfl, hs₁⟩ := removeNodeFromList_ok hremove
      obtain ⟨_, s₂, hfree, hrest⟩ := Effect.bind_eq_ok_iff.1 hrest
      cases hfreed : c.node.freed with
      | true =>
          rw [freeListNode, hfreed] at hfree
          cases hfree
      | false =>
          rw [freeListNode_run hfreed] at hfree
          cases hfree
          cases hrest
          subst hs₁
          exact .inr ⟨c, rfl, by simp, rfl, rfl⟩

/-- A search finds nothing, a live node, or an expired one, which it deletes. -/
theorem get_cases {val : Option V} (hrun : ht.get key s = .ok ((val, ht'), t)) :
    key.buf ≠ [] ∧
      (ht.cursor key.buf = none ∧ val = none ∧ ht' = ht ∧ t = s ∨
        (∃ c, ht.cursor key.buf = some c ∧ ¬ c.node.Expired s.now ∧ val = some c.node.value ∧
          ht' = ht ∧ t = s) ∨
        ∃ c, ht.cursor key.buf = some c ∧ c.node.Expired s.now ∧ val = none ∧
          ht' = ht.putBucket key.buf (c.before ++ c.after) ∧
          t = s.release c.node.key c.node.value) := by
  obtain ⟨hkey, hrest⟩ := find_ok hrun
  refine ⟨hkey, ?_⟩
  cases hc : ht.cursor key.buf with
  | none =>
      rw [hc] at hrest
      cases hrest
      exact .inl ⟨rfl, rfl, rfl, rfl⟩
  | some c =>
      rw [hc] at hrest
      simp only at hrest
      rw [Effect.bind_run_ok (isExpired_run c.node s)] at hrest
      by_cases hexp : c.node.Expired s.now
      · rw [decide_eq_true hexp, if_pos rfl] at hrest
        obtain ⟨⟨n, ht₁⟩, s₁, hdel, hrest⟩ := Effect.bind_eq_ok_iff.1 hrest
        cases hrest
        obtain ⟨-, ⟨hnone, -⟩ | ⟨c', hc', -, hht, ht⟩⟩ := del_cases hdel
        · rw [hc] at hnone
          cases hnone
        · rw [hc] at hc'
          cases hc'
          exact .inr (.inr ⟨c, rfl, hexp, rfl, hht, ht⟩)
      · rw [decide_eq_false hexp, if_neg (by simp)] at hrest
        cases hrest
        exact .inr (.inl ⟨c, rfl, hexp, rfl, rfl, rfl⟩)

theorem set_cases {val : V} (hrun : ht.set key val s = .ok (ht', t)) :
    key.buf ≠ [] ∧
      (ht.cursor key.buf = none ∧ t = s ∧
          ht' = ht.putBucket key.buf (ht.buckets (keyHash key.buf) ++ [newNode key val]) ∨
        ∃ c, ht.cursor key.buf = some c ∧ t = s.release c.node.key c.node.value ∧
          ht' = ht.putBucket key.buf
            (c.before ++ { c.node with key := key, value := val } :: c.after)) := by
  obtain ⟨hkey, hrest⟩ := find_ok hrun
  refine ⟨hkey, ?_⟩
  cases hc : ht.cursor key.buf with
  | none =>
      rw [hc] at hrest
      obtain ⟨list, s₁, hadd, hend⟩ := Effect.bind_eq_ok_iff.1 hrest
      obtain ⟨rfl, rfl⟩ := addNodeToList_ok hadd
      cases hend
      exact .inl ⟨rfl, rfl, rfl⟩
  | some c =>
      rw [hc] at hrest
      cases hrest
      exact .inr ⟨c, rfl, rfl, rfl⟩

/-- SET gives up, appends a node or replaces one. An expired node is freed where it is, and
stays in front of the node that is appended. -/
theorem setWithExpiry_cases {val : V} {exp_ms : ℕ} {nx xx : Bool} {reply : Reply}
    (hrun : ht.setWithExpiry key val exp_ms nx xx s = .ok ((reply, ht'), t)) :
    key.buf ≠ [] ∧
      (reply = _Null ∧ ht' = ht ∨
        ht.cursor key.buf = none ∧ reply = _OK ∧ ht' = ht.putBucket key.buf
          (ht.buckets (keyHash key.buf) ++ [entry key val exp_ms s.now]) ∨
        ∃ c, ht.cursor key.buf = some c ∧ c.node.freed = false ∧
          (c.node.Expired s.now ∧ reply = _Null ∧ ht' = ht.putBucket key.buf
              (c.before ++ { c.node with freed := true } :: c.after) ∨
            c.node.Expired s.now ∧ reply = _OK ∧ ht' = ht.putBucket key.buf
              (c.before ++ { c.node with freed := true } ::
                (c.after ++ [entry key val exp_ms s.now])) ∨
            reply = _OK ∧ ht' = ht.putBucket key.buf
              (c.before ++ entry key val exp_ms s.now :: c.after))) := by
  obtain ⟨xp, s₁, hxp, hrun⟩ := Effect.bind_eq_ok_iff.1 hrun
  cases hxp
  obtain ⟨hkey, hrest⟩ := find_ok hrun
  refine ⟨hkey, ?_⟩
  cases hc : ht.cursor key.buf with
  | none =>
      rw [hc] at hrest
      cases xx with
      | true =>
          cases hrest
          exact .inl ⟨rfl, rfl⟩
      | false =>
          obtain ⟨list, s₂, hadd, hend⟩ := Effect.bind_eq_ok_iff.1 hrest
          obtain ⟨rfl, rfl⟩ := addNodeToList_ok hadd
          cases hend
          exact .inr (.inl ⟨rfl, rfl, rfl⟩)
  | some c =>
      have hfreed := find_unfreed hrun hc
      rw [hc] at hrest
      simp only at hrest
      rw [Effect.bind_run_ok (isExpired_run c.node _)] at hrest
      by_cases hexp : c.node.Expired s.now
      · rw [decide_eq_true hexp, if_pos rfl, Effect.bind_run_ok (freeListNode_run hfreed _)] at hrest
        cases xx with
        | true =>
            cases hrest
            exact .inr (.inr ⟨c, rfl, hfreed, .inl ⟨hexp, rfl, rfl⟩⟩)
        | false =>
            obtain ⟨list, s₂, hadd, hend⟩ := Effect.bind_eq_ok_iff.1 hrest
            obtain ⟨rfl, rfl⟩ := addNodeToList_ok hadd
            cases hend
            refine .inr (.inr ⟨c, rfl, hfreed, .inr (.inl ⟨hexp, rfl, ?_⟩)⟩)
            rw [← List.cons_append, ← List.append_assoc]
            rfl
      · rw [decide_eq_false hexp, if_neg (by simp)] at hrest
        cases nx with
        | true =>
            cases hrest
            exact .inl ⟨rfl, rfl⟩
        | false =>
            cases hrest
            refine .inr (.inr ⟨c, rfl, hfreed, .inr (.inr ⟨rfl, ?_⟩)⟩)
            rw [entry, newNode, ← hfreed]
            rfl

end HashTable

end Exoredis
