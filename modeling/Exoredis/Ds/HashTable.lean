import Exoredis.Ds.LinkedList

/-!
# `hashtable.c`

The operations of a table in terms of its buckets. A function that changes the
table returns the changed table next to the result of the C function.
-/

namespace Exoredis

variable {V : Type}

namespace HashTable

def newHashTable : HashTable V := ⟨fun _ => []⟩

def setBucket (ht : HashTable V) (i : ℕ) (list : List (ListNode V)) : HashTable V :=
  ⟨Function.update ht.buckets i list⟩

@[simp] theorem setBucket_buckets (ht : HashTable V) (i : ℕ) (list : List (ListNode V)) :
    (ht.setBucket i list).buckets = Function.update ht.buckets i list := rfl

variable [IsExoVal V]

/-- Deletes the entry of a key. The result counts a live entry only. -/
def del (ht : HashTable V) (key : ExoString) : Exo (ℕ × HashTable V) := do
  let str_hash ← stringHash key.memory key.len
  match ← findNode (ht.buckets str_hash) key with
  | some c =>
      let expired ← isExpired c.node
      let list ← removeNodeFromList c
      freeListNode c.node
      return (if expired then 0 else 1, ht.setBucket str_hash list)
  | none => return (0, ht)

def get (ht : HashTable V) (key : ExoString) : Exo (Option V × HashTable V) := do
  let str_hash ← stringHash key.memory key.len
  match ← findNode (ht.buckets str_hash) key with
  | some c =>
      if ← isExpired c.node then
        let (_, ht) ← ht.del key
        return (none, ht)
      else
        return (some c.node.value, ht)
  | none => return (none, ht)

def set (ht : HashTable V) (key : ExoString) (val : V) : Exo (HashTable V) := do
  let str_hash ← stringHash key.memory key.len
  match ← findNode (ht.buckets str_hash) key with
  | some c =>
      let node ← replaceNodeValue c.node key val
      return ht.setBucket str_hash (c.before ++ node :: c.after)
  | none =>
      let list ← addNodeToList (ht.buckets str_hash) (newNode key val)
      return ht.setBucket str_hash list

/-- Restoring a key from disk: the bucket is not searched for it. -/
def setFromLoad (ht : HashTable V) (key : ExoString) (val : V) (exp_ms : ℕ) :
    Exo (Reply × HashTable V) := do
  if exp_ms < (← timeStamp) then
    return (_OK, ht)
  let str_hash ← stringHash key.memory key.len
  let list ← addNodeToList (ht.buckets str_hash) { newNode key val with expiry := exp_ms }
  return (_OK, ht.setBucket str_hash list)

/-- The expiry of an entry set at time `xp` with `exp_ms` milliseconds to live, a
`uint64_t`. -/
def expiryAt (exp_ms xp : ℕ) : ℕ :=
  if exp_ms ≠ 0 then (exp_ms + xp) % 2 ^ 64 else DEFAULT_EXPIRY_MS

/-- An expired node is freed, but it is not taken out of its bucket. -/
def setWithExpiry (ht : HashTable V) (key : ExoString) (val : V) (exp_ms : ℕ)
    (nx xx : Bool) : Exo (Reply × HashTable V) := do
  let xp ← timeStamp
  let str_hash ← stringHash key.memory key.len
  match ← findNode (ht.buckets str_hash) key with
  | some c =>
      if ← isExpired c.node then
        freeListNode c.node
        let bucket := c.before ++ { c.node with freed := true } :: c.after
        if xx then
          return (_Null, ht.setBucket str_hash bucket)
        let node := { newNode key val with expiry := expiryAt exp_ms xp }
        let list ← addNodeToList bucket node
        return (_OK, ht.setBucket str_hash list)
      else if nx then
        return (_Null, ht)
      else
        let node ← replaceNodeValue { c.node with expiry := expiryAt exp_ms xp } key val
        return (_OK, ht.setBucket str_hash (c.before ++ node :: c.after))
  | none =>
      if xx then
        return (_Null, ht)
      let node := { newNode key val with expiry := expiryAt exp_ms xp }
      let list ← addNodeToList (ht.buckets str_hash) node
      return (_OK, ht.setBucket str_hash list)

/-- Frees the nodes of the buckets from `i` on. -/
def freeBuckets (ht : HashTable V) : List ℕ → Exo Unit
  | [] => return
  | i :: rest => do
      freeLinkedList (ht.buckets i)
      freeBuckets ht rest

def freeHashTable (ht : HashTable V) : Exo Unit := freeBuckets ht (List.range INITIAL_SIZE)

end HashTable

end Exoredis
