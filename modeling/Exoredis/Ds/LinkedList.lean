import Exoredis.Ds.Utilities

/-!
# `linkedlist.c`

A bucket is the list of its nodes from head to tail. A pointer to a node that
`findNode` returned is a `Cursor`: the node with the nodes before and after it,
so that removing or replacing the node needs no second search.

Following a link to a node that was freed, or writing to one, is a fault.
-/

namespace Exoredis

variable {V : Type}

/-- A node with the nodes around it. -/
structure Cursor (V : Type) where
  before : List (ListNode V)
  node : ListNode V
  after : List (ListNode V)

namespace Cursor

def toList (c : Cursor V) : List (ListNode V) := c.before ++ c.node :: c.after

end Cursor

def newNode (key : ExoString) (value : V) : ListNode V :=
  ⟨key, value, DEFAULT_EXPIRY_MS, false⟩

/-- Linking a node at the tail writes to the old tail. -/
def addNodeToList (list : List (ListNode V)) (node : ListNode V) :
    Exo (List (ListNode V)) :=
  match list.getLast? with
  | some tail => if tail.freed then throw .useAfterFree else return list ++ [node]
  | none => return [node]

/-- Unlinking a node writes to its neighbours. -/
def removeNodeFromList (c : Cursor V) : Exo (List (ListNode V)) :=
  match c.after.head? with
  | some next => if next.freed then throw .useAfterFree else return c.before ++ c.after
  | none => return c.before

/-- The first node whose key has the length and the bytes of `key`. -/
def findNode : List (ListNode V) → ExoString → Exo (Option (Cursor V))
  | [], _ => return none
  | tmp :: list, key => do
      if tmp.freed then throw .useAfterFree
      if tmp.key.len = key.len ∧ tmp.key.buf = key.buf then
        return some ⟨[], tmp, list⟩
      else
        match ← findNode list key with
        | some c => return some { c with before := tmp :: c.before }
        | none => return none

def freeListNode [IsExoVal V] (node : ListNode V) : Exo Unit := do
  if node.freed then throw .useAfterFree
  freeExoString node.key
  freeExoVal node.value

/-- The node with its key and its value replaced; the old ones are freed. -/
def replaceNodeValue [IsExoVal V] (node : ListNode V) (newkey : ExoString) (newval : V) :
    Exo (ListNode V) := do
  freeExoString node.key
  freeExoVal node.value
  return { node with key := newkey, value := newval }

/-- Only string values expire. -/
def isExpired [IsExoVal V] (node : ListNode V) : Exo Bool := do
  if (IsExoVal.toExoVal node.value).ds_type ≠ BULKSTRING then
    return false
  else
    return decide (node.expiry < (← timeStamp))

/-- The nodes are freed from the tail to the head. -/
def freeLinkedList [IsExoVal V] : List (ListNode V) → Exo Unit
  | [] => return
  | node :: list => do
      freeLinkedList list
      freeListNode node

end Exoredis
