import Exoredis.Library.DoublyLinked
import Exoredis.Keyspace.Table

/-!
# `linkedlist.c` with its links

The other modules take a bucket as the list of its nodes. Here it is the record of the
source, with the links `next` and `prev` of the nodes in memory. The nodes that are left
of any sequence of insertions and removals are met in order from the head and in reverse
from the tail (`bucket_of_ops`), and the two functions do to these nodes what the list
model says (`Represents.addNodeToList`, `Represents.removeNodeFromList`).
-/

namespace Exoredis

variable {Addr : Type}

/-- A `linkedList`, and the links of all nodes in memory. -/
structure LinkedList (Addr : Type) where
  head : Option Addr
  tail : Option Addr
  size : ℕ
  next : Addr → Option Addr
  prev : Addr → Option Addr

namespace LinkedList

/-- The links in memory are whatever they are. -/
def newLinkedList (next prev : Addr → Option Addr) : LinkedList Addr :=
  ⟨none, none, 0, next, prev⟩

variable [DecidableEq Addr]

/-- A node is made with its links `NULL`. -/
def newNode (list : LinkedList Addr) (node : Addr) : LinkedList Addr :=
  { list with
    next := Function.update list.next node none
    prev := Function.update list.prev node none }

def addNodeToList (list : LinkedList Addr) (node : Addr) : Except Fault (LinkedList Addr) :=
  match list.head, list.tail with
  | some _, some tail =>
      let next := Function.update list.next tail (some node)
      .ok { list with
        next := next
        prev := Function.update list.prev node (some tail)
        tail := next tail
        size := list.size + 1 }
  | some _, none => .error .nullDereference
  | none, _ => .ok { list with head := some node, tail := some node, size := list.size + 1 }

def removeNodeFromList (list : LinkedList Addr) (node : Addr) :
    Except Fault (LinkedList Addr) :=
  if list.size = 1 then .ok { list with head := none, tail := none, size := list.size - 1 }
  else
    match list.prev node, list.next node with
    | none, some next =>
        .ok { list with
          prev := Function.update list.prev next none
          head := some next
          size := list.size - 1 }
    | none, none => .error .nullDereference
    | some prev, none =>
        .ok { list with
          next := Function.update list.next prev none
          tail := some prev
          size := list.size - 1 }
    | some prev, some next =>
        .ok { list with
          next := Function.update list.next prev (some next)
          prev := Function.update list.prev next (some prev)
          size := list.size - 1 }

/-- The record and the links are those of the nodes `l`. -/
structure Of (list : LinkedList Addr) (l : List Addr) : Prop where
  links : Doubly list.next list.prev l
  head : list.head = l.head?
  tail : list.tail = l.getLast?
  size : list.size = l.length

namespace Of

variable {list list' : LinkedList Addr} {l l₁ l₂ : List Addr} {node : Addr}

omit [DecidableEq Addr] in
theorem new (next prev : Addr → Option Addr) : (newLinkedList next prev).Of [] :=
  ⟨.nil, rfl, rfl, rfl⟩

theorem newNode (h : list.Of l) (hnode : node ∉ l) : (list.newNode node).Of l where
  links := h.links.congr (fun _ hb => Function.update_of_ne (ne_of_mem_of_not_mem hb hnode) _ _)
    fun _ hb => Function.update_of_ne (ne_of_mem_of_not_mem hb hnode) _ _
  head := h.head
  tail := h.tail
  size := h.size

theorem addNodeToList (h : list.Of l) (hnode : node ∉ l) (hnext : list.next node = none)
    (hprev : list.prev node = none) :
    ∃ list', list.addNodeToList node = .ok list' ∧ list'.Of (l ++ [node]) := by
  rw [LinkedList.addNodeToList, h.head, h.tail]
  rcases List.eq_nil_or_concat l with rfl | ⟨l, last, rfl⟩
  · exact ⟨_, rfl, .singleton hnext hprev, rfl, rfl, by rw [h.size]; rfl⟩
  · rw [List.concat_eq_append] at h hnode ⊢
    have hhead : ∃ first, (l ++ [last]).head? = some first := by
      cases l <;> exact ⟨_, rfl⟩
    obtain ⟨first, hfirst⟩ := hhead
    rw [hfirst, List.getLast?_concat]
    refine ⟨_, rfl, ?_, ?_, ?_, ?_⟩
    · rw [List.append_assoc]
      exact h.links.push hnode hnext
    · rw [List.head?_append, hfirst]
      rfl
    · rw [List.getLast?_concat]
      exact Function.update_self _ _ _
    · rw [List.length_append, ← h.size]
      rfl

theorem removeNodeFromList (h : list.Of (l₁ ++ node :: l₂)) :
    ∃ list', list.removeNodeFromList node = .ok list' ∧ list'.Of (l₁ ++ l₂) := by
  have hsize := h.size
  rw [List.length_append, List.length_cons] at hsize
  have hsize' : list.size - 1 = (l₁ ++ l₂).length := by
    rw [List.length_append]
    omega
  rw [LinkedList.removeNodeFromList]
  by_cases hone : list.size = 1
  · rw [if_pos hone]
    obtain ⟨rfl, rfl⟩ : l₁ = [] ∧ l₂ = [] :=
      ⟨List.length_eq_zero_iff.1 (by omega), List.length_eq_zero_iff.1 (by omega)⟩
    exact ⟨_, rfl, .nil, rfl, rfl, hsize'⟩
  · rw [if_neg hone, h.links.prev_eq, h.links.next_eq]
    rcases List.eq_nil_or_concat l₁ with rfl | ⟨l₁, prev, rfl⟩
    · cases l₂ with
      | nil => exact absurd hsize hone
      | cons next l₂ =>
          have htail := h.tail
          rw [List.nil_append, List.getLast?_cons_cons] at htail
          exact ⟨_, rfl, h.links.remove_head, rfl, htail, hsize'⟩
    · rw [List.concat_eq_append] at h hsize' ⊢
      rw [List.getLast?_concat]
      have hhead : (l₁ ++ [prev] ++ node :: l₂).head? = (l₁ ++ [prev] ++ l₂).head? := by
        cases l₁ <;> rfl
      cases l₂ with
      | nil =>
          have hlinks := h.links
          rw [List.append_assoc] at hlinks
          rw [List.append_nil] at hhead hsize' ⊢
          exact ⟨_, rfl, hlinks.remove_last, h.head.trans hhead, List.getLast?_concat.symm, hsize'⟩
      | cons next l₂ =>
          have hlinks := h.links
          rw [List.append_assoc] at hlinks
          refine ⟨_, rfl, ?_, h.head.trans hhead, ?_, hsize'⟩
          · rw [List.append_assoc]
            exact hlinks.remove_middle
          · have htail := h.tail
            rw [List.getLast?_append_cons, List.getLast?_cons_cons] at htail
            rw [List.getLast?_append_cons]
            exact htail

end Of

/-! ## Sequences of insertions and removals -/

inductive Op (Addr : Type)
  | add (node : Addr)
  | remove (node : Addr)

namespace Op

/-- A fresh node is made and added, or a node is removed. -/
def run (list : LinkedList Addr) : Op Addr → Except Fault (LinkedList Addr)
  | add node => (list.newNode node).addNodeToList node
  | remove node => list.removeNodeFromList node

/-- The nodes that are left, in the order of their insertion. -/
def left (l : List Addr) : Op Addr → List Addr
  | add node => l ++ [node]
  | remove node => l.erase node

/-- A node is added while it is not in the list and removed while it is. -/
def Allowed (l : List Addr) : Op Addr → Prop
  | add node => node ∉ l
  | remove node => node ∈ l

instance decidableAllowed (l : List Addr) : ∀ op : Op Addr, Decidable (op.Allowed l)
  | add node => inferInstanceAs (Decidable (node ∉ l))
  | remove node => inferInstanceAs (Decidable (node ∈ l))

theorem run_of {list : LinkedList Addr} {l : List Addr} {op : Op Addr} (h : list.Of l)
    (hop : op.Allowed l) : ∃ list', op.run list = .ok list' ∧ list'.Of (op.left l) := by
  cases op with
  | add node =>
      exact (h.newNode hop).addNodeToList hop (Function.update_self _ _ _)
        (Function.update_self _ _ _)
  | remove node =>
      obtain ⟨l₁, l₂, hnot, rfl, herase⟩ := List.exists_erase_eq hop
      obtain ⟨list', hrun, h'⟩ := h.removeNodeFromList
      exact ⟨list', hrun, by rwa [left, herase]⟩

end Op

/-- Every operation is allowed where it comes. -/
def Sequence : List Addr → List (Op Addr) → Prop
  | _, [] => True
  | l, op :: ops => op.Allowed l ∧ Sequence (op.left l) ops

instance decidableSequence : ∀ (l : List Addr) (ops : List (Op Addr)), Decidable (Sequence l ops)
  | _, [] => .isTrue trivial
  | l, op :: ops =>
      have := decidableSequence (op.left l) ops
      inferInstanceAs (Decidable (_ ∧ _))

theorem foldlM_of {list : LinkedList Addr} {l : List Addr} {ops : List (Op Addr)}
    (h : list.Of l) (hops : Sequence l ops) :
    ∃ list', ops.foldlM Op.run list = .ok list' ∧ list'.Of (ops.foldl Op.left l) := by
  induction ops generalizing list l with
  | nil => exact ⟨list, rfl, h⟩
  | cons op ops ih =>
      obtain ⟨list', hrun, h'⟩ := op.run_of h hops.1
      obtain ⟨list'', hruns, h''⟩ := ih h' hops.2
      refine ⟨list'', ?_, h''⟩
      rw [List.foldlM_cons, hrun]
      exact hruns

/-- Following `next` from the head passes the nodes that are left in the order of their
insertion, following `prev` from the tail passes them in reverse, the size is their number,
and head and tail are `NULL` exactly if there are none. -/
theorem bucket_of_ops (next prev : Addr → Option Addr) (ops : List (Op Addr))
    (hops : Sequence [] ops) :
    ∃ list, ops.foldlM Op.run (newLinkedList next prev) = .ok list ∧
      (∀ n, (ops.foldl Op.left []).length ≤ n →
        followLinks list.next n list.head = ops.foldl Op.left [] ∧
        followLinks list.prev n list.tail = (ops.foldl Op.left []).reverse) ∧
      list.size = (ops.foldl Op.left []).length ∧
      (list.head = none ↔ ops.foldl Op.left [] = []) ∧
      (list.tail = none ↔ ops.foldl Op.left [] = []) := by
  obtain ⟨list, hrun, h⟩ := foldlM_of (Of.new next prev) hops
  refine ⟨list, hrun, fun n hn => ⟨?_, ?_⟩, h.size, ?_, ?_⟩
  · rw [h.head]
    exact h.links.follow_next hn
  · rw [h.tail]
    exact h.links.follow_prev hn
  · rw [h.head, List.head?_eq_none_iff]
  · rw [h.tail, List.getLast?_eq_none_iff]

theorem bucket_of_ops_middle :
    ∃ list : LinkedList ℕ, [Op.add 1, .add 2, .add 3, .remove 2].foldlM Op.run
        (newLinkedList (fun _ => some 7) fun _ => some 7) = .ok list ∧
      followLinks list.next 2 list.head = [1, 3] ∧ followLinks list.prev 2 list.tail = [3, 1] := by
  obtain ⟨list, hrun, hfollow, -⟩ := bucket_of_ops (fun _ => some 7) (fun _ => some 7)
    [Op.add 1, .add 2, .add 3, .remove 2]
    (by decide)
  exact ⟨list, hrun, hfollow 2 le_rfl⟩

/-! ## The list model -/

/-- The nodes of the bucket lie at the addresses of the list. -/
def Represents {V : Type} (list : LinkedList Addr) (memory : Addr → ListNode V)
    (bucket : List (ListNode V)) : Prop :=
  ∃ l, list.Of l ∧ bucket = l.map memory

namespace Represents

variable {V : Type} {list : LinkedList Addr} {memory : Addr → ListNode V}
  {bucket : List (ListNode V)} {s t : Server}

/-- A new node at an address that the bucket does not use. -/
theorem addNodeToList (h : list.Represents memory bucket) {addr : Addr}
    (haddr : ∀ l, list.Of l → addr ∉ l) {node : ListNode V} {bucket' : List (ListNode V)}
    (hrun : Exoredis.addNodeToList bucket node s = .ok (bucket', t)) :
    ∃ list', (list.newNode addr).addNodeToList addr = .ok list' ∧
      list'.Represents (Function.update memory addr node) bucket' := by
  obtain ⟨l, hl, rfl⟩ := h
  obtain ⟨rfl, -⟩ := addNodeToList_ok hrun
  obtain ⟨list', hadd, h'⟩ := (hl.newNode (haddr l hl)).addNodeToList (haddr l hl)
    (Function.update_self _ _ _) (Function.update_self _ _ _)
  refine ⟨list', hadd, _, h', ?_⟩
  rw [List.map_append, List.map_singleton, Function.update_self]
  congr 1
  exact List.map_congr_left fun b hb =>
    (Function.update_of_ne (ne_of_mem_of_not_mem hb (haddr l hl)) _ _).symm

/-- A node that is in the bucket, with the nodes around it. -/
theorem removeNodeFromList {l₁ l₂ : List Addr} {addr : Addr} (h : list.Of (l₁ ++ addr :: l₂))
    {bucket' : List (ListNode V)}
    (hrun : Exoredis.removeNodeFromList ⟨l₁.map memory, memory addr, l₂.map memory⟩ s =
      .ok (bucket', t)) :
    ∃ list', list.removeNodeFromList addr = .ok list' ∧ list'.Represents memory bucket' := by
  obtain ⟨rfl, -⟩ := removeNodeFromList_ok hrun
  obtain ⟨list', hremove, h'⟩ := h.removeNodeFromList
  exact ⟨list', hremove, _, h', List.map_append.symm⟩

end Represents

end LinkedList

end Exoredis
