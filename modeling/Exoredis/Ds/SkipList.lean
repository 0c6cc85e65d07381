import Exoredis.Ds.Bitmap

/-!
# `skiplist.c`

The four searches of the file run down the levels from the top one, and on each
level along `next` as long as a condition on the current node and its successor
holds; they differ in that condition only. `walk` is the inner loop and
`descend` the outer one, and `descend` returns for every level the node where
the search left it and the sum of the spans passed up to there.

A loop along links is run with as much fuel as there are nodes; it uses it up
only where the C loop does not end.
-/

namespace Exoredis

/-- Addition on `size_t`. -/
def addSize (a b : ℕ) : ℕ := (a + b) % 2 ^ 64

/-- Subtraction on `size_t`. -/
def subSize (a b : ℕ) : ℕ := (a + (2 ^ 64 - b % 2 ^ 64)) % 2 ^ 64

namespace SkipList

def newSkipListNode (key : ExoString) (score : ℚ) : SkipListNode :=
  ⟨key, score, 1, none, none⟩

def sentinel (level : ℕ) : NodePtr := ⟨0, level⟩

def newSkipList : Exo SkipList := do
  let key ← newString (ascii "sentinel")
  return {
    heap := Function.update (fun _ => none) (sentinel 0) (newSkipListNode key DOUBLE_MIN)
    head := sentinel 0
    size := 0
    levels := 0
    table := HashTable.newHashTable
    fresh := 1 }

def deref (list : SkipList) (p : NodePtr) : Exo SkipListNode :=
  match list.heap p with
  | some node => return node
  | none => throw .useAfterFree

/-- Access through a link, which may be `NULL`. -/
def follow (list : SkipList) : Option NodePtr → Exo SkipListNode
  | some p => list.deref p
  | none => throw .nullDereference

def write (list : SkipList) (p : NodePtr) (node : SkipListNode) : SkipList :=
  { list with heap := Function.update list.heap p (some node) }

/-- The number of nodes that were ever allocated is at most this. -/
def nodeBound (list : SkipList) : ℕ := SKIPLIST_MAX_LEVEL * (list.fresh + 1)

/-- A loop condition on `*tmp`, `*tmp->next` and the counter. -/
abbrev Advance := SkipListNode → SkipListNode → ℕ → Bool

/-- `while(tmp->next && advance) { count += tmp->children; tmp = tmp->next; }`. -/
def walk (list : SkipList) (advance : Advance) : ℕ → NodePtr → ℕ → Exo (NodePtr × ℕ)
  | 0, _, _ => throw .divergence
  | fuel + 1, tmp, count => do
      let node ← list.deref tmp
      match node.next with
      | none => return (tmp, count)
      | some p =>
          let next ← list.deref p
          if advance node next count then
            walk list advance fuel p (addSize count node.children)
          else
            return (tmp, count)

/-- The search from level `i` down to `0`, starting at `tmp`. Entry `i` of the
result is where the search left level `i`. -/
def descend (list : SkipList) (advance : Advance) : ℕ → NodePtr → ℕ →
    Exo (List (NodePtr × ℕ))
  | 0, tmp, count => do
      let stop ← list.walk advance list.nodeBound tmp count
      return [stop]
  | i + 1, tmp, count => do
      let stop ← list.walk advance list.nodeBound tmp count
      let node ← list.deref stop.1
      match node.down with
      | some down =>
          let lower ← list.descend advance i down stop.2
          return lower ++ [stop]
      | none => throw .nullDereference

/-- The condition of the search in `addNodeToSkiplist`: at equal scores it
compares the key of the current node. -/
def beforeInsert (key : ExoString) (score : ℚ) : Advance := fun tmp next _ =>
  decide (next.score < score) ||
    (decide (next.score = score) && decide (strcmp tmp.key.buf key.buf = .lt))

/-- The condition of the search in `removeNodeFromSkipList`: at equal scores it
compares the key of the next node. -/
def beforeRemove (key : ExoString) (score : ℚ) : Advance := fun _ next _ =>
  decide (next.score < score) ||
    (decide (next.score = score) && decide (strcmp next.key.buf key.buf = .lt))

def randomLevelRaiser : Exo ℕ := do
  let s ← get
  set { s with coins := fun n => s.coins (n + 1) }
  return s.coins 0 % SKIPLIST_MAX_LEVEL

/-- New sentinels on top of the list, one for each of `n` levels, together with
their entries in `dirty` and `children`. -/
def raiseLevels : ℕ → SkipList → List (NodePtr × ℕ) → Exo (SkipList × List (NodePtr × ℕ))
  | 0, list, path => return (list, path)
  | n + 1, list, path => do
      let key ← newString (ascii "sentinel")
      let tmp := sentinel (list.levels + 1)
      let node := { newSkipListNode key DOUBLE_MIN with
        down := some list.head, children := addSize list.size 1 }
      raiseLevels n { list.write tmp node with head := tmp, levels := list.levels + 1 }
        (path ++ [(tmp, 1)])

/-- Links the node of the new tower on level `i` and above behind the nodes of
`dirty`; `rank` is `children[0]`. -/
def linkTower (key : ExoString) (score : ℚ) (tower rank : ℕ) :
    ℕ → Option NodePtr → List (NodePtr × ℕ) → SkipList → Exo (Option NodePtr × SkipList)
  | _, prev, [], list => return (prev, list)
  | i, prev, (dirty, children) :: path, list => do
      let d ← list.deref dirty
      let tmp : NodePtr := ⟨tower, i⟩
      let node : SkipListNode :=
        { key := key, score := score
          children := subSize d.children (subSize rank children)
          next := d.next
          down := prev }
      let d := { d with next := some tmp, children := addSize (subSize rank children) 1 }
      linkTower key score tower rank (i + 1) (some tmp) path
        ((list.write tmp node).write dirty d)

/-- `dirty[i]->children++` on the levels above the new tower. -/
def widenSpans : List (NodePtr × ℕ) → SkipList → Exo SkipList
  | [], list => return list
  | (dirty, _) :: path, list => do
      let d ← list.deref dirty
      widenSpans path (list.write dirty { d with children := addSize d.children 1 })

/-- The C function returns the top node of the new tower, which no caller uses. -/
def addNodeToSkiplist (list : SkipList) (key : ExoString) (score : ℚ) : Exo SkipList := do
  let raise_to ← randomLevelRaiser
  let path ← list.descend (beforeInsert key score) list.levels list.head 1
  let rank := (path.headD (list.head, 1)).2
  let (list, path) ← raiseLevels (raise_to - list.levels) list path
  let (top, list) ← linkTower key score list.fresh rank 0 none (path.take (raise_to + 1)) list
  let list ← widenSpans (path.drop (raise_to + 1)) list
  match top with
  | some tmp =>
      let table ← list.table.set key tmp
      return { list with
        table := table, size := addSize list.size 1, fresh := list.fresh + 1 }
  | none => throw .nullDereference

/-- The unlinking loop, from the top level down; `node` descends the tower that
is taken out wherever the successor of `dirty[i]` has the key of `tmp`. -/
def unlinkTower (tmp : NodePtr) : List NodePtr → Option NodePtr → SkipList → Exo SkipList
  | [], _, list => return list
  | dirty :: path, node, list => do
      let d ← list.deref dirty
      match d.next with
      | some p =>
          let next ← list.deref p
          let target ← list.deref tmp
          if strcmp target.key.buf next.key.buf = .eq then
            let n ← list.follow node
            unlinkTower tmp path n.down (list.write dirty
              { d with children := addSize d.children (subSize n.children 1), next := n.next })
          else
            unlinkTower tmp path node
              (list.write dirty { d with children := subSize d.children 1 })
      | none =>
          unlinkTower tmp path node
            (list.write dirty { d with children := subSize d.children 1 })

/-- Frees a tower from the given node down. -/
def freeSkipListNode : ℕ → Option NodePtr → SkipList → Exo SkipList
  | _, none, list => return list
  | 0, some _, _ => throw .divergence
  | fuel + 1, some p, list => do
      let node ← list.deref p
      freeSkipListNode fuel node.down { list with heap := Function.update list.heap p none }

def removeNodeFromSkipList (list : SkipList) (key : ExoString) (score : ℚ)
    (node : NodePtr) : Exo SkipList := do
  let path ← list.descend (beforeRemove key score) list.levels list.head 0
  let dirty ← list.deref (path.headD (list.head, 0)).1
  match dirty.next with
  | none => return list
  | some tmp =>
      let target ← list.deref tmp
      if score = target.score ∧ strcmp target.key.buf key.buf = .eq then
        let list ← unlinkTower tmp (path.reverse.map Prod.fst) (some node) list
        let list ← freeSkipListNode list.nodeBound (some node) list
        let (_, table) ← list.table.del key
        return { list with table := table, size := subSize list.size 1 }
      else
        return list

/-- Frees the nodes of one level from `node` on. -/
def freeLevel : ℕ → Option NodePtr → SkipList → Exo SkipList
  | _, none, list => return list
  | 0, some _, _ => throw .divergence
  | fuel + 1, some p, list => do
      let node ← list.deref p
      freeLevel fuel node.next { list with heap := Function.update list.heap p none }

/-- Frees the levels from `i` down to `0`, whose first node is `head`. -/
def freeLevels : ℕ → Option NodePtr → SkipList → Exo SkipList
  | 0, head, list => do
      let _ ← list.follow head
      freeLevel list.nodeBound head list
  | i + 1, head, list => do
      let node ← list.follow head
      let list ← freeLevel list.nodeBound head list
      freeLevels i node.down list

def freeSkipList (list : SkipList) : Exo Unit := do
  let list ← freeLevels list.levels (some list.head) list
  list.table.freeHashTable

/-! ## Ranks -/

/-- The rank counted at the end of a search that starts with `0`. -/
def rankBy (list : SkipList) (advance : Advance) : Exo ℕ := do
  let path ← list.descend advance list.levels list.head 0
  return (path.headD (list.head, 0)).2

def rankByScore (list : SkipList) (score : ℚ) (inclusive : Bool) : Exo ℕ :=
  if inclusive then list.rankBy fun _ next _ => decide (next.score ≤ score)
  else list.rankBy fun _ next _ => decide (next.score < score)

def rankByOrder (list : SkipList) (pos : ℤ) : Exo (Option NodePtr) :=
  if toUnsigned pos ≥ list.size ∨ pos < 0 then return none
  else do
    let path ← list.descend
      (fun tmp _ count => decide (addSize count tmp.children ≤ toUnsigned pos))
      list.levels list.head 0
    let prev ← list.deref (path.headD (list.head, 0)).1
    return prev.next

/-! ## Members -/

/-- A leading minus sign and the rest of the string. -/
def splitMinus (str : List UInt8) : Bool × List UInt8 :=
  if firstChar str = 45 then (true, str.tail) else (false, str)

/-- A signed score, or `none` where the code finds the error value `-1`. -/
def parseScore (str : List UInt8) : Option ℚ :=
  let (minus, str) := splitMinus str
  let score := stringTolongDouble str
  if score = -1 then none else some (if minus then -1 * score else score)

/-- The scores and members of the pairs, or `none` if a score is not valid, and
the arguments with every score read so far marked dead. `room` is the length of
the caller's arrays. -/
def parseArgs : ℕ → ArgList → Exo (Option (List (ℚ × ExoString)) × ArgList)
  | _, [] => return (some [], [])
  | room, node :: rest =>
      let node := { node with dead := true }
      match parseScore node.key.buf with
      | none => return (none, node :: rest)
      | some score => do
          if room = 0 then throw .argsOverflow
          match rest with
          | [] => throw .missingArgument
          | member :: rest =>
              let (pairs, rest) ← parseArgs (room - 1) rest
              return (pairs.map fun pairs => (score, member.key) :: pairs,
                node :: member :: rest)

/-- Takes a member out of the list and puts it in again with a new score. -/
def moveMember (list : SkipList) (member : ExoString) (score : ℚ) (target : NodePtr) :
    Exo SkipList := do
  let node ← list.deref target
  let list ← list.removeNodeFromSkipList member node.score target
  list.addNodeToSkiplist member score

/-- One pass of the loop of `addOrUpdateMember`: the list, whether the pair
counts as changed and whether it counts as a new insert. -/
def addOrUpdatePair (xx nx : Bool) (list : SkipList) (pair : ℚ × ExoString) :
    Exo (SkipList × Bool × Bool) := do
  let (score, member) := pair
  let (tmp, table) ← list.table.get member
  let list := { list with table := table }
  match tmp with
  | some target =>
      if xx then
        let list ← list.moveMember member score target
        return (list, true, false)
      else if nx then
        return (list, false, false)
      else
        let list ← list.moveMember member score target
        return (list, true, false)
  | none =>
      if xx then
        return (list, false, false)
      else
        let list ← list.addNodeToSkiplist member score
        return (list, false, true)

def addOrUpdateLoop (xx nx : Bool) : List (ℚ × ExoString) → SkipList → ℕ → ℕ →
    Exo (SkipList × ℕ × ℕ)
  | [], list, changed, new_insert => return (list, changed, new_insert)
  | pair :: pairs, list, changed, new_insert => do
      let (list, isChanged, isNew) ← addOrUpdatePair xx nx list pair
      addOrUpdateLoop xx nx pairs list (changed + isChanged.toNat) (new_insert + isNew.toNat)

/-- Adds or updates the members of the pairs in `args`, which are `arg_size`
arguments. -/
def addOrUpdateMember (list : SkipList) (xx nx ch : Bool) (args : ArgList) (arg_size : ℕ) :
    Exo (Reply × SkipList × ArgList) := do
  let (pairs, args) ← parseArgs arg_size args
  match pairs with
  | some pairs =>
      let (list, changed, new_insert) ← addOrUpdateLoop xx nx pairs list 0 0
      return (.respInteger (numberToString (if ch then changed else new_insert)), list, args)
  | none => return (_Error .VALUE_IS_NOT_A_VALID_FLOAT, list, args)

/-- `args->dead = args->next->dead = true`. -/
def setPairDead : ArgList → Exo ArgList
  | score :: member :: rest =>
      return { score with dead := true } :: { member with dead := true } :: rest
  | _ => throw .missingArgument

def scoreIncrement (list : SkipList) (args : ArgList) (nx : Bool) :
    Exo (Reply × SkipList × ArgList) := do
  let (pairs, args) ← parseArgs 1 args
  match pairs with
  | some ((score, member) :: _) =>
      let (tmp, table) ← list.table.get member
      let list := { list with table := table }
      match tmp with
      | some target =>
          if nx then
            let args ← setPairDead args
            return (_Null, list, args)
          else
            let node ← list.deref target
            let res := node.score + score
            let list ← list.moveMember member res target
            return (.bulkString (doubleToString res), list, args)
      | none =>
          let list ← list.addNodeToSkiplist member score
          return (.bulkString (doubleToString score), list, args)
  | some [] => throw .missingArgument
  | none => return (_Error .VALUE_IS_NOT_A_VALID_FLOAT, list, args)

/-- `args` is the whole argument list of the command. -/
def addToSortedSet (list : SkipList) (xx nx ch incr : Bool) (args : ArgList) :
    Exo (Reply × SkipList × ArgList) := do
  if nx && xx then
    return (_Error .XX_AND_NX_OPTIONS_AT_THE_SAME_TIME_ARE_NOT_COMPATIBLE, list,
      setAllDead args)
  let switches := (nx || xx).toNat + ch.toNat + incr.toNat
  let headers := args.length - switches
  if headers % 2 = 0 then
    let move := switches + 2
    if args.length < move then throw .missingArgument
    let header := args.take move
    let arg := args.drop move
    if incr then
      if args.length - switches = 4 then
        let (ret, list, arg) ← list.scoreIncrement arg nx
        return (ret, list, header ++ arg)
      else
        return (_Error .INCR_OPTION_SUPPORTS_A_SINGLE_INCREMENT_ELEMENT_PAIR, list,
          setAllDead args)
    else
      let (ret, list, arg) ← list.addOrUpdateMember xx nx ch arg (args.length - switches - 2)
      return (ret, list, header ++ arg)
  else
    return (_Error .SYNTAX_ERROR, list, setAllDead args)

end SkipList

end Exoredis
