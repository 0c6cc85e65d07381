import Exoredis.Library.Watched
import Exoredis.Server.RedisServer
import Exoredis.Keyspace.Table

/-!
# `sigHandler`

A request as the sequence of its updates of the keyspace, and the handler that a signal
calls between two of them. The definitions of `Signal` are those of the source once more,
with the points at which a signal finds the keyspace: one behind every operation on the
table of keys, and in a sorted set one behind every `removeNodeFromSkipList` and every
`addNodeToSkiplist`. A command with a single operation on the table is one update as a
whole. Without its points a request is the one that `serve` runs (`forget_serve`).
-/

namespace Exoredis

open Watched LittleEndian

/-! ## The handler -/

/-- What `sigHandler` does on `SIGINT` before it exits. -/
def actionBeforeExit : Exo Unit := do
  let _ ← saveCommand
  (← get).COMMANDS.freeHashTable
  (← get).HASH_TABLE.freeHashTable
  freeGarbage

namespace Signal

/-- A computation with the keyspaces that a signal finds. -/
abbrev Interrupted (α : Type) := Watched Server Fault (HashTable ExoVal) α

/-- A computation on a sorted set with the sorted sets that a signal finds. -/
abbrev InterruptedList (α : Type) := Watched Server Fault SkipList α

/-- An update of the keyspace. -/
def updated {α : Type} (x : Exo α) : Interrupted α := marked (fun _ s => s.HASH_TABLE) x

/-- An update of a sorted set. -/
def relinked (x : Exo SkipList) : InterruptedList SkipList := marked (fun list _ => list) x

/-! ## Sorted sets -/

def moveMember (list : SkipList) (member : ExoString) (score : ℚ) (target : NodePtr) :
    InterruptedList SkipList := do
  let node ← unseen (list.deref target)
  let list ← relinked (list.removeNodeFromSkipList member node.score target)
  relinked (list.addNodeToSkiplist member score)

def addOrUpdatePair (xx nx : Bool) (list : SkipList) (pair : ℚ × ExoString) :
    InterruptedList (SkipList × Bool × Bool) := do
  let (score, member) := pair
  let (tmp, table) ← unseen (list.table.get member)
  let list := { list with table := table }
  match tmp with
  | some target =>
      if xx then
        let list ← moveMember list member score target
        return (list, true, false)
      else if nx then
        return (list, false, false)
      else
        let list ← moveMember list member score target
        return (list, true, false)
  | none =>
      if xx then
        return (list, false, false)
      else
        let list ← relinked (list.addNodeToSkiplist member score)
        return (list, false, true)

def addOrUpdateLoop (xx nx : Bool) : List (ℚ × ExoString) → SkipList → ℕ → ℕ →
    InterruptedList (SkipList × ℕ × ℕ)
  | [], list, changed, new_insert => return (list, changed, new_insert)
  | pair :: pairs, list, changed, new_insert => do
      let (list, isChanged, isNew) ← addOrUpdatePair xx nx list pair
      addOrUpdateLoop xx nx pairs list (changed + isChanged.toNat) (new_insert + isNew.toNat)

def addOrUpdateMember (list : SkipList) (xx nx ch : Bool) (args : ArgList) (arg_size : ℕ) :
    InterruptedList (Reply × SkipList × ArgList) := do
  let (pairs, args) ← unseen (SkipList.parseArgs arg_size args)
  match pairs with
  | some pairs =>
      let (list, changed, new_insert) ← addOrUpdateLoop xx nx pairs list 0 0
      return (.respInteger (numberToString (if ch then changed else new_insert)), list, args)
  | none => return (_Error .VALUE_IS_NOT_A_VALID_FLOAT, list, args)

def scoreIncrement (list : SkipList) (args : ArgList) (nx : Bool) :
    InterruptedList (Reply × SkipList × ArgList) := do
  let (pairs, args) ← unseen (SkipList.parseArgs 1 args)
  match pairs with
  | some ((score, member) :: _) =>
      let (tmp, table) ← unseen (list.table.get member)
      let list := { list with table := table }
      match tmp with
      | some target =>
          if nx then
            let args ← unseen (SkipList.setPairDead args)
            return (_Null, list, args)
          else
            let node ← unseen (list.deref target)
            let res := node.score + score
            let list ← moveMember list member res target
            return (.bulkString (doubleToString res), list, args)
      | none =>
          let list ← relinked (list.addNodeToSkiplist member score)
          return (.bulkString (doubleToString score), list, args)
  | some [] => unseen (throw .missingArgument)
  | none => return (_Error .VALUE_IS_NOT_A_VALID_FLOAT, list, args)

def addToSortedSet (list : SkipList) (xx nx ch incr : Bool) (args : ArgList) :
    InterruptedList (Reply × SkipList × ArgList) := do
  if nx && xx then
    return (_Error .XX_AND_NX_OPTIONS_AT_THE_SAME_TIME_ARE_NOT_COMPATIBLE, list,
      setAllDead args)
  let switches := (nx || xx).toNat + ch.toNat + incr.toNat
  let headers := args.length - switches
  if headers % 2 = 0 then
    let move := switches + 2
    if args.length < move then unseen (throw .missingArgument)
    let header := args.take move
    let arg := args.drop move
    if incr then
      if args.length - switches = 4 then
        let (ret, list, arg) ← scoreIncrement list arg nx
        return (ret, list, header ++ arg)
      else
        return (_Error .INCR_OPTION_SUPPORTS_A_SINGLE_INCREMENT_ELEMENT_PAIR, list,
          setAllDead args)
    else
      let (ret, list, arg) ← addOrUpdateMember list xx nx ch arg (args.length - switches - 2)
      return (ret, list, header ++ arg)
  else
    return (_Error .SYNTAX_ERROR, list, setAllDead args)

/-- The keyspace while the sorted set of `key` is `list`. -/
def withSortedSet (ht : HashTable ExoVal) (key : ExoString) (list : SkipList) :
    HashTable ExoVal :=
  match ht.cursor key.buf with
  | some c =>
      ht.putBucket key.buf (c.before ++ { c.node with value := .sortedSet list } :: c.after)
  | none => ht

def openSortedSet (key : ExoString) : Interrupted (Option SkipList) := do
  match ← updated (onKeyspace fun ht => ht.get key) with
  | some (.sortedSet list) => return some list
  | some _ => return none
  | none =>
      let list ← unseen SkipList.newSkipList
      updated (onKeyspace_ fun ht => ht.set key (.sortedSet list))
      return some list

def zaddCommand (args : ArgList) : Interrupted (Reply × ArgList) := do
  if args.length < 4 then
    return (_Error .WRONG_NUMBER_OF_ARGUMENTS, args)
  match args with
  | cmd :: key :: rest =>
      match ← openSortedSet key.key with
      | none =>
          return (_Error .WRONG_TYPE_OF_COMMAND_ON_TARGET_OBJECT, setAllDead args)
      | some sk_list =>
          let (sw, rest) := parseSwitches rest ⟨false, false, false, false⟩
          let ht := (← unseen get).HASH_TABLE
          let (ret, sk_list, args) ← mapPoints (withSortedSet ht key.key)
            (addToSortedSet sk_list sw.xx sw.nx sw.ch sw.incr (cmd :: key :: rest))
          updated (onKeyspace_ fun ht => ht.updateValue key.key (.sortedSet sk_list))
          if sk_list.size = 0 then
            let _ ← updated (onKeyspace fun ht => ht.del key.key)
          return (ret, args)
  | _ => unseen (throw .missingArgument)

/-! ## The other commands with several updates -/

def delKeys : ArgList → ℕ → Interrupted ℕ
  | [], count => return count
  | node :: rest, count => do
      let n ← updated (onKeyspace fun ht => ht.del node.key)
      delKeys rest (count + n)

def delCommand (args : ArgList) : Interrupted (Reply × ArgList) := do
  if args.length < 2 then
    return (_Error .WRONG_NUMBER_OF_ARGUMENTS, args)
  let count ← delKeys args.tail 0
  return (.respInteger (numberToString count), args)

def setbitCommand (args : ArgList) : Interrupted (Reply × ArgList) :=
  match args with
  | cmd :: key :: offset :: value :: rest => do
      let pos := stringToLongLong offset.key.buf
      if pos = -1 ∨ pos > OFFSET_MAX then
        return (_Error .OFFSET_NOT_INT_OR_OUT_OF_RANGE, setAllDead args)
      let bit := stringToBit value.key
      if bit = -1 then
        return (_Error .BIT_NOT_INT_OR_OUT_OF_RANGE, setAllDead args)
      match ← updated (onKeyspace fun ht => ht.get key.key) with
      | some (.bitmap node) =>
          let (result, node) ← unseen (setBit node pos (decide (bit ≠ 0)))
          updated (onKeyspace_ fun ht => ht.updateValue key.key (.bitmap node))
          return (bitReply result, setAllDead args)
      | some _ => return (_Error .WRONG_TYPE_OF_COMMAND_ON_TARGET_OBJECT, setAllDead args)
      | none =>
          let node ← unseen (initBitmapNode pos (decide (bit ≠ 0)))
          updated (onKeyspace_ fun ht => ht.set key.key (.bitmap node))
          return (bitReply false, { cmd with dead := true } :: key ::
            { offset with dead := true } :: { value with dead := true } :: rest)
  | _ => unseen (throw .missingArgument)

def loadSkiplistEntry (fp : List UInt8) : Interrupted (ℤ × List UInt8) := do
  let cmd ← unseen (newString (ascii "ZADD"))
  let (key, fp) ← unseen (readString fp)
  let (score, fp) ← unseen (readString fp)
  let (member, fp) ← unseen (readString fp)
  let (res, tokens) ← zaddCommand [newArg cmd, newArg key, newArg score, newArg member]
  unseen (freeDeadArgs tokens)
  return (resultOf res "1", fp)

def loadEntry (code : ℕ) (fp : List UInt8) : Interrupted (ℤ × List UInt8) :=
  if code = BULKSTRING then updated (loadHashMapEntry fp)
  else if code = SORTED_SET then loadSkiplistEntry fp
  else if code = BITMAP then updated (loadBitmapEntry fp)
  else return (0, fp)

def loadLoop : ℕ → List UInt8 → Interrupted ℤ
  | 0, _ => unseen (throw .divergence)
  | fuel + 1, fp =>
      match takeLE 8 fp with
      | none => return 0
      | some (code, fp) => do
          let (ret, fp) ← loadEntry code fp
          if ret = -1 then return -1 else loadLoop fuel fp

def loadFromDB : Interrupted ℤ := do
  match (← unseen get).dump with
  | some fp => loadLoop (fp.length + 1) fp
  | none => return 0

/-! ## Requests -/

def callCommand (f : CommandPtr) (args : ArgList) : Interrupted (Reply × ArgList) :=
  match f with
  | .delCommand => delCommand args
  | .setbitCommand => setbitCommand args
  | .zaddCommand => zaddCommand args
  | .loadCommand => do
      let ret ← loadFromDB
      return (if ret ≠ 0 then _Null else _OK, args)
  | _ => updated (Exoredis.callCommand f args)

def executeCommand (cmd : ExoCmd) (tokens : ArgList) : Interrupted (Reply × ArgList) := do
  if strcmp cmd.cmd_str (ascii "SAVE") = .eq then
    let reply ← unseen saveCommand
    return (reply, tokens)
  else if strcmp cmd.cmd_str (ascii "LOADDB") = .eq then
    let ret ← loadFromDB
    return (if ret ≠ -1 then _OK else _Null, tokens)
  if cmd.skip_arg_test ||
      validArgs cmd.args_count (tokens.length - 1) cmd.variable_arg_count then
    callCommand cmd.f_ptr tokens
  else
    return (_Error .WRONG_NUMBER_OF_ARGUMENTS, tokens)

def commandDispatcher (tokens : ArgList) : Interrupted Reply := do
  match tokens with
  | [] => unseen (throw .missingArgument)
  | head :: rest =>
      let head := { head with key := upCase head.key }
      let (node, commands) ← unseen ((← unseen get).COMMANDS.get head.key)
      unseen (modify fun s => { s with COMMANDS := commands })
      match node with
      | some cmd =>
          let (result, args) ← executeCommand cmd (head :: rest)
          unseen (if cmd.free_args || result.isError then freeAllArgs args else freeDeadArgs args)
          return result
      | none =>
          unseen (freeAllArgs (head :: rest))
          return _Error .COMMAND_NOT_FOUND

def serve (tokens : List (List UInt8)) : Interrupted (List UInt8) := do
  let args ← unseen (newArgs tokens)
  let result ← commandDispatcher args
  let output ← unseen (writeToBuffer result)
  unseen freeGarbage
  return output

end Signal

/-- The keyspaces that a signal finds from the beginning of a request to its end. -/
def signalPoints (s : Server) (r : Request) : List (HashTable ExoVal) :=
  s.HASH_TABLE :: (Signal.serve r.tokens { s with now := r.now }).1

/-! ## The requests without their points -/

namespace Signal

@[simp] theorem forget_updated {α : Type} (x : Exo α) : (updated x).forget = x :=
  forget_marked _ x

@[simp] theorem forget_relinked (x : Exo SkipList) : (relinked x).forget = x :=
  forget_marked _ x

@[simp] theorem forget_moveMember (list : SkipList) (member : ExoString) (score : ℚ)
    (target : NodePtr) : (moveMember list member score target).forget =
      list.moveMember member score target := by
  simp only [moveMember, forget_bind, forget_unseen, forget_relinked]
  rfl

@[simp] theorem forget_addOrUpdatePair (xx nx : Bool) (list : SkipList) (pair : ℚ × ExoString) :
    (addOrUpdatePair xx nx list pair).forget = SkipList.addOrUpdatePair xx nx list pair := by
  simp only [addOrUpdatePair, SkipList.addOrUpdatePair, forget_bind, forget_unseen]
  congr
  funext p
  obtain ⟨tmp, table⟩ := p
  cases tmp <;> simp

@[simp] theorem forget_addOrUpdateLoop (xx nx : Bool) (pairs : List (ℚ × ExoString))
    (list : SkipList) (changed new_insert : ℕ) :
    (addOrUpdateLoop xx nx pairs list changed new_insert).forget =
      SkipList.addOrUpdateLoop xx nx pairs list changed new_insert := by
  induction pairs generalizing list changed new_insert with
  | nil => rfl
  | cons pair pairs ih =>
      simp only [addOrUpdateLoop, SkipList.addOrUpdateLoop, forget_bind, forget_addOrUpdatePair, ih]

@[simp] theorem forget_addOrUpdateMember (list : SkipList) (xx nx ch : Bool) (args : ArgList)
    (arg_size : ℕ) : (addOrUpdateMember list xx nx ch args arg_size).forget =
      list.addOrUpdateMember xx nx ch args arg_size := by
  simp only [addOrUpdateMember, SkipList.addOrUpdateMember, forget_bind, forget_unseen]
  congr
  funext p
  obtain ⟨pairs, args⟩ := p
  cases pairs <;> simp

@[simp] theorem forget_scoreIncrement (list : SkipList) (args : ArgList) (nx : Bool) :
    (scoreIncrement list args nx).forget = list.scoreIncrement args nx := by
  simp only [scoreIncrement, SkipList.scoreIncrement, forget_bind, forget_unseen]
  congr
  funext p
  rcases p with ⟨_ | _ | ⟨pair, pairs⟩, args⟩
  · rfl
  · rfl
  · simp only [forget_bind, forget_unseen]
    congr
    funext q
    obtain ⟨tmp, table⟩ := q
    cases tmp <;> simp

@[simp] theorem forget_addToSortedSet (list : SkipList) (xx nx ch incr : Bool) (args : ArgList) :
    (addToSortedSet list xx nx ch incr args).forget = list.addToSortedSet xx nx ch incr args := by
  simp only [addToSortedSet, SkipList.addToSortedSet, forget_ite, forget_bind, forget_pure,
    forget_unseen, forget_scoreIncrement, forget_addOrUpdateMember]

@[simp] theorem forget_openSortedSet (key : ExoString) :
    (openSortedSet key).forget = Exoredis.openSortedSet key := by
  simp only [openSortedSet, Exoredis.openSortedSet, forget_bind, forget_updated]
  congr
  funext found
  cases found with
  | none => simp
  | some value => cases value <;> rfl

@[simp] theorem forget_zaddCommand (args : ArgList) :
    (zaddCommand args).forget = Exoredis.zaddCommand args := by
  simp only [zaddCommand, Exoredis.zaddCommand, forget_ite]
  congr
  rcases args with _ | ⟨cmd, _ | ⟨key, rest⟩⟩
  · rfl
  · rfl
  · simp only [forget_bind, forget_openSortedSet]
    congr
    funext found
    cases found <;> simp

@[simp] theorem forget_delKeys (args : ArgList) (count : ℕ) :
    (delKeys args count).forget = Exoredis.delKeys args count := by
  induction args generalizing count with
  | nil => rfl
  | cons node rest ih =>
      simp only [delKeys, Exoredis.delKeys, forget_bind, forget_updated, ih]

@[simp] theorem forget_delCommand (args : ArgList) :
    (delCommand args).forget = Exoredis.delCommand args := by
  simp only [delCommand, Exoredis.delCommand, forget_ite, forget_bind, forget_pure, forget_delKeys]

@[simp] theorem forget_setbitCommand (args : ArgList) :
    (setbitCommand args).forget = Exoredis.setbitCommand args := by
  match args with
  | [] | [_] | [_, _] | [_, _, _] => rfl
  | cmd :: key :: offset :: value :: rest =>
      simp only [setbitCommand, Exoredis.setbitCommand, forget_ite, forget_bind, forget_pure,
        forget_updated]
      congr
      funext found
      cases found with
      | none => simp
      | some value =>
          cases value with
          | bitmap _ => simp
          | bulkString _ | sortedSet _ | sortedSetEntry _ | exoCmd _ => rfl

@[simp] theorem forget_loadSkiplistEntry (fp : List UInt8) :
    (loadSkiplistEntry fp).forget = Exoredis.loadSkiplistEntry fp := by
  simp only [loadSkiplistEntry, Exoredis.loadSkiplistEntry, forget_bind, forget_unseen,
    forget_zaddCommand, forget_pure]

@[simp] theorem forget_loadEntry (code : ℕ) (fp : List UInt8) :
    (loadEntry code fp).forget = Exoredis.loadEntry code fp := by
  simp only [loadEntry, Exoredis.loadEntry, forget_ite, forget_updated, forget_loadSkiplistEntry,
    forget_pure]

@[simp] theorem forget_loadLoop (fuel : ℕ) (fp : List UInt8) :
    (loadLoop fuel fp).forget = Exoredis.loadLoop fuel fp := by
  induction fuel generalizing fp with
  | zero => rfl
  | succ fuel ih =>
      rw [loadLoop, Exoredis.loadLoop]
      cases takeLE 8 fp with
      | none => rfl
      | some e => simp only [forget_bind, forget_loadEntry, forget_ite, forget_pure, ih]

@[simp] theorem forget_loadFromDB : loadFromDB.forget = Exoredis.loadFromDB := by
  simp only [loadFromDB, Exoredis.loadFromDB, forget_bind, forget_unseen]
  congr
  funext s
  cases s.dump with
  | none => rfl
  | some fp => exact forget_loadLoop _ fp

@[simp] theorem forget_callCommand (f : CommandPtr) (args : ArgList) :
    (callCommand f args).forget = Exoredis.callCommand f args := by
  cases f with
  | delCommand => exact forget_delCommand args
  | setbitCommand => exact forget_setbitCommand args
  | zaddCommand => exact forget_zaddCommand args
  | loadCommand =>
      simp only [callCommand, Exoredis.callCommand, loadCommand, forget_bind, forget_loadFromDB,
        forget_pure, bind_assoc, pure_bind]
  | _ => exact forget_updated _

@[simp] theorem forget_executeCommand (cmd : ExoCmd) (tokens : ArgList) :
    (executeCommand cmd tokens).forget = Exoredis.executeCommand cmd tokens := by
  simp only [executeCommand, Exoredis.executeCommand, forget_ite, forget_bind, forget_pure,
    forget_unseen, forget_loadFromDB, forget_callCommand]

@[simp] theorem forget_commandDispatcher (tokens : ArgList) :
    (commandDispatcher tokens).forget = Exoredis.commandDispatcher tokens := by
  cases tokens with
  | nil => rfl
  | cons head rest =>
      simp only [commandDispatcher, Exoredis.commandDispatcher, forget_bind, forget_unseen]
      congr
      funext s
      congr
      funext p
      obtain ⟨node, commands⟩ := p
      cases node with
      | none => simp only [forget_bind, forget_unseen, forget_pure]
      | some cmd =>
          simp only [forget_bind, forget_unseen, forget_executeCommand, forget_pure]
          congr
          funext _
          congr
          funext p
          split <;> rfl

/-- Without its points, a request is the one that the server runs. -/
theorem forget_serve (tokens : List (List UInt8)) :
    (serve tokens).forget = Exoredis.serve tokens := by
  simp only [serve, Exoredis.serve, forget_bind, forget_unseen, forget_commandDispatcher,
    forget_pure]

end Signal

end Exoredis
