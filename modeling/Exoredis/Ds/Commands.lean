import Exoredis.Ds.SkipList
import Exoredis.Library.LittleEndian

/-!
# `commands.c`

The command table, the commands, their argument parsers and the dump file. A
command returns its reply together with its arguments, whose `dead` flags and
upper-cased tokens the dispatcher still reads.

`updateValue` writes an object back that a command changed through the value
pointer of a node.
-/

namespace Exoredis

open LittleEndian

def RET_BIT_ON : List UInt8 := ascii "1"

def RET_BIT_OFF : List UInt8 := ascii "0"

def commandTable : List ExoCmd := [
  ⟨ascii "GET", BULKSTRING, 1, false, false, true, .getCommand⟩,
  ⟨ascii "SET", BULKSTRING, 2, true, true, false, .setCommand⟩,
  ⟨ascii "DEL", BULKSTRING, 1, false, true, true, .delCommand⟩,
  ⟨ascii "PING", 0, 0, false, false, true, .pingCommand⟩,
  ⟨ascii "FLUSHALL", 0, 0, false, false, true, .flushCommand⟩,
  ⟨ascii "GETBIT", BITMAP, 2, false, false, true, .getbitCommand⟩,
  ⟨ascii "SETBIT", BITMAP, 3, false, false, false, .setbitCommand⟩,
  ⟨ascii "ZADD", SORTED_SET, 3, true, true, false, .zaddCommand⟩,
  ⟨ascii "ZCARD", SORTED_SET, 1, false, false, true, .zcardCommand⟩,
  ⟨ascii "ZCOUNT", SORTED_SET, 3, false, false, true, .zcountCommand⟩,
  ⟨ascii "ZRANGE", SORTED_SET, 3, false, true, true, .zrangeCommand⟩,
  ⟨ascii "SAVE", BULKSTRING, 0, false, false, true, .saveCommand⟩,
  ⟨ascii "LOADDB", 0, 0, false, false, true, .loadCommand⟩]

/-- The memory around a string literal: `before` is the byte in front of it. -/
def literalMemory (before : UInt8) (text : List UInt8) (i : ℤ) : UInt8 :=
  if 0 ≤ i then text.getD i.toNat 0 else before

/-- Registers a command in the bucket of its name, a literal with the byte
`before` in front of it. -/
def addCommand (before : UInt8) (ht : HashTable ExoCmd) (cmd : ExoCmd) :
    Exo (HashTable ExoCmd) := do
  let key_hash ← stringHash (literalMemory before cmd.cmd_str) cmd.cmd_str.length
  let cmd_str ← newString cmd.cmd_str
  let list ← addNodeToList (ht.buckets key_hash) (newNode cmd_str cmd)
  return ht.setBucket key_hash list

def addCommands (before : ExoCmd → UInt8) : List ExoCmd → HashTable ExoCmd →
    Exo (HashTable ExoCmd)
  | [], ht => return ht
  | cmd :: cmds, ht => do
      let ht ← addCommand (before cmd) ht cmd
      addCommands before cmds ht

def initializeCmdTable (before : ExoCmd → UInt8) : Exo (HashTable ExoCmd) :=
  addCommands before commandTable HashTable.newHashTable

/-! ## The keyspace -/

/-- Runs a table operation on `HASH_TABLE`. -/
def onKeyspace {α : Type} (f : HashTable ExoVal → Exo (α × HashTable ExoVal)) : Exo α := do
  let (a, ht) ← f (← get).HASH_TABLE
  modify fun s => { s with HASH_TABLE := ht }
  return a

/-- Runs a table operation without a result on `HASH_TABLE`. -/
def onKeyspace_ (f : HashTable ExoVal → Exo (HashTable ExoVal)) : Exo Unit := do
  let ht ← f (← get).HASH_TABLE
  modify fun s => { s with HASH_TABLE := ht }

/-- The object behind the value pointer of the node of `key` is now `val`. -/
def HashTable.updateValue (ht : HashTable ExoVal) (key : ExoString) (val : ExoVal) :
    Exo (HashTable ExoVal) := do
  let str_hash ← stringHash key.memory key.len
  match ← findNode (ht.buckets str_hash) key with
  | some c => return ht.setBucket str_hash (c.before ++ { c.node with value := val } :: c.after)
  | none => return ht

/-! ## Strings -/

def getCommand (args : ArgList) : Exo (Reply × ArgList) :=
  match args with
  | _ :: key :: _ => do
      match ← onKeyspace fun ht => ht.get key.key with
      | some (.bulkString str) => return (.bulkString str.buf, args)
      | some _ => return (_Error .WRONG_TYPE_OF_COMMAND_ON_TARGET_OBJECT, args)
      | none => return (_Null, args)
  | _ => throw .missingArgument

structure SetSwitches where
  ex : Bool
  ex_v : ℕ
  px : Bool
  px_v : ℕ
  nx : Bool
  xx : Bool
deriving DecidableEq, Repr

/-- `(uint64_t)MIN(tmp, DEFAULT_EXPIRY_MS)`. -/
def expiryArg (tmp : ℤ) : ℕ := toUnsigned (if tmp < DEFAULT_EXPIRY_MS then tmp else DEFAULT_EXPIRY_MS)

/-- Parses the arguments behind the value. -/
def parseSetSwitches : ArgList → SetSwitches → Except ErrorCode SetSwitches × ArgList
  | [], sw => (.ok sw, [])
  | node :: rest, sw =>
      let node := { node with key := upCase node.key }
      if strcmp node.key.buf (ascii "EX") = .eq then
        match rest with
        | [] => (.error .SYNTAX_ERROR, [node])
        | value :: rest =>
            let tmp := stringToLongLong value.key.buf
            if tmp = -1 then
              (.error .VALUE_IS_NOT_AN_INTEGER_OR_OUT_OF_RANGE, node :: value :: rest)
            else
              let (res, rest) := parseSetSwitches rest { sw with ex := true, ex_v := expiryArg tmp }
              (res, node :: value :: rest)
      else if strcmp node.key.buf (ascii "PX") = .eq then
        match rest with
        | [] => (.error .SYNTAX_ERROR, [node])
        | value :: rest =>
            let tmp := stringToLongLong value.key.buf
            if tmp = -1 then
              (.error .VALUE_IS_NOT_AN_INTEGER_OR_OUT_OF_RANGE, node :: value :: rest)
            else
              let (res, rest) := parseSetSwitches rest { sw with px := true, px_v := expiryArg tmp }
              (res, node :: value :: rest)
      else if strcmp node.key.buf (ascii "NX") = .eq then
        let (res, rest) := parseSetSwitches rest { sw with nx := true }
        (res, node :: rest)
      else if strcmp node.key.buf (ascii "XX") = .eq then
        let (res, rest) := parseSetSwitches rest { sw with xx := true }
        (res, node :: rest)
      else
        (.error .SYNTAX_ERROR, node :: rest)

def noSwitches : SetSwitches := ⟨false, 0, false, 0, false, false⟩

/-- The milliseconds to live that the switches ask for. -/
def SetSwitches.exp_ms (sw : SetSwitches) : ℕ := (sw.ex_v * 1000 + sw.px_v) % 2 ^ 64

def setCommand (args : ArgList) : Exo (Reply × ArgList) := do
  if args.length > 9 then
    return (_Error .SYNTAX_ERROR, args)
  else if args.length < 3 then
    return (_Error .WRONG_NUMBER_OF_ARGUMENTS, args)
  match args with
  | cmd :: key :: val :: rest =>
      match parseSetSwitches rest noSwitches with
      | (.error code, rest) => return (_Error code, cmd :: key :: val :: rest)
      | (.ok sw, rest) =>
          let args := cmd :: key :: val :: rest
          if (sw.ex || sw.px) && decide (sw.exp_ms = 0) then
            return (_Error .INVALID_EXPIRE_TIME_IN_SET, args)
          else if sw.nx && sw.xx then
            return (_Null, args)
          let ret ← onKeyspace fun ht =>
            ht.setWithExpiry key.key (.bulkString val.key) sw.exp_ms sw.nx sw.xx
          return (ret, args)
  | _ => throw .missingArgument

def delKeys : ArgList → ℕ → Exo ℕ
  | [], count => return count
  | node :: rest, count => do
      let n ← onKeyspace fun ht => ht.del node.key
      delKeys rest (count + n)

def delCommand (args : ArgList) : Exo (Reply × ArgList) := do
  if args.length < 2 then
    return (_Error .WRONG_NUMBER_OF_ARGUMENTS, args)
  let count ← delKeys args.tail 0
  return (.respInteger (numberToString count), args)

def pingCommand (args : ArgList) : Exo (Reply × ArgList) := return (_Pong, args)

def flushCommand (args : ArgList) : Exo (Reply × ArgList) := do
  (← get).HASH_TABLE.freeHashTable
  modify fun s => { s with HASH_TABLE := HashTable.newHashTable }
  return (_OK, args)

/-! ## Bitmaps -/

def bitReply (result : Bool) : Reply := .respInteger (if result then RET_BIT_ON else RET_BIT_OFF)

def getbitCommand (args : ArgList) : Exo (Reply × ArgList) :=
  match args with
  | _ :: key :: offset :: _ => do
      let pos := stringToLongLong offset.key.buf
      if pos = -1 ∨ pos > OFFSET_MAX then
        return (_Error .OFFSET_NOT_INT_OR_OUT_OF_RANGE, args)
      match ← onKeyspace fun ht => ht.get key.key with
      | some (.bitmap node) =>
          let result ← getBit node pos
          return (bitReply result, args)
      | some _ => return (_Error .WRONG_TYPE_OF_COMMAND_ON_TARGET_OBJECT, args)
      | none => return (bitReply false, args)
  | _ => throw .missingArgument

def setbitCommand (args : ArgList) : Exo (Reply × ArgList) :=
  match args with
  | cmd :: key :: offset :: value :: rest => do
      let pos := stringToLongLong offset.key.buf
      if pos = -1 ∨ pos > OFFSET_MAX then
        return (_Error .OFFSET_NOT_INT_OR_OUT_OF_RANGE, setAllDead args)
      let bit := stringToBit value.key
      if bit = -1 then
        return (_Error .BIT_NOT_INT_OR_OUT_OF_RANGE, setAllDead args)
      match ← onKeyspace fun ht => ht.get key.key with
      | some (.bitmap node) =>
          let (result, node) ← setBit node pos (decide (bit ≠ 0))
          onKeyspace_ fun ht => ht.updateValue key.key (.bitmap node)
          return (bitReply result, setAllDead args)
      | some _ => return (_Error .WRONG_TYPE_OF_COMMAND_ON_TARGET_OBJECT, setAllDead args)
      | none =>
          let node ← initBitmapNode pos (decide (bit ≠ 0))
          onKeyspace_ fun ht => ht.set key.key (.bitmap node)
          return (bitReply false, { cmd with dead := true } :: key ::
            { offset with dead := true } :: { value with dead := true } :: rest)
  | _ => throw .missingArgument

/-! ## Sorted sets -/

structure ZaddSwitches where
  xx : Bool
  nx : Bool
  ch : Bool
  incr : Bool
deriving DecidableEq, Repr

/-- A token that starts a score ends the search for switches. -/
def startsScore (str : List UInt8) : Bool :=
  Decimal.isDigit (firstChar str) || decide (firstChar str = 46) || decide (firstChar str = 45)

/-- Records the switches among the arguments behind the key. Every token passed
on the way is upper-cased in place. -/
def parseSwitches : ArgList → ZaddSwitches → ZaddSwitches × ArgList
  | [], sw => (sw, [])
  | node :: rest, sw =>
      if startsScore node.key.buf then (sw, node :: rest)
      else
        let node := { node with key := upCase node.key }
        let sw :=
          if strcmp (ascii "NX") node.key.buf = .eq then { sw with nx := true }
          else if strcmp (ascii "XX") node.key.buf = .eq then { sw with xx := true }
          else if strcmp (ascii "CH") node.key.buf = .eq then { sw with ch := true }
          else if strcmp (ascii "INCR") node.key.buf = .eq then { sw with incr := true }
          else sw
        let (sw, rest) := parseSwitches rest sw
        (sw, node :: rest)

/-- The sorted set of `key`, made and entered in the keyspace if the key is
missing; `none` for a value of another type. -/
def openSortedSet (key : ExoString) : Exo (Option SkipList) := do
  match ← onKeyspace fun ht => ht.get key with
  | some (.sortedSet list) => return some list
  | some _ => return none
  | none =>
      let list ← SkipList.newSkipList
      onKeyspace_ fun ht => ht.set key (.sortedSet list)
      return some list

def zaddCommand (args : ArgList) : Exo (Reply × ArgList) := do
  if args.length < 4 then
    return (_Error .WRONG_NUMBER_OF_ARGUMENTS, args)
  match args with
  | cmd :: key :: rest =>
      match ← openSortedSet key.key with
      | none =>
          return (_Error .WRONG_TYPE_OF_COMMAND_ON_TARGET_OBJECT, setAllDead args)
      | some sk_list =>
          let (sw, rest) := parseSwitches rest ⟨false, false, false, false⟩
          let (ret, sk_list, args) ←
            sk_list.addToSortedSet sw.xx sw.nx sw.ch sw.incr (cmd :: key :: rest)
          onKeyspace_ fun ht => ht.updateValue key.key (.sortedSet sk_list)
          if sk_list.size = 0 then
            let _ ← onKeyspace fun ht => ht.del key.key
          return (ret, args)
  | _ => throw .missingArgument

def zcardCommand (args : ArgList) : Exo (Reply × ArgList) :=
  match args with
  | _ :: key :: _ => do
      match ← onKeyspace fun ht => ht.get key.key with
      | some (.sortedSet sk_list) =>
          return (.respInteger (numberToString sk_list.size), args)
      | some _ => return (_Error .WRONG_TYPE_OF_COMMAND_ON_TARGET_OBJECT, args)
      | none => return (.respInteger (numberToString 0), args)
  | _ => throw .missingArgument

/-- A signed bound; a plus sign may follow the minus sign. -/
def parseBound (str : List UInt8) : Option ℚ :=
  let (minus, str) := SkipList.splitMinus str
  let str := if firstChar str = 43 then str.tail else str
  let score := stringTolongDouble str
  if score = -1 then none else some (if minus then -1 * score else score)

/-- The bounds in the order of the arguments. -/
def parseMinMax : ArgList → Option (List ℚ)
  | [] => some []
  | node :: rest =>
      match parseBound node.key.buf with
      | none => none
      | some score => (parseMinMax rest).map fun scores => score :: scores

def zcountCommand (args : ArgList) : Exo (Reply × ArgList) :=
  match args with
  | _ :: key :: rest => do
      match ← onKeyspace fun ht => ht.get key.key with
      | some (.sortedSet sk_list) =>
          match parseMinMax rest with
          | some [left, right] =>
              let mi ← sk_list.rankByScore left false
              let ma ← sk_list.rankByScore right true
              let res := if mi > ma then 0 else ma - mi
              return (.respInteger (numberToString res), args)
          | some _ => throw .shortRead
          | none => return (_Error .MIN_OR_MAX_IS_NOT_A_FLOAT, args)
      | some _ => return (_Error .WRONG_TYPE_OF_COMMAND_ON_TARGET_OBJECT, args)
      | none => return (.respInteger (numberToString 0), args)
  | _ => throw .missingArgument

/-- A signed index of ZRANGE, or `none` for the error value; the sign is applied
in `unsigned long`. -/
def parseIndex (str : List UInt8) : Option ℤ :=
  let (minus, str) := SkipList.splitMinus str
  let num := toUnsigned (stringToLongLong str)
  if num = 2 ^ 64 - 1 then none
  else some (wrap64 (if minus then -1 * num else num))

/-- The range and the `WITHSCORES` switch behind it. -/
def parseRange (args : ArgList) : Except ErrorCode (ℤ × ℤ × Bool) :=
  match args with
  | l :: r :: rest =>
      match parseIndex l.key.buf, parseIndex r.key.buf with
      | some left, some right =>
          match rest with
          | [] => .ok (left, right, false)
          | node :: _ =>
              if strcmp (strUpCase node.key.buf) (ascii "WITHSCORES") = .eq then
                .ok (left, right, true)
              else .error .SYNTAX_ERROR
      | _, _ => .error .VALUE_IS_NOT_AN_INTEGER_OR_OUT_OF_RANGE
  | _ => .error .VALUE_IS_NOT_AN_INTEGER_OR_OUT_OF_RANGE

/-- The first element and the number of elements of a range of `list_size`
members. -/
def clampRange (list_size left right : ℤ) : ℤ × ℤ :=
  let left := if left < 0 then max (wrap64 (list_size + left)) 0 else left
  let right := if right < 0 then max (wrap64 (list_size + right)) (-1) else right
  let right := min right (wrap64 (list_size - 1))
  (left, max (wrap64 (wrap64 (right - left) + 1)) 0)

/-- At most `len` members from `sk_node` on. -/
def collectRange (list : SkipList) (withscore : Bool) : ℕ → Option NodePtr → Exo ArgList
  | 0, _ => return []
  | _, none => return []
  | len + 1, some p => do
      let sk_node ← list.deref p
      let score ←
        if withscore then do
          let str ← newString (doubleToString sk_node.score)
          pure [{ newArg str with dead := true }]
        else pure []
      let rest ← collectRange list withscore len sk_node.next
      return newArg sk_node.key :: score ++ rest

def zrangeCommand (args : ArgList) : Exo (Reply × ArgList) := do
  if args.length - 1 ≠ 3 ∧ args.length - 1 ≠ 4 then
    return (_Error .WRONG_NUMBER_OF_ARGUMENTS, args)
  match args with
  | _ :: key :: rest =>
      match parseRange rest with
      | .error code => return (_Error code, args)
      | .ok (left, right, withscore) =>
          match ← onKeyspace fun ht => ht.get key.key with
          | some (.sortedSet sk_list) =>
              let (left, len) := clampRange sk_list.size left right
              let sk_node ← if len > 0 then sk_list.rankByOrder left else pure none
              let result ← collectRange sk_list withscore len.toNat sk_node
              return (.respArray result, args)
          | some _ => return (_Error .WRONG_TYPE_OF_COMMAND_ON_TARGET_OBJECT, args)
          | none => return (.respArray [], args)
  | _ => throw .missingArgument

/-! ## Saving -/

/-- A length-prefixed string. -/
def writeString (str : List UInt8) : List UInt8 := le 8 str.length ++ str

def writeHashMapToFile (key value : ExoString) (expiry : ℕ) : List UInt8 :=
  le 8 BULKSTRING ++ writeString key.buf ++ writeString value.buf ++
    writeString (llToString expiry)

def writeHBitMapToFile (key : ExoString) (bm_node : BitmapNode) : List UInt8 :=
  le 8 BITMAP ++ writeString key.buf ++ le 8 bm_node.mem.length ++
    leArray 4 (bm_node.mem.map BitVec.toNat)

/-- One record of a sorted set. -/
def writeEntry (key : List UInt8) (score : ℚ) (member : List UInt8) : List UInt8 :=
  le 8 SORTED_SET ++ writeString key ++ writeString (doubleToString score) ++
    writeString member

/-- `while(sk_node->down) sk_node = sk_node->down`. -/
def bottomOf (list : SkipList) : ℕ → NodePtr → Exo NodePtr
  | 0, _ => throw .divergence
  | fuel + 1, p => do
      let node ← list.deref p
      match node.down with
      | some down => bottomOf list fuel down
      | none => return p

/-- The records of the bottom level from `sk_node` on. -/
def writeEntries (list : SkipList) (key : List UInt8) : ℕ → Option NodePtr → Exo (List UInt8)
  | _, none => return []
  | 0, some _ => throw .divergence
  | fuel + 1, some p => do
      let sk_node ← list.deref p
      let rest ← writeEntries list key fuel sk_node.next
      return writeEntry key sk_node.score sk_node.key.buf ++ rest

def writeSkiplistToFile (key : ExoString) (sk_list : SkipList) : Exo (List UInt8) := do
  let bottom ← bottomOf sk_list sk_list.nodeBound sk_list.head
  let head ← sk_list.deref bottom
  writeEntries sk_list key.buf sk_list.nodeBound head.next

def writeNode (node : ListNode ExoVal) : Exo (List UInt8) := do
  if node.freed then throw .useAfterFree
  match node.value with
  | .bulkString str => return writeHashMapToFile node.key str node.expiry
  | .bitmap bm_node => return writeHBitMapToFile node.key bm_node
  | .sortedSet sk_list => writeSkiplistToFile node.key sk_list
  | _ => return []

def writeList : List (ListNode ExoVal) → Exo (List UInt8)
  | [] => return []
  | node :: list => do
      let bytes ← writeNode node
      let rest ← writeList list
      return bytes ++ rest

/-- The records of the given buckets. -/
def writeBuckets (ht : HashTable ExoVal) : List ℕ → Exo (List UInt8)
  | [] => return []
  | i :: rest => do
      let bytes ← writeList (ht.buckets i)
      let bytes' ← writeBuckets ht rest
      return bytes ++ bytes'

def saveCommand : Exo Reply := do
  let s ← get
  if s.writable = false then
    return _Null
  let bytes ← writeBuckets s.HASH_TABLE (List.range INITIAL_SIZE)
  modify fun s => { s with dump := some bytes }
  return _OK

/-! ## Loading -/

/-- The size of the load buffer. -/
def LOAD_BUFFER : ℕ := 1024 * 1024 * 2

/-- `fread` of a length into an uninitialised variable: a short file leaves it
undefined. -/
def readLong (fp : List UInt8) : Exo (ℕ × List UInt8) :=
  match takeLE 8 fp with
  | some p => return p
  | none => throw .shortRead

/-- A length and as many bytes into the load buffer, copied to a new string. -/
def readString (fp : List UInt8) : Exo (ExoString × List UInt8) := do
  let (len, fp) ← readLong fp
  if len > LOAD_BUFFER then throw .bufferOverflow
  match takeBytes len fp with
  | some (bytes, fp) =>
      let str ← newString bytes
      return (str, fp)
  | none => throw .shortRead

/-- The bytes of the string that a reply points to. -/
def Reply.text : Reply → List UInt8
  | .simpleString str => str
  | .respError str => str
  | .respInteger str => str
  | .bulkString str => str
  | .respArray _ => []

/-- The loaders return `0` or, as here, `-1` together with the rest of the file. -/
def resultOf (res : Reply) (expected : String) : ℤ :=
  if strcmp (ascii expected) res.text = .eq then 0 else -1

def loadHashMapEntry (fp : List UInt8) : Exo (ℤ × List UInt8) := do
  let (key, fp) ← readString fp
  let (value, fp) ← readString fp
  let (str, fp) ← readString fp
  let exp_ms := toUnsigned (stringToLongLong str.buf)
  freeExoString str
  let res ← onKeyspace fun ht => ht.setFromLoad key (.bulkString value) exp_ms
  return (resultOf res "+OK", fp)

def loadSkiplistEntry (fp : List UInt8) : Exo (ℤ × List UInt8) := do
  let cmd ← newString (ascii "ZADD")
  let (key, fp) ← readString fp
  let (score, fp) ← readString fp
  let (member, fp) ← readString fp
  let (res, tokens) ← zaddCommand [newArg cmd, newArg key, newArg score, newArg member]
  freeDeadArgs tokens
  return (resultOf res "1", fp)

def loadBitmap (key : ExoString) (fp : List UInt8) (len : ℕ) : Exo (ℤ × List UInt8) :=
  match takeBytes (4 * len) fp with
  | some (bytes, fp) => do
      let mem := (ofLEArray 4 len bytes).map (BitVec.ofNat 32)
      onKeyspace_ fun ht => ht.set key (.bitmap ⟨mem⟩)
      return (0, fp)
  | none => throw .shortRead

def loadBitmapEntry (fp : List UInt8) : Exo (ℤ × List UInt8) := do
  let (key, fp) ← readString fp
  let (len, fp) ← readLong fp
  loadBitmap key fp len

/-- One pass of the loop of `loadFromDB`: the record behind a type code. A code
that no case names is skipped. -/
def loadEntry (code : ℕ) (fp : List UInt8) : Exo (ℤ × List UInt8) :=
  if code = BULKSTRING then loadHashMapEntry fp
  else if code = SORTED_SET then loadSkiplistEntry fp
  else if code = BITMAP then loadBitmapEntry fp
  else return (0, fp)

/-- Every pass takes at least the type code off the file. -/
def loadLoop : ℕ → List UInt8 → Exo ℤ
  | 0, _ => throw .divergence
  | fuel + 1, fp =>
      match takeLE 8 fp with
      | none => return 0
      | some (code, fp) => do
          let (ret, fp) ← loadEntry code fp
          if ret = -1 then return -1 else loadLoop fuel fp

def loadFromDB : Exo ℤ := do
  match (← get).dump with
  | some fp => loadLoop (fp.length + 1) fp
  | none => return 0

def loadCommand : Exo Reply := do
  let ret ← loadFromDB
  return if ret ≠ 0 then _Null else _OK

end Exoredis
