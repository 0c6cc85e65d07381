import Exoredis.Server.Protocol

/-!
# `redisserver.c`

Dispatch of a request, the reply on the wire, and the reclamation of garbage
behind it. `serve` is the part of `readCallback` that handles one tokenized
request, and `step` runs it at a clock reading.
-/

namespace Exoredis

open Decimal

def INPUT_BUFFER_SIZE : ℕ := 1024 * 1024

def validArgs (arg_count args_passed : ℕ) (variable_args : Bool) : Bool :=
  if arg_count = args_passed then true
  else if decide (args_passed ≠ 0) && variable_args then decide (args_passed % arg_count = 0)
  else false

/-- `cmd->f_ptr(tokens)`. -/
def callCommand : CommandPtr → ArgList → Exo (Reply × ArgList)
  | .getCommand, args => getCommand args
  | .setCommand, args => setCommand args
  | .delCommand, args => delCommand args
  | .pingCommand, args => pingCommand args
  | .flushCommand, args => flushCommand args
  | .getbitCommand, args => getbitCommand args
  | .setbitCommand, args => setbitCommand args
  | .zaddCommand, args => zaddCommand args
  | .zcardCommand, args => zcardCommand args
  | .zcountCommand, args => zcountCommand args
  | .zrangeCommand, args => zrangeCommand args
  | .saveCommand, args => do
      let reply ← saveCommand
      return (reply, args)
  | .loadCommand, args => do
      let reply ← loadCommand
      return (reply, args)

def executeCommand (cmd : ExoCmd) (tokens : ArgList) : Exo (Reply × ArgList) := do
  if strcmp cmd.cmd_str (ascii "SAVE") = .eq then
    let reply ← saveCommand
    return (reply, tokens)
  else if strcmp cmd.cmd_str (ascii "LOADDB") = .eq then
    let ret ← loadFromDB
    return (if ret ≠ -1 then _OK else _Null, tokens)
  if cmd.skip_arg_test ||
      validArgs cmd.args_count (tokens.length - 1) cmd.variable_arg_count then
    callCommand cmd.f_ptr tokens
  else
    return (_Error .WRONG_NUMBER_OF_ARGUMENTS, tokens)

/-- `result->ds_type == RESP_ERROR`. -/
def Reply.isError : Reply → Bool
  | .respError _ => true
  | _ => false

def commandDispatcher (tokens : ArgList) : Exo Reply := do
  match tokens with
  | [] => throw .missingArgument
  | head :: rest =>
      let head := { head with key := upCase head.key }
      let (node, commands) ← (← get).COMMANDS.get head.key
      modify fun s => { s with COMMANDS := commands }
      match node with
      | some cmd =>
          let (result, args) ← executeCommand cmd (head :: rest)
          if cmd.free_args || result.isError then freeAllArgs args else freeDeadArgs args
          return result
      | none =>
          freeAllArgs (head :: rest)
          return _Error .COMMAND_NOT_FOUND

/-! ## Replies on the wire -/

def crlf : List UInt8 := [13, 10]

/-- A bulk string: its length and its bytes. -/
def writeBulk (str : List UInt8) : List UInt8 :=
  36 :: numberToString str.length ++ crlf ++ str ++ crlf

def writeRespArray (list : ArgList) : List UInt8 :=
  42 :: numberToString list.length ++ crlf ++ list.flatMap fun node => writeBulk node.key.buf

def writeRespArrayToBuffer (list : ArgList) : Exo (List UInt8) := do
  freeDeadArgs list
  return writeRespArray list

def writeToBuffer : Reply → Exo (List UInt8)
  | .simpleString str => return str ++ crlf
  | .respError str => return str ++ crlf
  | .respInteger str => return 58 :: str ++ crlf
  | .bulkString str => return writeBulk str
  | .respArray list => writeRespArrayToBuffer list

/-! ## Garbage -/

/-- The entries of the buckets of a table. -/
def entryCount {V : Type} (ht : HashTable V) : ℕ :=
  ((List.range INITIAL_SIZE).map fun i => (ht.buckets i).length).sum

/-- The entries that freeing a value adds to the list, and its own. -/
def garbageWork : ExoVal → ℕ
  | .sortedSet list => entryCount list.table + 1
  | _ => 1

/-- Frees what a value points to; the other types have nothing to free. -/
def freeObject : ExoVal → Exo Unit
  | .sortedSet list => list.freeSkipList
  | .bulkString str => freeExoString str
  | _ => return

/-- The loop of `freeGarbage` at entry `i`. The successor is read before the
entry is processed. -/
def freeGarbageLoop : ℕ → ℕ → Exo Unit
  | 0, _ => throw .divergence
  | fuel + 1, i => do
      let s ← get
      match s.GARBAGE_LIST[i]? with
      | none => return
      | some val =>
          freeObject val
          if i + 1 < s.GARBAGE_LIST.length then freeGarbageLoop fuel (i + 1) else return

def freeGarbage : Exo Unit := do
  let s ← get
  freeGarbageLoop ((s.GARBAGE_LIST.map garbageWork).sum + 1) 0
  modify fun s => { s with GARBAGE_LIST := [] }

/-! ## Requests -/

def newArgs : List (List UInt8) → Exo ArgList
  | [] => return []
  | tkn :: tokens => do
      let key ← newString tkn
      let rest ← newArgs tokens
      return newArg key :: rest

/-- One tokenized request: dispatch, reply and reclamation. -/
def serve (tokens : List (List UInt8)) : Exo (List UInt8) := do
  let args ← newArgs tokens
  let result ← commandDispatcher args
  let output ← writeToBuffer result
  freeGarbage
  return output

/-- The input buffer after `evbuffer_remove` and the `recv` loop. A copy beyond
the allocation is a fault. -/
def fillBuffer : List UInt8 → List (List UInt8) → Except Fault (List UInt8)
  | buf, [] => .ok buf
  | buf, chunk :: chunks =>
      if INPUT_BUFFER_SIZE + 10 < buf.length + chunk.length then .error .bufferOverflow
      else fillBuffer (buf ++ chunk) chunks

/-- `rest` is what the allocated buffer holds behind the received bytes. A
request with a token that could not be allocated ends at its null pointer. -/
def readCallback (input : List UInt8) (chunks : List (List UInt8)) (rest : ℕ → UInt8) :
    Exo (List UInt8) := do
  match fillBuffer input chunks with
  | .error fault => throw fault
  | .ok buf =>
      let tokens :=
        if buf.length ≤ INPUT_BUFFER_SIZE then
          bufferTokenizer (fun i => if i < buf.length then buf.getD i 0 else rest i) buf.length
        else .ok none
      match tokens with
      | .error fault => throw fault
      | .ok none =>
          let output ← writeToBuffer (_Error .PROTOCOL_ERROR)
          freeGarbage
          return output
      | .ok (some []) =>
          freeGarbage
          return []
      | .ok (some tokens) =>
          match tokens.allSome with
          | some tokens => serve tokens
          | none => throw .nullDereference

/-- A tokenized request and the reading of the clock while it runs. -/
structure Request where
  now : ℕ
  tokens : List (List UInt8)
deriving DecidableEq, Repr

def step (s : Server) (r : Request) : Except Fault (List UInt8 × Server) :=
  serve r.tokens { s with now := r.now }

/-- The globals before `main` runs. -/
def blankServer (coins : ℕ → ℕ) (dump : Option (List UInt8)) : Server where
  COMMANDS := HashTable.newHashTable
  HASH_TABLE := HashTable.newHashTable
  GARBAGE_LIST := []
  freed := []
  nextId := 0
  now := 0
  coins := coins
  dump := dump
  writable := true

/-- The program after start-up: the literals of the command table lie one behind
the other, so the byte in front of each is the NUL byte of the one before. -/
def startUp (coins : ℕ → ℕ) (dump : Option (List UInt8)) : Except Fault Server :=
  (initializeCmdTable (fun _ => 0) (blankServer coins dump)).map fun p =>
    { p.2 with COMMANDS := p.1 }

end Exoredis
