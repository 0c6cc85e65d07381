import Exoredis.Library.Machine
import Exoredis.SortedSet.Ranges
import Exoredis.SortedSet.Rankings

/-!
# What the server is for

A dataset is a map from keys to strings with a time of expiry, to bits, and to rankings. The
commands are stated on datasets, for any arguments: which replies they give and what they leave.
An expired string is found by no command. It stays in the dataset until a command looks its key
up (`collect`), as SET must not come upon it.

A request without a meaning is `Undefined`. So are those that make the program divide by zero or
write to freed memory, those that load a dump, and the insertion of a member at the score of
another one.
-/

namespace Exoredis

/-- Why a request has no meaning. -/
inductive Undefined
  /-- There is no command. -/
  | noTokens
  /-- A key, a member or the name of the command is empty. -/
  | emptyString
  /-- A SET comes upon an expired string. -/
  | expiredKey
  /-- A member is put at the score of another one, contains a NUL byte or has no room. -/
  | tiedScore
  /-- The dump is loaded. -/
  | load
deriving DecidableEq, Repr

/-- A value as a client sees it. -/
inductive Datum
  | string (str : List UInt8) (expiry : ℕ)
  | bitmap (bits : ℕ → Bool)
  | sortedSet (scores : Scores)

def Datum.expired (now : ℕ) : Datum → Bool
  | string _ expiry => decide (expiry < now)
  | _ => false

abbrev Dataset := List UInt8 → Option Datum

namespace Dataset

def empty : Dataset := fun _ => none

def put (m : Dataset) (key : List UInt8) (d : Datum) : Dataset := Function.update m key (some d)

def erase (m : Dataset) (key : List UInt8) : Dataset := Function.update m key none

/-- What is found under a key. -/
def find (m : Dataset) (now : ℕ) (key : List UInt8) : Option Datum :=
  (m key).filter fun d => !d.expired now

/-- An expired string is dropped when its key is looked up. -/
def collect (m : Dataset) (now : ℕ) (key : List UInt8) : Dataset :=
  Function.update m key (m.find now key)

/-- What a command replies and leaves. -/
abbrev Outcome := Except Undefined (Reply × Dataset)

/-- A command that looks a key up goes on with what is found. -/
def lookUp (m : Dataset) (now : ℕ) (key : List UInt8) (f : Option Datum → Dataset → Outcome) :
    Outcome :=
  if key = [] then .error .emptyString else f (m.find now key) (m.collect now key)

def wrongType (m : Dataset) : Outcome := .ok (_Error .WRONG_TYPE_OF_COMMAND_ON_TARGET_OBJECT, m)

def get (m : Dataset) (now : ℕ) (key : List UInt8) : Outcome :=
  m.lookUp now key fun found m =>
    match found with
    | some (.string str _) => .ok (.bulkString str, m)
    | some _ => m.wrongType
    | none => .ok (_Null, m)

/-- SET with the switches `sw`: with NX the key has to be missing, with XX present. -/
def setWith (m : Dataset) (now : ℕ) (key val : List UInt8) (sw : SetSwitches) : Outcome :=
  if key = [] then .error .emptyString
  else if (m key).any (Datum.expired now) then .error .expiredKey
  else if (sw.nx && (m.find now key).isSome) || (sw.xx && (m.find now key).isNone) then
    .ok (_Null, m)
  else .ok (_OK, m.put key (.string val (HashTable.expiryAt sw.exp_ms now)))

def set (m : Dataset) (now : ℕ) : List (List UInt8) → Outcome
  | key :: val :: options =>
      if options.length > 6 then .ok (_Error .SYNTAX_ERROR, m)
      else
        match switchesOf options with
        | .error code => .ok (_Error code, m)
        | .ok sw =>
            if (sw.ex || sw.px) && decide (sw.exp_ms = 0) then
              .ok (_Error .INVALID_EXPIRE_TIME_IN_SET, m)
            else if sw.nx && sw.xx then .ok (_Null, m)
            else m.setWith now key val sw
  | _ => .ok (_Error .WRONG_NUMBER_OF_ARGUMENTS, m)

/-- DEL counts the keys that are present when their turn comes. -/
def delAll (m : Dataset) (now : ℕ) : List (List UInt8) → ℕ → Except Undefined (ℕ × Dataset)
  | [], count => .ok (count, m)
  | key :: keys, count =>
      if key = [] then .error .emptyString
      else (m.erase key).delAll now keys (count + (m.find now key).isSome.toNat)

def del (m : Dataset) (now : ℕ) (keys : List (List UInt8)) : Outcome :=
  if keys = [] then .ok (_Error .WRONG_NUMBER_OF_ARGUMENTS, m)
  else (m.delAll now keys 0).map fun p => (.respInteger (numberToString p.1), p.2)

/-- The position that a token is read as, unless it is refused. -/
def position (token : List UInt8) : Option ℕ :=
  let pos := stringToLongLong token
  if pos = -1 ∨ pos > OFFSET_MAX then none else some (toUnsigned pos)

/-- The bit that a token is read as. -/
def bitOf (token : List UInt8) : Option Bool :=
  let bit := stringToBit ⟨0, token⟩
  if bit = -1 then none else some (decide (bit ≠ 0))

def getbit (m : Dataset) (now : ℕ) (key offset : List UInt8) : Outcome :=
  match position offset with
  | none => .ok (_Error .OFFSET_NOT_INT_OR_OUT_OF_RANGE, m)
  | some pos =>
      m.lookUp now key fun found m =>
        match found with
        | some (.bitmap bits) => .ok (bitReply (bits pos), m)
        | some _ => m.wrongType
        | none => .ok (bitReply false, m)

def setbit (m : Dataset) (now : ℕ) (key offset value : List UInt8) : Outcome :=
  match position offset, bitOf value with
  | none, _ => .ok (_Error .OFFSET_NOT_INT_OR_OUT_OF_RANGE, m)
  | some _, none => .ok (_Error .BIT_NOT_INT_OR_OUT_OF_RANGE, m)
  | some pos, some bit =>
      m.lookUp now key fun found m =>
        match found with
        | some (.bitmap bits) =>
            .ok (bitReply (bits pos), m.put key (.bitmap (Function.update bits pos bit)))
        | some _ => m.wrongType
        | none =>
            .ok (bitReply false, m.put key (.bitmap (Function.update (fun _ => false) pos bit)))

/-- ZADD on the ranking of a key. An empty ranking is no value. -/
def zaddOn (m : Dataset) (key : List UInt8) (scores : Scores) (rest : ArgList) : Outcome :=
  if ∃ p ∈ zaddWorked rest, p.2.buf = [] then .error .emptyString
  else if Careful scoreboard Untied rest scores then
    let res := boardZadd scoreboard rest scores
    .ok (res.1, if res.2.size = 0 then m.erase key else m.put key (.sortedSet res.2))
  else .error .tiedScore

def zadd (m : Dataset) (now : ℕ) : List (List UInt8) → Outcome
  | key :: rest =>
      if rest.length < 2 then .ok (_Error .WRONG_NUMBER_OF_ARGUMENTS, m)
      else
        m.lookUp now key fun found m =>
          match found with
          | some (.sortedSet scores) => m.zaddOn key scores (argsFrom 0 rest)
          | some _ => m.wrongType
          | none => m.zaddOn key Ranking.empty (argsFrom 0 rest)
  | [] => .ok (_Error .WRONG_NUMBER_OF_ARGUMENTS, m)

/-- A command that reads the ranking of a key. -/
def readScores (m : Dataset) (now : ℕ) (key : List UInt8) (f : Scores → Reply) (missing : Reply) :
    Outcome :=
  m.lookUp now key fun found m =>
    match found with
    | some (.sortedSet scores) => .ok (f scores, m)
    | some _ => m.wrongType
    | none => .ok (missing, m)

def zcard (m : Dataset) (now : ℕ) (key : List UInt8) : Outcome :=
  m.readScores now key (fun scores => .respInteger (numberToString scores.size))
    (.respInteger (numberToString 0))

/-- The members between two bounds, both included. -/
def countBetween (scores : Scores) (left right : ℚ) : ℕ :=
  scores.pairs.countP fun p => decide (left ≤ p.1 ∧ p.1 ≤ right)

def zcount (m : Dataset) (now : ℕ) (key left right : List UInt8) : Outcome :=
  m.readScores now key
    (fun scores =>
      match parseBound left, parseBound right with
      | some left, some right => .respInteger (numberToString (countBetween scores left right))
      | _, _ => _Error .MIN_OR_MAX_IS_NOT_A_FLOAT)
    (.respInteger (numberToString 0))

/-- The elements of the reply for a pair. -/
def shownPair (withscore : Bool) (p : ℚ × List UInt8) : List (List UInt8) :=
  p.2 :: if withscore then [doubleToString p.1] else []

/-- The members from one index to another, both included, each with its score if asked for. -/
def slice (scores : Scores) (left right : ℤ) (withscore : Bool) : List (List UInt8) :=
  (indexSlice scores.pairs (firstIndex scores.size left) (lastIndex scores.size right)).flatMap
    (shownPair withscore)

def zrange (m : Dataset) (now : ℕ) : List (List UInt8) → Outcome
  | key :: rest =>
      if rest.length ≠ 2 ∧ rest.length ≠ 3 then .ok (_Error .WRONG_NUMBER_OF_ARGUMENTS, m)
      else
        match parseRange (argsFrom 0 rest) with
        | .error code => .ok (_Error code, m)
        | .ok (left, right, withscore) =>
            m.readScores now key
              (fun scores => .respArray (argsFrom 0 (slice scores left right withscore)))
              (.respArray [])
  | [] => .ok (_Error .WRONG_NUMBER_OF_ARGUMENTS, m)

/-- A command on arguments that have passed the check of their number. -/
def run (m : Dataset) (now : ℕ) : CommandPtr → List (List UInt8) → Outcome
  | .getCommand, key :: _ => m.get now key
  | .setCommand, args => m.set now args
  | .delCommand, keys => m.del now keys
  | .pingCommand, _ => .ok (_Pong, m)
  | .flushCommand, _ => .ok (_OK, empty)
  | .getbitCommand, key :: offset :: _ => m.getbit now key offset
  | .setbitCommand, key :: offset :: value :: _ => m.setbit now key offset value
  | .zaddCommand, args => m.zadd now args
  | .zcardCommand, key :: _ => m.zcard now key
  | .zcountCommand, key :: left :: right :: _ => m.zcount now key left right
  | .zrangeCommand, args => m.zrange now args
  | .saveCommand, _ => .ok (_OK, m)
  | .loadCommand, _ => .error .load
  | _, _ => .ok (_Error .WRONG_NUMBER_OF_ARGUMENTS, m)

/-- The number of arguments that a command takes; SAVE takes any. -/
def accepts (cmd : ExoCmd) (n : ℕ) : Bool :=
  cmd.f_ptr = .saveCommand || cmd.f_ptr = .loadCommand || cmd.skip_arg_test ||
    validArgs cmd.args_count n cmd.variable_arg_count

/-- The reply to a request, and what it leaves. -/
def request (m : Dataset) (now : ℕ) : List (List UInt8) → Outcome
  | [] => .error .noTokens
  | name :: args =>
      if name = [] then .error .emptyString
      else
        match commandOf (strUpCase name) with
        | none => .ok (_Error .COMMAND_NOT_FOUND, m)
        | some cmd =>
            if accepts cmd args.length then m.run now cmd.f_ptr args
            else .ok (_Error .WRONG_NUMBER_OF_ARGUMENTS, m)

/-- The server as a client sees it. -/
def machine : Machine Dataset Request (List UInt8) Undefined := fun m r =>
  (m.request r.now r.tokens).map fun p => (p.1.wire, p.2)

end Dataset

end Exoredis
