import Exoredis.Library.Effect

/-!
# The data of the server

The records of the C headers, one Lean type for each. A pointer to a record
that is never shared is the record itself; only the nodes of a skip list, which
are linked across levels, live in a heap of their own (`SkipList.heap`).

Every allocated string carries an identity `id`, which plays the part of its
address: two strings with the same bytes are different allocations, and
`free` is logged by identity in `Server.freed`. The C globals and the inputs
the program takes from outside (the clock, the random tower heights, the dump
file) are the fields of `Server`.
-/

namespace Exoredis

/-- The ways an execution leaves the behaviour that C defines. The last two belong to
the argument list of a request: a link of a node that is not there, and a store
behind the end of the arrays of scores and members. -/
inductive Fault
  | divisionByZero
  | nullDereference
  | useAfterFree
  | bufferOverflow
  | shortRead
  | divergence
  | missingArgument
  | argsOverflow
deriving DecidableEq, Repr

def INITIAL_SIZE : ℕ := 2048

def OFFSET_MAX : ℕ := 4294967295

def SKIPLIST_MAX_LEVEL : ℕ := 16

def DOUBLE_MIN : ℚ := -9999999999

def LL_MAX : ℕ := 9223372036854775806

/-- Expiry time in milliseconds of a key that was given none. -/
def DEFAULT_EXPIRY_MS : ℕ := 2103541620316

def HASH_LEN : ℕ := 10

def BULKSTRING : ℕ := 3

def EXOCMD : ℕ := 101

def BITMAP : ℕ := 102

def SORTED_SET : ℕ := 103

def SORTED_SET_ENTRY : ℕ := 104

/-- The bytes of an ASCII literal. -/
def ascii (s : String) : List UInt8 :=
  s.toList.map fun c => UInt8.ofNat c.toNat

/-- A string with its length. `buf` leaves out the closing NUL byte, which may
also occur inside it. -/
structure ExoString where
  id : ℕ
  buf : List UInt8
deriving DecidableEq, Repr

def ExoString.len (s : ExoString) : ℕ := s.buf.length

structure ArgListNode where
  key : ExoString
  dead : Bool
deriving DecidableEq, Repr

abbrev ArgList := List ArgListNode

/-- A node of a bucket. `freed` marks a node that went through `freeListNode`
while it was still linked: the bucket still leads to it, and any access to it is
an access to freed memory. -/
structure ListNode (V : Type) where
  key : ExoString
  value : V
  expiry : ℕ
  freed : Bool
deriving Repr

/-- Every table of the program is made with `INITIAL_SIZE` buckets, so the
buckets in use are those below `INITIAL_SIZE`. -/
structure HashTable (V : Type) where
  buckets : ℕ → List (ListNode V)

/-- The word count `len` of a bitmap is the length of `mem`. -/
structure BitmapNode where
  mem : List (BitVec 32)
deriving DecidableEq, Repr

/-- The address of a skip list node: the nodes that one insertion allocates
form a tower and are told apart by their level. Tower `0` holds the sentinels.
What the code follows is not this address but the stored links. -/
structure NodePtr where
  tower : ℕ
  level : ℕ
deriving DecidableEq, Repr

structure SkipListNode where
  key : ExoString
  score : ℚ
  children : ℕ
  next : Option NodePtr
  down : Option NodePtr
deriving DecidableEq, Repr

/-- `fresh` is the tower that the next insertion allocates; it is not a field of
the C record. -/
structure SkipList where
  heap : NodePtr → Option SkipListNode
  head : NodePtr
  size : ℕ
  levels : ℕ
  table : HashTable NodePtr
  fresh : ℕ

/-- The function pointers of the command table. -/
inductive CommandPtr
  | getCommand | setCommand | delCommand | pingCommand | flushCommand
  | getbitCommand | setbitCommand | zaddCommand | zcardCommand | zcountCommand
  | zrangeCommand | saveCommand | loadCommand
deriving DecidableEq, Repr

structure ExoCmd where
  cmd_str : List UInt8
  ds_type : ℕ
  args_count : ℕ
  variable_arg_count : Bool
  skip_arg_test : Bool
  free_args : Bool
  f_ptr : CommandPtr
deriving DecidableEq, Repr

/-- A stored value with its type tag. -/
inductive ExoVal
  | bulkString (str : ExoString)
  | bitmap (node : BitmapNode)
  | sortedSet (list : SkipList)
  | sortedSetEntry (node : NodePtr)
  | exoCmd (cmd : ExoCmd)

namespace ExoVal

def ds_type : ExoVal → ℕ
  | bulkString _ => BULKSTRING
  | bitmap _ => BITMAP
  | sortedSet _ => SORTED_SET
  | sortedSetEntry _ => SORTED_SET_ENTRY
  | exoCmd _ => EXOCMD

end ExoVal

/-- The values that a hash table holds. The program has three kinds of table:
the keyspace, the member table of a sorted set and the command table. -/
class IsExoVal (V : Type) where
  toExoVal : V → ExoVal

instance : IsExoVal ExoVal := ⟨id⟩

instance : IsExoVal NodePtr := ⟨.sortedSetEntry⟩

instance : IsExoVal ExoCmd := ⟨.exoCmd⟩

/-- The errors of `_Error`, under the names of their codes. -/
inductive ErrorCode
  | COMMAND_NOT_FOUND
  | WRONG_NUMBER_OF_ARGUMENTS
  | WRONG_TYPE_OF_COMMAND_ON_TARGET_OBJECT
  | PROTOCOL_ERROR
  | FAILED_TO_FLUSH_DB
  | OFFSET_NOT_INT_OR_OUT_OF_RANGE
  | BIT_NOT_INT_OR_OUT_OF_RANGE
  | INCR_OPTION_SUPPORTS_A_SINGLE_INCREMENT_ELEMENT_PAIR
  | SYNTAX_ERROR
  | VALUE_IS_NOT_A_VALID_FLOAT
  | XX_AND_NX_OPTIONS_AT_THE_SAME_TIME_ARE_NOT_COMPATIBLE
  | MIN_OR_MAX_IS_NOT_A_FLOAT
  | VALUE_IS_NOT_AN_INTEGER_OR_OUT_OF_RANGE
  | INVALID_EXPIRE_TIME_IN_SET
deriving DecidableEq, Repr

/-- A reply, by the type tag that `writeToBuffer` switches on. -/
inductive Reply
  | simpleString (str : List UInt8)
  | respError (str : List UInt8)
  | respInteger (str : List UInt8)
  | bulkString (str : List UInt8)
  | respArray (list : ArgList)
deriving DecidableEq, Repr

/-- The globals of the program, together with what it reads from outside:
`now` is the clock in milliseconds, `coins` the lengths of the runs of odd
`rand()` results, `dump` the content of the file at `DB_FILE_PATH` and
`writable` whether that file can be opened for writing. `nextId` names the next
string to be allocated and `freed` lists the strings freed so far. -/
structure Server where
  COMMANDS : HashTable ExoCmd
  HASH_TABLE : HashTable ExoVal
  GARBAGE_LIST : List ExoVal
  freed : List ℕ
  nextId : ℕ
  now : ℕ
  coins : ℕ → ℕ
  dump : Option (List UInt8)
  writable : Bool

/-- A computation of the program. -/
abbrev Exo := Effect Server Fault

end Exoredis
