import Exoredis.Ds.Types
import Exoredis.Library.Decimal

/-!
# `utilities.c`

Strings, their hash, number formats, the constant replies and the argument
list. A C string is read up to its first NUL byte (`cstr`); what the code
compares with `memcmp` or copies by length is the whole `buf`.

`long double` scores are exact rationals. The fixed-width integers of the
parsers wrap as on a 64-bit machine with 32-bit `int`.
-/

namespace Exoredis

open Decimal

/-! ## C strings -/

/-- The bytes of a NUL-terminated string. -/
def cstr (s : List UInt8) : List UInt8 := s.takeWhile (· ≠ 0)

/-- `strcmp`: C strings in the lexicographic order of their unsigned bytes. -/
def strcmp (a b : List UInt8) : Ordering :=
  cmp ((cstr a).map UInt8.toNat) ((cstr b).map UInt8.toNat)

/-- The first character of a C string. -/
def firstChar (s : List UInt8) : UInt8 := s.headD 0

def strUpCase : List UInt8 → List UInt8
  | [] => []
  | c :: cs =>
      if c = 0 then c :: cs
      else (if 97 ≤ c ∧ c ≤ 122 then c - 32 else c) :: strUpCase cs

def upCase (str : ExoString) : ExoString := { str with buf := strUpCase str.buf }

/-! ## Allocation -/

def newString (source : List UInt8) : Exo ExoString := do
  let s ← get
  set { s with nextId := s.nextId + 1 }
  return ⟨s.nextId, source⟩

def freeExoString (str : ExoString) : Exo Unit :=
  modify fun s => { s with freed := str.id :: s.freed }

def freeExoVal {V : Type} [IsExoVal V] (val : V) : Exo Unit :=
  modify fun s => { s with GARBAGE_LIST := s.GARBAGE_LIST ++ [IsExoVal.toExoVal val] }

def timeStamp : Exo ℕ := do
  return (← get).now

/-! ## The string hash -/

/-- A `char` is signed. -/
def signedChar (c : UInt8) : ℤ := Int.bmod c.toNat 256

/-- `hash = ((hash << 5) + hash) + c` on `unsigned long`. -/
def hashStep (hash : ℕ) (c : UInt8) : ℕ :=
  ((((hash <<< 5) + hash : ℕ) + signedChar c) % 2 ^ 64).toNat

/-- The first pass: at most `l` characters, up to the NUL byte. -/
def hashForward (string : ℤ → UInt8) : ℕ → ℤ → ℕ → ℕ
  | 0, _, hash => hash
  | l + 1, str, hash =>
      if string str = 0 then hash
      else hashForward string l (str + 1) (hashStep hash (string str))

/-- The second pass: `n` characters backwards from `str`. -/
def hashBackward (string : ℤ → UInt8) : ℕ → ℤ → ℕ → ℕ
  | 0, _, hash => hash
  | n + 1, str, hash => hashBackward string n (str - 1) (hashStep hash (string str))

/-- The third pass: every character read selects the position of the next. -/
def hashJump (string : ℤ → UInt8) (len : ℕ) : ℕ → UInt8 → ℕ → ℕ
  | 0, _, hash => hash
  | l + 1, c, hash =>
      let pos := ((signedChar c - 65) % 2 ^ 64).toNat % len
      hashJump string len l (string pos) (hashStep hash (string pos))

/-- `string i` is the byte at offset `i` from the pointer. The second pass
counts `l` down to `-1` and so reads `l + 1` characters, the last of them at
offset `-1`. -/
def stringHash (string : ℤ → UInt8) (len : ℕ) : Exo ℕ :=
  if len = 0 then throw .divisionByZero
  else
    let hash := hashForward string HASH_LEN 0 5381
    let l := min len HASH_LEN
    let hash := hashBackward string (l + 1) (l - 1) hash
    let hash := hashJump string len HASH_LEN (string 0) hash
    return hash % INITIAL_SIZE

/-- The memory around the characters of an allocated string: the record starts
with its little-endian length, and a NUL byte follows the characters. -/
def ExoString.memory (s : ExoString) (i : ℤ) : UInt8 :=
  if 0 ≤ i then s.buf.getD i.toNat 0
  else if -8 ≤ i then UInt8.ofNat (s.len / 256 ^ (i + 8).toNat)
  else 0

/-! ## Replies -/

def PONG : ℕ × String := (5, "+PONG")

def RET_OK : ℕ × String := (3, "+OK")

def RET_NULL : ℕ × String := (3, "$-1")

/-- The constant string of an error code: its declared length and its text. -/
def retError : ErrorCode → ℕ × String
  | .COMMAND_NOT_FOUND => (20, "-ERR unknown command")
  | .WRONG_NUMBER_OF_ARGUMENTS => (30, "-ERR wrong number of arguments")
  | .WRONG_TYPE_OF_COMMAND_ON_TARGET_OBJECT =>
      (39, "-WRONG_TYPE_OF_COMMAND_ON_TARGET_OBJECT")
  | .PROTOCOL_ERROR => (19, "-ERR Protocol error")
  | .FAILED_TO_FLUSH_DB => (19, "-Failed to flush db")
  | .OFFSET_NOT_INT_OR_OUT_OF_RANGE =>
      (49, "-ERR bit offset is not an integer or out of range")
  | .BIT_NOT_INT_OR_OUT_OF_RANGE => (42, "-ERR bit is not an integer or out of range")
  | .INCR_OPTION_SUPPORTS_A_SINGLE_INCREMENT_ELEMENT_PAIR =>
      (57, "-ERR INCR option supports a single increment-element pair")
  | .SYNTAX_ERROR => (17, "-ERR syntax error")
  | .VALUE_IS_NOT_A_VALID_FLOAT => (31, "-ERR value is not a valid float")
  | .XX_AND_NX_OPTIONS_AT_THE_SAME_TIME_ARE_NOT_COMPATIBLE =>
      (58, "-ERR XX and NX options at the same time are not compatible")
  | .MIN_OR_MAX_IS_NOT_A_FLOAT => (30, "-ERR min or max is not a float")
  | .VALUE_IS_NOT_AN_INTEGER_OR_OUT_OF_RANGE =>
      (44, "-ERR value is not an integer or out of range")
  | .INVALID_EXPIRE_TIME_IN_SET => (31, "-ERR invalid expire time in set")

/-- The bytes of a constant string that are sent: as many as its length says. -/
def sent (ret : ℕ × String) : List UInt8 := (ascii ret.2).take ret.1

/-- Every constant error is declared with the length of its text, and the text
marks it as an error. -/
theorem sent_retError (code : ErrorCode) :
    sent (retError code) = ascii (retError code).2 ∧
      (sent (retError code)).head? = some 45 := by
  cases code <;> decide

def _Error (code : ErrorCode) : Reply := .respError (sent (retError code))

def _Null : Reply := .simpleString (sent RET_NULL)

def _OK : Reply := .simpleString (sent RET_OK)

def _Pong : Reply := .simpleString (sent PONG)

/-! ## Numbers -/

/-- A `long long` wraps. -/
def wrap64 (x : ℤ) : ℤ := Int.bmod x (2 ^ 64)

/-- An `int` wraps. -/
def wrap32 (x : ℤ) : ℤ := Int.bmod x (2 ^ 32)

def numberToString (num : ℕ) : List UInt8 := decimal num

theorem numberToString_injective : Function.Injective numberToString :=
  Function.LeftInverse.injective decVal_decimal

def llToString (num : ℕ) : List UInt8 := decimal num

def stringToLongLongLoop : List UInt8 → ℤ → ℤ
  | [], l => if l > LL_MAX then -1 else l
  | c :: str, l =>
      if isDigit c = false ∨ l > LL_MAX then -1
      else stringToLongLongLoop str (wrap64 (l * 10 + digitVal c))

def stringToLongLong (str : List UInt8) : ℤ := stringToLongLongLoop (cstr str) 0

def stringToBit (str : ExoString) : ℤ :=
  if str.len > 1 then -1
  else if firstChar str.buf = 48 ∨ firstChar str.buf = 49 then digitVal (firstChar str.buf)
  else -1

/-- The greatest `long double`. -/
def LDBL_MAX : ℚ := 2 ^ 16384 - 2 ^ 16320

/-- `(double) a / b`. A zero divisor, which needs 32 fraction digits, gives an
IEEE infinity; a rational above every `long double` stands for it. -/
def doubleDiv (a b : ℤ) : ℚ :=
  if b = 0 then (if 0 < a then 2 * LDBL_MAX else -2 * LDBL_MAX) else a / b

/-- The integers `num`, `fraction` and `frac_len` that the loop accumulates, or
`none` where it returns `-1`. -/
def stringTolongDoubleLoop : List UInt8 → ℤ → ℤ → ℤ → Bool → Option (ℤ × ℤ × ℤ)
  | [], num, fraction, frac_len, _ => some (num, fraction, frac_len)
  | c :: str, num, fraction, frac_len, decimal =>
      if isDigit c = false then
        if c = 46 ∧ decimal = false then
          stringTolongDoubleLoop str num fraction frac_len true
        else none
      else if decimal then
        stringTolongDoubleLoop str num (wrap32 (fraction * 10 + digitVal c))
          (wrap32 (frac_len * 10)) decimal
      else
        stringTolongDoubleLoop str (wrap32 (num * 10 + digitVal c)) fraction frac_len decimal

def stringTolongDouble (str : List UInt8) : ℚ :=
  if cstr (strUpCase str) = ascii "INF" then LDBL_MAX
  else
    match stringTolongDoubleLoop (cstr str) 0 0 1 false with
    | none => -1
    | some (num, fraction, frac_len) =>
        num + if fraction ≠ 0 then doubleDiv fraction frac_len else 0

/-- The integer nearest to `q`, the even one of two. -/
def roundHalfEven (q : ℚ) : ℤ :=
  let r := q - ⌊q⌋
  if r < 1 / 2 ∨ (r = 1 / 2 ∧ ⌊q⌋ % 2 = 0) then ⌊q⌋ else ⌊q⌋ + 1

/-- `%Lf`: a sign, the integer part and six decimals. -/
def formatLf (num : ℚ) : List UInt8 :=
  let n := (roundHalfEven (|num| * 10 ^ 6)).toNat
  (if num < 0 then [45] else []) ++ decimal (n / 10 ^ 6) ++ [46] ++ padded 6 (n % 10 ^ 6)

/-- `snprintf` into 100 bytes keeps 99 characters. -/
def doubleToString (num : ℚ) : List UInt8 := (formatLf num).take 99

/-! ## Argument lists -/

def newArg (key : ExoString) : ArgListNode := ⟨key, false⟩

def setAllDead (args : ArgList) : ArgList := args.map fun node => { node with dead := true }

def freeAllArgs : ArgList → Exo Unit
  | [] => return
  | node :: rest => do
      freeExoString node.key
      freeAllArgs rest

def freeDeadArgs : ArgList → Exo Unit
  | [] => return
  | node :: rest => do
      if node.dead then freeExoString node.key
      freeDeadArgs rest

@[simp] theorem freeExoString_run (str : ExoString) (s : Server) :
    freeExoString str s = .ok ((), { s with freed := str.id :: s.freed }) := rfl

theorem freeAllArgs_run (args : ArgList) (s : Server) :
    freeAllArgs args s =
      .ok ((), { s with freed := (args.map fun node => node.key.id).reverse ++ s.freed }) := by
  induction args generalizing s with
  | nil => rfl
  | cons node rest ih =>
      rw [freeAllArgs, Effect.bind_run_ok (freeExoString_run node.key s), ih]
      simp

theorem freeDeadArgs_run (args : ArgList) (s : Server) :
    freeDeadArgs args s =
      .ok ((), { s with
        freed := ((args.filter fun node => node.dead).map fun node => node.key.id).reverse ++
          s.freed }) := by
  induction args generalizing s with
  | nil => rfl
  | cons node rest ih =>
      by_cases hdead : node.dead = true
      · rw [freeDeadArgs, if_pos hdead, Effect.bind_run_ok (freeExoString_run node.key s)]
        change freeDeadArgs rest _ = _
        rw [ih]
        simp [hdead]
      · rw [freeDeadArgs, if_neg hdead]
        change freeDeadArgs rest s = _
        rw [ih]
        simp [hdead]

end Exoredis
