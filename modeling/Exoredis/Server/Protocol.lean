import Exoredis.Ds.Commands

/-!
# `protocol.c`

The two tokenizers. A buffer is the memory `mem` that starts at the buffer
pointer, of which the first `len` bytes were received; what lies behind them is
whatever was there before. Pointers are offsets from the buffer pointer and
wrap like `unsigned long`; `len` is below `2 ^ 63`, as the size of every object
is, so only the step over a token can wrap.

`respLoop` returns the tokens together with a log of its passes, whether or not
the buffer is accepted in the end.
-/

namespace Exoredis

open Decimal

/-- The largest object that can be allocated. -/
def PTRDIFF_MAX : ℕ := 2 ^ 63 - 1

/-- `(unsigned long)-1`, the error value of `getRespInt`. -/
def ULONG_MAX : ℕ := 2 ^ 64 - 1

/-- The bytes of `mem` from `pos` on. -/
def slice (mem : ℕ → UInt8) (pos len : ℕ) : List UInt8 :=
  (List.range len).map fun i => mem (pos + i)

/-- `while(str - start < len && *str != '\r') str++`, with `fuel` the number of
bytes left. -/
def skipToCr (mem : ℕ → UInt8) (len : ℕ) : ℕ → ℕ → ℕ
  | 0, str => str
  | fuel + 1, str =>
      if str < len ∧ mem str ≠ 13 then skipToCr mem len fuel (str + 1) else str

def getRespIntLoop (mem : ℕ → UInt8) (len : ℕ) : ℕ → ℕ → ℕ → ℕ
  | 0, _, _ => ULONG_MAX
  | fuel + 1, str, l =>
      if mem str = 13 then
        if str + 1 < len ∧ mem (str + 1) ≠ 10 then ULONG_MAX else l
      else if str ≥ len ∨ isDigit (mem str) = false then ULONG_MAX
      else getRespIntLoop mem len fuel (str + 1) ((l * 10 + digitVal (mem str)) % 2 ^ 64)

def getRespInt (mem : ℕ → UInt8) (len str : ℕ) : ℕ :=
  getRespIntLoop mem len (len - str + 1) str 0

/-- `newString(str, l)`: a string of `l` bytes takes `l + 9` bytes. `malloc`
returns `NULL` above `PTRDIFF_MAX`; if the sum wraps, it returns a block that
the copy overruns. -/
def copyToken (mem : ℕ → UInt8) (pos l : ℕ) : Except Fault (Option (List UInt8)) :=
  if 2 ^ 64 ≤ l + 9 then .error .bufferOverflow
  else if PTRDIFF_MAX < l + 9 then .ok none
  else .ok (some (slice mem pos l))

/-- What one pass of the main loop does up to cutting a token. -/
inductive Pass
  | reject
  | last (str : ℕ)
  | cut (pos l : ℕ)
deriving DecidableEq, Repr

def respPass (mem : ℕ → UInt8) (len str : ℕ) : Pass :=
  let str := skipToCr mem len (len - str) str
  if mem str = 13 ∧ str + 1 < len ∧ mem (str + 1) = 10 then
    if str + 2 < len then
      if mem (str + 2) = 36 then
        let str := str + 3
        let l := getRespInt mem len str
        if l = ULONG_MAX then .reject
        else
          let pos := skipToCr mem len (len - str) str + 2
          if (pos + l + 1) % 2 ^ 64 < len then .cut pos l else .reject
      else .reject
    else .last (str + 1)
  else .reject

/-- The cursor before and after a pass, and the slice that it cut. -/
structure PassLog where
  start : ℕ
  stop : ℕ
  slice : Option (ℕ × ℕ)
deriving DecidableEq, Repr

structure RespRun where
  log : List PassLog
  result : Except Fault (Option (List (Option (List UInt8))))

def RespRun.record (entry : PassLog) (run : RespRun) : RespRun :=
  { run with log := entry :: run.log }

/-- The test behind the loop. -/
def respFinish (len num str : ℕ) (tokens : List (Option (List UInt8))) : RespRun :=
  ⟨[], .ok (if num = 0 ∧ str = len - 1 then some tokens else none)⟩

/-- The main loop. `num--` in the loop test leaves `ULONG_MAX` behind when it
fails. -/
def respLoop (mem : ℕ → UInt8) (len : ℕ) : ℕ → ℕ → List (Option (List UInt8)) → RespRun
  | 0, str, tokens => respFinish len (if str < len then ULONG_MAX else 0) str tokens
  | num + 1, str, tokens =>
      if str < len then
        match respPass mem len str with
        | .reject => ⟨[], .ok none⟩
        | .last stop => (respFinish len num stop tokens).record ⟨str, stop, none⟩
        | .cut pos l =>
            let stop := (pos + l) % 2 ^ 64
            match copyToken mem pos l with
            | .error fault => ⟨[⟨str, stop, some (pos, l)⟩], .error fault⟩
            | .ok tkn =>
                if mem stop ≠ 13 then ⟨[⟨str, stop, some (pos, l)⟩], .ok none⟩
                else
                  (respLoop mem len num stop (tokens ++ [tkn])).record
                    ⟨str, stop, some (pos, l)⟩
      else respFinish len (num + 1) str tokens

def respRun (mem : ℕ → UInt8) (len : ℕ) : RespRun :=
  if mem 0 ≠ 42 then ⟨[], .ok none⟩
  else respLoop mem len ((getRespInt mem len 1 + 1) % 2 ^ 64) 1 []

/-- The tokens of a RESP array, `none` for an illegal buffer. A token is `none`
where no string could be allocated for it. -/
def respTokenizer (mem : ℕ → UInt8) (len : ℕ) :
    Except Fault (Option (List (Option (List UInt8)))) :=
  (respRun mem len).result

/-! ## The telnet tokenizer -/

def isSeparator (c : UInt8) : Bool := c = 32 || c = 13 || c = 10 || c = 0

/-- The first position from `index` on whose byte is, or is not, a separator. -/
def skipWhile (mem : ℕ → UInt8) (len : ℕ) (separators : Bool) : ℕ → ℕ → ℕ
  | 0, index => index
  | fuel + 1, index =>
      if index < len ∧ isSeparator (mem index) = separators then
        skipWhile mem len separators fuel (index + 1)
      else index

def simpleLoop (mem : ℕ → UInt8) (len : ℕ) : ℕ → ℕ → List (List UInt8)
  | 0, _ => []
  | fuel + 1, index =>
      if index < len then
        let str := skipWhile mem len true (len - index) index
        let runner := skipWhile mem len false (len - str) str
        let token_size := runner - str
        (if token_size ≠ 0 then [slice mem str token_size] else []) ++
          simpleLoop mem len fuel runner
      else []

def simpleTokenizer (mem : ℕ → UInt8) (len : ℕ) : List (List UInt8) :=
  simpleLoop mem len len 0

def bufferTokenizer (mem : ℕ → UInt8) (len : ℕ) :
    Except Fault (Option (List (Option (List UInt8)))) :=
  if len < 1 then .ok none
  else if mem 0 = 42 then respTokenizer mem len
  else .ok (some ((simpleTokenizer mem len).map some))

end Exoredis
