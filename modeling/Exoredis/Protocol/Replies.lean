import Exoredis.Library.Framing
import Exoredis.Protocol.Grammar

/-!
# Replies on the wire

What a client reads: a line, with a type byte in front, and behind the line of a bulk string or
of an array the bytes that it announces. A value is taken off the front of a stream whatever
follows it (`respFraming`), since a line holds no CR and a bulk string states its length.
-/

namespace Exoredis

open Decimal

/-- A value of the protocol, as a client reads it. -/
inductive Resp
  | simple (text : List UInt8)
  | error (text : List UInt8)
  | integer (num : ℕ)
  | null
  | bulk (str : List UInt8)
  | array (strs : List (List UInt8))
deriving DecidableEq, Repr

namespace Resp

def encode : Resp → List UInt8
  | simple text => 43 :: text ++ crlf
  | error text => 45 :: text ++ crlf
  | integer num => 58 :: decimal num ++ crlf
  | null => ascii "$-1" ++ crlf
  | bulk str => writeBulk str
  | array strs => 42 :: decimal strs.length ++ crlf ++ strs.flatMap writeBulk

/-- Texts are within one line. -/
def Valid : Resp → Prop
  | simple text => 13 ∉ text
  | error text => 13 ∉ text
  | _ => True

/-- The bytes up to the first line end, and those behind it. -/
def readLine (bytes : List UInt8) : Option (List UInt8 × List UInt8) :=
  match bytes.dropWhile (· ≠ 13) with
  | 13 :: 10 :: rest => some (bytes.takeWhile (· ≠ 13), rest)
  | _ => none

/-- `len` bytes and a line end. -/
def readBytes (len : ℕ) (bytes : List UInt8) : Option (List UInt8 × List UInt8) :=
  match bytes.drop len with
  | 13 :: 10 :: rest => some (bytes.take len, rest)
  | _ => none

def readBulk (bytes : List UInt8) : Option (List UInt8 × List UInt8) := do
  let line ← readLine bytes
  match line.1 with
  | 36 :: digits => readBytes (decVal digits) line.2
  | _ => none

def readBulks : ℕ → List UInt8 → Option (List (List UInt8) × List UInt8)
  | 0, bytes => some ([], bytes)
  | count + 1, bytes => do
      let str ← readBulk bytes
      let strs ← readBulks count str.2
      return (str.1 :: strs.1, strs.2)

/-- The value at the front, and the bytes behind it. -/
def decode (bytes : List UInt8) : Option (Resp × List UInt8) := do
  let line ← readLine bytes
  match line.1 with
  | 43 :: text => return (simple text, line.2)
  | 45 :: text => return (error text, line.2)
  | 58 :: digits => return (integer (decVal digits), line.2)
  | 36 :: digits =>
      if digits = ascii "-1" then return (null, line.2)
      else
        let str ← readBytes (decVal digits) line.2
        return (bulk str.1, str.2)
  | 42 :: digits =>
      let strs ← readBulks (decVal digits) line.2
      return (array strs.1, strs.2)
  | _ => none

theorem readLine_append {line : List UInt8} (h : 13 ∉ line) (rest : List UInt8) :
    readLine (line ++ crlf ++ rest) = some (line, rest) := by
  have hall : ∀ c ∈ line, decide (c ≠ 13) = true := fun c hc =>
    decide_eq_true fun heq => h (heq ▸ hc)
  have hdrop : (line ++ crlf ++ rest).dropWhile (· ≠ 13) = 13 :: 10 :: rest := by
    rw [List.append_assoc, List.dropWhile_append_of_pos hall]
    rfl
  have htake : (line ++ crlf ++ rest).takeWhile (· ≠ 13) = line := by
    rw [List.append_assoc, List.takeWhile_append_of_pos hall]
    simp [crlf]
  rw [readLine, hdrop, htake]
  rfl

theorem cr_notMem_decimal (num : ℕ) : 13 ∉ decimal num := fun h =>
  absurd (decimal_digit num 13 h) (by decide)

theorem readBytes_append (str rest : List UInt8) :
    readBytes str.length (str ++ crlf ++ rest) = some (str, rest) := by
  rw [readBytes, List.append_assoc, List.drop_left, List.take_left]
  rfl

theorem writeBulk_eq (str rest : List UInt8) :
    writeBulk str ++ rest = (36 :: decimal str.length) ++ crlf ++ (str ++ crlf ++ rest) := by
  simp [writeBulk, numberToString]

theorem cr_notMem_cons {c : UInt8} (hc : c ≠ 13) {line : List UInt8} (h : 13 ∉ line) :
    13 ∉ c :: line := by
  rw [List.mem_cons, not_or]
  exact ⟨hc.symm, h⟩

theorem readBulk_writeBulk (str rest : List UInt8) :
    readBulk (writeBulk str ++ rest) = some (str, rest) := by
  rw [readBulk, writeBulk_eq, readLine_append (cr_notMem_cons (by decide) (cr_notMem_decimal _)),
    Option.bind_eq_bind, Option.bind_some]
  simp only [decVal_decimal]
  exact readBytes_append str rest

theorem readBulks_flatMap (strs : List (List UInt8)) (rest : List UInt8) :
    readBulks strs.length (strs.flatMap writeBulk ++ rest) = some (strs, rest) := by
  induction strs with
  | nil => rfl
  | cons str strs ih =>
      rw [List.length_cons, List.flatMap_cons, List.append_assoc, readBulks, readBulk_writeBulk,
        Option.bind_eq_bind, Option.bind_some]
      simp only [ih]
      rfl

/-- A length is no `-1`. -/
theorem decimal_ne_minus_one (num : ℕ) : decimal num ≠ ascii "-1" := by
  intro h
  have hminus : (45 : UInt8) ∈ decimal num := by
    rw [h]
    decide
  exact absurd (decimal_digit num 45 hminus) (by decide)

theorem decode_encode (v : Resp) (rest : List UInt8) (h : v.Valid) :
    decode (v.encode ++ rest) = some (v, rest) := by
  cases v with
  | simple text =>
      rw [encode, decode, readLine_append (cr_notMem_cons (by decide) h)]
      rfl
  | error text =>
      rw [encode, decode, readLine_append (cr_notMem_cons (by decide) h)]
      rfl
  | integer num =>
      rw [encode, decode, readLine_append (cr_notMem_cons (by decide) (cr_notMem_decimal num)),
        Option.bind_eq_bind, Option.bind_some]
      simp only [decVal_decimal]
      rfl
  | null =>
      rw [encode, decode, readLine_append (by decide)]
      rfl
  | bulk str =>
      rw [encode, decode, writeBulk_eq,
        readLine_append (cr_notMem_cons (by decide) (cr_notMem_decimal _)), Option.bind_eq_bind,
        Option.bind_some]
      simp only [decVal_decimal]
      rw [if_neg (decimal_ne_minus_one _), readBytes_append]
      rfl
  | array strs =>
      rw [encode, decode, List.append_assoc,
        readLine_append (cr_notMem_cons (by decide) (cr_notMem_decimal _)), Option.bind_eq_bind,
        Option.bind_some]
      simp only [decVal_decimal, readBulks_flatMap]
      rfl

end Resp

/-- The framing of replies. -/
def respFraming : Framing Resp UInt8 where
  encode := Resp.encode
  decode := Resp.decode
  Valid := Resp.Valid
  ne_nil v _ := by cases v <;> simp [Resp.encode, writeBulk, crlf]
  decode_encode := Resp.decode_encode

end Exoredis
