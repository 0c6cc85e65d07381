import Exoredis.Ds.HashTable

/-!
# `bitmap.c`

Bits packed in 32-bit words. Positions arrive as `long long` and are used as
`unsigned long`. Access to a word outside the allocation is a fault; allocation
itself succeeds.
-/

namespace Exoredis

def BITS_PER_WORD : ℕ := 32

/-- The conversion of a `long long` to `unsigned long`. -/
def toUnsigned (pos : ℤ) : ℕ := (pos % 2 ^ 64).toNat

theorem toUnsigned_natCast {p : ℕ} (hp : p < 2 ^ 64) : toUnsigned p = p := by
  unfold toUnsigned
  omega

theorem toUnsigned_lt (n : ℤ) : toUnsigned n < 2 ^ 64 := by
  unfold toUnsigned
  omega

def word_offset (pos : ℕ) : ℕ := pos / BITS_PER_WORD

def bit_offset (pos : ℕ) : ℕ := pos % BITS_PER_WORD

/-- `1 << bit_offset(pos)`. -/
def bitMask (pos : ℕ) : BitVec 32 := 1#32 <<< bit_offset pos

def wordAt (mem : List (BitVec 32)) (pos : ℕ) : Exo (BitVec 32) :=
  match mem[word_offset pos]? with
  | some w => return w
  | none => throw .bufferOverflow

def setbitUtility (mem : List (BitVec 32)) (pos : ℕ) : Exo (List (BitVec 32)) := do
  let w ← wordAt mem pos
  return mem.set (word_offset pos) (w ||| bitMask pos)

def clearbitUtility (mem : List (BitVec 32)) (pos : ℕ) : Exo (List (BitVec 32)) := do
  let w ← wordAt mem pos
  return mem.set (word_offset pos) (w &&& ~~~ bitMask pos)

def getbitUtility (mem : List (BitVec 32)) (pos : ℕ) : Exo Bool := do
  let w ← wordAt mem pos
  return decide (w &&& bitMask pos ≠ 0)

/-- `bit ? setbitUtility(mem, pos) : clearbitUtility(mem, pos)`. -/
def writeBit (mem : List (BitVec 32)) (pos : ℕ) (bit : Bool) : Exo (List (BitVec 32)) :=
  if bit then setbitUtility mem pos else clearbitUtility mem pos

/-- A new bitmap just long enough for the bit at `pos`. -/
def initBitmapNode (pos : ℤ) (bit : Bool) : Exo BitmapNode := do
  let len := word_offset (toUnsigned pos)
  let mem ← writeBit (List.replicate (len + 1) 0) (toUnsigned pos) bit
  return ⟨mem⟩

def getBit (node : BitmapNode) (pos : ℤ) : Exo Bool :=
  if toUnsigned pos < node.mem.length * BITS_PER_WORD then
    getbitUtility node.mem (toUnsigned pos)
  else
    return false

/-- The old bit, and the bitmap with the new one. A position past the end
extends the bitmap with zero words. -/
def setBit (node : BitmapNode) (pos : ℤ) (bit : Bool) : Exo (Bool × BitmapNode) := do
  let len := word_offset (toUnsigned pos)
  if toUnsigned pos < node.mem.length * BITS_PER_WORD then
    let ret ← getbitUtility node.mem (toUnsigned pos)
    let mem ← writeBit node.mem (toUnsigned pos) bit
    return (ret, ⟨mem⟩)
  else
    let mem := node.mem ++ List.replicate (len + 1 - node.mem.length) 0
    let mem ← writeBit mem (toUnsigned pos) bit
    return (false, ⟨mem⟩)

end Exoredis
