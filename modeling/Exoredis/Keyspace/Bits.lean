import Exoredis.Keyspace.Uniqueness
import Exoredis.Library.PackedBits

/-!
# SETBIT and GETBIT

What SETBIT and GETBIT are for: bits that are unset until they are set, at every
position up to `OFFSET_MAX`. The bitmap of a key is the packed form of the bits that the
requests on the key have set (`bits_refine`).
-/

namespace Exoredis

open Effect PackedBits

/-! ## The bitmap -/

theorem wordAt_run {mem : List (BitVec 32)} {p : ℕ} (hp : p / 32 < mem.length) (s : Server) :
    wordAt mem p s = .ok (mem.getD (p / 32) 0, s) := by
  rw [wordAt, show word_offset p = p / 32 from rfl, List.getElem?_eq_getElem hp,
    List.getD_eq_getElem _ _ hp]
  rfl

theorem getbitUtility_run {mem : List (BitVec 32)} {p : ℕ} (hp : p / 32 < mem.length)
    (s : Server) : getbitUtility mem p s = .ok (bitAt mem p, s) := by
  have htest : decide (mem.getD (p / 32) 0 &&& bitMask p ≠ 0) = bitAt mem p := by
    rw [Bool.eq_iff_iff, decide_eq_true_eq]
    exact and_mask_ne_zero_iff (by decide)
  rw [getbitUtility, bind_run_ok (wordAt_run hp s), htest]
  rfl

/-- A bit is written without a change of length. -/
theorem writeBit_run {mem : List (BitVec 32)} {p : ℕ} (hp : p / 32 < mem.length) (bit : Bool)
    (s : Server) : ∃ mem', writeBit mem p bit s = .ok (mem', s) ∧ mem'.length = mem.length ∧
      bitAt mem' = Function.update (bitAt mem) p bit := by
  cases bit with
  | true =>
      refine ⟨_, ?_, List.length_set, bitAt_set_or (by decide) hp⟩
      rw [writeBit, if_pos rfl, setbitUtility, bind_run_ok (wordAt_run hp s)]
      rfl
  | false =>
      refine ⟨_, ?_, List.length_set, bitAt_set_andNot (by decide) hp⟩
      rw [writeBit, if_neg Bool.false_ne_true, clearbitUtility, bind_run_ok (wordAt_run hp s)]
      rfl

theorem initBitmapNode_run {p : ℕ} (hp : p < 2 ^ 64) (bit : Bool) (s : Server) :
    ∃ node, initBitmapNode p bit s = .ok (node, s) ∧
      bitAt node.mem = Function.update (fun _ => false) p bit := by
  obtain ⟨mem, hrun, -, hbits⟩ := @writeBit_run (List.replicate (p / 32 + 1) 0) p
    (by rw [List.length_replicate]; exact Nat.lt_succ_self _) bit s
  refine ⟨⟨mem⟩, ?_, ?_⟩
  · rw [initBitmapNode, toUnsigned_natCast hp]
    exact bind_run_ok hrun
  · rw [hbits, ← List.nil_append (List.replicate (p / 32 + 1) 0), bitAt_append_zero, bitAt_nil]

theorem lt_words_iff {p n : ℕ} : p < n * BITS_PER_WORD ↔ p / 32 < n :=
  (Nat.div_lt_iff_lt_mul (by decide)).symm

theorem getBit_run {node : BitmapNode} {p : ℕ} (hp : p < 2 ^ 64) (s : Server) :
    getBit node p s = .ok (bitAt node.mem p, s) := by
  rw [getBit, toUnsigned_natCast hp]
  by_cases hlt : p < node.mem.length * BITS_PER_WORD
  · rw [if_pos hlt, getbitUtility_run (lt_words_iff.1 hlt)]
  · rw [if_neg hlt, bitAt_of_le (not_lt.1 hlt)]
    rfl

/-- SETBIT in place, or behind the end after the bitmap has grown. -/
theorem setBit_run {node : BitmapNode} {p : ℕ} (hp : p < 2 ^ 64) (bit : Bool) (s : Server) :
    ∃ node', setBit node p bit s = .ok ((bitAt node.mem p, node'), s) ∧
      node.mem.length ≤ node'.mem.length ∧
      bitAt node'.mem = Function.update (bitAt node.mem) p bit := by
  rw [setBit, toUnsigned_natCast hp]
  by_cases hlt : p < node.mem.length * BITS_PER_WORD
  · obtain ⟨mem, hrun, hlength, hbits⟩ := writeBit_run (lt_words_iff.1 hlt) bit s
    refine ⟨⟨mem⟩, ?_, hlength.ge, hbits⟩
    simp only [if_pos hlt]
    rw [bind_run_ok (getbitUtility_run (lt_words_iff.1 hlt) s), bind_run_ok hrun]
    rfl
  · have hword : node.mem.length ≤ p / 32 := not_lt.1 fun h => hlt (lt_words_iff.2 h)
    obtain ⟨mem, hrun, hlength, hbits⟩ := @writeBit_run
      (node.mem ++ List.replicate (p / 32 + 1 - node.mem.length) 0) p
      (by rw [List.length_append, List.length_replicate]; omega) bit s
    refine ⟨⟨mem⟩, ?_, ?_, ?_⟩
    · simp only [if_neg hlt]
      rw [show word_offset p = p / 32 from rfl, bind_run_ok hrun, bitAt_of_le (not_lt.1 hlt)]
      rfl
    · rw [hlength, List.length_append]
      exact Nat.le_add_right _ _
    · rw [hbits, bitAt_append_zero]

/-! ## Any position -/

/-- Only the unsigned position counts. -/
theorem toUnsigned_toUnsigned (n : ℤ) : toUnsigned (toUnsigned n) = toUnsigned n :=
  toUnsigned_natCast (toUnsigned_lt n)

theorem getBit_toUnsigned (node : BitmapNode) (pos : ℤ) (s : Server) :
    getBit node pos s = .ok (bitAt node.mem (toUnsigned pos), s) := by
  rw [← getBit_run (toUnsigned_lt pos), getBit, getBit, toUnsigned_toUnsigned]

theorem setBit_toUnsigned (node : BitmapNode) (pos : ℤ) (bit : Bool) (s : Server) :
    ∃ node', setBit node pos bit s = .ok ((bitAt node.mem (toUnsigned pos), node'), s) ∧
      bitAt node'.mem = Function.update (bitAt node.mem) (toUnsigned pos) bit := by
  obtain ⟨node', hrun, -, hbits⟩ := @setBit_run node _ (toUnsigned_lt pos) bit s
  rw [setBit, toUnsigned_toUnsigned] at hrun
  exact ⟨node', hrun, hbits⟩

theorem length_writeBit {mem mem' : List (BitVec 32)} {p : ℕ} {bit : Bool} {s t : Server}
    (hrun : writeBit mem p bit s = .ok (mem', t)) : mem'.length = mem.length := by
  rw [writeBit] at hrun
  split at hrun
  all_goals
    obtain ⟨word, s', -, hrun⟩ := bind_eq_ok_iff.1 hrun
    cases hrun
    exact List.length_set

theorem words_le (pos : ℤ) : toUnsigned pos / 32 + 1 ≤ 2 ^ 59 := by
  have hlt := toUnsigned_lt pos
  omega

/-- A bitmap has no more words than the positions need. -/
theorem length_setBit {node node' : BitmapNode} {pos : ℤ} {bit b : Bool} {s t : Server}
    (hrun : setBit node pos bit s = .ok ((b, node'), t)) (h : node.mem.length ≤ 2 ^ 59) :
    node'.mem.length ≤ 2 ^ 59 := by
  have hwords := words_le pos
  rw [setBit] at hrun
  by_cases hlt : toUnsigned pos < node.mem.length * BITS_PER_WORD
  · simp only [if_pos hlt] at hrun
    obtain ⟨_, s', -, hrun⟩ := bind_eq_ok_iff.1 hrun
    obtain ⟨mem, s'', hwrite, hrun⟩ := bind_eq_ok_iff.1 hrun
    cases hrun
    exact (length_writeBit hwrite).trans_le h
  · simp only [if_neg hlt] at hrun
    obtain ⟨mem, s'', hwrite, hrun⟩ := bind_eq_ok_iff.1 hrun
    cases hrun
    rw [length_writeBit hwrite, List.length_append, List.length_replicate]
    change _ + (toUnsigned pos / 32 + 1 - _) ≤ _
    omega

theorem length_initBitmapNode {node : BitmapNode} {pos : ℤ} {bit : Bool} {s t : Server}
    (hrun : initBitmapNode pos bit s = .ok (node, t)) : node.mem.length ≤ 2 ^ 59 := by
  obtain ⟨mem, s', hwrite, hrun⟩ := bind_eq_ok_iff.1 hrun
  cases hrun
  rw [length_writeBit hwrite, List.length_replicate]
  exact words_le pos

theorem initBitmapNode_toUnsigned (pos : ℤ) (bit : Bool) (s : Server) :
    ∃ node, initBitmapNode pos bit s = .ok (node, s) ∧
      bitAt node.mem = Function.update (fun _ => false) (toUnsigned pos) bit := by
  obtain ⟨node, hrun, hbits⟩ := initBitmapNode_run (toUnsigned_lt pos) bit s
  rw [initBitmapNode, toUnsigned_toUnsigned] at hrun
  exact ⟨node, hrun, hbits⟩

/-! ## Requests -/

/-- A token for a position up to `OFFSET_MAX`. -/
structure Offset where
  token : List UInt8
  pos : ℕ
  le : pos ≤ OFFSET_MAX
  parses : stringToLongLong token = pos

/-- A token for a bit. -/
structure BitToken where
  token : List UInt8
  bit : Bool
  parses : stringToBit ⟨0, token⟩ = bit.toNat

/-- The requests on the bits of a key. -/
inductive BitRequest
  | setbit (offset : Offset) (value : BitToken)
  | getbit (offset : Offset)

namespace BitRequest

def pos : BitRequest → ℕ
  | setbit offset _ => offset.pos
  | getbit offset => offset.pos

/-- The bit that a request sets at `p`. -/
def sets (p : ℕ) : BitRequest → Option Bool
  | setbit offset value => if offset.pos = p then some value.bit else none
  | getbit _ => none

def command : BitRequest → List UInt8
  | setbit _ _ => ascii "SETBIT"
  | getbit _ => ascii "GETBIT"

def arguments : BitRequest → List (List UInt8)
  | setbit offset value => [offset.token, value.token]
  | getbit offset => [offset.token]

end BitRequest

/-- A request as it arrives: the name of the command in any letter case. -/
structure BitCall where
  now : ℕ
  name : List UInt8
  request : BitRequest
  named : strUpCase name = request.command

def BitCall.toRequest (key : List UInt8) (r : BitCall) : Request :=
  ⟨r.now, r.name :: key :: r.request.arguments⟩

/-- The bit of the last SETBIT at `p`, unset if there was none. -/
def lastBit (rs : List BitCall) (p : ℕ) : Bool :=
  (rs.reverse.findSome? fun r => r.request.sets p).getD false

/-- Every request on the bits is answered with the bit that was last set at its position
among the requests before it. -/
def bitReplies (before : List BitCall) : List BitCall → List (List UInt8)
  | [] => []
  | r :: rs => (bitReply (lastBit before r.request.pos)).wire :: bitReplies (before ++ [r]) rs

theorem lastBit_append (before : List BitCall) (r : BitCall) (p : ℕ) :
    lastBit (before ++ [r]) p = (r.request.sets p).getD (lastBit before p) := by
  rw [lastBit, List.reverse_append, List.reverse_singleton, List.singleton_append,
    List.findSome?_cons]
  cases r.request.sets p <;> rfl

theorem lastBit_setbit (before : List BitCall) {r : BitCall} {offset : Offset} {value : BitToken}
    (hr : r.request = .setbit offset value) :
    lastBit (before ++ [r]) = Function.update (lastBit before) offset.pos value.bit := by
  funext p
  rw [lastBit_append, hr, BitRequest.sets, Function.update_apply]
  by_cases hp : offset.pos = p
  · rw [if_pos hp, if_pos hp.symm]
    rfl
  · rw [if_neg hp, if_neg fun h => hp h.symm]
    rfl

theorem lastBit_getbit (before : List BitCall) {r : BitCall} {offset : Offset}
    (hr : r.request = .getbit offset) : lastBit (before ++ [r]) = lastBit before := by
  funext p
  rw [lastBit_append, hr]
  rfl

/-! ## The keyspace -/

/-- The number of words of the bitmap of a key. -/
def wordCount (s : Server) (key : List UInt8) : ℕ :=
  match (s.HASH_TABLE.lookup key).map ListNode.value with
  | some (.bitmap bm_node) => bm_node.mem.length
  | _ => 0

/-- The key is missing and no bit is set, or it holds a bitmap with the bits. -/
structure HoldsBits (key : List UInt8) (s : Server) (bits : ℕ → Bool) : Prop where
  ready : s.Ready
  keyed : s.HASH_TABLE.Keyed
  flat : ∀ val ∈ s.GARBAGE_LIST, val.Flat
  bitmap : s.HASH_TABLE.lookup key = none ∧ bits = (fun _ => false) ∨
    ∃ node bm_node, s.HASH_TABLE.lookup key = some node ∧ node.value = .bitmap bm_node ∧
      bitAt bm_node.mem = bits

namespace HoldsBits

variable {s : Server} {bits : ℕ → Bool} {key : ArgListNode}

/-- Only the keyspace and the garbage matter. -/
theorem congr {key : List UInt8} (h : HoldsBits key s bits) {t : Server}
    (hcommands : t.COMMANDS = s.COMMANDS) (htable : t.HASH_TABLE = s.HASH_TABLE)
    (hflat : ∀ val ∈ t.GARBAGE_LIST, val.Flat) : HoldsBits key t bits where
  ready := ⟨hcommands ▸ h.ready.keyed, hcommands ▸ h.ready.lookup⟩
  keyed := htable ▸ h.keyed
  flat := hflat
  bitmap := by
    rw [htable]
    exact h.bitmap

/-- The bitmap of the key is made or replaced. -/
theorem update (h : HoldsBits key.key.buf s bits) {ht : HashTable ExoVal} (hht : ht.Keyed)
    {node : ListNode ExoVal} {bm_node : BitmapNode} (hnode : node.value = .bitmap bm_node)
    (hlookup : ht.lookup key.key.buf = some node) :
    HoldsBits key.key.buf { s with HASH_TABLE := ht } (bitAt bm_node.mem) where
  ready := ⟨h.ready.keyed, h.ready.lookup⟩
  keyed := hht
  flat := h.flat
  bitmap := .inr ⟨node, bm_node, hlookup, hnode, rfl⟩

theorem wordCount_eq {key : List UInt8} {node : ListNode ExoVal} {bm_node : BitmapNode}
    (hlookup : s.HASH_TABLE.lookup key = some node) (hnode : node.value = .bitmap bm_node) :
    wordCount s key = bm_node.mem.length := by
  rw [wordCount, hlookup, Option.map_some, hnode]

theorem getbitCommand_run (h : HoldsBits key.key.buf s bits) (hkey : key.key.buf ≠ [])
    (cmd offset : ArgListNode) {p : ℕ} (hp : p ≤ OFFSET_MAX)
    (hoffset : stringToLongLong offset.key.buf = p) :
    ∃ args, getbitCommand [cmd, key, offset] s = .ok ((bitReply (bits p), args), s) := by
  have hrange : ¬ ((p : ℤ) = -1 ∨ (p : ℤ) > OFFSET_MAX) := by omega
  have hp' : p < 2 ^ 64 := lt_of_le_of_lt hp (by decide)
  refine ⟨[cmd, key, offset], ?_⟩
  rw [getbitCommand]
  simp only [hoffset, if_neg hrange]
  rcases h.bitmap with ⟨hlookup, rfl⟩ | ⟨node, bm_node, hlookup, hnode, rfl⟩
  · rw [bind_run_ok (onKeyspace_run (HashTable.get_missing h.keyed.unfreed hkey
      (HashTable.cursor_eq_none_iff.2 hlookup)))]
    rfl
  · obtain ⟨c, hc, rfl⟩ := HashTable.cursor_of_lookup hlookup
    rw [bind_run_ok (onKeyspace_run (HashTable.get_live h.keyed.unfreed hkey hc
      (not_expired_bitmap hnode _))), hnode]
    simp only
    rw [bind_run_ok (getBit_run hp' _)]
    rfl

theorem setbitCommand_run (h : HoldsBits key.key.buf s bits) (hkey : key.key.buf ≠ [])
    (cmd offset value : ArgListNode) {p : ℕ} (hp : p ≤ OFFSET_MAX)
    (hoffset : stringToLongLong offset.key.buf = p) {bit : Bool}
    (hvalue : stringToBit value.key = bit.toNat) :
    ∃ args t, setbitCommand [cmd, key, offset, value] s = .ok ((bitReply (bits p), args), t) ∧
      HoldsBits key.key.buf t (Function.update bits p bit) ∧
      wordCount s key.key.buf ≤ wordCount t key.key.buf := by
  have hrange : ¬ ((p : ℤ) = -1 ∨ (p : ℤ) > OFFSET_MAX) := by omega
  have hp' : p < 2 ^ 64 := lt_of_le_of_lt hp (by decide)
  have hbit : ((bit.toNat : ℕ) : ℤ) ≠ -1 := by omega
  have hbit' : decide (((bit.toNat : ℕ) : ℤ) ≠ 0) = bit := by cases bit <;> rfl
  rw [setbitCommand]
  simp only [hoffset, if_neg hrange, hvalue, if_neg hbit, hbit']
  rcases h.bitmap with ⟨hlookup, rfl⟩ | ⟨node, bm_node, hlookup, hnode, rfl⟩
  · have hc := HashTable.cursor_eq_none_iff.2 hlookup
    obtain ⟨bm_node, hinit, hbits⟩ := initBitmapNode_run hp' bit s
    rw [bind_run_ok (onKeyspace_run (HashTable.get_missing h.keyed.unfreed hkey hc))]
    simp only
    rw [bind_run_ok hinit, bind_run_ok (onKeyspace_unit_run
      (HashTable.set_missing h.keyed.unfreed hkey hc (.bitmap bm_node)))]
    refine ⟨_, _, rfl, ?_, ?_⟩
    · let node : ListNode ExoVal := newNode key.key (.bitmap bm_node)
      have hkey' : node.key.buf = key.key.buf := rfl
      have hnode : node.value = .bitmap bm_node := rfl
      rw [← hbits]
      refine h.update (h.keyed.keyed_append rfl hkey' hkey hc) hnode ?_
      rw [HashTable.Keyed.lookup_append hkey' hc, if_pos rfl]
    · rw [wordCount, hlookup]
      exact Nat.zero_le _
  · obtain ⟨c, hc, rfl⟩ := HashTable.cursor_of_lookup hlookup
    obtain ⟨bm_node', hset, hle, hbits⟩ := @setBit_run bm_node p hp' bit s
    rw [bind_run_ok (onKeyspace_run (HashTable.get_live h.keyed.unfreed hkey hc
      (not_expired_bitmap hnode _))), hnode]
    simp only
    rw [bind_run_ok hset]
    simp only
    rw [bind_run_ok (onKeyspace_unit_run
      (HashTable.updateValue_found h.keyed.unfreed hkey hc (.bitmap bm_node')))]
    let node' : ListNode ExoVal := { c.node with value := .bitmap bm_node' }
    have hfreed : node'.freed = false := h.keyed.unfreed.node hc
    have hkey' : node'.key.buf = key.key.buf := (cursorOf_eq_some hc).2.1
    have hnode' : node'.value = .bitmap bm_node' := rfl
    have hlookup' : (s.HASH_TABLE.putBucket key.key.buf (c.before ++ node' :: c.after)).lookup
        key.key.buf = some node' := by
      rw [HashTable.Keyed.lookup_replace hkey' hc, if_pos rfl]
    refine ⟨_, _, rfl, ?_, ?_⟩
    · rw [← hbits]
      exact h.update (h.keyed.keyed_replace hfreed hkey' hc) hnode' hlookup'
    · rw [wordCount_eq hlookup hnode, wordCount_eq hlookup' hnode']
      exact hle

end HoldsBits

/-! ## Runs -/

/-- One request: the reply, the bits behind it, and a bitmap that has not shrunk. -/
theorem HoldsBits.step {s : Server} {key : List UInt8} (hkey : key ≠ []) {before : List BitCall}
    (h : HoldsBits key s (lastBit before)) (r : BitCall) :
    ∃ t, server s (r.toRequest key) =
        .ok ((bitReply (lastBit before r.request.pos)).wire, t) ∧
      HoldsBits key t (lastBit (before ++ [r])) ∧ wordCount s key ≤ wordCount t key := by
  obtain ⟨now, name, request, hname⟩ := r
  have hs : ∀ id, HoldsBits key { s with now := now, nextId := id } (lastBit before) :=
    fun id => h.congr rfl rfl h.flat
  cases request with
  | setbit offset value =>
      have hcmd : commandOf (strUpCase name) =
          some ⟨ascii "SETBIT", BITMAP, 3, false, false, false, .setbitCommand⟩ := by
        rw [hname]
        rfl
      have hvalue : stringToBit (ExoString.mk (s.nextId + 3) value.token) = value.bit.toNat :=
        value.parses
      obtain ⟨args, t, hrun, ht, hle⟩ := @setbitCommand_run _ (lastBit before)
        (newArg ⟨s.nextId + 1, key⟩) (hs (s.nextId + 4)) hkey
        (newArg ⟨s.nextId, strUpCase name⟩) (newArg ⟨s.nextId + 2, offset.token⟩)
        (newArg ⟨s.nextId + 3, value.token⟩) _ offset.le offset.parses _ hvalue
      obtain ⟨freed, hserve⟩ := @serve_run _ (hs s.nextId).ready name
        [key, offset.token, value.token] _ hcmd _ _ _
        ((executeCommand_run (by decide) (by decide) rfl).trans hrun) ht.flat
      refine ⟨_, hserve, ?_, hle⟩
      rw [lastBit_setbit before rfl]
      exact ht.congr rfl rfl (by simp)
  | getbit offset =>
      have hcmd : commandOf (strUpCase name) =
          some ⟨ascii "GETBIT", BITMAP, 2, false, false, true, .getbitCommand⟩ := by
        rw [hname]
        rfl
      obtain ⟨args, hrun⟩ := @getbitCommand_run _ (lastBit before)
        (newArg ⟨s.nextId + 1, key⟩) (hs (s.nextId + 3)) hkey
        (newArg ⟨s.nextId, strUpCase name⟩) (newArg ⟨s.nextId + 2, offset.token⟩) _
        offset.le offset.parses
      obtain ⟨freed, hserve⟩ := @serve_run _ (hs s.nextId).ready name [key, offset.token] _ hcmd
        _ _ _ ((executeCommand_run (by decide) (by decide) rfl).trans hrun) h.flat
      refine ⟨_, hserve, ?_, le_rfl⟩
      rw [lastBit_getbit before rfl]
      exact h.congr rfl rfl (by simp)

theorem HoldsBits.run {s : Server} {key : List UInt8} (hkey : key ≠ []) {before : List BitCall}
    (h : HoldsBits key s (lastBit before)) (rs : List BitCall) :
    ∃ t, server.run s (rs.map (BitCall.toRequest key)) = .ok (bitReplies before rs, t) ∧
      HoldsBits key t (lastBit (before ++ rs)) ∧ wordCount s key ≤ wordCount t key := by
  induction rs generalizing s before with
  | nil => exact ⟨s, rfl, by rwa [List.append_nil], le_rfl⟩
  | cons r rs ih =>
      obtain ⟨s', hstep, hs', hle⟩ := h.step hkey r
      obtain ⟨t, hrun, ht, hle'⟩ := ih hs'
      refine ⟨t, ?_, ?_, hle.trans hle'⟩
      · exact Machine.run_cons_ok_iff.2 ⟨_, s', _, hstep, hrun, rfl⟩
      · rwa [List.append_assoc] at ht

/-- The bit at a position of the bitmap of a key. -/
def bitIn (s : Server) (key : List UInt8) (p : ℕ) : Bool :=
  match (s.HASH_TABLE.lookup key).map ListNode.value with
  | some (.bitmap bm_node) => bitAt bm_node.mem p
  | _ => false

theorem HoldsBits.bitIn {s : Server} {key : List UInt8} {bits : ℕ → Bool}
    (h : HoldsBits key s bits) : bitIn s key = bits := by
  funext p
  rcases h.bitmap with ⟨hlookup, rfl⟩ | ⟨node, bm_node, hlookup, hnode, rfl⟩
  · rw [Exoredis.bitIn, hlookup]
    rfl
  · rw [Exoredis.bitIn, hlookup, Option.map_some, hnode]

/-- Every sequence of SETBIT and GETBIT requests on the key runs to its end, is answered
with the bits last set, and leaves exactly those bits; the bitmap does not shrink on the
way. -/
def BitsRefined (s : Server) (key : List UInt8) : Prop :=
  ∀ rs rs' : List BitCall, ∃ t t',
    server.run s (rs.map (BitCall.toRequest key)) = .ok (bitReplies [] rs, t) ∧
      server.run t (rs'.map (BitCall.toRequest key)) = .ok (bitReplies rs rs', t') ∧
      bitIn t key = lastBit rs ∧ bitIn t' key = lastBit (rs ++ rs') ∧
      wordCount t key ≤ wordCount t' key

def bitZero : Offset := ⟨ascii "0", 0, by decide, by decide⟩

def bitSet : BitToken := ⟨ascii "1", true, by decide⟩

/-- GETBIT at position `0`. -/
def getZero : BitCall := ⟨0, ascii "GETBIT", .getbit bitZero, by decide⟩

/-- The hash of the empty key divides by its length. -/
theorem step_getZero_nil {s : Server} (hready : s.Ready) :
    server s (getZero.toRequest []) = .error .divisionByZero := by
  have hcmd : commandOf (strUpCase (ascii "GETBIT")) =
      some ⟨ascii "GETBIT", BITMAP, 2, false, false, true, .getbitCommand⟩ := rfl
  have hready' : Server.Ready { s with now := 0 } := ⟨hready.keyed, hready.lookup⟩
  have hget : ∀ t, callCommand .getbitCommand [newArg ⟨s.nextId, strUpCase (ascii "GETBIT")⟩,
      newArg ⟨s.nextId + 1, []⟩, newArg ⟨s.nextId + 2, ascii "0"⟩] t = .error .divisionByZero := by
    intro t
    have hoffset : stringToLongLong (ascii "0") = 0 := by decide
    have hhash : onKeyspace (fun ht => ht.get (newArg ⟨s.nextId + 1, []⟩).key) t =
        .error .divisionByZero := by
      rw [onKeyspace, bind_run_ok (get_run t), HashTable.get, bind_run_error]
      rw [bind_run_error (stringHash_nil rfl t)]
    rw [callCommand, getbitCommand]
    simp only [show (newArg ⟨s.nextId + 2, ascii "0"⟩).key.buf = ascii "0" from rfl, hoffset]
    exact bind_run_error hhash
  change serve (ascii "GETBIT" :: [[], ascii "0"]) { s with now := 0 } = _
  rw [serve_eq hready' _ hcmd, answer, bind_run_error]
  exact (executeCommand_run (by decide) (by decide) rfl).trans (hget _)

/-- The bits of a key that is missing at first are kept exactly if the key is not empty. -/
theorem bitsRefined_iff (s : Server) (key : List UInt8) (hready : s.Ready)
    (hkeyed : s.HASH_TABLE.Keyed) (hflat : ∀ val ∈ s.GARBAGE_LIST, val.Flat)
    (habsent : s.HASH_TABLE.lookup key = none) : BitsRefined s key ↔ key ≠ [] := by
  constructor
  · rintro h rfl
    obtain ⟨t, -, hrun, -⟩ := h [getZero] []
    obtain ⟨o, s', -, hstep, -⟩ := Machine.run_cons_ok_iff.1 hrun
    rw [step_getZero_nil hready] at hstep
    cases hstep
  · intro hkey rs rs'
    have hs : HoldsBits key s (lastBit []) := ⟨hready, hkeyed, hflat, .inl ⟨habsent, rfl⟩⟩
    obtain ⟨t, hrun, ht, -⟩ := hs.run hkey rs
    obtain ⟨t', hrun', ht', hle⟩ := ht.run hkey rs'
    exact ⟨t, t', hrun, hrun', ht.bitIn, ht'.bitIn, hle⟩

/-- From start-up on, with the key `k`. -/
theorem bitsRefined_iff_started :
    BitsRefined (started (fun _ => 0) none) (ascii "k") ↔ ascii "k" ≠ [] := by
  obtain ⟨ht, hrun, hready⟩ := startUp_run (fun _ => 0) none
  have hstarted := startUp_eq_started (fun _ => 0) none
  rw [hrun] at hstarted
  rw [← Except.ok.inj hstarted]
  exact bitsRefined_iff _ (ascii "k") hready HashTable.keyed_newHashTable (by simp [blankServer])
    (HashTable.lookup_newHashTable _)

/-- SETBIT on the empty key ends the server. -/
theorem not_bitsRefined_nil :
    (server.run (started (fun _ => 0) none) [request ["SETBIT", "", "0", "1"]]).map Prod.fst =
        .error .divisionByZero ∧
      ¬ BitsRefined (started (fun _ => 0) none) [] := by
  have hfault : (server.run (started (fun _ => 0) none)
      [request ["SETBIT", "", "0", "1"]]).map Prod.fst = .error .divisionByZero := by
    decide +kernel
  refine ⟨hfault, fun h => ?_⟩
  obtain ⟨t, -, hrun, -⟩ := h [⟨0, ascii "SETBIT", .setbit bitZero bitSet, by decide⟩] []
  change server.run _ [request ["SETBIT", "", "0", "1"]] = _ at hrun
  rw [hrun] at hfault
  cases hfault

end Exoredis
