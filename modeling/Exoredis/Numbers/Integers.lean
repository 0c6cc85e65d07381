import Exoredis.Keyspace.Dispatch
import Exoredis.Library.Watched

/-!
# Integer arguments

`stringToLongLong` accumulates with 64-bit arithmetic that wraps, and tests the
accumulator against a bound one below the greatest `long long` before each digit. A
numeral that is too large is noticed only if one of its prefixes wraps to exactly the
value above the bound. The empty string is read as `0` (`stringToLongLong_exact_iff`).
-/

namespace Exoredis

open Decimal Watched

/-- The value of a non-empty string of digits up to `LL_MAX`, and `-1` for every other
string. -/
def intValue (s : List UInt8) : ℤ :=
  if s ≠ [] ∧ (∀ c ∈ s, isDigit c = true) ∧ decVal s ≤ LL_MAX then decVal s else -1

/-- The accumulator is the one value above `LL_MAX`. -/
def AtTop (n : ℕ) : Prop := n % 2 ^ 64 = 2 ^ 63 - 1

/-- The strings that are read exactly. A numeral above `LL_MAX` is refused if the
accumulator comes upon the value above the bound, or ends at `-1`. -/
def ReadExactly (s : List UInt8) : Prop :=
  s ≠ [] ∧ ((∀ c ∈ s, isDigit c = true) →
    decVal s ≤ LL_MAX ∨ (∃ p, p <+: s ∧ AtTop (decVal p)) ∨ decVal s % 2 ^ 64 = 2 ^ 64 - 1)

/-! ## The accumulator -/

theorem wrap64_gt_iff (n : ℕ) : wrap64 n > LL_MAX ↔ AtTop n := by
  unfold wrap64 AtTop LL_MAX
  rw [Int.bmod_def]
  split_ifs <;> omega

theorem wrap64_push (v : ℕ) (c : UInt8) :
    wrap64 (wrap64 v * 10 + digitVal c) = wrap64 (push v c) := by
  unfold push wrap64
  push_cast
  rw [Int.bmod_def, Int.bmod_def, Int.bmod_def]
  split_ifs <;> omega

theorem wrap64_of_le {n : ℕ} (h : n ≤ LL_MAX) : wrap64 n = n := by
  unfold LL_MAX at h
  unfold wrap64
  rw [Int.bmod_def]
  split_ifs <;> omega

theorem wrap64_eq_neg_one_iff (n : ℕ) : wrap64 n = -1 ↔ n % 2 ^ 64 = 2 ^ 64 - 1 := by
  unfold wrap64
  rw [Int.bmod_def]
  split_ifs <;> omega

theorem foldl_push_mono {p ds : List UInt8} (h : p <+: ds) (v : ℕ) :
    p.foldl push v ≤ ds.foldl push v := by
  obtain ⟨q, rfl⟩ := h
  rw [List.foldl_append, foldl_push q]
  exact (Nat.le_mul_of_pos_right _ (by positivity)).trans (Nat.le_add_right _ _)

/-- A string with something else than digits is refused. -/
theorem stringToLongLongLoop_other {s : List UInt8} {c : UInt8} (hc : c ∈ s)
    (hdigit : isDigit c = false) (l : ℤ) : stringToLongLongLoop s l = -1 := by
  induction s generalizing l with
  | nil => cases hc
  | cons d s ih =>
      rw [stringToLongLongLoop]
      by_cases hstop : isDigit d = false ∨ l > LL_MAX
      · rw [if_pos hstop]
      · rw [if_neg hstop]
        rcases List.mem_cons.1 hc with rfl | hmem
        · exact absurd (.inl hdigit) hstop
        · exact ih hmem _

theorem stringToLongLongLoop_top {ds p : List UInt8} (h : ∀ c ∈ ds, isDigit c = true) {v : ℕ}
    (hp : p <+: ds) (htop : AtTop (p.foldl push v)) :
    stringToLongLongLoop ds (wrap64 v) = -1 := by
  induction ds generalizing v p with
  | nil =>
      rw [List.prefix_nil.1 hp] at htop
      rw [stringToLongLongLoop, if_pos ((wrap64_gt_iff v).2 htop)]
  | cons c ds ih =>
      rw [stringToLongLongLoop]
      by_cases hstop : isDigit c = false ∨ wrap64 v > LL_MAX
      · rw [if_pos hstop]
      · rw [if_neg hstop, wrap64_push]
        cases p with
        | nil => exact absurd (.inr ((wrap64_gt_iff v).2 htop)) hstop
        | cons d p =>
            obtain ⟨rfl, hrest⟩ := List.cons_prefix_cons.1 hp
            exact ih (fun e he => h e (List.mem_cons_of_mem _ he)) hrest htop

theorem stringToLongLongLoop_wrap {ds : List UInt8} (h : ∀ c ∈ ds, isDigit c = true) {v : ℕ}
    (hno : ∀ p, p <+: ds → ¬ AtTop (p.foldl push v)) :
    stringToLongLongLoop ds (wrap64 v) = wrap64 (ds.foldl push v : ℕ) := by
  induction ds generalizing v with
  | nil =>
      have hv := hno [] (List.prefix_refl _)
      rw [stringToLongLongLoop, if_neg fun hgt => hv ((wrap64_gt_iff v).1 hgt)]
      rfl
  | cons c ds ih =>
      have hv := hno [] List.nil_prefix
      have hstop : ¬ (isDigit c = false ∨ wrap64 v > LL_MAX) := by
        rintro (hdigit | hgt)
        · rw [h c List.mem_cons_self] at hdigit
          cases hdigit
        · exact hv ((wrap64_gt_iff v).1 hgt)
      rw [stringToLongLongLoop, if_neg hstop, wrap64_push, List.foldl_cons]
      exact ih (fun e he => h e (List.mem_cons_of_mem _ he)) fun p hp =>
        hno (c :: p) (List.cons_prefix_cons.2 ⟨rfl, hp⟩)

/-- A string is read exactly in the cases of the condition and in no others. -/
theorem stringToLongLongLoop_eq_iff (s : List UInt8) :
    stringToLongLongLoop s 0 = intValue s ↔ ReadExactly s := by
  by_cases hnil : s = []
  · subst hnil
    exact iff_of_false (by decide) fun h => h.1 rfl
  · by_cases hdigits : ∀ c ∈ s, isDigit c = true
    · have hzero : (0 : ℤ) = wrap64 (0 : ℕ) := by decide
      by_cases hmax : decVal s ≤ LL_MAX
      · refine iff_of_true ?_ ⟨hnil, fun _ => .inl hmax⟩
        have hno : ∀ p, p <+: s → ¬ AtTop (p.foldl push 0) := by
          intro p hp htop
          have hle := (foldl_push_mono hp 0).trans hmax
          unfold AtTop at htop
          unfold LL_MAX at hle
          omega
        rw [hzero, stringToLongLongLoop_wrap hdigits hno, intValue, if_pos ⟨hnil, hdigits, hmax⟩]
        exact wrap64_of_le hmax
      · rw [intValue, if_neg fun h => hmax h.2.2, ReadExactly]
        by_cases htop : ∃ p, p <+: s ∧ AtTop (decVal p)
        · obtain ⟨p, hp, hat⟩ := htop
          rw [hzero]
          exact iff_of_true (stringToLongLongLoop_top hdigits hp hat)
            ⟨hnil, fun _ => .inr (.inl ⟨p, hp, hat⟩)⟩
        · have hno : ∀ p, p <+: s → ¬ AtTop (p.foldl push 0) :=
            fun p hp hat => htop ⟨p, hp, hat⟩
          rw [hzero, stringToLongLongLoop_wrap hdigits hno, wrap64_eq_neg_one_iff]
          exact ⟨fun h => ⟨hnil, fun _ => .inr (.inr h)⟩, fun h =>
            ((h.2 hdigits).resolve_left hmax).resolve_left htop⟩
    · obtain ⟨c, hc, hother⟩ : ∃ c ∈ s, isDigit c = false := by
        simpa using hdigits
      refine iff_of_true ?_ ⟨hnil, fun h => absurd h hdigits⟩
      rw [stringToLongLongLoop_other hc hother, intValue, if_neg fun h => hdigits h.2.1]

/-! ## Bit positions -/

namespace Positions

/-- GETBIT with the positions that it hands to `getBit`. -/
def getbitCommand (args : ArgList) : Watched Server Fault ℤ (Reply × ArgList) :=
  match args with
  | _ :: key :: offset :: _ => do
      let pos := stringToLongLong offset.key.buf
      if pos = -1 ∨ pos > OFFSET_MAX then
        return (_Error .OFFSET_NOT_INT_OR_OUT_OF_RANGE, args)
      match ← unseen (onKeyspace fun ht => ht.get key.key) with
      | some (.bitmap node) =>
          let result ← entered pos (getBit node pos)
          return (bitReply result, args)
      | some _ => return (_Error .WRONG_TYPE_OF_COMMAND_ON_TARGET_OBJECT, args)
      | none => return (bitReply false, args)
  | _ => unseen (throw .missingArgument)

/-- SETBIT with the positions that it hands to `setBit` and `initBitmapNode`. -/
def setbitCommand (args : ArgList) : Watched Server Fault ℤ (Reply × ArgList) :=
  match args with
  | cmd :: key :: offset :: value :: rest => do
      let pos := stringToLongLong offset.key.buf
      if pos = -1 ∨ pos > OFFSET_MAX then
        return (_Error .OFFSET_NOT_INT_OR_OUT_OF_RANGE, setAllDead args)
      let bit := stringToBit value.key
      if bit = -1 then
        return (_Error .BIT_NOT_INT_OR_OUT_OF_RANGE, setAllDead args)
      match ← unseen (onKeyspace fun ht => ht.get key.key) with
      | some (.bitmap node) =>
          let (result, node) ← entered pos (setBit node pos (decide (bit ≠ 0)))
          unseen (onKeyspace_ fun ht => ht.updateValue key.key (.bitmap node))
          return (bitReply result, setAllDead args)
      | some _ => return (_Error .WRONG_TYPE_OF_COMMAND_ON_TARGET_OBJECT, setAllDead args)
      | none =>
          let node ← entered pos (initBitmapNode pos (decide (bit ≠ 0)))
          unseen (onKeyspace_ fun ht => ht.set key.key (.bitmap node))
          return (bitReply false, { cmd with dead := true } :: key ::
            { offset with dead := true } :: { value with dead := true } :: rest)
  | _ => unseen (throw .missingArgument)

theorem forget_getbitCommand (args : ArgList) :
    (getbitCommand args).forget = Exoredis.getbitCommand args := by
  match args with
  | [] | [_] | [_, _] => rfl
  | cmd :: key :: offset :: rest =>
      simp only [getbitCommand, Exoredis.getbitCommand, forget_ite, forget_bind, forget_pure,
        forget_unseen]
      congr
      funext found
      cases found with
      | none => simp
      | some value =>
          cases value with
          | bitmap _ => simp
          | bulkString _ | sortedSet _ | sortedSetEntry _ | exoCmd _ => rfl

theorem forget_setbitCommand (args : ArgList) :
    (setbitCommand args).forget = Exoredis.setbitCommand args := by
  match args with
  | [] | [_] | [_, _] | [_, _, _] => rfl
  | cmd :: key :: offset :: value :: rest =>
      simp only [setbitCommand, Exoredis.setbitCommand, forget_ite, forget_bind, forget_pure,
        forget_unseen]
      congr
      funext found
      cases found with
      | none => simp
      | some value =>
          cases value with
          | bitmap _ => simp
          | bulkString _ | sortedSet _ | sortedSetEntry _ | exoCmd _ => rfl

/-- A position of a bitmap. -/
def InRange (pos : ℤ) : Prop := 0 ≤ pos ∧ pos ≤ OFFSET_MAX

variable {cmd key offset : ArgListNode} {rest : ArgList}

theorem inRange_of_exact (h : stringToLongLong offset.key.buf = intValue (cstr offset.key.buf))
    (hpass : ¬ (stringToLongLong offset.key.buf = -1 ∨
      stringToLongLong offset.key.buf > OFFSET_MAX)) :
    InRange (stringToLongLong offset.key.buf) := by
  have hvalue : intValue (cstr offset.key.buf) = -1 ∨ 0 ≤ intValue (cstr offset.key.buf) := by
    rw [intValue]
    split
    · exact .inr (Int.natCast_nonneg _)
    · exact .inl rfl
  rw [not_or, not_lt] at hpass
  exact ⟨h ▸ hvalue.resolve_left (h ▸ hpass.1), hpass.2⟩

theorem getbitCommand_inRange
    (h : stringToLongLong offset.key.buf = intValue (cstr offset.key.buf)) :
    Always InRange (getbitCommand (cmd :: key :: offset :: rest)) := by
  rw [getbitCommand]
  split_ifs with hpass
  · exact .pure _
  · refine .bind (.unseen _) fun found => ?_
    match found with
    | some (.bitmap node) =>
        exact .bind (.entered (inRange_of_exact h hpass) _) fun _ => .pure _
    | none => exact .pure _
    | some (.bulkString _) | some (.sortedSet _) | some (.sortedSetEntry _)
    | some (.exoCmd _) => exact .pure _

theorem setbitCommand_inRange
    (h : stringToLongLong offset.key.buf = intValue (cstr offset.key.buf)) :
    Always InRange (setbitCommand (cmd :: key :: offset :: rest)) := by
  match rest with
  | [] => exact .unseen _
  | value :: rest =>
      rw [setbitCommand]
      dsimp only
      split_ifs with hpass hbit
      · exact .pure _
      · exact .pure _
      · have hin := inRange_of_exact h hpass
        refine .bind (.unseen _) fun found => ?_
        match found with
        | some (.bitmap node) =>
            exact .bind (.entered hin _) fun _ => .bind (.unseen _) fun _ => .pure _
        | none => exact .bind (.entered hin _) fun _ => .bind (.unseen _) fun _ => .pure _
        | some (.bulkString _) | some (.sortedSet _) | some (.sortedSetEntry _)
        | some (.exoCmd _) => exact .pure _

end Positions

/-! ## Expiry times -/

namespace Expiries

/-- SET with the milliseconds to live that it hands to `setWithExpiry`. -/
def setCommand (args : ArgList) : Watched Server Fault ℕ (Reply × ArgList) := do
  if args.length > 9 then
    return (_Error .SYNTAX_ERROR, args)
  else if args.length < 3 then
    return (_Error .WRONG_NUMBER_OF_ARGUMENTS, args)
  match args with
  | cmd :: key :: val :: rest =>
      match parseSetSwitches rest noSwitches with
      | (.error code, rest) => return (_Error code, cmd :: key :: val :: rest)
      | (.ok sw, rest) =>
          let args := cmd :: key :: val :: rest
          if (sw.ex || sw.px) && decide (sw.exp_ms = 0) then
            return (_Error .INVALID_EXPIRE_TIME_IN_SET, args)
          else if sw.nx && sw.xx then
            return (_Null, args)
          let ret ← entered sw.exp_ms (onKeyspace fun ht =>
            ht.setWithExpiry key.key (.bulkString val.key) sw.exp_ms sw.nx sw.xx)
          return (ret, args)
  | _ => unseen (throw .missingArgument)

theorem forget_setCommand (args : ArgList) :
    (setCommand args).forget = Exoredis.setCommand args := by
  match args with
  | [] | [_] | [_, _] => rfl
  | cmd :: key :: val :: rest =>
      simp only [setCommand, Exoredis.setCommand, forget_ite, forget_pure]
      rcases parseSetSwitches rest noSwitches with ⟨code | sw, rest⟩
      · rfl
      · simp only [forget_ite, forget_pure, forget_bind, forget_entered]

/-- The strings behind EX and PX. -/
def texts : ArgList → List (List UInt8)
  | [] => []
  | node :: rest =>
      if strcmp (upCase node.key).buf (ascii "EX") = .eq ∨
          strcmp (upCase node.key).buf (ascii "PX") = .eq then
        match rest with
        | [] => []
        | value :: rest => value.key.buf :: texts rest
      else texts rest

/-- No time was asked for, or the one that a string says, up to the default. -/
def Sent (strs : List (List UInt8)) (time : ℕ) : Prop :=
  time = 0 ∨ ∃ str ∈ strs, intValue (cstr str) ≠ -1 ∧
    time = min (decVal (cstr str)) DEFAULT_EXPIRY_MS

/-- The milliseconds are the sum of the two times, without a wrap. -/
def Unwrapped (strs : List (List UInt8)) (exp_ms : ℕ) : Prop :=
  ∃ ex_v px_v, Sent strs ex_v ∧ Sent strs px_v ∧ exp_ms = ex_v * 1000 + px_v

theorem expiryArg_sent {strs : List (List UInt8)} {str : List UInt8} (hstr : str ∈ strs)
    (h : stringToLongLong str = intValue (cstr str)) (hvalid : stringToLongLong str ≠ -1) :
    Sent strs (expiryArg (stringToLongLong str)) := by
  rw [h] at hvalid ⊢
  refine .inr ⟨str, hstr, hvalid, ?_⟩
  rw [intValue] at hvalid ⊢
  split_ifs at hvalid ⊢ with hdigits
  · have hmax := hdigits.2.2
    unfold LL_MAX at hmax
    rw [expiryArg]
    by_cases hlt : ((decVal (cstr str) : ℕ) : ℤ) < DEFAULT_EXPIRY_MS
    · rw [if_pos hlt, toUnsigned_natCast (by omega), min_eq_left (by omega)]
    · rw [if_neg hlt, toUnsigned_natCast (by decide), min_eq_right (by omega)]
  · exact absurd rfl hvalid

theorem parseSetSwitches_sent {strs : List (List UInt8)} {args : ArgList}
    {sw sw' : SetSwitches} (htexts : ∀ str ∈ texts args, str ∈ strs)
    (hexact : ∀ str ∈ strs, stringToLongLong str = intValue (cstr str))
    (hex : Sent strs sw.ex_v) (hpx : Sent strs sw.px_v)
    (hrun : (parseSetSwitches args sw).1 = .ok sw') :
    Sent strs sw'.ex_v ∧ Sent strs sw'.px_v := by
  induction hn : args.length using Nat.strongRecOn generalizing args sw with
  | ind n ih =>
    subst hn
    cases args with
    | nil =>
        unfold parseSetSwitches at hrun
        cases hrun
        exact ⟨hex, hpx⟩
    | cons node rest =>
        unfold parseSetSwitches at hrun
        unfold texts at htexts
        dsimp only at hrun
        by_cases hEX : strcmp (upCase node.key).buf (ascii "EX") = .eq
        · rw [if_pos hEX] at hrun
          rw [if_pos (.inl hEX)] at htexts
          cases rest with
          | nil => cases hrun
          | cons value rest =>
              have hvalue := htexts _ List.mem_cons_self
              by_cases hbad : stringToLongLong value.key.buf = -1
              · simp only [if_pos hbad] at hrun
                cases hrun
              · simp only [if_neg hbad] at hrun
                exact @ih rest.length (by simp) rest
                  { sw with ex := true, ex_v := expiryArg (stringToLongLong value.key.buf) }
                  (fun str hstr => htexts str (List.mem_cons_of_mem _ hstr))
                  (expiryArg_sent hvalue (hexact _ hvalue) hbad) hpx hrun rfl
        · rw [if_neg hEX] at hrun
          by_cases hPX : strcmp (upCase node.key).buf (ascii "PX") = .eq
          · rw [if_pos hPX] at hrun
            rw [if_pos (.inr hPX)] at htexts
            cases rest with
            | nil => cases hrun
            | cons value rest =>
                have hvalue := htexts _ List.mem_cons_self
                by_cases hbad : stringToLongLong value.key.buf = -1
                · simp only [if_pos hbad] at hrun
                  cases hrun
                · simp only [if_neg hbad] at hrun
                  exact @ih rest.length (by simp) rest
                    { sw with px := true, px_v := expiryArg (stringToLongLong value.key.buf) }
                    (fun str hstr => htexts str (List.mem_cons_of_mem _ hstr)) hex
                    (expiryArg_sent hvalue (hexact _ hvalue) hbad) hrun rfl
          · rw [if_neg hPX] at hrun
            rw [if_neg (not_or.2 ⟨hEX, hPX⟩)] at htexts
            split_ifs at hrun
            · exact @ih rest.length (by simp) rest { sw with nx := true } htexts hex hpx hrun rfl
            · exact @ih rest.length (by simp) rest { sw with xx := true } htexts hex hpx hrun rfl

theorem exp_ms_unwrapped {strs : List (List UInt8)} {sw : SetSwitches}
    (hex : Sent strs sw.ex_v) (hpx : Sent strs sw.px_v) : Unwrapped strs sw.exp_ms := by
  have hle : ∀ {time}, Sent strs time → time ≤ DEFAULT_EXPIRY_MS := by
    rintro time (rfl | ⟨str, -, -, rfl⟩)
    · exact Nat.zero_le _
    · exact min_le_right _ _
  refine ⟨_, _, hex, hpx, Nat.mod_eq_of_lt ?_⟩
  have hex' := hle hex
  have hpx' := hle hpx
  unfold DEFAULT_EXPIRY_MS at hex' hpx'
  omega

theorem setCommand_unwrapped {strs : List (List UInt8)} {cmd key val : ArgListNode}
    {rest : ArgList} (htexts : ∀ str ∈ texts rest, str ∈ strs)
    (hexact : ∀ str ∈ strs, stringToLongLong str = intValue (cstr str)) :
    Always (Unwrapped strs) (setCommand (cmd :: key :: val :: rest)) := by
  rw [setCommand]
  split_ifs with hmany hfew
  · exact .pure _
  · exact .pure _
  · dsimp only
    cases hparse : parseSetSwitches rest noSwitches with
    | mk res rest' =>
        cases res with
        | error code => exact .pure _
        | ok sw =>
            dsimp only
            split_ifs
            · exact .pure _
            · exact .pure _
            · obtain ⟨hex, hpx⟩ := parseSetSwitches_sent htexts hexact (.inl rfl) (.inl rfl)
                (congrArg Prod.fst hparse)
              exact .bind (.entered (exp_ms_unwrapped hex hpx) _) fun _ => .pure _

end Expiries

/-! ## The strings that are read exactly -/

/-- Strings are read exactly, the bit commands hand on only positions of a bitmap, and SET
only times that did not wrap, exactly if every string is non-empty and no numeral above
`LL_MAX` among them slips past the bound. -/
theorem integerArguments_iff (strs : List (List UInt8)) :
    ((∀ str ∈ strs, stringToLongLong str = intValue (cstr str)) ∧
      (∀ (cmd key offset : ArgListNode) (rest : ArgList), offset.key.buf ∈ strs →
        Always Positions.InRange (Positions.getbitCommand (cmd :: key :: offset :: rest)) ∧
        Always Positions.InRange (Positions.setbitCommand (cmd :: key :: offset :: rest))) ∧
      (∀ (cmd key val : ArgListNode) (rest : ArgList),
        (∀ str ∈ Expiries.texts rest, str ∈ strs) →
        Always (Expiries.Unwrapped strs) (Expiries.setCommand (cmd :: key :: val :: rest)))) ↔
      ∀ str ∈ strs, ReadExactly (cstr str) := by
  constructor
  · rintro ⟨hexact, -⟩ str hstr
    exact (stringToLongLongLoop_eq_iff _).1 (hexact str hstr)
  · intro h
    have hexact : ∀ str ∈ strs, stringToLongLong str = intValue (cstr str) :=
      fun str hstr => (stringToLongLongLoop_eq_iff _).2 (h str hstr)
    refine ⟨hexact, fun cmd key offset rest hoffset => ⟨?_, ?_⟩, fun cmd key val rest htexts => ?_⟩
    · exact Positions.getbitCommand_inRange (hexact _ hoffset)
    · exact Positions.setbitCommand_inRange (hexact _ hoffset)
    · exact Expiries.setCommand_unwrapped htexts hexact

/-- `2 ^ 63` is read as `-2 ^ 63`, which GETBIT hands on as a position, and the empty string
is read as `0`. -/
theorem not_integerArguments :
    stringToLongLong (ascii "9223372036854775808") = -9223372036854775808 ∧
      intValue (ascii "9223372036854775808") = -1 ∧
      stringToLongLong [] = 0 ∧ intValue [] = -1 ∧
      (server.run (started (fun _ => 0) none) [request ["SETBIT", "k", "0", "1"]]).map (fun p =>
        (Positions.getbitCommand [newArg ⟨0, ascii "GETBIT"⟩, newArg ⟨1, ascii "k"⟩,
          newArg ⟨2, ascii "9223372036854775808"⟩] p.2).1) = .ok [-9223372036854775808] := by
  decide +kernel

end Exoredis
