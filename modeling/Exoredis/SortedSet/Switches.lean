import Exoredis.SortedSet.Zadd

/-!
# Where the pairs of ZADD begin

The switches are looked for among all tokens up to the first one that starts with a
digit, a point or a minus sign, and the tokens passed on the way are put in upper case.
The pairs begin behind as many tokens as there are different switches. The two agree
with the tokens that the client sent (`zadd_asSent_iff`) unless the first pairs begin
with a score such as `INF`, behind which a member is changed or taken for a switch, or
there is no pair at all.
-/

namespace Exoredis

open Decimal Effect

/-! ## Upper case -/

/-- A letter in upper case. -/
def upChar (c : UInt8) : UInt8 := if 97 ≤ c ∧ c ≤ 122 then c - 32 else c

theorem upChar_cases (c : UInt8) : upChar c = c ∨
    97 ≤ c.toNat ∧ c.toNat ≤ 122 ∧ (upChar c).toNat = c.toNat - 32 := by
  rw [upChar]
  split
  · rename_i h
    rw [UInt8.le_iff_toNat_le, UInt8.le_iff_toNat_le] at h
    have hle : (32 : UInt8) ≤ c := by
      rw [UInt8.le_iff_toNat_le]
      exact le_trans (by decide) h.1
    exact .inr ⟨h.1, h.2, by rw [UInt8.toNat_sub_of_le _ _ hle]; rfl⟩
  · exact .inl rfl

theorem upChar_ne_zero {c : UInt8} (hc : c ≠ 0) : upChar c ≠ 0 := by
  rcases upChar_cases c with h | ⟨hle, -, h⟩
  · rwa [h]
  · intro h0
    rw [h0] at h
    have hzero : (0 : UInt8).toNat = 0 := rfl
    omega

theorem isDigit_upChar (c : UInt8) : isDigit (upChar c) = isDigit c := by
  rcases upChar_cases c with h | ⟨hle, hle', h⟩
  · rw [h]
  · rw [Bool.eq_iff_iff, isDigit_iff, isDigit_iff]
    omega

/-- A letter stays one, so any other character is told apart in either case. -/
theorem upChar_eq_iff {c d : UInt8} (hd : d.toNat < 65) : upChar c = d ↔ c = d := by
  rcases upChar_cases c with h | ⟨hle, hle', h⟩
  · rw [h]
  · constructor
    · rintro rfl
      omega
    · rintro rfl
      omega

theorem upChar_upChar (c : UInt8) : upChar (upChar c) = upChar c := by
  rcases upChar_cases c with h | ⟨hle, hle', h⟩
  · rw [h, h]
  · rcases upChar_cases (upChar c) with h' | ⟨hle₁, -, -⟩
    · exact h'
    · omega

theorem firstChar_strUpCase (str : List UInt8) : firstChar (strUpCase str) = upChar (firstChar str) := by
  cases str with
  | nil => rfl
  | cons c cs =>
      rw [strUpCase]
      by_cases hc : c = 0
      · rw [if_pos hc, hc]
        rfl
      · rw [if_neg hc]
        rfl

theorem cstr_strUpCase (str : List UInt8) : cstr (strUpCase str) = (cstr str).map upChar := by
  induction str with
  | nil => rfl
  | cons c cs ih =>
      rw [strUpCase]
      by_cases hc : c = 0
      · simp [cstr, hc]
      · rw [if_neg hc]
        change cstr (upChar c :: strUpCase cs) = _
        rw [cstr, List.takeWhile_cons_of_pos (by simpa using upChar_ne_zero hc), cstr,
          List.takeWhile_cons_of_pos (by simpa using hc), List.map_cons]
        exact congrArg _ ih

theorem cstr_strUpCase_strUpCase (str : List UInt8) :
    cstr (strUpCase (strUpCase str)) = cstr (strUpCase str) := by
  rw [cstr_strUpCase, cstr_strUpCase, List.map_map]
  exact List.map_congr_left fun c _ => upChar_upChar c

theorem stringTolongDoubleLoop_map_upChar (str : List UInt8) (num fraction frac_len : ℤ)
    (decimal : Bool) : stringTolongDoubleLoop (str.map upChar) num fraction frac_len decimal =
      stringTolongDoubleLoop str num fraction frac_len decimal := by
  induction str generalizing num fraction frac_len decimal with
  | nil => rfl
  | cons c str ih =>
      rw [List.map_cons, stringTolongDoubleLoop, stringTolongDoubleLoop, isDigit_upChar]
      by_cases hdigit : isDigit c = false
      · have hpoint : upChar c = 46 ↔ c = 46 := upChar_eq_iff (by decide)
        rw [if_pos hdigit, if_pos hdigit]
        simp only [hpoint, ih]
      · have hup : upChar c = c := by
          rcases upChar_cases c with h | ⟨hle, -, -⟩
          · exact h
          · rw [Bool.not_eq_false, isDigit_iff] at hdigit
            omega
        rw [if_neg hdigit, if_neg hdigit, hup, ih, ih]

theorem stringTolongDouble_strUpCase (str : List UInt8) :
    stringTolongDouble (strUpCase str) = stringTolongDouble str := by
  rw [stringTolongDouble, stringTolongDouble, cstr_strUpCase_strUpCase, cstr_strUpCase,
    stringTolongDoubleLoop_map_upChar]

/-- A token is the same score in either case. -/
theorem parseScore_strUpCase (str : List UInt8) :
    SkipList.parseScore (strUpCase str) = SkipList.parseScore str := by
  rw [SkipList.parseScore, SkipList.parseScore, SkipList.splitMinus, SkipList.splitMinus,
    firstChar_strUpCase]
  by_cases hminus : firstChar str = 45
  · cases str with
    | nil => cases hminus
    | cons c cs =>
        obtain rfl : c = 45 := hminus
        have hfirst : firstChar (45 :: cs) = 45 := rfl
        have hup : upChar (firstChar (45 :: cs)) = 45 := rfl
        have htail : (strUpCase (45 :: cs)).tail = strUpCase cs := rfl
        rw [if_pos hfirst, if_pos hup, htail]
        simp only [List.tail_cons, stringTolongDouble_strUpCase]
  · rw [if_neg hminus, if_neg (by rwa [upChar_eq_iff (by decide)])]
    simp only [stringTolongDouble_strUpCase]

theorem startsScore_strUpCase (str : List UInt8) :
    startsScore (strUpCase str) = startsScore str := by
  have hpoint : upChar (firstChar str) = 46 ↔ firstChar str = 46 := upChar_eq_iff (by decide)
  have hminus : upChar (firstChar str) = 45 ↔ firstChar str = 45 := upChar_eq_iff (by decide)
  simp only [startsScore, firstChar_strUpCase, isDigit_upChar, hpoint, hminus]

/-! ## Switches -/

inductive ZaddSwitch
  | nx | xx | ch | incr
deriving DecidableEq, Repr

namespace ZaddSwitch

def word : ZaddSwitch → List UInt8
  | nx => ascii "NX"
  | xx => ascii "XX"
  | ch => ascii "CH"
  | incr => ascii "INCR"

end ZaddSwitch

/-- The switch that the code takes a token for. -/
def switchOf (node : ArgListNode) : Option ZaddSwitch :=
  let str := strUpCase node.key.buf
  if strcmp (ascii "NX") str = .eq then some .nx
  else if strcmp (ascii "XX") str = .eq then some .xx
  else if strcmp (ascii "CH") str = .eq then some .ch
  else if strcmp (ascii "INCR") str = .eq then some .incr
  else none

/-- The switches among some tokens. -/
def switchesIn (args : ArgList) : ZaddSwitches where
  xx := args.any fun node => switchOf node = some .xx
  nx := args.any fun node => switchOf node = some .nx
  ch := args.any fun node => switchOf node = some .ch
  incr := args.any fun node => switchOf node = some .incr

theorem cstr_of_switchOf {node : ArgListNode} {w : ZaddSwitch} (h : switchOf node = some w) :
    cstr (strUpCase node.key.buf) = w.word := by
  simp only [switchOf] at h
  split at h
  · rename_i hword
    cases h
    exact ((strcmp_eq_iff _ _).1 hword).symm
  · split at h
    · rename_i hword
      cases h
      exact ((strcmp_eq_iff _ _).1 hword).symm
    · split at h
      · rename_i hword
        cases h
        exact ((strcmp_eq_iff _ _).1 hword).symm
      · split at h
        · rename_i hword
          cases h
          exact ((strcmp_eq_iff _ _).1 hword).symm
        · cases h

theorem firstChar_of_cstr {str : List UInt8} {c : UInt8} {cs : List UInt8}
    (h : cstr str = c :: cs) : firstChar str = c := by
  cases str with
  | nil => cases h
  | cons d ds =>
      rw [cstr, List.takeWhile_cons] at h
      split at h
      · exact (List.cons.inj h).1
      · cases h

/-- A token that is taken for a switch does not start a score. -/
theorem startsScore_of_switchOf {node : ArgListNode} {w : ZaddSwitch}
    (h : switchOf node = some w) : startsScore node.key.buf = false := by
  have hcstr := cstr_of_switchOf h
  rw [← startsScore_strUpCase, startsScore]
  cases w <;> rw [firstChar_of_cstr hcstr] <;> decide

/-- A token that is taken for a switch is no score. -/
theorem parseScore_of_switchOf {node : ArgListNode} {w : ZaddSwitch}
    (h : switchOf node = some w) : SkipList.parseScore node.key.buf = none := by
  have hcstr := cstr_of_switchOf h
  rw [← parseScore_strUpCase, SkipList.parseScore, SkipList.splitMinus]
  have hfirst : firstChar (strUpCase node.key.buf) ≠ 45 := by
    cases w <;> rw [firstChar_of_cstr hcstr] <;> decide
  have hdouble : stringTolongDouble (strUpCase node.key.buf) = -1 := by
    rw [stringTolongDouble, cstr_strUpCase_strUpCase, hcstr]
    cases w <;> decide +kernel
  rw [if_neg hfirst]
  simp only [hdouble, if_true]

/-! ## The scan for switches -/

/-- The tokens up to the first one that starts a score. -/
def scanned (args : ArgList) : ArgList := args.takeWhile fun node => !startsScore node.key.buf

def behindScan (args : ArgList) : ArgList :=
  args.dropWhile fun node => !startsScore node.key.buf

/-- A token in upper case. -/
def upNode (node : ArgListNode) : ArgListNode := { node with key := upCase node.key }

theorem parseSwitches_snd (args : ArgList) (sw : ZaddSwitches) :
    (parseSwitches args sw).2 = (scanned args).map upNode ++ behindScan args := by
  induction args generalizing sw with
  | nil => rfl
  | cons node rest ih =>
      rw [parseSwitches, scanned, behindScan, List.takeWhile_cons, List.dropWhile_cons]
      cases hstart : startsScore node.key.buf with
      | true => rfl
      | false =>
          simp only [Bool.false_eq_true, if_false, Bool.not_false, if_true, List.map_cons,
            List.cons_append]
          rw [ih]
          rfl

/-- Two sets of switches together. -/
def ZaddSwitches.union (sw sw' : ZaddSwitches) : ZaddSwitches :=
  ⟨sw.xx || sw'.xx, sw.nx || sw'.nx, sw.ch || sw'.ch, sw.incr || sw'.incr⟩

theorem switchesIn_cons (node : ArgListNode) (args : ArgList) :
    switchesIn (node :: args) = (switchesIn [node]).union (switchesIn args) := by
  simp [switchesIn, ZaddSwitches.union]

theorem parseSwitches_fst (args : ArgList) (sw : ZaddSwitches) :
    (parseSwitches args sw).1 = sw.union (switchesIn (scanned args)) := by
  induction args generalizing sw with
  | nil => simp [parseSwitches, scanned, switchesIn, ZaddSwitches.union]
  | cons node rest ih =>
      rw [parseSwitches, scanned, List.takeWhile_cons]
      cases hstart : startsScore node.key.buf with
      | true => simp [switchesIn, ZaddSwitches.union]
      | false =>
          simp only [Bool.false_eq_true, if_false, Bool.not_false, if_true]
          rw [ih, switchesIn_cons]
          change ZaddSwitches.union _ (switchesIn (scanned rest)) =
            sw.union ((switchesIn [node]).union (switchesIn (scanned rest)))
          generalize switchesIn (scanned rest) = sw'
          by_cases hnx : strcmp (ascii "NX") (strUpCase node.key.buf) = .eq
          · simp [switchesIn, switchOf, ZaddSwitches.union, upCase, hnx]
          · by_cases hxx : strcmp (ascii "XX") (strUpCase node.key.buf) = .eq
            · simp [switchesIn, switchOf, ZaddSwitches.union, upCase, hnx, hxx]
            · by_cases hch : strcmp (ascii "CH") (strUpCase node.key.buf) = .eq
              · simp [switchesIn, switchOf, ZaddSwitches.union, upCase, hnx, hxx, hch]
              · by_cases hincr : strcmp (ascii "INCR") (strUpCase node.key.buf) = .eq
                · simp [switchesIn, switchOf, ZaddSwitches.union, upCase, hnx, hxx, hch, hincr]
                · simp [switchesIn, switchOf, ZaddSwitches.union, upCase, hnx, hxx, hch, hincr]

theorem zaddSwitches_eq (rest : ArgList) : zaddSwitches rest = switchesIn (scanned rest) := by
  rw [zaddSwitches, parseSwitches_fst]
  simp [ZaddSwitches.union, noZaddSwitches]

/-! ## Counting -/

theorem count_union_le (sw sw' : ZaddSwitches) : (sw.union sw').count ≤ sw.count + sw'.count := by
  have hor : ∀ a b : Bool, (a || b).toNat ≤ a.toNat + b.toNat := by decide
  have hboth := hor (sw.nx || sw.xx) (sw'.nx || sw'.xx)
  rw [show ((sw.nx || sw.xx) || (sw'.nx || sw'.xx)) =
    ((sw.nx || sw'.nx) || (sw.xx || sw'.xx)) by ac_rfl] at hboth
  have hch := hor sw.ch sw'.ch
  have hincr := hor sw.incr sw'.incr
  simp only [ZaddSwitches.count, ZaddSwitches.union]
  omega

/-- No token is more than one switch. -/
theorem count_switchesIn_le (args : ArgList) : (switchesIn args).count ≤ args.length := by
  induction args with
  | nil => exact le_rfl
  | cons node args ih =>
      rw [switchesIn_cons, List.length_cons]
      have hunion := count_union_le (switchesIn [node]) (switchesIn args)
      have hone : (switchesIn [node]).count ≤ 1 := by
        simp only [switchesIn, List.any_cons, List.any_nil, Bool.or_false]
        cases switchOf node with
        | none => decide
        | some w => cases w <;> decide
      omega

/-! ## The tokens of the pairs -/

/-- The tokens in the place of a member, where the first one is in that of a score. -/
def memberPlaces : ArgList → ArgList
  | _ :: member :: rest => member :: memberPlaces rest
  | _ => []

theorem readPairs_upNode_cons {node : ArgListNode} {w : ZaddSwitch} (h : switchOf node = some w)
    (rest : ArgList) : readPairs (upNode node :: rest) = none := by
  cases rest with
  | nil => rfl
  | cons member rest =>
      have hscore : SkipList.parseScore (upNode node).key.buf = none :=
        (parseScore_strUpCase _).trans (parseScore_of_switchOf h)
      rw [readPairs, hscore]

/-- Upper case changes the pairs exactly where it changes a member. -/
theorem readPairs_map_upNode {args rest : ArgList} {pairs : List (ℚ × ExoString)}
    (h : readPairs (args.map upNode ++ rest) = some pairs) :
    readPairs (args ++ rest) = some pairs ↔
      ∀ node ∈ memberPlaces args, strUpCase node.key.buf = node.key.buf := by
  induction args using memberPlaces.induct generalizing pairs with
  | case1 node member args ih =>
      have hscore : SkipList.parseScore (upNode node).key.buf =
          SkipList.parseScore node.key.buf := parseScore_strUpCase _
      simp only [List.map_cons, List.cons_append, readPairs, hscore] at h
      simp only [List.cons_append, readPairs, memberPlaces, List.forall_mem_cons]
      cases hq : SkipList.parseScore node.key.buf with
      | none =>
          rw [hq] at h
          cases h
      | some q =>
          simp only [hq] at h
          obtain ⟨ps, hps, rfl⟩ := Option.map_eq_some_iff.1 h
          rw [← ih hps]
          simp only [Option.map_eq_some_iff, List.cons.injEq, Prod.mk.injEq, true_and]
          constructor
          · rintro ⟨ps', hps', hmember, rfl⟩
            exact ⟨(congrArg ExoString.buf hmember).symm, hps'⟩
          · rintro ⟨hmember, hps'⟩
            refine ⟨ps, hps', ?_, rfl⟩
            change member.key = { member.key with buf := strUpCase member.key.buf }
            rw [hmember]
  | case2 args hshort =>
      have hplaces : memberPlaces args = [] := by
        rw [memberPlaces.eq_def]
        split
        · exact absurd rfl (hshort _ _ _)
        · rfl
      rcases args with _ | ⟨node, _ | ⟨member, args⟩⟩
      · simpa [memberPlaces] using h
      · have hscore : SkipList.parseScore (upNode node).key.buf =
            SkipList.parseScore node.key.buf := parseScore_strUpCase _
        simp only [memberPlaces, List.not_mem_nil, false_implies, implies_true, iff_true]
        cases rest with
        | nil => cases h
        | cons member rest =>
            simp only [List.map_cons, List.map_nil, List.cons_append, List.nil_append, readPairs,
              hscore] at h ⊢
            exact h
      · exact absurd rfl (hshort _ _ _)

/-! ## The leading switches -/

/-- The switches in front of the first token that is none. -/
def leading (rest : ArgList) : ArgList := rest.takeWhile fun node => (switchOf node).isSome

def behindLeading (rest : ArgList) : ArgList :=
  rest.dropWhile fun node => (switchOf node).isSome

theorem leading_append (rest : ArgList) : leading rest ++ behindLeading rest = rest :=
  List.takeWhile_append_dropWhile

theorem exists_switch_of_leading {rest : ArgList} {node : ArgListNode}
    (h : node ∈ leading rest) : ∃ w, switchOf node = some w :=
  Option.isSome_iff_exists.1
    (List.mem_takeWhile_imp (p := fun node => (switchOf node).isSome) h)

/-- Behind switches the scan goes on. -/
theorem scanned_append {run : ArgList} (hrun : ∀ node ∈ run, ∃ w, switchOf node = some w)
    (rest : ArgList) : scanned (run ++ rest) = run ++ scanned rest ∧
      behindScan (run ++ rest) = behindScan rest := by
  have hstart : ∀ node ∈ run, (!startsScore node.key.buf) = true := fun node hnode => by
    obtain ⟨w, hw⟩ := hrun node hnode
    rw [startsScore_of_switchOf hw]
    rfl
  exact ⟨List.takeWhile_append_of_pos hstart, List.dropWhile_append_of_pos hstart⟩

theorem scanned_append_behindScan (rest : ArgList) : scanned rest ++ behindScan rest = rest :=
  List.takeWhile_append_dropWhile

/-- The words of a run of switches with a first token behind it that is none. -/
theorem leading_eq {run tail : ArgList} {node : ArgListNode}
    (hrun : ∀ n ∈ run, ∃ w, switchOf n = some w) (hnode : switchOf node = none) :
    leading (run ++ node :: tail) = run ∧ behindLeading (run ++ node :: tail) = node :: tail := by
  have hsome : ∀ n ∈ run, (switchOf n).isSome = true := fun n hn =>
    Option.isSome_iff_exists.2 (hrun n hn)
  constructor
  · rw [leading, List.takeWhile_append_of_pos hsome, List.takeWhile_cons, hnode]
    exact List.append_nil run
  · rw [behindLeading, List.dropWhile_append_of_pos hsome, List.dropWhile_cons, hnode]
    rfl

/-! ## Requests as sent -/

/-- The tokens behind the key are a run of words, whose switches are `sw`, and complete
pairs behind them, byte for byte `pairs`. -/
def AsSent (rest : ArgList) (sw : ZaddSwitches) (pairs : List (ℚ × ExoString)) : Prop :=
  ∃ run tail, rest = run ++ tail ∧
    (∀ node ∈ run, ∃ w : ZaddSwitch, strUpCase node.key.buf = w.word) ∧
    tail ≠ [] ∧ readPairs tail = some pairs ∧ sw = switchesIn run

/-- The leading switches are words to the last byte, some token follows them, and between
them and the first token that starts a score there is no new switch and no member with a
small letter. -/
structure PlainRequest (rest : ArgList) : Prop where
  words : ∀ node ∈ leading rest, ∃ w : ZaddSwitch, strUpCase node.key.buf = w.word
  pair : behindLeading rest ≠ []
  switches : ∀ node ∈ scanned (behindLeading rest), ∀ w, switchOf node = some w →
    ∃ n ∈ leading rest, switchOf n = some w
  members : ∀ node ∈ memberPlaces (scanned (behindLeading rest)),
    strUpCase node.key.buf = node.key.buf

theorem switchOf_of_word {node : ArgListNode} {w : ZaddSwitch}
    (h : strUpCase node.key.buf = w.word) : switchOf node = some w := by
  rw [switchOf, h]
  cases w <;> decide

theorem switchesIn_append (args args' : ArgList) :
    switchesIn (args ++ args') = (switchesIn args).union (switchesIn args') := by
  simp [switchesIn, ZaddSwitches.union]

/-- The switches behind the run change nothing if and only if the run has them all. -/
theorem switchesIn_append_eq_iff (run args : ArgList) :
    switchesIn (run ++ args) = switchesIn run ↔
      ∀ node ∈ args, ∀ w, switchOf node = some w → ∃ n ∈ run, switchOf n = some w := by
  rw [switchesIn_append]
  simp only [switchesIn, ZaddSwitches.union, ZaddSwitches.mk.injEq, Bool.or_eq_left_iff_imp,
    List.any_eq_true, decide_eq_true_eq]
  constructor
  · rintro ⟨hxx, hnx, hch, hincr⟩ node hnode w hw
    cases w with
    | nx => exact hnx ⟨node, hnode, hw⟩
    | xx => exact hxx ⟨node, hnode, hw⟩
    | ch => exact hch ⟨node, hnode, hw⟩
    | incr => exact hincr ⟨node, hnode, hw⟩
  · intro h
    refine ⟨?_, ?_, ?_, ?_⟩
    all_goals
      rintro ⟨node, hnode, hw⟩
      exact h node hnode _ hw

/-- Where the switches that are found are those of the run, each token of it is one of its
own, and the pairs are read behind it. -/
theorem zaddPairs_behind {run tail : ArgList} {pairs : List (ℚ × ExoString)}
    (hrun : ∀ node ∈ run, ∃ w, switchOf node = some w)
    (hsw : zaddSwitches (run ++ tail) = switchesIn run)
    (hpairs : zaddPairs (run ++ tail) = some pairs) :
    readPairs ((scanned tail).map upNode ++ behindScan tail) = some pairs := by
  rw [zaddPairs, hsw, parseSwitches_snd, (scanned_append hrun tail).1,
    (scanned_append hrun tail).2, List.map_append, List.append_assoc] at hpairs
  have hle := count_switchesIn_le run
  rcases Nat.lt_or_ge (switchesIn run).count run.length with hlt | hge
  · have hlt' : (switchesIn run).count < (run.map upNode).length := by rwa [List.length_map]
    rw [List.drop_append_of_le_length hlt'.le, List.drop_eq_getElem_cons hlt', List.getElem_map]
      at hpairs
    obtain ⟨w, hw⟩ := hrun _ (List.getElem_mem hlt)
    rw [List.cons_append, readPairs_upNode_cons hw] at hpairs
    cases hpairs
  · have heq : (switchesIn run).count = (run.map upNode).length := by
      rw [List.length_map]
      exact le_antisymm hle hge
    rwa [heq, List.drop_left] at hpairs

/-- A token that is read as a score is no switch. -/
theorem switchOf_of_readPairs {node : ArgListNode} {rest : ArgList}
    {pairs : List (ℚ × ExoString)} (h : readPairs (node :: rest) = some pairs) :
    switchOf node = none := by
  cases hswitch : switchOf node with
  | none => rfl
  | some w =>
      cases rest with
      | nil => cases h
      | cons member rest =>
          rw [readPairs, parseScore_of_switchOf hswitch] at h
          cases h

theorem asSent_iff {rest : ArgList} {pairs : List (ℚ × ExoString)}
    (hpairs : zaddPairs rest = some pairs) :
    AsSent rest (zaddSwitches rest) pairs ↔ PlainRequest rest := by
  constructor
  · rintro ⟨run, tail, rfl, hwords, htail, hread, hsw⟩
    have hrun : ∀ node ∈ run, ∃ w, switchOf node = some w := fun node hnode =>
      (hwords node hnode).imp fun w hw => switchOf_of_word hw
    have hbehind := zaddPairs_behind hrun hsw hpairs
    obtain ⟨node, tail, rfl⟩ := List.exists_cons_of_ne_nil htail
    obtain ⟨hleading, hrest⟩ := @leading_eq run tail node hrun (switchOf_of_readPairs hread)
    rw [zaddSwitches_eq, (scanned_append hrun _).1, switchesIn_append_eq_iff] at hsw
    constructor
    · rwa [hleading]
    · rwa [hrest]
    · rwa [hleading, hrest]
    · rwa [hrest, ← readPairs_map_upNode hbehind, scanned_append_behindScan]
  · intro h
    have hrun : ∀ node ∈ leading rest, ∃ w, switchOf node = some w :=
      fun _ => exists_switch_of_leading
    have hsw : zaddSwitches (leading rest ++ behindLeading rest) = switchesIn (leading rest) := by
      rw [zaddSwitches_eq, (scanned_append hrun _).1, switchesIn_append_eq_iff]
      exact h.switches
    have hbehind := zaddPairs_behind hrun hsw (by rwa [leading_append])
    rw [leading_append] at hsw
    refine ⟨leading rest, behindLeading rest, (leading_append rest).symm, h.words, h.pair, ?_, hsw⟩
    rw [← scanned_append_behindScan (behindLeading rest), readPairs_map_upNode hbehind]
    exact h.members

/-- A request that is answered without an error hands pairs over that it has read behind
its switches. These are the switches and pairs of the tokens as sent if and only if the
request is a plain one. -/
theorem zadd_asSent_iff {cmd key : ArgListNode} {rest args : ArgList} {reply : Reply}
    {s t : Server} (hrun : zaddCommand (cmd :: key :: rest) s = .ok ((reply, args), t))
    (hreply : reply.isError = false) :
    ∃ list list' pairs s₁ s₂, openSortedSet key.key s = .ok (some list, s₁) ∧
      zaddPairs rest = some pairs ∧ Handed (zaddSwitches rest) pairs list s₁ reply list' s₂ ∧
      (AsSent rest (zaddSwitches rest) pairs ↔ PlainRequest rest) := by
  obtain ⟨list, list', pairs, s₁, s₂, -, hopen, hpairs, hhanded, -⟩ :=
    zaddCommand_handed hrun hreply
  exact ⟨list, list', pairs, s₁, s₂, hopen, hpairs, hhanded, asSent_iff hpairs⟩

theorem zadd_asSent_iff_leading :
    ∃ args t, zaddCommand [newArg ⟨0, ascii "ZADD"⟩, newArg ⟨1, ascii "k"⟩,
        newArg ⟨2, ascii "nx"⟩, newArg ⟨3, ascii "-inf"⟩, newArg ⟨4, ascii "a"⟩]
          (blankServer (fun _ => 0) none) = .ok ((.respInteger (ascii "1"), args), t) ∧
      ∃ pairs, AsSent [newArg ⟨2, ascii "nx"⟩, newArg ⟨3, ascii "-inf"⟩, newArg ⟨4, ascii "a"⟩]
        (zaddSwitches [newArg ⟨2, ascii "nx"⟩, newArg ⟨3, ascii "-inf"⟩, newArg ⟨4, ascii "a"⟩])
        pairs := by
  have hmap : (zaddCommand [newArg ⟨0, ascii "ZADD"⟩, newArg ⟨1, ascii "k"⟩,
      newArg ⟨2, ascii "nx"⟩, newArg ⟨3, ascii "-inf"⟩, newArg ⟨4, ascii "a"⟩]
        (blankServer (fun _ => 0) none)).map (fun p => p.1.1) =
          .ok (.respInteger (ascii "1")) := by decide +kernel
  obtain ⟨⟨reply, args⟩, t, hrun, rfl⟩ := exists_of_map_eq_ok hmap
  refine ⟨args, t, hrun, ?_⟩
  obtain ⟨-, -, pairs, -, -, -, -, -, hiff⟩ := zadd_asSent_iff hrun rfl
  refine ⟨pairs, hiff.2 ⟨?_, by decide +kernel, ?_, by decide +kernel⟩⟩
  · intro node hnode
    have hleading : leading [newArg ⟨2, ascii "nx"⟩, newArg ⟨3, ascii "-inf"⟩,
        newArg ⟨4, ascii "a"⟩] = [newArg ⟨2, ascii "nx"⟩] := by decide +kernel
    rw [hleading, List.mem_singleton] at hnode
    exact ⟨.nx, by rw [hnode]; rfl⟩
  · have hscanned : scanned (behindLeading [newArg ⟨2, ascii "nx"⟩, newArg ⟨3, ascii "-inf"⟩,
        newArg ⟨4, ascii "a"⟩]) = [] := by decide +kernel
    rw [hscanned]
    exact fun node hnode => absurd hnode List.not_mem_nil

/-- `ZADD k INF a` stores the member `A`. -/
theorem zadd_not_asSent :
    ∃ args t, zaddCommand [newArg ⟨0, ascii "ZADD"⟩, newArg ⟨1, ascii "k"⟩,
        newArg ⟨2, ascii "INF"⟩, newArg ⟨3, ascii "a"⟩]
          (blankServer (fun _ => 0) none) = .ok ((.respInteger (ascii "1"), args), t) ∧
      memberAt t (ascii "k") (ascii "A") = true ∧ memberAt t (ascii "k") (ascii "a") = false ∧
      ∀ pairs, zaddPairs [newArg ⟨2, ascii "INF"⟩, newArg ⟨3, ascii "a"⟩] = some pairs →
        ¬ AsSent [newArg ⟨2, ascii "INF"⟩, newArg ⟨3, ascii "a"⟩]
          (zaddSwitches [newArg ⟨2, ascii "INF"⟩, newArg ⟨3, ascii "a"⟩]) pairs := by
  have hmap : (zaddCommand [newArg ⟨0, ascii "ZADD"⟩, newArg ⟨1, ascii "k"⟩,
      newArg ⟨2, ascii "INF"⟩, newArg ⟨3, ascii "a"⟩] (blankServer (fun _ => 0) none)).map
        (fun p => (p.1.1, memberAt p.2 (ascii "k") (ascii "A"),
          memberAt p.2 (ascii "k") (ascii "a"))) =
          .ok (.respInteger (ascii "1"), true, false) := by decide +kernel
  obtain ⟨⟨reply, args⟩, t, hrun, hend⟩ := exists_of_map_eq_ok hmap
  simp only [Prod.mk.injEq] at hend
  obtain ⟨rfl, hupper, hlower⟩ := hend
  refine ⟨args, t, hrun, hupper, hlower, fun pairs hpairs hsent => ?_⟩
  have hplain := (asSent_iff hpairs).1 hsent
  exact absurd (hplain.members (newArg ⟨3, ascii "a"⟩) (by decide +kernel)) (by decide +kernel)

end Exoredis
