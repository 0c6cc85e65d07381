import Exoredis.Keyspace.Dispatch

/-!
# What the operations leave alone

Reading a skip list or a bitmap and writing the nodes of a skip list change no
global at all. Everything else that works on a table of its own allocates and
frees strings, adds to the garbage and tosses coins, and so keeps every property
of a server that does not speak of these.

The proofs only go along the structure of a computation, so they are made once for
every class of computations that is closed under sequencing and has the primitive
ones (`Reads`, `Framed`). The computations that keep an invariant are such a class,
and so are those that only fail with faults of a given kind.
-/

namespace Exoredis

open Effect

/-! ## Classes of computations -/

/-- The fault is one of walking along the arguments or of storing what they hold. -/
def Fault.InArgs (e : Fault) : Prop := e = .missingArgument ∨ e = .argsOverflow

instance (e : Fault) : Decidable e.InArgs := inferInstanceAs (Decidable (_ ∨ _))

/-- The faults that depend on the arguments: those above and the hash of an empty string. -/
def Fault.OfArgs (e : Fault) : Prop := e.InArgs ∨ e = .divisionByZero

instance (e : Fault) : Decidable e.OfArgs := inferInstanceAs (Decidable (_ ∨ _))

/-- A class that has the computations which change nothing, and every fault but those
that depend on the arguments. -/
structure Reads (C : ∀ α : Type, Exo α → Prop) : Prop extends Sequential C where
  throw : ∀ {α : Type} {e : Fault}, ¬ e.OfArgs → C α (throw e)
  state : C Server get

/-- A class that also has the computations which allocate, free and toss coins. -/
structure Tame (C : ∀ α : Type, Exo α → Prop) : Prop extends Reads C where
  quiet : ∀ {α : Type} {x : Exo α}, (∀ s, ∃ a garbage freed id coins, x s =
    .ok (a, { s with GARBAGE_LIST := garbage, freed := freed, nextId := id, coins := coins })) →
    C α x

/-- A class that also hashes the strings in `K`. -/
structure Hashing (C : ∀ α : Type, Exo α → Prop) (K : List UInt8 → Prop) : Prop
    extends Tame C where
  hash : ∀ {key : ExoString}, K key.buf → C ℕ (stringHash key.memory key.len)

/-- A class that hashes every string. -/
abbrev Framed (C : ∀ α : Type, Exo α → Prop) : Prop := Hashing C fun _ => True

/-- A class that has the faults of the arguments, too. -/
def Lax (C : ∀ α : Type, Exo α → Prop) : Prop := ∀ (α : Type) (e : Fault), C α (throw e)

/-- A property of the keyspace, the command table, the clock and the dump. -/
def Insensitive (I : Server → Prop) : Prop :=
  ∀ s garbage freed id coins, I s →
    I { s with GARBAGE_LIST := garbage, freed := freed, nextId := id, coins := coins }

theorem reads_preserves {I : Server → Prop} : Reads fun _ x => Preserves x I where
  toSequential := sequential_preserves
  throw _ := preserves_throw _
  state := by
    intro s a t hs h
    cases h
    exact hs

theorem tame_preserves {I : Server → Prop} (hI : Insensitive I) :
    Tame fun _ x => Preserves x I where
  toReads := reads_preserves
  quiet := by
    intro α x hx s a t hs h
    obtain ⟨b, garbage, freed, id, coins, hrun⟩ := hx s
    rw [hrun] at h
    cases h
    exact hI s _ _ _ _ hs

/-- The computations that do not end with a fault in `P`. -/
theorem tame_faults {P : Fault → Prop} (hP : ∀ e, P e → e.OfArgs) :
    Tame fun _ (x : Exo _) => Faults x fun e => ¬ P e where
  toSequential := sequential_faults
  throw := by
    intro α e he s e' h
    cases h
    exact fun hp => he (hP e hp)
  state := by
    intro s e h
    cases h
  quiet := by
    intro α x hx s e h
    obtain ⟨b, garbage, freed, id, coins, hrun⟩ := hx s
    rw [hrun] at h
    cases h

/-- A class that has the hash of an empty string hashes every string. -/
theorem Tame.framed {C : ∀ α : Type, Exo α → Prop} (h : Tame C)
    (hzero : C ℕ (throw .divisionByZero)) : Framed C where
  toTame := h
  hash := by
    intro key _
    rw [stringHash]
    split
    · exact hzero
    · exact h.pure _

theorem framed_preserves {I : Server → Prop} (hI : Insensitive I) :
    Framed fun _ x => Preserves x I :=
  (tame_preserves hI).framed (preserves_throw _)

theorem lax_preserves {I : Server → Prop} : Lax fun _ x => Preserves x I :=
  fun _ e => preserves_throw e

/-- The computations that keep within their arguments. -/
theorem framed_faults : Framed fun _ (x : Exo _) => Faults x fun e => ¬ e.InArgs := by
  refine (tame_faults fun _ => Or.inl).framed ?_
  intro s e h
  cases h
  decide

variable {C : ∀ α : Type, Exo α → Prop} {V : Type}

/-- The pairs of scores and members in the arguments, or `none` where a score is not valid
or has no member. -/
def readPairs : ArgList → Option (List (ℚ × ExoString))
  | [] => some []
  | [_] => none
  | node :: member :: rest =>
      match SkipList.parseScore node.key.buf with
      | none => none
      | some score => (readPairs rest).map fun pairs => (score, member.key) :: pairs

theorem length_readPairs {args : ArgList} {pairs : List (ℚ × ExoString)}
    (h : readPairs args = some pairs) : args.length = 2 * pairs.length := by
  induction args using readPairs.induct generalizing pairs with
  | case1 =>
      cases h
      rfl
  | case2 => cases h
  | case3 node member rest hscore =>
      rw [readPairs, hscore] at h
      cases h
  | case4 node member rest score hscore ih =>
      simp only [readPairs, hscore] at h
      obtain ⟨ps, hps, rfl⟩ := Option.map_eq_some_iff.1 h
      simp only [List.length_cons, ih hps]
      omega

theorem eq_some_of_mem_getD {args : ArgList} {p : ℚ × ExoString}
    (h : p ∈ (readPairs args).getD []) : readPairs args = some ((readPairs args).getD []) := by
  cases hpairs : readPairs args with
  | none =>
      rw [hpairs] at h
      cases h
  | some pairs => rfl

/-- The pairs that ZADD works off behind its switches: none where these exclude each other,
where a score is not valid, or where INCR has not just one pair. -/
def workedPairs (sw : ZaddSwitches) (args : ArgList) : List (ℚ × ExoString) :=
  let pairs := (readPairs args).getD []
  if (sw.nx && sw.xx) || (sw.incr && decide (pairs.length ≠ 1)) then [] else pairs

theorem mem_workedPairs {sw : ZaddSwitches} {args : ArgList} {p : ℚ × ExoString}
    (h : p ∈ (readPairs args).getD []) (hboth : (sw.nx && sw.xx) = false)
    (hincr : sw.incr = true → ((readPairs args).getD []).length = 1) :
    p ∈ workedPairs sw args := by
  simp only [workedPairs]
  rw [if_neg]
  · exact h
  · rw [hboth, Bool.false_or]
    intro hcon
    rw [Bool.and_eq_true, decide_eq_true_iff] at hcon
    exact hcon.2 (hincr hcon.1)

/-- What `parseArgs` ends with. -/
theorem parseArgs_ok {room : ℕ} {args args' : ArgList} {pairs : Option (List (ℚ × ExoString))}
    {s t : Server} (hrun : SkipList.parseArgs room args s = .ok ((pairs, args'), t)) :
    pairs = readPairs args ∧ args'.length = args.length ∧ t = s := by
  induction args using readPairs.induct generalizing room args' pairs s t with
  | case1 =>
      cases hrun
      exact ⟨rfl, rfl, rfl⟩
  | case2 node =>
      rw [SkipList.parseArgs] at hrun
      cases hscore : SkipList.parseScore node.key.buf with
      | none =>
          simp only [hscore] at hrun
          cases hrun
          exact ⟨rfl, rfl, rfl⟩
      | some score =>
          simp only [hscore] at hrun
          split at hrun <;> cases hrun
  | case3 node member rest hscore =>
      rw [SkipList.parseArgs] at hrun
      simp only [hscore] at hrun
      cases hrun
      simp only [readPairs, hscore, List.length_cons, and_self]
  | case4 node member rest score hscore ih =>
      rw [SkipList.parseArgs] at hrun
      simp only [hscore] at hrun
      split at hrun
      · cases hrun
      · obtain ⟨⟨ps, rest'⟩, s', hrest, hrun⟩ := bind_eq_ok_iff.1 hrun
        cases hrun
        obtain ⟨rfl, hlength, rfl⟩ := ih hrest
        simp only [readPairs, hscore, List.length_cons, hlength, and_self]

/-- Where the arrays have room for an even number of arguments, `parseArgs` reads them. -/
theorem parseArgs_even {room : ℕ} {args : ArgList} (heven : args.length % 2 = 0)
    (hroom : args.length ≤ 2 * room) (s : Server) :
    ∃ args', SkipList.parseArgs room args s = .ok ((readPairs args, args'), s) := by
  induction args using readPairs.induct generalizing room with
  | case1 => exact ⟨[], rfl⟩
  | case2 => simp at heven
  | case3 node member rest hscore =>
      rw [SkipList.parseArgs, readPairs]
      simp only [hscore]
      exact ⟨_, rfl⟩
  | case4 node member rest score hscore ih =>
      simp only [List.length_cons] at heven hroom
      obtain ⟨rest', hrest⟩ := @ih (room - 1) (by omega) (by omega)
      rw [SkipList.parseArgs, readPairs]
      simp only [hscore]
      rw [if_neg (by omega)]
      exact ⟨_, (bind_run_ok hrest).trans rfl⟩

/-! ## Reading -/

namespace Reads

variable (hC : Reads C)

include hC

theorem timeStamp : C _ timeStamp :=
  hC.seq hC.state fun _ => hC.pure _

theorem findNode (list : List (ListNode V)) (key : ExoString) : C _ (findNode list key) := by
  induction list with
  | nil => exact hC.pure _
  | cons tmp list ih =>
      rw [Exoredis.findNode]
      split
      · exact hC.throw (by decide)
      · split
        · exact hC.pure _
        · refine hC.seq ih fun found => ?_
          cases found <;> exact hC.pure _

theorem isExpired [IsExoVal V] (node : ListNode V) : C _ (isExpired node) := by
  rw [Exoredis.isExpired]
  split
  · exact hC.pure _
  · exact hC.seq hC.timeStamp fun _ => hC.pure _

theorem addNodeToList (list : List (ListNode V)) (node : ListNode V) :
    C _ (addNodeToList list node) := by
  rw [Exoredis.addNodeToList]
  split
  · split
    · exact hC.throw (by decide)
    · exact hC.pure _
  · exact hC.pure _

theorem removeNodeFromList (c : Cursor V) : C _ (removeNodeFromList c) := by
  rw [Exoredis.removeNodeFromList]
  split
  · split
    · exact hC.throw (by decide)
    · exact hC.pure _
  · exact hC.pure _

/-! ### Bitmaps -/

theorem wordAt (mem : List (BitVec 32)) (pos : ℕ) : C _ (wordAt mem pos) := by
  rw [Exoredis.wordAt]
  split
  · exact hC.pure _
  · exact hC.throw (by decide)

theorem writeBit (mem : List (BitVec 32)) (pos : ℕ) (bit : Bool) : C _ (writeBit mem pos bit) := by
  cases bit <;> exact hC.seq (hC.wordAt _ _) fun _ => hC.pure _

theorem getbitUtility (mem : List (BitVec 32)) (pos : ℕ) : C _ (getbitUtility mem pos) :=
  hC.seq (hC.wordAt _ _) fun _ => hC.pure _

theorem initBitmapNode (pos : ℤ) (bit : Bool) : C _ (initBitmapNode pos bit) :=
  hC.seq (hC.writeBit _ _ _) fun _ => hC.pure _

theorem getBit (node : BitmapNode) (pos : ℤ) : C _ (getBit node pos) := by
  rw [Exoredis.getBit]
  split
  · exact hC.getbitUtility _ _
  · exact hC.pure _

theorem setBit (node : BitmapNode) (pos : ℤ) (bit : Bool) : C _ (setBit node pos bit) := by
  rw [Exoredis.setBit]
  split
  · exact hC.seq (hC.getbitUtility _ _) fun _ =>
      hC.seq (hC.writeBit _ _ _) fun _ => hC.pure _
  · exact hC.seq (hC.writeBit _ _ _) fun _ => hC.pure _

/-! ### Skip lists -/

variable (list : SkipList)

theorem deref (p : NodePtr) : C _ (list.deref p) := by
  rw [SkipList.deref]
  split
  · exact hC.pure _
  · exact hC.throw (by decide)

theorem follow (p : Option NodePtr) : C _ (list.follow p) := by
  cases p with
  | none => exact hC.throw (by decide)
  | some p => exact hC.deref list p

theorem walk (advance : SkipList.Advance) (fuel : ℕ) (tmp : NodePtr) (count : ℕ) :
    C _ (list.walk advance fuel tmp count) := by
  induction fuel generalizing tmp count with
  | zero => exact hC.throw (by decide)
  | succ fuel ih =>
      refine hC.seq (hC.deref _ _) fun node => ?_
      split
      · exact hC.pure _
      · refine hC.seq (hC.deref _ _) fun next => ?_
        split
        · exact ih _ _
        · exact hC.pure _

theorem descend (advance : SkipList.Advance) (i : ℕ) (tmp : NodePtr) (count : ℕ) :
    C _ (list.descend advance i tmp count) := by
  induction i generalizing tmp count with
  | zero => exact hC.seq (hC.walk _ _ _ _ _) fun _ => hC.pure _
  | succ i ih =>
      refine hC.seq (hC.walk _ _ _ _ _) fun stop => ?_
      refine hC.seq (hC.deref _ _) fun node => ?_
      split
      · exact hC.seq (ih _ _) fun _ => hC.pure _
      · exact hC.throw (by decide)

theorem linkTower (key : ExoString) (score : ℚ) (tower rank i : ℕ)
    (prev : Option NodePtr) (path : List (NodePtr × ℕ)) :
    C _ (SkipList.linkTower key score tower rank i prev path list) := by
  induction path generalizing i prev list with
  | nil => exact hC.pure _
  | cons stop path ih => exact hC.seq (hC.deref _ _) fun _ => ih _ _ _

theorem widenSpans (path : List (NodePtr × ℕ)) : C _ (SkipList.widenSpans path list) := by
  induction path generalizing list with
  | nil => exact hC.pure _
  | cons stop path ih => exact hC.seq (hC.deref _ _) fun _ => ih _

theorem unlinkTower (tmp : NodePtr) (path : List NodePtr) (node : Option NodePtr) :
    C _ (SkipList.unlinkTower tmp path node list) := by
  induction path generalizing node list with
  | nil => exact hC.pure _
  | cons dirty path ih =>
      refine hC.seq (hC.deref _ _) fun d => ?_
      split
      · refine hC.seq (hC.deref _ _) fun next => ?_
        refine hC.seq (hC.deref _ _) fun target => ?_
        split
        · exact hC.seq (hC.follow _ _) fun _ => ih _ _
        · exact ih _ _
      · exact ih _ _

theorem freeSkipListNode (fuel : ℕ) (node : Option NodePtr) :
    C _ (SkipList.freeSkipListNode fuel node list) := by
  induction fuel generalizing node list with
  | zero =>
      cases node with
      | none => exact hC.pure _
      | some p => exact hC.throw (by decide)
  | succ fuel ih =>
      cases node with
      | none => exact hC.pure _
      | some p => exact hC.seq (hC.deref _ _) fun _ => ih _ _

theorem freeLevel (fuel : ℕ) (node : Option NodePtr) : C _ (SkipList.freeLevel fuel node list) := by
  induction fuel generalizing node list with
  | zero =>
      cases node with
      | none => exact hC.pure _
      | some p => exact hC.throw (by decide)
  | succ fuel ih =>
      cases node with
      | none => exact hC.pure _
      | some p => exact hC.seq (hC.deref _ _) fun _ => ih _ _

theorem freeLevels (i : ℕ) (head : Option NodePtr) : C _ (SkipList.freeLevels i head list) := by
  induction i generalizing head list with
  | zero => exact hC.seq (hC.follow _ _) fun _ => hC.freeLevel _ _ _
  | succ i ih =>
      exact hC.seq (hC.follow _ _) fun _ =>
        hC.seq (hC.freeLevel _ _ _) fun _ => ih _ _

theorem rankBy (advance : SkipList.Advance) : C _ (list.rankBy advance) :=
  hC.seq (hC.descend _ _ _ _ _) fun _ => hC.pure _

theorem rankByScore (score : ℚ) (inclusive : Bool) : C _ (list.rankByScore score inclusive) := by
  cases inclusive <;> exact hC.rankBy _ _

theorem rankByOrder (pos : ℤ) : C _ (list.rankByOrder pos) := by
  rw [SkipList.rankByOrder]
  split
  · exact hC.pure _
  · exact hC.seq (hC.descend _ _ _ _ _) fun _ =>
      hC.seq (hC.deref _ _) fun _ => hC.pure _

/-! ### Dump files -/

theorem bottomOf (fuel : ℕ) (p : NodePtr) : C _ (bottomOf list fuel p) := by
  induction fuel generalizing p with
  | zero => exact hC.throw (by decide)
  | succ fuel ih =>
      refine hC.seq (hC.deref _ _) fun node => ?_
      split
      · exact ih _
      · exact hC.pure _

theorem writeEntries (key : List UInt8) (fuel : ℕ) (node : Option NodePtr) :
    C _ (writeEntries list key fuel node) := by
  induction fuel generalizing node with
  | zero =>
      cases node with
      | none => exact hC.pure _
      | some p => exact hC.throw (by decide)
  | succ fuel ih =>
      cases node with
      | none => exact hC.pure _
      | some p =>
          exact hC.seq (hC.deref _ _) fun _ =>
            hC.seq (ih _) fun _ => hC.pure _

theorem writeSkiplistToFile (key : ExoString) : C _ (writeSkiplistToFile key list) :=
  hC.seq (hC.bottomOf _ _ _) fun _ =>
    hC.seq (hC.deref _ _) fun _ => hC.writeEntries _ _ _ _

theorem writeNode (node : ListNode ExoVal) : C _ (writeNode node) := by
  rw [Exoredis.writeNode]
  split
  · exact hC.throw (by decide)
  · split
    · exact hC.pure _
    · exact hC.pure _
    · exact hC.writeSkiplistToFile _ _
    · exact hC.pure _

theorem writeList (list : List (ListNode ExoVal)) : C _ (writeList list) := by
  induction list with
  | nil => exact hC.pure _
  | cons node list ih =>
      exact hC.seq (hC.writeNode _) fun _ =>
        hC.seq ih fun _ => hC.pure _

theorem writeBuckets (ht : HashTable ExoVal) (is : List ℕ) : C _ (writeBuckets ht is) := by
  induction is with
  | nil => exact hC.pure _
  | cons i is ih =>
      exact hC.seq (hC.writeList _) fun _ =>
        hC.seq ih fun _ => hC.pure _

theorem readLong (fp : List UInt8) : C _ (readLong fp) := by
  rw [Exoredis.readLong]
  split
  · exact hC.pure _
  · exact hC.throw (by decide)

end Reads

/-! ## Allocating and freeing -/

namespace Tame

variable (hC : Tame C) [IsExoVal V]

include hC

theorem newString (str : List UInt8) : C _ (newString str) :=
  hC.quiet fun _ => ⟨_, _, _, _, _, rfl⟩

theorem freeExoString (str : ExoString) : C _ (freeExoString str) :=
  hC.quiet fun _ => ⟨_, _, _, _, _, rfl⟩

theorem freeExoVal (val : V) : C _ (freeExoVal val) :=
  hC.quiet fun _ => ⟨_, _, _, _, _, rfl⟩

theorem freeAllArgs (args : ArgList) : C _ (freeAllArgs args) :=
  hC.quiet fun s => ⟨_, _, _, _, _, freeAllArgs_run args s⟩

theorem freeDeadArgs (args : ArgList) : C _ (freeDeadArgs args) :=
  hC.quiet fun s => ⟨_, _, _, _, _, freeDeadArgs_run args s⟩

/-! ### Tables -/

theorem freeListNode (node : ListNode V) : C _ (freeListNode node) := by
  rw [Exoredis.freeListNode]
  split
  · exact hC.throw (by decide)
  · exact hC.seq (hC.freeExoString _) fun _ => hC.freeExoVal _

theorem replaceNodeValue (node : ListNode V) (key : ExoString)
    (val : V) : C _ (replaceNodeValue node key val) :=
  hC.seq (hC.freeExoString _) fun _ =>
    hC.seq (hC.freeExoVal _) fun _ => hC.pure _

variable (ht : HashTable V) (key : ExoString) (val : V)

theorem freeLinkedList (list : List (ListNode V)) : C _ (freeLinkedList list) := by
  induction list with
  | nil => exact hC.pure _
  | cons node list ih => exact hC.seq ih fun _ => hC.freeListNode _

theorem freeHashTable (ht : HashTable V) : C _ ht.freeHashTable := by
  rw [HashTable.freeHashTable]
  induction List.range INITIAL_SIZE with
  | nil => exact hC.pure _
  | cons i rest ih =>
      exact hC.seq (hC.freeLinkedList _) fun _ => ih

/-! ### Skip lists -/

variable (list : SkipList)

theorem randomLevelRaiser : C _ SkipList.randomLevelRaiser :=
  hC.quiet fun _ => ⟨_, _, _, _, _, rfl⟩

theorem raiseLevels (n : ℕ) (path : List (NodePtr × ℕ)) : C _ (SkipList.raiseLevels n list path) := by
  induction n generalizing list path with
  | zero => exact hC.pure _
  | succ n ih => exact hC.seq (hC.newString _) fun _ => ih _ _

theorem freeSkipList : C _ list.freeSkipList :=
  hC.seq (hC.freeLevels _ _ _) fun _ => hC.freeHashTable _

theorem newSkipList : C _ SkipList.newSkipList :=
  hC.seq (hC.newString _) fun _ => hC.pure _

theorem collectRange (withscore : Bool) (len : ℕ)
    (node : Option NodePtr) : C _ (collectRange list withscore len node) := by
  induction len generalizing node with
  | zero => exact hC.pure _
  | succ len ih =>
      cases node with
      | none => exact hC.pure _
      | some p =>
          refine hC.seq (hC.deref _ _) fun sk_node => ?_
          cases withscore with
          | true =>
              exact hC.seq (hC.newString _) fun _ =>
                hC.seq (hC.pure _) fun _ =>
                  hC.seq (ih _) fun _ => hC.pure _
          | false =>
              exact hC.seq (hC.pure _) fun _ =>
                hC.seq (ih _) fun _ => hC.pure _

/-! ### The arguments of a sorted set

A class without the faults of the arguments has these only where the arguments
suffice.
-/

theorem parseArgs {room : ℕ} {args : ArgList}
    (hargs : Lax C ∨ args.length % 2 = 0 ∧ args.length ≤ 2 * room) :
    C _ (SkipList.parseArgs room args) := by
  induction hn : args.length using Nat.strongRecOn generalizing room args with
  | ind n ih =>
    subst hn
    match args with
    | [] => exact hC.pure _
    | [node] =>
        have hlax : Lax C := hargs.resolve_right fun h => absurd h.1 (by simp)
        unfold SkipList.parseArgs
        dsimp only
        split
        · exact hC.pure _
        · split
          · exact hC.seq (hlax _ _) fun _ => hlax _ _
          · exact hlax _ _
    | node :: member :: rest =>
        simp only [List.length_cons] at ih hargs
        have hrest : C _ (SkipList.parseArgs (room - 1) rest) :=
          ih rest.length (by omega) (hargs.imp_right fun h => by omega) rfl
        unfold SkipList.parseArgs
        dsimp only
        split
        · exact hC.pure _
        · split
          · rename_i hroom
            have hlax : Lax C := hargs.resolve_right fun h => by omega
            exact hC.seq (hlax _ _) fun _ => hC.seq hrest fun _ => hC.pure _
          · exact hC.seq hrest fun _ => hC.pure _

theorem setPairDead {args : ArgList} (hargs : Lax C ∨ args.length = 2) :
    C _ (SkipList.setPairDead args) := by
  match args with
  | score :: member :: rest => exact hC.pure _
  | [] | [_] =>
      have hlax : Lax C := hargs.resolve_right fun h => by simp at h
      exact hlax _ _

/-! ### Requests -/

theorem readString (fp : List UInt8) : C _ (readString fp) := by
  refine hC.seq (hC.readLong _) fun p => ?_
  obtain ⟨len, fp⟩ := p
  simp only
  split
  · exact hC.throw (by decide)
  · split
    · exact hC.seq (hC.newString _) fun _ => hC.pure _
    · exact hC.throw (by decide)

theorem newArgs (tokens : List (List UInt8)) : C _ (newArgs tokens) :=
  hC.quiet fun s => ⟨_, _, _, _, _, newArgs_run tokens s⟩

theorem writeToBuffer (reply : Reply) : C _ (writeToBuffer reply) := by
  cases reply with
  | respArray list =>
      exact hC.seq (hC.freeDeadArgs _) fun _ => hC.pure _
  | _ => exact hC.pure _

theorem releaseArgs (cmd : ExoCmd) (result : Reply)
    (args : ArgList) : C _ (releaseArgs cmd result args) := by
  rw [Exoredis.releaseArgs]
  split
  · exact hC.freeAllArgs _
  · exact hC.freeDeadArgs _

theorem freeObject (val : ExoVal) : C _ (freeObject val) := by
  cases val with
  | sortedSet list => exact hC.freeSkipList list
  | bulkString str => exact hC.freeExoString str
  | _ => exact hC.pure _

theorem freeGarbageLoop (fuel i : ℕ) : C _ (freeGarbageLoop fuel i) := by
  induction fuel generalizing i with
  | zero => exact hC.throw (by decide)
  | succ fuel ih =>
      refine hC.seq hC.state fun s => ?_
      split
      · exact hC.pure _
      · refine hC.seq (hC.freeObject _) fun _ => ?_
        split
        · exact ih _
        · exact hC.pure _

theorem freeGarbage : C _ freeGarbage :=
  hC.seq hC.state fun _ => hC.seq (hC.freeGarbageLoop _ _) fun _ =>
    hC.quiet fun _ => ⟨_, _, _, _, _, rfl⟩

end Tame

/-! ## Keys and members -/

namespace Hashing

variable {K : List UInt8 → Prop} (hC : Hashing C K) [IsExoVal V]

include hC

variable (ht : HashTable V) (key : ExoString) (val : V)

theorem del (hkey : K key.buf) : C _ (ht.del key) := by
  refine hC.seq (hC.hash hkey) fun str_hash => ?_
  refine hC.seq (hC.findNode _ _) fun found => ?_
  cases found with
  | none => exact hC.pure _
  | some c =>
      exact hC.seq (hC.isExpired _) fun expired =>
        hC.seq (hC.removeNodeFromList _) fun list =>
          hC.seq (hC.freeListNode _) fun _ => hC.pure _

theorem get (hkey : K key.buf) : C _ (ht.get key) := by
  refine hC.seq (hC.hash hkey) fun str_hash => ?_
  refine hC.seq (hC.findNode _ _) fun found => ?_
  cases found with
  | none => exact hC.pure _
  | some c =>
      refine hC.seq (hC.isExpired _) fun expired => ?_
      cases expired with
      | false => exact hC.pure _
      | true => exact hC.seq (hC.del ht key hkey) fun _ => hC.pure _

theorem set (hkey : K key.buf) : C _ (ht.set key val) := by
  refine hC.seq (hC.hash hkey) fun str_hash => ?_
  refine hC.seq (hC.findNode _ _) fun found => ?_
  cases found with
  | none => exact hC.seq (hC.addNodeToList _ _) fun _ => hC.pure _
  | some c => exact hC.seq (hC.replaceNodeValue _ _ _) fun _ => hC.pure _

theorem setWithExpiry (exp_ms : ℕ) (nx xx : Bool) (hkey : K key.buf) :
    C _ (ht.setWithExpiry key val exp_ms nx xx) := by
  refine hC.seq hC.timeStamp fun xp => ?_
  refine hC.seq (hC.hash hkey) fun str_hash => ?_
  refine hC.seq (hC.findNode _ _) fun found => ?_
  cases found with
  | none =>
      cases xx with
      | true => exact hC.pure _
      | false => exact hC.seq (hC.addNodeToList _ _) fun _ => hC.pure _
  | some c =>
      refine hC.seq (hC.isExpired _) fun expired => ?_
      cases expired with
      | true =>
          refine hC.seq (hC.freeListNode _) fun _ => ?_
          cases xx with
          | true => exact hC.pure _
          | false =>
              exact hC.seq (hC.addNodeToList _ _) fun _ => hC.pure _
      | false =>
          cases nx with
          | true => exact hC.pure _
          | false =>
              exact hC.seq (hC.replaceNodeValue _ _ _) fun _ =>
                hC.pure _

omit [IsExoVal V] in
theorem setFromLoad (exp_ms : ℕ) (hkey : K key.buf) : C _ (ht.setFromLoad key val exp_ms) := by
  refine hC.seq hC.timeStamp fun now => ?_
  split
  · exact hC.pure _
  · exact hC.seq (hC.hash hkey) fun str_hash =>
      hC.seq (hC.addNodeToList _ _) fun _ => hC.pure _

theorem updateValue (ht : HashTable ExoVal) (key : ExoString) (val : ExoVal)
    (hkey : K key.buf) : C _ (ht.updateValue key val) := by
  refine hC.seq (hC.hash hkey) fun str_hash => ?_
  refine hC.seq (hC.findNode _ _) fun found => ?_
  cases found <;> exact hC.pure _

/-! ### Members -/

variable (list : SkipList)

theorem addNodeToSkiplist (key : ExoString) (score : ℚ) (hkey : K key.buf) :
    C _ (list.addNodeToSkiplist key score) := by
  refine hC.seq (hC.randomLevelRaiser) fun raise_to => ?_
  refine hC.seq (hC.descend _ _ _ _ _) fun path => ?_
  refine hC.seq (hC.raiseLevels _ _ _) fun raised => ?_
  refine hC.seq (hC.linkTower _ _ _ _ _ _ _ _) fun linked => ?_
  refine hC.seq (hC.widenSpans _ _) fun list => ?_
  split
  · exact hC.seq (hC.set _ _ _ hkey) fun _ => hC.pure _
  · exact hC.throw (by decide)

theorem removeNodeFromSkipList (key : ExoString) (score : ℚ)
    (node : NodePtr) (hkey : K key.buf) : C _ (list.removeNodeFromSkipList key score node) := by
  refine hC.seq (hC.descend _ _ _ _ _) fun path => ?_
  refine hC.seq (hC.deref _ _) fun dirty => ?_
  split
  · exact hC.pure _
  · refine hC.seq (hC.deref _ _) fun target => ?_
    split
    · refine hC.seq (hC.unlinkTower _ _ _ _) fun list => ?_
      refine hC.seq (hC.freeSkipListNode _ _ _) fun list => ?_
      exact hC.seq (hC.del _ _ hkey) fun _ => hC.pure _
    · exact hC.pure _

theorem moveMember (member : ExoString) (score : ℚ)
    (target : NodePtr) (hkey : K member.buf) : C _ (list.moveMember member score target) :=
  hC.seq (hC.deref _ _) fun _ =>
    hC.seq (hC.removeNodeFromSkipList _ _ _ _ hkey) fun _ =>
      hC.addNodeToSkiplist _ _ _ hkey

theorem addOrUpdatePair (xx nx : Bool) (pair : ℚ × ExoString)
    (hkey : K pair.2.buf) :
    C _ (SkipList.addOrUpdatePair xx nx list pair) := by
  refine hC.seq (hC.get _ _ hkey) fun found => ?_
  obtain ⟨tmp, table⟩ := found
  cases tmp with
  | some target =>
      cases xx with
      | true => exact hC.seq (hC.moveMember _ _ _ _ hkey) fun _ => hC.pure _
      | false =>
          cases nx with
          | true => exact hC.pure _
          | false =>
              exact hC.seq (hC.moveMember _ _ _ _ hkey) fun _ => hC.pure _
  | none =>
      cases xx with
      | true => exact hC.pure _
      | false =>
          exact hC.seq (hC.addNodeToSkiplist _ _ _ hkey) fun _ => hC.pure _

theorem addOrUpdateLoop (xx nx : Bool)
    (pairs : List (ℚ × ExoString)) (changed new_insert : ℕ)
    (hkeys : ∀ p ∈ pairs, K p.2.buf) :
    C _ (SkipList.addOrUpdateLoop xx nx pairs list changed new_insert) := by
  induction pairs generalizing list changed new_insert with
  | nil => exact hC.pure _
  | cons pair pairs ih =>
      exact hC.seq (hC.addOrUpdatePair _ _ _ _ (hkeys pair List.mem_cons_self)) fun _ =>
        ih _ _ _ fun p hp => hkeys p (List.mem_cons_of_mem pair hp)

theorem addOrUpdateMember (list : SkipList) (xx nx ch : Bool) {args : ArgList} {arg_size : ℕ}
    (hargs : Lax C ∨ args.length % 2 = 0 ∧ args.length ≤ 2 * arg_size)
    (hkeys : ∀ p ∈ (readPairs args).getD [], K p.2.buf) :
    C _ (list.addOrUpdateMember xx nx ch args arg_size) := by
  refine hC.bind (hC.parseArgs hargs) fun parsed hrun => ?_
  obtain ⟨pairs, args'⟩ := parsed
  obtain ⟨s, t, hrun⟩ := hrun
  obtain ⟨hpairs, -, -⟩ := parseArgs_ok hrun
  rw [← hpairs] at hkeys
  cases pairs with
  | none => exact hC.pure _
  | some pairs => exact hC.seq (hC.addOrUpdateLoop _ _ _ _ _ _ hkeys) fun _ => hC.pure _

theorem scoreIncrement (list : SkipList) {args : ArgList} (nx : Bool)
    (hargs : Lax C ∨ args.length = 2) (hkeys : ∀ p ∈ (readPairs args).getD [], K p.2.buf) :
    C _ (list.scoreIncrement args nx) := by
  refine hC.bind (hC.parseArgs (hargs.imp_right fun h => by omega)) fun parsed hrun => ?_
  obtain ⟨pairs, args'⟩ := parsed
  obtain ⟨s, t, hrun⟩ := hrun
  obtain ⟨hpairs, hlength, -⟩ := parseArgs_ok hrun
  match pairs with
  | none => exact hC.pure _
  | some [] =>
      have hnone : args.length = 0 := length_readPairs hpairs.symm
      have hlax : Lax C := hargs.resolve_right fun h => by omega
      exact hlax _ _
  | some ((score, member) :: _) =>
      have hkey : K member.buf := by
        rw [← hpairs] at hkeys
        exact hkeys _ List.mem_cons_self
      refine hC.seq (hC.get _ _ hkey) fun found => ?_
      obtain ⟨tmp, table⟩ := found
      cases tmp with
      | none => exact hC.seq (hC.addNodeToSkiplist _ _ _ hkey) fun _ => hC.pure _
      | some target =>
          cases nx with
          | true =>
              exact hC.seq (hC.setPairDead (hargs.imp_right fun h => hlength.trans h))
                fun _ => hC.pure _
          | false =>
              exact hC.seq (hC.deref _ _) fun _ =>
                hC.seq (hC.moveMember _ _ _ _ hkey) fun _ => hC.pure _

/-- The switches are at most three, so of four arguments an even number is left without
them, and at least two. -/
theorem addToSortedSet (list : SkipList) (xx nx ch incr : Bool) {args : ArgList}
    (hargs : Lax C ∨ 4 ≤ args.length)
    (hkeys : ∀ p ∈ workedPairs ⟨xx, nx, ch, incr⟩
      (args.drop ((nx || xx).toNat + ch.toNat + incr.toNat + 2)), K p.2.buf) :
    C _ (list.addToSortedSet xx nx ch incr args) := by
  rw [SkipList.addToSortedSet]
  split
  · exact hC.pure _
  · rename_i hboth
    have hswitches : (nx || xx).toNat + ch.toNat + incr.toNat ≤ 3 := by
      have hnx := Bool.toNat_le (nx || xx)
      have hch := Bool.toNat_le ch
      have hincr := Bool.toNat_le incr
      omega
    generalize (nx || xx).toNat + ch.toNat + incr.toNat = switches at hswitches hkeys
    dsimp only
    split
    · split
      · have hlax : Lax C := hargs.resolve_right fun h => by omega
        exact hlax _ _
      · split
        · rename_i hincr
          split
          · have htwo : (args.drop (switches + 2)).length = 2 := by
              rw [List.length_drop]
              omega
            refine hC.seq (hC.scoreIncrement _ _ (.inr htwo) ?_) fun _ => hC.pure _
            intro p hp
            refine hkeys p (mem_workedPairs hp (by simpa using hboth) fun _ => ?_)
            have hlength := length_readPairs (eq_some_of_mem_getD hp)
            omega
          · exact hC.pure _
        · rename_i hincr
          refine hC.seq (hC.addOrUpdateMember _ _ _ _ (.inr ?_) ?_) fun _ => hC.pure _
          · rw [List.length_drop]
            omega
          · intro p hp
            exact hkeys p (mem_workedPairs hp (by simpa using hboth) fun h => absurd h hincr)
    · exact hC.pure _

end Hashing

/-- What a request that ends has done: its first token named a command that ran, or no
command, and what comes behind it touches only what an insensitive property leaves
open. -/
theorem serve_cases {s t : Server} (h : s.Ready) {tokens : List (List UInt8)}
    {output : List UInt8} (hrun : serve tokens s = .ok (output, t)) :
    ∃ name rest, tokens = name :: rest ∧
      (commandOf (strUpCase name) = none ∧ (∀ I, Insensitive I → I s → I t) ∧
          output = (_Error .COMMAND_NOT_FOUND).wire ∨
        ∃ cmd reply args s', commandOf (strUpCase name) = some cmd ∧
          executeCommand cmd (newArg ⟨s.nextId, strUpCase name⟩ :: argsFrom (s.nextId + 1) rest)
            { s with nextId := s.nextId + tokens.length } = .ok ((reply, args), s') ∧
          (∀ I, Insensitive I → I s' → I t) ∧ output = reply.wire) := by
  obtain ⟨args, s₁, hargs, hrun⟩ := bind_eq_ok_iff.1 hrun
  obtain ⟨reply, s₂, hdispatch, hrun⟩ := bind_eq_ok_iff.1 hrun
  obtain ⟨out, s₃, hwrite, hrun⟩ := bind_eq_ok_iff.1 hrun
  obtain ⟨_, s₄, hgarbage, hrun⟩ := bind_eq_ok_iff.1 hrun
  simp only [pure_run, Except.ok.injEq, Prod.mk.injEq] at hrun
  obtain ⟨rfl, rfl⟩ := hrun
  obtain ⟨freed, hwire⟩ := writeToBuffer_run reply s₂
  have hout : out = reply.wire := by
    rw [hwire] at hwrite
    cases hwrite
    rfl
  have hafter : ∀ I, Insensitive I → I s₂ → I s₄ := fun I hI hs₂ =>
    (framed_preserves hI).freeGarbage _ _ _
      ((framed_preserves hI).writeToBuffer _ _ _ _ hs₂ hwrite) hgarbage
  have hready : s₁.Ready :=
    (framed_preserves fun _ _ _ _ _ h => ⟨h.keyed, h.lookup⟩).newArgs _ _ _ _ h hargs
  have hs₁ : ∀ I, Insensitive I → I s → I s₁ := fun I hI hs =>
    (framed_preserves hI).newArgs _ _ _ _ hs hargs
  rw [newArgs_run] at hargs
  simp only [Except.ok.injEq, Prod.mk.injEq] at hargs
  obtain ⟨rfl, rfl⟩ := hargs
  obtain ⟨head, rest, hargs, hcases⟩ := commandDispatcher_cases hready hdispatch
  cases tokens with
  | nil => cases hargs
  | cons name tokens =>
      obtain ⟨rfl, rfl⟩ := List.cons.inj hargs
      refine ⟨name, tokens, rfl, ?_⟩
      rcases hcases with ⟨hnone, hreply, hfree⟩ | ⟨cmd, args', s', hcmd, hexec, hrelease⟩
      · exact .inl ⟨hnone, fun I hI hs =>
          hafter I hI ((framed_preserves hI).freeAllArgs _ _ _ _ (hs₁ I hI hs) hfree), hreply ▸ hout⟩
      · exact .inr ⟨cmd, reply, args', s', hcmd, hexec, fun I hI hs' =>
          hafter I hI ((framed_preserves hI).releaseArgs _ _ _ _ _ _ hs' hrelease), hout⟩

end Exoredis
