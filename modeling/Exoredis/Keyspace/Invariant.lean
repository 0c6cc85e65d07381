import Exoredis.Keyspace.Frame

/-!
# Invariants of the commands

A class of computations with the operations on a key has every command, except that
SET and LOADDB also insert nodes in ways of their own. The two are left to the class in
question.
-/

namespace Exoredis

open Effect LittleEndian

/-- A class of computations that has the operations which the commands other than SET,
ZADD and LOADDB perform, on the keys in `K`. -/
structure Operating (C : ∀ α : Type, Exo α → Prop) (K : List UInt8 → Prop) : Prop
    extends Hashing C K where
  get : ∀ {key}, K key.buf → C _ (onKeyspace fun ht => ht.get key)
  del : ∀ {key}, K key.buf → C _ (onKeyspace fun ht => ht.del key)
  setBitmap : ∀ {key}, K key.buf → ∀ node, C _ (onKeyspace_ fun ht => ht.set key (.bitmap node))
  updateBitmap : ∀ {key}, K key.buf → ∀ node,
    C _ (onKeyspace_ fun ht => ht.updateValue key (.bitmap node))
  flush : C _ (modify fun s => { s with HASH_TABLE := HashTable.newHashTable })
  save : ∀ bytes, C _ (modify fun s => { s with dump := some bytes })

/-- A class of computations that has these operations on every key, and ZADD as a whole. -/
structure Serving (C : ∀ α : Type, Exo α → Prop) : Prop extends Framed C where
  get : ∀ key, C _ (onKeyspace fun ht => ht.get key)
  del : ∀ key, C _ (onKeyspace fun ht => ht.del key)
  setBitmap : ∀ key node, C _ (onKeyspace_ fun ht => ht.set key (.bitmap node))
  updateBitmap : ∀ key node, C _ (onKeyspace_ fun ht => ht.updateValue key (.bitmap node))
  zadd : ∀ args, C _ (Exoredis.zaddCommand args)
  flush : C _ (modify fun s => { s with HASH_TABLE := HashTable.newHashTable })
  save : ∀ bytes, C _ (modify fun s => { s with dump := some bytes })

/-- A class of computations that has the operations on a key. -/
structure Closed (C : ∀ α : Type, Exo α → Prop) : Prop extends Framed C where
  get : ∀ key, C _ (onKeyspace fun ht => ht.get key)
  del : ∀ key, C _ (onKeyspace fun ht => ht.del key)
  set : ∀ key val, C _ (onKeyspace_ fun ht => ht.set key val)
  update : ∀ key val, C _ (onKeyspace_ fun ht => ht.updateValue key val)
  flush : C _ (modify fun s => { s with HASH_TABLE := HashTable.newHashTable })
  save : ∀ bytes, C _ (modify fun s => { s with dump := some bytes })

/-! ## The entries of the command table that get special treatment -/

theorem cmd_str_of_set : ∀ cmd ∈ commandTable, cmd.f_ptr = .setCommand → cmd.cmd_str = ascii "SET" := by
  decide

theorem cmd_str_of_load :
    ∀ cmd ∈ commandTable, strcmp cmd.cmd_str (ascii "LOADDB") = .eq → cmd.cmd_str = ascii "LOADDB" := by
  decide

theorem strcmp_of_load :
    ∀ cmd ∈ commandTable, cmd.f_ptr = .loadCommand → strcmp cmd.cmd_str (ascii "LOADDB") = .eq := by
  decide

/-- The number of arguments that a command follows links to without a check of its own. -/
def CommandPtr.argsNeeded : CommandPtr → ℕ
  | .getCommand => 2
  | .getbitCommand => 3
  | .setbitCommand => 4
  | .zcardCommand => 2
  | .zcountCommand => 2
  | _ => 0

theorem length_parseSwitches (args : ArgList) (sw : ZaddSwitches) :
    (parseSwitches args sw).2.length = args.length := by
  induction args generalizing sw with
  | nil => rfl
  | cons node rest ih =>
      rw [parseSwitches]
      split
      · rfl
      · simp [ih]

/-- The key of a GETBIT, where the offset is one. -/
def getbitKey : ArgList → List (List UInt8)
  | _ :: key :: offset :: _ =>
      if stringToLongLong offset.key.buf = -1 ∨ stringToLongLong offset.key.buf > OFFSET_MAX then []
      else [key.key.buf]
  | _ => []

/-- The key of a SETBIT, where offset and bit are such. -/
def setbitKey : ArgList → List (List UInt8)
  | cmd :: key :: offset :: value :: _ =>
      if stringToBit value.key = -1 then [] else getbitKey [cmd, key, offset]
  | _ => []

/-- The key of a ZRANGE, where the range is one. -/
def zrangeKey : ArgList → List (List UInt8)
  | _ :: key :: rest =>
      match parseRange rest with
      | .error _ => []
      | .ok _ => [key.key.buf]
  | _ => []

/-- The first argument of a command. -/
def firstKey : ArgList → List (List UInt8)
  | _ :: key :: _ => [key.key.buf]
  | _ => []

/-- The keys that a command other than SET, ZADD and LOADDB looks up. -/
def CommandPtr.keys : CommandPtr → ArgList → List (List UInt8)
  | .getCommand, args => firstKey args
  | .delCommand, args => args.tail.map fun node => node.key.buf
  | .getbitCommand, args => getbitKey args
  | .setbitCommand, args => setbitKey args
  | .zcardCommand, args => firstKey args
  | .zcountCommand, args => firstKey args
  | .zrangeCommand, args =>
      if args.length - 1 ≠ 3 ∧ args.length - 1 ≠ 4 then [] else zrangeKey args
  | _, _ => []

namespace Operating

variable {C : ∀ α : Type, Exo α → Prop} {K : List UInt8 → Prop} (h : Operating C K)

include h

theorem getCommand {args : ArgList} (hargs : Lax C ∨ 2 ≤ args.length)
    (hkeys : ∀ key ∈ firstKey args, K key) : C _ (getCommand args) := by
  match args with
  | [] | [_] => exact hargs.resolve_right (by simp) _ _
  | _ :: key :: _ =>
      refine h.seq (h.get (hkeys _ (List.mem_singleton_self _))) fun found => ?_
      match found with
      | some (.bulkString _) | some (.bitmap _) | some (.sortedSet _)
      | some (.sortedSetEntry _) | some (.exoCmd _) | none => exact h.pure _

theorem delKeys {args : ArgList} (count : ℕ) (hkeys : ∀ node ∈ args, K node.key.buf) :
    C _ (delKeys args count) := by
  induction args generalizing count with
  | nil => exact h.pure _
  | cons node rest ih =>
      exact h.seq (h.del (hkeys node List.mem_cons_self)) fun _ =>
        ih _ fun other hother => hkeys other (List.mem_cons_of_mem node hother)

theorem delCommand {args : ArgList} (hkeys : ∀ node ∈ args.tail, K node.key.buf) :
    C _ (delCommand args) := by
  rw [Exoredis.delCommand]
  split
  · exact h.pure _
  · exact h.seq (h.delKeys _ hkeys) fun _ => h.pure _

theorem flushCommand (args : ArgList) : C _ (flushCommand args) :=
  h.seq h.state fun _ =>
    h.seq (h.freeHashTable _) fun _ =>
      h.seq h.flush fun _ => h.pure _

theorem getbitCommand {args : ArgList} (hargs : Lax C ∨ 3 ≤ args.length)
    (hkeys : ∀ key ∈ getbitKey args, K key) : C _ (getbitCommand args) := by
  match args with
  | [] | [_] | [_, _] => exact hargs.resolve_right (by simp) _ _
  | _ :: key :: offset :: _ =>
      rw [Exoredis.getbitCommand]
      rw [getbitKey] at hkeys
      split
      · exact h.pure _
      · rename_i hoffset
        rw [if_neg hoffset] at hkeys
        refine h.seq (h.get (hkeys _ (List.mem_singleton_self _))) fun found => ?_
        cases found with
        | none => exact h.pure _
        | some value =>
            cases value with
            | bitmap _ => exact h.seq (h.getBit _ _) fun _ => h.pure _
            | bulkString _ | sortedSet _ | sortedSetEntry _ | exoCmd _ => exact h.pure _

theorem setbitCommand {args : ArgList} (hargs : Lax C ∨ 4 ≤ args.length)
    (hkeys : ∀ key ∈ setbitKey args, K key) : C _ (setbitCommand args) := by
  match args with
  | [] | [_] | [_, _] | [_, _, _] => exact hargs.resolve_right (by simp) _ _
  | _ :: key :: offset :: value :: _ =>
      rw [Exoredis.setbitCommand]
      rw [setbitKey] at hkeys
      dsimp only
      split
      · exact h.pure _
      · rename_i hoffset
        split
        · exact h.pure _
        · rename_i hbit
          have hkey : K key.key.buf := by
            rw [if_neg hbit, getbitKey, if_neg hoffset] at hkeys
            exact hkeys _ (List.mem_singleton_self _)
          refine h.seq (h.get hkey) fun found => ?_
          cases found with
          | none =>
              exact h.seq (h.initBitmapNode _ _) fun _ =>
                h.seq (h.setBitmap hkey _) fun _ => h.pure _
          | some value =>
              cases value with
              | bitmap _ =>
                  exact h.seq (h.setBit _ _ _) fun _ =>
                    h.seq (h.updateBitmap hkey _) fun _ => h.pure _
              | bulkString _ | sortedSet _ | sortedSetEntry _ | exoCmd _ => exact h.pure _

theorem zcardCommand {args : ArgList} (hargs : Lax C ∨ 2 ≤ args.length)
    (hkeys : ∀ key ∈ firstKey args, K key) : C _ (zcardCommand args) := by
  match args with
  | [] | [_] => exact hargs.resolve_right (by simp) _ _
  | _ :: key :: _ =>
      refine h.seq (h.get (hkeys _ (List.mem_singleton_self _))) fun found => ?_
      match found with
      | some (.bulkString _) | some (.bitmap _) | some (.sortedSet _)
      | some (.sortedSetEntry _) | some (.exoCmd _) | none => exact h.pure _

theorem zcountCommand {args : ArgList} (hargs : Lax C ∨ 2 ≤ args.length)
    (hkeys : ∀ key ∈ firstKey args, K key) : C _ (zcountCommand args) := by
  match args with
  | [] | [_] => exact hargs.resolve_right (by simp) _ _
  | _ :: key :: rest =>
      refine h.seq (h.get (hkeys _ (List.mem_singleton_self _))) fun found => ?_
      match found with
      | some (.sortedSet _) =>
          dsimp only
          split
          · exact h.seq (h.rankByScore _ _ _) fun _ =>
              h.seq (h.rankByScore _ _ _) fun _ => h.pure _
          · exact h.throw (by decide)
          · exact h.pure _
      | some (.bulkString _) | some (.bitmap _) | some (.sortedSetEntry _)
      | some (.exoCmd _) | none => exact h.pure _

theorem zrangeCommand {args : ArgList}
    (hkeys : ∀ key ∈ CommandPtr.zrangeCommand.keys args, K key) : C _ (zrangeCommand args) := by
  rw [Exoredis.zrangeCommand.eq_def]
  rw [CommandPtr.keys] at hkeys
  split
  · exact h.pure _
  · rename_i hlength
    rw [if_neg hlength] at hkeys
    match args with
    | [] | [_] => simp at hlength
    | _ :: key :: rest =>
        rw [zrangeKey] at hkeys
        dsimp only
        cases hrange : parseRange rest with
        | error code => exact h.pure _
        | ok range =>
            rw [hrange] at hkeys
            refine h.seq (h.get (hkeys _ (List.mem_singleton_self _))) fun found => ?_
            match found with
            | some (.sortedSet _) =>
                dsimp only
                split
                · exact h.seq (h.rankByOrder _ _) fun _ =>
                    h.seq (h.collectRange _ _ _ _) fun _ =>
                      h.pure _
                · exact h.seq (h.pure _) fun _ =>
                    h.seq (h.collectRange _ _ _ _) fun _ =>
                      h.pure _
            | some (.bulkString _) | some (.bitmap _) | some (.sortedSetEntry _)
            | some (.exoCmd _) | none => exact h.pure _

theorem saveCommand : C _ saveCommand := by
  refine h.seq h.state fun s => ?_
  split
  · exact h.pure _
  · exact h.seq (h.writeBuckets _ _) fun _ =>
      h.seq (h.save _) fun _ => h.pure _

/-! ### Requests -/

theorem callCommand {f : CommandPtr} {args : ArgList}
    (hset : f = .setCommand → C _ (setCommand args))
    (hzadd : f = .zaddCommand → C _ (zaddCommand args))
    (hload : f = .loadCommand → C _ loadCommand)
    (hargs : Lax C ∨ f.argsNeeded ≤ args.length) (hkeys : ∀ key ∈ f.keys args, K key) :
    C _ (callCommand f args) := by
  cases f with
  | getCommand => exact h.getCommand hargs hkeys
  | setCommand => exact hset rfl
  | delCommand => exact h.delCommand fun node hnode => hkeys _ (List.mem_map_of_mem hnode)
  | pingCommand => exact h.pure _
  | flushCommand => exact h.flushCommand args
  | getbitCommand => exact h.getbitCommand hargs hkeys
  | setbitCommand => exact h.setbitCommand hargs hkeys
  | zaddCommand => exact hzadd rfl
  | zcardCommand => exact h.zcardCommand hargs hkeys
  | zcountCommand => exact h.zcountCommand hargs hkeys
  | zrangeCommand => exact h.zrangeCommand hkeys
  | saveCommand => exact h.seq h.saveCommand fun _ => h.pure _
  | loadCommand => exact h.seq (hload rfl) fun _ => h.pure _

end Operating

namespace Serving

variable {C : ∀ α : Type, Exo α → Prop} (h : Serving C)

include h

theorem operating : Operating C fun _ => True where
  toHashing := h.toHashing
  get _ := h.get _
  del _ := h.del _
  setBitmap _ := h.setBitmap _
  updateBitmap _ := h.updateBitmap _
  flush := h.flush
  save := h.save

theorem callCommand {f : CommandPtr} {args : ArgList}
    (hset : f = .setCommand → C _ (setCommand args)) (hload : f = .loadCommand → C _ loadCommand)
    (hargs : Lax C ∨ f.argsNeeded ≤ args.length) : C _ (callCommand f args) :=
  h.operating.callCommand hset (fun _ => h.zadd args) hload hargs fun _ _ => trivial

theorem loadSkiplistEntry (fp : List UInt8) : C _ (loadSkiplistEntry fp) := by
  refine h.seq (h.newString _) fun cmd => ?_
  refine h.seq (h.readString _) fun key => ?_
  refine h.seq (h.readString _) fun score => ?_
  refine h.seq (h.readString _) fun member => ?_
  exact h.seq (h.zadd _) fun _ =>
    h.seq (h.freeDeadArgs _) fun _ => h.pure _

theorem loadBitmapEntry (fp : List UInt8) : C _ (loadBitmapEntry fp) := by
  refine h.seq (h.readString _) fun key => ?_
  refine h.seq (h.readLong _) fun len => ?_
  dsimp only
  rw [loadBitmap]
  split
  · exact h.seq (h.setBitmap _ _) fun _ => h.pure _
  · exact h.throw (by decide)

end Serving

/-! ### ZADD -/

def noZaddSwitches : ZaddSwitches := ⟨false, false, false, false⟩

/-- The switches that ZADD finds behind the key. -/
def zaddSwitches (rest : ArgList) : ZaddSwitches := (parseSwitches rest noZaddSwitches).1

/-- The number of arguments that the switches take up. -/
def ZaddSwitches.count (sw : ZaddSwitches) : ℕ :=
  (sw.nx || sw.xx).toNat + sw.ch.toNat + sw.incr.toNat

/-- The pairs that ZADD reads behind the switches. -/
def zaddPairs (rest : ArgList) : Option (List (ℚ × ExoString)) :=
  readPairs ((parseSwitches rest noZaddSwitches).2.drop (zaddSwitches rest).count)

/-- The pairs that ZADD works off. -/
def zaddWorked (rest : ArgList) : List (ℚ × ExoString) :=
  workedPairs (zaddSwitches rest)
    ((parseSwitches rest noZaddSwitches).2.drop (zaddSwitches rest).count)

/-- ZADD once the sorted set of its key is open. -/
def zaddOn (sk_list : SkipList) (cmd key : ArgListNode) (rest : ArgList) :
    Exo (Reply × ArgList) := do
  let sw := zaddSwitches rest
  let (ret, sk_list, args) ← sk_list.addToSortedSet sw.xx sw.nx sw.ch sw.incr
    (cmd :: key :: (parseSwitches rest noZaddSwitches).2)
  onKeyspace_ fun ht => ht.updateValue key.key (.sortedSet sk_list)
  if sk_list.size = 0 then
    let _ ← onKeyspace fun ht => ht.del key.key
  return (ret, args)

theorem zaddCommand_eq (cmd key : ArgListNode) {rest : ArgList} (h : 2 ≤ rest.length) :
    zaddCommand (cmd :: key :: rest) = (do
      match ← openSortedSet key.key with
      | none =>
          return (_Error .WRONG_TYPE_OF_COMMAND_ON_TARGET_OBJECT, setAllDead (cmd :: key :: rest))
      | some sk_list => zaddOn sk_list cmd key rest) := by
  rw [zaddCommand, if_neg (by simp only [List.length_cons]; omega)]
  rfl

theorem zaddCommand_short {args : ArgList} (h : args.length < 4) :
    zaddCommand args = pure (_Error .WRONG_NUMBER_OF_ARGUMENTS, args) := by
  rw [zaddCommand.eq_def, if_pos h]

/-- A class of computations that also stores values of every kind. -/
structure Storing (C : ∀ α : Type, Exo α → Prop) (K : List UInt8 → Prop) : Prop
    extends Hashing C K where
  get : ∀ {key}, K key.buf → C _ (onKeyspace fun ht => ht.get key)
  del : ∀ {key}, K key.buf → C _ (onKeyspace fun ht => ht.del key)
  set : ∀ {key}, K key.buf → ∀ val, C _ (onKeyspace_ fun ht => ht.set key val)
  update : ∀ {key}, K key.buf → ∀ val, C _ (onKeyspace_ fun ht => ht.updateValue key val)

namespace Storing

variable {C : ∀ α : Type, Exo α → Prop} {K : List UInt8 → Prop} (h : Storing C K)

include h

theorem openSortedSet {key : ExoString} (hkey : K key.buf) : C _ (openSortedSet key) := by
  refine h.seq (h.get hkey) fun found => ?_
  match found with
  | some (.sortedSet _) => exact h.pure _
  | none =>
      exact h.seq (h.newSkipList) fun _ =>
        h.seq (h.set hkey _) fun _ => h.pure _
  | some (.bulkString _) | some (.bitmap _) | some (.sortedSetEntry _)
  | some (.exoCmd _) => exact h.pure _

theorem zaddOn (sk_list : SkipList) {cmd key : ArgListNode} {rest : ArgList}
    (hlength : 2 ≤ rest.length) (hkey : K key.key.buf)
    (hkeys : ∀ p ∈ zaddWorked rest, K p.2.buf) : C _ (zaddOn sk_list cmd key rest) := by
  have hargs : 4 ≤ (cmd :: key :: (parseSwitches rest noZaddSwitches).2).length := by
    simp only [List.length_cons, length_parseSwitches]
    omega
  refine h.seq (h.addToSortedSet _ _ _ _ _ (.inr hargs) hkeys) fun result => ?_
  refine h.seq (h.update hkey _) fun _ => ?_
  split
  · exact h.seq (h.del hkey) fun _ => h.pure _
  · exact h.pure _

end Storing

namespace Closed

variable {C : ∀ α : Type, Exo α → Prop} (h : Closed C)

include h

theorem storing : Storing C fun _ => True where
  toHashing := h.toHashing
  get _ := h.get _
  del _ := h.del _
  set _ := h.set _
  update _ := h.update _

theorem zaddCommand (args : ArgList) : C _ (zaddCommand args) := by
  by_cases hlength : args.length < 4
  · rw [zaddCommand_short hlength]
    exact h.pure _
  · match args with
    | [] | [_] => simp at hlength
    | cmd :: key :: rest =>
        have hrest : 2 ≤ rest.length := by
          simp only [List.length_cons] at hlength
          omega
        rw [zaddCommand_eq cmd key hrest]
        refine h.seq (h.storing.openSortedSet trivial) fun found => ?_
        cases found with
        | none => exact h.pure _
        | some sk_list => exact h.storing.zaddOn _ hrest trivial fun _ _ => trivial

theorem serving : Serving C where
  toHashing := h.toHashing
  get := h.get
  del := h.del
  setBitmap key node := h.set key (.bitmap node)
  updateBitmap key node := h.update key (.bitmap node)
  zadd := h.zaddCommand
  flush := h.flush
  save := h.save

end Closed

/-! ### SET and LOADDB -/

/-- A class that has the insertions of SET and LOADDB as well. -/
structure Complete (C : ∀ α : Type, Exo α → Prop) : Prop extends Closed C where
  setWithExpiry : ∀ key val exp_ms nx xx,
    C _ (onKeyspace fun ht => ht.setWithExpiry key val exp_ms nx xx)
  setFromLoad : ∀ key val exp_ms, C _ (onKeyspace fun ht => ht.setFromLoad key val exp_ms)

namespace Complete

variable {C : ∀ α : Type, Exo α → Prop} (h : Complete C)

include h

theorem setCommand (args : ArgList) : C _ (Exoredis.setCommand args) := by
  rw [Exoredis.setCommand.eq_def]
  split
  · exact h.pure _
  · split
    · exact h.pure _
    · rename_i hlength
      match args with
      | [] | [_] | [_, _] => simp at hlength
      | cmd :: key :: val :: rest =>
          dsimp only
          cases parseSetSwitches rest noSwitches with
          | mk res rest =>
              cases res with
              | error code => exact h.pure _
              | ok sw =>
                  dsimp only
                  split
                  · exact h.pure _
                  · split
                    · exact h.pure _
                    · exact h.seq (h.setWithExpiry _ _ _ _ _)
                        fun _ => h.pure _

theorem loadHashMapEntry (fp : List UInt8) : C _ (Exoredis.loadHashMapEntry fp) := by
  refine h.seq (h.readString _) fun key => ?_
  refine h.seq (h.readString _) fun value => ?_
  refine h.seq (h.readString _) fun str => ?_
  refine h.seq (h.freeExoString _) fun _ => ?_
  exact h.seq (h.setFromLoad _ _ _) fun _ => h.pure _

theorem loadEntry (code : ℕ) (fp : List UInt8) : C _ (Exoredis.loadEntry code fp) := by
  rw [Exoredis.loadEntry]
  split
  · exact h.loadHashMapEntry fp
  · split
    · exact h.serving.loadSkiplistEntry fp
    · split
      · exact h.serving.loadBitmapEntry fp
      · exact h.pure _

theorem loadLoop (fuel : ℕ) (fp : List UInt8) : C _ (Exoredis.loadLoop fuel fp) := by
  induction fuel generalizing fp with
  | zero => exact h.throw (by decide)
  | succ fuel ih =>
      rw [Exoredis.loadLoop]
      cases takeLE 8 fp with
      | none => exact h.pure _
      | some e =>
          refine h.seq (h.loadEntry _ _) fun p => ?_
          obtain ⟨ret, fp⟩ := p
          dsimp only
          split
          · exact h.pure _
          · exact ih _

theorem loadFromDB : C _ Exoredis.loadFromDB := by
  refine h.seq h.state fun s => ?_
  split
  · exact h.loadLoop _ _
  · exact h.pure _

end Complete

/-- A request keeps the property if SET and LOADDB do in the state in which the
command starts. -/
theorem serve_preserves {I : Server → Prop} (hI : Insensitive I)
    (h : Serving fun _ x => Preserves x I) (hready : ∀ s, I s → s.Ready) {s t : Server}
    {tokens : List (List UInt8)} {output : List UInt8}
    (hset : ∀ name rest args reply s', tokens = name :: rest → strUpCase name = ascii "SET" →
      setCommand (newArg ⟨s.nextId, strUpCase name⟩ :: argsFrom (s.nextId + 1) rest)
        { s with nextId := s.nextId + tokens.length } = .ok ((reply, args), s') → I s')
    (hload : ∀ name rest ret s', tokens = name :: rest → strUpCase name = ascii "LOADDB" →
      loadFromDB { s with nextId := s.nextId + tokens.length } = .ok (ret, s') → I s')
    (hs : I s) (hrun : serve tokens s = .ok (output, t)) : I t := by
  obtain ⟨name, rest, rfl, hcases⟩ := serve_cases (hready s hs) hrun
  rcases hcases with ⟨-, hafter, -⟩ | ⟨cmd, reply, args, s', hcmd, hexec, hafter, -⟩
  · exact hafter I hI hs
  · refine hafter I hI ?_
    have hs₁ : I { s with nextId := s.nextId + (name :: rest).length } :=
      hI s s.GARBAGE_LIST s.freed _ s.coins hs
    obtain ⟨hmem, hname⟩ := mem_of_commandOf hcmd
    rcases executeCommand_cases hexec with
      ⟨-, -, hsave⟩ | ⟨hstr, -, ret, hret, -⟩ | ⟨rfl, -⟩ | ⟨hstr, -, hcall⟩
    · exact h.operating.saveCommand _ _ _ hs₁ hsave
    · exact hload name rest ret s' rfl (hname ▸ cmd_str_of_load cmd hmem hstr) hret
    · exact hs₁
    · by_cases hf : cmd.f_ptr = .setCommand
      · rw [hf] at hcall
        exact hset name rest _ _ _ rfl (hname ▸ cmd_str_of_set cmd hmem hf) hcall
      · exact h.callCommand (fun hf' => absurd hf' hf)
          (fun hf' => absurd (strcmp_of_load cmd hmem hf') hstr) (.inl lax_preserves)
          _ _ _ hs₁ hcall

/-! ## Faults -/

theorem faults_modify {P : Fault → Prop} (g : Server → Server) : Faults (modify g : Exo _) P := by
  intro s e h
  cases h

/-- An operation on the keyspace fails with the faults of the operation on the table. -/
theorem faults_onKeyspace {α : Type} {P : Fault → Prop}
    {f : HashTable ExoVal → Exo (α × HashTable ExoVal)} (hf : ∀ ht, Faults (f ht) P) :
    Faults (onKeyspace f) P := by
  intro s e h
  rcases bind_eq_error_iff.1 h with h | ⟨s', _, hget, h⟩
  · cases h
  · rcases bind_eq_error_iff.1 h with h | ⟨_, _, -, h⟩
    · exact hf _ _ _ h
    · cases h

theorem faults_onKeyspace_unit {P : Fault → Prop}
    {f : HashTable ExoVal → Exo (HashTable ExoVal)} (hf : ∀ ht, Faults (f ht) P) :
    Faults (onKeyspace_ f) P := by
  intro s e h
  rcases bind_eq_error_iff.1 h with h | ⟨s', _, hget, h⟩
  · cases h
  · rcases bind_eq_error_iff.1 h with h | ⟨_, _, -, h⟩
    · exact hf _ _ _ h
    · cases h

/-! ## The command table along a run -/

theorem insensitive_ready : Insensitive Server.Ready :=
  fun _ _ _ _ _ h => ⟨h.keyed, h.lookup⟩

theorem framed_ready : Framed fun _ x => Preserves x Server.Ready :=
  framed_preserves insensitive_ready

/-- A property that says nothing about the keyspace and the dump either. -/
structure Oblivious (I : Server → Prop) : Prop where
  insensitive : Insensitive I
  stored : ∀ s ht dump, I s → I { s with HASH_TABLE := ht, dump := dump }

namespace Oblivious

variable {I : Server → Prop} (hI : Oblivious I)

include hI

theorem onKeyspace {α : Type} {f : HashTable ExoVal → Exo (α × HashTable ExoVal)}
    (hf : ∀ ht, Preserves (f ht) I) : Preserves (onKeyspace f) I := by
  intro s a t hs hrun
  obtain ⟨ht, s', hf', rfl⟩ := onKeyspace_ok hrun
  exact hI.stored s' ht s'.dump (hf _ _ _ _ hs hf')

theorem onKeyspace_unit {f : HashTable ExoVal → Exo (HashTable ExoVal)}
    (hf : ∀ ht, Preserves (f ht) I) : Preserves (onKeyspace_ f) I := by
  intro s a t hs hrun
  obtain ⟨ht, s', hf', rfl⟩ := onKeyspace_unit_ok hrun
  exact hI.stored s' ht s'.dump (hf _ _ _ _ hs hf')

/-- No command writes to what such a property is about. -/
theorem complete : Complete fun _ x => Preserves x I where
  toHashing := framed_preserves hI.insensitive
  get key := hI.onKeyspace fun ht => (framed_preserves hI.insensitive).get ht key trivial
  del key := hI.onKeyspace fun ht => (framed_preserves hI.insensitive).del ht key trivial
  set key val := hI.onKeyspace_unit fun ht =>
    (framed_preserves hI.insensitive).set ht key val trivial
  update key val := hI.onKeyspace_unit fun ht =>
    (framed_preserves hI.insensitive).updateValue ht key val trivial
  flush := preserves_modify fun s h => hI.stored s HashTable.newHashTable s.dump h
  save bytes := preserves_modify fun s h => hI.stored s s.HASH_TABLE (some bytes) h
  setWithExpiry _ _ _ _ _ :=
    hI.onKeyspace fun ht =>
      (framed_preserves hI.insensitive).setWithExpiry ht _ _ _ _ _ trivial
  setFromLoad _ _ _ :=
    hI.onKeyspace fun ht => (framed_preserves hI.insensitive).setFromLoad ht _ _ _ trivial

end Oblivious

theorem oblivious_ready : Oblivious Server.Ready :=
  ⟨insensitive_ready, fun _ _ _ h => ⟨h.keyed, h.lookup⟩⟩

theorem complete_ready : Complete fun _ x => Preserves x Server.Ready := oblivious_ready.complete

/-- A command reads the clock and does not set it. -/
theorem oblivious_now (now : ℕ) : Oblivious fun s => s.now = now :=
  ⟨fun _ _ _ _ _ h => h, fun _ _ _ h => h⟩

theorem complete_now (now : ℕ) : Complete fun _ x => Preserves x fun s => s.now = now :=
  (oblivious_now now).complete

theorem ready_step {s t : Server} {r : Request} {output : List UInt8} (hs : s.Ready)
    (hrun : server s r = .ok (output, t)) : t.Ready := by
  have hs₁ : Server.Ready { s with now := r.now } := ⟨hs.keyed, hs.lookup⟩
  have hs₂ : Server.Ready { s with now := r.now, nextId := s.nextId + r.tokens.length } :=
    ⟨hs.keyed, hs.lookup⟩
  exact serve_preserves insensitive_ready complete_ready.serving (fun _ h => h)
    (fun _ _ _ _ _ _ _ hset => complete_ready.setCommand _ _ _ _ hs₂ hset)
    (fun _ _ _ _ _ _ hload => complete_ready.loadFromDB _ _ _ hs₂ hload) hs₁ hrun

/-- The command table is ready in every state of a run. -/
theorem ready_of_run {s t : Server} {rs : List Request} {os : List (List UInt8)} (hs : s.Ready)
    (hrun : server.run s rs = .ok (os, t)) : t.Ready :=
  Machine.run_invariant (C := fun _ _ => True) (fun _ _ _ _ hs _ => ready_step hs) hs
    (Machine.meets_of_forall (fun _ _ => trivial) s rs) hrun

end Exoredis
