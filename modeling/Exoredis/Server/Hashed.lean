import Exoredis.Keyspace.Arguments
import Exoredis.Protocol.Telnet
import Exoredis.SortedSet.Atomic

/-!
# Which strings a request hashes

The hash of a string takes positions modulo its length, so it is not defined for the empty
string. `hashed` lists the strings that a request hashes, and `HashesLoad` follows the
records of a dump. A request never divides by zero if none of them is empty, and otherwise
it is not answered (`stringHash_defined_iff`).
-/

namespace Exoredis

open Effect LittleEndian

/-! ## The class of the computations that hash no empty string -/

/-- The class of the computations that do not divide by zero. -/
abbrev Undivided : ∀ α : Type, Exo α → Prop := fun _ x => Faults x fun e => ¬ e = .divisionByZero

theorem hashing_undivided : Hashing Undivided fun key => key ≠ [] where
  toTame := tame_faults fun _ => Or.inr
  hash := by
    intro key hkey s e h
    rw [stringHash_run hkey] at h
    cases h

theorem operating_undivided : Operating Undivided fun key => key ≠ [] where
  toHashing := hashing_undivided
  get hkey := faults_onKeyspace fun ht => hashing_undivided.get ht _ hkey
  del hkey := faults_onKeyspace fun ht => hashing_undivided.del ht _ hkey
  setBitmap hkey _ := faults_onKeyspace_unit fun ht => hashing_undivided.set ht _ _ hkey
  updateBitmap hkey _ := faults_onKeyspace_unit fun ht => hashing_undivided.updateValue ht _ _ hkey
  flush := faults_modify _
  save _ := faults_modify _

theorem storing_undivided : Storing Undivided fun key => key ≠ [] where
  toHashing := hashing_undivided
  get hkey := operating_undivided.get hkey
  del hkey := operating_undivided.del hkey
  set hkey _ := faults_onKeyspace_unit fun ht => hashing_undivided.set ht _ _ hkey
  update hkey _ := faults_onKeyspace_unit fun ht => hashing_undivided.updateValue ht _ _ hkey

/-! ## The strings of a request -/

/-- The strings that a ZADD hashes: its key, and the members that it works off unless a
client finds a value of another type under the key. -/
def zaddHashed (s : Server) : ArgList → List (List UInt8)
  | _ :: key :: rest =>
      if rest.length < 2 then []
      else key.key.buf :: match liveAt s key.key.buf with
        | none | some (.sortedSet _) => (zaddWorked rest).map fun p => p.2.buf
        | some _ => []
  | _ => []

/-- The strings that a command hashes. -/
def commandHashed (s : Server) (f : CommandPtr) (name : List UInt8) (rest : List (List UInt8)) :
    List (List UInt8) :=
  let args := newArg ⟨s.nextId, strUpCase name⟩ :: argsFrom (s.nextId + 1) rest
  match f with
  | .setCommand => (setTarget (name :: rest)).toList
  | .zaddCommand => zaddHashed s args
  | _ => f.keys args

/-- The strings that a request hashes, apart from those of a dump. -/
def hashed (s : Server) : List (List UInt8) → List (List UInt8)
  | [] => []
  | name :: rest =>
      strUpCase name :: match commandOf (strUpCase name) with
        | none => []
        | some cmd =>
            if cmd.skip_arg_test || validArgs cmd.args_count rest.length cmd.variable_arg_count then
              commandHashed s cmd.f_ptr name rest
            else []

/-- The strings that the record of a dump hashes: that of a string unless it has expired,
and those of the ZADD that restores a member. -/
def recordHashed (s : Server) (code : ℕ) (fp : List UInt8) : List (List UInt8) :=
  if code = BULKSTRING then
    match stringRecord fp with
    | some (key, exp_ms) => if exp_ms < s.now then [] else [key]
    | none => []
  else if code = SORTED_SET then
    match takeString fp with
    | some (key, fp) =>
        match takeString fp with
        | some (score, fp) =>
            match takeString fp with
            | some (member, _) =>
                zaddHashed s (argsFrom s.nextId [ascii "ZADD", key, score, member])
            | none => []
        | none => []
    | none => []
  else if code = BITMAP then
    match takeString fp with
    | some (key, fp) =>
        match takeLE 8 fp with
        | some (len, fp) => if (takeBytes (4 * len) fp).isSome then [key] else []
        | none => []
    | none => []
  else []

/-- No record that the loop of `loadFromDB` comes to hashes an empty string. -/
def HashesLoad : ℕ → List UInt8 → Server → Prop
  | 0, _, _ => True
  | fuel + 1, fp, s =>
      ∀ e ∈ takeLE 8 fp, (∀ str ∈ recordHashed s e.1 e.2, str ≠ []) ∧
        ∀ ret fp' t, loadEntry e.1 e.2 s = .ok ((ret, fp'), t) → ret ≠ -1 →
          HashesLoad fuel fp' t

/-- No string that a request hashes is empty. -/
structure HashesNonempty (s : Server) (r : Request) : Prop where
  tokens : ∀ str ∈ hashed { s with now := r.now } r.tokens, str ≠ []
  load : r.tokens.head?.map strUpCase = some (ascii "LOADDB") →
    ∀ fp ∈ s.dump, HashesLoad (fp.length + 1) fp (commandState s r)

/-! ## What a search for a key finds -/

variable {s t : Server} {key : ExoString}

/-- ZADD turns a value of another type away, and works on any other key. -/
theorem openSortedSet_found {found : Option SkipList} {cmd : ArgListNode} {key : ArgListNode}
    {rest : ArgList} (hlength : 2 ≤ rest.length)
    (hrun : openSortedSet key.key s = .ok (found, t)) :
    zaddHashed s (cmd :: key :: rest) =
      key.key.buf :: if found.isSome then (zaddWorked rest).map fun p => p.2.buf else [] := by
  rw [zaddHashed, if_neg (by omega)]
  obtain ⟨val, s₁, hget, hrest⟩ := bind_eq_ok_iff.1 hrun
  obtain ⟨-, hval⟩ := get_found hget
  rw [← hval]
  match val, hrest with
  | some (.sortedSet _), hrest =>
      cases hrest
      rfl
  | none, hrest =>
      obtain ⟨list, s₂, -, hrest⟩ := bind_eq_ok_iff.1 hrest
      obtain ⟨_, s₃, -, hrest⟩ := bind_eq_ok_iff.1 hrest
      cases hrest
      rfl
  | some (.bulkString _), hrest | some (.bitmap _), hrest | some (.sortedSetEntry _), hrest
  | some (.exoCmd _), hrest =>
      cases hrest
      rfl

/-! ## A request that hashes no empty string -/

theorem zaddCommand_undivided {args : ArgList} (h : ∀ str ∈ zaddHashed s args, str ≠ []) :
    zaddCommand args s ≠ .error .divisionByZero := by
  intro hrun
  by_cases hlength : args.length < 4
  · rw [zaddCommand_short hlength] at hrun
    cases hrun
  · match args with
    | [] | [_] => simp at hlength
    | cmd :: key :: rest =>
        have hrest : 2 ≤ rest.length := by
          simp only [List.length_cons] at hlength
          omega
        have hkey : key.key.buf ≠ [] := by
          rw [zaddHashed, if_neg (by omega)] at h
          exact h _ List.mem_cons_self
        rw [zaddCommand_eq cmd key hrest] at hrun
        rcases bind_eq_error_iff.1 hrun with hopen | ⟨found, s₁, hopen, hon⟩
        · exact storing_undivided.openSortedSet hkey _ _ hopen rfl
        · rw [openSortedSet_found hrest hopen] at h
          cases found with
          | none => cases hon
          | some list =>
              refine storing_undivided.zaddOn list hrest hkey (fun p hp => ?_) _ _ hon rfl
              exact h _ (List.mem_cons_of_mem _ (List.mem_map_of_mem hp))

theorem setCommand_undivided {name : List UInt8} (hname : strUpCase name = ascii "SET")
    (head : ArgListNode) (id : ℕ) (rest : List (List UInt8))
    (h : ∀ str ∈ (setTarget (name :: rest)).toList, str ≠ []) :
    Undivided _ (setCommand (head :: argsFrom id rest)) := by
  rcases setCommand_cases hname head id rest with ⟨-, reply, args, heq, -⟩ |
    ⟨key, val, options, sw, args, -, -, htarget, heq⟩
  · rw [heq]
    exact hashing_undivided.pure _
  · rw [heq]
    have hkey : key ≠ [] := h key (by rw [htarget]; exact List.mem_singleton_self _)
    exact hashing_undivided.seq
      (faults_onKeyspace fun ht => hashing_undivided.setWithExpiry ht _ _ _ _ _ hkey) fun _ =>
        hashing_undivided.pure _

/-! ### Loading -/

/-- A division by zero behind a string of the dump. -/
theorem readString_divides {α : Type} {f : ExoString × List UInt8 → Exo α} {fp : List UInt8}
    (hrun : (readString fp >>= f) s = .error .divisionByZero) :
    ∃ str fp', takeString fp = some (str, fp') ∧
      f (⟨s.nextId, str⟩, fp') { s with nextId := s.nextId + 1 } = .error .divisionByZero := by
  rcases bind_eq_error_iff.1 hrun with herror | ⟨⟨str, fp'⟩, s', hread, hrest⟩
  · exact absurd rfl (hashing_undivided.readString _ _ _ herror)
  · obtain ⟨htake, hid, rfl⟩ := readString_ok_iff.1 hread
    obtain ⟨id, buf⟩ := str
    subst hid
    exact ⟨buf, fp', htake, hrest⟩

theorem setFromLoad_undivided {key : ExoString} {val : ExoVal} {exp_ms : ℕ}
    (h : s.now ≤ exp_ms → key.buf ≠ []) :
    onKeyspace (fun ht => ht.setFromLoad key val exp_ms) s ≠ .error .divisionByZero := by
  intro hrun
  by_cases hexp : exp_ms < s.now
  · rw [onKeyspace_run (HashTable.setFromLoad_expired hexp val)] at hrun
    cases hrun
  · exact faults_onKeyspace
      (fun ht => hashing_undivided.setFromLoad ht _ _ _ (h (by omega))) _ _ hrun rfl

theorem loadHashMapEntry_undivided {fp : List UInt8}
    (h : ∀ e ∈ stringRecord fp, s.now ≤ e.2 → e.1 ≠ []) :
    loadHashMapEntry fp s ≠ .error .divisionByZero := by
  intro hrun
  obtain ⟨key, fp₁, hkey, hrun⟩ := readString_divides hrun
  obtain ⟨value, fp₂, hvalue, hrun⟩ := readString_divides hrun
  obtain ⟨str, fp₃, hstr, hrun⟩ := readString_divides hrun
  have hrecord : stringRecord fp = some (key, toUnsigned (stringToLongLong str)) := by
    rw [stringRecord, hkey, Option.bind_some, hvalue, Option.bind_some, hstr]
    rfl
  rcases bind_eq_error_iff.1 hrun with hfree | ⟨_, s', hfree, hrun⟩
  · exact hashing_undivided.freeExoString _ _ _ hfree rfl
  · rw [freeExoString_run] at hfree
    cases hfree
    rcases bind_eq_error_iff.1 hrun with hset | ⟨reply, s', -, hend⟩
    · refine setFromLoad_undivided ?_ hset
      exact h _ hrecord
    · cases hend

theorem loadSkiplistEntry_undivided {fp : List UInt8}
    (h : ∀ str ∈ recordHashed s SORTED_SET fp, str ≠ []) :
    loadSkiplistEntry fp s ≠ .error .divisionByZero := by
  intro hrun
  rcases bind_eq_error_iff.1 hrun with herror | ⟨cmd, s', hcmd, hrun⟩
  · cases herror
  · cases hcmd
    obtain ⟨key, fp₁, hkey, hrun⟩ := readString_divides hrun
    obtain ⟨score, fp₂, hscore, hrun⟩ := readString_divides hrun
    obtain ⟨member, fp₃, hmember, hrun⟩ := readString_divides hrun
    rw [recordHashed, if_neg (by decide), if_pos rfl] at h
    simp only [hkey, hscore, hmember] at h
    rcases bind_eq_error_iff.1 hrun with hzadd | ⟨⟨reply, tokens⟩, s', -, hrun⟩
    · refine zaddCommand_undivided ?_ hzadd
      exact h
    · rcases bind_eq_error_iff.1 hrun with hfree | ⟨_, s', -, hend⟩
      · exact hashing_undivided.freeDeadArgs _ _ _ hfree rfl
      · cases hend

theorem loadBitmapEntry_undivided {fp : List UInt8}
    (h : ∀ str ∈ recordHashed s BITMAP fp, str ≠ []) :
    loadBitmapEntry fp s ≠ .error .divisionByZero := by
  intro hrun
  obtain ⟨key, fp₁, hkey, hrun⟩ := readString_divides hrun
  rw [recordHashed, if_neg (by decide), if_neg (by decide), if_pos rfl] at h
  simp only [hkey] at h
  rcases bind_eq_error_iff.1 hrun with herror | ⟨⟨len, fp₂⟩, s', hlen, hrun⟩
  · exact hashing_undivided.readLong _ _ _ herror rfl
  · rw [readLong] at hlen
    cases htake : takeLE 8 fp₁ with
    | none =>
        rw [htake] at hlen
        cases hlen
    | some e =>
        rw [htake] at hlen h
        cases hlen
        simp only [loadBitmap] at hrun h
        cases hbytes : takeBytes (4 * len) fp₂ with
        | none =>
            rw [hbytes] at hrun
            cases hrun
        | some p =>
            rw [hbytes] at hrun h
            have hne : key ≠ [] := h key (by simp)
            rcases bind_eq_error_iff.1 hrun with hset | ⟨_, s', -, hend⟩
            · exact operating_undivided.setBitmap hne _ _ _ hset rfl
            · cases hend

theorem loadEntry_undivided {code : ℕ} {fp : List UInt8}
    (h : ∀ str ∈ recordHashed s code fp, str ≠ []) :
    loadEntry code fp s ≠ .error .divisionByZero := by
  rw [loadEntry]
  by_cases hstring : code = BULKSTRING
  · rw [if_pos hstring]
    refine loadHashMapEntry_undivided fun e he hexp => h _ ?_
    rw [recordHashed, if_pos hstring, show stringRecord fp = some e from he]
    simp [Nat.not_lt.2 hexp]
  · rw [if_neg hstring]
    by_cases hset : code = SORTED_SET
    · rw [if_pos hset]
      exact loadSkiplistEntry_undivided (hset ▸ h)
    · rw [if_neg hset]
      by_cases hbitmap : code = BITMAP
      · rw [if_pos hbitmap]
        exact loadBitmapEntry_undivided (hbitmap ▸ h)
      · rw [if_neg hbitmap]
        intro hrun
        cases hrun

theorem loadLoop_undivided {fuel : ℕ} {fp : List UInt8} (h : HashesLoad fuel fp s) :
    loadLoop fuel fp s ≠ .error .divisionByZero := by
  induction fuel generalizing fp s with
  | zero =>
      intro hrun
      cases hrun
  | succ fuel ih =>
      intro hrun
      rw [loadLoop] at hrun
      cases hcode : takeLE 8 fp with
      | none =>
          rw [hcode] at hrun
          cases hrun
      | some e =>
          rw [hcode] at hrun
          obtain ⟨hrecord, hrest⟩ := h e hcode
          rcases bind_eq_error_iff.1 hrun with hentry | ⟨⟨ret, fp'⟩, s', hentry, hrun⟩
          · exact loadEntry_undivided hrecord hentry
          · simp only at hrun
            by_cases hret : ret = -1
            · rw [if_pos hret] at hrun
              cases hrun
            · rw [if_neg hret] at hrun
              exact ih (hrest ret fp' s' hentry hret) hrun

theorem loadFromDB_undivided (h : ∀ fp ∈ s.dump, HashesLoad (fp.length + 1) fp s) :
    loadFromDB s ≠ .error .divisionByZero := by
  intro hrun
  rw [loadFromDB, bind_run_ok (get_run s)] at hrun
  cases hdump : s.dump with
  | none =>
      rw [hdump] at hrun
      cases hrun
  | some fp =>
      rw [hdump] at hrun
      exact loadLoop_undivided (h fp hdump) hrun

/-! ### Requests -/

theorem executeCommand_undivided {cmd : ExoCmd} {name : List UInt8} {rest : List (List UInt8)}
    (hcmd : commandOf (strUpCase name) = some cmd)
    (h : ∀ str ∈ hashed s (name :: rest), str ≠ [])
    (hload : strUpCase name = ascii "LOADDB" →
      loadFromDB { s with nextId := s.nextId + (rest.length + 1) } ≠ .error .divisionByZero) :
    executeCommand cmd (newArg ⟨s.nextId, strUpCase name⟩ :: argsFrom (s.nextId + 1) rest)
      { s with nextId := s.nextId + (rest.length + 1) } ≠ .error .divisionByZero := by
  intro hrun
  have hC := operating_undivided
  obtain ⟨hmem, hname⟩ := mem_of_commandOf hcmd
  rw [executeCommand] at hrun
  by_cases hsave : strcmp cmd.cmd_str (ascii "SAVE") = .eq
  · rw [if_pos hsave] at hrun
    exact hC.seq hC.saveCommand (fun _ => hC.pure _) _ _ hrun rfl
  · rw [if_neg hsave] at hrun
    by_cases hloads : strcmp cmd.cmd_str (ascii "LOADDB") = .eq
    · rw [if_pos hloads] at hrun
      rcases bind_eq_error_iff.1 hrun with hrun | ⟨_, _, -, hend⟩
      · exact hload (hname ▸ cmd_str_of_load cmd hmem hloads) hrun
      · cases hend
    · rw [if_neg hloads] at hrun
      by_cases hargs : (cmd.skip_arg_test ||
          validArgs cmd.args_count rest.length cmd.variable_arg_count) = true
      · rw [if_pos (by simpa using hargs)] at hrun
        rw [hashed, hcmd] at h
        simp only [hargs, if_true] at h
        have hkeys := fun str hstr => h str (List.mem_cons_of_mem _ hstr)
        have hneeded := argsNeeded_le hmem hargs
        by_cases hset : cmd.f_ptr = .setCommand
        · rw [hset] at hkeys hrun
          exact setCommand_undivided (hname ▸ cmd_str_of_set cmd hmem hset) _ _ _ hkeys _ _ hrun rfl
        · by_cases hzadd : cmd.f_ptr = .zaddCommand
          · rw [hzadd] at hkeys hrun
            refine zaddCommand_undivided ?_ hrun
            exact hkeys
          · refine hC.callCommand (fun h => absurd h hset) (fun h => absurd h hzadd)
              (fun h => absurd (strcmp_of_load cmd hmem h) hloads) (.inr ?_) ?_ _ _ hrun rfl
            · simpa using hneeded
            · generalize cmd.f_ptr = f at hkeys hset hzadd
              cases f with
              | setCommand => exact absurd rfl hset
              | zaddCommand => exact absurd rfl hzadd
              | _ => exact hkeys
      · rw [if_neg (by simpa using hargs)] at hrun
        cases hrun

theorem answer_undivided {cmd : ExoCmd} {args : ArgList}
    (h : executeCommand cmd args s ≠ .error .divisionByZero) :
    answer cmd args s ≠ .error .divisionByZero := by
  intro hrun
  have hC := hashing_undivided
  rcases bind_eq_error_iff.1 hrun with hexec | ⟨p, s', -, hrest⟩
  · exact h hexec
  · refine hC.seq (hC.releaseArgs _ _ _) (fun _ => ?_) _ _ hrest rfl
    exact hC.seq (hC.writeToBuffer _) fun _ => hC.seq hC.freeGarbage fun _ => hC.pure _

theorem ne_nil_of_strUpCase {str : List UInt8} (h : str ≠ []) : strUpCase str ≠ [] := by
  cases str with
  | nil => exact absurd rfl h
  | cons c cs =>
      rw [strUpCase]
      split <;> exact List.cons_ne_nil _ _

/-- A request whose first token names no command. -/
theorem serve_unknown (hs : s.Ready) {name : List UInt8} {rest : List (List UInt8)}
    (hname : strUpCase name ≠ []) (hcmd : commandOf (strUpCase name) = none) :
    serve (name :: rest) s ≠ .error .divisionByZero := by
  intro hrun
  have hC := hashing_undivided
  rw [serve, bind_run_ok (newArgs_run _ s)] at hrun
  rcases bind_eq_error_iff.1 hrun with hdispatch | ⟨result, s', -, hrest⟩
  · rw [argsFrom, commandDispatcher] at hdispatch
    simp only at hdispatch
    have hready : Server.Ready { s with nextId := s.nextId + (name :: rest).length } :=
      ⟨hs.keyed, hs.lookup⟩
    have hup : (upCase ⟨s.nextId, name⟩).buf ≠ [] := hname
    have hnone : commandOf (upCase ⟨s.nextId, name⟩).buf = none := hcmd
    rw [bind_run_ok (get_run _), newArg, bind_run_ok (hready.get_run hup),
      bind_run_ok (modify_run _ _), hnone] at hdispatch
    exact hC.seq (hC.freeAllArgs _) (fun _ => hC.pure _) _ _ hdispatch rfl
  · exact hC.seq (hC.writeToBuffer _) (fun _ => hC.seq hC.freeGarbage fun _ => hC.pure _) _ _
      hrest rfl

/-- A request that hashes no empty string does not divide by zero. -/
theorem server_undivided {r : Request} (hs : s.Ready) (h : HashesNonempty s r) :
    server s r ≠ .error .divisionByZero := by
  have hready : Server.Ready { s with now := r.now } := ⟨hs.keyed, hs.lookup⟩
  change serve r.tokens { s with now := r.now } ≠ _
  cases htokens : r.tokens with
  | nil =>
      intro hrun
      cases hrun
  | cons name rest =>
      have hstrings := h.tokens
      rw [htokens] at hstrings
      cases hcmd : commandOf (strUpCase name) with
      | none => exact serve_unknown hready (hstrings _ List.mem_cons_self) hcmd
      | some cmd =>
          rw [serve_eq hready rest hcmd]
          refine answer_undivided (executeCommand_undivided hcmd hstrings fun hname => ?_)
          refine loadFromDB_undivided fun fp hfp => ?_
          have hload := h.load (by rw [htokens, List.head?_cons, Option.map_some, hname]) fp hfp
          rw [commandState, htokens] at hload
          exact hload

/-! ## A request that is answered -/

section Answered

variable {reply : Reply} {args args' : ArgList} {list list' : SkipList}

theorem delKeys_answered {count n : ℕ} (hrun : delKeys args count s = .ok (n, t)) :
    ∀ node ∈ args, node.key.buf ≠ [] := by
  induction args generalizing s count with
  | nil => simp
  | cons node rest ih =>
      obtain ⟨n', s', hdel, hrest⟩ := bind_eq_ok_iff.1 hrun
      obtain ⟨ht, s₁, hdel, -⟩ := onKeyspace_ok hdel
      intro other hother
      rcases List.mem_cons.1 hother with rfl | hother
      · exact (HashTable.del_cases hdel).1
      · exact ih hrest other hother

theorem firstKey_answered {α : Type} {f : Option ExoVal → Exo α} {a : α}
    (hrun : (do let found ← onKeyspace fun ht => ht.get key
                f found : Exo α) s = .ok (a, t)) : key.buf ≠ [] := by
  obtain ⟨found, s', hget, -⟩ := bind_eq_ok_iff.1 hrun
  exact (get_found hget).1

theorem delCommand_answered (hrun : delCommand args s = .ok ((reply, args'), t)) :
    ∀ str ∈ CommandPtr.delCommand.keys args, str ≠ [] := by
  rw [CommandPtr.keys]
  rw [delCommand] at hrun
  by_cases hlength : args.length < 2
  · rcases args with _ | ⟨cmd, _ | ⟨key, rest⟩⟩
    · simp
    · simp
    · simp at hlength
  · rw [if_neg hlength] at hrun
    obtain ⟨n, s', hkeys, -⟩ := bind_eq_ok_iff.1 hrun
    have hne := delKeys_answered hkeys
    intro str hstr
    obtain ⟨node, hnode, rfl⟩ := List.mem_map.1 hstr
    exact hne node hnode

theorem getCommand_answered (hrun : getCommand args s = .ok ((reply, args'), t)) :
    ∀ str ∈ firstKey args, str ≠ [] := by
  match args with
  | [] | [_] => cases hrun
  | _ :: key :: _ => simpa [firstKey] using firstKey_answered hrun

theorem zcardCommand_answered (hrun : zcardCommand args s = .ok ((reply, args'), t)) :
    ∀ str ∈ firstKey args, str ≠ [] := by
  match args with
  | [] | [_] => cases hrun
  | _ :: key :: _ => simpa [firstKey] using firstKey_answered hrun

theorem zcountCommand_answered (hrun : zcountCommand args s = .ok ((reply, args'), t)) :
    ∀ str ∈ firstKey args, str ≠ [] := by
  match args with
  | [] | [_] => cases hrun
  | _ :: key :: _ => simpa [firstKey] using firstKey_answered hrun

theorem getbitCommand_answered (hrun : getbitCommand args s = .ok ((reply, args'), t)) :
    ∀ str ∈ getbitKey args, str ≠ [] := by
  match args with
  | [] | [_] | [_, _] => cases hrun
  | _ :: key :: offset :: _ =>
      rw [getbitCommand] at hrun
      rw [getbitKey]
      split
      · simp
      · rename_i hoffset
        rw [if_neg hoffset] at hrun
        simpa using firstKey_answered hrun

theorem setbitCommand_answered (hrun : setbitCommand args s = .ok ((reply, args'), t)) :
    ∀ str ∈ setbitKey args, str ≠ [] := by
  match args with
  | [] | [_] | [_, _] | [_, _, _] => cases hrun
  | _ :: key :: offset :: value :: _ =>
      rw [setbitCommand] at hrun
      rw [setbitKey, getbitKey]
      split
      · simp
      · rename_i hbit
        split
        · simp
        · rename_i hoffset
          rw [if_neg hoffset] at hrun
          simp only [hbit, if_false] at hrun
          simpa using firstKey_answered hrun

theorem zrangeCommand_answered (hrun : zrangeCommand args s = .ok ((reply, args'), t)) :
    ∀ str ∈ CommandPtr.zrangeCommand.keys args, str ≠ [] := by
  rw [CommandPtr.keys]
  rw [zrangeCommand.eq_def] at hrun
  split
  · simp
  · rename_i hlength
    rw [if_neg hlength] at hrun
    rcases args with _ | ⟨cmd, _ | ⟨key, rest⟩⟩
    · simp at hlength
    · simp at hlength
    · rw [zrangeKey]
      dsimp only at hrun
      cases hrange : parseRange rest with
      | error code => simp
      | ok range =>
          rw [hrange] at hrun
          simpa using firstKey_answered hrun

/-! ### Sorted sets -/

theorem addOrUpdateLoop_answered {xx nx : Bool} {pairs : List (ℚ × ExoString)}
    {changed new_insert : ℕ} {a : SkipList × ℕ × ℕ}
    (hrun : SkipList.addOrUpdateLoop xx nx pairs list changed new_insert s = .ok (a, t)) :
    ∀ p ∈ pairs, p.2.buf ≠ [] := by
  induction pairs generalizing list changed new_insert s with
  | nil => simp
  | cons pair pairs ih =>
      obtain ⟨⟨list₁, isChanged, isNew⟩, s₁, hpair, hrest⟩ := bind_eq_ok_iff.1 hrun
      obtain ⟨⟨tmp, table⟩, s₂, hget, -⟩ := bind_eq_ok_iff.1 hpair
      intro p hp
      rcases List.mem_cons.1 hp with rfl | hp
      · exact (HashTable.get_cases hget).1
      · exact ih hrest p hp

theorem addOrUpdateMember_answered {xx nx ch : Bool} {arg_size : ℕ}
    (hrun : list.addOrUpdateMember xx nx ch args arg_size s = .ok ((reply, list', args'), t)) :
    ∀ p ∈ (readPairs args).getD [], p.2.buf ≠ [] := by
  obtain ⟨⟨pairs, args₁⟩, s₁, hparse, hrest⟩ := bind_eq_ok_iff.1 hrun
  obtain ⟨rfl, -, rfl⟩ := parseArgs_ok hparse
  cases hpairs : readPairs args with
  | none => simp
  | some pairs =>
      rw [hpairs] at hrest
      obtain ⟨a, s₂, hloop, -⟩ := bind_eq_ok_iff.1 hrest
      exact addOrUpdateLoop_answered hloop

theorem scoreIncrement_answered {nx : Bool} (htwo : args.length = 2)
    (hrun : list.scoreIncrement args nx s = .ok ((reply, list', args'), t)) :
    ∀ p ∈ (readPairs args).getD [], p.2.buf ≠ [] := by
  obtain ⟨⟨pairs, args₁⟩, s₁, hparse, hrest⟩ := bind_eq_ok_iff.1 hrun
  obtain ⟨rfl, -, rfl⟩ := parseArgs_ok hparse
  cases hpairs : readPairs args with
  | none => simp
  | some pairs =>
      rw [hpairs] at hrest
      have hlength := length_readPairs hpairs
      match pairs, hlength with
      | [], hlength => simp
      | [(score, member)], hlength =>
          obtain ⟨⟨tmp, table⟩, s₂, hget, -⟩ := bind_eq_ok_iff.1 hrest
          simpa using (HashTable.get_cases hget).1
      | _ :: _ :: _, hlength =>
          simp only [List.length_cons] at hlength
          omega

theorem addToSortedSet_answered {xx nx ch incr : Bool}
    (hrun : list.addToSortedSet xx nx ch incr args s = .ok ((reply, list', args'), t)) :
    ∀ p ∈ workedPairs ⟨xx, nx, ch, incr⟩
      (args.drop ((nx || xx).toNat + ch.toNat + incr.toNat + 2)), p.2.buf ≠ [] := by
  rw [SkipList.addToSortedSet] at hrun
  intro p hp
  generalize (nx || xx).toNat + ch.toNat + incr.toNat = switches at hrun hp
  rw [workedPairs] at hp
  by_cases hskip : (nx && xx || incr &&
      decide (((readPairs (args.drop (switches + 2))).getD []).length ≠ 1)) = true
  · simp only [hskip, if_true] at hp
    cases hp
  · simp only [hskip] at hp
    have hp : p ∈ (readPairs (args.drop (switches + 2))).getD [] := hp
    rw [Bool.or_eq_true, not_or] at hskip
    obtain ⟨hboth, hincr⟩ := hskip
    have hlength := length_readPairs (eq_some_of_mem_getD hp)
    have hpos := List.length_pos_of_mem hp
    rw [List.length_drop] at hlength
    rw [if_neg hboth] at hrun
    dsimp only at hrun
    rw [if_pos (by omega), if_neg (by omega)] at hrun
    cases incr with
    | true =>
        have hone : ((readPairs (args.drop (switches + 2))).getD []).length = 1 := by
          simpa using hincr
        rw [if_pos rfl, if_pos (by omega)] at hrun
        obtain ⟨⟨ret, list₁, arg⟩, s₁, hadd, -⟩ := bind_eq_ok_iff.1 hrun
        refine scoreIncrement_answered ?_ hadd p hp
        rw [List.length_drop]
        omega
    | false =>
        obtain ⟨⟨ret, list₁, arg⟩, s₁, hadd, -⟩ := bind_eq_ok_iff.1 hrun
        exact addOrUpdateMember_answered hadd p hp

theorem zaddCommand_answered (hrun : zaddCommand args s = .ok ((reply, args'), t)) :
    ∀ str ∈ zaddHashed s args, str ≠ [] := by
  match args with
  | [] | [_] => simp [zaddHashed]
  | cmd :: key :: rest =>
      by_cases hlength : rest.length < 2
      · rw [zaddHashed, if_pos hlength]
        simp
      · rw [zaddCommand_eq cmd key (by omega)] at hrun
        obtain ⟨found, s₁, hopen, hrest⟩ := bind_eq_ok_iff.1 hrun
        rw [openSortedSet_found (by omega) hopen]
        intro str hstr
        rcases List.mem_cons.1 hstr with rfl | hstr
        · exact firstKey_answered hopen
        · cases found with
          | none => cases hstr
          | some list =>
              obtain ⟨p, hp, rfl⟩ := List.mem_map.1 hstr
              obtain ⟨⟨ret, list', args₁⟩, s₂, hadd, -⟩ := bind_eq_ok_iff.1 hrest
              exact addToSortedSet_answered hadd p hp

theorem setCommand_answered {name : List UInt8} {head : ArgListNode} {id : ℕ}
    {rest : List (List UInt8)} (hname : strUpCase name = ascii "SET")
    (hrun : setCommand (head :: argsFrom id rest) s = .ok ((reply, args'), t)) :
    ∀ str ∈ (setTarget (name :: rest)).toList, str ≠ [] := by
  rcases setCommand_cases hname head id rest with ⟨hnone, -⟩ |
    ⟨key, val, options, sw, args, -, -, htarget, heq⟩
  · rw [hnone]
    simp
  · rw [heq] at hrun
    obtain ⟨ret, s', hset, -⟩ := bind_eq_ok_iff.1 hrun
    obtain ⟨ht, s₁, hset, -⟩ := onKeyspace_ok hset
    obtain ⟨xp, s₂, -, hset⟩ := bind_eq_ok_iff.1 hset
    rw [htarget]
    simpa using (HashTable.find_ok hset).1

/-! ### Loading -/

theorem setFromLoad_answered {val : ExoVal} {exp_ms : ℕ}
    (hrun : onKeyspace (fun ht => ht.setFromLoad key val exp_ms) s = .ok (reply, t)) :
    s.now ≤ exp_ms → key.buf ≠ [] := by
  intro hexp
  obtain ⟨ht, s₁, hset, -⟩ := onKeyspace_ok hrun
  obtain ⟨now, s₂, hnow, hset⟩ := bind_eq_ok_iff.1 hset
  cases hnow
  rw [if_neg (by omega)] at hset
  obtain ⟨n, s₃, hhash, -⟩ := bind_eq_ok_iff.1 hset
  exact (stringHash_ok hhash).1

theorem loadEntry_answered {code : ℕ} {fp fp' : List UInt8} {ret : ℤ}
    (hrun : loadEntry code fp s = .ok ((ret, fp'), t)) :
    ∀ str ∈ recordHashed s code fp, str ≠ [] := by
  rw [loadEntry] at hrun
  rw [recordHashed]
  by_cases hstring : code = BULKSTRING
  · rw [if_pos hstring] at hrun ⊢
    obtain ⟨key, value, exp_ms, s', reply, hrecord, hs', hset⟩ := loadHashMapEntry_cases hrun
    have hnow : s'.now = s.now := by rw [hs']
    have hkey := setFromLoad_answered hset
    rw [hnow] at hkey
    rw [hrecord]
    simp only
    split
    · simp
    · simpa using hkey (by omega)
  · rw [if_neg hstring] at hrun ⊢
    by_cases hset : code = SORTED_SET
    · rw [if_pos hset] at hrun ⊢
      obtain ⟨key, score, member, fp₁, fp₂, reply, tokens, s', hkey, hscore, hmember, hzadd, -⟩ :=
        loadSkiplistEntry_cases hrun
      simp only [hkey, hscore, hmember]
      have hne := zaddCommand_answered hzadd
      exact hne
    · rw [if_neg hset] at hrun ⊢
      by_cases hbitmap : code = BITMAP
      · rw [if_pos hbitmap] at hrun ⊢
        obtain ⟨⟨key, fp₁⟩, s₁, hkey, hrun⟩ := bind_eq_ok_iff.1 hrun
        obtain ⟨htake, -, -⟩ := readString_ok_iff.1 hkey
        obtain ⟨⟨len, fp₂⟩, s₂, -, hrun⟩ := bind_eq_ok_iff.1 hrun
        simp only [loadBitmap] at hrun
        cases hbytes : takeBytes (4 * len) fp₂ with
        | none =>
            rw [hbytes] at hrun
            cases hrun
        | some p =>
            rw [hbytes] at hrun
            obtain ⟨_, s₃, hput, -⟩ := bind_eq_ok_iff.1 hrun
            obtain ⟨ht, s₄, hset, -⟩ := onKeyspace_unit_ok hput
            have hne := (HashTable.set_cases hset).1
            intro str hstr
            rw [htake] at hstr
            simp only at hstr
            split at hstr
            · split at hstr
              · obtain rfl := List.mem_singleton.1 hstr
                exact hne
              · cases hstr
            · cases hstr
      · rw [if_neg hbitmap]
        simp

theorem loadLoop_answered {fuel : ℕ} {fp : List UInt8} {ret : ℤ}
    (hrun : loadLoop fuel fp s = .ok (ret, t)) : HashesLoad fuel fp s := by
  induction fuel generalizing fp s with
  | zero => cases hrun
  | succ fuel ih =>
      rw [loadLoop] at hrun
      intro e he
      rw [show takeLE 8 fp = some e from he] at hrun
      obtain ⟨⟨ret', fp'⟩, s', hentry, hrun⟩ := bind_eq_ok_iff.1 hrun
      refine ⟨loadEntry_answered hentry, fun ret₁ fp₁ t₁ hentry₁ hret => ?_⟩
      rw [hentry] at hentry₁
      cases hentry₁
      simp only [if_neg hret] at hrun
      exact ih hrun

theorem loadFromDB_answered {ret : ℤ} (hrun : loadFromDB s = .ok (ret, t)) :
    ∀ fp ∈ s.dump, HashesLoad (fp.length + 1) fp s := by
  intro fp hfp
  rw [loadFromDB, bind_run_ok (get_run s), show s.dump = some fp from hfp] at hrun
  exact loadLoop_answered hrun

/-! ### Requests -/

theorem callCommand_answered {f : CommandPtr} {name : List UInt8} {rest : List (List UInt8)}
    (hname : f = .setCommand → strUpCase name = ascii "SET")
    (hrun : callCommand f (newArg ⟨s.nextId, strUpCase name⟩ :: argsFrom (s.nextId + 1) rest)
      { s with nextId := s.nextId + (rest.length + 1) } = .ok ((reply, args'), t)) :
    ∀ str ∈ commandHashed s f name rest, str ≠ [] := by
  cases f with
  | setCommand => exact setCommand_answered (hname rfl) hrun
  | zaddCommand =>
      have hne := zaddCommand_answered hrun
      exact hne
  | getbitCommand => exact getbitCommand_answered hrun
  | setbitCommand => exact setbitCommand_answered hrun
  | zrangeCommand => exact zrangeCommand_answered hrun
  | delCommand => exact delCommand_answered hrun
  | getCommand => exact getCommand_answered hrun
  | zcardCommand => exact zcardCommand_answered hrun
  | zcountCommand => exact zcountCommand_answered hrun
  | pingCommand | flushCommand | saveCommand | loadCommand =>
      intro str hstr
      cases hstr

theorem executeCommand_answered {cmd : ExoCmd} {name : List UInt8} {rest : List (List UInt8)}
    (hcmd : commandOf (strUpCase name) = some cmd)
    (hargs : (cmd.skip_arg_test ||
      validArgs cmd.args_count rest.length cmd.variable_arg_count) = true)
    (hrun : executeCommand cmd
      (newArg ⟨s.nextId, strUpCase name⟩ :: argsFrom (s.nextId + 1) rest)
      { s with nextId := s.nextId + (rest.length + 1) } = .ok ((reply, args'), t)) :
    ∀ str ∈ commandHashed s cmd.f_ptr name rest, str ≠ [] := by
  obtain ⟨hmem, hname⟩ := mem_of_commandOf hcmd
  have hspecial : ∀ cmd ∈ commandTable, strcmp cmd.cmd_str (ascii "SAVE") = .eq ∨
      strcmp cmd.cmd_str (ascii "LOADDB") = .eq →
        cmd.f_ptr = .saveCommand ∨ cmd.f_ptr = .loadCommand := by decide
  have hnone : cmd.f_ptr = .saveCommand ∨ cmd.f_ptr = .loadCommand →
      ∀ str ∈ commandHashed s cmd.f_ptr name rest, str ≠ [] := by
    rintro (hf | hf) str hstr <;>
      · rw [hf] at hstr
        cases hstr
  rcases executeCommand_cases hrun with ⟨hstr, -⟩ | ⟨hstr, -⟩ | ⟨-, -, -, hcount, -⟩ | ⟨-, -, hcall⟩
  · exact hnone (hspecial cmd hmem (.inl hstr))
  · exact hnone (hspecial cmd hmem (.inr hstr))
  · rw [List.length_cons, length_argsFrom, Nat.add_sub_cancel, hargs] at hcount
    cases hcount
  · exact callCommand_answered (fun hset => hname ▸ cmd_str_of_set cmd hmem hset) hcall

theorem commandDispatcher_answered {head : ArgListNode} {rest : ArgList}
    (hrun : commandDispatcher (head :: rest) s = .ok (reply, t)) :
    strUpCase head.key.buf ≠ [] := by
  obtain ⟨s', _, hget, hrun⟩ := bind_eq_ok_iff.1 hrun
  cases hget
  obtain ⟨⟨node, commands⟩, s₁, hfound, -⟩ := bind_eq_ok_iff.1 hrun
  exact (HashTable.get_cases hfound).1

/-- A request that is answered hashed no empty string. -/
theorem server_answered {r : Request} {output : List UInt8} (hs : s.Ready)
    (hrun : server s r = .ok (output, t)) : HashesNonempty s r := by
  have hready : Server.Ready { s with now := r.now } := ⟨hs.keyed, hs.lookup⟩
  obtain ⟨name, rest, htokens, hcases⟩ := serve_cases hready hrun
  have hname : strUpCase name ≠ [] := by
    change serve r.tokens { s with now := r.now } = _ at hrun
    rw [htokens, serve, bind_run_ok (newArgs_run _ _)] at hrun
    obtain ⟨reply, s₁, hdispatch, -⟩ := bind_eq_ok_iff.1 hrun
    exact commandDispatcher_answered hdispatch
  rcases hcases with ⟨hnone, -⟩ | ⟨cmd, reply, args, s', hcmd, hexec, -⟩
  · constructor
    · rw [htokens, hashed, hnone]
      simpa using hname
    · intro hload
      rw [htokens, List.head?_cons, Option.map_some, Option.some.injEq] at hload
      rw [hload] at hnone
      cases hnone
  · constructor
    · rw [htokens, hashed, hcmd]
      intro str hstr
      rcases List.mem_cons.1 hstr with rfl | hstr
      · exact hname
      · dsimp only at hstr
        split at hstr
        · rename_i hargs
          rw [htokens] at hexec
          have hne := executeCommand_answered hcmd hargs hexec
          exact hne str hstr
        · cases hstr
    · intro hload
      rw [htokens, List.head?_cons, Option.map_some, Option.some.injEq] at hload
      rw [hload] at hcmd
      obtain rfl := Option.some.inj hcmd
      rw [executeCommand, if_neg (by decide), if_pos (by decide)] at hexec
      obtain ⟨ret, s₁, hret, -⟩ := bind_eq_ok_iff.1 hexec
      exact loadFromDB_answered hret

end Answered

/-! ## Requests without an empty token -/

theorem keys_subset {f : CommandPtr} {args : ArgList} :
    ∀ str ∈ f.keys args, ∃ node ∈ args, node.key.buf = str := by
  intro str hstr
  have hfirst : str ∈ firstKey args → ∃ node ∈ args, node.key.buf = str := by
    intro hmem
    rcases args with _ | ⟨cmd, _ | ⟨key, rest⟩⟩
    · cases hmem
    · cases hmem
    · obtain rfl := List.mem_singleton.1 hmem
      exact ⟨key, by simp, rfl⟩
  have hgetbit : ∀ args : ArgList, str ∈ getbitKey args → ∃ node ∈ args, node.key.buf = str := by
    intro args hmem
    rcases args with _ | ⟨cmd, _ | ⟨key, _ | ⟨offset, rest⟩⟩⟩
    iterate 3 cases hmem
    rw [getbitKey] at hmem
    split at hmem
    · cases hmem
    · obtain rfl := List.mem_singleton.1 hmem
      exact ⟨key, by simp, rfl⟩
  cases f with
  | getCommand | zcardCommand | zcountCommand => exact hfirst hstr
  | delCommand =>
      obtain ⟨node, hnode, rfl⟩ := List.mem_map.1 hstr
      exact ⟨node, List.mem_of_mem_tail hnode, rfl⟩
  | getbitCommand => exact hgetbit args hstr
  | setbitCommand =>
      rw [CommandPtr.keys] at hstr
      rcases args with _ | ⟨cmd, _ | ⟨key, _ | ⟨offset, _ | ⟨value, rest⟩⟩⟩⟩
      iterate 4 cases hstr
      rw [setbitKey] at hstr
      split at hstr
      · cases hstr
      · obtain ⟨node, hnode, rfl⟩ := hgetbit _ hstr
        refine ⟨node, ?_, rfl⟩
        simp only [List.mem_cons, List.not_mem_nil, or_false] at hnode ⊢
        tauto
  | zrangeCommand =>
      rw [CommandPtr.keys] at hstr
      split at hstr
      · cases hstr
      · rcases args with _ | ⟨cmd, _ | ⟨key, rest⟩⟩
        · cases hstr
        · cases hstr
        · rw [zrangeKey] at hstr
          split at hstr
          · cases hstr
          · obtain rfl := List.mem_singleton.1 hstr
            exact ⟨key, by simp, rfl⟩
  | setCommand | pingCommand | flushCommand | zaddCommand | saveCommand | loadCommand =>
      cases hstr

theorem parseSwitches_ne_nil {args : ArgList} (h : ∀ node ∈ args, node.key.buf ≠ [])
    (sw : ZaddSwitches) : ∀ node ∈ (parseSwitches args sw).2, node.key.buf ≠ [] := by
  induction args generalizing sw with
  | nil => simp [parseSwitches]
  | cons node rest ih =>
      rw [parseSwitches]
      split
      · exact h
      · intro other hother
        rcases List.mem_cons.1 hother with rfl | hother
        · exact ne_nil_of_strUpCase (h node List.mem_cons_self)
        · exact ih (fun n hn => h n (List.mem_cons_of_mem _ hn)) _ other hother

theorem mem_of_readPairs {args : ArgList} {p : ℚ × ExoString}
    (h : p ∈ (readPairs args).getD []) : ∃ node ∈ args, node.key = p.2 := by
  have hpairs := eq_some_of_mem_getD h
  generalize (readPairs args).getD [] = pairs at h hpairs
  induction args using readPairs.induct generalizing pairs with
  | case1 =>
      cases hpairs
      cases h
  | case2 => cases hpairs
  | case3 node member rest hscore =>
      rw [readPairs, hscore] at hpairs
      cases hpairs
  | case4 node member rest score hscore ih =>
      simp only [readPairs, hscore] at hpairs
      obtain ⟨ps, hps, rfl⟩ := Option.map_eq_some_iff.1 hpairs
      rcases List.mem_cons.1 h with rfl | h
      · exact ⟨member, by simp, rfl⟩
      · obtain ⟨other, hother, heq⟩ := ih ps h hps
        exact ⟨other, List.mem_cons_of_mem _ (List.mem_cons_of_mem _ hother), heq⟩

theorem zaddHashed_ne_nil {args : ArgList} (h : ∀ node ∈ args, node.key.buf ≠ []) :
    ∀ str ∈ zaddHashed s args, str ≠ [] := by
  match args with
  | [] | [_] => simp [zaddHashed]
  | cmd :: key :: rest =>
      have hworked : ∀ str ∈ (zaddWorked rest).map fun p => p.2.buf, str ≠ [] := by
        intro str hstr
        obtain ⟨p, hp, rfl⟩ := List.mem_map.1 hstr
        rw [zaddWorked, workedPairs] at hp
        split at hp
        · cases hp
        · obtain ⟨node, hnode, heq⟩ := mem_of_readPairs hp
          rw [← heq]
          refine parseSwitches_ne_nil (fun n hn => h n ?_) _ node (List.mem_of_mem_drop hnode)
          exact List.mem_cons_of_mem _ (List.mem_cons_of_mem _ hn)
      rw [zaddHashed]
      intro str hstr
      split at hstr
      · cases hstr
      · rcases List.mem_cons.1 hstr with rfl | hstr
        · exact h key (by simp)
        · split at hstr
          · exact hworked str hstr
          · exact hworked str hstr
          · cases hstr

theorem setTarget_mem {tokens : List (List UInt8)} {key : List UInt8}
    (h : setTarget tokens = some key) : key ∈ tokens := by
  match tokens with
  | [] | [_] | [_, _] => cases h
  | cmd :: key' :: val :: options =>
      rw [setTarget] at h
      split at h
      · split at h
        · split at h
          · cases h
          · obtain rfl := Option.some.inj h
            simp
        · cases h
      · cases h

/-- A request with an empty token may hash it, a request without one hashes none. -/
theorem hashed_ne_nil {tokens : List (List UInt8)} (h : ∀ tkn ∈ tokens, tkn ≠ []) :
    ∀ str ∈ hashed s tokens, str ≠ [] := by
  match tokens with
  | [] => simp [hashed]
  | name :: rest =>
      have hname : strUpCase name ≠ [] := ne_nil_of_strUpCase (h name List.mem_cons_self)
      have hargs : ∀ node ∈ newArg ⟨s.nextId, strUpCase name⟩ :: argsFrom (s.nextId + 1) rest,
          node.key.buf ≠ [] := by
        intro node hnode
        rcases List.mem_cons.1 hnode with rfl | hnode
        · exact hname
        · refine h _ (List.mem_cons_of_mem _ ?_)
          rw [← bytes_argsFrom (s.nextId + 1) rest]
          exact List.mem_map_of_mem hnode
      rw [hashed]
      intro str hstr
      rcases List.mem_cons.1 hstr with rfl | hstr
      · exact hname
      · split at hstr
        · cases hstr
        · split at hstr
          · rw [commandHashed.eq_def] at hstr
            dsimp only at hstr
            split at hstr
            · exact h str (setTarget_mem (Option.mem_toList.1 hstr))
            · exact zaddHashed_ne_nil hargs str hstr
            · obtain ⟨node, hnode, rfl⟩ := keys_subset str hstr
              exact hargs node hnode
          · cases hstr

theorem simpleLoop_ne_nil {mem : ℕ → UInt8} {len fuel index : ℕ} :
    ∀ tkn ∈ simpleLoop mem len fuel index, tkn ≠ [] := by
  induction fuel generalizing index with
  | zero => simp [simpleLoop]
  | succ fuel ih =>
      rw [simpleLoop]
      split
      · intro tkn htkn
        rcases List.mem_append.1 htkn with htkn | htkn
        · split at htkn
          · rename_i hsize
            obtain rfl := List.mem_singleton.1 htkn
            intro hnil
            apply hsize
            have hlength := congrArg List.length hnil
            simpa [slice] using hlength
          · cases htkn
        · exact ih tkn htkn
      · simp

/-- No telnet command but LOADDB hashes an empty string. -/
theorem hashesNonempty_telnet {mem : ℕ → UInt8} {len : ℕ} {r : Request} (hstar : mem 0 ≠ 42)
    (hbuf : bufferTokenizer mem len = .ok (some (r.tokens.map some)))
    (hname : r.tokens.head?.map strUpCase ≠ some (ascii "LOADDB")) : HashesNonempty s r := by
  refine ⟨hashed_ne_nil ?_, fun hload => absurd hload hname⟩
  rw [bufferTokenizer] at hbuf
  split at hbuf
  · cases hbuf
  · simp only [Except.ok.injEq, Option.some.injEq] at hbuf
    have htokens := List.map_injective_iff.2 (Option.some_injective _) hbuf
    rw [← htokens]
    exact simpleLoop_ne_nil

/-! ## Runs -/

/-- The hash is defined in every request that a run comes to, provided that it hashes no
empty string. A request that does is not answered. -/
theorem stringHash_defined_iff (coins : ℕ → ℕ) (dump : Option (List UInt8)) (s : Server)
    (hstart : startUp coins dump = .ok s) (rs : List Request) (os : List (List UInt8))
    (t : Server) (hrun : server.run s rs = .ok (os, t)) (r : Request) :
    (HashesNonempty t r → server t r ≠ .error .divisionByZero) ∧
      (¬ HashesNonempty t r → ∃ fault, server t r = .error fault) := by
  have hready : t.Ready := ready_of_run (tidy_started coins dump hstart).ready hrun
  refine ⟨server_undivided hready, fun hempty => ?_⟩
  cases hserve : server t r with
  | error fault => exact ⟨fault, rfl⟩
  | ok p => exact absurd (server_answered hready hserve) hempty

/-- A GET behind a SET of its key. -/
theorem stringHash_defined_iff_get :
    ∃ os t, server.run (started (fun _ => 0) none) [request ["SET", "k", "v"]] = .ok (os, t) ∧
      server t (request ["GET", "k"]) ≠ .error .divisionByZero := by
  have hok : (server.run (started (fun _ => 0) none) [request ["SET", "k", "v"]]).isOk = true := by
    decide +kernel
  cases hrun : server.run (started (fun _ => 0) none) [request ["SET", "k", "v"]] with
  | error e =>
      rw [hrun] at hok
      cases hok
  | ok p =>
      refine ⟨p.1, p.2, rfl, (stringHash_defined_iff (fun _ => 0) none _ (startUp_eq_started _ _)
        _ p.1 p.2 hrun (request ["GET", "k"])).1 ⟨hashed_ne_nil (by decide), fun hload => ?_⟩⟩
      exact absurd hload (by decide)

/-- An array of `GET` and the empty string. -/
def getEmpty : List UInt8 := writeRespArray [newArg ⟨0, ascii "GET"⟩, newArg ⟨1, []⟩]

/-- The array is accepted, and its key is hashed. -/
theorem stringHash_undefined :
    bufferTokenizer (memoryOf getEmpty) 19 = .ok (some [some (ascii "GET"), some []]) ∧
      ¬ ∀ mem len tokens, bufferTokenizer mem len = .ok (some (tokens.map some)) → tokens ≠ [] →
        ∀ now, server (started (fun _ => 0) none) ⟨now, tokens⟩ ≠ .error .divisionByZero := by
  have hbuf : bufferTokenizer (memoryOf getEmpty) 19 =
      .ok (some [some (ascii "GET"), some []]) := by decide +kernel
  refine ⟨hbuf, fun h => h _ _ [ascii "GET", []] hbuf (by decide) 0 ?_⟩
  have hrun : (server (started (fun _ => 0) none) ⟨0, [ascii "GET", []]⟩).map Prod.fst =
      .error .divisionByZero := by decide +kernel
  cases hserve : server (started (fun _ => 0) none) ⟨0, [ascii "GET", []]⟩ with
  | error e =>
      rw [hserve] at hrun
      cases hrun
      rfl
  | ok p =>
      rw [hserve] at hrun
      cases hrun

end Exoredis
