import Exoredis.Keyspace.Keyed
import Exoredis.Server.RedisServer
import Exoredis.Library.Machine

/-!
# Dispatch

After start-up the command table is keyed and stands for the map `commandOf` from
names to commands. No request changes it, and the dispatcher runs the command of
the upper-cased first token.
-/

namespace Exoredis

/-- The command of a name. -/
def commandOf (name : List UInt8) : Option ExoCmd :=
  commandTable.find? fun cmd => cmd.cmd_str = name

/-- The command table is the one made at start-up. -/
structure Server.Ready (s : Server) : Prop where
  keyed : s.COMMANDS.Keyed
  lookup : ∀ name, (s.COMMANDS.lookup name).map ListNode.value = commandOf name

theorem addCommands_run {before : ExoCmd → UInt8} {cmds : List ExoCmd}
    {ht : HashTable ExoCmd} (hht : ht.Keyed)
    (hhash : ∀ cmd ∈ cmds, cmd.cmd_str ≠ [] ∧
      hashOf (literalMemory (before cmd) cmd.cmd_str) cmd.cmd_str.length = keyHash cmd.cmd_str)
    (hnames : (cmds.map ExoCmd.cmd_str).Nodup)
    (hnew : ∀ cmd ∈ cmds, ht.lookup cmd.cmd_str = none) (s : Server) :
    ∃ ht', addCommands before cmds ht s =
        .ok (ht', { s with nextId := s.nextId + cmds.length }) ∧ ht'.Keyed ∧
      ∀ name, (ht'.lookup name).map ListNode.value =
        (cmds.find? fun cmd => cmd.cmd_str = name).or ((ht.lookup name).map ListNode.value) := by
  induction cmds generalizing ht s with
  | nil => exact ⟨ht, rfl, hht, by simp⟩
  | cons cmd cmds ih =>
      obtain ⟨hne, hcmd⟩ := hhash cmd List.mem_cons_self
      have hc : ht.cursor cmd.cmd_str = none :=
        HashTable.cursor_eq_none_iff.2 (hnew cmd List.mem_cons_self)
      let node : ListNode ExoCmd := newNode ⟨s.nextId, cmd.cmd_str⟩ cmd
      have hrun : addCommand (before cmd) ht cmd s =
          .ok (ht.putBucket cmd.cmd_str (ht.buckets (keyHash cmd.cmd_str) ++ [node]),
            { s with nextId := s.nextId + 1 }) := by
        have hlen : cmd.cmd_str.length ≠ 0 := by simpa using hne
        rw [addCommand, Effect.bind_run_ok (stringHash_eq_hashOf hlen s), hcmd]
        have hnew : newString cmd.cmd_str s =
            .ok (⟨s.nextId, cmd.cmd_str⟩, { s with nextId := s.nextId + 1 }) := rfl
        rw [Effect.bind_run_ok hnew,
          Effect.bind_run_ok (addNodeToList_run (hht.unfreed _) _ _)]
        rfl
      rw [List.map_cons, List.nodup_cons] at hnames
      have hkeyed : (ht.putBucket cmd.cmd_str
          (ht.buckets (keyHash cmd.cmd_str) ++ [node])).Keyed :=
        hht.keyed_append rfl rfl hne hc
      have hlookup : ∀ k, (ht.putBucket cmd.cmd_str
          (ht.buckets (keyHash cmd.cmd_str) ++ [node])).lookup k =
            if k = cmd.cmd_str then some node else ht.lookup k :=
        HashTable.Keyed.lookup_append rfl hc
      have hne' : ∀ cmd' ∈ cmds, cmd'.cmd_str ≠ cmd.cmd_str := by
        intro cmd' hcmd' h
        exact hnames.1 (h ▸ List.mem_map_of_mem hcmd')
      obtain ⟨ht', hrun', hht', hmap⟩ := ih hkeyed
        (fun cmd' hcmd' => hhash cmd' (List.mem_cons_of_mem _ hcmd')) hnames.2
        (fun cmd' hcmd' => by
          rw [hlookup, if_neg (hne' cmd' hcmd')]
          exact hnew cmd' (List.mem_cons_of_mem _ hcmd'))
        { s with nextId := s.nextId + 1 }
      refine ⟨ht', ?_, hht', fun name => ?_⟩
      · rw [addCommands, Effect.bind_run_ok hrun, hrun']
        simp [Nat.add_assoc, Nat.add_comm 1]
      · rw [hmap, hlookup, List.find?_cons]
        by_cases hname : cmd.cmd_str = name
        · subst hname
          have hnone : (cmds.find? fun cmd' => cmd'.cmd_str = cmd.cmd_str) = none := by
            simpa [List.find?_eq_none] using hne'
          simp [hnone, node, newNode]
        · rw [if_neg fun h => hname h.symm]
          simp [hname]

/-- Start-up leaves the command table ready and everything else as it was. -/
theorem startUp_run (coins : ℕ → ℕ) (dump : Option (List UInt8)) :
    ∃ ht, startUp coins dump = .ok { blankServer coins dump with COMMANDS := ht, nextId := 13 } ∧
      Server.Ready { blankServer coins dump with COMMANDS := ht, nextId := 13 } := by
  have hhash : ∀ cmd ∈ commandTable, cmd.cmd_str ≠ [] ∧
      hashOf (literalMemory 0 cmd.cmd_str) cmd.cmd_str.length = keyHash cmd.cmd_str := by
    decide +kernel
  obtain ⟨ht, hrun, hht, hmap⟩ := @addCommands_run (fun _ => 0) _ _
    HashTable.keyed_newHashTable hhash (by decide)
    (fun cmd _ => HashTable.lookup_newHashTable cmd.cmd_str) (blankServer coins dump)
  refine ⟨ht, ?_, hht, fun name => ?_⟩
  · rw [startUp, initializeCmdTable, hrun]
    rfl
  · rw [hmap, HashTable.lookup_newHashTable]
    simp [commandOf]

/-- The server after start-up. -/
def started (coins : ℕ → ℕ) (dump : Option (List UInt8)) : Server :=
  (startUp coins dump).toOption.getD (blankServer coins dump)

theorem startUp_eq_started (coins : ℕ → ℕ) (dump : Option (List UInt8)) :
    startUp coins dump = .ok (started coins dump) := by
  obtain ⟨ht, hrun, -⟩ := startUp_run coins dump
  unfold started
  rw [hrun]
  rfl

theorem ready_started (coins : ℕ → ℕ) (dump : Option (List UInt8)) :
    (started coins dump).Ready := by
  obtain ⟨ht, hrun, hready⟩ := startUp_run coins dump
  rw [startUp_eq_started] at hrun
  rwa [Except.ok.inj hrun]

variable {s : Server}

theorem Server.Ready.get_run (h : s.Ready) {key : ExoString} (hkey : key.buf ≠ []) :
    s.COMMANDS.get key s = .ok ((commandOf key.buf, s.COMMANDS), s) := by
  rw [← h.lookup]
  cases hc : s.COMMANDS.cursor key.buf with
  | none =>
      rw [HashTable.get_missing h.keyed.unfreed hkey hc, HashTable.cursor_eq_none_iff.1 hc]
      rfl
  | some c =>
      have hlive : ¬ c.node.Expired s.now := by
        rintro ⟨htype, -⟩
        change EXOCMD = BULKSTRING at htype
        exact absurd htype (by decide)
      rw [HashTable.get_live h.keyed.unfreed hkey hc hlive, HashTable.lookup_of_cursor hc]
      rfl

/-- The end of a dispatch: the arguments that are no longer needed are freed. -/
def releaseArgs (cmd : ExoCmd) (result : Reply) (args : ArgList) : Exo Unit :=
  if cmd.free_args || result.isError then freeAllArgs args else freeDeadArgs args

theorem ne_nil_of_commandOf {name : List UInt8} {cmd : ExoCmd}
    (h : commandOf (strUpCase name) = some cmd) : name ≠ [] := by
  rintro rfl
  rw [show commandOf (strUpCase []) = none from by decide] at h
  cases h

/-- A request runs the command that its first token names. -/
theorem commandDispatcher_run (h : s.Ready) {head : ArgListNode} {rest : ArgList} {cmd : ExoCmd}
    (hcmd : commandOf (strUpCase head.key.buf) = some cmd) :
    commandDispatcher (head :: rest) s =
      (do let p ← executeCommand cmd ({ head with key := upCase head.key } :: rest)
          releaseArgs cmd p.1 p.2
          return p.1 : Exo Reply) s := by
  have hup : (upCase head.key).buf ≠ [] := by
    cases hb : head.key.buf with
    | nil => exact absurd hb (ne_nil_of_commandOf hcmd)
    | cons c cs =>
        rw [upCase, hb, strUpCase]
        split <;> simp
  have hget := h.get_run hup
  rw [commandDispatcher]
  simp only
  rw [Effect.bind_run_ok (Effect.get_run s), Effect.bind_run_ok hget,
    Effect.bind_run_ok (Effect.modify_run _ s)]
  have hcmd' : commandOf (upCase head.key).buf = some cmd := hcmd
  rw [hcmd']
  simp only
  cases hrun : executeCommand cmd ({ head with key := upCase head.key } :: rest) s with
  | error e => rw [Effect.bind_run_error hrun, Effect.bind_run_error hrun]
  | ok p =>
      rw [Effect.bind_run_ok hrun, Effect.bind_run_ok hrun, releaseArgs]
      split <;> rfl

/-- The upper-cased first token of a request. -/
def upCaseHead (args : ArgList) : ArgList :=
  match args with
  | [] => []
  | head :: rest => { head with key := upCase head.key } :: rest

/-- What a dispatch that ends has done. -/
theorem commandDispatcher_cases (h : s.Ready) {tokens : ArgList} {reply : Reply} {t : Server}
    (hrun : commandDispatcher tokens s = .ok (reply, t)) :
    ∃ head rest, tokens = head :: rest ∧
      (commandOf (strUpCase head.key.buf) = none ∧ reply = _Error .COMMAND_NOT_FOUND ∧
          freeAllArgs (upCaseHead tokens) s = .ok ((), t) ∨
        ∃ cmd args s', commandOf (strUpCase head.key.buf) = some cmd ∧
          executeCommand cmd (upCaseHead tokens) s = .ok ((reply, args), s') ∧
          releaseArgs cmd reply args s' = .ok ((), t)) := by
  cases tokens with
  | nil => simp [commandDispatcher] at hrun
  | cons head rest =>
      refine ⟨head, rest, rfl, ?_⟩
      rw [commandDispatcher] at hrun
      simp only at hrun
      rw [Effect.bind_run_ok (Effect.get_run s)] at hrun
      by_cases hup : (upCase head.key).buf = []
      · have hget : s.COMMANDS.get (upCase head.key) s = .error .divisionByZero := by
          rw [HashTable.get, Effect.bind_run_error (stringHash_nil hup s)]
        rw [Effect.bind_run_error hget] at hrun
        cases hrun
      · have hget := h.get_run hup
        cases hcmd : commandOf (upCase head.key).buf with
        | none =>
            rw [hcmd] at hget
            rw [Effect.bind_run_ok hget, Effect.bind_run_ok (Effect.modify_run _ s)] at hrun
            obtain ⟨_, s', hfree, hret⟩ := Effect.bind_eq_ok_iff.1 hrun
            simp only [Effect.pure_run, Except.ok.injEq, Prod.mk.injEq] at hret
            exact .inl ⟨hcmd, hret.1.symm, hret.2 ▸ hfree⟩
        | some cmd =>
            rw [hcmd] at hget
            rw [Effect.bind_run_ok hget, Effect.bind_run_ok (Effect.modify_run _ s)] at hrun
            obtain ⟨⟨result, args⟩, s', hexec, hrun⟩ := Effect.bind_eq_ok_iff.1 hrun
            have hrelease : (do releaseArgs cmd result args; return result : Exo Reply) s' =
                .ok (reply, t) := by
              rw [← hrun, releaseArgs]
              split <;> rfl
            obtain ⟨_, s'', hfree, hret⟩ := Effect.bind_eq_ok_iff.1 hrelease
            simp only [Effect.pure_run, Except.ok.injEq, Prod.mk.injEq] at hret
            obtain ⟨rfl, rfl⟩ := hret
            exact .inr ⟨cmd, args, s', hcmd, hexec, hfree⟩

theorem mem_of_commandOf {name : List UInt8} {cmd : ExoCmd} (h : commandOf name = some cmd) :
    cmd ∈ commandTable ∧ cmd.cmd_str = name :=
  ⟨List.mem_of_find?_eq_some h, by simpa using List.find?_some h⟩

theorem executeCommand_run {cmd : ExoCmd} {tokens : ArgList} {s : Server}
    (hsave : strcmp cmd.cmd_str (ascii "SAVE") ≠ .eq)
    (hload : strcmp cmd.cmd_str (ascii "LOADDB") ≠ .eq)
    (hargs : (cmd.skip_arg_test ||
      validArgs cmd.args_count (tokens.length - 1) cmd.variable_arg_count) = true) :
    executeCommand cmd tokens s = callCommand cmd.f_ptr tokens s := by
  rw [executeCommand, if_neg hsave, if_neg hload, if_pos hargs]

theorem executeCommand_cases {cmd : ExoCmd} {tokens args : ArgList} {reply : Reply}
    {t : Server} (hrun : executeCommand cmd tokens s = .ok ((reply, args), t)) :
    (strcmp cmd.cmd_str (ascii "SAVE") = .eq ∧ args = tokens ∧ saveCommand s = .ok (reply, t)) ∨
    (strcmp cmd.cmd_str (ascii "LOADDB") = .eq ∧ args = tokens ∧
      ∃ ret, loadFromDB s = .ok (ret, t) ∧ reply = if ret ≠ -1 then _OK else _Null) ∨
    (t = s ∧ args = tokens ∧ reply = _Error .WRONG_NUMBER_OF_ARGUMENTS ∧
      (cmd.skip_arg_test ||
        validArgs cmd.args_count (tokens.length - 1) cmd.variable_arg_count) = false ∧
      strcmp cmd.cmd_str (ascii "LOADDB") ≠ .eq) ∨
    (strcmp cmd.cmd_str (ascii "LOADDB") ≠ .eq ∧
      (cmd.skip_arg_test ||
        validArgs cmd.args_count (tokens.length - 1) cmd.variable_arg_count) = true ∧
      callCommand cmd.f_ptr tokens s = .ok ((reply, args), t)) := by
  rw [executeCommand] at hrun
  by_cases hsave : strcmp cmd.cmd_str (ascii "SAVE") = .eq
  · rw [if_pos hsave] at hrun
    obtain ⟨r, s', hsaved, hret⟩ := Effect.bind_eq_ok_iff.1 hrun
    simp only [Effect.pure_run, Except.ok.injEq, Prod.mk.injEq] at hret
    obtain ⟨⟨rfl, rfl⟩, rfl⟩ := hret
    exact .inl ⟨hsave, rfl, hsaved⟩
  · rw [if_neg hsave] at hrun
    by_cases hload : strcmp cmd.cmd_str (ascii "LOADDB") = .eq
    · rw [if_pos hload] at hrun
      obtain ⟨ret, s', hloaded, hret⟩ := Effect.bind_eq_ok_iff.1 hrun
      simp only [Effect.pure_run, Except.ok.injEq, Prod.mk.injEq] at hret
      obtain ⟨⟨rfl, rfl⟩, rfl⟩ := hret
      exact .inr (.inl ⟨hload, rfl, ret, hloaded, rfl⟩)
    · rw [if_neg hload] at hrun
      by_cases hargs : (cmd.skip_arg_test ||
          validArgs cmd.args_count (tokens.length - 1) cmd.variable_arg_count) = true
      · rw [if_pos hargs] at hrun
        exact .inr (.inr (.inr ⟨hload, hargs, hrun⟩))
      · rw [if_neg hargs] at hrun
        simp only [Effect.pure_run, Except.ok.injEq, Prod.mk.injEq] at hrun
        obtain ⟨⟨rfl, rfl⟩, rfl⟩ := hrun
        exact .inr (.inr (.inl ⟨rfl, rfl, rfl, Bool.eq_false_iff.2 hargs, hload⟩))

/-! ## From tokens to the reply on the wire -/

/-- The arguments made of tokens, with identities from `id` on. -/
def argsFrom : ℕ → List (List UInt8) → ArgList
  | _, [] => []
  | id, tkn :: tokens => newArg ⟨id, tkn⟩ :: argsFrom (id + 1) tokens

theorem newArgs_run (tokens : List (List UInt8)) (s : Server) :
    newArgs tokens s =
      .ok (argsFrom s.nextId tokens, { s with nextId := s.nextId + tokens.length }) := by
  induction tokens generalizing s with
  | nil => rfl
  | cons tkn tokens ih =>
      have hnew : newString tkn s =
          .ok (⟨s.nextId, tkn⟩, { s with nextId := s.nextId + 1 }) := rfl
      rw [newArgs, Effect.bind_run_ok hnew, Effect.bind_run_ok (ih _)]
      simp [argsFrom, Nat.add_assoc, Nat.add_comm 1]

@[simp] theorem length_argsFrom (id : ℕ) (tokens : List (List UInt8)) :
    (argsFrom id tokens).length = tokens.length := by
  induction tokens generalizing id with
  | nil => rfl
  | cons tkn tokens ih => simp [argsFrom, ih]

@[simp] theorem bytes_argsFrom (id : ℕ) (tokens : List (List UInt8)) :
    (argsFrom id tokens).map (fun node => node.key.buf) = tokens := by
  induction tokens generalizing id with
  | nil => rfl
  | cons tkn tokens ih =>
      rw [argsFrom, List.map_cons, ih]
      rfl

/-- The switches depend on the bytes of the arguments only. -/
theorem parseSetSwitches_congr {args args' : ArgList}
    (h : args.map (fun node => node.key.buf) = args'.map fun node => node.key.buf)
    (sw : SetSwitches) : (parseSetSwitches args sw).1 = (parseSetSwitches args' sw).1 := by
  induction hn : args.length using Nat.strongRecOn generalizing args args' sw with
  | ind n ih =>
    cases args with
    | nil =>
        obtain rfl : args' = [] := by simpa using h.symm
        rfl
    | cons node rest =>
        cases args' with
        | nil => simp at h
        | cons node' rest' =>
            simp only [List.map_cons, List.cons.injEq] at h
            obtain ⟨hnode, hrest⟩ := h
            have hup : (upCase node.key).buf = (upCase node'.key).buf := by
              rw [upCase, upCase, hnode]
            have hlt : rest.length < n := by
              rw [← hn, List.length_cons]
              exact Nat.lt_succ_self _
            cases rest with
            | nil =>
                obtain rfl : rest' = [] := by simpa using hrest.symm
                unfold parseSetSwitches
                simp only [hup]
                split_ifs <;> rfl
            | cons value rest =>
                cases rest' with
                | nil => simp at hrest
                | cons value' rest' =>
                    have hvalue := hrest
                    simp only [List.map_cons, List.cons.injEq] at hvalue
                    have hlt' : rest.length < n := Nat.lt_of_succ_lt hlt
                    unfold parseSetSwitches
                    simp only [hup, hvalue.1]
                    split_ifs
                    · rfl
                    · exact ih rest.length hlt' hvalue.2 _ rfl
                    · rfl
                    · exact ih rest.length hlt' hvalue.2 _ rfl
                    · exact ih _ hlt hrest _ rfl
                    · exact ih _ hlt hrest _ rfl
                    · rfl

/-- The switches of the tokens behind the value of a SET. -/
def switchesOf (options : List (List UInt8)) : Except ErrorCode SetSwitches :=
  (parseSetSwitches (options.map fun str => newArg ⟨0, str⟩) noSwitches).1

theorem parseSetSwitches_argsFrom (id : ℕ) (options : List (List UInt8)) :
    (parseSetSwitches (argsFrom id options) noSwitches).1 = switchesOf options := by
  refine parseSetSwitches_congr ?_ noSwitches
  rw [bytes_argsFrom, List.map_map]
  exact (List.map_id _).symm

/-- The bytes of a reply. -/
def Reply.wire : Reply → List UInt8
  | .simpleString str => str ++ crlf
  | .respError str => str ++ crlf
  | .respInteger str => 58 :: str ++ crlf
  | .bulkString str => writeBulk str
  | .respArray list => writeRespArray list

theorem writeToBuffer_run (reply : Reply) (s : Server) :
    ∃ freed, writeToBuffer reply s = .ok (reply.wire, { s with freed := freed }) := by
  cases reply with
  | respArray list =>
      rw [writeToBuffer, writeRespArrayToBuffer, Effect.bind_run_ok (freeDeadArgs_run list s)]
      exact ⟨_, rfl⟩
  | _ => exact ⟨s.freed, rfl⟩

theorem releaseArgs_run (cmd : ExoCmd) (result : Reply) (args : ArgList) (s : Server) :
    ∃ freed, releaseArgs cmd result args s = .ok ((), { s with freed := freed }) := by
  rw [releaseArgs]
  split
  · exact ⟨_, freeAllArgs_run args s⟩
  · exact ⟨_, freeDeadArgs_run args s⟩

/-- Values that own no skip list. -/
def ExoVal.Flat : ExoVal → Prop
  | .sortedSet _ => False
  | _ => True

theorem freeObject_run {val : ExoVal} (h : val.Flat) (s : Server) :
    ∃ freed, freeObject val s = .ok ((), { s with freed := freed }) := by
  cases val with
  | sortedSet list => exact h.elim
  | bulkString str => exact ⟨_, rfl⟩
  | _ => exact ⟨s.freed, rfl⟩

theorem freeGarbageLoop_run {fuel i : ℕ} {s : Server}
    (hflat : ∀ val ∈ s.GARBAGE_LIST, val.Flat) (hfuel : s.GARBAGE_LIST.length - i < fuel) :
    ∃ freed, freeGarbageLoop fuel i s = .ok ((), { s with freed := freed }) := by
  induction fuel generalizing i s with
  | zero => omega
  | succ fuel ih =>
      rw [freeGarbageLoop, Effect.bind_run_ok (Effect.get_run s)]
      cases hval : s.GARBAGE_LIST[i]? with
      | none => exact ⟨s.freed, rfl⟩
      | some val =>
          obtain ⟨freed, hfree⟩ := freeObject_run (hflat val (List.mem_of_getElem? hval)) s
          simp only
          rw [Effect.bind_run_ok hfree]
          split
          · obtain ⟨freed', h'⟩ := @ih (i + 1) { s with freed := freed } hflat
              (by simp only; omega)
            exact ⟨freed', h'⟩
          · exact ⟨freed, rfl⟩

theorem length_le_garbageWork (list : List ExoVal) :
    list.length ≤ (list.map garbageWork).sum := by
  induction list with
  | nil => exact Nat.zero_le _
  | cons val list ih =>
      have hval : 1 ≤ garbageWork val := by
        cases val <;> simp [garbageWork]
      simp only [List.length_cons, List.map_cons, List.sum_cons]
      omega

theorem freeGarbage_run (hflat : ∀ val ∈ s.GARBAGE_LIST, val.Flat) :
    ∃ freed, freeGarbage s = .ok ((), { s with freed := freed, GARBAGE_LIST := [] }) := by
  have hwork := length_le_garbageWork s.GARBAGE_LIST
  obtain ⟨freed, hloop⟩ := @freeGarbageLoop_run
    ((s.GARBAGE_LIST.map garbageWork).sum + 1) 0 s hflat (by omega)
  rw [freeGarbage, Effect.bind_run_ok (Effect.get_run s), Effect.bind_run_ok hloop]
  exact ⟨freed, rfl⟩

/-- The command, the reclamation of its arguments, the reply and the reclamation of
garbage. -/
def answer (cmd : ExoCmd) (args : ArgList) : Exo (List UInt8) := do
  let p ← executeCommand cmd args
  releaseArgs cmd p.1 p.2
  let output ← writeToBuffer p.1
  freeGarbage
  return output

theorem serve_eq (h : s.Ready) {name : List UInt8} (rest : List (List UInt8)) {cmd : ExoCmd}
    (hcmd : commandOf (strUpCase name) = some cmd) :
    serve (name :: rest) s =
      answer cmd (newArg ⟨s.nextId, strUpCase name⟩ :: argsFrom (s.nextId + 1) rest)
        { s with nextId := s.nextId + (rest.length + 1) } := by
  have hready : Server.Ready { s with nextId := s.nextId + (rest.length + 1) } :=
    ⟨h.keyed, h.lookup⟩
  have hdispatch : commandDispatcher
      (newArg ⟨s.nextId, name⟩ :: argsFrom (s.nextId + 1) rest) _ = _ :=
    commandDispatcher_run hready hcmd
  rw [serve, Effect.bind_run_ok (newArgs_run _ s), argsFrom, List.length_cons, Effect.bind_run,
    hdispatch, ← Effect.bind_run, bind_assoc, answer]
  simp only [bind_assoc, pure_bind]
  rfl

/-- A request whose command ends, and leaves no skip list behind as garbage, is
answered with the reply of the command. -/
theorem serve_run (h : s.Ready) {name : List UInt8} {rest : List (List UInt8)} {cmd : ExoCmd}
    (hcmd : commandOf (strUpCase name) = some cmd)
    {result : Reply} {args : ArgList} {t : Server}
    (hrun : executeCommand cmd
      (newArg ⟨s.nextId, strUpCase name⟩ :: argsFrom (s.nextId + 1) rest)
      { s with nextId := s.nextId + (rest.length + 1) } = .ok ((result, args), t))
    (hflat : ∀ val ∈ t.GARBAGE_LIST, val.Flat) :
    ∃ freed, serve (name :: rest) s =
      .ok (result.wire, { t with freed := freed, GARBAGE_LIST := [] }) := by
  obtain ⟨freed₁, h₁⟩ := releaseArgs_run cmd result args t
  obtain ⟨freed₂, h₂⟩ := writeToBuffer_run result { t with freed := freed₁ }
  obtain ⟨freed₃, h₃⟩ := @freeGarbage_run { t with freed := freed₂ } hflat
  refine ⟨freed₃, ?_⟩
  rw [serve_eq h rest hcmd, answer, Effect.bind_run_ok hrun, Effect.bind_run_ok h₁,
    Effect.bind_run_ok h₂, Effect.bind_run_ok h₃]
  rfl

/-- The server on tokenized requests. -/
def server : Machine Server Request (List UInt8) Fault := step

/-- A request at time `0`. -/
def request (tokens : List String) : Request := ⟨0, tokens.map ascii⟩

/-- Runs a table operation on the keyspace. -/
theorem onKeyspace_run {α : Type} {f : HashTable ExoVal → Exo (α × HashTable ExoVal)}
    {a : α} {ht : HashTable ExoVal} {t : Server}
    (h : f s.HASH_TABLE s = .ok ((a, ht), t)) :
    onKeyspace f s = .ok (a, { t with HASH_TABLE := ht }) := by
  rw [onKeyspace, Effect.bind_run_ok (Effect.get_run s), Effect.bind_run_ok h]
  rfl

theorem onKeyspace_unit_run {f : HashTable ExoVal → Exo (HashTable ExoVal)}
    {ht : HashTable ExoVal} {t : Server} (h : f s.HASH_TABLE s = .ok (ht, t)) :
    onKeyspace_ f s = .ok ((), { t with HASH_TABLE := ht }) := by
  rw [onKeyspace_, Effect.bind_run_ok (Effect.get_run s), Effect.bind_run_ok h]
  rfl

/-- What an operation on the keyspace that ends has done. -/
theorem onKeyspace_ok {α : Type} {f : HashTable ExoVal → Exo (α × HashTable ExoVal)}
    {a : α} {t : Server} (hrun : onKeyspace f s = .ok (a, t)) :
    ∃ ht t', f s.HASH_TABLE s = .ok ((a, ht), t') ∧ t = { t' with HASH_TABLE := ht } := by
  obtain ⟨s', _, hget, hrun⟩ := Effect.bind_eq_ok_iff.1 hrun
  cases hget
  obtain ⟨⟨a', ht⟩, t', hf, hrun⟩ := Effect.bind_eq_ok_iff.1 hrun
  cases hrun
  exact ⟨ht, t', hf, rfl⟩

theorem onKeyspace_unit_ok {f : HashTable ExoVal → Exo (HashTable ExoVal)} {u : Unit}
    {t : Server} (hrun : onKeyspace_ f s = .ok (u, t)) :
    ∃ ht t', f s.HASH_TABLE s = .ok (ht, t') ∧ t = { t' with HASH_TABLE := ht } := by
  obtain ⟨s', _, hget, hrun⟩ := Effect.bind_eq_ok_iff.1 hrun
  cases hget
  obtain ⟨ht, t', hf, hrun⟩ := Effect.bind_eq_ok_iff.1 hrun
  cases hrun
  exact ⟨ht, t', hf, rfl⟩

end Exoredis
