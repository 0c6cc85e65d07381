import Exoredis.Keyspace.Arguments
import Exoredis.Refinement.Saving

/-!
# The server refines datasets

A request is answered as on the dataset that the server represents, from its tokens to the
bytes of the reply and the reclamation behind it. So the server follows every run of the
dataset machine to its end, with the same bytes at every step (`server_refines`).
-/

namespace Exoredis

open Effect

/-! ## A command and its arguments -/

/-- The two commands that are known by their names. -/
theorem strcmp_of_table : ∀ cmd ∈ commandTable,
    (strcmp cmd.cmd_str (ascii "SAVE") = .eq ↔ cmd.f_ptr = .saveCommand) ∧
      (strcmp cmd.cmd_str (ascii "LOADDB") = .eq ↔ cmd.f_ptr = .loadCommand) ∧
      (cmd.f_ptr = .zcountCommand → cmd.skip_arg_test = false ∧ cmd.args_count = 3 ∧
        cmd.variable_arg_count = false) := by
  decide

/-- A name that no command has. -/
theorem commandDispatcher_unknown {s : Server} (h : s.Ready) {head : ArgListNode} (rest : ArgList)
    (hname : head.key.buf ≠ []) (hcmd : commandOf (strUpCase head.key.buf) = none) :
    ∃ freed, commandDispatcher (head :: rest) s =
      .ok (_Error .COMMAND_NOT_FOUND, { s with freed := freed }) := by
  have hup : (upCase head.key).buf ≠ [] := by
    rw [upCase]
    cases hb : head.key.buf with
    | nil => exact absurd hb hname
    | cons c cs =>
        simp only [strUpCase]
        split <;> simp
  have hget := h.get_run hup
  rw [show commandOf (upCase head.key).buf = none from hcmd] at hget
  have hfree := freeAllArgs_run ({ head with key := upCase head.key } :: rest) s
  rw [commandDispatcher]
  simp only
  rw [bind_run_ok (get_run s), bind_run_ok hget, bind_run_ok (modify_run _ s)]
  exact ⟨_, bind_run_ok hfree⟩

section

variable {s : Server} {m : Dataset} (h : Represents s m)

include h

theorem answers_callCommand (f : CommandPtr) (head : ArgListNode) (id : ℕ)
    {args : List (List UInt8)} (hneeded : f.argsNeeded ≤ args.length + 1)
    (hcount : f = .zcountCommand → args.length = 3) (hsave : f ≠ .saveCommand)
    (hload : f ≠ .loadCommand) :
    Answers (callCommand f (head :: argsFrom id args)) s (m.run s.now f args) := by
  cases f with
  | getCommand =>
      match args, hneeded with
      | key :: rest, _ => exact answers_get h head (newArg ⟨id, key⟩) _
  | setCommand => exact answers_set h head id args
  | delCommand => exact answers_del h head id args
  | pingCommand => exact answers_pure h _ _
  | flushCommand => exact answers_flush h _
  | getbitCommand =>
      match args, hneeded with
      | key :: offset :: rest, _ =>
          exact answers_getbit h head (newArg ⟨id, key⟩) (newArg ⟨id + 1, offset⟩) _
  | setbitCommand =>
      match args, hneeded with
      | key :: offset :: value :: rest, _ =>
          exact answers_setbit h head (newArg ⟨id, key⟩) (newArg ⟨id + 1, offset⟩)
            (newArg ⟨id + 1 + 1, value⟩) _
  | zaddCommand => exact answers_zadd h head id args
  | zcardCommand =>
      match args, hneeded with
      | key :: rest, _ => exact answers_zcard h head (newArg ⟨id, key⟩) _
  | zcountCommand =>
      match args, hcount rfl with
      | [key, left, right], _ =>
          exact answers_zcount h head (newArg ⟨id, key⟩) (newArg ⟨id + 1, left⟩)
            (newArg ⟨id + 1 + 1, right⟩)
  | zrangeCommand => exact answers_zrange h head id args
  | saveCommand => exact absurd rfl hsave
  | loadCommand => exact absurd rfl hload

theorem answers_executeCommand {cmd : ExoCmd} (hcmd : cmd ∈ commandTable)
    (hs : cmd.f_ptr ≠ .saveCommand) (head : ArgListNode) (id : ℕ) (args : List (List UInt8)) :
    Answers (executeCommand cmd (head :: argsFrom id args)) s
      (if Dataset.accepts cmd args.length then m.run s.now cmd.f_ptr args
        else .ok (_Error .WRONG_NUMBER_OF_ARGUMENTS, m)) := by
  obtain ⟨hsave, hload, hzcount⟩ := strcmp_of_table cmd hcmd
  rw [executeCommand, Dataset.accepts, List.length_cons, length_argsFrom, Nat.add_sub_cancel]
  by_cases hl : cmd.f_ptr = .loadCommand
  · simp only [hl, decide_true, Bool.true_or, Bool.or_true, if_true]
    intro r m' hout
    cases hout
  rw [if_neg (mt hsave.1 hs), if_neg (mt hload.1 hl)]
  simp only [hs, hl, decide_false, Bool.false_or]
  split
  · next hargs =>
      refine answers_callCommand h _ head id (argsNeeded_le hcmd hargs) (fun hf => ?_) hs hl
      obtain ⟨hskip, hthree, hvariable⟩ := hzcount hf
      rw [hskip, hvariable, hthree, Bool.false_or, validArgs] at hargs
      by_contra hne
      rw [if_neg (Ne.symm hne), Bool.and_false, if_neg Bool.false_ne_true] at hargs
      cases hargs
  · exact answers_pure h _ _

/-! ## A request -/

/-- Another reading of the clock. -/
theorem Represents.atTime (now : ℕ) : Represents { s with now := now } m :=
  ⟨⟨⟨h.sane.ready.keyed, h.sane.ready.lookup⟩, h.sane.keyed, h.sane.stored, h.sane.garbage⟩,
    h.writable, h.shows⟩

/-- The reclamation of garbage ends and is not seen. -/
theorem Represents.freeGarbage_run :
    ∃ t, freeGarbage s = .ok ((), t) ∧ Represents t m ∧ Still s t := by
  obtain ⟨t, hrun⟩ := freeGarbage_ends h.sane.garbage
  have hframe : Insensitive fun u => u.COMMANDS = s.COMMANDS ∧ u.HASH_TABLE = s.HASH_TABLE ∧
    u.writable = s.writable ∧ Still s u := fun _ _ _ _ _ hu =>
      ⟨hu.1, hu.2.1, hu.2.2.1, hu.2.2.2.now, hu.2.2.2.dump⟩
  obtain ⟨hcommands, htable, hwritable, hstill⟩ :=
    (framed_preserves hframe).freeGarbage s _ t ⟨rfl, rfl, rfl, .refl s⟩ hrun
  have hgarbage : t.GARBAGE_LIST = [] := by
    obtain ⟨_, s₁, -, hrest⟩ := bind_eq_ok_iff.1 hrun
    obtain ⟨_, s₂, -, hreset⟩ := bind_eq_ok_iff.1 hrest
    cases hreset
    rfl
  refine ⟨t, hrun, ⟨⟨⟨hcommands ▸ h.sane.ready.keyed, hcommands ▸ h.sane.ready.lookup⟩,
    htable ▸ h.sane.keyed, htable ▸ h.sane.stored, ?_⟩, hwritable.trans h.writable,
    htable ▸ h.shows⟩, hstill⟩
  rw [hgarbage]
  simp

/-- The end of a request, once its reply is there. -/
theorem Represents.reply_run (reply : Reply) : ∃ t, (do
    let output ← writeToBuffer reply
    freeGarbage
    return output) s = .ok (reply.wire, t) ∧ Represents t m ∧ Still s t := by
  obtain ⟨freed, hwrite⟩ := writeToBuffer_run reply s
  have hs : Represents { s with freed := freed } m := h.aside ⟨⟨rfl, rfl, rfl, rfl, id⟩, rfl⟩
  obtain ⟨t, hgarbage, ht, hstill⟩ := hs.freeGarbage_run
  refine ⟨t, ?_, ht, hstill.now, hstill.dump⟩
  rw [bind_run_ok hwrite, bind_run_ok hgarbage]
  rfl

/-- A name that no command has. -/
theorem Represents.unknown_run {name : List UInt8} (hname : name ≠ [])
    (hcmd : commandOf (strUpCase name) = none) (rest : List (List UInt8)) :
    ∃ t, serve (name :: rest) s = .ok ((_Error .COMMAND_NOT_FOUND).wire, t) ∧ Represents t m ∧
      Still s t := by
  have hnext : Represents { s with nextId := s.nextId + (name :: rest).length } m :=
    h.aside ⟨⟨rfl, rfl, rfl, rfl, id⟩, rfl⟩
  obtain ⟨freed, hdispatch⟩ := commandDispatcher_unknown hnext.sane.ready
    (argsFrom (s.nextId + 1) rest) (show (newArg ⟨s.nextId, name⟩).key.buf ≠ [] from hname) hcmd
  have hfreed : Represents { s with nextId := s.nextId + (name :: rest).length, freed := freed } m :=
    hnext.aside ⟨⟨rfl, rfl, rfl, rfl, id⟩, rfl⟩
  obtain ⟨t, hreply, ht, hstill⟩ := hfreed.reply_run (_Error .COMMAND_NOT_FOUND)
  refine ⟨t, ?_, ht, hstill.now, hstill.dump⟩
  rw [serve, bind_run_ok (newArgs_run _ s), argsFrom, bind_run_ok hdispatch]
  exact hreply

end

/-- What comes behind a command leaves its reply and what it represents. -/
theorem answer_run {s t : Server} {cmd : ExoCmd} {args args' : ArgList} {reply : Reply}
    {m : Dataset} (hrun : executeCommand cmd args s = .ok ((reply, args'), t))
    (ht : Represents t m) :
    ∃ u, answer cmd args s = .ok (reply.wire, u) ∧ Represents u m ∧ Still t u := by
  obtain ⟨freed, hrelease⟩ := releaseArgs_run cmd reply args' t
  have ht' : Represents { t with freed := freed } m := ht.aside ⟨⟨rfl, rfl, rfl, rfl, id⟩, rfl⟩
  obtain ⟨u, hreply, hu, hstill⟩ := ht'.reply_run reply
  refine ⟨u, ?_, hu, hstill.now, hstill.dump⟩
  rw [answer, bind_run_ok hrun, bind_run_ok hrelease, hreply]

/-- The first token is the name of the command. -/
def names (f : CommandPtr) : List (List UInt8) → Bool
  | [] => false
  | name :: _ => (commandOf (strUpCase name)).any fun cmd => cmd.f_ptr = f

/-- The dump behind a request. -/
def dumpAfter (s : Server) (tokens : List (List UInt8)) : Option (List UInt8) :=
  if names .saveCommand tokens then (contents s.HASH_TABLE).map encode else s.dump

section

variable {s : Server} {m : Dataset} (h : Represents s m)

include h

/-- SAVE, with any arguments. -/
theorem Represents.executeSave_run {cmd : ExoCmd} (hcmd : cmd ∈ commandTable)
    (hsave : cmd.f_ptr = .saveCommand) (args : ArgList) :
    ∃ t, executeCommand cmd args s = .ok ((_OK, args), t) ∧ Represents t m ∧
      t.dump = (contents s.HASH_TABLE).map encode := by
  obtain ⟨recs, hrecs, hrun, ht⟩ := h.save_run
  refine ⟨_, ?_, ht, by rw [hrecs]; rfl⟩
  rw [executeCommand, if_pos ((strcmp_of_table cmd hcmd).1.2 hsave), bind_run_ok hrun]
  rfl

/-- A request is answered as on the dataset. -/
theorem Represents.serve_run {tokens : List (List UInt8)} {r : Reply} {m' : Dataset}
    (hout : m.request s.now tokens = .ok (r, m')) :
    ∃ t, serve tokens s = .ok (r.wire, t) ∧ Represents t m' ∧ t.dump = dumpAfter s tokens := by
  cases tokens with
  | nil => cases hout
  | cons name args =>
      rw [Dataset.request] at hout
      rw [dumpAfter, names]
      split at hout
      · cases hout
      · next hname =>
          cases hcmd : commandOf (strUpCase name) with
          | none =>
              rw [hcmd] at hout
              cases hout
              obtain ⟨t, hrun, ht, hstill⟩ := h.unknown_run hname hcmd args
              exact ⟨t, hrun, ht, hstill.dump⟩
          | some cmd =>
              rw [hcmd] at hout
              have hmem := (mem_of_commandOf hcmd).1
              have hnext : Represents { s with nextId := s.nextId + (args.length + 1) } m :=
                h.aside ⟨⟨rfl, rfl, rfl, rfl, id⟩, rfl⟩
              rw [serve_eq h.sane.ready args hcmd, Option.any_some]
              by_cases hsave : cmd.f_ptr = .saveCommand
              · obtain ⟨t, hrun, ht, hdump⟩ := hnext.executeSave_run hmem hsave
                  (newArg ⟨s.nextId, strUpCase name⟩ :: argsFrom (s.nextId + 1) args)
                obtain ⟨u, hanswer, hu, hstill⟩ := answer_run hrun ht
                rw [if_pos (decide_eq_true hsave)]
                simp only [Dataset.accepts, hsave, decide_true, Bool.true_or, if_true] at hout
                cases hout
                exact ⟨u, hanswer, hu, hstill.dump.trans hdump⟩
              · obtain ⟨reply, args', t, hrun, hwire, ht, hstill⟩ :=
                  answers_executeCommand hnext hmem hsave _ _ args r m' hout
                obtain ⟨u, hanswer, hu, hstill'⟩ := answer_run hrun ht
                rw [if_neg (by simpa using hsave), ← hwire]
                exact ⟨u, hanswer, hu, (hstill.trans hstill').dump⟩

end

/-! ## Runs -/

theorem represents_started (coins : ℕ → ℕ) (dump : Option (List UInt8)) :
    Represents (started coins dump) Dataset.empty := by
  obtain ⟨ht, hrun, -⟩ := startUp_run coins dump
  rw [startUp_eq_started, Except.ok.injEq] at hrun
  have hlookup : ∀ k, (started coins dump).HASH_TABLE.lookup k = none := by
    rw [hrun]
    exact HashTable.lookup_newHashTable
  refine ⟨⟨ready_started coins dump, ?_, fun k node hnode => ?_, ?_⟩, ?_, fun k => ?_⟩
  · rw [hrun]
    exact HashTable.keyed_newHashTable
  · rw [hlookup] at hnode
    cases hnode
  · rw [hrun]
    exact fun val hval => absurd hval List.not_mem_nil
  · rw [hrun]
    rfl
  · rw [hlookup]
    exact .none

theorem server_follows {s : Server} {m m' : Dataset} {r : Request} {output : List UInt8}
    (h : Represents s m) (hout : Dataset.machine m r = .ok (output, m')) :
    ∃ t, server s r = .ok (output, t) ∧ Represents t m' ∧ t.dump = dumpAfter s r.tokens := by
  obtain ⟨⟨reply, m''⟩, hreq, hres⟩ := Machine.map_eq_ok_iff.1 hout
  cases hres
  exact (h.atTime r.now).serve_run hreq

theorem Represents.server_run {s : Server} {m m' : Dataset} {rs : List Request}
    {outputs : List (List UInt8)} (h : Represents s m)
    (hrun : Dataset.machine.run m rs = .ok (outputs, m')) :
    ∃ t, server.run s rs = .ok (outputs, t) ∧ Represents t m' := by
  refine Machine.run_follows (P := Eq) ?_ h (List.forall₂_same.2 fun _ _ => rfl) hrun
  rintro s m r _ output m' hs rfl hout
  obtain ⟨t, hrun, ht, -⟩ := server_follows hs hout
  exact ⟨t, hrun, ht⟩

/-- Values of every kind; the string expires on the way. -/
def mixedRequests : List Request := [
  request ["set", "s", "v", "PX", "90"], request ["SETBIT", "b", "7", "1"],
  request ["ZADD", "z", "CH", "2", "two", "1.5", "one"], ⟨100, [ascii "GET", ascii "s"]⟩,
  request ["GETBIT", "b", "7"], request ["ZRANGE", "z", "0", "-1", "WITHSCORES"],
  request ["ZCOUNT", "z", "1", "1.75"], request ["GET", "b"], request ["SAVE"],
  request ["DEL", "s", "b", "z"], request ["ZCARD", "z"], request ["NONE"]]

def mixedReplies : List (List UInt8) := [
  "+OK\r\n", ":0\r\n", ":0\r\n", "$-1\r\n", ":1\r\n",
  "*4\r\n$3\r\none\r\n$8\r\n1.500000\r\n$3\r\ntwo\r\n$8\r\n2.000000\r\n", ":1\r\n",
  "-WRONG_TYPE_OF_COMMAND_ON_TARGET_OBJECT\r\n", "+OK\r\n", ":2\r\n", ":0\r\n",
  "-ERR unknown command\r\n"].map ascii

end Exoredis
