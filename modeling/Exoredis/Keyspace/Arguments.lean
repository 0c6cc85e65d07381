import Exoredis.Keyspace.Invariant

/-!
# Walking along the arguments

The dispatcher never follows a link behind the last argument and never stores behind the
end of the arrays of scores and members (`commandDispatcher_withinArgs`). The commands
that rely on the count check of the dispatcher get as many arguments as they follow
links to (`argsNeeded_le`); the others check their number themselves, and a sorted set
splits off its switches in such a way that scores and members come in pairs.
-/

namespace Exoredis

open Effect LittleEndian

/-- The class of the computations that stay within their arguments. -/
abbrev WithinArgs : ∀ α : Type, Exo α → Prop := fun _ x => Faults x fun e => ¬ e.InArgs

/-! ## The operations on a key -/

theorem closed_withinArgs : Closed WithinArgs where
  toHashing := framed_faults
  get key := faults_onKeyspace fun ht => framed_faults.get ht key trivial
  del key := faults_onKeyspace fun ht => framed_faults.del ht key trivial
  set key val := faults_onKeyspace_unit fun ht => framed_faults.set ht key val trivial
  update key val := faults_onKeyspace_unit fun ht => framed_faults.updateValue ht key val trivial
  flush := faults_modify _
  save _ := faults_modify _

theorem complete_withinArgs : Complete WithinArgs where
  toClosed := closed_withinArgs
  setWithExpiry key val exp_ms nx xx :=
    faults_onKeyspace fun ht => framed_faults.setWithExpiry ht key val exp_ms nx xx trivial
  setFromLoad key val exp_ms :=
    faults_onKeyspace fun ht => framed_faults.setFromLoad ht key val exp_ms trivial

/-! ## The dispatcher -/

/-- The number of arguments that passes the check of the dispatcher suffices for the
command. -/
theorem argsNeeded_le {cmd : ExoCmd} (hcmd : cmd ∈ commandTable) {n : ℕ}
    (h : (cmd.skip_arg_test || validArgs cmd.args_count n cmd.variable_arg_count) = true) :
    cmd.f_ptr.argsNeeded ≤ n + 1 := by
  have hfixed : ∀ cmd ∈ commandTable, cmd.f_ptr.argsNeeded = 0 ∨
      cmd.skip_arg_test = false ∧ cmd.variable_arg_count = false ∧
        cmd.f_ptr.argsNeeded ≤ cmd.args_count + 1 := by decide
  rcases hfixed cmd hcmd with hzero | ⟨hskip, hvariable, hneeded⟩
  · omega
  · rw [hskip, hvariable, Bool.false_or, validArgs] at h
    by_cases hcount : cmd.args_count = n
    · omega
    · simp [hcount] at h

theorem withinArgs_executeCommand {cmd : ExoCmd} (hcmd : cmd ∈ commandTable) {args : ArgList}
    (hargs : args ≠ []) : WithinArgs _ (executeCommand cmd args) := by
  have hC := closed_withinArgs
  rw [executeCommand]
  split
  · exact hC.seq hC.serving.operating.saveCommand fun _ => hC.pure _
  · split
    · exact hC.seq complete_withinArgs.loadFromDB fun _ => hC.pure _
    · split
      · rename_i hvalid
        have hneeded := argsNeeded_le hcmd hvalid
        have hpos := List.length_pos_of_ne_nil hargs
        refine hC.serving.callCommand (fun _ => complete_withinArgs.setCommand args) (fun _ => ?_)
          (.inr (by omega))
        exact hC.seq complete_withinArgs.loadFromDB fun _ => hC.pure _
      · exact hC.pure _

theorem not_inArgs_of_commandDispatcher {s : Server} (h : s.Ready) {head : ArgListNode}
    {rest : ArgList} {e : Fault} (hrun : commandDispatcher (head :: rest) s = .error e) :
    ¬ e.InArgs := by
  have hC := closed_withinArgs
  cases hcmd : commandOf (strUpCase head.key.buf) with
  | some cmd =>
      rw [commandDispatcher_run h hcmd] at hrun
      have hexec : WithinArgs _ (executeCommand cmd ({ head with key := upCase head.key } :: rest)) :=
        withinArgs_executeCommand (mem_of_commandOf hcmd).1 (List.cons_ne_nil _ _)
      exact hC.seq hexec (fun p => hC.seq (hC.releaseArgs _ _ _) fun _ => hC.pure _) s e hrun
  | none =>
      rw [commandDispatcher] at hrun
      simp only at hrun
      rw [bind_run_ok (get_run s)] at hrun
      by_cases hup : (upCase head.key).buf = []
      · have hget : s.COMMANDS.get (upCase head.key) s = .error .divisionByZero := by
          rw [HashTable.get, bind_run_error (stringHash_nil hup s)]
        rw [bind_run_error hget] at hrun
        cases hrun
        decide
      · have hnone : commandOf (upCase head.key).buf = none := hcmd
        rw [bind_run_ok (h.get_run hup), bind_run_ok (modify_run _ s), hnone] at hrun
        exact hC.seq (hC.freeAllArgs _) (fun _ => hC.pure _) _ e hrun

/-- No request, whatever its tokens and whatever the keyspace, makes the program follow a
link of a missing argument or store more pairs than its arrays hold. -/
theorem commandDispatcher_withinArgs {s : Server} (h : s.Ready) {tokens : ArgList}
    (htokens : tokens ≠ []) :
    commandDispatcher tokens s ≠ .error .missingArgument ∧
      commandDispatcher tokens s ≠ .error .argsOverflow := by
  cases tokens with
  | nil => exact absurd rfl htokens
  | cons head rest =>
      constructor
      · intro hrun
        exact not_inArgs_of_commandDispatcher h hrun (.inl rfl)
      · intro hrun
        exact not_inArgs_of_commandDispatcher h hrun (.inr rfl)

theorem commandDispatcher_withinArgs_started :
    commandDispatcher [newArg ⟨0, ascii "ZADD"⟩, newArg ⟨1, ascii "k"⟩, newArg ⟨2, ascii "NX"⟩,
        newArg ⟨3, ascii "CH"⟩] (started (fun _ => 0) none) ≠ .error .missingArgument ∧
      commandDispatcher [newArg ⟨0, ascii "ZADD"⟩, newArg ⟨1, ascii "k"⟩, newArg ⟨2, ascii "NX"⟩,
        newArg ⟨3, ascii "CH"⟩] (started (fun _ => 0) none) ≠ .error .argsOverflow :=
  commandDispatcher_withinArgs (ready_started _ _) (List.cons_ne_nil _ _)

end Exoredis
