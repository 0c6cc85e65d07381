import Exoredis.Refinement.Restart
import Exoredis.Server.Lifecycle

/-!
# The dataset from one process to the next

A store is a live dataset and the one that was saved last. A request works on the live one, SAVE
and SIGINT save it, and a new process, or LOADDB while nothing is live, brings the saved one
back. Whatever of these follow each other, the processes write what the store says, and the last
one represents its live dataset (`lifecycle_refines`).
-/

namespace Exoredis

open Effect

/-! ## Stores -/

structure Store where
  live : Dataset
  saved : Option Dataset

namespace Store

def empty : Store := ⟨Dataset.empty, none⟩

open Classical in
/-- What is live once the dump has been loaded into an empty keyspace. -/
noncomputable def loaded (saved : Option Dataset) (now : ℕ) : Except Undefined Store :=
  match saved with
  | none => .ok ⟨Dataset.empty, none⟩
  | some m => if m.Loadable then .ok ⟨m.restored now, some m⟩ else .error .load

open Classical in
/-- One process after the other, as a client sees it. -/
noncomputable def machine : Machine Store Event (List UInt8) Undefined
  | st, .request r =>
      if names .loadCommand r.tokens then
        if st.live = Dataset.empty then (loaded st.saved r.now).map fun st => (_OK.wire, st)
        else .error .load
      else
        (Dataset.machine st.live r).map fun p =>
          (p.1, ⟨p.2, if names .saveCommand r.tokens then some st.live else st.saved⟩)
  | st, .interrupt _ now => (loaded (some st.live) now).map fun st => ([], st)
  | st, .kill _ now => (loaded st.saved now).map fun st => ([], st)

end Store

/-- The dump that has been made of a dataset, if there is one. -/
inductive Dumped : Option (List UInt8) → Option Dataset → Prop
  | none : Dumped none none
  | some {s : Server} {m : Dataset} {recs : List Record} (h : Represents s m)
      (hrecs : contents s.HASH_TABLE = some recs) : Dumped (some (encode recs)) (some m)

structure Persists (s : Server) (st : Store) : Prop where
  represents : Represents s st.live
  dump : Dumped s.dump st.saved

/-! ## New processes -/

/-- A load into an empty keyspace. -/
theorem Represents.load_store {s : Server} {saved : Option Dataset} {st : Store}
    (h : Represents s Dataset.empty) (hdump : Dumped s.dump saved)
    (hloaded : Store.loaded saved s.now = .ok st) :
    ∃ t, loadFromDB s = .ok (0, t) ∧ Persists t st := by
  generalize hs : s.dump = dump at hdump
  cases hdump with
  | none =>
      cases hloaded
      refine ⟨s, ?_, h, hs ▸ .none⟩
      rw [loadFromDB, bind_run_ok (get_run s), hs]
      rfl
  | @some s₀ m recs h₀ hrecs =>
      rw [Store.loaded] at hloaded
      split at hloaded
      · next hload =>
          cases hloaded
          obtain ⟨t, hrun, hstill, ht⟩ := h₀.load_run hload hrecs h hs
          refine ⟨t, hrun, ht, ?_⟩
          rw [hstill.dump, hs]
          exact .some h₀ hrecs
      · cases hloaded

theorem dump_started (coins : ℕ → ℕ) (dump : Option (List UInt8)) :
    (started coins dump).dump = dump := by
  obtain ⟨ht, hrun, -⟩ := startUp_run coins dump
  rw [startUp_eq_started, Except.ok.injEq] at hrun
  rw [hrun]
  rfl

theorem Represents.spin_run {s : Server} {saved : Option Dataset} {st : Store}
    (h : Represents s Dataset.empty) (hdump : Dumped s.dump saved)
    (hloaded : Store.loaded saved s.now = .ok st) :
    ∃ t, spinServer s = .ok ((), t) ∧ Persists t st := by
  obtain ⟨t, hload, ht⟩ := h.load_store hdump hloaded
  refine ⟨t, ?_, ht⟩
  rw [spinServer, bind_run_ok hload]
  rfl

/-- A process finds the dataset that was saved. -/
theorem boot_run (coins : ℕ → ℕ) {now : ℕ} {dump : Option (List UInt8)} {saved : Option Dataset}
    {st : Store} (hdump : Dumped dump saved) (hloaded : Store.loaded saved now = .ok st) :
    ∃ t, boot coins now dump = .ok t ∧ Persists t st := by
  have hstart := represents_started coins dump
  have hstarted := dump_started coins dump
  rw [boot, startUp_eq_started]
  generalize started coins dump = s at *
  subst hstarted
  obtain ⟨t, hspin, ht⟩ := (hstart.atTime now).spin_run hdump hloaded
  refine ⟨t, ?_, ht⟩
  change (spinServer { s with now := now } >>= _) = _
  rw [hspin]
  rfl

/-- Every value of a table can be freed. -/
theorem freeable_bucketValues {V : Type} [IsExoVal V] {ht : HashTable V}
    (h : ∀ i, ∀ node ∈ ht.buckets i, Freeable (IsExoVal.toExoVal node.value)) :
    ∀ val ∈ (List.range INITIAL_SIZE).flatMap fun i => bucketValues (ht.buckets i),
      Freeable val := by
  intro val hval
  obtain ⟨i, -, hi⟩ := List.mem_flatMap.1 hval
  obtain ⟨node, hnode, rfl⟩ := List.mem_map.1 hi
  exact h i node (List.mem_reverse.1 hnode)

section

variable {s : Server} {m : Dataset} (h : Represents s m)

include h

/-- LOADDB where nothing is live. -/
theorem Represents.loaddb_run {tokens : List (List UInt8)} {saved : Option Dataset} {st : Store}
    (hm : m = Dataset.empty) (hname : names .loadCommand tokens = true)
    (hdump : Dumped s.dump saved) (hloaded : Store.loaded saved s.now = .ok st) :
    ∃ t, serve tokens s = .ok (_OK.wire, t) ∧ Persists t st := by
  subst hm
  cases tokens with
  | nil => cases hname
  | cons name args =>
      obtain ⟨cmd, hcmd, hload⟩ := (Option.any_eq_true _ _).1 hname
      obtain ⟨hsave, hloaddb, -⟩ := strcmp_of_table cmd (mem_of_commandOf hcmd).1
      have hptr : cmd.f_ptr = .loadCommand := of_decide_eq_true hload
      have hnext : Represents { s with nextId := s.nextId + (args.length + 1) } Dataset.empty :=
        h.aside ⟨⟨rfl, rfl, rfl, rfl, id⟩, rfl⟩
      obtain ⟨t, hrun, ht⟩ := hnext.load_store hdump hloaded
      have hexec : ∀ tokens, executeCommand cmd tokens
          { s with nextId := s.nextId + (args.length + 1) } = .ok ((_OK, tokens), t) := by
        intro tokens
        rw [executeCommand, if_neg (by rw [hsave, hptr]; decide), if_pos (hloaddb.2 hptr),
          bind_run_ok hrun]
        rfl
      obtain ⟨u, hanswer, hu, hstill⟩ := answer_run (hexec _) ht.represents
      refine ⟨u, ?_, hu, ?_⟩
      · rw [serve_eq h.sane.ready args hcmd, hanswer]
      · rw [hstill.dump]
        exact ht.dump

/-- The handler of SIGINT saves the dataset, and comes to its end. -/
theorem Represents.actionBeforeExit_run :
    ∃ recs t, contents s.HASH_TABLE = some recs ∧ actionBeforeExit s = .ok ((), t) ∧
      t.dump = some (encode recs) := by
  obtain ⟨recs, hrecs, hsave, hs⟩ := h.save_run
  have hkeyed := hs.sane.ready.keyed
  obtain ⟨freed, hcommands⟩ := freeHashTable_run hkeyed.unfreed
    { s with dump := some (encode recs) }
  obtain ⟨freed', htable⟩ := freeHashTable_run hs.sane.keyed.unfreed { s with
    dump := some (encode recs)
    freed := freed
    GARBAGE_LIST := s.GARBAGE_LIST ++
      (List.range INITIAL_SIZE).flatMap fun i => bucketValues (s.COMMANDS.buckets i) }
  have hfree : ∀ val ∈ (s.GARBAGE_LIST ++
      (List.range INITIAL_SIZE).flatMap fun i => bucketValues (s.COMMANDS.buckets i)) ++
      (List.range INITIAL_SIZE).flatMap fun i => bucketValues (s.HASH_TABLE.buckets i),
      Freeable val := by
    intro val hval
    rcases List.mem_append.1 hval with hval | hval
    · rcases List.mem_append.1 hval with hval | hval
      · exact h.sane.garbage val hval
      · exact freeable_bucketValues (fun i node _ s => ⟨s, rfl⟩) val hval
    · exact freeable_bucketValues (fun i node hnode => h.sane.stored _ node
        (h.sane.keyed.mem_iff_lookup.1 hnode).2) val hval
  obtain ⟨t, hgarbage⟩ := @freeGarbage_ends { s with
    dump := some (encode recs)
    freed := freed'
    GARBAGE_LIST := (s.GARBAGE_LIST ++
      (List.range INITIAL_SIZE).flatMap fun i => bucketValues (s.COMMANDS.buckets i)) ++
      (List.range INITIAL_SIZE).flatMap fun i => bucketValues (s.HASH_TABLE.buckets i) } hfree
  have hdump : Insensitive fun u => u.dump = some (encode recs) := fun _ _ _ _ _ hu => hu
  refine ⟨recs, t, hrecs, ?_, (framed_preserves hdump).freeGarbage _ _ t rfl hgarbage⟩
  rw [actionBeforeExit, bind_run_ok hsave, bind_run_ok (get_run _), bind_run_ok hcommands,
    bind_run_ok (get_run _), bind_run_ok htable]
  exact hgarbage

end

/-! ## Runs -/

theorem lifecycle_follows {s : Server} {st st' : Store} {e : Event} {output : List UInt8}
    (h : Persists s st) (hout : Store.machine st e = .ok (output, st')) :
    ∃ t, lifecycle s e = .ok (output, t) ∧ Persists t st' := by
  obtain ⟨recs, hrecs, -, -⟩ := h.represents.save_run
  have hlive : Dumped (some (encode recs)) (some st.live) := .some h.represents hrecs
  cases e with
  | request r =>
      rw [Store.machine] at hout
      split at hout
      · next hname =>
          split at hout
          · next hempty =>
              obtain ⟨st'', hloaded, hst⟩ := Machine.map_eq_ok_iff.1 hout
              cases hst
              exact (h.represents.atTime r.now).loaddb_run hempty hname h.dump hloaded
          · cases hout
      · obtain ⟨⟨output', m'⟩, hstep, hst⟩ := Machine.map_eq_ok_iff.1 hout
        cases hst
        obtain ⟨t, hrun, ht, hdump⟩ := server_follows h.represents hstep
        refine ⟨t, hrun, ht, ?_⟩
        rw [hdump, dumpAfter]
        split
        · rw [hrecs]
          exact hlive
        · exact h.dump
  | interrupt coins now =>
      obtain ⟨st'', hloaded, hst⟩ := Machine.map_eq_ok_iff.1 hout
      cases hst
      obtain ⟨recs', t, hrecs', hexit, hdump⟩ := h.represents.actionBeforeExit_run
      obtain rfl : recs' = recs := Option.some.inj (hrecs'.symm.trans hrecs)
      obtain ⟨u, hboot, hu⟩ := boot_run coins hlive hloaded
      rw [← hdump] at hboot
      exact ⟨u, lifecycle_interrupt hexit hboot, hu⟩
  | kill coins now =>
      obtain ⟨st'', hloaded, hst⟩ := Machine.map_eq_ok_iff.1 hout
      cases hst
      obtain ⟨u, hboot, hu⟩ := boot_run coins h.dump hloaded
      exact ⟨u, lifecycle_kill hboot, hu⟩

end Exoredis
