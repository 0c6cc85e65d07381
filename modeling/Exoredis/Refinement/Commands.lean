import Exoredis.Keyspace.Bits
import Exoredis.Refinement.Tokens

/-!
# The commands on datasets

A server represents a dataset if what is stored under every key shows the datum there
(`Represents`). Every command answers as on the dataset (`Answers`): where the dataset gives it
a meaning it ends, with the same bytes as its reply, and leaves a server that represents what
the dataset has become.
-/

namespace Exoredis

open Effect PackedBits

/-- What a client sees of a node. -/
inductive Shows : ListNode ExoVal → Datum → Prop
  | string {node : ListNode ExoVal} {str : ExoString} (h : node.value = .bulkString str)
      (hexpiry : node.expiry < 2 ^ 64) : Shows node (.string str.buf node.expiry)
  | bitmap {node : ListNode ExoVal} {bm_node : BitmapNode} (h : node.value = .bitmap bm_node)
      (hwords : bm_node.mem.length ≤ 2 ^ 59) : Shows node (.bitmap (bitAt bm_node.mem))
  | sortedSet {node : ListNode ExoVal} {list : SkipList} {scores : Scores}
      (h : node.value = .sortedSet list) (hranks : Ranks list scores) (hsize : scores.size ≠ 0) :
      Shows node (.sortedSet scores)

structure Represents (s : Server) (m : Dataset) : Prop where
  sane : Sane s
  writable : s.writable = true
  shows : ∀ k, Option.Rel Shows (s.HASH_TABLE.lookup k) (m k)

/-- The clock and the dump are as before. -/
structure Still (s t : Server) : Prop where
  now : t.now = s.now
  dump : t.dump = s.dump

theorem Still.refl (s : Server) : Still s s := ⟨rfl, rfl⟩

theorem Still.trans {s t u : Server} (h : Still s t) (h' : Still t u) : Still s u :=
  ⟨h'.now.trans h.now, h'.dump.trans h.dump⟩

theorem Alike.still {s t : Server} (h : Alike s t) : Still s t := ⟨h.now, h.dump⟩

/-- Where the dataset gives the command a meaning, it replies and leaves the same. -/
def Answers (x : Exo (Reply × ArgList)) (s : Server) (out : Dataset.Outcome) : Prop :=
  ∀ r m, out = .ok (r, m) → ∃ reply args t, x s = .ok ((reply, args), t) ∧
    reply.wire = r.wire ∧ Represents t m ∧ Still s t

/-- A step on the way to the reply. -/
theorem answers_bind {α : Type} {x : Exo α} {k : α → Exo (Reply × ArgList)} {s t : Server} {a : α}
    {out : Dataset.Outcome} (hrun : x s = .ok (a, t)) (hstill : Still s t)
    (h : Answers (k a) t out) : Answers (x >>= k) s out := by
  intro r m hout
  obtain ⟨reply, args, u, hk, hwire, hu, hstill'⟩ := h r m hout
  exact ⟨reply, args, u, (bind_run_ok hrun).trans hk, hwire, hu, hstill.trans hstill'⟩

theorem Shows.expired_iff {node : ListNode ExoVal} {d : Datum} (h : Shows node d) (now : ℕ) :
    node.Expired now ↔ d.expired now = true := by
  cases h with
  | string hvalue => simp [ListNode.Expired, hvalue, Datum.expired, ExoVal.ds_type, IsExoVal.toExoVal]
  | bitmap hvalue =>
      simp [ListNode.Expired, hvalue, Datum.expired, ExoVal.ds_type, IsExoVal.toExoVal, BITMAP, BULKSTRING]
  | sortedSet hvalue =>
      simp [ListNode.Expired, hvalue, Datum.expired, ExoVal.ds_type, IsExoVal.toExoVal, SORTED_SET,
        BULKSTRING]

theorem WellFormed.sortedByScore {list : SkipList} {T : Towers} (h : WellFormed list T) :
    T.SortedByScore := (h.ranked.sorted 0).imp score_le_of_rank_lt

theorem wire_respArray {args args' : ArgList}
    (h : args.map (fun node => node.key.buf) = args'.map fun node => node.key.buf) :
    (Reply.respArray args).wire = (Reply.respArray args').wire := by
  have hbulk : ∀ list : ArgList, list.flatMap (fun node => writeBulk node.key.buf) =
      (list.map fun node => node.key.buf).flatMap writeBulk := fun list => (List.flatMap_map _ _ _).symm
  have hlength : args.length = args'.length := by simpa using congrArg List.length h
  rw [Reply.wire, Reply.wire, writeRespArray, writeRespArray, hbulk, hbulk, h, hlength]

theorem indexSlice_map {α β : Type} (f : α → β) (l : List α) (first last : ℤ) :
    indexSlice (l.map f) first last = (indexSlice l first last).map f := by
  rw [indexSlice, indexSlice, List.map_drop, List.map_take]

theorem parseIndex_fits {str : List UInt8} {z : ℤ} (h : parseIndex str = some z) :
    FitsLongLong z := by
  rw [parseIndex] at h
  dsimp only at h
  split at h
  · cases h
  · cases h
    exact fits_wrap64 _

theorem parseRange_fits {args : ArgList} {left right : ℤ} {withscore : Bool}
    (h : parseRange args = .ok (left, right, withscore)) :
    FitsLongLong left ∧ FitsLongLong right := by
  match args with
  | [] | [_] => cases h
  | l :: r :: rest =>
      rw [parseRange] at h
      cases hl : parseIndex l.key.buf with
      | none => simp [hl] at h
      | some x =>
          cases hr : parseIndex r.key.buf with
          | none => simp [hl, hr] at h
          | some y =>
              rw [hl, hr] at h
              have hxy : x = left ∧ y = right := by
                cases rest with
                | nil => simp_all
                | cons node rest =>
                    simp only at h
                    split at h <;> simp_all
              exact ⟨hxy.1 ▸ parseIndex_fits hl, hxy.2 ▸ parseIndex_fits hr⟩

theorem HashTable.expiryAt_lt (exp_ms now : ℕ) : HashTable.expiryAt exp_ms now < 2 ^ 64 := by
  rw [HashTable.expiryAt]
  split
  · exact Nat.mod_lt _ (by decide)
  · decide

theorem freeable_bitmap (bm_node : BitmapNode) : Freeable (.bitmap bm_node) :=
  fun s => ⟨s, rfl⟩

theorem freeable_bulkString (str : ExoString) : Freeable (.bulkString str) :=
  fun _ => ⟨_, rfl⟩

section

variable {s t : Server} {m : Dataset} (h : Represents s m)

include h

/-- A reply that changes nothing. -/
theorem answers_pure (reply : Reply) (args : ArgList) :
    Answers (pure (reply, args)) s (.ok (reply, m)) := by
  intro r m' hout
  cases hout
  exact ⟨reply, args, s, rfl, rfl, h, .refl s⟩

/-- A client finds what the dataset has. -/
theorem Represents.find (k : List UInt8) : Option.Rel Shows (liveNode s k) (m.find s.now k) := by
  have hshows := h.shows k
  rw [liveNode, Dataset.find]
  generalize s.HASH_TABLE.lookup k = found at *
  generalize m k = d at *
  cases hshows with
  | none => exact .none
  | @some node d hnode =>
      have hiff := hnode.expired_iff s.now
      by_cases hexp : node.Expired s.now
      · rw [Option.filter_some_neg (by simpa using hexp),
          Option.filter_some_neg (by simpa using hiff.1 hexp)]
        exact .none
      · rw [Option.filter_some_pos (by simpa using hexp),
          Option.filter_some_pos (by simpa [hexp] using hiff)]
        exact .some hnode

theorem Represents.isSome_find (k : List UInt8) :
    (m.find s.now k).isSome = (liveNode s k).isSome := by
  have hfind := h.find k
  generalize m.find s.now k = d at *
  generalize liveNode s k = found at *
  cases hfind <;> rfl

theorem Represents.leaves {key : List UInt8} {found : Option (ListNode ExoVal)} {d : Option Datum}
    (hleaves : Leaves key found s t) (hd : Option.Rel Shows found d) :
    Represents t (Function.update m key d) where
  sane := hleaves.sane
  writable := hleaves.writable.trans h.writable
  shows k := by
    rw [hleaves.lookup]
    by_cases hk : k = key
    · rw [if_pos hk, hk, Function.update_self]
      exact hd
    · rw [if_neg hk, Function.update_of_ne hk]
      exact h.shows k

/-- The work on a value is not seen. -/
theorem Represents.aside (haside : Aside s t) : Represents t m where
  sane := haside.sane h.sane
  writable := haside.writable.trans h.writable
  shows k := by
    rw [haside.keyspace]
    exact h.shows k

/-- A command that looks its key up goes on with what the dataset has there. -/
theorem answers_lookUp {key : ExoString} {f : Option Datum → Dataset → Dataset.Outcome}
    {k : Option ExoVal → Exo (Reply × ArgList)}
    (hk : ∀ found d t, Option.Rel Shows found d → key.buf ≠ [] → Writes key.buf found s t →
      Represents t (m.collect s.now key.buf) →
      Answers (k (found.map ListNode.value)) t (f d (m.collect s.now key.buf))) :
    Answers (do
      let val ← onKeyspace fun ht => ht.get key
      k val) s (m.lookUp s.now key.buf f) := by
  intro r m' hout
  rw [Dataset.lookUp] at hout
  split at hout
  · cases hout
  · next hkey =>
      obtain ⟨t, hget, hwrites⟩ := h.sane.get hkey
      rw [liveAt_eq] at hget
      exact answers_bind hget hwrites.still (hk _ _ t (h.find key.buf) hkey hwrites
        (h.leaves hwrites.toLeaves (h.find key.buf))) r m' hout

/-! ## Strings -/

theorem answers_get (cmd key : ArgListNode) (rest : ArgList) :
    Answers (getCommand (cmd :: key :: rest)) s (m.get s.now key.key.buf) := by
  refine answers_lookUp h fun found d t hfound _ _ ht => ?_
  cases hfound with
  | none => exact answers_pure ht _ _
  | some hnode =>
      cases hnode with
      | string hvalue | bitmap hvalue | sortedSet hvalue =>
          rw [Option.map_some, hvalue]
          exact answers_pure ht _ _

/-- A SET with its switches. -/
theorem answers_setWith (args : ArgList) (key val : ExoString) (sw : SetSwitches) :
    Answers (do
      let ret ← onKeyspace fun ht => ht.setWithExpiry key (.bulkString val) sw.exp_ms sw.nx sw.xx
      return (ret, args)) s (m.setWith s.now key.buf val.buf sw) := by
  intro r m' hout
  have hstored := h.shows key.buf
  rw [Dataset.setWith] at hout
  split at hout
  · cases hout
  · next hkey =>
      split at hout
      · cases hout
      · next hexpired =>
          have hlive : ∀ node ∈ s.HASH_TABLE.lookup key.buf, ¬ node.Expired s.now := by
            intro node hnode
            rw [hnode] at hstored
            generalize m key.buf = d at *
            cases hstored with
            | some hshows =>
                rw [hshows.expired_iff]
                simpa using hexpired
          have hsome := h.isSome_find key.buf
          have hnone : (m.find s.now key.buf).isNone = (liveNode s key.buf).isNone := by
            rw [← Option.not_isSome, ← Option.not_isSome, hsome]
          rw [hsome, hnone] at hout
          rcases h.sane.setWithExpiry hkey (freeable_bulkString val) hlive
            with ⟨hback, hrun⟩ | ⟨hback, node, t, hvalue, hexpiry, hrun, hwrites⟩
          · rw [if_pos hback] at hout
            cases hout
            exact ⟨_, args, s, bind_run_ok hrun, rfl, h, .refl s⟩
          · rw [if_neg (by simp [hback])] at hout
            cases hout
            refine ⟨_, args, t, bind_run_ok hrun, rfl, h.leaves hwrites.toLeaves ?_, hwrites.still⟩
            rw [← hexpiry]
            exact .some (.string hvalue (hexpiry ▸ HashTable.expiryAt_lt _ _))

theorem answers_set (head : ArgListNode) (id : ℕ) (args : List (List UInt8)) :
    Answers (setCommand (head :: argsFrom id args)) s (m.set s.now args) := by
  match args with
  | [] => exact answers_pure h _ _
  | [key] => exact answers_pure h _ _
  | key :: val :: options =>
      change Answers (setCommand (head :: newArg ⟨id, key⟩ :: newArg ⟨id + 1, val⟩ ::
        argsFrom (id + 1 + 1) options)) s _
      rw [setCommand, Dataset.set]
      simp only [List.length_cons, length_argsFrom]
      by_cases hmany : options.length > 6
      · rw [if_pos hmany, if_pos (by omega)]
        exact answers_pure h _ _
      rw [if_neg hmany, if_neg (by omega), if_neg (by omega)]
      simp only [← parseSetSwitches_argsFrom (id + 1 + 1) options]
      rcases parseSetSwitches (argsFrom (id + 1 + 1) options) noSwitches with ⟨code | sw, rest⟩
      · exact answers_pure h _ _
      · simp only
        split
        · exact answers_pure h _ _
        · split
          · exact answers_pure h _ _
          · exact answers_setWith h _ ⟨id, key⟩ ⟨id + 1, val⟩ sw

/-! ## Keys -/

/-- DEL goes on with what the deletions before have left. -/
theorem Represents.delKeys_run {keys : ArgList} {count : ℕ} {res : ℕ × Dataset}
    (hout : m.delAll s.now (keys.map fun node => node.key.buf) count = .ok res) :
    ∃ t, delKeys keys count s = .ok (res.1, t) ∧ Represents t res.2 ∧ Still s t := by
  induction keys generalizing s m count with
  | nil =>
      cases hout
      exact ⟨s, rfl, h, .refl s⟩
  | cons node keys ih =>
      rw [List.map_cons, Dataset.delAll] at hout
      split at hout
      · cases hout
      · next hkey =>
          obtain ⟨t, hdel, hwrites⟩ := h.sane.del hkey
          have ht : Represents t (m.erase node.key.buf) := h.leaves hwrites.toLeaves .none
          rw [h.isSome_find, ← hwrites.now] at hout
          obtain ⟨t', hrun, ht', hstill⟩ := ih ht hout
          exact ⟨t', (bind_run_ok hdel).trans hrun, ht', hwrites.still.trans hstill⟩

theorem answers_del (head : ArgListNode) (id : ℕ) (keys : List (List UInt8)) :
    Answers (delCommand (head :: argsFrom id keys)) s (m.del s.now keys) := by
  rw [Dataset.del, delCommand]
  cases keys with
  | nil => exact answers_pure h _ _
  | cons key keys =>
      intro r m' hout
      rw [if_neg (List.cons_ne_nil _ _)] at hout
      rw [← bytes_argsFrom id (key :: keys)] at hout
      cases hres : m.delAll s.now ((argsFrom id (key :: keys)).map fun node => node.key.buf) 0 with
      | error e =>
          rw [hres] at hout
          cases hout
      | ok res =>
          rw [hres] at hout
          cases hout
          obtain ⟨t, hrun, ht, hstill⟩ := h.delKeys_run hres
          refine ⟨_, head :: argsFrom id (key :: keys), t, ?_, rfl, ht, hstill⟩
          rw [if_neg (by simp)]
          exact bind_run_ok hrun

/-- Every key is missing. -/
theorem answers_flush (args : ArgList) :
    Answers (flushCommand args) s (.ok (_OK, Dataset.empty)) := by
  intro r m' hout
  cases hout
  obtain ⟨freed, hfree⟩ := freeHashTable_run h.sane.keyed.unfreed s
  refine ⟨_, args, { s with
    HASH_TABLE := HashTable.newHashTable
    freed := freed
    GARBAGE_LIST := s.GARBAGE_LIST ++
      (List.range INITIAL_SIZE).flatMap fun i => bucketValues (s.HASH_TABLE.buckets i) }, ?_, rfl,
    ?_, rfl, rfl⟩
  · rw [flushCommand, bind_run_ok (get_run s), bind_run_ok hfree]
    rfl
  · have hlookup := fun k => @HashTable.lookup_newHashTable ExoVal k
    refine ⟨⟨⟨h.sane.ready.keyed, h.sane.ready.lookup⟩, HashTable.keyed_newHashTable,
      fun k node hnode => ?_, fun val hval => ?_⟩, h.writable, fun k => ?_⟩
    · rw [hlookup] at hnode
      cases hnode
    · rcases List.mem_append.1 hval with hval | hval
      · exact h.sane.garbage val hval
      · obtain ⟨i, -, hi⟩ := List.mem_flatMap.1 hval
        obtain ⟨node, hnode, rfl⟩ := List.mem_map.1 hi
        exact h.sane.stored _ node (h.sane.keyed.mem_iff_lookup.1 (List.mem_reverse.1 hnode)).2
    · rw [hlookup]
      exact .none

/-! ## Bitmaps -/

theorem answers_getbit (cmd key offset : ArgListNode) (rest : ArgList) :
    Answers (getbitCommand (cmd :: key :: offset :: rest)) s
      (m.getbit s.now key.key.buf offset.key.buf) := by
  rw [Dataset.getbit, Dataset.position, getbitCommand]
  by_cases hpos : stringToLongLong offset.key.buf = -1 ∨ stringToLongLong offset.key.buf > OFFSET_MAX
  · rw [if_pos hpos, if_pos hpos]
    exact answers_pure h _ _
  · rw [if_neg hpos, if_neg hpos]
    refine answers_lookUp h fun found d t hfound _ _ ht => ?_
    cases hfound with
    | none => exact answers_pure ht _ _
    | some hnode =>
        cases hnode with
        | bitmap hvalue =>
            rw [Option.map_some, hvalue]
            simp only
            exact answers_bind (getBit_toUnsigned _ _ t) (.refl t) (answers_pure ht _ _)
        | string hvalue | sortedSet hvalue =>
            rw [Option.map_some, hvalue]
            exact answers_pure ht _ _

theorem answers_setbit (cmd key offset value : ArgListNode) (rest : ArgList) :
    Answers (setbitCommand (cmd :: key :: offset :: value :: rest)) s
      (m.setbit s.now key.key.buf offset.key.buf value.key.buf) := by
  rw [Dataset.setbit, Dataset.position, setbitCommand]
  by_cases hpos : stringToLongLong offset.key.buf = -1 ∨ stringToLongLong offset.key.buf > OFFSET_MAX
  · rw [if_pos hpos, if_pos hpos]
    exact answers_pure h _ _
  rw [if_neg hpos, if_neg hpos, Dataset.bitOf,
    show stringToBit ⟨0, value.key.buf⟩ = stringToBit value.key from rfl]
  dsimp only
  by_cases hbit : stringToBit value.key = -1
  · rw [if_pos hbit, if_pos hbit]
    exact answers_pure h _ _
  rw [if_neg hbit, if_neg hbit]
  refine answers_lookUp h fun found d t hfound hkey hwrites ht => ?_
  have hstored := hwrites.lookup_self
  cases hfound with
  | none =>
      obtain ⟨bm_node, hinit, hbits⟩ := initBitmapNode_toUnsigned
        (stringToLongLong offset.key.buf) (decide (stringToBit value.key ≠ 0)) t
      obtain ⟨node, u, hvalue, hset, hwrites'⟩ := hwrites.sane.set hkey (freeable_bitmap bm_node)
      have hu := ht.leaves hwrites'.toLeaves (.some (.bitmap hvalue (length_initBitmapNode hinit)))
      rw [hbits] at hu
      simp only [Option.map_none]
      exact answers_bind hinit (.refl t)
        (answers_bind hset hwrites'.still (answers_pure hu _ _))
  | some hnode =>
      cases hnode with
      | @bitmap bm_node hvalue hwords =>
          obtain ⟨bm_node', hrun, hbits⟩ := setBit_toUnsigned bm_node
            (stringToLongLong offset.key.buf) (decide (stringToBit value.key ≠ 0)) t
          obtain ⟨u, hupdate, hwrites'⟩ :=
            hwrites.sane.update hkey (freeable_bitmap bm_node') hstored
          have hu := ht.leaves hwrites'.toLeaves
            (.some (.bitmap rfl (length_setBit hrun hwords)))
          rw [hbits] at hu
          rw [Option.map_some, hvalue]
          simp only
          exact answers_bind hrun (.refl t)
            (answers_bind hupdate hwrites'.still (answers_pure hu _ _))
      | string hvalue | sortedSet hvalue =>
          rw [Option.map_some, hvalue]
          exact answers_pure ht _ _

/-! ## Sorted sets -/

/-- What is found under a key is the board of its ranking. -/
theorem Represents.onBoard {key : List UInt8} {d : Option Datum}
    (hd : m.find s.now key = d) {scores : Scores}
    (hscores : d = some (.sortedSet scores) ∨ d = none ∧ scores = Ranking.empty) :
    OnBoard Ranking.size (fun list r _ => Ranks list r) s key scores := by
  have hfind := h.find key
  rw [OnBoard, liveAt_eq]
  rw [hd] at hfind
  generalize liveNode s key = found at *
  rcases hscores with rfl | ⟨rfl, rfl⟩
  · cases hfind with
    | some hnode =>
        cases hnode with
        | sortedSet hvalue hranks => exact .inr ⟨_, by rw [Option.map_some, hvalue], hranks⟩
  · cases hfind with
    | none =>
        exact .inl ⟨rfl, rfl, fun id => ⟨⟨emptyTowers, wellFormed_emptyList id, rfl⟩, by
          simp [Ranking.empty]⟩⟩

/-- A ZADD that comes upon no tie replies as on the ranking, and leaves what is left there. -/
theorem Represents.zaddOn_run (cmd : ArgListNode) (id : ℕ) {key : ExoString} (hkey : key.buf ≠ [])
    {rest : List (List UInt8)} (hlength : 2 ≤ rest.length) {scores : Scores}
    (hscores : m.find s.now key.buf = some (.sortedSet scores) ∨
      m.find s.now key.buf = none ∧ scores = Ranking.empty)
    (hmembers : ¬ ∃ p ∈ zaddWorked (argsFrom 0 rest), p.2.buf = [])
    (hcareful : Careful scoreboard Untied (argsFrom 0 rest) scores) :
    ∃ args t, zaddCommand (cmd :: newArg key :: argsFrom id rest) s =
        .ok (((boardZadd scoreboard (argsFrom 0 rest) scores).1, args), t) ∧
      Represents t
        (if (boardZadd scoreboard (argsFrom 0 rest) scores).2.size = 0 then m.erase key.buf
          else m.put key.buf (.sortedSet (boardZadd scoreboard (argsFrom 0 rest) scores).2)) ∧
      Still s t := by
  have hsame := sameArgs_argsFrom 0 id rest
  rw [members_congr hsame] at hmembers
  rw [careful_congr hsame] at hcareful
  obtain ⟨args, found, t, hrun, hleaves, -, hfound⟩ := keeps_ranks.zaddCommand_run h.sane
    cmd (newArg key) (by simpa using hlength) hkey
    (h.onBoard rfl hscores) (by simpa using hmembers) hcareful
  rw [← boardZadd_congr hsame] at hrun hfound
  refine ⟨args, t, hrun, ?_, hleaves.still⟩
  rcases hfound with ⟨rfl, hzero⟩ | ⟨node, list, rfl, hvalue, hranks, hpos⟩
  · rw [if_pos hzero]
    exact h.leaves hleaves .none
  · rw [if_neg hpos]
    exact h.leaves hleaves (.some (.sortedSet hvalue hranks hpos))

/-- ZADD on a ranking. -/
theorem answers_zaddOn (cmd : ArgListNode) (id : ℕ) (key : ExoString) (hkey : key.buf ≠ [])
    {rest : List (List UInt8)} (hlength : 2 ≤ rest.length) {scores : Scores}
    (hscores : m.find s.now key.buf = some (.sortedSet scores) ∨
      m.find s.now key.buf = none ∧ scores = Ranking.empty) :
    Answers (zaddCommand (cmd :: newArg key :: argsFrom id rest)) s
      ((m.collect s.now key.buf).zaddOn key.buf scores (argsFrom 0 rest)) := by
  intro r m' hout
  rw [Dataset.zaddOn] at hout
  split at hout
  · cases hout
  · next hmembers =>
      split at hout
      · next hcareful =>
          obtain ⟨args, t, hrun, ht, hstill⟩ :=
            h.zaddOn_run cmd id hkey hlength hscores hmembers hcareful
          cases hout
          refine ⟨_, args, t, hrun, rfl, ?_, hstill⟩
          rwa [Dataset.erase, Dataset.put, Dataset.collect, Function.update_idem,
            Function.update_idem]
      · cases hout

/-- ZADD on a value of another type. -/
theorem answers_zaddOther (cmd : ArgListNode) (key : ExoString) (hkey : key.buf ≠ [])
    {rest : ArgList} (hlength : 2 ≤ rest.length) {d : Datum}
    (hfound : m.find s.now key.buf = some d) (hother : ∀ scores, d ≠ .sortedSet scores) :
    Answers (zaddCommand (cmd :: newArg key :: rest)) s (m.collect s.now key.buf).wrongType := by
  obtain ⟨t, hget, hwrites⟩ := h.sane.get hkey
  have ht : Represents t (m.collect s.now key.buf) := h.leaves hwrites.toLeaves (h.find key.buf)
  have hfind := h.find key.buf
  rw [hfound] at hfind
  have hopen : openSortedSet key s = .ok (none, t) := by
    rw [openSortedSet, bind_run_ok hget, liveAt_eq]
    generalize liveNode s key.buf = found at *
    cases hfind with
    | some hnode =>
        cases hnode with
        | string hvalue | bitmap hvalue =>
            rw [Option.map_some, hvalue]
            rfl
        | sortedSet => exact absurd rfl (hother _)
  rw [zaddCommand_eq cmd (newArg key) hlength]
  exact answers_bind hopen hwrites.still (answers_pure ht _ _)

theorem answers_zadd (cmd : ArgListNode) (id : ℕ) (args : List (List UInt8)) :
    Answers (zaddCommand (cmd :: argsFrom id args)) s (m.zadd s.now args) := by
  cases args with
  | nil =>
      rw [zaddCommand_short (by simp [argsFrom])]
      exact answers_pure h _ _
  | cons key rest =>
      rw [Dataset.zadd]
      by_cases hshort : rest.length < 2
      · rw [if_pos hshort, zaddCommand_short (by simp; omega)]
        exact answers_pure h _ _
      · rw [if_neg hshort]
        have hlength : 2 ≤ rest.length := not_lt.1 hshort
        intro r m' hout
        rw [Dataset.lookUp] at hout
        split at hout
        · cases hout
        · next hkey =>
            cases hfind : m.find s.now key with
            | none =>
                rw [hfind] at hout
                exact answers_zaddOn h cmd (id + 1) ⟨id, key⟩ hkey hlength
                  (.inr ⟨hfind, rfl⟩) r m' hout
            | some d =>
                rw [hfind] at hout
                cases d with
                | sortedSet scores =>
                    exact answers_zaddOn h cmd (id + 1) ⟨id, key⟩ hkey hlength
                      (.inl hfind) r m' hout
                | string | bitmap =>
                    exact answers_zaddOther h cmd ⟨id, key⟩ hkey (by simpa using hlength)
                      hfind (by simp) r m' hout

/-- A command that reads the ranking of a key. -/
theorem answers_readScores {key : ExoString} {args : ArgList} {f : Scores → Reply} {missing : Reply}
    {k : Option ExoVal → Exo (Reply × ArgList)}
    (hnone : k none = pure (missing, args))
    (hwrong : ∀ val, (∀ list, val ≠ .sortedSet list) →
      k (some val) = pure (_Error .WRONG_TYPE_OF_COMMAND_ON_TARGET_OBJECT, args))
    (hsome : ∀ (list : SkipList) (scores : Scores) (t : Server) (d : Dataset), Ranks list scores →
      Represents t d → Answers (k (some (.sortedSet list))) t (.ok (f scores, d))) :
    Answers (do
      let val ← onKeyspace fun ht => ht.get key
      k val) s (m.readScores s.now key.buf f missing) := by
  refine answers_lookUp h fun found d t hfound _ _ ht => ?_
  cases hfound with
  | none =>
      rw [Option.map_none, hnone]
      exact answers_pure ht _ _
  | some hnode =>
      cases hnode with
      | sortedSet hvalue hranks =>
          rw [Option.map_some, hvalue]
          exact hsome _ _ t _ hranks ht
      | string hvalue | bitmap hvalue =>
          rw [Option.map_some, hvalue, hwrong _ (by simp)]
          exact answers_pure ht _ _

theorem answers_zcard (cmd key : ArgListNode) (rest : ArgList) :
    Answers (zcardCommand (cmd :: key :: rest)) s (m.zcard s.now key.key.buf) := by
  rw [Dataset.zcard]
  refine answers_readScores h rfl (fun val hval => ?_) fun list scores t d hranks ht => ?_
  · cases val with
    | sortedSet list => exact absurd rfl (hval list)
    | _ => rfl
  · obtain ⟨⟨T, hT, hpairs⟩, -⟩ := hranks
    rw [Ranking.size, ← hpairs, WellFormed.length_pairs, ← hT.rep.size]
    exact answers_pure ht _ _

theorem answers_zcount (cmd key left right : ArgListNode) :
    Answers (zcountCommand [cmd, key, left, right]) s
      (m.zcount s.now key.key.buf left.key.buf right.key.buf) := by
  rw [Dataset.zcount]
  refine answers_readScores h rfl (fun val hval => ?_) fun list scores t d hranks ht => ?_
  · cases val with
    | sortedSet list => exact absurd rfl (hval list)
    | _ => rfl
  · obtain ⟨⟨T, hT, hpairs⟩, -⟩ := hranks
    simp only [parseMinMax]
    cases parseBound left.key.buf with
    | none => exact answers_pure ht _ _
    | some low =>
        cases parseBound right.key.buf with
        | none => exact answers_pure ht _ _
        | some high =>
            have hcount : Dataset.countBetween scores low high = (T.levels 0).countP fun t =>
                decide (low ≤ (T.label t).2 ∧ (T.label t).2 ≤ high) := by
              rw [Dataset.countBetween, ← hpairs, Towers.pairs, List.countP_map]
              rfl
            simp only [Option.map_some]
            refine answers_bind (hT.shape.rankByScore_run hT.sortedByScore low false t) (.refl t) ?_
            refine answers_bind (hT.shape.rankByScore_run hT.sortedByScore high true t) (.refl t) ?_
            rw [hcount, countP_between]
            exact answers_pure ht _ _

theorem answers_zrange (cmd : ArgListNode) (id : ℕ) (args : List (List UInt8)) :
    Answers (zrangeCommand (cmd :: argsFrom id args)) s (m.zrange s.now args) := by
  cases args with
  | nil =>
      rw [zrangeCommand.eq_def, if_pos (by simp [argsFrom])]
      exact answers_pure h _ _
  | cons key rest =>
      change Answers (zrangeCommand (cmd :: newArg ⟨id, key⟩ :: argsFrom (id + 1) rest)) s _
      rw [Dataset.zrange, zrangeCommand, List.length_cons, List.length_cons, length_argsFrom,
        Nat.add_sub_cancel, parseRange_congr (sameArgs_argsFrom (id + 1) 0 rest)]
      by_cases hnumber : rest.length ≠ 2 ∧ rest.length ≠ 3
      · rw [if_pos hnumber, if_pos (by omega)]
        exact answers_pure h _ _
      rw [if_neg hnumber, if_neg (by omega)]
      cases hrange : parseRange (argsFrom 0 rest) with
      | error code => exact answers_pure h _ _
      | ok range =>
          obtain ⟨left, right, withscore⟩ := range
          obtain ⟨hleft, hright⟩ := parseRange_fits hrange
          simp only
          refine answers_readScores h rfl (fun val hval => ?_) fun list scores t d hranks ht => ?_
          · cases val with
            | sortedSet list => exact absurd rfl (hval list)
            | _ => rfl
          · obtain ⟨⟨T, hT, hpairs⟩, -⟩ := hranks
            simp only
            generalize hclamp : clampRange list.size left right = range
            obtain ⟨args, id', hrun, hargs⟩ := hT.shape.slice_run withscore hleft hright hclamp t
            have hslice : args.map (fun node => node.key.buf) =
                Dataset.slice scores left right withscore := by
              rw [hargs, Dataset.slice, Ranking.size, ← hpairs, WellFormed.length_pairs, ← hT.rep.size,
                Towers.pairs, indexSlice_map, List.flatMap_map]
              rfl
            have ht' : Represents { t with nextId := id' } d :=
              ht.aside ⟨⟨rfl, rfl, rfl, rfl, fun hs => hs⟩, rfl⟩
            intro r m' hout
            cases hout
            refine ⟨.respArray args, cmd :: newArg ⟨id, key⟩ :: argsFrom (id + 1) rest, _, ?_,
              wire_respArray (by rw [bytes_argsFrom, hslice]), ht', rfl, rfl⟩
            by_cases hpos : range.2 > 0
            · rw [if_pos hpos] at hrun ⊢
              rw [← bind_assoc, bind_run_ok hrun]
              rfl
            · rw [if_neg hpos] at hrun ⊢
              rw [← bind_assoc, bind_run_ok hrun]
              rfl

end

end Exoredis
