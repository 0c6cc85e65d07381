import Exoredis.Keyspace.Dispatch
import Exoredis.Library.ExpiringMap

/-!
# Strings

What SET, GET and DEL are for: a map from keys to values in which an entry counts
until it expires. The replies of the server are those of that map as long as no
SET that reaches the keyspace comes upon an expired node of its key that was not
collected (`strings_refine`). Such a SET frees the node and leaves it in its bucket.
-/

namespace Exoredis

open ExpiringMap

/-! ## Requests -/

/-- The arguments behind the value of a SET that the command accepts, with the
switches they stand for. -/
structure SetOptions where
  tokens : List (List UInt8)
  switches : SetSwitches
  count : tokens.length ≤ 6
  parses : switchesOf tokens = .ok switches
  valid : ((switches.ex || switches.px) && decide (switches.exp_ms = 0)) = false

/-- A key that is not empty. -/
abbrev Key := { key : List UInt8 // key ≠ [] }

/-- The requests on strings. -/
inductive StringRequest
  | set (key : Key) (value : List UInt8) (options : SetOptions)
  | get (key : Key)
  | del (key : Key) (keys : List Key)

namespace StringRequest

def tokens : StringRequest → List (List UInt8)
  | set key value options => ascii "SET" :: key.1 :: value :: options.tokens
  | get key => [ascii "GET", key.1]
  | del key keys => ascii "DEL" :: key.1 :: keys.map Subtype.val

end StringRequest

/-- The server on requests, each at a reading of the clock. -/
def stringMachine : Machine Server (ℕ × StringRequest) (List UInt8) Fault :=
  fun s r => step s ⟨r.1, r.2.tokens⟩

/-! ## The map -/

abbrev StringMap := ExpiringMap (List UInt8) (List UInt8)

/-- SET at time `now`: with NX it needs the key to be absent, with XX present. -/
def specSet (m : StringMap) (now : ℕ) (key value : List UInt8) (sw : SetSwitches) :
    Reply × StringMap :=
  if (sw.nx && (m.entryAt now key).isSome) || (sw.xx && (m.entryAt now key).isNone) then
    (_Null, m)
  else (_OK, m.insert key (value, HashTable.expiryAt sw.exp_ms now))

def specGet (m : StringMap) (now : ℕ) (key : List UInt8) : Reply :=
  match m.entryAt now key with
  | some e => .bulkString e.1
  | none => _Null

/-- DEL counts the keys that are present when their turn comes. -/
def specDel (now : ℕ) : List Key → StringMap → ℕ → ℕ × StringMap
  | [], m, count => (count, m)
  | key :: keys, m, count =>
      specDel now keys (m.erase key.1) (count + (m.entryAt now key.1).isSome.toNat)

/-- The bytes that answer a request, and the map behind it. -/
def specStep (m : StringMap) (r : ℕ × StringRequest) : List UInt8 × StringMap :=
  match r.2 with
  | .set key value options =>
      ((specSet m r.1 key.1 value options.switches).1.wire,
        (specSet m r.1 key.1 value options.switches).2)
  | .get key => ((specGet m r.1 key.1).wire, m)
  | .del key keys =>
      ((Reply.respInteger (numberToString (specDel r.1 (key :: keys) m 0).1)).wire,
        (specDel r.1 (key :: keys) m 0).2)

/-! ## The map of a keyspace -/

/-- The value and the expiry of a node that holds a string. -/
def stringEntry (node : ListNode ExoVal) : Option (List UInt8 × ℕ) :=
  match node.value with
  | .bulkString str => some (str.buf, node.expiry)
  | _ => none

def stringView (ht : HashTable ExoVal) : StringMap := fun key => (ht.lookup key).bind stringEntry

/-- A keyspace of strings that stands for the map `m`. -/
structure Holds (s : Server) (m : StringMap) : Prop where
  ready : s.Ready
  keyed : s.HASH_TABLE.Keyed
  strings : ∀ key node, s.HASH_TABLE.lookup key = some node → ∃ str, node.value = .bulkString str
  flat : ∀ val ∈ s.GARBAGE_LIST, val.Flat
  agree : AgreeAt s.now m (stringView s.HASH_TABLE)

section View

variable {ht : HashTable ExoVal} {key : List UInt8}

theorem stringView_of_lookup {node : ListNode ExoVal} {str : ExoString}
    (hl : ht.lookup key = some node) (hval : node.value = .bulkString str) :
    stringView ht key = some (str.buf, node.expiry) := by
  rw [stringView, hl, Option.bind_some, stringEntry, hval]

theorem stringView_of_missing (hl : ht.lookup key = none) : stringView ht key = none := by
  rw [stringView, hl]
  rfl

theorem stringView_update {ht' : HashTable ExoVal} {node : Option (ListNode ExoVal)}
    (h : ∀ k, ht'.lookup k = if k = key then node else ht.lookup k) :
    stringView ht' = Function.update (stringView ht) key (node.bind stringEntry) := by
  funext k
  rw [stringView, h]
  by_cases hk : k = key
  · subst hk
    rw [if_pos rfl, Function.update_self]
  · rw [if_neg hk, Function.update_of_ne hk]
    rfl

end View

namespace Holds

variable {s : Server} {m : StringMap} {key : ExoString} {c : Cursor ExoVal}

theorem cursor_value (h : Holds s m) (hc : s.HASH_TABLE.cursor key.buf = some c) :
    ∃ str, c.node.value = .bulkString str :=
  h.strings _ _ (HashTable.lookup_of_cursor hc)

/-- A node found for a key counts exactly if it is not expired. -/
theorem entryAt_of_cursor (h : Holds s m) (hc : s.HASH_TABLE.cursor key.buf = some c)
    {str : ExoString} (hval : c.node.value = .bulkString str) :
    m.entryAt s.now key.buf =
      if c.node.Expired s.now then none else some (str.buf, c.node.expiry) := by
  have hview := stringView_of_lookup (HashTable.lookup_of_cursor hc) hval
  have hexp : c.node.Expired s.now ↔ c.node.expiry < s.now := by
    rw [ListNode.Expired, hval]
    exact ⟨fun hh => hh.2, fun hh => ⟨rfl, hh⟩⟩
  rw [h.agree, entryAt, hview]
  by_cases he : c.node.expiry < s.now
  · rw [if_pos (hexp.2 he), Option.filter_some_neg (by simpa using he)]
  · rw [if_neg (fun hh => he (hexp.1 hh)), Option.filter_some_pos (by simpa using he)]

theorem entryAt_of_missing (h : Holds s m) (hc : s.HASH_TABLE.cursor key.buf = none) :
    m.entryAt s.now key.buf = none := by
  rw [h.agree, entryAt, stringView_of_missing (HashTable.cursor_eq_none_iff.1 hc)]
  rfl

/-- The clock moves on. -/
theorem later (h : Holds s m) {now id : ℕ} (hnow : s.now ≤ now) :
    Holds { s with now := now, nextId := id } m :=
  ⟨⟨h.ready.keyed, h.ready.lookup⟩, h.keyed, h.strings, h.flat, h.agree.later hnow⟩

/-- Memory that is reclaimed holds nothing of the map. -/
theorem reclaim (h : Holds s m) {freed : List ℕ} {garbage : List ExoVal}
    (hflat : ∀ val ∈ garbage, val.Flat) :
    Holds { s with freed := freed, GARBAGE_LIST := garbage } m :=
  ⟨⟨h.ready.keyed, h.ready.lookup⟩, h.keyed, h.strings, hflat, h.agree⟩

/-- The map after a change of the keyspace at one key. -/
theorem update (h : Holds s m) {ht : HashTable ExoVal} {e : Option (ListNode ExoVal)}
    (hht : ht.Keyed) (he : ∀ node ∈ e, ∃ str, node.value = .bulkString str)
    (hl : ∀ k, ht.lookup k = if k = key.buf then e else s.HASH_TABLE.lookup k) :
    Holds { s with HASH_TABLE := ht } (Function.update m key.buf (e.bind stringEntry)) where
  ready := ⟨h.ready.keyed, h.ready.lookup⟩
  keyed := hht
  strings k node hnode := by
    simp only [hl] at hnode
    by_cases hk : k = key.buf
    · rw [if_pos hk] at hnode
      exact he node hnode
    · rw [if_neg hk] at hnode
      exact h.strings k node hnode
  flat := h.flat
  agree := by
    rw [stringView_update hl]
    exact h.agree.update _ _

theorem flat_release (h : Holds s m) (hc : s.HASH_TABLE.cursor key.buf = some c) :
    ∀ val ∈ (s.release c.node.key c.node.value).GARBAGE_LIST, val.Flat := by
  intro val hmem
  obtain ⟨str, hval⟩ := h.cursor_value hc
  rcases List.mem_append.1 hmem with hmem | hmem
  · exact h.flat val hmem
  · rw [List.mem_singleton.1 hmem, hval]
    trivial

/-- Taking out the node of a key erases it from the map. -/
theorem remove (h : Holds s m) (hc : s.HASH_TABLE.cursor key.buf = some c) :
    Holds { s.release c.node.key c.node.value with
      HASH_TABLE := s.HASH_TABLE.putBucket key.buf (c.before ++ c.after) }
      (m.erase key.buf) := by
  exact (h.update (h.keyed.keyed_remove hc) (e := none) (by simp)
    (h.keyed.lookup_remove hc)).reclaim (h.flat_release hc)

/-- The map keeps its entries at time `now` when an expired one is collected. -/
theorem collect (hnone : m.entryAt s.now key.buf = none) {t : Server}
    (ht : Holds t (m.erase key.buf)) (hnow : t.now = s.now) : Holds t m :=
  ⟨ht.ready, ht.keyed, ht.strings, ht.flat, fun k => by
    rw [← ht.agree k, hnow]
    exact agreeAt_erase hnone k⟩

/-! ### The operations on a key -/

theorem del (h : Holds s m) (key : ExoString) (hkey : key.buf ≠ []) :
    ∃ t, onKeyspace (fun ht => ht.del key) s =
        .ok ((m.entryAt s.now key.buf).isSome.toNat, t) ∧
      t.now = s.now ∧ Holds t (m.erase key.buf) := by
  cases hc : s.HASH_TABLE.cursor key.buf with
  | none =>
      have hnone := h.entryAt_of_missing hc
      refine ⟨s, ?_, rfl, ⟨h.ready, h.keyed, h.strings, h.flat, fun k => ?_⟩⟩
      · rw [onKeyspace_run (HashTable.del_missing h.keyed.unfreed hkey hc), hnone]
        rfl
      · rw [← h.agree k, agreeAt_erase hnone k]
  | some c =>
      obtain ⟨str, hval⟩ := h.cursor_value hc
      refine ⟨_, onKeyspace_run ?_, ?_, h.remove hc⟩
      · rw [HashTable.del_found h.keyed.unfreed hkey hc, h.entryAt_of_cursor hc hval]
        split <;> rfl
      · rfl

theorem get (h : Holds s m) (hkey : key.buf ≠ []) :
    ∃ r t, onKeyspace (fun ht => ht.get key) s = .ok (r, t) ∧ t.now = s.now ∧ Holds t m ∧
      match m.entryAt s.now key.buf with
      | some e => ∃ id, r = some (.bulkString ⟨id, e.1⟩)
      | none => r = none := by
  cases hc : s.HASH_TABLE.cursor key.buf with
  | none =>
      refine ⟨none, s, ?_, rfl, h, ?_⟩
      · rw [onKeyspace_run (HashTable.get_missing h.keyed.unfreed hkey hc)]
      · rw [h.entryAt_of_missing hc]
  | some c =>
      obtain ⟨str, hval⟩ := h.cursor_value hc
      have hentry := h.entryAt_of_cursor hc hval
      by_cases hexp : c.node.Expired s.now
      · rw [if_pos hexp] at hentry
        refine ⟨none, _, onKeyspace_run (HashTable.get_expired h.keyed.unfreed hkey hc hexp),
          rfl, collect hentry (h.remove hc) rfl, ?_⟩
        rw [hentry]
      · rw [if_neg hexp] at hentry
        refine ⟨some c.node.value, s, ?_, rfl, h, ?_⟩
        · rw [onKeyspace_run (HashTable.get_live h.keyed.unfreed hkey hc hexp)]
        · rw [hentry]
          exact ⟨str.id, by rw [hval]⟩

/-- SET, unless it comes upon an expired node. -/
theorem setWithExpiry (h : Holds s m) (hkey : key.buf ≠ []) (val : ExoString)
    (sw : SetSwitches)
    (hlive : ∀ node ∈ s.HASH_TABLE.lookup key.buf, ¬ node.Expired s.now) :
    ∃ t, onKeyspace (fun ht =>
        ht.setWithExpiry key (.bulkString val) sw.exp_ms sw.nx sw.xx) s =
          .ok ((specSet m s.now key.buf val.buf sw).1, t) ∧
      Holds t (specSet m s.now key.buf val.buf sw).2 := by
  let node : ListNode ExoVal := HashTable.entry key (.bulkString val) sw.exp_ms s.now
  have hstring : ∀ n ∈ some node, ∃ str, n.value = .bulkString str := by
    rintro n hn
    obtain rfl := Option.some.inj hn
    exact ⟨val, rfl⟩
  cases hc : s.HASH_TABLE.cursor key.buf with
  | none =>
      have hrun : s.HASH_TABLE.setWithExpiry key (.bulkString val) sw.exp_ms sw.nx sw.xx s = _ :=
        HashTable.setWithExpiry_missing h.keyed.unfreed hkey hc (.bulkString val)
      rw [specSet, h.entryAt_of_missing hc]
      cases hxx : sw.xx with
      | true =>
          rw [hxx, if_pos rfl] at hrun
          rw [onKeyspace_run hrun]
          exact ⟨s, by simp, by simpa using h⟩
      | false =>
          rw [hxx, if_neg (by simp)] at hrun
          rw [onKeyspace_run hrun]
          simp only [Option.isSome_none, Bool.and_false, Bool.false_and, Bool.or_self,
            Bool.false_eq_true, if_false]
          exact ⟨_, rfl, h.update (e := some node) (h.keyed.keyed_append rfl rfl hkey hc) hstring
            (HashTable.Keyed.lookup_append rfl hc)⟩
  | some c =>
      have hexp := hlive c.node (HashTable.lookup_of_cursor hc)
      obtain ⟨str, hval⟩ := h.cursor_value hc
      have hentry := h.entryAt_of_cursor hc hval
      rw [if_neg hexp] at hentry
      have hrun : s.HASH_TABLE.setWithExpiry key (.bulkString val) sw.exp_ms sw.nx sw.xx s = _ :=
        HashTable.setWithExpiry_live h.keyed.unfreed hkey hc hexp (.bulkString val)
      rw [specSet, hentry]
      cases hnx : sw.nx with
      | true =>
          rw [hnx, if_pos rfl] at hrun
          rw [onKeyspace_run hrun]
          exact ⟨s, by simp, by simpa using h⟩
      | false =>
          rw [hnx, if_neg (by simp), h.keyed.unfreed.node hc] at hrun
          rw [onKeyspace_run hrun]
          simp only [Option.isNone_some, Bool.and_false, Bool.false_and, Bool.or_self,
            Bool.false_eq_true, if_false]
          exact ⟨_, rfl, Holds.reclaim (h.update (e := some node)
            (h.keyed.keyed_replace rfl rfl hc) hstring
            (HashTable.Keyed.lookup_replace rfl hc)) (h.flat_release hc)⟩

/-! ### The commands -/

/-- NX and XX together never set anything. -/
theorem specSet_nx_xx {now : ℕ} {k v : List UInt8} {sw : SetSwitches}
    (h : sw.nx = true ∧ sw.xx = true) : specSet m now k v sw = (_Null, m) := by
  rw [specSet, h.1, h.2]
  cases m.entryAt now k <;> rfl

theorem setCommand_run (h : Holds s m) (cmd key val : ArgListNode) (hkey : key.key.buf ≠ [])
    (options : SetOptions) (id : ℕ)
    (hlive : ¬ (options.switches.nx = true ∧ options.switches.xx = true) →
      ∀ node ∈ s.HASH_TABLE.lookup key.key.buf, ¬ node.Expired s.now) :
    ∃ args t, setCommand (cmd :: key :: val :: argsFrom id options.tokens) s =
        .ok (((specSet m s.now key.key.buf val.key.buf options.switches).1, args), t) ∧
      Holds t (specSet m s.now key.key.buf val.key.buf options.switches).2 := by
  have hcount := options.count
  have hparse := options.parses
  rw [← parseSetSwitches_argsFrom id] at hparse
  rw [setCommand, if_neg (by simp; omega), if_neg (by simp)]
  simp only
  generalize parseSetSwitches (argsFrom id options.tokens) noSwitches = parsed at hparse ⊢
  obtain ⟨res, rest⟩ := parsed
  obtain rfl : res = .ok options.switches := hparse
  simp only [options.valid, Bool.false_eq_true, if_false]
  by_cases hboth : options.switches.nx = true ∧ options.switches.xx = true
  · rw [specSet_nx_xx hboth, hboth.1, hboth.2]
    exact ⟨_, s, rfl, h⟩
  · obtain ⟨t, hrun, ht⟩ := h.setWithExpiry hkey val.key options.switches (hlive hboth)
    rw [if_neg (by simpa using hboth), Effect.bind_run_ok hrun]
    exact ⟨_, t, rfl, ht⟩

theorem getCommand_run (h : Holds s m) (cmd key : ArgListNode) (hkey : key.key.buf ≠ []) :
    ∃ t, getCommand [cmd, key] s = .ok ((specGet m s.now key.key.buf, [cmd, key]), t) ∧
      Holds t m := by
  obtain ⟨r, t, hrun, -, ht, hr⟩ := h.get hkey
  refine ⟨t, ?_, ht⟩
  rw [getCommand, Effect.bind_run_ok hrun, specGet]
  cases he : m.entryAt s.now key.key.buf with
  | none =>
      rw [he] at hr
      rw [hr]
      rfl
  | some e =>
      rw [he] at hr
      obtain ⟨id, rfl⟩ := hr
      rfl

theorem delKeys_run (h : Holds s m) (keys : List Key) (id count : ℕ) :
    ∃ t, delKeys (argsFrom id (keys.map Subtype.val)) count s =
        .ok ((specDel s.now keys m count).1, t) ∧ Holds t (specDel s.now keys m count).2 := by
  induction keys generalizing s m id count with
  | nil => exact ⟨s, rfl, h⟩
  | cons key keys ih =>
      obtain ⟨t, hrun, hnow, ht⟩ := h.del ⟨id, key.1⟩ key.2
      obtain ⟨t', hrun', ht'⟩ := ih ht (id + 1) (count + (m.entryAt s.now key.1).isSome.toNat)
      rw [hnow] at hrun' ht'
      exact ⟨t', by rw [List.map_cons, argsFrom, delKeys, newArg, Effect.bind_run_ok hrun, hrun',
        specDel], ht'⟩

theorem delCommand_run (h : Holds s m) (cmd : ArgListNode) (key : Key) (keys : List Key)
    (id : ℕ) :
    ∃ t, delCommand (cmd :: argsFrom id ((key :: keys).map Subtype.val)) s =
        .ok ((.respInteger (numberToString (specDel s.now (key :: keys) m 0).1),
          cmd :: argsFrom id ((key :: keys).map Subtype.val)), t) ∧
      Holds t (specDel s.now (key :: keys) m 0).2 := by
  obtain ⟨t, hrun, ht⟩ := h.delKeys_run (key :: keys) id 0
  refine ⟨t, ?_, ht⟩
  rw [delCommand, if_neg (by simp)]
  simp only [List.tail_cons]
  rw [Effect.bind_run_ok hrun]
  rfl

end Holds

/-! ## Runs -/

/-- The clock does not go back, and a SET that reaches the keyspace does not come
upon an expired node of its key. -/
def Collected (s : Server) (r : ℕ × StringRequest) : Prop :=
  s.now ≤ r.1 ∧
    match r.2 with
    | .set key _ options =>
        ¬ (options.switches.nx = true ∧ options.switches.xx = true) →
          ∀ node ∈ s.HASH_TABLE.lookup key.1, ¬ node.Expired r.1
    | _ => True

instance (s : Server) (r : ℕ × StringRequest) : Decidable (Collected s r) :=
  match r with
  | (_, .set _ _ _) => inferInstanceAs (Decidable (_ ∧ (_ → _)))
  | (_, .get _) => inferInstanceAs (Decidable (_ ∧ True))
  | (_, .del _ _) => inferInstanceAs (Decidable (_ ∧ True))

/-- What `serve` leaves of a command's state. -/
theorem Holds.serve {s : Server} {m m' : StringMap} (h : Holds s m)
    {name : List UInt8} {rest : List (List UInt8)} {cmd : ExoCmd}
    (hcmd : commandOf (strUpCase name) = some cmd) {result : Reply} {args : ArgList} {t : Server}
    (hrun : executeCommand cmd
      (newArg ⟨s.nextId, strUpCase name⟩ :: argsFrom (s.nextId + 1) rest)
      { s with nextId := s.nextId + (rest.length + 1) } = .ok ((result, args), t))
    (ht : Holds t m') :
    ∃ t, serve (name :: rest) s = .ok (result.wire, t) ∧ Holds t m' := by
  obtain ⟨freed, hserve⟩ := serve_run h.ready hcmd hrun ht.flat
  exact ⟨_, hserve, ht.reclaim (by simp)⟩

/-- A request that meets the condition is answered as the map answers it. -/
theorem Holds.step {s : Server} {m : StringMap} (h : Holds s m) {r : ℕ × StringRequest}
    (hr : Collected s r) :
    ∃ t, stringMachine s r = .ok ((specStep m r).1, t) ∧ Holds t (specStep m r).2 := by
  obtain ⟨now, r⟩ := r
  obtain ⟨hnow, hlive⟩ := hr
  have hs : ∀ id, Holds { s with now := now, nextId := id } m := fun id => h.later hnow
  cases r with
  | set key value options =>
      have hcmd : commandOf (strUpCase (ascii "SET")) =
          some ⟨ascii "SET", BULKSTRING, 2, true, true, false, .setCommand⟩ := rfl
      obtain ⟨args, t, hrun, ht⟩ := (hs _).setCommand_run
        (newArg ⟨s.nextId, strUpCase (ascii "SET")⟩) (newArg ⟨s.nextId + 1, key.1⟩)
        (newArg ⟨s.nextId + 2, value⟩) key.2 options (s.nextId + 3)
        hlive
      exact (hs s.nextId).serve hcmd
        ((executeCommand_run (by decide) (by decide) rfl).trans hrun) ht
  | get key =>
      have hcmd : commandOf (strUpCase (ascii "GET")) =
          some ⟨ascii "GET", BULKSTRING, 1, false, false, true, .getCommand⟩ := rfl
      obtain ⟨t, hrun, ht⟩ := (hs _).getCommand_run
        (newArg ⟨s.nextId, strUpCase (ascii "GET")⟩) (newArg ⟨s.nextId + 1, key.1⟩) key.2
      exact (hs s.nextId).serve hcmd
        ((executeCommand_run (by decide) (by decide) rfl).trans hrun) ht
  | del key keys =>
      have hcmd : commandOf (strUpCase (ascii "DEL")) =
          some ⟨ascii "DEL", BULKSTRING, 1, false, true, true, .delCommand⟩ := rfl
      obtain ⟨t, hrun, ht⟩ := (hs _).delCommand_run
        (newArg ⟨s.nextId, strUpCase (ascii "DEL")⟩) key keys (s.nextId + 1)
      exact (hs s.nextId).serve hcmd
        ((executeCommand_run (by decide) (by decide) rfl).trans hrun) ht

/-- From start-up on, a run whose steps meet the condition ends and is answered as
the map answers it. -/
theorem strings_refine (coins : ℕ → ℕ) (dump : Option (List UInt8)) (s : Server)
    (hstart : startUp coins dump = .ok s) (rs : List (ℕ × StringRequest))
    (hrs : stringMachine.Meets Collected s rs) :
    ∃ t, stringMachine.run s rs = .ok ((Machine.runTotal specStep empty rs).1, t) := by
  have hs : Holds s empty := by
    obtain ⟨ht, hrun, hready⟩ := startUp_run coins dump
    rw [hrun] at hstart
    obtain rfl := Except.ok.inj hstart
    exact ⟨hready, HashTable.keyed_newHashTable, by simp [blankServer, HashTable.lookup_newHashTable],
      by simp [blankServer], fun k => rfl⟩
  obtain ⟨t, hrun, -⟩ := Machine.run_simulates (R := Holds) (a := specStep)
    (fun _ _ _ h hr => h.step hr) hs hrs
  exact ⟨t, hrun⟩

def keyK : Key := ⟨ascii "k", by decide⟩

def noOptions : SetOptions := ⟨[], noSwitches, by decide, rfl, rfl⟩

def oneMillisecond : SetOptions :=
  ⟨[ascii "PX", ascii "1"], ⟨false, 0, true, 1, false, false⟩, by decide, by decide, by decide⟩

/-- The expired value is collected by the GET before the second SET. -/
def collectedRun : List (ℕ × StringRequest) :=
  [(0, .set keyK (ascii "v") oneMillisecond), (5, .get keyK), (6, .set keyK (ascii "w") noOptions),
    (7, .get keyK), (8, .del keyK [keyK])]

theorem strings_refine_collected :
    ∃ t, stringMachine.run (started (fun _ => 0) none) collectedRun =
      .ok ((Machine.runTotal specStep empty collectedRun).1, t) :=
  strings_refine (fun _ => 0) none _ (startUp_eq_started _ _) collectedRun (by decide +kernel)

/-- The expired value is still in its bucket when the second SET comes. -/
def uncollectedRun : List (ℕ × StringRequest) :=
  [(0, .set keyK (ascii "v") oneMillisecond), (5, .set keyK (ascii "w") noOptions),
    (6, .get keyK)]

/-- The map answers the run, the server writes to freed memory. -/
theorem strings_not_refined :
    (Machine.runTotal specStep empty uncollectedRun).1 =
        [ascii "+OK\r\n", ascii "+OK\r\n", ascii "$1\r\nw\r\n"] ∧
      (stringMachine.run (started (fun _ => 0) none) uncollectedRun).map Prod.fst =
        .error .useAfterFree ∧
      ¬ ∀ rs : List (ℕ × StringRequest), (rs.map Prod.fst).Pairwise (· ≤ ·) →
        ∃ t, stringMachine.run (started (fun _ => 0) none) rs =
          .ok ((Machine.runTotal specStep empty rs).1, t) := by
  have hfault : (stringMachine.run (started (fun _ => 0) none) uncollectedRun).map Prod.fst =
      .error .useAfterFree := by decide +kernel
  refine ⟨by decide +kernel, hfault, fun h => ?_⟩
  obtain ⟨t, hrun⟩ := h uncollectedRun (by decide)
  rw [hrun] at hfault
  exact absurd hfault (by simp [Except.map])

end Exoredis
