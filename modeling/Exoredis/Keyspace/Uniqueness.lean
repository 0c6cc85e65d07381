import Exoredis.Dump.Reading
import Exoredis.Keyspace.Invariant

/-!
# Uniqueness of keys

The keyspace stays keyed over every run in which no SET comes upon an expired
node that was not collected and no string record of a dump is loaded while its key
has a node (`keyed_of_run`). The first leaves a freed node in its bucket, the second
appends a node without a search.
-/

namespace Exoredis

open Effect LittleEndian

/-! ## The operations on a key -/

namespace HashTable

variable {ht : HashTable ExoVal} {key : ExoString} {s : Server}

theorem updateValue_missing (h : ht.Unfreed) (hkey : key.buf ≠ [])
    (hc : ht.cursor key.buf = none) (val : ExoVal) :
    ht.updateValue key val s = .ok (ht, s) := by
  rw [updateValue, h.find hkey, hc]
  rfl

theorem updateValue_found {c : Cursor ExoVal} (h : ht.Unfreed) (hkey : key.buf ≠ [])
    (hc : ht.cursor key.buf = some c) (val : ExoVal) :
    ht.updateValue key val s =
      .ok (ht.putBucket key.buf (c.before ++ { c.node with value := val } :: c.after), s) := by
  rw [updateValue, h.find hkey, hc]
  rfl

namespace Keyed

variable (h : ht.Keyed) {ht' : HashTable ExoVal} {t : Server}

include h

theorem updateValue {val : ExoVal} (hrun : ht.updateValue key val s = .ok (ht', t)) :
    ht'.Keyed := by
  by_cases hkey : key.buf = []
  · rw [HashTable.updateValue, Effect.bind_run_error (stringHash_nil hkey s)] at hrun
    cases hrun
  · cases hc : ht.cursor key.buf with
    | none =>
        rw [updateValue_missing h.unfreed hkey hc] at hrun
        cases hrun
        exact h
    | some c =>
        rw [updateValue_found h.unfreed hkey hc] at hrun
        cases hrun
        have hnode : { c.node with value := val }.freed = false := h.unfreed.node hc
        exact h.keyed_replace hnode (cursorOf_eq_some hc).2.1 hc

/-- A record of a dump may be appended while its key has no node, unless it has expired. -/
theorem setFromLoad_ok {val : ExoVal} {exp_ms : ℕ} {reply : Reply}
    (hnew : s.now ≤ exp_ms → ht.lookup key.buf = none)
    (hrun : ht.setFromLoad key val exp_ms s = .ok ((reply, ht'), t)) :
    ht'.Keyed ∧ (exp_ms < s.now ∧ ht' = ht ∨ s.now ≤ exp_ms ∧
      ∃ node : ListNode ExoVal, node.value = val ∧ node.expiry = exp_ms ∧
        ∀ k, ht'.lookup k = if k = key.buf then some node else ht.lookup k) := by
  by_cases hexp : exp_ms < s.now
  · rw [setFromLoad_expired hexp] at hrun
    cases hrun
    exact ⟨h, .inl ⟨hexp, rfl⟩⟩
  · by_cases hkey : key.buf = []
    · rw [HashTable.setFromLoad, timeStamp, bind_assoc, Effect.bind_run_ok (Effect.get_run s),
        Effect.bind_run_ok (Effect.pure_run _ s), if_neg hexp,
        Effect.bind_run_error (stringHash_nil hkey s)] at hrun
      cases hrun
    · have hc := cursor_eq_none_iff.2 (hnew (by omega))
      rw [setFromLoad_live h.unfreed hkey (by omega)] at hrun
      cases hrun
      exact ⟨h.keyed_append rfl rfl hkey hc, .inr ⟨by omega,
        { newNode key val with expiry := exp_ms }, rfl, rfl, lookup_append rfl hc⟩⟩

/-- SET may replace a node that is not expired. -/
theorem setWithExpiry_ok {val : ExoVal} {exp_ms : ℕ} {nx xx : Bool} {reply : Reply}
    (hlive : ∀ node ∈ ht.lookup key.buf, ¬ node.Expired s.now)
    (hrun : ht.setWithExpiry key val exp_ms nx xx s = .ok ((reply, ht'), t)) :
    ht'.Keyed ∧ (reply = _Null ∧ ht' = ht ∨ reply = _OK ∧
      ∃ node : ListNode ExoVal, node.value = val ∧ node.expiry = expiryAt exp_ms s.now ∧
        ∀ k, ht'.lookup k = if k = key.buf then some node else ht.lookup k) := by
  by_cases hkey : key.buf = []
  · rw [HashTable.setWithExpiry, timeStamp, bind_assoc, Effect.bind_run_ok (Effect.get_run s),
      Effect.bind_run_ok (Effect.pure_run _ s),
      Effect.bind_run_error (stringHash_nil hkey s)] at hrun
    cases hrun
  · cases hc : ht.cursor key.buf with
    | none =>
        rw [setWithExpiry_missing h.unfreed hkey hc] at hrun
        cases xx with
        | true =>
            cases hrun
            exact ⟨h, .inl ⟨rfl, rfl⟩⟩
        | false =>
            cases hrun
            exact ⟨h.keyed_append rfl rfl hkey hc, .inr ⟨rfl, entry key val exp_ms s.now, rfl, rfl,
              lookup_append rfl hc⟩⟩
    | some c =>
        rw [setWithExpiry_live h.unfreed hkey hc (hlive _ (lookup_of_cursor hc))] at hrun
        cases nx with
        | true =>
            cases hrun
            exact ⟨h, .inl ⟨rfl, rfl⟩⟩
        | false =>
            cases hrun
            exact ⟨h.keyed_replace (h.unfreed.node hc) rfl hc, .inr ⟨rfl,
              { entry key val exp_ms s.now with freed := c.node.freed }, rfl, rfl,
              lookup_replace rfl hc⟩⟩

end Keyed

end HashTable

/-! ## Between requests -/

/-- The command table is ready and the keyspace is keyed. -/
structure Tidy (s : Server) : Prop where
  ready : s.Ready
  keyed : s.HASH_TABLE.Keyed

/-- An operation on the keyspace of this state. -/
theorem tidy_onKeyspace {α : Type} {f : HashTable ExoVal → Exo (α × HashTable ExoVal)}
    (hframe : ∀ ht, Preserves (f ht) Server.Ready) {s t : Server} {a : α} (hs : Tidy s)
    (hrun : onKeyspace f s = .ok (a, t))
    (hf : ∀ ht t, s.HASH_TABLE.Keyed → f s.HASH_TABLE s = .ok ((a, ht), t) → ht.Keyed) :
    Tidy t := by
  obtain ⟨ht, s', hf', rfl⟩ := onKeyspace_ok hrun
  have hready := hframe _ _ _ _ hs.ready hf'
  exact ⟨⟨hready.keyed, hready.lookup⟩, hf _ _ hs.keyed hf'⟩

/-- An operation on the keyspace that keeps it keyed and touches no other table. -/
theorem preserves_onKeyspace {α : Type} {f : HashTable ExoVal → Exo (α × HashTable ExoVal)}
    (hframe : ∀ ht, Preserves (f ht) Server.Ready)
    (hf : ∀ ht (s : Server) a ht' t, ht.Keyed → f ht s = .ok ((a, ht'), t) → ht'.Keyed) :
    Preserves (onKeyspace f) Tidy :=
  fun _ _ _ hs hrun => tidy_onKeyspace hframe hs hrun fun _ _ h hf' => hf _ _ _ _ _ h hf'

theorem preserves_onKeyspace_unit {f : HashTable ExoVal → Exo (HashTable ExoVal)}
    (hframe : ∀ ht, Preserves (f ht) Server.Ready)
    (hf : ∀ ht (s : Server) ht' t, ht.Keyed → f ht s = .ok (ht', t) → ht'.Keyed) :
    Preserves (onKeyspace_ f) Tidy := by
  intro s a t hs hrun
  obtain ⟨ht, s', hf', rfl⟩ := onKeyspace_unit_ok hrun
  have hready := hframe _ _ _ _ hs.ready hf'
  exact ⟨⟨hready.keyed, hready.lookup⟩, hf _ _ _ _ hs.keyed hf'⟩

theorem insensitive_tidy : Insensitive Tidy :=
  fun _ _ _ _ _ h => ⟨⟨h.ready.keyed, h.ready.lookup⟩, h.keyed⟩

theorem closed_tidy : Closed fun _ x => Preserves x Tidy where
  toHashing := framed_preserves insensitive_tidy
  get key := preserves_onKeyspace (fun ht => framed_ready.get ht key trivial)
    fun _ _ _ _ _ h hget => (h.get_ok hget).1
  del key := preserves_onKeyspace (fun ht => framed_ready.del ht key trivial)
    fun _ _ _ _ _ h hdel => (h.del_ok hdel).1
  set key val := preserves_onKeyspace_unit (fun ht => framed_ready.set ht key val trivial)
    fun _ _ _ _ h hrun => (h.set_ok hrun).1
  update key val := preserves_onKeyspace_unit (fun ht => framed_ready.updateValue ht key val trivial)
    fun _ _ _ _ h hrun => h.updateValue hrun
  flush := preserves_modify fun _ h =>
    ⟨⟨h.ready.keyed, h.ready.lookup⟩, HashTable.keyed_newHashTable⟩
  save _ := preserves_modify fun _ h => ⟨⟨h.ready.keyed, h.ready.lookup⟩, h.keyed⟩

/-! ## The conditions -/

/-- The key with which a request gets to `setWithExpiry`. -/
def setTarget (tokens : List (List UInt8)) : Option (List UInt8) :=
  match tokens with
  | cmd :: key :: _ :: options =>
      if strUpCase cmd = ascii "SET" ∧ options.length ≤ 6 then
        match switchesOf options with
        | .ok sw =>
            if ((sw.ex || sw.px) && decide (sw.exp_ms = 0)) || (sw.nx && sw.xx) then none
            else some key
        | .error _ => none
      else none
  | _ => none

/-- A SET gives up before it comes to its key, or is a search for its key and an
insertion. -/
theorem setCommand_cases {name : List UInt8} (hname : strUpCase name = ascii "SET")
    (head : ArgListNode) (id : ℕ) (rest : List (List UInt8)) :
    (setTarget (name :: rest) = none ∧
      ∃ reply args, Exoredis.setCommand (head :: argsFrom id rest) = pure (reply, args) ∧
        (reply = _Null ∨ ∃ code, reply = _Error code)) ∨
    ∃ key val options sw args, rest = key :: val :: options ∧ switchesOf options = .ok sw ∧
      setTarget (name :: rest) = some key ∧
      Exoredis.setCommand (head :: argsFrom id rest) = (do
        let ret ← onKeyspace fun ht =>
          ht.setWithExpiry ⟨id, key⟩ (.bulkString ⟨id + 1, val⟩) sw.exp_ms sw.nx sw.xx
        return (ret, args)) := by
  rw [setCommand.eq_def]
  by_cases h9 : (head :: argsFrom id rest).length > 9
  · rw [if_pos h9]
    refine .inl ⟨?_, _, _, rfl, .inr ⟨_, rfl⟩⟩
    rcases rest with _ | ⟨key, _ | ⟨val, options⟩⟩
    · rfl
    · rfl
    · rw [setTarget, if_neg]
      simp only [List.length_cons, length_argsFrom] at h9
      omega
  · rw [if_neg h9]
    rcases rest with _ | ⟨key, _ | ⟨val, options⟩⟩
    · exact .inl ⟨rfl, _, _, rfl, .inr ⟨_, rfl⟩⟩
    · exact .inl ⟨rfl, _, _, rfl, .inr ⟨_, rfl⟩⟩
    · rw [if_neg (by simp [argsFrom])]
      have hcount : options.length ≤ 6 := by
        simp only [List.length_cons, length_argsFrom] at h9
        omega
      rw [setTarget, if_pos ⟨hname, hcount⟩, ← parseSetSwitches_argsFrom (id + 1 + 1)]
      simp only [argsFrom]
      generalize hparsed : parseSetSwitches (argsFrom (id + 1 + 1) options) noSwitches = parsed
      obtain ⟨res, rest⟩ := parsed
      cases res with
      | error code => exact .inl ⟨rfl, _, _, rfl, .inr ⟨_, rfl⟩⟩
      | ok sw =>
          have hoptions : switchesOf options = .ok sw := by
            rw [← parseSetSwitches_argsFrom (id + 1 + 1), hparsed]
          simp only
          by_cases hexp : ((sw.ex || sw.px) && decide (sw.exp_ms = 0)) = true
          · rw [if_pos hexp, hexp, Bool.true_or, if_pos rfl]
            exact .inl ⟨rfl, _, _, rfl, .inr ⟨_, rfl⟩⟩
          · rw [if_neg hexp]
            by_cases hboth : (sw.nx && sw.xx) = true
            · rw [if_pos hboth, hboth, Bool.or_true, if_pos rfl]
              exact .inl ⟨rfl, _, _, rfl, .inl rfl⟩
            · rw [if_neg hboth, if_neg (by simpa [hboth] using hexp)]
              exact .inr ⟨key, val, options, sw, _, rfl, hoptions, rfl, rfl⟩

/-- A string record that has not expired is loaded while its key has no node. -/
def FreshRecord (s : Server) (code : ℕ) (fp : List UInt8) : Prop :=
  code = BULKSTRING → ∀ e ∈ stringRecord fp, s.now ≤ e.2 → s.HASH_TABLE.lookup e.1 = none

/-- Every string record that the loop of `loadFromDB` comes to is fresh. -/
def FreshLoad : ℕ → List UInt8 → Server → Prop
  | 0, _, _ => True
  | fuel + 1, fp, s =>
      ∀ e ∈ takeLE 8 fp, FreshRecord s e.1 e.2 ∧
        ∀ ret fp' t, loadEntry e.1 e.2 s = .ok ((ret, fp'), t) → ret ≠ -1 →
          FreshLoad fuel fp' t

/-- The state in which the command of a request starts. -/
def commandState (s : Server) (r : Request) : Server :=
  { s with now := r.now, nextId := s.nextId + r.tokens.length }

/-- A SET does not come upon an expired node of its key, and a LOADDB loads no
string record over a node of its key. -/
structure KeepsUnique (s : Server) (r : Request) : Prop where
  set : ∀ key ∈ setTarget r.tokens, ∀ node ∈ s.HASH_TABLE.lookup key, ¬ node.Expired r.now
  load : r.tokens.head?.map strUpCase = some (ascii "LOADDB") →
    ∀ fp ∈ s.dump, FreshLoad (fp.length + 1) fp (commandState s r)

/-! ## SET and LOADDB -/

/-- A property that the operations on a key keep, and those of SET and LOADDB where they
keep the keys unique. -/
structure Guarded (I : Server → Prop) : Prop where
  ready : ∀ s, I s → s.Ready
  insensitive : Insensitive I
  timeless : ∀ s now, I s → I { s with now := now }
  serving : Serving fun _ x => Preserves x I
  setWithExpiry : ∀ {key val exp_ms nx xx s reply t}, I s →
    (∀ node ∈ s.HASH_TABLE.lookup key.buf, ¬ node.Expired s.now) →
      onKeyspace (fun ht => ht.setWithExpiry key (.bulkString val) exp_ms nx xx) s =
        .ok (reply, t) → I t
  setFromLoad : ∀ {key val exp_ms s reply t}, I s →
    (s.now ≤ exp_ms → s.HASH_TABLE.lookup key.buf = none) →
      onKeyspace (fun ht => ht.setFromLoad key (.bulkString val) exp_ms) s = .ok (reply, t) → I t

namespace Guarded

variable {I : Server → Prop} (hI : Guarded I) {s t : Server}

include hI

theorem setCommand {head : ArgListNode} {rest : List (List UInt8)} {id : ℕ}
    {name : List UInt8} {reply : Reply} {args : ArgList} (hs : I s)
    (hname : strUpCase name = ascii "SET")
    (hlive : ∀ key ∈ setTarget (name :: rest), ∀ node ∈ s.HASH_TABLE.lookup key,
      ¬ node.Expired s.now)
    (hrun : setCommand (head :: argsFrom id rest) s = .ok ((reply, args), t)) : I t := by
  rcases setCommand_cases hname head id rest with ⟨-, reply', args', heq, -⟩ |
    ⟨key, val, options, sw, args', -, -, htarget, heq⟩
  · rw [heq] at hrun
    cases hrun
    exact hs
  · rw [heq] at hrun
    obtain ⟨ret, s', hset, hrun⟩ := bind_eq_ok_iff.1 hrun
    cases hrun
    exact hI.setWithExpiry hs (hlive key htarget) hset

/-- A record may be loaded if it is fresh. -/
theorem loadEntry {code : ℕ} {fp fp' : List UInt8} {ret : ℤ} (hs : I s)
    (hfresh : FreshRecord s code fp) (hrun : loadEntry code fp s = .ok ((ret, fp'), t)) : I t := by
  rw [Exoredis.loadEntry] at hrun
  by_cases hstring : code = BULKSTRING
  · rw [if_pos hstring] at hrun
    obtain ⟨key, value, exp_ms, s', reply, hrecord, hs', hset⟩ := loadHashMapEntry_cases hrun
    have hs₁ : I s' := by
      rw [hs']
      exact hI.insensitive s _ _ _ _ hs
    have hnow : s'.now = s.now := by rw [hs']
    have hht : s'.HASH_TABLE = s.HASH_TABLE := by rw [hs']
    refine hI.setFromLoad hs₁ ?_ hset
    rw [hnow, hht]
    exact hfresh hstring _ hrecord
  · rw [if_neg hstring] at hrun
    by_cases hset : code = SORTED_SET
    · rw [if_pos hset] at hrun
      exact hI.serving.loadSkiplistEntry _ _ _ _ hs hrun
    · rw [if_neg hset] at hrun
      by_cases hbitmap : code = BITMAP
      · rw [if_pos hbitmap] at hrun
        exact hI.serving.loadBitmapEntry _ _ _ _ hs hrun
      · rw [if_neg hbitmap] at hrun
        cases hrun
        exact hs

theorem loadLoop {fuel : ℕ} {fp : List UInt8} {ret : ℤ} (hs : I s)
    (hfresh : FreshLoad fuel fp s) (hrun : loadLoop fuel fp s = .ok (ret, t)) : I t := by
  induction fuel generalizing fp s with
  | zero => cases hrun
  | succ fuel ih =>
      rw [Exoredis.loadLoop] at hrun
      cases hcode : takeLE 8 fp with
      | none =>
          rw [hcode] at hrun
          cases hrun
          exact hs
      | some e =>
          rw [hcode] at hrun
          obtain ⟨hrecord, hrest⟩ := hfresh e hcode
          obtain ⟨⟨ret', fp'⟩, s', hentry, hrun⟩ := bind_eq_ok_iff.1 hrun
          have hs' := hI.loadEntry hs hrecord hentry
          simp only at hrun
          by_cases hret : ret' = -1
          · rw [if_pos hret] at hrun
            cases hrun
            exact hs'
          · rw [if_neg hret] at hrun
            exact ih hs' (hrest ret' fp' s' hentry hret) hrun

theorem loadFromDB {ret : ℤ} (hs : I s)
    (hfresh : ∀ fp ∈ s.dump, FreshLoad (fp.length + 1) fp s)
    (hrun : loadFromDB s = .ok (ret, t)) : I t := by
  rw [Exoredis.loadFromDB, Effect.bind_run_ok (Effect.get_run s)] at hrun
  cases hdump : s.dump with
  | none =>
      rw [hdump] at hrun
      cases hrun
      exact hs
  | some fp =>
      rw [hdump] at hrun
      exact hI.loadLoop hs (hfresh fp hdump) hrun

theorem commandState (hs : I s) (r : Request) : I (commandState s r) :=
  hI.insensitive _ s.GARBAGE_LIST s.freed (s.nextId + r.tokens.length) s.coins
    (hI.timeless s r.now hs)

theorem step {r : Request} {output : List UInt8} (hs : I s) (hr : KeepsUnique s r)
    (hrun : server s r = .ok (output, t)) : I t := by
  have hs₁ := hI.commandState hs r
  refine serve_preserves hI.insensitive hI.serving hI.ready ?_ ?_ (hI.timeless s r.now hs) hrun
  · intro name rest args reply s' htokens hname hset
    refine hI.setCommand hs₁ hname ?_ hset
    rw [← htokens]
    exact hr.set
  · intro name rest ret s' htokens hname hload
    refine hI.loadFromDB hs₁ (hr.load ?_) hload
    rw [htokens]
    exact congrArg some hname

/-- The property holds in every state of a run whose steps keep the keys unique. -/
theorem of_run {rs : List Request} {os : List (List UInt8)} (hs : I s)
    (hrs : server.Meets KeepsUnique s rs) (hrun : server.run s rs = .ok (os, t)) : I t :=
  Machine.run_invariant (fun _ _ _ _ => hI.step) hs hrs hrun

end Guarded

theorem guarded_tidy : Guarded Tidy where
  ready _ h := h.ready
  insensitive := insensitive_tidy
  timeless _ _ h := ⟨⟨h.ready.keyed, h.ready.lookup⟩, h.keyed⟩
  serving := closed_tidy.serving
  setWithExpiry hs hlive hrun := tidy_onKeyspace
    (fun ht => framed_ready.setWithExpiry ht _ _ _ _ _ trivial) hs hrun
      fun _ _ h hset => (h.setWithExpiry_ok hlive hset).1
  setFromLoad hs hnew hrun := tidy_onKeyspace (fun ht => framed_ready.setFromLoad ht _ _ _ trivial) hs hrun
    fun _ _ h hset => (h.setFromLoad_ok hnew hset).1

theorem tidy_started (coins : ℕ → ℕ) (dump : Option (List UInt8)) {s : Server}
    (hstart : startUp coins dump = .ok s) : Tidy s := by
  obtain ⟨ht, hrun, hready⟩ := startUp_run coins dump
  rw [hrun] at hstart
  obtain rfl := Except.ok.inj hstart
  exact ⟨hready, HashTable.keyed_newHashTable⟩

/-! ## Deleted keys -/

/-- DEL takes keys out and puts none in. -/
theorem lookup_del {ht ht' : HashTable ExoVal} {key : ExoString} {s t : Server} {n : ℕ}
    (h : ht.Keyed) (hrun : ht.del key s = .ok ((n, ht'), t)) (k : List UInt8)
    (hk : k = key.buf ∨ ht.lookup k = none) : ht'.lookup k = none := by
  rw [(h.del_ok hrun).2]
  rcases hk with rfl | hk
  · rw [if_pos rfl]
  · rw [hk, ite_self]

theorem lookup_delKeys {args : ArgList} {s t : Server} {count n : ℕ} (hs : Tidy s)
    (hrun : delKeys args count s = .ok (n, t)) (k : List UInt8)
    (hk : k ∈ args.map (fun node => node.key.buf) ∨ s.HASH_TABLE.lookup k = none) :
    t.HASH_TABLE.lookup k = none := by
  induction args generalizing s count with
  | nil =>
      cases hrun
      simpa using hk
  | cons node rest ih =>
      obtain ⟨n', s', hkey, hrun⟩ := bind_eq_ok_iff.1 hrun
      refine ih (closed_tidy.del _ _ _ _ hs hkey) hrun ?_
      by_cases hmem : k ∈ rest.map fun node => node.key.buf
      · exact .inl hmem
      · refine .inr ?_
        obtain ⟨ht, s₁, hdel, rfl⟩ := onKeyspace_ok hkey
        refine lookup_del hs.keyed hdel k ?_
        rw [List.map_cons, List.mem_cons] at hk
        tauto

/-- No key of a DEL has a node behind it. -/
theorem Tidy.lookup_of_del {s t : Server} {r : Request} {output : List UInt8} {name : List UInt8}
    {keys : List (List UInt8)} (hs : Tidy s) (htokens : r.tokens = name :: keys)
    (hname : strUpCase name = ascii "DEL") (hrun : server s r = .ok (output, t)) :
    ∀ key ∈ keys, t.HASH_TABLE.lookup key = none := by
  intro key hkey
  have hs' : Server.Ready { s with now := r.now } := ⟨hs.ready.keyed, hs.ready.lookup⟩
  obtain ⟨name', rest, heq, hcases⟩ := serve_cases hs' hrun
  rw [htokens] at heq
  obtain ⟨rfl, rfl⟩ := List.cons.inj heq
  have hcmd : commandOf (ascii "DEL") =
      some ⟨ascii "DEL", BULKSTRING, 1, false, true, true, .delCommand⟩ := rfl
  rw [hname, hcmd] at hcases
  rcases hcases with ⟨h, -⟩ | ⟨cmd, reply, args, s', h, hexec, hafter, -⟩
  · cases h
  · cases h
    refine hafter (fun s => s.HASH_TABLE.lookup key = none) (fun _ _ _ _ _ h => h) ?_
    rw [executeCommand_run (by decide) (by decide) rfl, callCommand, delCommand] at hexec
    have hne := List.length_pos_of_mem hkey
    rw [if_neg (by simpa [Nat.pos_iff_ne_zero] using hne)] at hexec
    obtain ⟨n, s'', hkeys, hret⟩ := bind_eq_ok_iff.1 hexec
    cases hret
    refine lookup_delKeys ?_ hkeys key (.inl ?_)
    · exact ⟨⟨hs.ready.keyed, hs.ready.lookup⟩, hs.keyed⟩
    · rwa [List.tail_cons, bytes_argsFrom]

/-- In every state that a run reaches whose steps meet the condition, a key has at
most one node, in the bucket of its hash, and after a DEL it has none. -/
theorem keyed_of_run (coins : ℕ → ℕ) (dump : Option (List UInt8)) (s : Server)
    (hstart : startUp coins dump = .ok s) (rs : List Request) (os : List (List UInt8))
    (t : Server) (hrs : server.Meets KeepsUnique s rs) (hrun : server.run s rs = .ok (os, t)) :
    t.HASH_TABLE.Keyed ∧
      ∀ rs' r name keys, rs = rs' ++ [r] → r.tokens = name :: keys →
        strUpCase name = ascii "DEL" →
          ∀ key ∈ keys, ∀ i, ∀ node ∈ t.HASH_TABLE.buckets i, node.key.buf ≠ key := by
  have hs : Tidy s := tidy_started coins dump hstart
  have ht : Tidy t := guarded_tidy.of_run hs hrs hrun
  refine ⟨ht.keyed, ?_⟩
  rintro rs' r name keys rfl htokens hname key hkey i node hnode rfl
  obtain ⟨s', os₁, os₂, hrun₁, hrun₂, -⟩ := Machine.run_append.1 hrun
  obtain ⟨hrs₁, -⟩ := Machine.meets_append hrs hrun₁
  have hs' : Tidy s' := guarded_tidy.of_run hs hrs₁ hrun₁
  obtain ⟨o, t', os', hstep, hnil, -⟩ := Machine.run_cons_ok_iff.1 hrun₂
  cases hnil
  have hnone := hs'.lookup_of_del htokens hname hstep node.key.buf hkey
  rw [(ht.keyed.mem_iff_lookup.1 hnode).2] at hnone
  cases hnone

/-! ## Examples of runs -/

instance (s : Server) (code : ℕ) (fp : List UInt8) : Decidable (FreshRecord s code fp) :=
  inferInstanceAs (Decidable (_ → _))

instance decidableFreshLoad : ∀ fuel fp s, Decidable (FreshLoad fuel fp s)
  | 0, _, _ => .isTrue trivial
  | fuel + 1, fp, s =>
      match h : takeLE 8 fp with
      | none => .isTrue (by simp [FreshLoad, h])
      | some e =>
          have : Decidable (∀ ret fp' t, loadEntry e.1 e.2 s = .ok ((ret, fp'), t) → ret ≠ -1 →
              FreshLoad fuel fp' t) :=
            match hrun : loadEntry e.1 e.2 s with
            | .error _ => .isTrue (by simp)
            | .ok ((ret, fp'), t) =>
                have := decidableFreshLoad fuel fp' t
                decidable_of_iff (ret ≠ -1 → FreshLoad fuel fp' t)
                  ⟨fun h ret' fp'' t' heq => by simp_all, fun h => h ret fp' t rfl⟩
          decidable_of_iff (FreshRecord s e.1 e.2 ∧
            ∀ ret fp' t, loadEntry e.1 e.2 s = .ok ((ret, fp'), t) → ret ≠ -1 →
              FreshLoad fuel fp' t) (by simp [FreshLoad, h])

instance (s : Server) (r : Request) : Decidable (KeepsUnique s r) :=
  decidable_of_iff
    ((∀ key ∈ setTarget r.tokens, ∀ node ∈ s.HASH_TABLE.lookup key, ¬ node.Expired r.now) ∧
      (r.tokens.head?.map strUpCase = some (ascii "LOADDB") →
        ∀ fp ∈ s.dump, FreshLoad (fp.length + 1) fp (commandState s r)))
    ⟨fun h => ⟨h.1, h.2⟩, fun h => ⟨h.set, h.load⟩⟩

/-- The dump is loaded into an empty keyspace. -/
def reloadRun : List Request :=
  [request ["SET", "k", "v"], request ["SAVE"], request ["DEL", "k"], request ["LOADDB"],
    request ["del", "k"]]

theorem keyed_of_run_reload :
    ∃ os t, server.run (started (fun _ => 0) none) reloadRun = .ok (os, t) ∧
      t.HASH_TABLE.Keyed ∧
        ∀ i, ∀ node ∈ t.HASH_TABLE.buckets i, node.key.buf ≠ ascii "k" := by
  have hok : (server.run (started (fun _ => 0) none) reloadRun).isOk = true := by decide +kernel
  cases hrun : server.run (started (fun _ => 0) none) reloadRun with
  | error e =>
      rw [hrun] at hok
      cases hok
  | ok p =>
      obtain ⟨hkeyed, hdel⟩ := keyed_of_run (fun _ => 0) none _ (startUp_eq_started _ _) reloadRun
        p.1 p.2 (by decide +kernel) hrun
      exact ⟨p.1, p.2, rfl, hkeyed, hdel (reloadRun.take 4) (request ["del", "k"]) (ascii "del")
        [ascii "k"] rfl rfl (by decide) (ascii "k") (by simp)⟩

/-- The dump is loaded over the keyspace it was made from. -/
def duplicateRun : List Request :=
  [request ["SET", "k", "v"], request ["SAVE"], request ["LOADDB"]]

/-- The key has two nodes behind the LOADDB, and a GET finds it behind a DEL. -/
theorem not_keyed_of_run :
    (server.run (started (fun _ => 0) none)
        (duplicateRun ++ [request ["DEL", "k"], request ["GET", "k"]])).map Prod.fst =
      .ok [ascii "+OK\r\n", ascii "+OK\r\n", ascii "+OK\r\n", ascii ":1\r\n",
        ascii "$1\r\nv\r\n"] ∧
      ¬ ∀ rs os t, server.run (started (fun _ => 0) none) rs = .ok (os, t) →
        t.HASH_TABLE.Keyed := by
  have hkeys : (server.run (started (fun _ => 0) none) duplicateRun).map
      (fun p => (p.2.HASH_TABLE.buckets (keyHash (ascii "k"))).map fun node => node.key.buf) =
        .ok [ascii "k", ascii "k"] := by decide +kernel
  refine ⟨by decide +kernel, fun h => ?_⟩
  cases hrun : server.run (started (fun _ => 0) none) duplicateRun with
  | error e =>
      rw [hrun] at hkeys
      cases hkeys
  | ok p =>
      have hdistinct := (h duplicateRun p.1 p.2 hrun).distinct (keyHash (ascii "k"))
      rw [hrun, Except.map, Except.ok.injEq] at hkeys
      rw [hkeys] at hdistinct
      exact absurd hdistinct (by decide)

end Exoredis
