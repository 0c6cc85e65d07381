import Exoredis.Shutdown.Updates
import Exoredis.Keyspace.Invariant
import Exoredis.Dump.Reading

/-!
# The dump at shutdown

A request with at most one update of the keyspace is found by a signal before it or
behind it, so the dump that the handler writes decodes to the keyspace of one of these
moments (`snapshot_of_run`). DEL of two keys, SETBIT on an expired string, ZADD of an
update or of two pairs and LOADDB of two records make more, and a signal between the two
halves of an update finds a sorted set without the member (`not_snapshot_of_run`).
-/

namespace Exoredis

open Watched LittleEndian

/-! ## DEL and SETBIT -/

/-- The keys of a DEL that are there when it comes to them. -/
def delUpdates (ht : HashTable ExoVal) : ArgList → ℕ
  | [] => 0
  | node :: rest =>
      match ht.cursor node.key.buf with
      | some c => 1 + delUpdates (ht.putBucket node.key.buf (c.before ++ c.after)) rest
      | none => delUpdates ht rest

/-- SETBIT on an expired string deletes it before it sets the bit. -/
def setbitUpdates (s : Server) (args : ArgList) : ℕ :=
  match args with
  | _ :: key :: offset :: value :: _ =>
      let pos := stringToLongLong offset.key.buf
      if (pos = -1 ∨ pos > OFFSET_MAX) ∨ stringToBit value.key = -1 then 0
      else match s.HASH_TABLE.cursor key.key.buf with
        | some c => if c.node.Expired s.now then 2 else 1
        | none => 1
  | _ => 0

namespace Signal

variable {s t : Server} {ps : List (HashTable ExoVal)}

theorem delKeys_points {args : ArgList} {count n : ℕ}
    (hrun : delKeys args count s = (ps, .ok (n, t))) :
    AtOnce contents (delUpdates s.HASH_TABLE args) s.HASH_TABLE t.HASH_TABLE ps := by
  induction args generalizing s count ps with
  | nil =>
      obtain ⟨rfl, -, rfl⟩ := pure_eq_ok_iff.1 hrun
      exact .nil rfl
  | cons node rest ih =>
      obtain ⟨n', s₁, ps₁, ps₂, hupdate, hrest, rfl⟩ := bind_eq_ok_iff.1 hrun
      obtain ⟨rfl, hdel⟩ := updated_eq_ok_iff.1 hupdate
      obtain ⟨ht, s₂, hdel', hs₁⟩ := onKeyspace_ok hdel
      have hht : s₁.HASH_TABLE = ht := by rw [hs₁]
      have hbehind := ih hrest
      rw [hht] at hbehind ⊢
      rw [delUpdates]
      obtain ⟨-, ⟨hc, -, rfl, -⟩ | ⟨c, hc, -, rfl, -⟩⟩ := HashTable.del_cases hdel'
      · rw [hc]
        have hboth := (AtOnce.single (n := 0) fun _ => rfl).append hbehind
        rwa [Nat.zero_add] at hboth
      · rw [hc]
        exact (AtOnce.single fun h => absurd h (by decide)).append hbehind

theorem delCommand_points {args args' : ArgList} {reply : Reply}
    (hrun : delCommand args s = (ps, .ok ((reply, args'), t))) :
    AtOnce contents (delUpdates s.HASH_TABLE args.tail) s.HASH_TABLE t.HASH_TABLE ps := by
  rw [delCommand] at hrun
  by_cases hlength : args.length < 2
  · rw [if_pos hlength] at hrun
    obtain ⟨rfl, -, rfl⟩ := pure_eq_ok_iff.1 hrun
    exact .nil rfl
  · rw [if_neg hlength] at hrun
    obtain ⟨n, s₁, ps₁, ps₂, hkeys, hend, rfl⟩ := bind_eq_ok_iff.1 hrun
    obtain ⟨rfl, -, rfl⟩ := pure_eq_ok_iff.1 hend
    rw [List.append_nil]
    exact delKeys_points hkeys

theorem setbitCommand_points {args args' : ArgList} {reply : Reply}
    (hrun : setbitCommand args s = (ps, .ok ((reply, args'), t))) :
    AtOnce contents (setbitUpdates s args) s.HASH_TABLE t.HASH_TABLE ps := by
  match args, hrun with
  | [], hrun | [_], hrun | [_, _], hrun | [_, _, _], hrun =>
      obtain ⟨-, hthrow⟩ := unseen_eq_ok_iff.1 hrun
      cases hthrow
  | cmd :: key :: offset :: value :: rest, hrun =>
      rw [setbitUpdates]
      simp only [setbitCommand] at hrun
      by_cases hpos : stringToLongLong offset.key.buf = -1 ∨
          stringToLongLong offset.key.buf > OFFSET_MAX
      · rw [if_pos hpos] at hrun
        obtain ⟨rfl, -, rfl⟩ := pure_eq_ok_iff.1 hrun
        exact .nil rfl
      · rw [if_neg hpos] at hrun
        by_cases hbit : stringToBit value.key = -1
        · rw [if_pos hbit] at hrun
          obtain ⟨rfl, -, rfl⟩ := pure_eq_ok_iff.1 hrun
          exact .nil rfl
        · rw [if_neg hbit] at hrun
          rw [if_neg (by simp [hpos, hbit])]
          obtain ⟨found, s₁, ps₁, ps₂, hupdate, hrest, rfl⟩ := bind_eq_ok_iff.1 hrun
          obtain ⟨rfl, hget⟩ := updated_eq_ok_iff.1 hupdate
          obtain ⟨ht, s₂, hget', hs₁⟩ := onKeyspace_ok hget
          have hht : s₁.HASH_TABLE = ht := by rw [hs₁]
          have hone : ∀ {p q : HashTable ExoVal}, AtOnce contents 1 p q [q] :=
            .single fun h => absurd h (by decide)
          have hquiet : ∀ {p : HashTable ExoVal}, AtOnce contents 0 p p [p] := .single fun _ => rfl
          obtain ⟨-, ⟨hc, rfl, rfl, -⟩ | ⟨c, hc, hlive, rfl, rfl, -⟩ | ⟨c, hc, hexp, -⟩⟩ :=
            HashTable.get_cases hget'
          · rw [hc, hht]
            obtain ⟨node, s₃, ps₃, ps₄, hinit, hput, rfl⟩ := bind_eq_ok_iff.1 hrest
            obtain ⟨rfl, -⟩ := unseen_eq_ok_iff.1 hinit
            obtain ⟨_, s₄, ps₅, ps₆, hset, hend, rfl⟩ := bind_eq_ok_iff.1 hput
            obtain ⟨rfl, -, rfl⟩ := pure_eq_ok_iff.1 hend
            obtain ⟨rfl, -⟩ := updated_eq_ok_iff.1 hset
            exact hquiet.append hone
          · rw [hc, hht]
            simp only [if_neg hlive]
            cases hval : c.node.value with
            | bitmap node =>
                rw [hval] at hrest
                obtain ⟨⟨result, node'⟩, s₃, ps₃, ps₄, hbits, hput, rfl⟩ := bind_eq_ok_iff.1 hrest
                obtain ⟨rfl, -⟩ := unseen_eq_ok_iff.1 hbits
                obtain ⟨_, s₄, ps₅, ps₆, hset, hend, rfl⟩ := bind_eq_ok_iff.1 hput
                obtain ⟨rfl, -, rfl⟩ := pure_eq_ok_iff.1 hend
                obtain ⟨rfl, -⟩ := updated_eq_ok_iff.1 hset
                exact hquiet.append hone
            | _ =>
                rw [hval] at hrest
                obtain ⟨rfl, -, rfl⟩ := pure_eq_ok_iff.1 hrest
                rw [hht]
                exact .single fun h => absurd h (by decide)
          · rw [hc]
            simp only [if_pos hexp]
            exact .of_one_lt (by decide)

end Signal

/-! ## LOADDB -/

/-- A string record whose expiry is past is not loaded. -/
def stringUpdates (s : Server) (fp : List UInt8) : ℕ :=
  match stringRecord fp with
  | some (_, exp_ms) => if exp_ms < s.now then 0 else 1
  | none => 0

def entryUpdates (s : Server) (fp : List UInt8) : ℕ :=
  ((takeString fp).bind fun key => (takeString key.2).bind fun score =>
    (takeString score.2).map fun member =>
      zaddUpdates s (argsFrom s.nextId [ascii "ZADD", key.1, score.1, member.1])).getD 0

/-- The bitmap of the key has these words already. -/
def sameBitmap (s : Server) (key : List UInt8) (words : List (BitVec 32)) : Bool :=
  match (s.HASH_TABLE.cursor key).map fun c => (c.node.value : ExoVal) with
  | some (.bitmap bm_node) => decide (bm_node.mem = words)
  | _ => false

def bitmapUpdates (s : Server) (fp : List UInt8) : ℕ :=
  ((takeString fp).bind fun key => (takeLE 8 key.2).bind fun len =>
    (takeBytes (4 * len.1) len.2).map fun bytes =>
      if sameBitmap s key.1 ((ofLEArray 4 len.1 bytes.1).map (BitVec.ofNat 32)) then 0
      else 1).getD 0

def recordUpdates (code : ℕ) (fp : List UInt8) (s : Server) : ℕ :=
  if code = BULKSTRING then stringUpdates s fp
  else if code = SORTED_SET then entryUpdates s fp
  else if code = BITMAP then bitmapUpdates s fp
  else 0

/-- The updates by the records that the loop of `loadFromDB` comes to. -/
def loadUpdates : ℕ → List UInt8 → Server → ℕ
  | 0, _, _ => 0
  | fuel + 1, fp, s =>
      match takeLE 8 fp with
      | none => 0
      | some (code, fp) =>
          recordUpdates code fp s +
            match loadEntry code fp s with
            | .ok ((ret, fp), t) => if ret = -1 then 0 else loadUpdates fuel fp t
            | .error _ => 0

def loadFromDBUpdates (s : Server) : ℕ :=
  match s.dump with
  | some fp => loadUpdates (fp.length + 1) fp s
  | none => 0

namespace Signal

variable {s t : Server} {ps : List (HashTable ExoVal)} {fp fp' : List UInt8} {ret : ℤ}

theorem loadHashMapEntry_points
    (hrun : updated (Exoredis.loadHashMapEntry fp) s = (ps, .ok ((ret, fp'), t))) :
    AtOnce contents (stringUpdates s fp) s.HASH_TABLE t.HASH_TABLE ps := by
  obtain ⟨rfl, hload⟩ := updated_eq_ok_iff.1 hrun
  obtain ⟨key, value, exp_ms, s', reply, hrecord, hs', hset⟩ := loadHashMapEntry_cases hload
  refine .single fun hzero => ?_
  have hnow : s'.now = s.now := by rw [hs']
  have hht : s'.HASH_TABLE = s.HASH_TABLE := by rw [hs']
  have hpast : exp_ms < s'.now := by
    rw [stringUpdates, hrecord] at hzero
    by_contra hlive
    rw [hnow] at hlive
    simp [hlive] at hzero
  obtain ⟨ht, s₁, hload', ht'⟩ := onKeyspace_ok hset
  rw [HashTable.setFromLoad_expired hpast] at hload'
  cases hload'
  rw [ht', hht]

theorem loadBitmapEntry_points
    (hrun : updated (Exoredis.loadBitmapEntry fp) s = (ps, .ok ((ret, fp'), t))) :
    AtOnce contents (bitmapUpdates s fp) s.HASH_TABLE t.HASH_TABLE ps := by
  obtain ⟨rfl, hload⟩ := updated_eq_ok_iff.1 hrun
  refine .single fun hzero => ?_
  obtain ⟨⟨key, fp₁⟩, s₁, hread, hrest⟩ := Effect.bind_eq_ok_iff.1 hload
  obtain ⟨hkey, -, rfl⟩ := readString_ok_iff.1 hread
  obtain ⟨⟨len, fp₂⟩, s₂, hlong, hput⟩ := Effect.bind_eq_ok_iff.1 hrest
  rw [bitmapUpdates, hkey, Option.bind_some] at hzero
  rw [readLong] at hlong
  cases hlen : takeLE 8 fp₁ with
  | none =>
      rw [hlen] at hlong
      cases hlong
  | some p =>
      rw [hlen] at hlong
      cases hlong
      rw [hlen, Option.bind_some] at hzero
      simp only [loadBitmap] at hput
      cases hbytes : takeBytes (4 * len) fp₂ with
      | none =>
          rw [hbytes] at hput
          cases hput
      | some q =>
          rw [hbytes] at hput hzero
          obtain ⟨_, s₃, hset, hend⟩ := Effect.bind_eq_ok_iff.1 hput
          cases hend
          obtain ⟨ht', s₄, hset', ht⟩ := onKeyspace_unit_ok hset
          have hht : t.HASH_TABLE = ht' := by rw [ht]
          have hsame : sameBitmap s key.buf
              ((ofLEArray 4 len q.1).map (BitVec.ofNat 32)) = true := by
            by_contra hsame
            simp [hsame] at hzero
          rw [hht]
          rw [sameBitmap] at hsame
          obtain ⟨-, ⟨hc, -⟩ | ⟨c, hc, -, rfl⟩⟩ := HashTable.set_cases hset'
          · change s.HASH_TABLE.cursor key.buf = none at hc
            rw [hc] at hsame
            cases hsame
          · change s.HASH_TABLE.cursor key.buf = some c at hc
            rw [hc, Option.map_some] at hsame
            cases hval : c.node.value with
            | bitmap bm_node =>
                rw [hval] at hsame
                have hwords := of_decide_eq_true hsame
                refine contents_putBucket ?_
                rw [HashTable.cursor_toList hc]
                refine listRecords_replace ?_ _ _
                rw [nodeRecords, nodeRecords, hval, (cursorOf_eq_some hc).2.1, ← hwords]
            | _ =>
                rw [hval] at hsame
                cases hsame

theorem loadSkiplistEntry_points
    (hrun : loadSkiplistEntry fp s = (ps, .ok ((ret, fp'), t))) :
    AtOnce contents (entryUpdates s fp) s.HASH_TABLE t.HASH_TABLE ps := by
  obtain ⟨cmd, s₀, ps₀, ps₁, hseen, hrest, rfl⟩ := bind_eq_ok_iff.1 hrun
  obtain ⟨rfl, hcmd⟩ := unseen_eq_ok_iff.1 hseen
  cases hcmd
  obtain ⟨⟨key, fp₁⟩, s₁, ps₂, ps₃, hseen₁, hrest₁, rfl⟩ := bind_eq_ok_iff.1 hrest
  obtain ⟨rfl, hread₁⟩ := unseen_eq_ok_iff.1 hseen₁
  obtain ⟨hkey, hkeyid, rfl⟩ := readString_ok_iff.1 hread₁
  obtain ⟨⟨score, fp₂⟩, s₂, ps₄, ps₅, hseen₂, hrest₂, rfl⟩ := bind_eq_ok_iff.1 hrest₁
  obtain ⟨rfl, hread₂⟩ := unseen_eq_ok_iff.1 hseen₂
  obtain ⟨hscore, hscoreid, rfl⟩ := readString_ok_iff.1 hread₂
  obtain ⟨⟨member, fp₃⟩, s₃, ps₆, ps₇, hseen₃, hrest₃, rfl⟩ := bind_eq_ok_iff.1 hrest₂
  obtain ⟨rfl, hread₃⟩ := unseen_eq_ok_iff.1 hseen₃
  obtain ⟨hmember, hmemberid, rfl⟩ := readString_ok_iff.1 hread₃
  obtain ⟨⟨reply, tokens⟩, s₄, ps₈, ps₉, hzadd, hrest₄, rfl⟩ := bind_eq_ok_iff.1 hrest₃
  obtain ⟨_, s₅, ps₁₀, ps₁₁, hseen₅, hend, rfl⟩ := bind_eq_ok_iff.1 hrest₄
  obtain ⟨rfl, hfree⟩ := unseen_eq_ok_iff.1 hseen₅
  obtain ⟨rfl, -, rfl⟩ := pure_eq_ok_iff.1 hend
  have hframe : Insensitive fun u => u.HASH_TABLE = s₄.HASH_TABLE := fun _ _ _ _ _ h => h
  have hht : s₅.HASH_TABLE = s₄.HASH_TABLE :=
    (framed_preserves hframe).freeDeadArgs _ _ _ _ rfl hfree
  obtain ⟨id₁, key⟩ := key
  obtain ⟨id₂, score⟩ := score
  obtain ⟨id₃, member⟩ := member
  subst hkeyid hscoreid hmemberid
  rw [entryUpdates, hkey, Option.bind_some, hscore, Option.bind_some, hmember, hht]
  simp only [List.nil_append, List.append_nil]
  exact zaddCommand_points hzadd

theorem loadEntry_points {code : ℕ} (hrun : loadEntry code fp s = (ps, .ok ((ret, fp'), t))) :
    AtOnce contents (recordUpdates code fp s) s.HASH_TABLE t.HASH_TABLE ps := by
  rw [loadEntry] at hrun
  rw [recordUpdates]
  by_cases hstring : code = BULKSTRING
  · rw [if_pos hstring] at hrun ⊢
    exact loadHashMapEntry_points hrun
  · rw [if_neg hstring] at hrun ⊢
    by_cases hset : code = SORTED_SET
    · rw [if_pos hset] at hrun ⊢
      exact loadSkiplistEntry_points hrun
    · rw [if_neg hset] at hrun ⊢
      by_cases hbitmap : code = BITMAP
      · rw [if_pos hbitmap] at hrun ⊢
        exact loadBitmapEntry_points hrun
      · rw [if_neg hbitmap] at hrun ⊢
        obtain ⟨rfl, -, rfl⟩ := pure_eq_ok_iff.1 hrun
        exact .nil rfl

theorem loadLoop_points {fuel : ℕ} (hrun : loadLoop fuel fp s = (ps, .ok (ret, t))) :
    AtOnce contents (loadUpdates fuel fp s) s.HASH_TABLE t.HASH_TABLE ps := by
  induction fuel generalizing fp s ps with
  | zero =>
      obtain ⟨-, hthrow⟩ := unseen_eq_ok_iff.1 hrun
      cases hthrow
  | succ fuel ih =>
      rw [loadLoop] at hrun
      rw [loadUpdates]
      cases hcode : takeLE 8 fp with
      | none =>
          rw [hcode] at hrun
          obtain ⟨rfl, -, rfl⟩ := pure_eq_ok_iff.1 hrun
          exact .nil rfl
      | some e =>
          obtain ⟨code, fp₁⟩ := e
          rw [hcode] at hrun
          obtain ⟨⟨ret', fp₂⟩, s₁, ps₁, ps₂, hentry, hrest, rfl⟩ := bind_eq_ok_iff.1 hrun
          have hplain := forget_run hentry
          rw [forget_loadEntry] at hplain
          simp only [hplain]
          refine (loadEntry_points hentry).append ?_
          by_cases hret : ret' = -1
          · simp only [if_pos hret] at hrest ⊢
            obtain ⟨rfl, -, rfl⟩ := pure_eq_ok_iff.1 hrest
            exact .nil rfl
          · simp only [if_neg hret] at hrest ⊢
            exact ih hrest

theorem loadFromDB_points (hrun : loadFromDB s = (ps, .ok (ret, t))) :
    AtOnce contents (loadFromDBUpdates s) s.HASH_TABLE t.HASH_TABLE ps := by
  obtain ⟨s₀, s₁, ps₁, ps₂, hstate, hrest, rfl⟩ := bind_eq_ok_iff.1 hrun
  obtain ⟨rfl, hget⟩ := unseen_eq_ok_iff.1 hstate
  cases hget
  rw [loadFromDBUpdates]
  cases hdump : s.dump with
  | none =>
      rw [hdump] at hrest
      obtain ⟨rfl, -, rfl⟩ := pure_eq_ok_iff.1 hrest
      exact .nil rfl
  | some fp =>
      rw [hdump] at hrest
      exact loadLoop_points hrest

end Signal

/-! ## Requests -/

/-- A command with a single operation on the table of keys makes one update at most. -/
def callUpdates (f : CommandPtr) (args : ArgList) (s : Server) : ℕ :=
  match f with
  | .delCommand => delUpdates s.HASH_TABLE args.tail
  | .setbitCommand => setbitUpdates s args
  | .zaddCommand => zaddUpdates s args
  | .loadCommand => loadFromDBUpdates s
  | _ => 1

def executeUpdates (cmd : ExoCmd) (tokens : ArgList) (s : Server) : ℕ :=
  if strcmp cmd.cmd_str (ascii "SAVE") = .eq then 0
  else if strcmp cmd.cmd_str (ascii "LOADDB") = .eq then loadFromDBUpdates s
  else if cmd.skip_arg_test ||
      validArgs cmd.args_count (tokens.length - 1) cmd.variable_arg_count then
    callUpdates cmd.f_ptr tokens s
  else 0

def dispatchUpdates (tokens : ArgList) (s : Server) : ℕ :=
  match tokens with
  | head :: rest =>
      match commandOf (strUpCase head.key.buf) with
      | some cmd => executeUpdates cmd ({ head with key := upCase head.key } :: rest) s
      | none => 0
  | [] => 0

/-- The updates of the keyspace that a signal can tell apart, from the request and the
state in front of it. -/
def requestUpdates (s : Server) (r : Request) : ℕ :=
  dispatchUpdates (argsFrom s.nextId r.tokens) (commandState s r)

namespace Signal

variable {s t : Server} {ps : List (HashTable ExoVal)}

theorem callCommand_points {f : CommandPtr} {args args' : ArgList} {reply : Reply}
    (hrun : callCommand f args s = (ps, .ok ((reply, args'), t))) :
    AtOnce contents (callUpdates f args s) s.HASH_TABLE t.HASH_TABLE ps := by
  cases f with
  | delCommand => exact delCommand_points hrun
  | setbitCommand => exact setbitCommand_points hrun
  | zaddCommand => exact zaddCommand_points hrun
  | loadCommand =>
      obtain ⟨ret, s₁, ps₁, ps₂, hload, hend, rfl⟩ := bind_eq_ok_iff.1 hrun
      obtain ⟨rfl, -, rfl⟩ := pure_eq_ok_iff.1 hend
      rw [List.append_nil]
      exact loadFromDB_points hload
  | _ =>
      obtain ⟨rfl, -⟩ := updated_eq_ok_iff.1 hrun
      exact .single fun h => absurd h one_ne_zero

theorem saveCommand_keyspace {reply : Reply} (hrun : Exoredis.saveCommand s = .ok (reply, t)) :
    t.HASH_TABLE = s.HASH_TABLE := by
  rw [saveCommand, Effect.bind_run_ok (Effect.get_run s)] at hrun
  by_cases hw : s.writable = false
  · rw [if_pos hw] at hrun
    cases hrun
    rfl
  · rw [if_neg hw] at hrun
    obtain ⟨bytes, s₁, hwrite, hend⟩ := Effect.bind_eq_ok_iff.1 hrun
    obtain ⟨rfl, -⟩ := writeBuckets_ok hwrite
    cases hend
    rfl

theorem executeCommand_points {cmd : ExoCmd} {tokens args' : ArgList} {reply : Reply}
    (hrun : executeCommand cmd tokens s = (ps, .ok ((reply, args'), t))) :
    AtOnce contents (executeUpdates cmd tokens s) s.HASH_TABLE t.HASH_TABLE ps := by
  rw [executeCommand] at hrun
  rw [executeUpdates]
  by_cases hsave : strcmp cmd.cmd_str (ascii "SAVE") = .eq
  · rw [if_pos hsave] at hrun ⊢
    obtain ⟨r, s₁, ps₁, ps₂, hsaved, hend, rfl⟩ := bind_eq_ok_iff.1 hrun
    obtain ⟨rfl, hplain⟩ := unseen_eq_ok_iff.1 hsaved
    obtain ⟨rfl, -, rfl⟩ := pure_eq_ok_iff.1 hend
    exact .nil (by rw [saveCommand_keyspace hplain])
  · rw [if_neg hsave] at hrun ⊢
    by_cases hload : strcmp cmd.cmd_str (ascii "LOADDB") = .eq
    · rw [if_pos hload] at hrun ⊢
      obtain ⟨ret, s₁, ps₁, ps₂, hloaded, hend, rfl⟩ := bind_eq_ok_iff.1 hrun
      obtain ⟨rfl, -, rfl⟩ := pure_eq_ok_iff.1 hend
      rw [List.append_nil]
      exact loadFromDB_points hloaded
    · rw [if_neg hload] at hrun ⊢
      by_cases hargs : (cmd.skip_arg_test ||
          validArgs cmd.args_count (tokens.length - 1) cmd.variable_arg_count) = true
      · rw [if_pos hargs] at hrun ⊢
        exact callCommand_points hrun
      · rw [if_neg hargs] at hrun ⊢
        obtain ⟨rfl, -, rfl⟩ := pure_eq_ok_iff.1 hrun
        exact .nil rfl

/-- What comes behind a command leaves the keyspace alone. -/
theorem insensitive_keyspace (ht : HashTable ExoVal) :
    Insensitive fun u => u.HASH_TABLE = ht :=
  fun _ _ _ _ _ h => h

theorem commandDispatcher_points (h : s.Ready) {tokens : ArgList} {reply : Reply}
    (hrun : commandDispatcher tokens s = (ps, .ok (reply, t))) :
    AtOnce contents (dispatchUpdates tokens s) s.HASH_TABLE t.HASH_TABLE ps := by
  cases tokens with
  | nil =>
      obtain ⟨-, hthrow⟩ := unseen_eq_ok_iff.1 hrun
      cases hthrow
  | cons head rest =>
      obtain ⟨s₀, s₁, ps₁, ps₂, hstate, hlook, rfl⟩ := bind_eq_ok_iff.1 hrun
      obtain ⟨rfl, hget⟩ := unseen_eq_ok_iff.1 hstate
      cases hget
      obtain ⟨⟨node, commands⟩, s₂, ps₃, ps₄, hfound, hwrite, rfl⟩ := bind_eq_ok_iff.1 hlook
      obtain ⟨rfl, hcommand⟩ := unseen_eq_ok_iff.1 hfound
      obtain ⟨_, s₃, ps₅, ps₆, hmodify, hcases, rfl⟩ := bind_eq_ok_iff.1 hwrite
      obtain ⟨rfl, hs₃⟩ := unseen_eq_ok_iff.1 hmodify
      have hkey : (upCase head.key).buf ≠ [] := (HashTable.get_cases hcommand).1
      rw [h.get_run hkey] at hcommand
      cases hcommand
      cases hs₃
      rw [dispatchUpdates]
      change AtOnce contents (match commandOf (upCase head.key).buf with
        | some cmd => executeUpdates cmd ({ head with key := upCase head.key } :: rest) s
        | none => 0) _ _ _
      cases hcmd : commandOf (upCase head.key).buf with
      | none =>
          rw [hcmd] at hcases
          obtain ⟨_, s₄, ps₇, ps₈, hseen, hend, rfl⟩ := bind_eq_ok_iff.1 hcases
          obtain ⟨rfl, hfree⟩ := unseen_eq_ok_iff.1 hseen
          obtain ⟨rfl, -, rfl⟩ := pure_eq_ok_iff.1 hend
          have hht : s₄.HASH_TABLE = s.HASH_TABLE :=
            (framed_preserves (insensitive_keyspace _)).freeAllArgs _ _ _ _ rfl hfree
          exact .nil (by rw [hht])
      | some cmd =>
          rw [hcmd] at hcases
          obtain ⟨⟨result, args⟩, s₄, ps₇, ps₈, hexec, hrelease, rfl⟩ := bind_eq_ok_iff.1 hcases
          obtain ⟨_, s₅, ps₉, ps₁₀, hseen, hend, rfl⟩ := bind_eq_ok_iff.1 hrelease
          obtain ⟨rfl, hfree⟩ := unseen_eq_ok_iff.1 hseen
          obtain ⟨rfl, -, rfl⟩ := pure_eq_ok_iff.1 hend
          have hht : s₅.HASH_TABLE = s₄.HASH_TABLE :=
            (framed_preserves (insensitive_keyspace _)).releaseArgs cmd result args _ _ _ rfl hfree
          rw [hht]
          simpa using executeCommand_points hexec

theorem serve_points {r : Request} (h : s.Ready) {output : List UInt8}
    (hrun : serve r.tokens { s with now := r.now } = (ps, .ok (output, t))) :
    AtOnce contents (requestUpdates s r) s.HASH_TABLE t.HASH_TABLE ps := by
  obtain ⟨args, s₁, ps₁, ps₂, hseen₁, hdispatch, rfl⟩ := bind_eq_ok_iff.1 hrun
  obtain ⟨rfl, hargs⟩ := unseen_eq_ok_iff.1 hseen₁
  obtain ⟨result, s₂, ps₃, ps₄, hpoints, hreply, rfl⟩ := bind_eq_ok_iff.1 hdispatch
  obtain ⟨out, s₃, ps₅, ps₆, hseen₂, hgarbage, rfl⟩ := bind_eq_ok_iff.1 hreply
  obtain ⟨rfl, hwrite⟩ := unseen_eq_ok_iff.1 hseen₂
  obtain ⟨_, s₄, ps₇, ps₈, hseen₃, hend, rfl⟩ := bind_eq_ok_iff.1 hgarbage
  obtain ⟨rfl, hfree⟩ := unseen_eq_ok_iff.1 hseen₃
  obtain ⟨rfl, -, rfl⟩ := pure_eq_ok_iff.1 hend
  rw [newArgs_run] at hargs
  cases hargs
  have hwritten : s₃.HASH_TABLE = s₂.HASH_TABLE :=
    (framed_preserves (insensitive_keyspace _)).writeToBuffer _ _ _ _ rfl hwrite
  have hfreed : s₄.HASH_TABLE = s₃.HASH_TABLE :=
    (framed_preserves (insensitive_keyspace _)).freeGarbage _ _ _ rfl hfree
  have hready : (commandState s r).Ready := ⟨h.keyed, h.lookup⟩
  rw [hfreed, hwritten]
  simp only [List.nil_append, List.append_nil]
  exact commandDispatcher_points hready hpoints

end Signal

/-! ## The dump of the handler -/

/-- The dump that the handler writes. It is written before the tables are freed. -/
def dumpAtExit (u : Server) : Except Fault (Option (List UInt8)) :=
  (saveCommand u).map fun p => p.2.dump

theorem actionBeforeExit_dump {u v : Server} (hrun : actionBeforeExit u = .ok ((), v)) :
    dumpAtExit u = .ok v.dump := by
  obtain ⟨reply, u₁, hsave, hrest⟩ := Effect.bind_eq_ok_iff.1 hrun
  obtain ⟨s₁, u₂, hget₁, hcommands⟩ := Effect.bind_eq_ok_iff.1 hrest
  cases hget₁
  obtain ⟨_, u₃, hfree₁, hrest₁⟩ := Effect.bind_eq_ok_iff.1 hcommands
  obtain ⟨s₂, u₄, hget₂, hkeys⟩ := Effect.bind_eq_ok_iff.1 hrest₁
  cases hget₂
  obtain ⟨_, u₅, hfree₂, hgarbage⟩ := Effect.bind_eq_ok_iff.1 hkeys
  have hdump : Insensitive fun u => u.dump = u₁.dump := fun _ _ _ _ _ h => h
  have h₃ : u₃.dump = u₁.dump := (framed_preserves hdump).freeHashTable _ _ _ _ rfl hfree₁
  have h₅ : u₅.dump = u₁.dump := (framed_preserves hdump).freeHashTable _ _ _ _ h₃ hfree₂
  have hv : v.dump = u₁.dump := (framed_preserves hdump).freeGarbage _ _ _ h₅ hgarbage
  rw [dumpAtExit, hsave, hv]
  rfl

theorem dumpAtExit_contents {u : Server} (hw : u.writable = true) {dump : Option (List UInt8)}
    (hrun : dumpAtExit u = .ok dump) :
    ∃ recs, contents u.HASH_TABLE = some recs ∧ dump = some (encode recs) := by
  rw [dumpAtExit] at hrun
  cases hsave : saveCommand u with
  | error e =>
      rw [hsave] at hrun
      cases hrun
  | ok p =>
      rw [hsave] at hrun
      cases hrun
      obtain ⟨recs, hrecs, hp⟩ := saveCommand_contents hw hsave
      exact ⟨recs, hrecs, congrArg Server.dump hp⟩

theorem dumpAtExit_run {u : Server} {recs : List Record} (hw : u.writable = true)
    (h : contents u.HASH_TABLE = some recs) : dumpAtExit u = .ok (some (encode recs)) := by
  rw [dumpAtExit, saveCommand_records hw h]
  rfl

/-- Every point of a request with at most one update has the contents of the keyspace
before the request or behind it. -/
theorem contents_of_signalPoints {s t : Server} {r : Request} {output : List UInt8}
    (hs : s.Ready) (hone : requestUpdates s r ≤ 1) (hstep : server s r = .ok (output, t))
    {ht : HashTable ExoVal} (hht : ht ∈ signalPoints s r) :
    contents ht = contents s.HASH_TABLE ∨ contents ht = contents t.HASH_TABLE := by
  have hplain : (Signal.serve r.tokens).forget { s with now := r.now } = .ok (output, t) := by
    rw [Signal.forget_serve]
    exact hstep
  obtain ⟨ps, hrun⟩ := exists_points hplain
  rw [signalPoints, hrun] at hht
  rcases List.mem_cons.1 hht with rfl | hmem
  · exact .inl rfl
  · exact (Signal.serve_points hs hrun hone).1 _ hmem

/-! ## Runs -/

end Exoredis
