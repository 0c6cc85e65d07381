import Exoredis.SortedSet.Atomic
import Exoredis.Server.Garbage

/-!
# Operations on a sane keyspace

On a keyspace whose keys are unique and whose values can all be freed, every operation of the
table ends, and is known by what it writes under its key (`Writes`): a search collects an
expired node, a deletion leaves nothing, the others a new node.
-/

namespace Exoredis

open Effect

/-- What a command leaves alone but for the keyspace. Garbage that can be freed stays so. -/
structure Alike (s t : Server) : Prop where
  commands : t.COMMANDS = s.COMMANDS
  now : t.now = s.now
  dump : t.dump = s.dump
  writable : t.writable = s.writable
  garbage : (∀ val ∈ s.GARBAGE_LIST, Freeable val) → ∀ val ∈ t.GARBAGE_LIST, Freeable val

/-- What the work on a value leaves alone. -/
structure Aside (s t : Server) : Prop extends Alike s t where
  keyspace : t.HASH_TABLE = s.HASH_TABLE

theorem Alike.refl (s : Server) : Alike s s := ⟨rfl, rfl, rfl, rfl, id⟩

theorem Alike.trans {s t u : Server} (h : Alike s t) (h' : Alike t u) : Alike s u where
  commands := h'.commands.trans h.commands
  now := h'.now.trans h.now
  dump := h'.dump.trans h.dump
  writable := h'.writable.trans h.writable
  garbage hs := h'.garbage (h.garbage hs)

theorem Aside.refl (s : Server) : Aside s s := ⟨Alike.refl s, rfl⟩

theorem Aside.trans {s t u : Server} (h : Aside s t) (h' : Aside t u) : Aside s u :=
  ⟨h.toAlike.trans h'.toAlike, h'.keyspace.trans h.keyspace⟩

/-- Between operations: the commands are there, the keys are unique, and whatever is stored
or waits to be reclaimed can be freed. -/
structure Sane (s : Server) : Prop where
  ready : s.Ready
  keyed : s.HASH_TABLE.Keyed
  stored : ∀ k, ∀ node ∈ s.HASH_TABLE.lookup k, Freeable node.value
  garbage : ∀ val ∈ s.GARBAGE_LIST, Freeable val

theorem Aside.sane {s t : Server} (h : Aside s t) (hs : Sane s) : Sane t where
  ready := ⟨h.commands ▸ hs.ready.keyed, h.commands ▸ hs.ready.lookup⟩
  keyed := h.keyspace ▸ hs.keyed
  stored := h.keyspace ▸ hs.stored
  garbage := h.garbage hs.garbage

/-- The node of a key that a client finds. -/
def liveNode (s : Server) (k : List UInt8) : Option (ListNode ExoVal) :=
  (s.HASH_TABLE.lookup k).filter fun node => decide (¬ node.Expired s.now)

theorem liveAt_eq (s : Server) (k : List UInt8) :
    liveAt s k = (liveNode s k).map ListNode.value := rfl

theorem liveNode_missing {s : Server} {k : List UInt8} (h : s.HASH_TABLE.lookup k = none) :
    liveNode s k = none := by
  rw [liveNode, h]
  rfl

theorem liveNode_live {s : Server} {k : List UInt8} {node : ListNode ExoVal}
    (h : s.HASH_TABLE.lookup k = some node) (hlive : ¬ node.Expired s.now) :
    liveNode s k = some node := by
  rw [liveNode, h, Option.filter_some_pos (by simpa using hlive)]

theorem liveNode_expired {s : Server} {k : List UInt8} {node : ListNode ExoVal}
    (h : s.HASH_TABLE.lookup k = some node) (hexp : node.Expired s.now) :
    liveNode s k = none := by
  rw [liveNode, h, Option.filter_some_neg (by simpa using hexp)]

/-- What leaves `found` under the key and no other key changed. -/
structure Leaves (key : List UInt8) (found : Option (ListNode ExoVal)) (s t : Server) : Prop
    extends Alike s t where
  sane : Sane t
  lookup : ∀ k, t.HASH_TABLE.lookup k = if k = key then found else s.HASH_TABLE.lookup k

/-- An operation of the table, which tosses no coins. -/
structure Writes (key : List UInt8) (found : Option (ListNode ExoVal)) (s t : Server) : Prop
    extends Leaves key found s t where
  coins : t.coins = s.coins

section

variable {key : List UInt8} {found found' : Option (ListNode ExoVal)} {s t u : Server}

theorem Leaves.lookup_self (h : Leaves key found s t) : t.HASH_TABLE.lookup key = found := by
  rw [h.lookup, if_pos rfl]

/-- The later one counts. -/
theorem Leaves.trans (h : Leaves key found s t) (h' : Leaves key found' t u) :
    Leaves key found' s u where
  toAlike := h.toAlike.trans h'.toAlike
  sane := h'.sane
  lookup k := by
    rw [h'.lookup]
    split
    · rfl
    · next hk => rw [h.lookup, if_neg hk]

theorem Leaves.aside (h : Leaves key found s t) (h' : Aside t u) : Leaves key found s u where
  toAlike := h.toAlike.trans h'.toAlike
  sane := h'.sane h.sane
  lookup k := by rw [h'.keyspace, h.lookup]

theorem Writes.refl (hs : Sane s) (h : s.HASH_TABLE.lookup key = found) : Writes key found s s where
  toAlike := Alike.refl s
  sane := hs
  lookup k := by
    split
    · next hk => rw [hk, h]
    · rfl
  coins := rfl

end

theorem alike_release {s : Server} (key : ExoString) {val : ExoVal} (hval : Freeable val)
    (ht : HashTable ExoVal) : Alike s { s.release key val with HASH_TABLE := ht } where
  commands := rfl
  now := rfl
  dump := rfl
  writable := rfl
  garbage hs v hv := by
    rcases List.mem_append.1 hv with hv | hv
    · exact hs v hv
    · rw [List.mem_singleton.1 hv]
      exact hval

namespace Sane

variable {s : Server} (h : Sane s)

include h

/-- Another keyspace, on the way to which a node may have been freed. -/
theorem writes {key : List UInt8} {found : Option (ListNode ExoVal)} {t : Server}
    (halike : Alike s t) (hcoins : t.coins = s.coins) (hkeyed : t.HASH_TABLE.Keyed)
    (hfound : ∀ node ∈ found, Freeable node.value)
    (hlookup : ∀ k, t.HASH_TABLE.lookup k = if k = key then found else s.HASH_TABLE.lookup k) :
    Writes key found s t where
  toAlike := halike
  sane :=
    { ready := ⟨halike.commands ▸ h.ready.keyed, halike.commands ▸ h.ready.lookup⟩
      keyed := hkeyed
      stored k node hnode := by
        rw [hlookup] at hnode
        split at hnode
        · exact hfound node hnode
        · exact h.stored k node hnode
      garbage := halike.garbage h.garbage }
  coins := hcoins
  lookup := hlookup

theorem freeable_cursor {key : List UInt8} {c : Cursor ExoVal}
    (hc : s.HASH_TABLE.cursor key = some c) : Freeable c.node.value :=
  h.stored key c.node (HashTable.lookup_of_cursor hc)

variable {key : ExoString} (hkey : key.buf ≠ [])

include hkey

theorem get : ∃ t, onKeyspace (fun ht => ht.get key) s = .ok (liveAt s key.buf, t) ∧
    Writes key.buf (liveNode s key.buf) s t := by
  cases hc : s.HASH_TABLE.cursor key.buf with
  | none =>
      have hlookup := HashTable.cursor_eq_none_iff.1 hc
      have hlive := liveNode_missing hlookup
      refine ⟨s, ?_, Writes.refl h (hlookup.trans hlive.symm)⟩
      rw [liveAt_eq, hlive]
      exact onKeyspace_run (HashTable.get_missing h.keyed.unfreed hkey hc)
  | some c =>
      have hlookup := HashTable.lookup_of_cursor hc
      by_cases hexp : c.node.Expired s.now
      · have hlive := liveNode_expired hlookup hexp
        refine ⟨_, ?_, h.writes (alike_release c.node.key (h.freeable_cursor hc) _) rfl
          (h.keyed.keyed_remove hc) ?_ ?_⟩
        · rw [liveAt_eq, hlive]
          exact onKeyspace_run (HashTable.get_expired h.keyed.unfreed hkey hc hexp)
        · rw [hlive]
          simp
        · rw [hlive]
          exact h.keyed.lookup_remove hc
      · have hlive := liveNode_live hlookup hexp
        refine ⟨s, ?_, Writes.refl h (hlookup.trans hlive.symm)⟩
        rw [liveAt_eq, hlive]
        exact onKeyspace_run (HashTable.get_live h.keyed.unfreed hkey hc hexp)

theorem del : ∃ t, onKeyspace (fun ht => ht.del key) s =
      .ok ((liveNode s key.buf).isSome.toNat, t) ∧ Writes key.buf none s t := by
  cases hc : s.HASH_TABLE.cursor key.buf with
  | none =>
      have hlookup := HashTable.cursor_eq_none_iff.1 hc
      refine ⟨s, ?_, Writes.refl h hlookup⟩
      rw [liveNode_missing hlookup]
      exact onKeyspace_run (HashTable.del_missing h.keyed.unfreed hkey hc)
  | some c =>
      have hlookup := HashTable.lookup_of_cursor hc
      refine ⟨_, ?_, h.writes (alike_release c.node.key (h.freeable_cursor hc) _) rfl
        (h.keyed.keyed_remove hc) (by simp) (h.keyed.lookup_remove hc)⟩
      have hcount : (liveNode s key.buf).isSome.toNat = if c.node.Expired s.now then 0 else 1 := by
        split
        · next hexp => rw [liveNode_expired hlookup hexp]; rfl
        · next hexp => rw [liveNode_live hlookup hexp]; rfl
      rw [hcount]
      exact onKeyspace_run (HashTable.del_found h.keyed.unfreed hkey hc)

variable {val : ExoVal} (hval : Freeable val)

include hval

/-- A node for the key is appended, or takes the place of the one there. -/
theorem put (node : ListNode ExoVal) (hnode : node.freed = false ∧ node.key.buf = key.buf)
    (hvalue : node.value = val) :
    (s.HASH_TABLE.cursor key.buf = none ∧ Writes key.buf (some node) s
      { s with
        HASH_TABLE := s.HASH_TABLE.putBucket key.buf
          (s.HASH_TABLE.buckets (keyHash key.buf) ++ [node]) }) ∨
    ∃ c, s.HASH_TABLE.cursor key.buf = some c ∧ Writes key.buf (some node) s
      { s.release c.node.key c.node.value with
        HASH_TABLE := s.HASH_TABLE.putBucket key.buf (c.before ++ node :: c.after) } := by
  have hfound : ∀ n ∈ some node, Freeable n.value := by
    intro n hn
    cases hn
    exact hvalue ▸ hval
  cases hc : s.HASH_TABLE.cursor key.buf with
  | none =>
      exact .inl ⟨rfl, h.writes ⟨rfl, rfl, rfl, rfl, id⟩ rfl
        (h.keyed.keyed_append hnode.1 hnode.2 hkey hc) hfound
        (HashTable.Keyed.lookup_append hnode.2 hc)⟩
  | some c =>
      exact .inr ⟨c, rfl, h.writes (alike_release c.node.key (h.freeable_cursor hc) _) rfl
        (h.keyed.keyed_replace hnode.1 hnode.2 hc) hfound
        (HashTable.Keyed.lookup_replace hnode.2 hc)⟩

theorem set : ∃ node t, node.value = val ∧
    onKeyspace_ (fun ht => ht.set key val) s = .ok ((), t) ∧ Writes key.buf (some node) s t := by
  cases hc : s.HASH_TABLE.cursor key.buf with
  | none =>
      obtain ⟨-, hwrites⟩ | ⟨c, hc', -⟩ := h.put hkey hval (newNode key val) ⟨rfl, rfl⟩ rfl
      · exact ⟨_, _, rfl,
          onKeyspace_unit_run (HashTable.set_missing h.keyed.unfreed hkey hc val), hwrites⟩
      · rw [hc] at hc'
        cases hc'
  | some c =>
      obtain ⟨hc', -⟩ | ⟨c', hc', hwrites⟩ := h.put hkey hval
        { c.node with key := key, value := val } ⟨h.keyed.unfreed.node hc, rfl⟩ rfl
      · rw [hc] at hc'
        cases hc'
      · obtain rfl : c = c' := Option.some.inj (hc.symm.trans hc')
        exact ⟨_, _, rfl,
          onKeyspace_unit_run (HashTable.set_found h.keyed.unfreed hkey hc val), hwrites⟩

/-- SET, unless it comes upon an expired node: with NX it needs the key to be missing, with
XX present. -/
theorem setWithExpiry {exp_ms : ℕ} {nx xx : Bool}
    (hlive : ∀ node ∈ s.HASH_TABLE.lookup key.buf, ¬ node.Expired s.now) :
    (((nx && (liveNode s key.buf).isSome) || (xx && (liveNode s key.buf).isNone)) = true ∧
        onKeyspace (fun ht => ht.setWithExpiry key val exp_ms nx xx) s = .ok (_Null, s)) ∨
      ((nx && (liveNode s key.buf).isSome) || (xx && (liveNode s key.buf).isNone)) = false ∧
        ∃ node t, node.value = val ∧ node.expiry = HashTable.expiryAt exp_ms s.now ∧
          onKeyspace (fun ht => ht.setWithExpiry key val exp_ms nx xx) s = .ok (_OK, t) ∧
          Writes key.buf (some node) s t := by
  cases hc : s.HASH_TABLE.cursor key.buf with
  | none =>
      have hnone := liveNode_missing (HashTable.cursor_eq_none_iff.1 hc)
      have hrun : ∀ xx, s.HASH_TABLE.setWithExpiry key val exp_ms nx xx s = _ := fun xx =>
        HashTable.setWithExpiry_missing h.keyed.unfreed hkey hc val
      rw [hnone]
      cases xx with
      | true => exact .inl ⟨by simp, onKeyspace_run (hrun true)⟩
      | false =>
          obtain ⟨-, hwrites⟩ | ⟨c, hc', -⟩ := h.put hkey hval
            (HashTable.entry key val exp_ms s.now) ⟨rfl, rfl⟩ rfl
          · exact .inr ⟨by simp, _, _, rfl, rfl, onKeyspace_run (hrun false), hwrites⟩
          · rw [hc] at hc'
            cases hc'
  | some c =>
      have hlookup := HashTable.lookup_of_cursor hc
      have hsome := liveNode_live hlookup (hlive c.node hlookup)
      have hrun : ∀ nx, s.HASH_TABLE.setWithExpiry key val exp_ms nx xx s = _ := fun nx =>
        HashTable.setWithExpiry_live h.keyed.unfreed hkey hc (hlive c.node hlookup) val
      rw [hsome]
      cases nx with
      | true => exact .inl ⟨by simp, onKeyspace_run (hrun true)⟩
      | false =>
          obtain ⟨hc', -⟩ | ⟨c', hc', hwrites⟩ := h.put hkey hval
            { HashTable.entry key val exp_ms s.now with freed := c.node.freed }
            ⟨h.keyed.unfreed.node hc, rfl⟩ rfl
          · rw [hc] at hc'
            cases hc'
          · obtain rfl : c = c' := Option.some.inj (hc.symm.trans hc')
            exact .inr ⟨by simp, _, _, rfl, rfl, onKeyspace_run (hrun false), hwrites⟩

/-- A string of the dump whose key is missing, unless it has expired. -/
theorem setFromLoad {exp_ms : ℕ} (hmissing : s.HASH_TABLE.lookup key.buf = none) :
    (exp_ms < s.now ∧ onKeyspace (fun ht => ht.setFromLoad key val exp_ms) s = .ok (_OK, s)) ∨
      s.now ≤ exp_ms ∧ ∃ node t, node.value = val ∧ node.expiry = exp_ms ∧
        onKeyspace (fun ht => ht.setFromLoad key val exp_ms) s = .ok (_OK, t) ∧
        Writes key.buf (some node) s t := by
  rcases lt_or_ge exp_ms s.now with hexp | hexp
  · exact .inl ⟨hexp, onKeyspace_run (HashTable.setFromLoad_expired hexp val)⟩
  · obtain ⟨-, hwrites⟩ | ⟨c, hc, -⟩ := h.put hkey hval
      { newNode key val with expiry := exp_ms } ⟨rfl, rfl⟩ rfl
    · exact .inr ⟨hexp, _, _, rfl, rfl,
        onKeyspace_run (HashTable.setFromLoad_live h.keyed.unfreed hkey hexp val), hwrites⟩
    · rw [HashTable.lookup_of_cursor hc] at hmissing
      cases hmissing

/-- The value of a node is written over. -/
theorem update {node : ListNode ExoVal} (hnode : s.HASH_TABLE.lookup key.buf = some node) :
    ∃ t, onKeyspace_ (fun ht => ht.updateValue key val) s = .ok ((), t) ∧
      Writes key.buf (some { node with value := val }) s t := by
  obtain ⟨c, hc, rfl⟩ := HashTable.cursor_of_lookup hnode
  refine ⟨_, onKeyspace_unit_run (HashTable.updateValue_found h.keyed.unfreed hkey hc val), ?_⟩
  have hbuf : c.node.key.buf = key.buf := (cursorOf_eq_some hc).2.1
  refine h.writes ⟨rfl, rfl, rfl, rfl, id⟩ rfl (h.keyed.keyed_replace ?_ ?_ hc) ?_
    (HashTable.Keyed.lookup_replace hbuf hc)
  · exact h.keyed.unfreed.node hc
  · exact hbuf
  · simpa using hval

end Sane

end Exoredis
