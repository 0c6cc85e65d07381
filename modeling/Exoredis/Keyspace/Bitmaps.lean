import Exoredis.Keyspace.Dispatch

/-!
# Keyspaces of bitmaps

Two keyspaces that hold the same bitmaps under the same keys, bucket by bucket, are
told apart by no sequence of GET, DEL, GETBIT, ZCARD, ZCOUNT and ZRANGE requests
(`SameBitmaps.replies`). The identities of the strings may differ.
-/

namespace Exoredis

open Effect

/-- Two nodes with the same key and the same bitmap. -/
structure SameNode (a b : ListNode ExoVal) : Prop where
  key : a.key.buf = b.key.buf
  unfreed : a.freed = false ∧ b.freed = false
  value : ∃ bm_node, a.value = .bitmap bm_node ∧ b.value = .bitmap bm_node

/-- Two servers between requests or within one, with the same bitmaps. -/
structure SameBitmaps (s t : Server) : Prop where
  ready : s.Ready ∧ t.Ready
  flat : (∀ val ∈ s.GARBAGE_LIST, val.Flat) ∧ ∀ val ∈ t.GARBAGE_LIST, val.Flat
  buckets : ∀ i, List.Forall₂ SameNode (s.HASH_TABLE.buckets i) (t.HASH_TABLE.buckets i)

theorem cursorOf_forall₂ {V : Type} {R : ListNode V → ListNode V → Prop}
    (hR : ∀ a b, R a b → a.key.buf = b.key.buf) {l l' : List (ListNode V)}
    (h : List.Forall₂ R l l') (key : List UInt8) :
    (cursorOf key l = none ∧ cursorOf key l' = none) ∨
      ∃ c c', cursorOf key l = some c ∧ cursorOf key l' = some c' ∧
        List.Forall₂ R c.before c'.before ∧ R c.node c'.node ∧
        List.Forall₂ R c.after c'.after := by
  induction h with
  | nil => exact .inl ⟨rfl, rfl⟩
  | @cons a b l l' hab h ih =>
      rw [cursorOf, cursorOf, ← hR a b hab]
      by_cases ha : a.key.buf = key
      · rw [if_pos ha, if_pos ha]
        exact .inr ⟨_, _, rfl, rfl, .nil, hab, h⟩
      · rw [if_neg ha, if_neg ha]
        rcases ih with ⟨hl, hl'⟩ | ⟨c, c', hl, hl', hbefore, hnode, hafter⟩
        · rw [hl, hl']
          exact .inl ⟨rfl, rfl⟩
        · rw [hl, hl']
          exact .inr ⟨_, _, rfl, rfl, .cons hab hbefore, hnode, hafter⟩

theorem unfreed_of_forall₂ {ht ht' : HashTable ExoVal}
    (h : ∀ i, List.Forall₂ SameNode (ht.buckets i) (ht'.buckets i)) :
    ht.Unfreed ∧ ht'.Unfreed := by
  refine ⟨fun i node hnode => ?_, fun i node hnode => ?_⟩
  · obtain ⟨j, hj, rfl⟩ := List.mem_iff_getElem.1 hnode
    have hj' := (h i).length_eq ▸ hj
    exact ((List.forall₂_iff_get.1 (h i)).2 j hj hj').unfreed.1
  · obtain ⟨j, hj, rfl⟩ := List.mem_iff_getElem.1 hnode
    have hj' := (h i).length_eq.symm ▸ hj
    exact ((List.forall₂_iff_get.1 (h i)).2 j hj' hj).unfreed.2

namespace SameBitmaps

variable {s t : Server} (h : SameBitmaps s t)

include h

theorem unfreed : s.HASH_TABLE.Unfreed ∧ t.HASH_TABLE.Unfreed := unfreed_of_forall₂ h.buckets

/-- What the invariant does not look at. -/
theorem insensitive {s' t' : Server} (hs : s'.COMMANDS = s.COMMANDS) (ht : t'.COMMANDS = t.COMMANDS)
    (hs' : s'.HASH_TABLE = s.HASH_TABLE) (ht' : t'.HASH_TABLE = t.HASH_TABLE)
    (hgs : s'.GARBAGE_LIST = s.GARBAGE_LIST) (hgt : t'.GARBAGE_LIST = t.GARBAGE_LIST) :
    SameBitmaps s' t' where
  ready := ⟨⟨hs ▸ h.ready.1.keyed, hs ▸ h.ready.1.lookup⟩,
    ⟨ht ▸ h.ready.2.keyed, ht ▸ h.ready.2.lookup⟩⟩
  flat := ⟨hgs ▸ h.flat.1, hgt ▸ h.flat.2⟩
  buckets := by
    rw [hs', ht']
    exact h.buckets

/-- The search for a key ends alike in both keyspaces. -/
theorem cursor (key : List UInt8) :
    (s.HASH_TABLE.cursor key = none ∧ t.HASH_TABLE.cursor key = none) ∨
      ∃ c c', s.HASH_TABLE.cursor key = some c ∧ t.HASH_TABLE.cursor key = some c' ∧
        List.Forall₂ SameNode c.before c'.before ∧ SameNode c.node c'.node ∧
        List.Forall₂ SameNode c.after c'.after :=
  cursorOf_forall₂ (fun _ _ => SameNode.key) (h.buckets (keyHash key)) key

/-- The bucket of one key is replaced. -/
theorem putBucket {key : List UInt8} {list list' : List (ListNode ExoVal)}
    (hlist : List.Forall₂ SameNode list list') (i : ℕ) :
    List.Forall₂ SameNode ((s.HASH_TABLE.putBucket key list).buckets i)
      ((t.HASH_TABLE.putBucket key list').buckets i) := by
  rw [HashTable.putBucket, HashTable.putBucket, HashTable.setBucket_buckets,
    HashTable.setBucket_buckets, Function.update_apply, Function.update_apply]
  split
  · exact hlist
  · exact h.buckets i

end SameBitmaps

/-! ## The commands -/

theorem onKeyspace_error {α : Type} {f : HashTable ExoVal → Exo (α × HashTable ExoVal)}
    {s : Server} {e : Fault} (h : f s.HASH_TABLE s = .error e) : onKeyspace f s = .error e := by
  rw [onKeyspace, bind_run_ok (get_run s), bind_run_error h]

theorem lockstep_get {key key' : ExoString} (hkey : key.buf = key'.buf) :
    Lockstep SameBitmaps (fun a b => a = b ∧ ∃ o : Option BitmapNode, a = o.map .bitmap)
      (onKeyspace fun ht => ht.get key) (onKeyspace fun ht => ht.get key') := by
  intro s t h
  by_cases hne : key.buf = []
  · refine .inl ⟨.divisionByZero, onKeyspace_error ?_, onKeyspace_error ?_⟩
    · rw [HashTable.get, bind_run_error (stringHash_nil hne s)]
    · rw [HashTable.get, bind_run_error (stringHash_nil (hkey ▸ hne) t)]
  · have hne' : key'.buf ≠ [] := hkey ▸ hne
    rcases h.cursor key.buf with ⟨hc, hc'⟩ | ⟨c, c', hc, hc', -, hnode, -⟩
    · refine .inr ⟨_, _, _, _,
        onKeyspace_run (HashTable.get_missing h.unfreed.1 hne hc),
        onKeyspace_run (HashTable.get_missing h.unfreed.2 hne' (hkey ▸ hc')), ?_, h⟩
      exact ⟨rfl, none, rfl⟩
    · obtain ⟨bm_node, hval, hval'⟩ := hnode.value
      refine .inr ⟨_, _, _, _,
        onKeyspace_run (HashTable.get_live h.unfreed.1 hne hc (not_expired_bitmap hval _)),
        onKeyspace_run (HashTable.get_live h.unfreed.2 hne' (hkey ▸ hc')
          (not_expired_bitmap hval' _)), ?_, h⟩
      rw [hval, hval']
      exact ⟨rfl, some bm_node, rfl⟩

theorem flat_append_bitmap {list : List ExoVal} (h : ∀ val ∈ list, val.Flat)
    (bm_node : BitmapNode) : ∀ val ∈ list ++ [.bitmap bm_node], val.Flat := by
  intro val hval
  rcases List.mem_append.1 hval with hval | hval
  · exact h val hval
  · rw [List.mem_singleton.1 hval]
    trivial

theorem lockstep_del {key key' : ExoString} (hkey : key.buf = key'.buf) :
    Lockstep SameBitmaps Eq (onKeyspace fun ht => ht.del key)
      (onKeyspace fun ht => ht.del key') := by
  intro s t h
  by_cases hne : key.buf = []
  · refine .inl ⟨.divisionByZero, onKeyspace_error ?_, onKeyspace_error ?_⟩
    · rw [HashTable.del, bind_run_error (stringHash_nil hne s)]
    · rw [HashTable.del, bind_run_error (stringHash_nil (hkey ▸ hne) t)]
  · have hne' : key'.buf ≠ [] := hkey ▸ hne
    rcases h.cursor key.buf with ⟨hc, hc'⟩ | ⟨c, c', hc, hc', hbefore, hnode, hafter⟩
    · exact .inr ⟨_, _, _, _,
        onKeyspace_run (HashTable.del_missing h.unfreed.1 hne hc),
        onKeyspace_run (HashTable.del_missing h.unfreed.2 hne' (hkey ▸ hc')), rfl, h⟩
    · obtain ⟨bm_node, hval, hval'⟩ := hnode.value
      refine .inr ⟨_, _, _, _,
        onKeyspace_run (HashTable.del_found h.unfreed.1 hne hc),
        onKeyspace_run (HashTable.del_found h.unfreed.2 hne' (hkey ▸ hc')), ?_, ?_⟩
      · rw [if_neg (not_expired_bitmap hval _), if_neg (not_expired_bitmap hval' _)]
      · constructor
        · exact ⟨⟨h.ready.1.keyed, h.ready.1.lookup⟩, ⟨h.ready.2.keyed, h.ready.2.lookup⟩⟩
        · simp only [Server.release, hval, hval']
          exact ⟨flat_append_bitmap h.flat.1 bm_node, flat_append_bitmap h.flat.2 bm_node⟩
        · rw [← hkey]
          exact h.putBucket (List.rel_append hbefore hafter)

/-- Arguments with the same bytes. -/
def SameArgs (args args' : ArgList) : Prop :=
  args.map (fun node => node.key.buf) = args'.map fun node => node.key.buf

theorem SameArgs.length {args args' : ArgList} (h : SameArgs args args') :
    args.length = args'.length := by
  simpa using congrArg List.length h

/-- The results of a command that have the same reply. -/
def SameReply (p q : Reply × ArgList) : Prop := p.1 = q.1

theorem sameArgs_cons {node : ArgListNode} {args args' : ArgList}
    (h : SameArgs (node :: args) args') :
    ∃ node' rest, args' = node' :: rest ∧ node.key.buf = node'.key.buf ∧ SameArgs args rest := by
  cases args' with
  | nil => cases h
  | cons node' rest =>
      obtain ⟨hnode, hrest⟩ := List.cons.inj h
      exact ⟨node', rest, rfl, hnode, hrest⟩

theorem sameArgs_nil {args' : ArgList} (h : SameArgs [] args') : args' = [] := by
  cases args' with
  | nil => rfl
  | cons => cases h

theorem lockstep_getBit (bm_node : BitmapNode) (pos : ℤ) :
    Lockstep SameBitmaps Eq (getBit bm_node pos) (getBit bm_node pos) := by
  rw [getBit]
  split
  · rw [getbitUtility, wordAt]
    split
    · exact lockstep_pure rfl
    · exact lockstep_throw _
  · exact lockstep_pure rfl

variable {args args' : ArgList} (h : SameArgs args args')

include h

theorem lockstep_getCommand :
    Lockstep SameBitmaps SameReply (getCommand args) (getCommand args') := by
  match args with
  | [] =>
      rw [sameArgs_nil h]
      exact lockstep_throw _
  | [_] =>
      obtain ⟨node', rest, rfl, -, hrest⟩ := sameArgs_cons h
      rw [sameArgs_nil hrest]
      exact lockstep_throw _
  | cmd :: key :: rest =>
      obtain ⟨cmd', _, rfl, -, hrest⟩ := sameArgs_cons h
      obtain ⟨key', rest', rfl, hkey, -⟩ := sameArgs_cons hrest
      refine lockstep_bind (lockstep_get hkey) ?_
      rintro a b ⟨rfl, o, rfl⟩
      cases o <;> exact lockstep_pure rfl

theorem lockstep_delKeys (count : ℕ) :
    Lockstep SameBitmaps Eq (delKeys args count) (delKeys args' count) := by
  induction args generalizing args' count with
  | nil =>
      rw [sameArgs_nil h]
      exact lockstep_pure rfl
  | cons node rest ih =>
      obtain ⟨node', rest', rfl, hnode, hrest⟩ := sameArgs_cons h
      refine lockstep_bind (lockstep_del hnode) ?_
      rintro n _ rfl
      exact ih hrest _

theorem lockstep_delCommand :
    Lockstep SameBitmaps SameReply (delCommand args) (delCommand args') := by
  rw [delCommand, delCommand, h.length]
  split
  · exact lockstep_pure rfl
  · have htail : SameArgs args.tail args'.tail := by
      rw [SameArgs, List.map_tail, List.map_tail, show _ = _ from h]
    refine lockstep_bind (lockstep_delKeys htail 0) ?_
    rintro n _ rfl
    exact lockstep_pure rfl

theorem lockstep_getbitCommand :
    Lockstep SameBitmaps SameReply (getbitCommand args) (getbitCommand args') := by
  match args with
  | [] =>
      rw [sameArgs_nil h]
      exact lockstep_throw _
  | [_] =>
      obtain ⟨_, rest, rfl, -, hrest⟩ := sameArgs_cons h
      rw [sameArgs_nil hrest]
      exact lockstep_throw _
  | [_, _] =>
      obtain ⟨_, _, rfl, -, hrest⟩ := sameArgs_cons h
      obtain ⟨_, _, rfl, -, hrest⟩ := sameArgs_cons hrest
      rw [sameArgs_nil hrest]
      exact lockstep_throw _
  | cmd :: key :: offset :: rest =>
      obtain ⟨cmd', _, rfl, -, hrest⟩ := sameArgs_cons h
      obtain ⟨key', _, rfl, hkey, hrest⟩ := sameArgs_cons hrest
      obtain ⟨offset', rest', rfl, hoffset, -⟩ := sameArgs_cons hrest
      rw [getbitCommand, getbitCommand, ← hoffset]
      split
      · exact lockstep_pure rfl
      · refine lockstep_bind (lockstep_get hkey) ?_
        rintro a b ⟨rfl, o, rfl⟩
        cases o with
        | none => exact lockstep_pure rfl
        | some bm_node =>
            refine lockstep_bind (lockstep_getBit bm_node _) ?_
            rintro result _ rfl
            exact lockstep_pure rfl

theorem lockstep_zcardCommand :
    Lockstep SameBitmaps SameReply (zcardCommand args) (zcardCommand args') := by
  match args with
  | [] =>
      rw [sameArgs_nil h]
      exact lockstep_throw _
  | [_] =>
      obtain ⟨node', rest, rfl, -, hrest⟩ := sameArgs_cons h
      rw [sameArgs_nil hrest]
      exact lockstep_throw _
  | cmd :: key :: rest =>
      obtain ⟨cmd', _, rfl, -, hrest⟩ := sameArgs_cons h
      obtain ⟨key', rest', rfl, hkey, -⟩ := sameArgs_cons hrest
      refine lockstep_bind (lockstep_get hkey) ?_
      rintro a b ⟨rfl, o, rfl⟩
      cases o <;> exact lockstep_pure rfl

theorem lockstep_zcountCommand :
    Lockstep SameBitmaps SameReply (zcountCommand args) (zcountCommand args') := by
  match args with
  | [] =>
      rw [sameArgs_nil h]
      exact lockstep_throw _
  | [_] =>
      obtain ⟨node', rest, rfl, -, hrest⟩ := sameArgs_cons h
      rw [sameArgs_nil hrest]
      exact lockstep_throw _
  | cmd :: key :: rest =>
      obtain ⟨cmd', _, rfl, -, hrest⟩ := sameArgs_cons h
      obtain ⟨key', rest', rfl, hkey, -⟩ := sameArgs_cons hrest
      refine lockstep_bind (lockstep_get hkey) ?_
      rintro a b ⟨rfl, o, rfl⟩
      cases o <;> exact lockstep_pure rfl

theorem parseRange_congr : parseRange args = parseRange args' := by
  match args with
  | [] => rw [sameArgs_nil h]
  | [_] =>
      obtain ⟨_, rest, rfl, -, hrest⟩ := sameArgs_cons h
      rw [sameArgs_nil hrest]
      rfl
  | [l, r] =>
      obtain ⟨l', _, rfl, hl, hrest⟩ := sameArgs_cons h
      obtain ⟨r', rest, rfl, hr, hrest⟩ := sameArgs_cons hrest
      rw [sameArgs_nil hrest, parseRange, parseRange, hl, hr]
  | l :: r :: node :: rest =>
      obtain ⟨l', _, rfl, hl, hrest⟩ := sameArgs_cons h
      obtain ⟨r', _, rfl, hr, hrest⟩ := sameArgs_cons hrest
      obtain ⟨node', _, rfl, hnode, -⟩ := sameArgs_cons hrest
      rw [parseRange, parseRange, hl, hr]
      simp only [hnode]

theorem lockstep_zrangeCommand :
    Lockstep SameBitmaps SameReply (zrangeCommand args) (zrangeCommand args') := by
  have hlength := h.length
  match args with
  | [] =>
      rw [sameArgs_nil h]
      exact lockstep_pure rfl
  | [_] =>
      obtain ⟨_, rest, rfl, -, hrest⟩ := sameArgs_cons h
      rw [sameArgs_nil hrest]
      exact lockstep_pure rfl
  | cmd :: key :: rest =>
      obtain ⟨cmd', _, rfl, -, hrest⟩ := sameArgs_cons h
      obtain ⟨key', rest', rfl, hkey, hrest⟩ := sameArgs_cons hrest
      rw [zrangeCommand, zrangeCommand, hlength, parseRange_congr hrest]
      split
      · exact lockstep_pure rfl
      · cases parseRange rest' with
        | error code => exact lockstep_pure rfl
        | ok range =>
            refine lockstep_bind (lockstep_get hkey) ?_
            rintro a b ⟨rfl, o, rfl⟩
            cases o <;> exact lockstep_pure rfl

omit h

/-! ## Requests -/

/-- The commands that only read the keyspace, and DEL. -/
def readCommands : List CommandPtr :=
  [.getCommand, .delCommand, .getbitCommand, .zcardCommand, .zcountCommand, .zrangeCommand]

/-- A request for one of them. -/
def Request.Reads (r : Request) : Prop :=
  ∃ name rest cmd, r.tokens = name :: rest ∧ commandOf (strUpCase name) = some cmd ∧
    cmd.f_ptr ∈ readCommands

theorem lockstep_executeCommand {cmd : ExoCmd} (hmem : cmd ∈ commandTable)
    (hread : cmd.f_ptr ∈ readCommands) (h : SameArgs args args') :
    Lockstep SameBitmaps SameReply (executeCommand cmd args) (executeCommand cmd args') := by
  have hsave : ∀ cmd ∈ commandTable, cmd.f_ptr ∈ readCommands →
      strcmp cmd.cmd_str (ascii "SAVE") ≠ .eq ∧ strcmp cmd.cmd_str (ascii "LOADDB") ≠ .eq := by
    decide
  obtain ⟨hsave, hload⟩ := hsave cmd hmem hread
  rw [executeCommand, executeCommand, if_neg hsave, if_neg hsave, if_neg hload, if_neg hload,
    h.length]
  split
  · cases hf : cmd.f_ptr with
    | getCommand => exact lockstep_getCommand h
    | delCommand => exact lockstep_delCommand h
    | getbitCommand => exact lockstep_getbitCommand h
    | zcardCommand => exact lockstep_zcardCommand h
    | zcountCommand => exact lockstep_zcountCommand h
    | zrangeCommand => exact lockstep_zrangeCommand h
    | _ =>
        rw [hf] at hread
        exact absurd hread (by decide)
  · exact lockstep_pure rfl

/-- A step that frees arguments or reclaims garbage. -/
theorem lockstep_insensitive {α : Type} {x y : Exo α} {a b : α} {S : α → α → Prop} (hS : S a b)
    (hx : ∀ s : Server, (∀ val ∈ s.GARBAGE_LIST, val.Flat) → ∃ freed garbage,
      (∀ val ∈ garbage, val.Flat) ∧
        x s = .ok (a, { s with freed := freed, GARBAGE_LIST := garbage }))
    (hy : ∀ s : Server, (∀ val ∈ s.GARBAGE_LIST, val.Flat) → ∃ freed garbage,
      (∀ val ∈ garbage, val.Flat) ∧
        y s = .ok (b, { s with freed := freed, GARBAGE_LIST := garbage })) :
    Lockstep SameBitmaps S x y := by
  intro s t h
  obtain ⟨freed, garbage, hflat, hs⟩ := hx s h.flat.1
  obtain ⟨freed', garbage', hflat', ht⟩ := hy t h.flat.2
  exact .inr ⟨_, _, _, _, hs, ht, hS, ⟨⟨h.ready.1.keyed, h.ready.1.lookup⟩,
    ⟨h.ready.2.keyed, h.ready.2.lookup⟩⟩, ⟨hflat, hflat'⟩, h.buckets⟩

theorem lockstep_releaseArgs (cmd : ExoCmd) (reply : Reply) :
    Lockstep SameBitmaps (fun _ _ => True) (releaseArgs cmd reply args)
      (releaseArgs cmd reply args') := by
  have hrun : ∀ args, ∀ s : Server, (∀ val ∈ s.GARBAGE_LIST, val.Flat) → ∃ freed garbage,
      (∀ val ∈ garbage, val.Flat) ∧ releaseArgs cmd reply args s =
        .ok ((), { s with freed := freed, GARBAGE_LIST := garbage }) := by
    intro args s hs
    obtain ⟨freed, hrun⟩ := releaseArgs_run cmd reply args s
    exact ⟨freed, s.GARBAGE_LIST, hs, hrun⟩
  exact lockstep_insensitive trivial (hrun args) (hrun args')

theorem lockstep_writeToBuffer (reply : Reply) :
    Lockstep SameBitmaps Eq (writeToBuffer reply) (writeToBuffer reply) := by
  have hrun : ∀ s : Server, (∀ val ∈ s.GARBAGE_LIST, val.Flat) → ∃ freed garbage,
      (∀ val ∈ garbage, val.Flat) ∧ writeToBuffer reply s =
        .ok (reply.wire, { s with freed := freed, GARBAGE_LIST := garbage }) := by
    intro s hs
    obtain ⟨freed, hrun⟩ := writeToBuffer_run reply s
    exact ⟨freed, s.GARBAGE_LIST, hs, hrun⟩
  exact lockstep_insensitive rfl hrun hrun

theorem lockstep_freeGarbage :
    Lockstep SameBitmaps (fun _ _ => True) freeGarbage freeGarbage := by
  have hrun : ∀ s : Server, (∀ val ∈ s.GARBAGE_LIST, val.Flat) → ∃ freed garbage,
      (∀ val ∈ garbage, val.Flat) ∧ freeGarbage s =
        .ok ((), { s with freed := freed, GARBAGE_LIST := garbage }) := by
    intro s hs
    obtain ⟨freed, hrun⟩ := freeGarbage_run hs
    exact ⟨freed, [], by simp, hrun⟩
  exact lockstep_insensitive trivial hrun hrun

theorem lockstep_answer {cmd : ExoCmd} (hmem : cmd ∈ commandTable)
    (hread : cmd.f_ptr ∈ readCommands) (h : SameArgs args args') :
    Lockstep SameBitmaps Eq (answer cmd args) (answer cmd args') := by
  refine lockstep_bind (lockstep_executeCommand hmem hread h) ?_
  rintro ⟨reply, a⟩ ⟨_, b⟩ rfl
  refine lockstep_bind (lockstep_releaseArgs cmd reply) fun _ _ _ => ?_
  refine lockstep_bind (lockstep_writeToBuffer reply) fun output _ houtput => ?_
  exact lockstep_bind lockstep_freeGarbage fun _ _ _ => lockstep_pure houtput

namespace SameBitmaps

/-- A read request has the same outcome on both servers. -/
theorem step {s t : Server} (h : SameBitmaps s t) {r : Request} (hr : r.Reads) :
    (∃ e, server s r = .error e ∧ server t r = .error e) ∨
      ∃ output s' t', server s r = .ok (output, s') ∧ server t r = .ok (output, t') ∧
        SameBitmaps s' t' := by
  obtain ⟨name, rest, cmd, htokens, hcmd, hread⟩ := hr
  have hs : Server.Ready { s with now := r.now } := ⟨h.ready.1.keyed, h.ready.1.lookup⟩
  have ht : Server.Ready { t with now := r.now } := ⟨h.ready.2.keyed, h.ready.2.lookup⟩
  have hargs : SameArgs (newArg ⟨s.nextId, strUpCase name⟩ :: argsFrom (s.nextId + 1) rest)
      (newArg ⟨t.nextId, strUpCase name⟩ :: argsFrom (t.nextId + 1) rest) := by
    simp [SameArgs, newArg]
  rw [server, Exoredis.step, Exoredis.step, htokens, serve_eq hs rest hcmd, serve_eq ht rest hcmd]
  have hst : SameBitmaps
      { s with now := r.now, nextId := s.nextId + (rest.length + 1) }
      { t with now := r.now, nextId := t.nextId + (rest.length + 1) } :=
    h.insensitive rfl rfl rfl rfl rfl rfl
  rcases lockstep_answer (mem_of_commandOf hcmd).1 hread hargs _ _ hst with he | ⟨output, _, s', t', hs', ht', rfl, hst'⟩
  · exact .inl he
  · exact .inr ⟨output, s', t', hs', ht', hst'⟩

/-- Any sequence of read requests gets the same replies. -/
theorem replies {s t : Server} (h : SameBitmaps s t) {rs : List Request}
    (hrs : ∀ r ∈ rs, r.Reads) :
    (server.run s rs).map Prod.fst = (server.run t rs).map Prod.fst :=
  Machine.run_agree (fun _ _ _ h hr => h.step hr) h hrs

end SameBitmaps

end Exoredis
