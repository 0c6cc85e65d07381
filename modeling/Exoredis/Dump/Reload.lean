import Exoredis.Dump.Replay
import Exoredis.Keyspace.Bitmaps

/-!
# Reloading a dump over the keyspace it was made from

Behind a SAVE, any number of LOADDB requests leave a keyspace that no later read
tells from the old one if and only if every value is a bitmap
(`idempotent_iff_bitmaps`). A string has one node more behind every LOADDB, which a
DEL brings to light, and a sorted set makes LOADDB fail.
-/

namespace Exoredis

open Effect LittleEndian Decimal

/-! ## Keyspaces -/

/-- The bottom level of a sorted set leads to a first member, which its table knows. -/
structure SkipList.Led (list : SkipList) : Prop where
  unfreed : list.table.Unfreed
  first : ∃ bottom head p node,
    (∀ s, bottomOf list list.nodeBound list.head s = .ok (bottom, s)) ∧
      list.heap bottom = some head ∧ head.next = some p ∧ list.heap p = some node ∧
      node.key.buf.length ≤ LOAD_BUFFER ∧ list.table.lookup node.key.buf ≠ none

/-- A sorted set that fits the fields and the load buffer. -/
structure StorableSet (node : ListNode ExoVal) : Prop where
  unfreed : node.freed = false
  nonempty : node.key.buf ≠ []
  key : node.key.buf.length ≤ LOAD_BUFFER
  value : ∃ list, node.value = .sortedSet list ∧ list.Led

/-- A server between two requests. Only a string may follow a node of its key in a
bucket. -/
structure Regular (s : Server) : Prop where
  ready : s.Ready
  garbage : s.GARBAGE_LIST = []
  writable : s.writable = true
  nodes : ∀ i, ∀ node ∈ s.HASH_TABLE.buckets i, Storable node ∨ StorableSet node
  placed : ∀ i, ∀ node ∈ s.HASH_TABLE.buckets i, keyHash node.key.buf = i
  repeats : ∀ i, (s.HASH_TABLE.buckets i).Pairwise fun a b =>
    a.key.buf = b.key.buf → ∃ str, b.value = .bulkString str

theorem Regular.unfreed {s : Server} (h : Regular s) : s.HASH_TABLE.Unfreed := by
  intro i node hnode
  rcases h.nodes i node hnode with hnode | hnode
  · exact hnode.unfreed
  · exact hnode.unfreed

/-! ## The requests -/

theorem load_request {s t : Server} (hs : s.Ready) (now : ℕ)
    (hload : loadFromDB { s with now := now, nextId := s.nextId + 1 } = .ok (0, t))
    (hflat : ∀ val ∈ t.GARBAGE_LIST, val.Flat) :
    ∃ freed, server s ⟨now, [ascii "LOADDB"]⟩ =
      .ok (ascii "+OK\r\n", { t with freed := freed, GARBAGE_LIST := [] }) := by
  have hcmd : commandOf (strUpCase (ascii "LOADDB")) =
      some ⟨ascii "LOADDB", 0, 0, false, false, true, .loadCommand⟩ := rfl
  have hready : Server.Ready { s with now := now } := ⟨hs.keyed, hs.lookup⟩
  have hrun : ∀ args, executeCommand ⟨ascii "LOADDB", 0, 0, false, false, true, .loadCommand⟩ args
      { s with now := now, nextId := s.nextId + 1 } = .ok ((_OK, args), t) := by
    intro args
    rw [executeCommand, if_neg (by decide), if_pos (by decide), bind_run_ok hload]
    rfl
  exact @serve_run { s with now := now } hready _ [] _ hcmd _ _ _ (hrun _) hflat

/-- A SAVE of strings and bitmaps. -/
theorem save_request {s : Server} (hs : Regular s) (now : ℕ)
    (hnodes : ∀ i, ∀ node ∈ s.HASH_TABLE.buckets i, Storable node) :
    ∃ freed, server s ⟨now, [ascii "SAVE"]⟩ =
      .ok (ascii "+OK\r\n", { s with
        now := now
        nextId := s.nextId + 1
        freed := freed
        dump := some (s.HASH_TABLE.nodes.flatMap nodeRecord)
        GARBAGE_LIST := [] }) := by
  have hcmd : commandOf (strUpCase (ascii "SAVE")) =
      some ⟨ascii "SAVE", BULKSTRING, 0, false, false, true, .saveCommand⟩ := rfl
  have hready : Server.Ready { s with now := now } := ⟨hs.ready.keyed, hs.ready.lookup⟩
  have hsave : saveCommand { s with now := now, nextId := s.nextId + 1 } =
      .ok (_OK, { s with
        now := now
        nextId := s.nextId + 1
        dump := some (s.HASH_TABLE.nodes.flatMap nodeRecord) }) := by
    rw [saveCommand, bind_run_ok (get_run _), if_neg (by simp [hs.writable]),
      bind_run_ok (writeBuckets_run hnodes _ _)]
    rfl
  have hrun : ∀ args, executeCommand ⟨ascii "SAVE", BULKSTRING, 0, false, false, true, .saveCommand⟩
      args { s with now := now, nextId := s.nextId + 1 } = .ok ((_OK, args), { s with
        now := now
        nextId := s.nextId + 1
        dump := some (s.HASH_TABLE.nodes.flatMap nodeRecord) }) := by
    intro args
    rw [executeCommand, if_pos (by decide), bind_run_ok hsave]
    rfl
  have hflat : ∀ val ∈ s.GARBAGE_LIST, val.Flat := by
    rw [hs.garbage]
    simp
  exact @serve_run { s with now := now } hready _ [] _ hcmd _ _ _ (hrun _) hflat

/-! ## Bitmaps -/

theorem Regular.keyed {s : Server} (hs : Regular s)
    (hbitmaps : ∀ i, ∀ node ∈ s.HASH_TABLE.buckets i, ∃ bm_node, node.value = .bitmap bm_node) :
    s.HASH_TABLE.Keyed where
  unfreed := hs.unfreed
  nonempty i node hnode := by
    rcases hs.nodes i node hnode with h | h
    · exact h.nonempty
    · exact h.nonempty
  placed := hs.placed
  distinct i := by
    rw [List.Nodup, List.pairwise_map]
    refine (hs.repeats i).imp_of_mem fun {a b} _ hb hab hkey => ?_
    obtain ⟨str, hstr⟩ := hab hkey
    obtain ⟨bm_node, hbm⟩ := hbitmaps i b hb
    rw [hstr] at hbm
    cases hbm

theorem eq_bitmap_of_content {node new : ListNode ExoVal} {bm_node : BitmapNode}
    (hval : node.value = .bitmap bm_node) (hcontent : new.content = node.content) :
    new.value = .bitmap bm_node := by
  have hsnd := congrArg Prod.snd hcontent
  rw [content_bitmap hval, ListNode.content] at hsnd
  cases hnew : new.value with
  | bitmap bm =>
      rw [hnew] at hsnd
      obtain ⟨mem⟩ := bm
      obtain ⟨mem'⟩ := bm_node
      cases hsnd
      rfl
  | _ =>
      rw [hnew] at hsnd
      cases hsnd

/-- The record of a bitmap that is there already changes nothing. -/
theorem SameBitmaps.loaded {s t t' : Server} (h : SameBitmaps s t) (hs : s.HASH_TABLE.Keyed)
    {node : ListNode ExoVal} {bm_node : BitmapNode} {i : ℕ}
    (hnode : node ∈ s.HASH_TABLE.buckets i) (hval : node.value = .bitmap bm_node)
    (hloaded : Loaded t node t') (hframe : LoadFrame t t') : SameBitmaps s t' := by
  obtain ⟨-, hlookup⟩ := hs.mem_iff_lookup.1 hnode
  obtain ⟨c, hc, rfl⟩ := HashTable.cursor_of_lookup hlookup
  have hready : t'.Ready := ⟨hframe.commands ▸ h.ready.2.keyed, hframe.commands ▸ h.ready.2.lookup⟩
  rcases h.cursor c.node.key.buf with ⟨hnone, -⟩ | ⟨c₁, c', hc₁, hc', hbefore, hcc', hafter⟩
  · rw [hc] at hnone
    cases hnone
  · obtain rfl : c = c₁ := Option.some.inj (hc.symm.trans hc₁)
    cases hloaded with
    | dropped hexpired => exact absurd hexpired (not_expired_bitmap hval _)
    | appended _ _ _ _ hbitmap _ _ =>
        rw [hbitmap bm_node hval] at hc'
        cases hc'
    | replaced new c'' bm hval' hc'' hnew hcontent ht hgarbage =>
        obtain rfl : c' = c'' := Option.some.inj (hc'.symm.trans hc'')
        have hsame : SameNode c.node new :=
          ⟨(congrArg Prod.fst hcontent).symm, ⟨hs.unfreed _ _ hnode, hnew⟩,
            bm_node, hval, eq_bitmap_of_content hval hcontent⟩
        refine ⟨⟨h.ready.1, hready⟩, ⟨h.flat.1, ?_⟩, fun j => ?_⟩
        · obtain ⟨bm', -, hbm'⟩ := hcc'.value
          rw [hgarbage, hbm']
          exact flat_append_bitmap h.flat.2 bm'
        · rw [ht]
          have hput : s.HASH_TABLE.putBucket c.node.key.buf (c.before ++ c.node :: c.after) =
              s.HASH_TABLE := by
            rw [HashTable.putBucket, ← HashTable.cursor_toList hc, HashTable.setBucket,
              Function.update_eq_self]
          have hbuckets := @SameBitmaps.putBucket _ _ h c.node.key.buf _ _
            (List.rel_append hbefore (.cons hsame hafter)) j
          rwa [hput] at hbuckets

theorem loadLoop_bitmaps {nodes : List (ListNode ExoVal)} {s t : Server} (h : SameBitmaps s t)
    (hs : s.HASH_TABLE.Keyed) (hnodes : ∀ node ∈ nodes, Storable node ∧
      (∃ i, node ∈ s.HASH_TABLE.buckets i) ∧ ∃ bm_node, node.value = .bitmap bm_node)
    {fuel : ℕ} (hfuel : nodes.length < fuel) :
    ∃ t', loadLoop fuel (nodes.flatMap nodeRecord) t = .ok (0, t') ∧ SameBitmaps s t' ∧
      LoadFrame t t' := by
  induction nodes generalizing t fuel with
  | nil =>
      cases fuel with
      | zero => cases hfuel
      | succ fuel => exact ⟨t, rfl, h, rfl, rfl, rfl⟩
  | cons node nodes ih =>
      cases fuel with
      | zero => cases hfuel
      | succ fuel =>
          obtain ⟨hstorable, ⟨i, hnode⟩, bm_node, hval⟩ := hnodes node List.mem_cons_self
          obtain ⟨t₁, hrun, hloaded, hframe⟩ := loadLoop_record hstorable h.unfreed.2 fuel
            (nodes.flatMap nodeRecord)
          obtain ⟨t', hrun', ht', hframe'⟩ := ih (h.loaded hs hnode hval hloaded hframe)
            (fun n hn => hnodes n (List.mem_cons_of_mem _ hn)) (Nat.lt_of_succ_lt_succ hfuel)
          refine ⟨t', ?_, ht', ?_, ?_, ?_⟩
          · rw [List.flatMap_cons, hrun, hrun']
          · rw [hframe'.commands, hframe.commands]
          · rw [hframe'.now, hframe.now]
          · rw [hframe'.dump, hframe.dump]

/-! ## Idempotence -/

/-- At clock readings at which no key is expired, a SAVE and any number of LOADDB
requests are answered with OK, and no sequence of reads tells the keyspace they leave
from the one before. -/
def Idempotent (s : Server) : Prop :=
  ∀ now times, (∀ τ ∈ now :: times, ∀ i, ∀ node ∈ s.HASH_TABLE.buckets i, ¬ node.Expired τ) →
    ∃ t, server.run s (⟨now, [ascii "SAVE"]⟩ :: times.map fun τ => ⟨τ, [ascii "LOADDB"]⟩) =
        .ok (List.replicate (times.length + 1) (ascii "+OK\r\n"), t) ∧
      ∀ rs, (∀ r ∈ rs, r.Reads) →
        (server.run t rs).map Prod.fst = (server.run s rs).map Prod.fst

theorem run_load_bitmaps {s t : Server} (h : SameBitmaps s t) (hs : s.HASH_TABLE.Keyed)
    (hnodes : ∀ node ∈ s.HASH_TABLE.nodes, Storable node ∧
      (∃ i, node ∈ s.HASH_TABLE.buckets i) ∧ ∃ bm_node, node.value = .bitmap bm_node)
    (hdump : t.dump = some (s.HASH_TABLE.nodes.flatMap nodeRecord)) (times : List ℕ) :
    ∃ t', server.run t (times.map fun τ => ⟨τ, [ascii "LOADDB"]⟩) =
        .ok (List.replicate times.length (ascii "+OK\r\n"), t') ∧ SameBitmaps s t' := by
  induction times generalizing t with
  | nil => exact ⟨t, rfl, h⟩
  | cons τ times ih =>
      have hlength := length_le_flatMap_nodeRecord fun node hnode => (hnodes node hnode).1
      have ht : SameBitmaps s { t with now := τ, nextId := t.nextId + 1 } :=
        h.insensitive rfl rfl rfl rfl rfl rfl
      obtain ⟨t₁, hrun, ht₁, hframe⟩ := loadLoop_bitmaps ht hs hnodes (Nat.lt_succ_of_le hlength)
      have hload : loadFromDB { t with now := τ, nextId := t.nextId + 1 } = .ok (0, t₁) := by
        rw [@loadFromDB_run { t with now := τ, nextId := t.nextId + 1 } _ hdump]
        exact hrun
      obtain ⟨freed, hreply⟩ := load_request h.ready.2 τ hload ht₁.flat.2
      have ht₂ : SameBitmaps s { t₁ with freed := freed, GARBAGE_LIST := [] } :=
        ⟨⟨ht₁.ready.1, ⟨ht₁.ready.2.keyed, ht₁.ready.2.lookup⟩⟩, ⟨ht₁.flat.1, by simp⟩, ht₁.buckets⟩
      obtain ⟨t', hrun', ht'⟩ := ih ht₂ (hframe.dump.trans hdump)
      exact ⟨t', Machine.run_cons_ok_iff.2 ⟨_, _, _, hreply, hrun', rfl⟩, ht'⟩

theorem idempotent_of_bitmaps {s : Server} (hs : Regular s)
    (hbitmaps : ∀ i, ∀ node ∈ s.HASH_TABLE.buckets i, ∃ bm_node, node.value = .bitmap bm_node) :
    Idempotent s := by
  intro now times _
  have hkeyed := hs.keyed hbitmaps
  have hstorable : ∀ i, ∀ node ∈ s.HASH_TABLE.buckets i, Storable node := by
    intro i node hnode
    rcases hs.nodes i node hnode with h | h
    · exact h
    · obtain ⟨bm_node, hbm⟩ := hbitmaps i node hnode
      obtain ⟨list, hlist, -⟩ := h.value
      rw [hbm] at hlist
      cases hlist
  have hnodes : ∀ node ∈ s.HASH_TABLE.nodes, Storable node ∧
      (∃ i, node ∈ s.HASH_TABLE.buckets i) ∧ ∃ bm_node, node.value = .bitmap bm_node := by
    intro node hnode
    obtain ⟨i, -, hnode⟩ := List.mem_flatMap.1 hnode
    exact ⟨hstorable i node hnode, ⟨i, hnode⟩, hbitmaps i node hnode⟩
  have hsame : SameBitmaps s s := by
    refine ⟨⟨hs.ready, hs.ready⟩, ⟨by simp [hs.garbage], by simp [hs.garbage]⟩, fun i => ?_⟩
    refine List.forall₂_same.2 fun node hnode => ?_
    obtain ⟨bm_node, hbm⟩ := hbitmaps i node hnode
    exact ⟨rfl, ⟨hs.unfreed i node hnode, hs.unfreed i node hnode⟩, bm_node, hbm, hbm⟩
  obtain ⟨freed, hsave⟩ := save_request hs now hstorable
  obtain ⟨t, hrun, ht⟩ := run_load_bitmaps
    (t := { s with
      now := now
      nextId := s.nextId + 1
      freed := freed
      dump := some (s.HASH_TABLE.nodes.flatMap nodeRecord)
      GARBAGE_LIST := [] })
    (hsame.insensitive rfl rfl rfl rfl rfl hs.garbage.symm) hkeyed hnodes rfl times
  refine ⟨t, Machine.run_cons_ok_iff.2 ⟨_, _, _, hsave, hrun, rfl⟩, fun rs hrs => ?_⟩
  exact (ht.replies hrs).symm

/-! ## Strings -/

theorem not_expired_zero (node : ListNode ExoVal) : ¬ node.Expired 0 :=
  fun h => absurd h.2 (Nat.not_lt_zero _)

/-- Deleting a key again and again finds as many nodes as it has. -/
theorem delKeys_copies {args : ArgList} {key : List UInt8} (hkey : key ≠ [])
    (hargs : ∀ node ∈ args, node.key.buf = key) {s : Server} (hs : s.HASH_TABLE.Unfreed)
    (hflat : AllFlat s) (hnow : s.now = 0) (count : ℕ) :
    ∃ t, delKeys args count s =
        .ok (count + min args.length (s.HASH_TABLE.nodesOf key).length, t) ∧ AllFlat t := by
  induction args generalizing s count with
  | nil => exact ⟨s, by simp [delKeys], hflat⟩
  | cons node rest ih =>
      obtain rfl := hargs node List.mem_cons_self
      have hrest := fun n hn => hargs n (List.mem_cons_of_mem _ hn)
      rw [delKeys]
      cases hc : s.HASH_TABLE.cursor node.key.buf with
      | none =>
          have hnil : s.HASH_TABLE.nodesOf node.key.buf = [] := by
            have hlookup := HashTable.cursor_eq_none_iff.1 hc
            rwa [lookup_eq_head?_nodesOf, List.head?_eq_none_iff] at hlookup
          obtain ⟨t, hrun, ht⟩ := ih hrest hs hflat hnow count
          rw [bind_run_ok (onKeyspace_run (HashTable.del_missing hs hkey hc))]
          refine ⟨t, ?_, ht⟩
          rw [hnil] at hrun ⊢
          simpa using hrun
      | some c =>
          obtain ⟨-, hcn, hbefore⟩ := cursorOf_eq_some hc
          have hbucket := HashTable.cursor_toList hc
          have hmem : c.node ∈ s.HASH_TABLE.buckets (keyHash node.key.buf) := by
            rw [hbucket]
            simp
          have hsub : ∀ n ∈ c.before ++ c.after, n ∈ s.HASH_TABLE.buckets (keyHash node.key.buf) := by
            intro n hn
            rw [hbucket]
            rcases List.mem_append.1 hn with hn | hn
            · exact List.mem_append_left _ hn
            · exact List.mem_append_right _ (List.mem_cons_of_mem _ hn)
          let s' : Server := { s.release c.node.key c.node.value with
            HASH_TABLE := s.HASH_TABLE.putBucket node.key.buf (c.before ++ c.after) }
          have hs' : s'.HASH_TABLE.Unfreed := by
            intro i n hn
            rcases mem_putBucket hn with hn | hn
            · exact hs _ n (hsub n hn)
            · exact hs i n hn
          have hflat' : AllFlat s' := by
            refine ⟨fun i n hn => ?_, fun val hval => ?_⟩
            · rcases mem_putBucket hn with hn | hn
              · exact hflat.table _ n (hsub n hn)
              · exact hflat.table i n hn
            · rcases List.mem_append.1 hval with hval | hval
              · exact hflat.garbage val hval
              · rw [List.mem_singleton.1 hval]
                exact hflat.table _ c.node hmem
          have hlength : (s.HASH_TABLE.nodesOf node.key.buf).length =
              (s'.HASH_TABLE.nodesOf node.key.buf).length + 1 := by
            rw [nodesOf_putBucket, if_pos rfl, HashTable.nodesOf, hbucket]
            simp [hcn, Nat.add_assoc]
          obtain ⟨t, hrun, ht⟩ := ih hrest hs' hflat' hnow (count + 1)
          rw [bind_run_ok (onKeyspace_run (HashTable.del_found hs hkey hc)),
            if_neg (hnow ▸ not_expired_zero c.node)]
          refine ⟨t, hrun.trans ?_, ht⟩
          rw [hlength, List.length_cons, Nat.add_min_add_right, Nat.add_assoc, Nat.add_comm 1]

theorem mem_argsFrom {tokens : List (List UInt8)} {id : ℕ} {node : ArgListNode}
    (h : node ∈ argsFrom id tokens) : node.key.buf ∈ tokens := by
  rw [← bytes_argsFrom id tokens]
  exact List.mem_map_of_mem h

/-- A request that deletes one key `n` times. -/
def delRequest (n : ℕ) (key : List UInt8) : Request := ⟨0, ascii "DEL" :: List.replicate n key⟩

theorem del_request {s : Server} (hs : s.Ready) (hunfreed : s.HASH_TABLE.Unfreed)
    (hflat : AllFlat s) {key : List UInt8} (hkey : key ≠ []) {n : ℕ} (hn : n ≠ 0) :
    ∃ t, server s (delRequest n key) =
      .ok ((Reply.respInteger (numberToString
        (min n (s.HASH_TABLE.nodesOf key).length))).wire, t) := by
  have hcmd : commandOf (strUpCase (ascii "DEL")) =
      some ⟨ascii "DEL", BULKSTRING, 1, false, true, true, .delCommand⟩ := rfl
  have hready : Server.Ready { s with now := 0 } := ⟨hs.keyed, hs.lookup⟩
  have hargs : ∀ node ∈ argsFrom (s.nextId + 1) (List.replicate n key), node.key.buf = key :=
    fun node hnode => List.eq_of_mem_replicate (mem_argsFrom hnode)
  obtain ⟨t, hrun, ht⟩ := delKeys_copies
    (s := { s with now := 0, nextId := s.nextId + ((List.replicate n key).length + 1) })
    hkey hargs hunfreed ⟨hflat.table, hflat.garbage⟩ rfl 0
  have hexec : executeCommand ⟨ascii "DEL", BULKSTRING, 1, false, true, true, .delCommand⟩
      (newArg ⟨s.nextId, strUpCase (ascii "DEL")⟩ :: argsFrom (s.nextId + 1) (List.replicate n key))
      { s with now := 0, nextId := s.nextId + ((List.replicate n key).length + 1) } =
        .ok ((Reply.respInteger (numberToString (min n (s.HASH_TABLE.nodesOf key).length)),
          newArg ⟨s.nextId, strUpCase (ascii "DEL")⟩ ::
            argsFrom (s.nextId + 1) (List.replicate n key)), t) := by
    rw [executeCommand_run (by decide) (by decide) rfl, callCommand, delCommand,
      if_neg (by simpa using hn), List.tail_cons, bind_run_ok hrun, length_argsFrom,
      List.length_replicate, Nat.zero_add]
    rfl
  obtain ⟨freed, hserve⟩ := @serve_run { s with now := 0 } hready _ _ _ hcmd _ _ _ hexec ht.garbage
  exact ⟨_, hserve⟩

/-- Reloading a keyspace of strings and bitmaps adds a node to the key of a string. -/
theorem reload_string {s : Server} (hs : Regular s)
    (hnodes : ∀ i, ∀ node ∈ s.HASH_TABLE.buckets i, Storable node) (hflat : AllFlat s) {i : ℕ}
    {node : ListNode ExoVal} (hnode : node ∈ s.HASH_TABLE.buckets i) {str : ExoString}
    (hval : node.value = .bulkString str) :
    ∃ t, server.run s [⟨0, [ascii "SAVE"]⟩, ⟨0, [ascii "LOADDB"]⟩] =
        .ok ([ascii "+OK\r\n", ascii "+OK\r\n"], t) ∧
      t.Ready ∧ t.HASH_TABLE.Unfreed ∧ AllFlat t ∧
      (s.HASH_TABLE.nodesOf node.key.buf).length + 1 ≤
        (t.HASH_TABLE.nodesOf node.key.buf).length := by
  have hstorable := hnodes i node hnode
  have hall : ∀ n ∈ s.HASH_TABLE.nodes, Storable n := by
    intro n hn
    obtain ⟨j, -, hn⟩ := List.mem_flatMap.1 hn
    exact hnodes j n hn
  have hmem : node ∈ s.HASH_TABLE.nodes := by
    refine List.mem_flatMap.2 ⟨i, List.mem_range.2 ?_, hnode⟩
    rw [← hs.placed i node hnode]
    exact keyHash_lt _
  obtain ⟨pre, post, hsplit⟩ := List.append_of_mem hmem
  have hpre : ∀ n ∈ pre, Storable n := fun n hn => hall n (hsplit ▸ List.mem_append_left _ hn)
  have hpost : ∀ n ∈ post, Storable n := fun n hn =>
    hall n (hsplit ▸ List.mem_append_right _ (List.mem_cons_of_mem _ hn))
  obtain ⟨freed, hsave⟩ := save_request hs 0 hnodes
  let s₁ : Server := { s with
    now := 0
    nextId := s.nextId + 1
    freed := freed
    dump := some (s.HASH_TABLE.nodes.flatMap nodeRecord)
    GARBAGE_LIST := [] }
  let s₂ : Server := { s₁ with now := 0, nextId := s₁.nextId + 1 }
  have hflat₂ : AllFlat s₂ := ⟨hflat.table, by simp [s₂, s₁]⟩
  have hlength := length_le_flatMap_nodeRecord hall
  obtain ⟨fuel, hfuel⟩ : ∃ fuel, (s.HASH_TABLE.nodes.flatMap nodeRecord).length + 1 =
      pre.length + (post.length + (fuel + 1) + 1) := by
    rw [hsplit, List.length_append, List.length_cons] at hlength
    exact ⟨(s.HASH_TABLE.nodes.flatMap nodeRecord).length - (pre.length + (post.length + 1)),
      by rw [hsplit]; omega⟩
  -- the records before that of the string, its record, and those behind it
  obtain ⟨t₁, hrun₁, hpile₁, hflat₁⟩ := @loadLoop_pile pre hpre s₂ hs.unfreed
    (fun n _ => not_expired_zero n) (post.length + (fuel + 1) + 1)
    (nodeRecord node ++ post.flatMap nodeRecord)
  obtain ⟨t₂, hrun₂, hloaded, hframe⟩ := loadLoop_record hstorable hpile₁.unfreed
    (post.length + (fuel + 1)) (post.flatMap nodeRecord)
  have hnow₁ : t₁.now = 0 := hpile₁.frame.now
  have hnow₂ : t₂.now = 0 := hframe.now.trans hnow₁
  obtain ⟨t₃, hrun₃, hpile₃, hflat₃⟩ := loadLoop_pile hpost (hloaded.unfreed hpile₁.unfreed)
    (fun n _ => hnow₂.symm ▸ not_expired_zero n) (fuel + 1) []
  have hload : loadFromDB s₂ = .ok (0, t₃) := by
    rw [@loadFromDB_run s₂ _ rfl, hfuel, hsplit, List.flatMap_append, List.flatMap_cons, hrun₁,
      hrun₂, ← List.append_nil (post.flatMap nodeRecord), hrun₃]
    rfl
  have hflat₃' := hflat₃ (hloaded.allFlat hstorable (hflat₁ hflat₂))
  obtain ⟨freed', hreload⟩ := @load_request s₁ t₃ ⟨hs.ready.keyed, hs.ready.lookup⟩ 0 hload
    hflat₃'.garbage
  have hcommands : t₃.COMMANDS = s.COMMANDS :=
    hpile₃.frame.commands.trans (hframe.commands.trans hpile₁.frame.commands)
  refine ⟨{ t₃ with freed := freed', GARBAGE_LIST := [] }, ?_, ?_, hpile₃.unfreed,
    ⟨hflat₃'.table, by simp⟩, ?_⟩
  · exact Machine.run_cons_ok_iff.2 ⟨_, _, _, hsave,
      Machine.run_cons_ok_iff.2 ⟨_, _, _, hreload, rfl, rfl⟩, rfl⟩
  · exact ⟨hcommands ▸ hs.ready.keyed, hcommands ▸ hs.ready.lookup⟩
  · have hstep := (hloaded.nodesOf (hnow₁.symm ▸ not_expired_zero node) node.key.buf).2.2 rfl
      ⟨str, hval⟩
    have h₁ := hpile₁.grows node.key.buf
    have h₃ := hpile₃.grows node.key.buf
    rw [hstep] at h₃
    exact le_trans (Nat.succ_le_succ h₁) h₃

/-- A keyspace of strings and bitmaps with a string in it is told from the one that
was loaded over it by deleting the key of the string. -/
theorem not_idempotent_of_string {s : Server} (hs : Regular s)
    (hnodes : ∀ i, ∀ node ∈ s.HASH_TABLE.buckets i, Storable node) {i : ℕ}
    {node : ListNode ExoVal} (hnode : node ∈ s.HASH_TABLE.buckets i) {str : ExoString}
    (hval : node.value = .bulkString str) : ¬ Idempotent s := by
  intro hidem
  have hne := (hnodes i node hnode).nonempty
  have hflat : AllFlat s := ⟨fun j n hn => flat_of_content (hnodes j n hn) rfl, by simp [hs.garbage]⟩
  obtain ⟨t, hrun, hreplies⟩ := hidem 0 [0] fun τ hτ j n _ => by
    obtain rfl : τ = 0 := by simpa using hτ
    exact not_expired_zero n
  obtain ⟨t', hrun', hready, hunfreed, hflat', hgrown⟩ := reload_string hs hnodes hflat hnode hval
  obtain rfl : t = t' := by
    have heq := hrun.symm.trans hrun'
    simp only [Except.ok.injEq, Prod.mk.injEq] at heq
    exact heq.2
  have hcount := Nat.succ_ne_zero (s.HASH_TABLE.nodesOf node.key.buf).length
  obtain ⟨u, hu⟩ := del_request hs.ready hs.unfreed hflat hne hcount
  obtain ⟨u', hu'⟩ := del_request hready hunfreed hflat' hne hcount
  have hsame := hreplies [delRequest ((s.HASH_TABLE.nodesOf node.key.buf).length + 1) node.key.buf]
    fun r hr => by
      rw [List.mem_singleton.1 hr]
      exact ⟨ascii "DEL", _, _, rfl, rfl, by decide⟩
  simp only [Machine.run, hu, hu', Except.map, Except.ok.injEq, List.cons.injEq, and_true,
    Reply.wire, List.append_cancel_right_eq, true_and] at hsame
  have hnumber := numberToString_injective hsame
  omega

/-! ## Sorted sets -/

theorem writeList_append {a b : List (ListNode ExoVal)} {x y : List UInt8} {s s' t : Server}
    (ha : writeList a s = .ok (x, s')) (hb : writeList b s' = .ok (y, t)) :
    writeList (a ++ b) s = .ok (x ++ y, t) := by
  induction a generalizing x s with
  | nil =>
      cases ha
      exact hb
  | cons node a ih =>
      obtain ⟨bytes, s₁, hnode, ha⟩ := bind_eq_ok_iff.1 ha
      obtain ⟨rest, s₂, hrest, ha⟩ := bind_eq_ok_iff.1 ha
      cases ha
      rw [List.cons_append, writeList, bind_run_ok hnode, bind_run_ok (ih hrest), List.append_assoc]
      rfl

/-- The dump is made of the nodes one behind the other. -/
theorem writeList_of_writeBuckets {ht : HashTable ExoVal} {is : List ℕ} {bytes : List UInt8}
    {s t : Server} (h : writeBuckets ht is s = .ok (bytes, t)) :
    writeList (is.flatMap ht.buckets) s = .ok (bytes, t) := by
  induction is generalizing bytes s with
  | nil => exact h
  | cons i is ih =>
      obtain ⟨x, s₁, hx, h⟩ := bind_eq_ok_iff.1 h
      obtain ⟨y, s₂, hy, h⟩ := bind_eq_ok_iff.1 h
      cases h
      rw [List.flatMap_cons]
      exact writeList_append hx (ih hy)

theorem writeList_split {pre post : List (ListNode ExoVal)} {node : ListNode ExoVal}
    (hpre : ∀ n ∈ pre, Storable n) {bytes : List UInt8} {s t : Server}
    (h : writeList (pre ++ node :: post) s = .ok (bytes, t)) :
    ∃ b₁ b₂ s', writeNode node s = .ok (b₁, s') ∧
      bytes = pre.flatMap nodeRecord ++ (b₁ ++ b₂) := by
  induction pre generalizing bytes with
  | nil =>
      obtain ⟨b₁, s₁, hnode, h⟩ := bind_eq_ok_iff.1 h
      obtain ⟨b₂, s₂, -, h⟩ := bind_eq_ok_iff.1 h
      cases h
      exact ⟨b₁, b₂, s₁, hnode, rfl⟩
  | cons n pre ih =>
      rw [List.cons_append, writeList, bind_run_ok (writeNode_run (hpre n List.mem_cons_self) s)] at h
      obtain ⟨rest, s₂, hrest, h⟩ := bind_eq_ok_iff.1 h
      cases h
      obtain ⟨b₁, b₂, s', hnode, rfl⟩ := ih (fun m hm => hpre m (List.mem_cons_of_mem _ hm)) hrest
      exact ⟨b₁, b₂, s', hnode, by rw [List.flatMap_cons, List.append_assoc]⟩

/-- The first record of a sorted set is that of a member its table knows. -/
theorem writeNode_led {node : ListNode ExoVal} {list : SkipList} (hval : node.value = .sortedSet list)
    (hled : list.Led) {bytes : List UInt8} {s t : Server}
    (h : writeNode node s = .ok (bytes, t)) :
    ∃ score member rest, bytes = writeEntry node.key.buf score member ++ rest ∧
      member.length ≤ LOAD_BUFFER ∧ list.table.lookup member ≠ none := by
  obtain ⟨bottom, head, p, first, hbottom, hhead, hnext, hfirst, hlength, hknown⟩ := hled.first
  rw [writeNode] at h
  cases hfreed : node.freed with
  | true =>
      rw [hfreed] at h
      cases h
  | false =>
      have hrun : writeSkiplistToFile node.key list s = .ok (bytes, t) := by
        rw [hfreed, hval] at h
        exact h
      rw [writeSkiplistToFile, bind_run_ok (hbottom s), SkipList.deref, hhead] at hrun
      obtain ⟨head', s₁, hpure, hrun⟩ := bind_eq_ok_iff.1 hrun
      cases hpure
      rw [hnext, show list.nodeBound = 16 * list.fresh + 15 + 1 by
        unfold SkipList.nodeBound SKIPLIST_MAX_LEVEL; omega, writeEntries, SkipList.deref, hfirst] at hrun
      obtain ⟨first', s₂, hpure, hrun⟩ := bind_eq_ok_iff.1 hrun
      cases hpure
      obtain ⟨rest, s₃, -, hrun⟩ := bind_eq_ok_iff.1 hrun
      cases hrun
      exact ⟨first.score, first.key.buf, rest, rfl, hlength, hknown⟩

/-- LOADDB stops at the record of a member that is there. -/
theorem loadLoop_known {key member rest : List UInt8} {score : ℚ} {s t : Server} {ret : ℤ}
    {node : ListNode ExoVal} {list : SkipList} {fuel : ℕ} (hunfreed : s.HASH_TABLE.Unfreed)
    (hkey : key ≠ []) (hkeylen : key.length ≤ LOAD_BUFFER) (hmember : member.length ≤ LOAD_BUFFER)
    (hlookup : s.HASH_TABLE.lookup key = some node) (hval : node.value = .sortedSet list)
    (htable : list.table.Unfreed) (hknown : list.table.lookup member ≠ none)
    (hrun : loadLoop (fuel + 1) (writeEntry key score member ++ rest) s = .ok (ret, t)) :
    ret = -1 := by
  have hscore : (doubleToString score).length ≤ LOAD_BUFFER := by
    rw [doubleToString]
    exact le_trans (List.length_take_le _ _) (by decide)
  have hread : ∀ {str rest}, str.length ≤ LOAD_BUFFER →
      ∀ {p}, takeString (writeString str ++ rest) = some p → p = (str, rest) := by
    intro str rest hstr p hp
    rw [takeString_writeString hstr] at hp
    exact (Option.some.inj hp).symm
  rw [writeEntry, List.append_assoc, List.append_assoc, List.append_assoc, loadLoop,
    takeLE_le (by decide)] at hrun
  obtain ⟨⟨ret', fp⟩, s₁, hentry, hrun⟩ := bind_eq_ok_iff.1 hrun
  have hret : ret' = -1 := by
    rw [loadEntry, if_neg (by decide), if_pos rfl] at hentry
    obtain ⟨key', score', member', fp₁, fp₂, reply, tokens, s', h₁, h₂, h₃, hzadd, rfl, -⟩ :=
      loadSkiplistEntry_cases hentry
    obtain ⟨rfl, rfl⟩ := Prod.mk.inj (hread hkeylen h₁)
    obtain ⟨rfl, rfl⟩ := Prod.mk.inj (hread hscore h₂)
    obtain ⟨rfl, rfl⟩ := Prod.mk.inj (hread hmember h₃)
    exact @zaddCommand_known ⟨s.nextId, ascii "ZADD"⟩ ⟨s.nextId + 1, key'⟩
      ⟨s.nextId + 2, doubleToString score⟩ ⟨s.nextId + 3, member'⟩
      { s with nextId := s.nextId + 4 } _ _ _ _ _ hunfreed hkey hlookup hval htable hknown
      (startsScore_doubleToString score) hzadd
  subst hret
  simp only [if_true] at hrun
  cases hrun
  rfl

/-- A SAVE that ends has written the records of `pre` and behind them that of a member
which the sorted set of `node` knows. -/
theorem save_sortedSet {s t : Server} (hs : Regular s) {pre post : List (ListNode ExoVal)}
    {node : ListNode ExoVal} (hsplit : s.HASH_TABLE.nodes = pre ++ node :: post)
    (hpre : ∀ n ∈ pre, Storable n) {list : SkipList} (hval : node.value = .sortedSet list)
    (hled : list.Led) {output : List UInt8}
    (hsave : server s ⟨0, [ascii "SAVE"]⟩ = .ok (output, t)) :
    ∃ score member rest,
      t.dump = some (pre.flatMap nodeRecord ++ (writeEntry node.key.buf score member ++ rest)) ∧
        t.HASH_TABLE = s.HASH_TABLE ∧ t.Ready ∧ member.length ≤ LOAD_BUFFER ∧
        list.table.lookup member ≠ none := by
  have hready : Server.Ready { s with now := 0 } := ⟨hs.ready.keyed, hs.ready.lookup⟩
  obtain ⟨name, args, heq, hcases⟩ := serve_cases hready hsave
  obtain ⟨rfl, rfl⟩ := List.cons.inj heq
  rw [show commandOf (strUpCase (ascii "SAVE")) =
    some ⟨ascii "SAVE", BULKSTRING, 0, false, false, true, .saveCommand⟩ from rfl] at hcases
  rcases hcases with ⟨h, -⟩ | ⟨cmd, reply, args, s', h, hexec, hafter, -⟩
  · cases h
  · cases h
    rw [executeCommand, if_pos (by decide)] at hexec
    obtain ⟨reply', s₁, hsaved, hexec⟩ := bind_eq_ok_iff.1 hexec
    cases hexec
    rw [saveCommand, bind_run_ok (get_run _), if_neg (by simp [hs.writable])] at hsaved
    obtain ⟨bytes, s₂, hwrite, hsaved⟩ := bind_eq_ok_iff.1 hsaved
    cases hsaved
    have hsame : s₂.HASH_TABLE = s.HASH_TABLE ∧ s₂.Ready := by
      have hkeep : ∀ ht is, Preserves (writeBuckets ht is)
          fun u => u.HASH_TABLE = s.HASH_TABLE ∧ u.Ready := reads_preserves.writeBuckets
      refine hkeep _ _ _ _ _ ?_ hwrite
      exact ⟨rfl, hready.keyed, hready.lookup⟩
    have hlist := writeList_of_writeBuckets hwrite
    rw [show (List.range INITIAL_SIZE).flatMap s.HASH_TABLE.buckets = pre ++ node :: post from
      hsplit] at hlist
    obtain ⟨b₁, b₂, s₃, hnode, rfl⟩ := writeList_split hpre hlist
    obtain ⟨score, member, rest, rfl, hmember, hknown⟩ := writeNode_led hval hled hnode
    refine ⟨score, member, rest ++ b₂, ?_, ?_, ?_, hmember, hknown⟩
    · rw [← List.append_assoc (writeEntry _ _ _)]
      exact hafter (fun u => u.dump = some (pre.flatMap nodeRecord ++
        (writeEntry node.key.buf score member ++ rest ++ b₂))) (fun _ _ _ _ _ h => h) rfl
    · exact hafter (fun u => u.HASH_TABLE = s.HASH_TABLE) (fun _ _ _ _ _ h => h) hsame.1
    · exact hafter _ (fun _ _ _ _ _ h => ⟨h.keyed, h.lookup⟩) ⟨hsame.2.keyed, hsame.2.lookup⟩

/-- A keyspace with a sorted set cannot be reloaded. -/
theorem not_idempotent_of_sortedSet {s : Server} (hs : Regular s)
    {pre post : List (ListNode ExoVal)} {node : ListNode ExoVal}
    (hsplit : s.HASH_TABLE.nodes = pre ++ node :: post) (hpre : ∀ n ∈ pre, Storable n)
    (hnode : StorableSet node) (hlookup : s.HASH_TABLE.lookup node.key.buf = some node)
    (hothers : node.key.buf ∉ pre.map fun n => n.key.buf) : ¬ Idempotent s := by
  intro hidem
  obtain ⟨t, hrun, -⟩ := hidem 0 [0] fun τ hτ j n _ => by
    obtain rfl : τ = 0 := by simpa using hτ
    exact not_expired_zero n
  obtain ⟨out₁, s₁, os₁, hsave, hrest, hout⟩ := Machine.run_cons_ok_iff.1 hrun
  obtain ⟨out₂, s₂, os₂, hload, hnil, hout'⟩ := Machine.run_cons_ok_iff.1 hrest
  cases hnil
  obtain ⟨list, hval, hled⟩ := hnode.value
  obtain ⟨score, member, rest, hdump, hht, hready₁, hmember, hknown⟩ :=
    save_sortedSet hs hsplit hpre hval hled hsave
  have hready₂ : Server.Ready { s₁ with now := 0 } := ⟨hready₁.keyed, hready₁.lookup⟩
  obtain ⟨name, args, heq, hcases⟩ := serve_cases hready₂ hload
  obtain ⟨rfl, rfl⟩ := List.cons.inj heq
  rw [show commandOf (strUpCase (ascii "LOADDB")) =
    some ⟨ascii "LOADDB", 0, 0, false, false, true, .loadCommand⟩ from rfl] at hcases
  rcases hcases with ⟨h, -⟩ | ⟨cmd, reply, args, s', h, hexec, -, hreply⟩
  · cases h
  · cases h
    rw [executeCommand, if_neg (by decide), if_pos (by decide)] at hexec
    obtain ⟨ret, s'', hloaded, hexec⟩ := bind_eq_ok_iff.1 hexec
    cases hexec
    let u : Server := { s₁ with now := 0, nextId := s₁.nextId + 1 }
    have hunfreed : u.HASH_TABLE.Unfreed := hht.symm ▸ hs.unfreed
    have hlength := length_le_flatMap_nodeRecord hpre
    obtain ⟨fuel, hfuel⟩ : ∃ fuel, (pre.flatMap nodeRecord ++
        (writeEntry node.key.buf score member ++ rest)).length + 1 = pre.length + (fuel + 1) := by
      refine ⟨(pre.flatMap nodeRecord ++
        (writeEntry node.key.buf score member ++ rest)).length - pre.length, ?_⟩
      rw [List.length_append]
      omega
    obtain ⟨t₁, hrun₁, hpile, -⟩ := @loadLoop_pile pre hpre u hunfreed
      (fun n _ => not_expired_zero n) (fuel + 1) (writeEntry node.key.buf score member ++ rest)
    have hloop : loadLoop (fuel + 1) (writeEntry node.key.buf score member ++ rest) t₁ =
        .ok (ret, s') := by
      rw [← hrun₁, ← hfuel, ← hloaded]
      exact (@loadFromDB_run u _ hdump).symm
    have hlookup₁ : t₁.HASH_TABLE.lookup node.key.buf = some node := by
      rw [lookup_eq_head?_nodesOf, hpile.others _ hothers, ← lookup_eq_head?_nodesOf]
      exact hht.symm ▸ hlookup
    have hret := loadLoop_known hpile.unfreed hnode.nonempty hnode.key hmember hlookup₁ hval
      hled.unfreed hknown hloop
    subst hret
    rw [if_neg (by decide)] at hreply
    cases hout
    cases hout'
    exact absurd hreply (by decide)

/-! ## The exact condition -/

theorem Regular.pairwise_nodes {s : Server} (hs : Regular s) :
    s.HASH_TABLE.nodes.Pairwise fun a b =>
      a.key.buf = b.key.buf → ∃ str, b.value = .bulkString str := by
  rw [HashTable.nodes, List.pairwise_flatMap]
  refine ⟨fun i _ => hs.repeats i, List.nodup_range.imp fun {i j} hij a ha b hb hkey => ?_⟩
  refine absurd ?_ hij
  rw [← hs.placed i a ha, ← hs.placed j b hb, hkey]

theorem Regular.lookup_sortedSet {s : Server} (hs : Regular s) {i : ℕ} {node : ListNode ExoVal}
    (hnode : node ∈ s.HASH_TABLE.buckets i) {list : SkipList} (hval : node.value = .sortedSet list) :
    s.HASH_TABLE.lookup node.key.buf = some node := by
  obtain rfl := hs.placed i node hnode
  obtain ⟨l₁, l₂, hsplit⟩ := List.append_of_mem hnode
  have hpair := hs.repeats (keyHash node.key.buf)
  rw [hsplit, List.pairwise_append] at hpair
  rw [HashTable.lookup_eq_find?, hsplit, List.find?_append]
  have hnone : (l₁.find? fun n => n.key.buf = node.key.buf) = none := by
    rw [List.find?_eq_none]
    intro n hn hkey
    obtain ⟨str, hstr⟩ := hpair.2.2 n hn node List.mem_cons_self (by simpa using hkey)
    rw [hval] at hstr
    cases hstr
  rw [hnone, List.find?_cons_of_pos (by simp)]
  rfl

theorem exists_first {α : Type} {p q : α → Prop} {l : List α} (h : ∀ x ∈ l, p x ∨ q x) :
    (∀ x ∈ l, p x) ∨ ∃ pre x post, l = pre ++ x :: post ∧ (∀ y ∈ pre, p y) ∧ q x := by
  induction l with
  | nil => exact .inl (by simp)
  | cons a l ih =>
      rcases h a List.mem_cons_self with ha | ha
      · rcases ih fun x hx => h x (List.mem_cons_of_mem _ hx) with hl | ⟨pre, x, post, rfl, hpre, hx⟩
        · exact .inl (List.forall_mem_cons.2 ⟨ha, hl⟩)
        · exact .inr ⟨a :: pre, x, post, rfl, List.forall_mem_cons.2 ⟨ha, hpre⟩, hx⟩
      · exact .inr ⟨[], a, l, rfl, by simp, ha⟩

/-- Reloading is idempotent exactly on keyspaces of bitmaps. -/
theorem idempotent_iff_bitmaps (s : Server) (hs : Regular s) :
    Idempotent s ↔
      ∀ i, ∀ node ∈ s.HASH_TABLE.buckets i, ∃ bm_node, node.value = .bitmap bm_node := by
  refine ⟨fun hidem i node hnode => ?_, idempotent_of_bitmaps hs⟩
  have hmem : ∀ j, ∀ n ∈ s.HASH_TABLE.buckets j, n ∈ s.HASH_TABLE.nodes := by
    intro j n hn
    refine List.mem_flatMap.2 ⟨j, List.mem_range.2 ?_, hn⟩
    rw [← hs.placed j n hn]
    exact keyHash_lt _
  have hcases : ∀ n ∈ s.HASH_TABLE.nodes, Storable n ∨ StorableSet n := by
    intro n hn
    obtain ⟨j, -, hn⟩ := List.mem_flatMap.1 hn
    exact hs.nodes j n hn
  rcases exists_first hcases with hall | ⟨pre, n, post, hsplit, hpre, hn⟩
  · have hstorable : ∀ j, ∀ n ∈ s.HASH_TABLE.buckets j, Storable n :=
      fun j n hn => hall n (hmem j n hn)
    have hvalue := (hstorable i node hnode).value
    cases hval : node.value with
    | bulkString str => exact absurd hidem (not_idempotent_of_string hs hstorable hnode hval)
    | bitmap bm_node => exact ⟨bm_node, rfl⟩
    | _ =>
        rw [hval] at hvalue
        exact hvalue.elim
  · obtain ⟨list, hval, -⟩ := hn.value
    have hn' : n ∈ s.HASH_TABLE.nodes := hsplit ▸ List.mem_append_right _ List.mem_cons_self
    obtain ⟨j, -, hbucket⟩ := List.mem_flatMap.1 hn'
    refine absurd hidem (not_idempotent_of_sortedSet hs hsplit hpre hn
      (hs.lookup_sortedSet hbucket hval) fun hkey => ?_)
    obtain ⟨m, hm, hkey⟩ := List.mem_map.1 hkey
    have hpair := hs.pairwise_nodes
    rw [hsplit, List.pairwise_append] at hpair
    obtain ⟨str, hstr⟩ := hpair.2.2 m hm n List.mem_cons_self hkey
    rw [hval] at hstr
    cases hstr

/-- A server with one bitmap. -/
def bitmapKeyspace (s : Server) : Server :=
  { s with
    HASH_TABLE := HashTable.newHashTable.putBucket (ascii "b")
      [⟨⟨13, ascii "b"⟩, .bitmap ⟨[5#32]⟩, DEFAULT_EXPIRY_MS, false⟩] }

theorem regular_bitmapKeyspace {s : Server} (hready : s.Ready) (hgarbage : s.GARBAGE_LIST = [])
    (hwritable : s.writable = true) : Regular (bitmapKeyspace s) ∧
      ∀ i, ∀ node ∈ (bitmapKeyspace s).HASH_TABLE.buckets i,
        ∃ bm_node, node.value = .bitmap bm_node := by
  have hmem : ∀ i, ∀ node ∈ (bitmapKeyspace s).HASH_TABLE.buckets i, i = keyHash (ascii "b") ∧
      node = ⟨⟨13, ascii "b"⟩, .bitmap ⟨[5#32]⟩, DEFAULT_EXPIRY_MS, false⟩ := by
    intro i node hnode
    rw [bitmapKeyspace, HashTable.putBucket, HashTable.setBucket_buckets,
      Function.update_apply] at hnode
    split at hnode
    · exact ⟨‹_›, List.mem_singleton.1 hnode⟩
    · cases hnode
  refine ⟨⟨⟨hready.keyed, hready.lookup⟩, hgarbage, hwritable, fun i node hnode => .inl ?_,
    fun i node hnode => ?_, fun i => ?_⟩, fun i node hnode => ?_⟩
  · rw [(hmem i node hnode).2]
    have hlength : [5#32].length < 2 ^ 64 := by norm_num
    exact ⟨rfl, by decide, by decide, hlength⟩
  · rw [(hmem i node hnode).2, (hmem i node hnode).1]
  · rw [bitmapKeyspace, HashTable.putBucket, HashTable.setBucket_buckets, Function.update_apply]
    split
    · exact List.pairwise_singleton _ _
    · exact List.Pairwise.nil
  · rw [(hmem i node hnode).2]
    exact ⟨_, rfl⟩

theorem idempotent_iff_bitmaps_bitmapKeyspace :
    Idempotent (bitmapKeyspace (started (fun _ => 0) none)) := by
  have hstarted : (started (fun _ => 0) none).Ready ∧ (started (fun _ => 0) none).GARBAGE_LIST = [] ∧
      (started (fun _ => 0) none).writable = true := by
    obtain ⟨ht, hrun, hready⟩ := startUp_run (fun _ => 0) none
    rw [startUp_eq_started] at hrun
    rw [Except.ok.inj hrun]
    exact ⟨hready, rfl, rfl⟩
  obtain ⟨hregular, hbitmaps⟩ := regular_bitmapKeyspace hstarted.1 hstarted.2.1 hstarted.2.2
  exact (idempotent_iff_bitmaps _ hregular).2 hbitmaps

/-- Behind SET, SAVE and LOADDB a key is still there after a DEL. -/
theorem not_idempotent :
    ∃ s, server.run (started (fun _ => 0) none) [request ["SET", "k", "v"]] =
      .ok ([ascii "+OK\r\n"], s) ∧ ¬ Idempotent s := by
  have hreads : ∀ r ∈ [request ["DEL", "k"], request ["GET", "k"]], r.Reads := by
    intro r hr
    rcases List.mem_cons.1 hr with rfl | hr
    · exact ⟨ascii "DEL", _, _, rfl, rfl, by decide⟩
    · rw [List.mem_singleton.1 hr]
      exact ⟨ascii "GET", _, _, rfl, rfl, by decide⟩
  have hset : (server.run (started (fun _ => 0) none) [request ["SET", "k", "v"]]).map Prod.fst =
      .ok [ascii "+OK\r\n"] := by decide +kernel
  have hbefore : (server.run (started (fun _ => 0) none) ([request ["SET", "k", "v"]] ++
      [request ["DEL", "k"], request ["GET", "k"]])).map Prod.fst =
        .ok [ascii "+OK\r\n", ascii ":1\r\n", ascii "$-1\r\n"] := by decide +kernel
  have hafter : (server.run (started (fun _ => 0) none) ([request ["SET", "k", "v"]] ++
      ([request ["SAVE"], request ["LOADDB"]] ++
        [request ["DEL", "k"], request ["GET", "k"]]))).map Prod.fst =
          .ok [ascii "+OK\r\n", ascii "+OK\r\n", ascii "+OK\r\n", ascii ":1\r\n",
            ascii "$1\r\nv\r\n"] := by decide +kernel
  cases hrun : server.run (started (fun _ => 0) none) [request ["SET", "k", "v"]] with
  | error e =>
      rw [hrun] at hset
      cases hset
  | ok p =>
      obtain ⟨os, s⟩ := p
      rw [hrun] at hset
      obtain rfl := Except.ok.inj hset
      refine ⟨s, rfl, fun hidem => ?_⟩
      obtain ⟨t, hload, hreplies⟩ := hidem 0 [0] fun τ hτ j n _ => by
        obtain rfl : τ = 0 := by simpa using hτ
        exact not_expired_zero n
      have hreply := hreplies _ hreads
      have hload' : server.run s [request ["SAVE"], request ["LOADDB"]] =
          .ok ([ascii "+OK\r\n", ascii "+OK\r\n"], t) := hload
      rw [Machine.run_append_of_ok hrun] at hbefore hafter
      rw [Machine.run_append_of_ok hload'] at hafter
      cases hs : server.run s [request ["DEL", "k"], request ["GET", "k"]] with
      | error e =>
          rw [hs] at hbefore
          cases hbefore
      | ok p =>
          cases ht : server.run t [request ["DEL", "k"], request ["GET", "k"]] with
          | error e =>
              rw [ht] at hafter
              cases hafter
          | ok q =>
              simp only [hs, ht, Except.map, Except.ok.injEq] at hbefore hafter hreply
              have hp : p.1 = [ascii ":1\r\n", ascii "$-1\r\n"] := List.append_cancel_left hbefore
              rw [hreply, hp] at hafter
              exact absurd hafter (by decide)

end Exoredis
