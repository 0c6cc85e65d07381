import Exoredis.SortedSet.Members
import Exoredis.SortedSet.Towers

/-!
# What a dump holds

The contents of a keyspace are its records in the order of the buckets: one for every
string and every bitmap and one for every entry of the bottom level of a sorted set. What
`saveCommand` writes is their encoding (`writeBuckets_ok`), and `decode` reads every
encoding back whose lengths fit the fields of the file (`decode_encode`).
-/

namespace Exoredis

open Effect LittleEndian

inductive Record
  | string (key value expiry : List UInt8)
  | bitmap (key : List UInt8) (words : List (BitVec 32))
  | entry (key score member : List UInt8)
deriving DecidableEq

namespace Record

def bytes : Record → List UInt8
  | string key value expiry =>
      le 8 BULKSTRING ++ writeString key ++ writeString value ++ writeString expiry
  | bitmap key words =>
      le 8 BITMAP ++ writeString key ++ le 8 words.length ++ leArray 4 (words.map BitVec.toNat)
  | entry key score member =>
      le 8 SORTED_SET ++ writeString key ++ writeString score ++ writeString member

/-- The lengths fit their fields. -/
def Fits : Record → Prop
  | string key value expiry =>
      key.length < 2 ^ 64 ∧ value.length < 2 ^ 64 ∧ expiry.length < 2 ^ 64
  | bitmap key words => key.length < 2 ^ 64 ∧ words.length < 2 ^ 64
  | entry key score member =>
      key.length < 2 ^ 64 ∧ score.length < 2 ^ 64 ∧ member.length < 2 ^ 64

end Record

def encode (recs : List Record) : List UInt8 := recs.flatMap Record.bytes

/-! ## Decoding -/

/-- A length-prefixed string and what follows it. -/
def takeText (fp : List UInt8) : Option (List UInt8 × List UInt8) :=
  (takeLE 8 fp).bind fun p => takeBytes p.1 p.2

def decodeRecord (fp : List UInt8) : Option (Record × List UInt8) := do
  let (code, fp) ← takeLE 8 fp
  let (key, fp) ← takeText fp
  if code = BITMAP then
    let (len, fp) ← takeLE 8 fp
    let (bytes, fp) ← takeBytes (4 * len) fp
    return (.bitmap key ((ofLEArray 4 len bytes).map (BitVec.ofNat 32)), fp)
  let (first, fp) ← takeText fp
  let (second, fp) ← takeText fp
  if code = BULKSTRING then
    return (.string key first second, fp)
  else if code = SORTED_SET then
    return (.entry key first second, fp)
  else none

/-- A record takes at least one byte off the file. -/
def decodeLoop : ℕ → List UInt8 → Option (List Record)
  | _, [] => some []
  | 0, _ => none
  | fuel + 1, fp => do
      let (rec', fp) ← decodeRecord fp
      let recs ← decodeLoop fuel fp
      return rec' :: recs

def decode (fp : List UInt8) : Option (List Record) := decodeLoop fp.length fp

theorem takeText_writeString {str : List UInt8} (h : str.length < 2 ^ 64) (rest : List UInt8) :
    takeText (writeString str ++ rest) = some (str, rest) := by
  rw [takeText, writeString, List.append_assoc, takeLE_le (by simpa using h), Option.bind_some,
    takeBytes_append]

theorem decodeRecord_bytes {r : Record} (h : r.Fits) (rest : List UInt8) :
    decodeRecord (r.bytes ++ rest) = some (r, rest) := by
  cases r with
  | string key value expiry =>
      obtain ⟨hkey, hvalue, hexpiry⟩ := h
      simp only [Record.bytes, List.append_assoc, decodeRecord,
        takeLE_le (show BULKSTRING < 256 ^ 8 by decide), Option.bind_eq_bind, Option.bind_some,
        takeText_writeString hkey, takeText_writeString hvalue, takeText_writeString hexpiry]
      rfl
  | bitmap key words =>
      obtain ⟨hkey, hwords⟩ := h
      have hlen : 4 * words.length = (leArray 4 (words.map BitVec.toNat)).length := by simp
      have hread : ofLEArray 4 words.length (leArray 4 (words.map BitVec.toNat)) =
          words.map BitVec.toNat := by
        have h := @ofLEArray_leArray 4 (words.map BitVec.toNat) (by simp; omega)
        rwa [List.length_map] at h
      simp only [Record.bytes, List.append_assoc, decodeRecord,
        takeLE_le (show BITMAP < 256 ^ 8 by decide), Option.bind_eq_bind, Option.bind_some,
        takeText_writeString hkey, takeLE_le (show words.length < 256 ^ 8 by simpa using hwords),
        hlen, takeBytes_append, hread]
      have hround : (words.map BitVec.toNat).map (BitVec.ofNat 32) = words := by
        rw [List.map_map]
        exact List.map_id'' (fun w => BitVec.eq_of_toNat_eq (by simp)) words
      rw [if_pos trivial, hround]
      rfl
  | entry key score member =>
      obtain ⟨hkey, hscore, hmember⟩ := h
      simp only [Record.bytes, List.append_assoc, decodeRecord,
        takeLE_le (show SORTED_SET < 256 ^ 8 by decide), Option.bind_eq_bind, Option.bind_some,
        takeText_writeString hkey, takeText_writeString hscore, takeText_writeString hmember]
      rfl

theorem length_bytes_pos (r : Record) : 0 < r.bytes.length := by
  cases r <;> simp [Record.bytes]

/-- What fits is read back. -/
theorem decode_encode {recs : List Record} (h : ∀ r ∈ recs, r.Fits) :
    decode (encode recs) = some recs := by
  have hloop : ∀ fuel, (encode recs).length ≤ fuel → decodeLoop fuel (encode recs) = some recs := by
    induction recs with
    | nil => exact fun fuel _ => by rw [encode, List.flatMap_nil, decodeLoop.eq_def]
    | cons r recs ih =>
        intro fuel hfuel
        have hbytes : encode (r :: recs) = r.bytes ++ encode recs := rfl
        have hpos := length_bytes_pos r
        rw [hbytes, List.length_append] at hfuel
        cases fuel with
        | zero => omega
        | succ fuel =>
            obtain ⟨b, bs, hcons⟩ := List.exists_cons_of_length_pos
              (show 0 < (r.bytes ++ encode recs).length by rw [List.length_append]; omega)
            have hrec := decodeRecord_bytes (h r List.mem_cons_self) (encode recs)
            have hrest := ih (fun r hr => h r (List.mem_cons_of_mem _ hr)) fuel (by omega)
            rw [hcons] at hrec
            rw [hbytes, hcons, decodeLoop.eq_def]
            simp only [hrec, Option.bind_eq_bind, Option.bind_some, hrest]
            rfl
  exact hloop _ le_rfl

/-! ## The contents of a keyspace -/

namespace SkipList

/-- The node that the `down` links lead to. -/
def bottomFrom (list : SkipList) : ℕ → NodePtr → Option NodePtr
  | 0, _ => none
  | fuel + 1, p => do
      let node ← list.heap p
      match node.down with
      | some down => bottomFrom list fuel down
      | none => return p

def entriesFrom (list : SkipList) : ℕ → Option NodePtr → Option (List (ℚ × List UInt8))
  | _, none => some []
  | 0, some _ => none
  | fuel + 1, some p => do
      let node ← list.heap p
      let rest ← entriesFrom list fuel node.next
      return (node.score, node.key.buf) :: rest

/-- The scores and members of the bottom level, if it can be followed to its end. -/
def entries (list : SkipList) : Option (List (ℚ × List UInt8)) := do
  let bottom ← list.bottomFrom list.nodeBound list.head
  let head ← list.heap bottom
  list.entriesFrom list.nodeBound head.next

end SkipList

/-- The records of a node, or `none` where `saveCommand` comes to a fault. -/
def nodeRecords (node : ListNode ExoVal) : Option (List Record) :=
  if node.freed then none
  else match node.value with
    | .bulkString str => some [.string node.key.buf str.buf (llToString node.expiry)]
    | .bitmap bm_node => some [.bitmap node.key.buf bm_node.mem]
    | .sortedSet list => list.entries.map fun entries =>
        entries.map fun e => .entry node.key.buf (doubleToString e.1) e.2
    | _ => some []

def listRecords : List (ListNode ExoVal) → Option (List Record)
  | [] => some []
  | node :: list => do
      let recs ← nodeRecords node
      let rest ← listRecords list
      return recs ++ rest

def bucketRecords (ht : HashTable ExoVal) : List ℕ → Option (List Record)
  | [] => some []
  | i :: rest => do
      let recs ← listRecords (ht.buckets i)
      let recs' ← bucketRecords ht rest
      return recs ++ recs'

def contents (ht : HashTable ExoVal) : Option (List Record) :=
  bucketRecords ht (List.range INITIAL_SIZE)

/-! ## What is written -/

namespace SkipList

variable {list : SkipList} {s t : Server}

theorem bottomOf_ok {fuel : ℕ} {p q : NodePtr} (hrun : bottomOf list fuel p s = .ok (q, t)) :
    list.bottomFrom fuel p = some q ∧ t = s := by
  induction fuel generalizing p with
  | zero => cases hrun
  | succ fuel ih =>
      obtain ⟨node, s₁, hderef, hrest⟩ := bind_eq_ok_iff.1 hrun
      obtain ⟨hnode, rfl⟩ := deref_ok hderef
      rw [bottomFrom, hnode, Option.bind_eq_bind, Option.bind_some]
      cases hdown : node.down with
      | some down =>
          rw [hdown] at hrest
          exact ih hrest
      | none =>
          rw [hdown] at hrest
          cases hrest
          exact ⟨rfl, rfl⟩

theorem writeEntries_ok {key : List UInt8} {fuel : ℕ} {p : Option NodePtr} {bytes : List UInt8}
    (hrun : writeEntries list key fuel p s = .ok (bytes, t)) :
    t = s ∧ ∃ entries, list.entriesFrom fuel p = some entries ∧
      bytes = encode (entries.map fun e => .entry key (doubleToString e.1) e.2) := by
  induction fuel generalizing p bytes with
  | zero =>
      cases p with
      | none =>
          cases hrun
          exact ⟨rfl, [], rfl, rfl⟩
      | some p => cases hrun
  | succ fuel ih =>
      cases p with
      | none =>
          cases hrun
          exact ⟨rfl, [], rfl, rfl⟩
      | some p =>
          obtain ⟨node, s₁, hderef, hrest⟩ := bind_eq_ok_iff.1 hrun
          obtain ⟨hnode, rfl⟩ := deref_ok hderef
          obtain ⟨rest, s₂, hwrite, hend⟩ := bind_eq_ok_iff.1 hrest
          cases hend
          obtain ⟨rfl, entries, hentries, rfl⟩ := ih hwrite
          refine ⟨rfl, (node.score, node.key.buf) :: entries, ?_, rfl⟩
          rw [entriesFrom, hnode, Option.bind_eq_bind, Option.bind_some, hentries]
          rfl

theorem writeSkiplistToFile_ok {key : ExoString} {bytes : List UInt8}
    (hrun : writeSkiplistToFile key list s = .ok (bytes, t)) :
    t = s ∧ ∃ entries, list.entries = some entries ∧
      bytes = encode (entries.map fun e => .entry key.buf (doubleToString e.1) e.2) := by
  obtain ⟨bottom, s₁, hdown, hrest⟩ := bind_eq_ok_iff.1 hrun
  obtain ⟨hbottom, rfl⟩ := bottomOf_ok hdown
  obtain ⟨head, s₂, hderef, hwrite⟩ := bind_eq_ok_iff.1 hrest
  obtain ⟨hhead, rfl⟩ := deref_ok hderef
  obtain ⟨ht, entries, hentries, hbytes⟩ := writeEntries_ok hwrite
  refine ⟨ht, entries, ?_, hbytes⟩
  rw [SkipList.entries, hbottom, Option.bind_eq_bind, Option.bind_some, hhead]
  exact hentries

end SkipList

theorem encode_append (recs recs' : List Record) :
    encode (recs ++ recs') = encode recs ++ encode recs' := List.flatMap_append

theorem writeNode_ok {node : ListNode ExoVal} {bytes : List UInt8} {s t : Server}
    (hrun : writeNode node s = .ok (bytes, t)) :
    t = s ∧ ∃ recs, nodeRecords node = some recs ∧ bytes = encode recs := by
  rw [writeNode] at hrun
  rw [nodeRecords]
  cases hfreed : node.freed with
  | true =>
      rw [hfreed] at hrun
      cases hrun
  | false =>
      rw [hfreed] at hrun
      cases hval : node.value with
      | bulkString str =>
          simp only [hval] at hrun ⊢
          cases hrun
          exact ⟨rfl, _, rfl, (List.append_nil _).symm⟩
      | bitmap bm_node =>
          simp only [hval] at hrun ⊢
          cases hrun
          exact ⟨rfl, _, rfl, (List.append_nil _).symm⟩
      | sortedSet list =>
          simp only [hval] at hrun ⊢
          obtain ⟨rfl, entries, hentries, rfl⟩ := SkipList.writeSkiplistToFile_ok hrun
          refine ⟨rfl, _, ?_, rfl⟩
          rw [hentries]
          rfl
      | _ =>
          simp only [hval] at hrun ⊢
          cases hrun
          exact ⟨rfl, [], rfl, rfl⟩

theorem writeList_ok {list : List (ListNode ExoVal)} {bytes : List UInt8} {s t : Server}
    (hrun : writeList list s = .ok (bytes, t)) :
    t = s ∧ ∃ recs, listRecords list = some recs ∧ bytes = encode recs := by
  induction list generalizing bytes with
  | nil =>
      cases hrun
      exact ⟨rfl, [], rfl, rfl⟩
  | cons node list ih =>
      obtain ⟨first, s₁, hnode, hrest⟩ := bind_eq_ok_iff.1 hrun
      obtain ⟨rfl, recs, hrecs, rfl⟩ := writeNode_ok hnode
      obtain ⟨rest, s₂, hlist, hend⟩ := bind_eq_ok_iff.1 hrest
      cases hend
      obtain ⟨rfl, recs', hrecs', rfl⟩ := ih hlist
      refine ⟨rfl, recs ++ recs', ?_, (encode_append recs recs').symm⟩
      rw [listRecords, hrecs, Option.bind_eq_bind, Option.bind_some, hrecs']
      rfl

/-- What is written is the encoding of the contents. -/
theorem writeBuckets_ok {ht : HashTable ExoVal} {is : List ℕ} {bytes : List UInt8}
    {s t : Server} (hrun : writeBuckets ht is s = .ok (bytes, t)) :
    t = s ∧ ∃ recs, bucketRecords ht is = some recs ∧ bytes = encode recs := by
  induction is generalizing bytes with
  | nil =>
      cases hrun
      exact ⟨rfl, [], rfl, rfl⟩
  | cons i is ih =>
      obtain ⟨first, s₁, hlist, hrest⟩ := bind_eq_ok_iff.1 hrun
      obtain ⟨rfl, recs, hrecs, rfl⟩ := writeList_ok hlist
      obtain ⟨rest, s₂, hbuckets, hend⟩ := bind_eq_ok_iff.1 hrest
      cases hend
      obtain ⟨rfl, recs', hrecs', rfl⟩ := ih hbuckets
      refine ⟨rfl, recs ++ recs', ?_, (encode_append recs recs').symm⟩
      rw [bucketRecords, hrecs, Option.bind_eq_bind, Option.bind_some, hrecs']
      rfl

/-- The dump that `saveCommand` leaves is the encoding of the contents. -/
theorem saveCommand_contents {s t : Server} {reply : Reply} (hw : s.writable = true)
    (hrun : saveCommand s = .ok (reply, t)) :
    ∃ recs, contents s.HASH_TABLE = some recs ∧ t = { s with dump := some (encode recs) } := by
  rw [saveCommand, bind_run_ok (get_run s), if_neg (by simp [hw])] at hrun
  obtain ⟨bytes, s₁, hwrite, hrest⟩ := bind_eq_ok_iff.1 hrun
  obtain ⟨rfl, recs, hrecs, rfl⟩ := writeBuckets_ok hwrite
  cases hrest
  exact ⟨recs, hrecs, rfl⟩

/-! ## What can be written -/

namespace SkipList

variable {list : SkipList} (s : Server)

theorem bottomOf_run {fuel : ℕ} {p q : NodePtr} (h : list.bottomFrom fuel p = some q) :
    bottomOf list fuel p s = .ok (q, s) := by
  induction fuel generalizing p with
  | zero => cases h
  | succ fuel ih =>
      obtain ⟨node, hnode, hrest⟩ := Option.bind_eq_some_iff.1 h
      rw [bottomOf, bind_run_ok (deref_run hnode s)]
      cases hdown : node.down with
      | some down =>
          rw [hdown] at hrest
          exact ih hrest
      | none =>
          rw [hdown] at hrest
          cases hrest
          rfl

theorem writeEntries_run {key : List UInt8} {fuel : ℕ} {p : Option NodePtr}
    {entries : List (ℚ × List UInt8)} (h : list.entriesFrom fuel p = some entries) :
    writeEntries list key fuel p s =
      .ok (encode (entries.map fun e => .entry key (doubleToString e.1) e.2), s) := by
  induction fuel generalizing p entries with
  | zero =>
      cases p with
      | none =>
          cases h
          rfl
      | some p => cases h
  | succ fuel ih =>
      cases p with
      | none =>
          cases h
          rfl
      | some p =>
          obtain ⟨node, hnode, hnext⟩ := Option.bind_eq_some_iff.1 h
          obtain ⟨rest, hrest, hend⟩ := Option.bind_eq_some_iff.1 hnext
          cases hend
          rw [writeEntries, bind_run_ok (deref_run hnode s), bind_run_ok (ih hrest)]
          rfl

theorem writeSkiplistToFile_run {key : ExoString} {entries : List (ℚ × List UInt8)}
    (h : list.entries = some entries) :
    writeSkiplistToFile key list s =
      .ok (encode (entries.map fun e => .entry key.buf (doubleToString e.1) e.2), s) := by
  obtain ⟨bottom, hbottom, hrest⟩ := Option.bind_eq_some_iff.1 h
  obtain ⟨head, hhead, hentries⟩ := Option.bind_eq_some_iff.1 hrest
  rw [writeSkiplistToFile, bind_run_ok (bottomOf_run s hbottom), bind_run_ok (deref_run hhead s)]
  exact writeEntries_run s hentries

end SkipList

theorem writeNode_records {node : ListNode ExoVal} {recs : List Record}
    (h : nodeRecords node = some recs) (s : Server) :
    writeNode node s = .ok (encode recs, s) := by
  rw [nodeRecords] at h
  rw [writeNode]
  cases hfreed : node.freed with
  | true =>
      rw [hfreed] at h
      cases h
  | false =>
      rw [hfreed, if_neg Bool.false_ne_true] at h
      rw [if_neg Bool.false_ne_true]
      cases hval : node.value with
      | bulkString str =>
          simp only [hval] at h ⊢
          cases h
          rw [encode, List.flatMap_singleton]
          rfl
      | bitmap bm_node =>
          simp only [hval] at h ⊢
          cases h
          rw [encode, List.flatMap_singleton]
          rfl
      | sortedSet list =>
          simp only [hval] at h ⊢
          obtain ⟨entries, hentries, rfl⟩ := Option.map_eq_some_iff.1 h
          exact SkipList.writeSkiplistToFile_run s hentries
      | _ =>
          simp only [hval] at h ⊢
          cases h
          rfl

theorem writeList_records {list : List (ListNode ExoVal)} {recs : List Record}
    (h : listRecords list = some recs) (s : Server) :
    writeList list s = .ok (encode recs, s) := by
  induction list generalizing recs with
  | nil =>
      cases h
      rfl
  | cons node list ih =>
      obtain ⟨first, hfirst, hnext⟩ := Option.bind_eq_some_iff.1 h
      obtain ⟨rest, hrest, hend⟩ := Option.bind_eq_some_iff.1 hnext
      cases hend
      rw [writeList, bind_run_ok (writeNode_records hfirst s), bind_run_ok (ih hrest), encode_append]
      rfl

theorem writeBuckets_records {ht : HashTable ExoVal} {is : List ℕ} {recs : List Record}
    (h : bucketRecords ht is = some recs) (s : Server) :
    writeBuckets ht is s = .ok (encode recs, s) := by
  induction is generalizing recs with
  | nil =>
      cases h
      rfl
  | cons i is ih =>
      obtain ⟨first, hfirst, hnext⟩ := Option.bind_eq_some_iff.1 h
      obtain ⟨rest, hrest, hend⟩ := Option.bind_eq_some_iff.1 hnext
      cases hend
      rw [writeBuckets, bind_run_ok (writeList_records hfirst s), bind_run_ok (ih hrest),
        encode_append]
      rfl

/-- A keyspace whose contents can be read is saved. -/
theorem saveCommand_records {s : Server} {recs : List Record} (hw : s.writable = true)
    (h : contents s.HASH_TABLE = some recs) :
    saveCommand s = .ok (_OK, { s with dump := some (encode recs) }) := by
  rw [saveCommand, bind_run_ok (get_run s), if_neg (by simp [hw]),
    bind_run_ok (writeBuckets_records h s)]
  rfl

/-! ## Keyspaces with the same contents -/

theorem listRecords_append (list list' : List (ListNode ExoVal)) :
    listRecords (list ++ list') = do
      let recs ← listRecords list
      let recs' ← listRecords list'
      return recs ++ recs' := by
  induction list with
  | nil => simp [listRecords]
  | cons node list ih => simp [listRecords, ih, Option.bind_assoc]

/-- A node without records changes nothing. -/
theorem listRecords_insert {node : ListNode ExoVal} (h : nodeRecords node = some [])
    (before after : List (ListNode ExoVal)) :
    listRecords (before ++ node :: after) = listRecords (before ++ after) := by
  simp [listRecords_append, listRecords, h]

theorem listRecords_replace {node node' : ListNode ExoVal} (h : nodeRecords node' = nodeRecords node)
    (before after : List (ListNode ExoVal)) :
    listRecords (before ++ node' :: after) = listRecords (before ++ node :: after) := by
  simp [listRecords_append, listRecords, h]

theorem bucketRecords_congr {ht ht' : HashTable ExoVal}
    (h : ∀ i, listRecords (ht.buckets i) = listRecords (ht'.buckets i)) (is : List ℕ) :
    bucketRecords ht is = bucketRecords ht' is := by
  induction is with
  | nil => rfl
  | cons i is ih => rw [bucketRecords, bucketRecords, h, ih]

/-- Another bucket with the same records. -/
theorem contents_putBucket {ht : HashTable ExoVal} {key : List UInt8}
    {list : List (ListNode ExoVal)} (h : listRecords list = listRecords (ht.buckets (keyHash key))) :
    contents (ht.putBucket key list) = contents ht := by
  refine bucketRecords_congr (fun i => ?_) _
  rw [HashTable.putBucket, HashTable.setBucket_buckets, Function.update_apply]
  split
  · rename_i hi
    rw [hi, h]
  · rfl

end Exoredis
