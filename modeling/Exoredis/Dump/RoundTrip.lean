import Exoredis.Dump.Reading

/-!
# Strings and bitmaps through a dump

Loading what was saved into an empty keyspace gives back the strings and bitmaps,
bucket by bucket and in order, without the strings that have expired
(`loadFromDB_saveCommand`). An expiry is written as a numeral and read back by a
parser that takes numerals up to `LL_MAX` only.
-/

namespace Exoredis

open LittleEndian Decimal

/-! ## Numerals -/

theorem cstr_of_digits {str : List UInt8} (h : ∀ c ∈ str, isDigit c = true) : cstr str = str := by
  rw [cstr, List.takeWhile_eq_self_iff]
  intro c hc
  have hdigit := (isDigit_iff c).1 (h c hc)
  have hne : c ≠ 0 := by
    rintro rfl
    exact absurd hdigit.1 (by decide)
  simpa using hne

theorem stringToLongLongLoop_digits {str : List UInt8} (h : ∀ c ∈ str, isDigit c = true)
    {v : ℕ} (hmax : str.foldl push v ≤ LL_MAX) :
    stringToLongLongLoop str v = str.foldl push v := by
  induction str generalizing v with
  | nil =>
      have hv : ¬ ((v : ℤ) > LL_MAX) := by
        simpa using hmax
      rw [stringToLongLongLoop, if_neg hv]
      rfl
  | cons c str ih =>
      rw [List.foldl_cons] at hmax ⊢
      have hle : push v c ≤ LL_MAX := by
        refine le_trans ?_ hmax
        rw [foldl_push]
        exact le_trans (Nat.le_mul_of_pos_right _ (by positivity)) (Nat.le_add_right _ _)
      have hstop : ¬ (isDigit c = false ∨ (v : ℤ) > LL_MAX) := by
        rw [h c List.mem_cons_self]
        simp only [Bool.true_eq_false, false_or, not_lt]
        unfold push at hle
        exact_mod_cast (by omega : v ≤ LL_MAX)
      have hwrap : wrap64 ((v : ℤ) * 10 + digitVal c) = (push v c : ℕ) := by
        unfold push at hle ⊢
        unfold LL_MAX at hle
        unfold wrap64
        rw [Int.bmod_def]
        push_cast
        split_ifs with hlt <;> omega
      rw [stringToLongLongLoop, if_neg hstop, hwrap]
      exact ih (fun d hd => h d (List.mem_cons_of_mem _ hd)) hmax

theorem stringToLongLong_llToString {n : ℕ} (h : n ≤ LL_MAX) :
    stringToLongLong (llToString n) = n := by
  have hdigits := decimal_digit n
  have hval : (decimal n).foldl push 0 = n := decVal_decimal n
  rw [stringToLongLong, llToString, cstr_of_digits hdigits]
  have hloop := stringToLongLongLoop_digits hdigits (v := 0) (by rwa [hval])
  rw [hval] at hloop
  exact_mod_cast hloop

/-! ## Records -/

/-- What a dump keeps of a value. -/
inductive Content
  | string (value : List UInt8) (expiry : ℕ)
  | bitmap (words : List (BitVec 32))
  | other
deriving DecidableEq

/-- The key and the content of a node. -/
def ListNode.content (node : ListNode ExoVal) : List UInt8 × Content :=
  (node.key.buf, match node.value with
    | .bulkString str => .string str.buf node.expiry
    | .bitmap bm_node => .bitmap bm_node.mem
    | _ => .other)

theorem content_string {node : ListNode ExoVal} {str : ExoString}
    (h : node.value = .bulkString str) :
    node.content = (node.key.buf, .string str.buf node.expiry) := by
  rw [ListNode.content, h]

theorem content_bitmap {node : ListNode ExoVal} {bm_node : BitmapNode}
    (h : node.value = .bitmap bm_node) : node.content = (node.key.buf, .bitmap bm_node.mem) := by
  rw [ListNode.content, h]

/-- A string or a bitmap that fits the fields and the load buffer. -/
structure Storable (node : ListNode ExoVal) : Prop where
  unfreed : node.freed = false
  nonempty : node.key.buf ≠ []
  key : node.key.buf.length ≤ LOAD_BUFFER
  value : match node.value with
    | .bulkString str => str.buf.length ≤ LOAD_BUFFER ∧ node.expiry ≤ LL_MAX
    | .bitmap bm_node => bm_node.mem.length < 2 ^ 64
    | _ => False

/-- The record of a string or a bitmap. -/
def nodeRecord (node : ListNode ExoVal) : List UInt8 :=
  match node.value with
  | .bulkString str => writeHashMapToFile node.key str node.expiry
  | .bitmap bm_node => writeHBitMapToFile node.key bm_node
  | _ => []

theorem writeNode_run {node : ListNode ExoVal} (h : Storable node) (s : Server) :
    writeNode node s = .ok (nodeRecord node, s) := by
  have hval := h.value
  rw [writeNode, h.unfreed, nodeRecord]
  cases hnode : node.value with
  | bulkString str => rfl
  | bitmap bm_node => rfl
  | _ =>
      rw [hnode] at hval
      exact hval.elim

theorem writeList_run {list : List (ListNode ExoVal)} (h : ∀ node ∈ list, Storable node)
    (s : Server) : writeList list s = .ok (list.flatMap nodeRecord, s) := by
  induction list with
  | nil => rfl
  | cons node list ih =>
      rw [writeList, Effect.bind_run_ok (writeNode_run (h node List.mem_cons_self) s),
        Effect.bind_run_ok (ih fun n hn => h n (List.mem_cons_of_mem _ hn))]
      rfl

theorem writeBuckets_run {ht : HashTable ExoVal}
    (h : ∀ i, ∀ node ∈ ht.buckets i, Storable node) (is : List ℕ) (s : Server) :
    writeBuckets ht is s = .ok ((is.flatMap ht.buckets).flatMap nodeRecord, s) := by
  induction is with
  | nil => rfl
  | cons i is ih =>
      rw [writeBuckets, Effect.bind_run_ok (writeList_run (h i) s), Effect.bind_run_ok ih,
        List.flatMap_cons, List.flatMap_append]
      rfl

/-! ## Loading a record -/

/-- One pass over a record whose loader succeeds. -/
theorem loadLoop_cons {code : ℕ} (hcode : code < 256 ^ 8) {fuel : ℕ} {rest fp : List UInt8}
    {s t : Server} (hrun : loadEntry code rest s = .ok ((0, fp), t)) :
    loadLoop (fuel + 1) (le 8 code ++ rest) s = loadLoop fuel fp t := by
  rw [loadLoop, takeLE_le hcode]
  simp only
  rw [Effect.bind_run_ok hrun]
  rfl

theorem lookup_eq_none_iff_content {ht : HashTable ExoVal} {key : List UInt8} :
    ht.lookup key = none ↔
      ∀ c ∈ (ht.buckets (keyHash key)).map ListNode.content, c.1 ≠ key := by
  rw [HashTable.lookup_eq_find?, List.find?_eq_none]
  simp [ListNode.content]

/-- What loading the record of `node` does: an expired string is dropped, a bitmap
replaces the node of its key, and anything else is appended to its bucket. -/
inductive Loaded (s : Server) (node : ListNode ExoVal) (t : Server) : Prop
  | dropped (hexpired : node.Expired s.now) (ht : t.HASH_TABLE = s.HASH_TABLE)
      (hgarbage : t.GARBAGE_LIST = s.GARBAGE_LIST)
  | appended (new : ListNode ExoVal) (hlive : ¬ node.Expired s.now) (hnew : new.freed = false)
      (hcontent : new.content = node.content)
      (hbitmap : ∀ bm_node, node.value = .bitmap bm_node →
        s.HASH_TABLE.cursor node.key.buf = none)
      (ht : t.HASH_TABLE = s.HASH_TABLE.putBucket node.key.buf
        (s.HASH_TABLE.buckets (keyHash node.key.buf) ++ [new]))
      (hgarbage : t.GARBAGE_LIST = s.GARBAGE_LIST)
  | replaced (new : ListNode ExoVal) (c : Cursor ExoVal) (bm_node : BitmapNode)
      (hval : node.value = .bitmap bm_node) (hc : s.HASH_TABLE.cursor node.key.buf = some c)
      (hnew : new.freed = false) (hcontent : new.content = node.content)
      (ht : t.HASH_TABLE = s.HASH_TABLE.putBucket node.key.buf (c.before ++ new :: c.after))
      (hgarbage : t.GARBAGE_LIST = s.GARBAGE_LIST ++ [c.node.value])

/-- What loading leaves alone. -/
structure LoadFrame (s t : Server) : Prop where
  commands : t.COMMANDS = s.COMMANDS
  now : t.now = s.now
  dump : t.dump = s.dump

theorem LoadFrame.trans {s t u : Server} (h : LoadFrame s t) (h' : LoadFrame t u) :
    LoadFrame s u :=
  ⟨h'.commands.trans h.commands, h'.now.trans h.now, h'.dump.trans h.dump⟩

/-- The fields of a string record, read up to the operation on its key. -/
theorem loadHashMapEntry_text {key value text : List UInt8}
    (hkey : key.length ≤ LOAD_BUFFER) (hvalue : value.length ≤ LOAD_BUFFER)
    (htext : text.length ≤ LOAD_BUFFER) (rest : List UInt8) (s : Server) :
    ∃ key' value' s', key'.buf = key ∧ value'.buf = value ∧
      s' = { s with nextId := s'.nextId, freed := s'.freed } ∧
      loadHashMapEntry (writeString key ++ writeString value ++ writeString text ++ rest) s =
          (do let res ← onKeyspace fun ht => ht.setFromLoad key' (.bulkString value')
                (toUnsigned (stringToLongLong text))
              return (resultOf res "+OK", rest) : Exo (ℤ × List UInt8)) s' := by
  refine ⟨⟨s.nextId, key⟩, ⟨s.nextId + 1, value⟩,
    { s with nextId := s.nextId + 3, freed := (s.nextId + 2) :: s.freed }, rfl, rfl, rfl, ?_⟩
  rw [loadHashMapEntry, List.append_assoc, List.append_assoc,
    Effect.bind_run_ok (readString_writeString hkey _ s)]
  simp only
  rw [Effect.bind_run_ok (readString_writeString hvalue _ _)]
  simp only
  rw [Effect.bind_run_ok (readString_writeString htext _ _)]
  simp only
  rw [Effect.bind_run_ok (freeExoString_run _ _)]

/-- A timestamp fits the load buffer. -/
theorem length_llToString_le {n : ℕ} (h : n < 2 ^ 64) : (llToString n).length ≤ LOAD_BUFFER :=
  le_trans (length_decimal_le (w := 19) (by omega)) (by decide)

theorem toUnsigned_llToString {n : ℕ} (h : n ≤ LL_MAX) :
    toUnsigned (stringToLongLong (llToString n)) = n := by
  rw [stringToLongLong_llToString h]
  unfold LL_MAX at h
  exact toUnsigned_natCast (by omega)

/-- A string record that is loaded: it has expired, or its node is appended. -/
theorem loadHashMapEntry_ok {key value text : List UInt8} (hne : key ≠ [])
    (hkey : key.length ≤ LOAD_BUFFER) (hvalue : value.length ≤ LOAD_BUFFER)
    (htext : text.length ≤ LOAD_BUFFER) {s : Server} (hs : s.HASH_TABLE.Unfreed)
    (rest : List UInt8) :
    ∃ t, loadHashMapEntry (writeString key ++ writeString value ++ writeString text ++ rest) s =
        .ok ((0, rest), t) ∧ LoadFrame s t ∧ t.GARBAGE_LIST = s.GARBAGE_LIST ∧
      (toUnsigned (stringToLongLong text) < s.now ∧ t.HASH_TABLE = s.HASH_TABLE ∨
        s.now ≤ toUnsigned (stringToLongLong text) ∧ ∃ key' value', key'.buf = key ∧
          value'.buf = value ∧ t.HASH_TABLE = s.HASH_TABLE.putBucket key
            (s.HASH_TABLE.buckets (keyHash key) ++ [{ newNode key' (.bulkString value') with
              expiry := toUnsigned (stringToLongLong text) }])) := by
  obtain ⟨key', value', s', rfl, rfl, hs', hrun⟩ := loadHashMapEntry_text hkey hvalue htext rest s
  have hht : s'.HASH_TABLE = s.HASH_TABLE := by rw [hs']
  have hnow : s'.now = s.now := by rw [hs']
  have hgarbage : s'.GARBAGE_LIST = s.GARBAGE_LIST := by rw [hs']
  have hframe : LoadFrame s s' := by
    rw [hs']
    exact ⟨rfl, rfl, rfl⟩
  rw [hrun]
  by_cases hexp : toUnsigned (stringToLongLong text) < s.now
  · rw [Effect.bind_run_ok (onKeyspace_run
      (HashTable.setFromLoad_expired (hnow.symm ▸ hexp) _))]
    exact ⟨_, rfl, ⟨hframe.commands, hnow, hframe.dump⟩, hgarbage, .inl ⟨hexp, hht⟩⟩
  · have hs'' : s'.HASH_TABLE.Unfreed := hht.symm ▸ hs
    rw [Effect.bind_run_ok (onKeyspace_run (HashTable.setFromLoad_live hs'' hne
      (by rw [hnow]; exact Nat.le_of_not_lt hexp) _))]
    refine ⟨_, rfl, ⟨hframe.commands, hnow, hframe.dump⟩, hgarbage,
      .inr ⟨Nat.le_of_not_lt hexp, key', value', rfl, rfl, ?_⟩⟩
    simp only [hht]

theorem load_string {node : ListNode ExoVal} (h : Storable node) {str : ExoString}
    (hval : node.value = .bulkString str) {s : Server} (hs : s.HASH_TABLE.Unfreed)
    (rest : List UInt8) :
    ∃ t, loadHashMapEntry (writeString node.key.buf ++ writeString str.buf ++
        writeString (llToString node.expiry) ++ rest) s = .ok ((0, rest), t) ∧
      Loaded s node t ∧ LoadFrame s t := by
  have hstr := h.value
  rw [hval] at hstr
  have hmax : node.expiry < 2 ^ 64 := by
    have hle := hstr.2
    unfold LL_MAX at hle
    omega
  have hexpired : node.Expired s.now ↔ node.expiry < s.now := by
    rw [ListNode.Expired, hval]
    exact ⟨fun hh => hh.2, fun hh => ⟨rfl, hh⟩⟩
  obtain ⟨t, hrun, hframe, hgarbage, hcases⟩ := loadHashMapEntry_ok h.nonempty h.key hstr.1
    (length_llToString_le hmax) hs rest
  rw [toUnsigned_llToString hstr.2] at hcases
  refine ⟨t, hrun, ?_, hframe⟩
  rcases hcases with ⟨hexp, hht⟩ | ⟨hlive, key, value, hkey, hvalue, hht⟩
  · exact .dropped (hexpired.2 hexp) hht hgarbage
  · refine .appended { newNode key (.bulkString value) with expiry := node.expiry }
      (fun hh => absurd (hexpired.1 hh) (by omega)) rfl ?_ ?_ hht hgarbage
    · rw [@content_string _ value rfl, content_string hval, ← hkey, ← hvalue]
      rfl
    · intro bm_node hbm
      rw [hval] at hbm
      cases hbm

/-- The fields of a bitmap record, read up to the operation on its key. -/
theorem loadBitmapEntry_run {key : List UInt8} {bm_node : BitmapNode}
    (hkey : key.length ≤ LOAD_BUFFER) (hlen : bm_node.mem.length < 2 ^ 64)
    (rest : List UInt8) (s : Server) :
    ∃ key' s', key'.buf = key ∧ s' = { s with nextId := s'.nextId } ∧
      loadBitmapEntry (writeString key ++ le 8 bm_node.mem.length ++
        leArray 4 (bm_node.mem.map BitVec.toNat) ++ rest) s =
          (do onKeyspace_ fun ht => ht.set key' (.bitmap bm_node)
              return (0, rest) : Exo (ℤ × List UInt8)) s' := by
  have hwords : ∀ n ∈ bm_node.mem.map BitVec.toNat, n < 256 ^ 4 := by
    intro n hn
    obtain ⟨w, -, rfl⟩ := List.mem_map.1 hn
    exact w.isLt
  have hmem : (bm_node.mem.map BitVec.toNat).map (BitVec.ofNat 32) = bm_node.mem := by
    rw [List.map_map]
    refine (List.map_congr_left fun w _ => ?_).trans (List.map_id _)
    simp
  have htake : takeBytes (4 * bm_node.mem.length)
      (leArray 4 (bm_node.mem.map BitVec.toNat) ++ rest) =
        some (leArray 4 (bm_node.mem.map BitVec.toNat), rest) := by
    have happ := takeBytes_append (leArray 4 (bm_node.mem.map BitVec.toNat)) rest
    rwa [length_leArray, List.length_map] at happ
  have harray := ofLEArray_leArray hwords
  rw [List.length_map] at harray
  refine ⟨⟨s.nextId, key⟩, { s with nextId := s.nextId + 1 }, rfl, rfl, ?_⟩
  rw [loadBitmapEntry, List.append_assoc, List.append_assoc,
    Effect.bind_run_ok (readString_writeString hkey _ s)]
  simp only
  rw [readLong, takeLE_le hlen]
  simp only [pure_bind]
  rw [loadBitmap, htake]
  simp only [harray, hmem]

theorem load_bitmap {node : ListNode ExoVal} (h : Storable node) {bm_node : BitmapNode}
    (hval : node.value = .bitmap bm_node) {s : Server} (hs : s.HASH_TABLE.Unfreed)
    (rest : List UInt8) :
    ∃ t, loadBitmapEntry (writeString node.key.buf ++ le 8 bm_node.mem.length ++
        leArray 4 (bm_node.mem.map BitVec.toNat) ++ rest) s = .ok ((0, rest), t) ∧
      Loaded s node t ∧ LoadFrame s t := by
  have hlen := h.value
  rw [hval] at hlen
  obtain ⟨key, s', hkey, hs', hrun⟩ := loadBitmapEntry_run h.key hlen rest s
  have hht : s'.HASH_TABLE = s.HASH_TABLE := by rw [hs']
  have hgarbage : s'.GARBAGE_LIST = s.GARBAGE_LIST := by rw [hs']
  have hframe : LoadFrame s s' := by
    rw [hs']
    exact ⟨rfl, rfl, rfl⟩
  have hs'' : s'.HASH_TABLE.Unfreed := hht.symm ▸ hs
  have hne : key.buf ≠ [] := by
    rw [hkey]
    exact h.nonempty
  rw [hrun]
  cases hc : s'.HASH_TABLE.cursor key.buf with
  | none =>
      rw [Effect.bind_run_ok (onKeyspace_unit_run (HashTable.set_missing hs'' hne hc _))]
      refine ⟨_, rfl, .appended (newNode key (.bitmap bm_node)) (not_expired_bitmap hval _) rfl ?_
        (fun _ _ => ?_) (by rw [hht, hkey]) hgarbage, hframe.commands, hframe.now, hframe.dump⟩
      · rw [@content_bitmap _ bm_node rfl, content_bitmap hval, ← hkey]
        rfl
      · rw [← hht, ← hkey, hc]
  | some c =>
      rw [Effect.bind_run_ok (onKeyspace_unit_run (HashTable.set_found hs'' hne hc _))]
      refine ⟨_, rfl, .replaced { c.node with key := key, value := .bitmap bm_node } c bm_node hval
        ?_ (hs''.node hc) ?_ (by rw [hht, hkey]) ?_, hframe.commands, hframe.now, hframe.dump⟩
      · rw [← hht, ← hkey, hc]
      · rw [@content_bitmap _ bm_node rfl, content_bitmap hval, ← hkey]
      · rw [← hgarbage]
        rfl

/-! ## Loading a dump -/

theorem loadLoop_record {node : ListNode ExoVal} (h : Storable node) {s : Server}
    (hs : s.HASH_TABLE.Unfreed) (fuel : ℕ) (rest : List UInt8) :
    ∃ t, loadLoop (fuel + 1) (nodeRecord node ++ rest) s = loadLoop fuel rest t ∧
      Loaded s node t ∧ LoadFrame s t := by
  have hvalue := h.value
  cases hval : node.value with
  | bulkString str =>
      obtain ⟨t, hrun, ht⟩ := load_string h hval hs rest
      have hentry := hrun
      rw [show loadHashMapEntry = loadEntry BULKSTRING from rfl] at hentry
      refine ⟨t, ?_, ht⟩
      rw [← loadLoop_cons (by decide) hentry]
      simp only [nodeRecord, hval, writeHashMapToFile, List.append_assoc]
  | bitmap bm_node =>
      obtain ⟨t, hrun, ht⟩ := load_bitmap h hval hs rest
      have hentry := hrun
      rw [show loadBitmapEntry = loadEntry BITMAP from rfl] at hentry
      refine ⟨t, ?_, ht⟩
      rw [← loadLoop_cons (by decide) hentry]
      simp only [nodeRecord, hval, writeHBitMapToFile, List.append_assoc]
  | _ =>
      rw [hval] at hvalue
      exact hvalue.elim

/-- A node whose key is missing adds its content to its bucket, unless it is expired. -/
theorem Loaded.gained {s t : Server} {node : ListNode ExoVal} (h : Loaded s node t)
    (hne : node.key.buf ≠ []) (hs : s.HASH_TABLE.Keyed)
    (hmissing : s.HASH_TABLE.lookup node.key.buf = none) :
    t.HASH_TABLE.Keyed ∧ ∀ i, (t.HASH_TABLE.buckets i).map ListNode.content =
      (s.HASH_TABLE.buckets i).map ListNode.content ++
        if keyHash node.key.buf = i ∧ ¬ node.Expired s.now then [node.content] else [] := by
  have hc := HashTable.cursor_eq_none_iff.2 hmissing
  cases h with
  | dropped hexpired ht hgarbage =>
      refine ⟨ht ▸ hs, fun i => ?_⟩
      rw [ht, if_neg fun hh => hh.2 hexpired, List.append_nil]
  | appended new hlive hnew hcontent hbitmap ht hgarbage =>
      have hkey : new.key.buf = node.key.buf := congrArg Prod.fst hcontent
      refine ⟨?_, fun i => ?_⟩
      · rw [ht]
        exact hs.keyed_append hnew hkey hne hc
      · rw [ht, HashTable.putBucket, HashTable.setBucket_buckets, Function.update_apply]
        by_cases hi : i = keyHash node.key.buf
        · subst hi
          rw [if_pos rfl, if_pos ⟨rfl, hlive⟩, List.map_append, List.map_singleton, hcontent]
        · rw [if_neg hi, if_neg fun h => hi h.1.symm, List.append_nil]
  | replaced new c bm_node hval hc' =>
      rw [hc] at hc'
      cases hc'

theorem loadFromDB_run {s : Server} {fp : List UInt8} (h : s.dump = some fp) :
    loadFromDB s = loadLoop (fp.length + 1) fp s := by
  rw [loadFromDB, Effect.bind_run_ok (Effect.get_run s), h]

/-- Loading the records of nodes with distinct keys appends their contents. -/
theorem loadLoop_records {nodes : List (ListNode ExoVal)} (h : ∀ node ∈ nodes, Storable node)
    (hdistinct : (nodes.map fun node => node.key.buf).Nodup) {s : Server}
    (hs : s.HASH_TABLE.Keyed)
    (hmissing : ∀ node ∈ nodes, s.HASH_TABLE.lookup node.key.buf = none) {fuel : ℕ}
    (hfuel : nodes.length < fuel) :
    ∃ t, loadLoop fuel (nodes.flatMap nodeRecord) s = .ok (0, t) ∧ t.HASH_TABLE.Keyed ∧
      ∀ i, (t.HASH_TABLE.buckets i).map ListNode.content =
        (s.HASH_TABLE.buckets i).map ListNode.content ++
          (nodes.filter fun node => keyHash node.key.buf = i ∧ ¬ node.Expired s.now).map
            ListNode.content := by
  induction nodes generalizing s fuel with
  | nil =>
      cases fuel with
      | zero => cases hfuel
      | succ fuel => exact ⟨s, rfl, hs, by simp⟩
  | cons node nodes ih =>
      cases fuel with
      | zero => cases hfuel
      | succ fuel =>
          rw [List.map_cons, List.nodup_cons] at hdistinct
          obtain ⟨s', hrun, hloaded, hframe⟩ := loadLoop_record (h node List.mem_cons_self)
            hs.unfreed fuel (nodes.flatMap nodeRecord)
          obtain ⟨hs', hgained⟩ := hloaded.gained (h node List.mem_cons_self).nonempty hs
            (hmissing node List.mem_cons_self)
          have hmissing' : ∀ n ∈ nodes, s'.HASH_TABLE.lookup n.key.buf = none := by
            intro n hn
            have hne : node.key.buf ≠ n.key.buf := fun hh =>
              hdistinct.1 (hh ▸ List.mem_map_of_mem hn)
            have hold := hmissing n (List.mem_cons_of_mem _ hn)
            rw [lookup_eq_none_iff_content] at hold ⊢
            rw [hgained]
            intro c hc
            rcases List.mem_append.1 hc with hc | hc
            · exact hold c hc
            · split at hc
              · rw [List.mem_singleton.1 hc]
                exact hne
              · cases hc
          obtain ⟨t, hrun', ht, hcontents⟩ := ih (fun n hn => h n (List.mem_cons_of_mem _ hn))
            hdistinct.2 hs' hmissing' (Nat.lt_of_succ_lt_succ hfuel)
          refine ⟨t, ?_, ht, fun i => ?_⟩
          · rw [List.flatMap_cons, hrun, hrun']
          · rw [hcontents, hgained, hframe.now, List.append_assoc, List.filter_cons]
            congr 1
            by_cases hi : keyHash node.key.buf = i ∧ ¬ node.Expired s.now
            · rw [if_pos hi, if_pos (by simpa using hi)]
              rfl
            · rw [if_neg hi, if_neg (by simpa using hi)]
              rfl

/-- The nodes of a table in the order in which they are saved. -/
def HashTable.nodes (ht : HashTable ExoVal) : List (ListNode ExoVal) :=
  (List.range INITIAL_SIZE).flatMap ht.buckets

theorem HashTable.Keyed.buckets_of_le {ht : HashTable ExoVal} (h : ht.Keyed) {i : ℕ}
    (hi : INITIAL_SIZE ≤ i) : ht.buckets i = [] := by
  rw [List.eq_nil_iff_forall_not_mem]
  intro node hnode
  have hlt := keyHash_lt node.key.buf
  rw [h.placed i node hnode] at hlt
  omega

theorem HashTable.Keyed.filter_nodes {ht : HashTable ExoVal} (h : ht.Keyed) (i : ℕ)
    (p : ListNode ExoVal → Prop) [DecidablePred p] :
    (ht.nodes.filter fun node => keyHash node.key.buf = i ∧ p node) =
      (ht.buckets i).filter fun node => p node := by
  have hbucket : ∀ j, ((ht.buckets j).filter fun node => keyHash node.key.buf = i ∧ p node) =
      if j = i then (ht.buckets i).filter fun node => p node else [] := by
    intro j
    split
    · rename_i hj
      subst hj
      refine List.filter_congr fun node hnode => ?_
      simp [h.placed j node hnode]
    · rename_i hj
      rw [List.filter_eq_nil_iff]
      intro node hnode
      simp [h.placed j node hnode, hj]
  rw [HashTable.nodes, List.filter_flatMap]
  simp only [hbucket]
  by_cases hi : i < INITIAL_SIZE
  · obtain ⟨l₁, l₂, hsplit⟩ := List.append_of_mem (List.mem_range.2 hi)
    have hnodup := List.nodup_range (n := INITIAL_SIZE)
    rw [hsplit, List.nodup_middle, List.nodup_cons, List.mem_append, not_or] at hnodup
    have hnil : ∀ l : List ℕ, i ∉ l →
        (l.flatMap fun j => if j = i then (ht.buckets i).filter fun node => p node else []) = [] := by
      intro l hl
      rw [List.flatMap_eq_nil_iff]
      intro j hj
      rw [if_neg fun hh : j = i => hl (hh ▸ hj)]
    rw [hsplit, List.flatMap_append, List.flatMap_cons, hnil l₁ hnodup.1.1,
      hnil l₂ hnodup.1.2, if_pos rfl, List.nil_append, List.append_nil]
  · rw [h.buckets_of_le (by omega)]
    simp

theorem HashTable.Keyed.nodup_nodes {ht : HashTable ExoVal} (h : ht.Keyed) :
    (ht.nodes.map fun node => node.key.buf).Nodup := by
  rw [HashTable.nodes, List.map_flatMap, List.nodup_flatMap]
  refine ⟨fun i _ => h.distinct i, List.nodup_range.imp fun {i j} hij => ?_⟩
  intro key hi hj
  obtain ⟨node, hnode, rfl⟩ := List.mem_map.1 hi
  obtain ⟨node', hnode', hkey⟩ := List.mem_map.1 hj
  refine hij ?_
  rw [← h.placed i node hnode, ← h.placed j node' hnode', hkey]

theorem length_le_flatMap_nodeRecord {nodes : List (ListNode ExoVal)}
    (h : ∀ node ∈ nodes, Storable node) :
    nodes.length ≤ (nodes.flatMap nodeRecord).length := by
  induction nodes with
  | nil => exact Nat.zero_le _
  | cons node nodes ih =>
      have hnode : 1 ≤ (nodeRecord node).length := by
        have hvalue := (h node List.mem_cons_self).value
        rw [nodeRecord]
        cases hval : node.value with
        | bulkString str =>
            simp [writeHashMapToFile]
            omega
        | bitmap bm_node =>
            simp [writeHBitMapToFile]
            omega
        | _ =>
            rw [hval] at hvalue
            exact hvalue.elim
      have hnodes := ih fun n hn => h n (List.mem_cons_of_mem _ hn)
      rw [List.flatMap_cons, List.length_append, List.length_cons]
      omega

/-- The keyspace is saved, and a server with an empty keyspace that loads the dump ends
up with the same strings and bitmaps but for the strings that have expired by then. -/
def RoundTrips (s : Server) : Prop :=
  ∃ fp, saveCommand s = .ok (_OK, { s with dump := some fp }) ∧
    ∀ t₀ : Server, t₀.HASH_TABLE = HashTable.newHashTable → t₀.dump = some fp →
      ∃ t, loadFromDB t₀ = .ok (0, t) ∧ t.HASH_TABLE.Keyed ∧
        ∀ i, (t.HASH_TABLE.buckets i).map ListNode.content =
          ((s.HASH_TABLE.buckets i).filter fun node => ¬ node.Expired t₀.now).map
            ListNode.content

theorem loadFromDB_saveCommand (s : Server) (hs : s.HASH_TABLE.Keyed)
    (hwritable : s.writable = true)
    (hnodes : ∀ i, ∀ node ∈ s.HASH_TABLE.buckets i, Storable node) : RoundTrips s := by
  have hall : ∀ node ∈ s.HASH_TABLE.nodes, Storable node := by
    intro node hnode
    obtain ⟨i, -, hnode⟩ := List.mem_flatMap.1 hnode
    exact hnodes i node hnode
  refine ⟨s.HASH_TABLE.nodes.flatMap nodeRecord, ?_, fun t₀ hempty hdump => ?_⟩
  · rw [saveCommand, Effect.bind_run_ok (Effect.get_run s), if_neg (by simp [hwritable]),
      Effect.bind_run_ok (writeBuckets_run hnodes _ s)]
    rfl
  · have hkeyed : t₀.HASH_TABLE.Keyed := hempty ▸ HashTable.keyed_newHashTable
    have hlength := length_le_flatMap_nodeRecord hall
    obtain ⟨t, hrun, ht, hcontents⟩ := loadLoop_records hall hs.nodup_nodes hkeyed
      (fun node _ => by rw [hempty, HashTable.lookup_newHashTable])
      (Nat.lt_succ_of_le hlength)
    refine ⟨t, (loadFromDB_run hdump).trans hrun, ht, fun i => ?_⟩
    · rw [hcontents, hs.filter_nodes, hempty]
      rfl

/-- A keyspace with one node. -/
def oneNode (node : ListNode ExoVal) : Server :=
  { blankServer (fun _ => 0) none with
    HASH_TABLE := HashTable.newHashTable.putBucket node.key.buf [node] }

theorem keyed_oneNode {node : ListNode ExoVal} (hfreed : node.freed = false)
    (hne : node.key.buf ≠ []) : (oneNode node).HASH_TABLE.Keyed :=
  HashTable.keyed_newHashTable.keyed_append hfreed rfl hne rfl

theorem mem_oneNode {node n : ListNode ExoVal} {i : ℕ}
    (h : n ∈ (oneNode node).HASH_TABLE.buckets i) : n = node := by
  rw [oneNode, HashTable.putBucket, HashTable.setBucket_buckets, Function.update_apply] at h
  split at h
  · exact List.mem_singleton.1 h
  · cases h

def stringNode (expiry : ℕ) : ListNode ExoVal :=
  ⟨⟨0, ascii "k"⟩, .bulkString ⟨1, [0, 13, 10]⟩, expiry, false⟩

theorem loadFromDB_saveCommand_stringNode : RoundTrips (oneNode (stringNode LL_MAX)) := by
  refine loadFromDB_saveCommand _ (keyed_oneNode rfl (by decide)) rfl fun i node hnode => ?_
  obtain rfl := mem_oneNode hnode
  exact ⟨rfl, by decide, by decide, by decide, le_rfl⟩

/-- The expiry `2 ^ 63 - 1` exceeds `LL_MAX`. It comes back as the error value of the
parser, converted to `2 ^ 64 - 1`. -/
theorem not_roundTrips_stringNode : ¬ RoundTrips (oneNode (stringNode (2 ^ 63 - 1))) := by
  rintro ⟨fp, hsave, hload⟩
  have hreload : ((saveCommand (oneNode (stringNode (2 ^ 63 - 1)))).bind fun p =>
      loadFromDB (blankServer (fun _ => 0) p.2.dump)).map
        (fun p => (p.2.HASH_TABLE.buckets (keyHash (ascii "k"))).map ListNode.content) =
      .ok [(ascii "k", .string [0, 13, 10] (2 ^ 64 - 1))] := by decide +kernel
  have hbucket : (((oneNode (stringNode (2 ^ 63 - 1))).HASH_TABLE.buckets
      (keyHash (ascii "k"))).filter fun node => ¬ node.Expired 0).map ListNode.content =
        [(ascii "k", .string [0, 13, 10] (2 ^ 63 - 1))] := by decide +kernel
  obtain ⟨t, hrun, -, hcontents⟩ := hload (blankServer (fun _ => 0) (some fp)) rfl rfl
  rw [hsave] at hreload
  simp only [Except.bind, hrun, Except.map, hcontents, Except.ok.injEq] at hreload
  rw [show (blankServer (fun _ => 0) (some fp)).now = 0 from rfl, hbucket] at hreload
  exact absurd hreload (by decide)

end Exoredis
