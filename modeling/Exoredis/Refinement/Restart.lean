import Exoredis.Dump.Decimals
import Exoredis.Numbers.Integers
import Exoredis.Refinement.Server

/-!
# Restarts

A dataset is saved, and its dump is loaded into an empty keyspace. The dataset comes back
(`Dataset.restored`): bits as they were, strings unless they have expired in the meantime, and
scores with six decimals. What has come back once comes back as it is (`restored_restored`).
This takes lengths that fit the load buffer, scores that fit an `int`, and that no two scores of a
key become one (`Represents.load_run`).
-/

namespace Exoredis

open Decimal Effect LittleEndian PackedBits

/-! ## Datasets that come back -/

/-- An expiry as it is read back. The greatest `long long` is refused as a numeral. -/
def restoredExpiry (expiry : ℕ) : ℕ := if expiry = 2 ^ 63 - 1 then 2 ^ 64 - 1 else expiry

/-- A pair as it is read back. -/
def restoredPair (p : ℚ × List UInt8) : ℚ × List UInt8 := (sixDecimals p.1, p.2)

def Datum.restored : Datum → Datum
  | string str expiry => string str (restoredExpiry expiry)
  | bitmap bits => bitmap bits
  | sortedSet scores =>
      sortedSet (Ranking.ofPairs labelRank (scores.pairs.map restoredPair))

/-- Strings fit the load buffer and scores an `int`, and no two scores become one. -/
def Datum.Loadable : Datum → Prop
  | string str _ => str.length ≤ LOAD_BUFFER
  | bitmap _ => True
  | sortedSet scores =>
      (∀ p ∈ scores.pairs, p.2.length ≤ LOAD_BUFFER ∧ |sixDecimals p.1| < 2 ^ 31) ∧
        (scores.pairs.map fun p => sixDecimals p.1).Nodup

namespace Dataset

def Loadable (m : Dataset) : Prop := ∀ key d, m key = some d → key.length ≤ LOAD_BUFFER ∧ d.Loadable

/-- What is there of a dataset once its dump has been loaded. -/
def restored (m : Dataset) (now : ℕ) : Dataset :=
  fun key => ((m key).map Datum.restored).filter fun d => !d.expired now

end Dataset

/-! ## What comes back twice -/

/-- The pairs of a ranking that comes back. -/
theorem mem_restoredScores {ps : List (ℚ × List UInt8)} {q : ℚ × List UInt8}
    (hq : q ∈ (Ranking.ofPairs labelRank (ps.map restoredPair)).pairs) :
    ∃ p ∈ ps, restoredPair p = q :=
  List.mem_map.1 (Ranking.mem_of_mem_ofPairs hq)

theorem restoredExpiry_restoredExpiry (expiry : ℕ) :
    restoredExpiry (restoredExpiry expiry) = restoredExpiry expiry := by
  unfold restoredExpiry
  by_cases htop : expiry = 2 ^ 63 - 1
  · rw [if_pos htop]
    decide
  · rw [if_neg htop, if_neg htop]

theorem restoredExpiry_lt {expiry : ℕ} (h : expiry < 2 ^ 64) : restoredExpiry expiry < 2 ^ 64 := by
  rw [restoredExpiry]
  split
  · decide
  · exact h

theorem restoredPair_restoredPair (p : ℚ × List UInt8) :
    restoredPair (restoredPair p) = restoredPair p := by
  rw [restoredPair, restoredPair, sixDecimals_sixDecimals]

namespace Datum

theorem restored_restored (d : Datum) : d.restored.restored = d.restored := by
  cases d with
  | string str expiry =>
      rw [restored, restored, restoredExpiry_restoredExpiry]
  | bitmap bits => rfl
  | sortedSet scores =>
      rw [restored, restored]
      congr 1
      have hsame : ∀ q ∈ (Ranking.ofPairs labelRank (scores.pairs.map restoredPair)).pairs,
          restoredPair q = q := by
        intro q hq
        obtain ⟨p, -, rfl⟩ := mem_restoredScores hq
        exact restoredPair_restoredPair p
      rw [List.map_congr_left hsame, List.map_id', Ranking.ofPairs_pairs]

theorem Loadable.restored {d : Datum} (h : d.Loadable) : d.restored.Loadable := by
  cases d with
  | string str expiry => exact h
  | bitmap bits => trivial
  | sortedSet scores =>
      obtain ⟨hsmall, hscores⟩ := h
      have hpairs := (Ranking.ofPairs labelRank (scores.pairs.map restoredPair)).distinct
      refine ⟨fun q hq => ?_, (hpairs.of_map _).map_on fun q hq q' hq' hsame => ?_⟩
      · obtain ⟨p, hp, rfl⟩ := mem_restoredScores hq
        rw [restoredPair, sixDecimals_sixDecimals]
        exact hsmall p hp
      · obtain ⟨p, hp, rfl⟩ := mem_restoredScores hq
        obtain ⟨p', hp', rfl⟩ := mem_restoredScores hq'
        rw [restoredPair, restoredPair, sixDecimals_sixDecimals, sixDecimals_sixDecimals] at hsame
        rw [List.inj_on_of_nodup_map hscores hp hp' hsame]

theorem expired_restored {d : Datum} {now now' : ℕ} (hnow : now ≤ now')
    (h : d.expired now = true) : d.expired now' = true := by
  cases d with
  | string str expiry =>
      rw [expired, decide_eq_true_eq] at h ⊢
      exact h.trans_le hnow
  | bitmap bits | sortedSet scores => cases h

end Datum

namespace Dataset

theorem Loadable.restored {m : Dataset} (h : m.Loadable) (now : ℕ) : (m.restored now).Loadable := by
  intro key d hd
  obtain ⟨hd, -⟩ := Option.filter_eq_some_iff.1 hd
  obtain ⟨d', hd', rfl⟩ := Option.map_eq_some_iff.1 hd
  obtain ⟨hkey, hload⟩ := h key d' hd'
  exact ⟨hkey, hload.restored⟩

/-- What has come back comes back later as it would have at once. -/
theorem restored_restored (m : Dataset) {now now' : ℕ} (hnow : now ≤ now') :
    (m.restored now).restored now' = m.restored now' := by
  funext key
  rw [restored, restored, restored]
  cases m key with
  | none => rfl
  | some d =>
      rw [Option.map_some]
      by_cases hexp : d.restored.expired now = true
      · rw [Option.filter_some_neg (by simpa using hexp),
          Option.filter_some_neg (by simpa using Datum.expired_restored hnow hexp)]
        rfl
      · rw [Option.filter_some_pos (by simpa using hexp), Option.map_some,
          Datum.restored_restored]

end Dataset

/-! ## Records -/

/-- A saved expiry is read back. -/
theorem toUnsigned_stringToLongLong {expiry : ℕ} (h : expiry < 2 ^ 64) :
    toUnsigned (stringToLongLong (llToString expiry)) = restoredExpiry expiry := by
  have hdigits := decimal_digit expiry
  have hval : (decimal expiry).foldl push 0 = expiry := decVal_decimal expiry
  have hzero : (0 : ℤ) = wrap64 (0 : ℕ) := by decide
  rw [restoredExpiry, stringToLongLong, llToString, cstr_of_digits hdigits, hzero]
  split
  · next htop =>
      rw [stringToLongLongLoop_top hdigits (List.prefix_refl _)
        (by rw [hval, htop, AtTop]; decide)]
      decide
  · next htop =>
      have hno : ∀ p, p <+: decimal expiry → ¬ AtTop (p.foldl push 0) := by
        rintro p ⟨q, hq⟩ hat
        have hle := foldl_push_mono ⟨q, hq⟩ 0
        rw [hval] at hle
        rw [AtTop, Nat.mod_eq_of_lt (hle.trans_lt h)] at hat
        rw [← hq, List.foldl_append, hat] at hval
        cases q with
        | nil => exact htop hval.symm
        | cons c q =>
            have hpush := foldl_push_mono (List.nil_prefix (l := q)) (push (2 ^ 63 - 1) c)
            rw [List.foldl_cons] at hval
            rw [hval, List.foldl_nil, push] at hpush
            omega
      rw [stringToLongLongLoop_wrap hdigits hno, hval, toUnsigned, wrap64]
      have hmod : Int.bmod (expiry : ℤ) (2 ^ 64) % 2 ^ 64 = (expiry : ℤ) % 2 ^ 64 :=
        Int.bmod_emod
      rw [hmod]
      omega

theorem filter_string (value : List UInt8) (expiry now : ℕ) :
    (some (Datum.string value expiry)).filter (fun d => !d.expired now) =
      if expiry < now then none else some (Datum.string value expiry) := by
  by_cases hexp : expiry < now
  · rw [if_pos hexp, Option.filter_some_neg (by simpa [Datum.expired] using hexp)]
  · rw [if_neg hexp, Option.filter_some_pos (by simpa [Datum.expired] using hexp)]

/-- ZADD of one pair that the ranking does not have. -/
theorem zaddPair {score member : List UInt8} {q : ℚ} (hstart : startsScore score = true)
    (hparse : SkipList.parseScore score = some q) :
    zaddWorked (argsFrom 0 [score, member]) = [(q, ⟨1, member⟩)] ∧
      ∀ scores : Scores, (Careful scoreboard Untied (argsFrom 0 [score, member]) scores ↔
          Untied scores member q) ∧
        (scores.scoreOf member = none →
          boardZadd scoreboard (argsFrom 0 [score, member]) scores =
            (.respInteger (numberToString 1), scores.put member q)) := by
  have hswitches : parseSwitches (argsFrom 0 [score, member]) noZaddSwitches =
      (noZaddSwitches, argsFrom 0 [score, member]) := by
    rw [argsFrom, parseSwitches]
    exact if_pos hstart
  have hsw : zaddSwitches (argsFrom 0 [score, member]) = noZaddSwitches := by
    rw [zaddSwitches, hswitches]
  have hread : readPairs (argsFrom 0 [score, member]) = some [(q, ⟨1, member⟩)] := by
    change readPairs [newArg ⟨0, score⟩, newArg ⟨1, member⟩] = _
    rw [readPairs, show (newArg ⟨0, score⟩).key.buf = score from rfl, hparse]
    rfl
  have hpairs : zaddPairs (argsFrom 0 [score, member]) = some [(q, ⟨1, member⟩)] := by
    rw [zaddPairs, hswitches, hsw]
    exact hread
  have hworked : zaddWorked (argsFrom 0 [score, member]) = [(q, ⟨1, member⟩)] := by
    rw [zaddWorked, hswitches, hsw, workedPairs]
    change (if _ then [] else (readPairs (argsFrom 0 [score, member])).getD []) = _
    rw [hread]
    rfl
  refine ⟨hworked, fun scores => ⟨?_, fun hnew => ?_⟩⟩
  · have hadmits : scoreboard.admits false false scores member = true := by
      rw [Scoreboard.admits]
      split <;> rfl
    simp only [Careful, hsw, hworked, List.map_cons, List.map_nil]
    change (scoreboard.admits false false scores member = true → _) ∧ True ↔ _
    simp [hadmits, plainPair]
  · have hmissing : scoreboard.scoreOf scores member = none := hnew
    have hnext : scoreboard.next false false scores (q, member) = scores.put member q := by
      rw [Scoreboard.next, Scoreboard.admits, hmissing]
      rfl
    rw [boardZadd, hsw, hpairs]
    simp [noZaddSwitches, ZaddSwitches.count, plainPair, Scoreboard.tally, Scoreboard.work,
      Scoreboard.admits, hmissing, hnext]

section

variable {s : Server} {m : Dataset} (h : Represents s m)

include h

theorem Represents.lookup_none {key : List UInt8} (hmissing : m key = none) :
    s.HASH_TABLE.lookup key = none := by
  have hshows := h.shows key
  rw [hmissing] at hshows
  generalize s.HASH_TABLE.lookup key = found at *
  cases hshows
  rfl

variable {key : List UInt8} (hne : key ≠ []) (hkey : key.length ≤ LOAD_BUFFER)
  (hmissing : m key = none) (fuel : ℕ) (rest : List UInt8)

include hne hkey hmissing

/-- The record of a string. -/
theorem Represents.load_string {value : List UInt8} (hvalue : value.length ≤ LOAD_BUFFER)
    {expiry : ℕ} (hexpiry : expiry < 2 ^ 64) :
    ∃ t, loadLoop (fuel + 1) ((Record.string key value (llToString expiry)).bytes ++ rest) s =
        loadLoop fuel rest t ∧ Still s t ∧
      Represents t (Function.update m key
        ((some (Datum.string value (restoredExpiry expiry))).filter fun d => !d.expired s.now)) := by
  obtain ⟨key', value', s', rfl, rfl, hs', hload⟩ :=
    loadHashMapEntry_text hkey hvalue (length_llToString_le hexpiry) rest s
  have haside : Aside s s' := by
    rw [hs']
    exact ⟨⟨rfl, rfl, rfl, rfl, id⟩, rfl⟩
  have hR := h.aside haside
  rw [toUnsigned_stringToLongLong hexpiry] at hload
  have hbytes : (Record.string key'.buf value'.buf (llToString expiry)).bytes ++ rest =
      le 8 BULKSTRING ++ (writeString key'.buf ++ writeString value'.buf ++
        writeString (llToString expiry) ++ rest) := by
    simp [Record.bytes]
  rw [hbytes]
  rcases hR.sane.setFromLoad hne (freeable_bulkString value') (hR.lookup_none hmissing)
    with ⟨hexp, hrun⟩ | ⟨hexp, node, t, hnode, hnodeexp, hrun, hwrites⟩
  · refine ⟨s', loadLoop_cons (by decide) ?_, haside.still, ?_⟩
    · rw [loadEntry, if_pos rfl, hload, bind_run_ok hrun]
      rfl
    · rw [filter_string, if_pos (haside.now ▸ hexp), ← hmissing, Function.update_eq_self]
      exact hR
  · refine ⟨t, loadLoop_cons (by decide) ?_, haside.still.trans hwrites.still, ?_⟩
    · rw [loadEntry, if_pos rfl, hload, bind_run_ok hrun]
      rfl
    · have hshows := Shows.string hnode (hnodeexp ▸ restoredExpiry_lt hexpiry)
      rw [hnodeexp] at hshows
      rw [filter_string, if_neg (not_lt.2 (haside.now ▸ hexp))]
      exact hR.leaves hwrites.toLeaves (.some hshows)

/-- The record of a bitmap. -/
theorem Represents.load_bitmap {words : List (BitVec 32)} (hwords : words.length ≤ 2 ^ 59) :
    ∃ t, loadLoop (fuel + 1) ((Record.bitmap key words).bytes ++ rest) s = loadLoop fuel rest t ∧
      Still s t ∧ Represents t (m.put key (.bitmap (bitAt words))) := by
  obtain ⟨key', s', rfl, hs', hload⟩ :=
    @loadBitmapEntry_run key ⟨words⟩ hkey (hwords.trans_lt (by decide)) rest s
  have haside : Aside s s' := by
    rw [hs']
    exact ⟨⟨rfl, rfl, rfl, rfl, id⟩, rfl⟩
  have hR := h.aside haside
  obtain ⟨node, t, hnode, hrun, hwrites⟩ := hR.sane.set hne (freeable_bitmap ⟨words⟩)
  have hbytes : (Record.bitmap key'.buf words).bytes ++ rest =
      le 8 BITMAP ++ (writeString key'.buf ++ le 8 words.length ++
        leArray 4 (words.map BitVec.toNat) ++ rest) := by
    simp [Record.bytes]
  refine ⟨t, ?_, haside.still.trans hwrites.still,
    hR.leaves hwrites.toLeaves (.some (.bitmap hnode hwords))⟩
  rw [hbytes]
  refine loadLoop_cons (by decide) ?_
  rw [loadEntry, if_neg (by decide), if_neg (by decide), if_pos rfl, hload, bind_run_ok hrun]
  rfl

end

/-! ## The records of a sorted set -/

/-- Pairs that can be entered one after the other as they are read back. -/
structure Enterable (ps : List (ℚ × List UInt8)) : Prop where
  nonempty : ∀ p ∈ ps, p.2 ≠ []
  length : ∀ p ∈ ps, p.2.length ≤ LOAD_BUFFER
  plain : ∀ p ∈ ps, cstr p.2 = p.2
  small : ∀ p ∈ ps, |sixDecimals p.1| < 2 ^ 31
  members : (ps.map Prod.snd).Nodup
  scores : (ps.map fun p => sixDecimals p.1).Nodup
  room : 64 * (ps.length + 1) ≤ 2 ^ 64

/-- The ranking that the pairs make once they have been read back. -/
def restoredScores (ps : List (ℚ × List UInt8)) : Scores :=
  Ranking.ofPairs labelRank (ps.map restoredPair)

theorem restoredScores_concat (ps : List (ℚ × List UInt8)) (p : ℚ × List UInt8) :
    restoredScores (ps ++ [p]) = (restoredScores ps).put p.2 (sixDecimals p.1) := by
  rw [restoredScores, List.map_append, List.map_singleton, Ranking.ofPairs_concat]
  rfl

/-- The next pair is new, and its score is not taken. -/
theorem Enterable.next {pre post : List (ℚ × List UInt8)} {p : ℚ × List UInt8}
    (h : Enterable (pre ++ p :: post)) : (restoredScores pre).scoreOf p.2 = none ∧
      Untied (restoredScores pre) p.2 (sixDecimals p.1) := by
  have hp : p ∈ pre ++ p :: post := by simp
  have hmembers := h.members
  have hscores := h.scores
  have hroom := h.room
  rw [List.map_append, List.map_cons, List.nodup_append] at hmembers hscores
  refine ⟨Ranking.scoreOf_eq_none_iff.2 fun q hq => ?_, h.plain p hp, fun q hq _ => ?_, ?_⟩
  · obtain ⟨p', hp', rfl⟩ := mem_restoredScores hq
    exact hmembers.2.2 p'.2 (List.mem_map_of_mem hp') p.2 List.mem_cons_self
  · obtain ⟨p', hp', rfl⟩ := mem_restoredScores hq
    exact hscores.2.2 (sixDecimals p'.1) (List.mem_map.2 ⟨p', hp', rfl⟩) (sixDecimals p.1)
      List.mem_cons_self
  · have hsize : (restoredScores pre).size ≤ (pre.map restoredPair).length :=
      Ranking.size_ofPairs_le _
    rw [List.length_map] at hsize
    rw [List.length_append, List.length_cons] at hroom
    omega

/-- The record of a pair. -/
def pairRecord (key : List UInt8) (p : ℚ × List UInt8) : Record :=
  .entry key (doubleToString p.1) p.2

section

variable {s : Server} {m : Dataset} (h : Represents s m) {key : List UInt8} (hne : key ≠ [])
  (hkey : key.length ≤ LOAD_BUFFER) (fuel : ℕ) (rest : List UInt8)

include h hne hkey

/-- The record of the next pair. -/
theorem Represents.load_entry {pre post : List (ℚ × List UInt8)} {p : ℚ × List UInt8}
    (hps : Enterable (pre ++ p :: post))
    (hscores : m.find s.now key = some (.sortedSet (restoredScores pre)) ∨
      m.find s.now key = none ∧ restoredScores pre = Ranking.empty) :
    ∃ t, loadLoop (fuel + 1) ((pairRecord key p).bytes ++ rest) s = loadLoop fuel rest t ∧
      Still s t ∧ Represents t (m.put key (.sortedSet (restoredScores (pre ++ [p])))) := by
  have hp : p ∈ pre ++ p :: post := by simp
  obtain ⟨hnew, hsafe⟩ := hps.next
  have hlength := hps.length p hp
  obtain ⟨hworked, hboard⟩ := @zaddPair (doubleToString p.1) p.2 (sixDecimals p.1)
    (startsScore_doubleToString p.1) (parseScore_doubleToString (hps.small p hp))
  obtain ⟨hcareful, hreply⟩ := hboard (restoredScores pre)
  have hs' : Represents { s with nextId := s.nextId + 1 + 1 + 1 + 1 } m :=
    h.aside ⟨⟨rfl, rfl, rfl, rfl, id⟩, rfl⟩
  have hkey' : (⟨s.nextId + 1, key⟩ : ExoString).buf ≠ [] := hne
  have htwo : 2 ≤ [doubleToString p.1, p.2].length := le_rfl
  obtain ⟨args, t, hrun, ht, hstill⟩ := hs'.zaddOn_run (newArg ⟨s.nextId, ascii "ZADD"⟩)
    (s.nextId + 1 + 1) hkey' htwo hscores (by simpa [hworked] using hps.nonempty p hp)
    (hcareful.2 hsafe)
  rw [hreply hnew] at hrun ht
  have hsize : ((restoredScores pre).put p.2 (sixDecimals p.1)).size ≠ 0 := by
    refine Nat.ne_of_gt (List.length_pos_of_mem (a := (sixDecimals p.1, p.2)) ?_)
    exact Ranking.mem_put.2 (.inl rfl)
  rw [if_neg hsize, ← restoredScores_concat] at ht
  obtain ⟨freed, hfree⟩ : ∃ freed, freeDeadArgs args t = .ok ((), { t with freed := freed }) :=
    ⟨_, freeDeadArgs_run args t⟩
  refine ⟨{ t with freed := freed }, ?_, ⟨hstill.now, hstill.dump⟩,
    ht.aside ⟨⟨rfl, rfl, rfl, rfl, id⟩, rfl⟩⟩
  have hbytes : (pairRecord key p).bytes ++ rest = le 8 SORTED_SET ++ (writeString key ++
      (writeString (doubleToString p.1) ++ (writeString p.2 ++ rest))) := by
    simp [pairRecord, Record.bytes]
  have hone : resultOf (.respInteger (numberToString 1)) "1" = 0 := by decide
  have hnewString : newString (ascii "ZADD") s =
      .ok (⟨s.nextId, ascii "ZADD"⟩, { s with nextId := s.nextId + 1 }) := rfl
  rw [hbytes]
  refine loadLoop_cons (by decide) ?_
  rw [loadEntry, if_neg (by decide), if_pos rfl, loadSkiplistEntry, bind_run_ok hnewString]
  refine (bind_run_ok (readString_writeString hkey _ _)).trans ?_
  refine (bind_run_ok (readString_writeString (length_doubleToString_le _) _ _)).trans ?_
  refine (bind_run_ok (readString_writeString hlength _ _)).trans ?_
  refine (bind_run_ok hrun).trans ?_
  refine (bind_run_ok hfree).trans ?_
  rw [hone]
  rfl

end

section

variable {key : List UInt8} (hne : key ≠ []) (hkey : key.length ≤ LOAD_BUFFER) (fuel : ℕ)
  (rest : List UInt8)

include hne hkey

/-- The records of the pairs that are left. -/
theorem Represents.load_entries {s : Server} {m : Dataset} {pre post : List (ℚ × List UInt8)}
    (hps : Enterable (pre ++ post))
    (h : Represents s (m.put key (.sortedSet (restoredScores pre)))) :
    ∃ t, loadLoop (post.length + fuel) (encode (post.map (pairRecord key)) ++ rest) s =
        loadLoop fuel rest t ∧
      Still s t ∧ Represents t (m.put key (.sortedSet (restoredScores (pre ++ post)))) := by
  induction post generalizing s pre with
  | nil => exact ⟨s, by simp [encode], .refl s, by rwa [List.append_nil]⟩
  | cons p post ih =>
      have hfind : (m.put key (.sortedSet (restoredScores pre))).find s.now key =
          some (.sortedSet (restoredScores pre)) := by
        simp [Dataset.find, Dataset.put, Datum.expired]
      obtain ⟨t, hrun, hstill, ht⟩ := h.load_entry hne hkey (post.length + fuel)
        (encode (post.map (pairRecord key)) ++ rest) hps (.inl hfind)
      rw [Dataset.put, Dataset.put, Function.update_idem] at ht
      rw [List.append_cons] at hps ⊢
      obtain ⟨u, hrun', hstill', hu⟩ := ih hps ht
      refine ⟨u, ?_, hstill.trans hstill', hu⟩
      rw [List.map_cons, encode, List.flatMap_cons, List.append_assoc, List.length_cons,
        Nat.add_right_comm]
      exact hrun.trans hrun'

/-- The records of a sorted set. -/
theorem Represents.load_sortedSet {s : Server} {m : Dataset} (h : Represents s m)
    (hmissing : m key = none) {p : ℚ × List UInt8} {ps : List (ℚ × List UInt8)}
    (hps : Enterable (p :: ps)) :
    ∃ t, loadLoop ((p :: ps).length + fuel)
        (encode ((p :: ps).map (pairRecord key)) ++ rest) s = loadLoop fuel rest t ∧
      Still s t ∧ Represents t (m.put key (.sortedSet (restoredScores (p :: ps)))) := by
  have hfind : m.find s.now key = none := by rw [Dataset.find, hmissing]; rfl
  obtain ⟨t, hrun, hstill, ht⟩ := @Represents.load_entry s m h key hne hkey (ps.length + fuel)
    (encode (ps.map (pairRecord key)) ++ rest) [] ps p hps (.inr ⟨hfind, rfl⟩)
  obtain ⟨u, hrun', hstill', hu⟩ := @Represents.load_entries key hne hkey fuel rest t m [p] ps hps ht
  refine ⟨u, ?_, hstill.trans hstill', hu⟩
  rw [List.map_cons, encode, List.flatMap_cons, List.append_assoc, List.length_cons,
    Nat.add_right_comm]
  exact hrun.trans hrun'

end

/-! ## The dump of a dataset -/

/-- A loadable sorted set can be entered pair by pair. -/
theorem Ranks.enterable {list : SkipList} {scores : Scores} (h : Ranks list scores)
    (hload : (Datum.sortedSet scores).Loadable) : Enterable scores.pairs := by
  obtain ⟨⟨T, hT, hpairs⟩, hplain⟩ := h
  obtain ⟨hsmall, hscores⟩ := hload
  refine ⟨fun p hp => ?_, fun p hp => (hsmall p hp).1, hplain, fun p hp => (hsmall p hp).2,
    scores.distinct, hscores, ?_⟩
  · rw [← hpairs] at hp
    obtain ⟨t, ht, rfl⟩ := List.mem_map.1 hp
    obtain ⟨node, hnode, -⟩ := Option.map_eq_some_iff.1
      ((hT.rep.table (T.label t).1 ⟨t, T.height t⟩).2 ⟨t, ht, rfl, rfl⟩)
    obtain ⟨hmem, hbuf⟩ := HashTable.mem_of_lookup hnode
    change (T.label t).1 ≠ []
    rw [← hbuf]
    exact hT.rep.keyed.nonempty _ node hmem
  · rw [← hpairs, WellFormed.length_pairs]
    exact hT.fits

section

variable {s : Server} {m : Dataset} (h : Represents s m)

include h

/-- The records of a node bring back what it shows. -/
theorem Represents.load_node {node : ListNode ExoVal} {d : Datum} (hshows : Shows node d)
    (hfreed : node.freed = false) (hne : node.key.buf ≠ [])
    (hkey : node.key.buf.length ≤ LOAD_BUFFER) (hd : d.Loadable)
    (hmissing : m node.key.buf = none) {recs : List Record} (hrecs : nodeRecords node = some recs)
    (fuel : ℕ) (rest : List UInt8) :
    ∃ t, loadLoop (recs.length + fuel) (encode recs ++ rest) s = loadLoop fuel rest t ∧
      Still s t ∧ Represents t (Function.update m node.key.buf
        ((some d.restored).filter fun d => !d.expired s.now)) := by
  rw [nodeRecords, hfreed] at hrecs
  cases hshows with
  | @string str hvalue hexpiry =>
      rw [hvalue] at hrecs
      cases hrecs
      rw [List.length_singleton, Nat.add_comm, encode, List.flatMap_singleton]
      exact h.load_string hne hkey hmissing fuel rest hd hexpiry
  | bitmap hvalue hwords =>
      rw [hvalue] at hrecs
      cases hrecs
      rw [List.length_singleton, Nat.add_comm, encode, List.flatMap_singleton]
      exact h.load_bitmap hne hkey hmissing fuel rest hwords
  | @sortedSet list scores hvalue hranks hsize =>
      have hps := hranks.enterable hd
      obtain ⟨⟨T, hT, hpairs⟩, -⟩ := hranks
      rw [hvalue] at hrecs
      simp only [hT.rep.entries_eq, hpairs] at hrecs
      cases hrecs
      rw [Ranking.size] at hsize
      rw [Datum.restored]
      generalize scores.pairs = ps at *
      cases ps with
      | nil => exact absurd rfl hsize
      | cons p ps =>
          obtain ⟨t, hrun, hstill, ht⟩ :=
            Represents.load_sortedSet hne hkey fuel rest h hmissing hps
          refine ⟨t, ?_, hstill, ?_⟩
          · rw [List.length_map]
            exact hrun
          · rw [Option.filter_some_pos rfl]
            exact ht

end

/-- The nodes of a dataset, one behind the other. -/
theorem Represents.load_nodes {nodes : List (ListNode ExoVal)} {saved : Dataset}
    (hnodes : ∀ node ∈ nodes, node.freed = false ∧ node.key.buf ≠ [] ∧
      ∃ d, saved node.key.buf = some d ∧ Shows node d)
    (hsaved : saved.Loadable) (hdistinct : (nodes.map fun node => node.key.buf).Nodup)
    {s : Server} {m : Dataset} (h : Represents s m)
    (hmissing : ∀ node ∈ nodes, m node.key.buf = none) {recs : List Record}
    (hrecs : listRecords nodes = some recs) (fuel : ℕ) :
    ∃ t, loadLoop (recs.length + fuel) (encode recs) s = loadLoop fuel [] t ∧ Still s t ∧
      Represents t fun k => if k ∈ nodes.map fun node => node.key.buf then saved.restored s.now k
        else m k := by
  induction nodes generalizing s m recs with
  | nil =>
      cases hrecs
      exact ⟨s, by simp [encode], .refl s, by simpa using h⟩
  | cons node nodes ih =>
      rw [List.map_cons, List.nodup_cons] at hdistinct
      obtain ⟨hfreed, hne, d, hd, hshows⟩ := hnodes node List.mem_cons_self
      obtain ⟨hkey, hload⟩ := hsaved _ d hd
      obtain ⟨recs₁, hrecs₁, hrest⟩ := Option.bind_eq_some_iff.1 hrecs
      obtain ⟨recs₂, hrecs₂, hrest⟩ := Option.bind_eq_some_iff.1 hrest
      cases hrest
      obtain ⟨t, hrun, hstill, ht⟩ := h.load_node hshows hfreed hne hkey hload
        (hmissing node List.mem_cons_self) hrecs₁ (recs₂.length + fuel) (encode recs₂)
      have hother : ∀ n ∈ nodes, n.key.buf ≠ node.key.buf := fun n hn hkey =>
        hdistinct.1 (hkey ▸ List.mem_map_of_mem hn)
      obtain ⟨u, hrun', hstill', hu⟩ := ih (fun n hn => hnodes n (List.mem_cons_of_mem _ hn))
        hdistinct.2 ht (fun n hn => by
          rw [Function.update_of_ne (hother n hn)]
          exact hmissing n (List.mem_cons_of_mem _ hn)) hrecs₂
      refine ⟨u, ?_, hstill.trans hstill', ?_⟩
      · rw [encode_append, List.length_append, Nat.add_assoc]
        exact hrun.trans hrun'
      · have hrestored : ((some d.restored).filter fun d => !d.expired s.now) =
            saved.restored s.now node.key.buf := by rw [Dataset.restored, hd]; rfl
        rw [hstill.now, hrestored] at hu
        convert hu using 2 with k
        by_cases hk : k = node.key.buf
        · simp [hk, hdistinct.1]
        · simp [hk]

theorem bucketRecords_eq (ht : HashTable ExoVal) (is : List ℕ) :
    bucketRecords ht is = listRecords (is.flatMap ht.buckets) := by
  induction is with
  | nil => rfl
  | cons i is ih => rw [bucketRecords, List.flatMap_cons, listRecords_append, ih]

theorem length_le_encode (recs : List Record) : recs.length ≤ (encode recs).length := by
  induction recs with
  | nil => exact le_rfl
  | cons r recs ih =>
      rw [encode, List.flatMap_cons, List.length_append, List.length_cons]
      have hpos := length_bytes_pos r
      change recs.length ≤ (recs.flatMap Record.bytes).length at ih
      omega

/-- A dump that has been loaded into an empty keyspace. -/
theorem Represents.load_run {s₀ s : Server} {saved : Dataset} (h₀ : Represents s₀ saved)
    (hsaved : saved.Loadable) {recs : List Record} (hrecs : contents s₀.HASH_TABLE = some recs)
    (h : Represents s Dataset.empty) (hdump : s.dump = some (encode recs)) :
    ∃ t, loadFromDB s = .ok (0, t) ∧ Still s t ∧ Represents t (saved.restored s.now) := by
  rw [contents, bucketRecords_eq] at hrecs
  have hkeyed := h₀.sane.keyed
  have hlookup : ∀ node ∈ s₀.HASH_TABLE.nodes, s₀.HASH_TABLE.lookup node.key.buf = some node ∧
      ∃ i, node ∈ s₀.HASH_TABLE.buckets i := by
    intro node hnode
    obtain ⟨i, -, hi⟩ := List.mem_flatMap.1 hnode
    exact ⟨(hkeyed.mem_iff_lookup.1 hi).2, i, hi⟩
  have hnodes : ∀ node ∈ s₀.HASH_TABLE.nodes, node.freed = false ∧ node.key.buf ≠ [] ∧
      ∃ d, saved node.key.buf = some d ∧ Shows node d := by
    intro node hnode
    obtain ⟨hfound, i, hi⟩ := hlookup node hnode
    have hshows := h₀.shows node.key.buf
    rw [hfound] at hshows
    generalize saved node.key.buf = d at *
    cases hshows with
    | some hd => exact ⟨hkeyed.unfreed _ _ hi, hkeyed.nonempty _ _ hi, _, rfl, hd⟩
  obtain ⟨extra, hextra⟩ := Nat.exists_eq_add_of_le (length_le_encode recs)
  obtain ⟨t, hrun, hstill, ht⟩ := Represents.load_nodes hnodes hsaved hkeyed.nodup_nodes h
    (fun _ _ => rfl) hrecs (extra + 1)
  refine ⟨t, ?_, hstill, ?_⟩
  · rw [loadFromDB_run hdump, hextra, Nat.add_assoc, hrun]
    rfl
  · convert ht using 2 with k
    split
    · rfl
    · next hk =>
        have hnone : s₀.HASH_TABLE.lookup k = none := by
          by_contra hsome
          obtain ⟨node, hnode⟩ := Option.ne_none_iff_exists'.1 hsome
          obtain ⟨hmem, hbuf⟩ := HashTable.mem_of_lookup hnode
          exact hk (List.mem_map.2 ⟨node, List.mem_flatMap.2
            ⟨keyHash k, List.mem_range.2 (keyHash_lt k), hmem⟩, hbuf⟩)
        have hshows := h₀.shows k
        rw [hnone] at hshows
        rw [Dataset.restored]
        generalize saved k = d at *
        cases hshows
        rfl

end Exoredis
