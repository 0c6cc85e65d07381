import Exoredis.Library.Ranking
import Exoredis.SortedSet.Boards
import Exoredis.SortedSet.Freeing
import Exoredis.SortedSet.WellFormed

/-!
# Sorted sets and rankings

A well-formed sorted set stands for the ranking of its bottom level (`Ranks`), whatever the
heights of its towers. As long as no member is put at the score of another one, ZADD keeps it
well formed and does what it does on the ranking (`keeps_ranks`).
-/

namespace Exoredis

open Effect SkipList

/-- Scores first, then bytes. -/
def labelRank : ℚ × List UInt8 ↪ ℚ ×ₗ List ℕ where
  toFun p := rankOf (p.2, p.1)
  inj' p q h := by
    have heq := rankOf_injective h
    exact Prod.ext (congrArg Prod.snd heq) (congrArg Prod.fst heq)

/-- The members of a sorted set with their scores, in order. -/
abbrev Scores := Ranking labelRank

def scoreboard : Scoreboard Scores (List UInt8) ℚ := Ranking.board labelRank

namespace Towers

/-- The score and the member of a tower. -/
def pair (T : Towers) (t : ℕ) : ℚ × List UInt8 := ((T.label t).2, (T.label t).1)

def pairs (T : Towers) : List (ℚ × List UInt8) := (T.levels 0).map T.pair

end Towers

/-- An entry without its height. -/
def Entry.pair (e : Entry) : ℚ × List UInt8 := (e.score, e.member)

theorem pairs_eq (T : Towers) : T.pairs = T.entries.map Entry.pair := by
  rw [Towers.pairs, Towers.entries, List.map_map]
  rfl

theorem map_pair_place (e : Entry) (es : List Entry) :
    (place e es).map Entry.pair = Ranking.insertPair labelRank e.pair (es.map Entry.pair) := by
  rw [place, Ranking.insertPair]
  exact List.map_orderedInsert _ _ _ _ _ (fun _ _ => Iff.rfl) fun _ _ => Iff.rfl

theorem map_pair_others (es : List Entry) (m : List UInt8) :
    (others es m).map Entry.pair = (es.map Entry.pair).filter fun p => p.2 ≠ m := by
  rw [others, List.filter_map]
  rfl

/-- The sorted set stands for the ranking. No member contains a NUL byte. -/
def Ranks (list : SkipList) (r : Scores) : Prop :=
  (∃ T, WellFormed list T ∧ T.pairs = r.pairs) ∧ ∀ p ∈ r.pairs, cstr p.2 = p.2

/-- The member can be put at the score: no other member has it, and there is room. -/
structure Untied (r : Scores) (m : List UInt8) (x : ℚ) : Prop where
  plain : cstr m = m
  untied : ∀ p ∈ r.pairs, p.2 ≠ m → p.1 ≠ x
  room : 64 * (r.size + 2) ≤ 2 ^ 64

instance (r : Scores) (m : List UInt8) (x : ℚ) : Decidable (Untied r m x) :=
  decidable_of_iff (cstr m = m ∧ (∀ p ∈ r.pairs, p.2 ≠ m → p.1 ≠ x) ∧ 64 * (r.size + 2) ≤ 2 ^ 64)
    ⟨fun h => ⟨h.1, h.2.1, h.2.2⟩, fun h => ⟨h.plain, h.untied, h.room⟩⟩

theorem freeable_sortedSetEntry (p : NodePtr) : Freeable (.sortedSetEntry p) := fun s => ⟨s, rfl⟩

section

variable {list : SkipList} {T : Towers} (h : WellFormed list T) {member : ExoString}

include h

/-- A new member with a new score is entered at its rank. -/
theorem WellFormed.enter_run (hne : member.buf ≠ []) (hplain : cstr member.buf = member.buf)
    (hnew : list.table.lookup member.buf = none) {score : ℚ}
    (hscore : ∀ t ∈ T.levels 0, (T.label t).2 ≠ score)
    (hfits : 64 * ((T.levels 0).length + 2) ≤ 2 ^ 64) (s : Server) :
    ∃ list' T' t, list.addNodeToSkiplist member score s = .ok (list', t) ∧ Aside s t ∧
      WellFormed list' T' ∧
      T'.pairs = Ranking.insertPair labelRank (score, member.buf) T.pairs := by
  obtain ⟨list', T', t, -, hrun, ht, -, -, hwell, hentries, -⟩ := h.add_run hne hnew hplain hfits
    (fun D hD j hj => h.lastWith_untied hplain hscore hD hj) s
  refine ⟨list', T', t, hrun, ?_, hwell, ?_⟩
  · rw [ht]
    exact ⟨⟨rfl, rfl, rfl, rfl, id⟩, rfl⟩
  · rw [pairs_eq, hentries, map_pair_place, pairs_eq]
    rfl

/-- The tower of a member is taken out. -/
theorem WellFormed.drop_run {u : ℕ} (hu : u ∈ T.levels 0) (hmember : member.buf = (T.label u).1)
    (s : Server) :
    ∃ list' T' t, list.removeNodeFromSkipList member (T.label u).2 ⟨u, T.height u⟩ s =
        .ok (list', t) ∧ Aside s t ∧ t.coins = s.coins ∧ WellFormed list' T' ∧
      T'.pairs = T.pairs.filter (fun p => p.2 ≠ member.buf) := by
  obtain ⟨list', T', t, -, hrun, -, -, hwell, hentries, -⟩ := h.removeNodeFromSkipList_run hu hmember s
  have hfits := h.fits
  obtain ⟨-, list₁, t₁, freed, hrun₁, ht₁, -⟩ :=
    h.ranked.removeNodeFromSkipList_run h.rep hu hmember (by omega) s
  obtain ⟨rfl, rfl⟩ := Prod.mk.inj (Except.ok.inj (hrun₁.symm.trans hrun))
  refine ⟨list₁, T', t₁, hrun, ?_, ?_, hwell, ?_⟩
  · rw [ht₁]
    refine ⟨⟨rfl, rfl, rfl, rfl, fun hs val hval => ?_⟩, rfl⟩
    rcases List.mem_append.1 hval with hval | hval
    · exact hs val hval
    · rw [List.mem_singleton.1 hval]
      exact freeable_sortedSetEntry _
  · rw [ht₁]
  · rw [pairs_eq, hentries, map_pair_others, pairs_eq]

end

theorem WellFormed.length_pairs (T : Towers) : T.pairs.length = (T.levels 0).length :=
  List.length_map _

/-- A member that the ranking does not have is not in the table. -/
theorem lookup_of_pairs {list : SkipList} {T : Towers} (h : Rep list T) {m : List UInt8}
    (hm : ∀ p ∈ T.pairs, p.2 ≠ m) : list.table.lookup m = none := by
  rw [← Option.map_eq_none_iff (f := ListNode.value), Option.eq_none_iff_forall_ne_some]
  intro p hp
  obtain ⟨t, ht, hlabel, -⟩ := (h.table _ _).1 hp
  exact hm (T.pair t) (List.mem_map_of_mem ht) hlabel

def emptyTowers : Towers where
  levels _ := []
  label _ := (ascii "sentinel", DOUBLE_MIN)
  height _ := 0

theorem rep_emptyList (id : ℕ) : Rep (emptyList id) emptyTowers where
  head := rfl
  bound := (by decide : 0 < SKIPLIST_MAX_LEVEL)
  level i hi := by
    obtain rfl := Nat.le_zero.1 hi
    refine ⟨fun t ht => ?_, ?_, trivial⟩
    · obtain rfl := List.mem_singleton.1 ht
      exact ⟨_, rfl, rfl, rfl⟩
    · rfl
  mem_iff i t := by simp [emptyTowers]
  height_le t ht := by cases ht
  nodup _ := List.nodup_singleton 0
  lt_fresh t ht := by
    obtain rfl := List.mem_singleton.1 ht
    exact Nat.one_pos
  sentinel := rfl
  keyed := HashTable.keyed_newHashTable
  table m p := by
    refine ⟨fun hm => ?_, ?_⟩
    · cases hm
    · rintro ⟨t, ht, -⟩
      cases ht
  size := rfl

theorem wellFormed_emptyList (id : ℕ) : WellFormed (emptyList id) emptyTowers where
  rep := rep_emptyList id
  ranked := ⟨fun t ht => (by cases ht), fun _ => List.Pairwise.nil⟩
  span i hi t ht n hn := by
    obtain rfl := Nat.le_zero.1 hi
    obtain rfl := List.mem_singleton.1 ht
    cases hn
    rfl
  fits := by decide

theorem plain_put {r : Scores} {m : List UInt8} {x : ℚ} (h : ∀ p ∈ r.pairs, cstr p.2 = p.2)
    (hsafe : Untied r m x) : ∀ p ∈ (scoreboard.put r m x).pairs, cstr p.2 = p.2 := by
  intro p hp
  rcases Ranking.mem_put.1 hp with rfl | ⟨hp, -⟩
  · exact hsafe.plain
  · exact h p hp

/-- Well-formed sorted sets keep to their rankings. -/
theorem keeps_ranks : Keeps scoreboard Ranking.size (fun list r _ => Ranks list r) Untied where
  found := by
    rintro list r s member x ⟨⟨T, hT, hpairs⟩, hplain⟩ hne hscore
    have hx : (x, member.buf) ∈ T.pairs := hpairs ▸ Ranking.scoreOf_eq_some_iff.1 hscore
    rcases hT.rep.get_run hne s with ⟨u, hu, hmember, hget⟩ | ⟨hnone, -, -⟩
    · obtain ⟨n, hn, hnscore⟩ := hT.rep.deref_top hu s
      have hxu : x = (T.label u).2 := by
        obtain ⟨v, hv, hpair⟩ := List.mem_map.1 hx
        have hlabel : (T.label v).1 = (T.label u).1 := (congrArg Prod.snd hpair).trans hmember
        rw [← hT.rep.key_injective hv hu hlabel]
        exact (congrArg Prod.fst hpair).symm
      refine ⟨_, n, hget, hn, hnscore.trans hxu.symm, fun score hsafe => ?_⟩
      obtain ⟨list₁, T₁, s₁, hdrop, haside, hcoins, hT₁, hpairs₁⟩ := hT.drop_run hu hmember s
      have hothers : ∀ p ∈ T₁.pairs, p ∈ r.pairs ∧ p.2 ≠ member.buf := by
        intro p hp
        rw [hpairs₁, hpairs] at hp
        simpa using hp
      have hsize : (T₁.levels 0).length ≤ r.size := by
        rw [← WellFormed.length_pairs, hpairs₁, hpairs]
        exact List.length_filter_le _ _
      have hroom := hsafe.room
      obtain ⟨list', T', t, hadd, haside', hT', hpairs'⟩ := hT₁.enter_run hne hsafe.plain
        (lookup_of_pairs hT₁.rep fun p hp => (hothers p hp).2)
        (fun v hv => hsafe.untied _ (hothers _ (List.mem_map_of_mem hv)).1
          (hothers _ (List.mem_map_of_mem hv)).2) (by omega) s₁
      refine ⟨list', t, ?_, haside.trans haside', ⟨T', hT', ?_⟩, plain_put hplain hsafe⟩
      · rw [moveMember, bind_run_ok hn, hnscore, bind_run_ok hdrop]
        exact hadd
      · rw [hpairs', hpairs₁, hpairs]
        rfl
    · obtain ⟨v, hv, hpair⟩ := List.mem_map.1 hx
      exact absurd (congrArg Prod.snd hpair) (hnone v hv)
  missing := by
    rintro list r s member ⟨⟨T, hT, hpairs⟩, hplain⟩ hne hscore
    have hother : ∀ p ∈ T.pairs, p.2 ≠ member.buf := hpairs ▸ Ranking.scoreOf_eq_none_iff.1 hscore
    have hnew := lookup_of_pairs hT.rep hother
    refine ⟨?_, fun score hsafe => ?_⟩
    · rcases hT.rep.get_run hne s with ⟨u, hu, hmember, -⟩ | ⟨-, -, hget⟩
      · exact absurd hmember.symm (hother _ (List.mem_map_of_mem hu))
      · exact hget
    · have hroom := hsafe.room
      rw [Ranking.size, ← hpairs, WellFormed.length_pairs] at hroom
      obtain ⟨list', T', t, hadd, haside, hT', hpairs'⟩ := hT.enter_run hne hsafe.plain hnew
        (fun v hv => hsafe.untied (T.pair v) (hpairs ▸ List.mem_map_of_mem hv)
          (hother _ (List.mem_map_of_mem hv))) hroom s
      refine ⟨list', t, hadd, haside, ⟨T', hT', ?_⟩, plain_put hplain hsafe⟩
      have hwithout : r.without member.buf = r.pairs := by
        rw [Ranking.without, List.filter_eq_self]
        intro p hp
        exact decide_eq_true (hother p (hpairs ▸ hp))
      change T'.pairs = Ranking.insertPair labelRank (score, member.buf) (r.without member.buf)
      rw [hpairs', hwithout, hpairs]
  size := by
    rintro list r c ⟨⟨T, hT, hpairs⟩, -⟩
    rw [hT.rep.size, Ranking.size, ← hpairs, WellFormed.length_pairs]
  empty := by
    intro list r c id hR hcard
    exact ⟨⟨emptyTowers, wellFormed_emptyList id, (List.length_eq_zero_iff.1 hcard).symm⟩, hR.2⟩
  freeable := by
    rintro list r c ⟨⟨T, hT, -⟩, -⟩
    exact hT.rep.freeable

end Exoredis
