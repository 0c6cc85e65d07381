import Exoredis.SortedSet.Spans
import Exoredis.Dump.RoundTrip

/-!
# ZCOUNT and ZRANGE

On a list with exact spans the ranks that ZCOUNT subtracts count the members below and up
to a score, whatever ties there are (`zcount_eq`), and the place that ZRANGE looks up is
the place on the bottom level, so that it returns a slice of it (`zrange_eq`).
-/

namespace Exoredis

open SkipList Effect Decimal

/-! ## A keyspace with a list of one member -/

/-- The list of one member under the key `k`. -/
def loneServer : Server :=
  { blankServer (fun _ => 0) none with
    HASH_TABLE := HashTable.newHashTable.putBucket (ascii "k")
      (HashTable.newHashTable.buckets (keyHash (ascii "k")) ++
        [newNode ⟨0, ascii "k"⟩ (.sortedSet loneList)]) }

theorem keyed_loneServer : loneServer.HASH_TABLE.Keyed :=
  HashTable.keyed_newHashTable.keyed_append rfl rfl (by decide) rfl

theorem lookup_loneServer : loneServer.HASH_TABLE.lookup (ascii "k") =
    some (newNode ⟨0, ascii "k"⟩ (.sortedSet loneList)) :=
  @HashTable.Keyed.lookup_append ExoVal HashTable.newHashTable (ascii "k") _ rfl rfl (ascii "k")

/-- The arguments of a request on it. -/
def loneArgs (tokens : List String) : ArgList := argsFrom 2 (tokens.map ascii)

/-! ## Counting -/

/-- The bottom level is sorted by score; ties are in any order. -/
def Towers.SortedByScore (T : Towers) : Prop :=
  (T.levels 0).Pairwise fun t u => (T.label t).2 ≤ (T.label u).2

/-- The elements between two bounds, counted from those below one and those up to the
other; crossed bounds have none. -/
theorem countP_between {α : Type} (f : α → ℚ) (left right : ℚ) (l : List α) :
    (l.countP fun a => decide (left ≤ f a ∧ f a ≤ right)) =
      if l.countP (fun a => decide (f a < left)) > l.countP (fun a => decide (f a ≤ right)) then 0
      else l.countP (fun a => decide (f a ≤ right)) - l.countP fun a => decide (f a < left) := by
  rcases le_or_gt left right with hle | hgt
  · have hsum : l.countP (fun a => decide (f a ≤ right)) =
        l.countP (fun a => decide (f a < left)) +
          l.countP fun a => decide (left ≤ f a ∧ f a ≤ right) := by
      induction l with
      | nil => rfl
      | cons a l ih =>
          rw [List.countP_cons, List.countP_cons, List.countP_cons, ih]
          by_cases hlow : f a < left
          · have hright : f a ≤ right := hlow.le.trans hle
            simp only [hlow, hright, not_le.2 hlow, false_and, decide_true, decide_false, if_true,
              Bool.false_eq_true, if_false]
            omega
          · simp only [hlow, not_lt.1 hlow, true_and, decide_false, Bool.false_eq_true, if_false]
            omega
    rw [if_neg (by omega)]
    omega
  · have hnone : (l.countP fun a => decide (left ≤ f a ∧ f a ≤ right)) = 0 :=
      List.countP_eq_zero.2 fun a _ => by
        simpa using fun hl => lt_of_lt_of_le hgt hl
    have hmono : l.countP (fun a => decide (f a ≤ right)) ≤
        l.countP fun a => decide (f a < left) := by
      refine List.countP_mono_left fun a _ ha => ?_
      simpa using lt_of_le_of_lt (by simpa using ha) hgt
    rw [hnone]
    split <;> omega

namespace Shape

variable {list : SkipList} {T : Towers} (h : Shape list T)

include h

theorem pairwise_score (hT : T.SortedByScore) (i : ℕ) :
    (T.levels i).Pairwise fun t u => (T.label t).2 ≤ (T.label u).2 := by
  have hsub : (T.levels i).Sublist (T.levels 0) := List.cons_sublist_cons.1 (h.sublist_zero i)
  exact List.Pairwise.sublist hsub hT

theorem score_of_cell {i t : ℕ} (hi : i ≤ list.levels) (ht : t ∈ 0 :: T.levels i)
    {n : SkipListNode} (hn : list.heap ⟨t, i⟩ = some n) : n.score = (T.label t).2 := by
  obtain ⟨m, hm, hlabel, -⟩ := (h.level i hi).cell t ht
  obtain rfl := Option.some.inj (hn.symm.trans hm)
  exact congrArg Prod.snd hlabel

/-- The members below a score, or up to it. -/
theorem rankByScore_run (hT : T.SortedByScore) (score : ℚ) (inclusive : Bool) (s : Server) :
    list.rankByScore score inclusive s =
      .ok (if inclusive then (T.levels 0).countP fun t => decide ((T.label t).2 ≤ score)
        else (T.levels 0).countP fun t => decide ((T.label t).2 < score), s) := by
  have hscore : ∀ i ≤ list.levels, ∀ pre t u rest, 0 :: T.levels i = pre ++ t :: u :: rest →
      ∀ m : SkipListNode, list.heap ⟨u, i⟩ = some m → m.score = (T.label u).2 := by
    intro i hi pre t u rest hsplit m hm
    refine h.score_of_cell hi ?_ hm
    rw [hsplit]
    simp
  cases inclusive with
  | true =>
      refine h.rankBy_run (P := fun t => (T.label t).2 ≤ score) (fun i => ?_) ?_ s
      · exact (h.pairwise_score hT i).imp fun htu hu => htu.trans hu
      · intro i hi pre t u rest hsplit n m _ hm
        simp only [hscore i hi pre t u rest hsplit m hm]
  | false =>
      refine h.rankBy_run (P := fun t => (T.label t).2 < score) (fun i => ?_) ?_ s
      · exact (h.pairwise_score hT i).imp fun htu hu => htu.trans_lt hu
      · intro i hi pre t u rest hsplit n m _ hm
        simp only [hscore i hi pre t u rest hsplit m hm]

end Shape

/-- A value that is found under a key is found by `get`. -/
theorem getSortedSet_run {s : Server} (hs : s.HASH_TABLE.Keyed) {key : ExoString}
    {node : ListNode ExoVal} {list : SkipList}
    (hlookup : s.HASH_TABLE.lookup key.buf = some node) (hvalue : node.value = .sortedSet list) :
    onKeyspace (fun ht => ht.get key) s = .ok (some (.sortedSet list), s) := by
  obtain ⟨hmem, hkey⟩ := HashTable.mem_of_lookup hlookup
  have hne : key.buf ≠ [] := hkey ▸ hs.nonempty _ _ hmem
  obtain ⟨c, hc, rfl⟩ := HashTable.cursor_of_lookup hlookup
  have hlive : ¬ c.node.Expired s.now := by
    rintro ⟨htype, -⟩
    rw [hvalue] at htype
    change SORTED_SET = BULKSTRING at htype
    exact absurd htype (by decide)
  rw [onKeyspace_run (HashTable.get_live hs.unfreed hne hc hlive), hvalue]

/-- ZCOUNT is the number of members between the bounds, both included, for every bounds:
the two ranks count the members below the left one and up to the right one, and where the
first is the greater one nothing is subtracted. -/
theorem zcount_eq {list : SkipList} {T : Towers} (h : Shape list T) (hT : T.SortedByScore) :
    (∀ (left right : ℚ) (s : Server), ∃ mi ma,
      list.rankByScore left false s = .ok (mi, s) ∧ list.rankByScore right true s = .ok (ma, s) ∧
        (T.levels 0).countP (fun t => decide (left ≤ (T.label t).2 ∧ (T.label t).2 ≤ right)) =
          if mi > ma then 0 else ma - mi) ∧
      ∀ (s : Server) (cmd key : ArgListNode) (rest : ArgList) (node : ListNode ExoVal)
        (left right : ℚ), s.HASH_TABLE.Keyed → s.HASH_TABLE.lookup key.key.buf = some node →
        node.value = .sortedSet list → parseMinMax rest = some [left, right] →
        zcountCommand (cmd :: key :: rest) s = .ok ((.respInteger (numberToString
          ((T.levels 0).countP fun t => decide (left ≤ (T.label t).2 ∧ (T.label t).2 ≤ right))),
          cmd :: key :: rest), s) := by
  have hranks : ∀ (left right : ℚ) (s : Server), ∃ mi ma,
      list.rankByScore left false s = .ok (mi, s) ∧ list.rankByScore right true s = .ok (ma, s) ∧
        (T.levels 0).countP (fun t => decide (left ≤ (T.label t).2 ∧ (T.label t).2 ≤ right)) =
          if mi > ma then 0 else ma - mi := fun left right s =>
    ⟨_, _, h.rankByScore_run hT left false s, h.rankByScore_run hT right true s,
      countP_between _ left right _⟩
  refine ⟨hranks, fun s cmd key rest node left right hs hlookup hvalue hbounds => ?_⟩
  obtain ⟨mi, ma, hmi, hma, hcount⟩ := hranks left right s
  rw [zcountCommand, bind_run_ok (getSortedSet_run hs hlookup hvalue)]
  simp only [hbounds]
  rw [bind_run_ok hmi, bind_run_ok hma, hcount]
  rfl

theorem zcount_eq_loneList : zcountCommand (loneArgs ["ZCOUNT", "k", "5", "7"]) loneServer =
    .ok ((.respInteger (ascii "1"), loneArgs ["ZCOUNT", "k", "5", "7"]), loneServer) :=
  (zcount_eq shape_loneList (List.pairwise_singleton _ _)).2 loneServer _ _ _ _ 5 7
    keyed_loneServer lookup_loneServer rfl (by decide +kernel)

/-! ## Places -/

namespace Shape

variable {list : SkipList} {T : Towers} (h : Shape list T)

include h

theorem pairwise_rank (i : ℕ) : (0 :: T.levels i).Pairwise fun t u => T.rank t < T.rank u :=
  (pairwise_idxOf h.nodup).sublist (h.sublist_zero i)

theorem length_lt_size : (T.levels 0).length < 2 ^ 58 := by
  have hfits := h.fits
  omega

/-- A place on the bottom level leads to the tower there. -/
theorem rankByOrder_run {pos : ℕ} (hpos : pos < (T.levels 0).length) (s : Server) :
    list.rankByOrder pos s = .ok (((T.levels 0)[pos]?).map fun t => ⟨t, 0⟩, s) := by
  have hlt := h.length_lt_size
  have hunsigned : toUnsigned pos = pos := toUnsigned_natCast (by omega)
  have hrange : ¬ (toUnsigned pos ≥ list.size ∨ (pos : ℤ) < 0) := by
    rw [hunsigned, h.size]
    omega
  let advance : Advance := fun tmp _ count => decide (addSize count tmp.children ≤ toUnsigned pos)
  have hadvance : ∀ i ≤ list.levels, ∀ pre t u rest, 0 :: T.levels i = pre ++ t :: u :: rest →
      ∀ n m, list.heap ⟨t, i⟩ = some n → list.heap ⟨u, i⟩ = some m →
        advance n m (0 + T.rank t) = decide (T.rank u ≤ pos) := by
    intro i hi pre t u rest hsplit n m hn hm
    have hspan := h.addSize_span hi hsplit hn (Nat.zero_le 1)
    rw [Nat.zero_add, Nat.zero_add] at hspan
    simp only [advance, Nat.zero_add, hspan, hunsigned]
  obtain ⟨D, hrun, hD⟩ := h.descend_run (Nat.zero_le 1) hadvance s
  have hlast : LastWith (fun t => T.rank t ≤ pos) (0 :: T.levels 0) (D 0) := by
    refine hD.lastWith (P := fun t => T.rank t ≤ pos) ?_ (fun j => (h.nested j).subset)
      (fun i => ?_) (fun i _ pre t u rest hsplit _ => decide_eq_true_iff) (Nat.zero_le _)
    · rw [rank_head]
      exact Nat.zero_le _
    · exact (h.pairwise_rank i).imp fun htu hu => htu.le.trans hu
  obtain ⟨pre, rest, hsplit, -, hd, hrest⟩ := hlast
  have hnodup := h.nodup
  rw [hsplit, List.nodup_middle, List.nodup_cons, List.mem_append, not_or] at hnodup
  have hrank : T.rank (D 0) = pre.length := by
    rw [Towers.rank, hsplit, idxOf_append_cons hnodup.1.1]
  have hlength := congrArg List.length hsplit
  rw [List.length_cons, List.length_append, List.length_cons] at hlength
  -- the tower behind has a greater rank, so that the search ends at the place itself
  have hpre : pre.length = pos := by
    rw [hrank] at hd
    rcases Nat.eq_or_lt_of_le hd with heq | hlt
    · exact heq
    · cases rest with
      | nil => exact absurd hlength (by simp only [List.length_nil]; omega)
      | cons u rest =>
          refine absurd ?_ (hrest u List.mem_cons_self)
          rw [List.append_cons] at hsplit
          rw [Towers.rank, hsplit, idxOf_append_cons, List.length_append, List.length_singleton]
          · exact hlt
          · rw [List.mem_append, List.mem_singleton, not_or]
            refine ⟨fun hu => ?_, fun hu => hnodup.1.2 (hu ▸ List.mem_cons_self)⟩
            exact List.disjoint_of_nodup_append hnodup.2 hu List.mem_cons_self
  have hplace : (T.levels 0)[pos]? = rest.head? := by
    rw [← List.getElem?_cons_succ (a := 0), hsplit, ← hpre,
      List.getElem?_append_right (Nat.le_succ _), Nat.succ_sub (le_refl _), Nat.sub_self,
      List.getElem?_cons_succ, List.head?_eq_getElem?]
  obtain ⟨n, hn, -⟩ := (h.level 0 (Nat.zero_le _)).cell (D 0) (hD.mem 0 (Nat.zero_le _))
  have hnext : n.next = rest.head?.map fun u => ⟨u, 0⟩ := by
    have hlevel := h.level 0 (Nat.zero_le _)
    rw [hsplit] at hlevel
    have hnext := hlevel.next
    rwa [nextOf, hn] at hnext
  rw [rankByOrder, if_neg hrange, Effect.bind_run_ok hrun, List.range_succ_eq_map, List.map_cons,
    List.headD_cons, bind_run_ok (deref_run hn s), hnext, hplace]
  rfl

end Shape

/-! ## Slices -/

/-- The elements from one index to another, both included. -/
def indexSlice {α : Type} (l : List α) (first last : ℤ) : List α :=
  (l.take (last + 1).toNat).drop first.toNat

/-- The first index of ZRANGE among `n` members. -/
def firstIndex (n left : ℤ) : ℤ := if left < 0 then max (n + left) 0 else max left 0

/-- The last one. -/
def lastIndex (n right : ℤ) : ℤ := if right < 0 then n + right else min right (n - 1)

/-- What `clampRange` adds and subtracts. -/
def clampTerms (n left right : ℤ) : List ℤ :=
  let last := max (lastIndex n right) (-1)
  (if left < 0 then [n + left] else []) ++ (if right < 0 then [n + right] else []) ++
    [n - 1, last - firstIndex n left, last - firstIndex n left + 1]

def FitsLongLong (x : ℤ) : Prop := -2 ^ 63 ≤ x ∧ x < 2 ^ 63

theorem wrap64_of_fits {x : ℤ} (h : FitsLongLong x) : wrap64 x = x := by
  obtain ⟨hlow, hhigh⟩ := h
  rw [wrap64, Int.bmod_def]
  split_ifs <;> omega

theorem fits_wrap64 (x : ℤ) : FitsLongLong (wrap64 x) := by
  have hlow := @Int.le_bmod x (2 ^ 64) (by decide)
  have hhigh := @Int.bmod_lt x (2 ^ 64) (by decide)
  unfold FitsLongLong wrap64
  omega

theorem fits_of_abs_le {x : ℤ} (h : |x| ≤ LL_MAX) : FitsLongLong x := by
  rw [abs_le] at h
  unfold LL_MAX at h
  unfold FitsLongLong
  omega

section

variable {n left right : ℤ} (hn : 0 ≤ n) (hsize : n < 2 ^ 58) (hleft : FitsLongLong left)
  (hright : FitsLongLong right)

include hn hsize hleft hright

theorem clampTerms_fit : ∀ x ∈ clampTerms n left right, FitsLongLong x := by
  obtain ⟨hleftLow, hleftHigh⟩ := hleft
  obtain ⟨hrightLow, hrightHigh⟩ := hright
  intro x hx
  simp only [clampTerms, firstIndex, lastIndex, List.mem_append, List.mem_cons, List.not_mem_nil,
    or_false] at hx
  unfold FitsLongLong
  rcases hx with (hx | hx) | rfl | rfl | rfl
  · split_ifs at hx with hneg
    · rw [List.mem_singleton] at hx
      omega
    · cases hx
  · split_ifs at hx with hneg
    · rw [List.mem_singleton] at hx
      omega
    · cases hx
  · omega
  · split_ifs <;> omega
  · split_ifs <;> omega

theorem clampRange_of_fits : clampRange n left right =
    (firstIndex n left, max (max (lastIndex n right) (-1) - firstIndex n left + 1) 0) := by
  have hfits : ∀ x ∈ clampTerms n left right, wrap64 x = x := fun x hx =>
    wrap64_of_fits (clampTerms_fit hn hsize hleft hright x hx)
  have hfirst : (if left < 0 then max (wrap64 (n + left)) 0 else left) = firstIndex n left := by
    unfold firstIndex
    split_ifs with hneg
    · rw [hfits _ (by simp [clampTerms, hneg])]
    · exact (max_eq_left (not_lt.1 hneg)).symm
  have hlast : min (if right < 0 then max (wrap64 (n + right)) (-1) else right) (wrap64 (n - 1)) =
      max (lastIndex n right) (-1) := by
    rw [hfits (n - 1) (by simp [clampTerms])]
    unfold lastIndex
    split_ifs with hneg
    · rw [hfits _ (by simp [clampTerms, hneg])]
      omega
    · omega
  unfold clampRange
  simp only [hfirst, hlast]
  rw [hfits (max (lastIndex n right) (-1) - firstIndex n left) (by simp [clampTerms]),
    hfits _ (by simp [clampTerms])]

end

section

variable {n left right : ℤ} (hn : 0 ≤ n) (hsize : n < 2 ^ 58) (hleft : |left| ≤ LL_MAX)
  (hright : |right| ≤ LL_MAX)

include hn hsize hleft hright

theorem fits_clampTerms : ∀ x ∈ clampTerms n left right, FitsLongLong x :=
  clampTerms_fit hn hsize (fits_of_abs_le hleft) (fits_of_abs_le hright)

theorem clampRange_eq : clampRange n left right =
    (firstIndex n left, max (max (lastIndex n right) (-1) - firstIndex n left + 1) 0) :=
  clampRange_of_fits hn hsize (fits_of_abs_le hleft) (fits_of_abs_le hright)

end

theorem indexSlice_eq {α : Type} (l : List α) {first last : ℤ} (hfirst : 0 ≤ first) :
    indexSlice l first last = (l.drop first.toNat).take (max (max last (-1) - first + 1) 0).toNat := by
  have hlength : (max (max last (-1) - first + 1) 0).toNat = (last + 1).toNat - first.toNat := by
    omega
  rw [indexSlice, hlength, List.drop_take]

/-- An index as a client writes it. -/
def indexToken (z : ℤ) : List UInt8 :=
  if z < 0 then 45 :: llToString z.natAbs else llToString z.natAbs

theorem parseIndex_indexToken {z : ℤ} (hz : |z| ≤ LL_MAX) : parseIndex (indexToken z) = some z := by
  have habs : z.natAbs ≤ LL_MAX := by
    rw [← Int.natCast_natAbs] at hz
    exact_mod_cast hz
  have hvalue : toUnsigned (stringToLongLong (llToString z.natAbs)) = z.natAbs := by
    rw [stringToLongLong_llToString habs]
    refine toUnsigned_natCast (lt_of_le_of_lt habs ?_)
    decide
  unfold LL_MAX at habs
  by_cases hneg : z < 0
  · have hsplit : SkipList.splitMinus (indexToken z) = (true, llToString z.natAbs) := by
      rw [indexToken, if_pos hneg]
      rfl
    have hwrap : wrap64 (-1 * (z.natAbs : ℤ)) = z := by
      rw [wrap64_of_fits ⟨by omega, by omega⟩]
      omega
    rw [parseIndex, hsplit]
    simp only [hvalue, if_true]
    rw [if_neg (by omega), hwrap]
  · have hfirst : firstChar (llToString z.natAbs) ≠ 45 := by
      obtain ⟨c, hc, hhead⟩ : ∃ c ∈ llToString z.natAbs, firstChar (llToString z.natAbs) = c := by
        cases htoken : llToString z.natAbs with
        | nil => exact absurd htoken (decimal_ne_nil _)
        | cons c str => exact ⟨c, List.mem_cons_self, rfl⟩
      rw [hhead]
      rintro rfl
      exact absurd (decimal_digit _ _ hc) (by decide)
    have hsplit : SkipList.splitMinus (indexToken z) = (false, llToString z.natAbs) := by
      rw [indexToken, if_neg hneg, SkipList.splitMinus, if_neg hfirst]
    have hwrap : wrap64 (z.natAbs : ℤ) = z := by
      rw [wrap64_of_fits ⟨by omega, by omega⟩]
      omega
    rw [parseIndex, hsplit]
    simp only [hvalue, Bool.false_eq_true, if_false]
    rw [if_neg (by omega), hwrap]

/-- The elements of the reply for a tower. -/
def Towers.shown (T : Towers) (withscore : Bool) (t : ℕ) : List (List UInt8) :=
  (T.label t).1 :: if withscore then [doubleToString (T.label t).2] else []

/-- The members from a place on, up to `len` of them. Only strings are allocated. -/
theorem Shape.collectRange_allocates {list : SkipList} {T : Towers} (h : Shape list T)
    (withscore : Bool) (len : ℕ) {pre l : List ℕ} (hsplit : T.levels 0 = pre ++ l) (s : Server) :
    ∃ args id, collectRange list withscore len (l.head?.map fun t => ⟨t, 0⟩) s =
        .ok (args, { s with nextId := id }) ∧
      args.map (fun node => node.key.buf) = (l.take len).flatMap (T.shown withscore) := by
  induction len generalizing pre l s with
  | zero => exact ⟨[], s.nextId, rfl, rfl⟩
  | succ len ih =>
      cases l with
      | nil => exact ⟨[], s.nextId, rfl, rfl⟩
      | cons t l =>
          have hlevel := h.level 0 (Nat.zero_le _)
          rw [hsplit] at hlevel
          obtain ⟨n, hn, hlabel, -⟩ := hlevel.cell t (by simp)
          have hnext : n.next = l.head?.map fun u => ⟨u, 0⟩ := by
            rw [← List.cons_append] at hlevel
            have hnext := hlevel.next
            rwa [nextOf, hn] at hnext
          have hkey : n.key.buf = (T.label t).1 := congrArg Prod.fst hlabel
          have hscore : n.score = (T.label t).2 := congrArg Prod.snd hlabel
          rw [List.append_cons] at hsplit
          rw [List.head?_cons, Option.map_some, collectRange, bind_run_ok (deref_run hn s),
            List.take_succ_cons, List.flatMap_cons, Towers.shown, ← hkey, ← hscore]
          cases withscore with
          | true =>
              obtain ⟨args, id, hrun, hargs⟩ := ih hsplit { s with nextId := s.nextId + 1 }
              rw [← hnext] at hrun
              refine ⟨newArg n.key ::
                { newArg ⟨s.nextId, doubleToString n.score⟩ with dead := true } :: args, id, ?_, ?_⟩
              · have hnew : newString (doubleToString n.score) s =
                    .ok (⟨s.nextId, doubleToString n.score⟩, { s with nextId := s.nextId + 1 }) := rfl
                simp only [if_true]
                rw [bind_run_ok hnew, pure_bind, bind_run_ok hrun]
                rfl
              · rw [List.map_cons, List.map_cons, hargs]
                rfl
          | false =>
              obtain ⟨args, id, hrun, hargs⟩ := ih hsplit s
              rw [← hnext] at hrun
              refine ⟨newArg n.key :: args, id, ?_, ?_⟩
              · simp only [Bool.false_eq_true, if_false, pure_bind]
                rw [bind_run_ok hrun]
                rfl
              · rw [List.map_cons, hargs]
                rfl

theorem Shape.collectRange_run {list : SkipList} {T : Towers} (h : Shape list T)
    (withscore : Bool) (len : ℕ) {pre l : List ℕ} (hsplit : T.levels 0 = pre ++ l) (s : Server) :
    ∃ args s', collectRange list withscore len (l.head?.map fun t => ⟨t, 0⟩) s = .ok (args, s') ∧
      args.map (fun node => node.key.buf) = (l.take len).flatMap (T.shown withscore) := by
  obtain ⟨args, id, hrun, hargs⟩ := h.collectRange_allocates withscore len hsplit s
  exact ⟨args, _, hrun, hargs⟩

/-- What ZRANGE does once its range is known, whatever the indexes are. -/
theorem Shape.slice_run {list : SkipList} {T : Towers} (h : Shape list T) (withscore : Bool)
    {left right : ℤ} (hleft : FitsLongLong left) (hright : FitsLongLong right) {range : ℤ × ℤ}
    (hclamp : clampRange list.size left right = range) (s : Server) :
    ∃ args id, (do
        let sk_node ← if range.2 > 0 then list.rankByOrder range.1 else pure none
        collectRange list withscore range.2.toNat sk_node) s = .ok (args, { s with nextId := id }) ∧
      args.map (fun node => node.key.buf) =
        (indexSlice (T.levels 0) (firstIndex list.size left) (lastIndex list.size right)).flatMap
          (T.shown withscore) := by
  have hsize : (list.size : ℤ) < 2 ^ 58 := by
    rw [h.size]
    exact_mod_cast h.length_lt_size
  rw [clampRange_of_fits (Int.natCast_nonneg _) hsize hleft hright] at hclamp
  subst hclamp
  have hfirst : 0 ≤ firstIndex list.size left := by
    unfold firstIndex
    split_ifs <;> omega
  simp only [indexSlice_eq _ hfirst]
  have hlast : max (lastIndex list.size right) (-1) ≤ (list.size : ℤ) - 1 := by
    unfold lastIndex
    split_ifs <;> omega
  have hlength := h.size
  set first := firstIndex list.size left
  set last := max (lastIndex list.size right) (-1)
  obtain ⟨args, id, hrun, hargs⟩ := h.collectRange_allocates withscore (max (last - first + 1) 0).toNat
    (List.take_append_drop first.toNat (T.levels 0)).symm s
  refine ⟨args, id, ?_, hargs⟩
  by_cases hpos : max (last - first + 1) 0 > 0
  · have hcast : ((first.toNat : ℕ) : ℤ) = first := Int.toNat_of_nonneg hfirst
    have hstart := h.rankByOrder_run (show first.toNat < (T.levels 0).length by omega) s
    rw [hcast, ← List.head?_drop] at hstart
    rw [if_pos hpos, bind_run_ok hstart]
    exact hrun
  · have hzero : (max (last - first + 1) 0).toNat = 0 := by omega
    rw [hzero] at hrun ⊢
    rw [if_neg hpos]
    exact hrun

/-- ZRANGE answers with the slice of the bottom level between its indexes, each counted from
the end if it is negative, and each member is followed by its score exactly if `WITHSCORES`
is given. On the way the place of the first member leads to its tower, and no sum or
difference of indexes leaves the `long long`s. -/
theorem zrange_eq {list : SkipList} {T : Towers} (h : Shape list T) :
    (∀ pos < (T.levels 0).length, ∀ s,
      list.rankByOrder pos s = .ok (((T.levels 0)[pos]?).map fun t => ⟨t, 0⟩, s)) ∧
    (∀ z : ℤ, |z| ≤ LL_MAX → parseIndex (indexToken z) = some z) ∧
    ∀ left right : ℤ, |left| ≤ LL_MAX → |right| ≤ LL_MAX →
      (∀ x ∈ clampTerms list.size left right, FitsLongLong x) ∧
      ∀ (s : Server) (cmd key l r : ArgListNode) (options : ArgList) (node : ListNode ExoVal),
        s.HASH_TABLE.Keyed → s.HASH_TABLE.lookup key.key.buf = some node →
        node.value = .sortedSet list →
        parseIndex l.key.buf = some left → parseIndex r.key.buf = some right →
        (options = [] ∨ ∃ w : ArgListNode, options = [w] ∧
          strcmp (strUpCase w.key.buf) (ascii "WITHSCORES") = .eq) →
        ∃ args s', zrangeCommand (cmd :: key :: l :: r :: options) s =
            .ok ((.respArray args, cmd :: key :: l :: r :: options), s') ∧
          args.map (fun node => node.key.buf) =
            (indexSlice (T.levels 0) (firstIndex list.size left) (lastIndex list.size right)).flatMap
              (T.shown (!options.isEmpty)) := by
  have hsize : (list.size : ℤ) < 2 ^ 58 := by
    rw [h.size]
    exact_mod_cast h.length_lt_size
  refine ⟨fun pos hpos => h.rankByOrder_run hpos, fun z => parseIndex_indexToken,
    fun left right hleft hright => ⟨fits_clampTerms (by omega) hsize hleft hright, ?_⟩⟩
  intro s cmd key l r options node hs hlookup hvalue hl hr hoptions
  have hrange : parseRange (l :: r :: options) = .ok (left, right, !options.isEmpty) := by
    rcases hoptions with rfl | ⟨w, rfl, hw⟩
    · simp [parseRange, hl, hr]
    · simp [parseRange, hl, hr, hw]
  have hcount : ¬ ((cmd :: key :: l :: r :: options).length - 1 ≠ 3 ∧
      (cmd :: key :: l :: r :: options).length - 1 ≠ 4) := by
    rcases hoptions with rfl | ⟨w, rfl, -⟩ <;> simp
  have hfirst : 0 ≤ firstIndex list.size left := by
    unfold firstIndex
    split_ifs <;> omega
  set first := firstIndex list.size left with hfirstDef
  set len := max (max (lastIndex list.size right) (-1) - first + 1) 0 with hlen
  have hstart : (if len > 0 then list.rankByOrder first else pure none) s =
      .ok (if len > 0 then ((T.levels 0).drop first.toNat).head?.map fun t => ⟨t, 0⟩ else none, s) := by
    by_cases hpos : len > 0
    · have hlt : first.toNat < (T.levels 0).length := by
        have hlast : max (lastIndex list.size right) (-1) ≤ (list.size : ℤ) - 1 := by
          unfold lastIndex
          split_ifs <;> omega
        rw [← h.size]
        omega
      have hcast : ((first.toNat : ℕ) : ℤ) = first := Int.toNat_of_nonneg hfirst
      rw [if_pos hpos, if_pos hpos, List.head?_drop, ← h.rankByOrder_run hlt s, hcast]
    · rw [if_neg hpos, if_neg hpos]
      rfl
  obtain ⟨args, s', hrun, hargs⟩ := h.collectRange_run (!options.isEmpty) len.toNat
    (List.take_append_drop first.toNat (T.levels 0)).symm s
  refine ⟨args, s', ?_, by rw [indexSlice_eq _ hfirst]; exact hargs⟩
  rw [zrangeCommand, if_neg hcount]
  simp only [hrange]
  rw [bind_run_ok (getSortedSet_run hs hlookup hvalue)]
  simp only [clampRange_eq (Int.natCast_nonneg _) hsize hleft hright]
  rw [← hlen, ← hfirstDef]
  by_cases hpos : len > 0
  · rw [if_pos hpos, if_pos hpos] at hstart
    rw [if_pos hpos, bind_run_ok hstart, bind_run_ok hrun]
    rfl
  · have hzero : len.toNat = 0 := by omega
    rw [hzero] at hrun ⊢
    obtain ⟨rfl, rfl⟩ : args = [] ∧ s' = s := by
      rw [collectRange] at hrun
      cases hrun
      exact ⟨rfl, rfl⟩
    rw [if_neg hpos]
    rfl

theorem zrange_eq_loneList : ∃ args s',
    zrangeCommand (loneArgs ["ZRANGE", "k", "-1", "7", "withscores"]) loneServer =
        .ok ((.respArray args, loneArgs ["ZRANGE", "k", "-1", "7", "withscores"]), s') ∧
      args.map (fun node => node.key.buf) = [ascii "a", ascii "5.000000"] := by
  obtain ⟨args, s', hrun, hargs⟩ := ((zrange_eq shape_loneList).2.2 (-1) 7 (by decide) (by decide)).2
    loneServer (newArg ⟨2, ascii "ZRANGE"⟩) (newArg ⟨3, ascii "k"⟩) (newArg ⟨4, ascii "-1"⟩)
    (newArg ⟨5, ascii "7"⟩) [newArg ⟨6, ascii "withscores"⟩] _ keyed_loneServer lookup_loneServer rfl
    (by decide +kernel) (by decide +kernel) (.inr ⟨_, rfl, by decide +kernel⟩)
  exact ⟨args, s', hrun, hargs.trans (by decide +kernel)⟩

end Exoredis
