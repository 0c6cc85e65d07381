import Exoredis.SortedSet.WellFormed

/-!
# Members with NUL bytes

The member table compares members byte for byte, the skip list up to the first NUL byte.
Where all scores differ the searches go by scores alone, but the unlinking loop of a
removal still compares bytes: it takes a cell of the tower for every successor on its way
down that is equal to the member up to a NUL byte. A member can be moved to a new score
exactly if no level above its tower leads to such a twin (`movesAlone_iff`).
-/

namespace Exoredis

open SkipList Effect

/-- All scores differ, and every level is in their order. -/
def Towers.Spread (T : Towers) : Prop :=
  ∀ i, (T.levels i).Pairwise fun t u => (T.label t).2 < (T.label u).2

/-- The first tower of level `i` with a greater score. -/
def Towers.firstAbove (T : Towers) (i : ℕ) (score : ℚ) : Option ℕ :=
  (T.levels i).find? fun u => decide (score < (T.label u).2)

/-- No level above tower `t` leads from its place to a tower with the same bytes up to the
first NUL byte. -/
def NoTwin (list : SkipList) (T : Towers) (t : ℕ) : Prop :=
  ∀ j ≤ list.levels, T.height t < j → ∀ u, T.firstAbove j (T.label t).2 = some u →
    strcmp (T.label t).1 (T.label u).1 ≠ .eq

/-- In the list afterwards every other member has its score and its levels, once each, and
the member itself has the new score. -/
structure OthersKept (T T' : Towers) (t : ℕ) (member : List UInt8) (score : ℚ) : Prop where
  levels : ∀ u ∈ T.levels 0, u ≠ t → ∀ i, u ∈ T'.levels i ↔ u ∈ T.levels i
  label : ∀ u ∈ T.levels 0, u ≠ t → T'.label u = T.label u
  nodup : ∀ i, (T'.levels i).Nodup
  members : ((T'.levels 0).map fun u => (T'.label u).1).Nodup
  moved : ∃ x ∈ T'.levels 0, T'.label x = (member, score)
  size : (T'.levels 0).length = (T.levels 0).length

section

variable {list : SkipList} {T : Towers} (h : Rep list T) (hT : T.Spread) {t : ℕ}
  (ht : t ∈ T.levels 0)

include h hT ht

omit h in
theorem score_ne {u : ℕ} (hu : u ∈ T.levels 0) (hut : u ≠ t) : (T.label u).2 ≠ (T.label t).2 := by
  have hnodup : ((T.levels 0).map fun u => (T.label u).2).Nodup :=
    List.pairwise_map.2 ((hT 0).imp ne_of_lt)
  exact fun heq => hut (List.inj_on_of_nodup_map hnodup hu ht heq)

/-- The search for a member goes on to the last lower score. -/
theorem lastWith_score {key : ExoString} (hkey : key.buf = (T.label t).1) {D : ℕ → ℕ}
    (hD : Stops (onTowers (removeCond key.buf (T.label t).2) T.label) T.levels list.levels 0 D)
    {j : ℕ} (hj : j ≤ list.levels) :
    LastWith (T.HeadOr fun l => l.2 < (T.label t).2) (0 :: T.levels j) (D j) := by
  refine hD.lastWith (.inl rfl) h.subset (fun i => ?_) (fun i _ pre b c rest hsplit _ => ?_) hj
  · refine List.pairwise_cons.2 ⟨fun _ _ _ => .inl rfl, (hT i).imp_of_mem fun {b c} _ hc hlt hor => ?_⟩
    exact .inr (hlt.trans (hor.resolve_left (h.ne_zero hc)))
  · obtain ⟨hc, hc0⟩ := h.successor hsplit
    have hcond : onTowers (removeCond key.buf (T.label t).2) T.label b c = true ↔
        (T.label c).2 < (T.label t).2 := by
      simp only [onTowers, removeCond, Bool.or_eq_true, Bool.and_eq_true, decide_eq_true_eq]
      refine or_iff_left ?_
      rintro ⟨hscore, hlt⟩
      have hct : c = t := by
        by_contra hne
        exact score_ne hT ht ((h.mem_iff i c).1 hc).1 hne hscore
      rw [hct, hkey, strcmp_lt_iff] at hlt
      exact lt_irrefl _ hlt
    rw [hcond, Towers.HeadOr, or_iff_right hc0]

theorem successor_score {key : ExoString} (hkey : key.buf = (T.label t).1) {D : ℕ → ℕ}
    (hD : Stops (onTowers (removeCond key.buf (T.label t).2) T.label) T.levels list.levels 0 D)
    {j : ℕ} (hj : j ≤ T.height t) : T.successor D j = some t := by
  refine (lastWith_score h hT ht hkey hD (hj.trans (h.height_le t ht))).head?_behind (h.nodup j)
    (List.mem_cons_of_mem _ ((h.mem_iff j t).2 ⟨ht, hj⟩)) ?_ fun u hu => ?_
  · rintro (rfl | hlt)
    · exact h.ne_zero ht rfl
    · exact lt_irrefl _ hlt
  · have hsorted : (0 :: T.levels j).Pairwise fun u t => T.HeadOr (fun l => l.2 < (T.label t).2) u :=
      List.pairwise_cons.2 ⟨fun _ _ => .inl rfl, (hT j).imp .inr⟩
    exact List.pairwise_iff_forall_sublist.1 hsorted hu

/-- Above the tower the search stops before the first greater score. -/
theorem successor_above {key : ExoString} (hkey : key.buf = (T.label t).1) {D : ℕ → ℕ}
    (hD : Stops (onTowers (removeCond key.buf (T.label t).2) T.label) T.levels list.levels 0 D)
    {j : ℕ} (hj : j ≤ list.levels) (hjt : T.height t < j) :
    T.successor D j = T.firstAbove j (T.label t).2 := by
  have hdecidable : DecidablePred (T.HeadOr fun l => l.2 < (T.label t).2) :=
    fun u => inferInstanceAs (Decidable (_ ∨ _))
  have hlast := lastWith_score h hT ht hkey hD hj
  rw [Towers.successor, hlast.head?_behind_eq_find? (h.nodup j),
    List.find?_cons_of_neg (by simp [Towers.HeadOr]), Towers.firstAbove]
  refine List.find?_congr fun u hu => ?_
  have hu' := (h.mem_iff j u).1 hu
  have hut : u ≠ t := by
    rintro rfl
    exact absurd hu'.2 (not_le.2 hjt)
  have hne := score_ne hT ht hu'.1 hut
  have hiff : ¬ T.HeadOr (fun l => l.2 < (T.label t).2) u ↔ (T.label t).2 < (T.label u).2 := by
    rw [Towers.HeadOr, or_iff_right (h.ne_zero hu), not_lt]
    exact ⟨fun hle => lt_of_le_of_ne hle hne.symm, le_of_lt⟩
  rw [← decide_not]
  exact decide_eq_decide.2 hiff

end

/-! ## Moving a member -/

theorem othersKept_move {list : SkipList} {T : Towers} (h : Rep list T) {t : ℕ}
    (ht : t ∈ T.levels 0) {list₁ list₂ : SkipList} {D : ℕ → ℕ} {r : ℕ} {member : List UInt8}
    {score : ℚ} (hD : ∀ j, D j ∈ 0 :: (T.remove t).levels j)
    (h₂ : Rep list₂ ((T.remove t).insert D list₁.fresh r (member, score)))
    (hfresh : ∀ u ∈ T.levels 0, u < list₁.fresh) :
    OthersKept T ((T.remove t).insert D list₁.fresh r (member, score)) t member score := by
  have hmem : ∀ j u, u ∈ (T.remove t).levels j ↔ u ≠ t ∧ u ∈ T.levels j := fun j u =>
    (List.nodup_cons.1 (h.nodup j)).2.mem_erase_iff
  have hne : ∀ u ∈ T.levels 0, u ≠ list₁.fresh := fun u hu => (hfresh u hu).ne
  have hlength : ((T.remove t).levels 0).length + 1 = (T.levels 0).length := by
    have hpos := List.length_pos_of_mem ht
    rw [Towers.remove, List.length_erase_of_mem ht]
    omega
  constructor
  · intro u hu hut i
    rw [Towers.mem_insert (hD i), hmem i u]
    constructor
    · rintro (⟨rfl, -⟩ | ⟨-, hu'⟩)
      · exact absurd rfl (hne _ hu)
      · exact hu'
    · exact fun hu' => .inr ⟨hut, hu'⟩
  · intro u hu _
    exact Function.update_of_ne (hne u hu) _ _
  · exact fun i => (List.nodup_cons.1 (h₂.nodup i)).2
  · refine List.pairwise_map.2 ((List.nodup_cons.1 (h₂.nodup 0)).2.imp_of_mem
      fun {u v} hu hv huv heq => huv (h₂.key_injective hu hv heq))
  · exact ⟨list₁.fresh, (Towers.mem_insert (hD 0)).2 (.inl ⟨rfl, Nat.zero_le _⟩),
      Function.update_self _ _ _⟩
  · rw [Towers.length_insert (hD 0), hlength]

section

variable {list : SkipList} {T : Towers} (h : Rep list T) (hT : T.Spread) {t : ℕ}
  (ht : t ∈ T.levels 0) {member : ExoString} (hmember : member.buf = (T.label t).1)

include h hT ht hmember

theorem moveMember_run (hsize : (T.levels 0).length < 2 ^ 64) (hnot : NoTwin list T t) (score : ℚ)
    (s : Server) :
    ∃ list' T' s', list.moveMember member score ⟨t, T.height t⟩ s = .ok (list', s') ∧
      Rep list' T' ∧ OthersKept T T' t member.buf score := by
  obtain ⟨n, hn, hscore⟩ := h.deref_top ht s
  obtain ⟨D, list₁, s₁, freed, hremove, -, -, hremoved, h₁⟩ :=
    h.removeNodeFromSkipList_run ht hmember rfl
      (fun D hD j hj => successor_score h hT ht hmember hD hj) hsize
      (fun D hD j hj hjt u hu => by
        rw [successor_above h hT ht hmember hD hj hjt] at hu
        exact hnot j hj hjt u hu) s
  have hlength := Rep.length_remove ht
  have hlookup : list₁.table.lookup member.buf = none := by
    rw [hmember]
    exact h.absent_of_remove ht h₁
  have hne : member.buf ≠ [] := by
    rw [hmember]
    exact h.key_ne_nil ht
  obtain ⟨D', C, list₂, s₂, hadd, -, -, hD', habove, -, h₂⟩ :=
    h₁.addNodeToSkiplist_run hne hlookup (by omega) score s₁
  refine ⟨list₂, _, s₂, ?_, h₂, othersKept_move h ht (fun j => ?_) h₂ fun u hu => ?_⟩
  · rw [moveMember, bind_run_ok hn, hscore, bind_run_ok hremove]
    exact hadd
  · by_cases hj : j ≤ list₁.levels
    · exact hD'.mem j hj
    · rw [(habove j (not_le.1 hj)).1]
      exact List.mem_cons_self
  · rw [hremoved.fresh]
    exact h.lt_fresh u (List.mem_cons_of_mem _ hu)

theorem moveMember_twin (htwin : ¬ NoTwin list T t) (score : ℚ) (s : Server) :
    list.moveMember member score ⟨t, T.height t⟩ s = .error .nullDereference := by
  obtain ⟨n, hn, hscore⟩ := h.deref_top ht s
  simp only [NoTwin, not_forall, not_not] at htwin
  obtain ⟨j, hj, hjt, u, hu, hcmp⟩ := htwin
  rw [moveMember, bind_run_ok hn, hscore, bind_run_error]
  refine h.removeNodeFromSkipList_twin ht hmember rfl
    (fun D hD j hj => successor_score h hT ht hmember hD hj) (fun D hD => ?_) s
  refine ⟨j, hj, hjt, u, ?_, hcmp⟩
  rw [successor_above h hT ht hmember hD hj hjt]
  exact hu

end

/-- The request ends, and of the list only the moved member has changed. -/
def MovesAlone (request : Exo (Reply × SkipList × ArgList)) (T : Towers) (t : ℕ)
    (member : List UInt8) (score : ℚ) (s : Server) : Prop :=
  ∃ reply list' args T' s', request s = .ok ((reply, list', args), s') ∧ Rep list' T' ∧
    OthersKept T T' t member score

/-- A stored member is moved to another score, by a score or by an increment, without
harm to the others exactly if no level above its tower leads to a twin. Otherwise the
removal follows a missing node of the tower. -/
theorem movesAlone_iff {list : SkipList} {T : Towers} (h : Rep list T) (hT : T.Spread)
    (hsize : (T.levels 0).length < 2 ^ 64) {t : ℕ} (ht : t ∈ T.levels 0)
    {scoreArg memberArg : ArgListNode} (hmember : memberArg.key.buf = (T.label t).1) {score : ℚ}
    (hscore : parseScore scoreArg.key.buf = some score) (s : Server) :
    (∀ xx ch, MovesAlone (list.addOrUpdateMember xx false ch [scoreArg, memberArg] 2) T t
      memberArg.key.buf score s ↔ NoTwin list T t) ∧
    (MovesAlone (list.scoreIncrement [scoreArg, memberArg] false) T t memberArg.key.buf
      ((T.label t).2 + score) s ↔ NoTwin list T t) := by
  have hparse : ∀ room, room ≠ 0 → parseArgs room [scoreArg, memberArg] s =
      .ok ((some [(score, memberArg.key)], [{ scoreArg with dead := true }, memberArg]), s) := by
    intro room hroom
    rw [parseArgs]
    simp only [hscore]
    rw [if_neg hroom]
    rfl
  have hget : list.table.get memberArg.key s =
      .ok ((some ⟨t, T.height t⟩, list.table), s) := by
    obtain ⟨node, hnode, hvalue⟩ := Option.map_eq_some_iff.1
      ((h.table (T.label t).1 ⟨t, T.height t⟩).2 ⟨t, ht, rfl, rfl⟩)
    rw [← hmember] at hnode
    obtain ⟨hmem, hkey⟩ := HashTable.mem_of_lookup hnode
    obtain ⟨c, hc, rfl⟩ := HashTable.cursor_of_lookup hnode
    have hlive : ¬ c.node.Expired s.now := by
      rintro ⟨htype, -⟩
      change SORTED_SET_ENTRY = BULKSTRING at htype
      exact absurd htype (by decide)
    rw [HashTable.get_live h.keyed.unfreed (hkey ▸ h.keyed.nonempty _ _ hmem) hc hlive, hvalue]
  -- the rest of the request does not change the outcome of the move
  have hfinish : ∀ (request : Exo (Reply × SkipList × ArgList)) (score : ℚ),
      (∀ list' s', list.moveMember memberArg.key score ⟨t, T.height t⟩ s = .ok (list', s') →
        ∃ reply args, request s = .ok ((reply, list', args), s')) →
      (list.moveMember memberArg.key score ⟨t, T.height t⟩ s = .error .nullDereference →
        request s = .error .nullDereference) →
      (MovesAlone request T t memberArg.key.buf score s ↔ NoTwin list T t) := by
    intro request score hok herror
    constructor
    · rintro ⟨reply, list', args, T', s', hrun, -⟩
      by_contra htwin
      rw [herror (moveMember_twin h hT ht hmember htwin score s)] at hrun
      cases hrun
    · intro hnot
      obtain ⟨list', T', s', hmove, hrep, hkept⟩ :=
        moveMember_run h hT ht hmember hsize hnot score s
      obtain ⟨reply, args, hrun⟩ := hok list' s' hmove
      exact ⟨reply, list', args, T', s', hrun, hrep, hkept⟩
  refine ⟨fun xx ch => hfinish _ score (fun list' s' hmove => ?_) fun hmove => ?_,
    hfinish _ _ (fun list' s' hmove => ?_) fun hmove => ?_⟩
  · have hpair : addOrUpdatePair xx false list (score, memberArg.key) s =
        .ok ((list', true, false), s') := by
      rw [addOrUpdatePair]
      simp only
      rw [bind_run_ok hget]
      cases xx <;> exact bind_run_ok hmove
    refine ⟨.respInteger (numberToString (if ch then 1 else 0)),
      [{ scoreArg with dead := true }, memberArg], ?_⟩
    rw [addOrUpdateMember, bind_run_ok (hparse 2 (by decide))]
    simp only
    rw [addOrUpdateLoop, bind_assoc, bind_run_ok hpair]
    rfl
  · have hpair : addOrUpdatePair xx false list (score, memberArg.key) s =
        .error .nullDereference := by
      rw [addOrUpdatePair]
      simp only
      rw [bind_run_ok hget]
      cases xx <;> exact bind_run_error hmove
    rw [addOrUpdateMember, bind_run_ok (hparse 2 (by decide))]
    simp only
    rw [addOrUpdateLoop, bind_assoc, bind_run_error hpair]
  · obtain ⟨n, hn, hold⟩ := h.deref_top ht s
    refine ⟨.bulkString (doubleToString ((T.label t).2 + score)),
      [{ scoreArg with dead := true }, memberArg], ?_⟩
    rw [scoreIncrement, bind_run_ok (hparse 1 (by decide))]
    simp only
    rw [bind_run_ok hget]
    simp only [Bool.false_eq_true, if_false]
    rw [bind_run_ok hn, hold, bind_run_ok hmove]
    rfl
  · obtain ⟨n, hn, hold⟩ := h.deref_top ht s
    rw [scoreIncrement, bind_run_ok (hparse 1 (by decide))]
    simp only
    rw [bind_run_ok hget]
    simp only [Bool.false_eq_true, if_false]
    rw [bind_run_ok hn, hold, bind_run_error hmove]

theorem movesAlone_iff_loneList :
    MovesAlone (loneList.addOrUpdateMember false false false
        [newArg ⟨2, ascii "7"⟩, newArg ⟨3, ascii "a"⟩] 2) loneTowers 1 (ascii "a") 7
      (blankServer (fun _ => 0) none) := by
  have hspread : loneTowers.Spread := fun i => by
    cases i with
    | zero => exact List.pairwise_singleton _ _
    | succ i => exact List.Pairwise.nil
  have hmember : (newArg ⟨3, ascii "a"⟩).key.buf = (loneTowers.label 1).1 := rfl
  have hscore : parseScore (newArg ⟨2, ascii "7"⟩).key.buf = some 7 := by decide +kernel
  refine ((movesAlone_iff rep_loneList hspread (by decide) (List.mem_singleton_self 1)
    hmember hscore _).1 false false).2 fun j hj hjt => ?_
  exact absurd hjt (not_lt.2 hj)

/-- The list after `ZADD k 1 a` and `ZADD k 2 a\0b`, the second with a higher tower. -/
def twinList : SkipList where
  heap p :=
    if p = ⟨0, 0⟩ then some ⟨⟨0, ascii "sentinel"⟩, DOUBLE_MIN, 1, some ⟨1, 0⟩, none⟩
    else if p = ⟨1, 0⟩ then some ⟨⟨1, [97]⟩, 1, 1, some ⟨2, 0⟩, none⟩
    else if p = ⟨2, 0⟩ then some ⟨⟨2, [97, 0, 98]⟩, 2, 1, none, none⟩
    else if p = ⟨0, 1⟩ then some ⟨⟨3, ascii "sentinel"⟩, DOUBLE_MIN, 2, some ⟨2, 1⟩, some ⟨0, 0⟩⟩
    else if p = ⟨2, 1⟩ then some ⟨⟨2, [97, 0, 98]⟩, 2, 1, none, some ⟨2, 0⟩⟩
    else none
  head := SkipList.sentinel 1
  size := 2
  levels := 1
  table :=
    let first : HashTable NodePtr := HashTable.newHashTable.putBucket [97] [newNode ⟨1, [97]⟩ ⟨1, 0⟩]
    first.putBucket [97, 0, 98]
      (first.buckets (keyHash [97, 0, 98]) ++ [newNode ⟨2, [97, 0, 98]⟩ ⟨2, 1⟩])
  fresh := 3

def twinTowers : Towers where
  levels i := if i = 0 then [1, 2] else if i = 1 then [2] else []
  label t := if t = 0 then (ascii "sentinel", DOUBLE_MIN) else if t = 1 then ([97], 1)
    else ([97, 0, 98], 2)
  height t := if t = 2 then 1 else 0

theorem keyed_twinList : twinList.table.Keyed ∧ ∀ m, twinList.table.lookup m =
    if m = [97, 0, 98] then some (newNode ⟨2, [97, 0, 98]⟩ ⟨2, 1⟩)
    else if m = [97] then some (newNode ⟨1, [97]⟩ ⟨1, 0⟩) else none := by
  have hfirst := @HashTable.Keyed.lookup_append NodePtr HashTable.newHashTable [97]
    (newNode ⟨1, [97]⟩ ⟨1, 0⟩) rfl rfl
  have hnone := HashTable.cursor_eq_none_iff.2 (hfirst [97, 0, 98])
  have hkeyed := @HashTable.Keyed.keyed_append NodePtr HashTable.newHashTable [97]
    (newNode ⟨1, [97]⟩ ⟨1, 0⟩) HashTable.keyed_newHashTable rfl rfl (by decide) rfl
  refine ⟨hkeyed.keyed_append rfl rfl (by decide) hnone, fun m => ?_⟩
  refine (@HashTable.Keyed.lookup_append NodePtr _ [97, 0, 98] (newNode ⟨2, [97, 0, 98]⟩ ⟨2, 1⟩)
    rfl hnone m).trans ?_
  rw [hfirst m]
  rfl

theorem rep_twinList : Rep twinList twinTowers where
  head := rfl
  bound := by decide
  level i hi := by
    have hi' : i = 0 ∨ i = 1 := by
      change i ≤ 1 at hi
      omega
    rcases hi' with rfl | rfl
    · refine ⟨fun t ht => ?_, rfl, rfl, rfl, trivial⟩
      have ht' : t = 0 ∨ t = 1 ∨ t = 2 := by simpa [twinTowers] using ht
      rcases ht' with rfl | rfl | rfl <;> exact ⟨_, rfl, rfl, rfl⟩
    · refine ⟨fun t ht => ?_, rfl, rfl, trivial⟩
      have ht' : t = 0 ∨ t = 2 := by simpa [twinTowers] using ht
      rcases ht' with rfl | rfl <;> exact ⟨_, rfl, rfl, rfl⟩
  mem_iff i t := by
    rcases i with _ | _ | i
    · simp [twinTowers]
    · change t ∈ [2] ↔ t ∈ [1, 2] ∧ 1 ≤ if t = 2 then 1 else 0
      by_cases ht : t = 2 <;> simp [ht]
    · change t ∈ [] ↔ t ∈ [1, 2] ∧ i + 2 ≤ if t = 2 then 1 else 0
      by_cases ht : t = 2 <;> simp [ht]
  height_le t _ := by
    simp only [twinTowers]
    split <;> decide
  nodup i := by
    rcases i with _ | _ | i
    · decide
    · decide
    · exact List.nodup_singleton 0
  lt_fresh := by decide
  sentinel := rfl
  keyed := keyed_twinList.1
  table m p := by
    rw [keyed_twinList.2]
    constructor
    · intro hm
      split at hm
      · next heq =>
          cases hm
          exact ⟨2, by decide, heq.symm, rfl⟩
      · split at hm
        · next heq =>
            cases hm
            exact ⟨1, by decide, heq.symm, rfl⟩
        · cases hm
    · rintro ⟨t, ht, rfl, rfl⟩
      have ht' : t = 1 ∨ t = 2 := by simpa [twinTowers] using ht
      rcases ht' with rfl | rfl <;> rfl
  size := rfl

/-- In a well-formed list of two members with different scores, the first the C string of
the second, moving the first to a third score ends in a null dereference. -/
theorem not_movesAlone_twinList : Rep twinList twinTowers ∧ twinTowers.Spread ∧
    (∀ i ≤ twinList.levels, ∀ t ∈ 0 :: twinTowers.levels i,
      (twinList.heap ⟨t, i⟩).map SkipListNode.children = some (twinTowers.span i t)) ∧
    (twinList.addOrUpdateMember false false false [newArg ⟨4, ascii "5"⟩, newArg ⟨5, [97]⟩] 2
        (blankServer (fun _ => 0) none)).map (fun _ => ()) = .error .nullDereference ∧
    ¬ MovesAlone (twinList.addOrUpdateMember false false false
        [newArg ⟨4, ascii "5"⟩, newArg ⟨5, [97]⟩] 2) twinTowers 1 [97] 5
      (blankServer (fun _ => 0) none) := by
  have hfault : (twinList.addOrUpdateMember false false false
      [newArg ⟨4, ascii "5"⟩, newArg ⟨5, [97]⟩] 2 (blankServer (fun _ => 0) none)).map
        (fun _ => ()) = .error .nullDereference := by decide +kernel
  refine ⟨rep_twinList, fun i => ?_, by decide, hfault, ?_⟩
  · rcases i with _ | _ | i
    · decide +kernel
    · decide +kernel
    · exact List.Pairwise.nil
  · rintro ⟨reply, list', args, T', s', hrun, -⟩
    rw [hrun] at hfault
    cases hfault

end Exoredis
