import Exoredis.Keyspace.Operations
import Exoredis.Library.Scoreboard
import Exoredis.SortedSet.Switches

/-!
# ZADD on scoreboards

What a ZADD replies and leaves is stated on a scoreboard (`boardZadd`), for every list of
tokens: its errors, the batch of pairs with its counts, the increment. A relation between sorted
sets and boards is kept by ZADD if the insertion of a missing member and the move of a present
one keep it (`Keeps`). Each of them may be allowed for some scores only (`Careful`), as the
search of an insertion goes astray among equal scores.
-/

namespace Exoredis

open Effect SkipList

/-! ## The replies -/

section

variable {β : Type} (S : Scoreboard β (List UInt8) ℚ)

/-- A pair as the scoreboard knows it. -/
def plainPair (p : ℚ × ExoString) : ℚ × List UInt8 := (p.1, p.2.buf)

/-- The reply to the tokens behind the key of a ZADD, and the board behind it. -/
def boardZadd (rest : ArgList) (b : β) : Reply × β :=
  let sw := zaddSwitches rest
  let left := rest.length - sw.count
  if sw.nx && sw.xx then
    (_Error .XX_AND_NX_OPTIONS_AT_THE_SAME_TIME_ARE_NOT_COMPATIBLE, b)
  else if left % 2 = 1 then (_Error .SYNTAX_ERROR, b)
  else if sw.incr && decide (left ≠ 2) then
    (_Error .INCR_OPTION_SUPPORTS_A_SINGLE_INCREMENT_ELEMENT_PAIR, b)
  else
    match (zaddPairs rest).map (List.map plainPair) with
    | none => (_Error .VALUE_IS_NOT_A_VALID_FLOAT, b)
    | some ps =>
        match sw.incr, ps with
        | true, p :: _ =>
            (((S.raise sw.nx b p).1.map fun sum => .bulkString (doubleToString sum)).getD _Null,
              (S.raise sw.nx b p).2)
        | _, ps =>
            let counts := S.tally sw.xx sw.nx b ps
            (.respInteger (numberToString (if sw.ch then counts.2 else counts.1)),
              S.work sw.xx sw.nx b ps)

/-- `P` holds whenever the tokens put a member at a score. -/
def Careful (P : β → List UInt8 → ℚ → Prop) (rest : ArgList) (b : β) : Prop :=
  let sw := zaddSwitches rest
  let ps := (zaddWorked rest).map plainPair
  if sw.incr then
    ∀ p ∈ ps, ((S.scoreOf b p.2).isSome && sw.nx) = false → P b p.2 (S.raised b p)
  else S.Along P sw.xx sw.nx b ps

instance (P : β → List UInt8 → ℚ → Prop) [∀ b m x, Decidable (P b m x)] (rest : ArgList) (b : β) :
    Decidable (Careful S P rest b) := by
  unfold Careful
  infer_instance

end

/-! ## Sorted sets and boards -/

/-- The key has a sorted set that stands for the board, or no value, and the board is empty. -/
def OnBoard {β : Type} (card : β → ℕ) (R : SkipList → β → (ℕ → ℕ) → Prop) (s : Server)
    (key : List UInt8) (b : β) : Prop :=
  liveAt s key = none ∧ card b = 0 ∧ (∀ id, R (emptyList id) b s.coins) ∨
    ∃ list, liveAt s key = some (.sortedSet list) ∧ R list b s.coins

/-- Sorted sets that stand for boards, given the coins that are still to be tossed. A present
member is found, and moved to a score that is safe; a missing one is not found, and entered. -/
structure Keeps {β : Type} (S : Scoreboard β (List UInt8) ℚ) (card : β → ℕ)
    (R : SkipList → β → (ℕ → ℕ) → Prop) (Safe : β → List UInt8 → ℚ → Prop) : Prop where
  found : ∀ {list b} {s : Server} {member : ExoString} {x : ℚ}, R list b s.coins →
    member.buf ≠ [] → S.scoreOf b member.buf = some x →
    ∃ p n, list.table.get member s = .ok ((some p, list.table), s) ∧
      list.deref p s = .ok (n, s) ∧ n.score = x ∧
      ∀ score, Safe b member.buf score → ∃ list' t,
        list.moveMember member score p s = .ok (list', t) ∧ Aside s t ∧
          R list' (S.put b member.buf score) t.coins
  missing : ∀ {list b} {s : Server} {member : ExoString}, R list b s.coins →
    member.buf ≠ [] → S.scoreOf b member.buf = none →
    list.table.get member s = .ok ((none, list.table), s) ∧
      ∀ score, Safe b member.buf score → ∃ list' t,
        list.addNodeToSkiplist member score s = .ok (list', t) ∧ Aside s t ∧
          R list' (S.put b member.buf score) t.coins
  size : ∀ {list b c}, R list b c → list.size = card b
  empty : ∀ {list b c} (id : ℕ), R list b c → card b = 0 → R (emptyList id) b c
  freeable : ∀ {list b c}, R list b c → Freeable (.sortedSet list)

namespace Keeps

variable {β : Type} {S : Scoreboard β (List UInt8) ℚ} {card : β → ℕ}
  {R : SkipList → β → (ℕ → ℕ) → Prop} {Safe : β → List UInt8 → ℚ → Prop} (h : Keeps S card R Safe)
  {list : SkipList} {b : β} {s : Server}

include h

/-- One pass of the loop. -/
theorem pair_run (hR : R list b s.coins) {xx nx : Bool} {score : ℚ} {member : ExoString}
    (hne : member.buf ≠ []) (hsafe : S.admits xx nx b member.buf = true → Safe b member.buf score) :
    ∃ list' t, addOrUpdatePair xx nx list (score, member) s =
        .ok ((list', S.admits xx nx b member.buf && (S.scoreOf b member.buf).isSome,
          S.admits xx nx b member.buf && (S.scoreOf b member.buf).isNone), t) ∧
      Aside s t ∧ R list' (S.next xx nx b (score, member.buf)) t.coins := by
  rw [addOrUpdatePair, Scoreboard.next]
  cases hscore : S.scoreOf b member.buf with
  | none =>
      obtain ⟨hget, hadd⟩ := h.missing hR hne hscore
      have hadmits : S.admits xx nx b member.buf = !xx := by
        rw [Scoreboard.admits, hscore]
        rfl
      simp only [hadmits] at hsafe ⊢
      rw [bind_run_ok hget]
      cases xx with
      | true => exact ⟨list, s, rfl, Aside.refl s, hR⟩
      | false =>
          obtain ⟨list', t, hrun, hend⟩ := hadd score (hsafe rfl)
          exact ⟨list', t, bind_run_ok hrun, hend⟩
  | some x =>
      obtain ⟨p, n, hget, -, -, hmove⟩ := h.found hR hne hscore
      have hadmits : S.admits xx nx b member.buf = (xx || !nx) := by
        rw [Scoreboard.admits, hscore]
        rfl
      simp only [hadmits] at hsafe ⊢
      rw [bind_run_ok hget]
      cases xx with
      | true =>
          obtain ⟨list', t, hrun, hend⟩ := hmove score (hsafe rfl)
          exact ⟨list', t, bind_run_ok hrun, hend⟩
      | false =>
          cases nx with
          | true => exact ⟨list, s, rfl, Aside.refl s, hR⟩
          | false =>
              obtain ⟨list', t, hrun, hend⟩ := hmove score (hsafe rfl)
              exact ⟨list', t, bind_run_ok hrun, hend⟩

theorem loop_run {xx nx : Bool} {pairs : List (ℚ × ExoString)} (hR : R list b s.coins)
    (hne : ∀ p ∈ pairs, p.2.buf ≠ []) (hsafe : S.Along Safe xx nx b (pairs.map plainPair))
    (changed new_insert : ℕ) :
    ∃ list' t, addOrUpdateLoop xx nx pairs list changed new_insert s =
        .ok ((list', changed + (S.tally xx nx b (pairs.map plainPair)).2,
          new_insert + (S.tally xx nx b (pairs.map plainPair)).1), t) ∧
      Aside s t ∧ R list' (S.work xx nx b (pairs.map plainPair)) t.coins := by
  induction pairs generalizing list b s changed new_insert with
  | nil => exact ⟨list, s, rfl, Aside.refl s, hR⟩
  | cons p pairs ih =>
      obtain ⟨score, member⟩ := p
      have hfirst : S.admits xx nx b member.buf = true → Safe b member.buf score := hsafe.1
      obtain ⟨list₁, s₁, hpair, haside, hR₁⟩ := h.pair_run hR (hne _ List.mem_cons_self) hfirst
      obtain ⟨list', t, hloop, haside', hR'⟩ := ih hR₁
        (fun p hp => hne p (List.mem_cons_of_mem _ hp)) hsafe.2
        (changed + (S.admits xx nx b member.buf && (S.scoreOf b member.buf).isSome).toNat)
        (new_insert + (S.admits xx nx b member.buf && (S.scoreOf b member.buf).isNone).toNat)
      refine ⟨list', t, ?_, haside.trans haside', hR'⟩
      rw [addOrUpdateLoop, bind_run_ok hpair]
      simp only
      rw [hloop, List.map_cons, Scoreboard.tally_cons, Nat.add_assoc, Nat.add_assoc]
      rfl

end Keeps

theorem setPairDead_run {args : ArgList} (h : args.length = 2) (s : Server) :
    ∃ args', setPairDead args s = .ok (args', s) := by
  match args, h with
  | [score, member], _ => exact ⟨_, rfl⟩

theorem count_zaddSwitches_le (rest : ArgList) : (zaddSwitches rest).count ≤ rest.length := by
  rw [zaddSwitches_eq]
  exact (count_switchesIn_le _).trans ((List.takeWhile_sublist _).length_le)

namespace Keeps

variable {β : Type} {S : Scoreboard β (List UInt8) ℚ} {card : β → ℕ}
  {R : SkipList → β → (ℕ → ℕ) → Prop} {Safe : β → List UInt8 → ℚ → Prop} (h : Keeps S card R Safe)
  {list : SkipList} {b : β} {s : Server}

include h

/-- The reply to an increment. -/
theorem scoreIncrement_run (hR : R list b s.coins) {args : ArgList} {nx : Bool} {score : ℚ}
    {member : ExoString} (hpairs : readPairs args = some [(score, member)]) (hne : member.buf ≠ [])
    (hsafe : ((S.scoreOf b member.buf).isSome && nx) = false →
      Safe b member.buf (S.raised b (score, member.buf))) :
    ∃ list' args' t, list.scoreIncrement args nx s =
        .ok ((((S.raise nx b (score, member.buf)).1.map fun sum =>
          Reply.bulkString (doubleToString sum)).getD _Null, list', args'), t) ∧
      Aside s t ∧ R list' (S.raise nx b (score, member.buf)).2 t.coins := by
  have hlength : args.length = 2 := length_readPairs hpairs
  obtain ⟨args', hparse⟩ := @parseArgs_even 1 args (by omega) (by omega) s
  have hlength' : args'.length = 2 := (parseArgs_ok hparse).2.1.trans hlength
  rw [hpairs] at hparse
  rw [scoreIncrement, bind_run_ok hparse, Scoreboard.raise, Scoreboard.raised]
  rw [Scoreboard.raised] at hsafe
  simp only at hsafe ⊢
  cases hscore : S.scoreOf b member.buf with
  | none =>
      obtain ⟨hget, hadd⟩ := h.missing hR hne hscore
      rw [hscore] at hsafe
      obtain ⟨list', t, hrun, hend⟩ := hadd _ (hsafe rfl)
      simp only [Option.getD_none, zero_add] at hrun hend
      rw [bind_run_ok hget]
      simp only
      rw [bind_run_ok hrun]
      refine ⟨list', args', t, ?_, hend.1, ?_⟩
      · simp
      · simpa using hend.2
  | some x =>
      obtain ⟨p, n, hget, hn, hx, hmove⟩ := h.found hR hne hscore
      rw [hscore] at hsafe
      rw [bind_run_ok hget]
      simp only
      cases nx with
      | true =>
          obtain ⟨dead, hdead⟩ := setPairDead_run hlength' s
          refine ⟨list, dead, s, ?_, Aside.refl s, hR⟩
          exact bind_run_ok hdead
      | false =>
          obtain ⟨list', t, hrun, hend⟩ := hmove _ (hsafe rfl)
          refine ⟨list', args', t, ?_, hend⟩
          simp only [Bool.false_eq_true, if_false]
          rw [bind_run_ok hn, hx]
          exact bind_run_ok hrun

/-- What ZADD makes of the tokens behind the key. -/
theorem addToSortedSet_run (hR : R list b s.coins) (cmd key : ArgListNode) {rest : ArgList}
    (hne : ∀ p ∈ zaddWorked rest, p.2.buf ≠ []) (hsafe : Careful S Safe rest b) :
    ∃ list' args t, list.addToSortedSet (zaddSwitches rest).xx (zaddSwitches rest).nx
        (zaddSwitches rest).ch (zaddSwitches rest).incr
        (cmd :: key :: (parseSwitches rest noZaddSwitches).2) s =
          .ok (((boardZadd S rest b).1, list', args), t) ∧
      Aside s t ∧ R list' (boardZadd S rest b).2 t.coins := by
  have hcount := count_zaddSwitches_le rest
  have hlength := length_parseSwitches rest noZaddSwitches
  rw [zaddWorked, workedPairs] at hne
  rw [Careful, zaddWorked, workedPairs] at hsafe
  rw [boardZadd, zaddPairs]
  generalize zaddSwitches rest = sw at *
  generalize (parseSwitches rest noZaddSwitches).2 = tail at *
  obtain ⟨xx, nx, ch, incr⟩ := sw
  have hswitches : (nx || xx).toNat + ch.toNat + incr.toNat =
    ZaddSwitches.count ⟨xx, nx, ch, incr⟩ := rfl
  simp only at hne hsafe ⊢
  rw [addToSortedSet]
  simp only [hswitches, List.length_cons, hlength]
  generalize ZaddSwitches.count ⟨xx, nx, ch, incr⟩ = count at *
  by_cases hboth : (nx && xx) = true
  · rw [if_pos hboth, if_pos hboth]
    exact ⟨list, _, s, rfl, Aside.refl s, hR⟩
  rw [if_neg hboth, if_neg hboth]
  by_cases hodd : (rest.length - count) % 2 = 1
  · rw [if_pos hodd, if_neg (by omega)]
    exact ⟨list, _, s, rfl, Aside.refl s, hR⟩
  rw [if_neg hodd, if_pos (by omega), if_neg (by omega)]
  have hdrop : (cmd :: key :: tail).drop (count + 2) = tail.drop count := rfl
  rw [hdrop]
  have hleft : (tail.drop count).length = rest.length - count := by
    rw [List.length_drop, hlength]
  generalize tail.drop count = arg at *
  cases incr with
  | true =>
      by_cases htwo : rest.length - count = 2
      · have hone : ∀ pairs, readPairs arg = some pairs → pairs.length = 1 := fun pairs hpairs => by
          have := length_readPairs hpairs
          omega
        rw [if_pos rfl, if_pos (by omega), if_neg (by simp [htwo])]
        cases hpairs : readPairs arg with
        | none =>
            obtain ⟨arg', hparse⟩ := @parseArgs_even 1 arg (by omega) (by omega) s
            rw [hpairs] at hparse
            have hrun : list.scoreIncrement arg nx s =
                .ok ((_Error .VALUE_IS_NOT_A_VALID_FLOAT, list, arg'), s) := by
              rw [scoreIncrement, bind_run_ok hparse]
              rfl
            exact ⟨list, _, s, bind_run_ok hrun, Aside.refl s, hR⟩
        | some pairs =>
            obtain ⟨⟨score, member⟩, rfl⟩ := List.length_eq_one_iff.1 (hone pairs hpairs)
            rw [hpairs, Bool.eq_false_iff.2 hboth] at hne hsafe
            obtain ⟨list', arg', t, hrun, hend⟩ := h.scoreIncrement_run hR hpairs
              (hne _ List.mem_cons_self) (hsafe _ List.mem_cons_self)
            exact ⟨list', _, t, bind_run_ok hrun, hend⟩
      · rw [if_pos rfl, if_neg (by omega), if_pos (by simp [htwo])]
        exact ⟨list, _, s, rfl, Aside.refl s, hR⟩
  | false =>
      obtain ⟨arg', hparse⟩ := @parseArgs_even (rest.length + 2 - count - 2) arg (by omega) (by omega) s
      rw [if_neg (by simp), if_neg (by simp)]
      cases hpairs : readPairs arg with
      | none =>
          rw [hpairs] at hparse
          have hrun : list.addOrUpdateMember xx nx ch arg (rest.length + 2 - count - 2) s =
              .ok ((_Error .VALUE_IS_NOT_A_VALID_FLOAT, list, arg'), s) := by
            rw [addOrUpdateMember, bind_run_ok hparse]
            rfl
          exact ⟨list, _, s, bind_run_ok hrun, Aside.refl s, hR⟩
      | some pairs =>
          rw [hpairs, Bool.eq_false_iff.2 hboth] at hne hsafe
          have hpairs' : ∀ p ∈ pairs, p.2.buf ≠ [] := hne
          have halong : S.Along Safe xx nx b (pairs.map plainPair) := hsafe
          obtain ⟨list', t, hrun, hend⟩ := h.loop_run hR hpairs' halong 0 0
          rw [hpairs] at hparse
          rw [Nat.zero_add, Nat.zero_add] at hrun
          have hadd : list.addOrUpdateMember xx nx ch arg (rest.length + 2 - count - 2) s =
              .ok ((.respInteger (numberToString (if ch then (S.tally xx nx b (pairs.map plainPair)).2
                else (S.tally xx nx b (pairs.map plainPair)).1)), list', arg'), t) := by
            rw [addOrUpdateMember, bind_run_ok hparse]
            simp only
            rw [bind_run_ok hrun]
            rfl
          exact ⟨list', _, t, bind_run_ok hadd, hend⟩

/-- The sorted set of a key is there, or a new one is made. -/
theorem openSortedSet_run (hs : Sane s) {key : ExoString} (hkey : key.buf ≠ [])
    (hopen : OnBoard card R s key.buf b) :
    ∃ list node t, openSortedSet key s = .ok (some list, t) ∧ node.value = .sortedSet list ∧
      Leaves key.buf (some node) s t ∧ R list b t.coins := by
  obtain ⟨s₁, hget, hwrites⟩ := hs.get hkey
  rw [openSortedSet]
  rcases hopen with ⟨hnone, -, hnew⟩ | ⟨list, hsome, hR⟩
  · rw [bind_run_ok hget, hnone]
    simp only
    rw [bind_run_ok (newSkipList_run s₁)]
    have haside : Aside s₁ { s₁ with nextId := s₁.nextId + 1 } := ⟨⟨rfl, rfl, rfl, rfl, id⟩, rfl⟩
    have hR := hnew s₁.nextId
    rw [← hwrites.coins] at hR
    obtain ⟨node, t, hvalue, hset, hwrites'⟩ :=
      (haside.sane hwrites.sane).set hkey (h.freeable hR)
    refine ⟨_, node, t, bind_run_ok hset, hvalue,
      (hwrites.toLeaves.aside haside).trans hwrites'.toLeaves, ?_⟩
    rw [hwrites'.coins]
    exact hR
  · rw [liveAt_eq, Option.map_eq_some_iff] at hsome
    obtain ⟨node, hnode, hvalue⟩ := hsome
    refine ⟨list, node, s₁, ?_, hvalue, hnode ▸ hwrites.toLeaves, hwrites.coins ▸ hR⟩
    rw [bind_run_ok hget, liveAt_eq, hnode, Option.map_some, hvalue]
    rfl

/-- ZADD replies and leaves what the board does. A sorted set without a member is deleted. -/
theorem zaddCommand_run (hs : Sane s) (cmd key : ArgListNode) {rest : ArgList}
    (hlength : 2 ≤ rest.length) (hkey : key.key.buf ≠ []) (hopen : OnBoard card R s key.key.buf b)
    (hne : ∀ p ∈ zaddWorked rest, p.2.buf ≠ []) (hsafe : Careful S Safe rest b) :
    ∃ args found t, zaddCommand (cmd :: key :: rest) s =
        .ok (((boardZadd S rest b).1, args), t) ∧
      Leaves key.key.buf found s t ∧ OnBoard card R t key.key.buf (boardZadd S rest b).2 ∧
      (found = none ∧ card (boardZadd S rest b).2 = 0 ∨ ∃ node list, found = some node ∧
        node.value = .sortedSet list ∧ R list (boardZadd S rest b).2 t.coins ∧
          card (boardZadd S rest b).2 ≠ 0) := by
  obtain ⟨list, node, s₁, hrun₁, hvalue, hleaves, hR⟩ := h.openSortedSet_run hs hkey hopen
  obtain ⟨list', args, s₂, hrun₂, haside, hR'⟩ := h.addToSortedSet_run hR cmd key hne hsafe
  have hleaves₂ := hleaves.aside haside
  obtain ⟨s₃, hrun₃, hwrites⟩ :=
    hleaves₂.sane.update hkey (h.freeable hR') hleaves₂.lookup_self
  rw [zaddCommand_eq cmd key hlength, bind_run_ok hrun₁]
  simp only
  rw [zaddOn, bind_run_ok hrun₂]
  simp only
  rw [bind_run_ok hrun₃, h.size hR']
  have hleaves₃ := hleaves₂.trans hwrites.toLeaves
  by_cases hcard : card (boardZadd S rest b).2 = 0
  · obtain ⟨t, hdel, hwrites'⟩ := hwrites.sane.del hkey
    have hleaves' := hleaves₃.trans hwrites'.toLeaves
    refine ⟨args, none, t, ?_, hleaves', .inl ⟨?_, hcard, fun id => ?_⟩, .inl ⟨rfl, hcard⟩⟩
    · rw [if_pos hcard]
      exact bind_run_ok hdel
    · rw [liveAt_eq, liveNode_missing hleaves'.lookup_self]
      rfl
    · rw [hwrites'.coins, hwrites.coins]
      exact h.empty id hR' hcard
  · rw [← hwrites.coins] at hR'
    refine ⟨args, _, s₃, ?_, hleaves₃, .inr ⟨list', ?_, hR'⟩,
      .inr ⟨_, list', rfl, rfl, hR', hcard⟩⟩
    · rw [if_neg hcard]
      rfl
    · exact liveAt_of_sortedSetAt (sortedSetAt_of_lookup (by rw [hleaves₃.lookup_self]; rfl))

end Keeps

end Exoredis
