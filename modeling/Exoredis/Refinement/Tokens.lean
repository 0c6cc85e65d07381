import Exoredis.Keyspace.Bitmaps
import Exoredis.Refinement.Dataset

/-!
# The bytes of the arguments

What ZADD does depends on its arguments through their bytes only, and not on the identities of
the strings.
-/

namespace Exoredis

theorem sameArgs_argsFrom (id id' : ℕ) (tokens : List (List UInt8)) :
    SameArgs (argsFrom id tokens) (argsFrom id' tokens) := by
  rw [SameArgs, bytes_argsFrom, bytes_argsFrom]

theorem sameArgs_cons_iff {node node' : ArgListNode} {args args' : ArgList} :
    SameArgs (node :: args) (node' :: args') ↔
      node.key.buf = node'.key.buf ∧ SameArgs args args' := by
  simp [SameArgs]

theorem SameArgs.drop {args args' : ArgList} (h : SameArgs args args') (n : ℕ) :
    SameArgs (args.drop n) (args'.drop n) := by
  rw [SameArgs, List.map_drop, List.map_drop, show _ = _ from h]

theorem parseSwitches_congr {args args' : ArgList} (h : SameArgs args args') (sw : ZaddSwitches) :
    (parseSwitches args sw).1 = (parseSwitches args' sw).1 ∧
      SameArgs (parseSwitches args sw).2 (parseSwitches args' sw).2 := by
  induction args generalizing args' sw with
  | nil =>
      rw [sameArgs_nil h]
      exact ⟨rfl, rfl⟩
  | cons node args ih =>
      obtain ⟨node', rest, rfl, hnode, hrest⟩ := sameArgs_cons h
      have hup : (upCase node.key).buf = (upCase node'.key).buf := by rw [upCase, upCase, hnode]
      rw [parseSwitches, parseSwitches, hnode]
      split
      · exact ⟨rfl, h⟩
      · simp only [hup]
        exact ⟨(ih hrest _).1, sameArgs_cons_iff.2 ⟨hup, (ih hrest _).2⟩⟩

theorem readPairs_congr {args args' : ArgList} (h : SameArgs args args') :
    (readPairs args).map (List.map plainPair) = (readPairs args').map (List.map plainPair) := by
  induction args using readPairs.induct generalizing args' with
  | case1 => rw [sameArgs_nil h]
  | case2 node =>
      obtain ⟨node', rest, rfl, -, hrest⟩ := sameArgs_cons h
      rw [sameArgs_nil hrest]
      rfl
  | case3 node member rest hscore =>
      obtain ⟨node', args, rfl, hnode, hargs⟩ := sameArgs_cons h
      obtain ⟨member', rest', rfl, -, -⟩ := sameArgs_cons hargs
      rw [readPairs, readPairs, ← hnode, hscore]
  | case4 node member rest score hscore ih =>
      obtain ⟨node', args, rfl, hnode, hargs⟩ := sameArgs_cons h
      obtain ⟨member', rest', rfl, hmember, hrest⟩ := sameArgs_cons hargs
      rw [readPairs, readPairs, ← hnode, hscore]
      have htail := ih hrest
      simp only [Option.map_map] at htail ⊢
      cases hpairs : readPairs rest <;> cases hpairs' : readPairs rest' <;>
        simp_all [plainPair]

section

variable {rest rest' : ArgList} (h : SameArgs rest rest')

include h

theorem zaddSwitches_congr : zaddSwitches rest = zaddSwitches rest' := (parseSwitches_congr h _).1

theorem zaddPairs_congr :
    (zaddPairs rest).map (List.map plainPair) = (zaddPairs rest').map (List.map plainPair) := by
  rw [zaddPairs, zaddPairs, zaddSwitches_congr h]
  exact readPairs_congr ((parseSwitches_congr h _).2.drop _)

theorem zaddWorked_congr :
    (zaddWorked rest).map plainPair = (zaddWorked rest').map plainPair := by
  have hpairs := zaddPairs_congr h
  rw [zaddPairs, zaddPairs] at hpairs
  rw [zaddWorked, zaddWorked, workedPairs, workedPairs, zaddSwitches_congr h] at *
  generalize readPairs ((parseSwitches rest noZaddSwitches).2.drop _) = ps at *
  generalize readPairs ((parseSwitches rest' noZaddSwitches).2.drop _) = ps' at *
  have hgetD : (ps.getD []).map plainPair = (ps'.getD []).map plainPair := by
    cases ps <;> cases ps' <;> simp_all
  have hlength : (ps.getD []).length = (ps'.getD []).length := by
    simpa using congrArg List.length hgetD
  simp only [hlength]
  split
  · rfl
  · exact hgetD

theorem members_congr : (∃ p ∈ zaddWorked rest, p.2.buf = []) ↔ ∃ p ∈ zaddWorked rest', p.2.buf = [] := by
  have hiff : ∀ r : ArgList, (∃ p ∈ zaddWorked r, p.2.buf = []) ↔
      ∃ p ∈ (zaddWorked r).map plainPair, p.2 = [] := by
    intro r
    simp [plainPair]
  rw [hiff, hiff, zaddWorked_congr h]

variable {β : Type} (S : Scoreboard β (List UInt8) ℚ)

theorem boardZadd_congr (b : β) : boardZadd S rest b = boardZadd S rest' b := by
  rw [boardZadd, boardZadd, zaddSwitches_congr h, zaddPairs_congr h, h.length]

theorem careful_congr (P : β → List UInt8 → ℚ → Prop) (b : β) :
    Careful S P rest b ↔ Careful S P rest' b := by
  rw [Careful, Careful, zaddSwitches_congr h, zaddWorked_congr h]

end

end Exoredis
