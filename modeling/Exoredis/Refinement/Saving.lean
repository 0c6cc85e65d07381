import Exoredis.Dump.Contents
import Exoredis.Refinement.Commands

/-!
# Datasets can be saved

SAVE comes to no fault on a server that represents a dataset: the bottom level of every sorted
set is found and read to its end (`Rep.entries_eq`).
-/

namespace Exoredis

open Effect

namespace Rep

variable {list : SkipList} {T : Towers} (h : Rep list T)

include h

theorem bottomFrom_head {i fuel : ℕ} (hi : i ≤ list.levels) (hfuel : i < fuel) :
    list.bottomFrom fuel ⟨0, i⟩ = some ⟨0, 0⟩ := by
  induction i generalizing fuel with
  | zero =>
      obtain ⟨n, hn, -, hdown⟩ := (h.level 0 hi).cell 0 List.mem_cons_self
      obtain ⟨fuel, rfl⟩ := Nat.exists_eq_succ_of_ne_zero (Nat.ne_of_gt hfuel)
      rw [SkipList.bottomFrom, hn, Option.bind_eq_bind, Option.bind_some, hdown]
      rfl
  | succ i ih =>
      obtain ⟨n, hn, -, hdown⟩ := (h.level (i + 1) hi).cell 0 List.mem_cons_self
      obtain ⟨fuel, rfl⟩ := Nat.exists_eq_succ_of_ne_zero (Nat.ne_of_gt ((Nat.zero_le _).trans_lt hfuel))
      rw [SkipList.bottomFrom, hn, Option.bind_eq_bind, Option.bind_some, hdown]
      exact ih (Nat.le_of_succ_le hi) (Nat.lt_of_succ_lt_succ hfuel)

theorem entriesFrom_eq {pre l : List ℕ} (hsplit : 0 :: T.levels 0 = pre ++ l) {fuel : ℕ}
    (hfuel : l.length ≤ fuel) :
    list.entriesFrom fuel (l.head?.map fun t => ⟨t, 0⟩) = some (l.map T.pair) := by
  induction l generalizing pre fuel with
  | nil => cases fuel <;> rfl
  | cons t l ih =>
      have hlevel := h.level 0 (Nat.zero_le _)
      rw [hsplit] at hlevel
      obtain ⟨n, hn, hlabel, -⟩ := hlevel.cell t (by simp)
      have hnext := hlevel.next
      rw [nextOf, hn] at hnext
      obtain ⟨fuel, rfl⟩ := Nat.exists_eq_succ_of_ne_zero (Nat.ne_of_gt ((Nat.succ_pos _).trans_le hfuel))
      rw [List.append_cons] at hsplit
      have hrest := ih hsplit (Nat.le_of_succ_le_succ hfuel)
      have hpair : (n.score, n.key.buf) = T.pair t := by
        rw [Towers.pair, ← hlabel]
        rfl
      rw [List.head?_cons, Option.map_some, SkipList.entriesFrom, hn, Option.bind_eq_bind,
        Option.bind_some, show n.next = _ from hnext, hrest, hpair]
      rfl

/-- The bottom level is read to its end. -/
theorem entries_eq : list.entries = some T.pairs := by
  have hbound := h.length_lt 0
  obtain ⟨n, hn, -⟩ := (h.level 0 (Nat.zero_le _)).cell 0 List.mem_cons_self
  have hnext : n.next = (T.levels 0).head?.map fun t => ⟨t, 0⟩ := by
    have hlink := @LevelOk.next _ _ _ [] (T.levels 0) 0 (h.level 0 (Nat.zero_le _))
    rwa [nextOf, hn] at hlink
  have hlevels : list.levels < list.nodeBound := by
    have hlt := h.bound
    unfold SkipList.nodeBound SKIPLIST_MAX_LEVEL at *
    omega
  have hbottom : list.bottomFrom list.nodeBound list.head = some ⟨0, 0⟩ := by
    rw [h.head]
    exact h.bottomFrom_head le_rfl hlevels
  rw [SkipList.entries, hbottom, Option.bind_eq_bind, Option.bind_some, hn, Option.bind_eq_bind,
    Option.bind_some, hnext]
  exact @entriesFrom_eq _ _ h [0] (T.levels 0) rfl _ hbound.le

end Rep

theorem exists_listRecords {list : List (ListNode ExoVal)}
    (h : ∀ node ∈ list, ∃ recs, nodeRecords node = some recs) : ∃ recs, listRecords list = some recs := by
  induction list with
  | nil => exact ⟨[], rfl⟩
  | cons node list ih =>
      obtain ⟨recs, hrecs⟩ := h node List.mem_cons_self
      obtain ⟨recs', hrecs'⟩ := ih fun node hnode => h node (List.mem_cons_of_mem _ hnode)
      exact ⟨recs ++ recs', by rw [listRecords, hrecs, hrecs']; rfl⟩

theorem exists_contents {ht : HashTable ExoVal}
    (h : ∀ i, ∀ node ∈ ht.buckets i, ∃ recs, nodeRecords node = some recs) :
    ∃ recs, contents ht = some recs := by
  rw [contents]
  generalize List.range INITIAL_SIZE = is
  induction is with
  | nil => exact ⟨[], rfl⟩
  | cons i is ih =>
      obtain ⟨recs, hrecs⟩ := exists_listRecords (h i)
      obtain ⟨recs', hrecs'⟩ := ih
      exact ⟨recs ++ recs', by rw [bucketRecords, hrecs, hrecs']; rfl⟩

/-- A datum has records. -/
theorem Shows.records {node : ListNode ExoVal} {d : Datum} (h : Shows node d)
    (hfreed : node.freed = false) : ∃ recs, nodeRecords node = some recs := by
  rw [nodeRecords, hfreed]
  cases h with
  | string hvalue | bitmap hvalue =>
      rw [hvalue]
      exact ⟨_, rfl⟩
  | sortedSet hvalue hranks =>
      obtain ⟨⟨T, hT, -⟩, -⟩ := hranks
      rw [hvalue]
      simp only [hT.rep.entries_eq]
      exact ⟨_, rfl⟩

/-- Whatever is stored can be saved. -/
theorem Represents.save_run {s : Server} {m : Dataset} (h : Represents s m) :
    ∃ recs, contents s.HASH_TABLE = some recs ∧
      saveCommand s = .ok (_OK, { s with dump := some (encode recs) }) ∧
      Represents { s with dump := some (encode recs) } m := by
  obtain ⟨recs, hrecs⟩ := @exists_contents s.HASH_TABLE fun i node hnode => by
    have hlookup := (h.sane.keyed.mem_iff_lookup.1 hnode).2
    have hshows := h.shows node.key.buf
    rw [hlookup] at hshows
    generalize m node.key.buf = d at *
    cases hshows with
    | some hd => exact hd.records (h.sane.keyed.unfreed _ _ hnode)
  exact ⟨recs, hrecs, saveCommand_records h.writable hrecs,
    ⟨⟨h.sane.ready.keyed, h.sane.ready.lookup⟩, h.sane.keyed, h.sane.stored, h.sane.garbage⟩,
    h.writable, h.shows⟩

end Exoredis
