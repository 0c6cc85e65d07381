import Exoredis.Keyspace.Frame

/-!
# Members of a sorted set

Which members a sorted set has is decided by its member table alone, and every member
leads to a tower. What an operation that ends does to the members can therefore be said
for every skip list, however its nodes are linked: an insertion enters the member with
a tower that is new, and a move takes it out and enters it again.
-/

namespace Exoredis

open Effect

variable {list list' : SkipList} {member : ExoString} {score : ℚ} {s t : Server}

namespace SkipList

/-- The top node of the tower of a member. -/
def towerOf (list : SkipList) (m : List UInt8) : Option NodePtr :=
  (list.table.lookup m).map ListNode.value

def has (list : SkipList) (m : List UInt8) : Bool := (list.towerOf m).isSome

def scoreOf (list : SkipList) (m : List UInt8) : Option ℚ :=
  (list.towerOf m).bind fun p => (list.heap p).map SkipListNode.score

/-! ## The heap under an operation -/

/-- The nodes of the towers in use keep their scores. -/
def KeepsScores (tower : ℕ) (heap heap' : NodePtr → Option SkipListNode) : Prop :=
  ∀ p : NodePtr, 0 < p.tower → p.tower < tower →
    (heap' p).map SkipListNode.score = (heap p).map SkipListNode.score

theorem KeepsScores.trans {tower : ℕ} {heap heap' heap'' : NodePtr → Option SkipListNode}
    (h : KeepsScores tower heap heap') (h' : KeepsScores tower heap' heap'') :
    KeepsScores tower heap heap'' :=
  fun p hpos hlt => (h' p hpos hlt).trans (h p hpos hlt)

theorem deref_ok {p : NodePtr} {node : SkipListNode} (hrun : list.deref p s = .ok (node, t)) :
    list.heap p = some node ∧ t = s := by
  rw [deref] at hrun
  cases hheap : list.heap p with
  | none =>
      rw [hheap] at hrun
      cases hrun
  | some n =>
      rw [hheap] at hrun
      cases hrun
      exact ⟨rfl, rfl⟩

/-- A node that is written with its own score. -/
theorem KeepsScores.write {p : NodePtr} {d node : SkipListNode} (hd : list.heap p = some d)
    (hscore : node.score = d.score) (tower : ℕ) :
    KeepsScores tower list.heap (list.write p node).heap := by
  intro q _ _
  rw [SkipList.write]
  by_cases hq : q = p
  · simp [hq, hd, hscore]
  · simp [hq]

theorem raiseLevels_ok {n : ℕ} {path path' : List (NodePtr × ℕ)}
    (hrun : raiseLevels n list path s = .ok ((list', path'), t)) (tower : ℕ) :
    (∃ heap head levels, list' = { list with heap := heap, head := head, levels := levels }) ∧
      KeepsScores tower list.heap list'.heap := by
  induction n generalizing list path s with
  | zero =>
      cases hrun
      exact ⟨⟨_, _, _, rfl⟩, fun _ _ _ => rfl⟩
  | succ n ih =>
      obtain ⟨key, s', -, hrun⟩ := bind_eq_ok_iff.1 hrun
      obtain ⟨⟨heap, head, levels, rfl⟩, hkeeps⟩ := ih hrun
      refine ⟨⟨heap, head, levels, rfl⟩, .trans (fun p hpos _ => ?_) hkeeps⟩
      have hp : p ≠ sentinel (list.levels + 1) := by
        rintro rfl
        exact absurd hpos (Nat.lt_irrefl 0)
      simp [SkipList.write, hp]

theorem linkTower_ok {key : ExoString} {tower rank i : ℕ} {prev top : Option NodePtr}
    {path : List (NodePtr × ℕ)} (hprev : ∀ p ∈ prev, p.tower = tower)
    (hrun : linkTower key score tower rank i prev path list s = .ok ((top, list'), t)) :
    (∃ heap, list' = { list with heap := heap }) ∧ KeepsScores tower list.heap list'.heap ∧
      ∀ p ∈ top, p.tower = tower := by
  induction path generalizing i prev list s with
  | nil =>
      cases hrun
      exact ⟨⟨_, rfl⟩, fun _ _ _ => rfl, hprev⟩
  | cons stop path ih =>
      obtain ⟨d, s', hderef, hrest⟩ := bind_eq_ok_iff.1 hrun
      obtain ⟨hd, -⟩ := deref_ok hderef
      obtain ⟨⟨heap, rfl⟩, hkeeps, htop⟩ := ih (by rintro p ⟨⟩; rfl) hrest
      refine ⟨⟨heap, rfl⟩, .trans (fun p hpos hlt => ?_) hkeeps, htop⟩
      have hp : p ≠ ⟨tower, i⟩ := by
        rintro rfl
        exact absurd hlt (Nat.lt_irrefl tower)
      by_cases hdirty : p = stop.1
      · simp [SkipList.write, hdirty, hd]
      · simp [SkipList.write, hdirty, hp]

theorem widenSpans_ok {path : List (NodePtr × ℕ)}
    (hrun : widenSpans path list s = .ok (list', t)) (tower : ℕ) :
    (∃ heap, list' = { list with heap := heap }) ∧ KeepsScores tower list.heap list'.heap := by
  induction path generalizing list s with
  | nil =>
      cases hrun
      exact ⟨⟨_, rfl⟩, fun _ _ _ => rfl⟩
  | cons stop path ih =>
      obtain ⟨d, s', hderef, hrest⟩ := bind_eq_ok_iff.1 hrun
      obtain ⟨hd, -⟩ := deref_ok hderef
      have hwrite : KeepsScores tower list.heap
          (list.write stop.1 { d with children := addSize d.children 1 }).heap :=
        .write hd (by rfl) tower
      obtain ⟨⟨heap, rfl⟩, hkeeps⟩ := ih hrest
      exact ⟨⟨heap, rfl⟩, hwrite.trans hkeeps⟩

theorem unlinkTower_ok {tmp : NodePtr} {path : List NodePtr} {node : Option NodePtr}
    (hrun : unlinkTower tmp path node list s = .ok (list', t)) :
    ∃ heap, list' = { list with heap := heap } := by
  induction path generalizing node list s with
  | nil =>
      cases hrun
      exact ⟨_, rfl⟩
  | cons dirty path ih =>
      obtain ⟨d, s₁, -, hrest⟩ := bind_eq_ok_iff.1 hrun
      cases hnext : d.next with
      | none =>
          simp only [hnext] at hrest
          obtain ⟨heap, rfl⟩ := ih hrest
          exact ⟨heap, rfl⟩
      | some p =>
          simp only [hnext] at hrest
          obtain ⟨next, s₂, -, hrest⟩ := bind_eq_ok_iff.1 hrest
          obtain ⟨target, s₃, -, hrest⟩ := bind_eq_ok_iff.1 hrest
          split at hrest
          · obtain ⟨n, s₄, -, hrest⟩ := bind_eq_ok_iff.1 hrest
            obtain ⟨heap, rfl⟩ := ih hrest
            exact ⟨heap, rfl⟩
          · obtain ⟨heap, rfl⟩ := ih hrest
            exact ⟨heap, rfl⟩

theorem freeSkipListNode_ok {fuel : ℕ} {node : Option NodePtr}
    (hrun : freeSkipListNode fuel node list s = .ok (list', t)) :
    ∃ heap, list' = { list with heap := heap } := by
  induction fuel generalizing node list s with
  | zero =>
      cases node with
      | none =>
          cases hrun
          exact ⟨_, rfl⟩
      | some p => cases hrun
  | succ fuel ih =>
      cases node with
      | none =>
          cases hrun
          exact ⟨_, rfl⟩
      | some p =>
          obtain ⟨n, s₁, -, hrest⟩ := bind_eq_ok_iff.1 hrun
          obtain ⟨heap, rfl⟩ := ih hrest
          exact ⟨heap, rfl⟩

/-! ## The members under an operation -/

/-- The member is entered with a tower that is new; the others stay. -/
structure Entered (list list' : SkipList) (m : List UInt8) : Prop where
  keyed : list'.table.Keyed
  fresh : list'.fresh = list.fresh + 1
  tower : ∃ level, ∀ k, list'.towerOf k =
    if k = m then some ⟨list.fresh, level⟩ else list.towerOf k

theorem Entered.has (h : Entered list list' member.buf) (k : List UInt8) :
    list'.has k = (list.has k || decide (k = member.buf)) := by
  obtain ⟨level, htower⟩ := h.tower
  rw [SkipList.has, SkipList.has, htower]
  by_cases hk : k = member.buf <;> simp [hk]

/-- The table of members finds what it holds. -/
theorem getMember_ok {val : Option NodePtr} {table : HashTable NodePtr}
    (hrun : list.table.get member s = .ok ((val, table), t)) :
    val = list.towerOf member.buf ∧ table = list.table ∧ t = s := by
  rw [towerOf, HashTable.lookup]
  obtain ⟨-, ⟨hc, rfl, rfl, rfl⟩ | ⟨c, hc, -, rfl, rfl, rfl⟩ | ⟨c, -, ⟨htype, -⟩, -⟩⟩ :=
    HashTable.get_cases hrun
  · rw [hc]
    exact ⟨rfl, rfl, rfl⟩
  · rw [hc]
    exact ⟨rfl, rfl, rfl⟩
  · change SORTED_SET_ENTRY = BULKSTRING at htype
    exact absurd htype (by decide)

/-- An insertion enters the member in the table with a tower that is new. -/
theorem addNodeToSkiplist_set
    (hrun : list.addNodeToSkiplist member score s = .ok (list', t)) :
    ∃ tmp s₁, tmp.tower = list.fresh ∧ list.table.set member tmp s₁ = .ok (list'.table, t) ∧
      list'.fresh = list.fresh + 1 ∧ list'.size = addSize list.size 1 ∧
      KeepsScores list.fresh list.heap list'.heap := by
  obtain ⟨raise_to, s₁, -, hrun⟩ := bind_eq_ok_iff.1 hrun
  obtain ⟨path, s₂, -, hrun⟩ := bind_eq_ok_iff.1 hrun
  obtain ⟨⟨list₁, path₁⟩, s₃, hraise, hrun⟩ := bind_eq_ok_iff.1 hrun
  obtain ⟨⟨top, list₂⟩, s₄, hlink, hrun⟩ := bind_eq_ok_iff.1 hrun
  obtain ⟨list₃, s₅, hwiden, hrun⟩ := bind_eq_ok_iff.1 hrun
  obtain ⟨⟨heap₁, head, levels, rfl⟩, hkeeps₁⟩ := raiseLevels_ok hraise list.fresh
  obtain ⟨⟨heap₂, rfl⟩, hkeeps₂, htop⟩ := linkTower_ok (by simp) hlink
  obtain ⟨⟨heap₃, rfl⟩, hkeeps₃⟩ := widenSpans_ok hwiden list.fresh
  cases top with
  | none => cases hrun
  | some tmp =>
      obtain ⟨table, s₆, hset, hrun⟩ := bind_eq_ok_iff.1 hrun
      cases hrun
      exact ⟨tmp, s₅, htop tmp rfl, hset, rfl, rfl, hkeeps₁.trans (hkeeps₂.trans hkeeps₃)⟩

theorem addNodeToSkiplist_ok (h : list.table.Keyed)
    (hrun : list.addNodeToSkiplist member score s = .ok (list', t)) :
    Entered list list' member.buf ∧ list'.size = addSize list.size 1 ∧
      KeepsScores list.fresh list.heap list'.heap := by
  obtain ⟨tmp, s₁, htower, hset, hfresh, hsize, hkeeps⟩ := addNodeToSkiplist_set hrun
  obtain ⟨hkeyed, node, hvalue, hlookup⟩ := h.set_ok hset
  refine ⟨⟨hkeyed, hfresh, tmp.level, fun k => ?_⟩, hsize, hkeeps⟩
  rw [towerOf, hlookup]
  split
  · rw [Option.map_some, hvalue, ← htower]
  · rfl

/-- Behind an insertion of an absent member the table has this member more. -/
theorem has_addNodeToSkiplist (hm : list.has member.buf = false)
    (hrun : list.addNodeToSkiplist member score s = .ok (list', t)) (k : List UInt8) :
    list'.has k = (list.has k || decide (k = member.buf)) := by
  obtain ⟨tmp, s₁, -, hset, -⟩ := addNodeToSkiplist_set hrun
  have hnone : list.table.lookup member.buf = none := by
    rw [has, towerOf, Option.isSome_map] at hm
    exact Option.not_isSome_iff_eq_none.1 (by simp [hm])
  obtain ⟨-, ⟨hc, -, htable⟩ | ⟨c, hc, -⟩⟩ := HashTable.set_cases hset
  · have hlookup := @HashTable.Keyed.lookup_append _ _ member.buf (newNode member tmp) rfl hc k
    rw [has, has, towerOf, towerOf, htable, hlookup]
    by_cases hk : k = member.buf <;> simp [hk]
  · rw [HashTable.lookup_of_cursor hc] at hnone
    cases hnone

/-- A removal takes the member out or finds it out of place. -/
theorem removeNodeFromSkipList_ok (h : list.table.Keyed) {node : NodePtr}
    (hrun : list.removeNodeFromSkipList member score node s = .ok (list', t)) :
    list'.table.Keyed ∧ list'.fresh = list.fresh ∧
      ∀ k ≠ member.buf, list'.towerOf k = list.towerOf k := by
  obtain ⟨path, s₁, -, hrun⟩ := bind_eq_ok_iff.1 hrun
  obtain ⟨dirty, s₂, -, hrun⟩ := bind_eq_ok_iff.1 hrun
  cases hnext : dirty.next with
  | none =>
      simp only [hnext] at hrun
      cases hrun
      exact ⟨h, rfl, fun _ _ => rfl⟩
  | some tmp =>
      simp only [hnext] at hrun
      obtain ⟨target, s₃, -, hrun⟩ := bind_eq_ok_iff.1 hrun
      split at hrun
      · obtain ⟨list₁, s₄, hunlink, hrun⟩ := bind_eq_ok_iff.1 hrun
        obtain ⟨list₂, s₅, hfree, hrun⟩ := bind_eq_ok_iff.1 hrun
        obtain ⟨⟨n, table⟩, s₆, hdel, hrun⟩ := bind_eq_ok_iff.1 hrun
        cases hrun
        obtain ⟨heap₁, rfl⟩ := unlinkTower_ok hunlink
        obtain ⟨heap₂, rfl⟩ := freeSkipListNode_ok hfree
        obtain ⟨hkeyed, hlookup⟩ := h.del_ok hdel
        refine ⟨hkeyed, rfl, fun k hk => ?_⟩
        rw [towerOf, hlookup, if_neg hk]
        rfl
      · cases hrun
        exact ⟨h, rfl, fun _ _ => rfl⟩

theorem moveMember_ok (h : list.table.Keyed) {target : NodePtr}
    (hrun : list.moveMember member score target s = .ok (list', t)) :
    Entered list list' member.buf := by
  obtain ⟨node, s₁, -, hrun⟩ := bind_eq_ok_iff.1 hrun
  obtain ⟨list₁, s₂, hremove, hadd⟩ := bind_eq_ok_iff.1 hrun
  obtain ⟨hkeyed, hfresh, hother⟩ := removeNodeFromSkipList_ok h hremove
  obtain ⟨hentered, -, -⟩ := addNodeToSkiplist_ok hkeyed hadd
  obtain ⟨level, htower⟩ := hentered.tower
  refine ⟨hentered.keyed, by rw [hentered.fresh, hfresh], level, fun k => ?_⟩
  rw [htower, hfresh]
  split
  · rfl
  · exact hother k ‹_›

end SkipList

/-! ## A batch of pairs -/

/-- The pairs that insert a member absent at that moment and those that set the score of
a present one, in a batch that names these members and begins with the members
`present`. -/
def pairCounts {M : Type} [DecidableEq M] (xx nx : Bool) : (M → Bool) → List M → ℕ × ℕ
  | _, [] => (0, 0)
  | present, m :: ms =>
      if present m then
        let (inserted, updated) := pairCounts xx nx present ms
        (inserted, if xx || !nx then updated + 1 else updated)
      else if xx then pairCounts xx nx present ms
      else
        let (inserted, updated) := pairCounts xx nx (fun k => present k || decide (k = m)) ms
        (inserted + 1, updated)

/-- A batch inserts nothing if it may not or if it names present members only. -/
theorem pairCounts_fst_eq_zero {M : Type} [DecidableEq M] {xx : Bool} (nx : Bool)
    {present : M → Bool} {ms : List M} :
    (pairCounts xx nx present ms).1 = 0 ↔ xx = true ∨ ∀ m ∈ ms, present m = true := by
  induction ms with
  | nil => simp [pairCounts]
  | cons m ms ih =>
      rw [pairCounts, List.forall_mem_cons]
      by_cases hm : present m = true
      · rw [if_pos hm]
        simp [ih, hm]
      · rw [if_neg hm]
        cases xx with
        | true => simp [ih]
        | false => simp [hm]

namespace SkipList

/-- The members and scores of `list` are still those of `list'`, which has at most `n`
members more. -/
structure Kept (list list' : SkipList) (n : ℕ) : Prop where
  fresh : list.fresh ≤ list'.fresh
  tower : ∀ m, list.has m = true → list'.towerOf m = list.towerOf m
  scores : KeepsScores list.fresh list.heap list'.heap
  size : list.size + n < 2 ^ 64 → list.size ≤ list'.size ∧ list'.size ≤ list.size + n

theorem Kept.refl (list : SkipList) (n : ℕ) : Kept list list n :=
  ⟨le_rfl, fun _ _ => rfl, fun _ _ _ => rfl, fun _ => ⟨le_rfl, Nat.le_add_right _ _⟩⟩

theorem Kept.trans {list'' : SkipList} {n k : ℕ} (h : Kept list list' n)
    (h' : Kept list' list'' k) : Kept list list'' (n + k) where
  fresh := h.fresh.trans h'.fresh
  tower m hm := by
    have hm' : list'.has m = true := by rw [has, h.tower m hm]; exact hm
    rw [h'.tower m hm', h.tower m hm]
  scores p hpos hlt := by
    rw [h'.scores p hpos (hlt.trans_le h.fresh), h.scores p hpos hlt]
  size hsize := by
    obtain ⟨hle, hle'⟩ := h.size (by omega)
    obtain ⟨hle₁, hle₂⟩ := h'.size (by omega)
    omega

/-- The towers of the members are in use. -/
def Allocated (list : SkipList) : Prop :=
  ∀ m p, list.towerOf m = some p → 0 < p.tower ∧ p.tower < list.fresh

theorem Kept.scoreOf {n : ℕ} (h : Kept list list' n) (halloc : list.Allocated) {m : List UInt8}
    (hm : list.has m = true) : list'.scoreOf m = list.scoreOf m := by
  rw [SkipList.scoreOf, SkipList.scoreOf, h.tower m hm]
  cases htower : list.towerOf m with
  | none => rfl
  | some p =>
      obtain ⟨hpos, hlt⟩ := halloc m p htower
      exact h.scores p hpos hlt

theorem kept_of_added (hm : list.has member.buf = false) (h : Entered list list' member.buf)
    (hsize : list'.size = addSize list.size 1)
    (hscores : KeepsScores list.fresh list.heap list'.heap) : Kept list list' 1 where
  fresh := by rw [h.fresh]; exact Nat.le_succ _
  tower k hk := by
    obtain ⟨level, htower⟩ := h.tower
    rw [htower, if_neg]
    rintro rfl
    rw [hm] at hk
    cases hk
  scores := hscores
  size hlt := by
    rw [hsize, addSize, Nat.mod_eq_of_lt hlt]
    omega

/-- The four things that one pass of the loop can do. -/
theorem addOrUpdatePair_ok {xx nx : Bool} {isChanged isNew : Bool} (h : list.table.Keyed)
    (hrun : addOrUpdatePair xx nx list (score, member) s = .ok ((list', isChanged, isNew), t)) :
    list.has member.buf = true ∧ (xx || !nx) = true ∧ isChanged = true ∧ isNew = false ∧
        Entered list list' member.buf ∨
      list.has member.buf = true ∧ (xx || !nx) = false ∧ isChanged = false ∧ isNew = false ∧
        list' = list ∨
      list.has member.buf = false ∧ xx = true ∧ isChanged = false ∧ isNew = false ∧
        list' = list ∨
      list.has member.buf = false ∧ xx = false ∧ isChanged = false ∧ isNew = true ∧
        Entered list list' member.buf ∧ Kept list list' 1 := by
  obtain ⟨⟨tmp, table⟩, s₁, hget, hrun⟩ := bind_eq_ok_iff.1 hrun
  obtain ⟨htmp, rfl, -⟩ := getMember_ok hget
  have hhas : list.has member.buf = tmp.isSome := by rw [has, htmp]
  cases tmp with
  | some target =>
      cases xx with
      | true =>
          obtain ⟨list₁, s₂, hmove, hrun⟩ := bind_eq_ok_iff.1 hrun
          cases hrun
          exact .inl ⟨hhas, rfl, rfl, rfl, moveMember_ok h hmove⟩
      | false =>
          cases nx with
          | true =>
              cases hrun
              exact .inr (.inl ⟨hhas, rfl, rfl, rfl, rfl⟩)
          | false =>
              obtain ⟨list₁, s₂, hmove, hrun⟩ := bind_eq_ok_iff.1 hrun
              cases hrun
              exact .inl ⟨hhas, rfl, rfl, rfl, moveMember_ok h hmove⟩
  | none =>
      cases xx with
      | true =>
          cases hrun
          exact .inr (.inr (.inl ⟨hhas, rfl, rfl, rfl, rfl⟩))
      | false =>
          obtain ⟨list₁, s₂, hadd, hrun⟩ := bind_eq_ok_iff.1 hrun
          cases hrun
          obtain ⟨hentered, hsize, hscores⟩ := addNodeToSkiplist_ok h hadd
          exact .inr (.inr (.inr ⟨hhas, rfl, rfl, rfl, hentered,
            kept_of_added hhas hentered hsize hscores⟩))

/-- A batch enters the members it names unless XX is on, counts them by the law of
`pairCounts`, and with NX keeps what there was. -/
theorem addOrUpdateLoop_ok {xx nx : Bool} {pairs : List (ℚ × ExoString)}
    {changed new_insert changed' new_insert' : ℕ} (h : list.table.Keyed)
    (hrun : addOrUpdateLoop xx nx pairs list changed new_insert s =
      .ok ((list', changed', new_insert'), t)) :
    list'.table.Keyed ∧
      (∀ m, list'.has m = (list.has m || (!xx && decide (m ∈ pairs.map fun p => p.2.buf)))) ∧
      new_insert' = new_insert + (pairCounts xx nx list.has (pairs.map fun p => p.2.buf)).1 ∧
      changed' = changed + (pairCounts xx nx list.has (pairs.map fun p => p.2.buf)).2 ∧
      (xx = false → nx = true → Kept list list' pairs.length) := by
  induction pairs generalizing list changed new_insert s with
  | nil =>
      cases hrun
      exact ⟨h, by simp, rfl, rfl, fun _ _ => .refl _ 0⟩
  | cons pair pairs ih =>
      obtain ⟨score, member⟩ := pair
      obtain ⟨⟨list₁, isChanged, isNew⟩, s₁, hpair, hrest⟩ := bind_eq_ok_iff.1 hrun
      have hcases := addOrUpdatePair_ok h hpair
      simp only [List.map_cons, pairCounts, List.mem_cons]
      rcases hcases with ⟨hm, hflags, rfl, rfl, hentered⟩ | ⟨hm, hflags, rfl, rfl, rfl⟩ |
        ⟨hm, rfl, rfl, rfl, rfl⟩ | ⟨hm, rfl, rfl, rfl, hentered, hkept⟩
      · obtain ⟨hkeyed, hhas, hnew, hchanged, hkept⟩ := ih hentered.keyed hrest
        have hsame : list₁.has = list.has := by
          funext k
          rw [hentered.has]
          by_cases hk : k = member.buf <;> simp [hk, hm]
        rw [hsame] at hhas hnew hchanged
        refine ⟨hkeyed, fun m => ?_, ?_, ?_, fun hxx hnx => ?_⟩
        · rw [hhas]
          by_cases hk : m = member.buf <;> simp [hk, hm]
        · rw [hnew, if_pos hm]
          rfl
        · rw [hchanged, if_pos hm]
          simp only [hflags, if_true, Bool.toNat_true]
          omega
        · rw [hxx, hnx] at hflags
          cases hflags
      · obtain ⟨hkeyed, hhas, hnew, hchanged, hkept⟩ := ih h hrest
        refine ⟨hkeyed, fun m => ?_, ?_, ?_, fun hxx hnx => ?_⟩
        · rw [hhas]
          by_cases hk : m = member.buf <;> simp [hk, hm]
        · rw [hnew, if_pos hm]
          rfl
        · rw [hchanged, if_pos hm]
          simp [hflags]
        · have hle := hkept hxx hnx
          rw [List.length_cons, Nat.add_comm]
          exact (Kept.refl list₁ 1).trans hle
      · obtain ⟨hkeyed, hhas, hnew, hchanged, -⟩ := ih h hrest
        refine ⟨hkeyed, fun m => ?_, ?_, ?_, fun hxx => by cases hxx⟩
        · rw [hhas]
          simp
        · rw [hnew, if_neg (by simp [hm])]
          rfl
        · rw [hchanged, if_neg (by simp [hm])]
          rfl
      · obtain ⟨hkeyed, hhas, hnew, hchanged, hrest⟩ := ih hentered.keyed hrest
        have hhas₁ : list₁.has = fun k => list.has k || decide (k = member.buf) :=
          funext hentered.has
        rw [hhas₁] at hhas hnew hchanged
        refine ⟨hkeyed, fun m => ?_, ?_, ?_, fun hxx hnx => ?_⟩
        · rw [hhas]
          by_cases hk : m = member.buf <;> simp [hk]
        · rw [hnew, if_neg (by simp [hm])]
          simp only [Bool.false_eq_true, if_false, Bool.toNat_true]
          omega
        · rw [hchanged, if_neg (by simp [hm])]
          simp
        · rw [List.length_cons, Nat.add_comm]
          exact hkept.trans (hrest hxx hnx)

end SkipList

end Exoredis
