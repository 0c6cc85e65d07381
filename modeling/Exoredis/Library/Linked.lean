import Mathlib

/-!
# Chains along a link

`Linked next l` says that the links lead through the elements of `l` one after the
other and end behind the last. A new element behind `d` and the removal of the
successor of `d` are changes of two links and of one (`linked_insert`,
`linked_remove`). `stopAt` is where a walk comes to rest that goes on as long as a
condition on the current element and its successor holds.
-/

variable {α : Type}

/-- Following `next` from the head of the list passes its elements in order. -/
def Linked (next : α → Option α) : List α → Prop
  | [] => True
  | a :: l => next a = l.head? ∧ Linked next l

namespace Linked

variable {next next' : α → Option α} {l l₁ l₂ : List α} {a d x : α}

theorem congr (h : Linked next l) (heq : ∀ a ∈ l, next' a = next a) : Linked next' l := by
  induction l with
  | nil => trivial
  | cons a l ih =>
      refine ⟨?_, ih h.2 fun b hb => heq b (List.mem_cons_of_mem _ hb)⟩
      rw [heq a List.mem_cons_self]
      exact h.1

theorem of_append (h : Linked next (l₁ ++ l₂)) : Linked next l₂ := by
  induction l₁ with
  | nil => exact h
  | cons a l₁ ih => exact ih h.2

theorem next_eq (h : Linked next (l₁ ++ a :: l₂)) : next a = l₂.head? := h.of_append.1

theorem insert (h : Linked next (l₁ ++ d :: l₂)) (hd : next' d = some x) (hx : next' x = next d)
    (hothers : ∀ a ∈ l₁ ++ l₂, next' a = next a) : Linked next' (l₁ ++ d :: x :: l₂) := by
  induction l₁ with
  | nil => exact ⟨hd, hx.trans h.1, h.2.congr hothers⟩
  | cons a l₁ ih =>
      refine ⟨?_, ih h.2 fun b hb => hothers b (List.mem_cons_of_mem _ hb)⟩
      rw [hothers a List.mem_cons_self, h.1]
      cases l₁ <;> rfl

theorem remove (h : Linked next (l₁ ++ d :: x :: l₂)) (hd : next' d = next x)
    (hothers : ∀ a ∈ l₁ ++ l₂, next' a = next a) : Linked next' (l₁ ++ d :: l₂) := by
  induction l₁ with
  | nil => exact ⟨hd.trans h.2.1, h.2.2.congr hothers⟩
  | cons a l₁ ih =>
      refine ⟨?_, ih h.2 fun b hb => hothers b (List.mem_cons_of_mem _ hb)⟩
      rw [hothers a List.mem_cons_self, h.1]
      cases l₁ <;> rfl

end Linked

/-- At most `n` elements from `a` on. -/
def followLinks (next : α → Option α) : ℕ → Option α → List α
  | n + 1, some a => a :: followLinks next n (next a)
  | _, _ => []

theorem followLinks_of_linked {next : α → Option α} {l : List α} (h : Linked next l) {n : ℕ}
    (hn : l.length ≤ n) : followLinks next n l.head? = l := by
  induction l generalizing n with
  | nil => cases n <;> rfl
  | cons a l ih =>
      cases n with
      | zero => cases hn
      | succ n =>
          rw [List.head?_cons, followLinks, h.1, ih h.2 (Nat.le_of_succ_le_succ hn)]

/-! ## Walks -/

/-- Where a walk from `a` through `l` stops. -/
def stopAt (q : α → α → Bool) (a : α) : List α → α
  | [] => a
  | b :: l => if q a b then stopAt q b l else a

variable {q : α → α → Bool} {a : α} {l : List α}

/-- If a walk goes on from an element with `P` exactly where the next one has `P`, it
stops at the last of the leading elements with `P`. -/
theorem stopAt_spec {P : α → Prop} (ha : P a)
    (h : ∀ pre b c rest, a :: l = pre ++ b :: c :: rest → P b → (q b c = true ↔ P c)) :
    ∃ pre rest, a :: l = pre ++ stopAt q a l :: rest ∧ (∀ b ∈ pre, P b) ∧ P (stopAt q a l) ∧
      ∀ c ∈ rest.head?, ¬ P c := by
  induction l generalizing a with
  | nil => exact ⟨[], [], rfl, by simp, ha, by simp⟩
  | cons b l ih =>
      have hb : q a b = true ↔ P b := h [] a b l rfl ha
      rw [stopAt]
      by_cases hq : q a b = true
      · rw [if_pos hq]
        obtain ⟨pre, rest, hsplit, hpre, hstop, hrest⟩ := ih (hb.1 hq)
          fun pre' c d rest' heq => h (a :: pre') c d rest' (by rw [heq]; rfl)
        refine ⟨a :: pre, rest, by rw [hsplit]; rfl, ?_, hstop, hrest⟩
        intro c hc
        rcases List.mem_cons.1 hc with rfl | hc
        · exact ha
        · exact hpre c hc
      · rw [if_neg hq]
        refine ⟨[], b :: l, rfl, by simp, ha, ?_⟩
        simpa using fun hP => hq (hb.2 hP)

theorem stopAt_mem (q : α → α → Bool) (a : α) (l : List α) : stopAt q a l ∈ a :: l := by
  induction l generalizing a with
  | nil => exact List.mem_cons_self
  | cons b l ih =>
      rw [stopAt]
      split
      · exact List.mem_cons_of_mem _ (ih b)
      · exact List.mem_cons_self

theorem suffix_of_cons_eq {pre rest : List α} {d : α} (h : a :: l = pre ++ d :: rest) :
    rest <:+ l := by
  cases pre with
  | nil => exact (List.cons.inj h).2 ▸ List.suffix_refl _
  | cons e pre => exact ⟨pre ++ [d], by rw [(List.cons.inj h).2, List.append_assoc]; rfl⟩

/-- The elements with `P` are those up to `d`. -/
def LastWith (P : α → Prop) (l : List α) (d : α) : Prop :=
  ∃ pre rest, l = pre ++ d :: rest ∧ (∀ b ∈ pre, P b) ∧ P d ∧ ∀ c ∈ rest, ¬ P c

theorem LastWith.mem {P : α → Prop} {d : α} (h : LastWith P l d) : d ∈ l := by
  obtain ⟨pre, rest, rfl, -⟩ := h
  simp

theorem LastWith.of_mem {P : α → Prop} {d : α} (h : LastWith P l d) : P d := by
  obtain ⟨-, -, -, -, hd, -⟩ := h
  exact hd

theorem LastWith.congr {P Q : α → Prop} {d : α} (h : LastWith P l d)
    (heq : ∀ b ∈ l, (P b ↔ Q b)) : LastWith Q l d := by
  obtain ⟨pre, rest, rfl, hpre, hd, hrest⟩ := h
  refine ⟨pre, rest, rfl, fun b hb => ?_, (heq d (by simp)).1 hd, fun c hc hQ => ?_⟩
  · exact (heq b (List.mem_append_left _ hb)).1 (hpre b hb)
  · exact hrest c hc ((heq c (by simp [hc])).2 hQ)

/-! ## Insertion behind an element -/

section

variable [DecidableEq α]

/-- The elements behind `a`. -/
def behind (a : α) : List α → List α
  | [] => []
  | b :: l => if b = a then l else behind a l

theorem eq_append_behind (h : a ∈ l) : ∃ pre, l = pre ++ a :: behind a l ∧ a ∉ pre := by
  induction l with
  | nil => cases h
  | cons b l ih =>
      rw [behind]
      by_cases hb : b = a
      · subst hb
        exact ⟨[], by rw [if_pos rfl]; rfl, by simp⟩
      · obtain ⟨pre, hpre, hnot⟩ := ih ((List.mem_cons.1 h).resolve_left fun h => hb h.symm)
        refine ⟨b :: pre, ?_, ?_⟩
        · rw [if_neg hb, List.cons_append, ← hpre]
        · rw [List.mem_cons, not_or]
          exact ⟨fun h => hb h.symm, hnot⟩

theorem behind_append {pre rest : List α} (h : a ∉ pre) : behind a (pre ++ a :: rest) = rest := by
  induction pre with
  | nil => rw [List.nil_append, behind, if_pos rfl]
  | cons b pre ih =>
      rw [List.mem_cons, not_or] at h
      rw [List.cons_append, behind, if_neg fun hb => h.1 hb.symm, ih h.2]

theorem behind_subset (a : α) (l : List α) : behind a l ⊆ l := by
  induction l with
  | nil => exact List.Subset.refl _
  | cons b l ih =>
      rw [behind]
      split
      · exact List.subset_cons_self _ _
      · exact List.subset_cons_of_subset _ ih

theorem behind_cons_subset {b : α} : behind a (b :: l) ⊆ l := by
  rw [behind]
  split
  · exact List.Subset.refl _
  · exact behind_subset a l

/-- The first element without `P` stands behind the last one with it. -/
theorem LastWith.head?_behind {P : α → Prop} {d t : α} (hl : l.Nodup) (h : LastWith P l d)
    (ht : t ∈ l) (hPt : ¬ P t) (hbefore : ∀ u, [u, t].Sublist l → P u) :
    (behind d l).head? = some t := by
  obtain ⟨pre, rest, rfl, hpre, hd, hrest⟩ := h
  rw [List.nodup_middle, List.nodup_cons, List.mem_append, not_or] at hl
  rw [behind_append hl.1.1]
  have htrest : t ∈ rest := by
    rcases List.mem_append.1 ht with hmem | hmem
    · exact absurd (hpre t hmem) hPt
    · refine (List.mem_cons.1 hmem).resolve_left ?_
      rintro rfl
      exact hPt hd
  cases rest with
  | nil => cases htrest
  | cons c rest =>
      rcases List.mem_cons.1 htrest with rfl | hmem
      · rfl
      · refine absurd (hbefore c ?_) (hrest c List.mem_cons_self)
        refine List.sublist_append_of_sublist_right (List.Sublist.cons d ?_)
        exact (List.singleton_sublist.2 hmem).cons_cons c

/-- The first element without `P` is the successor of the last one with it. -/
theorem LastWith.head?_behind_eq_find? {P : α → Prop} [DecidablePred P] {d : α} (hl : l.Nodup)
    (h : LastWith P l d) : (behind d l).head? = l.find? fun b => !decide (P b) := by
  obtain ⟨pre, rest, rfl, hpre, hd, hrest⟩ := h
  rw [List.nodup_middle, List.nodup_cons, List.mem_append, not_or] at hl
  have hbefore : (pre.find? fun b => !decide (P b)) = none := by
    simpa [List.find?_eq_none] using hpre
  rw [behind_append hl.1.1, List.find?_append, hbefore, List.find?_cons_of_neg (by simpa using hd)]
  cases rest with
  | nil => rfl
  | cons c rest =>
      rw [List.find?_cons_of_pos (by simpa using hrest c List.mem_cons_self)]
      rfl

/-- The list with `x` behind `d`. -/
def insertBehind (d x : α) : List α → List α
  | [] => []
  | b :: l => if b = d then b :: x :: l else b :: insertBehind d x l

theorem insertBehind_append {d x : α} {pre rest : List α} (h : d ∉ pre) :
    insertBehind d x (pre ++ d :: rest) = pre ++ d :: x :: rest := by
  induction pre with
  | nil => rw [List.nil_append, insertBehind, if_pos rfl]; rfl
  | cons b pre ih =>
      rw [List.mem_cons, not_or] at h
      rw [List.cons_append, insertBehind, if_neg fun hb => h.1 hb.symm, ih h.2]
      rfl

theorem mem_insertBehind {d x y : α} (hd : d ∈ l) : y ∈ insertBehind d x l ↔ y = x ∨ y ∈ l := by
  obtain ⟨pre, hpre, hnot⟩ := eq_append_behind hd
  rw [hpre, insertBehind_append hnot]
  simp only [List.mem_append, List.mem_cons]
  tauto

theorem nodup_insertBehind {d x : α} (hl : l.Nodup) (hd : d ∈ l) (hx : x ∉ l) :
    (insertBehind d x l).Nodup := by
  obtain ⟨pre, hpre, hnot⟩ := eq_append_behind hd
  rw [hpre] at hl hx ⊢
  rw [insertBehind_append hnot]
  have hmiddle : (pre ++ d :: x :: behind d l) = (pre ++ [d]) ++ x :: behind d l := by simp
  rw [hmiddle, List.nodup_middle, List.nodup_cons]
  have hl' : (pre ++ [d]) ++ behind d l = pre ++ d :: behind d l := by simp
  rw [hl']
  exact ⟨hx, hl⟩

/-- Where the elements with `P` come first, a walk that starts among them and goes on
exactly to elements with `P` stops at the last of them. -/
theorem lastWith_stopAt {P : α → Prop} (hl : l.Pairwise fun b c => P c → P b) (ha : a ∈ l)
    (hP : P a) (h : ∀ pre b c rest, a :: behind a l = pre ++ b :: c :: rest → P b →
      (q b c = true ↔ P c)) : LastWith P l (stopAt q a (behind a l)) := by
  obtain ⟨pre₀, hsplit, -⟩ := eq_append_behind ha
  obtain ⟨pre, rest, hstop, hpre, hd, hrest⟩ := stopAt_spec hP h
  rw [hstop, ← List.append_assoc] at hsplit
  rw [hsplit, List.pairwise_append] at hl
  refine ⟨pre₀ ++ pre, rest, hsplit, fun b hb => hl.2.2 b hb _ List.mem_cons_self hd, hd, ?_⟩
  intro c hc hPc
  cases rest with
  | nil => cases hc
  | cons e rest =>
      refine hrest e rfl ?_
      rcases List.mem_cons.1 hc with rfl | hc
      · exact hPc
      · exact (List.pairwise_cons.1 (List.pairwise_cons.1 hl.2.1).2).1 c hc hPc

/-! ## Places -/

theorem idxOf_lt_of_sublist {b : α} (hl : l.Nodup) (h : [a, b].Sublist l) :
    l.idxOf a < l.idxOf b := by
  induction l with
  | nil => cases h
  | cons c l ih =>
      rw [List.nodup_cons] at hl
      cases h with
      | cons _ h =>
          have ha : c ≠ a := fun heq => hl.1 (heq ▸ h.subset List.mem_cons_self)
          have hb : c ≠ b := fun heq => hl.1 (heq ▸ h.subset (by simp))
          rw [List.idxOf_cons_ne _ ha, List.idxOf_cons_ne _ hb]
          exact Nat.succ_lt_succ (ih hl.2 h)
      | cons_cons _ h =>
          have hb : a ≠ b := fun heq => hl.1 (heq ▸ List.singleton_sublist.1 h)
          rw [List.idxOf_cons_self, List.idxOf_cons_ne _ hb]
          exact Nat.succ_pos _

theorem pairwise_idxOf (hl : l.Nodup) : l.Pairwise fun a b => l.idxOf a < l.idxOf b :=
  List.pairwise_iff_forall_sublist.2 fun h => idxOf_lt_of_sublist hl h

theorem idxOf_append_cons {pre rest : List α} (h : a ∉ pre) :
    (pre ++ a :: rest).idxOf a = pre.length := by
  rw [List.idxOf_append_of_notMem h, List.idxOf_cons_self, Nat.add_zero]

/-- The last of the leading elements with `P` has as many elements with `P` before it. -/
theorem LastWith.countP_eq {P : α → Prop} [DecidablePred P] {d : α} (hl : l.Nodup)
    (h : LastWith P l d) : l.countP (fun b => decide (P b)) = l.idxOf d + 1 := by
  obtain ⟨pre, rest, rfl, hpre, hd, hrest⟩ := h
  rw [List.nodup_middle, List.nodup_cons, List.mem_append, not_or] at hl
  have hpre' : pre.countP (fun b => decide (P b)) = pre.length :=
    List.countP_eq_length.2 fun b hb => decide_eq_true (hpre b hb)
  have hrest' : rest.countP (fun b => decide (P b)) = 0 :=
    List.countP_eq_zero.2 fun b hb => by simpa using hrest b hb
  have hd' : (d :: rest).countP (fun b => decide (P b)) = 1 := by
    rw [List.countP_cons, hrest', if_pos (decide_eq_true hd)]
  rw [idxOf_append_cons hl.1.1, List.countP_append, hpre', hd']

/-- The elements with `P` are those up to the last of them. -/
theorem LastWith.iff_idxOf_le {P : α → Prop} {d : α} (hl : l.Nodup) (h : LastWith P l d)
    (ha : a ∈ l) : P a ↔ l.idxOf a ≤ l.idxOf d := by
  obtain ⟨pre, rest, rfl, hpre, hd, hrest⟩ := h
  have hnodup := hl
  rw [List.nodup_middle, List.nodup_cons, List.mem_append, not_or] at hnodup
  rw [idxOf_append_cons hnodup.1.1]
  by_cases hmem : a ∈ pre
  · refine iff_of_true (hpre a hmem) ?_
    rw [List.idxOf_append_of_mem hmem]
    exact (List.idxOf_lt_length_of_mem hmem).le
  · rw [List.idxOf_append_of_notMem hmem]
    rcases List.mem_cons.1 ((List.mem_append.1 ha).resolve_left hmem) with rfl | hmem'
    · refine iff_of_true hd ?_
      rw [List.idxOf_cons_self, Nat.add_zero]
    · have hne : d ≠ a := by
        rintro rfl
        exact hnodup.1.2 hmem'
      refine iff_of_false (hrest a hmem') ?_
      rw [List.idxOf_cons_ne _ hne]
      omega

/-- The successors of elements with `P` have it but for the last of them. -/
theorem LastWith.successor {P : α → Prop} {d : α} (hl : l.Nodup) (h : LastWith P l d)
    (ha : a ∈ l) : (a = d ∧ ∀ b ∈ (behind a l).head?, ¬ P b) ∨
      (a ≠ d ∧ P a ∧ ∃ b, (behind a l).head? = some b ∧ P b) ∨
      (a ≠ d ∧ ¬ P a ∧ ∀ b ∈ (behind a l).head?, ¬ P b) := by
  obtain ⟨pre, rest, rfl, hpre, hd, hrest⟩ := h
  have hnodup := hl
  rw [List.nodup_middle, List.nodup_cons, List.mem_append, not_or] at hnodup
  by_cases had : a = d
  · refine .inl ⟨had, fun b hb => hrest b ?_⟩
    rw [had, behind_append hnodup.1.1] at hb
    exact List.mem_of_head? hb
  · rcases List.mem_append.1 ha with hmem | hmem
    · refine .inr (.inl ⟨had, hpre a hmem, ?_⟩)
      obtain ⟨s, t, rfl⟩ := List.append_of_mem hmem
      have has : a ∉ s := by
        rw [List.append_assoc, List.cons_append, List.nodup_middle, List.nodup_cons] at hnodup
        exact fun has => hnodup.2.1 (List.mem_append_left _ has)
      rw [List.append_assoc, List.cons_append, behind_append has]
      cases t with
      | nil => exact ⟨d, rfl, hd⟩
      | cons b t => exact ⟨b, rfl, hpre b (by simp)⟩
    · have hmem' : a ∈ rest := (List.mem_cons.1 hmem).resolve_left had
      refine .inr (.inr ⟨had, hrest a hmem', fun b hb => hrest b ?_⟩)
      obtain ⟨s, t, rfl⟩ := List.append_of_mem hmem'
      have has : a ∉ pre ++ d :: s := by
        have hsplit : pre ++ d :: (s ++ a :: t) = (pre ++ d :: s) ++ a :: t := by simp
        rw [hsplit, List.nodup_middle, List.nodup_cons, List.mem_append, not_or] at hl
        exact hl.1.1
      have hsplit : pre ++ d :: (s ++ a :: t) = (pre ++ d :: s) ++ a :: t := by simp
      rw [hsplit, behind_append has] at hb
      exact List.mem_append_right _ (List.mem_cons_of_mem _ (List.mem_of_head? hb))

/-! ## Places after an insertion and a removal -/

section

variable {d x : α} (hl : l.Nodup) (hd : d ∈ l) (hx : x ∉ l)

include hd hx

theorem idxOf_insertBehind_self : (insertBehind d x l).idxOf x = l.idxOf d + 1 := by
  obtain ⟨pre, hsplit, hpre⟩ := eq_append_behind hd
  rw [hsplit] at hx ⊢
  rw [List.mem_append, List.mem_cons, not_or, not_or] at hx
  rw [insertBehind_append hpre, idxOf_append_cons hpre, List.append_cons, idxOf_append_cons]
  · simp
  · rw [List.mem_append, List.mem_singleton, not_or]
    exact ⟨hx.1, hx.2.1⟩

theorem behind_insertBehind_self : behind x (insertBehind d x l) = behind d l := by
  obtain ⟨pre, hsplit, hpre⟩ := eq_append_behind hd
  rw [hsplit] at hx
  rw [List.mem_append, List.mem_cons, not_or, not_or] at hx
  rw [hsplit, insertBehind_append hpre, behind_append hpre, List.append_cons, behind_append]
  rw [List.mem_append, List.mem_singleton, not_or]
  exact ⟨hx.1, hx.2.1⟩

theorem idxOf_insertBehind (ha : a ∈ l) : (insertBehind d x l).idxOf a =
    if l.idxOf a ≤ l.idxOf d then l.idxOf a else l.idxOf a + 1 := by
  obtain ⟨pre, hsplit, hpre⟩ := eq_append_behind hd
  have hax : x ≠ a := by
    rintro rfl
    exact hx ha
  rw [hsplit] at ha ⊢
  rw [insertBehind_append hpre, idxOf_append_cons hpre]
  by_cases hmem : a ∈ pre
  · have hlt := List.idxOf_lt_length_of_mem hmem
    rw [List.idxOf_append_of_mem hmem, List.idxOf_append_of_mem hmem, if_pos hlt.le]
  · rw [List.idxOf_append_of_notMem hmem, List.idxOf_append_of_notMem hmem]
    by_cases had : d = a
    · subst had
      rw [List.idxOf_cons_self, List.idxOf_cons_self, if_pos (by omega)]
    · rw [List.idxOf_cons_ne _ had, List.idxOf_cons_ne _ had, List.idxOf_cons_ne _ hax,
        if_neg (by omega)]
      omega

include hl

theorem head?_behind_insertBehind (ha : a ∈ l) : (behind a (insertBehind d x l)).head? =
    if a = d then some x else (behind a l).head? := by
  obtain ⟨pre, hsplit, hpre⟩ := eq_append_behind hd
  have hax : x ≠ a := by
    rintro rfl
    exact hx ha
  rw [hsplit] at ha hl ⊢
  rw [insertBehind_append hpre]
  by_cases had : a = d
  · subst had
    rw [if_pos rfl, behind_append hpre]
    rfl
  · rw [if_neg had]
    rcases List.mem_append.1 ha with hmem | hmem
    · obtain ⟨s, t, rfl⟩ := List.append_of_mem hmem
      have has : a ∉ s := by
        rw [List.append_assoc, List.cons_append, List.nodup_middle, List.nodup_cons,
          List.mem_append, not_or] at hl
        exact hl.1.1
      rw [List.append_assoc, List.cons_append, behind_append has, List.append_assoc,
        List.cons_append, behind_append has]
      cases t <;> rfl
    · have hmem' : a ∈ behind d l := (List.mem_cons.1 hmem).resolve_left had
      obtain ⟨s, t, hst⟩ := List.append_of_mem hmem'
      rw [hst] at hl ⊢
      have hsplit' : pre ++ d :: (s ++ a :: t) = (pre ++ d :: s) ++ a :: t := by simp
      have hsplit'' : pre ++ d :: x :: (s ++ a :: t) = (pre ++ d :: x :: s) ++ a :: t := by simp
      rw [hsplit', List.nodup_middle, List.nodup_cons, List.mem_append, not_or] at hl
      have has := hl.1.1
      rw [List.mem_append, List.mem_cons, not_or, not_or] at has
      rw [hsplit', hsplit'', behind_append, behind_append hl.1.1]
      rw [List.mem_append, List.mem_cons, List.mem_cons, not_or, not_or, not_or]
      exact ⟨has.1, has.2.1, fun heq => hax heq.symm, has.2.2⟩

end

/-- Taking out the successor of `d` is the converse of putting it behind `d`. -/
theorem exists_append_of_head?_behind {d t : α} (hl : l.Nodup) (hd : d ∈ l)
    (h : (behind d l).head? = some t) :
    ∃ pre rest, l = pre ++ d :: t :: rest ∧ l.erase t = pre ++ d :: rest ∧
      t ∉ pre ++ d :: rest ∧ d ∉ pre := by
  obtain ⟨pre, hsplit, hpre⟩ := eq_append_behind hd
  obtain ⟨rest, hrest⟩ := List.head?_eq_some_iff.1 h
  rw [hrest] at hsplit
  have hmiddle : l = (pre ++ [d]) ++ t :: rest := by
    rw [hsplit]
    simp
  have ht : t ∉ (pre ++ [d]) ++ rest := by
    rw [hmiddle, List.nodup_middle, List.nodup_cons] at hl
    exact hl.1
  refine ⟨pre, rest, hsplit, ?_, by simpa using ht, hpre⟩
  rw [hmiddle, List.erase_append_right _ fun hmem => ht (List.mem_append_left _ hmem),
    List.erase_cons_head, List.append_assoc]
  rfl

theorem insertBehind_erase {d t : α} (hl : l.Nodup) (hd : d ∈ l)
    (h : (behind d l).head? = some t) : insertBehind d t (l.erase t) = l := by
  obtain ⟨pre, rest, hsplit, herase, -, hpre⟩ := exists_append_of_head?_behind hl hd h
  rw [herase, insertBehind_append hpre, ← hsplit]

theorem LastWith.erase {P : α → Prop} {d t : α} (h : LastWith P l d) (ht : ¬ P t) :
    LastWith P (l.erase t) d := by
  obtain ⟨pre, rest, rfl, hpre, hd, hrest⟩ := h
  have hdt : d ≠ t := by
    rintro rfl
    exact ht hd
  refine ⟨pre, rest.erase t, ?_, hpre, hd, fun c hc => hrest c (List.mem_of_mem_erase hc)⟩
  rw [List.erase_append_right _ fun hmem => ht (hpre t hmem),
    List.erase_cons_tail (by simpa using hdt)]

end
