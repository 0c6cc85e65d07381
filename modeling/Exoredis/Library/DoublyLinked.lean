import Exoredis.Library.Linked

/-!
# Chains along two links

`Doubly next prev l` says that the links `next` lead through the elements of `l` and the
links `prev` lead back. The two directions are mirror images (`Doubly.symm`), so what is
done at one end of a chain is also known of the other.
-/

variable {α : Type}

structure Doubly (next prev : α → Option α) (l : List α) : Prop where
  nodup : l.Nodup
  forward : Linked next l
  backward : Linked prev l.reverse

namespace Doubly

variable {next prev : α → Option α} {l l₁ l₂ : List α} {a d e x : α}

theorem nil : Doubly next prev [] := ⟨List.nodup_nil, trivial, trivial⟩

theorem symm (h : Doubly next prev l) : Doubly prev next l.reverse where
  nodup := List.nodup_reverse.2 h.nodup
  forward := h.backward
  backward := by
    rw [List.reverse_reverse]
    exact h.forward

theorem symm_iff : Doubly prev next l.reverse ↔ Doubly next prev l :=
  ⟨fun h => l.reverse_reverse ▸ h.symm, symm⟩

theorem next_eq (h : Doubly next prev (l₁ ++ a :: l₂)) : next a = l₂.head? :=
  h.forward.next_eq

theorem prev_eq (h : Doubly next prev (l₁ ++ a :: l₂)) : prev a = l₁.getLast? := by
  have hback := h.backward
  rw [List.reverse_append, List.reverse_cons, List.append_assoc, List.singleton_append] at hback
  rw [hback.next_eq, List.head?_reverse]

theorem follow_next (h : Doubly next prev l) {n : ℕ} (hn : l.length ≤ n) :
    followLinks next n l.head? = l :=
  followLinks_of_linked h.forward hn

theorem follow_prev (h : Doubly next prev l) {n : ℕ} (hn : l.length ≤ n) :
    followLinks prev n l.getLast? = l.reverse := by
  have hback := h.symm.follow_next (n := n) (by rwa [List.length_reverse])
  rwa [List.head?_reverse] at hback

/-- Links of other elements may change. -/
theorem congr {next' prev' : α → Option α} (h : Doubly next prev l)
    (hnext : ∀ b ∈ l, next' b = next b) (hprev : ∀ b ∈ l, prev' b = prev b) :
    Doubly next' prev' l :=
  ⟨h.nodup, h.forward.congr hnext, h.backward.congr fun b hb => hprev b (List.mem_reverse.1 hb)⟩

theorem singleton (hnext : next a = none) (hprev : prev a = none) : Doubly next prev [a] :=
  ⟨List.nodup_singleton a, ⟨hnext, trivial⟩, ⟨hprev, trivial⟩⟩

variable [DecidableEq α]

/-- A new element behind the last one. -/
theorem push (h : Doubly next prev (l ++ [d])) (ha : a ∉ l ++ [d]) (hnext : next a = none) :
    Doubly (Function.update next d (some a)) (Function.update prev a (some d))
      (l ++ [d, a]) := by
  have hdl : d ∉ l := by
    have hnodup := h.nodup
    rw [List.nodup_middle, List.append_nil, List.nodup_cons] at hnodup
    exact hnodup.1
  have hda : a ≠ d := fun heq => ha (by simp [heq])
  refine ⟨?_, ?_, ?_⟩
  · rw [List.append_cons, List.nodup_middle, List.append_nil, List.nodup_cons]
    exact ⟨ha, h.nodup⟩
  · refine h.forward.insert (Function.update_self _ _ _) ?_ fun b hb => ?_
    · rw [Function.update_of_ne hda, hnext, h.next_eq]
      rfl
    · rw [List.append_nil] at hb
      exact Function.update_of_ne (ne_of_mem_of_not_mem hb hdl) _ _
  · rw [List.append_cons, List.reverse_append, List.reverse_singleton, List.singleton_append]
    refine ⟨?_, h.backward.congr fun b hb => ?_⟩
    · rw [Function.update_self, List.reverse_append]
      rfl
    · exact Function.update_of_ne (ne_of_mem_of_not_mem (List.mem_reverse.1 hb) ha) _ _

/-- The last element is unlinked from the one before it. -/
theorem remove_last (h : Doubly next prev (l ++ [d, x])) :
    Doubly (Function.update next d none) prev (l ++ [d]) := by
  have hnodup := h.nodup
  rw [List.append_cons, List.nodup_middle, List.append_nil, List.nodup_cons] at hnodup
  have hlast : next x = none := by
    have h' := h
    rw [List.append_cons] at h'
    exact h'.next_eq
  refine ⟨hnodup.2, h.forward.remove ?_ fun b hb => ?_, ?_⟩
  · rw [Function.update_self, hlast]
  · rw [List.append_nil] at hb
    have hdl := hnodup.2
    rw [List.nodup_middle, List.append_nil, List.nodup_cons] at hdl
    exact Function.update_of_ne (ne_of_mem_of_not_mem hb hdl.1) _ _
  · have hback := h.backward
    rw [List.append_cons, List.reverse_append, List.reverse_singleton,
      List.singleton_append] at hback
    exact hback.2

theorem remove_head (h : Doubly next prev (x :: d :: l)) :
    Doubly next (Function.update prev d none) (d :: l) := by
  have hmirror := h.symm
  rw [List.reverse_cons, List.reverse_cons, List.append_assoc] at hmirror
  have hremoved := hmirror.remove_last.symm
  rwa [List.reverse_append, List.reverse_singleton, List.reverse_reverse] at hremoved

/-- An element between two others is unlinked from both. -/
theorem remove_middle (h : Doubly next prev (l₁ ++ d :: x :: e :: l₂)) :
    Doubly (Function.update next d (some e)) (Function.update prev e (some d))
      (l₁ ++ d :: e :: l₂) := by
  have hsplit : l₁ ++ d :: x :: e :: l₂ = (l₁ ++ [d]) ++ x :: e :: l₂ := by simp
  have hsplit' : l₁ ++ d :: x :: e :: l₂ = (l₁ ++ [d, x]) ++ e :: l₂ := by simp
  have hnodup := h.nodup
  have hd : d ∉ l₁ ++ e :: l₂ := by
    rw [List.nodup_middle, List.nodup_cons] at hnodup
    exact fun hmem => hnodup.1 (by
      rw [List.mem_append, List.mem_cons]
      exact (List.mem_append.1 hmem).imp_right .inr)
  have he : e ∉ l₁ ++ d :: l₂ := by
    rw [hsplit', List.nodup_middle, List.nodup_cons] at hnodup
    exact fun hmem => hnodup.1 (by
      rw [List.mem_append, List.mem_cons] at hmem
      rw [List.mem_append, List.mem_append]
      rcases hmem with hmem | rfl | hmem
      · exact .inl (.inl hmem)
      · exact .inl (.inr List.mem_cons_self)
      · exact .inr hmem)
  refine ⟨?_, h.forward.remove ?_ fun b hb => ?_, ?_⟩
  · have hx := h.nodup
    rw [hsplit, List.nodup_middle, List.nodup_cons] at hx
    simpa using hx.2
  · have hnext : next x = some e := by
      have h' := h
      rw [hsplit] at h'
      exact h'.next_eq
    rw [Function.update_self, hnext]
  · exact Function.update_of_ne (ne_of_mem_of_not_mem hb hd) _ _
  · have hback := h.backward
    have hreverse : (l₁ ++ d :: x :: e :: l₂).reverse = l₂.reverse ++ e :: x :: d :: l₁.reverse := by
      simp
    have hreverse' : (l₁ ++ d :: e :: l₂).reverse = l₂.reverse ++ e :: d :: l₁.reverse := by simp
    rw [hreverse] at hback
    rw [hreverse']
    refine hback.remove ?_ fun b hb => ?_
    · have hprev : prev x = some d := by
        have h' := h
        rw [hsplit] at h'
        rw [h'.prev_eq, List.getLast?_concat]
      rw [Function.update_self, hprev]
    · refine Function.update_of_ne (fun heq => he ?_) _ _
      subst heq
      rw [List.mem_append, List.mem_reverse, List.mem_cons, List.mem_reverse] at hb
      rw [List.mem_append, List.mem_cons]
      tauto

end Doubly
