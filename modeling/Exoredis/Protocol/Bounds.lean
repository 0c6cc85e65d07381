import Exoredis.Protocol.Soundness

/-!
# Bounds and progress of the RESP tokenizer

The log of a run lists its passes. `BoundedProgress` is what one expects of it:
every pass moves the cursor forward, every slice lies within the received bytes
and behind the one before it. This holds exactly where no pass meets a length
whose end wraps around and comes out below `len` (`respRun_boundedProgress_iff`).
-/

namespace Exoredis

/-- The slices that were cut, in order. -/
def cuts (log : List PassLog) : List (ℕ × ℕ) := log.filterMap PassLog.slice

structure BoundedProgress (len : ℕ) (log : List PassLog) : Prop where
  progress : ∀ e ∈ log, e.start < e.stop
  inside : ∀ p ∈ cuts log, p.1 + p.2 ≤ len
  disjoint : (cuts log).Pairwise fun p q => p.1 + p.2 < q.1
  passes : log.length ≤ len

/-- `k` bulk strings that end within the received bytes lead from the CR `c` to
the CR `c'`. Lengths are reduced modulo `2 ^ 64`. -/
inductive Advances (mem : ℕ → UInt8) (len : ℕ) : ℕ → ℕ → ℕ → Prop
  | zero (c : ℕ) : Advances mem len 0 c c
  | succ {k c c' v pos : ℕ} : BulkHeader mem len c v pos → pos + v % 2 ^ 64 + 1 < len →
      mem (pos + v % 2 ^ 64) = 13 → Advances mem len k (pos + v % 2 ^ 64) c' →
      Advances mem len (k + 1) c c'

/-- The end of a bulk string passes `2 ^ 64` and comes out below `len` again. -/
def Wraps (len v pos : ℕ) : Prop :=
  2 ^ 64 ≤ pos + v % 2 ^ 64 + 1 ∧ (pos + v % 2 ^ 64 + 1) % 2 ^ 64 < len ∧
    v % 2 ^ 64 ≠ ULONG_MAX

/-- No header that can be reached from the CR `c` in fewer than `num` steps
announces a length that wraps. -/
def NoWrapFrom (mem : ℕ → UInt8) (len num c : ℕ) : Prop :=
  ∀ k c' v pos, k < num → Advances mem len k c c' → BulkHeader mem len c' v pos →
    ¬ Wraps len v pos

/-- No header of the buffer announces a length that wraps, among as many headers
as the count line allows for. -/
def NoWrap (mem : ℕ → UInt8) (len : ℕ) : Prop :=
  ∀ b, mem 0 = 42 → Numeral mem len 1 b →
    NoWrapFrom mem len ((numeralVal mem 1 b % 2 ^ 64 + 1) % 2 ^ 64) b

variable {mem : ℕ → UInt8} {len : ℕ}

theorem Advances.le {k c c' : ℕ} (h : Advances mem len k c c') : c ≤ c' := by
  induction h with
  | zero => exact le_rfl
  | succ hh _ _ _ ih =>
      have := hh.lt_pos
      omega

/-- The passes move on one behind the other, each slice within its pass. -/
def InOrder (len : ℕ) : ℕ → List PassLog → Prop
  | _, [] => True
  | lo, e :: log =>
      lo ≤ e.start ∧ e.start < len ∧ e.start < e.stop ∧
        (∀ p ∈ e.slice, e.start < p.1 ∧ p.1 + p.2 = e.stop ∧ e.stop < len) ∧
        InOrder len e.stop log

namespace InOrder

theorem of_mem {lo : ℕ} {log : List PassLog} (h : InOrder len lo log) {e : PassLog}
    (he : e ∈ log) : lo ≤ e.start ∧ e.start < e.stop ∧
      ∀ p ∈ e.slice, e.start < p.1 ∧ p.1 + p.2 < len := by
  induction log generalizing lo with
  | nil => simp at he
  | cons a log ih =>
      obtain ⟨hlo, -, hstop, hslice, hrest⟩ := h
      rcases List.mem_cons.1 he with rfl | he
      · exact ⟨hlo, hstop, fun p hp => by have := hslice p hp; omega⟩
      · obtain ⟨h₁, h₂, h₃⟩ := ih hrest he
        exact ⟨by omega, h₂, h₃⟩

theorem pairwise {lo : ℕ} {log : List PassLog} (h : InOrder len lo log) :
    (cuts log).Pairwise fun p q => p.1 + p.2 < q.1 := by
  induction log generalizing lo with
  | nil => exact List.Pairwise.nil
  | cons e log ih =>
      obtain ⟨-, -, -, hslice, hrest⟩ := h
      rw [cuts, List.filterMap_cons]
      cases hs : e.slice with
      | none => exact ih hrest
      | some p =>
          refine List.Pairwise.cons (fun q hq => ?_) (ih hrest)
          obtain ⟨e', he', hq'⟩ := List.mem_filterMap.1 hq
          have h₁ := hslice p hs
          have h₂ := hrest.of_mem he'
          have h₃ := h₂.2.2 q hq'
          omega

theorem length_le {lo : ℕ} {log : List PassLog} (h : InOrder len lo log) :
    log.length ≤ len - lo := by
  induction log generalizing lo with
  | nil => exact Nat.zero_le _
  | cons e log ih =>
      obtain ⟨hlo, hlt, hstop, -, hrest⟩ := h
      have := ih hrest
      rw [List.length_cons]
      omega

theorem boundedProgress {lo : ℕ} {log : List PassLog} (h : InOrder len lo log) :
    BoundedProgress len log where
  progress e he := (h.of_mem he).2.1
  inside p hp := by
    obtain ⟨e, he, hs⟩ := List.mem_filterMap.1 hp
    exact le_of_lt ((h.of_mem he).2.2 p hs).2
  disjoint := h.pairwise
  passes := le_trans h.length_le (Nat.sub_le _ _)

end InOrder

/-- The CR at which the pass from `str` on looks for a header. -/
def nextCr (mem : ℕ → UInt8) (len str : ℕ) : ℕ := skipToCr mem len (len - str) str

theorem nextCr_of_cr {str : ℕ} (h : mem str = 13) : nextCr mem len str = str :=
  skipToCr_of_cr h

theorem NoWrapFrom.tail {num c v pos : ℕ} (h : NoWrapFrom mem len (num + 1) c)
    (hh : BulkHeader mem len c v pos) (hend : pos + v % 2 ^ 64 + 1 < len)
    (hcr : mem (pos + v % 2 ^ 64) = 13) :
    NoWrapFrom mem len num (pos + v % 2 ^ 64) :=
  fun k c' w q hk hadv hq => h (k + 1) c' w q (by omega) (.succ hh hend hcr hadv) hq

/-- Without a wrap every pass of the loop stays within the buffer. -/
theorem respLoop_inOrder {num str : ℕ} (tokens : List (Option (List UInt8)))
    (h : NoWrapFrom mem len num (nextCr mem len str)) :
    InOrder len str (respLoop mem len num str tokens).log := by
  induction num generalizing str tokens with
  | zero => trivial
  | succ num ih =>
      rw [respLoop]
      by_cases hstr : str < len
      · rw [if_pos hstr]
        have hle : str ≤ nextCr mem len str := le_skipToCr _ _
        cases hpass : respPass mem len str with
        | reject => trivial
        | last stop =>
            obtain ⟨c, hc, -, -, -, rfl⟩ := respPass_eq_last_iff.1 hpass
            rw [nextCr, hc] at hle
            exact ⟨le_rfl, hstr, by simp only; omega, by simp, trivial⟩
        | cut pos l =>
            obtain ⟨v, hh, rfl, hne, hguard⟩ := respPass_eq_cut_iff.1 hpass
            have hnowrap := h 0 _ v pos (Nat.succ_pos num) (.zero _) hh
            have hsum : pos + v % 2 ^ 64 + 1 < 2 ^ 64 := by
              by_contra hge
              exact hnowrap ⟨by omega, hguard, hne⟩
            have hend : pos + v % 2 ^ 64 + 1 < len := by
              rwa [Nat.mod_eq_of_lt hsum] at hguard
            have hmod : (pos + v % 2 ^ 64) % 2 ^ 64 = pos + v % 2 ^ 64 :=
              Nat.mod_eq_of_lt (by omega)
            have hpos := hh.lt_pos
            rw [nextCr] at hle
            have hentry : str < pos := by omega
            have hfirst : ∀ log, InOrder len (pos + v % 2 ^ 64) log →
                InOrder len str (⟨str, pos + v % 2 ^ 64, some (pos, v % 2 ^ 64)⟩ :: log) := by
              intro log hlog
              refine ⟨le_rfl, hstr, ?_, ?_, hlog⟩
              · simp only
                omega
              · rintro p hp
                obtain rfl : (pos, v % 2 ^ 64) = p := Option.some.inj hp
                exact ⟨hentry, rfl, by simp only; omega⟩
            simp only [hmod]
            cases htok : copyToken mem pos (v % 2 ^ 64) with
            | error fault => exact hfirst [] trivial
            | ok tkn =>
                by_cases hcr : mem (pos + v % 2 ^ 64) = 13
                · simp only [hcr, ne_eq, not_true_eq_false, if_false]
                  refine hfirst _ (ih _ ?_)
                  rw [nextCr_of_cr hcr]
                  exact h.tail hh hend hcr
                · simp only [ne_eq, hcr, not_false_eq_true, if_true]
                  exact hfirst [] trivial
      · rw [if_neg hstr]
        trivial

/-- A header that wraps and can be reached leaves its slice in the log. -/
theorem mem_cuts_of_advances (hmax : len ≤ PTRDIFF_MAX) {k num str c' v pos : ℕ}
    (tokens : List (Option (List UInt8))) (hk : k < num) (hstr : str < len)
    (hadv : Advances mem len k (nextCr mem len str) c') (hh : BulkHeader mem len c' v pos)
    (hwrap : Wraps len v pos) :
    (pos, v % 2 ^ 64) ∈ cuts (respLoop mem len num str tokens).log := by
  induction num generalizing k str tokens with
  | zero => omega
  | succ num ih =>
      rw [respLoop, if_pos hstr]
      generalize hc : nextCr mem len str = c at hadv
      cases hadv with
      | zero =>
          have hpass : respPass mem len str = .cut pos (v % 2 ^ 64) := by
            rw [respPass_eq_cut_iff]
            rw [← hc, nextCr] at hh
            exact ⟨v, hh, rfl, hwrap.2.2, hwrap.2.1⟩
          rw [hpass]
          simp only
          cases copyToken mem pos (v % 2 ^ 64) with
          | error fault => simp [cuts]
          | ok tkn =>
              simp only
              split <;> simp [cuts, RespRun.record]
      | @succ k _ _ w q hq hend hcr hrest =>
          unfold PTRDIFF_MAX at hmax
          have hne : w % 2 ^ 64 ≠ ULONG_MAX := by
            unfold ULONG_MAX
            omega
          have hpass : respPass mem len str = .cut q (w % 2 ^ 64) := by
            rw [respPass_eq_cut_iff]
            rw [← hc, nextCr] at hq
            exact ⟨w, hq, rfl, hne, by omega⟩
          have hmod : (q + w % 2 ^ 64) % 2 ^ 64 = q + w % 2 ^ 64 :=
            Nat.mod_eq_of_lt (by omega)
          rw [hpass]
          simp only [hmod]
          have hcopy : ∃ tkn, copyToken mem q (w % 2 ^ 64) = .ok tkn :=
            ⟨_, copyToken_eq_ok_iff.2 ⟨by omega, rfl⟩⟩
          obtain ⟨tkn, htkn⟩ := hcopy
          rw [htkn]
          simp only [hcr, ne_eq, not_true_eq_false, if_false, RespRun.record, cuts,
            List.filterMap_cons]
          have hnext : nextCr mem len (q + w % 2 ^ 64) = _ := nextCr_of_cr hcr
          rw [← hnext] at hrest
          exact List.mem_cons_of_mem _ (ih _ (Nat.lt_of_succ_lt_succ hk) (by omega) hrest)

/-- The passes over a buffer are in bounds and make progress if and only if no
length wraps. -/
theorem respRun_boundedProgress_iff (mem : ℕ → UInt8) (len : ℕ) (hlen : 0 < len)
    (hmax : len ≤ PTRDIFF_MAX) :
    BoundedProgress len (respRun mem len).log ↔ NoWrap mem len := by
  constructor
  · rintro h b hstar hb k c' v pos hk hadv hh hwrap
    have hlt : 1 < len := by
      have := hadv.le
      have := hh.lt
      have := hb.le
      omega
    have hmem := mem_cuts_of_advances hmax [] hk hlt
      (by rwa [nextCr, skipToCr_numeral hb]) hh hwrap
    rw [← getRespInt_numeral hb] at hmem
    have hin := h.inside (pos, v % 2 ^ 64) (by
      rw [respRun, if_neg (by simpa using hstar)]
      exact hmem)
    have := hwrap.1
    unfold PTRDIFF_MAX at hmax
    simp only at hin
    omega
  · intro h
    rw [respRun]
    by_cases hstar : mem 0 = 42
    · rw [if_neg (by simpa using hstar)]
      by_cases hint : getRespInt mem len 1 = ULONG_MAX
      · have hzero : (getRespInt mem len 1 + 1) % 2 ^ 64 = 0 := by
          rw [hint]
          decide
        rw [hzero]
        exact ⟨by simp [respLoop, respFinish], by simp [respLoop, respFinish, cuts],
          by simp [respLoop, respFinish, cuts], by simp [respLoop, respFinish]⟩
      · obtain ⟨b, hb⟩ := numeral_of_getRespInt hint
        refine (respLoop_inOrder [] ?_).boundedProgress
        rw [nextCr, skipToCr_numeral hb, getRespInt_numeral hb]
        exact h b hstar hb
    · rw [if_pos (by simpa using hstar)]
      exact ⟨by simp, by simp [cuts], by simp [cuts], by simp⟩

theorem respRun_boundedProgress_ping :
    0 < 14 ∧ 14 ≤ PTRDIFF_MAX ∧
      (BoundedProgress 14 (respRun (memoryOf pingBuffer) 14).log ↔
        NoWrap (memoryOf pingBuffer) 14) :=
  ⟨by decide, by decide,
    respRun_boundedProgress_iff (memoryOf pingBuffer) 14 (by decide) (by decide)⟩

/-- A bulk string announced with `2 ^ 64 - 20` bytes. -/
def wrappedLengthBuffer : List UInt8 := ascii "*1\r\n$18446744073709551596\r\n"

/-- The slice that is cut begins at the end of the buffer, reaches far beyond it,
and takes the cursor from `1` back to `7`, which lies behind the slice's start. -/
theorem respRun_not_boundedProgress :
    (respRun (memoryOf wrappedLengthBuffer) 27).log =
        [⟨1, 7, some (27, 18446744073709551596)⟩] ∧
      ¬ BoundedProgress 27 (respRun (memoryOf wrappedLengthBuffer) 27).log := by
  have hlog : (respRun (memoryOf wrappedLengthBuffer) 27).log =
      [⟨1, 7, some (27, 18446744073709551596)⟩] := by decide +kernel
  refine ⟨hlog, fun h => ?_⟩
  have := h.inside (27, 18446744073709551596) (by rw [hlog]; simp [cuts])
  simp at this

end Exoredis
