import Exoredis.Protocol.Pass

/-!
# What the RESP tokenizer accepts

`ReadsAs mem len v items` says that the buffer reads as an array under 64-bit
arithmetic: its count line announces `v`, and every item `(pos, w)` is a bulk
string announced with `w` bytes at `pos`, where counts, lengths and positions
are reduced modulo `2 ^ 64`. The tokenizer accepts exactly these buffers
(`respTokenizer_eq_some_iff`).

Where no reduction takes place such a reading is a RESP array, and every RESP
array has one. `NumbersFit` states that the buffer has no reading with a
reduced number.
-/

namespace Exoredis

open Decimal

/-- The bulk strings read from the CR `c` on. -/
inductive Reading (mem : ℕ → UInt8) (len : ℕ) : ℕ → List (ℕ × ℕ) → Prop
  | last {c : ℕ} : mem c = 13 → mem (c + 1) = 10 → c + 2 = len → Reading mem len c []
  | bulk {c v pos : ℕ} {items : List (ℕ × ℕ)} :
      BulkHeader mem len c v pos → v % 2 ^ 64 + 9 < 2 ^ 64 →
        (pos + v + 1) % 2 ^ 64 < len → mem ((pos + v) % 2 ^ 64) = 13 →
        Reading mem len ((pos + v) % 2 ^ 64) items → Reading mem len c ((pos, v) :: items)

structure ReadsAs (mem : ℕ → UInt8) (len v : ℕ) (items : List (ℕ × ℕ)) : Prop where
  star : mem 0 = 42
  count : v % 2 ^ 64 = items.length
  ne_max : v % 2 ^ 64 ≠ ULONG_MAX
  body : ∃ b, Numeral mem len 1 b ∧ v = numeralVal mem 1 b ∧ Reading mem len b items

/-- The count, and the end of every bulk string, stay below `2 ^ 64`. -/
def NumbersFit (mem : ℕ → UInt8) (len : ℕ) : Prop :=
  ∀ v items, ReadsAs mem len v items →
    v < 2 ^ 64 ∧ ∀ p ∈ items, p.1 + p.2 + 1 < 2 ^ 64

/-- The token that is cut for an item. -/
def tokenOf (mem : ℕ → UInt8) (item : ℕ × ℕ) : Option (List UInt8) :=
  if PTRDIFF_MAX < item.2 % 2 ^ 64 + 9 then none
  else some (slice mem item.1 (item.2 % 2 ^ 64))

variable {mem : ℕ → UInt8} {len : ℕ}

namespace Reading

theorem lt_len {c : ℕ} {items : List (ℕ × ℕ)} (h : Reading mem len c items) : c < len := by
  cases h with
  | last _ _ hlen => omega
  | bulk hh => exact lt_trans (by omega) hh.lt

theorem cr {c : ℕ} {items : List (ℕ × ℕ)} (h : Reading mem len c items) : mem c = 13 := by
  cases h with
  | last hcr => exact hcr
  | bulk hh => exact hh.cr

theorem unique {c : ℕ} {items items' : List (ℕ × ℕ)} (h : Reading mem len c items)
    (h' : Reading mem len c items') : items = items' := by
  induction h generalizing items' with
  | last _ _ hlen =>
      cases h' with
      | last => rfl
      | bulk hh => exact absurd hh.lt (by omega)
  | bulk hh _ _ _ _ ih =>
      cases h' with
      | last _ _ hlen => exact absurd hh.lt (by omega)
      | bulk hh' _ _ _ hrest' =>
          obtain ⟨rfl, rfl⟩ := hh.unique hh'
          rw [ih hrest']

end Reading

/-! ## Acceptance -/

theorem copyToken_eq_ok_iff {pos v : ℕ} {tkn : Option (List UInt8)} :
    copyToken mem pos (v % 2 ^ 64) = .ok tkn ↔
      v % 2 ^ 64 + 9 < 2 ^ 64 ∧ tkn = tokenOf mem (pos, v) := by
  rw [copyToken, tokenOf]
  by_cases h : 2 ^ 64 ≤ v % 2 ^ 64 + 9
  · rw [if_pos h]
    constructor
    · intro htkn
      cases htkn
    · rintro ⟨hsize, -⟩
      omega
  · have hsize : v % 2 ^ 64 + 9 < 2 ^ 64 := by omega
    rw [if_neg h]
    split <;> simp only [hsize, true_and, Except.ok.injEq, eq_comm]

/-- The loop accepts from `str` on exactly when a reading starts at the next CR
and has one item for each of the `num - 1` tokens still announced. -/
theorem respLoop_result_iff (hlen : 0 < len) {num str : ℕ}
    {tokens ts : List (Option (List UInt8))} :
    (respLoop mem len num str tokens).result = .ok (some ts) ↔
      ∃ items, Reading mem len (skipToCr mem len (len - str) str) items ∧
        num = items.length + 1 ∧ ts = tokens ++ items.map (tokenOf mem) := by
  induction num generalizing str tokens with
  | zero =>
      constructor
      · intro h
        by_cases hstr : str < len
        · simp [respLoop, respFinish, hstr, ULONG_MAX] at h
        · simp only [respLoop, respFinish, if_neg hstr] at h
          split at h
          next hif => omega
          next => simp at h
      · rintro ⟨items, -, hnum, -⟩
        omega
  | succ num ih =>
      rw [respLoop]
      by_cases hstr : str < len
      · rw [if_pos hstr]
        cases hpass : respPass mem len str with
        | reject =>
            constructor
            · intro h
              simp at h
            · rintro ⟨items, hread, hnum, -⟩
              exfalso
              cases hread with
              | last hcr hlf hend =>
                  have := respPass_eq_last_iff.2 ⟨_, rfl, hcr, hlf, hend, rfl⟩
                  rw [hpass] at this
                  exact absurd this (by simp)
              | bulk hh hsize hguard =>
                  have := respPass_eq_cut_iff.2
                    ⟨_, hh, rfl, by unfold ULONG_MAX; omega, by omega⟩
                  rw [hpass] at this
                  exact absurd this (by simp)
        | last stop =>
            obtain ⟨c, hc, hcr, hlf, hend, rfl⟩ := respPass_eq_last_iff.1 hpass
            rw [hc]
            constructor
            · intro h
              simp only [RespRun.record, respFinish] at h
              split at h
              next hif =>
                simp only [Except.ok.injEq, Option.some.injEq] at h
                exact ⟨[], .last hcr hlf hend, by simp [hif.1], by simp [h]⟩
              next => simp at h
            · rintro ⟨items, hread, hnum, rfl⟩
              cases hread with
              | last =>
                  have hnum' : num = 0 := by simpa using hnum
                  have hend' : c + 1 = len - 1 := by omega
                  simp [RespRun.record, respFinish, hnum', hend']
              | bulk hh => exact absurd hh.lt (by omega)
        | cut pos l =>
            obtain ⟨v, hh, rfl, hmax, hguard⟩ := respPass_eq_cut_iff.1 hpass
            have hstop : (pos + v % 2 ^ 64) % 2 ^ 64 = (pos + v) % 2 ^ 64 := by omega
            simp only [hstop]
            constructor
            · intro h
              cases htok : copyToken mem pos (v % 2 ^ 64) with
              | error fault =>
                  rw [htok] at h
                  simp at h
              | ok tkn =>
                  obtain ⟨hsize, rfl⟩ := copyToken_eq_ok_iff.1 htok
                  by_cases hcr : mem ((pos + v) % 2 ^ 64) = 13
                  · simp only [htok, hcr, ne_eq, not_true_eq_false, if_false,
                      RespRun.record] at h
                    obtain ⟨items, hread, rfl, rfl⟩ := ih.1 h
                    rw [skipToCr_of_cr hcr] at hread
                    exact ⟨(pos, v) :: items, .bulk hh hsize (by omega) hcr hread, rfl,
                      by simp⟩
                  · rw [htok] at h
                    simp only [ne_eq, hcr, not_false_eq_true, if_true] at h
                    simp at h
            · rintro ⟨items, hread, hnum, rfl⟩
              cases hread with
              | last _ _ hend => exact absurd hh.lt (by omega)
              | bulk hh' hsize hguard' hcr hrest =>
                  obtain ⟨rfl, rfl⟩ := hh.unique hh'
                  simp only [copyToken_eq_ok_iff.2 ⟨hsize, rfl⟩, hcr, ne_eq,
                    not_true_eq_false, if_false, RespRun.record]
                  exact ih.2 ⟨_, by rw [skipToCr_of_cr hcr]; exact hrest,
                    by simpa using hnum, by simp⟩
      · rw [if_neg hstr]
        constructor
        · intro h
          simp only [respFinish] at h
          split at h
          next hif => omega
          next => simp at h
        · rintro ⟨items, hread, -, -⟩
          have h₁ := hread.lt_len
          have h₂ : str ≤ skipToCr mem len (len - str) str := le_skipToCr _ _
          omega

theorem respTokenizer_eq_some_iff (hlen : 0 < len) {ts : List (Option (List UInt8))} :
    respTokenizer mem len = .ok (some ts) ↔
      ∃ v items, ReadsAs mem len v items ∧ ts = items.map (tokenOf mem) := by
  rw [respTokenizer, respRun]
  by_cases hstar : mem 0 = 42
  · rw [if_neg (by simpa using hstar), respLoop_result_iff hlen]
    constructor
    · rintro ⟨items, hread, hnum, rfl⟩
      have hint : getRespInt mem len 1 ≠ ULONG_MAX := by
        intro h
        rw [h] at hnum
        simp [ULONG_MAX] at hnum
      obtain ⟨b, hb⟩ := numeral_of_getRespInt hint
      rw [skipToCr_numeral hb] at hread
      rw [getRespInt_numeral hb] at hint hnum
      refine ⟨numeralVal mem 1 b, items, ⟨hstar, ?_, hint, b, hb, rfl, hread⟩, by simp⟩
      unfold ULONG_MAX at hint
      omega
    · rintro ⟨v, items, ⟨-, hcount, hmax, b, hb, rfl, hread⟩, rfl⟩
      refine ⟨items, by rwa [skipToCr_numeral hb], ?_, by simp⟩
      rw [getRespInt_numeral hb]
      unfold ULONG_MAX at hmax
      omega
  · rw [if_pos (by simpa using hstar)]
    constructor
    · intro h
      simp at h
    · rintro ⟨v, items, h, -⟩
      exact absurd h.star hstar

/-! ## Readings without reduction -/

/-- The items of a reading that fits are the bulk strings of the buffer. -/
theorem Reading.bulkStrings (hlen : len ≤ PTRDIFF_MAX) {c : ℕ} {items : List (ℕ × ℕ)}
    (h : Reading mem len c items) (hfit : ∀ p ∈ items, p.1 + p.2 + 1 < 2 ^ 64) :
    items.map (tokenOf mem) = (items.map fun p => slice mem p.1 p.2).map some ∧
      BulkStrings (items.map fun p => slice mem p.1 p.2)
        (slice mem (c + 2) (len - (c + 2))) := by
  induction h with
  | last _ _ hend =>
      refine ⟨rfl, ?_⟩
      rw [hend, Nat.sub_self]
      exact .nil
  | @bulk c v pos items hh hsize hguard hcr hrest ih =>
      have hv : pos + v + 1 < 2 ^ 64 := hfit (pos, v) (by simp)
      have hmod : (pos + v) % 2 ^ 64 = pos + v := by omega
      rw [hmod] at hcr hrest ih
      have hend : pos + v + 1 < len := by omega
      obtain ⟨htok, hbulk⟩ := ih fun p hp => hfit p (by simp [hp])
      have hvmod : v % 2 ^ 64 = v := by omega
      have hroom : v + 9 ≤ PTRDIFF_MAX := by
        have hval := hh.value_lt
        have hpos := hh.lt_pos
        rcases Nat.lt_or_ge (pos - (c + 5)) 4 with hk | hk
        · have : 10 ^ (pos - (c + 5)) ≤ 10 ^ 4 := Nat.pow_le_pow_right (by norm_num) (by omega)
          unfold PTRDIFF_MAX
          omega
        · omega
      have htoken : tokenOf mem (pos, v) = some (slice mem pos v) := by
        simp only [tokenOf, hvmod]
        rw [if_neg (by omega)]
      refine ⟨by simp only [List.map_cons, htoken, htok], ?_⟩
      obtain ⟨b, hb, rfl, rfl⟩ := hh.numeral
      have hle := hb.le
      have hcons := BulkStrings.cons (t := slice mem (b + 2) (numeralVal mem (c + 3) b))
        hb.isNumeral (by simp [numeralVal]) hbulk
      have hbytes : slice mem (c + 2) (len - (c + 2)) =
          36 :: slice mem (c + 3) (b - (c + 3)) ++ crlf ++
            slice mem (b + 2) (numeralVal mem (c + 3) b) ++ crlf ++
            slice mem (b + 2 + numeralVal mem (c + 3) b + 2)
              (len - (b + 2 + numeralVal mem (c + 3) b + 2)) := by
        have hlf : mem (b + 1) = 10 := hb.lf (by omega)
        have hlf' : mem (b + 2 + numeralVal mem (c + 3) b + 1) = 10 := by
          cases hrest with
          | last _ hlf => exact hlf
          | bulk hh => exact hh.lf
        generalize numeralVal mem (c + 3) b = v at *
        rw [show len - (c + 2) = 1 + ((b - (c + 3)) + (2 + (v + (2 +
          (len - (b + 2 + v + 2)))))) by omega]
        simp only [slice_add]
        have h₁ : slice mem (c + 2) 1 = [36] := by
          rw [slice_succ, hh.dollar, slice_zero]
        have h₂ : ∀ p, mem p = 13 → mem (p + 1) = 10 → slice mem p 2 = crlf := by
          intro p hp hp'
          rw [slice_succ, slice_succ, hp, hp', slice_zero]
          rfl
        rw [h₁, show c + 2 + 1 = c + 3 by omega,
          show c + 3 + (b - (c + 3)) = b by omega, h₂ b hb.cr hlf, h₂ (b + 2 + v) hcr hlf']
        simp
      rw [hbytes]
      exact hcons

/-- Bulk strings in memory are read item by item. -/
theorem exists_reading_of_bulkStrings (hlen : len ≤ PTRDIFF_MAX)
    {strs : List (List UInt8)} {bytes : List UInt8} (h : BulkStrings strs bytes) {c : ℕ}
    (hcr : mem c = 13) (hlf : mem (c + 1) = 10) (hc : c + 2 ≤ len)
    (hbytes : slice mem (c + 2) (len - (c + 2)) = bytes) :
    ∃ items, Reading mem len c items ∧ strs = items.map (fun p => slice mem p.1 p.2) ∧
      ∀ p ∈ items, p.1 + p.2 + 2 ≤ len := by
  induction h generalizing c with
  | nil =>
      have hend : len - (c + 2) = 0 := by simpa using congrArg List.length hbytes
      exact ⟨[], .last hcr hlf (by omega), rfl, by simp⟩
  | @cons d t ts bytes hd hval hrest ih =>
      simp only [List.append_assoc, List.cons_append, crlf, List.nil_append,
        slice_eq_cons_iff, slice_eq_append_iff] at hbytes
      obtain ⟨n₁, hn₁, hdollar, n₂, hn₂, hdig, n₃, hn₃, hcr₁, n₄, hn₄, hlf₁, n₅, hn₅, ht,
        n₆, hn₆, hcr₂, n₇, hn₇, hlf₂, hbody⟩ := hbytes
      let b := c + 3 + d.length
      have hnum : Numeral mem len (c + 3) b := by
        refine ⟨by omega, fun i h₁ h₂ => ⟨by omega, ?_⟩, ?_, fun _ => ?_⟩
        · apply hd
          rw [← hdig]
          exact (mem_slice_iff mem _ _ _).2 ⟨i, by omega, by omega, rfl⟩
        · rw [← hcr₁]
        · rw [← hlf₁]
      have hnv : numeralVal mem (c + 3) b = t.length := by
        rw [numeralVal, show b - (c + 3) = d.length by omega, ← hval]
        exact congrArg decVal hdig
      have hh : BulkHeader mem len c t.length (b + 2) :=
        ⟨hcr, hlf, hdollar, by omega, b, hnum, hnv.symm, rfl⟩
      have hbound : b + 2 + t.length + 2 ≤ len := by omega
      unfold PTRDIFF_MAX at hlen
      have hmod : (b + 2 + t.length) % 2 ^ 64 = b + 2 + t.length := by omega
      have hstop : mem (b + 2 + t.length) = 13 := by rw [← hcr₂]
      obtain ⟨items, hread, hts, hall⟩ := ih (c := b + 2 + t.length) hstop
        (by rw [← hlf₂]) hbound (by
          rw [← hbody]
          congr 1
          omega)
      refine ⟨(b + 2, t.length) :: items, ?_, ?_, ?_⟩
      · refine .bulk hh ?_ ?_ (by rw [hmod]; exact hstop) (by rw [hmod]; exact hread)
        · omega
        · omega
      · rw [List.map_cons, ← hts]
        exact congrArg (· :: ts) ht.symm
      · intro p hp
        rcases List.mem_cons.1 hp with rfl | hp
        · exact hbound
        · exact hall p hp

/-- A RESP array in memory reads as one, with all numbers in range. -/
theorem exists_readsAs_of_respArray (hlen : len ≤ PTRDIFF_MAX) {strs : List (List UInt8)}
    (h : RespArray strs (slice mem 0 len)) :
    ∃ v items, ReadsAs mem len v items ∧ v < 2 ^ 64 ∧
      strs = items.map (fun p => slice mem p.1 p.2) ∧ ∀ p ∈ items, p.1 + p.2 + 2 ≤ len := by
  obtain ⟨d, body, hd, hval, hbulk, hbytes⟩ := h
  simp only [List.append_assoc, List.cons_append, crlf, List.nil_append,
    slice_eq_cons_iff, slice_eq_append_iff] at hbytes
  obtain ⟨n₁, hn₁, hstar, n₂, hn₂, hdig, n₃, hn₃, hcr, n₄, hn₄, hlf, hbody⟩ := hbytes
  let b := 1 + d.length
  have hnum : Numeral mem len 1 b := by
    refine ⟨by omega, fun i h₁ h₂ => ⟨by omega, ?_⟩, ?_, fun _ => ?_⟩
    · apply hd
      rw [← hdig]
      exact (mem_slice_iff mem _ _ _).2 ⟨i, by omega, by omega, rfl⟩
    · rw [← hcr]
    · rw [← hlf]
  have hnv : numeralVal mem 1 b = strs.length := by
    rw [numeralVal, show b - 1 = d.length by omega, ← hval]
    exact congrArg decVal hdig
  obtain ⟨items, hread, rfl, hall⟩ := exists_reading_of_bulkStrings hlen hbulk (c := b)
    (by rw [← hcr]) (by rw [← hlf]) (by omega) (by
      rw [← hbody]
      congr 1
      omega)
  have hcount : (items.map fun p => slice mem p.1 p.2).length ≤ len := by
    refine le_trans hbulk.length_le ?_
    rw [← hbody, length_slice]
    omega
  rw [List.length_map] at hnv hcount
  unfold PTRDIFF_MAX at hlen
  exact ⟨items.length, items, ⟨hstar, by omega, by unfold ULONG_MAX; omega,
    b, hnum, hnv.symm, hread⟩, by omega, rfl, hall⟩

end Exoredis
