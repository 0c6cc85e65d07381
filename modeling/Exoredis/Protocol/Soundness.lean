import Exoredis.Protocol.Reading

/-!
# Soundness and round trip of the RESP tokenizer

An accepted buffer is the array of the returned strings exactly where no count
and no length of the buffer needs reduction modulo `2 ^ 64`
(`respTokenizer_sound_iff`). In the other direction every array is accepted, so
the tokenizer undoes the encoder of replies (`respTokenizer_writeRespArray`).
-/

namespace Exoredis

open Decimal

/-- If the buffer is accepted, it is the array of the returned tokens. -/
def SoundAt (mem : ℕ → UInt8) (len : ℕ) : Prop :=
  ∀ ts, respTokenizer mem len = .ok (some ts) →
    ∃ strs, ts = strs.map some ∧ RespArray strs (slice mem 0 len)

variable {mem : ℕ → UInt8} {len : ℕ}

theorem ReadsAs.unique {v v' : ℕ} {items items' : List (ℕ × ℕ)}
    (h : ReadsAs mem len v items) (h' : ReadsAs mem len v' items') :
    v = v' ∧ items = items' := by
  obtain ⟨b, hb, rfl, hread⟩ := h.body
  obtain ⟨b', hb', rfl, hread'⟩ := h'.body
  obtain rfl := hb.end_unique hb'
  exact ⟨rfl, hread.unique hread'⟩

/-- A reading of a buffer on which the tokenizer is sound needs no reduction. -/
theorem SoundAt.fits (h : SoundAt mem len) (hlen : 0 < len) (hmax : len ≤ PTRDIFF_MAX)
    {v : ℕ} {items : List (ℕ × ℕ)} (hread : ReadsAs mem len v items) :
    v < 2 ^ 64 ∧ ∀ p ∈ items, p.1 + p.2 + 1 < 2 ^ 64 := by
  obtain ⟨strs, -, harr⟩ := h _ ((respTokenizer_eq_some_iff hlen).2 ⟨v, items, hread, rfl⟩)
  obtain ⟨v', items', hread', hv', -, hall⟩ := exists_readsAs_of_respArray hmax harr
  obtain ⟨rfl, rfl⟩ := hread.unique hread'
  refine ⟨hv', fun p hp => ?_⟩
  have := hall p hp
  unfold PTRDIFF_MAX at hmax
  omega

/-- A reading without reduction is an array. -/
theorem ReadsAs.respArray (hmax : len ≤ PTRDIFF_MAX) {v : ℕ} {items : List (ℕ × ℕ)}
    (h : ReadsAs mem len v items) (hv : v < 2 ^ 64)
    (hfit : ∀ p ∈ items, p.1 + p.2 + 1 < 2 ^ 64) :
    items.map (tokenOf mem) = (items.map fun p => slice mem p.1 p.2).map some ∧
      RespArray (items.map fun p => slice mem p.1 p.2) (slice mem 0 len) := by
  obtain ⟨b, hb, rfl, hread⟩ := h.body
  obtain ⟨htok, hbulk⟩ := hread.bulkStrings hmax hfit
  refine ⟨htok, slice mem 1 (b - 1), _, hb.isNumeral, ?_, hbulk, ?_⟩
  · rw [List.length_map, ← h.count, Nat.mod_eq_of_lt hv]
    rfl
  · have hle := hb.le
    have hlf : mem (b + 1) = 10 := by
      cases hread with
      | last _ hlf => exact hlf
      | bulk hh => exact hh.lf
    have hlt : b + 2 ≤ len := by
      cases hread with
      | last _ _ hend => omega
      | bulk hh => exact le_of_lt hh.lt
    have hcrlf : slice mem b 2 = crlf := by
      rw [slice_succ, slice_succ, hb.cr, hlf, slice_zero]
      rfl
    have hsplit : len = 1 + ((b - 1) + (2 + (len - (b + 2)))) := by omega
    have hbytes : slice mem 0 len =
        slice mem 0 1 ++ (slice mem 1 (b - 1) ++ (slice mem b 2 ++
          slice mem (b + 2) (len - (b + 2)))) := by
      conv_lhs => rw [hsplit]
      simp only [slice_add, Nat.zero_add, show 1 + (b - 1) = b by omega]
    rw [hbytes, hcrlf, slice_succ, h.star, slice_zero]
    simp

/-- The tokenizer is sound on a buffer if and only if no number of the buffer
needs reduction. -/
theorem respTokenizer_sound_iff (mem : ℕ → UInt8) (len : ℕ) (hlen : 0 < len)
    (hmax : len ≤ PTRDIFF_MAX) : SoundAt mem len ↔ NumbersFit mem len := by
  constructor
  · intro h v items hread
    exact h.fits hlen hmax hread
  · intro h ts hts
    obtain ⟨v, items, hread, rfl⟩ := (respTokenizer_eq_some_iff hlen).1 hts
    obtain ⟨hv, hfit⟩ := h v items hread
    exact ⟨_, hread.respArray hmax hv hfit⟩

/-- The memory that holds `bytes` and zeros behind them. -/
def memoryOf (bytes : List UInt8) (i : ℕ) : UInt8 := bytes.getD i 0

/-- `*1` with a `PING`, well formed. -/
def pingBuffer : List UInt8 := ascii "*1\r\n$4\r\nPING\r\n"

theorem respTokenizer_sound_ping :
    0 < 14 ∧ 14 ≤ PTRDIFF_MAX ∧
      (SoundAt (memoryOf pingBuffer) 14 ↔ NumbersFit (memoryOf pingBuffer) 14) :=
  ⟨by decide, by decide,
    respTokenizer_sound_iff (memoryOf pingBuffer) 14 (by decide) (by decide)⟩

/-- The same with the count `2 ^ 64 + 1`. -/
def wrappedCountBuffer : List UInt8 := ascii "*18446744073709551617\r\n$4\r\nPING\r\n"

theorem readsAs_wrappedCount :
    ReadsAs (memoryOf wrappedCountBuffer) 33 18446744073709551617 [(27, 4)] := by
  refine ⟨by decide, by decide, by decide, 21, ⟨by decide, ?_, by decide, by decide⟩,
    by decide +kernel, ?_⟩
  · intro i h₁ h₂
    interval_cases i <;> decide
  · refine .bulk (v := 4) ⟨by decide, by decide, by decide, by decide,
      25, ⟨by decide, ?_, by decide, by decide⟩, by decide, rfl⟩
      (by decide) (by decide) (by decide) (.last (by decide) (by decide) (by decide))
    intro i h₁ h₂
    interval_cases i
    decide

/-- A buffer that announces `2 ^ 64 + 1` strings and holds one is accepted. -/
theorem respTokenizer_unsound :
    respTokenizer (memoryOf wrappedCountBuffer) 33 = .ok (some [some (ascii "PING")]) ∧
      ¬ SoundAt (memoryOf wrappedCountBuffer) 33 := by
  refine ⟨by decide +kernel, fun h => ?_⟩
  have := (h.fits (by decide) (by decide) readsAs_wrappedCount).1
  omega

theorem RespArray.starts {strs : List (List UInt8)} (h : RespArray strs (slice mem 0 len)) :
    0 < len ∧ mem 0 = 42 := by
  obtain ⟨d, body, -, -, -, hbytes⟩ := h
  obtain ⟨k, rfl, hstar, -⟩ := (slice_eq_cons_iff mem 0 len 42 _).1 hbytes
  exact ⟨Nat.succ_pos k, hstar⟩

/-- The tokenizer reads back every array that fits an object. -/
theorem respTokenizer_respArray {strs : List (List UInt8)} (hmax : len ≤ PTRDIFF_MAX)
    (harr : RespArray strs (slice mem 0 len)) :
    respTokenizer mem len = .ok (some (strs.map some)) := by
  obtain ⟨v, items, hread, hv, hstrs, hall⟩ := exists_readsAs_of_respArray hmax harr
  have hfit : ∀ p ∈ items, p.1 + p.2 + 1 < 2 ^ 64 := by
    intro p hp
    have := hall p hp
    unfold PTRDIFF_MAX at hmax
    omega
  obtain ⟨htok, -⟩ := hread.respArray hmax hv hfit
  rw [hstrs, ← htok]
  exact (respTokenizer_eq_some_iff harr.starts.1).2 ⟨v, items, hread, rfl⟩

/-- Whatever the encoder writes for a list of strings, the tokenizer returns
these strings in order, whatever lies behind the buffer. -/
theorem respTokenizer_writeRespArray (args : ArgList) (s : Server) :
    ∃ bytes s', writeRespArrayToBuffer args s = .ok (bytes, s') ∧
      (bytes.length ≤ INPUT_BUFFER_SIZE → ∀ mem : ℕ → UInt8,
        slice mem 0 bytes.length = bytes →
          ∃ ts, respTokenizer mem bytes.length = .ok (some ts) ∧
            ts = args.map (fun node => some node.key.buf) ∧ ts.length = args.length) := by
  have hwrite : ∃ s', writeRespArrayToBuffer args s = .ok (writeRespArray args, s') := by
    rw [writeRespArrayToBuffer, Effect.bind_run_ok (freeDeadArgs_run args s)]
    exact ⟨_, rfl⟩
  obtain ⟨s', hs'⟩ := hwrite
  refine ⟨writeRespArray args, s', hs', fun hcap mem hmem => ?_⟩
  have hmax : (writeRespArray args).length ≤ PTRDIFF_MAX := le_trans hcap (by decide)
  have harr := respArray_writeRespArray args
  rw [← hmem] at harr
  refine ⟨_, respTokenizer_respArray hmax harr, ?_, ?_⟩ <;> simp

/-- An empty string, and one that looks like protocol bytes. -/
def trickyArgs : ArgList := [newArg ⟨0, []⟩, newArg ⟨1, ascii "\r\n$1\r\n*"⟩]

theorem respTokenizer_writeRespArray_tricky :
    respTokenizer (memoryOf (writeRespArray trickyArgs)) 23 =
      .ok (some [some [], some (ascii "\r\n$1\r\n*")]) := by
  obtain ⟨bytes, s', hwrite, hread⟩ :=
    respTokenizer_writeRespArray trickyArgs (blankServer (fun _ => 0) none)
  obtain rfl : writeRespArray trickyArgs = bytes := by
    injection hwrite with h
    exact congrArg Prod.fst h
  have hlen : (writeRespArray trickyArgs).length = 23 := by decide
  rw [hlen] at hread
  obtain ⟨ts, hts, rfl, -⟩ := hread (by decide) (memoryOf (writeRespArray trickyArgs)) (by decide)
  exact hts

end Exoredis
