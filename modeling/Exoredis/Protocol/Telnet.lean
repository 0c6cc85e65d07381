import Exoredis.Protocol.Soundness

/-!
# The telnet tokenizer

`simpleTokenizer` cuts the received bytes into their maximal runs without a
separator (`MaximalRun`), in order and each once. A list of strings that a
telnet line can carry is therefore read alike from the line and from a RESP
array (`simpleTokenizer_exact`).
-/

namespace Exoredis

/-- A run of `l` bytes from `pos` on without a separator, as long as it can be. -/
structure MaximalRun (mem : ℕ → UInt8) (len pos l : ℕ) : Prop where
  size : 0 < l
  le : pos + l ≤ len
  bytes : ∀ i, pos ≤ i → i < pos + l → isSeparator (mem i) = false
  before : pos = 0 ∨ isSeparator (mem (pos - 1)) = true
  behind : pos + l = len ∨ isSeparator (mem (pos + l)) = true

/-- A cursor that moves from `index` to `stop` over bytes of one kind only, and
over as many as there are. -/
structure Skips (mem : ℕ → UInt8) (len : ℕ) (sep : Bool) (index stop : ℕ) : Prop where
  le : index ≤ stop
  stop_le : stop ≤ len
  same : ∀ i, index ≤ i → i < stop → isSeparator (mem i) = sep
  differs : stop < len → isSeparator (mem stop) = !sep

/-- No maximal run reaches across `index`: where a pass may begin. -/
def AtStart (mem : ℕ → UInt8) (len index : ℕ) : Prop :=
  index = 0 ∨ index = len ∨ isSeparator (mem index) = true

variable {mem : ℕ → UInt8} {len : ℕ}

theorem skipWhile_skips {sep : Bool} (fuel index : ℕ) (hle : index ≤ len)
    (hfuel : len ≤ index + fuel) : Skips mem len sep index (skipWhile mem len sep fuel index) := by
  induction fuel generalizing index with
  | zero =>
      have hend : index = len := le_antisymm hle hfuel
      rw [skipWhile, hend]
      exact ⟨le_rfl, le_rfl, fun i _ _ => by omega, fun h => absurd h (lt_irrefl len)⟩
  | succ fuel ih =>
      rw [skipWhile]
      split
      · rename_i h
        have hnext := ih (index + 1) (by omega) (by omega)
        refine ⟨le_trans (Nat.le_succ index) hnext.le, hnext.stop_le, fun i h₁ h₂ => ?_,
          hnext.differs⟩
        rcases h₁.eq_or_lt with rfl | hlt
        · exact h.2
        · exact hnext.same i hlt h₂
      · rename_i h
        refine ⟨le_rfl, hle, fun i _ _ => by omega, fun hlt => ?_⟩
        exact Bool.eq_not.2 fun heq => h ⟨hlt, heq⟩

theorem Skips.unique {sep : Bool} {index stop stop' : ℕ} (h : Skips mem len sep index stop)
    (h' : Skips mem len sep index stop') : stop = stop' := by
  have key : ∀ {a b : ℕ}, Skips mem len sep index a → Skips mem len sep index b → ¬ a < b := by
    intro a b ha hb hab
    have h₁ := ha.differs (lt_of_lt_of_le hab hb.stop_le)
    have h₂ := hb.same a ha.le hab
    simp [h₂] at h₁
  have := key h h'
  have := key h' h
  omega

theorem Skips.atStart {str runner : ℕ} (h : Skips mem len false str runner) :
    AtStart mem len runner := by
  rcases h.stop_le.eq_or_lt with heq | hlt
  · exact .inr (.inl heq)
  · exact .inr (.inr (h.differs hlt))

/-! ## The runs that the loop cuts -/

/-- `simpleLoop` with the place of every token instead of its bytes. -/
def simpleRuns (mem : ℕ → UInt8) (len : ℕ) : ℕ → ℕ → List (ℕ × ℕ)
  | 0, _ => []
  | fuel + 1, index =>
      if index < len then
        let str := skipWhile mem len true (len - index) index
        let runner := skipWhile mem len false (len - str) str
        (if runner - str ≠ 0 then [(str, runner - str)] else []) ++
          simpleRuns mem len fuel runner
      else []

theorem simpleLoop_eq_map (fuel index : ℕ) :
    simpleLoop mem len fuel index =
      (simpleRuns mem len fuel index).map fun p => slice mem p.1 p.2 := by
  induction fuel generalizing index with
  | zero => rfl
  | succ fuel ih =>
      simp only [simpleLoop, simpleRuns, ih]
      split
      · rw [List.map_append]
        congr 1
        split <;> rfl
      · rfl

/-- One pass: the separators up to `str`, then the token up to `runner`. -/
theorem simpleRuns_pass (mem : ℕ → UInt8) (fuel index : ℕ) (hlt : index < len) :
    ∃ str runner, Skips mem len true index str ∧ Skips mem len false str runner ∧
      index < runner ∧
      simpleRuns mem len (fuel + 1) index =
        (if runner - str ≠ 0 then [(str, runner - str)] else []) ++
          simpleRuns mem len fuel runner := by
  have hstr : Skips mem len true index (skipWhile mem len true (len - index) index) :=
    skipWhile_skips _ _ hlt.le (by omega)
  have hrunner : Skips mem len false _ (skipWhile mem len false _ _) :=
    skipWhile_skips (len - skipWhile mem len true (len - index) index) _ hstr.stop_le (by omega)
  refine ⟨_, _, hstr, hrunner, ?_, by rw [simpleRuns, if_pos hlt]⟩
  rcases hstr.le.eq_or_lt with heq | hlt'
  · refine lt_of_le_of_ne (le_trans hstr.le hrunner.le) fun hend => ?_
    have hsep := hstr.differs (by omega)
    have hword := hrunner.differs (by omega)
    rw [← hend, heq, hsep] at hword
    simp at hword
  · exact lt_of_lt_of_le hlt' hrunner.le

/-- What one pass cuts off: a maximal run starts at `str`, or none starts
before `runner`. -/
theorem maximalRun_iff_of_skips {index str runner pos l : ℕ} (hstr : Skips mem len true index str)
    (hrunner : Skips mem len false str runner)
    (hstart : AtStart mem len index) (hpos : index ≤ pos)
    (hlt : pos < runner) :
    MaximalRun mem len pos l ↔ pos = str ∧ l = runner - str := by
  constructor
  · intro h
    have hword : isSeparator (mem pos) = false := h.bytes pos le_rfl (by have := h.size; omega)
    have hge : str ≤ pos := by
      by_contra hcon
      have := hstr.same pos hpos (by omega)
      simp [hword] at this
    have heq : pos = str := by
      by_contra hne
      have hin := hrunner.same (pos - 1) (by omega) (by omega)
      rcases h.before with h₀ | hsep
      · omega
      · simp [hin] at hsep
    subst heq
    have hskips : Skips mem len false pos (pos + l) := by
      refine ⟨Nat.le_add_right pos l, h.le, h.bytes, fun hend => ?_⟩
      rcases h.behind with hlen | hsep
      · omega
      · exact hsep
    have := hskips.unique hrunner
    exact ⟨rfl, by omega⟩
  · rintro ⟨rfl, rfl⟩
    have hsum : pos + (runner - pos) = runner := by omega
    refine ⟨by omega, ?_, fun i h₁ h₂ => hrunner.same i h₁ (by omega), ?_, ?_⟩
    · rw [hsum]
      exact hrunner.stop_le
    · rcases hpos.eq_or_lt with rfl | hgt
      · have hword := hrunner.same index le_rfl hlt
        have := hrunner.stop_le
        rcases hstart with h | h | h
        · exact .inl h
        · omega
        · simp [hword] at h
      · exact .inr (hstr.same (pos - 1) (by omega) (by omega))
    · rw [hsum]
      rcases hrunner.stop_le.eq_or_lt with h | h
      · exact .inl h
      · exact .inr (hrunner.differs h)

/-- From `index` on, the loop cuts the maximal runs that start there or later. -/
theorem mem_simpleRuns_iff (fuel index : ℕ) (hfuel : len ≤ index + fuel) (hle : index ≤ len)
    (hstart : AtStart mem len index) (pos l : ℕ) :
    (pos, l) ∈ simpleRuns mem len fuel index ↔ index ≤ pos ∧ MaximalRun mem len pos l := by
  induction fuel generalizing index with
  | zero =>
      simp only [simpleRuns, List.not_mem_nil, false_iff, not_and]
      intro hpos h
      have := h.size
      have := h.le
      omega
  | succ fuel ih =>
      rcases hle.eq_or_lt with rfl | hlt
      · simp only [simpleRuns, lt_irrefl, if_false, List.not_mem_nil, false_iff, not_and]
        intro hpos h
        have := h.size
        have := h.le
        omega
      · obtain ⟨str, runner, hstr, hrunner, hprog, hpass⟩ := simpleRuns_pass mem fuel index hlt
        have hnext := hrunner.atStart
        rw [hpass, List.mem_append, ih runner (by omega) hrunner.stop_le hnext]
        have hone : (pos, l) ∈ (if runner - str ≠ 0 then [(str, runner - str)] else []) ↔
            str < runner ∧ pos = str ∧ l = runner - str := by
          split <;> simp <;> omega
        rw [hone]
        constructor
        · rintro (⟨hcut, rfl, rfl⟩ | ⟨hge, hrun⟩)
          · exact ⟨hstr.le, (maximalRun_iff_of_skips hstr hrunner hstart hstr.le hcut).2 ⟨rfl, rfl⟩⟩
          · exact ⟨by omega, hrun⟩
        · rintro ⟨hge, hrun⟩
          rcases lt_or_ge pos runner with hbefore | hbehind
          · obtain ⟨rfl, rfl⟩ :=
              (maximalRun_iff_of_skips hstr hrunner hstart hge hbefore).1 hrun
            exact .inl ⟨hbefore, rfl, rfl⟩
          · exact .inr ⟨hbehind, hrun⟩

theorem pairwise_simpleRuns (fuel index : ℕ) (hfuel : len ≤ index + fuel) (hle : index ≤ len)
    (hstart : AtStart mem len index) :
    (simpleRuns mem len fuel index).Pairwise fun p q => p.1 + p.2 ≤ q.1 := by
  induction fuel generalizing index with
  | zero => exact List.Pairwise.nil
  | succ fuel ih =>
      rcases hle.eq_or_lt with rfl | hlt
      · simp [simpleRuns]
      · obtain ⟨str, runner, hstr, hrunner, hprog, hpass⟩ := simpleRuns_pass mem fuel index hlt
        have hnext := hrunner.atStart
        rw [hpass]
        have htail := ih runner (by omega) hrunner.stop_le hnext
        split
        · refine List.pairwise_cons.2 ⟨?_, htail⟩
          rintro ⟨pos, l⟩ hmem
          have := ((mem_simpleRuns_iff fuel runner (by omega) hrunner.stop_le hnext pos l).1
            hmem).1
          simp only
          omega
        · exact htail

/-- No more passes than bytes: further fuel changes nothing. -/
theorem simpleRuns_fuel (fuel fuel' index : ℕ) (h : len ≤ index + fuel)
    (h' : len ≤ index + fuel') :
    simpleRuns mem len fuel index = simpleRuns mem len fuel' index := by
  induction fuel generalizing fuel' index with
  | zero => cases fuel' <;> simp [simpleRuns, show ¬ index < len by omega]
  | succ fuel ih =>
      rcases lt_or_ge index len with hlt | hge
      · obtain ⟨n, rfl⟩ : ∃ n, fuel' = n + 1 := ⟨fuel' - 1, by omega⟩
        obtain ⟨str, runner, hstr, hrunner, hprog, hpass⟩ := simpleRuns_pass mem fuel index hlt
        obtain ⟨str', runner', hstr', hrunner', -, hpass'⟩ := simpleRuns_pass mem n index hlt
        obtain rfl := hstr.unique hstr'
        obtain rfl := hrunner.unique hrunner'
        rw [hpass, hpass', ih n runner (by omega) (by omega)]
      · cases fuel' <;> simp [simpleRuns, not_lt.2 hge]

/-! ## Lines of tokens -/

/-- What a token of a telnet line may be. -/
structure IsWord (w : List UInt8) : Prop where
  ne_nil : w ≠ []
  bytes : ∀ c ∈ w, isSeparator c = false

/-- The further tokens of a line, each behind a run of `n + 1` spaces, and the
end of the line. -/
def lineTail (rest : List (ℕ × List UInt8)) : List UInt8 :=
  rest.flatMap (fun p => List.replicate (p.1 + 1) 32 ++ p.2) ++ crlf

/-- The tokens `t` and those of `rest`, joined by runs of spaces. -/
def telnetLine (t : List UInt8) (rest : List (ℕ × List UInt8)) : List UInt8 :=
  t ++ lineTail rest

theorem lineTail_cons (p : ℕ × List UInt8) (rest : List (ℕ × List UInt8)) :
    lineTail (p :: rest) = List.replicate (p.1 + 1) 32 ++ (p.2 ++ lineTail rest) := by
  simp [lineTail]

/-- A separator ends every token of a line. -/
theorem head_lineTail (rest : List (ℕ × List UInt8)) :
    ∃ c cs, lineTail rest = c :: cs ∧ isSeparator c = true := by
  cases rest with
  | nil => exact ⟨13, [10], rfl, rfl⟩
  | cons p rest =>
      rw [lineTail_cons, List.replicate_succ]
      exact ⟨32, _, rfl, rfl⟩

/-- The bytes still to come, cut where the kind of byte changes. -/
theorem skips_of_slice {sep : Bool} {index : ℕ} {run rest : List UInt8} (hle : index ≤ len)
    (h : slice mem index (len - index) = run ++ rest) (hrun : ∀ c ∈ run, isSeparator c = sep)
    (hrest : ∀ c cs, rest = c :: cs → isSeparator c = !sep) :
    Skips mem len sep index (index + run.length) ∧ slice mem index run.length = run ∧
      slice mem (index + run.length) (len - (index + run.length)) = rest := by
  obtain ⟨k, hk, hslice, htail⟩ := (slice_eq_append_iff mem _ _ _ _).1 h
  have hlen : len - (index + run.length) = k := by omega
  refine ⟨⟨Nat.le_add_right _ _, by omega, fun i h₁ h₂ => hrun _ ?_, fun hlt => ?_⟩, hslice,
    by rw [hlen, htail]⟩
  · rw [← hslice, mem_slice_iff]
    exact ⟨i, h₁, h₂, rfl⟩
  · obtain ⟨m, rfl⟩ : ∃ m, k = m + 1 := ⟨k - 1, by omega⟩
    rw [slice_succ] at htail
    exact hrest _ _ htail.symm

/-- One pass over a line: the spaces in front of a token and the token. -/
theorem simpleLoop_word (fuel : ℕ) {index : ℕ} {gap w tail : List UInt8} (hle : index ≤ len)
    (hw : IsWord w) (hgap : ∀ c ∈ gap, isSeparator c = true)
    (htail : ∃ c cs, tail = c :: cs ∧ isSeparator c = true)
    (h : slice mem index (len - index) = gap ++ (w ++ tail)) :
    index + gap.length + w.length ≤ len ∧
      slice mem (index + gap.length + w.length) (len - (index + gap.length + w.length)) = tail ∧
      simpleLoop mem len (fuel + 1) index =
        w :: simpleLoop mem len fuel (index + gap.length + w.length) := by
  obtain ⟨c, cs, rfl, hc⟩ := htail
  obtain ⟨b, bs, rfl⟩ := List.exists_cons_of_ne_nil hw.ne_nil
  obtain ⟨hstr, -, hword⟩ := skips_of_slice hle h hgap (by
    rintro c' cs' heq
    obtain ⟨rfl, -⟩ := List.cons.inj heq
    exact hw.bytes _ List.mem_cons_self)
  obtain ⟨hrunner, hslice, hrest⟩ := skips_of_slice hstr.stop_le hword hw.bytes (by
    rintro c' cs' heq
    obtain ⟨rfl, -⟩ := List.cons.inj heq
    exact hc)
  refine ⟨hrunner.stop_le, hrest, ?_⟩
  have hsize : 0 < (b :: bs).length := by simp
  have hlt : index < len := by
    have := hrunner.stop_le
    omega
  have h₁ := (skipWhile_skips (len - index) index hle (by omega)).unique hstr
  have h₂ := (skipWhile_skips (len - (index + gap.length)) _ hstr.stop_le (by omega)).unique
    hrunner
  simp only [simpleLoop, if_pos hlt, h₁, h₂, Nat.add_sub_cancel_left, hslice]
  rw [if_pos (by omega)]
  rfl

theorem simpleLoop_end (fuel : ℕ) : simpleLoop mem len fuel len = [] := by
  cases fuel <;> simp [simpleLoop]

/-- Behind the last token the loop finds nothing more. -/
theorem simpleLoop_separators {index : ℕ} (fuel : ℕ) (hle : index ≤ len)
    (h : ∀ c ∈ slice mem index (len - index), isSeparator c = true) :
    simpleLoop mem len fuel index = [] := by
  cases fuel with
  | zero => rfl
  | succ fuel =>
      obtain ⟨hstr, -, -⟩ := skips_of_slice hle (List.append_nil _).symm h (by simp)
      have hend : index + (slice mem index (len - index)).length = len := by
        rw [length_slice]
        omega
      rw [hend] at hstr
      have h₁ := (skipWhile_skips (len - index) index hle (by omega)).unique hstr
      have h₂ : skipWhile mem len false (len - len) len = len := by
        rw [Nat.sub_self]
        rfl
      simp only [simpleLoop, h₁, h₂, simpleLoop_end]
      simp

/-- The loop reads a line token by token. -/
theorem simpleLoop_line {fuel index : ℕ} {gap w : List UInt8} {rest : List (ℕ × List UInt8)}
    (hfuel : len ≤ index + fuel) (hle : index ≤ len) (hw : IsWord w)
    (hgap : ∀ c ∈ gap, isSeparator c = true) (hrest : ∀ p ∈ rest, IsWord p.2)
    (h : slice mem index (len - index) = gap ++ (w ++ lineTail rest)) :
    simpleLoop mem len fuel index = w :: rest.map Prod.snd := by
  have hsize := congrArg List.length h
  have hpos := List.length_pos_of_ne_nil hw.ne_nil
  rw [length_slice, List.length_append, List.length_append] at hsize
  induction rest generalizing fuel index gap w with
  | nil =>
      obtain ⟨n, rfl⟩ : ∃ n, fuel = n + 1 := ⟨fuel - 1, by omega⟩
      obtain ⟨hstop, htail, hpass⟩ := simpleLoop_word n hle hw hgap (head_lineTail _) h
      rw [hpass, simpleLoop_separators n hstop]
      · rfl
      · rw [htail]
        intro c hc
        have : c = 13 ∨ c = 10 := by simpa [lineTail, crlf] using hc
        rcases this with rfl | rfl <;> rfl
  | cons p rest ih =>
      obtain ⟨n, rfl⟩ : ∃ n, fuel = n + 1 := ⟨fuel - 1, by omega⟩
      obtain ⟨hstop, htail, hpass⟩ := simpleLoop_word n hle hw hgap (head_lineTail _) h
      rw [lineTail_cons] at htail
      have hp := hrest p List.mem_cons_self
      have hspaces : ∀ c ∈ List.replicate (p.1 + 1) (32 : UInt8), isSeparator c = true := by
        intro c hc
        rw [List.eq_of_mem_replicate hc]
        rfl
      have htailsize := congrArg List.length htail
      rw [length_slice, List.length_append, List.length_append] at htailsize
      rw [hpass, ih (by omega) hstop hp hspaces (fun q hq => hrest q (List.mem_cons_of_mem p hq))
        htail htailsize (List.length_pos_of_ne_nil hp.ne_nil)]
      rfl

/-- A line gives its tokens back. -/
theorem simpleTokenizer_line {t : List UInt8} {rest : List (ℕ × List UInt8)} (ht : IsWord t)
    (hrest : ∀ p ∈ rest, IsWord p.2) (h : slice mem 0 len = telnetLine t rest) :
    simpleTokenizer mem len = t :: rest.map Prod.snd :=
  @simpleLoop_line _ _ len 0 [] t rest (by omega) (Nat.zero_le len) ht (by simp) hrest h

/-- The telnet tokenizer returns the maximal runs of bytes other than
separators, in order and each once, and no number of passes beyond the number
of bytes is needed. A line of tokens, the first of which does not begin with
`*`, gives the same list as any RESP array of these tokens. -/
theorem simpleTokenizer_exact (mem : ℕ → UInt8) (len : ℕ) :
    (∃ runs : List (ℕ × ℕ),
      simpleTokenizer mem len = runs.map (fun p => slice mem p.1 p.2) ∧
      runs.Pairwise (fun p q => p.1 + p.2 ≤ q.1) ∧
      ∀ pos l, (pos, l) ∈ runs ↔ MaximalRun mem len pos l) ∧
    (∀ fuel, len ≤ fuel → simpleLoop mem len fuel 0 = simpleTokenizer mem len) ∧
    ∀ (t : List UInt8) (rest : List (ℕ × List UInt8)), IsWord t → (∀ p ∈ rest, IsWord p.2) →
      t.head? ≠ some 42 → slice mem 0 len = telnetLine t rest →
        ∀ (mem' : ℕ → UInt8) (len' : ℕ), len' ≤ PTRDIFF_MAX →
          RespArray (t :: rest.map Prod.snd) (slice mem' 0 len') →
            bufferTokenizer mem len = .ok (some ((t :: rest.map Prod.snd).map some)) ∧
              bufferTokenizer mem' len' = bufferTokenizer mem len := by
  have hstart : AtStart mem len 0 := .inl rfl
  refine ⟨⟨simpleRuns mem len len 0, simpleLoop_eq_map len 0,
    pairwise_simpleRuns len 0 (by omega) (Nat.zero_le len) hstart, fun pos l => ?_⟩,
    fun fuel hfuel => ?_, fun t rest ht hrest hstar hline mem' len' hmax harr => ?_⟩
  · rw [mem_simpleRuns_iff len 0 (by omega) (Nat.zero_le len) hstart]
    exact and_iff_right (Nat.zero_le pos)
  · rw [simpleTokenizer, simpleLoop_eq_map, simpleLoop_eq_map,
      simpleRuns_fuel fuel len 0 (by omega) (by omega)]
  · obtain ⟨c, cs, rfl⟩ := List.exists_cons_of_ne_nil ht.ne_nil
    have hfirst : ∃ k, len = k + 1 ∧ mem 0 = c ∧ slice mem 1 k = cs ++ lineTail rest :=
      (slice_eq_cons_iff mem 0 len c (cs ++ lineTail rest)).1 hline
    obtain ⟨k, hlen, hc, -⟩ := hfirst
    have htelnet : bufferTokenizer mem len =
        .ok (some (((c :: cs) :: rest.map Prod.snd).map some)) := by
      rw [bufferTokenizer, if_neg (by omega), if_neg, simpleTokenizer_line ht hrest hline]
      rw [hc]
      simpa using hstar
    refine ⟨htelnet, ?_⟩
    obtain ⟨hne, hstar'⟩ := harr.starts
    rw [htelnet, bufferTokenizer, if_neg (by omega), if_pos hstar',
      respTokenizer_respArray hmax harr]

/-- `GET` and `k`, two spaces between them. -/
def getLine : List UInt8 := ascii "GET  k\r\n"

/-- The same request as an array. -/
def getArray : List UInt8 := writeRespArray [newArg ⟨0, ascii "GET"⟩, newArg ⟨1, ascii "k"⟩]

theorem simpleTokenizer_exact_get :
    bufferTokenizer (memoryOf getLine) 8 = .ok (some [some (ascii "GET"), some (ascii "k")]) ∧
      bufferTokenizer (memoryOf getArray) 20 = bufferTokenizer (memoryOf getLine) 8 := by
  have harr := respArray_writeRespArray [newArg ⟨0, ascii "GET"⟩, newArg ⟨1, ascii "k"⟩]
  have hbytes : slice (memoryOf getArray) 0 20 = getArray := by decide
  have hget : IsWord (ascii "GET") := ⟨by decide, fun c hc => by fin_cases hc <;> rfl⟩
  have hk : IsWord (ascii "k") := ⟨by decide, fun c hc => by fin_cases hc; rfl⟩
  exact (simpleTokenizer_exact (memoryOf getLine) 8).2.2 (ascii "GET") [(1, ascii "k")]
    hget (by simpa using hk) (by decide) (by decide)
    (memoryOf getArray) 20 (by decide) (by rw [hbytes]; exact harr)

end Exoredis
