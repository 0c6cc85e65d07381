import Exoredis.Keyspace.Dispatch

/-!
# The request buffer

`readCallback` copies what it receives into a buffer for 1 MB and ten bytes, and asks for
the number of bytes only when everything is copied. The copies stay inside the buffer
exactly if the whole stream fits it (`readCallback_capacity_iff`); a single `recv` of up to
10000 bytes behind a full megabyte does not (`readCallback_overruns`).
-/

namespace Exoredis

open Effect

/-- What is allocated for `buf`. -/
def BUFFER_CAPACITY : ℕ := INPUT_BUFFER_SIZE + 10

/-- The offset and the length of every `memcpy` of the `recv` loop. -/
def memcpys : ℕ → List (List UInt8) → List (ℕ × ℕ)
  | _, [] => []
  | runner, chunk :: chunks => (runner, chunk.length) :: memcpys (runner + chunk.length) chunks

/-- Every `memcpy` writes inside the buffer. -/
def InBuffer (runner : ℕ) (chunks : List (List UInt8)) : Prop :=
  ∀ w ∈ memcpys runner chunks, w.1 + w.2 ≤ BUFFER_CAPACITY

theorem inBuffer_cons {runner : ℕ} {chunk : List UInt8} {chunks : List (List UInt8)} :
    InBuffer runner (chunk :: chunks) ↔
      runner + chunk.length ≤ BUFFER_CAPACITY ∧ InBuffer (runner + chunk.length) chunks := by
  rw [InBuffer, memcpys, List.forall_mem_cons]
  rfl

/-- The last copy ends where the stream ends. -/
theorem inBuffer_iff {runner : ℕ} {chunks : List (List UInt8)} (h : runner ≤ BUFFER_CAPACITY) :
    InBuffer runner chunks ↔ runner + chunks.flatten.length ≤ BUFFER_CAPACITY := by
  induction chunks generalizing runner with
  | nil => exact iff_of_true (fun _ hw => absurd hw List.not_mem_nil) h
  | cons chunk chunks ih =>
      rw [inBuffer_cons, List.flatten_cons, List.length_append, ← Nat.add_assoc]
      constructor
      · rintro ⟨hchunk, hrest⟩
        exact (ih hchunk).1 hrest
      · intro htotal
        have hchunk : runner + chunk.length ≤ BUFFER_CAPACITY :=
          (Nat.le_add_right _ _).trans htotal
        exact ⟨hchunk, (ih hchunk).2 htotal⟩

/-- The loop ends without a fault if the copies stay inside. -/
theorem fillBuffer_ok_iff {buf buf' : List UInt8} {chunks : List (List UInt8)} :
    fillBuffer buf chunks = .ok buf' ↔
      InBuffer buf.length chunks ∧ buf' = buf ++ chunks.flatten := by
  induction chunks generalizing buf with
  | nil =>
      rw [fillBuffer, List.flatten_nil, List.append_nil, Except.ok.injEq]
      exact ⟨fun h => ⟨fun _ hw => absurd hw List.not_mem_nil, h.symm⟩, fun h => h.2.symm⟩
  | cons chunk chunks ih =>
      rw [fillBuffer, inBuffer_cons]
      by_cases hover : INPUT_BUFFER_SIZE + 10 < buf.length + chunk.length
      · rw [if_pos hover]
        exact iff_of_false (by simp) fun h => absurd h.1.1 (Nat.not_le.2 hover)
      · rw [if_neg hover, ih, List.length_append, List.flatten_cons, List.append_assoc]
        exact ⟨fun h => ⟨⟨Nat.not_lt.1 hover, h.1⟩, h.2⟩, fun h => ⟨h.1.2, h.2⟩⟩

/-- A stream above 1 MB is not tokenized. -/
theorem readCallback_large {input : List UInt8} {chunks : List (List UInt8)} {rest : ℕ → UInt8}
    (hlarge : INPUT_BUFFER_SIZE < input.length + chunks.flatten.length) {s t : Server}
    {output : List UInt8} (hrun : readCallback input chunks rest s = .ok (output, t)) :
    output = (_Error .PROTOCOL_ERROR).wire := by
  rw [readCallback] at hrun
  cases hfill : fillBuffer input chunks with
  | error fault =>
      rw [hfill] at hrun
      cases hrun
  | ok buf =>
      obtain ⟨-, rfl⟩ := fillBuffer_ok_iff.1 hfill
      rw [hfill] at hrun
      simp only [List.length_append] at hrun
      rw [if_neg (Nat.not_le.2 hlarge)] at hrun
      obtain ⟨out, s₁, hwrite, hgarbage⟩ := bind_eq_ok_iff.1 hrun
      obtain ⟨freed, hwire⟩ := writeToBuffer_run (_Error .PROTOCOL_ERROR) s
      rw [hwire] at hwrite
      cases hwrite
      obtain ⟨_, s₂, -, hend⟩ := bind_eq_ok_iff.1 hgarbage
      cases hend
      rfl

/-- The copies stay inside the buffer, and a stream above 1 MB is only ever answered with
the protocol error, exactly if the whole stream fits the buffer. -/
theorem readCallback_capacity_iff (input : List UInt8) (chunks : List (List UInt8))
    (hinput : input.length ≤ INPUT_BUFFER_SIZE) :
    (InBuffer input.length chunks ∧
        (INPUT_BUFFER_SIZE < input.length + chunks.flatten.length →
          ∀ rest s output t, readCallback input chunks rest s = .ok (output, t) →
            output = (_Error .PROTOCOL_ERROR).wire)) ↔
      input.length + chunks.flatten.length ≤ BUFFER_CAPACITY := by
  rw [inBuffer_iff (hinput.trans (Nat.le_add_right _ _))]
  exact ⟨fun h => h.1, fun h => ⟨h, fun hlarge _ _ _ _ hrun => readCallback_large hlarge hrun⟩⟩

theorem readCallback_capacity_iff_full :
    InBuffer (1024 * 1024) [List.replicate 10 (0 : UInt8)] := by
  have hfits := (readCallback_capacity_iff (List.replicate (1024 * 1024) 0)
    [List.replicate 10 (0 : UInt8)] (by rw [List.length_replicate]; exact le_rfl)).2 (by
      rw [List.flatten_singleton, List.length_replicate, List.length_replicate]
      exact le_rfl)
  rw [List.length_replicate] at hfits
  exact hfits.1

/-- A full megabyte in the buffer of the event and one `recv` of 10000 bytes. -/
theorem readCallback_overruns :
    (List.replicate (1024 * 1024) (0 : UInt8)).length ≤ INPUT_BUFFER_SIZE ∧
      ¬ InBuffer (List.replicate (1024 * 1024) (0 : UInt8)).length
        [List.replicate 10000 (0 : UInt8)] := by
  rw [List.length_replicate]
  refine ⟨le_rfl, fun h => ?_⟩
  have hcopy := (inBuffer_cons.1 h).1
  rw [List.length_replicate] at hcopy
  exact absurd hcopy (by decide)

end Exoredis
