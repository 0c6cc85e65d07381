import Exoredis.Protocol.Telnet
import Exoredis.Refinement.Server
import Exoredis.Server.Connection

/-!
# From bytes to bytes

A request arrives as an array of bulk strings or as a line of words (`OnWire`), in one piece or
in several. A client that sends requests in this way gets the bytes that the dataset machine
writes (`connection_refines`), and reads its replies back from them.
-/

namespace Exoredis

open Effect

/-- The bytes of a request. -/
inductive OnWire : List (List UInt8) → List UInt8 → Prop
  | array {strs : List (List UInt8)} {bytes : List UInt8} (h : RespArray strs bytes) :
      OnWire strs bytes
  | line {t : List UInt8} {rest : List (ℕ × List UInt8)} (ht : IsWord t)
      (hrest : ∀ p ∈ rest, IsWord p.2) (hstar : t.head? ≠ some 42) :
      OnWire (t :: rest.map Prod.snd) (telnetLine t rest)

/-- What has arrived carries the request. -/
structure Carries (r : Received) (q : Request) : Prop where
  now : r.now = q.now
  fits : (r.input ++ r.chunks.flatten).length ≤ INPUT_BUFFER_SIZE
  wire : OnWire q.tokens (r.input ++ r.chunks.flatten)

theorem fillBuffer_run {buf : List UInt8} {chunks : List (List UInt8)}
    (h : (buf ++ chunks.flatten).length ≤ INPUT_BUFFER_SIZE + 10) :
    fillBuffer buf chunks = .ok (buf ++ chunks.flatten) := by
  induction chunks generalizing buf with
  | nil => simp [fillBuffer]
  | cons chunk chunks ih =>
      rw [List.flatten_cons, ← List.append_assoc] at h ⊢
      have hroom : ¬ INPUT_BUFFER_SIZE + 10 < buf.length + chunk.length := by
        rw [List.length_append, List.length_append] at h
        omega
      rw [fillBuffer, if_neg hroom]
      exact ih h

/-- A request is read as its tokens, whatever lies behind it. -/
theorem bufferTokenizer_onWire {mem : ℕ → UInt8} {len : ℕ} {strs : List (List UInt8)}
    (hmax : len ≤ PTRDIFF_MAX) (h : OnWire strs (slice mem 0 len)) :
    bufferTokenizer mem len = .ok (some (strs.map some)) := by
  generalize hbytes : slice mem 0 len = bytes at h
  cases h with
  | array harr =>
      rw [← hbytes] at harr
      obtain ⟨hne, hstar⟩ := harr.starts
      rw [bufferTokenizer, if_neg (by omega), if_pos hstar, respTokenizer_respArray hmax harr]
  | @line t rest ht hrest hstar =>
      obtain ⟨c, cs, rfl⟩ := List.exists_cons_of_ne_nil ht.ne_nil
      have hfirst : ∃ k, len = k + 1 ∧ mem 0 = c ∧ slice mem 1 k = cs ++ lineTail rest :=
        (slice_eq_cons_iff mem 0 len c (cs ++ lineTail rest)).1 hbytes
      obtain ⟨k, hlen, hc, -⟩ := hfirst
      have hnostar : mem 0 ≠ 42 := by
        rw [hc]
        simpa using hstar
      rw [bufferTokenizer, if_neg (by omega), if_neg hnostar, simpleTokenizer_line ht hrest hbytes]

/-- The memory of the buffer holds what has arrived. -/
theorem slice_buffer (buf : List UInt8) (behind : ℕ → UInt8) :
    slice (fun i => if i < buf.length then buf.getD i 0 else behind i) 0 buf.length = buf := by
  refine List.ext_getElem (length_slice _ _ _) fun i _ hi => ?_
  simp [slice, hi]

theorem allSome_map_some {α : Type} (l : List α) : (l.map some).allSome = some l := by
  induction l with
  | nil => rfl
  | cons a l ih =>
      rw [List.allSome] at ih ⊢
      rw [List.map_cons, List.mapM_cons, ih]
      rfl

/-- What has arrived is served as its request. -/
theorem readCallback_run {r : Received} {q : Request} (h : Carries r q) (hne : q.tokens ≠ []) :
    readCallback r.input r.chunks r.behind = serve q.tokens := by
  have hfits := h.fits
  have hwire := h.wire
  rw [← slice_buffer (r.input ++ r.chunks.flatten) r.behind] at hwire
  have htokens := bufferTokenizer_onWire (hfits.trans (by decide)) hwire
  rw [readCallback, fillBuffer_run (Nat.le_add_right_of_le hfits)]
  simp only
  rw [if_pos hfits, htokens]
  cases hq : q.tokens with
  | nil => exact absurd hq hne
  | cons t rest =>
      have hall := allSome_map_some (t :: rest)
      simp only [List.map_cons] at hall ⊢
      rw [hall]

theorem exists_map_some {α : Type} {l : List (Option α)} (h : none ∉ l) :
    ∃ as : List α, l = as.map some := by
  induction l with
  | nil => exact ⟨[], rfl⟩
  | cons o l ih =>
      rw [List.mem_cons, not_or] at h
      obtain ⟨as, rfl⟩ := ih h.2
      cases o with
      | none => exact absurd rfl h.1
      | some a => exact ⟨a :: as, rfl⟩

theorem wire_ne_nil (reply : Reply) : reply.wire ≠ [] := by
  cases reply <;> simp [Reply.wire, writeBulk, writeRespArray, crlf]

theorem machine_ne_nil (m : Dataset) (q : Request) (output : List UInt8) (m' : Dataset)
    (h : Dataset.machine m q = .ok (output, m')) : output ≠ [] := by
  obtain ⟨p, -, hres⟩ := Machine.map_eq_ok_iff.1 h
  cases hres
  exact wire_ne_nil _

theorem connection_follows {s : Server} {m m' : Dataset} {r : Received} {q : Request}
    {output : List UInt8} (h : Represents s m) (hcarries : Carries r q)
    (hout : Dataset.machine m q = .ok (output, m')) :
    ∃ t, connection s r = .ok (output, t) ∧ Represents t m' := by
  have hne : q.tokens ≠ [] := by
    intro hnil
    rw [Dataset.machine, hnil] at hout
    cases hout
  obtain ⟨t, hserver, ht, -⟩ := server_follows h hout
  refine ⟨t, ?_, ht⟩
  rw [connection, readCallback_run hcarries hne, hcarries.now]
  exact hserver

/-- A line in two pieces, and an array. -/
def setAndGet : List Received := [
  ⟨0, ascii "SET k ", [ascii " v\r\n"], fun _ => 0⟩,
  ⟨0, ascii "*2\r\n$3\r\nGET\r\n$1\r\nk\r\n", [], fun _ => 13⟩]

theorem carries_setAndGet :
    List.Forall₂ Carries setAndGet [request ["SET", "k", "v"], request ["GET", "k"]] := by
  have hset : IsWord (ascii "SET") := ⟨by decide, fun c hc => by fin_cases hc <;> rfl⟩
  have hk : IsWord (ascii "k") := ⟨by decide, fun c hc => by fin_cases hc; rfl⟩
  have hv : IsWord (ascii "v") := ⟨by decide, fun c hc => by fin_cases hc; rfl⟩
  refine .cons ⟨rfl, by decide, ?_⟩ (.cons ⟨rfl, by decide, ?_⟩ .nil)
  · exact @OnWire.line (ascii "SET") [(0, ascii "k"), (1, ascii "v")] hset
      (by simpa using ⟨hk, hv⟩) (by decide)
  · exact .array (respArray_writeRespArray [newArg ⟨0, ascii "GET"⟩, newArg ⟨1, ascii "k"⟩])

end Exoredis
