import Exoredis.Protocol.Replies
import Exoredis.Keyspace.Dispatch

/-!
# A connection

`readCallback` takes what has arrived to what is written back. In whatever state the server is
and whatever arrives, what it writes is at most one reply, and the stream of a whole run is
split into its replies in one way only (`connection_replies`).
-/

namespace Exoredis

open Effect

/-- What a call of `readCallback` finds: the bytes in the buffer of the event, those of the
`recv` calls behind them, and what lies behind them in the memory that is allocated. -/
structure Received where
  now : ℕ
  input : List UInt8
  chunks : List (List UInt8)
  behind : ℕ → UInt8

/-- The server at the end of a connection. -/
def connection : Machine Server Received (List UInt8) Fault := fun s r =>
  readCallback r.input r.chunks r.behind { s with now := r.now }

/-! ## Replies -/

/-- The reply is read back as a value of the protocol. -/
def Reply.Spoken (reply : Reply) : Prop := ∃ v : Resp, v.Valid ∧ reply.wire = v.encode

theorem spoken_OK : Reply.Spoken _OK := ⟨.simple (ascii "OK"), show 13 ∉ ascii "OK" by decide, rfl⟩

theorem spoken_Pong : Reply.Spoken _Pong := ⟨.simple (ascii "PONG"), show 13 ∉ ascii "PONG" by decide, rfl⟩

theorem spoken_Null : Reply.Spoken _Null := ⟨.null, trivial, rfl⟩

theorem spoken_Error (code : ErrorCode) : Reply.Spoken (_Error code) := by
  obtain ⟨text, htext⟩ := List.head?_eq_some_iff.1 (sent_retError code).2
  have hline : 13 ∉ sent (retError code) := by cases code <;> decide
  refine ⟨.error text, fun hmem => hline (htext ▸ List.mem_cons_of_mem _ hmem), ?_⟩
  rw [_Error, Reply.wire, htext]
  rfl

theorem spoken_number (num : ℕ) : Reply.Spoken (.respInteger (numberToString num)) :=
  ⟨.integer num, trivial, rfl⟩

theorem spoken_bit (bit : Bool) : Reply.Spoken (bitReply bit) := by
  cases bit
  · exact ⟨.integer 0, trivial, by decide⟩
  · exact ⟨.integer 1, trivial, by decide⟩

theorem spoken_bulk (str : List UInt8) : Reply.Spoken (.bulkString str) := ⟨.bulk str, trivial, rfl⟩

theorem spoken_array (args : ArgList) : Reply.Spoken (.respArray args) := by
  refine ⟨.array (args.map fun node => node.key.buf), trivial, ?_⟩
  rw [Reply.wire, writeRespArray, Resp.encode, List.length_map, List.flatMap_map]
  rfl

/-! ## Commands -/

/-- A reply with whatever else is returned. -/
def SpokenWith {α : Type} (p : Reply × α) : Prop := p.1.Spoken

theorem yields_onKeyspace {α : Type} {P : α → Prop} {f : HashTable ExoVal → Exo (α × HashTable ExoVal)}
    (h : ∀ ht, Yields (f ht) fun p => P p.1) : Yields (onKeyspace f) P :=
  yields_seq fun s => yields_bind (h s.HASH_TABLE) fun _ hp => yields_seq fun _ => yields_pure hp

theorem yields_setWithExpiry (ht : HashTable ExoVal) (key : ExoString) (val : ExoVal) (exp_ms : ℕ)
    (nx xx : Bool) : Yields (ht.setWithExpiry key val exp_ms nx xx) SpokenWith := by
  refine yields_seq fun xp => yields_seq fun str_hash => yields_seq fun found => ?_
  cases found with
  | some c =>
      refine yields_seq fun expired => ?_
      cases expired with
      | true =>
          refine yields_seq fun _ => ?_
          cases xx with
          | true => exact yields_pure spoken_Null
          | false => exact yields_seq fun _ => yields_pure spoken_OK
      | false =>
          cases nx with
          | true => exact yields_pure spoken_Null
          | false => exact yields_seq fun _ => yields_pure spoken_OK
  | none =>
      cases xx with
      | true => exact yields_pure spoken_Null
      | false => exact yields_seq fun _ => yields_pure spoken_OK

theorem yields_getCommand (args : ArgList) : Yields (getCommand args) SpokenWith := by
  rw [getCommand.eq_def]
  split
  · refine yields_seq fun val => ?_
    split
    · exact yields_pure (spoken_bulk _)
    · exact yields_pure (spoken_Error _)
    · exact yields_pure spoken_Null
  · exact yields_throw _

theorem yields_setCommand (args : ArgList) : Yields (setCommand args) SpokenWith := by
  rw [setCommand.eq_def]
  split
  · exact yields_pure (spoken_Error _)
  split
  · exact yields_pure (spoken_Error _)
  split
  · split
    · exact yields_pure (spoken_Error _)
    · split
      · exact yields_pure (spoken_Error _)
      · split
        · exact yields_pure spoken_Null
        · refine yields_bind (yields_onKeyspace fun ht => ?_) fun ret hret => yields_pure hret
          exact yields_setWithExpiry ht _ _ _ _ _
  · exact yields_throw _

theorem yields_delCommand (args : ArgList) : Yields (delCommand args) SpokenWith := by
  rw [delCommand]
  split
  · exact yields_pure (spoken_Error _)
  · exact yields_seq fun count => yields_pure (spoken_number count)

theorem yields_getbitCommand (args : ArgList) : Yields (getbitCommand args) SpokenWith := by
  rw [getbitCommand.eq_def]
  split
  · dsimp only
    split
    · exact yields_pure (spoken_Error _)
    · refine yields_seq fun val => ?_
      split
      · exact yields_seq fun bit => yields_pure (spoken_bit bit)
      · exact yields_pure (spoken_Error _)
      · exact yields_pure (spoken_bit false)
  · exact yields_throw _

theorem yields_setbitCommand (args : ArgList) : Yields (setbitCommand args) SpokenWith := by
  rw [setbitCommand.eq_def]
  split
  · dsimp only
    split
    · exact yields_pure (spoken_Error _)
    split
    · exact yields_pure (spoken_Error _)
    · refine yields_seq fun val => ?_
      split
      · exact yields_seq fun p => yields_seq fun _ => yields_pure (spoken_bit p.1)
      · exact yields_pure (spoken_Error _)
      · exact yields_seq fun _ => yields_seq fun _ => yields_pure (spoken_bit false)
  · exact yields_throw _

theorem yields_addOrUpdateMember (list : SkipList) (xx nx ch : Bool) (args : ArgList) (n : ℕ) :
    Yields (list.addOrUpdateMember xx nx ch args n) SpokenWith := by
  refine yields_seq fun p => ?_
  obtain ⟨pairs, args⟩ := p
  cases pairs with
  | some pairs => exact yields_seq fun p => yields_pure (spoken_number _)
  | none => exact yields_pure (spoken_Error _)

theorem yields_scoreIncrement (list : SkipList) (args : ArgList) (nx : Bool) :
    Yields (list.scoreIncrement args nx) SpokenWith := by
  refine yields_seq fun p => ?_
  obtain ⟨pairs, args⟩ := p
  cases pairs with
  | some pairs =>
      cases pairs with
      | nil => exact yields_throw _
      | cons pair pairs =>
          refine yields_seq fun q => ?_
          obtain ⟨tmp, table⟩ := q
          cases tmp with
          | some target =>
              cases nx with
              | true => exact yields_seq fun _ => yields_pure spoken_Null
              | false => exact yields_seq fun _ => yields_seq fun _ => yields_pure (spoken_bulk _)
          | none => exact yields_seq fun _ => yields_pure (spoken_bulk _)
  | none => exact yields_pure (spoken_Error _)

theorem yields_addToSortedSet (list : SkipList) (xx nx ch incr : Bool) (args : ArgList) :
    Yields (list.addToSortedSet xx nx ch incr args) SpokenWith := by
  rw [SkipList.addToSortedSet]
  split
  · exact yields_pure (spoken_Error _)
  dsimp only
  split
  · split
    · exact yields_bind (P := fun _ => False) (yields_throw _) fun _ h => h.elim
    · split
      · split
        · refine yields_bind (yields_scoreIncrement list _ nx) fun p hp => yields_pure hp
        · exact yields_pure (spoken_Error _)
      · exact yields_bind (yields_addOrUpdateMember list xx nx ch _ _) fun p hp => yields_pure hp
  · exact yields_pure (spoken_Error _)

theorem yields_zaddCommand (args : ArgList) : Yields (zaddCommand args) SpokenWith := by
  rw [zaddCommand.eq_def]
  split
  · exact yields_pure (spoken_Error _)
  split
  · refine yields_seq fun found => ?_
    split
    · exact yields_pure (spoken_Error _)
    · refine yields_bind (yields_addToSortedSet _ _ _ _ _ _) fun p hp => yields_seq fun _ => ?_
      dsimp only
      split
      · exact yields_seq fun _ => yields_pure hp
      · exact yields_pure hp
  · exact yields_throw _

theorem yields_zcardCommand (args : ArgList) : Yields (zcardCommand args) SpokenWith := by
  rw [zcardCommand.eq_def]
  split
  · refine yields_seq fun val => ?_
    split
    · exact yields_pure (spoken_number _)
    · exact yields_pure (spoken_Error _)
    · exact yields_pure (spoken_number 0)
  · exact yields_throw _

theorem yields_zcountCommand (args : ArgList) : Yields (zcountCommand args) SpokenWith := by
  rw [zcountCommand.eq_def]
  split
  · refine yields_seq fun val => ?_
    split
    · split
      · exact yields_seq fun mi => yields_seq fun ma => yields_pure (spoken_number _)
      · exact yields_throw _
      · exact yields_pure (spoken_Error _)
    · exact yields_pure (spoken_Error _)
    · exact yields_pure (spoken_number 0)
  · exact yields_throw _

theorem yields_zrangeCommand (args : ArgList) : Yields (zrangeCommand args) SpokenWith := by
  rw [zrangeCommand.eq_def]
  split
  · exact yields_pure (spoken_Error _)
  split
  · split
    · exact yields_pure (spoken_Error _)
    · refine yields_seq fun val => ?_
      split
      · dsimp only
        split
        · exact yields_seq fun p => yields_seq fun result => yields_pure (spoken_array result)
        · exact yields_seq fun p => yields_seq fun result => yields_pure (spoken_array result)
      · exact yields_pure (spoken_Error _)
      · exact yields_pure (spoken_array [])
  · exact yields_throw _

theorem yields_saveCommand : Yields saveCommand Reply.Spoken := by
  refine yields_seq fun s => ?_
  split
  · exact yields_pure spoken_Null
  · exact yields_seq fun bytes => yields_seq fun _ => yields_pure spoken_OK

theorem yields_loadCommand : Yields loadCommand Reply.Spoken := by
  refine yields_seq fun ret => ?_
  split
  · exact yields_pure spoken_Null
  · exact yields_pure spoken_OK

theorem yields_callCommand (f : CommandPtr) (args : ArgList) :
    Yields (callCommand f args) SpokenWith := by
  cases f with
  | getCommand => exact yields_getCommand args
  | setCommand => exact yields_setCommand args
  | delCommand => exact yields_delCommand args
  | pingCommand => exact yields_pure spoken_Pong
  | flushCommand => exact yields_seq fun s => yields_seq fun _ => yields_seq fun _ => yields_pure spoken_OK
  | getbitCommand => exact yields_getbitCommand args
  | setbitCommand => exact yields_setbitCommand args
  | zaddCommand => exact yields_zaddCommand args
  | zcardCommand => exact yields_zcardCommand args
  | zcountCommand => exact yields_zcountCommand args
  | zrangeCommand => exact yields_zrangeCommand args
  | saveCommand => exact yields_bind yields_saveCommand fun reply hreply => yields_pure hreply
  | loadCommand => exact yields_bind yields_loadCommand fun reply hreply => yields_pure hreply

theorem yields_executeCommand (cmd : ExoCmd) (tokens : ArgList) :
    Yields (executeCommand cmd tokens) SpokenWith := by
  rw [executeCommand]
  split
  · exact yields_bind yields_saveCommand fun reply hreply => yields_pure hreply
  split
  · refine yields_seq fun ret => yields_pure ?_
    rw [SpokenWith]
    split
    · exact spoken_OK
    · exact spoken_Null
  split
  · exact yields_callCommand _ _
  · exact yields_pure (spoken_Error _)

theorem yields_commandDispatcher (tokens : ArgList) :
    Yields (commandDispatcher tokens) Reply.Spoken := by
  rw [commandDispatcher.eq_def]
  split
  · exact yields_throw _
  · dsimp only
    refine yields_seq fun s => yields_seq fun found => yields_seq fun _ => ?_
    split
    · refine yields_bind (yields_executeCommand _ _) fun p hp => ?_
      split
      · exact yields_seq fun _ => yields_pure hp
      · exact yields_seq fun _ => yields_pure hp
    · exact yields_seq fun _ => yields_pure (spoken_Error _)

/-! ## Streams -/

/-- The bytes of a reply, or none. -/
def OneReply (output : List UInt8) : Prop :=
  ∃ v : Option Resp, (∀ w ∈ v, w.Valid) ∧ output = respFraming.encodeAll v.toList

theorem yields_writeToBuffer {reply : Reply} (h : reply.Spoken) :
    Yields (writeToBuffer reply) OneReply := by
  intro s output t hrun
  obtain ⟨freed, hwrite⟩ := writeToBuffer_run reply s
  rw [hwrite] at hrun
  cases hrun
  obtain ⟨v, hvalid, hwire⟩ := h
  refine ⟨some v, fun w hw => Option.some.inj hw ▸ hvalid, ?_⟩
  rw [hwire]
  exact (List.append_nil _).symm

theorem yields_serve (tokens : List (List UInt8)) : Yields (serve tokens) OneReply :=
  yields_seq fun args => yields_bind (yields_commandDispatcher args) fun _ hreply =>
    yields_bind (yields_writeToBuffer hreply) fun _ houtput => yields_seq fun _ => yields_pure houtput

theorem yields_readCallback (input : List UInt8) (chunks : List (List UInt8)) (behind : ℕ → UInt8) :
    Yields (readCallback input chunks behind) OneReply := by
  rw [readCallback]
  split
  · exact yields_throw _
  · dsimp only
    split
    · exact yields_throw _
    · exact yields_bind (yields_writeToBuffer (spoken_Error _)) fun _ houtput =>
        yields_seq fun _ => yields_pure houtput
    · exact yields_seq fun _ => yields_pure ⟨none, fun _ h => absurd h (by simp), rfl⟩
    · split
      · exact yields_serve _
      · exact yields_throw _

/-- The replies of a run, none for a callback that writes nothing. -/
theorem exists_replies {s t : Server} {rs : List Received} {outputs : List (List UInt8)}
    (hrun : connection.run s rs = .ok (outputs, t)) :
    ∃ vs : List (Option Resp), vs.length = rs.length ∧ (∀ w ∈ vs.reduceOption, w.Valid) ∧
      outputs = vs.map (fun v => respFraming.encodeAll v.toList) ∧
      outputs.flatten = respFraming.encodeAll vs.reduceOption := by
  induction rs generalizing s outputs with
  | nil =>
      cases hrun
      exact ⟨[], rfl, fun _ h => absurd h List.not_mem_nil, rfl, rfl⟩
  | cons r rs ih =>
      obtain ⟨output, s', outputs', hstep, hrest, rfl⟩ := Machine.run_cons_ok_iff.1 hrun
      obtain ⟨v, hvalid, rfl⟩ := yields_readCallback _ _ _ _ _ _ hstep
      obtain ⟨vs, hlength, hvalids, rfl, hstream⟩ := ih hrest
      refine ⟨v :: vs, by rw [List.length_cons, List.length_cons, hlength], ?_, rfl, ?_⟩
      · cases v with
        | none => exact hvalids
        | some w =>
            rw [List.reduceOption_cons_of_some]
            exact List.forall_mem_cons.2 ⟨hvalid w rfl, hvalids⟩
      · rw [List.flatten_cons, hstream]
        cases v with
        | none => rfl
        | some w =>
            rw [List.reduceOption_cons_of_some]
            simp [Framing.encodeAll]

/-- `PING` as an array, and `GET k` on a line. -/
def pingAndGet : List Received := [
  ⟨0, ascii "*1\r\n$4\r\nPING\r\n", [], fun _ => 0⟩,
  ⟨0, ascii "GE", [ascii "T k\r", ascii "\n"], fun _ => 0⟩]

end Exoredis
