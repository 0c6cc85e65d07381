import Exoredis.Keyspace.Dispatch

/-!
# Reading a dump

A length-prefixed string is read back as it was written, and reading one has no
effect but to name the new string.
-/

namespace Exoredis

open LittleEndian

/-- A string of the dump and the bytes behind it, as long as it fits the load
buffer. -/
def takeString (fp : List UInt8) : Option (List UInt8 × List UInt8) :=
  (takeLE 8 fp).bind fun p => if p.1 > LOAD_BUFFER then none else takeBytes p.1 p.2

theorem readString_ok_iff {fp fp' : List UInt8} {str : ExoString} {s t : Server} :
    readString fp s = .ok ((str, fp'), t) ↔
      takeString fp = some (str.buf, fp') ∧ str.id = s.nextId ∧
        t = { s with nextId := s.nextId + 1 } := by
  rw [readString, readLong, takeString]
  cases hlen : takeLE 8 fp with
  | none => simp [Effect.bind_run]
  | some p =>
      obtain ⟨len, rest⟩ := p
      simp only [Option.bind_some]
      rw [Effect.bind_run_ok (Effect.pure_run _ s)]
      by_cases hbuf : len > LOAD_BUFFER
      · simp [hbuf, Effect.bind_run]
      · simp only [hbuf, if_false]
        cases hbytes : takeBytes len rest with
        | none => simp
        | some q =>
            obtain ⟨bytes, rest'⟩ := q
            have hnew : newString bytes s =
                .ok (⟨s.nextId, bytes⟩, { s with nextId := s.nextId + 1 }) := rfl
            simp only
            rw [Effect.bind_run_ok hnew]
            simp only [Effect.pure_run, Except.ok.injEq, Prod.mk.injEq, Option.some.injEq]
            constructor
            · rintro ⟨⟨rfl, rfl⟩, rfl⟩
              exact ⟨⟨rfl, rfl⟩, rfl, rfl⟩
            · rintro ⟨⟨rfl, rfl⟩, hid, rfl⟩
              exact ⟨⟨by rw [← hid], rfl⟩, rfl⟩

theorem takeString_writeString {str : List UInt8} (h : str.length ≤ LOAD_BUFFER)
    (rest : List UInt8) : takeString (writeString str ++ rest) = some (str, rest) := by
  have hlt : str.length < 256 ^ 8 := lt_of_le_of_lt h (by decide)
  rw [takeString, writeString, List.append_assoc, takeLE_le hlt, Option.bind_some,
    if_neg (by simpa using h), takeBytes_append]

theorem readString_writeString {str : List UInt8} (h : str.length ≤ LOAD_BUFFER)
    (rest : List UInt8) (s : Server) :
    readString (writeString str ++ rest) s =
      .ok ((⟨s.nextId, str⟩, rest), { s with nextId := s.nextId + 1 }) :=
  readString_ok_iff.2 ⟨takeString_writeString h rest, rfl, rfl⟩

/-- The key and the expiry of a string record behind its type code. -/
def stringRecord (fp : List UInt8) : Option (List UInt8 × ℕ) :=
  (takeString fp).bind fun key =>
    (takeString key.2).bind fun value =>
      (takeString value.2).map fun str => (key.1, toUnsigned (stringToLongLong str.1))

/-- A string record that was read ends in the table operation on its key. -/
theorem loadHashMapEntry_cases {fp fp' : List UInt8} {ret : ℤ} {s t : Server}
    (hrun : loadHashMapEntry fp s = .ok ((ret, fp'), t)) :
    ∃ key value exp_ms s' reply, stringRecord fp = some (key.buf, exp_ms) ∧
      s' = { s with nextId := s'.nextId, freed := s'.freed } ∧
      onKeyspace (fun ht => ht.setFromLoad key (.bulkString value) exp_ms) s' = .ok (reply, t) := by
  obtain ⟨⟨key, fp₁⟩, s₁, hkey, hrun⟩ := Effect.bind_eq_ok_iff.1 hrun
  obtain ⟨⟨value, fp₂⟩, s₂, hvalue, hrun⟩ := Effect.bind_eq_ok_iff.1 hrun
  obtain ⟨⟨str, fp₃⟩, s₃, hstr, hrun⟩ := Effect.bind_eq_ok_iff.1 hrun
  obtain ⟨_, s₄, hfree, hrun⟩ := Effect.bind_eq_ok_iff.1 hrun
  obtain ⟨reply, s₅, hset, hrun⟩ := Effect.bind_eq_ok_iff.1 hrun
  simp only [Effect.pure_run, Except.ok.injEq, Prod.mk.injEq] at hrun
  obtain ⟨-, rfl⟩ := hrun
  rw [readString_ok_iff] at hkey hvalue hstr
  obtain ⟨hkey, -, rfl⟩ := hkey
  obtain ⟨hvalue, -, rfl⟩ := hvalue
  obtain ⟨hstr, -, rfl⟩ := hstr
  rw [freeExoString_run] at hfree
  cases hfree
  refine ⟨key, value, _, _, reply, ?_, rfl, hset⟩
  rw [stringRecord, hkey, Option.bind_some, hvalue, Option.bind_some, hstr]
  rfl

/-- A sorted set record that was read ends in a ZADD of its member. -/
theorem loadSkiplistEntry_cases {fp fp' : List UInt8} {ret : ℤ} {s t : Server}
    (hrun : loadSkiplistEntry fp s = .ok ((ret, fp'), t)) :
    ∃ key score member fp₁ fp₂ reply tokens s', takeString fp = some (key, fp₁) ∧
      takeString fp₁ = some (score, fp₂) ∧ takeString fp₂ = some (member, fp') ∧
      zaddCommand (argsFrom s.nextId [ascii "ZADD", key, score, member])
        { s with nextId := s.nextId + 4 } = .ok ((reply, tokens), s') ∧
      ret = resultOf reply "1" ∧ freeDeadArgs tokens s' = .ok ((), t) := by
  obtain ⟨cmd, s₀, hcmd, hrun⟩ := Effect.bind_eq_ok_iff.1 hrun
  obtain ⟨⟨key, fp₁⟩, s₁, hkey, hrun⟩ := Effect.bind_eq_ok_iff.1 hrun
  obtain ⟨⟨score, fp₂⟩, s₂, hscore, hrun⟩ := Effect.bind_eq_ok_iff.1 hrun
  obtain ⟨⟨member, fp₃⟩, s₃, hmember, hrun⟩ := Effect.bind_eq_ok_iff.1 hrun
  obtain ⟨⟨reply, tokens⟩, s₄, hzadd, hrun⟩ := Effect.bind_eq_ok_iff.1 hrun
  obtain ⟨_, s₅, hfree, hrun⟩ := Effect.bind_eq_ok_iff.1 hrun
  cases hrun
  cases hcmd
  rw [readString_ok_iff] at hkey hscore hmember
  obtain ⟨hkey, hkeyid, rfl⟩ := hkey
  obtain ⟨hscore, hscoreid, rfl⟩ := hscore
  obtain ⟨hmember, hmemberid, rfl⟩ := hmember
  refine ⟨key.buf, score.buf, member.buf, fp₁, fp₂, reply, tokens, s₄, hkey, hscore, hmember,
    ?_, rfl, hfree⟩
  obtain ⟨id₁, key⟩ := key
  obtain ⟨id₂, score⟩ := score
  obtain ⟨id₃, member⟩ := member
  subst hkeyid hscoreid hmemberid
  exact hzadd

end Exoredis
