import Exoredis.Shutdown.Signals
import Exoredis.Keyspace.Dispatch

/-!
# From one process to the next

`main` loads the dump before it waits for connections. The process then ends on SIGINT, whose
handler saves the keyspace and frees everything, or without further ado. The next process finds
the dump that is there by then.
-/

namespace Exoredis

/-- What comes before the event loop. Whether the load succeeds is printed only. -/
def spinServer : Exo Unit := do
  let _ ← loadFromDB

/-- A process that starts at the time `now`, up to the event loop. -/
def boot (coins : ℕ → ℕ) (now : ℕ) (dump : Option (List UInt8)) : Except Fault Server := do
  let s ← startUp coins dump
  let p ← spinServer { s with now := now }
  return p.2

inductive Event
  | request (r : Request)
  /-- SIGINT between two requests, and a new process with these coins at this time. -/
  | interrupt (coins : ℕ → ℕ) (now : ℕ)
  /-- The end of the process between two requests, and a new process. -/
  | kill (coins : ℕ → ℕ) (now : ℕ)

/-- One process after the other. Only requests write replies. -/
def lifecycle : Machine Server Event (List UInt8) Fault
  | s, .request r => server s r
  | s, .interrupt coins now => do
      let p ← actionBeforeExit s
      let t ← boot coins now p.2.dump
      return ([], t)
  | s, .kill coins now => do
      let t ← boot coins now s.dump
      return ([], t)

section

variable {s t u : Server} {coins : ℕ → ℕ} {now : ℕ}

theorem lifecycle_interrupt (hexit : actionBeforeExit s = .ok ((), t))
    (hboot : boot coins now t.dump = .ok u) :
    lifecycle s (.interrupt coins now) = .ok ([], u) := by
  rw [lifecycle, hexit]
  generalize boot coins now = start at *
  change (start t.dump >>= fun u => pure ([], u)) = _
  rw [hboot]
  rfl

theorem lifecycle_kill (hboot : boot coins now s.dump = .ok u) :
    lifecycle s (.kill coins now) = .ok ([], u) := by
  rw [lifecycle]
  generalize boot coins now = start at *
  rw [hboot]
  rfl

end

end Exoredis
