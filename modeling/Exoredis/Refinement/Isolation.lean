import Exoredis.Library.Footprint
import Exoredis.Refinement.Server

/-!
# Clients with keys of their own

A command reads and writes nothing but the keys it is about (`local_request`). So clients that
work on different keys do not notice each other: whatever the order of their requests is, each of
them receives the replies that it receives alone (`clients_isolated`).
-/

namespace Exoredis

namespace Dataset

/-- The keys that a command is about. -/
def footprint : CommandPtr → List (List UInt8) → Set (List UInt8)
  | .delCommand, keys => {key | key ∈ keys}
  | .flushCommand, _ => Set.univ
  | .pingCommand, _ | .saveCommand, _ | .loadCommand, _ => ∅
  | _, key :: _ => {key}
  | _, [] => ∅

/-- The keys that a request is about. -/
def keysOf : List (List UInt8) → Set (List UInt8)
  | [] => ∅
  | name :: args =>
      match commandOf (strUpCase name) with
      | some cmd => footprint cmd.f_ptr args
      | none => ∅

variable {K : Set (List UInt8)} (now : ℕ)

theorem local_wrongType : Local K wrongType := .ok _

theorem local_write {key : List UInt8} (hkey : key ∈ K) (d : Option Datum) (r : Reply) :
    Local K fun m : Dataset => (.ok (r, Function.update m key d) : Outcome) :=
  .update (f := fun m => (.ok (r, m) : Outcome)) hkey d (.ok r)

theorem local_lookUp {key : List UInt8} (hkey : key ∈ K) {f : Option Datum → Dataset → Outcome}
    (hf : ∀ found, Local K (f found)) : Local K fun m : Dataset => m.lookUp now key f :=
  .ite (.error _) (.read hkey (f := fun (b : Option Datum) (m : Dataset) =>
    f (b.filter fun d => !d.expired now)
    (Function.update m key (b.filter fun d => !d.expired now)))
    fun _ => .update hkey _ (hf _))

theorem local_get (key : List UInt8) : Local {key} fun m : Dataset => m.get now key := by
  refine local_lookUp now (Set.mem_singleton key) fun found => ?_
  rcases found with - | ⟨str, expiry⟩ | bits | scores
  · exact .ok _
  · exact .ok _
  · exact local_wrongType
  · exact local_wrongType

theorem local_setWith (key val : List UInt8) (sw : SetSwitches) :
    Local {key} fun m : Dataset => m.setWith now key val sw := by
  have hkey : key ∈ ({key} : Set (List UInt8)) := rfl
  refine .ite (.error _) (.read hkey (f := fun (b : Option Datum) (m : Dataset) =>
    if b.any (Datum.expired now) then (.error .expiredKey : Outcome)
    else if (sw.nx && (b.filter fun d => !Datum.expired now d).isSome) ||
        (sw.xx && (b.filter fun d => !Datum.expired now d).isNone) then .ok (_Null, m)
    else .ok (_OK, m.put key (.string val (HashTable.expiryAt sw.exp_ms now)))) fun b => ?_)
  exact .ite (.error _) (.ite (.ok _) (local_write hkey _ _))

theorem local_set (key : List UInt8) (args : List (List UInt8)) :
    Local {key} fun m : Dataset => m.set now (key :: args) := by
  cases args with
  | nil => exact .ok _
  | cons val options =>
      refine .ite (.ok _) ?_
      cases switchesOf options with
      | error code => exact .ok _
      | ok sw => exact .ite (.ok _) (.ite (.ok _) (local_setWith now key val sw))

theorem local_delAll {keys : List (List UInt8)} (hkeys : ∀ key ∈ keys, key ∈ K) (count : ℕ) :
    Local K fun m : Dataset => m.delAll now keys count := by
  induction keys generalizing count with
  | nil => exact .ok _
  | cons key keys ih =>
      have hkey := hkeys key List.mem_cons_self
      refine .ite (.error _) (.read hkey (f := fun (b : Option Datum) (m : Dataset) => (m.erase key).delAll now keys
        (count + (b.filter fun d => !d.expired now).isSome.toNat)) fun b => ?_)
      exact .update hkey _ (ih (fun k hk => hkeys k (List.mem_cons_of_mem _ hk)) _)

theorem local_del (keys : List (List UInt8)) :
    Local {key | key ∈ keys} fun m : Dataset => m.del now keys :=
  .ite (.ok _) ((local_delAll now (K := {key | key ∈ keys}) (fun _ hkey => hkey) 0).map
    fun n => Reply.respInteger (numberToString n))

theorem local_getbit (key offset : List UInt8) :
    Local {key} fun m : Dataset => m.getbit now key offset := by
  unfold getbit
  cases position offset with
  | none => exact .ok _
  | some pos =>
      refine local_lookUp now (Set.mem_singleton key) fun found => ?_
      rcases found with - | ⟨str, expiry⟩ | bits | scores
      · exact .ok _
      · exact local_wrongType
      · exact .ok _
      · exact local_wrongType

theorem local_setbit (key offset value : List UInt8) :
    Local {key} fun m : Dataset => m.setbit now key offset value := by
  unfold setbit
  cases position offset with
  | none => exact .ok _
  | some pos =>
      cases bitOf value with
      | none => exact .ok _
      | some bit =>
          refine local_lookUp now (Set.mem_singleton key) fun found => ?_
          rcases found with - | ⟨str, expiry⟩ | bits | scores
          · exact local_write (Set.mem_singleton key) _ _
          · exact local_wrongType
          · exact local_write (Set.mem_singleton key) _ _
          · exact local_wrongType

theorem local_zaddOn (key : List UInt8) (scores : Scores) (rest : ArgList) :
    Local {key} fun m : Dataset => m.zaddOn key scores rest := by
  refine .ite (.error _) (.ite ?_ (.error _))
  dsimp only
  split
  · exact local_write (Set.mem_singleton key) _ _
  · exact local_write (Set.mem_singleton key) _ _

theorem local_zadd (key : List UInt8) (rest : List (List UInt8)) :
    Local {key} fun m : Dataset => m.zadd now (key :: rest) := by
  refine .ite (.ok _) (local_lookUp now (Set.mem_singleton key) fun found => ?_)
  rcases found with - | ⟨str, expiry⟩ | bits | scores
  · exact local_zaddOn key _ _
  · exact local_wrongType
  · exact local_wrongType
  · exact local_zaddOn key _ _

theorem local_readScores (key : List UInt8) (f : Scores → Reply) (missing : Reply) :
    Local {key} fun m : Dataset => m.readScores now key f missing := by
  refine local_lookUp now (Set.mem_singleton key) fun found => ?_
  rcases found with - | ⟨str, expiry⟩ | bits | scores
  · exact .ok _
  · exact local_wrongType
  · exact local_wrongType
  · exact .ok _

theorem local_zrange (key : List UInt8) (rest : List (List UInt8)) :
    Local {key} fun m : Dataset => m.zrange now (key :: rest) := by
  refine .ite (.ok _) ?_
  cases parseRange (argsFrom 0 rest) with
  | error code => exact .ok _
  | ok bounds => exact local_readScores now key _ _

theorem local_flush : Local Set.univ fun _ : Dataset => (.ok (_OK, empty) : Outcome) where
  frame _ k hk := absurd (Set.mem_univ k) hk
  agree _ h := by
    cases h
    exact ⟨_, rfl, fun _ _ => rfl⟩

theorem local_run (f : CommandPtr) (args : List (List UInt8)) :
    Local (footprint f args) fun m : Dataset => m.run now f args := by
  cases f with
  | getCommand =>
      cases args with
      | nil => exact .ok _
      | cons key args => exact local_get now key
  | setCommand =>
      cases args with
      | nil => exact .ok _
      | cons key args => exact local_set now key args
  | delCommand => exact local_del now args
  | pingCommand => exact .ok _
  | flushCommand => exact local_flush
  | getbitCommand =>
      rcases args with - | ⟨key, - | ⟨offset, args⟩⟩
      · exact .ok _
      · exact .ok _
      · exact local_getbit now key offset
  | setbitCommand =>
      rcases args with - | ⟨key, - | ⟨offset, - | ⟨value, args⟩⟩⟩
      · exact .ok _
      · exact .ok _
      · exact .ok _
      · exact local_setbit now key offset value
  | zaddCommand =>
      cases args with
      | nil => exact .ok _
      | cons key args => exact local_zadd now key args
  | zcardCommand =>
      cases args with
      | nil => exact .ok _
      | cons key args => exact local_readScores now key _ _
  | zcountCommand =>
      rcases args with - | ⟨key, - | ⟨left, - | ⟨right, args⟩⟩⟩
      · exact .ok _
      · exact .ok _
      · exact .ok _
      · exact local_readScores now key _ _
  | zrangeCommand =>
      cases args with
      | nil => exact .ok _
      | cons key args => exact local_zrange now key args
  | saveCommand => exact .ok _
  | loadCommand => exact .error _

/-- A request reads and writes nothing but its keys. -/
theorem local_request (tokens : List (List UInt8)) :
    Local (keysOf tokens) fun m : Dataset => m.request now tokens := by
  cases tokens with
  | nil => exact .error _
  | cons name args =>
      refine .ite (.error _) ?_
      rw [keysOf]
      cases commandOf (strUpCase name) with
      | none => exact .ok _
      | some cmd => exact .ite (local_run now cmd.f_ptr args) (.ok _)

theorem local_machine (r : Request) : Local (keysOf r.tokens) fun m => machine m r :=
  (local_request r.now r.tokens).map _

end Dataset

/-! ## Clients -/

section

variable {γ : Type} [DecidableEq γ]

def requestsOf (c : γ) (qs : List (γ × Request)) : List Request :=
  (qs.filter fun q => q.1 = c).map Prod.snd

def repliesTo (c : γ) (qs : List (γ × Request)) (outputs : List (List UInt8)) :
    List (List UInt8) :=
  ((qs.zip outputs).filter fun p => p.1.1 = c).map Prod.snd

/-- Whatever the order of the requests is, every client receives the replies of a server that it
has for itself. -/
theorem clients_isolated {keys : γ → Set (List UInt8)}
    (hdisjoint : Pairwise fun c d => Disjoint (keys c) (keys d)) {qs : List (γ × Request)}
    (howns : ∀ q ∈ qs, Dataset.keysOf q.2.tokens ⊆ keys q.1) {alone : γ → List (List UInt8)}
    (h : ∀ c, ∃ m, Dataset.machine.run Dataset.empty (requestsOf c qs) = .ok (alone c, m))
    (coins : ℕ → ℕ) (dump : Option (List UInt8)) (coins' : γ → ℕ → ℕ)
    (dump' : γ → Option (List UInt8)) :
    ∃ outputs t, server.run (started coins dump) (qs.map Prod.snd) = .ok (outputs, t) ∧
      ∀ c, repliesTo c qs outputs = alone c ∧
        ∃ u, server.run (started (coins' c) (dump' c)) (requestsOf c qs) = .ok (alone c, u) := by
  have hlocal : ∀ q : γ × Request, Local (Dataset.keysOf q.2.tokens) fun m =>
      Dataset.machine m q.2 := fun q => Dataset.local_machine q.2
  have halone : ∀ c, ∃ m, Machine.run (fun m (q : γ × Request) => Dataset.machine m q.2)
      Dataset.empty (qs.filter fun q => q.1 = c) = .ok (alone c, m) := by
    intro c
    obtain ⟨m, hrun⟩ := h c
    rw [requestsOf, Machine.run_map] at hrun
    exact ⟨m, hrun⟩
  obtain ⟨outputs, m, hrun, houtputs⟩ := Machine.run_interleaves hlocal hdisjoint howns
    (fun _ => Set.eqOn_refl _ _) halone
  rw [← Machine.run_map] at hrun
  obtain ⟨t, hserver, -⟩ := (represents_started coins dump).server_run hrun
  refine ⟨outputs, t, hserver, fun c => ⟨houtputs c, ?_⟩⟩
  obtain ⟨m', hrun'⟩ := h c
  obtain ⟨u, hserver', -⟩ := (represents_started (coins' c) (dump' c)).server_run hrun'
  exact ⟨u, hserver'⟩

end

/-- Two clients, one of them with two keys. -/
def sharedRequests : List (Bool × Request) := [
  (true, request ["SET", "a", "x"]), (false, request ["SETBIT", "b", "3", "1"]),
  (true, request ["ZADD", "z", "2", "m"]), (false, request ["SAVE"]),
  (false, request ["GETBIT", "b", "3"]), (true, request ["GET", "a"]),
  (false, request ["SET", "b", "y"]), (true, request ["DEL", "a", "z"]),
  (false, request ["ZCARD", "b"])]

def sharedKeys (c : Bool) : Set (List UInt8) :=
  {key | key ∈ if c then [ascii "a", ascii "z"] else [ascii "b"]}

def sharedReplies : Bool → List (List UInt8)
  | true => ["+OK\r\n", ":1\r\n", "$1\r\nx\r\n", ":2\r\n"].map ascii
  | false => [":0\r\n", "+OK\r\n", ":1\r\n", "+OK\r\n",
      "-WRONG_TYPE_OF_COMMAND_ON_TARGET_OBJECT\r\n"].map ascii

theorem clients_isolated_two : ∃ outputs t,
    server.run (started (fun _ => 0) none) (sharedRequests.map Prod.snd) = .ok (outputs, t) ∧
      ∀ c, repliesTo c sharedRequests outputs = sharedReplies c ∧
        ∃ u, server.run (started (fun _ => 1) none) (requestsOf c sharedRequests) =
          .ok (sharedReplies c, u) := by
  have hdisjoint : Pairwise fun c d => Disjoint (sharedKeys c) (sharedKeys d) := by
    have hab : Disjoint (sharedKeys true) (sharedKeys false) := Set.disjoint_left.2
      (by decide : ∀ key ∈ [ascii "a", ascii "z"], key ∉ [ascii "b"])
    rintro (_ | _) (_ | _) hne
    · exact absurd rfl hne
    · exact hab.symm
    · exact hab
    · exact absurd rfl hne
  have howns : ∀ q ∈ sharedRequests, Dataset.keysOf q.2.tokens ⊆ sharedKeys q.1 := by
    have hz : ascii "z" ∈ sharedKeys true := List.mem_cons_of_mem _ List.mem_cons_self
    simp only [sharedRequests, List.forall_mem_cons]
    refine ⟨?_, ?_, ?_, ?_, ?_, ?_, ?_, ?_, ?_, fun _ hq => absurd hq List.not_mem_nil⟩
    · exact Set.singleton_subset_iff.2 List.mem_cons_self
    · exact Set.singleton_subset_iff.2 List.mem_cons_self
    · exact Set.singleton_subset_iff.2 hz
    · exact Set.empty_subset _
    · exact Set.singleton_subset_iff.2 List.mem_cons_self
    · exact Set.singleton_subset_iff.2 List.mem_cons_self
    · exact Set.singleton_subset_iff.2 List.mem_cons_self
    · exact subset_rfl
    · exact Set.singleton_subset_iff.2 List.mem_cons_self
  have halone : ∀ c, ∃ m, Dataset.machine.run Dataset.empty (requestsOf c sharedRequests) =
      .ok (sharedReplies c, m) := by
    intro c
    have hreplies : (Dataset.machine.run Dataset.empty (requestsOf c sharedRequests)).map
        Prod.fst = .ok (sharedReplies c) := by
      cases c <;> decide +kernel
    obtain ⟨⟨replies, m⟩, hrun, rfl⟩ := Machine.map_eq_ok_iff.1 hreplies
    exact ⟨m, hrun⟩
  exact clients_isolated hdisjoint howns halone (fun _ => 0) none (fun _ _ => 1) fun _ => none

end Exoredis
