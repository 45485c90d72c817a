import DistributedLabs.ClerkClients
import Mathlib.Algebra.BigOperators.Group.Finset.Basic

/-!
The clients of kvtest1 that race to put values to one key. Each runs
OneClientPut: OnePut after OnePut through its own clerk until it is told to
stop, counting those that ended OK and those that ended ErrMaybe. The program
counter names the clerk call of OnePut that is due or in progress; the clerks,
the network and the server are those of `Clerk`. A client that has not started
may use its clerk for anything but Puts on the key.
-/
namespace DistributedLabs.KvTest

open KVServer Transition

structure EntryV where
  id : ℤ
  v : Tversion
  deriving DecidableEq, Repr

/-- encoding/json on EntryV. -/
structure EntryCodec where
  marshal : EntryV → String
  unmarshal : String → Option EntryV
  unmarshal_marshal : ∀ e, unmarshal (marshal e) = some e

/-- The Fatalf calls of OnePut and GetJson, with what they print. -/
inductive Fatal
  | unmarshal (ver : Tversion)
  | get (me : ℤ) (key : String) (err : Err)
  | wrongError (err : Err)
  | wrongValue (e : EntryV)
  deriving DecidableEq, Repr

/-- The counters are Go ints, which wrap. -/
structure ClntRes where
  nok : Int64
  nmaybe : Int64
  deriving DecidableEq, Repr

/-- `select` is the head of OneClientPut's loop, with the version it keeps for
the key; `put` and `get` are the two clerk calls of OnePut. -/
inductive Pc
  | idle
  | select (ver : Tversion)
  | put (ver : Tversion)
  | get (ver : Tversion) (err : Err)
  | stopped
  | fatal (f : Fatal)
  deriving DecidableEq, Repr

/-- The key, the codec and the clients' numbers. -/
structure Setup (ι : Type*) where
  key : String
  codec : EntryCodec
  me : ι → ℤ

/-- Where OnePut goes when its clerk call returns. -/
inductive Next
  | go (pc : Pc)
  | returned (ver : Tversion) (ok : Bool)
  deriving DecidableEq, Repr

namespace Setup

variable {ι : Type*} (u : Setup ι)

/-- GetJson, given the reply of Clerk.Get. -/
def getJson (me : ℤ) (reply : GetReply) : Except Fatal (Tversion × EntryV) :=
  if reply.err = .ok then
    match u.codec.unmarshal reply.value with
    | some e => .ok (reply.version, e)
    | none => .error (.unmarshal reply.version)
  else .error (.get me u.key reply.err)

/-- The body of OnePut's loop, cut at its clerk calls. -/
def onePut (me : ℤ) : Pc → KvReply → Next
  | .put ver, .put reply =>
    if ¬ (reply.err = .ok ∨ reply.err = .errVersion ∨ reply.err = .errMaybe) then
      .go (.fatal (.wrongError reply.err))
    else .go (.get ver reply.err)
  | .get ver err, .get reply =>
    match u.getJson me reply with
    | .error f => .go (.fatal f)
    | .ok (ver0, e) =>
      if (err = .ok ∧ ver0 = ver + 1) ∧ e.id ≠ me ∧ e.v ≠ ver then
        .go (.fatal (.wrongValue e))
      else if err = .ok ∨ err = .errMaybe then .returned ver0 (err = .ok)
      else .go (.put ver0)
  | pc, _ => .go pc

/-- The clerk call OnePut makes at a program counter. -/
def op (c : ι) : Pc → Option KvOp
  | .put ver => some (.put ⟨u.key, u.codec.marshal ⟨u.me c, ver⟩, ver⟩)
  | .get _ _ => some (.get ⟨u.key⟩)
  | .idle => none
  | .select _ => none
  | .stopped => none
  | .fatal _ => none

end Setup

structure State (ι : Type*) where
  net : Clerk.State ι
  pc : ι → Pc
  res : ι → ClntRes

variable {ι : Type*}

def initial : State ι where
  net := Clerk.initial
  pc := fun _ => .idle
  res := fun _ => ⟨0, 0⟩

/-- `done` and `default` are the two cases of OneClientPut's select. -/
inductive Label (ι : Type*)
  | start (c : ι)
  | done (c : ι)
  | default (c : ι)
  | clerk (l : Clerk.Label ι)

/-- The request or the reply of a Call is lost. -/
def Label.Loses : Label ι → Prop
  | .clerk (.drop _) => True
  | .clerk (.fail _) => True
  | _ => False

instance : (l : Label ι) → Decidable l.Loses
  | .clerk (.drop _) => isTrue trivial
  | .clerk (.fail _) => isTrue trivial
  | .clerk (.invoke _ _) => isFalse id
  | .clerk (.send _) => isFalse id
  | .clerk (.enqueue _) => isFalse id
  | .clerk .serve => isFalse id
  | .clerk (.deliver _) => isFalse id
  | .start _ => isFalse id
  | .done _ => isFalse id
  | .default _ => isFalse id

variable [DecidableEq ι]

namespace State

def jump (s : State ι) (c : ι) (pc : Pc) : State ι :=
  { s with pc := Function.update s.pc c pc }

/-- OneClientPut counts a OnePut that returned. -/
def count (s : State ι) (c : ι) (ok : Bool) : State ι :=
  { s with
    res := Function.update s.res c
      (if ok then ⟨(s.res c).nok + 1, (s.res c).nmaybe⟩
        else ⟨(s.res c).nok, (s.res c).nmaybe + 1⟩) }

/-- Resume the code of `c` with the result of its clerk call. -/
def next (s : State ι) (c : ι) : Next → State ι
  | .go pc => s.jump c pc
  | .returned ver ok => (s.jump c (.select ver)).count c ok

end State

@[simp]
theorem net_next (s : State ι) (c : ι) (n : Next) : (s.next c n).net = s.net := by
  cases n <;> rfl

def clients (u : Setup ι) : Clerk.Clients ι (State ι) where
  net := State.net
  onNet s net := { s with net }
  due s c op := u.op c (s.pc c) = some op ∨ s.pc c = .idle ∧ op.PutsOn u.key = false
  decDue _ _ _ := inferInstance
  resume s c res := s.next c (u.onePut (u.me c) (s.pc c) res)
  net_onNet _ _ := rfl
  net_resume s c _ := net_next s c _

def step (u : Setup ι) (s : State ι) : Label ι → Option (State ι)
  | .start c =>
    if s.pc c = .idle ∧ s.net.clerks c = none then some (s.jump c (.select 0)) else none
  | .done c =>
    match s.pc c with
    | .select _ => some (s.jump c .stopped)
    | _ => none
  | .default c =>
    match s.pc c with
    | .select ver => some (s.jump c (.put ver))
    | _ => none
  | .clerk l => (clients u).step s l

def system (u : Setup ι) : System (State ι) (Label ι) where
  start s := s = initial
  step := step u

/-- What each label can do, with its guard. -/
inductive Step (u : Setup ι) : State ι → State ι → Prop
  | start (s : State ι) (c : ι) (hpc : s.pc c = .idle) (hidle : s.net.clerks c = none) :
      Step u s (s.jump c (.select 0))
  | done (s : State ι) (c : ι) (ver : Tversion) (hpc : s.pc c = .select ver) :
      Step u s (s.jump c .stopped)
  | default (s : State ι) (c : ι) (ver : Tversion) (hpc : s.pc c = .select ver) :
      Step u s (s.jump c (.put ver))
  | call (s : State ι) (c : ι) (op : KvOp)
      (hop : u.op c (s.pc c) = some op ∨ s.pc c = .idle ∧ op.PutsOn u.key = false)
      (hidle : s.net.clerks c = none) : Step u s { s with net := s.net.invoke c op }
  | inner (s : State ι) (net : Clerk.State ι) (h : Clerk.Inner s.net net) :
      Step u s { s with net }
  | ret (s : State ι) (c : ι) (call : Clerk.Call) (rid : ℕ) (reply res : KvReply)
      (hcall : s.net.clerks c = some call) (hrid : call.rid = some rid)
      (hserved : s.net.status rid = .served reply) (hfin : call.finish reply = some res) :
      Step u s ({ s with net := s.net.finish c call rid res }.next c
        (u.onePut (u.me c) (s.pc c) res))

variable {u : Setup ι} {s t : State ι}

theorem step_sound {l : Label ι} (h : step u s l = some t) : Step u s t := by
  cases l with
  | start c =>
    simp only [step] at h
    split at h
    · cases h
      rename_i hg
      exact .start s c hg.1 hg.2
    · cases h
  | done c =>
    simp only [step] at h
    split at h
    · cases h
      exact .done s c _ ‹_›
    · cases h
  | default c =>
    simp only [step] at h
    split at h
    · cases h
      exact .default s c _ ‹_›
    · cases h
  | clerk l =>
    cases Clerk.Clients.step_sound h with
    | call c op hdue hidle => exact .call s c op hdue hidle
    | inner l net hl hnet => exact .inner s net (.of_step hl hnet)
    | ret c call rid reply res hcall hrid hserved hfin =>
      exact .ret s c call rid reply res hcall hrid hserved hfin

/-- The clients' own steps leave the clerks alone. -/
theorem net_of_own {l : Label ι} (h : (system u).step s l = some t)
    (hl : ∀ l', l ≠ .clerk l') : t.net = s.net := by
  cases l with
  | clerk l => exact absurd rfl (hl l)
  | _ =>
    simp only [system, step] at h
    split at h
    · cases h
      rfl
    · cases h

theorem runs (u : Setup ι) : (clients u).Runs (system u) where
  start := by
    rintro s rfl
    rfl
  step := by
    intro s l t h
    cases l with
    | clerk l => exact Or.inr ⟨l, h⟩
    | _ => exact Or.inl (net_of_own h (by simp))

theorem net_reachable (h : (system u).Reachable s) : Clerk.system.Reachable s.net :=
  (runs u).net_reachable h

end DistributedLabs.KvTest
