import DistributedLabs.OneClientPut

/-!
The clients of kvtest1 that append to the list stored under "k". Each runs
OneClientAppend through its own clerk: iteration i reads the list, appends the
entry (me, i) and puts it back at the version it read, until Put ends OK or
ErrMaybe. The test's own clerk first stores the empty list with
PutAtLeastOnceJson and then spawns the clients; after that it puts no more to
the key. The clerks, the network and the server are those of `Clerk`.
-/
namespace DistributedLabs.KvAppend

open KVServer KvTest Transition

structure Entry where
  id : ℤ
  n : ℤ
  deriving DecidableEq, Repr

/-- encoding/json on lists of entries. -/
structure Codec where
  marshal : List Entry → String
  unmarshal : String → Option (List Entry)
  unmarshal_marshal : ∀ es, unmarshal (marshal es) = some es

theorem Codec.marshal_injective (u : Codec) : Function.Injective u.marshal := by
  intro es es' heq
  have h := u.unmarshal_marshal es
  rw [heq, u.unmarshal_marshal] at h
  exact (Option.some.inj h).symm

def key : String := "k"

/-- `select` is the head of the loop over i; `get` and `put` are the two clerk
calls of an attempt. -/
inductive Pc
  | idle
  | select (i : ℕ)
  | get (i : ℕ)
  | put (i : ℕ) (es : List Entry) (ver : Tversion)
  | stopped
  | fatal (f : Fatal)
  deriving DecidableEq, Repr

/-- PutAtLeastOnceJson, with the version it counts, and after it. -/
inductive MainPc
  | create (ver : Tversion)
  | ready (ver : Tversion)
  deriving DecidableEq, Repr

/-- Where OneClientAppend goes when its clerk call returns. -/
inductive Next
  | go (pc : Pc)
  | counted (ok : Bool) (i : ℕ)
  deriving DecidableEq, Repr

namespace Codec

variable (u : Codec)

/-- GetJson, given the reply of Clerk.Get. -/
def getJson (me : ℤ) (reply : GetReply) : Except Fatal (Tversion × List Entry) :=
  if reply.err = .ok then
    match u.unmarshal reply.value with
    | some es => .ok (reply.version, es)
    | none => .error (.unmarshal reply.version)
  else .error (.get me key reply.err)

/-- The Put of PutAtLeastOnceJson. -/
def create : PutArgs := ⟨key, u.marshal [], 0⟩

/-- The body of OneClientAppend's inner loop, cut at its clerk calls. -/
def oneClientAppend (me : ℤ) : Pc → KvReply → Next
  | .get i, .get reply =>
    match u.getJson me reply with
    | .error f => .go (.fatal f)
    | .ok (ver, es) => .go (.put i (es ++ [⟨me, i⟩]) ver)
  | .put i _ _, .put reply =>
    if reply.err = .ok then .counted true (i + 1)
    else if reply.err = .errMaybe then .counted false (i + 1)
    else .go (.get i)
  | pc, _ => .go pc

/-- The clerk call that is due at a program counter. -/
def op : Pc → Option KvOp
  | .get _ => some (.get ⟨key⟩)
  | .put _ es ver => some (.put ⟨key, u.marshal es, ver⟩)
  | .idle => none
  | .select _ => none
  | .stopped => none
  | .fatal _ => none

end Codec

/-- PutAtLeastOnceJson, given the error of its Put: only ErrMaybe is retried. -/
def putAtLeastOnceJson : MainPc → KvReply → MainPc
  | .create ver, .put reply => if reply.err ≠ .errMaybe then .ready ver else .create (ver + 1)
  | main, _ => main

/-- The clerks: those of the clients, and the test's own. -/
abbrev Clnt (nclnt : ℕ) := Option (Fin nclnt)

structure State (nclnt : ℕ) where
  net : Clerk.State (Clnt nclnt)
  main : MainPc
  pc : Fin nclnt → Pc
  res : Fin nclnt → ClntRes

variable {nclnt : ℕ}

def initial : State nclnt where
  net := Clerk.initial
  main := .create 0
  pc := fun _ => .idle
  res := fun _ => ⟨0, 0⟩

/-- `done` and `default` are the two cases of OneClientAppend's select. -/
inductive Label (nclnt : ℕ)
  | start (c : Fin nclnt)
  | done (c : Fin nclnt)
  | default (c : Fin nclnt)
  | clerk (l : Clerk.Label (Clnt nclnt))

/-- The clerk calls that may be made: those of the programs, and any use of the
test's clerk that puts nothing to the key once the clients are spawned. -/
def Allowed (u : Codec) (main : MainPc) (pc : Fin nclnt → Pc) (op : KvOp) : Clnt nclnt → Prop
  | some c => u.op (pc c) = some op
  | none =>
    match main with
    | .create _ => op = .put u.create
    | .ready _ => op.PutsOn key = false

instance (u : Codec) (main : MainPc) (pc : Fin nclnt → Pc) (op : KvOp) :
    (c : Clnt nclnt) → Decidable (Allowed u main pc op c)
  | some c => inferInstanceAs (Decidable (u.op (pc c) = some op))
  | none =>
    match main with
    | .create _ => inferInstanceAs (Decidable (op = .put u.create))
    | .ready _ => inferInstanceAs (Decidable (op.PutsOn key = false))

namespace State

def jump (s : State nclnt) (c : Fin nclnt) (pc : Pc) : State nclnt :=
  { s with pc := Function.update s.pc c pc }

/-- OneClientAppend counts an append that ended. -/
def count (s : State nclnt) (c : Fin nclnt) (ok : Bool) : State nclnt :=
  { s with
    res := Function.update s.res c
      (if ok then ⟨(s.res c).nok + 1, (s.res c).nmaybe⟩
        else ⟨(s.res c).nok, (s.res c).nmaybe + 1⟩) }

def next (s : State nclnt) (c : Fin nclnt) : Next → State nclnt
  | .go pc => s.jump c pc
  | .counted ok i => (s.jump c (.select i)).count c ok

/-- Resume the code behind a clerk with the result of its call. -/
def resume (u : Codec) (s : State nclnt) (res : KvReply) : Clnt nclnt → State nclnt
  | some c => s.next c (u.oneClientAppend c (s.pc c) res)
  | none => { s with main := putAtLeastOnceJson s.main res }

end State

@[simp]
theorem net_next (s : State nclnt) (c : Fin nclnt) (n : Next) : (s.next c n).net = s.net := by
  cases n <;> rfl

@[simp]
theorem net_resume (u : Codec) (s : State nclnt) (res : KvReply) (c : Clnt nclnt) :
    (s.resume u res c).net = s.net := by
  cases c with
  | none => rfl
  | some c => exact net_next s c _

def clients (u : Codec) : Clerk.Clients (Clnt nclnt) (State nclnt) where
  net := State.net
  onNet s net := { s with net }
  due s c op := Allowed u s.main s.pc op c
  decDue _ _ _ := inferInstance
  resume s c res := s.resume u res c
  net_onNet _ _ := rfl
  net_resume s c res := net_resume u s res c

def step (u : Codec) (s : State nclnt) : Label nclnt → Option (State nclnt)
  | .start c =>
    match s.main with
    | .ready _ => if s.pc c = .idle then some (s.jump c (.select 0)) else none
    | .create _ => none
  | .done c =>
    match s.pc c with
    | .select _ => some (s.jump c .stopped)
    | _ => none
  | .default c =>
    match s.pc c with
    | .select i => some (s.jump c (.get i))
    | _ => none
  | .clerk l => (clients u).step s l

def system (u : Codec) : System (State nclnt) (Label nclnt) where
  start s := s = initial
  step := step u

/-- What each label can do, with its guard. -/
inductive Step (u : Codec) : State nclnt → State nclnt → Prop
  | start (s : State nclnt) (c : Fin nclnt) (ver : Tversion) (hmain : s.main = .ready ver)
      (hpc : s.pc c = .idle) : Step u s (s.jump c (.select 0))
  | done (s : State nclnt) (c : Fin nclnt) (i : ℕ) (hpc : s.pc c = .select i) :
      Step u s (s.jump c .stopped)
  | default (s : State nclnt) (c : Fin nclnt) (i : ℕ) (hpc : s.pc c = .select i) :
      Step u s (s.jump c (.get i))
  | call (s : State nclnt) (c : Clnt nclnt) (op : KvOp) (hop : Allowed u s.main s.pc op c)
      (hidle : s.net.clerks c = none) : Step u s { s with net := s.net.invoke c op }
  | inner (s : State nclnt) (net : Clerk.State (Clnt nclnt)) (h : Clerk.Inner s.net net) :
      Step u s { s with net }
  | ret (s : State nclnt) (c : Clnt nclnt) (call : Clerk.Call) (rid : ℕ) (reply res : KvReply)
      (hcall : s.net.clerks c = some call) (hrid : call.rid = some rid)
      (hserved : s.net.status rid = .served reply) (hfin : call.finish reply = some res) :
      Step u s ({ s with net := s.net.finish c call rid res }.resume u res c)

variable {u : Codec} {s t : State nclnt}

theorem step_sound {l : Label nclnt} (h : step u s l = some t) : Step u s t := by
  cases l with
  | start c =>
    simp only [step] at h
    split at h
    · split at h
      · cases h
        exact .start s c _ ‹_› ‹_›
      · cases h
    · cases h
  | done c =>
    simp only [step] at h
    split at h
    · cases h
      exact .done s c _ ‹_›
    · cases h
  | default c =>
    simp only [step] at h
    split at h
    · cases h
      exact .default s c _ ‹_›
    · cases h
  | clerk l =>
    cases Clerk.Clients.step_sound h with
    | call c op hdue hidle => exact .call s c op hdue hidle
    | inner l net hl hnet => exact .inner s net (.of_step hl hnet)
    | ret c call rid reply res hcall hrid hserved hfin =>
      exact .ret s c call rid reply res hcall hrid hserved hfin

theorem runs (u : Codec) : (clients u).Runs (system u : System (State nclnt) (Label nclnt)) where
  start := by
    rintro s rfl
    rfl
  step := by
    intro s l t h
    cases l with
    | clerk l => exact Or.inr ⟨l, h⟩
    | start c =>
      left
      simp only [system, step] at h
      split at h
      · split at h
        · cases h
          rfl
        · cases h
      · cases h
    | _ =>
      left
      simp only [system, step] at h
      split at h
      · cases h
        rfl
      · cases h

theorem net_reachable (h : (system u).Reachable s) : Clerk.system.Reachable s.net :=
  (runs u).net_reachable h

end DistributedLabs.KvAppend
