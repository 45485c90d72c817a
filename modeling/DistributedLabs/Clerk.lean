import DistributedLabs.KVServer
import DistributedLabs.Transition
import Mathlib.Tactic.Simps.Basic

/-!
Clerks of kvsrv1 calling one server over the labrpc network. A Call may report
failure while its request is still waiting to be executed, so a request outlives
the call that sent it. Requests are never forgotten: `reqs` and `ops` only grow,
and `status`, `rets` and `execs` record what became of them, with the step
counter as the clock. Each request is executed at most once.
-/
namespace DistributedLabs.Clerk

open KVServer Transition

/-- What Clerk.Get does with a reply: return it, or wait and send again. -/
def get (reply : GetReply) : Option GetReply :=
  match reply.err with
  | .ok => some ⟨reply.value, reply.version, .ok⟩
  | .errNoKey => some ⟨"", 0, .errNoKey⟩
  | _ => none

/-- What Clerk.Put does with a reply to its i-th RPC. -/
def put (i : UInt64) (reply : PutReply) : Option Err :=
  match reply.err with
  | .ok => some .ok
  | .errVersion => if i > 1 then some .errMaybe else some .errVersion
  | .errNoKey => some .errNoKey
  | _ => none

/-- A Get or Put of a clerk that has not returned; `rid` is the RPC it is
waiting for. Only Put looks at the counter `i`. -/
structure Call where
  opId : ℕ
  op : KvOp
  i : UInt64
  rid : Option ℕ
  deriving DecidableEq, Repr

def Call.finish (call : Call) : KvReply → Option KvReply
  | .get reply => (get reply).map .get
  | .put reply => (put call.i reply).map fun err => .put ⟨err⟩

structure Request where
  opId : ℕ
  op : KvOp
  deriving DecidableEq, Repr

inductive Status
  | sent
  | queued
  | served (reply : KvReply)
  | lost
  deriving DecidableEq, Repr

/-- A request that can still reach the server's map. -/
def Status.InFlight (st : Status) : Prop := st = .sent ∨ st = .queued

instance (st : Status) : Decidable st.InFlight :=
  inferInstanceAs (Decidable (_ ∨ _))

structure Invocation (ι : Type*) where
  client : ι
  op : KvOp
  call : ℕ
  deriving DecidableEq, Repr

structure Return where
  res : KvReply
  rid : ℕ
  time : ℕ
  deriving DecidableEq, Repr

structure Exec where
  rid : ℕ
  opId : ℕ
  op : KvOp
  reply : KvReply
  time : ℕ
  deriving DecidableEq, Repr

structure State (ι : Type*) where
  kv : KvMap
  opQ : List ℕ
  reqs : List Request
  status : ℕ → Status
  clerks : ι → Option Call
  ops : List (Invocation ι)
  rets : ℕ → Option Return
  execs : List Exec
  clock : ℕ

variable {ι : Type*}

def opQCap : ℕ := 256

def initial : State ι where
  kv := emptyKv
  opQ := []
  reqs := []
  status := fun _ => .sent
  clerks := fun _ => none
  ops := []
  rets := fun _ => none
  execs := []
  clock := 0

inductive Label (ι : Type*)
  | invoke (c : ι) (op : KvOp)
  | send (c : ι)
  | drop (rid : ℕ)
  | enqueue (rid : ℕ)
  | serve
  | fail (c : ι)
  | deliver (c : ι)

namespace State

variable [DecidableEq ι]

/-- The application calls Get or Put on its clerk. -/
@[simps]
def invoke (s : State ι) (c : ι) (op : KvOp) : State ι :=
  { s with
    clerks := Function.update s.clerks c (some ⟨s.ops.length, op, 0, none⟩)
    ops := s.ops ++ [⟨c, op, s.clock⟩]
    clock := s.clock + 1 }

/-- The clerk issues the next RPC of its call. -/
@[simps]
def send (s : State ι) (c : ι) (call : Call) : State ι :=
  { s with
    reqs := s.reqs ++ [⟨call.opId, call.op⟩]
    status := Function.update s.status s.reqs.length .sent
    clerks := Function.update s.clerks c
      (some { call with i := call.i + 1, rid := some s.reqs.length })
    clock := s.clock + 1 }

/-- The network drops a request before the handler runs. -/
@[simps]
def drop (s : State ι) (rid : ℕ) : State ι :=
  { s with
    status := Function.update s.status rid .lost
    clock := s.clock + 1 }

/-- The handler puts its operation on opQ. -/
@[simps]
def enqueue (s : State ι) (rid : ℕ) : State ι :=
  { s with
    opQ := s.opQ ++ [rid]
    status := Function.update s.status rid .queued
    clock := s.clock + 1 }

/-- The server goroutine takes the head of opQ and answers it. -/
@[simps]
def serveHead (s : State ι) (rid : ℕ) (rest : List ℕ) (q : Request) : State ι :=
  { s with
    kv := (KVServer.serve s.kv q.op).1
    opQ := rest
    status := Function.update s.status rid (.served (KVServer.serve s.kv q.op).2)
    execs := s.execs ++ [⟨rid, q.opId, q.op, (KVServer.serve s.kv q.op).2, s.clock⟩]
    clock := s.clock + 1 }

/-- Call reports failure, or the reply is one the clerk retries on. -/
@[simps]
def retry (s : State ι) (c : ι) (call : Call) : State ι :=
  { s with
    clerks := Function.update s.clerks c (some { call with rid := none })
    clock := s.clock + 1 }

/-- The clerk's Get or Put returns. -/
@[simps]
def finish (s : State ι) (c : ι) (call : Call) (rid : ℕ) (res : KvReply) : State ι :=
  { s with
    clerks := Function.update s.clerks c none
    rets := Function.update s.rets call.opId (some ⟨res, rid, s.clock⟩)
    clock := s.clock + 1 }

end State

variable [DecidableEq ι]

def step (s : State ι) : Label ι → Option (State ι)
  | .invoke c op =>
    match s.clerks c with
    | none => some (s.invoke c op)
    | some _ => none
  | .send c =>
    match s.clerks c with
    | some call => if call.rid = none then some (s.send c call) else none
    | none => none
  | .drop rid =>
    if rid < s.reqs.length ∧ s.status rid = .sent then some (s.drop rid) else none
  | .enqueue rid =>
    if rid < s.reqs.length ∧ s.status rid = .sent ∧ s.opQ.length < opQCap then
      some (s.enqueue rid)
    else none
  | .serve =>
    match s.opQ with
    | [] => none
    | rid :: rest => (s.reqs[rid]?).map (s.serveHead rid rest)
  | .fail c =>
    match s.clerks c with
    | some call => if call.rid = none then none else some (s.retry c call)
    | none => none
  | .deliver c =>
    match s.clerks c with
    | some call =>
      match call.rid with
      | some rid =>
        match s.status rid with
        | .served reply =>
          match call.finish reply with
          | some res => some (s.finish c call rid res)
          | none => some (s.retry c call)
        | _ => none
      | none => none
    | none => none

/-- What the clerk of `c` returns if the reply to its RPC is delivered now. -/
def answer (s : State ι) (c : ι) : Option KvReply :=
  match s.clerks c with
  | some call =>
    match call.rid with
    | some rid =>
      match s.status rid with
      | .served reply => call.finish reply
      | _ => none
    | none => none
  | none => none

def system : System (State ι) (Label ι) where
  start s := s = initial
  step := step

/-- What each label can do, with its guard. -/
inductive Step : State ι → Label ι → State ι → Prop
  | invoke (s : State ι) (c : ι) (op : KvOp) (hidle : s.clerks c = none) :
      Step s (.invoke c op) (s.invoke c op)
  | send (s : State ι) (c : ι) (call : Call) (hcall : s.clerks c = some call)
      (hrid : call.rid = none) : Step s (.send c) (s.send c call)
  | drop (s : State ι) (rid : ℕ) (hlt : rid < s.reqs.length)
      (hsent : s.status rid = .sent) : Step s (.drop rid) (s.drop rid)
  | enqueue (s : State ι) (rid : ℕ) (hlt : rid < s.reqs.length)
      (hsent : s.status rid = .sent) (hcap : s.opQ.length < opQCap) :
      Step s (.enqueue rid) (s.enqueue rid)
  | serve (s : State ι) (rid : ℕ) (rest : List ℕ) (q : Request)
      (hq : s.opQ = rid :: rest) (hreq : s.reqs[rid]? = some q) :
      Step s .serve (s.serveHead rid rest q)
  | fail (s : State ι) (c : ι) (call : Call) (rid : ℕ)
      (hcall : s.clerks c = some call) (hrid : call.rid = some rid) :
      Step s (.fail c) (s.retry c call)
  | again (s : State ι) (c : ι) (call : Call) (rid : ℕ) (reply : KvReply)
      (hcall : s.clerks c = some call) (hrid : call.rid = some rid)
      (hserved : s.status rid = .served reply) (hfin : call.finish reply = none) :
      Step s (.deliver c) (s.retry c call)
  | finish (s : State ι) (c : ι) (call : Call) (rid : ℕ) (reply res : KvReply)
      (hcall : s.clerks c = some call) (hrid : call.rid = some rid)
      (hserved : s.status rid = .served reply) (hfin : call.finish reply = some res) :
      Step s (.deliver c) (s.finish c call rid res)

theorem step_sound {s t : State ι} {l : Label ι} (h : step s l = some t) :
    Step s l t := by
  cases l with
  | invoke c op =>
    simp only [step] at h
    split at h
    · cases h
      exact .invoke s c op ‹_›
    · cases h
  | send c =>
    simp only [step] at h
    split at h
    · split at h
      · cases h
        exact .send s c _ ‹_› ‹_›
      · cases h
    · cases h
  | drop rid =>
    simp only [step] at h
    split at h
    · cases h
      rename_i hg
      exact .drop s rid hg.1 hg.2
    · cases h
  | enqueue rid =>
    simp only [step] at h
    split at h
    · cases h
      rename_i hg
      exact .enqueue s rid hg.1 hg.2.1 hg.2.2
    · cases h
  | serve =>
    simp only [step] at h
    split at h
    · cases h
    · obtain ⟨q, hq, rfl⟩ := Option.map_eq_some_iff.mp h
      exact .serve s _ _ q ‹_› hq
  | fail c =>
    simp only [step] at h
    split at h
    · rename_i call hcall
      split at h
      · cases h
      · cases h
        obtain ⟨rid, hrid⟩ := Option.ne_none_iff_exists'.mp ‹_›
        exact .fail s c call rid hcall hrid
    · cases h
  | deliver c =>
    simp only [step] at h
    split at h
    · split at h
      · split at h
        · split at h
          · cases h
            exact .finish s c _ _ _ _ ‹_› ‹_› ‹_› ‹_›
          · cases h
            exact .again s c _ _ _ ‹_› ‹_› ‹_› ‹_›
        · cases h
      · cases h
    · cases h

end DistributedLabs.Clerk
