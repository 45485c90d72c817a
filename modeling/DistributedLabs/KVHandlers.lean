import DistributedLabs.ClerkInvariants
import Mathlib.Data.Finset.Card
import Mathlib.Tactic.IntervalCases

/-!
The server of kvsrv1 with its goroutines and channels. The handler of a request puts its
operation on the buffered channel opQ and waits on a reply channel of its own; one goroutine
takes the operations from opQ, works on the map, and does not go on before the handler has
taken the reply. Seen without the channels this is the server of `Clerk`, which executes and
answers an operation in one step, and the handlers never wait for ever.
-/
namespace DistributedLabs.KVHandlers

open KVServer Transition Tables

/-- Where the handler of a request is: not started while the network has the request, at
`kv.opQ <- op`, or at `<-replyChan`. -/
inductive Handler
  | arriving
  | lost
  | sending
  | receiving
  | returned (reply : KvReply)
  deriving DecidableEq, Repr

/-- An element of opQ. The reply channel has the number of its request. -/
structure QueuedOp where
  req : Clerk.Request
  replyChan : ℕ
  deriving DecidableEq, Repr

/-- The goroutine of MakeKVServer: at `<-kv.opQ`, or at one of the sends on a reply channel. -/
inductive Goroutine
  | receiving
  | replying (replyChan : ℕ) (reply : KvReply)
  deriving DecidableEq, Repr

structure State (ι : Type*) where
  kv : KvMap
  opQ : List QueuedOp
  server : Goroutine
  handlers : ℕ → Handler
  reqs : List Clerk.Request
  clerks : ι → Option Clerk.Call
  ops : List (Clerk.Invocation ι)
  rets : ℕ → Option Clerk.Return
  execs : List Clerk.Exec
  clock : ℕ

variable {ι : Type*}

def initial : State ι where
  kv := emptyKv
  opQ := []
  server := .receiving
  handlers := fun _ => .arriving
  reqs := []
  clerks := fun _ => none
  ops := []
  rets := fun _ => none
  execs := []
  clock := 0

inductive Label (ι : Type*)
  | invoke (c : ι) (op : KvOp)
  | send (c : ι)
  | drop (rid : ℕ)
  | dispatch (rid : ℕ)
  | enqueue (rid : ℕ)
  | take
  | reply
  | fail (c : ι)
  | deliver (c : ι)

namespace State

def move (s : State ι) (rid : ℕ) (h : Handler) : State ι :=
  { s with handlers := Function.update s.handlers rid h }

def drop (s : State ι) (rid : ℕ) : State ι := { s.move rid .lost with clock := s.clock + 1 }

def enqueue (s : State ι) (rid : ℕ) (q : Clerk.Request) : State ι :=
  { s.move rid .receiving with opQ := s.opQ ++ [⟨q, rid⟩], clock := s.clock + 1 }

/-- The map is written before the reply is sent. -/
def take (s : State ι) (x : QueuedOp) (rest : List QueuedOp) : State ι :=
  { s with
    kv := (serve s.kv x.req.op).1
    opQ := rest
    server := .replying x.replyChan (serve s.kv x.req.op).2
    execs := s.execs ++
      [⟨x.replyChan, x.req.opId, x.req.op, (serve s.kv x.req.op).2, s.clock⟩]
    clock := s.clock + 1 }

/-- The goroutine and the handler meet at the unbuffered channel. -/
def meet (s : State ι) (rid : ℕ) (reply : KvReply) : State ι :=
  { s.move rid (.returned reply) with server := .receiving }

variable [DecidableEq ι]

def invoke (s : State ι) (c : ι) (op : KvOp) : State ι :=
  { s with
    clerks := Function.update s.clerks c (some ⟨s.ops.length, op, 0, none⟩)
    ops := s.ops ++ [⟨c, op, s.clock⟩]
    clock := s.clock + 1 }

def send (s : State ι) (c : ι) (call : Clerk.Call) : State ι :=
  { s.move s.reqs.length .arriving with
    reqs := s.reqs ++ [⟨call.opId, call.op⟩]
    clerks := Function.update s.clerks c
      (some { call with i := call.i + 1, rid := some s.reqs.length })
    clock := s.clock + 1 }

def retry (s : State ι) (c : ι) (call : Clerk.Call) : State ι :=
  { s with
    clerks := Function.update s.clerks c (some { call with rid := none })
    clock := s.clock + 1 }

def finish (s : State ι) (c : ι) (call : Clerk.Call) (rid : ℕ) (res : KvReply) : State ι :=
  { s with
    clerks := Function.update s.clerks c none
    rets := Function.update s.rets call.opId (some ⟨res, rid, s.clock⟩)
    clock := s.clock + 1 }

end State

variable [DecidableEq ι]

def step (s : State ι) : Label ι → Option (State ι)
  | .invoke c op =>
    match s.clerks c with
    | none => some (s.invoke c op)
    | some _ => none
  | .send c =>
    match s.clerks c with
    | some call => if call.rid = none then some (s.send c call) else none
    | none => none
  | .drop rid =>
    if rid < s.reqs.length ∧ s.handlers rid = .arriving then some (s.drop rid) else none
  | .dispatch rid =>
    if rid < s.reqs.length ∧ s.handlers rid = .arriving then some (s.move rid .sending)
    else none
  | .enqueue rid =>
    if s.handlers rid = .sending ∧ s.opQ.length < Clerk.opQCap then
      (s.reqs[rid]?).map (s.enqueue rid)
    else none
  | .take =>
    match s.server, s.opQ with
    | .receiving, x :: rest => some (s.take x rest)
    | _, _ => none
  | .reply =>
    match s.server with
    | .replying rid reply =>
      if s.handlers rid = .receiving then some (s.meet rid reply) else none
    | .receiving => none
  | .fail c =>
    match s.clerks c with
    | some call => if call.rid = none then none else some (s.retry c call)
    | none => none
  | .deliver c =>
    match s.clerks c with
    | some call =>
      match call.rid with
      | some rid =>
        match s.handlers rid with
        | .returned reply =>
          match call.finish reply with
          | some res => some (s.finish c call rid res)
          | none => some (s.retry c call)
        | _ => none
      | none => none
    | none => none

def system : System (State ι) (Label ι) where
  start s := s = initial
  step := step

/-- What each label can do, with its guard. -/
inductive Step (s : State ι) : State ι → Prop
  | invoke (c : ι) (op : KvOp) (hidle : s.clerks c = none) : Step s (s.invoke c op)
  | send (c : ι) (call : Clerk.Call) (hcall : s.clerks c = some call)
      (hrid : call.rid = none) : Step s (s.send c call)
  | drop (rid : ℕ) (hlt : rid < s.reqs.length) (harr : s.handlers rid = .arriving) :
      Step s (s.drop rid)
  | dispatch (rid : ℕ) (hlt : rid < s.reqs.length) (harr : s.handlers rid = .arriving) :
      Step s (s.move rid .sending)
  | enqueue (rid : ℕ) (q : Clerk.Request) (hsend : s.handlers rid = .sending)
      (hcap : s.opQ.length < Clerk.opQCap) (hreq : s.reqs[rid]? = some q) :
      Step s (s.enqueue rid q)
  | take (x : QueuedOp) (rest : List QueuedOp) (hserver : s.server = .receiving)
      (hq : s.opQ = x :: rest) : Step s (s.take x rest)
  | reply (rid : ℕ) (r : KvReply) (hserver : s.server = .replying rid r)
      (hrecv : s.handlers rid = .receiving) : Step s (s.meet rid r)
  | fail (c : ι) (call : Clerk.Call) (rid : ℕ) (hcall : s.clerks c = some call)
      (hrid : call.rid = some rid) : Step s (s.retry c call)
  | again (c : ι) (call : Clerk.Call) (rid : ℕ) (r : KvReply) (hcall : s.clerks c = some call)
      (hrid : call.rid = some rid) (hret : s.handlers rid = .returned r)
      (hfin : call.finish r = none) : Step s (s.retry c call)
  | finish (c : ι) (call : Clerk.Call) (rid : ℕ) (r res : KvReply)
      (hcall : s.clerks c = some call) (hrid : call.rid = some rid)
      (hret : s.handlers rid = .returned r) (hfin : call.finish r = some res) :
      Step s (s.finish c call rid res)

theorem step_sound {s t : State ι} {l : Label ι} (h : step s l = some t) : Step s t := by
  cases l with
  | invoke c op =>
    simp only [step] at h
    split at h
    · cases h
      exact .invoke c op ‹_›
    · cases h
  | send c =>
    simp only [step] at h
    split at h
    · split at h
      · cases h
        exact .send c _ ‹_› ‹_›
      · cases h
    · cases h
  | drop rid =>
    simp only [step] at h
    split at h
    · cases h
      rename_i hg
      exact .drop rid hg.1 hg.2
    · cases h
  | dispatch rid =>
    simp only [step] at h
    split at h
    · cases h
      rename_i hg
      exact .dispatch rid hg.1 hg.2
    · cases h
  | enqueue rid =>
    simp only [step] at h
    split at h
    · rename_i hg
      obtain ⟨q, hq, rfl⟩ := Option.map_eq_some_iff.mp h
      exact .enqueue rid q hg.1 hg.2 hq
    · cases h
  | take =>
    simp only [step] at h
    split at h
    · cases h
      exact .take _ _ ‹_› ‹_›
    · cases h
  | reply =>
    simp only [step] at h
    split at h
    · split at h
      · cases h
        exact .reply _ _ ‹_› ‹_›
      · cases h
    · cases h
  | fail c =>
    simp only [step] at h
    split at h
    · split at h
      · cases h
      · cases h
        rename_i call hcall hrid
        obtain ⟨rid, hrid'⟩ := Option.ne_none_iff_exists'.mp hrid
        exact .fail c call rid hcall hrid'
    · cases h
  | deliver c =>
    simp only [step] at h
    split at h
    · split at h
      · split at h
        · split at h
          · cases h
            exact .finish c _ _ _ _ ‹_› ‹_› ‹_› ‹_›
          · cases h
            exact .again c _ _ _ ‹_› ‹_› ‹_› ‹_›
        · cases h
      · cases h
    · cases h

section Abstraction

omit [DecidableEq ι]

/-- What the network knows of a request when the channels are left out: an operation counts as
answered as soon as the goroutine has worked on it. -/
def Handler.status (server : Goroutine) (rid : ℕ) : Handler → Clerk.Status
  | .arriving => .sent
  | .lost => .lost
  | .sending => .sent
  | .receiving =>
    match server with
    | .replying replyChan reply => if replyChan = rid then .served reply else .queued
    | .receiving => .queued
  | .returned reply => .served reply

def State.abs (s : State ι) : Clerk.State ι where
  kv := s.kv
  opQ := s.opQ.map QueuedOp.replyChan
  reqs := s.reqs
  status := fun rid => (s.handlers rid).status s.server rid
  clerks := s.clerks
  ops := s.ops
  rets := s.rets
  execs := s.execs
  clock := s.clock

/-- A handler waits on its reply channel exactly while its operation is in opQ or the goroutine
is about to answer it. -/
structure Linked (s : State ι) : Prop where
  started : ∀ rid, s.handlers rid ≠ .arriving → rid < s.reqs.length
  queued : ∀ x ∈ s.opQ, s.handlers x.replyChan = .receiving ∧ s.reqs[x.replyChan]? = some x.req
  nodup : (s.opQ.map QueuedOp.replyChan).Nodup
  replying : ∀ rid r, s.server = .replying rid r → s.handlers rid = .receiving ∧
    rid ∉ s.opQ.map QueuedOp.replyChan
  waiting : ∀ rid, s.handlers rid = .receiving →
    rid ∈ s.opQ.map QueuedOp.replyChan ∨ ∃ r, s.server = .replying rid r

namespace Linked

variable {s t : State ι}

theorem initial : Linked (initial : State ι) where
  started rid h := absurd rfl h
  queued x h := by simp [KVHandlers.initial] at h
  nodup := List.nodup_nil
  replying rid r h := by simp [KVHandlers.initial] at h
  waiting rid h := by simp [KVHandlers.initial] at h

theorem not_queued (hs : Linked s) {rid : ℕ} (h : s.handlers rid ≠ .receiving) :
    rid ∉ s.opQ.map QueuedOp.replyChan := by
  intro hmem
  obtain ⟨x, hx, rfl⟩ := List.mem_map.mp hmem
  exact h (hs.queued x hx).1

/-- The clerks' own steps do not touch the server. -/
theorem congr (hs : Linked s) (hopQ : t.opQ = s.opQ) (hserver : t.server = s.server)
    (hhandlers : t.handlers = s.handlers) (hreqs : t.reqs = s.reqs) : Linked t := by
  obtain ⟨h1, h2, h3, h4, h5⟩ := hs
  constructor
  · simpa only [hhandlers, hreqs] using h1
  · simpa only [hopQ, hhandlers, hreqs] using h2
  · simpa only [hopQ] using h3
  · simpa only [hserver, hhandlers, hopQ] using h4
  · simpa only [hserver, hhandlers, hopQ] using h5

/-- A handler moves that does not wait on its reply channel, before or after. -/
theorem move (hs : Linked s) {rid : ℕ} {h : Handler} (hlt : rid < s.reqs.length)
    (hold : s.handlers rid ≠ .receiving) (hnew : h ≠ .receiving) : Linked (s.move rid h) where
  started r hr := by
    by_cases hrr : r = rid
    · subst hrr
      exact hlt
    · exact hs.started r (by simpa [State.move, hrr] using hr)
  queued x hx := by
    have hne : x.replyChan ≠ rid := by
      rintro rfl
      exact hold (hs.queued x hx).1
    simpa [State.move, hne] using hs.queued x hx
  nodup := hs.nodup
  replying r reply hserver := by
    have hne : r ≠ rid := by
      rintro rfl
      exact hold (hs.replying r reply hserver).1
    simpa [State.move, hne] using hs.replying r reply hserver
  waiting r hr := by
    have hne : r ≠ rid := by
      rintro rfl
      simp [State.move, hnew] at hr
    exact hs.waiting r (by simpa [State.move, hne] using hr)

theorem send (hs : Linked s) [DecidableEq ι] (c : ι) (call : Clerk.Call) :
    Linked (s.send c call) := by
  have hfresh : s.handlers s.reqs.length = .arriving := by
    by_contra hne
    exact absurd (hs.started _ hne) (Nat.lt_irrefl _)
  have hsame : (s.send c call).handlers = s.handlers := by
    simp only [State.send, State.move]
    rw [← hfresh, Function.update_eq_self]
  constructor
  · intro rid hrid
    rw [hsame] at hrid
    have hlt := hs.started rid hrid
    simp only [State.send, List.length_append, List.length_singleton]
    omega
  · intro x hx
    obtain ⟨hrecv, hreq⟩ := hs.queued x hx
    rw [hsame]
    refine ⟨hrecv, ?_⟩
    simp only [State.send]
    rw [List.getElem?_append_left (getElem?_lt hreq)]
    exact hreq
  · exact hs.nodup
  · rw [hsame]
    exact hs.replying
  · rw [hsame]
    exact hs.waiting

theorem enqueue (hs : Linked s) {rid : ℕ} {q : Clerk.Request} (hsend : s.handlers rid = .sending)
    (hreq : s.reqs[rid]? = some q) : Linked (s.enqueue rid q) := by
  have hnot : rid ∉ s.opQ.map QueuedOp.replyChan := hs.not_queued (by simp [hsend])
  constructor
  · intro r hr
    by_cases hrr : r = rid
    · subst hrr
      exact getElem?_lt hreq
    · exact hs.started r (by simpa [State.enqueue, State.move, hrr] using hr)
  · intro x hx
    rcases List.mem_append.mp hx with hold | hnew
    · have hne : x.replyChan ≠ rid := by
        rintro rfl
        exact hnot (List.mem_map_of_mem hold)
      simpa [State.enqueue, State.move, hne] using hs.queued x hold
    · obtain rfl := List.mem_singleton.mp hnew
      simpa [State.enqueue, State.move] using hreq
  · simp only [State.enqueue, List.map_append, List.map_cons, List.map_nil]
    rw [List.nodup_append]
    refine ⟨hs.nodup, by simp, ?_⟩
    intro a ha b hb
    obtain rfl := List.mem_singleton.mp hb
    rintro rfl
    exact hnot ha
  · intro r reply hserver
    obtain ⟨hrecv, hnotin⟩ := hs.replying r reply hserver
    have hne : r ≠ rid := by
      rintro rfl
      rw [hsend] at hrecv
      cases hrecv
    refine ⟨by simpa [State.enqueue, State.move, hne] using hrecv, ?_⟩
    simpa [State.enqueue, hne] using hnotin
  · intro r hr
    by_cases hrr : r = rid
    · subst hrr
      exact Or.inl (by simp [State.enqueue])
    · rcases hs.waiting r (by simpa [State.enqueue, State.move, hrr] using hr) with hin | hans
      · exact Or.inl (by simpa [State.enqueue] using Or.inl (List.mem_map.mp hin))
      · exact Or.inr hans

theorem take (hs : Linked s) {x : QueuedOp} {rest : List QueuedOp}
    (hserver : s.server = .receiving) (hq : s.opQ = x :: rest) : Linked (s.take x rest) := by
  have hnodup := hs.nodup
  rw [hq, List.map_cons, List.nodup_cons] at hnodup
  constructor
  · exact hs.started
  · intro y hy
    exact hs.queued y (by rw [hq]; exact List.mem_cons_of_mem x hy)
  · exact hnodup.2
  · intro rid r hreply
    obtain ⟨rfl, _⟩ := Goroutine.replying.inj hreply
    exact ⟨(hs.queued x (by simp [hq])).1, hnodup.1⟩
  · intro rid hrid
    rcases hs.waiting rid hrid with hin | ⟨r, hr⟩
    · rw [hq, List.map_cons] at hin
      rcases List.mem_cons.mp hin with rfl | hrest
      · exact Or.inr ⟨_, rfl⟩
      · exact Or.inl hrest
    · rw [hserver] at hr
      cases hr

theorem meet (hs : Linked s) {rid : ℕ} {r : KvReply} (hserver : s.server = .replying rid r) :
    Linked (s.meet rid r) := by
  obtain ⟨hrecv, hnot⟩ := hs.replying rid r hserver
  constructor
  · intro r' hr'
    by_cases hrr : r' = rid
    · subst hrr
      exact hs.started r' (by simp [hrecv])
    · exact hs.started r' (by simpa [State.meet, State.move, hrr] using hr')
  · intro x hx
    have hne : x.replyChan ≠ rid := by
      rintro rfl
      exact hnot (List.mem_map_of_mem hx)
    simpa [State.meet, State.move, hne] using hs.queued x hx
  · exact hs.nodup
  · intro r' reply h
    simp [State.meet] at h
  · intro r' hr'
    have hne : r' ≠ rid := by
      rintro rfl
      simp [State.meet, State.move] at hr'
    rcases hs.waiting r' (by simpa [State.meet, State.move, hne] using hr') with hin | ⟨r₀, h⟩
    · exact Or.inl hin
    · rw [hserver] at h
      exact absurd (Goroutine.replying.inj h).1.symm hne

end Linked

variable {s : State ι}

/-- The handler of one request moves, and the answers of the others stay. -/
theorem status_update {handlers : ℕ → Handler} {server server' : Goroutine} {rid : ℕ}
    {h : Handler}
    (hother : ∀ r, r ≠ rid → (handlers r).status server' r = (handlers r).status server r) :
    (fun r => (Function.update handlers rid h r).status server' r) =
      Function.update (fun r => (handlers r).status server r) rid (h.status server' rid) := by
  funext r
  by_cases hr : r = rid
  · subst hr
    simp
  · simp [hr, hother r hr]

theorem abs_drop (s : State ι) (rid : ℕ) : (s.drop rid).abs = s.abs.drop rid := by
  simp only [State.abs, Clerk.State.drop, State.drop, State.move,
    status_update (fun _ _ => rfl)]
  rfl

theorem abs_dispatch {rid : ℕ} (harr : s.handlers rid = .arriving) :
    (s.move rid .sending).abs = s.abs := by
  simp only [State.abs, State.move, status_update (fun _ _ => rfl)]
  have hsame : Handler.sending.status s.server rid = (s.handlers rid).status s.server rid := by
    simp [harr, Handler.status]
  rw [hsame, Function.update_eq_self]

theorem abs_enqueue (hs : Linked s) {rid : ℕ} (q : Clerk.Request)
    (hsend : s.handlers rid = .sending) : (s.enqueue rid q).abs = s.abs.enqueue rid := by
  have hnew : Handler.receiving.status s.server rid = .queued := by
    cases hserver : s.server with
    | receiving => rfl
    | replying rid' r =>
      have hne : rid' ≠ rid := by
        rintro rfl
        have hrecv := (hs.replying rid' r hserver).1
        rw [hsend] at hrecv
        cases hrecv
      simp [Handler.status, hne]
  simp only [State.abs, Clerk.State.enqueue, State.enqueue, State.move,
    status_update (fun _ _ => rfl), hnew, List.map_append, List.map_cons, List.map_nil]

theorem abs_take (hs : Linked s) {x : QueuedOp} {rest : List QueuedOp}
    (hserver : s.server = .receiving) (hq : s.opQ = x :: rest) :
    (s.take x rest).abs = s.abs.serveHead x.replyChan (rest.map QueuedOp.replyChan) x.req := by
  have hrecv := (hs.queued x (by simp [hq])).1
  have hself : s.handlers = Function.update s.handlers x.replyChan .receiving := by
    rw [← hrecv, Function.update_eq_self]
  have hother : ∀ r, r ≠ x.replyChan →
      (s.handlers r).status (.replying x.replyChan (serve s.kv x.req.op).2) r =
        (s.handlers r).status s.server r := by
    intro r hr
    rw [hserver]
    cases s.handlers r <;> simp [Handler.status, hr.symm]
  have hstatus := status_update (h := .receiving) hother
  rw [← hself] at hstatus
  simp only [State.abs, Clerk.State.serveHead, State.take, hstatus]
  simp [Handler.status]

theorem abs_meet (hs : Linked s) {rid : ℕ} {r : KvReply}
    (hserver : s.server = .replying rid r) : (s.meet rid r).abs = s.abs := by
  have hrecv := (hs.replying rid r hserver).1
  have hother : ∀ r', r' ≠ rid →
      (s.handlers r').status .receiving r' = (s.handlers r').status s.server r' := by
    intro r' hr'
    rw [hserver]
    cases s.handlers r' <;> simp [Handler.status, hr'.symm]
  have hsame : (Handler.returned r).status .receiving rid =
      (s.handlers rid).status s.server rid := by
    simp [hrecv, hserver, Handler.status]
  simp only [State.abs, State.meet, State.move, status_update hother]
  rw [hsame, Function.update_eq_self]

end Abstraction

variable {s t : State ι}

theorem Linked.step (hs : Linked s) (h : Step s t) : Linked t := by
  cases h with
  | invoke c op hidle => exact hs.congr rfl rfl rfl rfl
  | send c call hcall hrid => exact hs.send c call
  | drop rid hlt harr =>
    have hmove : Linked (s.move rid .lost) := hs.move hlt (by simp [harr]) (by simp)
    exact hmove.congr rfl rfl rfl rfl
  | dispatch rid hlt harr => exact hs.move hlt (by simp [harr]) (by simp)
  | enqueue rid q hsend hcap hreq => exact hs.enqueue hsend hreq
  | take x rest hserver hq => exact hs.take hserver hq
  | reply rid r hserver hrecv => exact hs.meet hserver
  | fail c call rid hcall hrid => exact hs.congr rfl rfl rfl rfl
  | again c call rid r hcall hrid hret hfin => exact hs.congr rfl rfl rfl rfl
  | finish c call rid r res hcall hrid hret hfin => exact hs.congr rfl rfl rfl rfl

theorem Linked.of_reachable (h : system.Reachable s) : Linked s := by
  refine System.Reachable.invariant (I := Linked) ?_ ?_ h
  · rintro s rfl
    exact Linked.initial
  · intro s l t _ hs hstep
    exact hs.step (step_sound hstep)

section Simulation

theorem abs_send (s : State ι) (c : ι) (call : Clerk.Call) :
    (s.send c call).abs = s.abs.send c call := by
  simp only [State.abs, Clerk.State.send, State.send, State.move,
    status_update (fun _ _ => rfl)]
  rfl

/-- Every step is one of the clerks over the atomic server, or only a matter of the channels. -/
theorem abs_step (hs : Linked s) (h : Step s t) :
    t.abs = s.abs ∨ ∃ l, Clerk.step s.abs l = some t.abs := by
  cases h with
  | invoke c op hidle =>
    have hidle' : s.abs.clerks c = none := hidle
    exact Or.inr ⟨.invoke c op, by simp only [Clerk.step, hidle']; rfl⟩
  | send c call hcall hrid =>
    have hcall' : s.abs.clerks c = some call := hcall
    exact Or.inr ⟨.send c, by simp [Clerk.step, hcall', hrid, abs_send]⟩
  | drop rid hlt harr =>
    have hlt' : rid < s.abs.reqs.length := hlt
    have hsent : s.abs.status rid = .sent := by simp [State.abs, harr, Handler.status]
    exact Or.inr ⟨.drop rid, by simp [Clerk.step, hlt', hsent, abs_drop]⟩
  | dispatch rid hlt harr => exact Or.inl (abs_dispatch harr)
  | enqueue rid q hsend hcap hreq =>
    have hlt : rid < s.abs.reqs.length := getElem?_lt hreq
    have hsent : s.abs.status rid = .sent := by simp [State.abs, hsend, Handler.status]
    have hcap' : s.abs.opQ.length < Clerk.opQCap := by simpa [State.abs] using hcap
    exact Or.inr ⟨.enqueue rid, by simp [Clerk.step, hlt, hsent, hcap', abs_enqueue hs q hsend]⟩
  | take x rest hserver hq =>
    have hq' : s.abs.opQ = x.replyChan :: rest.map QueuedOp.replyChan := by
      simp [State.abs, hq]
    have hreq : s.abs.reqs[x.replyChan]? = some x.req := (hs.queued x (by simp [hq])).2
    exact Or.inr ⟨.serve, by simp [Clerk.step, hq', hreq, abs_take hs hserver hq]⟩
  | reply rid r hserver hrecv => exact Or.inl (abs_meet hs hserver)
  | fail c call rid hcall hrid =>
    have hcall' : s.abs.clerks c = some call := hcall
    exact Or.inr ⟨.fail c, by simp only [Clerk.step, hcall', hrid]; rfl⟩
  | again c call rid r hcall hrid hret hfin =>
    have hcall' : s.abs.clerks c = some call := hcall
    have hst : s.abs.status rid = .served r := by simp [State.abs, hret, Handler.status]
    exact Or.inr ⟨.deliver c, by simp only [Clerk.step, hcall', hrid, hst, hfin]; rfl⟩
  | finish c call rid r res hcall hrid hret hfin =>
    have hcall' : s.abs.clerks c = some call := hcall
    have hst : s.abs.status rid = .served r := by simp [State.abs, hret, Handler.status]
    exact Or.inr ⟨.deliver c, by simp only [Clerk.step, hcall', hrid, hst, hfin]; rfl⟩

theorem abs_reachable (h : system.Reachable s) : Clerk.system.Reachable s.abs := by
  refine System.Reachable.invariant (I := fun s => Clerk.system.Reachable s.abs) ?_ ?_ h
  · rintro s rfl
    exact ⟨_, rfl, .refl⟩
  · intro s l t hr hs hstep
    rcases abs_step (Linked.of_reachable hr) (step_sound hstep) with heq | ⟨l', hl'⟩
    · rw [heq]
      exact hs
    · exact hs.step hl'

/-- The server as it is written, with its goroutine, opQ and the reply channels, refines the
server that executes and answers in one step: clerks over it only do what they do over that
one, each handler returns the answer of the one execution of its operation, and the map is
what the executions make of an empty one. -/
theorem refines_atomic_server (h : system.Reachable s) :
    Clerk.system.Reachable s.abs ∧
      (∀ rid reply, s.handlers rid = .returned reply →
        ∃ e ∈ s.execs, e.rid = rid ∧ e.reply = reply ∧ ∀ e' ∈ s.execs, e'.rid = rid → e' = e) ∧
      s.kv = replay (s.execs.map Clerk.Exec.op) := by
  have hr := abs_reachable h
  have hwf := Clerk.WellFormed.of_reachable hr
  refine ⟨hr, ?_, ?_⟩
  · intro rid reply hret
    have hlt : rid < s.abs.reqs.length := (Linked.of_reachable h).started rid (by simp [hret])
    have hst : s.abs.status rid = .served reply := by simp [State.abs, hret, Handler.status]
    obtain ⟨e, he, hrid, hreply⟩ := hwf.served_exec rid reply hlt hst
    refine ⟨e, he, hrid, hreply, ?_⟩
    intro e' he' hrid'
    exact hwf.exec_unique he' he (hrid'.trans hrid.symm)
  · have hkv : s.kv = replay (s.abs.history.map Prod.fst) :=
      (Clerk.Served.of_reachable hr).kv_eq
    rw [hkv, Clerk.State.history, List.map_map]
    rfl

/-- Two Puts on one key are handled at the same time. The goroutine waits for the first handler
to take its reply while the second waits in opQ. -/
def twoHandlers : List (Label Bool) :=
  [.invoke false (.put ⟨"k", "a", 0⟩), .send false, .invoke true (.put ⟨"k", "b", 0⟩), .send true,
    .dispatch 1, .dispatch 0, .enqueue 1, .take, .enqueue 0]

theorem refines_atomic_server_twoHandlers :
    ∃ s : State Bool, system.Reachable s ∧ s.handlers 1 = .returned (.put ⟨.ok⟩) ∧
      s.handlers 0 = .receiving ∧ Clerk.system.Reachable s.abs ∧
      ∃ e ∈ s.execs, e.rid = 1 ∧ e.reply = .put ⟨.ok⟩ := by
  obtain ⟨s, hr, hp⟩ := System.Reachable.of_run_check (S := system) (twoHandlers ++ [.reply]) rfl
    (p := fun s : State Bool => decide (s.handlers 1 = .returned (.put ⟨.ok⟩) ∧
      s.handlers 0 = .receiving)) (by decide)
  obtain ⟨hone, hzero⟩ := of_decide_eq_true hp
  obtain ⟨habs, hexec, _⟩ := refines_atomic_server hr
  obtain ⟨e, he, hrid, hreply, _⟩ := hexec 1 _ hone
  exact ⟨s, hr, hone, hzero, habs, e, he, hrid, hreply⟩

end Simulation

section Progress

omit [DecidableEq ι]

/-- The steps of the goroutine and of the handlers that were started. -/
def Label.OfServer : Label ι → Prop
  | .enqueue _ => True
  | .take => True
  | .reply => True
  | _ => False

/-- The handlers at `kv.opQ <- op`. -/
def State.senders (s : State ι) : Finset ℕ :=
  (Finset.range s.reqs.length).filter fun rid => s.handlers rid = .sending

def Goroutine.work : Goroutine → ℕ
  | .receiving => 0
  | .replying _ _ => 1

/-- How many steps are left to the handlers that were started. -/
def State.work (s : State ι) : ℕ := 3 * s.senders.card + 2 * s.opQ.length + s.server.work

theorem senders_move {s : State ι} {rid : ℕ} {h : Handler} (hne : h ≠ .sending) :
    (s.move rid h).senders = s.senders.erase rid := by
  ext r
  simp only [State.senders, Finset.mem_erase, Finset.mem_filter]
  by_cases hr : r = rid
  · subst hr
    simp [State.move, hne]
  · simp [State.move, hr]

/-- The handler has been started and was not given up. -/
def Handler.Started (h : Handler) : Prop := h ≠ .arriving ∧ h ≠ .lost

variable [DecidableEq ι] {s t : State ι}

theorem work_step {l : Label ι} (hl : l.OfServer) (h : step s l = some t) :
    t.work < s.work := by
  cases l with
  | enqueue rid =>
    simp only [step] at h
    split at h
    · rename_i hg
      obtain ⟨q, hq, rfl⟩ := Option.map_eq_some_iff.mp h
      have hmem : rid ∈ s.senders := by simp [State.senders, hg.1, getElem?_lt hq]
      have hcard := Finset.card_erase_add_one hmem
      have hsend : (s.enqueue rid q).senders = s.senders.erase rid := senders_move (by simp)
      have hwork : (s.enqueue rid q).work =
          3 * (s.senders.erase rid).card + 2 * (s.opQ.length + 1) + s.server.work := by
        rw [State.work, hsend]
        simp [State.enqueue, State.move]
      rw [hwork, State.work]
      omega
    · cases h
  | take =>
    simp only [step] at h
    split at h
    · rename_i x rest hserver hq
      cases h
      have hwork : (s.take x rest).work = 3 * s.senders.card + 2 * rest.length + 1 := rfl
      rw [hwork, State.work, hq, hserver, List.length_cons]
      omega
    · cases h
  | reply =>
    simp only [step] at h
    split at h
    · rename_i rid r hserver
      split at h
      · rename_i hrecv
        cases h
        have hsend : (s.meet rid r).senders = s.senders := by
          have herase : (s.meet rid r).senders = s.senders.erase rid := senders_move (by simp)
          rw [herase, Finset.erase_eq_of_notMem (by simp [State.senders, hrecv])]
        have hwork : (s.meet rid r).work = 3 * s.senders.card + 2 * s.opQ.length + 0 := by
          rw [State.work, hsend]
          rfl
        rw [hwork, State.work, hserver]
        exact Nat.lt_succ_self _
      · cases h
    · cases h
  | _ => exact hl.elim

/-- The server stands still only when no handler waits. -/
theorem returned_of_stuck (hs : Linked s) (hstuck : ∀ l : Label ι, l.OfServer → step s l = none)
    {rid : ℕ} (h : (s.handlers rid).Started) : ∃ reply, s.handlers rid = .returned reply := by
  have hserver : s.server = .receiving := by
    cases hcase : s.server with
    | receiving => rfl
    | replying r reply =>
      have hnone := hstuck .reply trivial
      simp [step, hcase, (hs.replying r reply hcase).1] at hnone
  have hempty : s.opQ = [] := by
    cases hcase : s.opQ with
    | nil => rfl
    | cons x rest =>
      have hnone := hstuck .take trivial
      simp [step, hcase, hserver] at hnone
  cases hcase : s.handlers rid with
  | arriving => exact absurd hcase h.1
  | lost => exact absurd hcase h.2
  | sending =>
    have hlt : rid < s.reqs.length := hs.started rid (by simp [hcase])
    have hnone := hstuck (.enqueue rid) trivial
    simp [step, hcase, hempty, Clerk.opQCap, hlt] at hnone
  | receiving =>
    rcases hs.waiting rid hcase with hin | ⟨r, hr⟩
    · simp [hempty] at hin
    · rw [hserver] at hr
      cases hr
  | returned reply => exact ⟨reply, rfl⟩

theorem started_step {l : Label ι} (hl : l.OfServer) (h : step s l = some t) {rid : ℕ}
    (hs : (s.handlers rid).Started) : (t.handlers rid).Started := by
  have hmove : ∀ (r : ℕ) (x : Handler), x.Started →
      (Function.update s.handlers r x rid).Started := by
    intro r x hx
    by_cases hr : rid = r
    · subst hr
      simpa using hx
    · simpa [hr] using hs
  cases l with
  | enqueue r =>
    simp only [step] at h
    split at h
    · obtain ⟨q, _, rfl⟩ := Option.map_eq_some_iff.mp h
      exact hmove r .receiving ⟨by simp, by simp⟩
    · cases h
  | take =>
    simp only [step] at h
    split at h
    · cases h
      exact hs
    · cases h
  | reply =>
    simp only [step] at h
    split at h
    · split at h
      · cases h
        exact hmove _ _ ⟨by simp, by simp⟩
      · cases h
    · cases h
  | _ => exact hl.elim

/-- However the goroutine and the handlers are scheduled, they come to a stop after at most
`work` steps, and when they do every handler that was started has returned. -/
theorem handlers_return (h : system.Reachable s) {labels : List (Label ι)}
    (hl : ∀ l ∈ labels, l.OfServer) (hrun : system.run s labels = some t) :
    labels.length ≤ s.work ∧
      ((∀ l : Label ι, l.OfServer → step t l = none) → ∀ rid, (s.handlers rid).Started →
        ∃ reply, t.handlers rid = .returned reply) := by
  constructor
  · have hle := System.Reachable.length_run_le (P := Label.OfServer) (w := State.work)
      (fun u l v _ hl hstep => work_step hl hstep) labels hl h hrun
    omega
  · intro hstuck rid hs
    have ht : Linked t := Linked.of_reachable (h.reaches (system.reaches_of_run labels hrun))
    refine returned_of_stuck ht hstuck ?_
    refine System.run_invariant (S := system)
      (I := fun ls u => (∀ l ∈ ls, l.OfServer) → (u.handlers rid).Started)
      (fun _ => hs) ?_ hrun hl
    intro ls u l v _ ih hstep hls
    have hlast : l.OfServer := hls l (by simp)
    exact started_step hlast hstep (ih fun l' hl' => hls l' (by simp [hl']))

theorem handlers_return_twoHandlers :
    ∃ s t : State Bool, system.Reachable s ∧ system.run s [.reply, .take, .reply] = some t ∧
      3 ≤ s.work ∧ ∀ rid, rid = 0 ∨ rid = 1 → ∃ reply, t.handlers rid = .returned reply := by
  obtain ⟨s, hs, hp⟩ := System.Reachable.of_run_check (S := system) twoHandlers rfl
    (p := fun s : State Bool => (system.run s [.reply, .take, .reply]).any fun t : State Bool =>
      decide (s.handlers 0 = .receiving ∧ s.handlers 1 = .receiving ∧ t.opQ = [] ∧
        t.server = .receiving ∧ t.reqs.length = 2 ∧ t.handlers 0 ≠ .sending ∧
        t.handlers 1 ≠ .sending)) (by decide)
  obtain ⟨t, hrun, ht⟩ := (Option.any_eq_true _ _).mp hp
  obtain ⟨h0, h1, hq, hserver, hlen, ht0, ht1⟩ := of_decide_eq_true ht
  have hreach : (system : System (State Bool) (Label Bool)).Reachable t :=
    hs.reaches (system.reaches_of_run _ hrun)
  have hstuck : ∀ l : Label Bool, l.OfServer → step t l = none := by
    intro l hl
    cases l with
    | enqueue rid =>
      have hnot : t.handlers rid ≠ .sending := by
        intro hsend
        have hlt := (Linked.of_reachable hreach).started rid (by simp [hsend])
        rw [hlen] at hlt
        interval_cases rid
        · exact ht0 hsend
        · exact ht1 hsend
      simp [step, hnot]
    | take => simp [step, hserver, hq]
    | reply => simp [step, hserver]
    | _ => exact hl.elim
  obtain ⟨hle, hall⟩ := handlers_return hs
    (by simp [Label.OfServer]) hrun
  refine ⟨s, t, hs, hrun, by simpa using hle, ?_⟩
  rintro rid (rfl | rfl)
  · exact hall hstuck 0 (by simp [Handler.Started, h0])
  · exact hall hstuck 1 (by simp [Handler.Started, h1])

end Progress

end DistributedLabs.KVHandlers
