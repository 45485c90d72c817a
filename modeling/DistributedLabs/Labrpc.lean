import DistributedLabs.Transition
import Mathlib.Data.Finset.Basic

/-!
The simulated network of labrpc. A Call hands its request to the network, which
runs processReq for it in a goroutine of its own; processReq samples the state
of the network under its lock, runs the handler in another goroutine, and
answers on the request's own reply channel. Drops, delays and what a handler
returns are choices of the labels. A channel operation and its partner are one
step, since the channels are unbuffered.
-/
namespace DistributedLabs.Labrpc

open Transition

structure ReqMsg (ε : Type*) where
  endname : ε
  svcMeth : String
  args : List UInt8
  deriving DecidableEq, Repr

structure ReplyMsg where
  ok : Bool
  reply : List UInt8
  deriving DecidableEq, Repr

/-- What a caller gets for a lost request or reply, or a dead server. -/
def ReplyMsg.failure : ReplyMsg := ⟨false, []⟩

/-- The tables of Network, by end name (`ε`) and server name (`ν`); `ω` stands
for the pointers to Server. -/
structure Network (ε ν ω : Type*) where
  reliable : Bool
  longReordering : Bool
  ends : Finset ε
  enabled : ε → Bool
  servers : ν → Option ω
  connections : ε → Option ν

/-- What readEndnameInfo returns. -/
structure Info (ν ω : Type*) where
  enabled : Bool
  servername : Option ν
  server : Option ω
  reliable : Bool
  longreordering : Bool

namespace Network

variable {ε ν ω : Type*}

def makeNetwork : Network ε ν ω where
  reliable := true
  longReordering := false
  ends := ∅
  enabled := fun _ => false
  servers := fun _ => none
  connections := fun _ => none

def readEndnameInfo (net : Network ε ν ω) (endname : ε) : Info ν ω where
  enabled := net.enabled endname
  servername := net.connections endname
  server := (net.connections endname).bind net.servers
  reliable := net.reliable
  longreordering := net.longReordering

def isServerDead [DecidableEq ω] (net : Network ε ν ω) (endname : ε) (servername : ν)
    (server : ω) : Bool :=
  net.enabled endname = false ∨ net.servers servername ≠ some server

/-- MakeEnd; an end name that exists is fatal. -/
def makeEnd [DecidableEq ε] (net : Network ε ν ω) (endname : ε) : Option (Network ε ν ω) :=
  if endname ∈ net.ends then none
  else some { net with
    ends := insert endname net.ends
    enabled := Function.update net.enabled endname false
    connections := Function.update net.connections endname none }

/-- DeleteEnd; an end name that does not exist is fatal. -/
def deleteEnd [DecidableEq ε] (net : Network ε ν ω) (endname : ε) : Option (Network ε ν ω) :=
  if endname ∈ net.ends then
    some { net with
      ends := net.ends.erase endname
      enabled := Function.update net.enabled endname false
      connections := Function.update net.connections endname none }
  else none

def addServer [DecidableEq ν] (net : Network ε ν ω) (servername : ν) (rs : ω) :
    Network ε ν ω :=
  { net with servers := Function.update net.servers servername (some rs) }

def deleteServer [DecidableEq ν] (net : Network ε ν ω) (servername : ν) : Network ε ν ω :=
  { net with servers := Function.update net.servers servername none }

def connect [DecidableEq ε] (net : Network ε ν ω) (endname : ε) (servername : ν) :
    Network ε ν ω :=
  { net with connections := Function.update net.connections endname (some servername) }

def enable [DecidableEq ε] (net : Network ε ν ω) (endname : ε) (enabled : Bool) :
    Network ε ν ω :=
  { net with enabled := Function.update net.enabled endname enabled }

end Network

/-- Calls that change the tables. -/
inductive Admin (ε ν ω : Type*)
  | makeEnd (endname : ε)
  | deleteEnd (endname : ε)
  | addServer (servername : ν) (rs : ω)
  | deleteServer (servername : ν)
  | connect (endname : ε) (servername : ν)
  | enable (endname : ε) (enabled : Bool)
  | reliable (yes : Bool)
  | longReordering (yes : Bool)

/-- The server that processReq found, and the settings it read with it. -/
structure Target (ν ω : Type*) where
  servername : ν
  server : ω
  reliable : Bool
  longreordering : Bool
  deriving DecidableEq, Repr

/-- A call of `dispatch` on a server, for the request of a Call. -/
structure Run (ν ω : Type*) where
  rid : ℕ
  servername : ν
  server : ω
  deriving DecidableEq, Repr

def Target.run {ν ω : Type*} (target : Target ν ω) (rid : ℕ) : Run ν ω :=
  ⟨rid, target.servername, target.server⟩

/-- Where a request is. From `waiting` on, `k` is the run whose result comes
over `ech`. -/
inductive Pc (ν ω : Type*)
  | calling
  | abandoned
  | accepted
  | live (target : Target ν ω)
  | unreachable
  | waiting (target : Target ν ω) (k : ℕ)
  | answered (target : Target ν ω) (k : ℕ) (reply : ReplyMsg)
  | deserted (target : Target ν ω)
  | replying (msg : ReplyMsg)
  | timer (msg : ReplyMsg)
  | ended
  deriving DecidableEq, Repr

/-- A Call; `ret` is what it returned, with the reply if that was true. -/
structure Call (ε ν ω : Type*) where
  req : ReqMsg ε
  pc : Pc ν ω
  ret : Option (Option (List UInt8))
  deriving DecidableEq, Repr

/-- `results k` is what run `k` returned. `sent` and `deleted` record the replies
and the instances that DeleteServer removed. -/
structure State (ε ν ω : Type*) where
  net : Network ε ν ω
  done : Bool
  serving : Bool
  ncalls : ℕ
  calls : ℕ → Option (Call ε ν ω)
  runs : List (Run ν ω)
  results : ℕ → Option ReplyMsg
  sent : List (ℕ × ReplyMsg)
  deleted : List (ν × ω)

variable {ε ν ω : Type*}

def initial : State ε ν ω where
  net := Network.makeNetwork
  done := false
  serving := true
  ncalls := 0
  calls := fun _ => none
  runs := []
  results := fun _ => none
  sent := []
  deleted := []

/-- What processReq does with a reply of a live server. -/
inductive Fate
  | drop
  | delay
  | send
  deriving DecidableEq, Repr

inductive Label (ε ν ω : Type*)
  | admin (a : Admin ε ν ω)
  | cleanup
  | stop
  | call (req : ReqMsg ε)
  | abandon (rid : ℕ)
  | accept (rid : ℕ)
  | pickUp (rid : ℕ)
  | schedule (rid : ℕ)
  | dropRequest (rid : ℕ)
  | dispatch (rid : ℕ)
  | finish (k : ℕ) (reply : ReplyMsg)
  | receive (rid : ℕ)
  | tick (rid : ℕ)
  | decide (rid : ℕ) (fate : Fate)
  | reply (rid : ℕ)

namespace State

def goto (s : State ε ν ω) (rid : ℕ) (c : Call ε ν ω) (pc : Pc ν ω) : State ε ν ω :=
  { s with calls := Function.update s.calls rid (some { c with pc }) }

/-- Call sends its request, or finds the network destroyed. -/
def begin (s : State ε ν ω) (req : ReqMsg ε) : State ε ν ω :=
  { s with
    ncalls := s.ncalls + 1
    calls := Function.update s.calls s.ncalls (some ⟨req, .calling, none⟩) }

def abandon (s : State ε ν ω) (rid : ℕ) (c : Call ε ν ω) : State ε ν ω :=
  { s with calls := Function.update s.calls rid (some ⟨c.req, .abandoned, some none⟩) }

/-- `go func() { r := server.dispatch(servername, req); ech <- r }()`. -/
def dispatch (s : State ε ν ω) (rid : ℕ) (c : Call ε ν ω) (target : Target ν ω) :
    State ε ν ω :=
  { s with
    calls := Function.update s.calls rid (some { c with pc := .waiting target s.runs.length })
    runs := s.runs ++ [target.run rid] }

def finish (s : State ε ν ω) (k : ℕ) (reply : ReplyMsg) : State ε ν ω :=
  { s with results := Function.update s.results k (some reply) }

/-- `req.replyCh <- msg`, and Call returns with it. -/
def sendReply (s : State ε ν ω) (rid : ℕ) (c : Call ε ν ω) (msg : ReplyMsg) : State ε ν ω :=
  { s with
    calls := Function.update s.calls rid
      (some ⟨c.req, .ended, some (if msg.ok then some msg.reply else none)⟩)
    sent := s.sent ++ [(rid, msg)] }

end State

/-- Where readEndnameInfo leads. -/
def Info.pc (info : Info ν ω) : Pc ν ω :=
  match info.enabled, info.servername, info.server with
  | true, some servername, some server =>
    .live ⟨servername, server, info.reliable, info.longreordering⟩
  | _, _, _ => .unreachable

/-- The end of processReq, after the last isServerDead. -/
def conclude (dead : Bool) (target : Target ν ω) (reply : ReplyMsg) : Fate → Option (Pc ν ω)
  | .drop =>
    if dead then none else if target.reliable then none else some (.replying .failure)
  | .delay =>
    if dead then none else if target.longreordering then some (.timer reply) else none
  | .send => some (.replying (if dead then .failure else reply))

/-- The server that processReq calls is the one registered for the end. -/
theorem readEndnameInfo_pc (net : Network ε ν ω) (endname : ε) :
    (net.readEndnameInfo endname).pc = .unreachable ∨
      ∃ target : Target ν ω, (net.readEndnameInfo endname).pc = .live target ∧
        net.connections endname = some target.servername ∧
        net.servers target.servername = some target.server := by
  cases hname : net.connections endname with
  | none =>
    left
    simp [Info.pc, Network.readEndnameInfo, hname]
  | some servername =>
    cases hserver : net.servers servername with
    | none =>
      left
      simp [Info.pc, Network.readEndnameInfo, hname, hserver]
    | some server =>
      cases henabled : net.enabled endname with
      | false =>
        left
        simp [Info.pc, Network.readEndnameInfo, henabled]
      | true =>
        right
        refine ⟨⟨servername, server, net.reliable, net.longReordering⟩, ?_, rfl, hserver⟩
        simp [Info.pc, Network.readEndnameInfo, hname, hserver, henabled]

/-- A reply passes only if the last look at the tables found the server alive. -/
theorem conclude_cases {dead : Bool} {target : Target ν ω} {reply : ReplyMsg} {fate : Fate}
    {pc : Pc ν ω} (h : conclude dead target reply fate = some pc) :
    ∃ msg, (pc = .replying msg ∨ pc = .timer msg) ∧
      (msg = .failure ∨ dead = false ∧ msg = reply) := by
  cases fate with
  | drop =>
    simp only [conclude, Option.ite_none_left_eq_some, Option.some.injEq] at h
    exact ⟨.failure, Or.inl h.2.2.symm, Or.inl rfl⟩
  | delay =>
    simp only [conclude, Option.ite_none_left_eq_some, Option.ite_none_right_eq_some,
      Option.some.injEq] at h
    exact ⟨reply, Or.inr h.2.2.symm, Or.inr ⟨by simpa using h.1, rfl⟩⟩
  | send =>
    obtain rfl := Option.some.inj h
    refine ⟨_, Or.inl rfl, ?_⟩
    cases dead with
    | true => exact Or.inl rfl
    | false => exact Or.inr ⟨rfl, rfl⟩

theorem isServerDead_eq_false [DecidableEq ω] {net : Network ε ν ω} {endname : ε}
    {servername : ν} {server : ω}
    (h : net.isServerDead endname servername server = false) :
    net.enabled endname = true ∧ net.servers servername = some server := by
  simpa [Network.isServerDead] using h

variable [DecidableEq ε] [DecidableEq ν] [DecidableEq ω]

/-- An instance that was deleted is not added again. -/
def admin (s : State ε ν ω) : Admin ε ν ω → Option (State ε ν ω)
  | .makeEnd endname => (s.net.makeEnd endname).map fun net => { s with net }
  | .deleteEnd endname => (s.net.deleteEnd endname).map fun net => { s with net }
  | .addServer servername rs =>
    if ∀ d ∈ s.deleted, d.2 ≠ rs then some { s with net := s.net.addServer servername rs }
    else none
  | .deleteServer servername => some { s with
      net := s.net.deleteServer servername
      deleted := s.deleted ++ ((s.net.servers servername).map fun rs => (servername, rs)).toList }
  | .connect endname servername => some { s with net := s.net.connect endname servername }
  | .enable endname enabled => some { s with net := s.net.enable endname enabled }
  | .reliable yes => some { s with net := { s.net with reliable := yes } }
  | .longReordering yes => some { s with net := { s.net with longReordering := yes } }

def step (s : State ε ν ω) : Label ε ν ω → Option (State ε ν ω)
  | .admin a => admin s a
  | .cleanup => some { s with done := true }
  | .stop => if s.done then some { s with serving := false } else none
  | .call req => some (s.begin req)
  | .abandon rid =>
    match s.calls rid with
    | some c => if c.pc = .calling ∧ s.done then some (s.abandon rid c) else none
    | none => none
  | .accept rid =>
    match s.calls rid with
    | some c => if c.pc = .calling ∧ s.serving then some (s.goto rid c .accepted) else none
    | none => none
  | .pickUp rid =>
    match s.calls rid with
    | some c =>
      if c.pc = .accepted then
        some (s.goto rid c (s.net.readEndnameInfo c.req.endname).pc)
      else none
    | none => none
  | .schedule rid =>
    match s.calls rid with
    | some c => if c.pc = .unreachable then some (s.goto rid c (.timer .failure)) else none
    | none => none
  | .dropRequest rid =>
    match s.calls rid with
    | some c =>
      match c.pc with
      | .live target =>
        if target.reliable then none else some (s.goto rid c (.replying .failure))
      | _ => none
    | none => none
  | .dispatch rid =>
    match s.calls rid with
    | some c =>
      match c.pc with
      | .live target => some (s.dispatch rid c target)
      | _ => none
    | none => none
  | .finish k reply =>
    if k < s.runs.length ∧ s.results k = none then some (s.finish k reply) else none
  | .receive rid =>
    match s.calls rid with
    | some c =>
      match c.pc with
      | .waiting target k => (s.results k).map fun reply => s.goto rid c (.answered target k reply)
      | _ => none
    | none => none
  | .tick rid =>
    match s.calls rid with
    | some c =>
      match c.pc with
      | .waiting target k =>
        if s.net.isServerDead c.req.endname target.servername target.server then
          some (s.goto rid c (.deserted target))
        else some (s.goto rid c (.waiting target k))
      | _ => none
    | none => none
  | .decide rid fate =>
    match s.calls rid with
    | some c =>
      match c.pc with
      | .answered target _ reply =>
        (conclude (s.net.isServerDead c.req.endname target.servername target.server) target
          reply fate).map (s.goto rid c)
      | .deserted _ => some (s.goto rid c (.replying .failure))
      | _ => none
    | none => none
  | .reply rid =>
    match s.calls rid with
    | some c =>
      match c.pc with
      | .replying msg => some (s.sendReply rid c msg)
      | .timer msg => some (s.sendReply rid c msg)
      | _ => none
    | none => none

def system : System (State ε ν ω) (Label ε ν ω) where
  start s := s = initial
  step := step

/-- What each label can do, with its guard. -/
inductive Step : State ε ν ω → Label ε ν ω → State ε ν ω → Prop
  | admin (s t : State ε ν ω) (a : Admin ε ν ω) (h : admin s a = some t) :
      Step s (.admin a) t
  | cleanup (s : State ε ν ω) : Step s .cleanup { s with done := true }
  | stop (s : State ε ν ω) : Step s .stop { s with serving := false }
  | call (s : State ε ν ω) (req : ReqMsg ε) : Step s (.call req) (s.begin req)
  | abandon (s : State ε ν ω) (rid : ℕ) (c : Call ε ν ω) (hc : s.calls rid = some c)
      (hpc : c.pc = .calling) : Step s (.abandon rid) (s.abandon rid c)
  | accept (s : State ε ν ω) (rid : ℕ) (c : Call ε ν ω) (hc : s.calls rid = some c)
      (hpc : c.pc = .calling) : Step s (.accept rid) (s.goto rid c .accepted)
  | pickUp (s : State ε ν ω) (rid : ℕ) (c : Call ε ν ω) (hc : s.calls rid = some c)
      (hpc : c.pc = .accepted) :
      Step s (.pickUp rid) (s.goto rid c (s.net.readEndnameInfo c.req.endname).pc)
  | schedule (s : State ε ν ω) (rid : ℕ) (c : Call ε ν ω) (hc : s.calls rid = some c)
      (hpc : c.pc = .unreachable) : Step s (.schedule rid) (s.goto rid c (.timer .failure))
  | dropRequest (s : State ε ν ω) (rid : ℕ) (c : Call ε ν ω) (target : Target ν ω)
      (hc : s.calls rid = some c) (hpc : c.pc = .live target) :
      Step s (.dropRequest rid) (s.goto rid c (.replying .failure))
  | dispatch (s : State ε ν ω) (rid : ℕ) (c : Call ε ν ω) (target : Target ν ω)
      (hc : s.calls rid = some c) (hpc : c.pc = .live target) :
      Step s (.dispatch rid) (s.dispatch rid c target)
  | finish (s : State ε ν ω) (k : ℕ) (reply : ReplyMsg) (hnone : s.results k = none) :
      Step s (.finish k reply) (s.finish k reply)
  | receive (s : State ε ν ω) (rid : ℕ) (c : Call ε ν ω) (target : Target ν ω) (k : ℕ)
      (reply : ReplyMsg) (hc : s.calls rid = some c) (hpc : c.pc = .waiting target k)
      (hres : s.results k = some reply) :
      Step s (.receive rid) (s.goto rid c (.answered target k reply))
  | wait (s : State ε ν ω) (rid : ℕ) (c : Call ε ν ω) (target : Target ν ω) (k : ℕ)
      (hc : s.calls rid = some c) (hpc : c.pc = .waiting target k) :
      Step s (.tick rid) (s.goto rid c (.waiting target k))
  | desert (s : State ε ν ω) (rid : ℕ) (c : Call ε ν ω) (target : Target ν ω) (k : ℕ)
      (hc : s.calls rid = some c) (hpc : c.pc = .waiting target k) :
      Step s (.tick rid) (s.goto rid c (.deserted target))
  | decide (s : State ε ν ω) (rid : ℕ) (c : Call ε ν ω) (target : Target ν ω) (k : ℕ)
      (reply : ReplyMsg) (fate : Fate) (pc : Pc ν ω) (hc : s.calls rid = some c)
      (hpc : c.pc = .answered target k reply)
      (hconclude : conclude (s.net.isServerDead c.req.endname target.servername target.server)
        target reply fate = some pc) :
      Step s (.decide rid fate) (s.goto rid c pc)
  | giveUp (s : State ε ν ω) (rid : ℕ) (c : Call ε ν ω) (target : Target ν ω) (fate : Fate)
      (hc : s.calls rid = some c) (hpc : c.pc = .deserted target) :
      Step s (.decide rid fate) (s.goto rid c (.replying .failure))
  | reply (s : State ε ν ω) (rid : ℕ) (c : Call ε ν ω) (msg : ReplyMsg)
      (hc : s.calls rid = some c) (hpc : c.pc = .replying msg ∨ c.pc = .timer msg) :
      Step s (.reply rid) (s.sendReply rid c msg)

theorem step_sound {s t : State ε ν ω} {l : Label ε ν ω} (h : step s l = some t) :
    Step s l t := by
  cases l with
  | admin a => exact .admin s t a h
  | cleanup =>
    cases h
    exact .cleanup s
  | stop =>
    simp only [step, Option.ite_none_right_eq_some, Option.some.injEq] at h
    obtain ⟨_, rfl⟩ := h
    exact .stop s
  | call req =>
    cases h
    exact .call s req
  | finish k reply =>
    simp only [step, Option.ite_none_right_eq_some, Option.some.injEq] at h
    obtain ⟨⟨_, hnone⟩, rfl⟩ := h
    exact .finish s k reply hnone
  | abandon rid =>
    cases hc : s.calls rid with
    | none => simp [step, hc] at h
    | some c =>
      simp only [step, hc, Option.ite_none_right_eq_some, Option.some.injEq] at h
      obtain ⟨⟨hpc, _⟩, rfl⟩ := h
      exact .abandon s rid c hc hpc
  | accept rid =>
    cases hc : s.calls rid with
    | none => simp [step, hc] at h
    | some c =>
      simp only [step, hc, Option.ite_none_right_eq_some, Option.some.injEq] at h
      obtain ⟨⟨hpc, _⟩, rfl⟩ := h
      exact .accept s rid c hc hpc
  | pickUp rid =>
    cases hc : s.calls rid with
    | none => simp [step, hc] at h
    | some c =>
      simp only [step, hc, Option.ite_none_right_eq_some, Option.some.injEq] at h
      obtain ⟨hpc, rfl⟩ := h
      exact .pickUp s rid c hc hpc
  | schedule rid =>
    cases hc : s.calls rid with
    | none => simp [step, hc] at h
    | some c =>
      simp only [step, hc, Option.ite_none_right_eq_some, Option.some.injEq] at h
      obtain ⟨hpc, rfl⟩ := h
      exact .schedule s rid c hc hpc
  | dropRequest rid =>
    cases hc : s.calls rid with
    | none => simp [step, hc] at h
    | some c =>
      simp only [step, hc] at h
      split at h
      · simp only [Option.ite_none_left_eq_some, Option.some.injEq] at h
        obtain ⟨_, rfl⟩ := h
        exact .dropRequest s rid c _ hc ‹_›
      · cases h
  | dispatch rid =>
    cases hc : s.calls rid with
    | none => simp [step, hc] at h
    | some c =>
      simp only [step, hc] at h
      split at h
      · cases h
        exact .dispatch s rid c _ hc ‹_›
      · cases h
  | receive rid =>
    cases hc : s.calls rid with
    | none => simp [step, hc] at h
    | some c =>
      simp only [step, hc] at h
      split at h
      · obtain ⟨reply, hres, rfl⟩ := Option.map_eq_some_iff.mp h
        exact .receive s rid c _ _ reply hc ‹_› hres
      · cases h
  | tick rid =>
    cases hc : s.calls rid with
    | none => simp [step, hc] at h
    | some c =>
      simp only [step, hc] at h
      split at h
      · split at h
        · cases h
          exact .desert s rid c _ _ hc ‹_›
        · cases h
          exact .wait s rid c _ _ hc ‹_›
      · cases h
  | decide rid fate =>
    cases hc : s.calls rid with
    | none => simp [step, hc] at h
    | some c =>
      simp only [step, hc] at h
      split at h
      · obtain ⟨pc, hconclude, rfl⟩ := Option.map_eq_some_iff.mp h
        exact .decide s rid c _ _ _ fate pc hc ‹_› hconclude
      · cases h
        exact .giveUp s rid c _ fate hc ‹_›
      · cases h
  | reply rid =>
    cases hc : s.calls rid with
    | none => simp [step, hc] at h
    | some c =>
      simp only [step, hc] at h
      split at h
      · cases h
        exact .reply s rid c _ hc (Or.inl ‹_›)
      · cases h
        exact .reply s rid c _ hc (Or.inr ‹_›)
      · cases h

/-- Changes of the tables leave calls, handlers and replies alone. -/
theorem admin_frame {s t : State ε ν ω} {a : Admin ε ν ω} (h : admin s a = some t) :
    t.ncalls = s.ncalls ∧ t.calls = s.calls ∧ t.runs = s.runs ∧ t.results = s.results ∧
      t.sent = s.sent := by
  cases a with
  | makeEnd endname =>
    obtain ⟨net, _, rfl⟩ := Option.map_eq_some_iff.mp h
    exact ⟨rfl, rfl, rfl, rfl, rfl⟩
  | deleteEnd endname =>
    obtain ⟨net, _, rfl⟩ := Option.map_eq_some_iff.mp h
    exact ⟨rfl, rfl, rfl, rfl, rfl⟩
  | addServer servername rs =>
    simp only [admin, Option.ite_none_right_eq_some, Option.some.injEq] at h
    obtain ⟨_, rfl⟩ := h
    exact ⟨rfl, rfl, rfl, rfl, rfl⟩
  | _ =>
    cases h
    exact ⟨rfl, rfl, rfl, rfl, rfl⟩

theorem admin_deleted {s t : State ε ν ω} {a : Admin ε ν ω} (h : admin s a = some t) :
    ∀ x ∈ s.deleted, x ∈ t.deleted := by
  cases a with
  | makeEnd endname =>
    obtain ⟨net, _, rfl⟩ := Option.map_eq_some_iff.mp h
    exact fun _ hx => hx
  | deleteEnd endname =>
    obtain ⟨net, _, rfl⟩ := Option.map_eq_some_iff.mp h
    exact fun _ hx => hx
  | addServer servername rs =>
    simp only [admin, Option.ite_none_right_eq_some, Option.some.injEq] at h
    obtain ⟨_, rfl⟩ := h
    exact fun _ hx => hx
  | deleteServer servername =>
    cases h
    exact fun _ hx => List.mem_append_left _ hx
  | _ =>
    cases h
    exact fun _ hx => hx

/-- Deletion is final, so a registered instance has never been deleted. -/
theorem admin_live {s t : State ε ν ω} {a : Admin ε ν ω} (h : admin s a = some t)
    (hs : ∀ n i, s.net.servers n = some i → (n, i) ∉ s.deleted) (n : ν) (i : ω)
    (hserver : t.net.servers n = some i) : (n, i) ∉ t.deleted := by
  cases a with
  | makeEnd endname =>
    obtain ⟨net, hnet, rfl⟩ := Option.map_eq_some_iff.mp h
    simp only [Network.makeEnd, Option.ite_none_left_eq_some, Option.some.injEq] at hnet
    obtain ⟨_, rfl⟩ := hnet
    exact hs n i hserver
  | deleteEnd endname =>
    obtain ⟨net, hnet, rfl⟩ := Option.map_eq_some_iff.mp h
    simp only [Network.deleteEnd, Option.ite_none_right_eq_some, Option.some.injEq] at hnet
    obtain ⟨_, rfl⟩ := hnet
    exact hs n i hserver
  | addServer servername rs =>
    simp only [admin, Option.ite_none_right_eq_some, Option.some.injEq] at h
    obtain ⟨hfresh, rfl⟩ := h
    by_cases hn : n = servername
    · subst hn
      obtain rfl : rs = i := by simpa [Network.addServer] using hserver
      intro hmem
      exact hfresh _ hmem rfl
    · exact hs n i (by simpa [Network.addServer, hn] using hserver)
  | deleteServer servername =>
    cases h
    by_cases hn : n = servername
    · subst hn
      simp [Network.deleteServer] at hserver
    · have hold : s.net.servers n = some i := by
        simpa [Network.deleteServer, hn] using hserver
      simp [hs n i hold, Ne.symm hn]
  | _ =>
    cases h
    exact hs n i hserver

end DistributedLabs.Labrpc
