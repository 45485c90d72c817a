import DistributedLabs.LabrpcCalls

/-!
Shutting servers down and starting them again while calls are under way. A
server runs in a daemon with a Persister of its own, to which its handlers save.
ShutdownServer takes the server off the network, copies the Persister and kills
the daemon; the next daemon starts from the copy. What is saved after the copy
is lost, and the handlers that do so can still answer the tester, but none of
these answers reaches a caller.
-/
namespace DistributedLabs.Restarts

open Transition Tables

structure Persister where
  raftstate : List UInt8
  snapshot : List UInt8
  deriving DecidableEq, Repr

def makePersister : Persister := ⟨[], []⟩

/-- Save replaces both at once. -/
def Persister.save (ps : Persister) (raftstate snapshot : List UInt8) : Persister :=
  { ps with raftstate, snapshot }

def Persister.checkpoint (ps : Persister) : Persister :=
  { makePersister with raftstate := ps.raftstate, snapshot := ps.snapshot }

/-- How far StartServer and ShutdownServer are with a daemon. -/
inductive Stage
  | booted
  | serving
  | isolated
  | checkpointed
  deriving DecidableEq, Repr

/-- A daemon and the labrpc server that forwards to it. -/
structure Daemon (ω : Type*) where
  labsrv : ω
  persister : Persister
  stage : Stage

/-- The tester's Server; it has no daemon before StartServer and after
ShutdownServer. -/
structure Server (ω : Type*) where
  saved : Option Persister
  dc : Option (Daemon ω)

/-- A Save, by the run of a handler or by the server on its own. -/
structure Save where
  run : Option ℕ
  persister : Persister
  deriving DecidableEq, Repr

/-- `made` records the Saves of handlers, and `history n` the Saves in server
n's daemons until the copy of their Persister was taken. -/
structure State (ε ν ω : Type*) where
  net : Labrpc.State ε ν ω
  srvs : ν → Server ω
  made : List (ℕ × Persister)
  history : ν → List Save

variable {ε ν ω : Type*}

def initial : State ε ν ω where
  net := Labrpc.initial
  srvs := fun _ => ⟨none, none⟩
  made := []
  history := fun _ => []

inductive Label (ε ν ω : Type*)
  | boot (n : ν) (labsrv : ω)
  | register (n : ν) (labsrv : ω)
  | unregister (n : ν)
  | checkpoint (n : ν)
  | kill (n : ν)
  | save (n : ν) (run : Option ℕ) (raftstate snapshot : List UInt8)
  | net (l : Labrpc.Label ε ν ω)

/-- AddServer and DeleteServer, which only StartServer and ShutdownServer call. -/
def registers : Labrpc.Label ε ν ω → Bool
  | .admin (.addServer _ _) => true
  | .admin (.deleteServer _) => true
  | _ => false

/-- `dc.init(srv.saved)`, where startServer made an empty Persister if there is none. -/
def Server.start (srv : Server ω) (labsrv : ω) : Server ω :=
  let saved := srv.saved.getD makePersister
  ⟨some saved, some ⟨labsrv, makePersister.save saved.raftstate saved.snapshot, .booted⟩⟩

/-- `s.saved = p`, with the p that the daemon read off its Persister. -/
def Server.keep (d : Daemon ω) : Server ω :=
  let p := d.persister.checkpoint
  ⟨some (makePersister.save p.raftstate p.snapshot), some { d with stage := .checkpointed }⟩

/-- What the next daemon starts from, unless more is saved first. -/
def Server.recovery (srv : Server ω) : Persister :=
  match srv.dc with
  | none => srv.saved.getD makePersister
  | some d =>
    if d.stage = .checkpointed then srv.saved.getD makePersister else d.persister

namespace State

def lastSaved (s : State ε ν ω) (n : ν) : Persister :=
  ((s.history n).getLast?.map Save.persister).getD makePersister

/-- The run's handler is at work in the daemon of the server: it has not
returned. A result that is not ok says nothing about that. -/
def working [DecidableEq ν] [DecidableEq ω] (s : State ε ν ω) (n : ν) (labsrv : ω) (k : ℕ) :
    Bool :=
  match s.net.runs[k]? with
  | some run =>
    run.servername = n && run.server = labsrv && !(s.net.results k).any Labrpc.ReplyMsg.ok
  | none => false

variable [DecidableEq ν]

def setSrv (s : State ε ν ω) (n : ν) (srv : Server ω) : State ε ν ω :=
  { s with srvs := Function.update s.srvs n srv }

def save (s : State ε ν ω) (n : ν) (d : Daemon ω) (run : Option ℕ)
    (raftstate snapshot : List UInt8) : State ε ν ω :=
  let persister := d.persister.save raftstate snapshot
  { s with
    srvs := Function.update s.srvs n { s.srvs n with dc := some { d with persister } }
    made := s.made ++ (run.map fun k => (k, persister)).toList
    history := if d.stage = .checkpointed then s.history
      else Function.update s.history n (s.history n ++ [⟨run, persister⟩]) }

end State

/-- What is known of a server's record: where its daemon stands with the
network, and that a restart finds the last Save of its history. -/
structure Consistent (s : State ε ν ω) (n : ν) (srv : Server ω) : Prop where
  serving : ∀ d, srv.dc = some d → d.stage = .serving → s.net.net.servers n = some d.labsrv
  gone : ∀ d, srv.dc = some d → d.stage = .isolated ∨ d.stage = .checkpointed →
    (n, d.labsrv) ∈ s.net.deleted
  recovery : srv.recovery = s.lastSaved n

/-- Every Save of a handler is in the history, or its server was deleted before. -/
structure Sound (s : State ε ν ω) : Prop where
  srvs : ∀ n, Consistent s n (s.srvs n)
  made : ∀ k p, (k, p) ∈ s.made → ∃ run, s.net.runs[k]? = some run ∧
    (⟨some k, p⟩ ∈ s.history run.servername ∨ (run.servername, run.server) ∈ s.net.deleted)

section Records

variable {s t : State ε ν ω} {n : ν} {srv : Server ω} {d : Daemon ω}

theorem Consistent.mono (h : Consistent s n srv)
    (hservers : t.net.net.servers n = s.net.net.servers n)
    (hdeleted : ∀ x ∈ s.net.deleted, x ∈ t.net.deleted) (hhistory : t.history n = s.history n) :
    Consistent t n srv where
  serving d hd hstage := hservers.trans (h.serving d hd hstage)
  gone d hd hstage := hdeleted _ (h.gone d hd hstage)
  recovery := by
    rw [h.recovery, State.lastSaved, State.lastSaved, hhistory]

theorem recovery_start (srv : Server ω) (labsrv : ω) :
    (srv.start labsrv).recovery = srv.saved.getD makePersister := by
  simp [Server.start, Server.recovery, Persister.save]

theorem recovery_keep (d : Daemon ω) : (Server.keep d).recovery = d.persister := by
  simp [Server.keep, Server.recovery, Persister.save, Persister.checkpoint]

theorem recovery_of_ne (hd : srv.dc = some d) (hstage : d.stage ≠ .checkpointed) :
    srv.recovery = d.persister := by
  rw [Server.recovery, hd]
  exact if_neg hstage

/-- Up to the copy, the stage of the daemon does not matter. -/
theorem recovery_restage (hd : srv.dc = some d) (hstage : d.stage ≠ .checkpointed)
    {stage : Stage} (hnew : stage ≠ .checkpointed) :
    Server.recovery { srv with dc := some { d with stage } } = srv.recovery := by
  rw [recovery_of_ne hd hstage, recovery_of_ne rfl hnew]

theorem made_mono (hs : ∀ k p, (k, p) ∈ s.made → ∃ run, s.net.runs[k]? = some run ∧
      (⟨some k, p⟩ ∈ s.history run.servername ∨ (run.servername, run.server) ∈ s.net.deleted))
    (hruns : ∀ (k : ℕ) run, s.net.runs[k]? = some run → t.net.runs[k]? = some run)
    (hdeleted : ∀ x ∈ s.net.deleted, x ∈ t.net.deleted)
    (hhistory : ∀ m, ∀ e ∈ s.history m, e ∈ t.history m) :
    ∀ k p, (k, p) ∈ s.made → ∃ run, t.net.runs[k]? = some run ∧
      (⟨some k, p⟩ ∈ t.history run.servername ∨
        (run.servername, run.server) ∈ t.net.deleted) := by
  intro k p hp
  obtain ⟨run, hrun, hwhere⟩ := hs k p hp
  exact ⟨run, hruns k run hrun, hwhere.imp (hhistory _ _) (hdeleted _)⟩

variable [DecidableEq ν]

theorem forall_setSrv {P : ν → Server ω → Prop} (hself : P n srv)
    (hother : ∀ m, m ≠ n → P m (s.srvs m)) (m : ν) : P m ((s.setSrv n srv).srvs m) := by
  by_cases hm : m = n
  · subst hm
    simpa [State.setSrv] using hself
  · simpa [State.setSrv, hm] using hother m hm

/-- Steps that change one server's record and nothing else. -/
theorem Sound.setSrv (hs : Sound s) (hsrv : Consistent s n srv) : Sound (s.setSrv n srv) where
  srvs := by
    intro m
    have hold := forall_setSrv (P := Consistent s) hsrv (fun m _ => hs.srvs m) m
    exact hold.mono rfl (fun _ hx => hx) rfl
  made := hs.made

theorem Sound.boot (hs : Sound s) (labsrv : ω) (hdc : (s.srvs n).dc = none) :
    Sound (s.setSrv n ((s.srvs n).start labsrv)) := by
  refine hs.setSrv ⟨?_, ?_, ?_⟩
  · intro d hd hstage
    obtain rfl := Option.some.inj hd
    cases hstage
  · intro d hd hstage
    obtain rfl := Option.some.inj hd
    rcases hstage with hstage | hstage <;> cases hstage
  · rw [recovery_start, ← (hs.srvs n).recovery, Server.recovery, hdc]

theorem Sound.checkpoint (hs : Sound s) (hdc : (s.srvs n).dc = some d)
    (hstage : d.stage = .isolated) : Sound (s.setSrv n (Server.keep d)) := by
  refine hs.setSrv ⟨?_, ?_, ?_⟩
  · intro e he hstage
    obtain rfl := Option.some.inj he
    cases hstage
  · intro e he _
    obtain rfl := Option.some.inj he
    exact (hs.srvs n).gone d hdc (Or.inl hstage)
  · rw [recovery_keep, ← (hs.srvs n).recovery, recovery_of_ne hdc (by simp [hstage])]

theorem Sound.kill (hs : Sound s) (hdc : (s.srvs n).dc = some d)
    (hstage : d.stage = .checkpointed) :
    Sound (s.setSrv n { s.srvs n with dc := none }) := by
  refine hs.setSrv ⟨?_, ?_, ?_⟩
  · intro e he
    cases he
  · intro e he
    cases he
  · rw [← (hs.srvs n).recovery, Server.recovery, Server.recovery, hdc]
    exact (if_pos hstage).symm

theorem mem_history_save {m : ν} {e : Save} {run : Option ℕ} {raftstate snapshot : List UInt8}
    (he : e ∈ s.history m) : e ∈ (s.save n d run raftstate snapshot).history m := by
  simp only [State.save]
  split
  · exact he
  · by_cases hm : m = n
    · subst hm
      simp [he]
    · simpa [hm] using he

theorem Consistent.save (hs : Consistent s n (s.srvs n)) (hdc : (s.srvs n).dc = some d)
    (run : Option ℕ) (raftstate snapshot : List UInt8) :
    Consistent (s.save n d run raftstate snapshot) n
      ((s.save n d run raftstate snapshot).srvs n) := by
  have hsrv : (s.save n d run raftstate snapshot).srvs n =
      { s.srvs n with dc := some { d with persister := d.persister.save raftstate snapshot } } :=
    Function.update_self ..
  rw [hsrv]
  refine ⟨?_, ?_, ?_⟩
  · intro e he hstage
    obtain rfl := Option.some.inj he
    exact hs.serving d hdc hstage
  · intro e he hstage
    obtain rfl := Option.some.inj he
    exact hs.gone d hdc hstage
  · by_cases hstage : d.stage = .checkpointed
    · have hold := hs.recovery
      simp only [Server.recovery, hdc, if_pos hstage] at hold
      simp only [Server.recovery, if_pos hstage, State.lastSaved, State.save] at hold ⊢
      exact hold
    · simp [Server.recovery, State.lastSaved, State.save, hstage]

variable [DecidableEq ω]

theorem working_spec {k : ℕ} {labsrv : ω} (h : s.working n labsrv k = true) :
    (∃ rid, s.net.runs[k]? = some ⟨rid, n, labsrv⟩) ∧
      ∀ reply, s.net.results k ≠ some ⟨true, reply⟩ := by
  rw [State.working] at h
  split at h
  case h_1 run hrun =>
    simp only [Bool.and_eq_true, decide_eq_true_eq, Bool.not_eq_true'] at h
    obtain ⟨⟨rfl, rfl⟩, hresult⟩ := h
    refine ⟨⟨run.rid, hrun⟩, ?_⟩
    intro reply hreply
    simp [hreply] at hresult
  case h_2 => cases h

theorem Sound.save (hs : Sound s) (hdc : (s.srvs n).dc = some d) {run : Option ℕ}
    (hrun : ∀ k, run = some k → s.working n d.labsrv k = true)
    (raftstate snapshot : List UInt8) : Sound (s.save n d run raftstate snapshot) := by
  constructor
  · intro m
    by_cases hm : m = n
    · subst hm
      exact (hs.srvs m).save hdc run raftstate snapshot
    · have hsrv : (s.save n d run raftstate snapshot).srvs m = s.srvs m :=
        Function.update_of_ne hm ..
      rw [hsrv]
      refine (hs.srvs m).mono rfl (fun _ hx => hx) ?_
      simp only [State.save]
      split
      · rfl
      · exact Function.update_of_ne hm ..
  · intro k p hp
    rcases List.mem_append.mp hp with hold | hnew
    · exact made_mono (t := s.save n d run raftstate snapshot) hs.made (fun _ _ hk => hk)
        (fun _ hx => hx) (fun _ _ he => mem_history_save he) k p hold
    · obtain ⟨hk, rfl⟩ : run = some k ∧ d.persister.save raftstate snapshot = p := by
        simpa using hnew
      obtain ⟨⟨rid, hget⟩, _⟩ := working_spec (hrun k hk)
      refine ⟨⟨rid, n, d.labsrv⟩, hget, ?_⟩
      by_cases hstage : d.stage = .checkpointed
      · right
        exact (hs.srvs n).gone d hdc (Or.inr hstage)
      · left
        simp [State.save, hstage, hk]

end Records

variable [DecidableEq ε] [DecidableEq ν] [DecidableEq ω]

/-- One server is not started and shut down at the same time. -/
def step (s : State ε ν ω) : Label ε ν ω → Option (State ε ν ω)
  | .boot n labsrv =>
    if (s.srvs n).dc.isNone then some (s.setSrv n ((s.srvs n).start labsrv)) else none
  | .register n labsrv =>
    match (s.srvs n).dc with
    | some d =>
      if d.stage = .booted ∧ d.labsrv = labsrv then
        (Labrpc.admin s.net (.addServer n labsrv)).map fun net =>
          { s with net }.setSrv n { s.srvs n with dc := some { d with stage := .serving } }
      else none
    | none => none
  | .unregister n =>
    match (s.srvs n).dc with
    | some d =>
      if d.stage = .serving then
        (Labrpc.admin s.net (.deleteServer n)).map fun net =>
          { s with net }.setSrv n { s.srvs n with dc := some { d with stage := .isolated } }
      else none
    | none => (Labrpc.admin s.net (.deleteServer n)).map fun net => { s with net }
  | .checkpoint n =>
    match (s.srvs n).dc with
    | some d => if d.stage = .isolated then some (s.setSrv n (Server.keep d)) else none
    | none => none
  | .kill n =>
    match (s.srvs n).dc with
    | some d =>
      if d.stage = .checkpointed then some (s.setSrv n { s.srvs n with dc := none }) else none
    | none => none
  | .save n run raftstate snapshot =>
    match (s.srvs n).dc with
    | some d =>
      if run.all (s.working n d.labsrv) then some (s.save n d run raftstate snapshot) else none
    | none => none
  | .net l =>
    if registers l then none
    else (Labrpc.step s.net l).map fun net => { s with net }

def system : System (State ε ν ω) (Label ε ν ω) where
  start s := s = initial
  step := step

/-- What each label can do, with its guard. -/
inductive Step : State ε ν ω → Label ε ν ω → State ε ν ω → Prop
  | boot (s : State ε ν ω) (n : ν) (labsrv : ω) (hdc : (s.srvs n).dc = none) :
      Step s (.boot n labsrv) (s.setSrv n ((s.srvs n).start labsrv))
  | register (s : State ε ν ω) (n : ν) (d : Daemon ω) (net : Labrpc.State ε ν ω)
      (hdc : (s.srvs n).dc = some d) (hstage : d.stage = .booted)
      (hnet : Labrpc.admin s.net (.addServer n d.labsrv) = some net) :
      Step s (.register n d.labsrv)
        ({ s with net }.setSrv n { s.srvs n with dc := some { d with stage := .serving } })
  | unregister (s : State ε ν ω) (n : ν) (d : Daemon ω) (net : Labrpc.State ε ν ω)
      (hdc : (s.srvs n).dc = some d) (hstage : d.stage = .serving)
      (hnet : Labrpc.admin s.net (.deleteServer n) = some net) :
      Step s (.unregister n)
        ({ s with net }.setSrv n { s.srvs n with dc := some { d with stage := .isolated } })
  | absent (s : State ε ν ω) (n : ν) (net : Labrpc.State ε ν ω) (hdc : (s.srvs n).dc = none)
      (hnet : Labrpc.admin s.net (.deleteServer n) = some net) :
      Step s (.unregister n) { s with net }
  | checkpoint (s : State ε ν ω) (n : ν) (d : Daemon ω) (hdc : (s.srvs n).dc = some d)
      (hstage : d.stage = .isolated) : Step s (.checkpoint n) (s.setSrv n (Server.keep d))
  | kill (s : State ε ν ω) (n : ν) (d : Daemon ω) (hdc : (s.srvs n).dc = some d)
      (hstage : d.stage = .checkpointed) :
      Step s (.kill n) (s.setSrv n { s.srvs n with dc := none })
  | save (s : State ε ν ω) (n : ν) (d : Daemon ω) (run : Option ℕ)
      (raftstate snapshot : List UInt8) (hdc : (s.srvs n).dc = some d)
      (hrun : ∀ k, run = some k → s.working n d.labsrv k = true) :
      Step s (.save n run raftstate snapshot) (s.save n d run raftstate snapshot)
  | net (s : State ε ν ω) (l : Labrpc.Label ε ν ω) (net : Labrpc.State ε ν ω)
      (hl : registers l = false) (hnet : Labrpc.step s.net l = some net) :
      Step s (.net l) { s with net }

theorem step_sound {s t : State ε ν ω} {l : Label ε ν ω} (h : step s l = some t) :
    Step s l t := by
  cases l with
  | boot n labsrv =>
    simp only [step, Option.ite_none_right_eq_some, Option.isNone_iff_eq_none,
      Option.some.injEq] at h
    obtain ⟨hdc, rfl⟩ := h
    exact .boot s n labsrv hdc
  | register n labsrv =>
    cases hdc : (s.srvs n).dc with
    | none => simp [step, hdc] at h
    | some d =>
      simp only [step, hdc, Option.ite_none_right_eq_some, Option.map_eq_some_iff] at h
      obtain ⟨⟨hstage, rfl⟩, net, hnet, rfl⟩ := h
      exact .register s n d net hdc hstage hnet
  | unregister n =>
    cases hdc : (s.srvs n).dc with
    | none =>
      simp only [step, hdc, Option.map_eq_some_iff] at h
      obtain ⟨net, hnet, rfl⟩ := h
      exact .absent s n net hdc hnet
    | some d =>
      simp only [step, hdc, Option.ite_none_right_eq_some, Option.map_eq_some_iff] at h
      obtain ⟨hstage, net, hnet, rfl⟩ := h
      exact .unregister s n d net hdc hstage hnet
  | checkpoint n =>
    cases hdc : (s.srvs n).dc with
    | none => simp [step, hdc] at h
    | some d =>
      simp only [step, hdc, Option.ite_none_right_eq_some, Option.some.injEq] at h
      obtain ⟨hstage, rfl⟩ := h
      exact .checkpoint s n d hdc hstage
  | kill n =>
    cases hdc : (s.srvs n).dc with
    | none => simp [step, hdc] at h
    | some d =>
      simp only [step, hdc, Option.ite_none_right_eq_some, Option.some.injEq] at h
      obtain ⟨hstage, rfl⟩ := h
      exact .kill s n d hdc hstage
  | save n run raftstate snapshot =>
    cases hdc : (s.srvs n).dc with
    | none => simp [step, hdc] at h
    | some d =>
      simp only [step, hdc, Option.ite_none_right_eq_some, Option.some.injEq,
        Option.all_eq_true] at h
      obtain ⟨hrun, rfl⟩ := h
      exact .save s n d run raftstate snapshot hdc hrun
  | net l =>
    simp only [step, Option.ite_none_left_eq_some, Bool.not_eq_true,
      Option.map_eq_some_iff] at h
    obtain ⟨hl, net, hnet, rfl⟩ := h
    exact .net s l net hl hnet

/-- The step of the network in a step of the whole. -/
def Label.inner : Label ε ν ω → Option (Labrpc.Label ε ν ω)
  | .register n labsrv => some (.admin (.addServer n labsrv))
  | .unregister n => some (.admin (.deleteServer n))
  | .net l => some l
  | _ => none

theorem step_inner {s t : State ε ν ω} {l : Label ε ν ω} (h : Step s l t) :
    (∃ b, l.inner = some b ∧ Labrpc.step s.net b = some t.net) ∨
      (l.inner = none ∧ t.net = s.net) := by
  cases h with
  | register n d net hdc hstage hnet => exact Or.inl ⟨_, rfl, hnet⟩
  | unregister n d net hdc hstage hnet => exact Or.inl ⟨_, rfl, hnet⟩
  | absent n net hdc hnet => exact Or.inl ⟨_, rfl, hnet⟩
  | net l net hl hnet => exact Or.inl ⟨l, rfl, hnet⟩
  | boot => exact Or.inr ⟨rfl, rfl⟩
  | checkpoint => exact Or.inr ⟨rfl, rfl⟩
  | kill => exact Or.inr ⟨rfl, rfl⟩
  | save => exact Or.inr ⟨rfl, rfl⟩

/-- Apart from AddServer and DeleteServer, no step changes the servers. -/
theorem servers_of_not_registers {s t : Labrpc.State ε ν ω} {l : Labrpc.Label ε ν ω}
    (hl : registers l = false) (h : Labrpc.step s l = some t) :
    t.net.servers = s.net.servers ∧ t.deleted = s.deleted := by
  cases Labrpc.step_sound h with
  | admin _ a ha =>
    cases a with
    | makeEnd endname =>
      obtain ⟨net, hnet, rfl⟩ := Option.map_eq_some_iff.mp ha
      simp only [Labrpc.Network.makeEnd, Option.ite_none_left_eq_some, Option.some.injEq] at hnet
      obtain ⟨_, rfl⟩ := hnet
      exact ⟨rfl, rfl⟩
    | deleteEnd endname =>
      obtain ⟨net, hnet, rfl⟩ := Option.map_eq_some_iff.mp ha
      simp only [Labrpc.Network.deleteEnd, Option.ite_none_right_eq_some,
        Option.some.injEq] at hnet
      obtain ⟨_, rfl⟩ := hnet
      exact ⟨rfl, rfl⟩
    | addServer servername rs => cases hl
    | deleteServer servername => cases hl
    | _ =>
      cases ha
      exact ⟨rfl, rfl⟩
  | _ => exact ⟨rfl, rfl⟩

/-- Runs, their results and deletions are never taken back. -/
structure Kept (s t : Labrpc.State ε ν ω) : Prop where
  runs : ∀ (k : ℕ) run, s.runs[k]? = some run → t.runs[k]? = some run
  results : ∀ k reply, s.results k = some reply → t.results k = some reply
  deleted : ∀ x ∈ s.deleted, x ∈ t.deleted

omit [DecidableEq ε] [DecidableEq ν] [DecidableEq ω] in
theorem Kept.refl (s : Labrpc.State ε ν ω) : Kept s s :=
  ⟨fun _ _ hk => hk, fun _ _ hk => hk, fun _ hx => hx⟩

omit [DecidableEq ε] [DecidableEq ν] [DecidableEq ω] in
theorem Kept.trans {s t u : Labrpc.State ε ν ω} (h : Kept s t) (h' : Kept t u) : Kept s u :=
  ⟨fun k run hk => h'.runs k run (h.runs k run hk),
    fun k reply hk => h'.results k reply (h.results k reply hk),
    fun x hx => h'.deleted x (h.deleted x hx)⟩

theorem Kept.of_step {s t : Labrpc.State ε ν ω} {l : Labrpc.Label ε ν ω}
    (h : Labrpc.step s l = some t) : Kept s t := by
  cases Labrpc.step_sound h with
  | admin _ a ha =>
    obtain ⟨_, _, hruns, hresults, _⟩ := Labrpc.admin_frame ha
    refine ⟨?_, ?_, Labrpc.admin_deleted ha⟩
    · rw [hruns]
      exact fun _ _ hk => hk
    · rw [hresults]
      exact fun _ _ hk => hk
  | dispatch rid c target hc hpc =>
    exact ⟨fun k run hk => getElem?_append_of_some _ hk, fun _ _ hk => hk, fun _ hx => hx⟩
  | finish k reply hnone =>
    refine ⟨fun _ _ hk => hk, fun k' reply' hk => ?_, fun _ hx => hx⟩
    have hne : k' ≠ k := by
      rintro rfl
      rw [hnone] at hk
      cases hk
    simpa [Labrpc.State.finish, hne] using hk
  | _ => exact ⟨fun _ _ hk => hk, fun _ _ hk => hk, fun _ hx => hx⟩

theorem Kept.of_run {labels : List (Label ε ν ω)} {s t : State ε ν ω}
    (h : system.run s labels = some t) : Kept s.net t.net := by
  refine System.run_invariant (I := fun _ t => Kept s.net t.net) (Kept.refl s.net) ?_ h
  intro labels t l u _ hs hstep
  rcases step_inner (step_sound hstep) with ⟨b, _, hb⟩ | ⟨_, hnet⟩
  · exact hs.trans (Kept.of_step hb)
  · rwa [hnet]

section Steps

variable {s t : State ε ν ω} {n : ν} {srv : Server ω} {d : Daemon ω} {net' : Labrpc.State ε ν ω}

theorem Sound.register (hs : Sound s) (hdc : (s.srvs n).dc = some d)
    (hstage : d.stage = .booted)
    (hnet : Labrpc.admin s.net (.addServer n d.labsrv) = some net') :
    Sound ({ s with net := net' }.setSrv n
      { s.srvs n with dc := some { d with stage := .serving } }) := by
  simp only [Labrpc.admin, Option.ite_none_right_eq_some, Option.some.injEq] at hnet
  obtain ⟨_, rfl⟩ := hnet
  refine ⟨forall_setSrv ⟨?_, ?_, ?_⟩ ?_, hs.made⟩
  · intro e he _
    obtain rfl := Option.some.inj he
    simp [State.setSrv, Labrpc.Network.addServer]
  · intro e he hstage
    obtain rfl := Option.some.inj he
    rcases hstage with hstage | hstage <;> cases hstage
  · exact (recovery_restage hdc (by simp [hstage]) (by simp)).trans (hs.srvs n).recovery
  · intro m hm
    refine (hs.srvs m).mono ?_ (fun _ hx => hx) rfl
    simp [State.setSrv, Labrpc.Network.addServer, hm]

/-- DeleteServer records the server that was registered. -/
theorem deleteServer_spec (hnet : Labrpc.admin s.net (.deleteServer n) = some net') :
    (∀ m, m ≠ n → net'.net.servers m = s.net.net.servers m) ∧
      (∀ x ∈ s.net.deleted, x ∈ net'.deleted) ∧ net'.runs = s.net.runs ∧
      ∀ i, s.net.net.servers n = some i → (n, i) ∈ net'.deleted := by
  cases hnet
  refine ⟨?_, ?_, rfl, ?_⟩
  · intro m hm
    simp [Labrpc.Network.deleteServer, hm]
  · intro x hx
    exact List.mem_append_left _ hx
  · intro i hi
    simp [hi]

theorem Sound.unregister (hs : Sound s) (hdc : (s.srvs n).dc = some d)
    (hstage : d.stage = .serving) (hnet : Labrpc.admin s.net (.deleteServer n) = some net') :
    Sound ({ s with net := net' }.setSrv n
      { s.srvs n with dc := some { d with stage := .isolated } }) := by
  obtain ⟨hservers, hdeleted, hruns, hgone⟩ := deleteServer_spec hnet
  refine ⟨forall_setSrv ⟨?_, ?_, ?_⟩ ?_, ?_⟩
  · intro e he hstage
    obtain rfl := Option.some.inj he
    cases hstage
  · intro e he _
    obtain rfl := Option.some.inj he
    exact hgone d.labsrv ((hs.srvs n).serving d hdc hstage)
  · exact (recovery_restage hdc (by simp [hstage]) (by simp)).trans (hs.srvs n).recovery
  · intro m hm
    exact (hs.srvs m).mono (hservers m hm) hdeleted rfl
  · refine made_mono (s := s) hs.made ?_ hdeleted fun _ _ he => he
    intro k run hk
    exact hruns ▸ hk

theorem Sound.absent (hs : Sound s) (hdc : (s.srvs n).dc = none)
    (hnet : Labrpc.admin s.net (.deleteServer n) = some net') : Sound { s with net := net' } := by
  obtain ⟨hservers, hdeleted, hruns, _⟩ := deleteServer_spec hnet
  refine ⟨fun m => ?_, ?_⟩
  · by_cases hm : m = n
    · subst hm
      refine ⟨?_, ?_, (hs.srvs m).recovery⟩
      · intro d hd
        rw [hdc] at hd
        cases hd
      · intro d hd
        rw [hdc] at hd
        cases hd
    · exact (hs.srvs m).mono (hservers m hm) hdeleted rfl
  · refine made_mono (s := s) hs.made ?_ hdeleted fun _ _ he => he
    intro k run hk
    exact hruns ▸ hk

theorem Sound.net (hs : Sound s) {l : Labrpc.Label ε ν ω} (hl : registers l = false)
    (hnet : Labrpc.step s.net l = some net') : Sound { s with net := net' } := by
  obtain ⟨hservers, hdeleted⟩ := servers_of_not_registers hl hnet
  have hmem : ∀ x ∈ s.net.deleted, x ∈ net'.deleted := by
    rw [hdeleted]
    exact fun _ hx => hx
  constructor
  · intro m
    exact (hs.srvs m).mono (congrFun hservers m) hmem rfl
  · exact made_mono (s := s) hs.made (Kept.of_step hnet).runs hmem fun _ _ he => he

theorem Sound.step (hs : Sound s) {l : Label ε ν ω} (h : Step s l t) : Sound t := by
  cases h with
  | boot n labsrv hdc => exact hs.boot labsrv hdc
  | register n d net hdc hstage hnet => exact hs.register hdc hstage hnet
  | unregister n d net hdc hstage hnet => exact hs.unregister hdc hstage hnet
  | absent n net hdc hnet => exact hs.absent hdc hnet
  | checkpoint n d hdc hstage => exact hs.checkpoint hdc hstage
  | kill n d hdc hstage => exact hs.kill hdc hstage
  | save n d run raftstate snapshot hdc hrun => exact hs.save hdc hrun raftstate snapshot
  | net l net hl hnet => exact hs.net hl hnet

end Steps

theorem Sound.of_run {labels : List (Label ε ν ω)} {s : State ε ν ω}
    (h : system.run initial labels = some s) : Sound s := by
  refine System.run_invariant (I := fun _ s => Sound s) ?_ ?_ h
  · constructor
    · intro n
      refine ⟨?_, ?_, rfl⟩
      · intro d hd
        cases hd
      · intro d hd
        cases hd
    · intro k p hp
      cases hp
  · intro labels s l t _ hs hstep
    exact hs.step (step_sound hstep)

/-- After its handler has returned, a run saves nothing more, and no Save leaves
a history. -/
structure Settled (k : ℕ) (reply : List UInt8) (s t : State ε ν ω) : Prop where
  result : t.net.results k = some ⟨true, reply⟩
  made : ∀ p, (k, p) ∈ t.made → (k, p) ∈ s.made
  history : ∀ n, ∀ e ∈ s.history n, e ∈ t.history n

theorem Settled.step {k : ℕ} {reply : List UInt8} {s t u : State ε ν ω} {l : Label ε ν ω}
    (hs : Settled k reply s t) (h : Step t l u) : Settled k reply s u := by
  have hresult : u.net.results k = some ⟨true, reply⟩ := by
    rcases step_inner h with ⟨b, _, hb⟩ | ⟨_, hnet⟩
    · exact (Kept.of_step hb).results k _ hs.result
    · rw [hnet]
      exact hs.result
  cases h with
  | save n d run raftstate snapshot hdc hrun =>
    refine ⟨hresult, ?_, fun n e he => mem_history_save (hs.history n e he)⟩
    intro p hp
    rcases List.mem_append.mp hp with hold | hnew
    · exact hs.made p hold
    · obtain ⟨hk, _⟩ : run = some k ∧ d.persister.save raftstate snapshot = p := by
        simpa using hnew
      exact absurd hs.result ((working_spec (hrun k hk)).2 reply)
  | _ => exact ⟨hresult, hs.made, hs.history⟩

theorem Settled.of_run {k : ℕ} {reply : List UInt8} {labels : List (Label ε ν ω)}
    {s t : State ε ν ω} (hresult : s.net.results k = some ⟨true, reply⟩)
    (h : system.run s labels = some t) : Settled k reply s t := by
  refine System.run_invariant (I := fun _ t => Settled k reply s t) ?_ ?_ h
  · exact ⟨hresult, fun _ hp => hp, fun _ _ he => he⟩
  · intro labels t l u _ hs hstep
    exact hs.step (step_sound hstep)

end DistributedLabs.Restarts
