import DistributedLabs.CoordinatorInputs

/-!
The start of the coordinator process, step by step: MakeCoordinator fills the task
queue, sets up the reduce tasks, starts mapReduce and then the RPC server. Only RPC
handlers receive from the task queue, so until the server runs nobody does.
-/
namespace DistributedLabs.Coordinator

open GoText Transition

/-- Where MakeCoordinator stands: before an iteration of the set-up loop, at the send in
it, and after the loop. -/
inductive StartPc
  | setup (tid : ℕ)
  | send (tid : ℕ)
  | reduceSetup
  | goMapReduce
  | server
  | serving
  | fatal
  deriving DecidableEq, Repr

structure Startup where
  pc : StartPc
  mapTaskState : List MapTaskState
  reduceTaskState : List ReduceTaskState
  taskQueue : List Task
  mapReduceStarted : Bool
  deriving DecidableEq, Repr

/-- A step of MakeCoordinator, a failing net.Listen, or a handler's receive. -/
inductive StartLabel
  | main
  | listenFails
  | receive
  deriving DecidableEq, Repr

/-- The entry of a map task as the set-up loop writes it. -/
def newMapTask (nReduce : ℕ) (inputFile : GoString) : MapTaskState :=
  ⟨false, inputFile, List.replicate nReduce ⟨0, []⟩⟩

def zeroMapTask : MapTaskState := ⟨false, [], []⟩

def Startup.init (files : List GoString) (nReduce : ℕ) : Startup where
  pc := .setup 0
  mapTaskState := List.replicate files.length zeroMapTask
  reduceTaskState := List.replicate nReduce ⟨false, []⟩
  taskQueue := []
  mapReduceStarted := false

def Startup.main (files : List GoString) (nReduce : ℕ) (s : Startup) : Option Startup :=
  match s.pc with
  | .setup tid =>
    match files[tid]? with
    | some inputFile =>
      some { s with
        mapTaskState := s.mapTaskState.set tid (newMapTask nReduce inputFile)
        pc := .send tid }
    | none => some { s with pc := .reduceSetup }
  | .send tid =>
    if s.taskQueue.length < queueCap then
      some { s with taskQueue := s.taskQueue ++ [⟨tid, .map⟩], pc := .setup (tid + 1) }
    else none
  | .reduceSetup =>
    some { s with
      reduceTaskState := s.reduceTaskState.map fun _ => ⟨false, []⟩
      pc := .goMapReduce }
  | .goMapReduce => some { s with mapReduceStarted := true, pc := .server }
  | .server => some { s with pc := .serving }
  | .serving => none
  | .fatal => none

def startup (files : List GoString) (nReduce : ℕ) : System Startup StartLabel where
  start s := s = Startup.init files nReduce
  step s
    | .main => s.main files nReduce
    | .listenFails => if s.pc = .server then some { s with pc := .fatal } else none
    | .receive =>
      match s.pc, s.taskQueue with
      | .serving, _ :: rest => some { s with taskQueue := rest }
      | _, _ => none

/-- At a send, with nobody left who could take a step. -/
def Startup.Blocked (files : List GoString) (nReduce : ℕ) (s : Startup) : Prop :=
  (∃ tid, s.pc = .send tid) ∧ ∀ label, (startup files nReduce).step s label = none

/-- The coordinator that MakeCoordinator returns. -/
def Startup.coordinator {ω : Type*} (s : Startup) (files : List GoString) (nReduce : ℕ) :
    State ω where
  nReduce := nReduce
  inputFiles := files
  mapTaskState := s.mapTaskState
  reduceTaskState := s.reduceTaskState
  taskQueue := s.taskQueue
  completionQueue := []
  phase := .map
  pc := .mapLoop
  incompleteMapTasks := files.length
  incompleteReduceTasks := 0
  handlers := []
  timers := []
  handouts := []
  fired := []
  received := []

variable {files : List GoString} {nReduce : ℕ}

/-- The tasks that the first `tid` iterations have sent. -/
def sent (tid : ℕ) : List Task := (List.range tid).map fun i => ⟨i, .map⟩

/-- The table after the first `tid` iterations. -/
def tableUpTo (files : List GoString) (nReduce tid : ℕ) : List MapTaskState :=
  (files.take tid).map (newMapTask nReduce) ++ List.replicate (files.length - tid) zeroMapTask

/-- The states of the start before handlers run. -/
def atPc (files : List GoString) (nReduce : ℕ) : StartPc → Startup
  | .setup tid =>
    ⟨.setup tid, tableUpTo files nReduce tid, List.replicate nReduce ⟨false, []⟩, sent tid, false⟩
  | .send tid =>
    ⟨.send tid, tableUpTo files nReduce (tid + 1), List.replicate nReduce ⟨false, []⟩, sent tid,
      false⟩
  | pc =>
    ⟨pc, files.map (newMapTask nReduce), List.replicate nReduce ⟨false, []⟩, sent files.length,
      pc ≠ .reduceSetup ∧ pc ≠ .goMapReduce⟩

theorem tableUpTo_set {tid : ℕ} {inputFile : GoString} (h : files[tid]? = some inputFile) :
    (tableUpTo files nReduce tid).set tid (newMapTask nReduce inputFile) =
      tableUpTo files nReduce (tid + 1) := by
  obtain ⟨hlt, rfl⟩ := List.getElem?_eq_some_iff.mp h
  have hrest : files.length - tid = files.length - (tid + 1) + 1 := by omega
  have hlen : ((files.take tid).map (newMapTask nReduce)).length = tid := by
    simp [Nat.min_eq_left hlt.le]
  unfold tableUpTo
  rw [List.set_append_right _ _ hlen.le, hlen, Nat.sub_self, hrest, List.replicate_succ,
    List.set_cons_zero, List.take_succ_eq_append_getElem hlt, List.map_append, List.map_singleton,
    List.append_assoc, List.singleton_append]

theorem sent_succ (tid : ℕ) : sent tid ++ [⟨tid, .map⟩] = sent (tid + 1) := by
  simp [sent, List.range_succ]

theorem length_sent (tid : ℕ) : (sent tid).length = tid := by
  simp [sent]

theorem init_eq_atPc : Startup.init files nReduce = atPc files nReduce (.setup 0) := by
  simp [Startup.init, atPc, tableUpTo, sent]

theorem main_setup {tid : ℕ} (h : tid < files.length) :
    (atPc files nReduce (.setup tid)).main files nReduce =
      some (atPc files nReduce (.send tid)) := by
  have hget : files[tid]? = some files[tid] := List.getElem?_eq_getElem h
  simp only [atPc, Startup.main, hget, tableUpTo_set hget]

theorem main_setup_end :
    (atPc files nReduce (.setup files.length)).main files nReduce =
      some (atPc files nReduce .reduceSetup) := by
  simp [atPc, Startup.main, tableUpTo]

theorem main_send {tid : ℕ} (h : tid < queueCap) :
    (atPc files nReduce (.send tid)).main files nReduce =
      some (atPc files nReduce (.setup (tid + 1))) := by
  simp [atPc, Startup.main, length_sent, h, sent_succ]

theorem blocked_send {tid : ℕ} (h : queueCap ≤ tid) :
    (atPc files nReduce (.send tid)).Blocked files nReduce := by
  refine ⟨⟨tid, rfl⟩, ?_⟩
  intro label
  cases label with
  | main => simp [startup, atPc, Startup.main, length_sent, Nat.not_lt.mpr h]
  | listenFails => rfl
  | receive => rfl

theorem main_reduceSetup :
    (atPc files nReduce .reduceSetup).main files nReduce =
      some (atPc files nReduce .goMapReduce) := by
  simp [atPc, Startup.main]

theorem main_goMapReduce :
    (atPc files nReduce .goMapReduce).main files nReduce = some (atPc files nReduce .server) := by
  simp [atPc, Startup.main]

theorem main_server :
    (atPc files nReduce .server).main files nReduce = some (atPc files nReduce .serving) := by
  simp [atPc, Startup.main]

/-- The states of the start: past the loop only if the queue holds all map tasks. -/
inductive Known (files : List GoString) (nReduce : ℕ) : Startup → Prop
  | setup (tid : ℕ) (hlen : tid ≤ files.length) (hcap : tid ≤ queueCap) :
      Known files nReduce (atPc files nReduce (.setup tid))
  | send (tid : ℕ) (hlen : tid < files.length) (hcap : tid ≤ queueCap) :
      Known files nReduce (atPc files nReduce (.send tid))
  | reduceSetup (hcap : files.length ≤ queueCap) :
      Known files nReduce (atPc files nReduce .reduceSetup)
  | goMapReduce (hcap : files.length ≤ queueCap) :
      Known files nReduce (atPc files nReduce .goMapReduce)
  | server (hcap : files.length ≤ queueCap) : Known files nReduce (atPc files nReduce .server)
  | ended (s : Startup) (hcap : files.length ≤ queueCap) (hpc : s.pc = .serving ∨ s.pc = .fatal) :
      Known files nReduce s

theorem Known.main {s t : Startup} (h : Known files nReduce s)
    (hmain : s.main files nReduce = some t) : Known files nReduce t := by
  cases h with
  | setup tid hlen hcap =>
    by_cases hlt : tid < files.length
    · rw [main_setup hlt] at hmain
      cases hmain
      exact .send tid hlt hcap
    · obtain rfl : tid = files.length := by omega
      rw [main_setup_end] at hmain
      cases hmain
      exact .reduceSetup hcap
  | send tid hlen hcap =>
    by_cases hlt : tid < queueCap
    · rw [main_send hlt] at hmain
      cases hmain
      exact .setup (tid + 1) hlen hlt
    · have hblocked : (atPc files nReduce (.send tid)).Blocked files nReduce :=
        blocked_send (not_lt.mp hlt)
      exact absurd ((hblocked.2 .main).symm.trans hmain) (by simp)
  | reduceSetup hcap =>
    rw [main_reduceSetup] at hmain
    cases hmain
    exact .goMapReduce hcap
  | goMapReduce hcap =>
    rw [main_goMapReduce] at hmain
    cases hmain
    exact .server hcap
  | server hcap =>
    rw [main_server] at hmain
    cases hmain
    exact .ended _ hcap (Or.inl rfl)
  | ended _ hcap hpc =>
    rcases hpc with hpc | hpc <;> simp [Startup.main, hpc] at hmain

theorem Known.cap {s : Startup} (h : Known files nReduce s)
    (hpc : s.pc = .server ∨ s.pc = .serving) : files.length ≤ queueCap := by
  cases h with
  | setup => simp [atPc] at hpc
  | send => simp [atPc] at hpc
  | reduceSetup hcap => exact hcap
  | goMapReduce hcap => exact hcap
  | server hcap => exact hcap
  | ended _ hcap => exact hcap

theorem known_of_reachable {s : Startup} (h : (startup files nReduce).Reachable s) :
    Known files nReduce s := by
  refine h.invariant ?_ ?_
  · rintro s rfl
    rw [init_eq_atPc]
    exact .setup 0 (Nat.zero_le _) (Nat.zero_le _)
  · intro s label t _ hs hstep
    cases label with
    | main => exact hs.main hstep
    | listenFails =>
      simp only [startup] at hstep
      split at hstep
      · cases hstep
        exact .ended _ (hs.cap (Or.inl ‹_›)) (Or.inr rfl)
      · cases hstep
    | receive =>
      simp only [startup] at hstep
      split at hstep
      · cases hstep
        exact .ended _ (hs.cap (Or.inr ‹_›)) (Or.inl ‹_›)
      · cases hstep

/-- Steps of MakeCoordinator alone lead to a running server. -/
def Completes (files : List GoString) (nReduce : ℕ) (s : Startup) : Prop :=
  ∃ k, (startup files nReduce).run s (List.replicate k .main) = some (atPc files nReduce .serving)

theorem Completes.of_main {s t : Startup} (hmain : s.main files nReduce = some t)
    (h : Completes files nReduce t) : Completes files nReduce s := by
  obtain ⟨k, hk⟩ := h
  refine ⟨k + 1, ?_⟩
  rw [List.replicate_succ, System.run]
  exact Option.bind_eq_some_iff.mpr ⟨t, hmain, hk⟩

theorem completes_reduceSetup : Completes files nReduce (atPc files nReduce .reduceSetup) :=
  .of_main main_reduceSetup (.of_main main_goMapReduce (.of_main main_server ⟨0, rfl⟩))

theorem completes_setup (hcap : files.length ≤ queueCap) {tid : ℕ} (hlen : tid ≤ files.length) :
    Completes files nReduce (atPc files nReduce (.setup tid)) := by
  induction hrest : files.length - tid generalizing tid with
  | zero =>
    obtain rfl : tid = files.length := by omega
    exact .of_main main_setup_end completes_reduceSetup
  | succ rest ih =>
    have hnext : Completes files nReduce (atPc files nReduce (.setup (tid + 1))) :=
      ih (by omega) (by omega)
    exact .of_main (main_setup (by omega)) (.of_main (main_send (by omega)) hnext)

theorem Known.completes {s : Startup} (h : Known files nReduce s)
    (hcap : files.length ≤ queueCap) (hpc : s.pc ≠ .serving ∧ s.pc ≠ .fatal) :
    Completes files nReduce s := by
  cases h with
  | setup tid hlen => exact completes_setup hcap hlen
  | send tid hlen =>
    exact .of_main (main_send (by omega)) (completes_setup hcap hlen)
  | reduceSetup => exact completes_reduceSetup
  | goMapReduce => exact .of_main main_goMapReduce (.of_main main_server ⟨0, rfl⟩)
  | server => exact .of_main main_server ⟨0, rfl⟩
  | ended _ _ hended => exact absurd hended (not_or.mpr hpc)

/-- A blocked state does not run on. -/
theorem Startup.Blocked.run_eq {s u : Startup} {k : ℕ} (h : s.Blocked files nReduce)
    (hrun : (startup files nReduce).run s (List.replicate k .main) = some u) : u = s := by
  cases k with
  | zero => exact (Option.some.inj hrun).symm
  | succ k =>
    rw [List.replicate_succ, System.run, h.2 .main] at hrun
    cases hrun

theorem Known.not_blocked {s : Startup} (h : Known files nReduce s)
    (hcap : files.length ≤ queueCap) : ¬ s.Blocked files nReduce := by
  intro hblocked
  obtain ⟨tid, hpc⟩ := hblocked.1
  obtain ⟨k, hk⟩ := h.completes hcap (by simp [hpc])
  rw [← hblocked.run_eq hk] at hpc
  cases hpc

theorem enqueueMaps_of_le {tid : ℕ} {files : List GoString} {queue : List Task}
    (h : queue.length + files.length ≤ queueCap) : (enqueueMaps tid files queue).isSome := by
  induction files generalizing tid queue with
  | nil => rfl
  | cons file rest ih =>
    rw [List.length_cons] at h
    rw [enqueueMaps, if_pos (by omega)]
    apply ih
    rw [List.length_append, List.length_singleton]
    omega

theorem makeCoordinator_eq {ω : Type*} (hcap : files.length ≤ queueCap) :
    makeCoordinator files nReduce =
      some ((atPc files nReduce .serving).coordinator files nReduce : State ω) := by
  have hsome : (enqueueMaps 0 files []).isSome := enqueueMaps_of_le (by simpa using hcap)
  obtain ⟨queue, hqueue⟩ := Option.isSome_iff_exists.mp hsome
  have hsent : queue = sent files.length := by
    rw [enqueueMaps_eq hqueue]
    simp [sent]
  rw [makeCoordinator, hqueue, hsent]
  rfl

/-- Until the queue is full the loop goes on. -/
theorem reachable_setup {tid : ℕ} (hlen : tid ≤ files.length) (hcap : tid ≤ queueCap) :
    (startup files nReduce).Reachable (atPc files nReduce (.setup tid)) := by
  induction tid with
  | zero => exact ⟨_, init_eq_atPc.symm, .refl⟩
  | succ tid ih =>
    have hsend : (startup files nReduce).step (atPc files nReduce (.setup tid)) .main =
        some (atPc files nReduce (.send tid)) := main_setup hlen
    have hnext : (startup files nReduce).step (atPc files nReduce (.send tid)) .main =
        some (atPc files nReduce (.setup (tid + 1))) := main_send hcap
    exact ((ih (by omega) (by omega)).step hsend).step hnext

/-- One file more than the queue holds, and MakeCoordinator blocks for good. -/
theorem reachable_blocked (h : queueCap < files.length) :
    ∃ s, (startup files nReduce).Reachable s ∧ s.Blocked files nReduce := by
  have hsend : (startup files nReduce).step (atPc files nReduce (.setup queueCap)) .main =
      some (atPc files nReduce (.send queueCap)) := main_setup h
  exact ⟨_, (reachable_setup h.le le_rfl).step hsend, blocked_send le_rfl⟩

/-- Exactly with at most as many input files as the task queue holds, no state of the
start is blocked; and exactly then MakeCoordinator goes on from each to start mapReduce
and the RPC server, with all map tasks queued. -/
theorem startup_completes_iff (ω : Type*) (files : List GoString) (nReduce : ℕ) :
    ((∀ s, (startup files nReduce).Reachable s → ¬ s.Blocked files nReduce) ↔
      files.length ≤ queueCap) ∧
    ((∀ s, (startup files nReduce).Reachable s → s.pc ≠ .serving ∧ s.pc ≠ .fatal →
      ∃ k u, (startup files nReduce).run s (List.replicate k .main) = some u ∧
        u.pc = .serving ∧ u.mapReduceStarted = true ∧
        u.taskQueue = (List.range files.length).map (fun tid => ⟨tid, .map⟩) ∧
        makeCoordinator files nReduce = some (u.coordinator files nReduce : State ω)) ↔
      files.length ≤ queueCap) := by
  have hcap_of : (∀ s, (startup files nReduce).Reachable s → ¬ s.Blocked files nReduce) →
      files.length ≤ queueCap := by
    intro h
    by_contra hcap
    obtain ⟨s, hs, hblocked⟩ := reachable_blocked (not_le.mp hcap)
    exact h s hs hblocked
  refine ⟨⟨hcap_of, ?_⟩, ⟨?_, ?_⟩⟩
  · intro hcap s hs
    exact (known_of_reachable hs).not_blocked hcap
  · intro h
    apply hcap_of
    intro s hs hblocked
    obtain ⟨tid, hpc⟩ := hblocked.1
    obtain ⟨k, u, hrun, hserving, _⟩ := h s hs (by simp [hpc])
    rw [hblocked.run_eq hrun, hpc] at hserving
    cases hserving
  · intro hcap s hs hpc
    obtain ⟨k, hk⟩ := (known_of_reachable hs).completes hcap hpc
    exact ⟨k, _, hk, rfl, rfl, rfl, makeCoordinator_eq hcap⟩

/-- As many files as the queue holds. -/
theorem startup_completes_iff_full :
    (∀ s, (startup (List.replicate 128 (ascii "pg.txt")) 10).Reachable s →
      ¬ s.Blocked (List.replicate 128 (ascii "pg.txt")) 10) ∧
    ∃ k u, (startup (List.replicate 128 (ascii "pg.txt")) 10).run
      (Startup.init (List.replicate 128 (ascii "pg.txt")) 10) (List.replicate k .main) = some u ∧
      u.pc = .serving ∧ u.taskQueue.length = 128 := by
  have hcap : (List.replicate 128 (ascii "pg.txt")).length ≤ queueCap := by
    rw [List.length_replicate]
    decide
  obtain ⟨hblocked, hcompletes⟩ :=
    startup_completes_iff Unit (List.replicate 128 (ascii "pg.txt")) 10
  refine ⟨hblocked.mpr hcap, ?_⟩
  obtain ⟨k, u, hrun, hpc, _, hqueue, _⟩ :=
    hcompletes.mpr hcap _ ⟨_, rfl, .refl⟩ (by decide)
  refine ⟨k, u, hrun, hpc, ?_⟩
  rw [hqueue, List.length_map, List.length_range, List.length_replicate]

theorem startup_blocks_129 :
    (List.replicate 129 (ascii "pg.txt")).length = 129 ∧
      ∃ s, (startup (List.replicate 129 (ascii "pg.txt")) 10).Reachable s ∧
        s.Blocked (List.replicate 129 (ascii "pg.txt")) 10 :=
  ⟨List.length_replicate, reachable_blocked (by rw [List.length_replicate]; decide)⟩

end DistributedLabs.Coordinator
