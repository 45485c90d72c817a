import DistributedLabs.GoText
import DistributedLabs.Transition
import Mathlib.Data.List.Basic

/-!
The MapReduce coordinator: ReqTask and CompleteTask handlers, the timers that
re-queue tasks, and the goroutine mapReduce with its map loop, the phase switch
under c.mu and its reduce loop. Channels have a capacity and block. A timer that
re-queues a task holds the read lock while it sends, and the phase switch holds
the write lock while it sends. `handouts`, `fired` and `received` only record
what has happened.
-/
namespace DistributedLabs.Coordinator

open GoText Transition

/-- coordinatorState, which also serves as the type of a queued task. -/
inductive Phase
  | map
  | reduce
  | done
  deriving DecidableEq, Repr

structure Task where
  tid : ℕ
  taskType : Phase
  deriving DecidableEq, Repr

/-- TaskType is an int on the wire. -/
inductive TaskType
  | map
  | reduce
  | sleep
  | other (n : ℤ)
  deriving DecidableEq, Repr

structure IntermediateFile where
  reducerTid : ℤ
  file : GoString
  deriving DecidableEq, Repr

structure CompleteTaskArgs where
  type : TaskType
  tid : ℤ
  intermediateFiles : List IntermediateFile
  reduceOutFile : GoString
  deriving DecidableEq, Repr

/-- The file of ReduceOut is not copied. -/
def CompleteTaskArgs.deepCopy (cta : CompleteTaskArgs) : CompleteTaskArgs :=
  { cta with reduceOutFile := [] }

structure ReqTaskReply where
  type : TaskType
  tid : ℤ
  file : GoString
  nReduce : ℕ
  files : List GoString
  deriving DecidableEq, Repr

structure MapTaskState where
  done : Bool
  inputFile : GoString
  intermediateFiles : List IntermediateFile
  deriving DecidableEq, Repr

structure ReduceTaskState where
  done : Bool
  intermediateFiles : List GoString
  deriving DecidableEq, Repr

/-- Where the goroutine mapReduce stands. It holds the write lock in `spawn`. -/
inductive Pc
  | mapLoop
  | mapGot (taskResult : CompleteTaskArgs)
  | mapRequeue (tid : ℕ)
  | spawn (tid : ℕ)
  | reduceLoop
  | reduceGot (taskResult : CompleteTaskArgs)
  | finished
  | panicked
  deriving DecidableEq, Repr

def Pc.locked : Pc → Bool
  | .spawn _ => true
  | .mapLoop => false
  | .mapGot _ => false
  | .mapRequeue _ => false
  | .reduceLoop => false
  | .reduceGot _ => false
  | .finished => false
  | .panicked => false

/-- Where a ReqTask handler stands: in the select, waiting for the read lock with
a task, or past it with the reply made. -/
inductive HandlerPc
  | waiting
  | popped (t : Task)
  | matched (t : Task) (reply : ReqTaskReply)
  deriving DecidableEq, Repr

structure Handler (ω : Type*) where
  caller : ω
  pc : HandlerPc
  deriving DecidableEq, Repr

/-- A timeout goroutine, asleep or blocked in the send with the read lock. -/
structure Timer where
  task : Task
  sending : Bool
  deriving DecidableEq, Repr

structure Handout (ω : Type*) where
  caller : ω
  task : Task
  reply : ReqTaskReply
  phase : Phase
  deriving DecidableEq, Repr

structure State (ω : Type*) where
  nReduce : ℕ
  inputFiles : List GoString
  mapTaskState : List MapTaskState
  reduceTaskState : List ReduceTaskState
  taskQueue : List Task
  completionQueue : List CompleteTaskArgs
  phase : Phase
  pc : Pc
  incompleteMapTasks : ℤ
  incompleteReduceTasks : ℤ
  handlers : List (Handler ω)
  timers : List Timer
  handouts : List (Handout ω)
  fired : List Task
  received : List CompleteTaskArgs

def queueCap : ℕ := 128

/-- The set-up loop of MakeCoordinator: no receiver exists yet, so a send to a
full queue blocks for good. -/
def enqueueMaps : ℕ → List GoString → List Task → Option (List Task)
  | _, [], queue => some queue
  | tid, _ :: rest, queue =>
    if queue.length < queueCap then enqueueMaps (tid + 1) rest (queue ++ [⟨tid, .map⟩])
    else none

variable {ω : Type*}

def makeCoordinator (files : List GoString) (nReduce : ℕ) : Option (State ω) :=
  (enqueueMaps 0 files []).map fun taskQueue =>
    { nReduce
      inputFiles := files
      mapTaskState := files.map fun inputFile =>
        ⟨false, inputFile, List.replicate nReduce ⟨0, []⟩⟩
      reduceTaskState := List.replicate nReduce ⟨false, []⟩
      taskQueue
      completionQueue := []
      phase := .map
      pc := .mapLoop
      incompleteMapTasks := files.length
      incompleteReduceTasks := 0
      handlers := []
      timers := []
      handouts := []
      fired := []
      received := [] }

def done (s : State ω) : Bool := s.phase = .done

/-- The locked part of ReqTask; an index out of range is a panic. -/
inductive Answer
  | sleep
  | panic
  | task (reply : ReqTaskReply)
  deriving DecidableEq, Repr

def reqTask (s : State ω) (t : Task) : Answer :=
  if t.taskType ≠ s.phase then .sleep
  else
    match t.taskType with
    | .map =>
      match s.mapTaskState[t.tid]? with
      | some mt => .task ⟨.map, t.tid, mt.inputFile, s.nReduce, []⟩
      | none => .panic
    | .reduce =>
      match s.reduceTaskState[t.tid]? with
      | some rt => .task ⟨.reduce, t.tid, [], 0, rt.intermediateFiles⟩
      | none => .panic
    | .done => .sleep

/-- taskDone of the timeout goroutine. -/
def taskDone (s : State ω) (t : Task) : Option Bool :=
  match t.taskType with
  | .map => (s.mapTaskState[t.tid]?).map MapTaskState.done
  | .reduce => (s.reduceTaskState[t.tid]?).map ReduceTaskState.done
  | .done => some true

/-- Some timer holds the read lock. -/
def State.readers (s : State ω) : Bool := s.timers.any Timer.sending

/-- The distribution loop of the phase switch, over the files of one map task. -/
def distributeFiles : List IntermediateFile → List ReduceTaskState →
    Option (List ReduceTaskState)
  | [], rts => some rts
  | imFile :: rest, rts =>
    if 0 ≤ imFile.reducerTid ∧ imFile.reducerTid < rts.length then
      distributeFiles rest (rts.modify imFile.reducerTid.toNat fun rt =>
        { rt with intermediateFiles := rt.intermediateFiles ++ [imFile.file] })
    else none

def distribute : List MapTaskState → List ReduceTaskState → Option (List ReduceTaskState)
  | [], rts => some rts
  | mts :: rest, rts =>
    match distributeFiles mts.intermediateFiles rts with
    | some rts => distribute rest rts
    | none => none

namespace State

/-- The map loop's locked update: the files overwrite the entry's, in order. -/
def acceptMap (s : State ω) (taskResult : CompleteTaskArgs) : State ω :=
  match s.mapTaskState[taskResult.tid.toNat]? with
  | some tState =>
    if tState.done then { s with pc := .mapLoop }
    else
      { s with
        mapTaskState := s.mapTaskState.set taskResult.tid.toNat
          { tState with
            done := true
            intermediateFiles := taskResult.intermediateFiles ++
              tState.intermediateFiles.drop taskResult.intermediateFiles.length }
        incompleteMapTasks := s.incompleteMapTasks - 1
        pc := .mapLoop }
  | none => { s with pc := .panicked }

def acceptReduce (s : State ω) (taskResult : CompleteTaskArgs) : State ω :=
  match s.reduceTaskState[taskResult.tid.toNat]? with
  | some tState =>
    if tState.done then { s with pc := .reduceLoop }
    else
      { s with
        reduceTaskState :=
          s.reduceTaskState.set taskResult.tid.toNat { tState with done := true }
        incompleteReduceTasks := s.incompleteReduceTasks - 1
        pc := .reduceLoop }
  | none => { s with pc := .panicked }

/-- The end of the phase switch, still under the lock. -/
def switch (s : State ω) : State ω :=
  match distribute s.mapTaskState s.reduceTaskState with
  | some reduceTaskState => { s with reduceTaskState, phase := .reduce, pc := .reduceLoop }
  | none => { s with pc := .panicked }

/-- One step of mapReduce, if it is not blocked. -/
def mapReduce (s : State ω) : Option (State ω) :=
  match s.pc with
  | .mapLoop =>
    if 0 < s.incompleteMapTasks then
      match s.completionQueue with
      | [] => none
      | taskResult :: rest =>
        some { s with
          completionQueue := rest
          received := s.received ++ [taskResult]
          pc := .mapGot taskResult }
    else if s.readers then none
    else some { s with incompleteReduceTasks := s.nReduce, pc := .spawn 0 }
  | .mapGot taskResult =>
    if taskResult.type ≠ .map then some { s with pc := .mapLoop }
    else if taskResult.tid < 0 ∨ (s.inputFiles.length : ℤ) ≤ taskResult.tid then
      some { s with pc := .mapLoop }
    else if taskResult.intermediateFiles.length ≠ s.nReduce then
      some { s with pc := .mapRequeue taskResult.tid.toNat }
    else if s.readers then none
    else some (s.acceptMap taskResult)
  | .mapRequeue tid =>
    if s.taskQueue.length < queueCap then
      some { s with taskQueue := s.taskQueue ++ [⟨tid, .map⟩], pc := .mapLoop }
    else none
  | .spawn tid =>
    if tid < s.nReduce then
      if s.taskQueue.length < queueCap then
        some { s with taskQueue := s.taskQueue ++ [⟨tid, .reduce⟩], pc := .spawn (tid + 1) }
      else none
    else some s.switch
  | .reduceLoop =>
    if 0 < s.incompleteReduceTasks then
      match s.completionQueue with
      | [] => none
      | taskResult :: rest =>
        some { s with
          completionQueue := rest
          received := s.received ++ [taskResult]
          pc := .reduceGot taskResult }
    else if s.readers then none
    else some { s with phase := .done, pc := .finished }
  | .reduceGot taskResult =>
    if taskResult.type ≠ .reduce then some { s with pc := .reduceLoop }
    else if taskResult.tid < 0 ∨ (s.nReduce : ℤ) ≤ taskResult.tid then
      some { s with pc := .reduceLoop }
    else if s.readers then none
    else some (s.acceptReduce taskResult)
  | .finished => none
  | .panicked => none

end State

inductive Label (ω : Type*)
  | request (w : ω)
  | pop (w : ω)
  | timeout (w : ω)
  | check (w : ω) (t : Task)
  | reply (w : ω) (t : Task) (reply : ReqTaskReply)
  | fire (t : Task)
  | requeue (t : Task)
  | complete (m : CompleteTaskArgs)
  | mapReduce

variable [DecidableEq ω]

namespace State

def pop (s : State ω) (w : ω) (t : Task) (rest : List Task) : State ω :=
  { s with
    taskQueue := rest
    handlers := ⟨w, .popped t⟩ :: s.handlers.erase ⟨w, .waiting⟩ }

/-- The handler answers Sleep. -/
def sleep (s : State ω) (w : ω) (pc : HandlerPc) : State ω :=
  { s with handlers := s.handlers.erase ⟨w, pc⟩ }

def matchTask (s : State ω) (w : ω) (t : Task) (reply : ReqTaskReply) : State ω :=
  { s with handlers := ⟨w, .matched t reply⟩ :: s.handlers.erase ⟨w, .popped t⟩ }

/-- Start the timeout goroutine and return the reply. -/
def handOut (s : State ω) (w : ω) (t : Task) (reply : ReqTaskReply) : State ω :=
  { s with
    handlers := s.handlers.erase ⟨w, .matched t reply⟩
    timers := ⟨t, false⟩ :: s.timers
    handouts := s.handouts ++ [⟨w, t, reply, s.phase⟩] }

/-- The timer finds its task done or out of phase and ends. -/
def expire (s : State ω) (t : Task) : State ω :=
  { s with timers := s.timers.erase ⟨t, false⟩, fired := s.fired ++ [t] }

def startSend (s : State ω) (t : Task) : State ω :=
  { s with timers := ⟨t, true⟩ :: s.timers.erase ⟨t, false⟩ }

def requeue (s : State ω) (t : Task) : State ω :=
  { s with
    taskQueue := s.taskQueue ++ [t]
    timers := s.timers.erase ⟨t, true⟩
    fired := s.fired ++ [t] }

end State

def step (s : State ω) : Label ω → Option (State ω)
  | .request w => some { s with handlers := ⟨w, .waiting⟩ :: s.handlers }
  | .pop w =>
    if ⟨w, .waiting⟩ ∈ s.handlers then
      match s.taskQueue with
      | [] => none
      | t :: rest => some (s.pop w t rest)
    else none
  | .timeout w => if ⟨w, .waiting⟩ ∈ s.handlers then some (s.sleep w .waiting) else none
  | .check w t =>
    if ⟨w, .popped t⟩ ∈ s.handlers ∧ s.pc.locked = false then
      match reqTask s t with
      | .sleep => some (s.sleep w (.popped t))
      | .panic => some { s with pc := .panicked }
      | .task reply => some (s.matchTask w t reply)
    else none
  | .reply w t reply =>
    if ⟨w, .matched t reply⟩ ∈ s.handlers then some (s.handOut w t reply) else none
  | .fire t =>
    if ⟨t, false⟩ ∈ s.timers ∧ s.pc.locked = false then
      match taskDone s t with
      | none => some { s with pc := .panicked }
      | some taskDone =>
        if t.taskType ≠ s.phase ∨ taskDone = true then some (s.expire t)
        else some (s.startSend t)
    else none
  | .requeue t =>
    if ⟨t, true⟩ ∈ s.timers ∧ s.taskQueue.length < queueCap then some (s.requeue t)
    else none
  | .complete m =>
    if s.completionQueue.length < queueCap then
      some { s with completionQueue := s.completionQueue ++ [m.deepCopy] }
    else none
  | .mapReduce => s.mapReduce

/-- What each label can do, with its guard. -/
inductive Step : State ω → Label ω → State ω → Prop
  | request (s : State ω) (w : ω) :
      Step s (.request w) { s with handlers := ⟨w, .waiting⟩ :: s.handlers }
  | pop (s : State ω) (w : ω) (t : Task) (rest : List Task)
      (hmem : ⟨w, .waiting⟩ ∈ s.handlers) (hq : s.taskQueue = t :: rest) :
      Step s (.pop w) (s.pop w t rest)
  | timeout (s : State ω) (w : ω) (hmem : ⟨w, .waiting⟩ ∈ s.handlers) :
      Step s (.timeout w) (s.sleep w .waiting)
  | checkSleep (s : State ω) (w : ω) (t : Task) (hmem : ⟨w, .popped t⟩ ∈ s.handlers)
      (hlock : s.pc.locked = false) (hans : reqTask s t = .sleep) :
      Step s (.check w t) (s.sleep w (.popped t))
  | checkPanic (s : State ω) (w : ω) (t : Task) (hmem : ⟨w, .popped t⟩ ∈ s.handlers)
      (hlock : s.pc.locked = false) (hans : reqTask s t = .panic) :
      Step s (.check w t) { s with pc := .panicked }
  | checkTask (s : State ω) (w : ω) (t : Task) (reply : ReqTaskReply)
      (hmem : ⟨w, .popped t⟩ ∈ s.handlers) (hlock : s.pc.locked = false)
      (hans : reqTask s t = .task reply) : Step s (.check w t) (s.matchTask w t reply)
  | reply (s : State ω) (w : ω) (t : Task) (reply : ReqTaskReply)
      (hmem : ⟨w, .matched t reply⟩ ∈ s.handlers) :
      Step s (.reply w t reply) (s.handOut w t reply)
  | firePanic (s : State ω) (t : Task) (hmem : ⟨t, false⟩ ∈ s.timers)
      (hlock : s.pc.locked = false) (hdone : taskDone s t = none) :
      Step s (.fire t) { s with pc := .panicked }
  | expire (s : State ω) (t : Task) (d : Bool) (hmem : ⟨t, false⟩ ∈ s.timers)
      (hlock : s.pc.locked = false) (hdone : taskDone s t = some d)
      (hout : t.taskType ≠ s.phase ∨ d = true) : Step s (.fire t) (s.expire t)
  | startSend (s : State ω) (t : Task) (hmem : ⟨t, false⟩ ∈ s.timers)
      (hlock : s.pc.locked = false) (hdone : taskDone s t = some false)
      (hphase : t.taskType = s.phase) : Step s (.fire t) (s.startSend t)
  | requeue (s : State ω) (t : Task) (hmem : ⟨t, true⟩ ∈ s.timers)
      (hcap : s.taskQueue.length < queueCap) : Step s (.requeue t) (s.requeue t)
  | complete (s : State ω) (m : CompleteTaskArgs)
      (hcap : s.completionQueue.length < queueCap) :
      Step s (.complete m) { s with completionQueue := s.completionQueue ++ [m.deepCopy] }
  | mapReceive (s : State ω) (m : CompleteTaskArgs) (rest : List CompleteTaskArgs)
      (hpc : s.pc = .mapLoop) (hcount : 0 < s.incompleteMapTasks)
      (hq : s.completionQueue = m :: rest) :
      Step s .mapReduce
        { s with completionQueue := rest, received := s.received ++ [m], pc := .mapGot m }
  | spawnStart (s : State ω) (hpc : s.pc = .mapLoop) (hcount : ¬ 0 < s.incompleteMapTasks)
      (hreaders : s.readers = false) :
      Step s .mapReduce { s with incompleteReduceTasks := s.nReduce, pc := .spawn 0 }
  | mapSkip (s : State ω) (m : CompleteTaskArgs) (hpc : s.pc = .mapGot m)
      (hskip : m.type ≠ .map ∨ m.tid < 0 ∨ (s.inputFiles.length : ℤ) ≤ m.tid) :
      Step s .mapReduce { s with pc := .mapLoop }
  | mapBad (s : State ω) (m : CompleteTaskArgs) (hpc : s.pc = .mapGot m)
      (htype : m.type = .map) (hlen : m.intermediateFiles.length ≠ s.nReduce) :
      Step s .mapReduce { s with pc := .mapRequeue m.tid.toNat }
  | mapAccept (s : State ω) (m : CompleteTaskArgs) (hpc : s.pc = .mapGot m)
      (htype : m.type = .map) (hrange : 0 ≤ m.tid ∧ m.tid < s.inputFiles.length)
      (hlen : m.intermediateFiles.length = s.nReduce) (hreaders : s.readers = false) :
      Step s .mapReduce (s.acceptMap m)
  | mapRequeue (s : State ω) (tid : ℕ) (hpc : s.pc = .mapRequeue tid) :
      Step s .mapReduce { s with taskQueue := s.taskQueue ++ [⟨tid, .map⟩], pc := .mapLoop }
  | spawnSend (s : State ω) (tid : ℕ) (hpc : s.pc = .spawn tid) (hlt : tid < s.nReduce)
      (hcap : s.taskQueue.length < queueCap) :
      Step s .mapReduce
        { s with taskQueue := s.taskQueue ++ [⟨tid, .reduce⟩], pc := .spawn (tid + 1) }
  | switch (s : State ω) (tid : ℕ) (hpc : s.pc = .spawn tid) (hge : s.nReduce ≤ tid) :
      Step s .mapReduce s.switch
  | reduceReceive (s : State ω) (m : CompleteTaskArgs) (rest : List CompleteTaskArgs)
      (hpc : s.pc = .reduceLoop) (hcount : 0 < s.incompleteReduceTasks)
      (hq : s.completionQueue = m :: rest) :
      Step s .mapReduce
        { s with completionQueue := rest, received := s.received ++ [m], pc := .reduceGot m }
  | finish (s : State ω) (hpc : s.pc = .reduceLoop) (hcount : ¬ 0 < s.incompleteReduceTasks)
      (hreaders : s.readers = false) :
      Step s .mapReduce { s with phase := .done, pc := .finished }
  | reduceSkip (s : State ω) (m : CompleteTaskArgs) (hpc : s.pc = .reduceGot m)
      (hskip : m.type ≠ .reduce ∨ m.tid < 0 ∨ (s.nReduce : ℤ) ≤ m.tid) :
      Step s .mapReduce { s with pc := .reduceLoop }
  | reduceAccept (s : State ω) (m : CompleteTaskArgs) (hpc : s.pc = .reduceGot m)
      (htype : m.type = .reduce) (hrange : 0 ≤ m.tid ∧ m.tid < s.nReduce)
      (hreaders : s.readers = false) : Step s .mapReduce (s.acceptReduce m)

theorem mapReduce_sound {s t : State ω} (h : s.mapReduce = some t) : Step s .mapReduce t := by
  unfold State.mapReduce at h
  split at h
  · split at h
    · split at h
      · cases h
      · cases h
        exact .mapReceive s _ _ ‹_› ‹_› ‹_›
    · split at h
      · cases h
      · cases h
        exact .spawnStart s ‹_› ‹_› (by simpa using ‹¬ s.readers = true›)
  · rename_i m hpc
    split at h
    · cases h
      exact .mapSkip s m hpc (Or.inl ‹_›)
    · rename_i htype
      split at h
      · cases h
        exact .mapSkip s m hpc (Or.inr ‹_›)
      · rename_i hrange
        split at h
        · cases h
          exact .mapBad s m hpc (not_not.mp htype) ‹_›
        · rename_i hlen
          split at h
          · cases h
          · cases h
            exact .mapAccept s m hpc (not_not.mp htype) (by omega) (not_not.mp hlen)
              (by simpa using ‹¬ s.readers = true›)
  · split at h
    · cases h
      exact .mapRequeue s _ ‹_›
    · cases h
  · split at h
    · split at h
      · cases h
        exact .spawnSend s _ ‹_› ‹_› ‹_›
      · cases h
    · cases h
      exact .switch s _ ‹_› (by omega)
  · split at h
    · split at h
      · cases h
      · cases h
        exact .reduceReceive s _ _ ‹_› ‹_› ‹_›
    · split at h
      · cases h
      · cases h
        exact .finish s ‹_› ‹_› (by simpa using ‹¬ s.readers = true›)
  · rename_i m hpc
    split at h
    · cases h
      exact .reduceSkip s m hpc (Or.inl ‹_›)
    · rename_i htype
      split at h
      · cases h
        exact .reduceSkip s m hpc (Or.inr ‹_›)
      · split at h
        · cases h
        · cases h
          exact .reduceAccept s m hpc (not_not.mp htype) (by omega)
            (by simpa using ‹¬ s.readers = true›)
  · cases h
  · cases h

theorem step_sound {s t : State ω} {l : Label ω} (h : step s l = some t) : Step s l t := by
  cases l with
  | request w =>
    cases h
    exact .request s w
  | pop w =>
    simp only [step] at h
    split at h
    · split at h
      · cases h
      · cases h
        exact .pop s w _ _ ‹_› ‹_›
    · cases h
  | timeout w =>
    simp only [step] at h
    split at h
    · cases h
      exact .timeout s w ‹_›
    · cases h
  | check w t =>
    simp only [step] at h
    split at h
    · rename_i hg
      split at h
      · cases h
        exact .checkSleep s w t hg.1 hg.2 ‹_›
      · cases h
        exact .checkPanic s w t hg.1 hg.2 ‹_›
      · cases h
        exact .checkTask s w t _ hg.1 hg.2 ‹_›
    · cases h
  | reply w t reply =>
    simp only [step] at h
    split at h
    · cases h
      exact .reply s w t reply ‹_›
    · cases h
  | fire t =>
    simp only [step] at h
    split at h
    · rename_i hg
      split at h
      · cases h
        exact .firePanic s t hg.1 hg.2 ‹_›
      · rename_i d hd
        split at h
        · cases h
          exact .expire s t d hg.1 hg.2 hd ‹_›
        · rename_i hin
          cases h
          obtain ⟨hphase, hnot⟩ := not_or.mp hin
          rw [Bool.not_eq_true] at hnot
          rw [hnot] at hd
          exact .startSend s t hg.1 hg.2 hd (not_not.mp hphase)
    · cases h
  | requeue t =>
    simp only [step] at h
    split at h
    · rename_i hg
      cases h
      exact .requeue s t hg.1 hg.2
    · cases h
  | complete m =>
    simp only [step] at h
    split at h
    · cases h
      exact .complete s m ‹_›
    · cases h
  | mapReduce => exact mapReduce_sound h

end DistributedLabs.Coordinator
