import DistributedLabs.CoordinatorInputs
import DistributedLabs.MRWorker

/-!
A MapReduce job: the coordinator, any number of workers and the disk they share.
A worker that waits gets the answer of its ReqTask handler, unless it has crashed
by then; a completion that a worker has sent may reach the coordinator late, more
than once or never. `finished` and `sent` record the map attempts whose
completion was sent and the completions with their senders.
-/
namespace DistributedLabs.MapReduce

open GoText Files Transition MRTask Coordinator MRWorker

structure State (ω : Type*) where
  coord : Coordinator.State ω
  disk : Disk
  workers : ω → Worker
  finished : List MapAttempt
  sent : List (ω × CompleteTaskArgs)

inductive Label (ω : Type*)
  | coordinator (l : Coordinator.Label ω)
  | work (w : ω) (a : Action)
  | send (w : ω)

def sleepReply : ReqTaskReply := ⟨.sleep, 0, [], 0, []⟩

variable {ω : Type*} [DecidableEq ω]

/-- A worker asks only between two tasks, and completions come from workers. -/
def permitted (s : State ω) : Coordinator.Label ω → Bool
  | .request w => s.workers w = .idle
  | .complete m => m ∈ s.sent.map Prod.snd
  | .pop _ => true
  | .timeout _ => true
  | .check _ _ => true
  | .reply _ _ _ => true
  | .fire _ => true
  | .requeue _ => true
  | .mapReduce => true

/-- A worker that still waits takes up the reply. -/
def hear (workers : ω → Worker) (w : ω) (reply : ReqTaskReply) : ω → Worker :=
  Function.update workers w
    (if workers w = .waiting then Worker.receive reply else workers w)

/-- The workers after a step of the coordinator. -/
def heard (s : State ω) : Coordinator.Label ω → ω → Worker
  | .request w => Function.update s.workers w .waiting
  | .timeout w => hear s.workers w sleepReply
  | .check w t =>
    match reqTask s.coord t with
    | .sleep => hear s.workers w sleepReply
    | .panic => s.workers
    | .task _ => s.workers
  | .reply w _ reply => hear s.workers w reply
  | .pop _ => s.workers
  | .fire _ => s.workers
  | .requeue _ => s.workers
  | .complete _ => s.workers
  | .mapReduce => s.workers

def step (P : Program) (s : State ω) : Label ω → Option (State ω)
  | .coordinator l =>
    if permitted s l then
      (Coordinator.step s.coord l).map fun coord => { s with coord, workers := heard s l }
    else none
  | .work w a =>
    (act P s.disk (s.workers w) a).map fun (worker, disk) =>
      { s with disk, workers := Function.update s.workers w worker }
  | .send w =>
    match s.workers w with
    | .mapWrite a [] =>
      some { s with
        workers := Function.update s.workers w .completing
        finished := s.finished ++ [a]
        sent := s.sent ++ [(w, a.completion)] }
    | .reduceWrite tid [] _ =>
      some { s with
        workers := Function.update s.workers w .completing
        sent := s.sent ++ [(w, reduceCompletion tid)] }
    | _ => none

/-- MakeCoordinator has returned, no worker has asked yet, and the disk holds any
files. -/
structure Start (s : State ω) : Prop where
  coord : ∃ files nReduce, 0 < nReduce ∧ makeCoordinator files nReduce = some s.coord
  workers : ∀ w, s.workers w = .idle
  finished : s.finished = []
  sent : s.sent = []

def system (ω : Type*) [DecidableEq ω] (P : Program) : System (State ω) (Label ω) where
  start := Start
  step := step P

inductive Step (P : Program) (s : State ω) : Label ω → State ω → Prop
  | coordinator (l : Coordinator.Label ω) (coord : Coordinator.State ω)
      (hperm : permitted s l = true) (hstep : Coordinator.Step s.coord l coord) :
      Step P s (.coordinator l) { s with coord, workers := heard s l }
  | work (w : ω) (a : Action) (worker : Worker) (disk : Disk)
      (hact : Act P s.disk (s.workers w) a worker disk) :
      Step P s (.work w a) { s with disk, workers := Function.update s.workers w worker }
  | sendMap (w : ω) (a : MapAttempt) (hw : s.workers w = .mapWrite a []) :
      Step P s (.send w)
        { s with
          workers := Function.update s.workers w .completing
          finished := s.finished ++ [a]
          sent := s.sent ++ [(w, a.completion)] }
  | sendReduce (w : ω) (tid : ℤ) (offset : ℕ) (hw : s.workers w = .reduceWrite tid [] offset) :
      Step P s (.send w)
        { s with
          workers := Function.update s.workers w .completing
          sent := s.sent ++ [(w, reduceCompletion tid)] }

theorem step_sound {P : Program} {s t : State ω} {l : Label ω} (h : step P s l = some t) :
    Step P s l t := by
  cases l with
  | coordinator l =>
    simp only [step] at h
    split at h
    · obtain ⟨coord, hcoord, rfl⟩ := Option.map_eq_some_iff.mp h
      exact .coordinator l coord ‹_› (Coordinator.step_sound hcoord)
    · cases h
  | work w a =>
    obtain ⟨⟨worker, disk⟩, hact, rfl⟩ := Option.map_eq_some_iff.mp h
    exact .work w a worker disk (act_sound hact)
  | send w =>
    simp only [step] at h
    split at h
    · cases h
      exact .sendMap w _ ‹_›
    · cases h
      exact .sendReduce w _ _ ‹_›
    · cases h

/-- A worker changes in a step of the coordinator only by asking or by an answer. -/
theorem heard_cases (s : State ω) (l : Coordinator.Label ω) (w : ω) :
    heard s l w = s.workers w ∨ heard s l w = .waiting ∨ heard s l w = .idle ∨
      ∃ t reply, l = .reply w t reply ∧ heard s l w = Worker.receive reply := by
  have hhear : ∀ (w' : ω) (reply : ReqTaskReply), hear s.workers w' reply w = s.workers w ∨
      (w = w' ∧ hear s.workers w' reply w = Worker.receive reply) := by
    intro w' reply
    unfold hear
    by_cases hw : w = w'
    · subst hw
      rw [Function.update_self]
      split
      · exact Or.inr ⟨rfl, rfl⟩
      · exact Or.inl rfl
    · rw [Function.update_of_ne hw]
      exact Or.inl rfl
  have hsleep : ∀ w', hear s.workers w' sleepReply w = s.workers w ∨
      hear s.workers w' sleepReply w = .idle := fun w' =>
    (hhear w' sleepReply).imp id fun h => h.2
  cases l with
  | request w' =>
    simp only [heard]
    by_cases hw : w = w'
    · subst hw
      rw [Function.update_self]
      exact Or.inr (Or.inl rfl)
    · rw [Function.update_of_ne hw]
      exact Or.inl rfl
  | timeout w' =>
    rcases hsleep w' with h | h
    · exact Or.inl h
    · exact Or.inr (Or.inr (Or.inl h))
  | check w' t =>
    simp only [heard]
    cases reqTask s.coord t with
    | sleep =>
      rcases hsleep w' with h | h
      · exact Or.inl h
      · exact Or.inr (Or.inr (Or.inl h))
    | panic => exact Or.inl rfl
    | task reply => exact Or.inl rfl
  | reply w' t reply =>
    rcases hhear w' reply with h | ⟨rfl, h⟩
    · exact Or.inl h
    · exact Or.inr (Or.inr (Or.inr ⟨t, reply, rfl, h⟩))
  | pop | fire | requeue | complete | mapReduce => exact Or.inl rfl

/-- A worker that sends its completion is the only one to change. -/
theorem completing_cases (s : State ω) (w w' : ω) :
    Function.update s.workers w .completing w' = .completing ∨
      Function.update s.workers w .completing w' = s.workers w' := by
  by_cases heq : w' = w
  · left
    subst heq
    exact Function.update_self ..
  · right
    exact Function.update_of_ne heq ..

end DistributedLabs.MapReduce
