import DistributedLabs.MapReduce

/-!
What the workers of a job do, against what the coordinator has told them: a worker
on a map task has the task and the number of reducers from the coordinator, one on
a reduce task was handed that task, and every completion that reaches the
coordinator was sent by a worker. With this the invariant of the coordinator holds
along every run of the job.
-/
namespace DistributedLabs.MRWorker

open Coordinator

/-- The map task a worker is on: its number and the number of reducers. -/
def Worker.mapTask : Worker → Option (ℤ × ℕ)
  | .mapRead tid _ nReduce => some (tid, nReduce)
  | .mapCreate a => some (a.tid, a.nReduce)
  | .mapWrite a _ => some (a.tid, a.nReduce)
  | .idle => none
  | .waiting => none
  | .reduceRead _ _ _ => none
  | .reduceWrite _ _ _ => none
  | .completing => none
  | .exited => none

def Worker.reduceTask : Worker → Option ℤ
  | .reduceRead tid _ _ => some tid
  | .reduceWrite tid _ _ => some tid
  | .idle => none
  | .waiting => none
  | .mapRead _ _ _ => none
  | .mapCreate _ => none
  | .mapWrite _ _ => none
  | .completing => none
  | .exited => none

variable {P : Program} {disk disk' : Files.Disk} {worker worker' : Worker} {act : Action}

theorem Act.mapTask (h : Act P disk worker act worker' disk') {task : ℤ × ℕ}
    (htask : worker'.mapTask = some task) : worker.mapTask = some task := by
  cases h <;> first | exact htask | cases htask

theorem Act.reduceTask (h : Act P disk worker act worker' disk') {tid : ℤ}
    (htask : worker'.reduceTask = some tid) : worker.reduceTask = some tid := by
  cases h <;> first | exact htask | cases htask

theorem Act.full (h : Act P disk worker act worker' disk')
    (hfull : ∀ a rest, worker = .mapWrite a rest → a.names.length = a.nReduce)
    {a : MapAttempt} {rest : List ℕ} (hw : worker' = .mapWrite a rest) :
    a.names.length = a.nReduce := by
  cases h with
  | compute a' order hlen =>
    cases hw
    exact hlen
  | mapWrite a' r rest' =>
    cases hw
    exact hfull a (r :: rest) rfl
  | _ => cases hw

theorem MapAttempt.oneEach (a : MapAttempt) : OneEach a.names.length a.intermediateFiles := by
  unfold OneEach MapAttempt.intermediateFiles
  rw [List.map_map, List.range_eq_range', ← List.zipIdx_map_snd 0 a.names, List.map_map]
  rfl

end DistributedLabs.MRWorker

namespace DistributedLabs.MapReduce

open GoText Files Transition MRTask Coordinator MRWorker

variable {ω : Type*}

def MapTask (c : Coordinator.State ω) (tid : ℤ) (nReduce : ℕ) : Prop :=
  nReduce = c.nReduce ∧ 0 ≤ tid ∧ tid < c.inputFiles.length

/-- The worker was handed this reduce task. -/
def Handed (c : Coordinator.State ω) (w : ω) (tid : ℤ) : Prop :=
  ∃ o ∈ c.handouts, o.caller = w ∧ o.task.taskType = .reduce ∧ (o.task.tid : ℤ) = tid

/-- A completion as it arrives from some worker. -/
def Sent (s : State ω) (m : CompleteTaskArgs) : Prop := ∃ p ∈ s.sent, m = p.2.deepCopy

/-- What a worker is on agrees with what the coordinator told it. -/
structure Fits (c : Coordinator.State ω) (w : ω) (worker : Worker) : Prop where
  map_task : ∀ tid nReduce, worker.mapTask = some (tid, nReduce) → MapTask c tid nReduce
  reduce_task : ∀ tid, worker.reduceTask = some tid → Handed c w tid
  full : ∀ a rest, worker = .mapWrite a rest → a.names.length = a.nReduce

structure Roles (s : State ω) : Prop where
  workers : ∀ w, Fits s.coord w (s.workers w)
  finished : ∀ a ∈ s.finished, MapTask s.coord a.tid a.nReduce ∧ a.names.length = a.nReduce
  sent : ∀ p ∈ s.sent, (∃ a ∈ s.finished, p.2 = a.completion) ∨
    ∃ tid, p.2 = reduceCompletion tid ∧ Handed s.coord p.1 tid
  queue : ∀ m ∈ s.coord.completionQueue, Sent s m
  got : ∀ m, s.coord.pc = .mapGot m ∨ s.coord.pc = .reduceGot m → Sent s m
  received : ∀ m ∈ s.coord.received, Sent s m

theorem proper_of_sent {s : State ω} (hr : Roles s) {p : ω × CompleteTaskArgs}
    (hp : p ∈ s.sent) : Proper s.coord p.2.deepCopy := by
  rcases hr.sent p hp with ⟨a, ha, heq⟩ | ⟨tid, heq, o, ho, _, htype, htid⟩
  · obtain ⟨⟨hreduce, hrange⟩, hlen⟩ := hr.finished a ha
    left
    rw [heq, ← hreduce, ← hlen]
    exact ⟨rfl, hrange, a.oneEach⟩
  · right
    rw [heq]
    exact ⟨rfl, o, ho, htype, htid⟩

theorem permitted_complete [DecidableEq ω] {s : State ω} {m : CompleteTaskArgs}
    (h : permitted s (.complete m) = true) : ∃ p ∈ s.sent, p.2 = m :=
  List.mem_map.mp (of_decide_eq_true h)

namespace Fits

variable {c c' : Coordinator.State ω} {w : ω} {worker worker' : Worker}

theorem of_none (hmap : worker.mapTask = none) (hreduce : worker.reduceTask = none) :
    Fits c w worker where
  map_task tid nReduce h := by
    rw [hmap] at h
    cases h
  reduce_task tid h := by
    rw [hreduce] at h
    cases h
  full a rest h := by
    rw [h] at hmap
    cases hmap

theorem act {P : Program} {disk disk' : Disk} {a : Action} (hf : Fits c w worker)
    (h : Act P disk worker a worker' disk') : Fits c w worker' where
  map_task tid nReduce htask := hf.map_task tid nReduce (h.mapTask htask)
  reduce_task tid htask := hf.reduce_task tid (h.reduceTask htask)
  full _ _ hw := h.full hf.full hw

variable [DecidableEq ω]

theorem coordinator {l : Coordinator.Label ω} (hf : Fits c w worker)
    (h : Coordinator.Step c l c') : Fits c' w worker where
  map_task tid nReduce htask := by
    unfold MapTask
    rw [h.nReduce_eq, h.inputFiles_eq]
    exact hf.map_task tid nReduce htask
  reduce_task tid htask := by
    obtain ⟨o, ho, hrest⟩ := hf.reduce_task tid htask
    exact ⟨o, h.handouts_grow ho, hrest⟩
  full := hf.full

/-- A worker that takes up a reply is on the task it was handed. -/
theorem receive (hi : Inv c) {t : Task} {reply : ReqTaskReply}
    (h : Coordinator.Step c (.reply w t reply) c') : Fits c' w (Worker.receive reply) := by
  cases h with
  | reply _ _ _ hmem =>
    have hfor := hi.replies.matched w t reply hmem
    unfold ReplyFor at hfor
    split at hfor
    · obtain ⟨mt, hmt, rfl⟩ := hfor
      refine ⟨?_, nofun, nofun⟩
      intro tid nReduce heq
      cases heq
      have hlt := Tables.getElem?_lt hmt
      rw [hi.phases.map_len] at hlt
      exact ⟨rfl, Int.natCast_nonneg _, Int.ofNat_lt.mpr hlt⟩
    · rename_i htype
      obtain ⟨_, rt, hrt, rfl⟩ := hfor
      refine ⟨nofun, ?_, nofun⟩
      intro tid heq
      cases heq
      exact ⟨_, List.mem_append_right _ (List.mem_singleton.mpr rfl), rfl, htype, rfl⟩
    · exact hfor.elim

end Fits

theorem roles_start {s : State ω} (hs : Start s) : Roles s := by
  obtain ⟨files, nReduce, _, hmake⟩ := hs.coord
  obtain ⟨queue, _, hcoord⟩ := Option.map_eq_some_iff.mp hmake
  constructor
  · intro w
    rw [hs.workers w]
    exact Fits.of_none rfl rfl
  · simp [hs.finished]
  · simp [hs.sent]
  · simp [← hcoord]
  · simp [← hcoord]
  · simp [← hcoord]

variable [DecidableEq ω] {s t : State ω}

namespace Roles

theorem coordinator_step {l : Coordinator.Label ω} {c : Coordinator.State ω} (hr : Roles s)
    (hi : Inv s.coord) (hperm : permitted s l = true) (h : Coordinator.Step s.coord l c) :
    Roles { s with coord := c, workers := heard s l } := by
  have hgot : ∀ m, c.pc = .mapGot m ∨ c.pc = .reduceGot m → Sent s m := by
    intro m hpc
    rcases h.got_cases hpc with hold | hqueue
    · exact hr.got m hold
    · exact hr.queue m hqueue
  constructor
  · intro w
    dsimp only
    rcases heard_cases s l w with heq | heq | heq | ⟨t, reply, rfl, heq⟩
    · rw [heq]
      exact (hr.workers w).coordinator h
    · rw [heq]
      exact Fits.of_none rfl rfl
    · rw [heq]
      exact Fits.of_none rfl rfl
    · rw [heq]
      exact Fits.receive hi h
  · intro a ha
    obtain ⟨htask, hlen⟩ := hr.finished a ha
    refine ⟨?_, hlen⟩
    unfold MapTask
    rw [h.nReduce_eq, h.inputFiles_eq]
    exact htask
  · intro p hp
    rcases hr.sent p hp with hmap | ⟨tid, heq, o, ho, hrest⟩
    · exact Or.inl hmap
    · exact Or.inr ⟨tid, heq, o, h.handouts_grow ho, hrest⟩
  · intro m hm
    rcases h.completion_cases hm with hold | ⟨m', rfl, rfl⟩
    · exact hr.queue m hold
    · obtain ⟨p, hp, rfl⟩ := permitted_complete hperm
      exact ⟨p, hp, rfl⟩
  · exact hgot
  · intro m hm
    rcases h.received_cases with heq | ⟨m', heq, hcase⟩
    · exact hr.received m (heq ▸ hm)
    · rcases List.mem_append.mp (heq ▸ hm) with hold | hnew
      · exact hr.received m hold
      · rw [List.mem_singleton.mp hnew]
        exact hgot m' (hcase.imp (fun h => h.2) fun h => h.2)

theorem work_step {P : Program} (hr : Roles s) {w : ω} {a : Action} {worker : Worker}
    {disk : Disk} (h : Act P s.disk (s.workers w) a worker disk) :
    Roles { s with disk, workers := Function.update s.workers w worker } :=
  { hr with
    workers := (Function.forall_update_iff _ _).mpr
      ⟨(hr.workers w).act h, fun w' _ => hr.workers w'⟩ }

/-- A worker that sends its completion, on a map attempt or a reduce task. -/
theorem send_step (hr : Roles s) (w : ω) (finished : List MapAttempt) (m : CompleteTaskArgs)
    (hfinished : ∀ a ∈ finished, MapTask s.coord a.tid a.nReduce ∧ a.names.length = a.nReduce)
    (hgrow : s.finished ⊆ finished)
    (hsent : (∃ a ∈ finished, m = a.completion) ∨
      ∃ tid, m = reduceCompletion tid ∧ Handed s.coord w tid) :
    Roles { s with
      workers := Function.update s.workers w .completing
      finished
      sent := s.sent ++ [(w, m)] } := by
  have hmono : ∀ m', Sent s m' → ∃ p ∈ s.sent ++ [(w, m)], m' = p.2.deepCopy := by
    rintro m' ⟨p, hp, heq⟩
    exact ⟨p, List.mem_append_left _ hp, heq⟩
  constructor
  · exact (Function.forall_update_iff _ _).mpr
      ⟨Fits.of_none rfl rfl, fun w' _ => hr.workers w'⟩
  · exact hfinished
  · intro p hp
    rcases List.mem_append.mp hp with hold | hnew
    · rcases hr.sent p hold with ⟨a, ha, heq⟩ | hreduce
      · exact Or.inl ⟨a, hgrow ha, heq⟩
      · exact Or.inr hreduce
    · rw [List.mem_singleton.mp hnew]
      exact hsent
  · exact fun m' hm' => hmono m' (hr.queue m' hm')
  · exact fun m' hm' => hmono m' (hr.got m' hm')
  · exact fun m' hm' => hmono m' (hr.received m' hm')

theorem step {P : Program} {l : Label ω} (hr : Roles s) (hi : Inv s.coord)
    (h : Step P s l t) : Roles t := by
  cases h with
  | coordinator l c hperm hstep => exact hr.coordinator_step hi hperm hstep
  | work w a worker disk hact => exact hr.work_step hact
  | sendMap w a hw =>
    have hfits := hr.workers w
    rw [hw] at hfits
    refine hr.send_step w _ _ ?_ (List.subset_append_left _ _) (Or.inl ⟨a, by simp, rfl⟩)
    intro a' ha'
    rcases List.mem_append.mp ha' with hold | hnew
    · exact hr.finished a' hold
    · rw [List.mem_singleton.mp hnew]
      exact ⟨hfits.map_task a.tid a.nReduce rfl, hfits.full a [] rfl⟩
  | sendReduce w tid offset hw =>
    have hfits := hr.workers w
    rw [hw] at hfits
    exact hr.send_step w _ _ hr.finished (List.Subset.refl _)
      (Or.inr ⟨tid, rfl, hfits.reduce_task tid rfl⟩)

end Roles

/-- The coordinator inside a job takes a step of its own or is left alone. -/
theorem Step.coord_cases {P : Program} {l : Label ω} (h : Step P s l t) :
    t.coord = s.coord ∨ ∃ l', Coordinator.Step s.coord l' t.coord ∧ permitted s l' = true ∧
      l = .coordinator l' := by
  cases h with
  | coordinator l' c hperm hstep => exact Or.inr ⟨l', hstep, hperm, rfl⟩
  | work => exact Or.inl rfl
  | sendMap => exact Or.inl rfl
  | sendReduce => exact Or.inl rfl

theorem Step.inv {P : Program} {l : Label ω} (h : Step P s l t) (hr : Roles s)
    (hi : Inv s.coord) : Inv t.coord := by
  rcases h.coord_cases with heq | ⟨l', hstep, hperm, _⟩
  · rw [heq]
    exact hi
  · apply hi.step hstep
    rintro m rfl
    obtain ⟨p, hp, rfl⟩ := permitted_complete hperm
    exact proper_of_sent hr hp

/-- The coordinator's invariant and the roles of the workers, along every run. -/
theorem inv_reachable {P : Program} (h : (system ω P).Reachable s) :
    Inv s.coord ∧ Roles s := by
  refine System.Reachable.invariant (I := fun s => Inv s.coord ∧ Roles s) ?_ ?_ h
  · intro s hs
    obtain ⟨files, nReduce, _, hmake⟩ := hs.coord
    exact ⟨inv_start hmake, roles_start hs⟩
  · intro s l t _ ih hstep
    have hs := step_sound hstep
    exact ⟨hs.inv ih.2 ih.1, ih.2.step ih.1 hs⟩

end DistributedLabs.MapReduce
