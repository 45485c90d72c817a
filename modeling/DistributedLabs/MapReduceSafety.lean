import DistributedLabs.MREquivalence
import DistributedLabs.MapReduceInvariant

/-!
Safety of a MapReduce job along every run: tokens are neither lost nor duplicated,
and phases, counters and done flags move one way, so that the coordinator reports
the job as done only after a completion for every reduce task.
-/
namespace DistributedLabs.MapReduce

open GoText Files Grouping Transition Tables MRTask Coordinator MRWorker

variable {ω : Type*}

/-- A worker that was handed reduce task `r` in the reduce phase has sent its completion. -/
def Credited (s : State ω) (r : ℕ) : Prop :=
  ∃ w, (w, reduceCompletion r) ∈ s.sent ∧
    ∃ o ∈ s.coord.handouts, o.caller = w ∧ o.task = ⟨r, .reduce⟩ ∧ o.phase = .reduce

/-- The sender of a reduce completion in the hands of mapReduce. -/
theorem credited_of_got {s : State ω} (hi : Inv s.coord) (hr : Roles s)
    {m : CompleteTaskArgs} {r : ℕ} (hgot : s.coord.pc = .reduceGot m)
    (htype : m.type = .reduce) (htid : m.tid = r) :
    Credited s r := by
  obtain ⟨p, hp, rfl⟩ := hr.got m (Or.inr hgot)
  rcases hr.sent p hp with ⟨a, _, heq⟩ | ⟨tid, heq, o, ho, hcaller, hreduce, hnumber⟩
  · rw [heq] at htype
    cases htype
  · have hphase : s.coord.phase = .reduce := hi.phases.phase_of_pc hgot rfl
    rw [heq] at htid
    have hr : tid = r := htid
    have hnum : o.task.tid = r := by omega
    have htask : o.task = ⟨r, .reduce⟩ := by
      rw [← hnum, ← hreduce]
    refine ⟨p.1, ?_, o, ho, hcaller, htask, hi.replies.handout_phase o ho hreduce hphase⟩
    rw [← hr, ← heq]
    exact hp

variable [DecidableEq ω] {P : Program} {s t : State ω}

theorem Step.lost_token {l : Label ω} (h : Step P s l t) (hr : Roles s) (hi : Inv s.coord)
    {task : Task} (hlost : tokens t.coord task < tokens s.coord task) :
    taskDone s.coord task = some true := by
  rcases h.coord_cases with heq | ⟨l', hstep, _, _⟩
  · rw [heq] at hlost
    omega
  · exact hstep.lost_token hi.phases hi.messages hi.tokens (h.inv hr hi).phases hlost

section WordCount

open MREquivalence

/-- MakeCoordinator has returned; there are two workers, and just the input files are
on disk. -/
def job (inputs : List (GoString × GoString)) (nReduce : ℕ) : Option (State Bool) :=
  (makeCoordinator (inputs.map Prod.fst) nReduce).map fun coord =>
    ⟨coord, fun name => (inputs.find? fun f => f.1 = name).map Prod.snd, fun _ => .idle, [], []⟩

theorem job_start {inputs : List (GoString × GoString)} {nReduce : ℕ} (hpos : 0 < nReduce)
    {s : State Bool} (h : job inputs nReduce = some s) : Start s := by
  obtain ⟨coord, hcoord, rfl⟩ := Option.map_eq_some_iff.mp h
  exact ⟨⟨_, nReduce, hpos, hcoord⟩, fun _ => rfl, rfl, rfl⟩

theorem job_reachable {P : Program} (inputs : List (GoString × GoString)) {nReduce : ℕ}
    (hpos : 0 < nReduce) (labels : List (Label Bool)) {p : State Bool → Bool}
    (h : ((job inputs nReduce).bind fun s => (system Bool P).run s labels).any p = true) :
    ∃ s, (system Bool P).Reachable s ∧ p s = true := by
  obtain ⟨s, hs, hp⟩ := (Option.any_eq_true _ _).mp h
  obtain ⟨s₀, hs₀, hrun⟩ := Option.bind_eq_some_iff.mp hs
  exact ⟨s, System.Reachable.of_run labels (job_start hpos hs₀) hrun, hp⟩

def wordCount : Program := ⟨jsonText, countMap, countReduce⟩

def keyA : GoString := ascii "a"

def oneFile : GoString := ascii "in.txt"

/-- A job with one file that holds one word. -/
def oneWord : List (GoString × GoString) := [(oneFile, keyA)]

def imFile : GoString := generateUniqueIntermediateFilename 0 0 fun _ => 0

/-- The first worker does the map task and the coordinator switches the phase. -/
def mapPhase : List (Label Bool) :=
  [.coordinator (.request false), .coordinator (.pop false),
   .coordinator (.check false ⟨0, .map⟩),
   .coordinator (.reply false ⟨0, .map⟩ ⟨.map, 0, oneFile, 1, []⟩),
   .work false .read, .work false (.create fun _ => 0), .work false (.compute [0]),
   .work false .write, .send false,
   .coordinator (.complete ⟨.map, 0, [⟨0, imFile⟩], []⟩),
   .coordinator .mapReduce, .coordinator .mapReduce, .coordinator .mapReduce,
   .coordinator .mapReduce, .coordinator .mapReduce, .work false .returned]

/-- A worker gets the reduce task and reads its input. -/
def takeReduce (w : Bool) : List (Label Bool) :=
  [.coordinator (.request w), .coordinator (.pop w), .coordinator (.check w ⟨0, .reduce⟩),
   .coordinator (.reply w ⟨0, .reduce⟩ ⟨.reduce, 0, [], 0, [imFile]⟩), .work w .read]

/-- It writes the output, and the coordinator takes its completion. -/
def finishReduce (w : Bool) : List (Label Bool) :=
  [.work w (.reduceCreate sortedIteration), .work w .write, .send w,
   .coordinator (.complete (reduceCompletion 0)), .coordinator .mapReduce,
   .coordinator .mapReduce, .coordinator .mapReduce]

/-- The file for reducer `r` of an attempt at map task `m` with the random bytes `k`. -/
def imName (m r : ℕ) (k : UInt8) : GoString := generateUniqueIntermediateFilename m r fun _ => k

/-- With two reducers: a worker takes map task `m` and writes its two files. -/
def mapAttempt (w : Bool) (m : ℕ) (file : GoString) (k : UInt8) : List (Label Bool) :=
  [.coordinator (.request w), .coordinator (.pop w), .coordinator (.check w ⟨m, .map⟩),
   .coordinator (.reply w ⟨m, .map⟩ ⟨.map, m, file, 2, []⟩), .work w .read,
   .work w (.create fun _ => k), .work w (.create fun _ => k), .work w (.compute [1, 0]),
   .work w .write, .work w .write]

/-- It sends its completion, and the coordinator takes it. -/
def mapCompletion (w : Bool) (m : ℕ) (k : UInt8) : List (Label Bool) :=
  [.send w, .coordinator (.complete ⟨.map, m, [⟨0, imName m 0 k⟩, ⟨1, imName m 1 k⟩], []⟩),
   .coordinator .mapReduce, .coordinator .mapReduce, .work w .returned]

/-- The first worker is slow with map task 0, which times out, so that the second does
both map tasks; the coordinator switches the phase, and the first worker finishes late. -/
def slowMap : List (Label Bool) :=
  mapAttempt false 0 (ascii "x.txt") 0 ++
    [.coordinator (.fire ⟨0, .map⟩), .coordinator (.requeue ⟨0, .map⟩)] ++
    mapAttempt true 1 (ascii "y.txt") 1 ++ mapCompletion true 1 1 ++
    mapAttempt true 0 (ascii "x.txt") 1 ++ mapCompletion true 0 1 ++
    List.replicate 4 (.coordinator .mapReduce) ++ mapCompletion false 0 0

end WordCount

theorem tokens_conserved (hs : (system ω P).Reachable s) :
    (∀ task, task.taskType = s.coord.phase → taskDone s.coord task = some false →
      tokens s.coord task = 1) ∧
    (∀ task, tokens s.coord task ≤ 1) ∧
    (∀ l t, (system ω P).step s l = some t → ∀ task,
      tokens t.coord task < tokens s.coord task → taskDone s.coord task = some true) ∧
    ∀ w task reply t, (system ω P).step s (.coordinator (.reply w task reply)) = some t →
      (s.coord.timers.countP fun timer => timer.task = task) = 0 ∧
      s.coord.handouts.countP (fun o => o.task = task) = s.coord.fired.count task := by
  obtain ⟨hi, hr⟩ := inv_reachable hs
  refine ⟨?_, hi.tokens.le_one, ?_, ?_⟩
  · intro task hphase hundone
    exact hi.tokens.one task (issued_of_current hi.phases hphase hundone) hundone
  · intro l t hstep task hlost
    exact (step_sound hstep).lost_token hr hi hlost
  · intro w task reply t hstep
    have hmem : ⟨w, .matched task reply⟩ ∈ s.coord.handlers := by
      have hreply : Step P s (.coordinator (.reply w task reply)) t := step_sound hstep
      cases hreply with
      | coordinator _ c _ hc =>
        cases hc with
        | reply _ _ _ hmem => exact hmem
    have hnone := hi.tokens.no_timer hmem
    have heach := hi.tokens.timer_each task
    rw [hnone] at heach
    exact ⟨hnone, heach⟩

set_option maxRecDepth 4000 in
theorem tokens_conserved_handedOut :
    ∃ s : State Bool, (system Bool wordCount).Reachable s ∧ s.coord.timers ≠ [] ∧
      tokens s.coord ⟨0, .reduce⟩ = 1 := by
  obtain ⟨s, hs, hp⟩ := job_reachable (P := wordCount) oneWord Nat.one_pos
    (mapPhase ++ takeReduce false)
    (p := fun s => decide (s.coord.timers ≠ [] ∧ s.coord.phase = .reduce ∧
      taskDone s.coord ⟨0, .reduce⟩ = some false)) (by decide)
  obtain ⟨htimers, hphase, hundone⟩ := of_decide_eq_true hp
  exact ⟨s, hs, htimers, (tokens_conserved hs).1 ⟨0, .reduce⟩ hphase.symm hundone⟩

theorem Step.sent_grow {l : Label ω} (h : Step P s l t) : s.sent ⊆ t.sent := by
  cases h with
  | coordinator => exact List.Subset.refl _
  | work => exact List.Subset.refl _
  | sendMap => exact List.subset_append_left _ _
  | sendReduce => exact List.subset_append_left _ _

theorem Step.handouts_grow {l : Label ω} (h : Step P s l t) :
    s.coord.handouts ⊆ t.coord.handouts := by
  rcases h.coord_cases with heq | ⟨l', hstep, _, _⟩
  · rw [heq]
    exact List.Subset.refl _
  · exact hstep.handouts_grow

theorem Credited.step {l : Label ω} {r : ℕ} (hc : Credited s r) (h : Step P s l t) :
    Credited t r := by
  obtain ⟨w, hsent, o, ho, hrest⟩ := hc
  exact ⟨w, h.sent_grow hsent, o, h.handouts_grow ho, hrest⟩

theorem credited_of_done (hs : (system ω P).Reachable s) {r : ℕ} {rt : ReduceTaskState}
    (hget : s.coord.reduceTaskState[r]? = some rt) (hdone : rt.done = true) : Credited s r := by
  have key : ∀ (r : ℕ) (rt : ReduceTaskState), s.coord.reduceTaskState[r]? = some rt →
      rt.done = true → Credited s r := by
    refine System.Reachable.invariant (I := fun s => ∀ (r : ℕ) (rt : ReduceTaskState),
      s.coord.reduceTaskState[r]? = some rt → rt.done = true → Credited s r) ?_ ?_ hs
    · intro s hs r rt hget hdone
      obtain ⟨files, nReduce, _, hmake⟩ := hs.coord
      obtain ⟨queue, _, hcoord⟩ := Option.map_eq_some_iff.mp hmake
      rw [← hcoord] at hget
      rw [List.eq_of_mem_replicate (List.mem_of_getElem? hget)] at hdone
      cases hdone
    · intro s l t hs ih hstep r rt hget hdone
      obtain ⟨hi, hr⟩ := inv_reachable hs
      have h : Step P s l t := step_sound hstep
      rcases h.coord_cases with heq | ⟨l', hc, _, _⟩
      · rw [heq] at hget
        exact (ih r rt hget hdone).step h
      · rcases hc.reduce_entry_cases hi.phases hi.tokens hget with
          ⟨hold, _⟩ | ⟨m, _, hgot, htype, htid, _⟩ | ⟨_, _, _, rfl⟩
        · exact (ih r rt hold hdone).step h
        · exact (credited_of_got hi hr hgot htype htid).step h
        · cases hdone
  exact key r rt hget hdone

theorem Step.phase_cases {l : Label ω} (h : Step P s l t) (hi : Inv s.coord) :
    t.coord.phase = s.coord.phase ∨ (s.coord.phase = .map ∧ t.coord.phase = .reduce) ∨
      (s.coord.phase = .reduce ∧ t.coord.phase = .done) := by
  rcases h.coord_cases with heq | ⟨l', hstep, _, _⟩
  · rw [heq]
    exact Or.inl rfl
  · exact hstep.phase_cases hi.phases

theorem Step.taskDone_true {l : Label ω} (h : Step P s l t) (hr : Roles s) (hi : Inv s.coord)
    {task : Task} (hdone : taskDone s.coord task = some true) :
    taskDone t.coord task = some true := by
  rcases h.coord_cases with heq | ⟨l', hstep, _, _⟩
  · rw [heq]
    exact hdone
  · exact hstep.taskDone_true hi.phases hi.messages hi.tokens (h.inv hr hi).phases hdone

theorem phase_safety (hs : (system ω P).Reachable s) :
    (∀ l t, (system ω P).step s l = some t →
      (t.coord.phase = s.coord.phase ∨ (s.coord.phase = .map ∧ t.coord.phase = .reduce) ∨
        (s.coord.phase = .reduce ∧ t.coord.phase = .done)) ∧
      ∀ task, taskDone s.coord task = some true → taskDone t.coord task = some true) ∧
    (s.coord.pc.mapping = true → s.coord.incompleteMapTasks = undoneMaps s.coord) ∧
    (s.coord.phase = .reduce → s.coord.incompleteReduceTasks = undoneReduces s.coord) ∧
    (∀ task reply, reqTask s.coord task = .task reply → reply.type = .reduce →
      ∀ mt ∈ s.coord.mapTaskState, mt.done = true) ∧
    (∀ o ∈ s.coord.handouts, o.reply.type = .reduce →
      ∀ mt ∈ s.coord.mapTaskState, mt.done = true) ∧
    (∀ m, s.coord.pc = .mapGot m → m.type ≠ .reduce) ∧
    (done s.coord = true → ∀ r < s.coord.nReduce, Credited s r) := by
  obtain ⟨hi, hr⟩ := inv_reachable hs
  have hlate : ∀ task reply, ReplyFor s.coord task reply → reply.type = .reduce →
      ∀ mt ∈ s.coord.mapTaskState, mt.done = true := fun task reply hfor htype =>
    hi.phases.map_done (hi.phases.mapping_of_not_map (hfor.not_map htype))
  refine ⟨?_, hi.phases.map_count, ?_, ?_, ?_, ?_, ?_⟩
  · intro l t hstep
    have h : Step P s l t := step_sound hstep
    exact ⟨h.phase_cases hi, fun task => h.taskDone_true hr hi⟩
  · intro hphase
    apply hi.phases.reduce_count
    apply hi.phases.mapping_of_not_map
    rw [hphase]
    exact nofun
  · intro task reply hans
    exact hlate task reply (reqTask_reply hans)
  · intro o ho
    exact hlate o.task o.reply (hi.replies.handout o ho)
  · intro m hgot htype
    exact hi.not_reduce_in_map hgot htype
  · intro hdone r hr
    obtain ⟨rt, hget, hmark⟩ := hi.phases.reduce_entry_done hdone hr
    exact credited_of_done hs hget hmark

set_option maxRecDepth 4000 in
theorem phase_safety_done :
    ∃ s : State Bool, (system Bool wordCount).Reachable s ∧ done s.coord = true ∧
      Credited s 0 := by
  obtain ⟨s, hs, hp⟩ := job_reachable (P := wordCount) oneWord Nat.one_pos
    (mapPhase ++ takeReduce false ++ finishReduce false)
    (p := fun s => decide (done s.coord = true ∧ 0 < s.coord.nReduce)) (by decide)
  obtain ⟨hdone, hpos⟩ := of_decide_eq_true hp
  obtain ⟨_, _, _, _, _, _, hcredited⟩ := phase_safety hs
  exact ⟨s, hs, hdone, hcredited hdone 0 hpos⟩

end DistributedLabs.MapReduce
