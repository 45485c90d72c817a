import DistributedLabs.CoordinatorCompletions
import DistributedLabs.SwitchDeadlock

/-!
One worker is enough. Wherever the other workers stopped, a worker that asks for
tasks and completes those it is given can bring the coordinator to its end, when
the task queue has room for all tasks. A task that is not done has a token, and
the token can make its way into the queue and through the queue to the worker.
-/
namespace DistributedLabs.Coordinator

open GoText Transition Tables

/-- What a worker may send for a task. -/
def Fulfils (nReduce : ℕ) (x : Task) (m : CompleteTaskArgs) : Prop :=
  m.tid = x.tid ∧
    match x.taskType with
    | .map => m.type = .map ∧ OneEach nReduce m.intermediateFiles
    | .reduce => m.type = .reduce
    | .done => True

variable {ω : Type*}

/-- Only `w` asks for tasks, one at a time, and sends the results of its own. -/
def Alone (w : ω) (work : Task → CompleteTaskArgs) (s : State ω) : Label ω → Prop
  | .request w' => w' = w ∧ ∀ h ∈ s.handlers, h.caller ≠ w
  | .complete m => ∃ o ∈ s.handouts, o.caller = w ∧ m = work o.task
  | .pop _ => True
  | .timeout _ => True
  | .check _ _ => True
  | .reply _ _ _ => True
  | .fire _ => True
  | .requeue _ => True
  | .mapReduce => True

/-- Every task fits into the task queue. -/
def Fits (s : State ω) : Prop := s.inputFiles.length + s.nReduce ≤ queueCap

def allTasks (s : State ω) : Finset Task :=
  MapReduce.queuedTasks s.inputFiles.length s.nReduce

def undone (s : State ω) : Finset Task := (allTasks s).filter fun x => taskDone s x = some false

/-- mapReduce waits for a completion. -/
def Starved (s : State ω) : Prop :=
  s.completionQueue = [] ∧
    (s.pc = .mapLoop ∧ 0 < s.incompleteMapTasks ∨ s.pc = .reduceLoop ∧ 0 < s.incompleteReduceTasks)

section Counting

variable {s t : State ω}

theorem mem_allTasks {x : Task} (h : Issued s x) : x ∈ allTasks s := by
  obtain ⟨i, taskType⟩ := x
  unfold allTasks MapReduce.queuedTasks
  rw [Finset.mem_union]
  cases taskType with
  | map => exact Or.inl (Finset.mem_image_of_mem _ (Finset.mem_range.mpr h))
  | reduce => exact Or.inr (Finset.mem_image_of_mem _ (Finset.mem_range.mpr h.1))
  | done => exact h.elim

/-- A task that is not in the queue leaves room in it. -/
theorem room (hs : Inv s) (hfit : Fits s) {x : Task} (hx : x ∈ allTasks s)
    (hnot : x ∉ s.taskQueue) : s.taskQueue.length < queueCap := by
  have hsub : s.taskQueue.toFinset ⊂ allTasks s := by
    rw [Finset.ssubset_iff_of_subset]
    · exact ⟨x, hx, by simpa using hnot⟩
    · intro y hy
      apply mem_allTasks
      apply hs.tokens.issued
      have hcount := List.count_pos_iff.mpr (List.mem_toFinset.mp hy)
      unfold tokens
      omega
  have hcard := Finset.card_lt_card hsub
  rw [List.toFinset_card_of_nodup hs.tokens.queue_nodup] at hcard
  have hall := MapReduce.queuedTasks_card s.inputFiles.length s.nReduce
  unfold Fits at hfit
  unfold allTasks at hcard
  omega

theorem notMem_queue_of_timer (hs : Inv s) {x : Task} {sending : Bool}
    (hx : ⟨x, sending⟩ ∈ s.timers) : x ∉ s.taskQueue := by
  intro hmem
  have hone := hs.tokens.le_one x
  have hqueue := List.count_pos_iff.mpr hmem
  have htimer : 0 < s.timers.countP fun timer => timer.task = x :=
    List.countP_pos_iff.mpr ⟨_, hx, by simp⟩
  unfold tokens at hone
  omega

theorem taskDone_congr (h : SameTables s t) (x : Task) : taskDone t x = taskDone s x := by
  unfold taskDone
  rw [h.mapTaskState, h.reduceTaskState]

/-- A starved coordinator has a task left in its phase. -/
theorem Starved.exists_undone (hs : Inv s) (h : Starved s) :
    s.pc.locked = false ∧ ∃ x, x.taskType = s.phase ∧ taskDone s x = some false := by
  rcases h.2 with ⟨hpc, hcount⟩ | ⟨hpc, hcount⟩
  · refine ⟨by rw [hpc]; rfl, ?_⟩
    have hundone := hs.phases.map_count (by rw [hpc]; rfl)
    have hpos : 0 < s.mapTaskState.countP fun mt => !mt.done := by
      unfold undoneMaps at hundone
      omega
    obtain ⟨mt, hmem, hmt⟩ := List.countP_pos_iff.mp hpos
    obtain ⟨i, hi⟩ := List.mem_iff_getElem?.mp hmem
    refine ⟨⟨i, .map⟩, (hs.phases.phase_of_pc hpc rfl).symm, ?_⟩
    simpa [taskDone, hi] using hmt
  · refine ⟨by rw [hpc]; rfl, ?_⟩
    have hundone := hs.phases.reduce_count (by rw [hpc]; rfl)
    have hpos : 0 < s.reduceTaskState.countP fun rt => !rt.done := by
      unfold undoneReduces at hundone
      omega
    obtain ⟨rt, hmem, hrt⟩ := List.countP_pos_iff.mp hpos
    obtain ⟨i, hi⟩ := List.mem_iff_getElem?.mp hmem
    refine ⟨⟨i, .reduce⟩, (hs.phases.phase_of_pc hpc rfl).symm, ?_⟩
    simpa [taskDone, hi] using hrt

/-- A not yet done task of the phase is handed out when a handler has it. -/
theorem reqTask_of_undone {x : Task} (hphase : x.taskType = s.phase)
    (hundone : taskDone s x = some false) : ∃ reply, reqTask s x = .task reply := by
  unfold taskDone at hundone
  unfold reqTask
  rw [if_neg (not_not.mpr hphase)]
  split at hundone
  · obtain ⟨mt, hmt, _⟩ := Option.map_eq_some_iff.mp hundone
    simp [hmt]
  · obtain ⟨rt, hrt, _⟩ := Option.map_eq_some_iff.mp hundone
    simp [hrt]
  · cases hundone

theorem Alone.proper {w : ω} {work : Task → CompleteTaskArgs} (hs : Inv s)
    (hwork : ∀ x, Fulfils s.nReduce x (work x)) {l : Label ω} (hok : Alone w work s l)
    (m : CompleteTaskArgs) (hl : l = .complete m) :
    Proper s m.deepCopy := by
  subst hl
  obtain ⟨o, ho, _, rfl⟩ := hok
  have hreply := hs.replies.handout o ho
  obtain ⟨htid, htype⟩ := hwork o.task
  unfold ReplyFor at hreply
  split at hreply
  · rename_i hmap
    obtain ⟨mt, hmt, _⟩ := hreply
    have hlt := getElem?_lt hmt
    rw [hs.phases.map_len] at hlt
    rw [hmap] at htype
    refine Or.inl ⟨htype.1, ?_, htype.2⟩
    change 0 ≤ (work o.task).tid ∧ (work o.task).tid < _
    omega
  · rename_i hreduce
    rw [hreduce] at htype
    exact Or.inr ⟨htype, o, ho, hreduce, htid.symm⟩
  · exact hreply.elim

end Counting

variable [DecidableEq ω] {w : ω} {work : Task → CompleteTaskArgs} {s t u : State ω}

abbrev Runs (w : ω) (work : Task → CompleteTaskArgs) (s t : State ω) : Prop :=
  (system ω).ReachesWithin (Alone w work) s t

/-- What is kept along every run of the one worker. -/
theorem Runs.kept (hs : Inv s) (hwork : ∀ x, Fulfils s.nReduce x (work x))
    (h : Runs w work s t) :
    Inv t ∧ t.nReduce = s.nReduce ∧ t.inputFiles = s.inputFiles ∧ undone t ⊆ undone s := by
  induction h with
  | refl => exact ⟨hs, rfl, rfl, Finset.Subset.refl _⟩
  | @tail t u l _ hok hstep ih =>
    obtain ⟨ht, hn, hfiles, hsub⟩ := ih
    have hstep := step_sound hstep
    have hu := ht.step hstep (hok.proper ht (hn.symm ▸ hwork))
    refine ⟨hu, hstep.nReduce_eq.trans hn, hstep.inputFiles_eq.trans hfiles, ?_⟩
    refine Finset.Subset.trans ?_ hsub
    intro x hx
    obtain ⟨hall, hundone⟩ := Finset.mem_filter.mp hx
    refine Finset.mem_filter.mpr ⟨?_, ?_⟩
    · unfold allTasks at hall ⊢
      rwa [hstep.nReduce_eq, hstep.inputFiles_eq] at hall
    · exact hstep.taskDone_false ht.phases ht.messages ht.tokens hundone

/-- A run in which mapReduce stands still and nothing is completed. -/
structure Waits (w : ω) (work : Task → CompleteTaskArgs) (s t : State ω) : Prop where
  run : Runs w work s t
  tables : SameTables s t
  pc : t.pc = s.pc
  completionQueue : t.completionQueue = s.completionQueue

theorem Waits.refl (s : State ω) : Waits w work s s :=
  ⟨System.ReachesWithin.refl, ⟨rfl, rfl, rfl, rfl, rfl, rfl, rfl⟩, rfl, rfl⟩

theorem Waits.trans (h : Waits w work s t) (h' : Waits w work t u) : Waits w work s u where
  run := System.ReachesWithin.trans h.run h'.run
  tables :=
    { nReduce := h'.tables.nReduce.trans h.tables.nReduce
      inputFiles := h'.tables.inputFiles.trans h.tables.inputFiles
      mapTaskState := h'.tables.mapTaskState.trans h.tables.mapTaskState
      reduceTaskState := h'.tables.reduceTaskState.trans h.tables.reduceTaskState
      phase := h'.tables.phase.trans h.tables.phase
      incompleteMapTasks := h'.tables.incompleteMapTasks.trans h.tables.incompleteMapTasks
      incompleteReduceTasks :=
        h'.tables.incompleteReduceTasks.trans h.tables.incompleteReduceTasks }
  pc := h'.pc.trans h.pc
  completionQueue := h'.completionQueue.trans h.completionQueue

/-- Handlers and timers do not complete anything. -/
theorem Step.completionQueue_eq {l : Label ω} (h : Step s l t) (hl : l ≠ .mapReduce)
    (hcomplete : ∀ m, l ≠ .complete m) : t.completionQueue = s.completionQueue := by
  cases h with
  | request | pop | timeout | checkSleep | checkPanic | checkTask | reply | firePanic | expire
  | startSend | requeue => rfl
  | complete m => exact absurd rfl (hcomplete m)
  | _ => exact absurd rfl hl

theorem Waits.of_step (hs : Inv s) {l : Label ω} (hok : Alone w work s l)
    (h : step s l = some t) (hl : l ≠ .mapReduce) (hcomplete : ∀ m, l ≠ .complete m) :
    Waits w work s t := by
  have hstep := step_sound h
  obtain ⟨htables, hpc, _⟩ := hstep.tables hl (hs.tokens.in_table hs.phases)
  exact ⟨System.ReachesWithin.single hok h, htables, hpc,
    hstep.completionQueue_eq hl hcomplete⟩

section Handing

theorem Waits.inv (h : Waits w work s t) (hs : Inv s)
    (hwork : ∀ x, Fulfils s.nReduce x (work x)) : Inv t := (Runs.kept hs hwork h.run).1

theorem Waits.fits (h : Waits w work s t) (hfit : Fits s) : Fits t := by
  unfold Fits at hfit ⊢
  rwa [h.tables.nReduce, h.tables.inputFiles]

theorem Waits.fulfils (h : Waits w work s t) (hwork : ∀ x, Fulfils s.nReduce x (work x)) :
    ∀ x, Fulfils t.nReduce x (work x) := by
  rw [h.tables.nReduce]
  exact hwork

theorem Waits.requeue (hs : Inv s) (hfit : Fits s) {x : Task} (hx : ⟨x, true⟩ ∈ s.timers) :
    Waits w work s (s.requeue x) := by
  have hissued := hs.tokens.issued x (tokens_pos_of_timer hx)
  have hroom := room hs hfit (mem_allTasks hissued) (notMem_queue_of_timer hs hx)
  refine Waits.of_step (l := .requeue x) hs trivial ?_ (by simp) (by simp)
  exact if_pos ⟨hx, hroom⟩

/-- The timers that block in their sends get through, and the lock is free of readers. -/
theorem flush (hs : Inv s) (hfit : Fits s) (hwork : ∀ x, Fulfils s.nReduce x (work x)) :
    ∃ t, Waits w work s t ∧ t.readers = false := by
  induction hn : s.timers.countP Timer.sending generalizing s with
  | zero =>
    refine ⟨s, Waits.refl s, ?_⟩
    rw [State.readers, List.any_eq_false]
    exact List.countP_eq_zero.mp hn
  | succ n ih =>
    obtain ⟨⟨x, sending⟩, hx, hsending⟩ := List.countP_pos_iff.mp (by omega : 0 <
      s.timers.countP Timer.sending)
    obtain rfl : sending = true := hsending
    have hstep : Waits w work s (s.requeue x) := Waits.requeue hs hfit hx
    have hcount := countP_erase_add Timer.sending hx
    have hfewer : (s.requeue x).timers.countP Timer.sending = n := by
      change (s.timers.erase ⟨x, true⟩).countP Timer.sending = n
      simp only [if_true] at hcount
      omega
    obtain ⟨t, ht, hreaders⟩ :=
      ih (hstep.inv hs hwork) (hstep.fits hfit) (hstep.fulfils hwork) hfewer
    exact ⟨t, hstep.trans ht, hreaders⟩

def HandlerPc.isPopped : HandlerPc → Bool
  | .popped _ => true
  | .waiting => false
  | .matched _ _ => false

def HandlerPc.isMatched : HandlerPc → Bool
  | .matched _ _ => true
  | .waiting => false
  | .popped _ => false

/-- The handlers that have popped a task look it up. -/
theorem check_popped (hs : Inv s) (hwork : ∀ x, Fulfils s.nReduce x (work x))
    (hlock : s.pc.locked = false) :
    ∃ t, Waits w work s t ∧ t.taskQueue = s.taskQueue ∧
      t.handlers.countP (fun h => h.pc.isPopped) = 0 := by
  induction hn : s.handlers.countP (fun h => h.pc.isPopped) generalizing s with
  | zero => exact ⟨s, Waits.refl s, rfl, hn⟩
  | succ n ih =>
    obtain ⟨⟨w', pc⟩, hmem, hpc⟩ := List.countP_pos_iff.mp (by omega : 0 <
      s.handlers.countP fun h => h.pc.isPopped)
    cases pc with
    | waiting => cases hpc
    | matched x reply => cases hpc
    | popped x =>
      have hcount := countP_erase_add (fun h : Handler ω => h.pc.isPopped) hmem
      change _ + 1 = _ at hcount
      have hnext : ∃ u, step s (.check w' x) = some u ∧ u.taskQueue = s.taskQueue ∧
          u.handlers.countP (fun h => h.pc.isPopped) = n := by
        cases hans : reqTask s x with
        | panic =>
          exact absurd (taskDone_of_panic hans)
            (hs.tokens.in_table hs.phases x (tokens_pos_of_handler hmem (by simp)))
        | sleep =>
          refine ⟨s.sleep w' (.popped x), by simp [step, hmem, hlock, hans], rfl, ?_⟩
          change (s.handlers.erase _).countP _ = n
          omega
        | task reply =>
          refine ⟨s.matchTask w' x reply, by simp [step, hmem, hlock, hans], rfl, ?_⟩
          change List.countP _ (_ :: s.handlers.erase _) = n
          rw [List.countP_cons_of_neg (by simp [HandlerPc.isPopped])]
          omega
      obtain ⟨u, hu, hqueue, hcount'⟩ := hnext
      have hstep : Waits w work s u :=
        Waits.of_step (l := .check w' x) hs trivial hu (by simp) (by simp)
      obtain ⟨t, ht, hq, hzero⟩ := ih (hstep.inv hs hwork) (hstep.fulfils hwork)
        (by rw [hstep.pc]; exact hlock) hcount'
      exact ⟨t, hstep.trans ht, hq.trans hqueue, hzero⟩

/-- The handlers with an answer ready give it. -/
theorem reply_matched (hs : Inv s) (hwork : ∀ x, Fulfils s.nReduce x (work x))
    (hpopped : s.handlers.countP (fun h => h.pc.isPopped) = 0) :
    ∃ t, Waits w work s t ∧ t.taskQueue = s.taskQueue ∧
      ∀ h ∈ t.handlers, h.pc = .waiting := by
  induction hn : s.handlers.countP (fun h => h.pc.isMatched) generalizing s with
  | zero =>
    refine ⟨s, Waits.refl s, rfl, ?_⟩
    intro h hmem
    have hp := List.countP_eq_zero.mp hpopped h hmem
    have hm := List.countP_eq_zero.mp hn h hmem
    obtain ⟨w', pc⟩ := h
    cases pc with
    | waiting => rfl
    | popped x => exact absurd rfl hp
    | matched x reply => exact absurd rfl hm
  | succ n ih =>
    obtain ⟨⟨w', pc⟩, hmem, hpc⟩ := List.countP_pos_iff.mp (by omega : 0 <
      s.handlers.countP fun h => h.pc.isMatched)
    cases pc with
    | waiting => cases hpc
    | popped x => cases hpc
    | matched x reply =>
      have hcount := countP_erase_add (fun h : Handler ω => h.pc.isMatched) hmem
      have hcount' := countP_erase_add (fun h : Handler ω => h.pc.isPopped) hmem
      change _ + 1 = _ at hcount
      change _ + 0 = _ at hcount'
      have hstep : Waits w work s (s.handOut w' x reply) :=
        Waits.of_step (l := .reply w' x reply) hs trivial (if_pos hmem) (by simp) (by simp)
      obtain ⟨t, ht, hq, hall⟩ := ih (hstep.inv hs hwork) (hstep.fulfils hwork)
        (by change (s.handlers.erase _).countP _ = 0; omega)
        (by change (s.handlers.erase _).countP _ = n; omega)
      exact ⟨t, hstep.trans ht, hq, hall⟩

/-- All handlers that have left the select answer. -/
theorem settle (hs : Inv s) (hwork : ∀ x, Fulfils s.nReduce x (work x))
    (hlock : s.pc.locked = false) :
    ∃ t, Waits w work s t ∧ t.taskQueue = s.taskQueue ∧ ∀ h ∈ t.handlers, h.pc = .waiting := by
  obtain ⟨t, ht, hq, hzero⟩ := check_popped (w := w) hs hwork hlock
  obtain ⟨u, hu, hq', hall⟩ := reply_matched (w := w) (ht.inv hs hwork) (ht.fulfils hwork) hzero
  exact ⟨u, ht.trans hu, hq'.trans hq, hall⟩

/-- A task that is not done comes back into the queue when its timer fires. -/
theorem queue_again (hs : Inv s) (hfit : Fits s) (hwork : ∀ x, Fulfils s.nReduce x (work x))
    (hlock : s.pc.locked = false) (hall : ∀ h ∈ s.handlers, h.pc = .waiting) {x : Task}
    (hphase : x.taskType = s.phase) (hundone : taskDone s x = some false) :
    ∃ t, Waits w work s t ∧ x ∈ t.taskQueue ∧ ∀ h ∈ t.handlers, h.pc = .waiting := by
  by_cases hqueue : x ∈ s.taskQueue
  · exact ⟨s, Waits.refl s, hqueue, hall⟩
  have hone := hs.tokens.one x (issued_of_current hs.phases hphase hundone) hundone
  have hholds : s.handlers.countP (Handler.holds x) = 0 := by
    rw [List.countP_eq_zero]
    intro h hmem
    rw [Handler.holds, hall h hmem]
    exact nofun
  have htimer : 0 < s.timers.countP fun timer => timer.task = x := by
    unfold tokens at hone
    rw [hholds, List.count_eq_zero_of_not_mem hqueue] at hone
    omega
  obtain ⟨⟨x', sending⟩, hmem, hx⟩ := List.countP_pos_iff.mp htimer
  obtain rfl : x' = x := of_decide_eq_true hx
  cases sending with
  | true =>
    exact ⟨s.requeue x', Waits.requeue hs hfit hmem,
      List.mem_append_right _ (List.mem_singleton.mpr rfl), hall⟩
  | false =>
    have hfire : Waits w work s (s.startSend x') := by
      refine Waits.of_step (l := .fire x') hs trivial ?_ (by simp) (by simp)
      simp [step, hmem, hlock, hundone, hphase]
    have hsend : Waits w work (s.startSend x') ((s.startSend x').requeue x') :=
      Waits.requeue (hfire.inv hs hwork) (hfire.fits hfit) List.mem_cons_self
    exact ⟨_, hfire.trans hsend, List.mem_append_right _ (List.mem_singleton.mpr rfl), hall⟩

/-- The worker has been given the task. -/
def Given (w : ω) (x : Task) (s : State ω) : Prop :=
  ∃ o ∈ s.handouts, o.caller = w ∧ o.task = x

/-- The worker waits for a task, after asking for one if it has not. -/
theorem ask (work : Task → CompleteTaskArgs) (hs : Inv s)
    (hall : ∀ h ∈ s.handlers, h.pc = .waiting) :
    ∃ t, Waits w work s t ∧ t.taskQueue = s.taskQueue ∧ ⟨w, .waiting⟩ ∈ t.handlers := by
  by_cases hasked : ∃ h ∈ s.handlers, h.caller = w
  · obtain ⟨⟨w', pc⟩, hmem, rfl⟩ := hasked
    obtain rfl : pc = .waiting := hall _ hmem
    exact ⟨s, Waits.refl s, rfl, hmem⟩
  · have hnone : ∀ h ∈ s.handlers, h.caller ≠ w := fun h hmem heq => hasked ⟨h, hmem, heq⟩
    exact ⟨_, Waits.of_step (l := .request w) hs ⟨rfl, hnone⟩ rfl (by simp) (by simp), rfl,
      List.mem_cons_self⟩

theorem Waits.pop (hs : Inv s) (hmem : ⟨w, .waiting⟩ ∈ s.handlers) {y : Task}
    {rest : List Task} (hq : s.taskQueue = y :: rest) : Waits w work s (s.pop w y rest) := by
  refine Waits.of_step (l := .pop w) hs trivial ?_ (by simp) (by simp)
  simp [step, hmem, hq]

/-- The worker fetches the tasks before the one it is to get, and then this one. -/
theorem fetch (hs : Inv s) (hwork : ∀ x, Fulfils s.nReduce x (work x))
    (hlock : s.pc.locked = false) (hall : ∀ h ∈ s.handlers, h.pc = .waiting) {x : Task}
    (hphase : x.taskType = s.phase) (hundone : taskDone s x = some false)
    {front rest : List Task} (hq : s.taskQueue = front ++ x :: rest) :
    ∃ t, Waits w work s t ∧ Given w x t := by
  induction front generalizing s with
  | nil =>
    obtain ⟨a, ha, hqa, hmem⟩ := ask (w := w) work hs hall
    have hia := ha.inv hs hwork
    have hpop : Waits w work a (a.pop w x rest) := Waits.pop hia hmem (hqa.trans hq)
    have hib := hpop.inv hia (ha.fulfils hwork)
    have hpopped : ⟨w, .popped x⟩ ∈ (a.pop w x rest).handlers := List.mem_cons_self
    have hdone : taskDone (a.pop w x rest) x = some false := by
      rw [taskDone_congr hpop.tables, taskDone_congr ha.tables, hundone]
    have hcur : x.taskType = (a.pop w x rest).phase := by
      rw [hpop.tables.phase, ha.tables.phase, hphase]
    obtain ⟨reply, hans⟩ := reqTask_of_undone hcur hdone
    have hcheck : Waits w work (a.pop w x rest) ((a.pop w x rest).matchTask w x reply) := by
      refine Waits.of_step (l := .check w x) hib trivial ?_ (by simp) (by simp)
      simp [step, hpopped, hpop.pc, ha.pc, hlock, hans]
    have hreply : Waits w work ((a.pop w x rest).matchTask w x reply)
        (((a.pop w x rest).matchTask w x reply).handOut w x reply) :=
      Waits.of_step (l := .reply w x reply)
        (hcheck.inv hib (hpop.fulfils (ha.fulfils hwork))) trivial
        (if_pos List.mem_cons_self) (by simp) (by simp)
    exact ⟨_, ha.trans (hpop.trans (hcheck.trans hreply)), _,
      List.mem_append_right _ (List.mem_singleton.mpr rfl), rfl, rfl⟩
  | cons y front ih =>
    obtain ⟨a, ha, hqa, hmem⟩ := ask (w := w) work hs hall
    have hia := ha.inv hs hwork
    have hpop : Waits w work a (a.pop w y (front ++ x :: rest)) :=
      Waits.pop hia hmem (hqa.trans hq)
    have hsofar := ha.trans hpop
    obtain ⟨b, hb, hqb, hallb⟩ := settle (w := w) (hsofar.inv hs hwork) (hsofar.fulfils hwork)
      (by rw [hsofar.pc]; exact hlock)
    have hsofar := hsofar.trans hb
    obtain ⟨t, ht, hgiven⟩ := ih (hsofar.inv hs hwork) (hsofar.fulfils hwork)
      (by rw [hsofar.pc]; exact hlock) hallb (hphase.trans hsofar.tables.phase.symm)
      (by rw [taskDone_congr hsofar.tables, hundone]) hqb
    exact ⟨t, hsofar.trans ht, hgiven⟩

/-- Wherever its token is, a task that is not done can be given to the worker. -/
theorem give (hs : Inv s) (hfit : Fits s) (hwork : ∀ x, Fulfils s.nReduce x (work x))
    (hlock : s.pc.locked = false) {x : Task} (hphase : x.taskType = s.phase)
    (hundone : taskDone s x = some false) : ∃ t, Waits w work s t ∧ Given w x t := by
  obtain ⟨a, ha, _, hall⟩ := settle (w := w) hs hwork hlock
  have hia := ha.inv hs hwork
  have hphasea := hphase.trans ha.tables.phase.symm
  have hundonea : taskDone a x = some false := by rw [taskDone_congr ha.tables, hundone]
  obtain ⟨b, hb, hmem, hallb⟩ := queue_again (w := w) hia (ha.fits hfit) (ha.fulfils hwork)
    (by rw [ha.pc]; exact hlock) hall hphasea hundonea
  have hsofar := ha.trans hb
  obtain ⟨front, rest, hq⟩ := List.append_of_mem hmem
  obtain ⟨t, ht, hgiven⟩ := fetch (w := w) (hsofar.inv hs hwork) (hsofar.fulfils hwork)
    (by rw [hsofar.pc]; exact hlock) hallb (hphase.trans hsofar.tables.phase.symm)
    (by rw [taskDone_congr hsofar.tables, hundone]) hq
  exact ⟨t, hsofar.trans ht, hgiven⟩

end Handing

section MapReduce

omit [DecidableEq ω]

theorem mapReduce_mapReceive (hpc : s.pc = .mapLoop) (hcount : 0 < s.incompleteMapTasks)
    {m : CompleteTaskArgs} {rest : List CompleteTaskArgs} (hq : s.completionQueue = m :: rest) :
    s.mapReduce = some
      { s with completionQueue := rest, received := s.received ++ [m], pc := .mapGot m } := by
  simp only [State.mapReduce, hpc, if_pos hcount, hq]

theorem mapReduce_reduceReceive (hpc : s.pc = .reduceLoop) (hcount : 0 < s.incompleteReduceTasks)
    {m : CompleteTaskArgs} {rest : List CompleteTaskArgs} (hq : s.completionQueue = m :: rest) :
    s.mapReduce = some
      { s with completionQueue := rest, received := s.received ++ [m], pc := .reduceGot m } := by
  simp only [State.mapReduce, hpc, if_pos hcount, hq]

/-- A map completion that mapReduce has is accepted as soon as no timer holds the lock. -/
theorem mapReduce_mapAccept (hs : Inv s) (hreaders : s.readers = false) {m : CompleteTaskArgs}
    (hpc : s.pc = .mapGot m) (htype : m.type = .map) : s.mapReduce = some (s.acceptMap m) := by
  obtain ⟨hrange, hshape⟩ := (hs.messages.map_got m hpc).of_map htype
  have hin : ¬ (m.tid < 0 ∨ (s.inputFiles.length : ℤ) ≤ m.tid) := by omega
  simp [State.mapReduce, hpc, htype, hin, hshape.length, hreaders]

theorem mapReduce_reduceAccept (hreaders : s.readers = false) {m : CompleteTaskArgs}
    (hpc : s.pc = .reduceGot m) (htype : m.type = .reduce)
    (hrange : 0 ≤ m.tid ∧ m.tid < s.nReduce) : s.mapReduce = some (s.acceptReduce m) := by
  have hin : ¬ (m.tid < 0 ∨ (s.nReduce : ℤ) ≤ m.tid) := by omega
  simp [State.mapReduce, hpc, htype, hin, hreaders]

/-- A completion of an unfinished task of the phase, once received, is accepted. -/
theorem accepted (hs : Inv s) (hreaders : s.readers = false) {x : Task} {m : CompleteTaskArgs}
    (hm : Fulfils s.nReduce x m) (hundone : taskDone s x = some false)
    (hpc : x.taskType = .map ∧ s.pc = .mapGot m ∨ x.taskType = .reduce ∧ s.pc = .reduceGot m) :
    ∃ t, s.mapReduce = some t ∧ taskDone t x = some true := by
  obtain ⟨i, taskType⟩ := x
  obtain ⟨htid, htype⟩ := hm
  rcases hpc with ⟨rfl, hpc⟩ | ⟨rfl, hpc⟩
  · obtain ⟨mt, hmt, hfalse⟩ := Option.map_eq_some_iff.mp hundone
    refine ⟨_, mapReduce_mapAccept hs hreaders hpc htype.1, ?_⟩
    have hi : m.tid.toNat = i := by simp [htid]
    have hlt : i < s.mapTaskState.length := getElem?_lt hmt
    obtain ⟨mt', hmt', ⟨htrue, _⟩ | ⟨_, heq⟩⟩ := acceptMap_cases s m (by rwa [hi])
    · rw [hi, hmt] at hmt'
      rw [Option.some.inj hmt', htrue] at hfalse
      cases hfalse
    · rw [heq]
      simp [taskDone, hi, hlt]
  · obtain ⟨rt, hrt, hfalse⟩ := Option.map_eq_some_iff.mp hundone
    have hlt : i < s.reduceTaskState.length := getElem?_lt hrt
    have hrange : 0 ≤ m.tid ∧ m.tid < s.nReduce := by
      rw [htid, ← hs.phases.reduce_len]
      exact ⟨Int.natCast_nonneg i, Int.ofNat_lt.mpr hlt⟩
    refine ⟨_, mapReduce_reduceAccept hreaders hpc htype hrange, ?_⟩
    have hi : m.tid.toNat = i := by simp [htid]
    obtain ⟨rt', hrt', ⟨htrue, _⟩ | ⟨_, heq⟩⟩ := acceptReduce_cases s m (by rwa [hi])
    · rw [hi, hrt] at hrt'
      rw [Option.some.inj hrt', htrue] at hfalse
      cases hfalse
    · rw [heq]
      simp [taskDone, hi, hlt]

/-- mapReduce takes the completion that it waits for. -/
theorem receive (hs : Inv s) (hstarved : Starved s) {x : Task} (hphase : x.taskType = s.phase)
    (m : CompleteTaskArgs) :
    ∃ t, { s with completionQueue := [m] }.mapReduce = some t ∧ SameTables s t ∧
      (x.taskType = .map ∧ t.pc = .mapGot m ∨ x.taskType = .reduce ∧ t.pc = .reduceGot m) := by
  rcases hstarved.2 with ⟨hpc, hcount⟩ | ⟨hpc, hcount⟩
  · have hmap : x.taskType = .map := hphase.trans (hs.phases.phase_of_pc hpc rfl)
    exact ⟨_, mapReduce_mapReceive (s := { s with completionQueue := [m] }) hpc hcount rfl,
      ⟨rfl, rfl, rfl, rfl, rfl, rfl, rfl⟩, Or.inl ⟨hmap, rfl⟩⟩
  · have hreduce : x.taskType = .reduce := hphase.trans (hs.phases.phase_of_pc hpc rfl)
    exact ⟨_, mapReduce_reduceReceive (s := { s with completionQueue := [m] }) hpc hcount rfl,
      ⟨rfl, rfl, rfl, rfl, rfl, rfl, rfl⟩, Or.inr ⟨hreduce, rfl⟩⟩

end MapReduce

section Weight

omit [DecidableEq ω]

/-- How far mapReduce is from the point where it waits for a completion or ends. -/
def Pc.weight (nReduce : ℕ) : Pc → ℕ
  | .mapLoop => nReduce + 3
  | .mapGot _ => nReduce + 4
  | .mapRequeue _ => nReduce + 4
  | .spawn tid => nReduce - tid + 2
  | .reduceLoop => 1
  | .reduceGot _ => 2
  | .finished => 0
  | .panicked => 0

def State.weight (s : State ω) : ℕ := 4 * s.completionQueue.length + s.pc.weight s.nReduce

theorem weight_eq {pc : Pc} (hpc : s.pc = pc) :
    s.weight = 4 * s.completionQueue.length + pc.weight s.nReduce := by
  rw [State.weight, hpc]

theorem acceptMap_weight (hs : Inv s) {m : CompleteTaskArgs} (hpc : s.pc = .mapGot m)
    (hrange : 0 ≤ m.tid ∧ m.tid < s.inputFiles.length) : (s.acceptMap m).weight < s.weight := by
  have hlt : m.tid.toNat < s.mapTaskState.length := by
    rw [hs.phases.map_len]
    omega
  obtain ⟨_, _, ⟨_, heq⟩ | ⟨_, heq⟩⟩ := acceptMap_cases s m hlt
  · rw [heq, weight_eq hpc]
    simp [State.weight, Pc.weight]
  · rw [heq, weight_eq hpc]
    simp [State.weight, Pc.weight]

theorem acceptReduce_weight (hs : Inv s) {m : CompleteTaskArgs} (hpc : s.pc = .reduceGot m)
    (hrange : 0 ≤ m.tid ∧ m.tid < s.nReduce) : (s.acceptReduce m).weight < s.weight := by
  have hlt : m.tid.toNat < s.reduceTaskState.length := by
    rw [hs.phases.reduce_len]
    omega
  obtain ⟨_, _, ⟨_, heq⟩ | ⟨_, heq⟩⟩ := acceptReduce_cases s m hlt
  · rw [heq, weight_eq hpc]
    simp [State.weight, Pc.weight]
  · rw [heq, weight_eq hpc]
    simp [State.weight, Pc.weight]

/-- The send of the phase switch finds room. -/
theorem spawn_room (hs : Inv s) (hfit : Fits s) {tid : ℕ} (hpc : s.pc = .spawn tid)
    (hlt : tid < s.nReduce) : s.taskQueue.length < queueCap := by
  refine room hs hfit (x := ⟨tid, .reduce⟩) ?_ ?_
  · exact Finset.mem_union_right _ (Finset.mem_image_of_mem _ (Finset.mem_range.mpr hlt))
  · intro hmem
    have hcount := List.count_pos_iff.mpr hmem
    have hissued := (hs.tokens.issued ⟨tid, .reduce⟩ (by unfold tokens; omega)).2
    simp [hpc, Pc.spawned] at hissued

/-- Unless it waits for a completion, mapReduce goes on when no timer holds the lock. -/
theorem mapReduce_advances (hs : Inv s) (hfit : Fits s) (hreaders : s.readers = false)
    (hnot : ¬ Starved s) (hdone : done s = false) :
    ∃ t, s.mapReduce = some t ∧ t.weight < s.weight := by
  have hphase := hs.phases.phase_eq
  cases hpc : s.pc with
  | mapLoop =>
    by_cases hcount : 0 < s.incompleteMapTasks
    · cases hq : s.completionQueue with
      | nil => exact absurd ⟨hq, Or.inl ⟨hpc, hcount⟩⟩ hnot
      | cons m rest =>
        refine ⟨_, mapReduce_mapReceive hpc hcount hq, ?_⟩
        rw [weight_eq hpc, hq]
        simp only [State.weight, Pc.weight, List.length_cons]
        omega
    · refine ⟨_, by simp only [State.mapReduce, hpc, if_neg hcount, hreaders]; rfl, ?_⟩
      rw [weight_eq hpc]
      simp only [State.weight, Pc.weight]
      omega
  | mapGot m =>
    by_cases htype : m.type = .map
    · have hrange := ((hs.messages.map_got m hpc).of_map htype).1
      exact ⟨s.acceptMap m, mapReduce_mapAccept hs hreaders hpc htype,
        acceptMap_weight hs hpc hrange⟩
    · refine ⟨{ s with pc := .mapLoop }, by simp [State.mapReduce, hpc, htype], ?_⟩
      rw [weight_eq hpc]
      simp [State.weight, Pc.weight]
  | mapRequeue tid => exact absurd hpc (hs.messages.not_requeue tid)
  | spawn tid =>
    by_cases hlt : tid < s.nReduce
    · have hroom := spawn_room hs hfit hpc hlt
      refine ⟨_, by simp only [State.mapReduce, hpc, if_pos hlt, if_pos hroom]; rfl, ?_⟩
      rw [weight_eq hpc]
      simp only [State.weight, Pc.weight]
      omega
    · refine ⟨s.switch, by simp only [State.mapReduce, hpc, if_neg hlt], ?_⟩
      obtain ⟨rts, heq, _⟩ := switch_eq hs.phases (by rw [hpc]; rfl)
        (hs.phases.phase_of_pc hpc rfl)
      rw [heq, weight_eq hpc]
      simp only [State.weight, Pc.weight]
      omega
  | reduceLoop =>
    by_cases hcount : 0 < s.incompleteReduceTasks
    · cases hq : s.completionQueue with
      | nil => exact absurd ⟨hq, Or.inr ⟨hpc, hcount⟩⟩ hnot
      | cons m rest =>
        refine ⟨_, mapReduce_reduceReceive hpc hcount hq, ?_⟩
        rw [weight_eq hpc, hq]
        simp only [State.weight, Pc.weight, List.length_cons]
        omega
    · refine ⟨_, by simp only [State.mapReduce, hpc, if_neg hcount, hreaders]; rfl, ?_⟩
      rw [weight_eq hpc]
      simp [State.weight, Pc.weight]
  | reduceGot m =>
    by_cases hskip : m.type ≠ .reduce ∨ m.tid < 0 ∨ (s.nReduce : ℤ) ≤ m.tid
    · refine ⟨{ s with pc := .reduceLoop }, ?_, ?_⟩
      · rcases hskip with htype | hrange
        · simp [State.mapReduce, hpc, htype]
        · simp [State.mapReduce, hpc, hrange]
      · rw [weight_eq hpc]
        simp [State.weight, Pc.weight]
    · obtain ⟨htype, hin⟩ := not_or.mp hskip
      have hrange : 0 ≤ m.tid ∧ m.tid < s.nReduce := by omega
      exact ⟨s.acceptReduce m, mapReduce_reduceAccept hreaders hpc (not_not.mp htype) hrange,
        acceptReduce_weight hs hpc hrange⟩
  | finished =>
    rw [hpc] at hphase
    simp [done, ← Option.some.inj hphase] at hdone
  | panicked =>
    rw [hpc] at hphase
    cases hphase

end Weight

/-- mapReduce works off what has been sent to it. -/
theorem drain (hs : Inv s) (hfit : Fits s) (hwork : ∀ x, Fulfils s.nReduce x (work x)) :
    ∃ t, Runs w work s t ∧ (done t = true ∨ Starved t) := by
  induction hn : s.weight using Nat.strong_induction_on generalizing s with
  | _ n ih =>
    by_cases hend : done s = true ∨ Starved s
    · exact ⟨s, System.ReachesWithin.refl, hend⟩
    obtain ⟨a, ha, hreaders⟩ := flush (w := w) hs hfit hwork
    have hweight : a.weight = n := by
      rw [← hn, State.weight, State.weight, ha.completionQueue, ha.pc, ha.tables.nReduce]
    have hnot : ¬ Starved a := by
      intro h
      apply hend
      right
      unfold Starved at h ⊢
      rwa [ha.completionQueue, ha.pc, ha.tables.incompleteMapTasks,
        ha.tables.incompleteReduceTasks] at h
    have hdone : done a = false := by
      rw [done, ha.tables.phase]
      exact Bool.eq_false_of_not_eq_true fun h => hend (Or.inl h)
    obtain ⟨b, hb, hlt⟩ := mapReduce_advances (ha.inv hs hwork) (ha.fits hfit) hreaders hnot hdone
    have hrun : Runs w work s b :=
      System.ReachesWithin.tail .mapReduce ha.run trivial hb
    obtain ⟨hib, hnr, hfiles, _⟩ := hrun.kept hs hwork
    obtain ⟨t, ht, hgoal⟩ := ih b.weight (by omega) hib (by rw [Fits, hnr, hfiles]; exact hfit)
      (by rw [hnr]; exact hwork) rfl
    exact ⟨t, System.ReachesWithin.trans hrun ht, hgoal⟩

/-- From a coordinator that waits, the worker brings one more task to its end. -/
theorem finish_one (hs : Inv s) (hfit : Fits s) (hwork : ∀ x, Fulfils s.nReduce x (work x))
    (hstarved : Starved s) : ∃ t, Runs w work s t ∧ (undone t).card < (undone s).card := by
  obtain ⟨hlock, x, hphase, hundone⟩ := hstarved.exists_undone hs
  obtain ⟨a, ha, o, ho, hcaller, rfl⟩ := give (w := w) hs hfit hwork hlock hphase hundone
  have hia := ha.inv hs hwork
  have hstarveda : Starved a := by
    unfold Starved
    rw [ha.completionQueue, ha.pc, ha.tables.incompleteMapTasks, ha.tables.incompleteReduceTasks]
    exact hstarved
  -- the worker sends the completion and mapReduce receives it
  have hsend : step a (.complete (work o.task)) =
      some { a with completionQueue := [(work o.task).deepCopy] } := by
    simp [step, hstarveda.1, queueCap]
  obtain ⟨b, hb, htables, hgot⟩ :=
    receive hia hstarveda (hphase.trans ha.tables.phase.symm) (work o.task).deepCopy
  have hrunb : Runs w work s b :=
    System.ReachesWithin.tail .mapReduce (System.ReachesWithin.tail (.complete (work o.task)) ha.run
      ⟨o, ho, hcaller, rfl⟩ hsend) trivial hb
  obtain ⟨hib, hnb, hfilesb, _⟩ := hrunb.kept hs hwork
  have hworkb : ∀ x, Fulfils b.nReduce x (work x) := by
    rw [hnb]
    exact hwork
  obtain ⟨c, hc, hreaders⟩ := flush (w := w) hib (by rw [Fits, hnb, hfilesb]; exact hfit) hworkb
  have hundonec : taskDone c o.task = some false := by
    rw [taskDone_congr hc.tables, taskDone_congr htables, taskDone_congr ha.tables, hundone]
  obtain ⟨d, hd, hdone⟩ := accepted (hc.inv hib hworkb) hreaders
    (m := (work o.task).deepCopy) (hc.fulfils hworkb o.task) hundonec (by rwa [hc.pc])
  have hrun : Runs w work s d :=
    System.ReachesWithin.tail .mapReduce (System.ReachesWithin.trans hrunb hc.run) trivial hd
  refine ⟨d, hrun, Finset.card_lt_card ?_⟩
  have hsub := (hrun.kept hs hwork).2.2.2
  rw [Finset.ssubset_iff_of_subset hsub]
  refine ⟨o.task, Finset.mem_filter.mpr ⟨?_, hundone⟩, ?_⟩
  · exact mem_allTasks (issued_of_current hs.phases hphase hundone)
  · intro hmem
    have hfalse := (Finset.mem_filter.mp hmem).2
    rw [hdone] at hfalse
    cases hfalse

/-- The worker can bring the job to its end. -/
theorem runs_to_done (hs : Inv s) (hfit : Fits s)
    (hwork : ∀ x, Fulfils s.nReduce x (work x)) :
    ∃ t, Runs w work s t ∧ done t = true := by
  induction hn : (undone s).card using Nat.strong_induction_on generalizing s with
  | _ n ih =>
    obtain ⟨a, ha, hend⟩ := drain (w := w) hs hfit hwork
    rcases hend with hdone | hstarved
    · exact ⟨a, ha, hdone⟩
    · obtain ⟨hia, hna, hfilesa, hsub⟩ := ha.kept hs hwork
      have hfita : Fits a := by
        rw [Fits, hna, hfilesa]
        exact hfit
      have hworka : ∀ x, Fulfils a.nReduce x (work x) := by
        rw [hna]
        exact hwork
      obtain ⟨b, hb, hlt⟩ := finish_one (w := w) hia hfita hworka hstarved
      obtain ⟨hib, hnb, hfilesb, _⟩ := hb.kept hia hworka
      have hcard := Finset.card_le_card hsub
      obtain ⟨t, ht, hdone⟩ := ih (undone b).card (by omega) hib
        (by rw [Fits, hnb, hfilesb]; exact hfita) (by rw [hnb]; exact hworka) rfl
      exact ⟨t, System.ReachesWithin.trans ha (System.ReachesWithin.trans hb ht), hdone⟩

/-- Whatever the worker and the coordinator have done on their own since the others
stopped, the coordinator can still be brought to Done without them. -/
theorem one_worker_can_finish {P : MRWorker.Program} {j : MapReduce.State ω}
    (hj : (MapReduce.system ω P).Reachable j)
    (hfit : j.coord.inputFiles.length + j.coord.nReduce ≤ queueCap) (w : ω)
    (work : Task → CompleteTaskArgs) (hwork : ∀ x, Fulfils j.coord.nReduce x (work x)) :
    ∀ s, (system ω).ReachesWithin (Alone w work) j.coord s →
      ∃ t, (system ω).ReachesWithin (Alone w work) s t ∧ done t = true := by
  intro s hs
  obtain ⟨hi, hn, hfiles, _⟩ := Runs.kept (MapReduce.inv_reachable hj).1 hwork hs
  apply runs_to_done hi
  · rw [Fits, hn, hfiles]
    exact hfit
  · rw [hn]
    exact hwork

/-- What a worker makes of the tasks of a job with two reducers. -/
def twoReducerWork (x : Task) : CompleteTaskArgs :=
  match x.taskType with
  | .map => ⟨.map, x.tid, [⟨0, MapReduce.imName x.tid 0 2⟩, ⟨1, MapReduce.imName x.tid 1 2⟩], []⟩
  | .reduce => ⟨.reduce, x.tid, [], []⟩
  | .done => ⟨.sleep, x.tid, [], []⟩

theorem fulfils_twoReducerWork (x : Task) : Fulfils 2 x (twoReducerWork x) := by
  obtain ⟨i, taskType⟩ := x
  cases taskType with
  | map => exact ⟨rfl, rfl, rfl⟩
  | reduce => exact ⟨rfl, rfl⟩
  | done => exact ⟨rfl, trivial⟩

set_option maxRecDepth 4000 in
/-- The first worker has written the files of map task 0 and is not heard of again; the
second has asked for a task since. -/
theorem one_worker_can_finish_abandoned :
    ∃ (j : MapReduce.State Bool) (s t : State Bool),
      (MapReduce.system Bool MapReduce.wordCount).Reachable j ∧
      j.coord.handouts.map Handout.caller = [false] ∧
      (system Bool).ReachesWithin (Alone true twoReducerWork) j.coord s ∧
      ⟨true, .popped ⟨1, .map⟩⟩ ∈ s.handlers ∧
      (system Bool).ReachesWithin (Alone true twoReducerWork) s t ∧ done t = true := by
  obtain ⟨j, hj, hp⟩ := MapReduce.job_reachable (P := MapReduce.wordCount) MREquivalence.twoFiles
    Nat.two_pos (MapReduce.mapAttempt false 0 (ascii "x.txt") 0)
    (p := fun j => decide (j.coord.handouts.map Handout.caller = [false] ∧
      j.coord.handlers = [] ∧ j.coord.taskQueue = [⟨1, .map⟩] ∧
      j.coord.inputFiles.length + j.coord.nReduce ≤ queueCap ∧ j.coord.nReduce = 2))
    (by decide +kernel)
  obtain ⟨hcaller, hhandlers, hqueue, hfit, hn⟩ := of_decide_eq_true hp
  have hwork : ∀ x, Fulfils j.coord.nReduce x (twoReducerWork x) := by
    rw [hn]
    exact fulfils_twoReducerWork
  have hrequest : step j.coord (.request true) =
      some { j.coord with handlers := [⟨true, .waiting⟩] } := by simp [step, hhandlers]
  have hpop : step { j.coord with handlers := [⟨true, .waiting⟩] } (.pop true) =
      some { j.coord with taskQueue := [], handlers := [⟨true, .popped ⟨1, .map⟩⟩] } := by
    simp [step, State.pop, hqueue]
  have hs : (system Bool).ReachesWithin (Alone true twoReducerWork) j.coord
      { j.coord with taskQueue := [], handlers := [⟨true, .popped ⟨1, .map⟩⟩] } :=
    System.ReachesWithin.tail (.pop true) (System.ReachesWithin.tail (.request true) .refl
      ⟨rfl, by simp [hhandlers]⟩ hrequest) trivial hpop
  obtain ⟨t, ht, hdone⟩ := one_worker_can_finish hj hfit true twoReducerWork hwork _ hs
  exact ⟨j, _, t, hj, hcaller, hs, by simp, ht, hdone⟩

end DistributedLabs.Coordinator
