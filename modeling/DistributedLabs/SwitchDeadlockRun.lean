import DistributedLabs.SwitchDeadlock

/-!
The run into the deadlock of the phase switch. One worker does all map tasks, each
slowly enough that its timer has put it into the queue again before its completion
arrives. During the switch each worker takes a task, and mapReduce fills the queue.
-/
namespace DistributedLabs.MapReduce

open GoText Files Transition Tables MRTask Coordinator MRWorker

variable {ω : Type*} [DecidableEq ω] {P : Program} {s : State ω}

/-- The random bytes of every file name of the run. -/
def zeros : Fin 16 → UInt8 := fun _ => 0

/-- A worker is handed a map task, and the timer of the task fires. -/
theorem reaches_taken (w : ω) {i : ℕ} {rest : List Task} {mt : MapTaskState}
    (hw : s.workers w = .idle) (hhandlers : s.coord.handlers = [])
    (htimers : s.coord.timers = []) (hpc : s.coord.pc = .mapLoop)
    (hphase : s.coord.phase = .map) (hqueue : s.coord.taskQueue = ⟨i, .map⟩ :: rest)
    (hroom : rest.length < queueCap) (hentry : s.coord.mapTaskState[i]? = some mt)
    (hundone : mt.done = false) :
    ∃ handouts fired, (system ω P).Reaches s
      { s with
        coord := { s.coord with taskQueue := rest ++ [⟨i, .map⟩], handouts, fired }
        workers := Function.update s.workers w (.mapRead i mt.inputFile s.coord.nReduce) } := by
  obtain ⟨c, disk, workers, finished, sent⟩ := s
  obtain ⟨nReduce, inputFiles, mts, rts, queue, cq, phase, pc, im, ir, handlers, timers, handouts,
    fired, received⟩ := c
  dsimp only at hw hhandlers htimers hpc hphase hqueue hentry
  subst hhandlers htimers hpc hphase hqueue
  refine ⟨handouts ++ [⟨w, ⟨i, .map⟩, ⟨.map, i, mt.inputFile, nReduce, []⟩, .map⟩],
    fired ++ [⟨i, .map⟩], System.reaches_of_run _
    [.coordinator (.request w), .coordinator (.pop w), .coordinator (.check w ⟨i, .map⟩),
     .coordinator (.reply w ⟨i, .map⟩ ⟨.map, i, mt.inputFile, nReduce, []⟩),
     .coordinator (.fire ⟨i, .map⟩), .coordinator (.requeue ⟨i, .map⟩)] ?_⟩
  simp [System.run, system, step, permitted, heard, hear, Coordinator.step, reqTask, taskDone,
    Coordinator.State.pop, Coordinator.State.matchTask, Coordinator.State.handOut,
    Coordinator.State.startSend, Coordinator.State.requeue, Pc.locked, Worker.receive, hw, hentry,
    hundone, hroom]

/-- The files of one map task are the only new ones. -/
def OnlyNew (i : ℕ) (disk disk' : Disk) : Prop :=
  ∀ name, (∀ r : ℕ, name ≠ generateUniqueIntermediateFilename i r zeros) →
    (disk' name = none ↔ disk name = none)

theorem OnlyNew.trans {i : ℕ} {disk disk' disk'' : Disk} (h : OnlyNew i disk disk')
    (h' : OnlyNew i disk' disk'') : OnlyNew i disk disk'' := fun name hname =>
  (h' name hname).trans (h name hname)

theorem write_eq_none (disk : Disk) (name other : GoString) (offset : ℕ) (bytes : GoString) :
    write disk name offset bytes other = none ↔ disk other = none := by
  by_cases hname : other = name
  · subst hname
    rw [write_self, Option.map_eq_none_iff]
  · rw [write_of_ne disk hname]

/-- The state after a worker's operations. -/
@[simps]
def State.worked (s : State ω) (w : ω) (worker : Worker) (disk : Disk) : State ω :=
  { s with disk, workers := Function.update s.workers w worker }

theorem State.worked_at (s : State ω) (w : ω) (worker : Worker) (disk : Disk) :
    (s.worked w worker disk).workers w = worker :=
  Function.update_self ..

theorem State.worked_worked (s : State ω) (w : ω) (worker worker' : Worker) (disk disk' : Disk) :
    (s.worked w worker disk).worked w worker' disk' = s.worked w worker' disk' := by
  simp [State.worked]

theorem State.worked_self (s : State ω) (w : ω) {worker : Worker} (hw : s.workers w = worker) :
    s.worked w worker s.disk = s := by
  rw [State.worked, ← hw, Function.update_eq_self]

theorem step_worked {w : ω} {a : Action} {worker : Worker} {disk : Disk}
    (h : act P s.disk (s.workers w) a = some (worker, disk)) :
    (system ω P).step s (.work w a) = some (s.worked w worker disk) := by
  simp [system, step, h, State.worked]

/-- A worker creates all files of a map attempt. -/
theorem reaches_created (w : ω) {i : ℕ} (k : ℕ) {a : MapAttempt} (hw : s.workers w = .mapCreate a)
    (htid : a.tid = i) (hlen : a.names.length + k = a.nReduce)
    (hfresh : ∀ r, a.names.length ≤ r →
      s.disk (generateUniqueIntermediateFilename i r zeros) = none) :
    ∃ a' disk, (system ω P).Reaches s (s.worked w (.mapCreate a') disk) ∧
      a'.tid = i ∧ a'.nReduce = a.nReduce ∧ a'.names.length = a.nReduce ∧
      OnlyNew i s.disk disk := by
  induction k generalizing s a with
  | zero =>
    refine ⟨a, s.disk, ?_, htid, rfl, hlen, fun name _ => Iff.rfl⟩
    rw [s.worked_self w hw]
    exact System.Reaches.refl
  | succ k ih =>
    have hname : a.nextName zeros = generateUniqueIntermediateFilename i a.names.length zeros := by
      rw [MapAttempt.nextName, htid]
    have hact : act P s.disk (s.workers w) (.create zeros) =
        some (.mapCreate (a.addName zeros), create s.disk (a.nextName zeros)) := by
      have hlt : a.names.length < a.nReduce := by omega
      have hfree := hfresh a.names.length le_rfl
      simp [act, hw, hname, hfree, hlt]
    have hnames : (a.addName zeros).names.length = a.names.length + 1 := by
      simp [MapAttempt.addName]
    have hlen' : (a.addName zeros).names.length + k = (a.addName zeros).nReduce := by
      rw [hnames, Nat.add_right_comm]
      exact hlen
    have hfresh' : ∀ r, (a.addName zeros).names.length ≤ r → create s.disk (a.nextName zeros)
        (generateUniqueIntermediateFilename i r zeros) = none := by
      intro r hr
      rw [create_of_ne]
      · exact hfresh r (by omega)
      · rw [hname]
        intro heq
        have := intermediateFilename_inj heq
        omega
    obtain ⟨a', disk, hreach, htid', hn, hfull, hnew⟩ :=
      ih (s.worked_at w (.mapCreate (a.addName zeros)) (create s.disk (a.nextName zeros)))
        htid hlen' hfresh'
    rw [State.worked_worked] at hreach
    refine ⟨a', disk, System.Reaches.head (step_worked hact) hreach, htid', hn, hfull, ?_⟩
    refine OnlyNew.trans (fun name hother => ?_) hnew
    rw [State.worked_disk, create_of_ne]
    rw [hname]
    exact hother _

theorem reaches_written (w : ω) {a : MapAttempt} (rest : List ℕ)
    (hw : s.workers w = .mapWrite a rest) :
    ∃ disk, (system ω P).Reaches s (s.worked w (.mapWrite a []) disk) ∧
      ∀ name, disk name = none ↔ s.disk name = none := by
  induction rest generalizing s with
  | nil =>
    refine ⟨s.disk, ?_, fun name => Iff.rfl⟩
    rw [s.worked_self w hw]
    exact System.Reaches.refl
  | cons r rest ih =>
    have hact : act P s.disk (s.workers w) .write =
        some (.mapWrite a rest, write s.disk (a.name r) 0 (a.content P r)) := by
      simp [act, hw]
    obtain ⟨disk, hreach, hsame⟩ :=
      ih (s.worked_at w (.mapWrite a rest) (write s.disk (a.name r) 0 (a.content P r)))
    rw [State.worked_worked] at hreach
    refine ⟨disk, System.Reaches.head (step_worked hact) hreach, fun name => ?_⟩
    rw [hsame, State.worked_disk, write_eq_none]

/-- A worker does a map task and sends the completion. -/
theorem reaches_sent {s₀ : State ω} (hs : (system ω P).Reaches s₀ s) (w : ω) {i nReduce : ℕ}
    {file input : GoString} (hw : s.workers w = .mapRead i file nReduce)
    (hfile : s.disk file = some input)
    (hfresh : ∀ r : ℕ, s.disk (generateUniqueIntermediateFilename i r zeros) = none) :
    ∃ a disk, (system ω P).Reaches s₀
        { s.worked w .idle disk with
          finished := s.finished ++ [a]
          sent := s.sent ++ [(w, a.completion)] } ∧
      a.tid = i ∧ a.names.length = nReduce ∧ OnlyNew i s.disk disk := by
  have hread : act P s.disk (s.workers w) .read =
      some (.mapCreate ⟨i, file, nReduce, input, []⟩, s.disk) := by
    simp [act, hw, hfile]
  obtain ⟨a, disk, hcreate, htid, hn, hfull, hnew⟩ := reaches_created (P := P) w nReduce
    (s.worked_at w (.mapCreate ⟨i, file, nReduce, input, []⟩) s.disk) rfl (Nat.zero_add _)
    fun r _ => hfresh r
  rw [State.worked_worked] at hcreate
  have hcompute : act P disk ((s.worked w (.mapCreate a) disk).workers w)
      (.compute (List.range a.nReduce)) = some (.mapWrite a (List.range a.nReduce), disk) := by
    have hlen : a.names.length = a.nReduce := hfull.trans hn.symm
    simp [act, hlen]
  obtain ⟨disk', hwrite, hsame⟩ := reaches_written (P := P) w (List.range a.nReduce)
    (s.worked_at w (.mapWrite a (List.range a.nReduce)) disk)
  rw [State.worked_worked] at hwrite
  refine ⟨a, disk', ?_, htid, hfull, fun name hname => (hsame name).trans (hnew name hname)⟩
  refine hs.trans ((System.Reaches.head (step_worked hread) hcreate).trans ?_)
  have hstep := step_worked (s := s.worked w (.mapCreate a) disk) hcompute
  rw [State.worked_worked] at hstep
  refine (System.Reaches.head hstep hwrite).trans ?_
  refine System.reaches_of_run _ [.send w, .work w .returned] ?_
  simp [System.run, system, step, act, State.worked]

/-- The coordinator takes a completion of a map task that is not done. -/
theorem reaches_accepted {s₀ : State ω} (hs : (system ω P).Reaches s₀ s) {i : ℕ} {w : ω}
    {a : MapAttempt} {mt : MapTaskState} (hsent : (w, a.completion) ∈ s.sent) (htid : a.tid = i)
    (hlen : a.names.length = s.coord.nReduce) (hpc : s.coord.pc = .mapLoop)
    (hcompletions : s.coord.completionQueue = []) (htimers : s.coord.timers = [])
    (hcount : 0 < s.coord.incompleteMapTasks) (hi : i < s.coord.inputFiles.length)
    (hentry : s.coord.mapTaskState[i]? = some mt) (hundone : mt.done = false) :
    ∃ mt' received, (system ω P).Reaches s₀
      { s with coord := { s.coord with
          mapTaskState := s.coord.mapTaskState.set i mt'
          incompleteMapTasks := s.coord.incompleteMapTasks - 1
          received } } := by
  obtain ⟨c, disk, workers, finished, sent⟩ := s
  obtain ⟨nReduce, inputFiles, mts, rts, queue, cq, phase, pc, im, ir, handlers, timers, handouts,
    fired, received⟩ := c
  dsimp only at hsent hlen hpc hcompletions htimers hcount hi hentry
  subst hpc hcompletions htimers
  have hcompletion : a.completion = ⟨.map, i, a.intermediateFiles, []⟩ := by
    rw [MapAttempt.completion, htid]
  have hmem : decide (a.completion ∈ sent.map Prod.snd) = true :=
    decide_eq_true (List.mem_map.mpr ⟨_, hsent, rfl⟩)
  rw [hcompletion] at hmem
  have hfiles : a.intermediateFiles.length = nReduce := a.oneEach.length.trans hlen
  refine ⟨{ mt with
      done := true
      intermediateFiles := a.intermediateFiles ++
        mt.intermediateFiles.drop a.intermediateFiles.length },
    received ++ [⟨.map, i, a.intermediateFiles, []⟩], hs.trans (System.reaches_of_run _
    [.coordinator (.complete ⟨.map, i, a.intermediateFiles, []⟩), .coordinator .mapReduce,
     .coordinator .mapReduce] ?_)⟩
  have hrange : ¬ (inputFiles.length : ℤ) ≤ i := by omega
  simp [System.run, system, step, permitted, heard, Coordinator.step, Coordinator.State.mapReduce,
    Coordinator.State.acceptMap, Coordinator.State.readers, CompleteTaskArgs.deepCopy,
    hmem, hcount, hrange, hfiles, hentry, hundone, queueCap]

/-- The first `i` map tasks are done and back in the queue, and nothing is under way. -/
structure MapsDone (files : List GoString) (nReduce i : ℕ) (s : State ω) : Prop where
  files_eq : s.coord.inputFiles = files
  nReduce_eq : s.coord.nReduce = nReduce
  queue : s.coord.taskQueue =
    (List.range' i (files.length - i)).map (fun j => ⟨j, .map⟩) ++
      (List.range i).map fun j => ⟨j, .map⟩
  handlers : s.coord.handlers = []
  timers : s.coord.timers = []
  completions : s.coord.completionQueue = []
  pc : s.coord.pc = .mapLoop
  phase : s.coord.phase = .map
  count : s.coord.incompleteMapTasks = files.length - i
  entries : ∀ j, i ≤ j → j < files.length →
    ∃ mt, s.coord.mapTaskState[j]? = some mt ∧ mt.done = false ∧ mt.inputFile ∈ files
  workers : ∀ w, s.workers w = .idle
  inputs : ∀ file ∈ files, s.disk file ≠ none
  fresh : ∀ j r : ℕ, i ≤ j → s.disk (generateUniqueIntermediateFilename j r zeros) = none

theorem MapsDone.next (w : ω) {files : List GoString} {nReduce i : ℕ}
    (h : MapsDone files nReduce i s) (hi : i < files.length) (hsmall : files.length ≤ queueCap) :
    ∃ t, (system ω P).Reaches s t ∧ MapsDone files nReduce (i + 1) t := by
  obtain ⟨mt, hentry, hundone, hinput⟩ := h.entries i le_rfl hi
  have hrange : List.range' i (files.length - i) =
      i :: List.range' (i + 1) (files.length - (i + 1)) := by
    rw [show files.length - i = files.length - (i + 1) + 1 by omega, List.range'_succ]
  obtain ⟨input, hfile⟩ := Option.ne_none_iff_exists'.mp (h.inputs _ hinput)
  have hqueue := h.queue
  rw [hrange, List.map_cons, List.cons_append] at hqueue
  obtain ⟨handouts, fired, htaken⟩ := reaches_taken (P := P) w (h.workers w) h.handlers h.timers
    h.pc h.phase hqueue (by simp; omega) hentry hundone
  obtain ⟨a, disk, hsent, htid, hlen, hnew⟩ := reaches_sent htaken w
    (Function.update_self ..) hfile fun r => h.fresh i r le_rfl
  obtain ⟨mt', received, haccepted⟩ := reaches_accepted hsent
    (List.mem_append_right _ (List.mem_singleton.mpr rfl)) htid hlen h.pc h.completions h.timers
    (by rw [State.worked_coord, h.count]; omega)
    (by rw [State.worked_coord, h.files_eq]; exact hi) hentry hundone
  have hdisk : ∀ name, (∀ r : ℕ, name ≠ generateUniqueIntermediateFilename i r zeros) →
      (disk name = none ↔ s.disk name = none) := hnew
  refine ⟨_, haccepted, ⟨h.files_eq, h.nReduce_eq, ?_, h.handlers, h.timers, h.completions, h.pc,
    h.phase, ?_, ?_, ?_, ?_, ?_⟩⟩
  · simp [List.range_succ]
  · show s.coord.incompleteMapTasks - 1 = _
    rw [h.count]
    omega
  · intro j hj hlt
    obtain ⟨mtj, hmtj, hrest⟩ := h.entries j (by omega) hlt
    refine ⟨mtj, ?_, hrest⟩
    show (s.coord.mapTaskState.set i mt')[j]? = some mtj
    rw [List.getElem?_set_ne (by omega), hmtj]
  · intro w'
    by_cases hw : w' = w
    · subst hw
      simp
    · simp [hw, h.workers w']
  · intro file hmem
    show disk file ≠ none
    rw [Ne, hdisk file]
    · exact h.inputs file hmem
    · rintro r rfl
      exact h.inputs _ hmem (h.fresh i r le_rfl)
  · intro j r hj
    show disk _ = none
    rw [hdisk]
    · exact h.fresh j r (by omega)
    · intro r' heq
      have := intermediateFilename_tid_inj heq
      omega

theorem reaches_mapsDone (w : ω) {files : List GoString} {nReduce : ℕ}
    (h : MapsDone files nReduce 0 s) (hsmall : files.length ≤ queueCap) (i : ℕ)
    (hi : i ≤ files.length) :
    ∃ t, (system ω P).Reaches s t ∧ MapsDone files nReduce i t := by
  induction i with
  | zero => exact ⟨s, System.Reaches.refl, h⟩
  | succ i ih =>
    obtain ⟨t, hst, ht⟩ := ih (by omega)
    obtain ⟨u, htu, hu⟩ := ht.next (P := P) w (by omega) hsmall
    exact ⟨u, hst.trans htu, hu⟩

/-- The switch under way: the workers in `l` wait for the lock, the others are idle. -/
structure Switching (nReduce tid : ℕ) (l : List ω) (s : State ω) : Prop where
  nReduce_eq : s.coord.nReduce = nReduce
  pc : s.coord.pc = .spawn tid
  popped : ∀ w ∈ l, ∃ t, ⟨w, .popped t⟩ ∈ s.coord.handlers
  none_waits : ∀ w, ⟨w, .waiting⟩ ∉ s.coord.handlers
  idle : ∀ w, w ∉ l → s.workers w = .idle
  waiting : ∀ w ∈ l, s.workers w = .waiting

theorem MapsDone.switching {files : List GoString} {nReduce : ℕ}
    (h : MapsDone files nReduce files.length s) :
    ∃ t, (system ω P).Reaches s t ∧ Switching nReduce 0 [] t ∧
      t.coord.taskQueue.length = files.length := by
  have hcount : ¬ 0 < s.coord.incompleteMapTasks := by
    rw [h.count]
    omega
  have hstep : (system ω P).step s (.coordinator .mapReduce) =
      some { s with coord := { s.coord with
        incompleteReduceTasks := s.coord.nReduce, pc := .spawn 0 } } := by
    simp [system, step, permitted, heard, Coordinator.step, Coordinator.State.mapReduce, h.pc,
      hcount, Coordinator.State.readers, h.timers]
  refine ⟨_, System.Reaches.tail _ System.Reaches.refl hstep, ?_, by simp [h.queue]⟩
  exact ⟨h.nReduce_eq, rfl, by simp, by simp [h.handlers], fun w _ => h.workers w, by simp⟩

/-- A worker takes a task, and mapReduce puts one in its place. -/
theorem Switching.next {nReduce tid : ℕ} {l : List ω} (h : Switching nReduce tid l s) {w : ω}
    (hw : w ∉ l) (htid : tid < nReduce) (hne : s.coord.taskQueue ≠ [])
    (hcap : s.coord.taskQueue.length ≤ queueCap) :
    ∃ t, (system ω P).Reaches s t ∧ Switching nReduce (tid + 1) (w :: l) t ∧
      t.coord.taskQueue.length = s.coord.taskQueue.length := by
  obtain ⟨task, rest, hqueue⟩ := List.exists_cons_of_ne_nil hne
  have hidle := h.idle w hw
  have hroom : rest.length < queueCap := by
    rw [hqueue, List.length_cons] at hcap
    omega
  have hpop : (system ω P).Reaches s
      { s with
        coord := { s.coord with
          taskQueue := rest ++ [⟨tid, .reduce⟩]
          pc := .spawn (tid + 1)
          handlers := ⟨w, .popped task⟩ :: s.coord.handlers }
        workers := Function.update s.workers w .waiting } := by
    refine System.reaches_of_run _ [.coordinator (.request w), .coordinator (.pop w),
      .coordinator .mapReduce] ?_
    simp [System.run, system, step, permitted, heard, Coordinator.step, Coordinator.State.pop,
      Coordinator.State.mapReduce, hidle, hqueue, h.pc, h.nReduce_eq, htid, hroom]
  refine ⟨_, hpop, ⟨h.nReduce_eq, rfl, ?_, ?_, ?_, ?_⟩, by simp [hqueue]⟩
  · intro w' hw'
    rcases List.mem_cons.mp hw' with rfl | hold
    · exact ⟨task, List.mem_cons_self⟩
    · obtain ⟨t, ht⟩ := h.popped w' hold
      exact ⟨t, List.mem_cons_of_mem _ ht⟩
  · intro w' hw'
    rcases List.mem_cons.mp hw' with heq | hold
    · cases heq
    · exact h.none_waits w' hold
  · intro w' hw'
    rw [List.mem_cons, not_or] at hw'
    show Function.update s.workers w .waiting w' = .idle
    rw [Function.update_of_ne hw'.1]
    exact h.idle w' hw'.2
  · intro w' hw'
    show Function.update s.workers w .waiting w' = .waiting
    rcases eq_or_ne w' w with rfl | hne'
    · exact Function.update_self ..
    · rw [Function.update_of_ne hne']
      exact h.waiting w' ((List.mem_cons.mp hw').resolve_left hne')

theorem Switching.all {nReduce tid : ℕ} {l : List ω} (h : Switching nReduce tid l s)
    (ws : List ω) (hws : (ws ++ l).Nodup) (htid : tid + ws.length ≤ nReduce)
    (hne : 0 < s.coord.taskQueue.length) (hcap : s.coord.taskQueue.length ≤ queueCap) :
    ∃ t, (system ω P).Reaches s t ∧ Switching nReduce (tid + ws.length) (ws.reverse ++ l) t ∧
      t.coord.taskQueue.length = s.coord.taskQueue.length := by
  induction ws generalizing s tid l with
  | nil => exact ⟨s, System.Reaches.refl, h, rfl⟩
  | cons w ws ih =>
    rw [List.length_cons] at htid ⊢
    rw [List.cons_append, List.nodup_cons, List.mem_append, not_or] at hws
    obtain ⟨t, hst, ht, hlen⟩ :=
      h.next (P := P) hws.1.2 (by omega) (List.length_pos_iff.mp hne) hcap
    have hws' : (ws ++ w :: l).Nodup := by
      rw [List.nodup_middle, List.nodup_cons, List.mem_append, not_or]
      exact hws
    obtain ⟨u, htu, hu, hlen'⟩ := ih ht hws' (by omega) (by omega) (by omega)
    refine ⟨u, hst.trans htu, ?_, hlen'.trans hlen⟩
    rw [List.reverse_cons, List.append_assoc, List.singleton_append, Nat.add_comm ws.length,
      ← Nat.add_assoc]
    exact hu

/-- mapReduce sends until the queue is full. -/
theorem Switching.fill {nReduce tid : ℕ} {l : List ω} (h : Switching nReduce tid l s) (k : ℕ)
    (htid : tid + k ≤ nReduce) (hcap : s.coord.taskQueue.length + k ≤ queueCap) :
    ∃ t, (system ω P).Reaches s t ∧ Switching nReduce (tid + k) l t ∧
      t.coord.taskQueue.length = s.coord.taskQueue.length + k := by
  induction k generalizing s tid with
  | zero => exact ⟨s, System.Reaches.refl, h, rfl⟩
  | succ k ih =>
    have hstep : (system ω P).step s (.coordinator .mapReduce) =
        some { s with coord := { s.coord with
          taskQueue := s.coord.taskQueue ++ [⟨tid, .reduce⟩], pc := .spawn (tid + 1) } } := by
      have hlt : tid < nReduce := by omega
      have hroom : s.coord.taskQueue.length < queueCap := by omega
      simp [system, step, permitted, heard, Coordinator.step, Coordinator.State.mapReduce, h.pc,
        h.nReduce_eq, hlt, hroom]
    have hnext : Switching nReduce (tid + 1) l { s with coord := { s.coord with
        taskQueue := s.coord.taskQueue ++ [⟨tid, .reduce⟩], pc := .spawn (tid + 1) } } :=
      ⟨h.nReduce_eq, rfl, h.popped, h.none_waits, h.idle, h.waiting⟩
    obtain ⟨t, hreach, ht, hlen⟩ := ih hnext (by omega)
      (by rw [List.length_append, List.length_singleton]; omega)
    refine ⟨t, System.Reaches.head hstep hreach, ?_, ?_⟩
    · rw [show tid + (k + 1) = tid + 1 + k by omega]
      exact ht
    · rw [hlen, List.length_append, List.length_singleton]
      omega

omit [DecidableEq ω] in
/-- MakeCoordinator has returned, the input files are there, and no file has a name
that a map task of the run will make. -/
theorem mapsDone_start {files : List GoString} {nReduce : ℕ}
    (hcoord : makeCoordinator files nReduce = some s.coord) (hworkers : ∀ w, s.workers w = .idle)
    (hinputs : ∀ file ∈ files, s.disk file ≠ none)
    (hfresh : ∀ j r : ℕ, s.disk (generateUniqueIntermediateFilename j r zeros) = none) :
    MapsDone files nReduce 0 s ∧ files.length ≤ queueCap := by
  obtain ⟨queue, hqueue, hcoord⟩ := Option.map_eq_some_iff.mp hcoord
  have hq := enqueueMaps_eq hqueue
  have hlen := enqueueMaps_length (Nat.zero_le _) hqueue
  rw [hq] at hlen
  refine ⟨?_, by simpa using hlen⟩
  constructor
  · rw [← hcoord]
  · rw [← hcoord]
  · rw [← hcoord]
    simp [hq, List.range_eq_range']
  · rw [← hcoord]
  · rw [← hcoord]
  · rw [← hcoord]
  · rw [← hcoord]
  · rw [← hcoord]
  · rw [← hcoord]
    simp
  · intro j _ hj
    rw [← hcoord]
    exact ⟨_, by rw [List.getElem?_map, List.getElem?_eq_getElem hj]; rfl, rfl,
      List.getElem_mem hj⟩
  · exact hworkers
  · exact hinputs
  · exact fun j r _ => hfresh j r

/-- With enough tasks the queue fills up while every worker's handler waits for the
lock, from every start with all input files, and no worker has to crash for it. -/
theorem reaches_full [Fintype ω] [Nonempty ω] {files : List GoString} {nReduce : ℕ}
    (hstart : Start s) (hcoord : makeCoordinator files nReduce = some s.coord)
    (hinputs : ∀ file ∈ files, s.disk file ≠ none)
    (hfresh : ∀ j r : ℕ, s.disk (generateUniqueIntermediateFilename j r zeros) = none)
    (hfiles : 0 < files.length)
    (hmany : queueCap + Fintype.card ω ≤ files.length + nReduce) :
    ∃ t l, (system ω P).Reaches s t ∧ (∀ w, w ∈ l) ∧ t.coord.taskQueue.length = queueCap ∧
      Switching nReduce (Fintype.card ω + (queueCap - files.length)) l t := by
  obtain ⟨h0, hsmall⟩ := mapsDone_start hcoord hstart.workers hinputs hfresh
  obtain ⟨w₀⟩ : Nonempty ω := inferInstance
  have hcard : (Finset.univ : Finset ω).toList.length = Fintype.card ω := by
    rw [Finset.length_toList, Finset.card_univ]
  obtain ⟨s₁, hr₁, h₁⟩ := reaches_mapsDone (P := P) w₀ h0 hsmall files.length le_rfl
  obtain ⟨s₂, hr₂, h₂, hlen₂⟩ := h₁.switching (P := P)
  obtain ⟨s₃, hr₃, h₃, hlen₃⟩ := h₂.all (P := P) Finset.univ.toList
    (by simpa using Finset.nodup_toList _) (by omega) (by omega) (by omega)
  obtain ⟨s₄, hr₄, h₄, hlen₄⟩ := h₃.fill (P := P) (queueCap - files.length)
    (by omega) (by omega)
  rw [Nat.zero_add, hcard] at h₄
  exact ⟨s₄, _, ((hr₁.trans hr₂).trans hr₃).trans hr₄, fun w => by simp, by omega, h₄⟩

/-- With more tasks than the queue and the handlers take, the deadlock is reached. -/
theorem deadlock_reached [Fintype ω] [Nonempty ω] {files : List GoString} {nReduce : ℕ}
    (hstart : Start s) (hcoord : makeCoordinator files nReduce = some s.coord)
    (hinputs : ∀ file ∈ files, s.disk file ≠ none)
    (hfresh : ∀ j r : ℕ, s.disk (generateUniqueIntermediateFilename j r zeros) = none)
    (hfiles : 0 < files.length)
    (hmany : queueCap + Fintype.card ω < files.length + nReduce) :
    ∃ t, (system ω P).Reaches s t ∧ Deadlocked t ∧ ∀ w, t.workers w = .waiting := by
  obtain ⟨t, l, hreach, hmem, hlen, h⟩ := reaches_full (P := P) hstart hcoord hinputs hfresh
    hfiles hmany.le
  have hsmall := (mapsDone_start hcoord hstart.workers hinputs hfresh).2
  refine ⟨t, hreach, ?_, fun w => h.waiting w (hmem w)⟩
  refine ⟨⟨_, h.pc, ?_⟩, hlen.ge, fun w _ => h.popped w (hmem w), h.none_waits⟩
  rw [h.nReduce_eq]
  omega

theorem intermediateFilename_ne_oneFile (i r : ℤ) (b : Fin 16 → UInt8) :
    generateUniqueIntermediateFilename i r b ≠ oneFile := by
  intro h
  have hhead := congrArg List.head? h
  have hm : ascii "mr-" = [109, 114, 45] := by decide
  have hf : oneFile.head? = some 105 := by decide
  simp [generateUniqueIntermediateFilename, hm, hf] at hhead

theorem inputFiles_reaches {t : State ω} (h : (system ω P).Reaches s t) :
    t.coord.inputFiles = s.coord.inputFiles := by
  induction h with
  | refl => rfl
  | tail _ _ hstep ih =>
    rcases (step_sound hstep).coord_cases with heq | ⟨_, hc, _, _⟩
    · rw [heq, ih]
    · rw [hc.inputFiles_eq, ih]

/-- A job with one input file. -/
def wideStart (ω : Type*) (coord : Coordinator.State ω) : State ω :=
  ⟨coord, fun name => if name = oneFile then some keyA else none, fun _ => .idle, [], []⟩

omit [DecidableEq ω] in
theorem wideStart_fresh (coord : Coordinator.State ω) (j r : ℕ) :
    (wideStart ω coord).disk (generateUniqueIntermediateFilename j r zeros) = none := by
  simp [wideStart, intermediateFilename_ne_oneFile]

theorem switch_not_deadlocked [Fintype ω] (hs : (system ω P).Reachable s)
    (hfit : s.coord.inputFiles.length + s.coord.nReduce ≤ queueCap + (running s).card) :
    ¬ Deadlocked s := by
  intro hd
  obtain ⟨tid, hpc, hlt⟩ := hd.blocked
  have hcard := hd.card_le (inv_reachable hs).1 hpc
  omega

/-- Two workers, one input file and 129 reduce tasks: the queue is full and both handlers
wait for the lock, but the last reduce task has been sent. -/
theorem switch_not_deadlocked_waiting :
    ∃ s : State Bool, (system Bool wordCount).Reachable s ∧ s.coord.nReduce = 129 ∧
      s.coord.pc = .spawn 129 ∧ s.coord.taskQueue.length = queueCap ∧
      (∀ w, ∃ t, ⟨w, .popped t⟩ ∈ s.coord.handlers) ∧ ¬ Deadlocked s := by
  obtain ⟨coord, hcoord⟩ : ∃ coord : Coordinator.State Bool,
      makeCoordinator [oneFile] 129 = some coord := ⟨_, rfl⟩
  have hstart : Start (wideStart Bool coord) :=
    ⟨⟨[oneFile], 129, by omega, hcoord⟩, fun _ => rfl, rfl, rfl⟩
  obtain ⟨s, l, hreach, hmem, hlen, h⟩ := reaches_full (P := wordCount) hstart hcoord
    (by simp [wideStart]) (wideStart_fresh coord) (by simp) (by simp [queueCap])
  have hs : (system Bool wordCount).Reachable s := ⟨_, hstart, hreach⟩
  have hinputs : s.coord.inputFiles = [oneFile] := by
    obtain ⟨queue, _, rfl⟩ := Option.map_eq_some_iff.mp hcoord
    exact inputFiles_reaches hreach
  have hrunning : running s = Finset.univ := by
    apply Finset.filter_true_of_mem
    intro w _
    rw [h.waiting w (hmem w)]
    exact nofun
  refine ⟨s, hs, h.nReduce_eq, h.pc, hlen, fun w => h.popped w (hmem w), ?_⟩
  apply switch_not_deadlocked hs
  rw [hinputs, h.nReduce_eq, hrunning]
  decide

/-- One worker, one input file and 130 reduce tasks. -/
theorem switch_deadlocks :
    ∃ s₀ s : State Unit, Start s₀ ∧ makeCoordinator [oneFile] 130 = some s₀.coord ∧
      (system Unit wordCount).Reaches s₀ s ∧ Deadlocked s := by
  obtain ⟨coord, hcoord⟩ : ∃ coord : Coordinator.State Unit,
      makeCoordinator [oneFile] 130 = some coord := ⟨_, rfl⟩
  have hstart : Start (wideStart Unit coord) :=
    ⟨⟨[oneFile], 130, by omega, hcoord⟩, fun _ => rfl, rfl, rfl⟩
  obtain ⟨s, hreach, hd, _⟩ := deadlock_reached (P := wordCount) hstart hcoord
    (by simp [wideStart]) (wideStart_fresh coord) (by simp) (by simp [queueCap])
  exact ⟨wideStart Unit coord, s, hstart, hcoord, hreach, hd⟩

end DistributedLabs.MapReduce
