import DistributedLabs.CoordinatorPhases

/-!
A task that waits to be run again has a token: an entry in the queue, a ReqTask
handler that has popped it and not yet answered, or its pending timer. Steps of
the callers and timers move tokens and leave the tables alone; mapReduce leaves
handlers and timers alone. A token is dropped only for a task that is out of
phase or done, and made only by the phase switch.
-/
namespace DistributedLabs.Coordinator

open GoText Transition Tables

variable {ω : Type*}

def Handler.holds (t : Task) (h : Handler ω) : Bool :=
  match h.pc with
  | .waiting => false
  | .popped t' => t' = t
  | .matched t' _ => t' = t

def tokens (s : State ω) (t : Task) : ℕ :=
  s.taskQueue.count t + s.handlers.countP (Handler.holds t) +
    s.timers.countP fun timer => timer.task = t

@[simp] theorem holds_waiting (t : Task) (w : ω) :
    Handler.holds t ⟨w, .waiting⟩ = false := rfl

@[simp] theorem holds_popped (t t' : Task) (w : ω) :
    Handler.holds t ⟨w, .popped t'⟩ = decide (t' = t) := rfl

@[simp] theorem holds_matched (t t' : Task) (w : ω) (reply : ReqTaskReply) :
    Handler.holds t ⟨w, .matched t' reply⟩ = decide (t' = t) := rfl

theorem tokens_congr {s u : State ω} (hqueue : u.taskQueue = s.taskQueue)
    (hhandlers : u.handlers = s.handlers) (htimers : u.timers = s.timers) (t : Task) :
    tokens u t = tokens s t := by
  unfold tokens
  rw [hqueue, hhandlers, htimers]

theorem tokens_enqueue {s u : State ω} {t₀ : Task} (hqueue : u.taskQueue = s.taskQueue ++ [t₀])
    (hhandlers : u.handlers = s.handlers) (htimers : u.timers = s.timers) (t : Task) :
    tokens u t = tokens s t + if t₀ = t then 1 else 0 := by
  unfold tokens
  rw [hqueue, hhandlers, htimers, List.count_append, List.count_singleton]
  simp only [beq_iff_eq]
  omega

theorem tokens_pos_of_handler {s : State ω} {t : Task} {h : Handler ω}
    (hmem : h ∈ s.handlers) (hholds : h.holds t = true) : 0 < tokens s t := by
  have hcount : 0 < s.handlers.countP (Handler.holds t) :=
    List.countP_pos_iff.mpr ⟨h, hmem, hholds⟩
  unfold tokens
  omega

theorem tokens_pos_of_timer {s : State ω} {t : Task} {sending : Bool}
    (h : ⟨t, sending⟩ ∈ s.timers) : 0 < tokens s t := by
  have hcount : 0 < s.timers.countP fun timer => timer.task = t :=
    List.countP_pos_iff.mpr ⟨_, h, by simp⟩
  unfold tokens
  omega

/-- Where mapReduce has already queued reduce task `r`. -/
def Pc.spawned : Pc → ℕ → Bool
  | .mapLoop, _ => false
  | .mapGot _, _ => false
  | .mapRequeue _, _ => false
  | .spawn tid, r => r < tid
  | .reduceLoop, _ => true
  | .reduceGot _, _ => true
  | .finished, _ => true
  | .panicked, _ => false

/-- The task exists and has been queued at least once. -/
def Issued (s : State ω) (t : Task) : Prop :=
  match t.taskType with
  | .map => t.tid < s.inputFiles.length
  | .reduce => t.tid < s.nReduce ∧ s.pc.spawned t.tid = true
  | .done => False

structure Tokens (s : State ω) : Prop where
  le_one : ∀ t, tokens s t ≤ 1
  issued : ∀ t, 0 < tokens s t → Issued s t
  one : ∀ t, Issued s t → taskDone s t = some false → tokens s t = 1
  timer_each : ∀ t, s.handouts.countP (fun h => h.task = t) =
    s.fired.count t + s.timers.countP fun timer => timer.task = t

theorem issued_congr {s u : State ω} (hfiles : u.inputFiles = s.inputFiles)
    (hreduce : u.nReduce = s.nReduce)
    (hspawned : ∀ r < s.nReduce, u.pc.spawned r = s.pc.spawned r) (t : Task) :
    Issued u t ↔ Issued s t := by
  unfold Issued
  split
  · rw [hfiles]
  · rw [hreduce]
    constructor
    · rintro ⟨hlt, h⟩
      exact ⟨hlt, hspawned _ hlt ▸ h⟩
    · rintro ⟨hlt, h⟩
      exact ⟨hlt, (hspawned _ hlt).symm ▸ h⟩
  · exact Iff.rfl

theorem Pc.spawned_of_reduce {pc : Pc} (h : pc.phase = some .reduce) (r : ℕ) :
    pc.spawned r = true := by
  cases pc with
  | reduceLoop => rfl
  | reduceGot m => rfl
  | mapLoop => cases h
  | mapGot m => cases h
  | mapRequeue tid => cases h
  | spawn tid => cases h
  | finished => cases h
  | panicked => cases h

theorem Pc.locked_of_spawned {pc : Pc} {r : ℕ} (hphase : pc.phase = some .map)
    (h : pc.spawned r = true) : pc.locked = true := by
  cases pc with
  | spawn tid => rfl
  | mapLoop => cases h
  | mapGot m => cases h
  | mapRequeue tid => cases h
  | reduceLoop => cases hphase
  | reduceGot m => cases hphase
  | finished => cases hphase
  | panicked => cases hphase

/-- Out of the lock, an issued task of another phase is done. -/
theorem done_of_out_of_phase {s : State ω} (hs : Counted OneEach s) {t : Task} (h : Issued s t)
    (hlock : s.pc.locked = false) (hphase : t.taskType ≠ s.phase) :
    taskDone s t = some true := by
  obtain ⟨i, taskType⟩ := t
  cases taskType with
  | map =>
    have hmapping := hs.mapping_of_not_map (Ne.symm hphase)
    have hlt : i < s.mapTaskState.length := hs.map_len.symm ▸ h
    simp [taskDone, List.getElem?_eq_getElem hlt,
      hs.map_done hmapping _ (List.getElem_mem hlt)]
  | reduce =>
    obtain ⟨hlt, hspawned⟩ := h
    rw [← hs.reduce_len] at hlt
    cases hcur : s.phase with
    | map =>
      have hlocked := Pc.locked_of_spawned (hcur ▸ hs.phase_eq) hspawned
      rw [hlock] at hlocked
      cases hlocked
    | reduce => exact absurd hcur.symm hphase
    | done =>
      simp [taskDone, List.getElem?_eq_getElem hlt,
        hs.reduce_done hcur _ (List.getElem_mem hlt)]
  | done => rfl

theorem taskDone_ne_none {s : State ω} (hs : Counted OneEach s) {t : Task} (h : Issued s t) :
    taskDone s t ≠ none := by
  unfold Issued at h
  unfold taskDone
  split
  · simp_all [hs.map_len]
  · simp_all [hs.reduce_len]
  · simp

/-- A not yet done task of the current phase has been queued. -/
theorem issued_of_current {s : State ω} (hs : Counted OneEach s) {t : Task}
    (hphase : t.taskType = s.phase) (hundone : taskDone s t = some false) : Issued s t := by
  obtain ⟨i, taskType⟩ := t
  cases taskType with
  | map =>
    obtain ⟨mt, hmt, _⟩ := Option.map_eq_some_iff.mp hundone
    have hlt := getElem?_lt hmt
    rw [hs.map_len] at hlt
    exact hlt
  | reduce =>
    obtain ⟨rt, hrt, _⟩ := Option.map_eq_some_iff.mp hundone
    have hlt := getElem?_lt hrt
    rw [hs.reduce_len] at hlt
    have hpc := hs.phase_eq
    rw [← hphase] at hpc
    exact ⟨hlt, Pc.spawned_of_reduce hpc i⟩
  | done => cases hundone

/-- A handler with its answer ready holds the only token of its task. -/
theorem Tokens.no_timer {s : State ω} (ht : Tokens s) {w : ω} {t : Task} {reply : ReqTaskReply}
    (hmem : ⟨w, .matched t reply⟩ ∈ s.handlers) :
    (s.timers.countP fun timer => timer.task = t) = 0 := by
  have hone := ht.le_one t
  have hheld : 0 < s.handlers.countP (Handler.holds t) :=
    List.countP_pos_iff.mpr ⟨_, hmem, by simp⟩
  unfold tokens at hone
  omega

/-- Two handlers never hold tokens of one task. -/
theorem Tokens.popped_inj {s : State ω} (ht : Tokens s) {w w' : ω} {t : Task}
    (h : ⟨w, .popped t⟩ ∈ s.handlers) (h' : ⟨w', .popped t⟩ ∈ s.handlers) : w = w' := by
  by_contra hne
  have hone := ht.le_one t
  have htwo : 2 ≤ s.handlers.countP (Handler.holds t) := by
    have hsub : [(⟨w, .popped t⟩ : Handler ω), ⟨w', .popped t⟩].Subperm s.handlers := by
      apply List.subperm_of_subset
      · simp [hne]
      · simp [h, h']
    have := hsub.countP_le (Handler.holds t)
    simpa using this
  unfold tokens at hone
  omega

/-- The token of a task in the hands of a handler is not in the queue. -/
theorem Tokens.popped_notMem {s : State ω} (ht : Tokens s) {w : ω} {t : Task}
    (h : ⟨w, .popped t⟩ ∈ s.handlers) : t ∉ s.taskQueue := by
  intro hmem
  have hone := ht.le_one t
  have hqueue := List.count_pos_iff.mpr hmem
  have hheld : 0 < s.handlers.countP (Handler.holds t) :=
    List.countP_pos_iff.mpr ⟨_, h, by simp⟩
  unfold tokens at hone
  omega

theorem Tokens.queue_nodup {s : State ω} (ht : Tokens s) : s.taskQueue.Nodup := by
  rw [List.nodup_iff_count_le_one]
  intro t
  have hone := ht.le_one t
  unfold tokens at hone
  omega

theorem taskDone_of_panic {s : State ω} {t : Task} (h : reqTask s t = .panic) :
    taskDone s t = none := by
  unfold reqTask at h
  unfold taskDone
  split at h
  · cases h
  · split at h
    · split at h <;> simp_all
    · split at h <;> simp_all
    · cases h

theorem reqTask_sleep {s : State ω} {t : Task} (h : reqTask s t = .sleep) :
    t.taskType ≠ s.phase ∨ taskDone s t = some true := by
  unfold reqTask at h
  split at h
  · exact Or.inl ‹_›
  · right
    unfold taskDone
    split at h
    · split at h <;> cases h
    · split at h <;> cases h
    · simp_all

theorem reqTask_phase {s : State ω} {t : Task} {reply : ReqTaskReply}
    (h : reqTask s t = .task reply) : t.taskType = s.phase := by
  unfold reqTask at h
  split at h
  · cases h
  · exact not_not.mp ‹_›

theorem tokens_expire {s : State ω} {t₀ : Task} (hmem : ⟨t₀, false⟩ ∈ s.timers) (t : Task) :
    tokens (s.expire t₀) t + (if t₀ = t then 1 else 0) = tokens s t := by
  have herase := countP_erase_add (fun timer => decide (timer.task = t)) hmem
  simp only [decide_eq_true_eq] at herase
  unfold tokens State.expire
  dsimp only
  omega

theorem tokens_startSend {s : State ω} {t₀ : Task} (hmem : ⟨t₀, false⟩ ∈ s.timers) (t : Task) :
    tokens (s.startSend t₀) t = tokens s t := by
  have herase := countP_erase_add (fun timer => decide (timer.task = t)) hmem
  unfold tokens State.startSend
  rw [List.countP_cons]
  dsimp only at herase ⊢
  omega

theorem tokens_requeue {s : State ω} {t₀ : Task} (hmem : ⟨t₀, true⟩ ∈ s.timers) (t : Task) :
    tokens (s.requeue t₀) t = tokens s t := by
  have herase := countP_erase_add (fun timer => decide (timer.task = t)) hmem
  simp only [decide_eq_true_eq] at herase
  unfold tokens State.requeue
  rw [List.count_append, List.count_singleton]
  simp only [beq_iff_eq]
  omega

variable [DecidableEq ω]

theorem tokens_pop {s : State ω} {w : ω} {t₀ : Task} {rest : List Task}
    (hmem : ⟨w, .waiting⟩ ∈ s.handlers) (hq : s.taskQueue = t₀ :: rest) (t : Task) :
    tokens (s.pop w t₀ rest) t = tokens s t := by
  have herase := countP_erase_add (Handler.holds t) hmem
  unfold tokens State.pop
  rw [hq, List.count_cons, List.countP_cons]
  simp_all
  omega

theorem tokens_sleep {s : State ω} {w : ω} {pc : HandlerPc} (hmem : ⟨w, pc⟩ ∈ s.handlers)
    (t : Task) :
    tokens (s.sleep w pc) t + (if Handler.holds t ⟨w, pc⟩ then 1 else 0) = tokens s t := by
  have herase := countP_erase_add (Handler.holds t) hmem
  unfold tokens State.sleep
  dsimp only
  omega

theorem tokens_matchTask {s : State ω} {w : ω} {t₀ : Task} (reply : ReqTaskReply)
    (hmem : ⟨w, .popped t₀⟩ ∈ s.handlers) (t : Task) :
    tokens (s.matchTask w t₀ reply) t = tokens s t := by
  have herase := countP_erase_add (Handler.holds t) hmem
  rw [holds_popped] at herase
  unfold tokens State.matchTask
  rw [List.countP_cons, holds_matched]
  dsimp only
  omega

theorem tokens_handOut {s : State ω} {w : ω} {t₀ : Task} {reply : ReqTaskReply}
    (hmem : ⟨w, .matched t₀ reply⟩ ∈ s.handlers) (t : Task) :
    tokens (s.handOut w t₀ reply) t = tokens s t := by
  have herase := countP_erase_add (Handler.holds t) hmem
  rw [holds_matched] at herase
  unfold tokens State.handOut
  rw [List.countP_cons]
  dsimp only
  omega

end DistributedLabs.Coordinator
