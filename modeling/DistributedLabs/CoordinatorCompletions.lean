import DistributedLabs.CoordinatorInputs

/-!
The coordinator under arbitrary completions: any type, task number and list of files,
from anyone, at any time. It checks the type, the task number and the length of the
list, and uses the reducers that the files name as indices only at the phase switch.
It survives the switch, with one file of each map task for each reduce task, when the
completions it stores name each reducer exactly once.
-/
namespace DistributedLabs.Coordinator

open GoText Transition Tables

def system (ω : Type*) [DecidableEq ω] : System (State ω) (Label ω) where
  start s := ∃ files nReduce, 0 < nReduce ∧ makeCoordinator files nReduce = some s
  step := step

/-- One file for each reducer, in any order. -/
def EachOnce (nReduce : ℕ) (files : List IntermediateFile) : Prop :=
  (files.map IntermediateFile.reducerTid).Perm ((List.range nReduce).map Int.ofNat)

theorem EachOnce.range {nReduce : ℕ} {files : List IntermediateFile} (h : EachOnce nReduce files) :
    ∀ f ∈ files, 0 ≤ f.reducerTid ∧ f.reducerTid < nReduce := by
  intro f hf
  have hmem := h.mem_iff.mp (List.mem_map_of_mem hf)
  obtain ⟨r, hr, heq⟩ := List.mem_map.mp hmem
  rw [← heq]
  have := List.mem_range.mp hr
  exact ⟨Int.natCast_nonneg r, Int.ofNat_lt.mpr this⟩

/-- Exactly one file names a reducer. -/
theorem EachOnce.filter {nReduce r : ℕ} {files : List IntermediateFile}
    (h : EachOnce nReduce files) (hr : r < nReduce) :
    ∃ file, ⟨r, file⟩ ∈ files ∧
      (files.filter fun f => f.reducerTid = (r : ℤ)) = [⟨r, file⟩] := by
  have hcount : (files.map IntermediateFile.reducerTid).count (r : ℤ) = 1 := by
    rw [h.count_eq]
    apply List.count_eq_one_of_mem
    · exact List.nodup_range.map Int.ofNat_injective
    · exact List.mem_map.mpr ⟨r, List.mem_range.mpr hr, rfl⟩
  have hlen : (files.filter fun f => f.reducerTid = (r : ℤ)).length = 1 := by
    rw [← List.countP_eq_length_filter, ← hcount, List.count, List.countP_map]
    congr 1
  obtain ⟨⟨tid, file⟩, hf⟩ := List.length_eq_one_iff.mp hlen
  have hmem : ⟨tid, file⟩ ∈ files.filter fun f => f.reducerTid = (r : ℤ) := by
    rw [hf]
    exact List.mem_singleton.mpr rfl
  obtain ⟨hin, htid⟩ := List.mem_filter.mp hmem
  obtain rfl : tid = r := of_decide_eq_true htid
  exact ⟨file, hin, hf⟩

variable {ω : Type*} {s u : State ω} {l : Label ω}

/-- The steps at which mapReduce stores nothing, or one file for each reducer. -/
def StoresEachOnce (s : State ω) (l : Label ω) : Prop :=
  l = .mapReduce → ∀ m, Stores s m → EachOnce s.nReduce m.intermediateFiles

/-- The list of reduce task `r` has one file of each map task, in the order of these. -/
def OneOfEachMap (s : State ω) (r : ℕ) (rt : ReduceTaskState) : Prop :=
  List.Forall₂ (fun file (mt : MapTaskState) => ⟨r, file⟩ ∈ mt.intermediateFiles)
    rt.intermediateFiles s.mapTaskState

def InTable (s : State ω) (t : Task) : Prop :=
  match t.taskType with
  | .map => t.tid < s.inputFiles.length
  | .reduce => t.tid < s.nReduce
  | .done => True

/-- What holds of the coordinator whatever it receives, as long as it stores one file
for each reducer. -/
structure Filtered (s : State ω) : Prop where
  counted : Counted EachOnce s
  in_table : ∀ t, 0 < tokens s t → InTable s t
  requeue : ∀ tid, s.pc = .mapRequeue tid → tid < s.inputFiles.length
  listed : s.phase ≠ .map → ∀ (r : ℕ) (rt : ReduceTaskState), s.reduceTaskState[r]? = some rt →
    OneOfEachMap s r rt

theorem InTable.taskDone_ne_none {shape : ℕ → List IntermediateFile → Prop} {t : Task}
    (h : InTable s t) (hs : Counted shape s) : taskDone s t ≠ none := by
  obtain ⟨i, taskType⟩ := t
  cases taskType with
  | map =>
    have hlt : i < s.mapTaskState.length := hs.map_len.symm ▸ h
    simp [taskDone, hlt]
  | reduce =>
    have hlt : i < s.reduceTaskState.length := hs.reduce_len.symm ▸ h
    simp [taskDone, hlt]
  | done => simp [taskDone]

/-- The lists that the phase switch makes. -/
theorem oneOfEachMap_switch {mts : List MapTaskState} {nReduce r : ℕ} (hr : r < nReduce)
    (h : ∀ mt ∈ mts, EachOnce nReduce mt.intermediateFiles) :
    List.Forall₂ (fun file (mt : MapTaskState) =>
        (⟨r, file⟩ : IntermediateFile) ∈ mt.intermediateFiles)
      (mts.flatMap fun mt =>
        (mt.intermediateFiles.filter fun f => f.reducerTid = (r : ℤ)).map
          IntermediateFile.file) mts := by
  induction mts with
  | nil => exact List.Forall₂.nil
  | cons mt mts ih =>
    obtain ⟨file, hmem, hfilter⟩ := (h mt (List.mem_cons_self ..)).filter hr
    rw [List.flatMap_cons, hfilter, List.map_singleton, List.singleton_append]
    exact List.Forall₂.cons hmem (ih fun mt' hmt' => h mt' (List.mem_cons_of_mem _ hmt'))

theorem filtered_start {files : List GoString} {nReduce : ℕ}
    (h : makeCoordinator files nReduce = some s) : Filtered s := by
  have htokens := tokens_start h
  obtain ⟨queue, hqueue, rfl⟩ := Option.map_eq_some_iff.mp h
  refine ⟨?_, ?_, by simp, by simp⟩
  · constructor <;> simp [Pc.phase, Pc.mapping, undoneMaps, Function.comp_def]
  · intro t hpos
    rw [htokens] at hpos
    split at hpos
    · rename_i hmap
      simpa [InTable, hmap.1] using hmap.2
    · cases hpos

theorem tokens_enqueued {t₀ t : Task} (hpos : 0 < tokens u t)
    (hqueue : u.taskQueue = s.taskQueue ++ [t₀]) (hhandlers : u.handlers = s.handlers)
    (htimers : u.timers = s.timers) : 0 < tokens s t ∨ t = t₀ := by
  rw [tokens_enqueue hqueue hhandlers htimers] at hpos
  by_cases ht : t₀ = t
  · exact Or.inr ht.symm
  · rw [if_neg ht] at hpos
    exact Or.inl hpos

variable [DecidableEq ω]

/-- A token is new only when mapReduce queues a task. -/
theorem Step.token_cases (h : Step s l u) {t : Task} (hpos : 0 < tokens u t) :
    0 < tokens s t ∨ (∃ tid, s.pc = .mapRequeue tid ∧ t = ⟨tid, .map⟩) ∨
      ∃ tid, s.pc = .spawn tid ∧ tid < s.nReduce ∧ t = ⟨tid, .reduce⟩ := by
  cases h with
  | pop w t₀ rest hmem hq =>
    rw [tokens_pop hmem hq] at hpos
    exact Or.inl hpos
  | timeout w hmem =>
    have := tokens_sleep hmem t
    left
    omega
  | checkSleep w t₀ hmem =>
    have := tokens_sleep hmem t
    left
    omega
  | checkTask w t₀ reply hmem =>
    rw [tokens_matchTask reply hmem] at hpos
    exact Or.inl hpos
  | reply w t₀ reply hmem =>
    rw [tokens_handOut hmem] at hpos
    exact Or.inl hpos
  | expire t₀ d hmem =>
    have := tokens_expire hmem t
    left
    omega
  | startSend t₀ hmem =>
    rw [tokens_startSend hmem] at hpos
    exact Or.inl hpos
  | requeue t₀ hmem =>
    rw [tokens_requeue hmem] at hpos
    exact Or.inl hpos
  | mapRequeue tid hpc =>
    rcases tokens_enqueued hpos rfl rfl rfl with hold | hnew
    · exact Or.inl hold
    · exact Or.inr (Or.inl ⟨tid, hpc, hnew⟩)
  | spawnSend tid hpc hlt =>
    rcases tokens_enqueued hpos rfl rfl rfl with hold | hnew
    · exact Or.inl hold
    · exact Or.inr (Or.inr ⟨tid, hpc, hlt, hnew⟩)
  | mapAccept m =>
    obtain ⟨hcallers, hqueue, _⟩ := acceptMap_callers s m
    rw [tokens_congr hqueue hcallers.handlers hcallers.timers] at hpos
    exact Or.inl hpos
  | reduceAccept m =>
    obtain ⟨hcallers, hqueue, _⟩ := acceptReduce_callers s m
    rw [tokens_congr hqueue hcallers.handlers hcallers.timers] at hpos
    exact Or.inl hpos
  | switch =>
    obtain ⟨hcallers, hqueue, _⟩ := switch_callers s
    rw [tokens_congr hqueue hcallers.handlers hcallers.timers] at hpos
    exact Or.inl hpos
  | request w =>
    left
    simpa [tokens] using hpos
  | _ => exact Or.inl hpos

/-- Only a task number in range is queued again. -/
theorem mapReduce_requeue (h : s.mapReduce = some u) {tid : ℕ} (hpc : u.pc = .mapRequeue tid) :
    tid < s.inputFiles.length := by
  have hstep := mapReduce_sound h
  cases hstep with
  | mapBad m hgot htype hlen =>
    cases hpc
    simp only [State.mapReduce, hgot, htype] at h
    split at h
    · contradiction
    · split at h
      · have hloop := congrArg State.pc (Option.some.inj h)
        cases hloop
      · omega
  | mapAccept m =>
    rcases (acceptMap_callers s m).2.2.2.2 with heq | heq <;> simp [heq] at hpc
  | reduceAccept m =>
    rcases (acceptReduce_callers s m).2.2.2.2 with heq | heq <;> simp [heq] at hpc
  | switch =>
    rcases (switch_callers s).2.2.2 with ⟨_, heq⟩ | ⟨_, heq⟩ <;> simp [heq] at hpc
  | _ => cases hpc

theorem Filtered.listed_step (hs : Filtered s) (h : Step s l u)
    (hphase : u.phase ≠ .map) (r : ℕ) (rt : ReduceTaskState)
    (hget : u.reduceTaskState[r]? = some rt) : OneOfEachMap u r rt := by
  by_cases hl : l = .mapReduce
  · subst hl
    cases h with
    | mapAccept m hpc =>
      have hmap : s.phase = .map := hs.counted.phase_of_pc hpc rfl
      rw [(acceptMap_callers s m).2.2.2.1] at hphase
      exact absurd hmap hphase
    | reduceAccept m hpc htype hrange =>
      have hlt : m.tid.toNat < s.reduceTaskState.length := by
        rw [hs.counted.reduce_len]
        omega
      have hreduce : s.phase = .reduce := hs.counted.phase_of_pc hpc rfl
      have hnot : s.phase ≠ .map := by
        rw [hreduce]
        exact nofun
      obtain ⟨rt₀, hrt₀, ⟨_, heq⟩ | ⟨_, heq⟩⟩ := acceptReduce_cases s m hlt
      · rw [heq] at hget ⊢
        exact hs.listed hnot r rt hget
      · rw [heq] at hget ⊢
        rcases getElem?_set_cases hget with ⟨hr, hrt⟩ | ⟨_, hold⟩
        · have hlist := hs.listed hnot r rt₀ (hr ▸ hrt₀)
          rw [hrt]
          exact hlist
        · exact hs.listed hnot r rt hold
    | switch tid hpc =>
      have hdone := hs.counted.map_done (by rw [hpc]; rfl)
      have hshape : ∀ mt ∈ s.mapTaskState, EachOnce s.nReduce mt.intermediateFiles :=
        fun mt hmt => hs.counted.entry_shape mt hmt (hdone mt hmt)
      obtain ⟨rts, heq, hlen, hrts⟩ := hs.counted.switch_eq (hs.counted.phase_of_pc hpc rfl)
        fun mt hmt => (hshape mt hmt).range
      rw [heq] at hget ⊢
      have hr : r < s.nReduce := hlen ▸ getElem?_lt hget
      rw [hrts r rt hget]
      exact oneOfEachMap_switch hr hshape
    | finish hpc =>
      have hreduce : s.phase = .reduce := hs.counted.phase_of_pc hpc rfl
      exact hs.listed (by rw [hreduce]; exact nofun) r rt hget
    | _ => exact hs.listed hphase r rt hget
  · have htable : ∀ t, 0 < tokens s t → taskDone s t ≠ none := fun t ht =>
      (hs.in_table t ht).taskDone_ne_none hs.counted
    obtain ⟨hsame, _⟩ := h.tables hl htable
    rw [hsame.phase] at hphase
    rw [hsame.reduceTaskState] at hget
    have hlist := hs.listed hphase r rt hget
    unfold OneOfEachMap at hlist ⊢
    rw [hsame.mapTaskState]
    exact hlist

theorem Filtered.step (hs : Filtered s) (hok : StoresEachOnce s l)
    (h : Coordinator.step s l = some u) : Filtered u where
  counted := hs.counted.step (fun _ _ => EachOnce.range)
    (fun t ht => (hs.in_table t ht).taskDone_ne_none hs.counted) hok (step_sound h)
  in_table t hpos := by
    have hstep := step_sound h
    have hkeep : InTable s t → InTable u t := by
      unfold InTable
      rw [hstep.inputFiles_eq, hstep.nReduce_eq]
      exact id
    apply hkeep
    rcases hstep.token_cases hpos with hold | ⟨tid, hpc, rfl⟩ | ⟨tid, _, hlt, rfl⟩
    · exact hs.in_table t hold
    · exact hs.requeue tid hpc
    · exact hlt
  requeue tid hpc := by
    have hstep := step_sound h
    rw [hstep.inputFiles_eq]
    by_cases hl : l = .mapReduce
    · subst hl
      exact mapReduce_requeue h hpc
    · obtain ⟨_, hsame, _⟩ := hstep.tables hl fun t ht =>
        (hs.in_table t ht).taskDone_ne_none hs.counted
      rw [hsame] at hpc
      exact hs.requeue tid hpc
  listed := hs.listed_step (step_sound h)

theorem filtered_of_reachable (h : (system ω).ReachableWithin StoresEachOnce s) : Filtered s := by
  refine System.ReachableWithin.invariant (I := Filtered) ?_ ?_ h
  · rintro s ⟨files, nReduce, _, hmake⟩
    exact filtered_start hmake
  · intro s l u _ hs hok hstep
    exact hs.step hok hstep

theorem completions_filtered (h : (system ω).ReachableWithin StoresEachOnce s) :
    s.pc ≠ .panicked ∧
    (s.phase ≠ .map → ∀ (r : ℕ) (rt : ReduceTaskState), s.reduceTaskState[r]? = some rt →
      rt.intermediateFiles.length = s.inputFiles.length ∧ OneOfEachMap s r rt) := by
  have hs := filtered_of_reachable h
  constructor
  · intro hpc
    have hphase := hs.counted.phase_eq
    rw [hpc] at hphase
    cases hphase
  · intro hphase r rt hget
    have hlist := hs.listed hphase r rt hget
    refine ⟨?_, hlist⟩
    rw [hlist.length_eq, hs.counted.map_len]

/-- A check that can be evaluated along a run. -/
def inHandEachOnce (s : State ω) : Bool :=
  match s.pc with
  | .mapGot m => decide (m.intermediateFiles.length = s.nReduce →
      (m.intermediateFiles.map IntermediateFile.reducerTid).Perm
        ((List.range s.nReduce).map Int.ofNat))
  | .mapLoop => true
  | .mapRequeue _ => true
  | .spawn _ => true
  | .reduceLoop => true
  | .reduceGot _ => true
  | .finished => true
  | .panicked => true

omit [DecidableEq ω] in
theorem storesEachOnce_of_check (h : inHandEachOnce s = true) : StoresEachOnce s l := by
  intro _ m hm
  rw [inHandEachOnce, hm.got] at h
  exact of_decide_eq_true h hm.length

/-- Completions of a type, a task and a length that mapReduce refuses, then one that
lists its files out of order. -/
def oddCompletions : List (Label Unit) :=
  [.complete ⟨.other 7, 0, [], []⟩, .complete ⟨.reduce, 0, [], []⟩,
   .complete ⟨.map, -3, [], []⟩, .complete ⟨.map, 0, [⟨9, []⟩], []⟩,
   .complete ⟨.map, 0, [⟨1, ascii "b"⟩, ⟨0, ascii "a"⟩], []⟩]

set_option maxRecDepth 4000 in
theorem completions_filtered_oddCompletions :
    ∃ s : State Unit, (system Unit).ReachableWithin StoresEachOnce s ∧ s.phase = .reduce ∧
      s.reduceTaskState = [⟨false, [ascii "a"]⟩, ⟨false, [ascii "b"]⟩] ∧ s.pc ≠ .panicked := by
  obtain ⟨s₀, hs₀⟩ : ∃ s₀ : State Unit, makeCoordinator [ascii "in.txt"] 2 = some s₀ := ⟨_, rfl⟩
  have hrun : (((makeCoordinator [ascii "in.txt"] 2).bind fun s₀ =>
      ((system Unit).guard fun s _ => inHandEachOnce s = true).run s₀
        (oddCompletions ++ List.replicate 15 .mapReduce)).any fun s =>
      decide (s.phase = .reduce ∧
        s.reduceTaskState = [⟨false, [ascii "a"]⟩, ⟨false, [ascii "b"]⟩])) = true := by decide
  rw [hs₀, Option.bind_some] at hrun
  obtain ⟨s, hs, hp⟩ := (Option.any_eq_true _ _).mp hrun
  obtain ⟨hphase, htable⟩ := of_decide_eq_true hp
  have hreach : (system Unit).ReachableWithin StoresEachOnce s :=
    ⟨s₀, ⟨_, 2, by omega, hs₀⟩, ((System.reaches_of_run _ _ hs).within).mono
      fun s l h => storesEachOnce_of_check h⟩
  exact ⟨s, hreach, hphase, htable, (completions_filtered hreach).1⟩

theorem reachable_of_run (files : List GoString) {nReduce : ℕ} (hpos : 0 < nReduce)
    (labels : List (Label Unit)) {p : State Unit → Bool}
    (h : ((makeCoordinator files nReduce).bind fun s => (system Unit).run s labels).any p = true) :
    ∃ s, (system Unit).Reachable s ∧ p s = true := by
  obtain ⟨s, hs, hp⟩ := (Option.any_eq_true _ _).mp h
  obtain ⟨s₀, hs₀, hrun⟩ := Option.bind_eq_some_iff.mp hs
  exact ⟨s, System.Reachable.of_run labels ⟨files, nReduce, hpos, hs₀⟩ hrun, hp⟩

set_option maxRecDepth 4000 in
/-- A file that names no reducer, and two files that name the same one. -/
theorem completions_not_filtered :
    (∃ s : State Unit, (system Unit).Reachable s ∧ s.pc = .panicked) ∧
    ∃ s : State Unit, (system Unit).Reachable s ∧ s.phase = .reduce ∧
      s.inputFiles.length = 1 ∧
      s.reduceTaskState = [⟨false, [ascii "a", ascii "b"]⟩, ⟨false, []⟩] := by
  constructor
  · obtain ⟨s, hs, hp⟩ := reachable_of_run [ascii "in.txt"] Nat.one_pos
      (.complete ⟨.map, 0, [⟨1, ascii "a"⟩], []⟩ :: List.replicate 5 .mapReduce)
      (p := fun s => decide (s.pc = .panicked)) (by decide)
    exact ⟨s, hs, of_decide_eq_true hp⟩
  · obtain ⟨s, hs, hp⟩ := reachable_of_run [ascii "in.txt"] Nat.two_pos
      (.complete ⟨.map, 0, [⟨0, ascii "a"⟩, ⟨0, ascii "b"⟩], []⟩ :: List.replicate 6 .mapReduce)
      (p := fun s => decide (s.phase = .reduce ∧ s.inputFiles.length = 1 ∧
        s.reduceTaskState = [⟨false, [ascii "a", ascii "b"]⟩, ⟨false, []⟩])) (by decide)
    exact ⟨s, hs, of_decide_eq_true hp⟩

end DistributedLabs.Coordinator
