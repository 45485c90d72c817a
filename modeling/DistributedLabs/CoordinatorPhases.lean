import DistributedLabs.Coordinator
import DistributedLabs.Tables
import Mathlib.Data.List.GetD

/-!
The phases of the coordinator. `Counted` ties the phase, the counters and the
done flags to where mapReduce stands; only mapReduce changes any of them. Its
parameter says what the files of a done map task are, `OneEach` when a worker
reports one for each reducer, in order.
`Messages` says that the completions that reach mapReduce are ones a worker
makes: a map completion lists one file for each reducer, and a reduce completion
is for a task that was handed out, which happens only after the phase switch.
-/
namespace DistributedLabs.Coordinator

open GoText Transition Tables

/-- The phase in which mapReduce stands at a program counter. -/
def Pc.phase : Pc → Option Phase
  | .mapLoop => some .map
  | .mapGot _ => some .map
  | .mapRequeue _ => some .map
  | .spawn _ => some .map
  | .reduceLoop => some .reduce
  | .reduceGot _ => some .reduce
  | .finished => some .done
  | .panicked => none

/-- In the map loop. -/
def Pc.mapping : Pc → Bool
  | .mapLoop => true
  | .mapGot _ => true
  | .mapRequeue _ => true
  | .spawn _ => false
  | .reduceLoop => false
  | .reduceGot _ => false
  | .finished => false
  | .panicked => false

theorem Pc.phase_of_mapping {pc : Pc} (h : pc.mapping = true) : pc.phase = some .map := by
  cases pc with
  | mapLoop => rfl
  | mapGot m => rfl
  | mapRequeue tid => rfl
  | spawn tid => cases h
  | reduceLoop => cases h
  | reduceGot m => cases h
  | finished => cases h
  | panicked => cases h

variable {ω : Type*}

def undoneMaps (s : State ω) : ℕ := s.mapTaskState.countP fun mt => !mt.done

def undoneReduces (s : State ω) : ℕ := s.reduceTaskState.countP fun rt => !rt.done

/-- One file for each reducer, in order. -/
def OneEach (nReduce : ℕ) (files : List IntermediateFile) : Prop :=
  files.map IntermediateFile.reducerTid = (List.range nReduce).map Int.ofNat

structure Counted (shape : ℕ → List IntermediateFile → Prop) (s : State ω) : Prop where
  map_len : s.mapTaskState.length = s.inputFiles.length
  reduce_len : s.reduceTaskState.length = s.nReduce
  phase_eq : s.pc.phase = some s.phase
  map_count : s.pc.mapping = true → s.incompleteMapTasks = undoneMaps s
  map_done : s.pc.mapping = false → ∀ mt ∈ s.mapTaskState, mt.done = true
  reduce_fresh : s.phase = .map → ∀ rt ∈ s.reduceTaskState, rt = ⟨false, []⟩
  reduce_count : s.pc.mapping = false → s.incompleteReduceTasks = undoneReduces s
  reduce_done : s.phase = .done → ∀ rt ∈ s.reduceTaskState, rt.done = true
  entry_len : ∀ mt ∈ s.mapTaskState, mt.intermediateFiles.length = s.nReduce
  entry_shape : ∀ mt ∈ s.mapTaskState, mt.done = true → shape s.nReduce mt.intermediateFiles

/-- The tables, the phase and the counters, which only mapReduce writes. -/
structure SameTables (s t : State ω) : Prop where
  nReduce : t.nReduce = s.nReduce
  inputFiles : t.inputFiles = s.inputFiles
  mapTaskState : t.mapTaskState = s.mapTaskState
  reduceTaskState : t.reduceTaskState = s.reduceTaskState
  phase : t.phase = s.phase
  incompleteMapTasks : t.incompleteMapTasks = s.incompleteMapTasks
  incompleteReduceTasks : t.incompleteReduceTasks = s.incompleteReduceTasks

theorem Counted.congr {shape : ℕ → List IntermediateFile → Prop} {s t : State ω}
    (hs : Counted shape s) (h : SameTables s t)
    (hphase : t.pc.phase = s.pc.phase) (hmapping : t.pc.mapping = s.pc.mapping) :
    Counted shape t where
  map_len := by
    rw [h.mapTaskState, h.inputFiles]
    exact hs.map_len
  reduce_len := by
    rw [h.reduceTaskState, h.nReduce]
    exact hs.reduce_len
  phase_eq := by
    rw [hphase, h.phase]
    exact hs.phase_eq
  map_count := by
    unfold undoneMaps
    rw [hmapping, h.incompleteMapTasks, h.mapTaskState]
    exact hs.map_count
  map_done := by
    rw [hmapping, h.mapTaskState]
    exact hs.map_done
  reduce_fresh := by
    rw [h.phase, h.reduceTaskState]
    exact hs.reduce_fresh
  reduce_count := by
    unfold undoneReduces
    rw [hmapping, h.incompleteReduceTasks, h.reduceTaskState]
    exact hs.reduce_count
  reduce_done := by
    rw [h.phase, h.reduceTaskState]
    exact hs.reduce_done
  entry_len := by
    rw [h.mapTaskState, h.nReduce]
    exact hs.entry_len
  entry_shape := by
    rw [h.mapTaskState, h.nReduce]
    exact hs.entry_shape

theorem Counted.phase_of_pc {shape : ℕ → List IntermediateFile → Prop} {s : State ω}
    (hs : Counted shape s) {pc : Pc} {phase : Phase} (hpc : s.pc = pc)
    (hphase : pc.phase = some phase) : s.phase = phase := by
  have h := hs.phase_eq
  rw [hpc, hphase] at h
  exact (Option.some.inj h).symm

theorem Counted.mapping_of_not_map {shape : ℕ → List IntermediateFile → Prop} {s : State ω}
    (hs : Counted shape s) (h : s.phase ≠ .map) :
    s.pc.mapping = false := by
  rw [← Bool.not_eq_true]
  intro hmap
  have heq := hs.phase_eq.symm.trans (Pc.phase_of_mapping hmap)
  exact h (Option.some.inj heq)

/-- When the job is done every reduce task is. -/
theorem Counted.reduce_entry_done {shape : ℕ → List IntermediateFile → Prop} {s : State ω}
    (hs : Counted shape s) (hdone : done s = true) {r : ℕ} (hr : r < s.nReduce) :
    ∃ rt, s.reduceTaskState[r]? = some rt ∧ rt.done = true := by
  have hlt : r < s.reduceTaskState.length := hs.reduce_len.symm ▸ hr
  exact ⟨_, List.getElem?_eq_getElem hlt,
    hs.reduce_done (of_decide_eq_true hdone) _ (List.getElem_mem hlt)⟩

theorem acceptMap_cases (s : State ω) (m : CompleteTaskArgs)
    (hlt : m.tid.toNat < s.mapTaskState.length) :
    ∃ tState, s.mapTaskState[m.tid.toNat]? = some tState ∧
      ((tState.done = true ∧ s.acceptMap m = { s with pc := .mapLoop }) ∨
        (tState.done = false ∧ s.acceptMap m =
          { s with
            mapTaskState := s.mapTaskState.set m.tid.toNat
              { tState with
                done := true
                intermediateFiles := m.intermediateFiles ++
                  tState.intermediateFiles.drop m.intermediateFiles.length }
            incompleteMapTasks := s.incompleteMapTasks - 1
            pc := .mapLoop })) := by
  refine ⟨s.mapTaskState[m.tid.toNat], List.getElem?_eq_getElem hlt, ?_⟩
  cases hd : s.mapTaskState[m.tid.toNat].done with
  | true =>
    left
    refine ⟨rfl, ?_⟩
    unfold State.acceptMap
    rw [List.getElem?_eq_getElem hlt]
    simp [hd]
  | false =>
    right
    refine ⟨rfl, ?_⟩
    unfold State.acceptMap
    rw [List.getElem?_eq_getElem hlt]
    simp [hd]

theorem acceptReduce_cases (s : State ω) (m : CompleteTaskArgs)
    (hlt : m.tid.toNat < s.reduceTaskState.length) :
    ∃ tState, s.reduceTaskState[m.tid.toNat]? = some tState ∧
      ((tState.done = true ∧ s.acceptReduce m = { s with pc := .reduceLoop }) ∨
        (tState.done = false ∧ s.acceptReduce m =
          { s with
            reduceTaskState :=
              s.reduceTaskState.set m.tid.toNat { tState with done := true }
            incompleteReduceTasks := s.incompleteReduceTasks - 1
            pc := .reduceLoop })) := by
  refine ⟨s.reduceTaskState[m.tid.toNat], List.getElem?_eq_getElem hlt, ?_⟩
  cases hd : s.reduceTaskState[m.tid.toNat].done with
  | true =>
    left
    refine ⟨rfl, ?_⟩
    unfold State.acceptReduce
    rw [List.getElem?_eq_getElem hlt]
    simp [hd]
  | false =>
    right
    refine ⟨rfl, ?_⟩
    unfold State.acceptReduce
    rw [List.getElem?_eq_getElem hlt]
    simp [hd]

theorem OneEach.length {nReduce : ℕ} {files : List IntermediateFile}
    (h : OneEach nReduce files) : files.length = nReduce := by
  simpa using congrArg List.length h

theorem OneEach.reducerTid {nReduce r : ℕ} {files : List IntermediateFile}
    (h : OneEach nReduce files) {f : IntermediateFile} (hf : files[r]? = some f) :
    f.reducerTid = r := by
  have hlt : r < nReduce := h.length ▸ getElem?_lt hf
  have hget := congrArg (fun l => l[r]?) h
  simpa [hf, hlt] using hget

theorem OneEach.filter {nReduce r : ℕ} {files : List IntermediateFile}
    (h : OneEach nReduce files) {f : IntermediateFile} (hf : files[r]? = some f) :
    files.filter (fun f => f.reducerTid = (r : ℤ)) = [f] := by
  obtain ⟨hlt, hget⟩ := List.getElem?_eq_some_iff.mp hf
  have hsplit : files = files.take r ++ f :: files.drop (r + 1) := by
    rw [← hget, List.getElem_cons_drop, List.take_append_drop]
  -- the file at position i is for reducer i
  have hother : ∀ i f', files[i]? = some f' → i ≠ r → f'.reducerTid ≠ (r : ℤ) := by
    intro i f' hf' hi heq
    have hi' := h.reducerTid hf'
    omega
  have htake : (files.take r).filter (fun f => f.reducerTid = (r : ℤ)) = [] := by
    apply List.filter_eq_nil_iff.mpr
    intro f' hf'
    obtain ⟨i, hi⟩ := List.mem_iff_getElem?.mp hf'
    have hir : i < r := by
      have := getElem?_lt hi
      rw [List.length_take] at this
      omega
    rw [List.getElem?_take_of_lt hir] at hi
    simpa using hother i f' hi (by omega)
  have hdrop : (files.drop (r + 1)).filter (fun f => f.reducerTid = (r : ℤ)) = [] := by
    apply List.filter_eq_nil_iff.mpr
    intro f' hf'
    obtain ⟨i, hi⟩ := List.mem_iff_getElem?.mp hf'
    rw [List.getElem?_drop] at hi
    simpa using hother (r + 1 + i) f' hi (by omega)
  rw [hsplit, List.filter_append, List.filter_cons_of_pos (by simpa using h.reducerTid hf),
    htake, hdrop, List.nil_append]

/-- Each reduce task receives, in order, the files that name it. -/
theorem distributeFiles_eq (files : List IntermediateFile) (rts : List ReduceTaskState)
    (h : ∀ f ∈ files, 0 ≤ f.reducerTid ∧ f.reducerTid < rts.length) :
    ∃ rts' : List ReduceTaskState, distributeFiles files rts = some rts' ∧
      rts'.length = rts.length ∧ ∀ (r : ℕ) (rt : ReduceTaskState), rts[r]? = some rt →
        rts'[r]? = some { rt with intermediateFiles := rt.intermediateFiles ++
          (files.filter fun f => f.reducerTid = (r : ℤ)).map IntermediateFile.file } := by
  induction files generalizing rts with
  | nil =>
    refine ⟨rts, rfl, rfl, ?_⟩
    intro r rt hrt
    simpa using hrt
  | cons f files ih =>
    obtain ⟨hlo, hhi⟩ := h f (List.mem_cons_self ..)
    have hlen : (rts.modify f.reducerTid.toNat fun rt =>
        { rt with intermediateFiles := rt.intermediateFiles ++ [f.file] }).length =
          rts.length := by simp
    obtain ⟨rts', heq, hlen', hget⟩ := ih (rts.modify f.reducerTid.toNat fun rt =>
      { rt with intermediateFiles := rt.intermediateFiles ++ [f.file] }) (by
        intro f' hf'
        rw [hlen]
        exact h f' (List.mem_cons_of_mem _ hf'))
    refine ⟨rts', ?_, hlen'.trans hlen, ?_⟩
    · rw [distributeFiles, if_pos ⟨hlo, hhi⟩]
      exact heq
    · intro r rt hrt
      by_cases hr : f.reducerTid = r
      · have hnat : f.reducerTid.toNat = r := by omega
        rw [hget r { rt with intermediateFiles := rt.intermediateFiles ++ [f.file] } (by
          rw [List.getElem?_modify, hrt, hnat]
          simp)]
        simp [hr]
      · have hnat : f.reducerTid.toNat ≠ r := by omega
        rw [hget r rt (by
          rw [List.getElem?_modify, hrt]
          simp [hnat])]
        simp [hr]

theorem distribute_eq (mts : List MapTaskState) (rts : List ReduceTaskState) :
    distribute mts rts = distributeFiles (mts.flatMap MapTaskState.intermediateFiles) rts := by
  have happend : ∀ (files files' : List IntermediateFile) (rts : List ReduceTaskState),
      distributeFiles (files ++ files') rts =
        (distributeFiles files rts).bind (distributeFiles files') := by
    intro files files'
    induction files with
    | nil =>
      intro rts
      rfl
    | cons f files ih =>
      intro rts
      rw [List.cons_append, distributeFiles, distributeFiles]
      split
      · exact ih _
      · rfl
  induction mts generalizing rts with
  | nil => rfl
  | cons mts rest ih =>
    rw [List.flatMap_cons, happend, distribute]
    cases distributeFiles mts.intermediateFiles rts with
    | none => rfl
    | some rts => exact ih rts

/-- The file a map task's entry has for a reducer. -/
def MapTaskState.fileFor (mt : MapTaskState) (r : ℕ) : GoString :=
  (mt.intermediateFiles.getD r ⟨0, []⟩).file

theorem OneEach.filter_map {nReduce r : ℕ} {mt : MapTaskState}
    (h : OneEach nReduce mt.intermediateFiles) (hr : r < nReduce) :
    (mt.intermediateFiles.filter fun f => f.reducerTid = (r : ℤ)).map IntermediateFile.file =
      [mt.fileFor r] := by
  have hlt : r < mt.intermediateFiles.length := h.length.symm ▸ hr
  rw [h.filter (List.getElem?_eq_getElem hlt), MapTaskState.fileFor,
    List.getD_eq_getElem _ _ hlt]
  rfl

/-- When every file names a reducer, the phase switch gives each reduce task the files
that name it, in the order of the map tasks. -/
theorem Counted.switch_eq {shape : ℕ → List IntermediateFile → Prop} {s : State ω}
    (hs : Counted shape s) (hphase : s.phase = .map)
    (hrange : ∀ mt ∈ s.mapTaskState, ∀ f ∈ mt.intermediateFiles,
      0 ≤ f.reducerTid ∧ f.reducerTid < s.nReduce) :
    ∃ rts : List ReduceTaskState, s.switch =
      { s with reduceTaskState := rts, phase := .reduce, pc := .reduceLoop } ∧
      rts.length = s.nReduce ∧
      ∀ (r : ℕ) (rt : ReduceTaskState), rts[r]? = some rt →
        rt = ⟨false, s.mapTaskState.flatMap fun mt =>
          (mt.intermediateFiles.filter fun f => f.reducerTid = (r : ℤ)).map
            IntermediateFile.file⟩ := by
  obtain ⟨rts, heq, hlen, hget⟩ := distributeFiles_eq
    (s.mapTaskState.flatMap MapTaskState.intermediateFiles) s.reduceTaskState (by
      intro f hf
      obtain ⟨mt, hmt, hmem⟩ := List.mem_flatMap.mp hf
      rw [hs.reduce_len]
      exact hrange mt hmt f hmem)
  refine ⟨rts, ?_, by rw [hlen, hs.reduce_len], ?_⟩
  · rw [State.switch, distribute_eq, heq]
  · intro r rt hrt
    have hr : r < s.reduceTaskState.length := hlen ▸ getElem?_lt hrt
    have hold := hs.reduce_fresh hphase _ (List.getElem_mem hr)
    have hnew := hget r _ (List.getElem?_eq_getElem hr)
    rw [hrt, hold] at hnew
    rw [Option.some.inj hnew, List.nil_append, List.filter_flatMap, List.map_flatMap]

theorem OneEach.range {nReduce : ℕ} {files : List IntermediateFile} (h : OneEach nReduce files) :
    ∀ f ∈ files, 0 ≤ f.reducerTid ∧ f.reducerTid < nReduce := by
  intro f hf
  obtain ⟨i, hi⟩ := List.mem_iff_getElem?.mp hf
  have htid := h.reducerTid hi
  have hlt := getElem?_lt hi
  rw [h.length] at hlt
  omega

/-- The phase switch gives each reduce task one file of each map task, in order. -/
theorem switch_eq {s : State ω} (hs : Counted OneEach s) (hdone : s.pc.mapping = false)
    (hphase : s.phase = .map) :
    ∃ rts : List ReduceTaskState, s.switch =
      { s with reduceTaskState := rts, phase := .reduce, pc := .reduceLoop } ∧
      rts.length = s.nReduce ∧
      ∀ (r : ℕ) (rt : ReduceTaskState), rts[r]? = some rt →
        rt = ⟨false, s.mapTaskState.map fun mt => mt.fileFor r⟩ := by
  have hshape : ∀ mt ∈ s.mapTaskState, OneEach s.nReduce mt.intermediateFiles :=
    fun mt hmt => hs.entry_shape mt hmt (hs.map_done hdone mt hmt)
  obtain ⟨rts, heq, hlen, hget⟩ :=
    hs.switch_eq hphase fun mt hmt => (hshape mt hmt).range
  refine ⟨rts, heq, hlen, ?_⟩
  intro r rt hrt
  rw [hget r rt hrt, List.map_eq_flatMap]
  congr 1
  apply List.flatMap_congr
  intro mt hmt
  exact (hshape mt hmt).filter_map (hlen ▸ getElem?_lt hrt)

/-- mapReduce is about to store the files of a completion. -/
structure Stores (s : State ω) (m : CompleteTaskArgs) : Prop where
  got : s.pc = .mapGot m
  type : m.type = .map
  range : 0 ≤ m.tid ∧ m.tid < s.inputFiles.length
  length : m.intermediateFiles.length = s.nReduce
  undone : ∃ mt, s.mapTaskState[m.tid.toNat]? = some mt ∧ mt.done = false

/-- A completion that a worker makes. -/
def Proper (s : State ω) (m : CompleteTaskArgs) : Prop :=
  (m.type = .map ∧ (0 ≤ m.tid ∧ m.tid < s.inputFiles.length) ∧
      OneEach s.nReduce m.intermediateFiles) ∨
    (m.type = .reduce ∧ ∃ h ∈ s.handouts, h.task.taskType = .reduce ∧ (h.task.tid : ℤ) = m.tid)

structure Messages (s : State ω) : Prop where
  queue : ∀ m ∈ s.completionQueue, Proper s m
  map_got : ∀ m, s.pc = .mapGot m → Proper s m
  reduce_got : ∀ m, s.pc = .reduceGot m → Proper s m
  not_requeue : ∀ tid, s.pc ≠ .mapRequeue tid

namespace Counted

variable {shape : ℕ → List IntermediateFile → Prop} {s : State ω}

theorem undone_eq_zero {l : List MapTaskState} (h : l.countP (fun mt => !mt.done) = 0) :
    ∀ mt ∈ l, mt.done = true := by
  intro mt hmt
  simpa using List.countP_eq_zero.mp h mt hmt

theorem spawnStart (hs : Counted shape s) (hpc : s.pc = .mapLoop)
    (hcount : ¬ 0 < s.incompleteMapTasks) :
    Counted shape { s with incompleteReduceTasks := s.nReduce, pc := .spawn 0 } where
  map_len := hs.map_len
  reduce_len := hs.reduce_len
  phase_eq := by
    rw [← hs.phase_eq, hpc]
    rfl
  map_count h := by cases h
  map_done _ := by
    have hundone := hs.map_count (by rw [hpc]; rfl)
    unfold undoneMaps at hundone
    have hzero : s.mapTaskState.countP (fun mt => !mt.done) = 0 := by omega
    exact undone_eq_zero hzero
  reduce_fresh := hs.reduce_fresh
  reduce_count _ := by
    have hphase : s.phase = .map := hs.phase_of_pc hpc rfl
    have hall : s.reduceTaskState.countP (fun rt => !rt.done) = s.reduceTaskState.length := by
      apply List.countP_eq_length.mpr
      intro rt hrt
      rw [hs.reduce_fresh hphase rt hrt]
      rfl
    change (s.nReduce : ℤ) = (s.reduceTaskState.countP fun rt => !rt.done : ℕ)
    rw [hall, hs.reduce_len]
  reduce_done := hs.reduce_done
  entry_len := hs.entry_len
  entry_shape := hs.entry_shape

theorem acceptMap (hs : Counted shape s) {m : CompleteTaskArgs} (hpc : s.pc = .mapGot m)
    (htype : m.type = .map) (hrange : 0 ≤ m.tid ∧ m.tid < s.inputFiles.length)
    (hlen : m.intermediateFiles.length = s.nReduce)
    (hshape : Stores s m → shape s.nReduce m.intermediateFiles) :
    Counted shape (s.acceptMap m) := by
  have hlt : m.tid.toNat < s.mapTaskState.length := by
    rw [hs.map_len]
    omega
  obtain ⟨tState, hget, ⟨_, heq⟩ | ⟨hundone, heq⟩⟩ := acceptMap_cases s m hlt
  · rw [heq]
    exact hs.congr ⟨rfl, rfl, rfl, rfl, rfl, rfl, rfl⟩ (by rw [hpc]; rfl) (by rw [hpc]; rfl)
  · rw [heq]
    have hdrop : tState.intermediateFiles.drop m.intermediateFiles.length = [] := by
      apply List.drop_eq_nil_of_le
      rw [hs.entry_len tState (List.mem_of_getElem? hget), hlen]
    constructor
    · simpa using hs.map_len
    · exact hs.reduce_len
    · rw [← hs.phase_eq, hpc]
      rfl
    · intro _
      have hold := hs.map_count (by rw [hpc]; rfl)
      have hset := countP_set_of_pos (p := fun mt : MapTaskState => !mt.done)
        (b := { tState with
          done := true
          intermediateFiles := m.intermediateFiles ++
            tState.intermediateFiles.drop m.intermediateFiles.length }) hget
        (by simp [hundone]) rfl
      unfold undoneMaps at hold ⊢
      dsimp only
      omega
    · intro h
      cases h
    · exact hs.reduce_fresh
    · intro h
      cases h
    · exact hs.reduce_done
    · intro mt hmt
      rcases mem_set_cases hmt with rfl | hold
      · rw [hdrop, List.append_nil]
        exact hlen
      · exact hs.entry_len mt hold
    · intro mt hmt hdone
      rcases mem_set_cases hmt with rfl | hold
      · rw [hdrop, List.append_nil]
        exact hshape ⟨hpc, htype, hrange, hlen, tState, hget, hundone⟩
      · exact hs.entry_shape mt hold hdone

theorem acceptReduce (hs : Counted shape s) {m : CompleteTaskArgs} (hpc : s.pc = .reduceGot m)
    (hrange : 0 ≤ m.tid ∧ m.tid < s.nReduce) : Counted shape (s.acceptReduce m) := by
  have hlt : m.tid.toNat < s.reduceTaskState.length := by
    rw [hs.reduce_len]
    omega
  have hphase : s.phase = .reduce := hs.phase_of_pc hpc rfl
  obtain ⟨tState, hget, ⟨_, heq⟩ | ⟨hundone, heq⟩⟩ := acceptReduce_cases s m hlt
  · rw [heq]
    exact hs.congr ⟨rfl, rfl, rfl, rfl, rfl, rfl, rfl⟩ (by rw [hpc]; rfl) (by rw [hpc]; rfl)
  · rw [heq]
    constructor
    · exact hs.map_len
    · simpa using hs.reduce_len
    · rw [hphase]
      rfl
    · intro h
      cases h
    · intro _
      exact hs.map_done (by rw [hpc]; rfl)
    · intro h
      rw [hphase] at h
      cases h
    · intro _
      have hold := hs.reduce_count (by rw [hpc]; rfl)
      have hset := countP_set_of_pos (p := fun rt : ReduceTaskState => !rt.done)
        (b := { tState with done := true }) hget (by simp [hundone]) rfl
      unfold undoneReduces at hold ⊢
      dsimp only
      omega
    · intro h
      rw [hphase] at h
      cases h
    · exact hs.entry_len
    · exact hs.entry_shape

theorem switch (hs : Counted shape s) {tid : ℕ} (hpc : s.pc = .spawn tid)
    (hrange : ∀ mt ∈ s.mapTaskState, ∀ f ∈ mt.intermediateFiles,
      0 ≤ f.reducerTid ∧ f.reducerTid < s.nReduce) : Counted shape s.switch := by
  have hphase : s.phase = .map := hs.phase_of_pc hpc rfl
  have hmapping : s.pc.mapping = false := by
    rw [hpc]
    rfl
  obtain ⟨rts, heq, hlen, hget⟩ := hs.switch_eq hphase hrange
  have hfresh : ∀ rt ∈ rts, rt.done = false := by
    intro rt hrt
    obtain ⟨r, hr⟩ := List.mem_iff_getElem?.mp hrt
    rw [hget r rt hr]
  rw [heq]
  constructor
  · exact hs.map_len
  · exact hlen
  · rfl
  · intro h
    cases h
  · intro _
    exact hs.map_done hmapping
  · intro h
    cases h
  · intro _
    have hold := hs.reduce_count hmapping
    have hcount : ∀ l : List ReduceTaskState, (∀ rt ∈ l, rt.done = false) →
        l.countP (fun rt => !rt.done) = l.length := by
      intro l hl
      apply List.countP_eq_length.mpr
      intro rt hrt
      simp [hl rt hrt]
    have hnew := hcount rts hfresh
    have hbefore := hcount s.reduceTaskState fun rt hrt => by
      rw [hs.reduce_fresh hphase rt hrt]
    unfold undoneReduces at hold ⊢
    show s.incompleteReduceTasks = _
    rw [hold, hbefore, hnew, hlen, hs.reduce_len]
  · intro h
    cases h
  · exact hs.entry_len
  · exact hs.entry_shape

theorem finish (hs : Counted shape s) (hpc : s.pc = .reduceLoop)
    (hcount : ¬ 0 < s.incompleteReduceTasks) :
    Counted shape { s with phase := .done, pc := .finished } where
  map_len := hs.map_len
  reduce_len := hs.reduce_len
  phase_eq := rfl
  map_count h := by cases h
  map_done _ := hs.map_done (by rw [hpc]; rfl)
  reduce_fresh h := by cases h
  reduce_count _ := hs.reduce_count (by rw [hpc]; rfl)
  reduce_done _ := by
    have hundone := hs.reduce_count (by rw [hpc]; rfl)
    unfold undoneReduces at hundone
    have hzero : s.reduceTaskState.countP (fun rt => !rt.done) = 0 := by omega
    intro rt hrt
    simpa using List.countP_eq_zero.mp hzero rt hrt
  entry_len := hs.entry_len
  entry_shape := hs.entry_shape

end Counted

end DistributedLabs.Coordinator
