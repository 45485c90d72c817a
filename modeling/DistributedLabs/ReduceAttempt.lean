import DistributedLabs.CoordinatorCompletions
import DistributedLabs.MREquivalence
import DistributedLabs.MRWorker

/-!
One attempt at a reduce task, as Worker makes it: read the listed files, leaving
out those that cannot be read, run doReduce on the rest, and report the task unless
doReduce returned an error. On the coordinator's side, a task that no one reports
goes back to the queue when its timer fires.
-/
namespace DistributedLabs.ReduceAttempt

open GoText Files Grouping MRTask MRWorker MREquivalence Coordinator Transition

/-- The inner loop of the reduce branch: its `continue` only skips the file. -/
def readFiles : List GoString → Io → List GoString × Io
  | [], io => ([], io)
  | name :: rest, io =>
    match io.readFile name with
    | (none, io) => readFiles rest io
    | (some contents, io) =>
      match readFiles rest io with
      | (others, io) => (contents :: others, io)

/-- The reduce branch of Worker: what it sends to CompleteTask, if it does. -/
def reduceBranch (json : Json) (it : Iteration GoString GoString)
    (reducef : GoString → List GoString → GoString) (tid : ℤ) (files : List GoString) (io : Io) :
    Option CompleteTaskArgs × Io :=
  match readFiles files io with
  | (intermediateFileContents, io) =>
    match doReduce json it reducef intermediateFileContents tid io with
    | (false, io) => (none, io)
    | (true, io) => (some (reduceCompletion tid), io)

/-- Whether each Fprintf of `writeRecords` returned without error. -/
def recordsWritten (name : GoString) : List Record → ℕ → Io → Bool
  | [], _, _ => true
  | r :: rest, offset, io =>
    match io.write name offset r.format with
    | (n, ok, io) => ok && recordsWritten name rest (offset + n) io

/-- The attempt has read and decoded every listed file, has created the output file and
written the record of every key to it without error, and the file holds them all. -/
structure Computed (json : Json) (it : Iteration GoString GoString)
    (reducef : GoString → List GoString → GoString) (tid : ℤ) (files : List GoString)
    (io : Io) : Prop where
  read : files.map io.files = (readFiles files io).1.map some
  decoded : ∀ c ∈ (readFiles files io).1, (json.unmarshal c).isSome
  written : ∃ m, mergeFiles json it 0 (readFiles files io).1 ∅ = some m ∧
    ((readFiles files io).2.create (outputName tid)).1 = true ∧
    recordsWritten (outputName tid) (reduceRecords reducef m (it.order files.length m)) 0
      ((readFiles files io).2.create (outputName tid)).2 = true ∧
    (reduceBranch json it reducef tid files io).2.files (outputName tid) =
      some ((reduceRecords reducef m (it.order files.length m)).flatMap Record.format)

/-- Every listed file is there, and no opening or reading of one and no Fprintf of a
record fails; os.Create is the call between the two. -/
structure Undisturbed (json : Json) (it : Iteration GoString GoString) (files : List GoString)
    (io : Io) : Prop where
  present : ∀ name ∈ files, (io.files name).isSome
  reads : ∀ k < 2 * files.length, io.faults (io.calls + k) = none
  writes : ∀ m, mergeFiles json it 0 (readFiles files io).1 ∅ = some m →
    ∀ k < (it.order files.length m).length, io.faults (io.calls + 2 * files.length + 1 + k) = none

variable {json : Json} {it : Iteration GoString GoString}
  {reducef : GoString → List GoString → GoString} {tid : ℤ} {files : List GoString} {io : Io}

theorem readFiles_of_no_fault (hpresent : ∀ name ∈ files, (io.files name).isSome)
    (hok : ∀ k < 2 * files.length, io.faults (io.calls + k) = none) :
    ∃ contents, files.map io.files = contents.map some ∧
      readFiles files io = (contents, { io with calls := io.calls + 2 * files.length }) := by
  induction files generalizing io with
  | nil => exact ⟨[], rfl, rfl⟩
  | cons name rest ih =>
    rw [List.length_cons] at hok
    obtain ⟨content, hcontent⟩ := Option.isSome_iff_exists.mp
      (hpresent name List.mem_cons_self)
    have hread := Io.readFile_of_no_fault (hok 0 (by omega)) (hok 1 (by omega)) hcontent
    have hpresent' : ∀ other ∈ rest,
        (((io.tick io.files).tick io.files).files other).isSome :=
      fun other hother => hpresent other (List.mem_cons_of_mem name hother)
    obtain ⟨contents, hmap, hrest⟩ := ih hpresent' (by
      intro k hk
      have hlater := hok (k + 2) (by omega)
      simpa [Nat.add_assoc, Nat.add_comm 2 k] using hlater)
    refine ⟨content :: contents, ?_, ?_⟩
    · rw [List.map_cons, List.map_cons, hcontent]
      exact congrArg _ hmap
    · have hcalls : io.calls + 1 + 1 + 2 * rest.length = io.calls + 2 * (rest.length + 1) := by
        omega
      simp only [readFiles, hread, hrest]
      rw [List.length_cons, ← hcalls]
      rfl

theorem readFile_eq_some {name content : GoString} {io' : Io}
    (h : io.readFile name = (some content, io')) :
    io.files name = some content ∧ io.faults io.calls = none ∧
      io.faults (io.calls + 1) = none ∧ io' = (io.tick io.files).tick io.files := by
  unfold Io.readFile at h
  split at h
  · split at h
    · cases h
      exact ⟨‹_›, ‹_›, ‹_›, rfl⟩
    · cases h
  · cases h

theorem length_readFiles_le (files : List GoString) (io : Io) :
    (readFiles files io).1.length ≤ files.length := by
  induction files generalizing io with
  | nil => exact le_rfl
  | cons name rest ih =>
    rw [readFiles]
    split
    · exact (ih _).trans (Nat.le_succ _)
    · exact Nat.succ_le_succ (ih _)

theorem no_fault_of_length (h : (readFiles files io).1.length = files.length) :
    (∀ name ∈ files, (io.files name).isSome) ∧
      ∀ k < 2 * files.length, io.faults (io.calls + k) = none := by
  induction files generalizing io with
  | nil => simp
  | cons name rest ih =>
    rw [readFiles] at h
    split at h
    · -- a file that is skipped is missing at the end
      rename_i io₁ _
      have hle := length_readFiles_le rest io₁
      simp only [List.length_cons] at h
      omega
    · rename_i content io₁ hread
      obtain ⟨hfile, hopen, hdata, rfl⟩ := readFile_eq_some hread
      obtain ⟨hpresent, hlater⟩ := ih (Nat.succ_inj.mp h)
      constructor
      · intro other hother
        rcases List.mem_cons.mp hother with rfl | hrest
        · rw [hfile]
          rfl
        · exact hpresent other hrest
      · intro k hk
        rw [List.length_cons] at hk
        match k with
        | 0 => exact hopen
        | 1 => exact hdata
        | k + 2 =>
          have hk' := hlater k (by omega)
          simpa [Nat.add_assoc, Nat.add_comm 2 k] using hk'

/-- All listed files are read just if they are there and no call fails. -/
theorem readFiles_all_iff : files.map io.files = (readFiles files io).1.map some ↔
    (∀ name ∈ files, (io.files name).isSome) ∧
      ∀ k < 2 * files.length, io.faults (io.calls + k) = none := by
  constructor
  · intro h
    apply no_fault_of_length
    simpa using (congrArg List.length h).symm
  · rintro ⟨hpresent, hok⟩
    obtain ⟨contents, hmap, hread⟩ := readFiles_of_no_fault hpresent hok
    rw [hread]
    exact hmap

theorem recordsWritten_iff (name : GoString) (records : List Record) (offset : ℕ) (io : Io) :
    recordsWritten name records offset io = true ↔
      ∀ k < records.length, io.faults (io.calls + k) = none := by
  induction records generalizing offset io with
  | nil => simp [recordsWritten]
  | cons r records ih =>
    rw [List.length_cons, Nat.forall_lt_succ_left]
    cases hfault : io.faults io.calls with
    | some n => simp [recordsWritten, Io.write, hfault]
    | none =>
      have hrest := ih (offset + r.format.length)
        (io.tick (write io.files name offset r.format))
      simp only [Io.tick_faults, Io.tick_calls, Nat.add_assoc, Nat.add_comm 1] at hrest
      rw [← hrest]
      simp [recordsWritten, Io.write_of_no_fault hfault]

theorem mergeFiles_isSome_iff {i : ℕ} {contents : List GoString} {m : Contents} :
    (mergeFiles json it i contents m).isSome ↔ ∀ c ∈ contents, (json.unmarshal c).isSome := by
  induction contents generalizing i m with
  | nil => simp [mergeFiles]
  | cons c rest ih =>
    rw [mergeFiles]
    cases hc : json.unmarshal c with
    | none => simp [hc]
    | some tmp => simp [hc, ih]

/-- An attempt is reported exactly when what could be read decodes and os.Create
succeeds; reads that failed and writes that fail do not matter. -/
theorem reduceBranch_reports_iff {args : CompleteTaskArgs} :
    (reduceBranch json it reducef tid files io).1 = some args ↔
      args = reduceCompletion tid ∧
        (∀ c ∈ (readFiles files io).1, (json.unmarshal c).isSome) ∧
        (readFiles files io).2.faults (readFiles files io).2.calls = none := by
  rcases hread : readFiles files io with ⟨contents, io₁⟩
  have hmerge : (mergeFiles json it 0 contents ∅).isSome ↔ _ := mergeFiles_isSome_iff
  simp only [reduceBranch, hread, doReduce]
  rw [← hmerge]
  cases mergeFiles json it 0 contents ∅ with
  | none => simp
  | some m =>
    cases hfault : io₁.faults io₁.calls with
    | none => simp [Io.create, hfault, eq_comm]
    | some n => simp [Io.create, hfault]

theorem reduceBranch_eq_none_iff :
    (reduceBranch json it reducef tid files io).1 = none ↔
      (∃ c ∈ (readFiles files io).1, json.unmarshal c = none) ∨
        (readFiles files io).2.faults (readFiles files io).2.calls ≠ none := by
  have hreports : (reduceBranch json it reducef tid files io).1 = some (reduceCompletion tid) ↔ _ :=
    reduceBranch_reports_iff
  constructor
  · intro hnone
    by_contra hok
    rw [not_or, not_not] at hok
    obtain ⟨hdecode, hcreate⟩ := hok
    push Not at hdecode
    rw [hreports.mpr ⟨rfl, fun c hc => Option.ne_none_iff_isSome.mp (hdecode c hc), hcreate⟩]
      at hnone
    cases hnone
  · intro hbad
    rw [Option.eq_none_iff_forall_ne_some]
    intro args hargs
    obtain ⟨-, hdecode, hcreate⟩ := reduceBranch_reports_iff.mp hargs
    rcases hbad with ⟨c, hc, hnone⟩ | hfault
    · have hsome := hdecode c hc
      rw [hnone] at hsome
      cases hsome
    · exact hfault hcreate

/-- A reported attempt in which nothing is lost leaves all its records. -/
theorem Undisturbed.computed (h : Undisturbed json it files io)
    (hreported : (reduceBranch json it reducef tid files io).1 ≠ none) :
    Computed json it reducef tid files io := by
  obtain ⟨args, hargs⟩ := Option.ne_none_iff_exists'.mp hreported
  obtain ⟨-, hdecode, hcreate⟩ := reduceBranch_reports_iff.mp hargs
  have hmerge : (mergeFiles json it 0 (readFiles files io).1 ∅).isSome :=
    mergeFiles_isSome_iff.mpr hdecode
  obtain ⟨m, hm⟩ := Option.isSome_iff_exists.mp hmerge
  obtain ⟨contents, hmap, hread⟩ := readFiles_of_no_fault h.present h.reads
  have hlen : contents.length = files.length := by
    simpa using (congrArg List.length hmap).symm
  have hwrites := h.writes m hm
  rw [hread] at hdecode hcreate hm
  have hok : ∀ k < (reduceRecords reducef m (it.order files.length m)).length,
      io.faults (io.calls + 2 * files.length + 1 + k) = none := by
    simpa [reduceRecords] using hwrites
  refine ⟨by rw [hread]; exact hmap, by rw [hread]; exact hdecode, m, by rw [hread]; exact hm,
    ?_, ?_, ?_⟩
  · rw [hread, Io.create_of_no_fault hcreate]
  · rw [hread, Io.create_of_no_fault hcreate, recordsWritten_iff]
    exact hok
  · simp only [reduceBranch, hread, doReduce, hm, Io.create_of_no_fault hcreate, hlen]
    exact writeRecords_of_no_fault [] hok (by simp)

theorem Computed.undisturbed (h : Computed json it reducef tid files io) :
    Undisturbed json it files io := by
  obtain ⟨hpresent, hreads⟩ := readFiles_all_iff.mp h.read
  obtain ⟨m, hm, hcreate, hrecords, -⟩ := h.written
  obtain ⟨contents, hmap, hread⟩ := readFiles_of_no_fault hpresent hreads
  refine ⟨hpresent, hreads, fun m' hm' => ?_⟩
  obtain rfl : m = m' := Option.some.inj (hm.symm.trans hm')
  have hio : ((readFiles files io).2.create (outputName tid)).2 =
      (readFiles files io).2.tick (create (readFiles files io).2.files (outputName tid)) :=
    Io.create_eq_true (Prod.ext hcreate rfl)
  rw [hio, recordsWritten_iff, hread] at hrecords
  simpa [reduceRecords] using hrecords

/-! ### The timer of a task that is not reported -/

section Timer

variable {ω : Type*} [DecidableEq ω]

/-- A call of CompleteTask for reduce task `tid`. -/
def reportsReduce (tid : ℕ) : Label ω → Bool
  | .complete m => m.type = .reduce && m.tid = tid
  | _ => false

structure Unreported (tid : ℕ) (s : State ω) : Prop where
  queued : ∀ m ∈ s.completionQueue, m.type = .reduce → m.tid ≠ tid
  in_hand : ∀ m, s.pc = .reduceGot m → m.type = .reduce → m.tid ≠ tid
  undone : ∀ rt, s.reduceTaskState[tid]? = some rt → rt.done = false

variable {tid : ℕ} {s u : State ω} {l : Label ω}

omit [DecidableEq ω] in
theorem distributeFiles_undone {imFiles : List IntermediateFile} {rts rts' : List ReduceTaskState}
    (h : distributeFiles imFiles rts = some rts')
    (hundone : ∀ rt, rts[tid]? = some rt → rt.done = false) :
    ∀ rt, rts'[tid]? = some rt → rt.done = false := by
  induction imFiles generalizing rts with
  | nil =>
    cases h
    exact hundone
  | cons f rest ih =>
    rw [distributeFiles] at h
    split at h
    · refine ih h ?_
      intro rt hrt
      rw [List.getElem?_modify] at hrt
      obtain ⟨old, hold, hrt⟩ := Option.map_eq_some_iff.mp hrt
      rw [← hrt]
      split
      · exact hundone old hold
      · exact hundone old hold
    · cases h

theorem Unreported.step (hs : Unreported tid s) (hl : reportsReduce tid l = false)
    (h : Step s l u) : Unreported tid u := by
  cases h with
  | complete m hcap =>
    refine ⟨?_, hs.in_hand, hs.undone⟩
    intro m' hm' htype
    rcases List.mem_append.mp hm' with hold | hnew
    · exact hs.queued m' hold htype
    · rw [List.mem_singleton.mp hnew] at htype ⊢
      intro htid
      simp only [reportsReduce, Bool.and_eq_false_iff, decide_eq_false_iff_not] at hl
      exact hl.elim (· htype) (· htid)
  | mapReceive m rest hpc hcount hq =>
    refine ⟨?_, fun m hm => (by cases hm), hs.undone⟩
    intro m' hm'
    exact hs.queued m' (hq ▸ List.mem_cons_of_mem m hm')
  | reduceReceive m rest hpc hcount hq =>
    refine ⟨?_, ?_, hs.undone⟩
    · intro m' hm'
      exact hs.queued m' (hq ▸ List.mem_cons_of_mem m hm')
    · intro m' hm'
      cases hm'
      exact hs.queued m (hq ▸ List.mem_cons_self)
  | mapAccept m hpc htype hrange hlen hreaders =>
    obtain ⟨-, -, hqueue, -, hpc'⟩ := acceptMap_callers s m
    have htable : (s.acceptMap m).reduceTaskState = s.reduceTaskState := by
      unfold State.acceptMap
      split
      · split <;> rfl
      · rfl
    refine ⟨hqueue ▸ hs.queued, ?_, htable ▸ hs.undone⟩
    intro m' hm'
    rcases hpc' with h | h <;> rw [h] at hm' <;> cases hm'
  | switch r hpc hge =>
    obtain ⟨-, -, hqueue, hpc'⟩ := switch_callers s
    refine ⟨hqueue ▸ hs.queued, ?_, ?_⟩
    · intro m' hm'
      rcases hpc' with ⟨-, h⟩ | ⟨-, h⟩ <;> rw [h] at hm' <;> cases hm'
    · unfold State.switch
      rw [distribute_eq]
      cases hdist : distributeFiles (s.mapTaskState.flatMap MapTaskState.intermediateFiles)
          s.reduceTaskState with
      | none => exact hs.undone
      | some rts => exact distributeFiles_undone hdist hs.undone
  | reduceAccept m hpc htype hrange hreaders =>
    obtain ⟨-, -, hqueue, -, hpc'⟩ := acceptReduce_callers s m
    refine ⟨hqueue ▸ hs.queued, ?_, ?_⟩
    · intro m' hm'
      rcases hpc' with h | h <;> rw [h] at hm' <;> cases hm'
    · -- the accepted completion is for another task, so this entry is not written
      have hne : m.tid.toNat ≠ tid := by
        have := hs.in_hand m hpc htype
        omega
      unfold State.acceptReduce
      split
      · split
        · exact hs.undone
        · intro rt hrt
          rw [List.getElem?_set_ne hne] at hrt
          exact hs.undone rt hrt
      · exact hs.undone
  | checkPanic | firePanic | spawnStart | mapSkip | mapBad | mapRequeue | spawnSend | finish
  | reduceSkip => exact ⟨hs.queued, fun m hm => (by cases hm), hs.undone⟩
  | request | pop | timeout | checkSleep | checkTask | reply | expire | startSend | requeue =>
    exact ⟨hs.queued, hs.in_hand, hs.undone⟩

theorem unreported_of_reachable
    (h : (system ω).ReachableWithin (fun _ l => reportsReduce tid l = false) s) :
    Unreported tid s := by
  refine h.invariant ?_ ?_
  · rintro s ⟨inputs, nReduce, -, hs⟩
    obtain ⟨queue, -, rfl⟩ := Option.map_eq_some_iff.mp hs
    refine ⟨by simp, by simp, ?_⟩
    intro rt hrt
    rw [List.eq_of_mem_replicate (List.mem_of_getElem? hrt)]
  · intro s l u _ ih hl hstep
    exact ih.step hl (step_sound hstep)

/-- A reduce task that is handed out and that no one reports goes back to the
queue when its timer fires, as long as the phase lasts. -/
theorem timer_requeues (h : (system ω).ReachableWithin (fun _ l => reportsReduce tid l = false) s)
    (hlt : tid < s.reduceTaskState.length) (htimer : ⟨⟨tid, .reduce⟩, false⟩ ∈ s.timers)
    (hphase : s.phase = .reduce) (hlock : s.pc.locked = false)
    (hcap : s.taskQueue.length < queueCap) :
    ∃ u, (system ω).run s [.fire ⟨tid, .reduce⟩, .requeue ⟨tid, .reduce⟩] = some u ∧
      ⟨tid, .reduce⟩ ∈ u.taskQueue := by
  have hundone := (unreported_of_reachable h).undone _ (List.getElem?_eq_getElem hlt)
  have hdone : taskDone s ⟨tid, .reduce⟩ = some false := by
    simp [taskDone, List.getElem?_eq_getElem hlt, hundone]
  have hfire : step s (.fire ⟨tid, .reduce⟩) = some (s.startSend ⟨tid, .reduce⟩) := by
    simp [step, htimer, hlock, hdone, hphase]
  have hrequeue : step (s.startSend ⟨tid, .reduce⟩) (.requeue ⟨tid, .reduce⟩) =
      some ((s.startSend ⟨tid, .reduce⟩).requeue ⟨tid, .reduce⟩) := by
    simp [step, State.startSend, hcap]
  refine ⟨(s.startSend ⟨tid, .reduce⟩).requeue ⟨tid, .reduce⟩, ?_, ?_⟩
  · simp only [System.run, system, hfire, hrequeue, Option.bind_some]
  · exact List.mem_append_right _ List.mem_cons_self

end Timer

/-- Just when is it true of an attempt that the task is reported only if it was computed:
when it is not reported, since a file that was read does not decode or os.Create fails, or
when no listed file and no record is lost. A task that is not reported is run again. -/
theorem reduce_reported_only_computed (ω : Type*) [DecidableEq ω] (json : Json)
    (it : Iteration GoString GoString) (reducef : GoString → List GoString → GoString) (tid : ℕ)
    (files : List GoString) (io : Io) :
    (∀ args, (reduceBranch json it reducef tid files io).1 = some args →
      args = reduceCompletion tid) ∧
    ((reduceBranch json it reducef tid files io).1 = none ↔
      (∃ c ∈ (readFiles files io).1, json.unmarshal c = none) ∨
        (readFiles files io).2.faults (readFiles files io).2.calls ≠ none) ∧
    (((reduceBranch json it reducef tid files io).1 ≠ none →
        Computed json it reducef tid files io) ↔
      (∃ c ∈ (readFiles files io).1, json.unmarshal c = none) ∨
        (readFiles files io).2.faults (readFiles files io).2.calls ≠ none ∨
        Undisturbed json it files io) ∧
    ∀ s : State ω, (system ω).ReachableWithin (fun _ l => reportsReduce tid l = false) s →
      tid < s.reduceTaskState.length → ⟨⟨tid, .reduce⟩, false⟩ ∈ s.timers → s.phase = .reduce →
      s.pc.locked = false → s.taskQueue.length < queueCap →
      ∃ u, (system ω).run s [.fire ⟨tid, .reduce⟩, .requeue ⟨tid, .reduce⟩] = some u ∧
        ⟨tid, .reduce⟩ ∈ u.taskQueue := by
  refine ⟨fun args hargs => (reduceBranch_reports_iff.mp hargs).1, reduceBranch_eq_none_iff, ?_,
    fun s => timer_requeues⟩
  have hnone : (reduceBranch json it reducef tid files io).1 = none ↔ _ :=
    reduceBranch_eq_none_iff
  rw [← or_assoc, ← hnone]
  constructor
  · intro h
    by_cases hnone : (reduceBranch json it reducef tid files io).1 = none
    · exact Or.inl hnone
    · exact Or.inr (h hnone).undisturbed
  · intro h hreported
    exact (h.resolve_left hreported).computed hreported

/-- The file of a map task that emitted the value b for the key a. -/
def oneGroup : GoString := jsonText.marshal (group ∅ [⟨ascii "a", ascii "b"⟩])

/-- A disk with that file, on which the n-th call fails without any effect. -/
def failingAt (n : ℕ) : Io where
  files := Function.update (fun _ => none) (ascii "f") (some oneGroup)
  faults k := if k = n then some 0 else none
  calls := 0

def one (_ : GoString) (_ : List GoString) : GoString := ascii "1"

/-- The attempt on that disk. -/
def attemptAt (n : ℕ) : Option CompleteTaskArgs × Io :=
  reduceBranch jsonText sortedIteration one 0 [ascii "f"] (failingAt n)

set_option maxRecDepth 4000 in
/-- The attempt makes four calls; a failure of a later one does not concern it. -/
theorem undisturbed_failingAt :
    Undisturbed jsonText sortedIteration [ascii "f"] (failingAt 4) where
  present := by simp [failingAt]
  reads := by decide
  writes m hm := by
    have hcount : (mergeFiles jsonText sortedIteration 0
        (readFiles [ascii "f"] (failingAt 4)).1 ∅).map
          (fun m => (sortedIteration.order 1 m).length) = some 1 := by decide +kernel
    rw [hm, Option.map_some, Option.some.injEq] at hcount
    intro k hk
    rw [List.length_singleton, hcount] at hk
    obtain rfl : k = 0 := by omega
    decide

/-- The two phases of a job with one map and one reduce task, up to the point where
the reduce task has been handed out. -/
def untilReduce : List (Label Unit) :=
  [.complete ⟨.map, 0, [⟨0, ascii "f"⟩], []⟩, .mapReduce, .mapReduce, .mapReduce, .mapReduce,
   .mapReduce, .request (), .pop (), .check () ⟨0, .map⟩, .request (), .pop (),
   .check () ⟨0, .reduce⟩, .reply () ⟨0, .reduce⟩ ⟨.reduce, 0, [], 0, [ascii "f"]⟩]

set_option maxRecDepth 4000 in
/-- An attempt without failure is reported and computed, and one whose os.Create fails is
not reported; in a run in which no one reports the task, its timer queues it again. -/
theorem reduce_reported_only_computed_failingAt :
    (attemptAt 4).1 = some (reduceCompletion 0) ∧
    Computed jsonText sortedIteration one 0 [ascii "f"] (failingAt 4) ∧
    (attemptAt 2).1 = none ∧
    ∃ s u : State Unit, (system Unit).ReachableWithin (fun _ l => reportsReduce 0 l = false) s ∧
      s.taskQueue = [] ∧
      (system Unit).run s [.fire ⟨0, .reduce⟩, .requeue ⟨0, .reduce⟩] = some u ∧
      ⟨0, .reduce⟩ ∈ u.taskQueue := by
  obtain ⟨-, -, hcomputed, -⟩ := reduce_reported_only_computed Unit jsonText sortedIteration one
    0 [ascii "f"] (failingAt 4)
  obtain ⟨-, hnone, -, htimer⟩ := reduce_reported_only_computed Unit jsonText sortedIteration one
    0 [ascii "f"] (failingAt 2)
  have hreported : (attemptAt 4).1 = some (reduceCompletion 0) := by decide +kernel
  have hdone := hcomputed.mpr (Or.inr (Or.inr undisturbed_failingAt))
    (Option.ne_none_iff_exists'.mpr ⟨_, hreported⟩)
  refine ⟨hreported, hdone, hnone.mpr (Or.inr (by decide)), ?_⟩
  obtain ⟨s₀, hs₀⟩ : ∃ s₀ : State Unit, makeCoordinator [ascii "in.txt"] 1 = some s₀ := ⟨_, rfl⟩
  have hrun : ((makeCoordinator [ascii "in.txt"] 1).bind fun s₀ =>
      ((system Unit).guard fun _ l => reportsReduce 0 l = false).run s₀ untilReduce).any
        (fun s => decide (s.reduceTaskState.length = 1 ∧ s.phase = .reduce ∧
          s.timers = [⟨⟨0, .reduce⟩, false⟩] ∧ s.pc = .reduceLoop ∧ s.taskQueue = [])) =
        true := by decide
  rw [hs₀, Option.bind_some] at hrun
  obtain ⟨s, hs, hp⟩ := (Option.any_eq_true _ _).mp hrun
  obtain ⟨hlen, hphase, htimers, hpc, hqueue⟩ := of_decide_eq_true hp
  have hreach : (system Unit).ReachableWithin (fun _ l => reportsReduce 0 l = false) s :=
    ⟨s₀, ⟨_, 1, by omega, hs₀⟩, (System.reaches_of_run _ _ hs).within⟩
  obtain ⟨u, hu, hmem⟩ := htimer s hreach (by omega) (by simp [htimers]) hphase
    (by rw [hpc]; rfl) (by simp [hqueue, queueCap])
  exact ⟨s, u, hreach, hqueue, hu, hmem⟩

set_option maxRecDepth 4000 in
/-- The listed file cannot be opened (call 0), or the record cannot be written
(call 3): the task is reported in both cases. -/
theorem reduce_reported_not_computed :
    ((attemptAt 0).1 = some (reduceCompletion 0) ∧
      (attemptAt 0).2.files (outputName 0) = some [] ∧
      ¬ Computed jsonText sortedIteration one 0 [ascii "f"] (failingAt 0)) ∧
    (attemptAt 3).1 = some (reduceCompletion 0) ∧
      (attemptAt 3).2.files (outputName 0) = some [] ∧
      ¬ Computed jsonText sortedIteration one 0 [ascii "f"] (failingAt 3) := by
  have hrun : ∀ n ∈ [0, 3], (attemptAt n).1 = some (reduceCompletion 0) ∧
      (attemptAt n).2.files (outputName 0) = some [] := by decide +kernel
  obtain ⟨hopen, houtOpen⟩ := hrun 0 (by decide)
  obtain ⟨hwrite, houtWrite⟩ := hrun 3 (by decide)
  refine ⟨⟨hopen, houtOpen, ?_⟩, hwrite, houtWrite, ?_⟩
  · intro h
    exact absurd (h.undisturbed.reads 0 (by decide)) (by decide)
  · rintro ⟨-, -, m, hm, -, -, hout⟩
    have hrecords : (mergeFiles jsonText sortedIteration 0
        (readFiles [ascii "f"] (failingAt 3)).1 ∅).map (fun m =>
          (reduceRecords one m (sortedIteration.order 1 m)).flatMap Record.format) =
        some (ascii "a 1\n") := by decide +kernel
    rw [hm, Option.map_some] at hrecords
    have hempty : ascii "a 1\n" = [] :=
      Option.some.inj ((hrecords.symm.trans hout.symm).trans houtWrite)
    exact absurd hempty (by decide)

end DistributedLabs.ReduceAttempt
