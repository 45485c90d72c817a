import DistributedLabs.ReduceOutput

/-!
A whole job against mrsequential. No step of the map phase writes an input file, so
each map attempt that is accepted has mapped the input file of its task as it was at
the start, and the reduce tasks read just these partitions. When a job with exclusively
created outputs is done, its output files together hold the records of mrsequential.
-/
namespace DistributedLabs.MRWorker

open GoText Files Grouping MRTask MREquivalence

/-- The attempt maps one of the input files, and none of its own files is one. -/
structure OfInput (inputs : List (GoString × GoString)) (a : MapAttempt) : Prop where
  source : ∃ i : ℕ, a.tid = i ∧ inputs[i]? = some (a.file, a.input)
  unowned : ∀ f ∈ inputs, f.1 ∉ a.names

/-- The input file of a task. -/
def InputOf (inputs : List (GoString × GoString)) (tid : ℤ) (file : GoString) : Prop :=
  ∃ i : ℕ, tid = i ∧ (inputs[i]?).map Prod.fst = some file

variable {P : Program} {disk disk' : Disk} {worker worker' : Worker} {act : Action}
  {inputs : List (GoString × GoString)}

theorem OfInput.start (hdisk : ∀ f ∈ inputs, disk f.1 = some f.2) {tid : ℤ} {file : GoString}
    (h : InputOf inputs tid file) {input : GoString} (hfile : disk file = some input)
    (nReduce : ℕ) : OfInput inputs ⟨tid, file, nReduce, input, []⟩ where
  source := by
    obtain ⟨i, htid, hname⟩ := h
    obtain ⟨⟨name, contents⟩, hget, rfl⟩ := Option.map_eq_some_iff.mp hname
    have hsame := (hdisk _ (List.mem_of_getElem? hget)).symm.trans hfile
    cases hsame
    exact ⟨i, htid, hget⟩
  unowned _ _ := List.not_mem_nil

theorem OfInput.create {a : MapAttempt} (h : OfInput inputs a)
    (hdisk : ∀ f ∈ inputs, disk f.1 = some f.2) {rand : Fin 16 → UInt8}
    (hfresh : disk (a.nextName rand) = none) : OfInput inputs (a.addName rand) where
  source := h.source
  unowned f hf hmem := by
    rcases List.mem_append.mp hmem with hold | hnew
    · exact h.unowned f hf hold
    · rw [← List.mem_singleton.mp hnew, hdisk f hf] at hfresh
      cases hfresh

theorem Act.ofInput (h : Act P disk worker act worker' disk')
    (hdisk : ∀ f ∈ inputs, disk f.1 = some f.2)
    (hread : ∀ tid file nReduce, worker = .mapRead tid file nReduce → InputOf inputs tid file)
    (hold : ∀ a rest, worker.attempt = some (a, rest) → OfInput inputs a)
    {a' : MapAttempt} {rest' : List ℕ} (hattempt : worker'.attempt = some (a', rest')) :
    OfInput inputs a' := by
  cases h with
  | mapRead tid file nReduce input hfile =>
    cases hattempt
    exact OfInput.start hdisk (hread tid file nReduce rfl) hfile nReduce
  | create a rand hlt hfresh =>
    cases hattempt
    exact (hold a _ rfl).create hdisk hfresh
  | compute a order =>
    cases hattempt
    exact hold _ _ rfl
  | mapWrite a r rest =>
    cases hattempt
    exact hold _ _ rfl
  | _ => cases hattempt

/-- No operation takes a worker to the start of a map task; only a reply does. -/
theorem Act.ne_mapRead (h : Act P disk worker act worker' disk') (tid : ℤ) (file : GoString)
    (nReduce : ℕ) : worker' ≠ .mapRead tid file nReduce := by
  intro hw
  cases h <;> cases hw

/-- The partitions of an attempt are what doMap leaves in its files. -/
theorem MapAttempt.mapped (P : Program) (a : MapAttempt) (i : ℕ) :
    Mapped P.json P.mapf a.nReduce i (a.file, a.input)
      ((List.range a.nReduce).map (a.content P)) := by
  have hsound : Io.Sound ⟨fun _ => none, fun _ => none, 0⟩ := fun _ => rfl
  obtain ⟨names, io', hmap⟩ := doMap_of_sound P.json P.mapf a.file a.input i a.nReduce
    (fun _ _ => 0) (List.range a.nReduce) hsound
  obtain ⟨hlen, _, hfiles⟩ := doMap_eq_some (List.Perm.refl _) hmap
  refine ⟨_, _, _, names, io', List.Perm.refl _, hmap, ?_⟩
  apply List.ext_getElem
  · simp [hlen]
  · intro r hr _
    have hr' : r < names.length := by simpa using hr
    have hfile := hfiles r (hlen ▸ hr')
    rw [List.getD_eq_getElem _ _ hr', ← sortedResults_eq] at hfile
    simpa [MapAttempt.content] using hfile

end DistributedLabs.MRWorker

namespace DistributedLabs.MapReduce

open GoText Files Transition Tables Grouping MRTask MRSequential MREquivalence Coordinator MRWorker

variable {ω : Type*}

/-- The input files are as they were at the start, and every attempt maps one of them. -/
structure Intact (inputs : List (GoString × GoString)) (s : State ω) : Prop where
  on_disk : ∀ f ∈ inputs, s.disk f.1 = some f.2
  attempts : ∀ o a rest, attemptOf s o = some (a, rest) → OfInput inputs a

/-- What was made of the input files. After the map phase a reduce task may overwrite
one, but the accepted attempts have read them before. -/
structure Sources (inputs : List (GoString × GoString)) (s : State ω) : Prop where
  names : s.coord.inputFiles = inputs.map Prod.fst
  entries : ∀ (i : ℕ) (mt : MapTaskState), s.coord.mapTaskState[i]? = some mt →
    InputOf inputs i mt.inputFile
  reading : ∀ w tid file nReduce, s.workers w = .mapRead tid file nReduce →
    InputOf inputs tid file
  intact : s.coord.phase = .map → Intact inputs s
  accepted : ∀ (i : ℕ) (mt : MapTaskState), s.coord.mapTaskState[i]? = some mt →
    mt.done = true → ∃ a ∈ s.finished, inputs[i]? = some (a.file, a.input) ∧
      ∀ r < s.coord.nReduce, mt.fileFor r = a.name r

variable {P : Program} {inputs : List (GoString × GoString)} {s t : State ω}

theorem Sources.start (hs : Start s) (hnames : s.coord.inputFiles = inputs.map Prod.fst)
    (hdisk : ∀ f ∈ inputs, s.disk f.1 = some f.2) : Sources inputs s := by
  obtain ⟨files, nReduce, _, hmake⟩ := hs.coord
  obtain ⟨queue, _, hcoord⟩ := Option.map_eq_some_iff.mp hmake
  have hentry : ∀ (i : ℕ) (mt : MapTaskState), s.coord.mapTaskState[i]? = some mt →
      mt.done = false ∧ InputOf inputs i mt.inputFile := by
    intro i mt hget
    rw [← hcoord] at hget hnames
    rw [List.getElem?_map] at hget
    obtain ⟨file, hfile, rfl⟩ := Option.map_eq_some_iff.mp hget
    refine ⟨rfl, i, rfl, ?_⟩
    rw [← List.getElem?_map, ← hnames]
    exact hfile
  refine ⟨hnames, fun i mt hget => (hentry i mt hget).2, ?_, fun _ => ⟨hdisk, ?_⟩, ?_⟩
  · intro w tid file nReduce hw
    rw [hs.workers w] at hw
    cases hw
  · intro o a rest hattempt
    rw [attemptOf_start hs] at hattempt
    cases hattempt
  · intro i mt hget hdone
    rw [(hentry i mt hget).1] at hdone
    cases hdone

/-- Only after the map phase is a worker on a reduce task. -/
theorem Handed.not_map {c : Coordinator.State ω} (hi : Inv c) {w : ω} {tid : ℤ}
    (h : Handed c w tid) : c.phase ≠ .map := by
  obtain ⟨o, ho, _, htype, _⟩ := h
  have hfor := hi.replies.handout o ho
  unfold ReplyFor at hfor
  rw [htype] at hfor
  exact hfor.1

variable [DecidableEq ω]

theorem Intact.work (h : Intact inputs s) (hphase : s.coord.phase = .map) (hi : Inv s.coord)
    (hr : Roles s) (howned : Owned P s)
    (hread : ∀ w tid file nReduce, s.workers w = .mapRead tid file nReduce →
      InputOf inputs tid file) {w : ω} {act : Action} {worker : Worker} {disk : Disk}
    (hact : Act P s.disk (s.workers w) act worker disk) :
    Intact inputs { s with disk, workers := Function.update s.workers w worker } where
  on_disk f hf := by
    refine (hact.frame fun htarget => ?_).trans (h.on_disk f hf)
    rcases hact.target_cases (howned.held (.inl w)) (hr.workers w).full htarget with
      hnone | ⟨a, rest, hattempt, hmem⟩ | ⟨tid, htask, _⟩
    · rw [h.on_disk f hf] at hnone
      cases hnone
    · exact (h.attempts (.inl w) a rest hattempt).unowned f hf hmem
    · exact ((hr.workers w).reduce_task tid htask).not_map hi hphase
  attempts o a rest hattempt := by
    by_cases ho : o = .inl w
    · subst ho
      have hnew : worker.attempt = some (a, rest) := by simpa [attemptOf] using hattempt
      exact hact.ofInput h.on_disk (hread w) (h.attempts (.inl w)) hnew
    · rw [attemptOf_work ho] at hattempt
      exact h.attempts o a rest hattempt

namespace Sources

theorem receive (h : Sources inputs s) (hi : Inv s.coord) {w : ω} {task : Task}
    {reply : ReqTaskReply} {c : Coordinator.State ω}
    (hstep : Coordinator.Step s.coord (.reply w task reply) c) {tid : ℤ} {file : GoString}
    {nReduce : ℕ} (hw : Worker.receive reply = .mapRead tid file nReduce) :
    InputOf inputs tid file := by
  cases hstep with
  | reply _ _ _ hmem =>
    have hfor := hi.replies.matched w task reply hmem
    unfold ReplyFor at hfor
    split at hfor
    · obtain ⟨mt, hmt, rfl⟩ := hfor
      cases hw
      exact h.entries task.tid mt hmt
    · obtain ⟨_, rt, _, rfl⟩ := hfor
      cases hw
    · exact hfor.elim

/-- An attempt is accepted in the map phase, when all attempts have mapped input files. -/
theorem accepted_step (h : Sources inputs s) (hi : Inv s.coord) {l : Coordinator.Label ω}
    {c : Coordinator.State ω} (hstep : Coordinator.Step s.coord l c)
    (hi' : Inv c) (hr' : Roles { s with coord := c, workers := heard s l }) {i : ℕ}
    {mt : MapTaskState} (hget : c.mapTaskState[i]? = some mt) (hdone : mt.done = true) :
    ∃ a ∈ s.finished, inputs[i]? = some (a.file, a.input) ∧
      ∀ r < c.nReduce, mt.fileFor r = a.name r := by
  rcases hstep.map_entry_cases hi.phases hi.messages hi.tokens hget with
    hold | ⟨m, mt', hgot, _⟩
  · rw [hstep.nReduce_eq]
    exact h.accepted i mt hold hdone
  · have hphase : s.coord.phase = .map := hi.phases.phase_of_pc hgot rfl
    obtain ⟨a, ha, htid, _, hname⟩ := MapReduce.first_attempt hi' hr' hget hdone
    obtain ⟨j, hattempt⟩ := attemptOf_finished (s := s) ha
    obtain ⟨i', htid', hinput⟩ := ((h.intact hphase).attempts _ a [] hattempt).source
    obtain rfl : i' = i := by omega
    exact ⟨a, ha, hinput, hname⟩

theorem coordinator_step (h : Sources inputs s) (hi : Inv s.coord) {l : Coordinator.Label ω}
    {c : Coordinator.State ω} (hstep : Coordinator.Step s.coord l c) (hi' : Inv c)
    (hr' : Roles { s with coord := c, workers := heard s l }) :
    Sources inputs { s with coord := c, workers := heard s l } where
  names := hstep.inputFiles_eq.trans h.names
  entries i mt hget := by
    rcases hstep.map_entry_cases hi.phases hi.messages hi.tokens hget with
      hold | ⟨_, mt', _, _, _, hold, _, rfl⟩
    · exact h.entries i mt hold
    · exact h.entries i mt' hold
  reading w tid file nReduce hw := by
    change heard s l w = _ at hw
    rcases heard_cases s l w with heq | heq | heq | ⟨task, reply, rfl, heq⟩
    · exact h.reading w tid file nReduce (heq ▸ hw)
    · rw [heq] at hw
      cases hw
    · rw [heq] at hw
      cases hw
    · exact h.receive hi hstep (heq ▸ hw)
  intact hphase := by
    have hold : s.coord.phase = .map := by
      by_contra hne
      exact hstep.not_map hi.phases hne hphase
    exact ⟨(h.intact hold).on_disk,
      fun o a rest hattempt => (h.intact hold).attempts o a rest (attemptOf_heard hattempt)⟩
  accepted _ _ := h.accepted_step hi hstep hi' hr'

theorem work_step (h : Sources inputs s) (hi : Inv s.coord) (hr : Roles s) (howned : Owned P s)
    {w : ω} {act : Action} {worker : Worker} {disk : Disk}
    (hact : Act P s.disk (s.workers w) act worker disk) :
    Sources inputs { s with disk, workers := Function.update s.workers w worker } where
  names := h.names
  entries := h.entries
  reading w' tid file nReduce hw' := by
    change Function.update s.workers w worker w' = _ at hw'
    by_cases heq : w' = w
    · subst heq
      rw [Function.update_self] at hw'
      exact absurd hw' (hact.ne_mapRead tid file nReduce)
    · rw [Function.update_of_ne heq] at hw'
      exact h.reading w' tid file nReduce hw'
  intact hphase := (h.intact hphase).work hphase hi hr howned h.reading hact
  accepted := h.accepted

theorem reading_of_completing (h : Sources inputs s) {w w' : ω} {tid : ℤ} {file : GoString}
    {nReduce : ℕ} (hw : Function.update s.workers w .completing w' = .mapRead tid file nReduce) :
    InputOf inputs tid file := by
  rcases completing_cases s w w' with heq | heq
  · cases heq.symm.trans hw
  · exact h.reading w' tid file nReduce (heq.symm.trans hw)

theorem step {l : Label ω} (h : Sources inputs s) (hi : Inv s.coord) (hr : Roles s)
    (howned : Owned P s) (hi' : Inv t.coord) (hr' : Roles t) (hstep : Step P s l t) :
    Sources inputs t := by
  cases hstep with
  | coordinator l c _ hc => exact h.coordinator_step hi hc hi' hr'
  | work w act worker disk hact => exact h.work_step hi hr howned hact
  | sendMap w a hw =>
    refine { h with
      reading := fun _ _ _ _ => h.reading_of_completing
      intact := fun hphase => ⟨(h.intact hphase).on_disk, ?_⟩
      accepted := ?_ }
    · have hattempts := (h.intact hphase).attempts
      intro o a' rest hattempt
      cases o with
      | inl w' => exact hattempts (.inl w') a' rest (attempt_of_completing hattempt)
      | inr i =>
        obtain ⟨a₀, hget, heq⟩ := Option.map_eq_some_iff.mp hattempt
        cases heq
        rcases getElem?_concat_cases hget with hold | ⟨_, rfl⟩
        · exact hattempts (.inr i) _ [] (by simp [attemptOf, hold])
        · exact hattempts (.inl w) _ [] (by simp [attemptOf, hw, Worker.attempt])
    · intro i mt hget hdone
      obtain ⟨a', ha', hrest⟩ := h.accepted i mt hget hdone
      exact ⟨a', List.mem_append_left _ ha', hrest⟩
  | sendReduce w tid offset hw =>
    refine { h with
      reading := fun _ _ _ _ => h.reading_of_completing
      intact := fun hphase => ⟨(h.intact hphase).on_disk, ?_⟩ }
    intro o a rest hattempt
    cases o with
    | inl w' => exact (h.intact hphase).attempts (.inl w') a rest (attempt_of_completing hattempt)
    | inr i => exact (h.intact hphase).attempts (.inr i) a rest hattempt

theorem reaches (h : Sources inputs s) (hs : (system ω P).Reachable s)
    (hreach : (system ω P).Reaches s t) : Sources inputs t := by
  induction hreach with
  | refl => exact h
  | @tail t u l hreach hstep ih =>
    have ht := hs.reaches hreach
    obtain ⟨hi, hr⟩ := inv_reachable ht
    obtain ⟨hi', hr'⟩ := inv_reachable (ht.step hstep)
    exact ih.step hi hr (owned_reachable ht) hi' hr' (step_sound hstep)

/-- The map attempt whose files the reduce tasks read for input file `i`. -/
theorem first_attempt (h : Sources inputs s) (hs : (system ω P).Reachable s)
    (hphase : s.coord.phase ≠ .map) {i : ℕ} {mt : MapTaskState}
    (hget : s.coord.mapTaskState[i]? = some mt) :
    ∃ a ∈ s.finished, a.nReduce = s.coord.nReduce ∧ inputs[i]? = some (a.file, a.input) ∧
      ∀ r < s.coord.nReduce, mt.fileFor r = a.name r := by
  obtain ⟨hi, hr⟩ := inv_reachable hs
  have hdone := hi.phases.map_done (hi.phases.mapping_of_not_map hphase) mt
    (List.mem_of_getElem? hget)
  obtain ⟨a, ha, hinput, hname⟩ := h.accepted i mt hget hdone
  exact ⟨a, ha, (hr.finished a ha).1.1, hinput, hname⟩

/-- After the map phase the reduce tasks' input files hold the map tasks' outputs. -/
theorem mapped (h : Sources inputs s) (hs : (system ω P).Reachable s)
    (hphase : s.coord.phase ≠ .map) :
    ∃ contents : ℕ → List GoString,
      (∀ (m : ℕ) (hm : m < inputs.length),
        Mapped P.json P.mapf s.coord.nReduce m inputs[m] (contents m)) ∧
      ∀ r files, Listed s r files →
        files.map s.disk = (reduceInputs inputs contents r).map some := by
  have hi := (inv_reachable hs).1
  have hlen : s.coord.mapTaskState.length = inputs.length := by
    rw [hi.phases.map_len, h.names, List.length_map]
  have hex : ∀ m : Fin inputs.length, ∃ a ∈ s.finished, a.nReduce = s.coord.nReduce ∧
      inputs[m.val] = (a.file, a.input) ∧ ∀ r < s.coord.nReduce,
        (s.coord.mapTaskState.get (m.cast hlen.symm)).fileFor r = a.name r := by
    intro m
    have hlt : m.val < s.coord.mapTaskState.length := hlen.symm ▸ m.isLt
    obtain ⟨a, ha, hreduce, hinput, hname⟩ :=
      h.first_attempt hs hphase (List.getElem?_eq_getElem hlt)
    rw [List.getElem?_eq_getElem m.isLt] at hinput
    exact ⟨a, ha, hreduce, Option.some.inj hinput, hname⟩
  choose a hfinished hreduce hinput hname using hex
  refine ⟨fun m => if hm : m < inputs.length then
    (List.range s.coord.nReduce).map ((a ⟨m, hm⟩).content P) else [], ?_, ?_⟩
  · intro m hm
    have hmapped := (a ⟨m, hm⟩).mapped P m
    rw [hreduce, ← hinput ⟨m, hm⟩] at hmapped
    simpa only [hm, dite_true] using hmapped
  · intro r files hlisted
    obtain ⟨hr, _⟩ := hlisted.finished hs
    obtain ⟨_, rt, hrt, rfl⟩ := hlisted
    rw [hi.inputs.listed hphase r rt hrt]
    apply List.ext_getElem
    · simp [reduceInputs, hlen]
    · intro m hm _
      have hm' : m < inputs.length := by simpa [hlen] using hm
      have hfile := (finished_files hs (hfinished ⟨m, hm'⟩) hr).1
      rw [← hname ⟨m, hm'⟩ r hr] at hfile
      simpa [reduceInputs, hm', hr] using hfile

end Sources

end DistributedLabs.MapReduce
