import DistributedLabs.MapReduceFiles

/-!
The output files of a job. doReduce creates mr-out-r under its final name, which
empties a file that another worker has written or is writing, so a finished output
can be lost. In runs in which no worker creates mr-out-r while another writes it or
after a completion of r was sent, every finished output is complete and stays so.
-/
namespace DistributedLabs.MRWorker

open GoText Files Grouping MRTask

/-- The output file a worker is about to create. -/
def Worker.opens : Worker → Option ℤ
  | .reduceRead tid [] _ => some tid
  | .reduceRead _ (_ :: _) _ => none
  | .idle => none
  | .waiting => none
  | .mapRead _ _ _ => none
  | .mapCreate _ => none
  | .mapWrite _ _ => none
  | .reduceWrite _ _ _ => none
  | .completing => none
  | .exited => none

/-- The output file a worker is writing. -/
def Worker.writing : Worker → Option ℤ
  | .reduceWrite tid _ _ => some tid
  | .idle => none
  | .waiting => none
  | .mapRead _ _ _ => none
  | .mapCreate _ => none
  | .mapWrite _ _ => none
  | .reduceRead _ _ _ => none
  | .completing => none
  | .exited => none

variable {P : Program} {disk disk' : Disk} {worker worker' : Worker} {act : Action}

theorem Worker.writing_receive (reply : Coordinator.ReqTaskReply) :
    (Worker.receive reply).writing = none := by
  unfold Worker.receive
  split <;> rfl

/-- What an operation does to the output files. -/
inductive OutputAct (P : Program) (disk : Disk) : Worker → Action → Worker → Disk → Prop
  | none {worker worker' : Worker} {act : Action} {disk' : Disk} (hwriting : worker'.writing = none)
      (hdisk : ∀ tid, disk' (outputName tid) = disk (outputName tid)) :
      OutputAct P disk worker act worker' disk'
  | create (tid : ℤ) (contents : List GoString) (it : Iteration GoString GoString)
      (reductionMap : Contents)
      (hmerge : mergeFiles P.json it 0 contents ∅ = some reductionMap) :
      OutputAct P disk (.reduceRead tid [] contents) (.reduceCreate it)
        (.reduceWrite tid (reduceRecords P.reducef reductionMap
          (it.order contents.length reductionMap)) 0) (Files.create disk (outputName tid))
  | write (tid : ℤ) (record : Record) (rest : List Record) (offset : ℕ) :
      OutputAct P disk (.reduceWrite tid (record :: rest) offset) .write
        (.reduceWrite tid rest (offset + record.format.length))
        (Files.write disk (outputName tid) offset record.format)

theorem Act.output (h : Act P disk worker act worker' disk')
    (hheld : ∀ a rest, worker.attempt = some (a, rest) → Held P disk a rest)
    (hfull : ∀ a rest, worker = .mapWrite a rest → a.names.length = a.nReduce) :
    OutputAct P disk worker act worker' disk' := by
  cases h with
  | create a rand =>
    refine .none rfl fun tid => create_of_ne disk ?_
    exact (intermediateFilename_ne_outputName _ _ _ _).symm
  | mapWrite a r rest =>
    refine .none rfl fun tid => write_of_ne disk ?_ 0 _
    exact ((hheld a _ rfl).shape _ (a.name_mem (Held.write_lt hheld hfull rfl)) tid).symm
  | writeFails a r rest n =>
    refine .none rfl fun tid => write_of_ne disk ?_ 0 _
    exact ((hheld a _ rfl).shape _ (a.name_mem (Held.write_lt hheld hfull rfl)) tid).symm
  | reduceCreate tid contents it m hmerge => exact .create tid contents it m hmerge
  | reduceWrite tid record rest offset => exact .write tid record rest offset
  | _ => exact .none rfl fun _ => rfl

theorem outputName_inj {r r' : ℕ} (h : outputName r = outputName r') : r = r' := by
  simp only [outputName, itoa_natCast, List.append_cancel_left_eq] at h
  exact digits_injective h

end DistributedLabs.MRWorker

namespace DistributedLabs.MapReduce

open GoText Files Grouping Transition Tables MRTask MREquivalence Coordinator MRWorker

variable {ω : Type*}

/-- The output file a step creates, by its reduce task. -/
def opening (s : State ω) : Label ω → Option ℤ
  | .work w (.reduceCreate _) => (s.workers w).opens
  | .work _ .read => none
  | .work _ (.create _) => none
  | .work _ (.compute _) => none
  | .work _ .write => none
  | .work _ (.writeFails _) => none
  | .work _ .fail => none
  | .work _ .returned => none
  | .work _ .crash => none
  | .coordinator _ => none
  | .send _ => none

/-- An output file is created only while no worker writes it and before a
completion of its task was sent. -/
def Exclusive (s : State ω) (l : Label ω) : Prop :=
  ∀ tid ∈ opening s l, (∀ w, (s.workers w).writing ≠ some tid) ∧
    ∀ p ∈ s.sent, p.2 ≠ reduceCompletion tid

/-- The input files of reduce task `r`, known from the phase switch on. -/
def Listed (s : State ω) (r : ℕ) (files : List GoString) : Prop :=
  s.coord.phase ≠ .map ∧ ∃ rt, s.coord.reduceTaskState[r]? = some rt ∧
    rt.intermediateFiles = files

/-- The output file of task `r` holds what doReduce writes for its input files. -/
def OutputComplete (P : Program) (s : State ω) (r : ℕ) : Prop :=
  ∃ files contents out, Listed s r files ∧ files.map s.disk = contents.map some ∧
    Reduced P.json P.reducef r contents out ∧ s.disk (outputName r) = some out

theorem reduced_of_merge {P : Program} {it : Iteration GoString GoString}
    {contents : List GoString} {m : Contents}
    (h : mergeFiles P.json it 0 contents ∅ = some m) (r : ℕ) :
    Reduced P.json P.reducef r contents
      ((reduceRecords P.reducef m (it.order contents.length m)).flatMap Record.format) := by
  let io : Io := ⟨fun _ => none, fun _ => none, 0⟩
  have hsound : io.Sound := fun _ => rfl
  obtain ⟨io', hdone, hfile⟩ := doReduce_of_sound P.reducef r hsound h
  exact ⟨it, io, io', hsound, hdone, hfile⟩

/-- What a worker has written of the output of task `r`, with the records to come. -/
def Writes (P : Program) (s : State ω) (r : ℕ) (rest : List Record) (out : GoString) : Prop :=
  ∃ (files contents : List GoString) (it : Iteration GoString GoString) (m : Contents),
    Listed s r files ∧ files.map s.disk = contents.map some ∧
    mergeFiles P.json it 0 contents ∅ = some m ∧
    out ++ rest.flatMap Record.format =
      (reduceRecords P.reducef m (it.order contents.length m)).flatMap Record.format

theorem Writes.complete {P : Program} {s : State ω} {r : ℕ} {out : GoString}
    (h : Writes P s r [] out) (hdisk : s.disk (outputName r) = some out) :
    OutputComplete P s r := by
  obtain ⟨files, contents, it, m, hlisted, hcontents, hmerge, hout⟩ := h
  refine ⟨files, contents, out, hlisted, hcontents, ?_, hdisk⟩
  rw [List.flatMap_nil, List.append_nil] at hout
  rw [hout]
  exact reduced_of_merge hmerge r

variable [DecidableEq ω] {P : Program} {s t : State ω} {l : Label ω}

namespace Listed

variable {r : ℕ} {files : List GoString}

theorem finished (h : Listed s r files) (hs : (system ω P).Reachable s) :
    r < s.coord.nReduce ∧ ∀ f ∈ files, ∃ a ∈ s.finished, f = a.name r := by
  obtain ⟨hi, hr⟩ := inv_reachable hs
  obtain ⟨hphase, rt, hrt, hfiles⟩ := h
  have hlt : r < s.coord.nReduce := hi.phases.reduce_len ▸ getElem?_lt hrt
  refine ⟨hlt, fun f hf => ?_⟩
  rw [← hfiles, hi.inputs.listed hphase r rt hrt] at hf
  obtain ⟨mt, hmt, rfl⟩ := List.mem_map.mp hf
  obtain ⟨i, hi'⟩ := List.mem_iff_getElem?.mp hmt
  have hdone := hi.phases.map_done (hi.phases.mapping_of_not_map hphase) mt hmt
  obtain ⟨a, ha, _, _, hname⟩ := first_attempt hi hr hi' hdone
  exact ⟨a, ha, hname r hlt⟩

theorem exists_file (h : Listed s r files) (hs : (system ω P).Reachable s) {f : GoString}
    (hf : f ∈ files) : s.disk f ≠ none := by
  obtain ⟨hlt, hfinished⟩ := h.finished hs
  obtain ⟨a, ha, rfl⟩ := hfinished f hf
  rw [(finished_files hs ha hlt).1]
  exact nofun

theorem step (h : Listed s r files) (hs : (system ω P).Reachable s)
    (hstep : (system ω P).step s l = some t) :
    Listed t r files ∧ ∀ f ∈ files, t.disk f = s.disk f := by
  have ht := hs.step hstep
  obtain ⟨hlt, hfinished⟩ := h.finished hs
  obtain ⟨hphase, rt, hrt, hfiles⟩ := h
  obtain ⟨hphase', _, hreduce, hgrow⟩ :=
    frozen_reaches hs hphase (System.Reaches.tail l System.Reaches.refl hstep)
  refine ⟨⟨hphase', ?_⟩, ?_⟩
  · obtain ⟨hi, hr⟩ := inv_reachable hs
    have hsound : Step P s l t := step_sound hstep
    rcases hsound.coord_cases with heq | ⟨l', hc, _, _⟩
    · rw [heq]
      exact ⟨rt, hrt, hfiles⟩
    · have hlt' : r < t.coord.reduceTaskState.length := by
        rw [(inv_reachable ht).1.phases.reduce_len, hreduce]
        exact hlt
      have hget := List.getElem?_eq_getElem hlt'
      refine ⟨_, hget, ?_⟩
      rcases hc.reduce_entry_cases hi.phases hi.tokens hget with
        ⟨hold, _⟩ | ⟨_, rt', _, _, _, hold, _, hnew⟩ | ⟨hmap, _⟩
      · rw [hrt] at hold
        rw [← Option.some.inj hold, hfiles]
      · rw [hrt] at hold
        rw [hnew, ← Option.some.inj hold, hfiles]
      · exact absurd hmap hphase
  · intro f hf
    obtain ⟨a, ha, rfl⟩ := hfinished f hf
    rw [(finished_files hs ha hlt).1, (finished_files ht (hgrow ha) (hreduce.symm ▸ hlt)).1]

end Listed

/-- A worker on a reduce task has read its input files in order. -/
def Reading (s : State ω) (tid : ℤ) (rest contents : List GoString) : Prop :=
  ∃ (r : ℕ) (seen : List GoString), tid = r ∧ Listed s r (seen ++ rest) ∧
    seen.map s.disk = contents.map some

theorem Reading.step {tid : ℤ} {rest contents : List GoString} (h : Reading s tid rest contents)
    (hs : (system ω P).Reachable s) (hstep : (system ω P).step s l = some t) :
    Reading t tid rest contents := by
  obtain ⟨r, seen, htid, hlisted, hseen⟩ := h
  obtain ⟨hlisted', hdisk⟩ := hlisted.step hs hstep
  refine ⟨r, seen, htid, hlisted', ?_⟩
  rw [← hseen]
  exact List.map_congr_left fun f hf => hdisk f (List.mem_append_left _ hf)

theorem Reading.act (hs : (system ω P).Reachable s) {worker : Worker} {act : Action}
    {disk : Disk} {tid : ℤ} {rest contents : List GoString}
    (h : Act P s.disk worker act (.reduceRead tid rest contents) disk)
    (hread : ∀ tid rest contents, worker = .reduceRead tid rest contents →
      Reading s tid rest contents) : Reading s tid rest contents := by
  cases h with
  | reduceRead _ file _ contents₀ content hfile =>
    obtain ⟨r, seen, htid, hlisted, hseen⟩ := hread tid (file :: rest) contents₀ rfl
    refine ⟨r, seen ++ [file], htid, by simpa using hlisted, ?_⟩
    simp [hseen, hfile]
  | reduceNoFile _ file _ _ hfile =>
    obtain ⟨r, seen, htid, hlisted, hseen⟩ := hread tid (file :: rest) contents rfl
    exact absurd hfile (hlisted.exists_file hs (by simp))

theorem Reading.receive {c : Coordinator.State ω} (hi : Inv s.coord) {w : ω} {task : Task}
    {reply : ReqTaskReply} (h : Coordinator.Step s.coord (.reply w task reply) c) {tid : ℤ}
    {rest contents : List GoString}
    (hw : Worker.receive reply = .reduceRead tid rest contents) : Reading s tid rest contents := by
  cases h with
  | reply _ _ _ hmem =>
    have hfor := hi.replies.matched w task reply hmem
    unfold ReplyFor at hfor
    split at hfor
    · obtain ⟨mt, _, rfl⟩ := hfor
      cases hw
    · obtain ⟨hphase, rt, hrt, rfl⟩ := hfor
      cases hw
      exact ⟨task.tid, [], rfl, ⟨hphase, rt, hrt, rfl⟩, rfl⟩
    · exact hfor.elim

theorem reading_reachable (hs : (system ω P).Reachable s) :
    ∀ w tid rest contents, s.workers w = .reduceRead tid rest contents →
      Reading s tid rest contents := by
  refine System.Reachable.invariant (I := fun s => ∀ w tid rest contents,
    s.workers w = .reduceRead tid rest contents → Reading s tid rest contents) ?_ ?_ hs
  · intro s hs w tid rest contents hw
    rw [hs.workers w] at hw
    cases hw
  · intro s l t hs ih hstep w tid rest contents hw
    -- the worker was reading before, or has just been handed the task or read a file
    have hbefore : Reading s tid rest contents := by
      have h : Step P s l t := step_sound hstep
      cases h with
      | coordinator l' c hperm hc =>
        change heard s l' w = _ at hw
        rcases heard_cases s l' w with heq | heq | heq | ⟨task, reply, rfl, heq⟩
        · exact ih w tid rest contents (heq ▸ hw)
        · rw [heq] at hw
          cases hw
        · rw [heq] at hw
          cases hw
        · exact Reading.receive (inv_reachable hs).1 hc (heq ▸ hw)
      | work w' a worker disk hact =>
        change Function.update s.workers w' worker w = _ at hw
        by_cases heq : w = w'
        · subst heq
          rw [Function.update_self] at hw
          subst hw
          exact Reading.act hs hact (ih w)
        · rw [Function.update_of_ne heq] at hw
          exact ih w tid rest contents hw
      | sendMap w' a hw' =>
        rcases completing_cases s w' w with heq | heq
        · cases heq.symm.trans hw
        · exact ih w tid rest contents (heq.symm.trans hw)
      | sendReduce w' tid' offset hw' =>
        rcases completing_cases s w' w with heq | heq
        · cases heq.symm.trans hw
        · exact ih w tid rest contents (heq.symm.trans hw)
    exact hbefore.step hs hstep

theorem Listed.map_disk {r : ℕ} {files contents : List GoString} (h : Listed s r files)
    (hs : (system ω P).Reachable s) (hstep : (system ω P).step s l = some t)
    (hcontents : files.map s.disk = contents.map some) :
    files.map t.disk = contents.map some := by
  rw [← hcontents]
  exact List.map_congr_left (h.step hs hstep).2

theorem Writes.step {r : ℕ} {rest : List Record} {out : GoString} (h : Writes P s r rest out)
    (hs : (system ω P).Reachable s) (hstep : (system ω P).step s l = some t) :
    Writes P t r rest out := by
  obtain ⟨files, contents, it, m, hlisted, hcontents, hmerge, hout⟩ := h
  exact ⟨files, contents, it, m, (hlisted.step hs hstep).1,
    hlisted.map_disk hs hstep hcontents, hmerge, hout⟩

theorem OutputComplete.step {r : ℕ} (h : OutputComplete P s r) (hs : (system ω P).Reachable s)
    (hstep : (system ω P).step s l = some t)
    (hdisk : t.disk (outputName r) = s.disk (outputName r)) : OutputComplete P t r := by
  obtain ⟨files, contents, out, hlisted, hcontents, hreduced, hout⟩ := h
  exact ⟨files, contents, out, (hlisted.step hs hstep).1, hlisted.map_disk hs hstep hcontents,
    hreduced, hdisk.trans hout⟩

/-- The output files when they are created exclusively. -/
structure Exact (P : Program) (s : State ω) : Prop where
  one_writer : ∀ w w' tid, (s.workers w).writing = some tid →
    (s.workers w').writing = some tid → w = w'
  writes : ∀ w tid rest offset, s.workers w = .reduceWrite tid rest offset →
    ∃ (r : ℕ) (out : GoString), tid = r ∧ Writes P s r rest out ∧ out.length = offset ∧
      s.disk (outputName r) = some out
  sent : ∀ w (r : ℕ), (w, reduceCompletion r) ∈ s.sent → OutputComplete P s r ∧
    ∀ w', (s.workers w').writing ≠ some (r : ℤ)

theorem writing_of_completing {w w' : ω} {tid : ℤ}
    (h : (Function.update s.workers w .completing w').writing = some tid) :
    Function.update s.workers w .completing w' = s.workers w' := by
  rcases completing_cases s w w' with heq | heq
  · rw [heq] at h
    cases h
  · exact heq

namespace Exact

/-- A step that touches no output file and starts no writer. -/
theorem quiet (h : Exact P s) (hs : (system ω P).Reachable s)
    (hstep : (system ω P).step s l = some t)
    (hworkers : ∀ w tid, (t.workers w).writing = some tid → t.workers w = s.workers w)
    (hdisk : ∀ tid, t.disk (outputName tid) = s.disk (outputName tid))
    (hsent : ∀ w (r : ℕ), (w, reduceCompletion r) ∈ t.sent → (w, reduceCompletion r) ∈ s.sent) :
    Exact P t where
  one_writer w w' tid hw hw' := by
    rw [hworkers w tid hw] at hw
    rw [hworkers w' tid hw'] at hw'
    exact h.one_writer w w' tid hw hw'
  writes w tid rest offset hw := by
    have hwriting : (t.workers w).writing = some tid := by
      rw [hw]
      rfl
    rw [hworkers w tid hwriting] at hw
    obtain ⟨r, out, htid, hwrites, hlen, hout⟩ := h.writes w tid rest offset hw
    exact ⟨r, out, htid, hwrites.step hs hstep, hlen, (hdisk r).trans hout⟩
  sent w r hmem := by
    obtain ⟨hcomplete, hnone⟩ := h.sent w r (hsent w r hmem)
    refine ⟨hcomplete.step hs hstep (hdisk r), fun w' hw' => ?_⟩
    rw [hworkers w' r hw'] at hw'
    exact hnone w' hw'

/-- A worker opens or goes on writing the output of `r`, which nobody else writes and
of which no completion was sent. -/
theorem writer (h : Exact P s) (hs : (system ω P).Reachable s)
    (hstep : (system ω P).step s l = some t) {w : ω} {r : ℕ} {rest : List Record}
    (out : GoString) (hother : ∀ w', w' ≠ w → t.workers w' = s.workers w')
    (hself : t.workers w = .reduceWrite r rest out.length)
    (halone : ∀ w', w' ≠ w → (s.workers w').writing ≠ some (r : ℤ))
    (hunsent : ∀ w', (w', reduceCompletion r) ∉ s.sent) (hsame : t.sent = s.sent)
    (hwrites : Writes P s r rest out) (hout : t.disk (outputName r) = some out)
    (hdisk : ∀ r' : ℕ, r' ≠ r → t.disk (outputName r') = s.disk (outputName r')) :
    Exact P t := by
  have hwriting : ∀ w' tid, w' ≠ w → (t.workers w').writing = some tid →
      (s.workers w').writing = some tid ∧ tid ≠ r := by
    intro w' tid hw' htid
    rw [hother w' hw'] at htid
    refine ⟨htid, fun heq => halone w' hw' ?_⟩
    rw [← heq]
    exact htid
  have hselfw : ∀ tid, (t.workers w).writing = some tid → tid = r := by
    intro tid htid
    rw [hself] at htid
    exact (Option.some.inj htid).symm
  constructor
  · intro w₁ w₂ tid h₁ h₂
    by_cases hw₁ : w₁ = w
    · by_cases hw₂ : w₂ = w
      · rw [hw₁, hw₂]
      · exact absurd (hselfw tid (hw₁ ▸ h₁)) (hwriting w₂ tid hw₂ h₂).2
    · by_cases hw₂ : w₂ = w
      · exact absurd (hselfw tid (hw₂ ▸ h₂)) (hwriting w₁ tid hw₁ h₁).2
      · exact h.one_writer w₁ w₂ tid (hwriting w₁ tid hw₁ h₁).1 (hwriting w₂ tid hw₂ h₂).1
  · intro w' tid rest' offset hw'
    by_cases heq : w' = w
    · rw [heq, hself] at hw'
      cases hw'
      exact ⟨r, out, rfl, hwrites.step hs hstep, rfl, hout⟩
    · have hnot := (hwriting w' tid heq (by rw [hw']; rfl)).2
      rw [hother w' heq] at hw'
      obtain ⟨r', out', htid, hwrites', hlen, hout'⟩ := h.writes w' tid rest' offset hw'
      have hne : r' ≠ r := fun hrr => hnot (by rw [htid, hrr])
      exact ⟨r', out', htid, hwrites'.step hs hstep, hlen, (hdisk r' hne).trans hout'⟩
  · intro w' r' hmem
    rw [hsame] at hmem
    have hne : r' ≠ r := fun hrr => hunsent w' (hrr ▸ hmem)
    obtain ⟨hcomplete, hnone⟩ := h.sent w' r' hmem
    refine ⟨hcomplete.step hs hstep (hdisk r' hne), fun w'' hw'' => ?_⟩
    by_cases heq : w'' = w
    · have hrr : (r' : ℤ) = r := hselfw r' (heq ▸ hw'')
      exact hne (by exact_mod_cast hrr)
    · exact hnone w'' (hwriting w'' r' heq hw'').1

theorem coordinator_step (h : Exact P s) (hs : (system ω P).Reachable s)
    {l : Coordinator.Label ω} {c : Coordinator.State ω}
    (hstep : (system ω P).step s (.coordinator l) =
      some { s with coord := c, workers := heard s l }) :
    Exact P { s with coord := c, workers := heard s l } := by
  refine h.quiet hs hstep ?_ (fun _ => rfl) fun _ _ => id
  intro w tid hw
  change (heard s l w).writing = some tid at hw
  rcases heard_cases s l w with heq | heq | heq | ⟨task, reply, _, heq⟩
  · exact heq
  · rw [heq] at hw
    cases hw
  · rw [heq] at hw
    cases hw
  · rw [heq, Worker.writing_receive] at hw
    cases hw

theorem work_step (h : Exact P s) (hs : (system ω P).Reachable s) {w : ω} {a : Action}
    {worker : Worker} {disk : Disk} (hok : Exclusive s (.work w a))
    (hact : Act P s.disk (s.workers w) a worker disk)
    (hstep : (system ω P).step s (.work w a) =
      some { s with disk, workers := Function.update s.workers w worker }) :
    Exact P { s with disk, workers := Function.update s.workers w worker } := by
  have hother : ∀ w', w' ≠ w → Function.update s.workers w worker w' = s.workers w' :=
    fun w' hw' => Function.update_of_ne hw' ..
  have hout := hact.output (owned_reachable hs |>.held (.inl w))
    ((inv_reachable hs).2.workers w).full
  generalize hbefore : s.workers w = before at hout
  cases hout with
  | none hwriting hdisk =>
    refine h.quiet hs hstep ?_ hdisk fun _ _ => id
    intro w' tid hw'
    by_cases heq : w' = w
    · subst heq
      change (Function.update s.workers w' worker w').writing = some tid at hw'
      rw [Function.update_self, hwriting] at hw'
      cases hw'
    · exact hother w' heq
  | create tid contents it m hmerge =>
    obtain ⟨r, seen, rfl, hlisted, hseen⟩ := reading_reachable hs w tid [] contents hbefore
    obtain ⟨halone, hunsent⟩ := hok r (by simp [opening, hbefore, Worker.opens])
    rw [List.append_nil] at hlisted
    refine h.writer hs hstep [] hother (Function.update_self ..)
      (fun w' _ => halone w') (fun w' hmem => hunsent _ hmem rfl) rfl
      ⟨seen, contents, it, m, hlisted, hseen, hmerge, rfl⟩ (create_self ..) ?_
    intro r' hne
    exact create_of_ne _ fun heq => hne (outputName_inj heq)
  | write tid record rest offset =>
    obtain ⟨r, out, rfl, hwrites, hlen, hfile⟩ := h.writes w tid (record :: rest) offset hbefore
    have hwriting : (s.workers w).writing = some (r : ℤ) := by
      rw [hbefore]
      rfl
    obtain ⟨files, contents, it, m, hlisted, hcontents, hmerge, hrecords⟩ := hwrites
    rw [List.flatMap_cons, ← List.append_assoc] at hrecords
    refine h.writer hs hstep (out ++ record.format) hother ?_ ?_
      (fun w' hmem => (h.sent w' r hmem).2 w hwriting) rfl
      ⟨files, contents, it, m, hlisted, hcontents, hmerge, hrecords⟩ ?_ ?_
    · rw [List.length_append, hlen]
      exact Function.update_self ..
    · intro w' hw' hsame
      exact hw' (h.one_writer w' w r hsame hwriting)
    · change Files.write s.disk (outputName r) offset record.format (outputName r) = _
      rw [write_self, hfile, ← hlen, Option.map_some, writeAt_length]
    · intro r' hne
      exact write_of_ne _ (fun heq => hne (outputName_inj heq)) _ _

theorem sendMap_step (h : Exact P s) (hs : (system ω P).Reachable s) {w : ω} {a : MapAttempt}
    {finished : List MapAttempt}
    (hstep : (system ω P).step s (.send w) = some { s with
      workers := Function.update s.workers w .completing
      finished
      sent := s.sent ++ [(w, a.completion)] }) :
    Exact P { s with
      workers := Function.update s.workers w .completing
      finished
      sent := s.sent ++ [(w, a.completion)] } := by
  refine h.quiet hs hstep (fun w' tid => writing_of_completing) (fun _ => rfl) ?_
  intro w' r hmem
  rcases List.mem_append.mp hmem with hold | hnew
  · exact hold
  · cases List.mem_singleton.mp hnew

/-- The worker that sends a completion was the only writer and has written all. -/
theorem sendReduce_step (h : Exact P s) (hs : (system ω P).Reachable s) {w : ω} {tid : ℤ}
    {offset : ℕ} (hw : s.workers w = .reduceWrite tid [] offset)
    (hstep : (system ω P).step s (.send w) = some { s with
      workers := Function.update s.workers w .completing
      sent := s.sent ++ [(w, reduceCompletion tid)] }) :
    Exact P { s with
      workers := Function.update s.workers w .completing
      sent := s.sent ++ [(w, reduceCompletion tid)] } := by
  have hwriting : (s.workers w).writing = some tid := by
    rw [hw]
    rfl
  have hkept : ∀ w' tid', (Function.update s.workers w .completing w').writing = some tid' →
      Function.update s.workers w .completing w' = s.workers w' :=
    fun w' tid' => writing_of_completing
  constructor
  · intro w₁ w₂ tid' h₁ h₂
    exact h.one_writer w₁ w₂ tid' (hkept w₁ tid' h₁ ▸ h₁) (hkept w₂ tid' h₂ ▸ h₂)
  · intro w' tid' rest' offset' hw'
    change Function.update s.workers w .completing w' = _ at hw'
    have heq := hkept w' tid' (by rw [hw']; rfl)
    obtain ⟨r, out, htid, hwrites, hlen, hout⟩ := h.writes w' tid' rest' offset' (heq ▸ hw')
    exact ⟨r, out, htid, hwrites.step hs hstep, hlen, hout⟩
  · intro w' r hmem
    rcases List.mem_append.mp hmem with hold | hnew
    · obtain ⟨hcomplete, hnone⟩ := h.sent w' r hold
      refine ⟨hcomplete.step hs hstep rfl, fun w'' hw'' => ?_⟩
      exact hnone w'' (hkept w'' r hw'' ▸ hw'')
    · obtain ⟨r', out, rfl, hwrites, _, hout⟩ := h.writes w tid [] offset hw
      cases List.mem_singleton.mp hnew
      refine ⟨(hwrites.complete hout).step hs hstep rfl, fun w'' hw'' => ?_⟩
      have hsame := h.one_writer w'' w r (hkept w'' r hw'' ▸ hw'') hwriting
      subst hsame
      change (Function.update s.workers w'' .completing w'').writing = _ at hw''
      rw [Function.update_self] at hw''
      cases hw''

theorem step (h : Exact P s) (hs : (system ω P).Reachable s) (hok : Exclusive s l)
    (hstep : (system ω P).step s l = some t) : Exact P t := by
  have hsound : Step P s l t := step_sound hstep
  cases hsound with
  | coordinator l c => exact h.coordinator_step hs hstep
  | work w a worker disk hact => exact h.work_step hs hok hact hstep
  | sendMap w a => exact h.sendMap_step hs hstep
  | sendReduce w tid offset hw => exact h.sendReduce_step hs hw hstep

end Exact

section WordCount

instance (s : State Bool) (l : Label Bool) : Decidable (Exclusive s l) :=
  inferInstanceAs (Decidable (∀ tid ∈ opening s l, (∀ w, (s.workers w).writing ≠ some tid) ∧
    ∀ p ∈ s.sent, p.2 ≠ reduceCompletion tid))

end WordCount

end DistributedLabs.MapReduce
