import DistributedLabs.MapReduceSafety

/-!
The intermediate files of a job. Every map attempt, running or finished, owns the
files it created: their names are its own, a file not yet written is empty and a
written one holds its partition for good. With the first completion of each map
task this fixes the inputs of the reduce tasks from the phase switch on.
-/
namespace DistributedLabs.MRWorker

open GoText Files MRTask Coordinator

/-- The map attempt a worker is on, with the partitions still to write. -/
def Worker.attempt : Worker → Option (MapAttempt × List ℕ)
  | .mapCreate a => some (a, List.range a.nReduce)
  | .mapWrite a rest => some (a, rest)
  | .idle => none
  | .waiting => none
  | .mapRead _ _ _ => none
  | .reduceRead _ _ _ => none
  | .reduceWrite _ _ _ => none
  | .completing => none
  | .exited => none

theorem Worker.attempt_receive (reply : ReqTaskReply) :
    (Worker.receive reply).attempt = none := by
  unfold Worker.receive
  split <;> rfl

/-- The files of an attempt as they stand on the disk. -/
structure Held (P : Program) (disk : Disk) (a : MapAttempt) (rest : List ℕ) : Prop where
  len : a.names.length ≤ a.nReduce
  nodup : a.names.Nodup
  rest_nodup : rest.Nodup
  rest_lt : ∀ r ∈ rest, r < a.nReduce
  content : ∀ r < a.names.length,
    disk (a.name r) = some (if r ∈ rest then [] else a.content P r)
  shape : ∀ name ∈ a.names, ∀ tid, name ≠ outputName tid

namespace MapAttempt

theorem name_mem (a : MapAttempt) {r : ℕ} (hr : r < a.names.length) : a.name r ∈ a.names := by
  unfold name
  rw [List.getD_eq_getElem _ _ hr]
  exact List.getElem_mem hr

theorem exists_name (a : MapAttempt) {n : GoString} (h : n ∈ a.names) :
    ∃ r < a.names.length, a.name r = n := by
  obtain ⟨r, hr, hn⟩ := List.mem_iff_getElem.mp h
  refine ⟨r, hr, ?_⟩
  unfold name
  rw [List.getD_eq_getElem _ _ hr, hn]

theorem name_inj {a : MapAttempt} (h : a.names.Nodup) {r r' : ℕ} (hr : r < a.names.length)
    (hr' : r' < a.names.length) (heq : a.name r = a.name r') : r = r' := by
  unfold name at heq
  rw [List.getD_eq_getElem _ _ hr, List.getD_eq_getElem _ _ hr'] at heq
  exact (h.getElem_inj_iff).mp heq

theorem fileFor_completion {a : MapAttempt} {mt : MapTaskState}
    (h : a.completion.intermediateFiles = mt.intermediateFiles) {r : ℕ}
    (hr : r < a.names.length) : mt.fileFor r = a.name r := by
  unfold MapTaskState.fileFor
  rw [← h]
  simp [completion, intermediateFiles, name, hr]

end MapAttempt

namespace Held

variable {P : Program} {disk disk' : Disk} {a : MapAttempt} {rest : List ℕ}

theorem frame (h : Held P disk a rest) (hsame : ∀ n ∈ a.names, disk' n = disk n) :
    Held P disk' a rest :=
  { h with
    content := fun r hr => by
      rw [hsame _ (a.name_mem hr)]
      exact h.content r hr }

theorem exists_file (h : Held P disk a rest) {n : GoString} (hn : n ∈ a.names) :
    disk n ≠ none := by
  obtain ⟨r, hr, rfl⟩ := a.exists_name hn
  rw [h.content r hr]
  exact nofun

theorem start (tid : ℤ) (file : GoString) (nReduce : ℕ) (input : GoString) :
    Held P disk ⟨tid, file, nReduce, input, []⟩ (List.range nReduce) where
  len := Nat.zero_le _
  nodup := List.nodup_nil
  rest_nodup := List.nodup_range
  rest_lt _ := List.mem_range.mp
  content r hr := absurd hr (Nat.not_lt_zero r)
  shape _ h := absurd h List.not_mem_nil

theorem create (h : Held P disk a (List.range a.nReduce)) {rand : Fin 16 → UInt8}
    (hlt : a.names.length < a.nReduce) (hfresh : disk (a.nextName rand) = none) :
    Held P (Files.create disk (a.nextName rand)) (a.addName rand) (List.range a.nReduce) := by
  have hnew : a.nextName rand ∉ a.names := fun hmem => h.exists_file hmem hfresh
  constructor
  · simp only [MapAttempt.addName, List.length_append, List.length_singleton]
    omega
  · refine List.nodup_append.mpr ⟨h.nodup, List.nodup_singleton _, ?_⟩
    intro n hn m hm heq
    rw [heq, List.mem_singleton.mp hm] at hn
    exact hnew hn
  · exact h.rest_nodup
  · exact h.rest_lt
  · intro r hr
    simp only [MapAttempt.addName, List.length_append, List.length_singleton] at hr
    by_cases hold : r < a.names.length
    · have hname : (a.addName rand).name r = a.name r := by
        simp only [MapAttempt.addName, MapAttempt.name]
        exact List.getD_append _ _ _ _ hold
      have hne : a.name r ≠ a.nextName rand := fun heq => hnew (heq ▸ a.name_mem hold)
      rw [hname, create_of_ne _ hne, h.content r hold,
        if_pos (List.mem_range.mpr (by omega)), if_pos (List.mem_range.mpr (by omega))]
    · have hr' : r = a.names.length := by omega
      have hname : (a.addName rand).name r = a.nextName rand := by
        simp [MapAttempt.addName, MapAttempt.name, hr']
      rw [hname, create_self, if_pos (List.mem_range.mpr (by omega))]
  · intro n hn tid
    rcases List.mem_append.mp hn with hold | hnew
    · exact h.shape n hold tid
    · rw [List.mem_singleton.mp hnew]
      exact intermediateFilename_ne_outputName _ _ _ _

theorem compute (h : Held P disk a (List.range a.nReduce)) {order : List ℕ}
    (hperm : order.Perm (List.range a.nReduce)) : Held P disk a order :=
  { h with
    rest_nodup := hperm.nodup_iff.mpr List.nodup_range
    rest_lt := fun r hr => List.mem_range.mp (hperm.mem_iff.mp hr)
    content := fun r hr => by
      rw [h.content r hr]
      simp only [hperm.mem_iff] }

theorem write {r : ℕ} (h : Held P disk a (r :: rest)) (hr : r < a.names.length) :
    Held P (Files.write disk (a.name r) 0 (a.content P r)) a rest := by
  obtain ⟨hnot, hrest⟩ := List.nodup_cons.mp h.rest_nodup
  refine
    { h with
      rest_nodup := hrest
      rest_lt := fun r' hr' => h.rest_lt r' (List.mem_cons_of_mem r hr')
      content := fun r' hr' => ?_ }
  by_cases heq : r' = r
  · subst heq
    rw [write_self, h.content r' hr', if_pos List.mem_cons_self, if_neg hnot]
    simp [writeAt]
  · rw [write_of_ne _ fun hname => heq (MapAttempt.name_inj h.nodup hr' hr hname),
      h.content r' hr']
    simp [heq]

end Held

variable {P : Program} {disk disk' : Disk} {worker worker' : Worker} {act : Action}

theorem Held.write_lt (hheld : ∀ a rest, worker.attempt = some (a, rest) → Held P disk a rest)
    (hfull : ∀ a rest, worker = .mapWrite a rest → a.names.length = a.nReduce)
    {a : MapAttempt} {r : ℕ} {rest : List ℕ} (hw : worker = .mapWrite a (r :: rest)) :
    r < a.names.length := by
  have hattempt : worker.attempt = some (a, r :: rest) := by
    rw [hw]
    rfl
  rw [hfull a _ hw]
  exact (hheld a _ hattempt).rest_lt r List.mem_cons_self

/-- The attempt of a worker after an operation, and where its names come from. -/
theorem Act.held (h : Act P disk worker act worker' disk')
    (hheld : ∀ a rest, worker.attempt = some (a, rest) → Held P disk a rest)
    (hfull : ∀ a rest, worker = .mapWrite a rest → a.names.length = a.nReduce)
    {a' : MapAttempt} {rest' : List ℕ} (hattempt : worker'.attempt = some (a', rest')) :
    Held P disk' a' rest' ∧ ∀ n ∈ a'.names,
      (∃ a rest, worker.attempt = some (a, rest) ∧ n ∈ a.names) ∨ disk n = none := by
  cases h with
  | mapRead tid file nReduce input =>
    cases hattempt
    exact ⟨Held.start tid file nReduce input, nofun⟩
  | create a rand hlt hfresh =>
    cases hattempt
    refine ⟨(hheld a _ rfl).create hlt hfresh, ?_⟩
    intro n hn
    rcases List.mem_append.mp hn with hold | hnew
    · exact Or.inl ⟨a, _, rfl, hold⟩
    · rw [List.mem_singleton.mp hnew]
      exact Or.inr hfresh
  | compute a order hlen hperm =>
    cases hattempt
    exact ⟨(hheld _ _ rfl).compute hperm, fun n hn => Or.inl ⟨_, _, rfl, hn⟩⟩
  | mapWrite a r rest =>
    cases hattempt
    exact ⟨(hheld _ _ rfl).write (Held.write_lt hheld hfull rfl),
      fun n hn => Or.inl ⟨_, _, rfl, hn⟩⟩
  | _ => cases hattempt

/-- A worker writes a new file, a file of its attempt or an output file. -/
theorem Act.target_cases (h : Act P disk worker act worker' disk')
    (hheld : ∀ a rest, worker.attempt = some (a, rest) → Held P disk a rest)
    (hfull : ∀ a rest, worker = .mapWrite a rest → a.names.length = a.nReduce)
    {n : GoString} (htarget : target worker act = some n) :
    disk n = none ∨ (∃ a rest, worker.attempt = some (a, rest) ∧ n ∈ a.names) ∨
      ∃ tid, worker.reduceTask = some tid ∧ n = outputName tid := by
  cases h with
  | create a rand hlt hfresh =>
    cases htarget
    exact Or.inl hfresh
  | mapWrite a r rest =>
    cases htarget
    exact Or.inr (Or.inl ⟨a, _, rfl, a.name_mem (Held.write_lt hheld hfull rfl)⟩)
  | writeFails a r rest n =>
    cases htarget
    exact Or.inr (Or.inl ⟨a, _, rfl, a.name_mem (Held.write_lt hheld hfull rfl)⟩)
  | reduceCreate tid =>
    cases htarget
    exact Or.inr (Or.inr ⟨tid, rfl, rfl⟩)
  | reduceBadFile tid =>
    cases htarget
    exact Or.inr (Or.inr ⟨tid, rfl, rfl⟩)
  | reduceWrite tid =>
    cases htarget
    exact Or.inr (Or.inr ⟨tid, rfl, rfl⟩)
  | _ => cases htarget

end DistributedLabs.MRWorker

namespace DistributedLabs.MapReduce

open GoText Files Transition Tables MRTask Coordinator MRWorker

variable {ω : Type*}

/-- Who owns intermediate files: a worker, or a finished attempt by its number. -/
def attemptOf (s : State ω) : ω ⊕ ℕ → Option (MapAttempt × List ℕ)
  | .inl w => (s.workers w).attempt
  | .inr i => (s.finished[i]?).map fun a => (a, [])

structure Owned (P : Program) (s : State ω) : Prop where
  held : ∀ o a rest, attemptOf s o = some (a, rest) → Held P s.disk a rest
  disjoint : ∀ o o' a rest a' rest', o ≠ o' → attemptOf s o = some (a, rest) →
    attemptOf s o' = some (a', rest') → List.Disjoint a.names a'.names

/-- The file that a step of the job creates or writes. -/
def written (s : State ω) : Label ω → Option GoString
  | .coordinator _ => none
  | .work w a => target (s.workers w) a
  | .send _ => none

theorem attemptOf_finished {s : State ω} {a : MapAttempt} (h : a ∈ s.finished) :
    ∃ i, attemptOf s (.inr i) = some (a, []) := by
  obtain ⟨i, hi⟩ := List.mem_iff_getElem?.mp h
  exact ⟨i, by simp [attemptOf, hi]⟩

theorem attemptOf_start {s : State ω} (hs : Start s) (o : ω ⊕ ℕ) : attemptOf s o = none := by
  cases o with
  | inl w => simp [attemptOf, hs.workers w, Worker.attempt]
  | inr i => simp [attemptOf, hs.finished]

/-- The same owners on the same disk, some of them gone or renamed. -/
theorem Owned.of_owners {P : Program} {s t : State ω} (hs : Owned P s) (hdisk : t.disk = s.disk)
    (rename : ω ⊕ ℕ → ω ⊕ ℕ)
    (hattempt : ∀ o a rest, attemptOf t o = some (a, rest) →
      attemptOf s (rename o) = some (a, rest))
    (hinj : ∀ o o', attemptOf t o ≠ none → attemptOf t o' ≠ none → rename o = rename o' → o = o') :
    Owned P t where
  held o a rest h := by
    rw [hdisk]
    exact hs.held _ a rest (hattempt o a rest h)
  disjoint o o' a rest a' rest' hne h h' := by
    apply hs.disjoint (rename o) (rename o') a rest a' rest' _ (hattempt _ _ _ h)
      (hattempt _ _ _ h')
    intro heq
    exact hne (hinj o o' (by rw [h]; exact nofun) (by rw [h']; exact nofun) heq)

variable {P : Program} {s t : State ω}

/-- A worker's operation touches no file of another owner. -/
theorem Owned.not_target (hs : Owned P s) {w : ω} (hfits : Fits s.coord w (s.workers w))
    {act : Action} {worker : Worker} {disk : Disk}
    (h : Act P s.disk (s.workers w) act worker disk) {o : ω ⊕ ℕ} {a : MapAttempt} {rest : List ℕ}
    (ho : o ≠ .inl w) (hattempt : attemptOf s o = some (a, rest)) {n : GoString}
    (hn : n ∈ a.names) : target (s.workers w) act ≠ some n := by
  intro htarget
  have hheld := hs.held o a rest hattempt
  rcases h.target_cases (hs.held (.inl w)) hfits.full htarget with
    hnone | ⟨a', rest', hown, hmem⟩ | ⟨tid, _, hout⟩
  · exact hheld.exists_file hn hnone
  · exact hs.disjoint o (.inl w) a rest a' rest' ho hattempt hown hn hmem
  · exact hheld.shape n hn tid hout

/-- The attempt behind a done map task: its completion was received first. -/
theorem first_attempt (hi : Inv s.coord) (hr : Roles s) {i : ℕ} {mt : MapTaskState}
    (hget : s.coord.mapTaskState[i]? = some mt) (hdone : mt.done = true) :
    ∃ a ∈ s.finished, a.tid = i ∧
      s.coord.received.find? (CompleteTaskArgs.isMapOf i) = some a.completion.deepCopy ∧
      ∀ r < s.coord.nReduce, mt.fileFor r = a.name r := by
  obtain ⟨m, hfind, hfiles⟩ := hi.inputs.first i mt hget hdone
  have hof : m.isMapOf i = true := List.find?_some hfind
  obtain ⟨htype, htid⟩ := of_decide_eq_true hof
  obtain ⟨p, hp, rfl⟩ := hr.received m (List.mem_of_find?_eq_some hfind)
  rcases hr.sent p hp with ⟨a, ha, heq⟩ | ⟨tid, heq, _⟩
  · rw [heq] at hfind hfiles htid
    obtain ⟨⟨hreduce, _⟩, hlen⟩ := hr.finished a ha
    refine ⟨a, ha, htid, hfind, fun r hlt => ?_⟩
    exact MapAttempt.fileFor_completion hfiles (by omega)
  · rw [heq] at htype
    cases htype

variable [DecidableEq ω]

theorem attemptOf_work {w : ω} {worker : Worker} {disk : Disk} {o : ω ⊕ ℕ} (ho : o ≠ .inl w) :
    attemptOf { s with disk, workers := Function.update s.workers w worker } o =
      attemptOf s o := by
  cases o with
  | inl w' =>
    have hw : w' ≠ w := fun heq => ho (heq ▸ rfl)
    simp only [attemptOf, Function.update_of_ne hw]
  | inr i => rfl

/-- What the workers hear gives none of them an attempt. -/
theorem attemptOf_heard {l : Coordinator.Label ω} {c : Coordinator.State ω} {o : ω ⊕ ℕ}
    {a : MapAttempt} {rest : List ℕ}
    (h : attemptOf { s with coord := c, workers := heard s l } o = some (a, rest)) :
    attemptOf s o = some (a, rest) := by
  cases o with
  | inr i => exact h
  | inl w =>
    change (heard s l w).attempt = some (a, rest) at h
    rcases heard_cases s l w with heq | heq | heq | ⟨t, reply, rfl, heq⟩
    · rw [heq] at h
      exact h
    · rw [heq] at h
      cases h
    · rw [heq] at h
      cases h
    · rw [heq, Worker.attempt_receive] at h
      cases h

theorem attempt_of_completing {w w' : ω} {a : MapAttempt} {rest : List ℕ}
    (h : (Function.update s.workers w .completing w').attempt = some (a, rest)) :
    (s.workers w').attempt = some (a, rest) := by
  rcases completing_cases s w w' with heq | heq
  · rw [heq] at h
    cases h
  · rw [heq] at h
    exact h

namespace Owned

theorem work_step (hs : Owned P s) {w : ω} (hfits : Fits s.coord w (s.workers w)) {act : Action}
    {worker : Worker} {disk : Disk} (h : Act P s.disk (s.workers w) act worker disk) :
    Owned P { s with disk, workers := Function.update s.workers w worker } := by
  have hself : ∀ a rest, attemptOf
      { s with disk, workers := Function.update s.workers w worker } (.inl w) = some (a, rest) →
      worker.attempt = some (a, rest) := by
    intro a rest hattempt
    simpa [attemptOf] using hattempt
  have hnew : ∀ a rest, worker.attempt = some (a, rest) → _ :=
    fun a rest => h.held (hs.held (.inl w)) hfits.full
  -- the names of the moving worker are its old ones or names of no file so far
  have hside : ∀ o a rest a' rest', o ≠ .inl w → worker.attempt = some (a, rest) →
      attemptOf s o = some (a', rest') → List.Disjoint a.names a'.names := by
    intro o a rest a' rest' ho hattempt hattempt' n hn hn'
    rcases (hnew a rest hattempt).2 n hn with ⟨a₀, rest₀, hold, hmem⟩ | hnone
    · exact hs.disjoint (.inl w) o a₀ rest₀ a' rest' (Ne.symm ho) hold hattempt' hmem hn'
    · exact (hs.held o a' rest' hattempt').exists_file hn' hnone
  constructor
  · intro o a rest hattempt
    by_cases ho : o = .inl w
    · subst ho
      exact (hnew a rest (hself a rest hattempt)).1
    · rw [attemptOf_work ho] at hattempt
      exact (hs.held o a rest hattempt).frame fun n hn =>
        h.frame (hs.not_target hfits h ho hattempt hn)
  · intro o o' a rest a' rest' hne hattempt hattempt'
    by_cases ho : o = .inl w
    · subst ho
      rw [attemptOf_work (Ne.symm hne)] at hattempt'
      exact hside o' a rest a' rest' (Ne.symm hne) (hself a rest hattempt) hattempt'
    · rw [attemptOf_work ho] at hattempt
      by_cases ho' : o' = .inl w
      · subst ho'
        exact (hside o a' rest' a rest hne (hself a' rest' hattempt') hattempt).symm
      · rw [attemptOf_work ho'] at hattempt'
        exact hs.disjoint o o' a rest a' rest' hne hattempt hattempt'

theorem coordinator_step (hs : Owned P s) (l : Coordinator.Label ω) (c : Coordinator.State ω) :
    Owned P { s with coord := c, workers := heard s l } :=
  hs.of_owners rfl id (fun _ _ _ => attemptOf_heard) fun _ _ _ _ heq => heq

theorem sendMap_step (hs : Owned P s) {w : ω} {a : MapAttempt}
    (hw : s.workers w = .mapWrite a []) (sent : List (ω × CompleteTaskArgs)) :
    Owned P { s with
      workers := Function.update s.workers w .completing
      finished := s.finished ++ [a]
      sent } := by
  have hself : (Function.update s.workers w .completing w).attempt = none := by
    rw [Function.update_self]
    rfl
  -- the worker's files now belong to the attempt at the end of the record
  refine hs.of_owners rfl (fun o => if o = .inr s.finished.length then .inl w else o) ?_ ?_
  · intro o a' rest' hattempt
    cases o with
    | inl w' =>
      rw [if_neg nofun]
      exact attempt_of_completing hattempt
    | inr i =>
      obtain ⟨a₀, hget, heq⟩ := Option.map_eq_some_iff.mp hattempt
      cases heq
      rcases getElem?_concat_cases hget with hold | ⟨hlast, rfl⟩
      · have hne : i ≠ s.finished.length := (getElem?_lt hold).ne
        rw [if_neg fun heq => hne (Sum.inr.inj heq)]
        simp [attemptOf, hold]
      · rw [if_pos (by rw [hlast])]
        simp [attemptOf, hw, Worker.attempt]
  · intro o o' hsome hsome' heq
    split at heq
    · split at heq
      · rename_i ho ho'
        rw [ho, ho']
      · rw [← heq] at hsome'
        exact absurd hself hsome'
    · split at heq
      · rw [heq] at hsome
        exact absurd hself hsome
      · exact heq

theorem sendReduce_step (hs : Owned P s) (w : ω) (sent : List (ω × CompleteTaskArgs)) :
    Owned P { s with workers := Function.update s.workers w .completing, sent } := by
  refine hs.of_owners rfl id ?_ fun o o' _ _ heq => heq
  intro o a rest hattempt
  cases o with
  | inl w' => exact attempt_of_completing hattempt
  | inr i => exact hattempt

theorem step {l : Label ω} (hs : Owned P s) (hr : Roles s) (h : Step P s l t) : Owned P t := by
  cases h with
  | coordinator l c => exact hs.coordinator_step l c
  | work w a worker disk hact => exact hs.work_step (hr.workers w) hact
  | sendMap w a hw => exact hs.sendMap_step hw _
  | sendReduce w tid offset hw => exact hs.sendReduce_step w _

end Owned

theorem owned_reachable (h : (system ω P).Reachable s) : Owned P s := by
  refine System.Reachable.invariant (I := Owned P) ?_ ?_ h
  · intro s hs
    constructor
    · intro o a rest hattempt
      rw [attemptOf_start hs] at hattempt
      cases hattempt
    · intro o o' a rest a' rest' _ hattempt
      rw [attemptOf_start hs] at hattempt
      cases hattempt
  · intro s l t hs ih hstep
    exact ih.step (inv_reachable hs).2 (step_sound hstep)

/-- The files of a finished attempt hold its partitions, and no step writes them. -/
theorem finished_files (hs : (system ω P).Reachable s) {a : MapAttempt} (ha : a ∈ s.finished)
    {r : ℕ} (hr : r < s.coord.nReduce) :
    s.disk (a.name r) = some (a.content P r) ∧
      ∀ l t, (system ω P).step s l = some t → written s l ≠ some (a.name r) := by
  obtain ⟨hi, hroles⟩ := inv_reachable hs
  have howned := owned_reachable hs
  obtain ⟨i, hattempt⟩ := attemptOf_finished ha
  obtain ⟨⟨hreduce, _⟩, hlen⟩ := hroles.finished a ha
  have hlt : r < a.names.length := by omega
  refine ⟨by simpa using (howned.held _ a [] hattempt).content r hlt, ?_⟩
  intro l t hstep
  have h : Step P s l t := step_sound hstep
  cases h with
  | coordinator => exact nofun
  | work w act worker disk hact =>
    exact howned.not_target (hroles.workers w) hact Sum.inr_ne_inl hattempt (a.name_mem hlt)
  | sendMap => exact nofun
  | sendReduce => exact nofun

/-- From the phase switch on, the map tasks and the finished attempts stay. -/
theorem frozen_reaches (hs : (system ω P).Reachable s) (hphase : s.coord.phase ≠ .map)
    (h : (system ω P).Reaches s t) :
    t.coord.phase ≠ .map ∧ t.coord.mapTaskState = s.coord.mapTaskState ∧
      t.coord.nReduce = s.coord.nReduce ∧ s.finished ⊆ t.finished := by
  induction h with
  | refl => exact ⟨hphase, rfl, rfl, List.Subset.refl _⟩
  | @tail t u l hreach hstep ih =>
    obtain ⟨hphase', hmaps, hreduce, hfinished⟩ := ih
    obtain ⟨hi, hr⟩ := inv_reachable (hs.reaches hreach)
    have h : Step P t l u := step_sound hstep
    have hgrow : t.finished ⊆ u.finished := by
      cases h with
      | sendMap => exact List.subset_append_left _ _
      | _ => exact List.Subset.refl _
    rcases h.coord_cases with heq | ⟨l', hc, _, _⟩
    · rw [heq]
      exact ⟨hphase', hmaps, hreduce, List.Subset.trans hfinished hgrow⟩
    · refine ⟨hc.not_map hi.phases hphase', ?_, hc.nReduce_eq.trans hreduce,
        List.Subset.trans hfinished hgrow⟩
      rw [hc.map_frozen hi.phases hi.messages hi.tokens (h.inv hr hi).phases hphase']
      exact hmaps

theorem reduce_inputs_frozen (hs : (system ω P).Reachable s) (hphase : s.coord.phase ≠ .map) :
    ∃ attempts : List MapAttempt, attempts.length = s.coord.inputFiles.length ∧
      (∀ (i : ℕ) (a : MapAttempt), attempts[i]? = some a → a ∈ s.finished ∧ a.tid = i ∧
        s.coord.received.find? (CompleteTaskArgs.isMapOf i) = some a.completion.deepCopy) ∧
      ∀ t, (system ω P).Reaches s t → ∀ r < s.coord.nReduce,
        (∃ rt, t.coord.reduceTaskState[r]? = some rt ∧
          rt.intermediateFiles = attempts.map fun a => a.name r) ∧
        (∀ reply, reqTask t.coord ⟨r, .reduce⟩ = .task reply →
          reply.files = attempts.map fun a => a.name r) ∧
        (∀ o ∈ t.coord.handouts, o.task = ⟨r, .reduce⟩ →
          o.reply.files = attempts.map fun a => a.name r) ∧
        ∀ a ∈ attempts, t.disk (a.name r) = some (a.content P r) ∧
          ∀ l u, (system ω P).step t l = some u → written t l ≠ some (a.name r) := by
  obtain ⟨hi, hr⟩ := inv_reachable hs
  have hdone := hi.phases.map_done (hi.phases.mapping_of_not_map hphase)
  have hex : ∀ i : Fin s.coord.mapTaskState.length, ∃ a ∈ s.finished, a.tid = i.val ∧
      s.coord.received.find? (CompleteTaskArgs.isMapOf i) = some a.completion.deepCopy ∧
      ∀ r < s.coord.nReduce, s.coord.mapTaskState[i].fileFor r = a.name r := fun i =>
    first_attempt hi hr (List.getElem?_eq_getElem i.isLt) (hdone _ (List.getElem_mem i.isLt))
  choose f hfinished htid hfirst hname using hex
  have hlist : ∀ r < s.coord.nReduce,
      (s.coord.mapTaskState.map fun mt => mt.fileFor r) =
        (List.ofFn f).map fun a => a.name r := by
    intro r hr
    apply List.ext_getElem
    · simp
    · intro i hi hi'
      simpa using hname ⟨i, by simpa using hi⟩ r hr
  refine ⟨List.ofFn f, by simp [hi.phases.map_len], ?_, ?_⟩
  · intro i a ha
    obtain ⟨hlt, rfl⟩ := List.getElem?_eq_some_iff.mp ha
    have hi : i < s.coord.mapTaskState.length := by simpa using hlt
    rw [List.getElem_ofFn]
    exact ⟨hfinished ⟨i, hi⟩, htid ⟨i, hi⟩, hfirst ⟨i, hi⟩⟩
  · intro t hreach r hlt
    obtain ⟨hphase', hmaps, hreduce, hgrow⟩ := frozen_reaches hs hphase hreach
    have ht := hs.reaches hreach
    obtain ⟨hi', hr'⟩ := inv_reachable ht
    have hfiles : ∀ reply, ReplyFor t.coord ⟨r, .reduce⟩ reply →
        reply.files = (List.ofFn f).map fun a => a.name r := by
      rintro reply ⟨_, rt, hrt, rfl⟩
      rw [← hlist r hlt, ← hmaps]
      exact hi'.inputs.listed hphase' r rt hrt
    refine ⟨?_, ?_, ?_, ?_⟩
    · have hlt' : r < t.coord.reduceTaskState.length := by
        rw [hi'.phases.reduce_len, hreduce]
        exact hlt
      refine ⟨_, List.getElem?_eq_getElem hlt', ?_⟩
      rw [← hlist r hlt, ← hmaps]
      exact hi'.inputs.listed hphase' r _ (List.getElem?_eq_getElem hlt')
    · intro reply hans
      exact hfiles reply (reqTask_reply hans)
    · intro o ho htask
      apply hfiles
      rw [← htask]
      exact hi'.replies.handout o ho
    · intro a ha
      obtain ⟨i, rfl⟩ := List.mem_ofFn.mp ha
      exact finished_files ht (hgrow (hfinished i)) (hreduce.symm ▸ hlt)

set_option maxRecDepth 4000 in
/-- Two attempts at map task 0 have finished; the reduce tasks read the files of the one
whose completion came first. -/
theorem reduce_inputs_frozen_switched :
    ∃ (s : State Bool) (attempts : List MapAttempt), (system Bool wordCount).Reachable s ∧
      s.finished.map MapAttempt.tid = [1, 0, 0] ∧ attempts.length = 2 ∧
      ∀ t, (system Bool wordCount).Reaches s t → ∀ r < 2,
        (∃ rt, t.coord.reduceTaskState[r]? = some rt ∧
          rt.intermediateFiles = [imName 0 r 1, imName 1 r 1]) ∧
        ∀ a ∈ attempts, t.disk (a.name r) = some (a.content wordCount r) := by
  obtain ⟨s, hs, hp⟩ := job_reachable (P := wordCount) MREquivalence.twoFiles Nat.two_pos slowMap
    (p := fun s => decide (s.coord.phase ≠ .map ∧ s.coord.inputFiles.length = 2 ∧
      s.coord.nReduce = 2 ∧ s.finished.map MapAttempt.tid = [1, 0, 0] ∧
      ∀ r ∈ List.range 2, s.coord.reduceTaskState[r]?.map ReduceTaskState.intermediateFiles =
        some [imName 0 r 1, imName 1 r 1])) (by decide +kernel)
  obtain ⟨hphase, hfiles, hreduce, hfinished, hlists⟩ := of_decide_eq_true hp
  obtain ⟨attempts, hlen, _, hfrozen⟩ := reduce_inputs_frozen hs hphase
  rw [hreduce] at hfrozen
  refine ⟨s, attempts, hs, hfinished, hlen.trans hfiles, fun t ht r hr => ?_⟩
  obtain ⟨⟨rt, hrt, hlist⟩, _⟩ := hfrozen s .refl r hr
  have hnames := hlists r (List.mem_range.mpr hr)
  rw [hrt, Option.map_some, Option.some.injEq, hlist] at hnames
  obtain ⟨hlisted, _, _, hcontent⟩ := hfrozen t ht r hr
  rw [hnames] at hlisted
  exact ⟨hlisted, fun a ha => (hcontent a ha).1⟩

end DistributedLabs.MapReduce
