import DistributedLabs.CoordinatorTokens

/-!
What one step of the coordinator can do to each part of its state: the callers
and timers leave the tables alone, mapReduce leaves handlers and timers alone, a
table entry changes only when a completion for it is accepted or at the phase
switch, and a task that is not done keeps its token.
-/
namespace DistributedLabs.Coordinator

open GoText Transition Tables

variable {ω : Type*}

/-- What mapReduce never writes. -/
structure SameCallers (s u : State ω) : Prop where
  nReduce : u.nReduce = s.nReduce
  inputFiles : u.inputFiles = s.inputFiles
  handlers : u.handlers = s.handlers
  timers : u.timers = s.timers
  handouts : u.handouts = s.handouts
  fired : u.fired = s.fired

theorem acceptMap_callers (s : State ω) (m : CompleteTaskArgs) :
    SameCallers s (s.acceptMap m) ∧ (s.acceptMap m).taskQueue = s.taskQueue ∧
      (s.acceptMap m).completionQueue = s.completionQueue ∧
      (s.acceptMap m).phase = s.phase ∧
      ((s.acceptMap m).pc = .mapLoop ∨ (s.acceptMap m).pc = .panicked) := by
  unfold State.acceptMap
  split
  · split
    · exact ⟨⟨rfl, rfl, rfl, rfl, rfl, rfl⟩, rfl, rfl, rfl, Or.inl rfl⟩
    · exact ⟨⟨rfl, rfl, rfl, rfl, rfl, rfl⟩, rfl, rfl, rfl, Or.inl rfl⟩
  · exact ⟨⟨rfl, rfl, rfl, rfl, rfl, rfl⟩, rfl, rfl, rfl, Or.inr rfl⟩

theorem acceptReduce_callers (s : State ω) (m : CompleteTaskArgs) :
    SameCallers s (s.acceptReduce m) ∧ (s.acceptReduce m).taskQueue = s.taskQueue ∧
      (s.acceptReduce m).completionQueue = s.completionQueue ∧
      (s.acceptReduce m).phase = s.phase ∧
      ((s.acceptReduce m).pc = .reduceLoop ∨ (s.acceptReduce m).pc = .panicked) := by
  unfold State.acceptReduce
  split
  · split
    · exact ⟨⟨rfl, rfl, rfl, rfl, rfl, rfl⟩, rfl, rfl, rfl, Or.inl rfl⟩
    · exact ⟨⟨rfl, rfl, rfl, rfl, rfl, rfl⟩, rfl, rfl, rfl, Or.inl rfl⟩
  · exact ⟨⟨rfl, rfl, rfl, rfl, rfl, rfl⟩, rfl, rfl, rfl, Or.inr rfl⟩

theorem switch_callers (s : State ω) :
    SameCallers s s.switch ∧ s.switch.taskQueue = s.taskQueue ∧
      s.switch.completionQueue = s.completionQueue ∧
      (s.switch.phase = .reduce ∧ s.switch.pc = .reduceLoop ∨
        s.switch.phase = s.phase ∧ s.switch.pc = .panicked) := by
  unfold State.switch
  split
  · exact ⟨⟨rfl, rfl, rfl, rfl, rfl, rfl⟩, rfl, rfl, Or.inl ⟨rfl, rfl⟩⟩
  · exact ⟨⟨rfl, rfl, rfl, rfl, rfl, rfl⟩, rfl, rfl, Or.inr ⟨rfl, rfl⟩⟩

variable {s u : State ω} {l : Label ω}

theorem Proper.of_map {m : CompleteTaskArgs} (h : Proper s m) (htype : m.type = .map) :
    (0 ≤ m.tid ∧ m.tid < s.inputFiles.length) ∧ OneEach s.nReduce m.intermediateFiles := by
  rcases h with ⟨_, hrange, hshape⟩ | ⟨hreduce, _⟩
  · exact ⟨hrange, hshape⟩
  · rw [htype] at hreduce
    cases hreduce

theorem Tokens.in_table (ht : Tokens s) (hs : Counted OneEach s) (t : Task)
    (hpos : 0 < tokens s t) : taskDone s t ≠ none := taskDone_ne_none hs (ht.issued t hpos)

variable [DecidableEq ω]

namespace Step

theorem callers (h : Step s .mapReduce u) : SameCallers s u := by
  cases h with
  | mapAccept m => exact (acceptMap_callers s m).1
  | reduceAccept m => exact (acceptReduce_callers s m).1
  | switch => exact (switch_callers s).1
  | _ => exact ⟨rfl, rfl, rfl, rfl, rfl, rfl⟩

/-- A caller's or timer's step, where every token is of a task in its table. -/
theorem tables (h : Step s l u) (hl : l ≠ .mapReduce)
    (htable : ∀ t, 0 < tokens s t → taskDone s t ≠ none) :
    SameTables s u ∧ u.pc = s.pc ∧ u.received = s.received := by
  cases h with
  | checkPanic w t hmem hlock hans =>
    exact absurd (taskDone_of_panic hans) (htable t (tokens_pos_of_handler hmem (by simp)))
  | firePanic t hmem hlock hdone => exact absurd hdone (htable t (tokens_pos_of_timer hmem))
  | request | pop | timeout | checkSleep | checkTask | reply | expire | startSend | requeue
  | complete => exact ⟨⟨rfl, rfl, rfl, rfl, rfl, rfl, rfl⟩, rfl, rfl⟩
  | _ => exact absurd rfl hl

/-- No step writes the parameters of the job. -/
theorem job_eq (h : Step s l u) : u.nReduce = s.nReduce ∧ u.inputFiles = s.inputFiles := by
  by_cases hl : l = .mapReduce
  · subst hl
    exact ⟨h.callers.nReduce, h.callers.inputFiles⟩
  · cases h with
    | mapReceive | spawnStart | mapSkip | mapBad | mapAccept | mapRequeue | spawnSend | switch
    | reduceReceive | finish | reduceSkip | reduceAccept => exact absurd rfl hl
    | _ => exact ⟨rfl, rfl⟩

theorem nReduce_eq (h : Step s l u) : u.nReduce = s.nReduce := h.job_eq.1

theorem inputFiles_eq (h : Step s l u) : u.inputFiles = s.inputFiles := h.job_eq.2

theorem handout_cases (h : Step s l u) {o : Handout ω} (ho : o ∈ u.handouts) :
    o ∈ s.handouts ∨ ∃ w t reply, ⟨w, .matched t reply⟩ ∈ s.handlers ∧
      l = .reply w t reply ∧ o = ⟨w, t, reply, s.phase⟩ := by
  by_cases hl : l = .mapReduce
  · subst hl
    rw [h.callers.handouts] at ho
    exact Or.inl ho
  · cases h with
    | reply w t reply hmem =>
      rcases List.mem_append.mp ho with hold | hnew
      · exact Or.inl hold
      · exact Or.inr ⟨w, t, reply, hmem, rfl, List.mem_singleton.mp hnew⟩
    | mapReceive | spawnStart | mapSkip | mapBad | mapAccept | mapRequeue | spawnSend | switch
    | reduceReceive | finish | reduceSkip | reduceAccept => exact absurd rfl hl
    | _ => exact Or.inl ho

theorem handouts_grow (h : Step s l u) : s.handouts ⊆ u.handouts := by
  by_cases hl : l = .mapReduce
  · subst hl
    rw [h.callers.handouts]
    exact List.Subset.refl _
  · cases h with
    | reply w t reply hmem => exact List.subset_append_left _ _
    | mapReceive | spawnStart | mapSkip | mapBad | mapAccept | mapRequeue | spawnSend | switch
    | reduceReceive | finish | reduceSkip | reduceAccept => exact absurd rfl hl
    | _ => exact List.Subset.refl _

theorem matched_cases (h : Step s l u) {w : ω} {t : Task} {reply : ReqTaskReply}
    (hmem : ⟨w, .matched t reply⟩ ∈ u.handlers) :
    ⟨w, .matched t reply⟩ ∈ s.handlers ∨ reqTask s t = .task reply := by
  by_cases hl : l = .mapReduce
  · subst hl
    rw [h.callers.handlers] at hmem
    exact Or.inl hmem
  · cases h with
    | request =>
      rcases List.mem_cons.mp hmem with heq | hold
      · cases heq
      · exact Or.inl hold
    | pop =>
      rcases List.mem_cons.mp hmem with heq | hold
      · cases heq
      · exact Or.inl (List.mem_of_mem_erase hold)
    | checkTask w' t' reply' hpopped hlock hans =>
      rcases List.mem_cons.mp hmem with heq | hold
      · cases heq
        exact Or.inr hans
      · exact Or.inl (List.mem_of_mem_erase hold)
    | timeout | checkSleep | reply => exact Or.inl (List.mem_of_mem_erase hmem)
    | mapReceive | spawnStart | mapSkip | mapBad | mapAccept | mapRequeue | spawnSend | switch
    | reduceReceive | finish | reduceSkip | reduceAccept => exact absurd rfl hl
    | _ => exact Or.inl hmem

theorem completion_cases (h : Step s l u) {m : CompleteTaskArgs} (hm : m ∈ u.completionQueue) :
    m ∈ s.completionQueue ∨ ∃ m', l = .complete m' ∧ m = m'.deepCopy := by
  cases h with
  | mapAccept m =>
    rw [(acceptMap_callers s m).2.2.1] at hm
    exact Or.inl hm
  | reduceAccept m =>
    rw [(acceptReduce_callers s m).2.2.1] at hm
    exact Or.inl hm
  | switch =>
    rw [(switch_callers s).2.2.1] at hm
    exact Or.inl hm
  | complete m' hcap =>
    rcases List.mem_append.mp hm with hold | hnew
    · exact Or.inl hold
    · exact Or.inr ⟨m', rfl, List.mem_singleton.mp hnew⟩
  | mapReceive m' rest hpc hcount hq =>
    left
    rw [hq]
    exact List.mem_cons_of_mem _ hm
  | reduceReceive m' rest hpc hcount hq =>
    left
    rw [hq]
    exact List.mem_cons_of_mem _ hm
  | _ => exact Or.inl hm

/-- A completion in the hands of mapReduce was there before or is taken from the queue. -/
theorem got_origin (h : Step s l u) {m : CompleteTaskArgs}
    (hgot : u.pc = .mapGot m ∨ u.pc = .reduceGot m) :
    u.pc = s.pc ∨ m ∈ s.completionQueue ∧ u.received = s.received ++ [m] := by
  cases h with
  | mapAccept m' =>
    rcases (acceptMap_callers s m').2.2.2.2 with hpc | hpc <;> simp [hpc] at hgot
  | reduceAccept m' =>
    rcases (acceptReduce_callers s m').2.2.2.2 with hpc | hpc <;> simp [hpc] at hgot
  | switch =>
    rcases (switch_callers s).2.2.2 with ⟨_, hpc⟩ | ⟨_, hpc⟩ <;> simp [hpc] at hgot
  | mapReceive m' rest hpc hcount hq =>
    right
    simp at hgot
    simp [hq, hgot]
  | reduceReceive m' rest hpc hcount hq =>
    right
    simp at hgot
    simp [hq, hgot]
  | checkPanic | firePanic | spawnStart | mapSkip | mapBad | mapRequeue | spawnSend | finish
  | reduceSkip => simp at hgot
  | _ => exact Or.inl rfl

theorem got_cases (h : Step s l u) {m : CompleteTaskArgs}
    (hgot : u.pc = .mapGot m ∨ u.pc = .reduceGot m) :
    (s.pc = .mapGot m ∨ s.pc = .reduceGot m) ∨ m ∈ s.completionQueue := by
  rcases h.got_origin hgot with hsame | ⟨hqueue, _⟩
  · exact Or.inl (hsame ▸ hgot)
  · exact Or.inr hqueue

theorem phase_cases (h : Step s l u) (hs : Counted OneEach s) :
    u.phase = s.phase ∨ (s.phase = .map ∧ u.phase = .reduce) ∨
      (s.phase = .reduce ∧ u.phase = .done) := by
  cases h with
  | mapAccept m => exact Or.inl (acceptMap_callers s m).2.2.2.1
  | reduceAccept m => exact Or.inl (acceptReduce_callers s m).2.2.2.1
  | switch tid hpc hge =>
    rcases (switch_callers s).2.2.2 with ⟨hnew, _⟩ | ⟨hold, _⟩
    · exact Or.inr (Or.inl ⟨hs.phase_of_pc hpc rfl, hnew⟩)
    · exact Or.inl hold
  | finish hpc => exact Or.inr (Or.inr ⟨hs.phase_of_pc hpc rfl, rfl⟩)
  | _ => exact Or.inl rfl

end Step

theorem Step.not_map (h : Step s l u) (hs : Counted OneEach s) (hphase : s.phase ≠ .map) :
    u.phase ≠ .map := by
  rcases h.phase_cases hs with heq | ⟨hmap, _⟩ | ⟨_, hdone⟩
  · rw [heq]
    exact hphase
  · exact absurd hmap hphase
  · rw [hdone]
    exact nofun

theorem Step.not_requeue (h : Step s l u) (hm : Messages s) (tid : ℕ) :
    u.pc ≠ .mapRequeue tid := by
  intro hpc
  cases h with
  | mapAccept m =>
    rcases (acceptMap_callers s m).2.2.2.2 with hnew | hnew <;> simp [hnew] at hpc
  | reduceAccept m =>
    rcases (acceptReduce_callers s m).2.2.2.2 with hnew | hnew <;> simp [hnew] at hpc
  | switch =>
    rcases (switch_callers s).2.2.2 with ⟨_, hnew⟩ | ⟨_, hnew⟩ <;> simp [hnew] at hpc
  | mapBad m hgot htype hlen =>
    exact hlen ((hm.map_got m hgot).of_map htype).2.length
  | checkPanic | firePanic | spawnStart | mapSkip | mapRequeue | spawnSend | finish
  | reduceSkip | mapReceive | reduceReceive => cases hpc
  | _ => exact hm.not_requeue tid hpc

/-- What one step does to the tokens. -/
inductive Move (s u : State ω) : Prop
  | keep (htokens : ∀ t, tokens u t = tokens s t)
      (hspawned : ∀ r < s.nReduce, u.pc.spawned r = s.pc.spawned r)
  | drop (t₀ : Task) (hlock : s.pc.locked = false) (hpc : u.pc = s.pc) (hsame : SameTables s u)
      (hwhy : t₀.taskType ≠ s.phase ∨ taskDone s t₀ = some true)
      (htokens : ∀ t, tokens u t + (if t₀ = t then 1 else 0) = tokens s t)
  | spawn (tid : ℕ) (hpc : s.pc = .spawn tid) (hlt : tid < s.nReduce)
      (hnext : u.pc = .spawn (tid + 1)) (hsame : SameTables s u)
      (htokens : ∀ t, tokens u t = tokens s t + if ⟨tid, .reduce⟩ = t then 1 else 0)

theorem Step.move (h : Step s l u) (hm : Messages s) (hu : Counted OneEach u) : Move s u := by
  have hphase := hu.phase_eq
  cases h with
  | request w => exact .keep (fun t => by simp [tokens]) fun r _ => rfl
  | pop w t₀ rest hmem hq => exact .keep (tokens_pop hmem hq) fun r _ => rfl
  | timeout w hmem => exact .keep (fun t => by simpa using tokens_sleep hmem t) fun r _ => rfl
  | checkSleep w t₀ hmem hlock hans =>
    exact .drop t₀ hlock rfl ⟨rfl, rfl, rfl, rfl, rfl, rfl, rfl⟩ (reqTask_sleep hans)
      fun t => by simpa using tokens_sleep hmem t
  | checkPanic => cases hphase
  | checkTask w t₀ reply hmem => exact .keep (tokens_matchTask reply hmem) fun r _ => rfl
  | reply w t₀ reply hmem => exact .keep (tokens_handOut hmem) fun r _ => rfl
  | firePanic => cases hphase
  | expire t₀ d hmem hlock hdone hout =>
    have hwhy : t₀.taskType ≠ s.phase ∨ taskDone s t₀ = some true := by
      rcases hout with hout | hout
      · exact Or.inl hout
      · rw [hdone, hout]
        exact Or.inr rfl
    exact .drop t₀ hlock rfl ⟨rfl, rfl, rfl, rfl, rfl, rfl, rfl⟩ hwhy (tokens_expire hmem)
  | startSend t₀ hmem => exact .keep (tokens_startSend hmem) fun r _ => rfl
  | requeue t₀ hmem => exact .keep (tokens_requeue hmem) fun r _ => rfl
  | complete m => exact .keep (tokens_congr rfl rfl rfl) fun r _ => rfl
  | mapReceive m rest hpc =>
    exact .keep (tokens_congr rfl rfl rfl) fun r _ => by rw [hpc]; rfl
  | spawnStart hpc => exact .keep (tokens_congr rfl rfl rfl) fun r _ => by rw [hpc]; rfl
  | mapSkip m hpc => exact .keep (tokens_congr rfl rfl rfl) fun r _ => by rw [hpc]; rfl
  | mapBad m hpc => exact .keep (tokens_congr rfl rfl rfl) fun r _ => by rw [hpc]; rfl
  | mapAccept m hpc =>
    obtain ⟨hsame, hqueue, _, _, hnew⟩ := acceptMap_callers s m
    refine .keep (tokens_congr hqueue hsame.handlers hsame.timers) fun r _ => ?_
    rcases hnew with hnew | hnew
    · rw [hnew, hpc]
      rfl
    · rw [hnew] at hphase
      cases hphase
  | mapRequeue tid hpc => exact absurd hpc (hm.not_requeue tid)
  | spawnSend tid hpc hlt =>
    exact .spawn tid hpc hlt rfl ⟨rfl, rfl, rfl, rfl, rfl, rfl, rfl⟩ (tokens_enqueue rfl rfl rfl)
  | switch tid hpc hge =>
    obtain ⟨hsame, hqueue, _, hnew⟩ := switch_callers s
    refine .keep (tokens_congr hqueue hsame.handlers hsame.timers) fun r hr => ?_
    rcases hnew with ⟨_, hnew⟩ | ⟨_, hnew⟩
    · rw [hnew, hpc]
      have hlt : r < tid := by omega
      simp [Pc.spawned, hlt]
    · rw [hnew] at hphase
      cases hphase
  | reduceReceive m rest hpc =>
    exact .keep (tokens_congr rfl rfl rfl) fun r _ => by rw [hpc]; rfl
  | finish hpc => exact .keep (tokens_congr rfl rfl rfl) fun r _ => by rw [hpc]; rfl
  | reduceSkip m hpc => exact .keep (tokens_congr rfl rfl rfl) fun r _ => by rw [hpc]; rfl
  | reduceAccept m hpc =>
    obtain ⟨hsame, hqueue, _, _, hnew⟩ := acceptReduce_callers s m
    refine .keep (tokens_congr hqueue hsame.handlers hsame.timers) fun r _ => ?_
    rcases hnew with hnew | hnew
    · rw [hnew, hpc]
      rfl
    · rw [hnew] at hphase
      cases hphase

/-- A map entry changes only when a completion for it is accepted. -/
theorem Step.map_entry_cases (h : Step s l u) (hs : Counted OneEach s) (hm : Messages s)
    (ht : Tokens s) {i : ℕ} {mt' : MapTaskState} (hget : u.mapTaskState[i]? = some mt') :
    s.mapTaskState[i]? = some mt' ∨
      ∃ (m : CompleteTaskArgs) (mt : MapTaskState), s.pc = .mapGot m ∧ m.type = .map ∧
        m.tid = i ∧ s.mapTaskState[i]? = some mt ∧ mt.done = false ∧
        mt' = { mt with done := true, intermediateFiles := m.intermediateFiles } := by
  by_cases hl : l = .mapReduce
  · subst hl
    cases h with
    | mapAccept m hpc htype hrange =>
      obtain ⟨_, hshape⟩ := (hm.map_got m hpc).of_map htype
      have hlt : m.tid.toNat < s.mapTaskState.length := by
        rw [hs.map_len]
        omega
      obtain ⟨mt, hmt, ⟨_, heq⟩ | ⟨hundone, heq⟩⟩ := acceptMap_cases s m hlt
      · rw [heq] at hget
        exact Or.inl hget
      · rw [heq] at hget
        have hdrop : mt.intermediateFiles.drop m.intermediateFiles.length = [] := by
          apply List.drop_eq_nil_of_le
          rw [hs.entry_len mt (List.mem_of_getElem? hmt), hshape.length]
        rcases getElem?_set_cases hget with ⟨hi, hnew⟩ | ⟨_, hold⟩
        · right
          refine ⟨m, mt, hpc, htype, by omega, hi ▸ hmt, hundone, ?_⟩
          rw [hnew, hdrop, List.append_nil]
        · exact Or.inl hold
    | reduceAccept m hpc htype hrange =>
      have hlt : m.tid.toNat < s.reduceTaskState.length := by
        rw [hs.reduce_len]
        omega
      obtain ⟨_, _, ⟨_, heq⟩ | ⟨_, heq⟩⟩ := acceptReduce_cases s m hlt
      · rw [heq] at hget
        exact Or.inl hget
      · rw [heq] at hget
        exact Or.inl hget
    | switch tid hpc =>
      obtain ⟨rts, heq, _, _⟩ := switch_eq hs (by rw [hpc]; rfl)
        (hs.phase_of_pc hpc rfl)
      rw [heq] at hget
      exact Or.inl hget
    | _ => exact Or.inl hget
  · rw [(h.tables hl (ht.in_table hs)).1.mapTaskState] at hget
    exact Or.inl hget

/-- A reduce entry changes only when a completion for it is accepted, and at the switch. -/
theorem Step.reduce_entry_cases (h : Step s l u) (hs : Counted OneEach s) (ht : Tokens s)
    {r : ℕ} {rt' : ReduceTaskState} (hget : u.reduceTaskState[r]? = some rt') :
    (s.reduceTaskState[r]? = some rt' ∧ (s.phase = .map → u.phase = .map)) ∨
      (∃ (m : CompleteTaskArgs) (rt : ReduceTaskState), s.pc = .reduceGot m ∧
        m.type = .reduce ∧ m.tid = r ∧ s.reduceTaskState[r]? = some rt ∧ rt.done = false ∧
        rt' = { rt with done := true }) ∨
      (s.phase = .map ∧ u.phase = .reduce ∧ s.reduceTaskState[r]? = some ⟨false, []⟩ ∧
        rt' = ⟨false, u.mapTaskState.map fun mt => mt.fileFor r⟩) := by
  by_cases hl : l = .mapReduce
  · subst hl
    cases h with
    | mapAccept m hpc htype hrange =>
      have hlt : m.tid.toNat < s.mapTaskState.length := by
        rw [hs.map_len]
        omega
      obtain ⟨_, _, ⟨_, heq⟩ | ⟨_, heq⟩⟩ := acceptMap_cases s m hlt
      · rw [heq] at hget ⊢
        exact Or.inl ⟨hget, id⟩
      · rw [heq] at hget ⊢
        exact Or.inl ⟨hget, id⟩
    | reduceAccept m hpc htype hrange =>
      have hlt : m.tid.toNat < s.reduceTaskState.length := by
        rw [hs.reduce_len]
        omega
      obtain ⟨rt, hrt, ⟨_, heq⟩ | ⟨hundone, heq⟩⟩ := acceptReduce_cases s m hlt
      · rw [heq] at hget ⊢
        exact Or.inl ⟨hget, id⟩
      · rw [heq] at hget ⊢
        rcases getElem?_set_cases hget with ⟨hr, hnew⟩ | ⟨_, hold⟩
        · exact Or.inr (Or.inl ⟨m, rt, hpc, htype, by omega, hr ▸ hrt, hundone, hnew⟩)
        · exact Or.inl ⟨hold, id⟩
    | switch tid hpc =>
      have hphase : s.phase = .map := hs.phase_of_pc hpc rfl
      obtain ⟨rts, heq, hlen, hrts⟩ := switch_eq hs (by rw [hpc]; rfl) hphase
      rw [heq] at hget ⊢
      have hlt : r < s.reduceTaskState.length := by
        rw [hs.reduce_len, ← hlen]
        exact getElem?_lt hget
      refine Or.inr (Or.inr ⟨hphase, rfl, ?_, hrts r rt' hget⟩)
      rw [List.getElem?_eq_getElem hlt, hs.reduce_fresh hphase _ (List.getElem_mem hlt)]
    | finish hpc =>
      refine Or.inl ⟨hget, fun hphase => ?_⟩
      rw [hs.phase_of_pc hpc rfl] at hphase
      cases hphase
    | _ => exact Or.inl ⟨hget, id⟩
  · obtain ⟨hsame, _, _⟩ := h.tables hl (ht.in_table hs)
    rw [hsame.reduceTaskState] at hget
    exact Or.inl ⟨hget, fun hphase => hsame.phase.trans hphase⟩

theorem Step.taskDone_false (h : Step s l u) (hs : Counted OneEach s) (hm : Messages s)
    (ht : Tokens s) {t : Task} (hundone : taskDone u t = some false) :
    taskDone s t = some false := by
  unfold taskDone at hundone ⊢
  split at hundone
  · obtain ⟨mt', hmt', hfalse⟩ := Option.map_eq_some_iff.mp hundone
    rcases h.map_entry_cases hs hm ht hmt' with hold | ⟨m, mt, _, _, _, _, _, rfl⟩
    · simp [hold, hfalse]
    · cases hfalse
  · obtain ⟨rt', hrt', hfalse⟩ := Option.map_eq_some_iff.mp hundone
    rcases h.reduce_entry_cases hs ht hrt' with
      ⟨hold, _⟩ | ⟨m, rt, _, _, _, _, _, rfl⟩ | ⟨_, _, hold, _⟩
    · simp [hold, hfalse]
    · cases hfalse
    · simp [hold]
  · cases hundone

theorem Step.taskDone_true (h : Step s l u) (hs : Counted OneEach s) (hm : Messages s)
    (ht : Tokens s) (hu : Counted OneEach u) {t : Task} (hdone : taskDone s t = some true) :
    taskDone u t = some true := by
  cases hnew : taskDone u t with
  | none =>
    unfold taskDone at hdone hnew
    split at hdone
    · simp_all [hs.map_len, hu.map_len, h.inputFiles_eq]
    · simp_all [hs.reduce_len, hu.reduce_len, h.nReduce_eq]
    · simp_all
  | some d =>
    cases d with
    | true => rfl
    | false =>
      rw [h.taskDone_false hs hm ht hnew] at hdone
      cases hdone

/-- Only a done task loses its token. -/
theorem Step.lost_token (h : Step s l u) (hs : Counted OneEach s) (hm : Messages s) (ht : Tokens s)
    (hu : Counted OneEach u) {t : Task} (hlost : tokens u t < tokens s t) :
    taskDone s t = some true := by
  cases h.move hm hu with
  | keep htokens =>
    have := htokens t
    omega
  | drop t₀ hlock hpc hsame hwhy htokens =>
    have heq := htokens t
    by_cases ht₀ : t₀ = t
    · subst ht₀
      rcases hwhy with hphase | hdone
      · exact done_of_out_of_phase hs (ht.issued t₀ (by omega)) hlock hphase
      · exact hdone
    · rw [if_neg ht₀] at heq
      omega
  | spawn tid hpc hlt hnext hsame htokens =>
    have := htokens t
    omega

theorem Step.timer_each (h : Step s l u) {t : Task}
    (heach : s.handouts.countP (fun o => o.task = t) =
      s.fired.count t + s.timers.countP fun timer => timer.task = t) :
    u.handouts.countP (fun o => o.task = t) =
      u.fired.count t + u.timers.countP fun timer => timer.task = t := by
  by_cases hl : l = .mapReduce
  · subst hl
    rw [h.callers.handouts, h.callers.fired, h.callers.timers]
    exact heach
  · cases h with
    | reply w t₀ reply =>
      simp only [State.handOut, List.countP_append, List.countP_cons, List.countP_nil]
      omega
    | expire t₀ d hmem =>
      have herase := countP_erase_add (fun timer => decide (timer.task = t)) hmem
      simp only [State.expire, List.count_append, List.count_singleton, beq_iff_eq]
      simp only [decide_eq_true_eq] at herase
      omega
    | startSend t₀ hmem =>
      have herase := countP_erase_add (fun timer => decide (timer.task = t)) hmem
      simp only [State.startSend, List.countP_cons]
      dsimp only at herase
      omega
    | requeue t₀ hmem =>
      have herase := countP_erase_add (fun timer => decide (timer.task = t)) hmem
      simp only [State.requeue, List.count_append, List.count_singleton, beq_iff_eq]
      simp only [decide_eq_true_eq] at herase
      omega
    | mapReceive | spawnStart | mapSkip | mapBad | mapAccept | mapRequeue | spawnSend | switch
    | reduceReceive | finish | reduceSkip | reduceAccept => exact absurd rfl hl
    | _ => exact heach

end DistributedLabs.Coordinator
