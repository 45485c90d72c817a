import DistributedLabs.CoordinatorSteps

/-!
The invariant of the coordinator: phases, messages and tokens together, since
each needs the others to exclude a panic or a lost task.
-/
namespace DistributedLabs.Coordinator

open GoText Transition Tables

variable {ω : Type*} {s u : State ω} {l : Label ω}

/-- What ReqTask answers for a task, in the words of the tables. -/
def ReplyFor (s : State ω) (t : Task) (reply : ReqTaskReply) : Prop :=
  match t.taskType with
  | .map => ∃ mt, s.mapTaskState[t.tid]? = some mt ∧
      reply = ⟨.map, t.tid, mt.inputFile, s.nReduce, []⟩
  | .reduce => s.phase ≠ .map ∧ ∃ rt, s.reduceTaskState[t.tid]? = some rt ∧
      reply = ⟨.reduce, t.tid, [], 0, rt.intermediateFiles⟩
  | .done => False

structure Replies (s : State ω) : Prop where
  matched : ∀ w t reply, ⟨w, .matched t reply⟩ ∈ s.handlers → ReplyFor s t reply
  handout : ∀ o ∈ s.handouts, ReplyFor s o.task o.reply
  handout_phase : ∀ o ∈ s.handouts, o.task.taskType = .reduce → s.phase = .reduce →
    o.phase = .reduce

theorem reqTask_reply {t : Task} {reply : ReqTaskReply} (h : reqTask s t = .task reply) :
    ReplyFor s t reply := by
  have hphase := reqTask_phase h
  unfold reqTask at h
  rw [if_neg (not_not.mpr hphase)] at h
  unfold ReplyFor
  cases htype : t.taskType with
  | map =>
    simp only [htype] at h
    cases hmt : s.mapTaskState[t.tid]? with
    | none =>
      simp only [hmt] at h
      cases h
    | some mt =>
      simp only [hmt] at h
      cases h
      exact ⟨mt, rfl, rfl⟩
  | reduce =>
    simp only [htype] at h
    cases hrt : s.reduceTaskState[t.tid]? with
    | none =>
      simp only [hrt] at h
      cases h
    | some rt =>
      simp only [hrt] at h
      cases h
      have hnot : s.phase ≠ .map := by
        rw [← hphase, htype]
        exact nofun
      exact ⟨hnot, rt, rfl, rfl⟩
  | done =>
    simp only [htype] at h
    cases h

theorem ReplyFor.not_map {t : Task} {reply : ReqTaskReply} (h : ReplyFor s t reply)
    (htype : reply.type = .reduce) : s.phase ≠ .map := by
  unfold ReplyFor at h
  split at h
  · obtain ⟨mt, _, rfl⟩ := h
    cases htype
  · exact h.1
  · exact h.elim

variable [DecidableEq ω]

theorem Proper.step {m : CompleteTaskArgs} (hm : Proper s m) (h : Step s l u) : Proper u m := by
  unfold Proper
  rw [h.inputFiles_eq, h.nReduce_eq]
  rcases hm with hmap | ⟨htype, o, ho, hrest⟩
  · exact Or.inl hmap
  · exact Or.inr ⟨htype, o, h.handouts_grow ho, hrest⟩

theorem Counted.step {shape : ℕ → List IntermediateFile → Prop} (hs : Counted shape s)
    (hrange : ∀ n files, shape n files → ∀ f ∈ files, 0 ≤ f.reducerTid ∧ f.reducerTid < n)
    (htable : ∀ t, 0 < tokens s t → taskDone s t ≠ none)
    (hstore : l = .mapReduce → ∀ m, Stores s m → shape s.nReduce m.intermediateFiles)
    (h : Step s l u) : Counted shape u := by
  by_cases hl : l = .mapReduce
  · subst hl
    cases h with
    | mapReceive m rest hpc =>
      exact hs.congr ⟨rfl, rfl, rfl, rfl, rfl, rfl, rfl⟩ (by rw [hpc]; rfl) (by rw [hpc]; rfl)
    | spawnStart hpc hcount => exact hs.spawnStart hpc hcount
    | mapSkip m hpc =>
      exact hs.congr ⟨rfl, rfl, rfl, rfl, rfl, rfl, rfl⟩ (by rw [hpc]; rfl) (by rw [hpc]; rfl)
    | mapBad m hpc =>
      exact hs.congr ⟨rfl, rfl, rfl, rfl, rfl, rfl, rfl⟩ (by rw [hpc]; rfl) (by rw [hpc]; rfl)
    | mapAccept m hpc htype hmap hlen => exact hs.acceptMap hpc htype hmap hlen (hstore rfl m)
    | mapRequeue tid hpc =>
      exact hs.congr ⟨rfl, rfl, rfl, rfl, rfl, rfl, rfl⟩ (by rw [hpc]; rfl) (by rw [hpc]; rfl)
    | spawnSend tid hpc =>
      exact hs.congr ⟨rfl, rfl, rfl, rfl, rfl, rfl, rfl⟩ (by rw [hpc]; rfl) (by rw [hpc]; rfl)
    | switch tid hpc =>
      have hdone := hs.map_done (by rw [hpc]; rfl)
      exact hs.switch hpc fun mt hmt => hrange _ _ (hs.entry_shape mt hmt (hdone mt hmt))
    | reduceReceive m rest hpc =>
      exact hs.congr ⟨rfl, rfl, rfl, rfl, rfl, rfl, rfl⟩ (by rw [hpc]; rfl) (by rw [hpc]; rfl)
    | finish hpc hcount => exact hs.finish hpc hcount
    | reduceSkip m hpc =>
      exact hs.congr ⟨rfl, rfl, rfl, rfl, rfl, rfl, rfl⟩ (by rw [hpc]; rfl) (by rw [hpc]; rfl)
    | reduceAccept m hpc htype hreduce => exact hs.acceptReduce hpc hreduce
  · obtain ⟨hsame, hpc, _⟩ := h.tables hl htable
    exact hs.congr hsame (by rw [hpc]) (by rw [hpc])

theorem Counted.step_oneEach (hs : Counted OneEach s) (hm : Messages s) (ht : Tokens s)
    (h : Step s l u) : Counted OneEach u :=
  hs.step (fun _ _ => OneEach.range) (ht.in_table hs)
    (fun _ m hst => ((hm.map_got m hst.got).of_map hst.type).2) h

theorem Messages.step (hm : Messages s) (h : Step s l u)
    (hsent : ∀ m, l = .complete m → Proper s m.deepCopy) : Messages u := by
  have hgot : ∀ m, u.pc = .mapGot m ∨ u.pc = .reduceGot m → Proper u m := by
    intro m hpc
    rcases h.got_cases hpc with (hmap | hreduce) | hqueue
    · exact (hm.map_got m hmap).step h
    · exact (hm.reduce_got m hreduce).step h
    · exact (hm.queue m hqueue).step h
  constructor
  · intro m hmem
    rcases h.completion_cases hmem with hold | ⟨m', hl, rfl⟩
    · exact (hm.queue m hold).step h
    · exact (hsent m' hl).step h
  · intro m hpc
    exact hgot m (Or.inl hpc)
  · intro m hpc
    exact hgot m (Or.inr hpc)
  · exact h.not_requeue hm

theorem Tokens.step (ht : Tokens s) (hs : Counted OneEach s) (hm : Messages s)
    (hu : Counted OneEach u) (h : Step s l u) : Tokens u := by
  have hundone : ∀ t, taskDone u t = some false → taskDone s t = some false :=
    fun t => h.taskDone_false hs hm ht
  have heach : ∀ t, _ := fun t => h.timer_each (ht.timer_each t)
  cases h.move hm hu with
  | keep htokens hspawned =>
    have hissued := issued_congr h.inputFiles_eq h.nReduce_eq hspawned
    constructor
    · intro t
      rw [htokens]
      exact ht.le_one t
    · intro t hpos
      rw [htokens] at hpos
      exact (hissued t).mpr (ht.issued t hpos)
    · intro t hi hfalse
      rw [htokens]
      exact ht.one t ((hissued t).mp hi) (hundone t hfalse)
    · exact heach
  | drop t₀ hlock hpc hsame hwhy htokens =>
    have hissued := issued_congr hsame.inputFiles hsame.nReduce fun r _ => by rw [hpc]
    constructor
    · intro t
      have := ht.le_one t
      have := htokens t
      omega
    · intro t hpos
      have := htokens t
      exact (hissued t).mpr (ht.issued t (by omega))
    · intro t hi hfalse
      have hold := ht.one t ((hissued t).mp hi) (hundone t hfalse)
      by_cases hlost : tokens u t < tokens s t
      · have hdone := h.lost_token hs hm ht hu hlost
        rw [hundone t hfalse] at hdone
        cases hdone
      · have := htokens t
        omega
    · exact heach
  | spawn tid hpc hlt hnext hsame htokens =>
    have hfresh : tokens s ⟨tid, .reduce⟩ = 0 := by
      apply Nat.eq_zero_of_not_pos
      intro hpos
      have hspawned := (ht.issued _ hpos).2
      simp [hpc, Pc.spawned] at hspawned
    have hgrow : ∀ t, Issued s t → Issued u t := by
      intro t hi
      unfold Issued at hi ⊢
      rw [hsame.inputFiles, hsame.nReduce, hnext]
      rw [hpc] at hi
      split <;> simp_all [Pc.spawned]
      omega
    have hshrink : ∀ t, Issued u t → Issued s t ∨ t = ⟨tid, .reduce⟩ := by
      intro t hi
      unfold Issued at hi ⊢
      rw [hsame.inputFiles, hsame.nReduce, hnext] at hi
      rw [hpc]
      obtain ⟨i, ty⟩ := t
      cases ty with
      | map => exact Or.inl hi
      | reduce =>
        simp only [Pc.spawned, decide_eq_true_eq, Task.mk.injEq, and_true] at hi ⊢
        omega
      | done => exact Or.inl hi
    constructor
    · intro t
      have hone := ht.le_one t
      rw [htokens t]
      split
      · rename_i heq
        rw [← heq, hfresh]
      · exact hone
    · intro t hpos
      rw [htokens t] at hpos
      split at hpos
      · rename_i heq
        rw [← heq]
        refine ⟨hsame.nReduce.symm ▸ hlt, ?_⟩
        rw [hnext]
        simp [Pc.spawned]
      · exact hgrow t (ht.issued t hpos)
    · intro t hi hfalse
      rw [htokens t]
      split
      · rename_i heq
        rw [← heq, hfresh]
      · rename_i hne
        rcases hshrink t hi with hold | heq
        · exact ht.one t hold (hundone t hfalse)
        · exact absurd heq.symm hne
    · exact heach

theorem ReplyFor.step {t : Task} {reply : ReqTaskReply} (hr : ReplyFor s t reply)
    (hs : Counted OneEach s) (hm : Messages s) (ht : Tokens s) (hu : Counted OneEach u)
    (h : Step s l u) :
    ReplyFor u t reply := by
  unfold ReplyFor at hr ⊢
  split at hr
  · obtain ⟨mt, hmt, rfl⟩ := hr
    have hlt : t.tid < u.mapTaskState.length := by
      rw [hu.map_len, h.inputFiles_eq, ← hs.map_len]
      exact getElem?_lt hmt
    have hget := List.getElem?_eq_getElem hlt
    refine ⟨_, hget, ?_⟩
    rw [h.nReduce_eq]
    rcases h.map_entry_cases hs hm ht hget with hold | ⟨m, mt', _, _, _, hmt', _, hnew⟩
    · rw [hmt] at hold
      rw [← Option.some.inj hold]
    · rw [hmt] at hmt'
      rw [hnew, Option.some.inj hmt']
  · obtain ⟨hphase, rt, hrt, rfl⟩ := hr
    have hlt : t.tid < u.reduceTaskState.length := by
      rw [hu.reduce_len, h.nReduce_eq, ← hs.reduce_len]
      exact getElem?_lt hrt
    have hget := List.getElem?_eq_getElem hlt
    refine ⟨h.not_map hs hphase, _, hget, ?_⟩
    rcases h.reduce_entry_cases hs ht hget with
      ⟨hold, _⟩ | ⟨m, rt', _, _, _, hrt', _, hnew⟩ | ⟨hmap, _⟩
    · rw [hrt] at hold
      rw [← Option.some.inj hold]
    · rw [hrt] at hrt'
      rw [hnew, Option.some.inj hrt']
    · exact absurd hmap hphase
  · exact hr.elim

theorem Replies.step (hr : Replies s) (hs : Counted OneEach s) (hm : Messages s) (ht : Tokens s)
    (hu : Counted OneEach u) (h : Step s l u) : Replies u where
  matched w t reply hmem := by
    rcases h.matched_cases hmem with hold | hans
    · exact (hr.matched w t reply hold).step hs hm ht hu h
    · exact (reqTask_reply hans).step hs hm ht hu h
  handout o ho := by
    rcases h.handout_cases ho with hold | ⟨w, t, reply, hmem, _, rfl⟩
    · exact (hr.handout o hold).step hs hm ht hu h
    · exact (hr.matched w t reply hmem).step hs hm ht hu h
  handout_phase o ho htype hphase := by
    have hpast : ∀ t reply, ReplyFor s t reply → t.taskType = .reduce → s.phase = .reduce := by
      intro t reply hreply htype
      unfold ReplyFor at hreply
      rw [htype] at hreply
      rcases h.phase_cases hs with heq | ⟨hmap, _⟩ | ⟨_, hdone⟩
      · rw [← heq, hphase]
      · exact absurd hmap hreply.1
      · rw [hdone] at hphase
        cases hphase
    rcases h.handout_cases ho with hold | ⟨w, t, reply, hmem, _, rfl⟩
    · exact hr.handout_phase o hold htype (hpast _ _ (hr.handout o hold) htype)
    · exact hpast _ _ (hr.matched w t reply hmem) htype

end DistributedLabs.Coordinator
