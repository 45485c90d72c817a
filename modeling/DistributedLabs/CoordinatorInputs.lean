import DistributedLabs.CoordinatorInvariant

/-!
The inputs of the reduce tasks. The files of a done map task are those of the
first completion for it that mapReduce received; at the phase switch each reduce
task gets its file of every map task, in order, and no later step changes this.
`Inv` collects the invariants of the coordinator and holds from set-up on.
-/
namespace DistributedLabs.Coordinator

open GoText Transition Tables

def CompleteTaskArgs.isMapOf (i : ℕ) (m : CompleteTaskArgs) : Bool :=
  m.type = .map ∧ m.tid = i

variable {ω : Type*} {s u : State ω} {l : Label ω}

structure Inputs (s : State ω) : Prop where
  in_hand : ∀ m, s.pc = .mapGot m → m ∈ s.received
  first : ∀ (i : ℕ) (mt : MapTaskState), s.mapTaskState[i]? = some mt → mt.done = true →
    ∃ m, s.received.find? (CompleteTaskArgs.isMapOf i) = some m ∧
      m.intermediateFiles = mt.intermediateFiles
  none_yet : ∀ (i : ℕ) (mt : MapTaskState), s.mapTaskState[i]? = some mt → mt.done = false →
    ∀ m ∈ s.received, m.isMapOf i = true → s.pc = .mapGot m
  listed : s.phase ≠ .map → ∀ (r : ℕ) (rt : ReduceTaskState), s.reduceTaskState[r]? = some rt →
    rt.intermediateFiles = s.mapTaskState.map fun mt => mt.fileFor r

structure Inv (s : State ω) : Prop where
  phases : Counted OneEach s
  messages : Messages s
  tokens : Tokens s
  replies : Replies s
  inputs : Inputs s

/-- Reduce tasks are handed out after the map loop only. -/
theorem Inv.not_reduce_in_map (hs : Inv s) {m : CompleteTaskArgs} (hgot : s.pc = .mapGot m) :
    m.type ≠ .reduce := by
  intro htype
  have hphase : s.phase = .map := hs.phases.phase_of_pc hgot rfl
  rcases hs.messages.map_got m hgot with ⟨hmap, _⟩ | ⟨_, o, ho, hreduce, _⟩
  · rw [hmap] at htype
    cases htype
  · have hfor := hs.replies.handout o ho
    unfold ReplyFor at hfor
    rw [hreduce] at hfor
    exact hfor.1 hphase

theorem enqueueMaps_eq {tid : ℕ} {files : List GoString} {queue q : List Task}
    (h : enqueueMaps tid files queue = some q) :
    q = queue ++ (List.range files.length).map fun i => ⟨tid + i, .map⟩ := by
  induction files generalizing tid queue with
  | nil =>
    cases h
    simp
  | cons file rest ih =>
    unfold enqueueMaps at h
    split at h
    · rw [ih h, List.length_cons, List.range_succ_eq_map, List.map_cons, List.map_map,
        List.append_assoc]
      simp [Function.comp_def, Nat.add_assoc, Nat.add_comm 1]
    · cases h

theorem enqueueMaps_length {tid : ℕ} {files : List GoString} {queue q : List Task}
    (hqueue : queue.length ≤ queueCap) (h : enqueueMaps tid files queue = some q) :
    q.length ≤ queueCap := by
  induction files generalizing tid queue with
  | nil =>
    cases h
    exact hqueue
  | cons file rest ih =>
    unfold enqueueMaps at h
    split at h
    · apply ih _ h
      rw [List.length_append, List.length_singleton]
      omega
    · cases h

theorem tokens_start {files : List GoString} {nReduce : ℕ}
    (h : makeCoordinator files nReduce = some s) (t : Task) :
    tokens s t = if t.taskType = .map ∧ t.tid < files.length then 1 else 0 := by
  obtain ⟨queue, hqueue, rfl⟩ := Option.map_eq_some_iff.mp h
  have hq := enqueueMaps_eq hqueue
  have hnodup : queue.Nodup := by
    rw [hq, List.nil_append]
    apply List.Nodup.map _ List.nodup_range
    intro i j hij
    simpa using hij
  have hmem : t ∈ queue ↔ t.taskType = .map ∧ t.tid < files.length := by
    obtain ⟨tid, taskType⟩ := t
    rw [hq]
    simp [eq_comm, and_comm]
  simp only [tokens, List.countP_nil, Nat.add_zero]
  split
  · exact List.count_eq_one_of_mem hnodup (hmem.mpr ‹_›)
  · exact List.count_eq_zero_of_not_mem (fun h => absurd (hmem.mp h) ‹_›)

theorem inv_start {files : List GoString} {nReduce : ℕ}
    (h : makeCoordinator files nReduce = some s) : Inv s := by
  have htokens := tokens_start h
  obtain ⟨queue, hqueue, rfl⟩ := Option.map_eq_some_iff.mp h
  refine ⟨?phases, ?messages, ?tokens, ?replies, ?inputs⟩
  case phases =>
    constructor <;> simp [Pc.phase, Pc.mapping, undoneMaps, Function.comp_def]
  case messages =>
    constructor <;> simp
  case tokens =>
    constructor
    · intro t
      rw [htokens]
      split <;> omega
    · intro t hpos
      rw [htokens] at hpos
      split at hpos
      · rename_i hmap
        simpa [Issued, hmap.1] using hmap.2
      · cases hpos
    · intro t hi _
      rw [htokens]
      unfold Issued at hi
      split at hi
      · exact if_pos ⟨‹_›, hi⟩
      · cases hi.2
      · exact hi.elim
    · simp
  case replies =>
    constructor <;> simp
  case inputs =>
    constructor <;> simp

variable [DecidableEq ω]

theorem Step.received_cases (h : Step s l u) :
    u.received = s.received ∨ ∃ m, u.received = s.received ++ [m] ∧
      ((s.pc = .mapLoop ∧ u.pc = .mapGot m) ∨ (s.pc = .reduceLoop ∧ u.pc = .reduceGot m)) := by
  cases h with
  | mapAccept m =>
    left
    unfold State.acceptMap
    split
    · split <;> rfl
    · rfl
  | reduceAccept m =>
    left
    unfold State.acceptReduce
    split
    · split <;> rfl
    · rfl
  | switch =>
    left
    unfold State.switch
    split <;> rfl
  | mapReceive m rest hpc => exact Or.inr ⟨m, rfl, Or.inl ⟨hpc, rfl⟩⟩
  | reduceReceive m rest hpc => exact Or.inr ⟨m, rfl, Or.inr ⟨hpc, rfl⟩⟩
  | _ => exact Or.inl rfl

theorem Step.in_hand_cases (h : Step s l u) {m : CompleteTaskArgs} (hgot : u.pc = .mapGot m) :
    s.pc = .mapGot m ∨ u.received = s.received ++ [m] := by
  rcases h.got_origin (Or.inl hgot) with hsame | ⟨_, hreceived⟩
  · exact Or.inl (hsame.symm.trans hgot)
  · exact Or.inr hreceived

/-- Once the map phase is over, the map tasks no longer change. -/
theorem Step.map_frozen (h : Step s l u) (hs : Counted OneEach s) (hm : Messages s) (ht : Tokens s)
    (hu : Counted OneEach u) (hphase : s.phase ≠ .map) : u.mapTaskState = s.mapTaskState := by
  have hlen : u.mapTaskState.length = s.mapTaskState.length := by
    rw [hu.map_len, h.inputFiles_eq, hs.map_len]
  apply List.ext_getElem?
  intro i
  by_cases hi : i < u.mapTaskState.length
  · have hget := List.getElem?_eq_getElem hi
    rcases h.map_entry_cases hs hm ht hget with hold | ⟨m, _, hpc, _⟩
    · rw [hget, hold]
    · exact absurd (hs.phase_of_pc hpc rfl) hphase
  · rw [List.getElem?_eq_none (by omega), List.getElem?_eq_none (by omega)]

/-- A completion in hand for an undone task stays in hand until it is accepted. -/
theorem Step.in_hand_kept (h : Step s l u) (hs : Counted OneEach s) (hm : Messages s)
    (ht : Tokens s) {i : ℕ} {m : CompleteTaskArgs} (hgot : s.pc = .mapGot m)
    (hof : m.isMapOf i = true) {mt' : MapTaskState} (hget : u.mapTaskState[i]? = some mt')
    (hundone : mt'.done = false) : u.pc = .mapGot m := by
  obtain ⟨htype, htid⟩ := of_decide_eq_true hof
  obtain ⟨hrange, hshape⟩ := (hm.map_got m hgot).of_map htype
  by_cases hl : l = .mapReduce
  · subst hl
    have hlt : m.tid.toNat < s.mapTaskState.length := by
      rw [hs.map_len]
      omega
    cases h with
    | mapSkip m' hpc hskip =>
      rw [hgot] at hpc
      cases hpc
      rcases hskip with hne | hout
      · exact absurd htype hne
      · omega
    | mapBad m' hpc htype' hlen =>
      rw [hgot] at hpc
      cases hpc
      exact absurd hshape.length hlen
    | mapAccept m' hpc =>
      rw [hgot] at hpc
      cases hpc
      have hi : m.tid.toNat = i := by omega
      obtain ⟨mt, hmt, ⟨hdone, heq⟩ | ⟨_, heq⟩⟩ := acceptMap_cases s m hlt
      · rw [heq, ← hi] at hget
        change s.mapTaskState[m.tid.toNat]? = some mt' at hget
        rw [hmt] at hget
        cases hget
        rw [hdone] at hundone
        cases hundone
      · rw [heq, hi] at hget
        change (s.mapTaskState.set i _)[i]? = some mt' at hget
        rw [List.getElem?_set_self (hi ▸ hlt)] at hget
        cases hget
        cases hundone
    | mapReceive _ _ hpc | spawnStart hpc | mapRequeue _ hpc | spawnSend _ hpc | switch _ hpc
    | reduceReceive _ _ hpc | finish hpc | reduceSkip _ hpc | reduceAccept _ hpc =>
      rw [hgot] at hpc
      cases hpc
  · rw [(h.tables hl (ht.in_table hs)).2.1]
    exact hgot

namespace Inputs

theorem first_step (hi : Inputs s) (hs : Counted OneEach s) (hm : Messages s) (ht : Tokens s)
    (h : Step s l u) (i : ℕ) (mt : MapTaskState) (hget : u.mapTaskState[i]? = some mt)
    (hdone : mt.done = true) :
    ∃ m, u.received.find? (CompleteTaskArgs.isMapOf i) = some m ∧
      m.intermediateFiles = mt.intermediateFiles := by
  have hgrow : ∀ m, s.received.find? (CompleteTaskArgs.isMapOf i) = some m →
      u.received.find? (CompleteTaskArgs.isMapOf i) = some m := by
    intro m hfind
    rcases h.received_cases with heq | ⟨m', heq, _⟩
    · rw [heq]
      exact hfind
    · rw [heq, List.find?_append, hfind]
      rfl
  rcases h.map_entry_cases hs hm ht hget with
    hold | ⟨m, mt₀, hpc, htype, htid, hmt₀, hundone, rfl⟩
  · obtain ⟨m, hfind, hfiles⟩ := hi.first i mt hold hdone
    exact ⟨m, hgrow m hfind, hfiles⟩
  · have hof : m.isMapOf i = true := decide_eq_true ⟨htype, htid⟩
    cases hfind : s.received.find? (CompleteTaskArgs.isMapOf i) with
    | none => exact absurd hof (List.find?_eq_none.mp hfind m (hi.in_hand m hpc))
    | some m' =>
      have hpc' := hi.none_yet i mt₀ hmt₀ hundone m' (List.mem_of_find?_eq_some hfind)
        (List.find?_some hfind)
      rw [hpc] at hpc'
      cases hpc'
      exact ⟨m, hgrow m hfind, rfl⟩

theorem none_yet_step (hi : Inputs s) (hs : Counted OneEach s) (hm : Messages s) (ht : Tokens s)
    (h : Step s l u) (i : ℕ) (mt : MapTaskState) (hget : u.mapTaskState[i]? = some mt)
    (hundone : mt.done = false) (m : CompleteTaskArgs) (hmem : m ∈ u.received)
    (hof : m.isMapOf i = true) : u.pc = .mapGot m := by
  have hold : s.mapTaskState[i]? = some mt := by
    rcases h.map_entry_cases hs hm ht hget with hold | ⟨_, _, _, _, _, _, _, rfl⟩
    · exact hold
    · cases hundone
  have hkept : m ∈ s.received → u.pc = .mapGot m := fun hmem =>
    h.in_hand_kept hs hm ht (hi.none_yet i mt hold hundone m hmem hof) hof hget hundone
  rcases h.received_cases with heq | ⟨m', heq, hcase⟩
  · exact hkept (heq ▸ hmem)
  · rw [heq] at hmem
    rcases List.mem_append.mp hmem with hmem | hnew
    · exact hkept hmem
    · rw [List.mem_singleton.mp hnew]
      rcases hcase with ⟨_, hpc⟩ | ⟨hpc, _⟩
      · exact hpc
      · have hall := hs.map_done (by rw [hpc]; rfl) mt (List.mem_of_getElem? hold)
        rw [hundone] at hall
        cases hall

theorem listed_step (hi : Inputs s) (hs : Counted OneEach s) (hm : Messages s) (ht : Tokens s)
    (hu : Counted OneEach u) (h : Step s l u) (hphase : u.phase ≠ .map) (r : ℕ)
    (rt : ReduceTaskState) (hget : u.reduceTaskState[r]? = some rt) :
    rt.intermediateFiles = u.mapTaskState.map fun mt => mt.fileFor r := by
  have hpast : s.phase ≠ .map → u.mapTaskState = s.mapTaskState := h.map_frozen hs hm ht hu
  rcases h.reduce_entry_cases hs ht hget with
    ⟨hold, hmap⟩ | ⟨m, rt₀, hpc, _, _, hrt₀, _, rfl⟩ | ⟨_, _, _, rfl⟩
  · have hbefore : s.phase ≠ .map := fun heq => hphase (hmap heq)
    rw [hpast hbefore]
    exact hi.listed hbefore r rt hold
  · have hbefore : s.phase ≠ .map := by
      rw [hs.phase_of_pc hpc rfl]
      exact nofun
    rw [hpast hbefore]
    exact hi.listed hbefore r rt₀ hrt₀
  · rfl

theorem step (hi : Inputs s) (hs : Counted OneEach s) (hm : Messages s) (ht : Tokens s)
    (hu : Counted OneEach u) (h : Step s l u) : Inputs u where
  in_hand m hgot := by
    rcases h.in_hand_cases hgot with hold | heq
    · have hmem := hi.in_hand m hold
      rcases h.received_cases with heq | ⟨m', heq, _⟩
      · exact heq ▸ hmem
      · rw [heq]
        exact List.mem_append_left _ hmem
    · rw [heq]
      exact List.mem_append_right _ (List.mem_singleton.mpr rfl)
  first := hi.first_step hs hm ht h
  none_yet := hi.none_yet_step hs hm ht h
  listed := hi.listed_step hs hm ht hu h

end Inputs

theorem Inv.step (hs : Inv s) (h : Step s l u)
    (hsent : ∀ m, l = .complete m → Proper s m.deepCopy) : Inv u := by
  have hu : Counted OneEach u := hs.phases.step_oneEach hs.messages hs.tokens h
  exact
    { phases := hu
      messages := hs.messages.step h hsent
      tokens := hs.tokens.step hs.phases hs.messages hu h
      replies := hs.replies.step hs.phases hs.messages hs.tokens hu h
      inputs := hs.inputs.step hs.phases hs.messages hs.tokens hu h }

end DistributedLabs.Coordinator
