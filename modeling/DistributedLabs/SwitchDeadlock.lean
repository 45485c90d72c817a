import DistributedLabs.MapReduceSafety
import Mathlib.Data.Fintype.Card

/-!
The phase switch sends the reduce tasks to the task queue under the write lock, and
a ReqTask handler needs the lock as soon as it has taken a task from the queue. When
the queue is full and every worker's handler waits for the lock, nothing moves any
more. Each task has one token, so this takes more tasks than the queue has room for
and the workers have handlers; when there are that many, the deadlock is reached.
-/
namespace DistributedLabs.MapReduce

open GoText Files Transition Tables MRTask Coordinator MRWorker

variable {ω : Type*}

/-- mapReduce is blocked in a send with the lock held, and every worker that still
runs waits for an answer from a handler that needs the lock. -/
structure Deadlocked (s : State ω) : Prop where
  blocked : ∃ tid, s.coord.pc = .spawn tid ∧ tid < s.coord.nReduce
  full : queueCap ≤ s.coord.taskQueue.length
  popped : ∀ w, s.workers w ≠ .exited → ∃ t, ⟨w, .popped t⟩ ∈ s.coord.handlers
  none_waits : ∀ w, ⟨w, .waiting⟩ ∉ s.coord.handlers

/-- The workers that have not crashed. -/
def running [Fintype ω] (s : State ω) : Finset ω :=
  Finset.univ.filter fun w => s.workers w ≠ .exited

/-- The tasks that have been queued by the time reduce task `tid` is. -/
def queuedTasks (nMap tid : ℕ) : Finset Task :=
  (Finset.range nMap).image (fun i => ⟨i, .map⟩) ∪ (Finset.range tid).image fun r => ⟨r, .reduce⟩

theorem queuedTasks_card (nMap tid : ℕ) : (queuedTasks nMap tid).card ≤ nMap + tid := by
  have hmap := Finset.card_image_le (s := Finset.range nMap) (f := fun i => (⟨i, .map⟩ : Task))
  have hreduce := Finset.card_image_le (s := Finset.range tid)
    (f := fun r => (⟨r, .reduce⟩ : Task))
  have hunion := Finset.card_union_le
    ((Finset.range nMap).image fun i => (⟨i, .map⟩ : Task))
    ((Finset.range tid).image fun r => (⟨r, .reduce⟩ : Task))
  rw [Finset.card_range] at hmap hreduce
  unfold queuedTasks
  omega

theorem mem_queuedTasks {c : Coordinator.State ω} {t : Task} {tid : ℕ} (hpc : c.pc = .spawn tid)
    (h : Issued c t) : t ∈ queuedTasks c.inputFiles.length tid := by
  obtain ⟨i, taskType⟩ := t
  unfold queuedTasks
  rw [Finset.mem_union]
  cases taskType with
  | map =>
    left
    exact Finset.mem_image_of_mem _ (Finset.mem_range.mpr h)
  | reduce =>
    right
    have hlt := h.2
    rw [hpc] at hlt
    exact Finset.mem_image_of_mem _ (Finset.mem_range.mpr (of_decide_eq_true hlt))
  | done => exact h.elim

variable [Fintype ω] {s : State ω}

/-- The tasks of a deadlock: those in the queue and one for each running worker. -/
theorem Deadlocked.card_le (hi : Inv s.coord) (hd : Deadlocked s) {tid : ℕ}
    (hpc : s.coord.pc = .spawn tid) :
    queueCap + (running s).card ≤ s.coord.inputFiles.length + tid := by
  have hheld : ∀ w ∈ running s, ∃ t, ⟨w, .popped t⟩ ∈ s.coord.handlers := fun w hw =>
    hd.popped w (Finset.mem_filter.mp hw).2
  have : Nonempty Task := ⟨⟨0, .map⟩⟩
  choose! task htask using hheld
  have hinj : Set.InjOn task (running s) := by
    intro w hw w' hw' heq
    have h := htask w hw
    rw [heq] at h
    exact hi.tokens.popped_inj h (htask w' hw')
  have hdisj : Disjoint s.coord.taskQueue.toFinset ((running s).image task) := by
    rw [Finset.disjoint_right]
    intro t ht
    obtain ⟨w, hw, rfl⟩ := Finset.mem_image.mp ht
    rw [List.mem_toFinset]
    exact hi.tokens.popped_notMem (htask w hw)
  have hsub : s.coord.taskQueue.toFinset ∪ (running s).image task ⊆
      queuedTasks s.coord.inputFiles.length tid := by
    intro t ht
    apply mem_queuedTasks hpc
    apply hi.tokens.issued
    rcases Finset.mem_union.mp ht with hq | hw
    · have hqueue := List.count_pos_iff.mpr (List.mem_toFinset.mp hq)
      unfold tokens
      omega
    · obtain ⟨w, hrun, rfl⟩ := Finset.mem_image.mp hw
      exact tokens_pos_of_handler (htask w hrun) (by simp)
  have hcard := Finset.card_le_card hsub
  rw [Finset.card_union_of_disjoint hdisj, Finset.card_image_of_injOn hinj,
    List.toFinset_card_of_nodup hi.tokens.queue_nodup] at hcard
  have hfull := hd.full
  have hbound := queuedTasks_card s.coord.inputFiles.length tid
  omega

end DistributedLabs.MapReduce
