import Mathlib.Data.List.Induction
import Mathlib.Data.Option.Basic

/-!
Labelled transition systems given by a partial step function. A label carries
every nondeterministic choice of its step, so concrete runs are evaluated by
`run` and safety is proved by one induction over the states a run reaches.
-/
namespace DistributedLabs.Transition

structure System (σ α : Type*) where
  start : σ → Prop
  step : σ → α → Option σ

variable {σ τ α β : Type*}

namespace System

inductive Reaches (S : System σ α) (s : σ) : σ → Prop
  | refl : Reaches S s s
  | tail {t u : σ} (a : α) : Reaches S s t → S.step t a = some u → Reaches S s u

def Reachable (S : System σ α) (t : σ) : Prop :=
  ∃ s, S.start s ∧ S.Reaches s t

def run (S : System σ α) : σ → List α → Option σ
  | s, [] => some s
  | s, a :: rest => (S.step s a).bind fun t => S.run t rest

theorem Reaches.head {S : System σ α} {s t u : σ} {a : α}
    (hstep : S.step s a = some t) (h : S.Reaches t u) : S.Reaches s u := by
  induction h with
  | refl => exact Reaches.tail a Reaches.refl hstep
  | tail b _ hb ih => exact Reaches.tail b ih hb

theorem Reaches.trans {S : System σ α} {s t u : σ}
    (hst : S.Reaches s t) (htu : S.Reaches t u) : S.Reaches s u := by
  induction htu with
  | refl => exact hst
  | tail a _ ha ih => exact Reaches.tail a ih ha

theorem reaches_of_run (S : System σ α) (labels : List α) {s t : σ}
    (h : S.run s labels = some t) : S.Reaches s t := by
  induction labels generalizing s with
  | nil =>
    cases h
    exact Reaches.refl
  | cons a rest ih =>
    obtain ⟨u, hu, hrest⟩ := Option.bind_eq_some_iff.mp h
    exact Reaches.head hu (ih hrest)

theorem run_concat (S : System σ α) (s : σ) (labels : List α) (a : α) :
    S.run s (labels ++ [a]) = (S.run s labels).bind fun t => S.step t a := by
  induction labels generalizing s with
  | nil =>
    cases h : S.step s a <;> simp [run, h]
  | cons b labels ih =>
    rw [List.cons_append]
    cases h : S.step s b with
    | none => simp [run, h]
    | some t => simpa [run, h] using ih t

/-- A property of a run and the state it leads to, kept as the run gets longer. -/
theorem run_invariant {S : System σ α} {s : σ} {I : List α → σ → Prop} (hnil : I [] s)
    (hstep : ∀ labels t a u, S.run s labels = some t → I labels t → S.step t a = some u →
      I (labels ++ [a]) u)
    {labels : List α} {t : σ} (h : S.run s labels = some t) : I labels t := by
  induction labels using List.reverseRecOn generalizing t with
  | nil =>
    cases h
    exact hnil
  | append_singleton labels a ih =>
    rw [run_concat] at h
    obtain ⟨u, hu, hlast⟩ := Option.bind_eq_some_iff.mp h
    exact hstep labels u a t hu (ih hu) hlast

theorem Reachable.of_run {S : System σ α} (labels : List α) {s t : σ}
    (hs : S.start s) (h : S.run s labels = some t) : S.Reachable t :=
  ⟨s, hs, S.reaches_of_run labels h⟩

/-- A concrete run, checked by evaluation at its last state. -/
theorem Reachable.of_run_check {S : System σ α} (labels : List α) {s : σ} {p : σ → Bool}
    (hs : S.start s) (h : (S.run s labels).any p = true) :
    ∃ t, S.Reachable t ∧ p t = true := by
  obtain ⟨t, ht, hp⟩ := (Option.any_eq_true _ _).mp h
  exact ⟨t, Reachable.of_run labels hs ht, hp⟩

theorem Reachable.step {S : System σ α} {s t : σ} {a : α}
    (h : S.Reachable s) (hstep : S.step s a = some t) : S.Reachable t := by
  obtain ⟨s₀, hs₀, hreach⟩ := h
  exact ⟨s₀, hs₀, Reaches.tail a hreach hstep⟩

/-- A weight that every step of one kind lowers bounds the runs of that kind. -/
theorem Reachable.length_run_le {S : System σ α} {P : α → Prop} {w : σ → ℕ}
    (hstep : ∀ s a t, S.Reachable s → P a → S.step s a = some t → w t < w s)
    (labels : List α) (hlabels : ∀ a ∈ labels, P a) {s t : σ} (hs : S.Reachable s)
    (h : S.run s labels = some t) : labels.length + w t ≤ w s := by
  induction labels generalizing s with
  | nil =>
    cases h
    simp
  | cons a rest ih =>
    obtain ⟨u, hu, hrest⟩ := Option.bind_eq_some_iff.mp h
    have hlt := hstep s a u hs (hlabels a List.mem_cons_self) hu
    have hle := ih (fun b hb => hlabels b (List.mem_cons_of_mem a hb)) (hs.step hu) hrest
    rw [List.length_cons]
    omega

theorem Reachable.reaches {S : System σ α} {s t : σ}
    (h : S.Reachable s) (hreach : S.Reaches s t) : S.Reachable t := by
  obtain ⟨s₀, hs₀, h₀⟩ := h
  exact ⟨s₀, hs₀, h₀.trans hreach⟩

/-- A property of the start states that every step keeps, from a state
already known to be reachable, holds in every reachable state. -/
theorem Reachable.invariant {S : System σ α} {I : σ → Prop}
    (hstart : ∀ s, S.start s → I s)
    (hstep : ∀ s a t, S.Reachable s → I s → S.step s a = some t → I t)
    {t : σ} (h : S.Reachable t) : I t := by
  obtain ⟨s, hs, hreach⟩ := h
  induction hreach with
  | refl => exact hstart s hs
  | @tail t u a hst hu ih => exact hstep t a u ⟨s, hs, hst⟩ ih hu

/-- The same rule when the invariant is only claimed inside a bound that no
step can enter from outside, such as a limit on a counter that never falls. -/
theorem Reachable.invariant_of_bound {S : System σ α} {I B : σ → Prop}
    (hback : ∀ s a t, S.step s a = some t → B t → B s)
    (hstart : ∀ s, S.start s → I s)
    (hstep : ∀ s a t, S.Reachable s → B t → I s → S.step s a = some t → I t)
    {t : σ} (h : S.Reachable t) (hb : B t) : I t := by
  have key : B t → I t := by
    refine Reachable.invariant (I := fun u => B u → I u) ?_ ?_ h
    · intro s hs _
      exact hstart s hs
    · intro s a u hr ih hu hbu
      exact hstep s a u hr hbu (ih (hback s a u hu hbu)) hu
  exact key hb

/-- A component's view of a larger system: each step of the whole is a step
of the component or leaves it alone. -/
theorem Reaches.map {S : System σ α} {T : System τ β} (f : σ → τ)
    (hstep : ∀ s a t, S.step s a = some t →
      f t = f s ∨ ∃ b, T.step (f s) b = some (f t))
    {s t : σ} (h : S.Reaches s t) : T.Reaches (f s) (f t) := by
  induction h with
  | refl => exact Reaches.refl
  | @tail t u a _ hu ih =>
    rcases hstep t a u hu with heq | ⟨b, hb⟩
    · rw [heq]
      exact ih
    · exact Reaches.tail b ih hb

theorem Reachable.map {S : System σ α} {T : System τ β} (f : σ → τ)
    (hstart : ∀ s, S.start s → T.start (f s))
    (hstep : ∀ s a t, S.step s a = some t →
      f t = f s ∨ ∃ b, T.step (f s) b = some (f t))
    {t : σ} (h : S.Reachable t) : T.Reachable (f t) := by
  obtain ⟨s, hs, hst⟩ := h
  exact ⟨f s, hstart s hs, hst.map f hstep⟩

/-- Runs all of whose steps meet a condition on the label and the state before it. -/
inductive ReachesWithin (S : System σ α) (ok : σ → α → Prop) (s : σ) : σ → Prop
  | refl : ReachesWithin S ok s s
  | tail {t u : σ} (a : α) : ReachesWithin S ok s t → ok t a → S.step t a = some u →
      ReachesWithin S ok s u

def ReachableWithin (S : System σ α) (ok : σ → α → Prop) (t : σ) : Prop :=
  ∃ s, S.start s ∧ S.ReachesWithin ok s t

theorem ReachesWithin.reaches {S : System σ α} {ok : σ → α → Prop} {s t : σ}
    (h : S.ReachesWithin ok s t) : S.Reaches s t := by
  induction h with
  | refl => exact Reaches.refl
  | tail a _ _ hstep ih => exact Reaches.tail a ih hstep

theorem ReachesWithin.single {S : System σ α} {ok : σ → α → Prop} {s t : σ} {a : α}
    (hok : ok s a) (h : S.step s a = some t) : S.ReachesWithin ok s t :=
  ReachesWithin.tail a ReachesWithin.refl hok h

theorem ReachesWithin.trans {S : System σ α} {ok : σ → α → Prop} {s t u : σ}
    (hst : S.ReachesWithin ok s t) (htu : S.ReachesWithin ok t u) : S.ReachesWithin ok s u := by
  induction htu with
  | refl => exact hst
  | tail a _ hok hstep ih => exact ReachesWithin.tail a ih hok hstep

/-- What can be brought about from wherever something else can be brought about. -/
theorem ReachesWithin.chain {S : System σ α} {ok : σ → α → Prop} {s : σ} {Q R : σ → Prop}
    (h : ∃ t, S.ReachesWithin ok s t ∧ Q t)
    (hnext : ∀ t, Q t → ∃ u, S.ReachesWithin ok t u ∧ R u) :
    ∃ u, S.ReachesWithin ok s u ∧ R u := by
  obtain ⟨t, hst, hQ⟩ := h
  obtain ⟨u, htu, hR⟩ := hnext t hQ
  exact ⟨u, hst.trans htu, hR⟩

theorem ReachesWithin.mono {S : System σ α} {ok ok' : σ → α → Prop}
    (hle : ∀ s a, ok s a → ok' s a) {s t : σ} (h : S.ReachesWithin ok s t) :
    S.ReachesWithin ok' s t := by
  induction h with
  | refl => exact ReachesWithin.refl
  | @tail t u a _ hok hstep ih => exact ReachesWithin.tail a ih (hle t a hok) hstep

theorem ReachableWithin.reachable {S : System σ α} {ok : σ → α → Prop} {t : σ}
    (h : S.ReachableWithin ok t) : S.Reachable t := by
  obtain ⟨s, hs, hreach⟩ := h
  exact ⟨s, hs, hreach.reaches⟩

theorem ReachableWithin.invariant {S : System σ α} {ok : σ → α → Prop} {I : σ → Prop}
    (hstart : ∀ s, S.start s → I s)
    (hstep : ∀ s a t, S.ReachableWithin ok s → I s → ok s a → S.step s a = some t → I t)
    {t : σ} (h : S.ReachableWithin ok t) : I t := by
  obtain ⟨s, hs, hreach⟩ := h
  induction hreach with
  | refl => exact hstart s hs
  | @tail t u a hst hok hu ih => exact hstep t a u ⟨s, hs, hst⟩ ih hok hu

/-- The system that refuses the steps outside the condition. -/
def guard (S : System σ α) (ok : σ → α → Prop) [∀ s a, Decidable (ok s a)] : System σ α where
  start := S.start
  step s a := if ok s a then S.step s a else none

theorem Reaches.within {S : System σ α} {ok : σ → α → Prop} [∀ s a, Decidable (ok s a)]
    {s t : σ} (h : (S.guard ok).Reaches s t) : S.ReachesWithin ok s t := by
  induction h with
  | refl => exact ReachesWithin.refl
  | tail a _ hstep ih =>
    simp only [guard] at hstep
    split at hstep
    · exact ReachesWithin.tail a ih ‹_› hstep
    · cases hstep

end System

end DistributedLabs.Transition
