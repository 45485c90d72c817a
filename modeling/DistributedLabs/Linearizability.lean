import Mathlib.Data.List.Sort
import Mathlib.Order.Basic

/-!
Histories of operations with a call and a return time, and sequential
specifications that say which states may follow an operation with a given
result. A history is linearizable if some order of its operations respects
real-time precedence and is accepted by the specification. The rule for proving
it picks one event of a run as the point of each operation.
-/
namespace DistributedLabs.Linearizability

structure Operation (I O : Type*) where
  input : I
  output : O
  call : ℕ
  ret : ℕ
  deriving DecidableEq, Repr

/-- The states that may follow an operation with the given input and output;
none if the output is impossible. -/
structure Spec (σ I O : Type*) where
  init : σ
  next : σ → I → O → List σ

variable {σ I O E : Type*}

def Precedes (a b : Operation I O) : Prop := a.ret < b.call

instance (a b : Operation I O) : Decidable (Precedes a b) :=
  inferInstanceAs (Decidable (_ < _))

def Spec.Accepts (M : Spec σ I O) : σ → List (Operation I O) → Prop
  | _, [] => True
  | s, a :: rest => ∃ t ∈ M.next s a.input a.output, M.Accepts t rest

def Spec.acceptsDecidable (M : Spec σ I O) :
    (s : σ) → (ops : List (Operation I O)) → Decidable (M.Accepts s ops)
  | _, [] => inferInstanceAs (Decidable True)
  | s, a :: rest =>
    have : ∀ t, Decidable (M.Accepts t rest) := fun t => M.acceptsDecidable t rest
    inferInstanceAs (Decidable (∃ t ∈ M.next s a.input a.output, M.Accepts t rest))

instance (M : Spec σ I O) (s : σ) (ops : List (Operation I O)) :
    Decidable (M.Accepts s ops) := M.acceptsDecidable s ops

/-- No operation stands before one that precedes it in real time. -/
def RealTime (order : List (Operation I O)) : Prop :=
  order.Pairwise fun a b => ¬ Precedes b a

def Linearizable (M : Spec σ I O) (ops : List (Operation I O)) : Prop :=
  ∃ order, order.Perm ops ∧ RealTime order ∧ M.Accepts M.init order

/-- Any two operations of a history without overlaps are ordered in time. -/
theorem precedes_or_of_sequential {ops : List (Operation I O)} (hseq : ops.Pairwise Precedes)
    {a b : Operation I O} (ha : a ∈ ops) (hb : b ∈ ops) (hne : a ≠ b) :
    Precedes a b ∨ Precedes b a := by
  obtain ⟨i, hi, rfl⟩ := List.mem_iff_getElem.mp ha
  obtain ⟨j, hj, rfl⟩ := List.mem_iff_getElem.mp hb
  have hget := List.pairwise_iff_getElem.mp hseq
  rcases Nat.lt_trichotomy i j with hlt | rfl | hgt
  · exact Or.inl (hget i j hi hj hlt)
  · exact absurd rfl hne
  · exact Or.inr (hget j i hj hi hgt)

/-- Operations that do not overlap have only one order. -/
theorem accepts_of_sequential {M : Spec σ I O} {ops : List (Operation I O)}
    (hwf : ∀ a ∈ ops, a.call ≤ a.ret) (hseq : ops.Pairwise Precedes)
    (h : Linearizable M ops) : M.Accepts M.init ops := by
  obtain ⟨order, hperm, hreal, hacc⟩ := h
  have hsorted : RealTime ops := by
    refine hseq.imp_of_mem ?_
    intro a b ha hb hab hba
    have h1 := hwf a ha
    have h2 := hwf b hb
    unfold Precedes at hab hba
    omega
  have heq : order = ops := by
    refine List.Perm.eq_of_pairwise ?_ hreal hsorted hperm
    intro a b ha hb hab hba
    by_contra hne
    rcases precedes_or_of_sequential hseq (hperm.mem_iff.mp ha) hb hne with h | h
    · exact hba h
    · exact hab h
  rw [← heq]
  exact hacc

section Points

variable {M : Spec σ I O} {point : E → Option (Operation I O)} {after : List E → σ}

/-- The state of a run after some events: events that are no operation's point
leave it alone, and a point moves it as the specification allows. -/
structure Tracks (M : Spec σ I O) (point : E → Option (Operation I O)) (after : List E → σ)
    (events : List E) : Prop where
  start : after [] = M.init
  skip : ∀ pre e suf, events = pre ++ e :: suf → point e = none →
    after (pre ++ [e]) = after pre
  move : ∀ pre e suf a, events = pre ++ e :: suf → point e = some a →
    after (pre ++ [e]) ∈ M.next (after pre) a.input a.output

theorem Tracks.accepts {events : List E} (h : Tracks M point after events) :
    M.Accepts M.init (events.filterMap point) := by
  -- by induction on the events still to come, from the state after those before
  have key : ∀ suf pre, events = pre ++ suf →
      M.Accepts (after pre) (suf.filterMap point) := by
    intro suf
    induction suf with
    | nil =>
      intro pre _
      exact trivial
    | cons e suf ih =>
      intro pre hsplit
      have hrest := ih (pre ++ [e]) (by simp [hsplit])
      cases hpoint : point e with
      | none =>
        rw [List.filterMap_cons_none hpoint, ← h.skip pre e suf hsplit hpoint]
        exact hrest
      | some a =>
        rw [List.filterMap_cons_some hpoint]
        exact ⟨_, h.move pre e suf a hsplit hpoint, hrest⟩
  rw [← h.start]
  exact key events [] rfl

/-- Points inside their operations put the operations in an order that respects
real time. -/
theorem realTime_of_points {time : E → ℕ} {events : List E}
    (hsorted : events.Pairwise fun e e' => time e < time e')
    (hinside : ∀ e ∈ events, ∀ a, point e = some a → a.call ≤ time e ∧ time e ≤ a.ret) :
    RealTime (events.filterMap point) := by
  refine List.Pairwise.filterMap point ?_ (hsorted.imp_of_mem (S := fun e e' =>
    time e < time e' ∧ e ∈ events ∧ e' ∈ events) fun he he' hlt => ⟨hlt, he, he'⟩)
  rintro e e' ⟨hlt, he, he'⟩ a ha b hb hba
  have h1 := hinside e he a ha
  have h2 := hinside e' he' b hb
  unfold Precedes at hba
  omega

theorem linearizable_of_points (time : E → ℕ) {events : List E} {ops : List (Operation I O)}
    (hperm : (events.filterMap point).Perm ops)
    (hsorted : events.Pairwise fun e e' => time e < time e')
    (hinside : ∀ e ∈ events, ∀ a, point e = some a → a.call ≤ time e ∧ time e ≤ a.ret)
    (htracks : Tracks M point after events) : Linearizable M ops :=
  ⟨events.filterMap point, hperm, realTime_of_points hsorted hinside, htracks.accepts⟩

end Points

end DistributedLabs.Linearizability
