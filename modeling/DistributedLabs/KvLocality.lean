import DistributedLabs.Grouping
import DistributedLabs.KvModel
import DistributedLabs.Locality
import Mathlib.Data.String.Basic

/-!
The checks look at each key on its own: KvModel.Partition splits a history by key. That
is as strong as a check of the whole history against a store in which every operation
steps the component of its key.
-/
namespace DistributedLabs.KvModel

open Grouping Locality

/-- A completed operation: its return is stamped no earlier than its call. -/
structure Operation where
  clientId : ℤ
  input : KvInput
  call : ℤ
  output : KvOutput
  ret : ℤ
  call_le_ret : call ≤ ret

def Operation.key (a : Operation) : String := a.input.key

/-- What Step is given of an operation. -/
def Operation.step (a : Operation) : KvInput × KvOutput := (a.input, a.output)

/-- The map of the operations by key, in the order of the history. -/
def byKey (history : List Operation) : Groups String Operation :=
  group ∅ (history.map fun v => ⟨v.key, v⟩)

def partition (it : Iteration String Operation) (history : List Operation) :
    List (List Operation) :=
  ((it.order 0 (byKey history)).insertionSort (· ≤ ·)).map fun k =>
    ((byKey history).lookup k).getD []

def Legal (order : List Operation) : Prop :=
  (acceptedAll init (order.map Operation.step)).isSome

/-- The store of all keys: each operation steps the component of its own key. -/
def acceptedProduct (st : String → KvState) : List Operation → Option (String → KvState)
  | [] => some st
  | a :: rest => (accepted (st a.key) a.step).bind fun st' =>
      acceptedProduct (Function.update st a.key st') rest

def ProductLegal (order : List Operation) : Prop :=
  (acceptedProduct (fun _ => init) order).isSome

theorem valuesOf_history (k : String) (history : List Operation) :
    valuesOf k (history.map fun v => (⟨v.key, v⟩ : Entry String Operation)) =
      history.filter fun v => v.key = k := by
  simp [valuesOf, List.filter_map, Function.comp_def]

/-- The classes are the operations of each key that occurs, in the order of the history. -/
theorem mem_partition (it : Iteration String Operation) (history : List Operation)
    (cls : List Operation) :
    cls ∈ partition it history ↔
      ∃ k, (∃ a ∈ history, a.key = k) ∧ cls = history.filter fun a => a.key = k := by
  have hgrouped := grouped_group (history.map fun v => (⟨v.key, v⟩ : Entry String Operation))
  have hkey : ∀ k, k ∈ it.order 0 (byKey history) ↔ ∃ a ∈ history, a.key = k := by
    intro k
    rw [(it.ranges 0 (byKey history)).mem_iff, byKey, hgrouped.mem_iff]
    simp
  have hclass : ∀ k, ((byKey history).lookup k).getD [] = history.filter fun a => a.key = k := by
    intro k
    rw [byKey, hgrouped.lookup_getD, valuesOf_history]
  simp only [partition, List.mem_map, List.mem_insertionSort, hkey, hclass]
  simp only [eq_comm]

theorem acceptedProduct_isSome (st : String → KvState) (order : List Operation) :
    (acceptedProduct st order).isSome ↔
      ∀ k, (acceptedAll (st k) ((order.filter fun a => a.key = k).map Operation.step)).isSome := by
  induction order generalizing st with
  | nil => simp [acceptedProduct, acceptedAll]
  | cons a rest ih =>
    rw [acceptedProduct]
    cases hstep : accepted (st a.key) a.step with
    | none =>
      have hbad : ¬ ∀ k, (acceptedAll (st k)
          (((a :: rest).filter fun b => b.key = k).map Operation.step)).isSome := by
        intro h
        have hown := h a.key
        simp [acceptedAll, hstep] at hown
      simpa using hbad
    | some st' =>
      rw [Option.bind_some, ih]
      apply forall_congr'
      intro k
      by_cases hk : a.key = k
      · subst hk
        simp [acceptedAll, hstep]
      · simp [hk, Ne.symm hk]

theorem legal_nil : Legal [] := rfl

theorem productLegal_iff (order : List Operation) :
    ProductLegal order ↔ ∀ k, Legal (order.filter fun a => a.key = k) :=
  acceptedProduct_isSome (fun _ => init) order

/-- A history is linearizable against the store of all keys if and only if each class of
the partition is linearizable against the model of one key. -/
theorem linearizable_iff_partition (it : Iteration String Operation) (history : List Operation) :
    Linearizable Operation.call Operation.ret ProductLegal history ↔
      ∀ cls ∈ partition it history, Linearizable Operation.call Operation.ret Legal cls := by
  have hlocal : Linearizable Operation.call Operation.ret
      (fun order => ∀ k, Legal (order.filter fun a => a.key = k)) history ↔
        ∀ k, Linearizable Operation.call Operation.ret Legal
          (history.filter fun a => a.key = k) :=
    linearizable_iff_classes Operation.call Operation.ret Operation.key (fun _ => legal_nil)
      fun a _ => a.call_le_ret
  have hproduct : ProductLegal = fun order => ∀ k, Legal (order.filter fun a => a.key = k) :=
    funext fun order => propext (productLegal_iff order)
  rw [hproduct, hlocal]
  constructor
  · intro h cls hcls
    obtain ⟨k, _, rfl⟩ := (mem_partition it history cls).mp hcls
    exact h k
  · intro h k
    by_cases hk : ∃ a ∈ history, a.key = k
    · exact h _ ((mem_partition it history _).mpr ⟨k, hk, rfl⟩)
    · have hnone : (history.filter fun a => a.key = k) = [] := by
        rw [List.filter_eq_nil_iff]
        intro a ha
        simpa using fun heq => hk ⟨a, ha, heq⟩
      rw [hnone]
      exact ⟨[], List.Perm.nil, List.Pairwise.nil, legal_nil⟩

end DistributedLabs.KvModel
