import DistributedLabs.ServerGrp

/-!
Partition splits a server group in two. Each of its loops takes the servers of
one list off the ends to the other list and connects them among themselves, so
that afterwards the end from i to j is enabled exactly when i and j are in the
same list, whatever the flags and the ends were before.
-/
namespace DistributedLabs.Tester

open Labrpc Transition

variable {n : ℕ} {ω π : Type*} {sg sg₀ : ServerGrp n ω π} {own other done : List (Fin n)}

namespace ServerGrp

/-- One round of a loop of Partition. -/
def separate (own other : List (Fin n)) (sg : ServerGrp n ω π) (i : Fin n) :
    ServerGrp n ω π :=
  (sg.disconnect i other).connect i own

def partition (sg : ServerGrp n ω π) (p1 p2 : List (Fin n)) : ServerGrp n ω π :=
  p2.foldl (separate p2 p1) (p1.foldl (separate p1 p2) sg)

/-- Whether the end from i to j is enabled. -/
def linked (sg : ServerGrp n ω π) (i j : Fin n) : Bool :=
  sg.net.enabled ((sg.srvs i).endNames j)

end ServerGrp

inductive Call (n : ℕ) (ω π : Type*)
  | op (op : Op n ω π)
  | partition (p1 p2 : List (Fin n))

/-- All calls on a group, partitions and unpermitted starts included. -/
def calls : System (ServerGrp n ω π) (Call n ω π) where
  start := system.start
  step sg
    | .op op => step sg op
    | .partition p1 p2 => some (sg.partition p1 p2)

theorem Named.separate (hs : Named sg) (own other : List (Fin n)) (i : Fin n) :
    Named (sg.separate own other i) :=
  (hs.disconnect i other).connect i own

theorem Named.foldl_separate (hs : Named sg) (own other is : List (Fin n)) :
    Named (is.foldl (ServerGrp.separate own other) sg) := by
  induction is generalizing sg with
  | nil => exact hs
  | cons i is ih => exact ih (hs.separate own other i)

theorem Named.step {sg' : ServerGrp n ω π} {op : Op n ω π} (hs : Named sg)
    (h : Tester.step sg op = some sg') : Named sg' := by
  cases op with
  | connectOne i =>
    cases h
    exact hs.connect i sg.all
  | connectAll =>
    cases h
    exact hs.connectAll
  | disconnectAll i =>
    cases h
    exact hs.disconnect i sg.all
  | shutdownServer i p =>
    cases h
    exact hs.shutdownServer i p
  | startServer i endNames empty labsrv ok => exact hs.startServer h

theorem named_of_reachable (h : calls.Reachable sg) : Named sg := by
  refine h.invariant ?_ ?_
  · rintro sg ⟨net, gid, endNames, hmake⟩
    exact (Precise.makeSrvGrp hmake).toNamed
  · intro sg call sg' _ hs hstep
    cases call with
    | op op => exact hs.step hstep
    | partition p1 p2 =>
      cases hstep
      exact (hs.foldl_separate p1 p2 p1).foldl_separate p2 p1 p2

/-- A round touches the ends between i and the servers of either list. The flag
of i is set again before connect reads the flags. -/
theorem Named.separate_linked (hs : Named sg) (own other : List (Fin n)) (i a b : Fin n) :
    (sg.separate own other i).linked a b =
      if b = i ∧ a ∈ own ∧ Function.update sg.connected i true a = true then true
      else if a = i ∧ b ∈ own ∧ Function.update sg.connected i true b = true then true
      else if b = i ∧ a ∈ other then false
      else if a = i ∧ b ∈ other then false
      else sg.linked a b := by
  have hconnect := (hs.disconnect i other).connect_enabled i own a b
  have hflags : Function.update (sg.disconnect i other).connected i true =
      Function.update sg.connected i true := Function.update_idem _ _ _
  rw [hflags] at hconnect
  refine hconnect.trans ?_
  have hdisconnect : (sg.disconnect i other).net.enabled
      (((sg.disconnect i other).srvs a).endNames b) = _ := hs.disconnect_enabled i other a b
  rw [hdisconnect]
  rfl

/-- What a loop over `own` has done once the servers `done` are behind it. -/
structure Separated (sg₀ : ServerGrp n ω π) (own other done : List (Fin n))
    (sg : ServerGrp n ω π) : Prop where
  named : Named sg
  flagged : ∀ a ∈ done, sg.connected a = true
  joined : ∀ a ∈ done, ∀ b ∈ done, sg.linked a b = true
  severed : ∀ a ∈ done, ∀ b ∈ other, sg.linked a b = false ∧ sg.linked b a = false
  frame : ∀ a b, a ∉ own → b ∉ own → sg.linked a b = sg₀.linked a b

theorem Separated.step (hs : Separated sg₀ own other done sg) (hdisjoint : own.Disjoint other)
    (hdone : done ⊆ own) {i : Fin n} (hi : i ∈ own) :
    Separated sg₀ own other (done ++ [i]) (sg.separate own other i) := by
  have hflag : ∀ a ∈ done ++ [i], Function.update sg.connected i true a = true := by
    intro a ha
    by_cases hai : a = i
    · subst hai
      simp
    · rw [Function.update_of_ne hai]
      exact hs.flagged a (by simpa [hai] using ha)
  have hown : ∀ a ∈ done ++ [i], a ∈ own := by
    intro a ha
    rcases List.mem_append.mp ha with ha | ha
    · exact hdone ha
    · exact List.mem_singleton.mp ha ▸ hi
  refine ⟨hs.named.separate own other i, ?_, ?_, ?_, ?_⟩
  · intro a ha
    have hconnected : (sg.separate own other i).connected =
        Function.update sg.connected i true := Function.update_idem _ _ _
    rw [hconnected]
    exact hflag a ha
  · intro a ha b hb
    rw [hs.named.separate_linked]
    by_cases hbi : b = i
    · rw [if_pos ⟨hbi, hown a ha, hflag a ha⟩]
    · by_cases hai : a = i
      · rw [if_pos (c := a = i ∧ _) ⟨hai, hown b hb, hflag b hb⟩, ite_self]
      · simpa [hai, hbi] using hs.joined a (by simpa [hai] using ha) b (by simpa [hbi] using hb)
  · intro a ha b hb
    have hout : b ∉ own := fun h => hdisjoint h hb
    have hbi : b ≠ i := fun h => hout (h ▸ hi)
    rw [hs.named.separate_linked, hs.named.separate_linked]
    by_cases hai : a = i
    · simp [hai, hbi, hout, hb]
    · simpa [hai, hbi] using hs.severed a (by simpa [hai] using ha) b hb
  · intro a b ha hb
    have hai : a ≠ i := fun h => ha (h ▸ hi)
    have hbi : b ≠ i := fun h => hb (h ▸ hi)
    rw [hs.named.separate_linked]
    simpa [hai, hbi] using hs.frame a b ha hb

theorem separated_foldl (hs : Named sg₀) (hdisjoint : own.Disjoint other) (hdone : done ⊆ own) :
    Separated sg₀ own other done (done.foldl (ServerGrp.separate own other) sg₀) := by
  induction done using List.reverseRecOn with
  | nil => exact ⟨hs, by simp, by simp, by simp, fun _ _ _ _ => rfl⟩
  | append_singleton done i ih =>
    rw [List.append_subset] at hdone
    rw [List.foldl_append, List.foldl_cons, List.foldl_nil]
    exact (ih hdone.1).step hdisjoint hdone.1 (hdone.2 (List.mem_singleton_self i))

/-- Two lists that together hold every server once cut a group in two. -/
theorem Named.partition_linked_iff (hs : Named sg) {p1 p2 : List (Fin n)}
    (hnodup : (p1 ++ p2).Nodup) (hcover : ∀ i, i ∈ p1 ++ p2) (i j : Fin n) :
    (sg.partition p1 p2).linked i j = true ↔ i ∈ p1 ∧ j ∈ p1 ∨ i ∈ p2 ∧ j ∈ p2 := by
  have hdisjoint := List.disjoint_of_nodup_append hnodup
  have hfirst := separated_foldl hs hdisjoint (List.Subset.refl p1)
  have hsecond := separated_foldl hfirst.named hdisjoint.symm (List.Subset.refl p2)
  rcases List.mem_append.mp (hcover i) with hi | hi
  · have hi' : i ∉ p2 := hdisjoint hi
    rcases List.mem_append.mp (hcover j) with hj | hj
    · -- the second loop leaves the ends inside p1 alone
      have hkept := hsecond.frame i j hi' (hdisjoint hj)
      have hlinked : (sg.partition p1 p2).linked i j = true :=
        hkept.trans (hfirst.joined i hi j hj)
      simp [hlinked, hi, hj]
    · have hj' : j ∉ p1 := fun h => hdisjoint h hj
      have hlinked : (sg.partition p1 p2).linked i j = false := (hsecond.severed j hj i hi).2
      simp [hlinked, hi', hj']
  · have hi' : i ∉ p1 := fun h => hdisjoint h hi
    rcases List.mem_append.mp (hcover j) with hj | hj
    · have hj' : j ∉ p2 := hdisjoint hj
      have hlinked : (sg.partition p1 p2).linked i j = false := (hsecond.severed i hi j hj).1
      simp [hlinked, hi', hj']
    · have hlinked : (sg.partition p1 p2).linked i j = true := hsecond.joined i hi j hj
      simp [hlinked, hi, hj]

theorem partition_exact (h : calls.Reachable sg) (connected : Fin n → Bool)
    (enabled : String → Bool) (p1 p2 : List (Fin n)) (hnodup : (p1 ++ p2).Nodup)
    (hcover : ∀ i, i ∈ p1 ++ p2) (i j : Fin n) :
    let prior := { sg with connected := connected, net := { sg.net with enabled := enabled } }
    (prior.partition p1 p2).linked i j = true ↔ i ∈ p1 ∧ j ∈ p1 ∨ i ∈ p2 ∧ j ∈ p2 := by
  intro prior
  have hprior : Named prior := ⟨(named_of_reachable h).distinct, (named_of_reachable h).exist⟩
  exact hprior.partition_linked_iff hnodup hcover i j

/-- Server 1 is shut down, and servers 0 and 1 are cut off from the others. -/
def cutOff : List (Call 5 ℕ Unit) :=
  [.op .connectAll, .op (.shutdownServer 1 ()), .partition [0, 1] [2, 3, 4]]

set_option maxRecDepth 4000 in
/-- Another partition brings server 2 to server 0 and takes server 1 away. -/
theorem partition_exact_cutOff : ∃ sg : ServerGrp 5 ℕ Unit, calls.Reachable sg ∧
    (sg.linked 0 1 = true ∧ sg.linked 0 2 = false) ∧
    ((sg.partition [0, 2] [1, 3, 4]).linked 0 2 = true ∧
      ¬ (sg.partition [0, 2] [1, 3, 4]).linked 0 1 = true ∧
      (sg.partition [0, 2] [1, 3, 4]).linked 4 1 = true) := by
  have hcheck : ((ServerGrp.makeSrvGrp Network.makeNetwork 0 drawn :
      Option (ServerGrp 5 ℕ Unit)).bind fun sg₀ =>
        calls.run sg₀ cutOff).any (fun sg => sg.linked 0 1 && !sg.linked 0 2) = true := by
    decide +kernel
  obtain ⟨sg, hsg, hlinks⟩ := (Option.any_eq_true _ _).mp hcheck
  obtain ⟨sg₀, hmake, hrun⟩ := Option.bind_eq_some_iff.mp hsg
  have hreach : calls.Reachable sg := .of_run cutOff ⟨_, _, _, hmake⟩ hrun
  have hexact := partition_exact hreach sg.connected sg.net.enabled [0, 2] [1, 3, 4] (by decide)
    (by decide)
  refine ⟨sg, hreach, by simpa using hlinks, (hexact 0 2).mpr (by decide), ?_,
    (hexact 4 1).mpr (by decide)⟩
  intro h
  exact absurd ((hexact 0 1).mp h) (by decide)

end DistributedLabs.Tester
