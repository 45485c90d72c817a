import DistributedLabs.ClerkOutcomes

/-!
Programs over clerks. Each program has a clerk of its own: it makes the call that
is due at its place, waits, and goes on with the result. `Clients` says which
calls are due and how a program goes on. What the clerks, the network and the
server do under such programs is the same for all of them.
-/
namespace DistributedLabs.Clerk

open KVServer Transition

/-- Programs with the state `σ`, one for each clerk. -/
structure Clients (κ σ : Type*) where
  net : σ → State κ
  onNet : σ → State κ → σ
  due : σ → κ → KvOp → Prop
  decDue : ∀ s c op, Decidable (due s c op)
  resume : σ → κ → KvReply → σ
  net_onNet : ∀ s n, net (onNet s n) = n
  net_resume : ∀ s c res, net (resume s c res) = net s

namespace Clients

attribute [instance] Clients.decDue

variable {κ σ α : Type*} [DecidableEq κ]

/-- A step of the clerks, the network or the server under the programs. -/
def step (C : Clients κ σ) (s : σ) : Label κ → Option σ
  | .invoke c op =>
    if C.due s c op then (Clerk.step (C.net s) (.invoke c op)).map (C.onNet s) else none
  | .deliver c =>
    (Clerk.step (C.net s) (.deliver c)).map fun net =>
      match answer (C.net s) c with
      | some res => C.resume (C.onNet s net) c res
      | none => C.onNet s net
  | l => (Clerk.step (C.net s) l).map (C.onNet s)

/-- What such a step can do. -/
inductive Step (C : Clients κ σ) (s : σ) : σ → Prop
  | call (c : κ) (op : KvOp) (hdue : C.due s c op) (hidle : (C.net s).clerks c = none) :
      Step C s (C.onNet s ((C.net s).invoke c op))
  | inner (l : Label κ) (net : State κ) (hl : l.Inner (C.net s))
      (h : Clerk.step (C.net s) l = some net) : Step C s (C.onNet s net)
  | ret (c : κ) (call : Call) (rid : ℕ) (reply res : KvReply)
      (hcall : (C.net s).clerks c = some call) (hrid : call.rid = some rid)
      (hserved : (C.net s).status rid = .served reply) (hfin : call.finish reply = some res) :
      Step C s (C.resume (C.onNet s ((C.net s).finish c call rid res)) c res)

variable {C : Clients κ σ} {s t : σ}

theorem step_sound {l : Label κ} (h : C.step s l = some t) : Step C s t := by
  cases l with
  | invoke c op =>
    simp only [step] at h
    split at h
    · obtain ⟨net, hnet, rfl⟩ := Option.map_eq_some_iff.mp h
      cases Clerk.step_sound hnet with
      | invoke _ _ hidle => exact .call c op ‹_› hidle
    · cases h
  | deliver c =>
    obtain ⟨net, hnet, rfl⟩ := Option.map_eq_some_iff.mp h
    cases hans : answer (C.net s) c with
    | none => exact .inner (.deliver c) net hans hnet
    | some res =>
      cases Clerk.step_sound hnet with
      | again _ call rid reply hcall hrid hserved hfin =>
        simp [answer, hcall, hrid, hserved, hfin] at hans
      | finish _ call rid reply res' hcall hrid hserved hfin =>
        simp only [answer, hcall, hrid, hserved, hfin, Option.some.injEq] at hans
        subst hans
        exact .ret c call rid reply res' hcall hrid hserved hfin
  | _ =>
    obtain ⟨net, hnet, rfl⟩ := Option.map_eq_some_iff.mp h
    refine .inner _ net ?_ hnet
    trivial

theorem step_net {l : Label κ} (h : C.step s l = some t) :
    Clerk.step (C.net s) l = some (C.net t) := by
  cases l with
  | invoke c op =>
    simp only [step] at h
    split at h
    · obtain ⟨net, hnet, rfl⟩ := Option.map_eq_some_iff.mp h
      rw [hnet, C.net_onNet]
    · cases h
  | deliver c =>
    obtain ⟨net, hnet, rfl⟩ := Option.map_eq_some_iff.mp h
    split
    · rw [hnet, C.net_resume, C.net_onNet]
    · rw [hnet, C.net_onNet]
  | _ =>
    obtain ⟨net, hnet, rfl⟩ := Option.map_eq_some_iff.mp h
    rw [hnet, C.net_onNet]

/-- A system of such programs: their own steps leave the clerks alone. -/
structure Runs (C : Clients κ σ) (S : System σ α) : Prop where
  start : ∀ s, S.start s → C.net s = initial
  step : ∀ s l t, S.step s l = some t → C.net t = C.net s ∨ ∃ l', C.step s l' = some t

namespace Runs

variable {S : System σ α} (hC : C.Runs S)

include hC

theorem step_net {l : α} (h : S.step s l = some t) :
    C.net t = C.net s ∨ ∃ l', Clerk.step (C.net s) l' = some (C.net t) := by
  rcases hC.step s l t h with heq | ⟨l', hl'⟩
  · exact Or.inl heq
  · exact Or.inr ⟨l', Clients.step_net hl'⟩

/-- The clerks, the network and the server run as they do under any programs. -/
theorem net_reachable (h : S.Reachable s) : system.Reachable (C.net s) :=
  System.Reachable.map (T := system) C.net (fun s hs => hC.start s hs)
    (fun _ _ _ hstep => hC.step_net hstep) h

theorem puts_le {l : α} (h : S.step s l = some t) (k : String) :
    (C.net s).puts k ≤ (C.net t).puts k := by
  rcases hC.step_net h with heq | ⟨l', hl'⟩
  · rw [heq]
  · exact (Clerk.step_sound hl').puts_le k

end Runs

end Clients

end DistributedLabs.Clerk
