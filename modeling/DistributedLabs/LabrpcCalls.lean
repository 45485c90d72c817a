import DistributedLabs.Labrpc
import DistributedLabs.Tables
import Mathlib.Data.List.Count

/-!
What a Call over the simulated network means. `Traced` follows each request
along a run of the network: which server readEndnameInfo found, the run of its
handler, and the moment at which processReq last looked at the tables before it
passed a reply on.
-/
namespace DistributedLabs.Labrpc

open Transition Tables

variable {ε ν ω : Type*}

namespace State

/-- The runs of handlers for a request. -/
def runsOf (s : State ε ν ω) (rid : ℕ) : List (Run ν ω) := s.runs.filter fun run => run.rid = rid

/-- The number of replies sent for a request. -/
def replies (s : State ε ν ω) (rid : ℕ) : ℕ := s.sent.countP fun msg => msg.1 = rid

end State

/-- Run `k`, and no other, is the run of the request's handler, on the target. -/
def Dispatched (s : State ε ν ω) (rid : ℕ) (target : Target ν ω) (k : ℕ) : Prop :=
  s.runsOf rid = [target.run rid] ∧ s.runs[k]? = some (target.run rid)

/-- A step that leaves a request alone: its runs stay, and results are kept. -/
structure Frame (s t : State ε ν ω) (rid : ℕ) : Prop where
  runsOf_eq : t.runsOf rid = s.runsOf rid
  runs_get : ∀ (k : ℕ) (run : Run ν ω), s.runs[k]? = some run → t.runs[k]? = some run
  results : ∀ k reply, s.results k = some reply → t.results k = some reply

variable [DecidableEq ε] [DecidableEq ν] [DecidableEq ω]

/-- The server that was registered for the end, when the request was picked up. -/
def Registered (s : State ε ν ω) (endname : ε) (target : Target ν ω) : Prop :=
  s.net.connections endname = some target.servername ∧
    s.net.servers target.servername = some target.server

/-- The request was picked up after the labels `before`, for the target. -/
def PickedUp (labels before after : List (Label ε ν ω)) (rid : ℕ) (endname : ε)
    (target : Target ν ω) : Prop :=
  labels = before ++ .pickUp rid :: after ∧
    ∃ s, system.run initial before = some s ∧ Registered s endname target

/-- At the moment `m` of the run the handler had finished with `reply`, and its
server was registered and the end enabled. -/
def Confirmed (labels : List (Label ε ν ω)) (s : State ε ν ω) (rid : ℕ) (endname : ε)
    (reply : List UInt8) : Prop :=
  ∃ (before between after : List (Label ε ν ω)) (m : State ε ν ω) (target : Target ν ω) (k : ℕ),
    PickedUp labels before (between ++ after) rid endname target ∧
    Dispatched s rid target k ∧ s.results k = some ⟨true, reply⟩ ∧
    system.run initial (before ++ .pickUp rid :: between) = some m ∧
    Dispatched m rid target k ∧ m.results k = some ⟨true, reply⟩ ∧
    m.net.servers target.servername = some target.server ∧ m.net.enabled endname = true

/-- What is known about a request at each point of processReq. -/
def Stage (labels : List (Label ε ν ω)) (s : State ε ν ω) (rid : ℕ) (endname : ε) :
    Pc ν ω → Prop
  | .calling => s.runsOf rid = []
  | .abandoned => s.runsOf rid = []
  | .accepted => s.runsOf rid = []
  | .live target =>
    s.runsOf rid = [] ∧ ∃ before after, PickedUp labels before after rid endname target
  | .unreachable => s.runsOf rid = []
  | .waiting target k =>
    Dispatched s rid target k ∧ ∃ before after, PickedUp labels before after rid endname target
  | .answered target k reply =>
    Dispatched s rid target k ∧ s.results k = some reply ∧
      ∃ before after, PickedUp labels before after rid endname target
  | .deserted _ => (s.runsOf rid).length ≤ 1
  | .replying msg =>
    (s.runsOf rid).length ≤ 1 ∧ (msg.ok = true → Confirmed labels s rid endname msg.reply)
  | .timer msg =>
    (s.runsOf rid).length ≤ 1 ∧ (msg.ok = true → Confirmed labels s rid endname msg.reply)
  | .ended => (s.runsOf rid).length ≤ 1

section Frames

variable {s t : State ε ν ω} {rid : ℕ} {labels : List (Label ε ν ω)} {endname : ε}

omit [DecidableEq ε] [DecidableEq ν] [DecidableEq ω] in
theorem Frame.of_eq (hruns : t.runs = s.runs) (hresults : t.results = s.results) (rid : ℕ) :
    Frame s t rid where
  runsOf_eq := by rw [State.runsOf, hruns, State.runsOf]
  runs_get := by
    rw [hruns]
    exact fun _ _ h => h
  results := by
    rw [hresults]
    exact fun _ _ h => h

omit [DecidableEq ε] [DecidableEq ν] [DecidableEq ω] in
theorem Dispatched.frame {target : Target ν ω} {k : ℕ} (h : Dispatched s rid target k)
    (hf : Frame s t rid) : Dispatched t rid target k :=
  ⟨hf.runsOf_eq.trans h.1, hf.runs_get k _ h.2⟩

theorem PickedUp.extend {before after : List (Label ε ν ω)} {target : Target ν ω}
    (h : PickedUp labels before after rid endname target) (l : Label ε ν ω) :
    PickedUp (labels ++ [l]) before (after ++ [l]) rid endname target := by
  obtain ⟨rfl, hstart⟩ := h
  exact ⟨by simp, hstart⟩

theorem Confirmed.extend {reply : List UInt8} (h : Confirmed labels s rid endname reply)
    (hf : Frame s t rid) (l : Label ε ν ω) :
    Confirmed (labels ++ [l]) t rid endname reply := by
  obtain ⟨before, between, after, m, target, k, hpick, hrun, hres, hm⟩ := h
  have hpick' := hpick.extend l
  rw [List.append_assoc] at hpick'
  exact ⟨before, between, after ++ [l], m, target, k, hpick', hrun.frame hf,
    hf.results k _ hres, hm⟩

theorem Stage.extend {pc : Pc ν ω} (h : Stage labels s rid endname pc) (hf : Frame s t rid)
    (l : Label ε ν ω) : Stage (labels ++ [l]) t rid endname pc := by
  have hruns := hf.runsOf_eq
  cases pc with
  | calling => exact hruns.trans h
  | abandoned => exact hruns.trans h
  | accepted => exact hruns.trans h
  | live target =>
    obtain ⟨hnone, before, after, hpick⟩ := h
    exact ⟨hruns.trans hnone, before, _, hpick.extend l⟩
  | unreachable => exact hruns.trans h
  | waiting target k =>
    obtain ⟨hrun, before, after, hpick⟩ := h
    exact ⟨hrun.frame hf, before, _, hpick.extend l⟩
  | answered target k reply =>
    obtain ⟨hrun, hres, before, after, hpick⟩ := h
    exact ⟨hrun.frame hf, hf.results k reply hres, before, _, hpick.extend l⟩
  | deserted target => exact le_of_eq_of_le (congrArg List.length hruns) h
  | replying msg =>
    exact ⟨le_of_eq_of_le (congrArg List.length hruns) h.1, fun hok => (h.2 hok).extend hf l⟩
  | timer msg =>
    exact ⟨le_of_eq_of_le (congrArg List.length hruns) h.1, fun hok => (h.2 hok).extend hf l⟩
  | ended => exact le_of_eq_of_le (congrArg List.length hruns) h

theorem Stage.runs_le {pc : Pc ν ω} (h : Stage labels s rid endname pc) :
    (s.runsOf rid).length ≤ 1 := by
  have hnone : s.runsOf rid = [] → (s.runsOf rid).length ≤ 1 := by
    intro hnil
    simp [hnil]
  cases pc with
  | calling => exact hnone h
  | abandoned => exact hnone h
  | accepted => exact hnone h
  | live target => exact hnone h.1
  | unreachable => exact hnone h
  | waiting target k => simp [h.1.1]
  | answered target k reply => simp [h.1.1]
  | deserted target => exact h
  | replying msg => exact h.1
  | timer msg => exact h.1
  | ended => exact h

end Frames

structure Traced (labels : List (Label ε ν ω)) (s : State ε ν ω) : Prop where
  fresh : ∀ rid, s.ncalls ≤ rid → s.calls rid = none
  unborn : ∀ rid, s.calls rid = none → s.runsOf rid = [] ∧ s.replies rid = 0
  replies : ∀ rid c, s.calls rid = some c → s.replies rid = if c.pc = .ended then 1 else 0
  stage : ∀ rid c, s.calls rid = some c → Stage labels s rid c.req.endname c.pc
  returned : ∀ rid c reply, s.calls rid = some c → c.ret = some (some reply) →
    c.pc = .ended ∧ Confirmed labels s rid c.req.endname reply

namespace Traced

variable {s t : State ε ν ω} {rid : ℕ} {labels : List (Label ε ν ω)} {c : Call ε ν ω}

theorem nil : Traced [] (initial : State ε ν ω) where
  fresh rid h := rfl
  unborn rid h := ⟨rfl, rfl⟩
  replies rid c h := by simp [Labrpc.initial] at h
  stage rid c h := by simp [Labrpc.initial] at h
  returned rid c reply h := by simp [Labrpc.initial] at h

/-- Steps that touch no call. -/
theorem idle (hs : Traced labels s) (l : Label ε ν ω) (hn : t.ncalls = s.ncalls)
    (hcalls : t.calls = s.calls) (hsent : t.sent = s.sent)
    (hf : ∀ rid, Frame s t rid) : Traced (labels ++ [l]) t where
  fresh rid h := by
    rw [hcalls]
    exact hs.fresh rid (hn ▸ h)
  unborn rid h := by
    rw [hcalls] at h
    obtain ⟨hruns, hreplies⟩ := hs.unborn rid h
    exact ⟨(hf rid).runsOf_eq.trans hruns, by rwa [State.replies, hsent]⟩
  replies rid c h := by
    rw [hcalls] at h
    rw [State.replies, hsent]
    exact hs.replies rid c h
  stage rid c h := by
    rw [hcalls] at h
    exact (hs.stage rid c h).extend (hf rid) l
  returned rid c reply h hret := by
    rw [hcalls] at h
    obtain ⟨hpc, hconf⟩ := hs.returned rid c reply h hret
    exact ⟨hpc, hconf.extend (hf rid) l⟩

theorem begin (hs : Traced labels s) (req : ReqMsg ε) (l : Label ε ν ω) :
    Traced (labels ++ [l]) (s.begin req) := by
  have hf : ∀ rid, Frame s (s.begin req) rid := Frame.of_eq (t := s.begin req) rfl rfl
  obtain ⟨hruns, hreplies⟩ := hs.unborn s.ncalls (hs.fresh s.ncalls (Nat.le_refl _))
  constructor
  · intro rid h
    have hlt : s.ncalls < rid := h
    have hne : rid ≠ s.ncalls := by omega
    simpa [State.begin, hne] using hs.fresh rid (by omega)
  · intro rid h
    have hne : rid ≠ s.ncalls := by
      rintro rfl
      simp [State.begin] at h
    exact hs.unborn rid (by simpa [State.begin, hne] using h)
  · intro rid c h
    rcases update_eq_some h with ⟨rfl, hv⟩ | ⟨_, hold⟩
    · obtain rfl := Option.some.inj hv
      exact hreplies
    · exact hs.replies rid c hold
  · intro rid c h
    rcases update_eq_some h with ⟨rfl, hv⟩ | ⟨_, hold⟩
    · obtain rfl := Option.some.inj hv
      exact hruns
    · exact (hs.stage rid c hold).extend (hf rid) l
  · intro rid c reply h hret
    rcases update_eq_some h with ⟨rfl, hv⟩ | ⟨_, hold⟩
    · obtain rfl := Option.some.inj hv
      cases hret
    · obtain ⟨hpc, hconf⟩ := hs.returned rid c reply hold hret
      exact ⟨hpc, hconf.extend (hf rid) l⟩

/-- A step that only moves one request on, without a reply. -/
theorem update (hs : Traced labels s) (c' : Call ε ν ω) (l : Label ε ν ω)
    (hc : s.calls rid = some c) (hn : t.ncalls = s.ncalls)
    (hcalls : t.calls = Function.update s.calls rid (some c')) (hsent : t.sent = s.sent)
    (hf : ∀ r, r ≠ rid → Frame s t r) (hpc : c.pc ≠ .ended) (hpc' : c'.pc ≠ .ended)
    (hstage : Stage (labels ++ [l]) t rid c'.req.endname c'.pc)
    (hret : ∀ reply, c'.ret ≠ some (some reply)) : Traced (labels ++ [l]) t where
  fresh r h := by
    have hne : r ≠ rid := by
      rintro rfl
      have hnone := hs.fresh r (hn ▸ h)
      rw [hc] at hnone
      cases hnone
    rw [hcalls, Function.update_of_ne hne]
    exact hs.fresh r (hn ▸ h)
  unborn r h := by
    have hne : r ≠ rid := by
      rintro rfl
      simp [hcalls] at h
    rw [hcalls, Function.update_of_ne hne] at h
    obtain ⟨hruns, hreplies⟩ := hs.unborn r h
    exact ⟨(hf r hne).runsOf_eq.trans hruns, by rwa [State.replies, hsent]⟩
  replies r d h := by
    rw [hcalls] at h
    rw [State.replies, hsent]
    rcases update_eq_some h with ⟨rfl, hv⟩ | ⟨_, hold⟩
    · obtain rfl := Option.some.inj hv
      have hold := hs.replies r c hc
      rw [if_neg hpc] at hold
      rw [if_neg hpc']
      exact hold
    · exact hs.replies r d hold
  stage r d h := by
    rw [hcalls] at h
    rcases update_eq_some h with ⟨rfl, hv⟩ | ⟨hne, hold⟩
    · obtain rfl := Option.some.inj hv
      exact hstage
    · exact (hs.stage r d hold).extend (hf r hne) l
  returned r d reply h hd := by
    rw [hcalls] at h
    rcases update_eq_some h with ⟨rfl, hv⟩ | ⟨hne, hold⟩
    · obtain rfl := Option.some.inj hv
      exact absurd hd (hret reply)
    · obtain ⟨hended, hconf⟩ := hs.returned r d reply hold hd
      exact ⟨hended, hconf.extend (hf r hne) l⟩

theorem goto (hs : Traced labels s) {pc : Pc ν ω} (l : Label ε ν ω) (hc : s.calls rid = some c)
    (hpc : c.pc ≠ .ended) (hpc' : pc ≠ .ended)
    (hstage : Stage (labels ++ [l]) s rid c.req.endname pc) :
    Traced (labels ++ [l]) (s.goto rid c pc) := by
  refine hs.update { c with pc } l hc rfl rfl rfl ?_ hpc hpc' ?_ ?_
  · intro r _
    exact Frame.of_eq (s := s) (t := s.goto rid c pc) rfl rfl r
  · cases pc <;> exact hstage
  · intro reply hret
    exact hpc (hs.returned rid c reply hc hret).1

theorem stage_of (hs : Traced labels s) {pc : Pc ν ω} (hc : s.calls rid = some c)
    (hpc : c.pc = pc) : Stage labels s rid c.req.endname pc := by
  rw [← hpc]
  exact hs.stage rid c hc

theorem dispatch (hs : Traced labels s) {target : Target ν ω} (l : Label ε ν ω)
    (hc : s.calls rid = some c) (hpc : c.pc = .live target) :
    Traced (labels ++ [l]) (s.dispatch rid c target) := by
  have hstage := hs.stage_of hc hpc
  obtain ⟨hnone, before, after, hpick⟩ := hstage
  refine hs.update { c with pc := .waiting target s.runs.length } l hc rfl rfl rfl ?_
    (by simp [hpc]) (by simp) ?_ ?_
  · intro r hne
    refine ⟨?_, ?_, fun _ _ h => h⟩
    · simp [State.runsOf, State.dispatch, List.filter_append, Target.run, Ne.symm hne]
    · intro k run hk
      exact getElem?_append_of_some _ hk
  · refine ⟨⟨?_, List.getElem?_concat_length⟩, before, _, hpick.extend l⟩
    have hrid : (s.dispatch rid c target).runsOf rid = s.runsOf rid ++ [target.run rid] := by
      simp [State.runsOf, State.dispatch, List.filter_append, Target.run]
    rw [hrid, hnone, List.nil_append]
  · intro reply hret
    have hended := (hs.returned rid c reply hc hret).1
    rw [hpc] at hended
    cases hended

theorem reply (hs : Traced labels s) {msg : ReplyMsg} (l : Label ε ν ω)
    (hc : s.calls rid = some c) (hpc : c.pc = .replying msg ∨ c.pc = .timer msg) :
    Traced (labels ++ [l]) (s.sendReply rid c msg) := by
  have hf : ∀ r, Frame s (s.sendReply rid c msg) r :=
    Frame.of_eq (t := s.sendReply rid c msg) rfl rfl
  have hcount : ∀ r, (s.sendReply rid c msg).replies r =
      s.replies r + if rid = r then 1 else 0 := by
    intro r
    simp [State.replies, State.sendReply, List.countP_append, List.countP_singleton]
  have hstage : (s.runsOf rid).length ≤ 1 ∧
      (msg.ok = true → Confirmed labels s rid c.req.endname msg.reply) := by
    rcases hpc with hpc | hpc
    · exact hs.stage_of hc hpc
    · exact hs.stage_of hc hpc
  have hzero : s.replies rid = 0 := by
    have hreplies := hs.replies rid c hc
    rcases hpc with hpc | hpc
    · simpa [hpc] using hreplies
    · simpa [hpc] using hreplies
  constructor
  · intro r h
    have hnone := hs.fresh r h
    have hne : r ≠ rid := by
      rintro rfl
      rw [hc] at hnone
      cases hnone
    simpa [State.sendReply, hne] using hnone
  · intro r h
    have hne : r ≠ rid := by
      rintro rfl
      simp [State.sendReply] at h
    obtain ⟨hruns, hreplies⟩ := hs.unborn r (by simpa [State.sendReply, hne] using h)
    exact ⟨hruns, by rw [hcount, hreplies, if_neg (Ne.symm hne)]⟩
  · intro r d h
    rw [hcount]
    rcases update_eq_some h with ⟨rfl, hv⟩ | ⟨hne, hold⟩
    · obtain rfl := Option.some.inj hv
      simp [hzero]
    · rw [hs.replies r d hold, if_neg (Ne.symm hne), Nat.add_zero]
  · intro r d h
    rcases update_eq_some h with ⟨rfl, hv⟩ | ⟨hne, hold⟩
    · obtain rfl := Option.some.inj hv
      exact hstage.1
    · exact (hs.stage r d hold).extend (hf r) l
  · intro r d reply h hret
    rcases update_eq_some h with ⟨rfl, hv⟩ | ⟨hne, hold⟩
    · obtain rfl := Option.some.inj hv
      obtain ⟨hok, rfl⟩ : msg.ok = true ∧ msg.reply = reply := by simpa using hret
      exact ⟨rfl, (hstage.2 hok).extend (hf r) l⟩
    · obtain ⟨hended, hconf⟩ := hs.returned r d reply hold hret
      exact ⟨hended, hconf.extend (hf r) l⟩

theorem pickUp (hs : Traced labels s) (hrun : system.run initial labels = some s)
    (hc : s.calls rid = some c) (hpc : c.pc = .accepted) :
    Traced (labels ++ [.pickUp rid])
      (s.goto rid c (s.net.readEndnameInfo c.req.endname).pc) := by
  have hnone := hs.stage_of hc hpc
  rcases readEndnameInfo_pc s.net c.req.endname with hinfo | ⟨target, hinfo, hreg⟩
  · rw [hinfo]
    exact hs.goto _ hc (by simp [hpc]) (by simp) hnone
  · rw [hinfo]
    exact hs.goto _ hc (by simp [hpc]) (by simp) ⟨hnone, labels, [], rfl, s, hrun, hreg⟩

/-- The last isServerDead is the moment that confirms a reply. -/
theorem decide (hs : Traced labels s) (hrun : system.run initial labels = some s)
    {target : Target ν ω} {k : ℕ} {reply : ReplyMsg} {fate : Fate} {pc : Pc ν ω}
    (hc : s.calls rid = some c) (hpc : c.pc = .answered target k reply)
    (hconclude : conclude (s.net.isServerDead c.req.endname target.servername target.server)
      target reply fate = some pc) :
    Traced (labels ++ [.decide rid fate]) (s.goto rid c pc) := by
  have hstage := hs.stage_of hc hpc
  obtain ⟨hdisp, hres, before, after, hpick⟩ := hstage
  obtain ⟨msg, hmsg, hfrom⟩ := conclude_cases hconclude
  have hlen : (s.runsOf rid).length ≤ 1 := by rw [hdisp.1, List.length_singleton]
  have hconf : msg.ok = true →
      Confirmed (labels ++ [.decide rid fate]) s rid c.req.endname msg.reply := by
    intro hok
    rcases hfrom with rfl | ⟨halive, rfl⟩
    · cases hok
    · obtain ⟨henabled, hserver⟩ := isServerDead_eq_false halive
      have hresult : s.results k = some ⟨true, msg.reply⟩ := by rw [hres, ← hok]
      exact ⟨before, after, [.decide rid fate], s, target, k, hpick.extend _, hdisp, hresult,
        by rw [← hpick.1, hrun], hdisp, hresult, hserver, henabled⟩
  rcases hmsg with rfl | rfl
  · exact hs.goto _ hc (by simp [hpc]) (by simp) ⟨hlen, hconf⟩
  · exact hs.goto _ hc (by simp [hpc]) (by simp) ⟨hlen, hconf⟩

theorem finish (hs : Traced labels s) (l : Label ε ν ω) {k : ℕ} {reply : ReplyMsg}
    (hnone : s.results k = none) : Traced (labels ++ [l]) (s.finish k reply) := by
  refine hs.idle l rfl rfl rfl fun r => ⟨rfl, fun _ _ h => h, ?_⟩
  intro k' reply' h
  have hne : k' ≠ k := by
    rintro rfl
    rw [hnone] at h
    cases h
  simpa [State.finish, hne] using h

theorem step (hs : Traced labels s) (hrun : system.run initial labels = some s)
    {l : Label ε ν ω} (h : Step s l t) : Traced (labels ++ [l]) t := by
  cases h with
  | admin _ a h =>
    obtain ⟨hn, hcalls, hruns, hresults, hsent⟩ := admin_frame h
    exact hs.idle _ hn hcalls hsent (Frame.of_eq hruns hresults)
  | cleanup => exact hs.idle _ rfl rfl rfl fun r => ⟨rfl, fun _ _ h => h, fun _ _ h => h⟩
  | stop => exact hs.idle _ rfl rfl rfl fun r => ⟨rfl, fun _ _ h => h, fun _ _ h => h⟩
  | call req => exact hs.begin req _
  | finish k reply hnone => exact hs.finish _ hnone
  | dispatch rid c target hc hpc => exact hs.dispatch _ hc hpc
  | pickUp rid c hc hpc => exact hs.pickUp hrun hc hpc
  | decide rid c target k reply fate pc hc hpc hconclude => exact hs.decide hrun hc hpc hconclude
  | reply rid c msg hc hpc => exact hs.reply _ hc hpc
  | abandon rid c hc hpc =>
    have hnone := hs.stage_of hc hpc
    exact hs.update ⟨c.req, .abandoned, some none⟩ _ hc rfl rfl rfl
      (fun r _ => ⟨rfl, fun _ _ h => h, fun _ _ h => h⟩) (by simp [hpc]) (by simp) hnone (by simp)
  | accept rid c hc hpc =>
    have hnone := hs.stage_of hc hpc
    exact hs.goto _ hc (by simp [hpc]) (by simp) hnone
  | schedule rid c hc hpc =>
    have hnone := hs.stage_of hc hpc
    refine hs.goto _ hc (by simp [hpc]) (by simp) ⟨?_, by simp [ReplyMsg.failure]⟩
    rw [hnone]
    exact Nat.zero_le 1
  | dropRequest rid c target hc hpc =>
    have hstage := hs.stage_of hc hpc
    refine hs.goto _ hc (by simp [hpc]) (by simp) ⟨?_, by simp [ReplyMsg.failure]⟩
    rw [hstage.1]
    exact Nat.zero_le 1
  | receive rid c target k reply hc hpc hres =>
    have hstage := hs.stage_of hc hpc
    obtain ⟨hdisp, before, after, hpick⟩ := hstage
    exact hs.goto _ hc (by simp [hpc]) (by simp) ⟨hdisp, hres, before, _, hpick.extend _⟩
  | wait rid c target k hc hpc =>
    have hstage := hs.stage_of hc hpc
    obtain ⟨hdisp, before, after, hpick⟩ := hstage
    exact hs.goto _ hc (by simp [hpc]) (by simp) ⟨hdisp, before, _, hpick.extend _⟩
  | desert rid c target k hc hpc =>
    have hstage := hs.stage_of hc hpc
    refine hs.goto _ hc (by simp [hpc]) (by simp) ?_
    change (s.runsOf rid).length ≤ 1
    rw [hstage.1.1, List.length_singleton]
  | giveUp rid c target fate hc hpc =>
    have hstage := hs.stage_of hc hpc
    exact hs.goto _ hc (by simp [hpc]) (by simp) ⟨hstage, by simp [ReplyMsg.failure]⟩

theorem of_run (h : system.run initial labels = some s) : Traced labels s := by
  refine System.run_invariant (I := Traced) nil ?_ h
  intro labels t l u hrun ht hstep
  exact ht.step hrun (step_sound hstep)

end Traced

/-- A server that is registered has not been deleted. -/
theorem registered_not_deleted {labels : List (Label ε ν ω)} {s : State ε ν ω}
    (h : system.run initial labels = some s) (servername : ν) (server : ω)
    (hserver : s.net.servers servername = some server) :
    (servername, server) ∉ s.deleted := by
  refine System.Reachable.invariant (S := system)
    (I := fun s => ∀ n i, s.net.servers n = some i → (n, i) ∉ s.deleted) ?_ ?_
    (System.Reachable.of_run labels rfl h) servername server hserver
  · rintro s rfl n i _
    exact List.not_mem_nil
  · intro s l t _ hs hstep
    cases step_sound hstep with
    | admin _ a h => exact admin_live h hs
    | _ => exact hs

theorem call_semantics {labels : List (Label ε ν ω)} {s : State ε ν ω}
    (hrun : system.run initial labels = some s) :
    (∀ rid, s.replies rid ≤ 1 ∧ (s.runsOf rid).length ≤ 1 ∧
      ∀ c, s.calls rid = some c → c.pc = .ended → s.replies rid = 1) ∧
    ∀ rid c reply, s.calls rid = some c → c.ret = some (some reply) →
      ∃ (before between after : List (Label ε ν ω)) (p m : State ε ν ω) (servername : ν)
        (server : ω) (k : ℕ),
        labels = before ++ .pickUp rid :: (between ++ after) ∧
        system.run initial before = some p ∧
        p.net.connections c.req.endname = some servername ∧
        p.net.servers servername = some server ∧
        s.runsOf rid = [⟨rid, servername, server⟩] ∧
        system.run initial (before ++ .pickUp rid :: between) = some m ∧
        m.runs[k]? = some ⟨rid, servername, server⟩ ∧ m.results k = some ⟨true, reply⟩ ∧
        m.net.servers servername = some server ∧ m.net.enabled c.req.endname = true ∧
        (servername, server) ∉ m.deleted := by
  have htraced := Traced.of_run hrun
  constructor
  · intro rid
    cases hc : s.calls rid with
    | none =>
      obtain ⟨hruns, hreplies⟩ := htraced.unborn rid hc
      simp [hruns, hreplies]
    | some c =>
      have hreplies := htraced.replies rid c hc
      refine ⟨?_, (htraced.stage rid c hc).runs_le, ?_⟩
      · rw [hreplies]
        split <;> omega
      · rintro d hd hended
        obtain rfl := Option.some.inj hd
        rw [hreplies, if_pos hended]
  · intro rid c reply hc hret
    obtain ⟨before, between, after, m, target, k, ⟨hlabels, p, hp, hconn, hserver⟩, hdisp, _, hm,
      hdisp', hres, halive, henabled⟩ := (htraced.returned rid c reply hc hret).2
    exact ⟨before, between, after, p, m, target.servername, target.server, k, hlabels, hp, hconn,
      hserver, hdisp.1, hm, hdisp'.2, hres, halive, henabled,
      registered_not_deleted hm _ _ halive⟩

/-- Two Calls to one server: the first is answered, the server is deleted before
the handler of the second returns. -/
def deletedDuringCall : List (Label ℕ ℕ ℕ) :=
  [.admin (.makeEnd 0), .admin (.addServer 0 1), .admin (.connect 0 0), .admin (.enable 0 true),
    .call ⟨0, "Raft.AppendEntries", [1]⟩, .accept 0, .pickUp 0, .dispatch 0,
    .call ⟨0, "Raft.AppendEntries", [2]⟩, .accept 1, .pickUp 1, .dispatch 1,
    .finish 0 ⟨true, [5]⟩, .receive 0, .decide 0 .send, .reply 0,
    .admin (.deleteServer 0), .finish 1 ⟨true, [6]⟩, .receive 1, .decide 1 .send, .reply 1]

set_option maxRecDepth 4000 in
theorem call_semantics_deletedDuringCall :
    ∃ (s : State ℕ ℕ ℕ) (c d : Call ℕ ℕ ℕ), system.run initial deletedDuringCall = some s ∧
      s.calls 0 = some c ∧ c.ret = some (some [5]) ∧
      (∃ servername server, s.runsOf 0 = [⟨0, servername, server⟩]) ∧
      s.calls 1 = some d ∧ d.ret = some none ∧ s.replies 1 = 1 := by
  have hcheck : (system.run initial deletedDuringCall).any (fun s =>
      (s.calls 0).any (fun c => c.ret = some (some [5])) ∧
        (s.calls 1).any (fun d => d.ret = some none ∧ d.pc = .ended)) = true := by decide
  obtain ⟨s, hs, hp⟩ := (Option.any_eq_true _ _).mp hcheck
  obtain ⟨hp0, hp1⟩ := of_decide_eq_true hp
  obtain ⟨c, hc, hret⟩ := (Option.any_eq_true _ _).mp hp0
  obtain ⟨d, hd, hfail⟩ := (Option.any_eq_true _ _).mp hp1
  obtain ⟨hnone, hended⟩ := of_decide_eq_true hfail
  obtain ⟨hcounts, hreturned⟩ := call_semantics hs
  obtain ⟨_, _, _, _, _, servername, server, _, _, _, _, _, hruns, _⟩ :=
    hreturned 0 c [5] hc (of_decide_eq_true hret)
  exact ⟨s, c, d, hs, hc, of_decide_eq_true hret, ⟨servername, server, hruns⟩, hd, hnone,
    (hcounts 1).2.2 d hd hended⟩

end DistributedLabs.Labrpc
