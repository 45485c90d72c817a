import DistributedLabs.DemuxProgress

/-!
Calls over one connection are neither mixed up, lost nor left hanging.
-/
namespace DistributedLabs.Demux

open Transition Tables

variable {s t : State} {id : ℕ} {c : Call}

namespace Sound

theorem served_unique (hs : Sound s) {v w : Served} (hv : v ∈ s.served) (hw : w ∈ s.served)
    (h : w.origin = v.origin) : w = v := by
  have hnodup : (s.served.map Served.origin).Nodup :=
    (List.nodup_append.mp (List.nodup_append.mp hs.asked.nodup).2.1).2.1
  exact List.inj_on_of_nodup_map hnodup hw hv h

theorem returned_served (hs : Sound s) {r : Reply} (hc : s.calls id = some c)
    (hpc : c.pc = .returned r) (herr : r.err = none) :
    ⟨id, c.req, r.rep, r.ok⟩ ∈ s.served := by
  obtain ⟨tag, req, ⟨c', hc', _, rfl⟩, hserved⟩ := hs.answers.returns id c r hc hpc herr
  obtain rfl : c = c' := Option.some.inj (hc.symm.trans hc')
  exact hserved

theorem count_delivered (hs : Sound s) (hreg : id ∈ s.registered) :
    s.delivered.count id = 1 ∨ s.delivered.count id = 0 ∧ ∃ c, s.calls id = some c ∧ c.pc.Open := by
  rcases hs.delivered.kept id hreg with hdel | ⟨c, hc, hopen⟩
  · exact Or.inl (List.count_eq_one_of_mem hs.delivered.nodup hdel)
  · refine Or.inr ⟨List.count_eq_zero.mpr fun hdel => ?_, c, hc, hopen⟩
    obtain ⟨c', hc', hret⟩ := hs.delivered.returned id hdel
    obtain rfl : c = c' := Option.some.inj (hc.symm.trans hc')
    rw [hopen.not_returned] at hret
    cases hret

end Sound

theorem reply_frame (s : State) (tag : Ttag) (r : Reply) (rest : Option (List Ttag)) :
    (s.reply tag r rest).calls = s.calls ∧
      (s.reply tag r rest).callmap.closed = s.callmap.closed := by
  cases h : s.callmap.calls.lookup tag with
  | none => simp [State.reply, CallMap.remove, h]
  | some ch =>
    rw [reply_of_lookup h]
    exact ⟨rfl, rfl⟩

/-- A call after the callMap was closed is refused by put. -/
def Refused (s t : State) : Prop :=
  t.callmap.closed = true ∧ ∀ id c, s.calls id = none → t.calls id = some c →
    c.pc = .tagged ∨ c.pc = .returned .connClosed

namespace Refused

variable {u : State}

/-- One call moves, to where a refused call may be. -/
theorem goto (hs : Refused s t) {c' : Call}
    (h : s.calls id = none → c'.pc = .tagged ∨ c'.pc = .returned .connClosed)
    (hcalls : u.calls = Function.update t.calls id (some c'))
    (hclosed : u.callmap.closed = t.callmap.closed) : Refused s u := by
  refine ⟨hclosed.trans hs.1, ?_⟩
  intro id₁ c hnone hc
  rw [hcalls] at hc
  rcases update_eq_some hc with ⟨rfl, hself⟩ | ⟨_, hold⟩
  · obtain rfl := Option.some.inj hself
    exact h hnone
  · exact hs.2 id₁ c hnone hold

theorem step (hs : Refused s t) {l : Label} (h : Step t l u) : Refused s u := by
  -- a later call is neither registered nor waiting
  have hlate : ∀ {id c}, s.calls id = none → t.calls id = some c → ¬ c.pc.Open := by
    intro id c hnone hc hopen
    rcases hs.2 id c hnone hc with hpc | hpc <;> rw [hpc] at hopen <;>
      rcases hopen with h | h <;> cases h
  cases h with
  | send req hfree => exact hs.goto (fun _ => Or.inl rfl) rfl rfl
  | put hc hpc hput =>
    have := (CallMap.put_eq_some hput).1
    rw [hs.1] at this
    cases this
  | refuse hc hpc hput => exact hs.goto (fun _ => Or.inr rfl) rfl rfl
  | write hc hpc =>
    exact hs.goto (fun hnone => absurd (Or.inl hpc) (hlate hnone hc)) rfl rfl
  | writeLost hc hpc hbroken =>
    exact hs.goto (fun hnone => absurd (Or.inl hpc) (hlate hnone hc)) rfl rfl
  | handOver hreader hc hpc =>
    exact hs.goto (fun hnone => absurd (Or.inr hpc) (hlate hnone hc)) rfl rfl
  | reply hreader =>
    obtain ⟨hcalls, hclosed⟩ := reply_frame t _ _ none
    exact ⟨hclosed.trans hs.1, by rw [hcalls]; exact hs.2⟩
  | @replyFail tag ts hreader =>
    obtain ⟨hcalls, hclosed⟩ := reply_frame t tag .readerFail (some ts)
    exact ⟨hclosed.trans hs.1, by rw [hcalls]; exact hs.2⟩
  | closeCallmap hreader => exact ⟨rfl, hs.2⟩
  | closeDone hclosing => exact ⟨rfl, hs.2⟩
  | _ => exact hs

theorem of_reaches (hclosed : s.callmap.closed = true) (h : system.Reaches s t) :
    Refused s t := by
  induction h with
  | refl =>
    refine ⟨hclosed, ?_⟩
    intro id c hnone hc
    rw [hnone] at hc
    cases hc
  | tail l _ hstep ih => exact ih.step (step_sound hstep)

/-- Such a call has returned with an error, or does so at its next step. -/
theorem fails (hs : Refused s t) (hnone : s.calls id = none) (hc : t.calls id = some c) :
    c.pc = .returned .connClosed ∨
      ∃ u, Demux.step t (.put id) = some u ∧
        u.calls id = some { c with pc := .returned .connClosed } := by
  rcases hs.2 id c hnone hc with hpc | hpc
  · right
    have hput : t.callmap.put c.tag id = none := CallMap.put_eq_none.mpr hs.1
    exact ⟨t.goto id c (.returned .connClosed), by simp [Demux.step, hc, hpc, hput],
      Function.update_self ..⟩
  · exact Or.inl hpc

end Refused

/-- Whatever the order of the answers, and whenever the connection fails or is
closed: a nil error comes with what ServeRequest returned for the call's own
request, a registered call gets one reply, both sides come to rest and leave no
call waiting then, a reader that has come to its end leaves the callMap empty and
later calls fail, and no reply is without its call. -/
theorem calls_demultiplexed (hr : system.Reachable s) :
    (∀ id c r, s.calls id = some c → c.pc = .returned r → r.err = none →
      ∃ v ∈ s.served, (v.origin = id ∧ v.req = c.req ∧ v.rep = r.rep ∧ v.ok = r.ok) ∧
        ∀ w ∈ s.served, w.origin = id → w = v) ∧
    (∀ id ∈ s.registered, s.delivered.count id ≤ 1 ∧
      (s.delivered.count id = 0 →
        (∃ tag, s.callmap.calls.lookup tag = some id) ∨ s.reader.target = some id) ∧
      (s.reader = .stopped ∨ Quiescent s → s.delivered.count id = 1)) ∧
    ((∃ n, ∀ labels t, (∀ l ∈ labels, l.Internal) → system.run s labels = some t →
        labels.length ≤ n) ∧
      (Quiescent s → ∀ id c, s.calls id = some c → c.pc.isReturned = true)) ∧
    (s.reader = .stopped → s.callmap.calls = ∅ ∧
      ∀ t, system.Reaches s t → ∀ id c, s.calls id = none → t.calls id = some c →
        c.pc = .returned .connClosed ∨
          ∃ u, step t (.put id) = some u ∧
            u.calls id = some { c with pc := .returned .connClosed }) ∧
    ∀ tag, s.reader ≠ .fatal tag := by
  have hs := Sound.of_reachable hr
  refine ⟨?_, ?_, ⟨⟨s.weight, fun labels t => internal_runs_end hr labels⟩,
    fun hq id c => hq.returned hs⟩, ?_, ?_⟩
  · intro id c r hc hpc herr
    have hserved := hs.returned_served hc hpc herr
    exact ⟨_, hserved, ⟨rfl, rfl, rfl, rfl⟩, fun w hw h => hs.served_unique hserved hw h⟩
  · intro id hreg
    rcases hs.count_delivered hreg with hone | ⟨hzero, c, hc, hopen⟩
    · exact ⟨by omega, fun h => by omega, fun _ => hone⟩
    · refine ⟨by omega, fun _ => ?_, fun h => ?_⟩
      · exact (hs.mapped.kept id c hc hopen).imp_left fun h => ⟨c.tag, h⟩
      · rcases h with hstop | hq
        · exact absurd hopen (hs.not_open_of_stopped hstop hc)
        · have hret := hq.returned hs hc
          rw [hopen.not_returned] at hret
          cases hret
  · intro hreader
    have hdrained := hs.drained_of hreader
    refine ⟨hdrained.2, ?_⟩
    intro t ht id c hnone hc
    exact (Refused.of_reaches hdrained.1 ht).fails hnone hc
  · intro tag hreader
    exact hs.drained_of hreader

/-- Two calls answered in the other order, a third that Close fails, and a fourth
after the reader's end. -/
def reorderedThenClosed : List Label :=
  [.send [1], .send [2], .put 1, .put 2, .write 1 true, .write 2 true, .srvInit, .srvRead,
    .srvRead, .serve ⟨2, [2], 2, none⟩ [20] true, .srvWrite ⟨2, [2], 2, some ([20], true)⟩ true,
    .serve ⟨1, [1], 1, none⟩ [10] false, .srvWrite ⟨1, [1], 1, some ([10], false)⟩ true,
    .read, .reply, .handOver, .read, .reply, .handOver, .send [3], .put 3, .write 3 true,
    .isClosed, .closeTrans, .readErr, .closeCallmap, .outstanding [3], .closeDone, .reply,
    .handOver, .reply, .send [4], .put 4]

set_option maxRecDepth 4000 in
theorem calls_demultiplexed_reorderedThenClosed :
    ∃ s, system.Reachable s ∧
      ((s.calls 1).map Call.pc = some (.returned ⟨[10], false, none⟩) ∧
        (s.calls 2).map Call.pc = some (.returned ⟨[20], true, none⟩) ∧
        (s.calls 3).map Call.pc = some (.returned .readerFail) ∧
        (s.calls 4).map Call.pc = some (.returned .connClosed)) ∧
      s.reader = .stopped ∧ s.callmap.calls = ∅ ∧
      ∀ id ∈ [1, 2, 3], s.delivered.count id = 1 := by
  obtain ⟨s, hr, hp⟩ := System.Reachable.of_run_check (S := system) reorderedThenClosed
    (p := fun s => decide (((s.calls 1).map Call.pc = some (.returned ⟨[10], false, none⟩) ∧
        (s.calls 2).map Call.pc = some (.returned ⟨[20], true, none⟩) ∧
        (s.calls 3).map Call.pc = some (.returned .readerFail) ∧
        (s.calls 4).map Call.pc = some (.returned .connClosed)) ∧
      s.reader = .stopped ∧ s.registered = [1, 2, 3])) rfl (by decide +kernel)
  obtain ⟨hcalls, hreader, hreg⟩ := of_decide_eq_true hp
  obtain ⟨_, hone, _, hempty, _⟩ := calls_demultiplexed hr
  refine ⟨s, hr, hcalls, hreader, (hempty hreader).1, ?_⟩
  intro id hid
  exact (hone id (hreg ▸ hid)).2.2 (Or.inl hreader)

end DistributedLabs.Demux
