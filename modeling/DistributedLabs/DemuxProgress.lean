import DistributedLabs.DemuxSound
import Mathlib.Algebra.BigOperators.Group.Finset.Basic

/-!
No call over the connection is left hanging. When neither side has anything left
to do every call has returned, and without new calls and new Closes both sides
come to that: each of their steps lowers the weight of what is still to be done.
-/
namespace DistributedLabs.Demux

open Transition Tables

variable {s t : State} {id : ℕ} {c : Call}

/-- What happens without a new call, a Close or a failure of the connection. -/
def Label.Internal : Label → Prop
  | .send _ => False
  | .isClosed => False
  | .fail => False
  | _ => True

/-- Nothing is left to do for the goroutines of either side. -/
def Quiescent (s : State) : Prop := ∀ l, l.Internal → step s l = none

namespace Quiescent

theorem waiting_or_returned (hq : Quiescent s) (hc : s.calls id = some c) :
    c.pc = .waiting ∨ c.pc.isReturned = true := by
  cases hpc : c.pc with
  | tagged =>
    have hput := hq (.put id) trivial
    cases hcm : s.callmap.put c.tag id <;> simp [step, hc, hpc, hcm] at hput
  | registered =>
    have hwrite := hq (.write id true) trivial
    simp [step, hc, hpc] at hwrite
  | waiting => exact Or.inl rfl
  | returned r => exact Or.inr rfl

/-- The reader has come to its end, or has nothing to read on a sound connection. -/
theorem reader (hq : Quiescent s) (hs : Sound s) :
    s.reader = .stopped ∨ s.reader = .reading ∧ s.broken = false ∧ s.toClnt = [] := by
  cases hreader : s.reader with
  | reading =>
    right
    refine ⟨rfl, ?_, ?_⟩
    · have herr := hq .readErr trivial
      simpa [step, hreader] using herr
    · have hread := hq .read trivial
      cases hclnt : s.toClnt with
      | nil => rfl
      | cons m rest => simp [step, hreader, hclnt] at hread
  | got m =>
    have hreply := hq .reply trivial
    simp [step, hreader] at hreply
  | sending ch r rest =>
    obtain ⟨c, hc, hopen⟩ := hs.mapped.sends ch (by rw [hreader]; rfl)
    have hwait : c.pc = .waiting := by
      refine (hq.waiting_or_returned hc).resolve_right ?_
      simp [hopen.not_returned]
    have hover := hq .handOver trivial
    simp [step, hreader, hc, hwait] at hover
  | failed =>
    have hclose := hq .closeCallmap trivial
    simp [step, hreader] at hclose
  | closed =>
    have hts := hq (.outstanding s.callmap.calls.keys.toList) trivial
    simp [step, hreader, CallMap.Outstanding, Finset.nodup_toList] at hts
  | draining ts =>
    have hreply := hq .reply trivial
    cases ts <;> simp [step, hreader] at hreply
  | stopped => exact Or.inl rfl
  | fatal tag => exact (hs.drained_of hreader).elim

/-- On a sound connection the peer has answered everything. -/
theorem peer (hq : Quiescent s) (hs : Sound s) (hbroken : s.broken = false) :
    s.toSrv = [] ∧ s.serving = [] := by
  constructor
  · have hread := hq .srvRead trivial
    cases hsrv : s.toSrv with
    | nil => rfl
    | cons m rest =>
      cases hpeer : s.srv with
      | init =>
        have hinit := hq .srvInit trivial
        simp [step, hpeer] at hinit
      | reading => simp [step, hsrv, hpeer] at hread
      | stopped => exact absurd hpeer (hs.carried.up hbroken).2.1
  · rw [List.eq_nil_iff_forall_not_mem]
    intro v hv
    cases hres : v.result with
    | none =>
      have hserve := hq (.serve v [] false) trivial
      simp [step, hv, hres] at hserve
    | some r =>
      have hwrite := hq (.srvWrite v true) trivial
      simp [step, hv, hres] at hwrite

theorem returned (hq : Quiescent s) (hs : Sound s) (hc : s.calls id = some c) :
    c.pc.isReturned = true := by
  refine (hq.waiting_or_returned hc).resolve_left fun hwait => ?_
  rcases hq.reader hs with hstop | ⟨hreader, hbroken, hclnt⟩
  · exact hs.not_open_of_stopped hstop hc (Or.inr hwait)
  · obtain ⟨hsrv, hserving⟩ := hq.peer hs hbroken
    have hin := (hs.carried.up hbroken).2.2 id c hc hwait
    simp [State.flight, hsrv, hserving, hclnt, hreader, Reader.msgs, Reader.target] at hin

end Quiescent

/-- An upper bound of the steps that a call has ahead of it, with those of its request. -/
def Pc.weight : Pc → ℕ
  | .tagged => 9
  | .registered => 7
  | .waiting => 1
  | .returned _ => 0

def Reader.weight : Reader → ℕ
  | .reading => 4
  | .got _ => 5
  | .sending _ _ none => 5
  | .sending _ _ (some _) => 1
  | .failed => 3
  | .closed => 2
  | .draining _ => 1
  | .stopped => 0
  | .fatal _ => 0

def Srv.weight : Srv → ℕ
  | .init => 2
  | .reading => 1
  | .stopped => 0

/-- Of the peer's goroutines; one before ServeRequest has a step more ahead of it. -/
def servingWeight (serving : List Handler) : ℕ :=
  3 * serving.length + serving.countP fun v => v.result.isNone

def Calls.weight (calls : Calls) (n : ℕ) : ℕ :=
  ∑ id ∈ Finset.range n, (calls id).elim 0 fun c => c.pc.weight

/-- The reader's own steps, and one for each call left in the callMap. -/
def Reader.total (reader : Reader) (channels : Channels) : ℕ :=
  reader.weight + channels.keys.card

/-- The weight of what is still to be done. -/
def State.weight (s : State) : ℕ :=
  Calls.weight s.calls s.issued + s.reader.total s.callmap.calls + 5 * s.toSrv.length +
    servingWeight s.serving + 2 * s.toClnt.length + s.srv.weight +
    2 * s.checked + s.closing

theorem Calls.weight_update {calls : Calls} {n : ℕ} (hid : id < n) (hc : calls id = some c)
    (c' : Call) :
    Calls.weight (Function.update calls id (some c')) n + c.pc.weight =
      Calls.weight calls n + c'.pc.weight := by
  have hmem : id ∈ Finset.range n := Finset.mem_range.mpr hid
  have hrest : ∑ i ∈ (Finset.range n).erase id,
      (Function.update calls id (some c') i).elim 0 (fun c => c.pc.weight) =
      ∑ i ∈ (Finset.range n).erase id, (calls i).elim 0 fun c => c.pc.weight := by
    apply Finset.sum_congr rfl
    intro i hi
    rw [Function.update_of_ne (Finset.ne_of_mem_erase hi)]
  rw [Calls.weight, Calls.weight, ← Finset.add_sum_erase _ _ hmem, hrest,
    ← Finset.add_sum_erase _ (fun i => (calls i).elim 0 fun c => c.pc.weight) hmem,
    Function.update_self, hc]
  simp only [Option.elim_some]
  omega

theorem card_keys_insert (channels : Channels) (tag : Ttag) (ch : ℕ) :
    (channels.insert tag ch).keys.card ≤ channels.keys.card + 1 := by
  refine (Finset.card_le_card fun t ht => ?_).trans (Finset.card_insert_le tag _)
  rw [Finmap.mem_keys, Finmap.mem_insert] at ht
  rw [Finset.mem_insert, Finmap.mem_keys]
  exact ht

theorem servingWeight_cons (v : Handler) (serving : List Handler) :
    servingWeight (v :: serving) =
      servingWeight serving + (3 + if v.result.isNone then 1 else 0) := by
  simp only [servingWeight, List.length_cons, List.countP_cons]
  omega

theorem servingWeight_erase {serving : List Handler} {v : Handler} (hv : v ∈ serving) :
    servingWeight (serving.erase v) + (3 + if v.result.isNone then 1 else 0) =
      servingWeight serving := by
  have hperm := List.perm_cons_erase hv
  rw [← servingWeight_cons]
  simp only [servingWeight, hperm.length_eq, hperm.countP_eq]

/-- Taking a call out of the callMap pays for the reader's next step. -/
theorem weight_reply {tag : Ttag} {r : Reply} {rest : Option (List Ttag)}
    (h : ∀ ch, (Reader.sending ch r rest).weight ≤ s.reader.weight) :
    (s.reply tag r rest).weight < s.weight := by
  cases hlookup : s.callmap.calls.lookup tag with
  | none =>
    have hreply : s.reply tag r rest = { s with reader := .fatal tag } := by
      simp [State.reply, CallMap.remove, hlookup]
    have hfatal : (Reader.fatal tag).weight = 0 := rfl
    have hpos : 0 < (Reader.sending 0 r rest).weight := by
      cases rest <;> simp [Reader.weight]
    have hle := h 0
    rw [hreply]
    simp only [State.weight, Reader.total, hfatal]
    omega
  | some ch =>
    have hcard : (s.callmap.calls.erase tag).keys.card + 1 = s.callmap.calls.keys.card := by
      rw [Finmap.keys_erase, Finset.card_erase_add_one]
      exact Finmap.mem_keys.mpr (Finmap.mem_of_lookup_eq_some hlookup)
    have hle := h ch
    rw [reply_of_lookup hlookup]
    simp only [State.weight, Reader.total]
    omega

theorem weight_step (hs : Sound s) {l : Label} (hl : l.Internal) (h : Step s l t) :
    t.weight < s.weight := by
  have hlt : ∀ {id c}, s.calls id = some c → id < s.issued :=
    fun hc => (hs.numbered.known _ _ hc).1
  cases h with
  | send req hfree => exact hl.elim
  | @put id c cm hc hpc hput =>
    obtain ⟨_, rfl⟩ := CallMap.put_eq_some hput
    have hcalls := Calls.weight_update (hlt hc) hc { c with pc := .registered }
    have hcard := card_keys_insert s.callmap.calls c.tag id
    simp only [hpc, Pc.weight] at hcalls
    simp only [State.weight, State.register, State.goto, Reader.total]
    omega
  | @refuse id c hc hpc hput =>
    have hcalls := Calls.weight_update (hlt hc) hc { c with pc := .returned .connClosed }
    simp only [hpc, Pc.weight] at hcalls
    simp only [State.weight, State.goto]
    omega
  | @write id c hc hpc =>
    have hcalls := Calls.weight_update (hlt hc) hc { c with pc := .waiting }
    simp only [hpc, Pc.weight] at hcalls
    simp only [State.weight, State.writeCall, State.goto, List.length_append, List.length_cons,
      List.length_nil]
    omega
  | @writeLost id c hc hpc hbroken =>
    have hcalls := Calls.weight_update (hlt hc) hc { c with pc := .waiting }
    simp only [hpc, Pc.weight] at hcalls
    simp only [State.weight, State.goto]
    omega
  | read hreader hclnt =>
    simp only [State.weight, Reader.total, hreader, hclnt, Reader.weight, List.length_cons]
    omega
  | readErr hreader hbroken =>
    simp only [State.weight, Reader.total, hreader, Reader.weight]
    omega
  | reply hreader =>
    refine weight_reply fun ch => ?_
    rw [hreader]
    exact le_rfl
  | replyFail hreader =>
    refine weight_reply fun ch => ?_
    rw [hreader]
    exact le_rfl
  | stop hreader =>
    simp only [State.weight, Reader.total, hreader, Reader.weight]
    omega
  | @handOver id c r rest hreader hc hpc =>
    have hcalls := Calls.weight_update (hlt hc) hc { c with pc := .returned r }
    have hresume : (State.resume rest).weight ≤ s.reader.weight := by
      rw [hreader]
      cases rest <;> simp [State.resume, Reader.weight]
    simp only [hpc, Pc.weight] at hcalls
    simp only [State.weight, State.handOver, State.goto, Reader.total]
    omega
  | closeCallmap hreader =>
    simp only [State.weight, Reader.total, hreader, Reader.weight, CallMap.close]
    omega
  | outstanding hreader hts =>
    simp only [State.weight, Reader.total, hreader, Reader.weight]
    omega
  | isClosed hopen => exact hl.elim
  | closeTrans hchecked =>
    simp only [State.weight]
    omega
  | closeDone hclosing =>
    simp only [State.weight, CallMap.close]
    omega
  | fail => exact hl.elim
  | srvInit hpeer =>
    simp only [State.weight, hpeer, Srv.weight]
    omega
  | srvRead hsrv hpeer =>
    simp only [State.weight, State.spawn, hsrv, List.length_cons, servingWeight_cons,
      Option.isNone_none, if_true]
    omega
  | srvErr hbroken hpeer =>
    have hpos : 0 < s.srv.weight := by
      cases hsrv : s.srv with
      | init => simp [Srv.weight]
      | reading => simp [Srv.weight]
      | stopped => exact absurd hsrv hpeer
    have hzero : Srv.stopped.weight = 0 := rfl
    simp only [State.weight, hzero]
    omega
  | @serve v rep ok hv hres =>
    have hsum := servingWeight_erase hv
    rw [hres, Option.isNone_none, if_pos rfl] at hsum
    simp only [State.weight, State.serve, servingWeight_cons, Option.isNone_some,
      Bool.false_eq_true, if_false]
    omega
  | @srvWrite v rep ok hv hres =>
    have hsum := servingWeight_erase hv
    simp only [State.weight, State.srvWrite, List.length_append, List.length_cons,
      List.length_nil]
    omega
  | @srvWriteLost v rep ok hv hres hbroken =>
    have hsum := servingWeight_erase hv
    simp only [State.weight]
    omega

/-- Both sides come to rest, in whatever order they take their steps. -/
theorem internal_runs_end (hr : system.Reachable s) (labels : List Label)
    (hlabels : ∀ l ∈ labels, l.Internal) (h : system.run s labels = some t) :
    labels.length ≤ s.weight := by
  have hle := System.Reachable.length_run_le
    (fun s _ _ hs hl hstep => weight_step (Sound.of_reachable hs) hl (step_sound hstep))
    labels hlabels hr h
  omega

end DistributedLabs.Demux
