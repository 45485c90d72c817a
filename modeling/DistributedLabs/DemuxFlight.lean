import DistributedLabs.DemuxInvariants
import Mathlib.Data.List.Perm.Subperm

/-!
The way of a request to the peer and back. It is in one place at a time, what is
there names the call it came from, and as long as the reader has not failed that
call is still registered; a reply is what ServeRequest returned for the request.
-/
namespace DistributedLabs.Demux

open Transition Tables

/-- The calls whose request or reply is on its way. -/
def State.flight (s : State) : List ℕ :=
  s.toSrv.map Msg.origin ++ (s.serving.map Handler.origin ++
    (s.toClnt.map Msg.origin ++ s.reader.msgs.map Msg.origin))

/-- The requests written, those that ServeRequest has answered included. -/
def State.asked (s : State) : List ℕ :=
  s.toSrv.map Msg.origin ++
    ((s.serving.filter fun v => v.result.isNone).map Handler.origin ++
      s.served.map Served.origin)

section Updates

variable {calls : Calls} {id : ℕ} {c' : Call}

/-- A call keeps its tag and its request. -/
def Advances (calls calls' : Calls) : Prop :=
  ∀ id c, calls id = some c → ∃ c', calls' id = some c' ∧ c'.tag = c.tag ∧ c'.req = c.req

theorem Advances.refl (calls : Calls) : Advances calls calls :=
  fun _ c hc => ⟨c, hc, rfl, rfl⟩

theorem Advances.update
    (hold : ∀ c, calls id = some c → c'.tag = c.tag ∧ c'.req = c.req) :
    Advances calls (Function.update calls id (some c')) := by
  intro id₁ c hc
  refine exists_update_of_exists ⟨c, hc, rfl, rfl⟩ ?_
  rintro c₁ hc₁ ⟨htag, hreq⟩
  exact ⟨(hold c₁ hc₁).1.trans htag, (hold c₁ hc₁).2.trans hreq⟩

/-- Calls named at most once, each with its request written. -/
structure Once (calls : Calls) (ids : List ℕ) : Prop where
  nodup : ids.Nodup
  sent : ∀ id ∈ ids, ∃ c, calls id = some c ∧ c.pc.Sent

namespace Once

variable {ids ids' : List ℕ}

theorem update (hs : Once calls ids)
    (hold : ∀ c, calls id = some c → c.pc.Sent → c'.pc.Sent) :
    Once (Function.update calls id (some c')) ids := by
  refine ⟨hs.nodup, ?_⟩
  intro id₁ hmem
  exact exists_update_of_exists (hs.sent id₁ hmem) hold

theorem subperm (hs : Once calls ids) (hsub : ids'.Subperm ids) : Once calls ids' := by
  refine ⟨?_, fun id hmem => hs.sent id (hsub.subset hmem)⟩
  rw [List.nodup_iff_count_le_one]
  intro id
  exact (hsub.count_le id).trans (List.nodup_iff_count_le_one.mp hs.nodup id)

theorem perm (hs : Once calls ids) (hperm : ids'.Perm ids) : Once calls ids' :=
  hs.subperm hperm.subperm

theorem not_mem (hs : Once calls ids) {c : Call} (hc : calls id = some c)
    (hpc : c.pc = .registered) : id ∉ ids := by
  intro hmem
  obtain ⟨c₁, hc₁, hsent⟩ := hs.sent id hmem
  obtain rfl : c = c₁ := Option.some.inj (hc.symm.trans hc₁)
  rw [hpc] at hsent
  rcases hsent with h | ⟨r, h⟩ <;> cases h

/-- WriteCall starts the way of a request. -/
theorem write (hs : Once calls ids) {c : Call} (hc : calls id = some c)
    (hpc : c.pc = .registered) (hperm : ids'.Perm (id :: ids)) :
    Once (Function.update calls id (some { c with pc := .waiting })) ids' := by
  have hold : Once (Function.update calls id (some { c with pc := .waiting })) ids :=
    hs.update fun _ _ _ => Or.inl rfl
  refine Once.perm ⟨List.nodup_cons.mpr ⟨hs.not_mem hc hpc, hs.nodup⟩, ?_⟩ hperm
  intro id₁ hmem
  rcases List.mem_cons.mp hmem with rfl | hmem
  · exact ⟨_, Function.update_self .., Or.inl rfl⟩
  · exact hold.sent id₁ hmem

end Once

/-- While the reader has not failed, a call whose message is on its way is
registered, so its reply finds it; and while the connection holds, every call
that waits has its message on its way. -/
structure Carried (calls : Calls) (channels : Channels) (reader : Reader) (broken : Bool)
    (srv : Srv) (flight : List ℕ) : Prop where
  live : reader.Live → ∀ id ∈ flight,
    ∃ c, calls id = some c ∧ channels.lookup c.tag = some id
  answered : reader.Live → ∀ id, reader.target = some id →
    id ∉ flight ∧ ∃ c, calls id = some c ∧ c.pc = .waiting
  up : broken = false → reader.Live ∧ srv ≠ .stopped ∧
    ∀ id c, calls id = some c → c.pc = .waiting → id ∈ flight ∨ reader.target = some id

namespace Carried

variable {channels channels' : Channels} {reader reader' : Reader} {broken broken' : Bool}
  {srv srv' : Srv} {flight flight' : List ℕ} {c : Call}

/-- A step that moves no call. -/
theorem frame (hs : Carried calls channels reader broken srv flight)
    (hsub : flight' ⊆ flight)
    (hlive : reader'.Live →
      reader.Live ∧ channels' = channels ∧ reader'.target = reader.target)
    (hup : broken' = false →
      broken = false ∧ reader'.Live ∧ srv' ≠ .stopped ∧ flight ⊆ flight') :
    Carried calls channels' reader' broken' srv' flight' where
  live := by
    intro h id hmem
    obtain ⟨hlive', rfl, _⟩ := hlive h
    exact hs.live hlive' id (hsub hmem)
  answered := by
    intro h id htarget
    obtain ⟨hlive', _, heq⟩ := hlive h
    obtain ⟨hnot, hc⟩ := hs.answered hlive' id (heq ▸ htarget)
    exact ⟨fun hmem => hnot (hsub hmem), hc⟩
  up := by
    intro h
    obtain ⟨hbroken, hlive', hsrv, hflight⟩ := hup h
    refine ⟨hlive', hsrv, ?_⟩
    intro id c hc hpc
    rw [(hlive hlive').2.2]
    exact ((hs.up hbroken).2.2 id c hc hpc).imp_left fun hmem => hflight hmem

/-- A step of a call that has not written its request, or loses it. -/
theorem update (hs : Carried calls channels reader broken srv flight)
    (hold : ∀ c, calls id = some c → c.pc ≠ .waiting ∧ c'.tag = c.tag)
    (hmap : ∀ id c, calls id = some c → channels.lookup c.tag = some id →
      channels'.lookup c.tag = some id)
    (hnew : broken = false → c'.pc ≠ .waiting) :
    Carried (Function.update calls id (some c')) channels' reader broken srv flight where
  live := by
    intro h id₁ hmem
    obtain ⟨c, hc, hlookup⟩ := hs.live h id₁ hmem
    refine exists_update_of_exists ⟨c, hc, hmap id₁ c hc hlookup⟩ ?_
    intro c₁ hc₁ hlookup₁
    rw [(hold c₁ hc₁).2]
    exact hlookup₁
  answered := by
    intro h id₁ htarget
    obtain ⟨hnot, c, hc, hpc⟩ := hs.answered h id₁ htarget
    have hid : id₁ ≠ id := by
      rintro rfl
      exact (hold c hc).1 hpc
    exact ⟨hnot, c, update_of_ne_eq_some hid hc, hpc⟩
  up := by
    intro h
    obtain ⟨hlive, hsrv, hwait⟩ := hs.up h
    refine ⟨hlive, hsrv, ?_⟩
    intro id₁ c hc hpc
    rcases update_eq_some hc with ⟨_, hself⟩ | ⟨_, hc'⟩
    · obtain rfl := Option.some.inj hself
      exact absurd hpc (hnew h)
    · exact hwait id₁ c hc' hpc

theorem write (hs : Carried calls channels reader broken srv flight)
    (hm : Mapped calls channels reader.target) (hc : calls id = some c)
    (hpc : c.pc = .registered) (hperm : flight'.Perm (id :: flight)) :
    Carried (Function.update calls id (some { c with pc := .waiting })) channels reader broken
      srv flight' := by
  have hmem : ∀ id₁, id₁ ∈ flight' ↔ id₁ = id ∨ id₁ ∈ flight := by
    intro id₁
    rw [hperm.mem_iff, List.mem_cons]
  have hself : ∀ c₁, calls id = some c₁ → c₁.pc ≠ .waiting := by
    rintro c₁ hc₁ hwait
    obtain rfl : c = c₁ := Option.some.inj (hc.symm.trans hc₁)
    rw [hpc] at hwait
    cases hwait
  refine ⟨?_, ?_, ?_⟩
  · intro h id₁ hin
    by_cases hid : id₁ = id
    · subst hid
      refine ⟨_, Function.update_self .., ?_⟩
      refine (hm.kept id₁ c hc (Or.inl hpc)).resolve_right fun htarget => ?_
      obtain ⟨_, c₁, hc₁, hwait⟩ := hs.answered h id₁ htarget
      exact hself c₁ hc₁ hwait
    · obtain ⟨c₁, hc₁, hlookup⟩ := hs.live h id₁ (((hmem id₁).mp hin).resolve_left hid)
      exact ⟨c₁, update_of_ne_eq_some hid hc₁, hlookup⟩
  · intro h id₁ htarget
    obtain ⟨hnot, c₁, hc₁, hwait⟩ := hs.answered h id₁ htarget
    have hid : id₁ ≠ id := by
      rintro rfl
      exact hself c₁ hc₁ hwait
    refine ⟨fun hin => ?_, c₁, update_of_ne_eq_some hid hc₁, hwait⟩
    exact hnot (((hmem id₁).mp hin).resolve_left hid)
  · intro h
    obtain ⟨hlive, hsrv, hwait⟩ := hs.up h
    refine ⟨hlive, hsrv, ?_⟩
    intro id₁ c₁ hc₁ hpc₁
    rw [hmem]
    rcases update_eq_some hc₁ with ⟨hid, _⟩ | ⟨_, hc'⟩
    · exact Or.inl (Or.inl hid)
    · exact (hwait id₁ c₁ hc' hpc₁).imp_left Or.inr

/-- The reader takes the call of a message out of the callMap. -/
theorem reply {m : Msg} (hs : Carried calls channels (.got m) broken srv flight)
    (ho : Once calls flight) (hm : Mapped calls channels none)
    (hperm : flight.Perm (m.origin :: flight'))
    {tag : Ttag} (hlookup : channels.lookup tag = some m.origin) (r : Reply) :
    Carried calls (channels.erase tag) (.sending m.origin r none) broken srv flight' := by
  have hmem : ∀ id, id ∈ flight ↔ id = m.origin ∨ id ∈ flight' := by
    intro id
    rw [hperm.mem_iff, List.mem_cons]
  have hnot : m.origin ∉ flight' := (List.nodup_cons.mp (hperm.nodup_iff.mp ho.nodup)).1
  refine ⟨?_, ?_, ?_⟩
  · intro _ id hin
    obtain ⟨c, hc, hc_lookup⟩ := hs.live trivial id ((hmem id).mpr (Or.inr hin))
    refine ⟨c, hc, ?_⟩
    have hne : c.tag ≠ tag := by
      rintro rfl
      obtain rfl := Option.some.inj (hc_lookup.symm.trans hlookup)
      exact hnot hin
    rw [Finmap.lookup_erase_ne hne, hc_lookup]
  · rintro _ id ⟨rfl⟩
    obtain ⟨c, hc, hsent⟩ := ho.sent m.origin ((hmem _).mpr (Or.inl rfl))
    obtain ⟨c₁, hc₁, _, hopen, _⟩ := hm.entry tag m.origin hlookup
    obtain rfl : c = c₁ := Option.some.inj (hc.symm.trans hc₁)
    refine ⟨hnot, c, hc, hsent.resolve_right ?_⟩
    rintro ⟨r', hret⟩
    have := hopen.not_returned
    rw [hret] at this
    cases this
  · intro h
    obtain ⟨_, hsrv, hwait⟩ := hs.up h
    refine ⟨trivial, hsrv, ?_⟩
    intro id c hc hpc
    rcases hwait id c hc hpc with hin | htarget
    · rcases (hmem id).mp hin with rfl | hin'
      · exact Or.inr rfl
      · exact Or.inl hin'
    · cases htarget

theorem handOver {r : Reply} {rest : Option (List Ttag)}
    (hs : Carried calls channels (.sending id r rest) broken srv flight)
    (hc : calls id = some c) :
    Carried (Function.update calls id (some { c with pc := .returned r })) channels
      (State.resume rest) broken srv flight := by
  have hlive : (State.resume rest).Live → (Reader.sending id r rest).Live := by
    cases rest <;> exact fun h => h
  refine ⟨?_, ?_, ?_⟩
  · intro h id₁ hmem
    refine exists_update_of_exists (hs.live (hlive h) id₁ hmem) ?_
    intro c₁ hc₁ hlookup
    obtain rfl : c = c₁ := Option.some.inj (hc.symm.trans hc₁)
    exact hlookup
  · intro _ id₁ htarget
    cases rest <;> cases htarget
  · intro h
    obtain ⟨hlive', hsrv, hwait⟩ := hs.up h
    cases rest with
    | some ts => exact absurd hlive' (fun h => h)
    | none =>
      refine ⟨trivial, hsrv, ?_⟩
      intro id₁ c₁ hc₁ hpc
      rcases update_eq_some hc₁ with ⟨_, hself⟩ | ⟨hid, hold⟩
      · obtain rfl := Option.some.inj hself
        cases hpc
      · left
        exact (hwait id₁ c₁ hold hpc).resolve_right fun h => hid (Option.some.inj h).symm

end Carried

/-- The tag and the request of a call. -/
def Asked (calls : Calls) (id : ℕ) (tag : Ttag) (req : List UInt8) : Prop :=
  ∃ c, calls id = some c ∧ c.tag = tag ∧ c.req = req

theorem Asked.mono {calls' : Calls} {tag : Ttag} {req : List UInt8}
    (h : Asked calls id tag req) (hadv : Advances calls calls') : Asked calls' id tag req := by
  obtain ⟨c, hc, htag, hreq⟩ := h
  obtain ⟨c', hc', htag', hreq'⟩ := hadv id c hc
  exact ⟨c', hc', htag'.trans htag, hreq'.trans hreq⟩

/-- What is on its way says what its call asked and what ServeRequest returned. -/
structure Wire (calls : Calls) (served : List Served) (toSrv : List Msg)
    (serving : List Handler) (toClnt : List Msg) : Prop where
  requests : ∀ m ∈ toSrv, Asked calls m.origin m.tag m.data
  handlers : ∀ v ∈ serving, Asked calls v.origin v.tag v.req
  results : ∀ v ∈ serving, ∀ rep ok, v.result = some (rep, ok) →
    ⟨v.origin, v.req, rep, ok⟩ ∈ served
  replies : ∀ m ∈ toClnt, ∃ req, Asked calls m.origin m.tag req ∧
    ⟨m.origin, req, m.data, m.ok⟩ ∈ served

namespace Wire

variable {calls' : Calls} {served : List Served} {toSrv rest : List Msg}
  {serving : List Handler} {toClnt : List Msg} {m : Msg} {v : Handler} {c : Call}

theorem mono (hs : Wire calls served toSrv serving toClnt) (hadv : Advances calls calls') :
    Wire calls' served toSrv serving toClnt where
  requests m hm := (hs.requests m hm).mono hadv
  handlers v hv := (hs.handlers v hv).mono hadv
  results := hs.results
  replies m hm := by
    obtain ⟨req, hasked, hserved⟩ := hs.replies m hm
    exact ⟨req, hasked.mono hadv, hserved⟩

theorem write (hs : Wire calls served toSrv serving toClnt) (hc : calls id = some c) :
    Wire calls served (toSrv ++ [⟨c.tag, c.req, true, id⟩]) serving toClnt where
  requests m hm := by
    rcases List.mem_append.mp hm with hold | hnew
    · exact hs.requests m hold
    · obtain rfl := List.mem_singleton.mp hnew
      exact ⟨c, hc, rfl, rfl⟩
  handlers := hs.handlers
  results := hs.results
  replies := hs.replies

theorem spawn (hs : Wire calls served (m :: rest) serving toClnt) :
    Wire calls served rest (⟨m.tag, m.data, m.origin, none⟩ :: serving) toClnt where
  requests m' hm := hs.requests m' (List.mem_cons_of_mem m hm)
  handlers v hv := by
    rcases List.mem_cons.mp hv with rfl | hold
    · exact hs.requests m List.mem_cons_self
    · exact hs.handlers v hold
  results v hv rep ok hres := by
    rcases List.mem_cons.mp hv with rfl | hold
    · cases hres
    · exact hs.results v hold rep ok hres
  replies := hs.replies

theorem serve (hs : Wire calls served toSrv serving toClnt) (hv : v ∈ serving)
    (rep : List UInt8) (ok : Bool) :
    Wire calls (served ++ [⟨v.origin, v.req, rep, ok⟩]) toSrv
      ({ v with result := some (rep, ok) } :: serving.erase v) toClnt where
  requests := hs.requests
  handlers v' hv' := by
    rcases List.mem_cons.mp hv' with rfl | hold
    · exact hs.handlers v hv
    · exact hs.handlers v' (List.mem_of_mem_erase hold)
  results v' hv' rep' ok' hres := by
    rcases List.mem_cons.mp hv' with rfl | hold
    · cases hres
      exact List.mem_append_right _ List.mem_cons_self
    · exact List.mem_append_left _ (hs.results v' (List.mem_of_mem_erase hold) rep' ok' hres)
  replies m hm := by
    obtain ⟨req, hasked, hserved⟩ := hs.replies m hm
    exact ⟨req, hasked, List.mem_append_left _ hserved⟩

theorem finish (hs : Wire calls served toSrv serving toClnt) (v : Handler) :
    Wire calls served toSrv (serving.erase v) toClnt where
  requests := hs.requests
  handlers v' hv' := hs.handlers v' (List.mem_of_mem_erase hv')
  results v' hv' := hs.results v' (List.mem_of_mem_erase hv')
  replies := hs.replies

/-- More or other replies, all of them results of ServeRequest. -/
theorem answer (hs : Wire calls served toSrv serving toClnt) {toClnt' : List Msg}
    (h : ∀ m ∈ toClnt', m ∈ toClnt ∨ ∃ v ∈ serving, m.origin = v.origin ∧ m.tag = v.tag ∧
      v.result = some (m.data, m.ok)) :
    Wire calls served toSrv serving toClnt' where
  requests := hs.requests
  handlers := hs.handlers
  results := hs.results
  replies m hm := by
    rcases h m hm with hold | ⟨v, hv, horigin, htag, hres⟩
    · exact hs.replies m hold
    · rw [horigin, htag]
      exact ⟨v.req, hs.handlers v hv, hs.results v hv m.data m.ok hres⟩

end Wire

/-- A reply without an error is what ServeRequest returned for the call. -/
def Answered (calls : Calls) (served : List Served) (id : ℕ) (r : Reply) : Prop :=
  r.err = none → ∃ tag req, Asked calls id tag req ∧ ⟨id, req, r.rep, r.ok⟩ ∈ served

theorem Answered.mono {calls' : Calls} {served served' : List Served} {r : Reply}
    (h : Answered calls served id r) (hadv : Advances calls calls')
    (hserved : served ⊆ served') : Answered calls' served' id r := by
  intro herr
  obtain ⟨tag, req, hasked, hmem⟩ := h herr
  exact ⟨tag, req, hasked.mono hadv, hserved hmem⟩

structure Answers (calls : Calls) (served : List Served) (reader : Reader) : Prop where
  sends : ∀ id r rest, reader = .sending id r rest → Answered calls served id r
  returns : ∀ id c r, calls id = some c → c.pc = .returned r → Answered calls served id r

namespace Answers

variable {served : List Served} {reader : Reader}

theorem update (hs : Answers calls served reader)
    (hold : ∀ c, calls id = some c → c'.tag = c.tag ∧ c'.req = c.req)
    (hnew : ∀ r, c'.pc = .returned r → Answered calls served id r) :
    Answers (Function.update calls id (some c')) served reader where
  sends id₁ r rest h := (hs.sends id₁ r rest h).mono (.update hold) (List.Subset.refl _)
  returns id₁ c r hc hpc := by
    refine Answered.mono ?_ (.update hold) (List.Subset.refl _)
    rcases update_eq_some hc with ⟨rfl, hself⟩ | ⟨_, hc'⟩
    · obtain rfl := Option.some.inj hself
      exact hnew r hpc
    · exact hs.returns id₁ c r hc' hpc

theorem of_sends (hs : Answers calls served reader) {reader' : Reader}
    (h : ∀ id r rest, reader' = .sending id r rest → Answered calls served id r) :
    Answers calls served reader' :=
  ⟨h, hs.returns⟩

theorem serve (hs : Answers calls served reader) (w : Served) :
    Answers calls (served ++ [w]) reader where
  sends id r rest h := (hs.sends id r rest h).mono (.refl _) (List.subset_append_left _ _)
  returns id c r hc hpc :=
    (hs.returns id c r hc hpc).mono (.refl _) (List.subset_append_left _ _)

end Answers

/-- A registered call has been handed one reply, or is still open. -/
structure Delivered (calls : Calls) (registered delivered : List ℕ) : Prop where
  nodup : delivered.Nodup
  returned : ∀ id ∈ delivered, ∃ c, calls id = some c ∧ c.pc.isReturned = true
  kept : ∀ id ∈ registered, id ∈ delivered ∨ ∃ c, calls id = some c ∧ c.pc.Open

namespace Delivered

variable {registered delivered : List ℕ} {c : Call}

theorem update (hs : Delivered calls registered delivered)
    (hold : ∀ c, calls id = some c → c.pc.isReturned = false ∧ (c.pc.Open → c'.pc.Open)) :
    Delivered (Function.update calls id (some c')) registered delivered where
  nodup := hs.nodup
  returned := by
    intro id₁ hmem
    obtain ⟨c, hc, hret⟩ := hs.returned id₁ hmem
    have hid : id₁ ≠ id := by
      rintro rfl
      rw [(hold c hc).1] at hret
      cases hret
    exact ⟨c, update_of_ne_eq_some hid hc, hret⟩
  kept := by
    intro id₁ hmem
    rcases hs.kept id₁ hmem with hdel | ⟨c, hc, hopen⟩
    · exact Or.inl hdel
    · right
      exact exists_update_of_exists ⟨c, hc, hopen⟩ fun c₁ hc₁ => (hold c₁ hc₁).2

theorem register (hs : Delivered calls registered delivered) (hc : calls id = some c)
    (hopen : c.pc.Open) : Delivered calls (registered ++ [id]) delivered where
  nodup := hs.nodup
  returned := hs.returned
  kept := by
    intro id₁ hmem
    rcases List.mem_append.mp hmem with hold | hnew
    · exact hs.kept id₁ hold
    · obtain rfl := List.mem_singleton.mp hnew
      exact Or.inr ⟨c, hc, hopen⟩

theorem handOver (hs : Delivered calls registered delivered) (hc : calls id = some c)
    (hpc : c.pc = .waiting) (r : Reply) :
    Delivered (Function.update calls id (some { c with pc := .returned r })) registered
      (delivered ++ [id]) := by
  have hnew : id ∉ delivered := by
    intro hmem
    obtain ⟨c₁, hc₁, hret⟩ := hs.returned id hmem
    obtain rfl : c = c₁ := Option.some.inj (hc.symm.trans hc₁)
    rw [hpc] at hret
    cases hret
  refine ⟨?_, ?_, ?_⟩
  · rw [← List.concat_eq_append]
    exact hs.nodup.concat hnew
  · intro id₁ hmem
    by_cases hid : id₁ = id
    · subst hid
      exact ⟨_, Function.update_self .., rfl⟩
    · have hold : id₁ ∈ delivered := by simpa [hid] using hmem
      obtain ⟨c₁, hc₁, hret⟩ := hs.returned id₁ hold
      exact ⟨c₁, update_of_ne_eq_some hid hc₁, hret⟩
  · intro id₁ hmem
    by_cases hid : id₁ = id
    · exact Or.inl (by simp [hid])
    · rcases hs.kept id₁ hmem with hdel | ⟨c₁, hc₁, hopen⟩
      · exact Or.inl (List.mem_append_left _ hdel)
      · exact Or.inr ⟨c₁, update_of_ne_eq_some hid hc₁, hopen⟩

end Delivered

end Updates

end DistributedLabs.Demux
