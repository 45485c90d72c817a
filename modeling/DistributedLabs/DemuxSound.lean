import DistributedLabs.DemuxFlight

/-!
The parts of the invariant of the multiplexed calls, put together and kept by
every step.
-/
namespace DistributedLabs.Demux

open Transition Tables

variable {s t : State} {id : ℕ} {c : Call}

theorem reply_of_lookup {tag : Ttag} {ch : ℕ} (h : s.callmap.calls.lookup tag = some ch)
    (r : Reply) (rest : Option (List Ttag)) :
    s.reply tag r rest =
      { s with
        callmap := { s.callmap with calls := s.callmap.calls.erase tag }
        reader := .sending ch r rest } := by
  simp [State.reply, CallMap.remove, h]

section Places

variable {m : Msg} {rest : List Msg} {v : Handler}

theorem flight_writeCall : (s.writeCall id c).flight.Perm (id :: s.flight) := by
  simp [State.flight, State.writeCall, State.goto]

theorem asked_writeCall : (s.writeCall id c).asked.Perm (id :: s.asked) := by
  simp [State.asked, State.writeCall, State.goto]

theorem flight_spawn (hsrv : s.toSrv = m :: rest) : (s.spawn m rest).flight.Perm s.flight := by
  simp [State.flight, State.spawn, hsrv]

theorem asked_spawn (hsrv : s.toSrv = m :: rest) : (s.spawn m rest).asked.Perm s.asked := by
  simp [State.asked, State.spawn, hsrv]

theorem origins_erase {serving : List Handler} (hv : v ∈ serving) :
    (serving.map Handler.origin).Perm (v.origin :: (serving.erase v).map Handler.origin) :=
  (List.perm_cons_erase hv).map _

theorem flight_serve (hv : v ∈ s.serving) (rep : List UInt8) (ok : Bool) :
    (s.serve v rep ok).flight.Perm s.flight :=
  ((origins_erase hv).symm.append_right _).append_left _

theorem asked_serve (hv : v ∈ s.serving) (hres : v.result = none) (rep : List UInt8) (ok : Bool) :
    (s.serve v rep ok).asked.Perm s.asked := by
  have hperm : ((s.serving.filter fun v => v.result.isNone).map Handler.origin).Perm
      (v.origin :: ((s.serving.erase v).filter fun v => v.result.isNone).map Handler.origin) := by
    simpa [hres] using ((List.perm_cons_erase hv).filter fun v => v.result.isNone).map
      Handler.origin
  refine .trans ?_ ((hperm.symm.append_right _).append_left _)
  rw [List.perm_iff_count]
  intro id
  simp only [State.asked, State.serve, List.filter_cons_of_neg, Option.isNone_some,
    Bool.false_eq_true, not_false_eq_true, List.map_append, List.map_cons, List.map_nil,
    List.count_append, List.count_cons, List.count_nil]
  omega

theorem flight_finish (hv : v ∈ s.serving) :
    s.flight.Perm (v.origin :: State.flight { s with serving := s.serving.erase v }) := by
  refine (((origins_erase hv).append_right _).append_left _).trans ?_
  simp [State.flight]

theorem flight_srvWrite (hv : v ∈ s.serving) (rep : List UInt8) (ok : Bool) :
    (s.srvWrite v rep ok).flight.Perm s.flight := by
  refine .trans ?_ (flight_finish hv).symm
  rw [List.perm_iff_count]
  intro id
  simp only [State.flight, State.srvWrite, List.map_append, List.map_cons, List.map_nil,
    List.count_append, List.count_cons, List.count_nil]
  omega

theorem asked_finish (s : State) (v : Handler) :
    (State.asked { s with serving := s.serving.erase v }).Subperm s.asked :=
  List.Sublist.subperm (((((List.erase_sublist).filter _).map _).append_right _).append_left _)

theorem flight_read (hreader : s.reader = .reading) (hclnt : s.toClnt = m :: rest) :
    (State.flight { s with reader := .got m, toClnt := rest }).Perm s.flight := by
  have hlast : (rest.map Msg.origin ++ [m.origin]).Perm (s.toClnt.map Msg.origin ++ []) := by
    simp [hclnt]
  have hflight := (hlast.append_left (s.serving.map Handler.origin)).append_left
    (s.toSrv.map Msg.origin)
  simp only [State.flight, hreader]
  exact hflight

theorem flight_got (hreader : s.reader = .got m) {reader : Reader} (h : reader.msgs = []) :
    s.flight.Perm (m.origin :: State.flight { s with reader }) := by
  rw [List.perm_iff_count]
  intro id
  have hgot : s.reader.msgs = [m] := by rw [hreader, Reader.msgs]
  simp only [State.flight, hgot, h, List.map_cons, List.map_nil, List.count_append,
    List.count_cons, List.count_nil]
  omega

end Places

theorem forall_of_some {calls : Calls} {P : Call → Prop} (hc : calls id = some c) (h : P c) :
    ∀ c₁, calls id = some c₁ → P c₁ := by
  rintro c₁ hc₁
  obtain rfl : c = c₁ := Option.some.inj (hc.symm.trans hc₁)
  exact h

structure Sound (s : State) : Prop where
  numbered : Numbered s.nextTag s.issued s.calls
  mapped : Mapped s.calls s.callmap.calls s.reader.target
  drained : Drained s.callmap s.reader
  flight : Once s.calls s.flight
  asked : Once s.calls s.asked
  carried : Carried s.calls s.callmap.calls s.reader s.broken s.srv s.flight
  wire : Wire s.calls s.served s.toSrv s.serving (s.toClnt ++ s.reader.msgs)
  answers : Answers s.calls s.served s.reader
  delivered : Delivered s.calls s.registered s.delivered

namespace Sound

theorem mapped_of (hs : Sound s) {reader : Reader} (h : s.reader = reader) :
    Mapped s.calls s.callmap.calls reader.target := h ▸ hs.mapped

theorem drained_of (hs : Sound s) {reader : Reader} (h : s.reader = reader) :
    Drained s.callmap reader := h ▸ hs.drained

theorem carried_of (hs : Sound s) {reader : Reader} (h : s.reader = reader) :
    Carried s.calls s.callmap.calls reader s.broken s.srv s.flight := by
  rw [← h]
  exact hs.carried

theorem initial : Sound initial where
  numbered := ⟨rfl, by rintro _ _ ⟨⟩, by rintro _ _ ⟨⟩⟩
  mapped := ⟨by rintro _ _ ⟨⟩, by rintro _ _ ⟨⟩, by rintro _ ⟨⟩⟩
  drained := trivial
  flight := ⟨List.nodup_nil, by rintro _ ⟨⟩⟩
  asked := ⟨List.nodup_nil, by rintro _ ⟨⟩⟩
  carried := ⟨by rintro _ _ ⟨⟩, by rintro _ _ ⟨⟩,
    fun _ => ⟨trivial, by rintro ⟨⟩, by rintro _ _ ⟨⟩⟩⟩
  wire := ⟨by rintro _ ⟨⟩, by rintro _ ⟨⟩, by rintro _ ⟨⟩, by rintro _ ⟨⟩⟩
  answers := ⟨by rintro _ _ _ ⟨⟩, by rintro _ _ _ ⟨⟩⟩
  delivered := ⟨List.nodup_nil, by rintro _ ⟨⟩, by rintro _ ⟨⟩⟩

/-- A step of one call alone: it begins, is refused, or loses its request. -/
theorem move (hs : Sound s) {c' : Call} {nextTag : Ttag} {issued : ℕ}
    (hnumbered : Numbered nextTag issued (Function.update s.calls id (some c')))
    (hold : ∀ c, s.calls id = some c → c'.tag = c.tag ∧ c'.req = c.req ∧
      c.pc.isReturned = false ∧ c.pc ≠ .waiting ∧ (c.pc.Open → c'.pc.Open))
    (hopen : c'.pc.Open → ∃ c, s.calls id = some c ∧ c.pc.Open)
    (herr : ∀ r, c'.pc = .returned r → r.err ≠ none)
    (hlost : s.broken = false → c'.pc ≠ .waiting) :
    Sound { s with nextTag, issued, calls := Function.update s.calls id (some c') } := by
  have hsame : ∀ c, s.calls id = some c → c'.tag = c.tag ∧ c'.req = c.req :=
    fun c hc => ⟨(hold c hc).1, (hold c hc).2.1⟩
  have hsent : ∀ c, s.calls id = some c → ¬ c.pc.Sent := by
    rintro c hc (hwait | ⟨r, hret⟩)
    · exact (hold c hc).2.2.2.1 hwait
    · have := (hold c hc).2.2.1
      rw [hret] at this
      cases this
  exact
    { numbered := hnumbered
      mapped := hs.mapped.update c' (fun c hc ho => ⟨(hold c hc).2.2.2.2 ho, (hold c hc).1⟩)
        fun ho => by
          obtain ⟨c, hc, hco⟩ := hopen ho
          exact ⟨c, hc, hco, (hold c hc).1⟩
      drained := hs.drained
      flight := hs.flight.update fun c hc h => absurd h (hsent c hc)
      asked := hs.asked.update fun c hc h => absurd h (hsent c hc)
      carried := hs.carried.update (fun c hc => ⟨(hold c hc).2.2.2.1, (hold c hc).1⟩)
        (fun _ _ _ h => h) hlost
      wire := hs.wire.mono (.update hsame)
      answers := hs.answers.update hsame fun r hr h => absurd h (herr r hr)
      delivered := hs.delivered.update fun c hc =>
        ⟨(hold c hc).2.2.1, (hold c hc).2.2.2.2⟩ }

theorem begin (hs : Sound s) (hfree : s.TagFree) (req : List UInt8) : Sound (s.begin req) := by
  have hnone := hs.numbered.calls_issued
  refine hs.move (hs.numbered.begin hfree req) ?_ ?_ ?_ ?_
  · intro c hc
    rw [hnone] at hc
    cases hc
  · rintro (h | h) <;> cases h
  · rintro r ⟨⟩
  · rintro _ ⟨⟩

theorem refuse (hs : Sound s) (hc : s.calls id = some c) (hpc : c.pc = .tagged) :
    Sound (s.goto id c (.returned .connClosed)) := by
  refine hs.move (hs.numbered.goto hc (by rw [hpc]; rfl)) (forall_of_some hc ?_) ?_ ?_ ?_
  · rw [hpc]
    refine ⟨rfl, rfl, rfl, by simp, ?_⟩
    rintro (h | h) <;> cases h
  · rintro (h | h) <;> cases h
  · rintro r ⟨⟩
    simp [Reply.connClosed]
  · rintro _ ⟨⟩

theorem writeLost (hs : Sound s) (hc : s.calls id = some c) (hpc : c.pc = .registered)
    (hbroken : s.broken = true) : Sound (s.goto id c .waiting) := by
  refine hs.move (hs.numbered.goto hc (by rw [hpc]; rfl)) (forall_of_some hc ?_) ?_ ?_ ?_
  · rw [hpc]
    exact ⟨rfl, rfl, rfl, by simp, fun _ => Or.inr rfl⟩
  · exact fun _ => ⟨c, hc, Or.inl hpc⟩
  · rintro r ⟨⟩
  · intro h
    rw [hbroken] at h
    cases h

theorem put (hs : Sound s) {cm : CallMap} (hc : s.calls id = some c) (hpc : c.pc = .tagged)
    (hput : s.callmap.put c.tag id = some cm) : Sound (s.register id c cm) := by
  obtain ⟨hopen, rfl⟩ := CallMap.put_eq_some hput
  have hout : c.pc.isReturned = false := by rw [hpc]; rfl
  -- a registered call with the same tag would be this call
  have hfree : ∀ id' c', s.calls id' = some c' → c'.pc.Open → c'.tag ≠ c.tag := by
    intro id' c' hc' ho htag
    obtain rfl := hs.numbered.tag_inj hc' hc ho.not_returned hout htag
    obtain rfl : c = c' := Option.some.inj (hc.symm.trans hc')
    rw [hpc] at ho
    rcases ho with h | h <;> cases h
  have hsame : ∀ c₁, s.calls id = some c₁ → c.tag = c₁.tag ∧ c.req = c₁.req :=
    forall_of_some hc ⟨rfl, rfl⟩
  have hsent : ∀ c₁, s.calls id = some c₁ → ¬ c₁.pc.Sent := by
    refine forall_of_some hc ?_
    rw [hpc]
    rintro (h | ⟨r, h⟩) <;> cases h
  exact
    { numbered := hs.numbered.goto hc hout
      mapped := hs.mapped.put hc hpc hfree
      drained := hs.drained.put hopen _
      flight := hs.flight.update fun c₁ hc₁ h => absurd h (hsent c₁ hc₁)
      asked := hs.asked.update fun c₁ hc₁ h => absurd h (hsent c₁ hc₁)
      carried := by
        refine hs.carried.update (forall_of_some hc ⟨by simp [hpc], rfl⟩) ?_ (by simp)
        intro id' c' hc' hlookup
        obtain ⟨c₁, hc₁, _, ho, _⟩ := hs.mapped.entry _ _ hlookup
        obtain rfl : c' = c₁ := Option.some.inj (hc'.symm.trans hc₁)
        exact (Finmap.lookup_insert_of_ne _ (hfree id' c' hc' ho)).trans hlookup
      wire := hs.wire.mono (.update hsame)
      answers := hs.answers.update hsame (by rintro r ⟨⟩)
      delivered := by
        refine Delivered.register (hs.delivered.update (forall_of_some hc ⟨hout, ?_⟩))
          (Function.update_self ..) (Or.inl rfl)
        exact fun _ => Or.inl rfl }

theorem write (hs : Sound s) (hc : s.calls id = some c) (hpc : c.pc = .registered) :
    Sound (s.writeCall id c) := by
  have hout : c.pc.isReturned = false := by rw [hpc]; rfl
  have hsame : ∀ c₁, s.calls id = some c₁ → c.tag = c₁.tag ∧ c.req = c₁.req :=
    forall_of_some hc ⟨rfl, rfl⟩
  exact
    { numbered := hs.numbered.goto hc hout
      mapped := hs.mapped.update _ (forall_of_some hc fun _ => ⟨Or.inr rfl, rfl⟩)
        fun _ => ⟨c, hc, Or.inl hpc, rfl⟩
      drained := hs.drained
      flight := hs.flight.write hc hpc flight_writeCall
      asked := hs.asked.write hc hpc asked_writeCall
      carried := hs.carried.write hs.mapped hc hpc flight_writeCall
      wire := (hs.wire.write hc).mono (.update hsame)
      answers := hs.answers.update hsame (by rintro r ⟨⟩)
      delivered := hs.delivered.update (forall_of_some hc ⟨hout, fun _ => Or.inr rfl⟩) }

theorem handOver (hs : Sound s) {r : Reply} {rest : Option (List Ttag)}
    (hreader : s.reader = .sending id r rest) (hc : s.calls id = some c)
    (hpc : c.pc = .waiting) : Sound (s.handOver id c r rest) := by
  have hout : c.pc.isReturned = false := by rw [hpc]; rfl
  have hsame : ∀ c₁, s.calls id = some c₁ → c.tag = c₁.tag ∧ c.req = c₁.req :=
    forall_of_some hc ⟨rfl, rfl⟩
  have hmsgs : (State.resume rest).msgs = s.reader.msgs := by
    rw [hreader]
    cases rest <;> rfl
  have hflight : (s.handOver id c r rest).flight = s.flight := by
    simp only [State.flight, State.handOver, State.goto, hmsgs]
  exact
    { numbered := hs.numbered.goto hc hout
      mapped := by
        have htarget : (State.resume rest).target = none := by cases rest <;> rfl
        change Mapped _ _ (State.resume rest).target
        rw [htarget]
        exact (hs.mapped_of hreader).handOver r
      drained := by
        have hdrained := hs.drained_of hreader
        cases rest <;> exact hdrained
      flight := by
        rw [hflight]
        exact hs.flight.update fun _ _ _ => Or.inr ⟨r, rfl⟩
      asked := hs.asked.update fun _ _ _ => Or.inr ⟨r, rfl⟩
      carried := by
        rw [hflight]
        exact (hs.carried_of hreader).handOver hc
      wire := by
        change Wire _ s.served s.toSrv s.serving (s.toClnt ++ (State.resume rest).msgs)
        rw [hmsgs]
        exact hs.wire.mono (.update hsame)
      answers := by
        have hans : Answers (Function.update s.calls id (some { c with pc := .returned r }))
            s.served s.reader := by
          refine hs.answers.update hsame ?_
          rintro r' ⟨⟩
          exact hs.answers.sends id r rest hreader
        refine hans.of_sends ?_
        intro id' r' rest' h
        cases rest <;> cases h
      delivered := hs.delivered.handOver hc hpc r }

theorem got_lookup (hs : Sound s) {m : Msg} (hreader : s.reader = .got m) :
    s.callmap.calls.lookup m.tag = some m.origin := by
  have hmsgs : s.reader.msgs = [m] := by rw [hreader]; rfl
  have hin : m.origin ∈ s.flight := by simp [State.flight, hmsgs]
  obtain ⟨c, hc, hlookup⟩ := hs.carried.live (by rw [hreader]; trivial) m.origin hin
  obtain ⟨req, ⟨c', hc', htag, _⟩, _⟩ := hs.wire.replies m (by simp [hmsgs])
  obtain rfl : c = c' := Option.some.inj (hc.symm.trans hc')
  rw [← htag, hlookup]

theorem reply (hs : Sound s) {m : Msg} (hreader : s.reader = .got m) :
    Sound (s.reply m.tag ⟨m.data, m.ok, none⟩ none) := by
  have hlookup := hs.got_lookup hreader
  have hmsgs : s.reader.msgs = [m] := by rw [hreader]; rfl
  have hflight := flight_got hreader
    (show (Reader.sending m.origin ⟨m.data, m.ok, none⟩ none).msgs = [] from rfl)
  have hmapped := hs.mapped_of hreader
  rw [reply_of_lookup hlookup]
  exact
    { hs with
      mapped := hmapped.remove hlookup
      drained := trivial
      flight := hs.flight.subperm (.trans (List.sublist_cons_self _ _).subperm
        hflight.symm.subperm)
      carried := (hs.carried_of hreader).reply hs.flight hmapped hflight hlookup _
      wire := by
        refine hs.wire.answer fun m' hm' => Or.inl (List.mem_append_left _ ?_)
        simpa [Reader.msgs] using hm'
      answers := by
        refine hs.answers.of_sends ?_
        rintro id r rest ⟨⟩ _
        obtain ⟨req, hasked, hserved⟩ := hs.wire.replies m (by simp [hmsgs])
        exact ⟨m.tag, req, hasked, hserved⟩ }

theorem replyFail (hs : Sound s) {tag : Ttag} {ts : List Ttag}
    (hreader : s.reader = .draining (tag :: ts)) :
    Sound (s.reply tag .readerFail (some ts)) := by
  have hdrained := hs.drained_of hreader
  have hcarried := hs.carried_of hreader
  obtain ⟨ch, hlookup⟩ := Finmap.mem_iff.mp ((hdrained.2.2 tag).mp List.mem_cons_self)
  have hmsgs : s.reader.msgs = [] := by rw [hreader]; rfl
  rw [reply_of_lookup hlookup]
  have hflight : State.flight
      { s with
        callmap := { s.callmap with calls := s.callmap.calls.erase tag }
        reader := .sending ch .readerFail (some ts) } = s.flight := by
    simp only [State.flight, hmsgs]
    rfl
  exact
    { hs with
      mapped := (hs.mapped_of hreader).remove hlookup
      drained := hdrained.remove ch .readerFail
      flight := by
        rw [hflight]
        exact hs.flight
      carried := by
        rw [hflight]
        refine hcarried.frame (List.Subset.refl _) (fun h => h.elim) ?_
        intro h
        exact absurd (hcarried.up h).1 fun h => h
      wire := by
        have hwire := hs.wire
        rw [hmsgs] at hwire
        exact hwire
      answers := by
        refine hs.answers.of_sends ?_
        rintro id r rest ⟨⟩ herr
        cases herr }

theorem read (hs : Sound s) {m : Msg} {rest : List Msg} (hreader : s.reader = .reading)
    (hclnt : s.toClnt = m :: rest) : Sound { s with reader := .got m, toClnt := rest } := by
  have hflight := flight_read hreader hclnt
  have hmapped := hs.mapped_of hreader
  have hcarried := hs.carried_of hreader
  exact
    { hs with
      mapped := hmapped
      drained := trivial
      flight := hs.flight.perm hflight
      carried := hcarried.frame hflight.subset (fun _ => ⟨trivial, rfl, rfl⟩)
        fun h => ⟨h, trivial, (hcarried.up h).2.1, hflight.symm.subset⟩
      wire := by
        refine hs.wire.answer fun m' hm' => Or.inl ?_
        simpa [Reader.msgs, hreader, hclnt, or_comm] using hm'
      answers := hs.answers.of_sends (by rintro _ _ _ ⟨⟩) }

/-- The reader goes on without a message, once the connection is broken. -/
theorem readerStep (hs : Sound s) {cm : CallMap} {reader₀ reader : Reader}
    (hreader : s.reader = reader₀) (hcm : cm.calls = s.callmap.calls)
    (hidle₀ : reader₀.msgs = [] ∧ reader₀.target = none)
    (hidle : reader.msgs = [] ∧ reader.target = none)
    (hlive : ¬ reader.Live) (hbroken : s.broken = true ∨ ¬ reader₀.Live)
    (hdrained : Drained cm reader) : Sound { s with callmap := cm, reader } := by
  subst hreader
  obtain ⟨hmsgs, htarget⟩ := hidle₀
  obtain ⟨hmsgs', htarget'⟩ := hidle
  have hflight : State.flight { s with callmap := cm, reader } = s.flight := by
    simp only [State.flight, hmsgs, hmsgs']
  have hdown : s.broken ≠ false := by
    intro h
    rcases hbroken with hb | hb
    · rw [h] at hb
      cases hb
    · exact hb (hs.carried.up h).1
  exact
    { hs with
      mapped := by
        have hmapped := hs.mapped
        rw [htarget] at hmapped
        change Mapped s.calls cm.calls reader.target
        rw [hcm, htarget']
        exact hmapped
      drained := hdrained
      flight := by
        rw [hflight]
        exact hs.flight
      carried := by
        rw [hflight]
        exact hs.carried.frame (List.Subset.refl _) (fun h => absurd h hlive)
          fun h => absurd h hdown
      wire := by
        have hwire := hs.wire
        rw [hmsgs] at hwire
        change Wire s.calls s.served s.toSrv s.serving (s.toClnt ++ reader.msgs)
        rw [hmsgs']
        exact hwire
      answers := by
        refine hs.answers.of_sends ?_
        rintro id r rest rfl
        cases htarget' }

theorem spawn (hs : Sound s) {m : Msg} {rest : List Msg} (hsrv : s.toSrv = m :: rest) :
    Sound (s.spawn m rest) := by
  have hflight := flight_spawn hsrv
  have hwire := hs.wire
  rw [hsrv] at hwire
  exact
    { hs with
      flight := hs.flight.perm hflight
      asked := hs.asked.perm (asked_spawn hsrv)
      carried := hs.carried.frame hflight.subset (fun h => ⟨h, rfl, rfl⟩)
        fun h => ⟨h, (hs.carried.up h).1, (hs.carried.up h).2.1, hflight.symm.subset⟩
      wire := hwire.spawn }

theorem serve (hs : Sound s) {v : Handler} (hv : v ∈ s.serving) (hres : v.result = none)
    (rep : List UInt8) (ok : Bool) : Sound (s.serve v rep ok) := by
  have hflight := flight_serve hv rep ok
  exact
    { hs with
      flight := hs.flight.perm hflight
      asked := hs.asked.perm (asked_serve hv hres rep ok)
      carried := hs.carried.frame hflight.subset (fun h => ⟨h, rfl, rfl⟩)
        fun h => ⟨h, (hs.carried.up h).1, (hs.carried.up h).2.1, hflight.symm.subset⟩
      wire := hs.wire.serve hv rep ok
      answers := hs.answers.serve _ }

theorem srvWrite (hs : Sound s) {v : Handler} {rep : List UInt8} {ok : Bool}
    (hv : v ∈ s.serving) (hres : v.result = some (rep, ok)) : Sound (s.srvWrite v rep ok) := by
  have hflight := flight_srvWrite hv rep ok
  exact
    { hs with
      flight := hs.flight.perm hflight
      asked := hs.asked.subperm (asked_finish s v)
      carried := hs.carried.frame hflight.subset (fun h => ⟨h, rfl, rfl⟩)
        fun h => ⟨h, (hs.carried.up h).1, (hs.carried.up h).2.1, hflight.symm.subset⟩
      wire := by
        refine Wire.finish (hs.wire.answer fun m hm => ?_) v
        rcases List.mem_append.mp hm with hold | hmsg
        · rcases List.mem_append.mp hold with hclnt | hnew
          · exact Or.inl (List.mem_append_left _ hclnt)
          · obtain rfl := List.mem_singleton.mp hnew
            exact Or.inr ⟨v, hv, rfl, rfl, hres⟩
        · exact Or.inl (List.mem_append_right _ hmsg) }

theorem srvWriteLost (hs : Sound s) {v : Handler} (hv : v ∈ s.serving)
    (hbroken : s.broken = true) : Sound { s with serving := s.serving.erase v } := by
  have hflight := (List.sublist_cons_self _ _).subperm.trans (flight_finish hv).symm.subperm
  exact
    { hs with
      flight := hs.flight.subperm hflight
      asked := hs.asked.subperm (asked_finish s v)
      carried := by
        refine hs.carried.frame hflight.subset (fun h => ⟨h, rfl, rfl⟩) ?_
        intro h
        rw [hbroken] at h
        cases h
      wire := hs.wire.finish v }

/-- The connection breaks. -/
theorem broken (hs : Sound s) : Sound { s with broken := true } :=
  { hs with
    carried := hs.carried.frame (List.Subset.refl _) (fun h => ⟨h, rfl, rfl⟩) (by simp) }

theorem step (hs : Sound s) {l : Label} (h : Step s l t) : Sound t := by
  cases h with
  | send req hfree => exact hs.begin hfree req
  | put hc hpc hput => exact hs.put hc hpc hput
  | refuse hc hpc hput => exact hs.refuse hc hpc
  | write hc hpc => exact hs.write hc hpc
  | writeLost hc hpc hbroken => exact hs.writeLost hc hpc hbroken
  | read hreader hclnt => exact hs.read hreader hclnt
  | readErr hreader hbroken =>
    exact hs.readerStep hreader rfl ⟨rfl, rfl⟩ ⟨rfl, rfl⟩ (fun h => h) (Or.inl hbroken) trivial
  | reply hreader => exact hs.reply hreader
  | replyFail hreader => exact hs.replyFail hreader
  | stop hreader =>
    exact hs.readerStep hreader rfl ⟨rfl, rfl⟩ ⟨rfl, rfl⟩ (fun h => h) (Or.inr fun h => h)
      (hs.drained_of hreader).stop
  | handOver hreader hc hpc => exact hs.handOver hreader hc hpc
  | closeCallmap hreader =>
    exact hs.readerStep hreader rfl ⟨rfl, rfl⟩ ⟨rfl, rfl⟩ (fun h => h) (Or.inr fun h => h) rfl
  | outstanding hreader hts =>
    exact hs.readerStep hreader rfl ⟨rfl, rfl⟩ ⟨rfl, rfl⟩ (fun h => h) (Or.inr fun h => h)
      ((hs.drained_of hreader).outstanding hts)
  | isClosed hopen => exact { hs with }
  | closeTrans hchecked => exact { hs.broken with }
  | closeDone hclosing => exact { hs with drained := hs.drained.close }
  | fail => exact hs.broken
  | srvInit hpeer =>
    exact
      { hs with
        carried := hs.carried.frame (List.Subset.refl _) (fun h => ⟨h, rfl, rfl⟩)
          fun h => ⟨h, (hs.carried.up h).1, by simp, List.Subset.refl _⟩ }
  | srvRead hsrv hpeer => exact hs.spawn hsrv
  | srvErr hbroken hpeer =>
    exact
      { hs with
        carried := hs.carried.frame (List.Subset.refl _) (fun h => ⟨h, rfl, rfl⟩)
          fun h => absurd (hbroken.symm.trans h) (by simp) }
  | serve rep ok hv hres => exact hs.serve hv hres rep ok
  | srvWrite hv hres => exact hs.srvWrite hv hres
  | srvWriteLost hv hres hbroken => exact hs.srvWriteLost hv hbroken

theorem of_reachable (h : system.Reachable s) : Sound s := by
  refine System.Reachable.invariant ?_ ?_ h
  · rintro s rfl
    exact initial
  · intro s l t _ hs hstep
    exact hs.step (step_sound hstep)

theorem not_open_of_stopped (hs : Sound s) (hreader : s.reader = .stopped)
    (hc : s.calls id = some c) : ¬ c.pc.Open := by
  intro hopen
  have hkept := (hs.mapped_of hreader).kept id c hc hopen
  rw [(hs.drained_of hreader).2] at hkept
  rcases hkept with h | h <;> cases h

end Sound

end DistributedLabs.Demux
