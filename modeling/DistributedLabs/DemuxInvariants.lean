import DistributedLabs.Demux
import DistributedLabs.Tables

/-!
What every state of the multiplexed calls keeps: tags of calls that have not
returned are distinct, the callMap holds exactly the registered calls that have
no reply yet, and after its ReadCall has failed the reader empties it. Each part
is stated over the components it reads, so a step that leaves them alone keeps
it as it is.
-/
namespace DistributedLabs.Demux

open Transition Tables

abbrev Calls := ℕ → Option Call

abbrev Channels := Finmap fun _ : Ttag => ℕ

/-- Registered and without a reply. -/
def Pc.Open (pc : Pc) : Prop := pc = .registered ∨ pc = .waiting

/-- Past its WriteCall, or returned. -/
def Pc.Sent (pc : Pc) : Prop := pc = .waiting ∨ ∃ r, pc = .returned r

theorem Pc.Open.not_returned {pc : Pc} (h : pc.Open) : pc.isReturned = false := by
  rcases h with rfl | rfl <;> rfl

/-- The call that the reader is handing a reply to. -/
def Reader.target : Reader → Option ℕ
  | .sending ch _ _ => some ch
  | _ => none

def Reader.msgs : Reader → List Msg
  | .got m => [m]
  | _ => []

/-- The reader has not seen ReadCall fail. -/
def Reader.Live : Reader → Prop
  | .reading => True
  | .got _ => True
  | .sending _ _ none => True
  | _ => False

/-- Tags are the numbers of the calls modulo 2^32, and a call that has not
returned is less than 2^32 tags old. -/
structure Numbered (nextTag : Ttag) (issued : ℕ) (calls : Calls) : Prop where
  next_eq : nextTag = UInt32.ofNat issued
  known : ∀ id c, calls id = some c → id < issued ∧ c.tag = UInt32.ofNat id
  window : ∀ id c, calls id = some c → c.pc.isReturned = false → issued ≤ id + 2 ^ 32

namespace Numbered

variable {nextTag : Ttag} {issued : ℕ} {calls : Calls}

theorem calls_issued (hs : Numbered nextTag issued calls) : calls issued = none := by
  cases hc : calls issued with
  | none => rfl
  | some c =>
    have := (hs.known issued c hc).1
    omega

theorem tag_inj (hs : Numbered nextTag issued calls) {id id' : ℕ} {c c' : Call}
    (hc : calls id = some c) (hc' : calls id' = some c') (ho : c.pc.isReturned = false)
    (ho' : c'.pc.isReturned = false) (htag : c.tag = c'.tag) : id = id' := by
  obtain ⟨hlt, heq⟩ := hs.known id c hc
  obtain ⟨hlt', heq'⟩ := hs.known id' c' hc'
  have hw := hs.window id c hc ho
  have hw' := hs.window id' c' hc' ho'
  have hmod : id % 2 ^ 32 = id' % 2 ^ 32 := by
    have := congrArg UInt32.toNat (heq.symm.trans (htag.trans heq'))
    simpa using this
  omega

theorem begin {s : State} (hs : Numbered s.nextTag s.issued s.calls) (hfree : s.TagFree)
    (req : List UInt8) :
    Numbered (s.begin req).nextTag (s.begin req).issued (s.begin req).calls where
  next_eq := by
    change s.nextTag + 1 = UInt32.ofNat (s.issued + 1)
    rw [UInt32.ofNat_add, hs.next_eq]
    rfl
  known := by
    intro id c hc
    rcases update_eq_some hc with ⟨rfl, hnew⟩ | ⟨_, hold⟩
    · obtain rfl := Option.some.inj hnew
      exact ⟨Nat.lt_succ_self _, hs.next_eq⟩
    · obtain ⟨hlt, htag⟩ := hs.known id c hold
      exact ⟨Nat.lt_succ_of_lt hlt, htag⟩
  window := by
    intro id c hc hopen
    change s.issued + 1 ≤ id + 2 ^ 32
    rcases update_eq_some hc with ⟨rfl, _⟩ | ⟨_, hold⟩
    · omega
    · have hout : s.outstanding id = true := by simp [State.outstanding, hold, hopen]
      have := hfree id (hs.known id c hold).1 hout
      omega

theorem goto (hs : Numbered nextTag issued calls) {id : ℕ} {c : Call} {pc : Pc}
    (hc : calls id = some c) (hopen : c.pc.isReturned = false) :
    Numbered nextTag issued (Function.update calls id (some { c with pc })) where
  next_eq := hs.next_eq
  known := by
    intro id' c' hc'
    rcases update_eq_some hc' with ⟨rfl, hnew⟩ | ⟨_, hold⟩
    · obtain rfl := Option.some.inj hnew
      exact hs.known id' c hc
    · exact hs.known id' c' hold
  window := by
    intro id' c' hc' hopen'
    rcases update_eq_some hc' with ⟨rfl, _⟩ | ⟨_, hold⟩
    · exact hs.window id' c hc hopen
    · exact hs.window id' c' hold hopen'

end Numbered

/-- The callMap holds the open calls, under their tags, except for the one that
the reader has taken out to hand it its reply. -/
structure Mapped (calls : Calls) (channels : Channels) (target : Option ℕ) : Prop where
  entry : ∀ tag id, channels.lookup tag = some id →
    ∃ c, calls id = some c ∧ c.tag = tag ∧ c.pc.Open ∧ target ≠ some id
  kept : ∀ id c, calls id = some c → c.pc.Open →
    channels.lookup c.tag = some id ∨ target = some id
  sends : ∀ id, target = some id → ∃ c, calls id = some c ∧ c.pc.Open

namespace Mapped

variable {calls : Calls} {channels : Channels} {target : Option ℕ} {id : ℕ} {c : Call}

/-- A call that begins, or moves without entering or leaving the callMap. -/
theorem update (hs : Mapped calls channels target) (c' : Call)
    (hkeep : ∀ c, calls id = some c → c.pc.Open → c'.pc.Open ∧ c'.tag = c.tag)
    (hnew : c'.pc.Open → ∃ c, calls id = some c ∧ c.pc.Open ∧ c'.tag = c.tag) :
    Mapped (Function.update calls id (some c')) channels target where
  entry := by
    intro tag id' hlookup
    refine exists_update_of_exists (hs.entry tag id' hlookup) ?_
    rintro c hc ⟨htag, hopen, hne⟩
    obtain ⟨hopen', htag'⟩ := hkeep c hc hopen
    exact ⟨htag'.trans htag, hopen', hne⟩
  kept := by
    intro id' c₁ hc₁ hopen
    rcases update_eq_some hc₁ with ⟨rfl, hself⟩ | ⟨_, hold⟩
    · obtain rfl := Option.some.inj hself
      obtain ⟨c, hc, hopen', htag⟩ := hnew hopen
      rw [htag]
      exact hs.kept id' c hc hopen'
    · exact hs.kept id' c₁ hold hopen
  sends := by
    intro id' htarget
    exact exists_update_of_exists (hs.sends id' htarget) fun c hc hopen => (hkeep c hc hopen).1

theorem put (hs : Mapped calls channels target) (hc : calls id = some c) (hpc : c.pc = .tagged)
    (hfree : ∀ id' c', calls id' = some c' → c'.pc.Open → c'.tag ≠ c.tag) :
    Mapped (Function.update calls id (some { c with pc := .registered }))
      (channels.insert c.tag id) target := by
  have hclosed : ¬ c.pc.Open := by
    rw [hpc]
    rintro (h | h) <;> cases h
  have hother : ∀ id' c', calls id' = some c' → c'.pc.Open → id' ≠ id := by
    rintro id' c' hc' hopen rfl
    obtain rfl : c = c' := Option.some.inj (hc.symm.trans hc')
    exact hclosed hopen
  refine ⟨?_, ?_, ?_⟩
  · intro tag id' hlookup
    by_cases htag : tag = c.tag
    · subst htag
      rw [Finmap.lookup_insert] at hlookup
      obtain rfl := Option.some.inj hlookup
      refine ⟨_, Function.update_self .., rfl, Or.inl rfl, ?_⟩
      intro htarget
      obtain ⟨c', hc', hopen⟩ := hs.sends id htarget
      exact hother id c' hc' hopen rfl
    · rw [Finmap.lookup_insert_of_ne _ htag] at hlookup
      obtain ⟨c', hc', htag', hopen, hne⟩ := hs.entry tag id' hlookup
      exact ⟨c', update_of_ne_eq_some (hother id' c' hc' hopen) hc', htag', hopen, hne⟩
  · intro id' c' hc' hopen
    rcases update_eq_some hc' with ⟨rfl, hself⟩ | ⟨_, hold⟩
    · obtain rfl := Option.some.inj hself
      exact Or.inl (Finmap.lookup_insert _)
    · rw [Finmap.lookup_insert_of_ne _ (hfree id' c' hold hopen)]
      exact hs.kept id' c' hold hopen
  · intro id' htarget
    obtain ⟨c', hc', hopen⟩ := hs.sends id' htarget
    exact ⟨c', update_of_ne_eq_some (hother id' c' hc' hopen) hc', hopen⟩

theorem remove (hs : Mapped calls channels none) {tag : Ttag}
    (hlookup : channels.lookup tag = some id) :
    Mapped calls (channels.erase tag) (some id) := by
  obtain ⟨c, hc, htag, hopen, _⟩ := hs.entry tag id hlookup
  refine ⟨?_, ?_, ?_⟩
  · intro tag' id' hlookup'
    have hne : tag' ≠ tag := by
      rintro rfl
      rw [Finmap.lookup_erase] at hlookup'
      cases hlookup'
    rw [Finmap.lookup_erase_ne hne] at hlookup'
    obtain ⟨c', hc', htag', hopen', _⟩ := hs.entry tag' id' hlookup'
    refine ⟨c', hc', htag', hopen', ?_⟩
    rintro ⟨rfl⟩
    obtain rfl : c = c' := Option.some.inj (hc.symm.trans hc')
    exact hne (htag'.symm.trans htag)
  · intro id' c' hc' hopen'
    have hold := (hs.kept id' c' hc' hopen').resolve_right (by simp)
    by_cases heq : c'.tag = tag
    · right
      rw [heq, hlookup] at hold
      exact hold
    · left
      rw [Finmap.lookup_erase_ne heq, hold]
  · rintro id' ⟨rfl⟩
    exact ⟨c, hc, hopen⟩

theorem handOver (hs : Mapped calls channels (some id)) (r : Reply) :
    Mapped (Function.update calls id (some { c with pc := .returned r })) channels none where
  entry := by
    intro tag id' hlookup
    obtain ⟨c', hc', htag, hopen, hne⟩ := hs.entry tag id' hlookup
    have hid : id' ≠ id := fun h => hne (congrArg some h.symm)
    exact ⟨c', update_of_ne_eq_some hid hc', htag, hopen, by simp⟩
  kept := by
    intro id' c' hc' hopen
    rcases update_eq_some hc' with ⟨_, hself⟩ | ⟨hid, hold⟩
    · obtain rfl := Option.some.inj hself
      rcases hopen with h | h <;> cases h
    · left
      exact (hs.kept id' c' hold hopen).resolve_right fun h => hid (Option.some.inj h).symm
  sends := by
    rintro id' ⟨⟩

end Mapped

/-- What the reader knows of the callMap after it has closed it. -/
def Drained (cm : CallMap) : Reader → Prop
  | .closed => cm.closed = true
  | .draining ts => cm.closed = true ∧ ts.Nodup ∧ ∀ tag, tag ∈ ts ↔ tag ∈ cm.calls
  | .sending _ _ (some ts) => cm.closed = true ∧ ts.Nodup ∧ ∀ tag, tag ∈ ts ↔ tag ∈ cm.calls
  | .stopped => cm.closed = true ∧ cm.calls = ∅
  | .fatal _ => False
  | _ => True

namespace Drained

theorem put {cm : CallMap} {reader : Reader} (hs : Drained cm reader)
    (hopen : cm.closed = false) (cm' : CallMap) : Drained cm' reader := by
  have hcontra : cm.closed ≠ true := by simp [hopen]
  cases reader with
  | sending ch r rest =>
    cases rest with
    | none => trivial
    | some ts => exact absurd hs.1 hcontra
  | closed => exact absurd hs hcontra
  | draining ts => exact absurd hs.1 hcontra
  | stopped => exact absurd hs.1 hcontra
  | fatal tag => exact hs
  | _ => trivial

theorem close {cm : CallMap} {reader : Reader} (hs : Drained cm reader) :
    Drained cm.close reader := by
  cases reader with
  | sending ch r rest =>
    cases rest with
    | none => trivial
    | some ts => exact ⟨rfl, hs.2⟩
  | closed => rfl
  | draining ts => exact ⟨rfl, hs.2⟩
  | stopped => exact ⟨rfl, hs.2⟩
  | fatal tag => exact hs
  | _ => trivial

theorem outstanding {cm : CallMap} {ts : List Ttag} (hs : Drained cm .closed)
    (hts : cm.Outstanding ts) : Drained cm (.draining ts) := by
  refine ⟨hs, hts.1, ?_⟩
  intro tag
  rw [← List.mem_toFinset, hts.2, Finmap.mem_keys]

theorem remove {cm : CallMap} {tag : Ttag} {ts : List Ttag}
    (hs : Drained cm (.draining (tag :: ts))) (ch : ℕ) (r : Reply) :
    Drained { cm with calls := cm.calls.erase tag } (.sending ch r (some ts)) := by
  obtain ⟨hclosed, hnodup, hmem⟩ := hs
  obtain ⟨htag, hnodup'⟩ := List.nodup_cons.mp hnodup
  refine ⟨hclosed, hnodup', ?_⟩
  intro tag'
  rw [Finmap.mem_erase, ← hmem tag', List.mem_cons]
  constructor
  · intro h
    exact ⟨fun heq => htag (heq ▸ h), Or.inr h⟩
  · rintro ⟨hne, h⟩
    exact h.resolve_left hne

theorem stop {cm : CallMap} (hs : Drained cm (.draining [])) : Drained cm .stopped := by
  refine ⟨hs.1, Finmap.ext_lookup fun tag => ?_⟩
  rw [Finmap.lookup_empty, Finmap.lookup_eq_none, ← hs.2.2 tag]
  simp

end Drained

end DistributedLabs.Demux
