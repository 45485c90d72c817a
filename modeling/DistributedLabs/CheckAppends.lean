import DistributedLabs.AppendTally
import DistributedLabs.EntriesJson

/-!
CheckAppends, the check of the stored list against what the append clients
counted. It never fails on the list that the clients of OneClientAppend leave.
-/
namespace DistributedLabs.KvAppend

open KVServer KvTest Transition

/-- The Fatalf calls of CheckAppends, and the index that Go checks for it. -/
inductive CheckFatal
  | wrong (id expect n : ℤ)
  | appends (len : ℕ) (ver : Tversion)
  | skipped (c skipped nmaybe : ℤ)
  | puts (c n okMaybe : ℤ)
  | indexOutOfRange (c : ℤ)
  deriving DecidableEq, Repr

/-- The two maps of CheckAppends, and the keys that `expect` has. An absent key
reads as 0. -/
structure Expect where
  keys : Finset ℤ
  expect : ℤ → ℤ
  skipped : ℤ → ℤ

namespace Expect

def start (nclnt : ℕ) : Expect where
  keys := (Finset.range nclnt).image Int.ofNat
  expect := fun _ => 0
  skipped := fun _ => 0

/-- The loop over the entries. -/
def entry (x : Expect) (e : Entry) : Except CheckFatal Expect :=
  if x.expect e.id > e.n then .error (.wrong e.id (x.expect e.id) e.n)
  else if x.expect e.id = e.n then
    .ok { x with
      keys := insert e.id x.keys
      expect := Function.update x.expect e.id (x.expect e.id + 1) }
  else
    .ok { keys := insert e.id x.keys
          expect := Function.update x.expect e.id (e.n + 1)
          skipped := Function.update x.skipped e.id
            (x.skipped e.id + (e.n - x.expect e.id)) }

/-- The loop over `expect`. -/
def client (x : Expect) (rs : List ClntRes) (c : ℤ) : Except CheckFatal Unit :=
  match c with
  | .ofNat i =>
    match rs[i]? with
    | some r =>
      if x.skipped c > r.nmaybe.toInt then .error (.skipped c (x.skipped c) r.nmaybe.toInt)
      else if x.expect c > (r.nok + r.nmaybe).toInt then
        .error (.puts c (x.expect c) (r.nok + r.nmaybe).toInt)
      else .ok ()
    | none => .error (.indexOutOfRange c)
  | .negSucc _ => .error (.indexOutOfRange c)

end Expect

/-- `order` is the order in which Go ranges over a map with given keys. -/
def checkAppends (order : Finset ℤ → List ℤ) (es : List Entry) (nclnt : ℕ) (rs : List ClntRes)
    (ver : Tversion) : Except CheckFatal Unit := do
  let x ← es.foldlM Expect.entry (Expect.start nclnt)
  if (es.length + 1 : ℤ) ≠ Int.bmod ver.toNat (2 ^ 64) then .error (.appends es.length ver)
  else (order x.keys).forM (x.client rs)

/-- The order visits the keys and nothing else. -/
def Visits (order : Finset ℤ → List ℤ) : Prop := ∀ keys c, c ∈ order keys ↔ c ∈ keys

/-- The maps after some entries: for each number, what is due next, and the gaps. -/
structure Expect.Describes (x : Expect) (nclnt : ℕ) (es : List Entry) : Prop where
  keys : ∀ c, c ∈ x.keys → (0 ≤ c ∧ c < nclnt) ∨ ∃ e ∈ es, e.id = c
  due : ∀ c, x.expect c = 0 ∨ ∃ e ∈ es, e.id = c ∧ x.expect c = e.n + 1
  past : ∀ e ∈ es, e.n < x.expect e.id
  gaps : ∀ c, x.skipped c + es.countP (fun e => e.id = c) = x.expect c

/-- In the list each number's entries ascend from 0 on. -/
def Ascending (es : List Entry) : Prop :=
  (∀ e ∈ es, 0 ≤ e.n) ∧ es.Pairwise fun e e' => e.id = e'.id → e.n < e'.n

theorem Ascending.of_concat {es : List Entry} {e : Entry} (h : Ascending (es ++ [e])) :
    Ascending es ∧ 0 ≤ e.n ∧ ∀ e' ∈ es, e'.id = e.id → e'.n < e.n := by
  obtain ⟨hpos, hpair⟩ := h
  rw [List.pairwise_append] at hpair
  obtain ⟨hes, _, hcross⟩ := hpair
  refine ⟨⟨fun e' he' => hpos e' (List.mem_append_left _ he'), hes⟩, hpos e (by simp), ?_⟩
  intro e' he' hid
  exact hcross e' he' e (List.mem_singleton_self e) hid

namespace Expect

variable {x : Expect} {nclnt : ℕ} {es : List Entry} {e : Entry}

/-- Whether or not numbers were skipped, the entry moves `expect` behind it. -/
theorem entry_eq (hle : x.expect e.id ≤ e.n) :
    x.entry e = .ok
      { keys := insert e.id x.keys
        expect := Function.update x.expect e.id (e.n + 1)
        skipped := Function.update x.skipped e.id
          (x.skipped e.id + (e.n - x.expect e.id)) } := by
  rw [entry, if_neg (not_lt.mpr hle)]
  split
  · rename_i heq
    have hskip : x.skipped e.id + (e.n - x.expect e.id) = x.skipped e.id := by omega
    rw [hskip, Function.update_eq_self, heq]
  · rfl

theorem entry_describes (hx : x.Describes nclnt es) (hpos : 0 ≤ e.n)
    (hlt : ∀ e' ∈ es, e'.id = e.id → e'.n < e.n) :
    ∃ x', x.entry e = .ok x' ∧ x'.Describes nclnt (es ++ [e]) := by
  have hle : x.expect e.id ≤ e.n := by
    rcases hx.due e.id with h | ⟨e', he', hid, h⟩
    · omega
    · have := hlt e' he' hid
      omega
  have hold : ∀ e' ∈ es, e' ∈ es ++ [e] := fun e' he' => List.mem_append_left _ he'
  refine ⟨_, entry_eq hle, ?_, ?_, ?_, ?_⟩
  · intro c hc
    rcases Finset.mem_insert.mp hc with rfl | hc
    · exact Or.inr ⟨e, by simp, rfl⟩
    · rcases hx.keys c hc with h | ⟨e', he', hid⟩
      · exact Or.inl h
      · exact Or.inr ⟨e', hold e' he', hid⟩
  · intro c
    by_cases hc : c = e.id
    · subst hc
      exact Or.inr ⟨e, by simp, rfl, by simp⟩
    · rcases hx.due c with h | ⟨e', he', hid, h⟩
      · exact Or.inl (by simpa [hc] using h)
      · exact Or.inr ⟨e', hold e' he', hid, by simpa [hc] using h⟩
  · intro e' he'
    rcases List.mem_append.mp he' with he' | he'
    · by_cases hid : e'.id = e.id
      · have := hlt e' he' hid
        simp only [hid, Function.update_self]
        omega
      · simpa [hid] using hx.past e' he'
    · obtain rfl := List.mem_singleton.mp he'
      simp
  · intro c
    have hgaps := hx.gaps c
    by_cases hc : c = e.id
    · subst hc
      simp only [Function.update_self, List.countP_append, List.countP_singleton,
        decide_true, if_true]
      omega
    · have hne : e.id ≠ c := Ne.symm hc
      simpa [hc, hne] using hgaps

/-- The first loop goes through and leaves the maps that describe the list. -/
theorem foldlM_describes (nclnt : ℕ) (es : List Entry) (h : Ascending es) :
    ∃ x, es.foldlM entry (start nclnt) = .ok x ∧ x.Describes nclnt es := by
  induction es using List.reverseRecOn with
  | nil =>
    refine ⟨start nclnt, rfl, ?_, ?_, ?_, ?_⟩
    · intro c hc
      obtain ⟨i, hi, rfl⟩ := Finset.mem_image.mp hc
      have hlt := Finset.mem_range.mp hi
      exact Or.inl ⟨Int.natCast_nonneg i, Int.ofNat_lt.mpr hlt⟩
    · exact fun c => Or.inl rfl
    · intro e he
      cases he
    · exact fun c => rfl
  | append_singleton es e ih =>
    obtain ⟨hes, hpos, hlt⟩ := h.of_concat
    obtain ⟨x, hx, hdesc⟩ := ih hes
    obtain ⟨x', hx', hdesc'⟩ := entry_describes hdesc hpos hlt
    refine ⟨x', ?_, hdesc'⟩
    rw [List.foldlM_append, hx]
    change ([e].foldlM entry x) = _
    rw [List.foldlM_cons, hx']
    rfl

/-- Each client's entries against its result. -/
theorem client_ok {rs : List ClntRes} {i nok nmaybe : ℕ} (hx : x.Describes nclnt es)
    (hr : rs[i]? = some ⟨Int64.ofNat nok, Int64.ofNat nmaybe⟩) (hlt : nok + nmaybe < 2 ^ 63)
    (hbelow : ∀ e ∈ es, e.id = i → e.n < nok + nmaybe)
    (henough : nok ≤ es.countP fun e => e.id = (i : ℤ)) : x.client rs i = .ok () := by
  have hgaps := hx.gaps i
  have hdue : x.expect i ≤ nok + nmaybe := by
    rcases hx.due i with h | ⟨e, he, hid, h⟩
    · omega
    · have := hbelow e he hid
      omega
  have hmaybe : (Int64.ofNat nmaybe).toInt = nmaybe := Int64.toInt_ofNat_of_lt (by omega)
  have hsum : (Int64.ofNat nok + Int64.ofNat nmaybe).toInt = nok + nmaybe := by
    rw [← Int64.ofNat_add, Int64.toInt_ofNat_of_lt hlt, Nat.cast_add]
  have hskip : ¬ x.skipped i > nmaybe := by omega
  simp only [client, hr, hmaybe, hsum, if_neg hskip, if_neg (not_lt.mpr hdue)]

end Expect

theorem checkAppends_ok {order : Finset ℤ → List ℤ} (hvisits : Visits order) {es : List Entry}
    {nclnt : ℕ} {rs : List ClntRes} {ver : Tversion} (hasc : Ascending es)
    (hver : (es.length + 1 : ℤ) = Int.bmod ver.toNat (2 ^ 64))
    (hids : ∀ e ∈ es, 0 ≤ e.id ∧ e.id < nclnt)
    (hclient : ∀ i < nclnt, ∃ nok nmaybe : ℕ,
      rs[i]? = some ⟨Int64.ofNat nok, Int64.ofNat nmaybe⟩ ∧ nok + nmaybe < 2 ^ 63 ∧
      (∀ e ∈ es, e.id = i → e.n < nok + nmaybe) ∧ nok ≤ es.countP fun e => e.id = (i : ℤ)) :
    checkAppends order es nclnt rs ver = .ok () := by
  obtain ⟨x, hx, hdesc⟩ := Expect.foldlM_describes nclnt es hasc
  have hall : ∀ cs : List ℤ, (∀ c ∈ cs, x.client rs c = .ok ()) →
      cs.forM (x.client rs) = .ok () := by
    intro cs
    induction cs with
    | nil => exact fun _ => rfl
    | cons c cs ih =>
      intro h
      have hrest := ih fun c' hc' => h c' (List.mem_cons_of_mem _ hc')
      rw [List.forM, h c (by simp)]
      exact hrest
  have hloop : (order x.keys).forM (x.client rs) = .ok () := by
    refine hall _ fun c hc => ?_
    have hrange : 0 ≤ c ∧ c < nclnt := by
      rcases hdesc.keys c ((hvisits x.keys c).mp hc) with h | ⟨e, he, rfl⟩
      · exact h
      · exact hids e he
    obtain ⟨i, rfl⟩ := Int.eq_ofNat_of_zero_le hrange.1
    obtain ⟨nok, nmaybe, hr, hlt, hbelow, henough⟩ := hclient i (by omega)
    exact Expect.client_ok hdesc hr hlt hbelow henough
  simp only [checkAppends, hx, hver, ne_eq, not_true_eq_false, if_false]
  exact hloop

/-- Every client has returned. -/
def State.AllStopped {nclnt : ℕ} (s : State nclnt) : Prop := ∀ c, s.pc c = .stopped

variable {nclnt : ℕ} {u : Codec} {s : State nclnt}

theorem Tallied.ascending (hs : Tallied u s) {log : List Entry}
    (hlog : Stored u s.net.kv log) : Ascending log := by
  constructor
  · intro e he
    obtain ⟨c, hc⟩ := hs.ids log hlog e he
    exact ((hs.tally log hlog c).below e (by simp [entriesOf, he, hc])).1
  · rw [List.pairwise_iff_getElem]
    intro i j hi hj hij hid
    obtain ⟨c, hc⟩ := hs.ids log hlog log[i] (List.getElem_mem hi)
    have hpair := List.pairwise_filter.mp (hs.tally log hlog c).increasing
    exact List.pairwise_iff_getElem.mp hpair i j hi hj hij (by simp [hc]) (by simp [← hid, hc])

/-- A client ends no more appends than Puts are sent. -/
theorem iter_le_puts (hr : (system u).Reachable s) (c : Fin nclnt) :
    s.iter c ≤ s.net.puts key := by
  have hnet := net_reachable hr
  have hle := Clerk.card_returned_le (k := key) (Clerk.WellFormed.of_reachable hnet)
    (Clerk.Counted.of_reachable hnet)
  have hmine : ∀ ok, s.ended ok c ≤ (s.net.returned key (outcome ok)).card :=
    fun ok => Finset.card_le_card (Finset.filter_subset _ _)
  exact (Nat.add_le_add (hmine true) (hmine false)).trans hle

/-- When a client is not putting, its entries are those of appends it counted. -/
theorem Tally.of_idle {log : List Entry} {c : Fin nclnt} (h : Tally s log c)
    (hidle : s.net.clerks (some c) = none) :
    (∀ e ∈ log, e.id = (c : ℕ) → e.n < s.ended true c + s.ended false c) ∧
      s.ended true c ≤ log.countP fun e => e.id = ((c : ℕ) : ℤ) := by
  have hnot : ¬ Current s c := by
    rintro ⟨call, hcall, _⟩
    rw [hidle] at hcall
    cases hcall
  constructor
  · intro e he hid
    obtain ⟨_, hn | ⟨_, hcur⟩⟩ := h.below e (by simp [entriesOf, he, hid])
    · simpa [State.iter] using hn
    · exact absurd hcur hnot
  · refine h.enough.trans ?_
    rw [List.countP_eq_length_filter (l := log)]
    exact List.countP_le_length

theorem checkAppends_passes (u : Codec) (s : State nclnt) (hr : (system u).Reachable s)
    (hputs : s.net.puts key < 2 ^ 63) (order : Finset ℤ → List ℤ) (hvisits : Visits order) :
    (∀ c f, s.pc c ≠ .fatal f) ∧
    (∀ ver, s.main = .ready ver → s.AllStopped →
      ∃ es, s.net.kv key = some ⟨u.marshal es, version s.net.kv key⟩ ∧
        checkAppends order es nclnt (List.ofFn s.res) (version s.net.kv key) = .ok ()) := by
  have hb : s.net.puts key < 2 ^ 64 := by omega
  have hsound := Sound.of_reachable hr hb
  have htallied := Tallied.of_reachable hr hb
  refine ⟨?_, ?_⟩
  · intro c f hpc
    have hknown := hsound.known c
    rw [hpc] at hknown
    exact hknown
  · intro ver hmain hstop
    obtain ⟨log, hlog, hlen⟩ := hsound.stored (hsound.spawned ver hmain)
    have hle := (Clerk.WellFormed.of_reachable (net_reachable hr)).applied_le_puts key
    rw [hlog.version_eq]
    refine ⟨log, hlog, checkAppends_ok hvisits (htallied.ascending hlog) ?_ ?_ ?_⟩
    · rw [toNat_verOf (by omega), Int.bmod]
      omega
    · intro e he
      obtain ⟨c, hc⟩ := htallied.ids log hlog e he
      have hlt := c.isLt
      omega
    · intro i hi
      have hidle : s.net.clerks (some ⟨i, hi⟩) = none :=
        hsound.no_call (by rw [hstop ⟨i, hi⟩]; rfl)
      have hiter := iter_le_puts hr ⟨i, hi⟩
      refine ⟨s.ended true ⟨i, hi⟩, s.ended false ⟨i, hi⟩, ?_, Nat.lt_of_le_of_lt hiter hputs,
        (htallied.tally log hlog ⟨i, hi⟩).of_idle hidle⟩
      simp [hi, htallied.counted]

/-- The RPC of a clerk call that is answered at once. -/
def answered (c : Clnt 2) (op : KvOp) (rid : ℕ) : List (Label 2) :=
  [.clerk (.invoke c op), .clerk (.send c), .clerk (.enqueue rid), .clerk .serve,
    .clerk (.deliver c)]

/-- The list is created and two clients append to it. The reply to the first
one's Put is lost and its resend is refused: ErrMaybe. -/
def maybeThenOk : List (Label 2) :=
  let u := EntriesJson.entriesCodec
  let first : Fin 2 := ⟨0, Nat.zero_lt_two⟩
  let second : Fin 2 := ⟨1, Nat.one_lt_two⟩
  let put (es : List Entry) (ver : Tversion) : KvOp := .put ⟨key, u.marshal es, ver⟩
  answered none (.put u.create) 0 ++ [.start first, .default first] ++
  answered (some first) (.get ⟨key⟩) 1 ++
  [.clerk (.invoke (some first) (put [⟨0, 0⟩] 1)), .clerk (.send (some first)), .clerk (.enqueue 2),
    .clerk .serve, .clerk (.fail (some first)), .clerk (.send (some first)), .clerk (.enqueue 3),
    .clerk .serve, .clerk (.deliver (some first)), .done first, .start second, .default second] ++
  answered (some second) (.get ⟨key⟩) 4 ++
  answered (some second) (put [⟨0, 0⟩, ⟨1, 0⟩] 2) 5 ++ [.done second]

instance {nclnt : ℕ} (s : State nclnt) : Decidable s.AllStopped :=
  inferInstanceAs (Decidable (∀ c, s.pc c = .stopped))

set_option maxRecDepth 8000 in
theorem checkAppends_passes_maybeThenOk :
    ∃ s : State 2, (system EntriesJson.entriesCodec).Reachable s ∧ s.AllStopped ∧
      List.ofFn s.res = [⟨0, 1⟩, ⟨1, 0⟩] ∧
      ∃ es, checkAppends Finset.toList es 2 [⟨0, 1⟩, ⟨1, 0⟩] (version s.net.kv key) = .ok () := by
  obtain ⟨s, hr, hp⟩ := System.Reachable.of_run_check
    (S := (system EntriesJson.entriesCodec : System (State 2) (Label 2))) maybeThenOk rfl
    (p := fun s => decide (s.main = .ready 0 ∧ s.AllStopped ∧ s.net.puts key < 2 ^ 63 ∧
      List.ofFn s.res = [⟨0, 1⟩, ⟨1, 0⟩])) (by decide +kernel)
  obtain ⟨hmain, hstop, hputs, hres⟩ := of_decide_eq_true hp
  obtain ⟨_, hcheck⟩ := checkAppends_passes EntriesJson.entriesCodec s hr hputs
    Finset.toList fun keys c => Finset.mem_toList
  obtain ⟨es, _, hok⟩ := hcheck 0 hmain hstop
  rw [hres] at hok
  exact ⟨s, hr, hstop, hres, es, hok⟩

end DistributedLabs.KvAppend
