import DistributedLabs.Labrpc
import Mathlib.Data.List.FinRange

/-!
The server groups of tester1 on the simulated network. Server i of a group owns
its ends to all servers of the group and gets fresh ones when it is restarted;
the flags `connected` say which servers are on the net. As long as Partition is
not used, the end from i to j is enabled exactly when both flags hold.
-/
namespace DistributedLabs.Tester

open Labrpc Transition

def serverName (gid : ℤ) (i : ℕ) : String := "server-" ++ toString gid ++ "-" ++ toString i

/-- `saved` is the Persister kept across restarts; `daemon` says whether a
process runs the server. -/
structure Server (n : ℕ) (π : Type*) where
  endNames : Fin n → String
  saved : Option π
  daemon : Bool

/-- `ω` stands for the labrpc servers that StartServer registers. -/
structure ServerGrp (n : ℕ) (ω π : Type*) where
  net : Network String String ω
  gid : ℤ
  srvs : Fin n → Server n π
  connected : Fin n → Bool

variable {n : ℕ} {ω π : Type*}

/-- The ends of a new server; `endNames` are the random strings it drew. -/
def makeServer (gid : ℤ) (endNames : Fin n → String) (net : Network String String ω) :
    Option (Network String String ω) :=
  (List.finRange n).foldlM
    (fun net j => (net.makeEnd (endNames j)).map fun net =>
      net.connect (endNames j) (serverName gid j)) net

/-- Enable or disable the ends to the listed servers that pass a test. -/
def enableEach (net : Network String String ω) (endname : Fin n → String) (test : Fin n → Bool)
    (enabled : Bool) (peers : List (Fin n)) : Network String String ω :=
  peers.foldl (fun net j => if test j then net.enable (endname j) enabled else net) net

namespace ServerGrp

/-- makeSrvGrp; `endNames i` are the strings drawn for server i. -/
def makeSrvGrp (net : Network String String ω) (gid : ℤ) (endNames : Fin n → Fin n → String) :
    Option (ServerGrp n ω π) :=
  ((List.finRange n).foldlM (fun net i => makeServer gid (endNames i) net) net).map fun net =>
    { net, gid, srvs := fun i => ⟨endNames i, none, false⟩, connected := fun _ => false }

def all (_ : ServerGrp n ω π) : List (Fin n) := List.finRange n

/-- Attach server i: its own ends, then the ends of the others to it. -/
def connect (sg : ServerGrp n ω π) (i : Fin n) (peers : List (Fin n)) : ServerGrp n ω π :=
  let connected := Function.update sg.connected i true
  let net := enableEach sg.net (sg.srvs i).endNames connected true peers
  { sg with
    connected
    net := enableEach net (fun j => (sg.srvs j).endNames i) connected true peers }

/-- Detach server i: its own ends, then the ends of the others to it. -/
def disconnect (sg : ServerGrp n ω π) (i : Fin n) (peers : List (Fin n)) : ServerGrp n ω π :=
  let net := enableEach sg.net (sg.srvs i).endNames (fun _ => true) false peers
  { sg with
    connected := Function.update sg.connected i false
    net := enableEach net (fun j => (sg.srvs j).endNames i) (fun _ => true) false peers }

def connectOne (sg : ServerGrp n ω π) (i : Fin n) : ServerGrp n ω π := sg.connect i sg.all

def connectAll (sg : ServerGrp n ω π) : ServerGrp n ω π := sg.all.foldl connectOne sg

def disconnectAll (sg : ServerGrp n ω π) (i : Fin n) : ServerGrp n ω π := sg.disconnect i sg.all

/-- Shut server i down; `p` is what checkpointPersister returns if a daemon runs. -/
def shutdownServer (sg : ServerGrp n ω π) (i : Fin n) (p : π) : ServerGrp n ω π :=
  let sg := sg.disconnect i sg.all
  let srv := sg.srvs i
  { sg with
    net := sg.net.deleteServer (serverName sg.gid i)
    srvs := Function.update sg.srvs i
      (if srv.daemon then { srv with saved := some p, daemon := false } else srv) }

/-- Start server i with the new ends `endNames`. When runDaemon fails the server
is replaced but not registered. `empty` is a new Persister. -/
def startServer (sg : ServerGrp n ω π) (i : Fin n) (endNames : Fin n → String) (empty : π)
    (labsrv : ω) (ok : Bool) : Option (ServerGrp n ω π) :=
  (makeServer sg.gid endNames sg.net).map fun net =>
    let saved := some ((sg.srvs i).saved.getD empty)
    { sg with
      net := if ok then net.addServer (serverName sg.gid i) labsrv else net
      srvs := Function.update sg.srvs i ⟨endNames, saved, ok⟩ }

/-- A shut down server keeps its ends. -/
theorem shutdownServer_endNames (sg : ServerGrp n ω π) (i : Fin n) (p : π) (a : Fin n) :
    ((sg.shutdownServer i p).srvs a).endNames = (sg.srvs a).endNames := by
  by_cases ha : a = i
  · subst ha
    cases hd : (sg.srvs a).daemon <;> simp [shutdownServer, disconnect, hd]
  · simp [shutdownServer, disconnect, ha]

end ServerGrp

inductive Op (n : ℕ) (ω π : Type*)
  | connectOne (i : Fin n)
  | connectAll
  | disconnectAll (i : Fin n)
  | shutdownServer (i : Fin n) (p : π)
  | startServer (i : Fin n) (endNames : Fin n → String) (empty : π) (labsrv : ω) (ok : Bool)

def step (sg : ServerGrp n ω π) : Op n ω π → Option (ServerGrp n ω π)
  | .connectOne i => some (sg.connectOne i)
  | .connectAll => some sg.connectAll
  | .disconnectAll i => some (sg.disconnectAll i)
  | .shutdownServer i p => some (sg.shutdownServer i p)
  | .startServer i endNames empty labsrv ok => sg.startServer i endNames empty labsrv ok

/-- A group made on some network, and calls on it. -/
def system : System (ServerGrp n ω π) (Op n ω π) where
  start sg := ∃ net gid endNames, ServerGrp.makeSrvGrp net gid endNames = some sg
  step := step

/-- Whether server i has been connected since it was created or last shut down,
after one more call. -/
def Op.since (i : Fin n) (since : Bool) : Op n ω π → Bool
  | .connectOne j => since || i = j
  | .connectAll => true
  | .disconnectAll _ => since
  | .shutdownServer j _ => since && i ≠ j
  | .startServer j _ _ _ _ => since && i ≠ j

def connectedSince (i : Fin n) (ops : List (Op n ω π)) : Bool := ops.foldl (Op.since i) false

theorem connectedSince_concat (i : Fin n) (ops : List (Op n ω π)) (op : Op n ω π) :
    connectedSince i (ops ++ [op]) = op.since i (connectedSince i ops) := by
  simp [connectedSince]

/-- StartServer(i) is called only when i has not been connected since it was
created or last shut down. -/
def Permitted (ops : List (Op n ω π)) : Prop :=
  ∀ pre i endNames empty labsrv ok suf,
    ops = pre ++ .startServer i endNames empty labsrv ok :: suf → connectedSince i pre = false

/-- The ends of the group are distinct and exist, whatever the flags say. -/
structure Named (sg : ServerGrp n ω π) : Prop where
  distinct : ∀ i j i' j', (sg.srvs i).endNames j = (sg.srvs i').endNames j' → i = i' ∧ j = j'
  exist : ∀ i j, (sg.srvs i).endNames j ∈ sg.net.ends

/-- The flags describe the ends. -/
structure Precise (sg : ServerGrp n ω π) : Prop extends Named sg where
  enabled_eq : ∀ i j,
    sg.net.enabled ((sg.srvs i).endNames j) = (sg.connected i && sg.connected j)

section Ends

variable {net net' : Network String String ω} {gid : ℤ}

/-- Ends that MakeEnd accepted one after another. -/
theorem makeEnds_spec {endNames : Fin n → String} (js : List (Fin n))
    (h : js.foldlM (fun net j => (net.makeEnd (endNames j)).map fun net =>
      net.connect (endNames j) (serverName gid j)) net = some net') :
    (js.map endNames).Nodup ∧ (∀ j ∈ js, endNames j ∉ net.ends) ∧
      (∀ e, e ∈ net'.ends ↔ e ∈ net.ends ∨ e ∈ js.map endNames) ∧
      ∀ e, net'.enabled e = if e ∈ js.map endNames then false else net.enabled e := by
  induction js generalizing net with
  | nil =>
    cases h
    simp
  | cons j js ih =>
    rw [List.foldlM_cons] at h
    obtain ⟨net₁, hnet₁, hrest⟩ := Option.bind_eq_some_iff.mp h
    obtain ⟨net₀, hmake, rfl⟩ := Option.map_eq_some_iff.mp hnet₁
    simp only [Network.makeEnd, Option.ite_none_left_eq_some, Option.some.injEq] at hmake
    obtain ⟨hnew, rfl⟩ := hmake
    obtain ⟨hnodup, hfresh, hends, henabled⟩ := ih hrest
    have hfirst : endNames j ∉ js.map endNames := by
      intro hmem
      obtain ⟨j', hj', heq⟩ := List.mem_map.mp hmem
      apply hfresh j' hj'
      rw [heq]
      exact Finset.mem_insert_self _ _
    refine ⟨List.nodup_cons.mpr ⟨hfirst, hnodup⟩, ?_, ?_, ?_⟩
    · intro j' hj'
      rcases List.mem_cons.mp hj' with rfl | hj'
      · exact hnew
      · intro hmem
        exact hfresh j' hj' (Finset.mem_insert_of_mem hmem)
    · intro e
      rw [hends e]
      simp only [Network.connect, Finset.mem_insert, List.map_cons, List.mem_cons]
      tauto
    · intro e
      rw [henabled e]
      by_cases he : e = endNames j
      · subst he
        simp [Network.connect]
      · simp [Network.connect, he]

theorem makeServer_spec {endNames : Fin n → String}
    (h : makeServer gid endNames net = some net') :
    Function.Injective endNames ∧ (∀ j, endNames j ∉ net.ends) ∧
      (∀ e, e ∈ net'.ends ↔ e ∈ net.ends ∨ e ∈ Set.range endNames) ∧
      ∀ e, (e ∈ Set.range endNames → net'.enabled e = false) ∧
        (e ∉ Set.range endNames → net'.enabled e = net.enabled e) := by
  obtain ⟨hnodup, hfresh, hends, henabled⟩ := makeEnds_spec _ h
  have hmem : ∀ e, e ∈ (List.finRange n).map endNames ↔ e ∈ Set.range endNames := by
    intro e
    simp
  refine ⟨?_, fun j => hfresh j (List.mem_finRange j), ?_, ?_⟩
  · intro j j' heq
    exact List.inj_on_of_nodup_map hnodup (List.mem_finRange j) (List.mem_finRange j') heq
  · intro e
    rw [hends e, hmem e]
  · intro e
    rw [henabled e]
    constructor
    · intro he
      rw [if_pos ((hmem e).mpr he)]
    · intro he
      rw [if_neg (fun h => he ((hmem e).mp h))]

theorem enableEach_ends (endname : Fin n → String) (test : Fin n → Bool) (enabled : Bool)
    (peers : List (Fin n)) : (enableEach net endname test enabled peers).ends = net.ends := by
  induction peers generalizing net with
  | nil => rfl
  | cons j peers ih =>
    rw [enableEach, List.foldl_cons, ← enableEach, ih]
    split <;> rfl

theorem enableEach_enabled (endname : Fin n → String) (test : Fin n → Bool) (enabled : Bool)
    (peers : List (Fin n)) (e : String) :
    (enableEach net endname test enabled peers).enabled e =
      if ∃ j ∈ peers, test j = true ∧ endname j = e then enabled else net.enabled e := by
  induction peers generalizing net with
  | nil => simp [enableEach]
  | cons j peers ih =>
    rw [enableEach, List.foldl_cons, ← enableEach, ih]
    by_cases hrest : ∃ j ∈ peers, test j = true ∧ endname j = e
    · simp [hrest]
    · by_cases hj : test j = true
      · by_cases he : endname j = e
        · simp [hj, he, Network.enable]
        · simp [hrest, hj, he, Network.enable, Function.update_of_ne (Ne.symm he)]
      · simp [hrest, hj]

end Ends

namespace Named

variable {sg : ServerGrp n ω π}

/-- Of the ends of i, only its end to b can be the end from a to b. -/
theorem own_end_iff (hs : Named sg) (i a b : Fin n) (test : Fin n → Prop)
    (peers : List (Fin n)) :
    (∃ j ∈ peers, test j ∧ (sg.srvs i).endNames j = (sg.srvs a).endNames b) ↔
      a = i ∧ b ∈ peers ∧ test b := by
  constructor
  · rintro ⟨j, hmem, hj, heq⟩
    obtain ⟨rfl, rfl⟩ := hs.distinct i j a b heq
    exact ⟨rfl, hmem, hj⟩
  · rintro ⟨rfl, hmem, hb⟩
    exact ⟨b, hmem, hb, rfl⟩

theorem others_end_iff (hs : Named sg) (i a b : Fin n) (test : Fin n → Prop)
    (peers : List (Fin n)) :
    (∃ j ∈ peers, test j ∧ (sg.srvs j).endNames i = (sg.srvs a).endNames b) ↔
      b = i ∧ a ∈ peers ∧ test a := by
  constructor
  · rintro ⟨j, hmem, hj, heq⟩
    obtain ⟨rfl, rfl⟩ := hs.distinct j i a b heq
    exact ⟨rfl, hmem, hj⟩
  · rintro ⟨rfl, hmem, ha⟩
    exact ⟨a, hmem, ha, rfl⟩

theorem connect (hs : Named sg) (i : Fin n) (peers : List (Fin n)) :
    Named (sg.connect i peers) where
  distinct := hs.distinct
  exist a b := by
    simp only [ServerGrp.connect, enableEach_ends]
    exact hs.exist a b

theorem connect_enabled (hs : Named sg) (i : Fin n) (peers : List (Fin n)) (a b : Fin n) :
    (sg.connect i peers).net.enabled ((sg.srvs a).endNames b) =
      if b = i ∧ a ∈ peers ∧ Function.update sg.connected i true a = true then true
      else if a = i ∧ b ∈ peers ∧ Function.update sg.connected i true b = true then true
      else sg.net.enabled ((sg.srvs a).endNames b) := by
  simp only [ServerGrp.connect, enableEach_enabled, hs.own_end_iff, hs.others_end_iff]

theorem disconnect (hs : Named sg) (i : Fin n) (peers : List (Fin n)) :
    Named (sg.disconnect i peers) where
  distinct := hs.distinct
  exist a b := by
    simp only [ServerGrp.disconnect, enableEach_ends]
    exact hs.exist a b

theorem disconnect_enabled (hs : Named sg) (i : Fin n) (peers : List (Fin n)) (a b : Fin n) :
    (sg.disconnect i peers).net.enabled ((sg.srvs a).endNames b) =
      if b = i ∧ a ∈ peers then false
      else if a = i ∧ b ∈ peers then false
      else sg.net.enabled ((sg.srvs a).endNames b) := by
  simp only [ServerGrp.disconnect, enableEach_enabled, hs.own_end_iff, hs.others_end_iff,
    and_true]

theorem connectAll (hs : Named sg) : Named sg.connectAll := by
  have hfold : ∀ (is : List (Fin n)) (sg : ServerGrp n ω π), Named sg →
      Named (is.foldl ServerGrp.connectOne sg) := by
    intro is
    induction is with
    | nil => exact fun sg hs => hs
    | cons i is ih => exact fun sg hs => ih _ (hs.connect i sg.all)
  exact hfold sg.all sg hs

theorem shutdownServer (hs : Named sg) (i : Fin n) (p : π) :
    Named (sg.shutdownServer i p) := by
  have hoff := hs.disconnect i sg.all
  constructor
  · intro a b a' b' heq
    rw [ServerGrp.shutdownServer_endNames, ServerGrp.shutdownServer_endNames] at heq
    exact hs.distinct a b a' b' heq
  · intro a b
    rw [ServerGrp.shutdownServer_endNames]
    exact hoff.exist a b

/-- MakeEnd accepts only new names. -/
theorem startServer (hs : Named sg) {i : Fin n} {endNames : Fin n → String} {empty : π}
    {labsrv : ω} {ok : Bool} {sg' : ServerGrp n ω π}
    (h : sg.startServer i endNames empty labsrv ok = some sg') : Named sg' := by
  obtain ⟨net, hnet, rfl⟩ := Option.map_eq_some_iff.mp h
  obtain ⟨hinj, hfresh, hends, _⟩ := makeServer_spec hnet
  have hnew : ∀ j a b, endNames j ≠ (sg.srvs a).endNames b := by
    intro j a b heq
    exact hfresh j (heq ▸ hs.exist a b)
  constructor
  · intro a b a' b' heq
    by_cases ha : a = i
    · by_cases ha' : a' = i
      · subst ha ha'
        exact ⟨rfl, hinj (by simpa using heq)⟩
      · subst ha
        exact absurd (by simpa [ha'] using heq) (hnew b a' b')
    · by_cases ha' : a' = i
      · subst ha'
        exact absurd (by simpa [ha] using heq.symm) (hnew b' a b)
      · exact hs.distinct a b a' b' (by simpa [ha, ha'] using heq)
  · intro a b
    have hmem : (if ok then net.addServer (serverName sg.gid i) labsrv else net).ends =
        net.ends := by cases ok <;> rfl
    rw [hmem, hends]
    by_cases ha : a = i
    · subst ha
      exact Or.inr ⟨b, by simp⟩
    · exact Or.inl (by simpa [ha] using hs.exist a b)

end Named

namespace Precise

variable {sg : ServerGrp n ω π}

theorem connectOne (hs : Precise sg) (i : Fin n) : Precise (sg.connectOne i) where
  toNamed := hs.toNamed.connect i sg.all
  enabled_eq a b := by
    have hafter := hs.toNamed.connect_enabled i sg.all a b
    simp only [ServerGrp.all, List.mem_finRange, true_and, hs.enabled_eq a b] at hafter
    refine hafter.trans ?_
    simp only [ServerGrp.connectOne, ServerGrp.connect]
    by_cases ha : a = i
    · subst ha
      by_cases hb : b = a
      · subst hb
        simp
      · cases hconn : sg.connected b <;> simp [hb, hconn]
    · by_cases hb : b = i
      · subst hb
        cases hconn : sg.connected a <;> simp [ha, hconn]
      · simp [ha, hb]

theorem disconnectAll (hs : Precise sg) (i : Fin n) : Precise (sg.disconnectAll i) where
  toNamed := hs.toNamed.disconnect i sg.all
  enabled_eq a b := by
    have hafter := hs.toNamed.disconnect_enabled i sg.all a b
    simp only [ServerGrp.all, List.mem_finRange, and_true, hs.enabled_eq a b] at hafter
    refine hafter.trans ?_
    simp only [ServerGrp.disconnectAll, ServerGrp.disconnect]
    by_cases ha : a = i
    · subst ha
      simp
    · by_cases hb : b = i
      · subst hb
        simp
      · simp [ha, hb]

theorem connectAll (hs : Precise sg) : Precise sg.connectAll := by
  have hfold : ∀ (is : List (Fin n)) (sg : ServerGrp n ω π), Precise sg →
      Precise (is.foldl ServerGrp.connectOne sg) := by
    intro is
    induction is with
    | nil => exact fun sg hs => hs
    | cons i is ih => exact fun sg hs => ih _ (hs.connectOne i)
  exact hfold sg.all sg hs

theorem shutdownServer (hs : Precise sg) (i : Fin n) (p : π) :
    Precise (sg.shutdownServer i p) where
  toNamed := hs.toNamed.shutdownServer i p
  enabled_eq a b := by
    rw [ServerGrp.shutdownServer_endNames]
    exact (hs.disconnectAll i).enabled_eq a b

/-- The new ends are disabled, as they must be while i is off the net. -/
theorem startServer (hs : Precise sg) {i : Fin n} {endNames : Fin n → String} {empty : π}
    {labsrv : ω} {ok : Bool} {sg' : ServerGrp n ω π}
    (h : sg.startServer i endNames empty labsrv ok = some sg') (hoff : sg.connected i = false) :
    Precise sg' ∧ sg'.connected = sg.connected := by
  have hnamed := hs.toNamed.startServer h
  obtain ⟨net, hnet, rfl⟩ := Option.map_eq_some_iff.mp h
  obtain ⟨_, hfresh, _, henabled⟩ := makeServer_spec hnet
  refine ⟨⟨hnamed, ?_⟩, rfl⟩
  intro a b
  have hsame : (if ok then net.addServer (serverName sg.gid i) labsrv else net).enabled =
      net.enabled := by cases ok <;> rfl
  rw [hsame]
  by_cases ha : a = i
  · subst ha
    simpa [hoff] using (henabled (endNames b)).1 ⟨b, rfl⟩
  · have hold : (sg.srvs a).endNames b ∉ Set.range endNames := by
      rintro ⟨j, hj⟩
      exact hfresh j (hj ▸ hs.exist a b)
    simpa [ha] using ((henabled _).2 hold).trans (hs.enabled_eq a b)

end Precise

/-- The ends of servers made one after another. -/
theorem makeServers_spec {net net' : Network String String ω} {gid : ℤ}
    {endNames : Fin n → Fin n → String} (is : List (Fin n)) (hnd : is.Nodup)
    (h : is.foldlM (fun net i => makeServer gid (endNames i) net) net = some net') :
    (∀ e ∈ net.ends, e ∈ net'.ends ∧ net'.enabled e = net.enabled e) ∧
      (∀ i ∈ is, ∀ j, endNames i j ∉ net.ends ∧ endNames i j ∈ net'.ends ∧
        net'.enabled (endNames i j) = false) ∧
      ∀ i ∈ is, ∀ i' ∈ is, ∀ j j', endNames i j = endNames i' j' → i = i' ∧ j = j' := by
  induction is generalizing net with
  | nil =>
    cases h
    simp
  | cons i is ih =>
    rw [List.foldlM_cons] at h
    obtain ⟨net₁, hnet₁, hrest⟩ := Option.bind_eq_some_iff.mp h
    obtain ⟨hinj, hfresh, hends, henabled⟩ := makeServer_spec hnet₁
    obtain ⟨hkeep, hmade, hdistinct⟩ := ih (List.nodup_cons.mp hnd).2 hrest
    have hfirst : ∀ j, endNames i j ∈ net₁.ends := fun j => (hends _).mpr (Or.inr ⟨j, rfl⟩)
    refine ⟨?_, ?_, ?_⟩
    · intro e he
      have hout : e ∉ Set.range (endNames i) := by
        rintro ⟨j, rfl⟩
        exact hfresh j he
      obtain ⟨hmem, heq⟩ := hkeep e ((hends e).mpr (Or.inl he))
      exact ⟨hmem, heq.trans ((henabled e).2 hout)⟩
    · intro a ha j
      rcases List.mem_cons.mp ha with rfl | hrest
      · obtain ⟨hmem, heq⟩ := hkeep _ (hfirst j)
        exact ⟨hfresh j, hmem, heq.trans ((henabled _).1 ⟨j, rfl⟩)⟩
      · obtain ⟨hnot, hmem, hoff⟩ := hmade a hrest j
        exact ⟨fun hin => hnot ((hends _).mpr (Or.inl hin)), hmem, hoff⟩
    · intro a ha a' ha' j j' heq
      rcases List.mem_cons.mp ha with rfl | hrest
      · rcases List.mem_cons.mp ha' with rfl | hrest'
        · exact ⟨rfl, hinj heq⟩
        · exact absurd (heq ▸ hfirst j) (hmade a' hrest' j').1
      · rcases List.mem_cons.mp ha' with rfl | hrest'
        · exact absurd (heq ▸ hfirst j') (hmade a hrest j).1
        · exact hdistinct a hrest a' hrest' j j' heq

theorem Precise.makeSrvGrp {net : Network String String ω} {gid : ℤ}
    {endNames : Fin n → Fin n → String} {sg : ServerGrp n ω π}
    (h : ServerGrp.makeSrvGrp net gid endNames = some sg) : Precise sg := by
  obtain ⟨net', hnet', rfl⟩ := Option.map_eq_some_iff.mp h
  obtain ⟨_, hmade, hdistinct⟩ := makeServers_spec _ (List.nodup_finRange n) hnet'
  refine ⟨⟨?_, ?_⟩, ?_⟩
  · intro i j i' j'
    exact hdistinct i (List.mem_finRange i) i' (List.mem_finRange i') j j'
  · intro i j
    exact (hmade i (List.mem_finRange i) j).2.1
  · intro i j
    exact (hmade i (List.mem_finRange i) j).2.2

theorem Permitted.init {ops : List (Op n ω π)} {op : Op n ω π} (h : Permitted (ops ++ [op])) :
    Permitted ops := by
  rintro pre i endNames empty labsrv ok suf rfl
  exact h pre i endNames empty labsrv ok (suf ++ [op]) (by simp)

/-- What the calls so far leave behind: precise flags, and a server that is
flagged has been connected since it was created or last shut down. -/
structure Tracked (ops : List (Op n ω π)) (sg : ServerGrp n ω π) : Prop where
  precise : Precise sg
  since : ∀ i, sg.connected i = true → connectedSince i ops = true

theorem Tracked.step {ops : List (Op n ω π)} {sg sg' : ServerGrp n ω π} {op : Op n ω π}
    (hs : Tracked ops sg) (hpermitted : Permitted (ops ++ [op]))
    (h : Tester.step sg op = some sg') : Tracked (ops ++ [op]) sg' := by
  cases op with
  | connectOne i =>
    cases h
    refine ⟨hs.precise.connectOne i, ?_⟩
    intro j hj
    rw [connectedSince_concat]
    by_cases hij : j = i
    · simp [Op.since, hij]
    · have hold : sg.connected j = true := by
        simpa [ServerGrp.connectOne, ServerGrp.connect, hij] using hj
      simp [Op.since, hs.since j hold]
  | connectAll =>
    cases h
    exact ⟨hs.precise.connectAll, fun j _ => connectedSince_concat j ops _⟩
  | disconnectAll i =>
    cases h
    refine ⟨hs.precise.disconnectAll i, ?_⟩
    intro j hj
    rw [connectedSince_concat]
    by_cases hij : j = i
    · subst hij
      simp [ServerGrp.disconnectAll, ServerGrp.disconnect] at hj
    · exact hs.since j (by simpa [ServerGrp.disconnectAll, ServerGrp.disconnect, hij] using hj)
  | shutdownServer i p =>
    cases h
    refine ⟨hs.precise.shutdownServer i p, ?_⟩
    intro j hj
    rw [connectedSince_concat]
    by_cases hij : j = i
    · subst hij
      simp [ServerGrp.shutdownServer, ServerGrp.disconnect] at hj
    · have hold : sg.connected j = true := by
        simpa [ServerGrp.shutdownServer, ServerGrp.disconnect, hij] using hj
      simp [Op.since, hs.since j hold, hij]
  | startServer i endNames empty labsrv ok =>
    have hnever := hpermitted ops i endNames empty labsrv ok [] rfl
    have hoff : sg.connected i = false := by
      by_contra hon
      rw [hs.since i (by simpa using hon)] at hnever
      cases hnever
    obtain ⟨hprecise, hconn⟩ := hs.precise.startServer h hoff
    refine ⟨hprecise, ?_⟩
    intro j hj
    rw [hconn] at hj
    rw [connectedSince_concat]
    have hij : j ≠ i := by
      rintro rfl
      rw [hoff] at hj
      cases hj
    simp [Op.since, hs.since j hj, hij]

theorem connected_describes_network (net : Network String String ω) (gid : ℤ)
    (endNames : Fin n → Fin n → String) (sg₀ sg : ServerGrp n ω π) (ops : List (Op n ω π))
    (hmake : ServerGrp.makeSrvGrp net gid endNames = some sg₀)
    (hrun : system.run sg₀ ops = some sg) (hpermitted : Permitted ops) (i j : Fin n) :
    sg.net.enabled ((sg.srvs i).endNames j) = true ↔
      sg.connected i = true ∧ sg.connected j = true := by
  have htracked : Permitted ops → Tracked ops sg := by
    refine System.run_invariant (I := fun ops sg => Permitted ops → Tracked ops sg) ?_ ?_ hrun
    · intro _
      refine ⟨Precise.makeSrvGrp hmake, ?_⟩
      obtain ⟨net', _, rfl⟩ := Option.map_eq_some_iff.mp hmake
      intro i hi
      cases hi
    · intro ops sg op sg' _ hs hstep hpermitted
      exact (hs hpermitted.init).step hpermitted hstep
  rw [(htracked hpermitted).precise.enabled_eq i j, Bool.and_eq_true]

/-- Strings that the servers of a group can have drawn for their ends. -/
def drawn (i j : Fin n) : String := "end-" ++ toString i.val ++ "-" ++ toString j.val

/-- Server 1 is restarted, with new ends, after both were connected. -/
def restart : List (Op 2 ℕ Unit) :=
  [.startServer 1 (fun j => "first-" ++ toString j.val) () 0 true, .connectAll,
    .shutdownServer 1 (), .startServer 1 (fun j => "second-" ++ toString j.val) () 1 true,
    .connectOne 1]

theorem permitted_restart : Permitted restart := by
  intro pre i endNames empty labsrv ok suf h
  rcases pre with _ | ⟨_, _ | ⟨_, _ | ⟨_, _ | ⟨_, _ | ⟨_, pre⟩⟩⟩⟩⟩
  · rfl
  · simp [restart] at h
  · simp [restart] at h
  · simp only [restart, List.cons_append, List.nil_append, List.cons.injEq,
      Op.startServer.injEq] at h
    obtain ⟨rfl, rfl, rfl, ⟨rfl, _⟩, _⟩ := h
    rfl
  · simp [restart] at h
  · simp [restart] at h

set_option maxRecDepth 4000 in
theorem connected_describes_network_restart :
    ∃ sg₀ sg : ServerGrp 2 ℕ Unit,
      ServerGrp.makeSrvGrp Network.makeNetwork 0 drawn = some sg₀ ∧
      system.run sg₀ restart = some sg ∧ sg.net.enabled ((sg.srvs 0).endNames 1) = true := by
  have hcheck : ((ServerGrp.makeSrvGrp Network.makeNetwork 0 drawn :
      Option (ServerGrp 2 ℕ Unit)).bind fun sg₀ =>
        system.run sg₀ restart).any (fun sg => sg.connected 0 && sg.connected 1) = true := by
    decide +kernel
  obtain ⟨sg, hsg, hflags⟩ := (Option.any_eq_true _ _).mp hcheck
  obtain ⟨sg₀, hmake, hrun⟩ := Option.bind_eq_some_iff.mp hsg
  refine ⟨sg₀, sg, hmake, hrun, ?_⟩
  exact (connected_describes_network _ 0 drawn sg₀ sg restart hmake hrun permitted_restart
    0 1).mpr (by simpa using hflags)

end DistributedLabs.Tester
