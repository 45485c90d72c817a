import Mathlib.Data.Finmap
import Mathlib.Data.List.Induction
import Mathlib.Order.Defs.LinearOrder

/-!
The tester's annotations for the picture of a test run. A continuous annotation of a
tag lasts until the next one of the tag, or until it is ended; those still on-going
are closed when the annotations are finalized. `timeline` says what a tag should show.
annotateContinuousEnd also records an annotation when nothing is on-going, from time
zero and without text, so a tag shows its timeline only if that never happens.
-/
namespace DistributedLabs.Annotations

/-- porcupine.Annotation; `stop` is its field End. -/
structure PorcupineAnnotation where
  tag : String
  start : ℤ
  stop : ℤ
  description : String
  details : String
  backgroundColor : String
  deriving DecidableEq

structure Continuous where
  start : ℤ
  desp : String
  details : String
  bgcolor : String
  deriving DecidableEq

def tagPartition : String := "$ Failure"

def colorFault : String := "#B3E5FC"

/-- The value Go gives for a tag that is not in the map. -/
def Continuous.zero : Continuous := ⟨0, "", "", ""⟩

/-- The type Annotation of the tester. -/
structure AnnotationState where
  annotations : List PorcupineAnnotation
  continuous : Finmap fun _ : String => Continuous
  finalized : Bool

def mkAnnotationState : AnnotationState := ⟨[], ∅, false⟩

/-- The annotation made of an on-going one that ends. -/
def concretize (tag : String) (cont : Continuous) (t : ℤ) : PorcupineAnnotation :=
  ⟨tag, cont.start, t, cont.desp, cont.details, cont.bgcolor⟩

namespace AnnotationState

def clear (_ : AnnotationState) : AnnotationState := ⟨[], ∅, false⟩

def annotatePointColor (an : AnnotationState) (t : ℤ) (tag desp details bgcolor : String) :
    AnnotationState :=
  { an with annotations := an.annotations ++ [⟨tag, t, 0, desp, details, bgcolor⟩] }

def annotateContinuousColor (an : AnnotationState) (t : ℤ) (tag desp details bgcolor : String) :
    AnnotationState :=
  match an.continuous.lookup tag with
  | none => { an with continuous := an.continuous.insert tag ⟨t, desp, details, bgcolor⟩ }
  | some cont =>
    { an with
      annotations := an.annotations ++ [concretize tag cont t]
      continuous := an.continuous.insert tag ⟨t, desp, details, bgcolor⟩ }

/-- The branch for a tag with nothing on-going is empty and does not return. -/
def annotateContinuousEnd (an : AnnotationState) (t : ℤ) (tag : String) : AnnotationState :=
  let cont := (an.continuous.lookup tag).getD Continuous.zero
  { an with
    annotations := an.annotations ++ [concretize tag cont t]
    continuous := an.continuous.erase tag }

/-- `order` is the order in which the map of on-going annotations is ranged over. -/
def finalize (an : AnnotationState) (t : ℤ) (order : List String) :
    List PorcupineAnnotation × AnnotationState :=
  (an.annotations ++
      order.filterMap fun tag => (an.continuous.lookup tag).map fun cont => concretize tag cont t,
    { an with finalized := true })

end AnnotationState

/-- An order in which the on-going annotations may be ranged over. -/
structure Ranges (continuous : Finmap fun _ : String => Continuous) (order : List String) :
    Prop where
  nodup : order.Nodup
  mem_iff : ∀ tag, tag ∈ order ↔ tag ∈ continuous

theorem exists_ranges (continuous : Finmap fun _ : String => Continuous) :
    ∃ order, Ranges continuous order :=
  ⟨continuous.keys.toList, Finset.nodup_toList _, fun tag => by simp [Finmap.mem_keys]⟩

inductive Call
  | continuousColor (tag desp details bgcolor : String)
  | continuousEnd (tag : String)
  deriving DecidableEq

def Call.tag : Call → String
  | .continuousColor tag _ _ _ => tag
  | .continuousEnd tag => tag

def Call.isColor : Call → Bool
  | .continuousColor .. => true
  | .continuousEnd _ => false

/-- A call and the timestamp taken in it. -/
structure Event where
  time : ℤ
  call : Call
  deriving DecidableEq

namespace AnnotationState

def apply (an : AnnotationState) (e : Event) : AnnotationState :=
  match e.call with
  | .continuousColor tag desp details bgcolor =>
    an.annotateContinuousColor e.time tag desp details bgcolor
  | .continuousEnd tag => an.annotateContinuousEnd e.time tag

def run (an : AnnotationState) (events : List Event) : AnnotationState := events.foldl apply an

/-- What finalize returns for a tag. -/
def recorded (an : AnnotationState) (t : ℤ) (order : List String) (tag : String) :
    List PorcupineAnnotation :=
  (an.finalize t order).1.filter fun a => a.tag = tag

end AnnotationState

/-- The time of the first of some events, or else the end of the test. -/
def nextTime (t : ℤ) : List Event → ℤ
  | [] => t
  | e :: _ => e.time

/-- The intervals of the events of one tag: each color lasts until the next event. -/
def intervals (t : ℤ) : List Event → List PorcupineAnnotation
  | [] => []
  | e :: rest =>
    match e.call with
    | .continuousColor tag desp details bgcolor =>
      ⟨tag, e.time, nextTime t rest, desp, details, bgcolor⟩ :: intervals t rest
    | .continuousEnd _ => intervals t rest

/-- What a tag should show when the test ends at time t. -/
def timeline (tag : String) (events : List Event) (t : ℤ) : List PorcupineAnnotation :=
  intervals t (events.filter fun e => e.call.tag = tag)

/-- Whether an annotation of the tag is on-going after some events. -/
def onGoing (tag : String) (events : List Event) : Bool :=
  events.foldl (fun on e => if e.call.tag = tag then e.call.isColor else on) false

/-- The tag is only ended while an annotation of it is on-going. -/
def Matched (tag : String) (events : List Event) : Prop :=
  ∀ before e rest, events = before ++ e :: rest → e.call = .continuousEnd tag →
    onGoing tag before = true

/-- The number of annotations begun for a tag. -/
def colors (tag : String) (events : List Event) : ℕ :=
  (events.filter fun e => e.call.tag = tag ∧ e.call.isColor = true).length

section Spec

variable {tag : String} {events : List Event} {e : Event}

theorem onGoing_concat (tag : String) (events : List Event) (e : Event) :
    onGoing tag (events ++ [e]) =
      if e.call.tag = tag then e.call.isColor else onGoing tag events := by
  rw [onGoing, List.foldl_append]
  rfl

/-- A condition on every element and the elements before it, for a list with one more. -/
theorem forall_split_concat {α : Type*} {P : List α → α → Prop} {l : List α} {a : α} :
    (∀ before x rest, l ++ [a] = before ++ x :: rest → P before x) ↔
      (∀ before x rest, l = before ++ x :: rest → P before x) ∧ P l a := by
  constructor
  · intro h
    refine ⟨fun before x rest heq => ?_, h l a [] rfl⟩
    exact h before x (rest ++ [a]) (by simp [heq])
  · rintro ⟨hbefore, hlast⟩ before x rest heq
    rcases List.eq_nil_or_concat rest with rfl | ⟨rest', a', rfl⟩
    · obtain ⟨rfl, ha⟩ := List.append_inj' heq rfl
      obtain rfl := (List.cons.inj ha).1
      exact hlast
    · rw [List.concat_eq_append, ← List.cons_append, ← List.append_assoc] at heq
      exact hbefore before x rest' (List.append_inj' heq rfl).1

theorem matched_nil (tag : String) : Matched tag [] := by
  intro before e rest h
  simp at h

theorem matched_concat_iff :
    Matched tag (events ++ [e]) ↔
      Matched tag events ∧ (e.call = .continuousEnd tag → onGoing tag events = true) :=
  forall_split_concat

theorem nextTime_append_singleton (t : ℤ) (events : List Event) (e : Event) :
    nextTime t (events ++ [e]) = nextTime e.time events := by
  cases events <;> rfl

/-- A further event ends the interval that was still open. -/
theorem intervals_concat (t : ℤ) (events : List Event) (e : Event) :
    intervals t (events ++ [e]) = intervals e.time events ++ intervals t [e] := by
  induction events with
  | nil => rfl
  | cons e' events ih =>
    rw [List.cons_append, intervals, intervals, ih, nextTime_append_singleton]
    cases e'.call <;> rfl

theorem timeline_concat (tag : String) (events : List Event) (e : Event) (t : ℤ) :
    timeline tag (events ++ [e]) t =
      if e.call.tag = tag then timeline tag events e.time ++ intervals t [e]
      else timeline tag events t := by
  unfold timeline
  rw [List.filter_append]
  by_cases he : e.call.tag = tag
  · rw [if_pos he, List.filter_cons_of_pos (by simpa using he), List.filter_nil, intervals_concat]
  · rw [if_neg he, List.filter_cons_of_neg (by simpa using he), List.filter_nil, List.append_nil]

theorem colors_concat (tag : String) (events : List Event) (e : Event) :
    colors tag (events ++ [e]) =
      colors tag events + if e.call.tag = tag ∧ e.call.isColor = true then 1 else 0 := by
  unfold colors
  rw [List.filter_append, List.length_append]
  by_cases he : e.call.tag = tag ∧ e.call.isColor = true
  · simp [he]
  · rw [if_neg he, List.filter_cons_of_neg (by simpa using he)]
    rfl

theorem length_intervals_singleton (t : ℤ) (e : Event) :
    (intervals t [e]).length = if e.call.isColor = true then 1 else 0 := by
  rw [intervals]
  cases e.call <;> rfl

theorem length_timeline (tag : String) (events : List Event) (t : ℤ) :
    (timeline tag events t).length = colors tag events := by
  induction events using List.reverseRecOn generalizing t with
  | nil => rfl
  | append_singleton events e ih =>
    rw [timeline_concat, colors_concat]
    by_cases he : e.call.tag = tag
    · rw [if_pos he, List.length_append, ih, length_intervals_singleton]
      simp only [he, true_and]
    · simp [he, ih]

theorem le_start_of_mem_intervals {x t : ℤ} (hx : ∀ e ∈ events, x ≤ e.time) :
    ∀ a ∈ intervals t events, x ≤ a.start := by
  induction events with
  | nil => simp [intervals]
  | cons e events ih =>
    obtain ⟨he, hrest⟩ := List.forall_mem_cons.mp hx
    rw [intervals]
    cases e.call with
    | continuousColor tag desp details bgcolor =>
      exact List.forall_mem_cons.mpr ⟨he, ih hrest⟩
    | continuousEnd tag => exact ih hrest

/-- No event comes before the first one. -/
theorem nextTime_le {t : ℤ} (hsorted : events.Pairwise fun a b => a.time ≤ b.time) :
    ∀ e ∈ events, nextTime t events ≤ e.time := by
  cases events with
  | nil => simp
  | cons e events =>
    exact List.forall_mem_cons.mpr ⟨Int.le_refl _, (List.pairwise_cons.mp hsorted).1⟩

theorem intervals_ordered {t : ℤ} (hsorted : events.Pairwise fun a b => a.time ≤ b.time)
    (ht : ∀ e ∈ events, e.time ≤ t) :
    (intervals t events).Pairwise (fun a b => a.stop ≤ b.start) ∧
      ∀ a ∈ intervals t events, a.start ≤ a.stop := by
  induction events with
  | nil => simp [intervals]
  | cons e events ih =>
    obtain ⟨hfirst, hsorted'⟩ := List.pairwise_cons.mp hsorted
    obtain ⟨hlast, ht'⟩ := List.forall_mem_cons.mp ht
    obtain ⟨hpairwise, hle⟩ := ih hsorted' ht'
    rw [intervals]
    cases e.call with
    | continuousColor tag desp details bgcolor =>
      have hstop : e.time ≤ nextTime t events := by
        cases events with
        | nil => exact hlast
        | cons e' events => exact hfirst e' (List.mem_cons_self ..)
      have hlater := le_start_of_mem_intervals (t := t) (nextTime_le (t := t) hsorted')
      exact ⟨List.pairwise_cons.mpr ⟨hlater, hpairwise⟩, List.forall_mem_cons.mpr ⟨hstop, hle⟩⟩
    | continuousEnd tag => exact ⟨hpairwise, hle⟩

theorem timeline_ordered (tag : String) {t : ℤ}
    (hsorted : events.Pairwise fun a b => a.time ≤ b.time) (ht : ∀ e ∈ events, e.time ≤ t) :
    (timeline tag events t).Pairwise (fun a b => a.stop ≤ b.start) ∧
      ∀ a ∈ timeline tag events t, a.start ≤ a.stop :=
  intervals_ordered (hsorted.filter _) fun e he => ht e (List.mem_filter.mp he).1

end Spec

section Recorded

variable {an : AnnotationState} {tag : String} {t : ℤ}

/-- What a tag shows if the test ends now, the on-going annotation last. -/
def outcome (an : AnnotationState) (tag : String) (t : ℤ) : List PorcupineAnnotation :=
  (an.annotations.filter fun a => a.tag = tag) ++
    ((an.continuous.lookup tag).map fun cont => concretize tag cont t).toList

theorem filter_filterMap_lookup (continuous : Finmap fun _ : String => Continuous) (t : ℤ)
    (tag : String) {order : List String} (hnodup : order.Nodup) :
    (order.filterMap fun tag => (continuous.lookup tag).map fun cont =>
        concretize tag cont t).filter (fun a => a.tag = tag) =
      if tag ∈ order then ((continuous.lookup tag).map fun cont => concretize tag cont t).toList
      else [] := by
  induction order with
  | nil => rfl
  | cons tag' order ih =>
    obtain ⟨hnot, hnodup'⟩ := List.nodup_cons.mp hnodup
    have hrest := ih hnodup'
    by_cases heq : tag' = tag
    · subst heq
      rw [if_neg hnot] at hrest
      cases hcont : continuous.lookup tag' with
      | none => simpa [hcont] using hrest
      | some cont => simpa [hcont, concretize] using hrest
    · have heq' : tag ≠ tag' := Ne.symm heq
      cases hcont : continuous.lookup tag' with
      | none => simpa [hcont, heq'] using hrest
      | some cont => simpa [hcont, concretize, heq, heq'] using hrest

/-- The order in which finalize goes through the on-going annotations does not show. -/
theorem recorded_eq_outcome {order : List String} (h : Ranges an.continuous order)
    (t : ℤ) (tag : String) : an.recorded t order tag = outcome an tag t := by
  rw [AnnotationState.recorded, AnnotationState.finalize, outcome, List.filter_append,
    filter_filterMap_lookup _ _ _ h.nodup]
  by_cases hmem : tag ∈ order
  · rw [if_pos hmem]
  · have hnone : an.continuous.lookup tag = none :=
      Finmap.lookup_eq_none.mpr (mt (h.mem_iff tag).mpr hmem)
    rw [if_neg hmem, hnone]
    rfl

theorem outcome_color {e : Event} {desp details bgcolor : String}
    (he : e.call = .continuousColor tag desp details bgcolor) :
    outcome (an.apply e) tag t =
      outcome an tag e.time ++ [⟨tag, e.time, t, desp, details, bgcolor⟩] := by
  unfold AnnotationState.apply AnnotationState.annotateContinuousColor outcome
  rw [he]
  dsimp only
  cases hcont : an.continuous.lookup tag with
  | none => simp [concretize]
  | some cont => simp [concretize]

/-- Ending closes what is on-going; with nothing on-going, it records the time since
zero. -/
theorem outcome_end {e : Event} (he : e.call = .continuousEnd tag) :
    outcome (an.apply e) tag t =
      if tag ∈ an.continuous then outcome an tag e.time
      else outcome an tag e.time ++ [concretize tag Continuous.zero e.time] := by
  unfold AnnotationState.apply AnnotationState.annotateContinuousEnd outcome
  rw [he]
  dsimp only
  cases hcont : an.continuous.lookup tag with
  | none =>
    have hmem : tag ∉ an.continuous := Finmap.lookup_eq_none.mp hcont
    simp [concretize, hmem]
  | some cont =>
    have hmem : tag ∈ an.continuous := Finmap.mem_of_lookup_eq_some hcont
    simp [concretize, hmem]

theorem outcome_other {e : Event} (he : e.call.tag ≠ tag) :
    outcome (an.apply e) tag t = outcome an tag t := by
  unfold AnnotationState.apply outcome
  cases hcall : e.call with
  | continuousColor tag' desp details bgcolor =>
    rw [hcall, Call.tag] at he
    unfold AnnotationState.annotateContinuousColor
    dsimp only
    cases an.continuous.lookup tag' with
    | none => simp [Finmap.lookup_insert_of_ne _ (Ne.symm he)]
    | some cont => simp [Finmap.lookup_insert_of_ne _ (Ne.symm he), concretize, he]
  | continuousEnd tag' =>
    rw [hcall, Call.tag] at he
    simp [AnnotationState.annotateContinuousEnd, Finmap.lookup_erase_ne (Ne.symm he), concretize,
      he]

theorem mem_apply_iff (an : AnnotationState) (e : Event) (tag : String) :
    tag ∈ (an.apply e).continuous ↔
      if e.call.tag = tag then e.call.isColor = true else tag ∈ an.continuous := by
  unfold AnnotationState.apply
  cases e.call with
  | continuousColor tag' desp details bgcolor =>
    have hcontinuous : (an.annotateContinuousColor e.time tag' desp details bgcolor).continuous =
        an.continuous.insert tag' ⟨e.time, desp, details, bgcolor⟩ := by
      unfold AnnotationState.annotateContinuousColor
      cases an.continuous.lookup tag' <;> rfl
    rw [hcontinuous, Finmap.mem_insert, Call.tag]
    by_cases heq : tag' = tag
    · simp [heq, Call.isColor]
    · simp [heq, Ne.symm heq]
  | continuousEnd tag' =>
    have hcontinuous : (an.annotateContinuousEnd e.time tag').continuous =
        an.continuous.erase tag' := rfl
    rw [hcontinuous, Finmap.mem_erase, Call.tag]
    by_cases heq : tag' = tag
    · simp [heq, Call.isColor]
    · simp [heq, Ne.symm heq]

theorem run_concat (an : AnnotationState) (events : List Event) (e : Event) :
    an.run (events ++ [e]) = (an.run events).apply e := by
  rw [AnnotationState.run, List.foldl_append]
  rfl

/-- Nothing has been annotated for the tag. -/
structure Fresh (an : AnnotationState) (tag : String) : Prop where
  notMem : tag ∉ an.continuous
  empty : (an.annotations.filter fun a => a.tag = tag) = []

theorem Fresh.clear (an : AnnotationState) (tag : String) : Fresh an.clear tag :=
  ⟨Finmap.notMem_empty, rfl⟩

theorem Fresh.outcome_eq (h : Fresh an tag) (t : ℤ) : outcome an tag t = [] := by
  have hnone : an.continuous.lookup tag = none := Finmap.lookup_eq_none.mpr h.notMem
  rw [outcome, h.empty, hnone]
  rfl

variable {events : List Event}

/-- The tags in the map are those whose last event is a color. -/
theorem mem_continuous_iff (han : Fresh an tag) (events : List Event) :
    tag ∈ (an.run events).continuous ↔ onGoing tag events = true := by
  induction events using List.reverseRecOn with
  | nil => exact iff_of_false han.notMem (by simp [onGoing])
  | append_singleton events e ih =>
    rw [run_concat, mem_apply_iff, onGoing_concat, ih]
    split <;> rfl

/-- Each event of the tag adds what the timeline does, and an unmatched end one more. -/
theorem outcome_run_concat (han : Fresh an tag) (events : List Event) (e : Event) (t : ℤ) :
    outcome (an.run (events ++ [e])) tag t =
      if e.call.tag = tag then
        outcome (an.run events) tag e.time ++ intervals t [e] ++
          if e.call = .continuousEnd tag ∧ ¬ onGoing tag events = true then
            [concretize tag Continuous.zero e.time] else []
      else outcome (an.run events) tag t := by
  rw [run_concat]
  by_cases htag : e.call.tag = tag
  · rw [if_pos htag]
    cases hcall : e.call with
    | continuousColor tag' desp details bgcolor =>
      obtain rfl : tag' = tag := by rw [← htag, hcall, Call.tag]
      rw [outcome_color hcall, if_neg (by simp)]
      simp [intervals, hcall, nextTime]
    | continuousEnd tag' =>
      obtain rfl : tag' = tag := by rw [← htag, hcall, Call.tag]
      rw [outcome_end hcall]
      simp only [mem_continuous_iff han, intervals, hcall, List.append_nil, true_and]
      by_cases hon : onGoing tag' events = true
      · simp [hon]
      · simp [hon]
  · rw [if_neg htag, outcome_other htag]

theorem outcome_eq_timeline (han : Fresh an tag) (h : Matched tag events) (t : ℤ) :
    outcome (an.run events) tag t = timeline tag events t := by
  induction events using List.reverseRecOn generalizing t with
  | nil => exact han.outcome_eq t
  | append_singleton events e ih =>
    obtain ⟨hbefore, hlast⟩ := matched_concat_iff.mp h
    have hmatched : ¬ (e.call = .continuousEnd tag ∧ ¬ onGoing tag events = true) :=
      fun hend => hend.2 (hlast hend.1)
    rw [outcome_run_concat han, timeline_concat, ih hbefore, ih hbefore, if_neg hmatched,
      List.append_nil]

/-- Every color shows, so one annotation more is the trace of an unmatched end. -/
theorem length_outcome (han : Fresh an tag) (events : List Event) (t : ℤ) :
    colors tag events ≤ (outcome (an.run events) tag t).length ∧
      ((outcome (an.run events) tag t).length = colors tag events → Matched tag events) := by
  induction events using List.reverseRecOn generalizing t with
  | nil => exact ⟨Nat.zero_le _, fun _ => matched_nil tag⟩
  | append_singleton events e ih =>
    rw [outcome_run_concat han, colors_concat, matched_concat_iff]
    by_cases htag : e.call.tag = tag
    · obtain ⟨hle, hmatched⟩ := ih e.time
      simp only [htag, if_true, true_and, List.length_append, length_intervals_singleton]
      by_cases hend : e.call = .continuousEnd tag ∧ ¬ onGoing tag events = true
      · rw [if_pos hend, List.length_singleton]
        exact ⟨by omega, fun hlen => by omega⟩
      · rw [if_neg hend, List.length_nil]
        refine ⟨by omega, fun hlen => ⟨hmatched (by omega), fun hcall => ?_⟩⟩
        by_contra hon
        exact hend ⟨hcall, hon⟩
    · obtain ⟨hle, hmatched⟩ := ih t
      have hend : e.call ≠ .continuousEnd tag := fun hend => htag (by rw [hend, Call.tag])
      simp only [htag, if_false, false_and, hend, false_implies, and_true, Nat.add_zero]
      exact ⟨hle, hmatched⟩

theorem outcome_eq_timeline_iff (han : Fresh an tag) (events : List Event) (t : ℤ) :
    outcome (an.run events) tag t = timeline tag events t ↔ Matched tag events := by
  refine ⟨fun heq => (length_outcome han events t).2 ?_, fun h => outcome_eq_timeline han h t⟩
  rw [heq, length_timeline]

end Recorded

theorem recorded_timeline_iff (an : AnnotationState) (events : List Event) (t : ℤ)
    (hsorted : events.Pairwise fun a b => a.time ≤ b.time) (ht : ∀ e ∈ events, e.time ≤ t)
    (order : List String) (horder : Ranges (an.clear.run events).continuous order)
    (tag : String) :
    (timeline tag events t).length = colors tag events ∧
      (timeline tag events t).Pairwise (fun a b => a.stop ≤ b.start) ∧
      (∀ a ∈ timeline tag events t, a.start ≤ a.stop) ∧
      ((an.clear.run events).recorded t order tag = timeline tag events t ↔
        Matched tag events) := by
  obtain ⟨hpairwise, hle⟩ := timeline_ordered tag hsorted ht
  refine ⟨length_timeline tag events t, hpairwise, hle, ?_⟩
  rw [recorded_eq_outcome horder]
  exact outcome_eq_timeline_iff (Fresh.clear an tag) events t

/-- Two colors of a tag, the second one still on-going at the end. -/
def twoFaults : List Event :=
  [⟨1, .continuousColor tagPartition "partition = [0] [1 2]" "partition = [0] [1 2]" colorFault⟩,
    ⟨2, .continuousColor tagPartition "partition = [0 1 2]" "partition = [0 1 2]" colorFault⟩]

theorem recorded_timeline_twoFaults :
    (mkAnnotationState.clear.run twoFaults).recorded 3 [tagPartition] tagPartition =
      timeline tagPartition twoFaults 3 := by
  have hranges : Ranges (mkAnnotationState.clear.run twoFaults).continuous [tagPartition] := by
    refine ⟨List.nodup_singleton _, fun tag => ?_⟩
    rw [mem_continuous_iff (Fresh.clear _ tag)]
    by_cases htag : tag = tagPartition
    · subst htag
      decide +kernel
    · simp [htag, twoFaults, onGoing, Call.tag, Ne.symm htag]
  have hmatched : Matched tagPartition twoFaults := by
    intro before e rest h hend
    have hmem : e ∈ twoFaults := by simp [h]
    have hcolors : ∀ e ∈ twoFaults, e.call ≠ .continuousEnd tagPartition := by decide +kernel
    exact absurd hend (hcolors e hmem)
  exact (recorded_timeline_iff mkAnnotationState twoFaults 3 (by decide +kernel) (by decide +kernel)
    [tagPartition] hranges tagPartition).2.2.2.mpr hmatched

/-- A crash that is ended twice, by the restart and by AnnotateClearFailure. -/
def endedTwice : List Event :=
  [⟨1, .continuousColor tagPartition "partition =  / crash = [0]" "partition =  / crash = [0]"
      colorFault⟩,
    ⟨2, .continuousEnd tagPartition⟩, ⟨3, .continuousEnd tagPartition⟩]

/-- The second end shows as an annotation without text from time zero. -/
theorem recorded_endedTwice :
    Ranges (mkAnnotationState.clear.run endedTwice).continuous [] ∧
      (mkAnnotationState.clear.run endedTwice).recorded 4 [] tagPartition =
        timeline tagPartition endedTwice 4 ++ [⟨tagPartition, 0, 3, "", "", ""⟩] ∧
      (mkAnnotationState.clear.run endedTwice).recorded 4 [] tagPartition ≠
        timeline tagPartition endedTwice 4 := by
  refine ⟨⟨List.nodup_nil, fun tag => ?_⟩, by decide +kernel, by decide +kernel⟩
  rw [mem_continuous_iff (Fresh.clear _ tag)]
  by_cases htag : tagPartition = tag
  · subst htag
    decide +kernel
  · simp [htag, endedTwice, onGoing, Call.tag]

end DistributedLabs.Annotations
