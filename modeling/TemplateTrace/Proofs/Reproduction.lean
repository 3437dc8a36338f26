import TemplateTrace.Proofs.Acceptance
import TemplateTrace.Proofs.CallForest
import TemplateTrace.Proofs.Representation
set_option autoImplicit false

/-!
# Unshared histories

A trace whose template steps are all different is reproduced by its graph, whatever the mode:
stepping goes over its steps in order, every backtrace shows the steps that were open, and the call
tree is its call forest, mirrored (`Session.reproduces_of_replay`).

Recording such a trace shares no vertex: there are as many vertices as steps, so that each arrival
adds one (`Recorder.Separate`).
-/

namespace TemplateTrace

/-- A graph that has grown by nothing and has the same edges enabled is unshared as it was. -/
theorem CallGraph.Unshared.extends {g later : CallGraph} (unshared : g.Unshared)
    (grown : g.Extends later) (vertices : later.vertices.size = g.vertices.size)
    (edges : later.edges.size = g.edges.size) : later.Unshared where
  enabled e within := by
    rw [edges] at within
    obtain ⟨ended, condition, same⟩ := grown.exists_edge_eq within
    rw [same]
    exact unshared.enabled e within
  vertices_size := by rw [vertices, edges, unshared.vertices_size]
  target e within := by
    rw [edges] at within
    rw [grown.target_eq within]
    exact unshared.target e within
  source_le e within := by
    rw [edges] at within
    rw [grown.source_eq within]
    exact unshared.source_le e within
  nested e f within less := by
    rw [edges] at within
    rw [grown.source_eq within, grown.source_eq (Nat.lt_trans less within)]
    exact unshared.nested e f within less

namespace Recorder

variable {r after : Recorder} {a : Arrival} {target : VertexId} {event : Event}
  {p events : List Event}

/-! ## Recording without sharing -/

/-- What holds of a recorder while each step has a vertex of its own: nothing is shared, and what
comes after an open step is called from later vertices than the caller of the step. -/
structure Separate (r : Recorder) : Prop where
  preprocessor : r.preprocessor = true
  graph : r.graph.Unshared
  inner : ∀ o ∈ r.openEdges, ∀ f : EdgeId, f.index < r.graph.edges.size → o.index < f.index →
    o.index < (r.graph.edge f).source.index

theorem separate_start {config : Config} (enabled : config.preprocessor = true)
    (rootLocation : Location) : (start config rootLocation).Separate where
  preprocessor := enabled
  graph :=
    { enabled := fun _ within => absurd within (Nat.not_lt_zero _)
      vertices_size := rfl
      target := fun _ within => absurd within (Nat.not_lt_zero _)
      source_le := fun _ within => absurd within (Nat.not_lt_zero _)
      nested := fun _ _ within => absurd within (Nat.not_lt_zero _) }
  inner _ _ _ within := absurd within (Nat.not_lt_zero _)

/-- The caller is the root or the vertex of the innermost open edge, which comes next. -/
theorem Separate.caller_index (separate : r.Separate) (wf : r.WellFormed) :
    r.openEdges = [] ∧ r.caller.index = 0
      ∨ ∃ o outer, r.openEdges = o :: outer ∧ r.caller.index = o.index + 1 := by
  unfold caller
  cases opened : r.openEdges with
  | nil => exact .inl ⟨rfl, rfl⟩
  | cons o outer =>
    have within := wf.opened o (by simp [opened])
    exact .inr ⟨o, outer, rfl, separate.graph.target o within⟩

/-- Adding a vertex for each arrival keeps everything apart. -/
theorem Separate.arrives (separate : r.Separate) (wf : r.WellFormed) (stacked : r.Stacked)
    (arrived : r.Arrived a target after) (index : target.index = r.graph.vertices.size)
    (vertices : after.graph.vertices.size = r.graph.vertices.size + 1) : after.Separate where
  preprocessor := arrived.preprocessor.trans separate.preprocessor
  graph :=
    { enabled := by
        intro e within
        rcases arrived.lt_or_eq within with old | last
        · rw [arrived.edge_of_lt old]
          exact separate.graph.enabled e old
        · rw [arrived.edge_of_eq last, edgeFor, separate.preprocessor, Bool.or_true]
      vertices_size := by rw [vertices, separate.graph.vertices_size, arrived.edges_size]
      target := by
        intro e within
        rcases arrived.lt_or_eq within with old | last
        · rw [arrived.edge_of_lt old]
          exact separate.graph.target e old
        · rw [arrived.target_of_eq last, index, separate.graph.vertices_size, last]
      source_le := by
        intro e within
        rcases arrived.lt_or_eq within with old | last
        · rw [arrived.edge_of_lt old]
          exact separate.graph.source_le e old
        · have lower := caller_lt wf
          rw [separate.graph.vertices_size] at lower
          rw [arrived.edge_of_eq last, edgeFor, last]
          exact Nat.le_of_lt_succ lower
      nested := by
        intro e f within less
        rcases arrived.lt_or_eq within with old | last
        · rw [arrived.edge_of_lt old, arrived.edge_of_lt (Nat.lt_trans less old)]
          exact separate.graph.nested e f old less
        · rw [last] at less
          rw [arrived.edge_of_eq last, edgeFor, arrived.edge_of_lt less]
          intro beyond
          rcases separate.caller_index wf with ⟨-, first⟩ | ⟨o, outer, opened, next⟩
          · rw [first]
            exact Nat.zero_le _
          · rw [next] at beyond ⊢
            exact separate.inner o (by simp [opened]) f less beyond }
  inner o mem f within less := by
    rw [arrived.mem_openEdges_iff wf] at mem
    rcases arrived.lt_or_eq within with old | last
    · rw [arrived.edge_of_lt old]
      rcases mem with mem | ⟨-, newest⟩
      · exact separate.inner o mem f old less
      · omega
    · rw [arrived.edge_of_eq last, edgeFor]
      rcases mem with mem | ⟨-, newest⟩
      · rcases separate.caller_index wf with ⟨none, -⟩ | ⟨top, outer, opened, next⟩
        · rw [none] at mem
          cases mem
        · have sorted := stacked.sorted
          rw [opened] at mem sorted
          rw [next]
          rcases List.mem_cons.1 mem with rfl | mem
          · exact Nat.lt_succ_self _
          · exact Nat.lt_succ_of_lt ((List.pairwise_cons.1 sorted).1 o mem)
      · omega

/-- What adds nothing keeps everything apart. -/
theorem Separate.extends (separate : r.Separate) (grown : r.graph.Extends after.graph)
    (preprocessor : after.preprocessor = r.preprocessor) (opened : after.openEdges ⊆ r.openEdges)
    (vertices : after.graph.vertices.size = r.graph.vertices.size)
    (edges : after.graph.edges.size = r.graph.edges.size) : after.Separate where
  preprocessor := preprocessor.trans separate.preprocessor
  graph := separate.graph.extends grown vertices edges
  inner o mem f within less := by
    rw [edges] at within
    rw [grown.source_eq within]
    exact separate.inner o (opened mem) f within less

/-- Different template steps have vertices of their own. -/
theorem Counted.vertices_size_of_nodup (counted : r.Counted events)
    (distinct : (templateKeys events).Nodup) :
    r.graph.vertices.size = r.graph.edges.size + 1 := by
  rw [counted.vertices_size, counted.edges_size, List.toFinset_card_of_nodup distinct,
    ← length_templateKeys_add events]
  omega

theorem Separate.records (separate : r.Separate) (wf : r.WellFormed) (stacked : r.Stacked)
    (records : r.Records event after)
    (vertices : after.graph.vertices.size = after.graph.edges.size + 1) : after.Separate := by
  have grown := records.extends
  cases records with
  | arrives _ arrived found =>
    have before := separate.graph.vertices_size
    rw [arrived.edges_size, ← before] at vertices
    cases found with
    | before _ _ _ same _ =>
      -- the arrival has added an edge and no vertex
      rw [same] at vertices
      omega
    | new _ index _ _ => exact separate.arrives wf stacked arrived index vertices
  | closes _ _ opened _ =>
    refine separate.extends grown rfl ?_ rfl (CallGraph.modifyEdge_size ..)
    rw [opened]
    exact List.subset_cons_self _ _
  | ends => exact separate.extends grown rfl (List.Subset.refl _) rfl rfl

/-- Recording different template steps shares nothing. -/
theorem separate_of_recorded {config : Config} {rootLocation : Location}
    (enabled : config.preprocessor = true) (distinct : (templateKeys events).Nodup)
    (recorded : (start config rootLocation).recordAll events = (r, none)) : r.Separate := by
  have kept : r.Counted events ∧ r.Consistent ∧ ((templateKeys events).Nodup → r.Separate) := by
    refine recordAll_induct (motive := fun p r =>
      r.Counted p ∧ r.Consistent ∧ ((templateKeys p).Nodup → r.Separate))
      (start_wellFormed config rootLocation)
      ⟨counted_start config rootLocation, consistent_start config rootLocation,
        fun _ => separate_start enabled rootLocation⟩ ?_ recorded
    rintro p r event after wf wfAfter records ⟨counted, consistent, separate⟩
    have countedAfter := counted.records wf records
    refine ⟨countedAfter, consistent.records wf wfAfter records, fun distinct => ?_⟩
    have vertices := countedAfter.vertices_size_of_nodup distinct
    rw [templateKeys_snoc] at distinct
    exact (separate distinct.of_append_left).records wf consistent.stacked records vertices
  exact kept.2.2 distinct

/-- The root stays what it was at first. -/
theorem vertex_root_of_recorded {config : Config} {rootLocation : Location}
    (recorded : (start config rootLocation).recordAll events = (r, none)) :
    r.graph.vertex CallGraph.root = ⟨.code config.rootName, rootLocation⟩ := by
  refine recordAll_induct (motive := fun _ r =>
    r.graph.vertex CallGraph.root = ⟨.code config.rootName, rootLocation⟩)
    (start_wellFormed config rootLocation) rfl ?_ recorded
  intro p r event after wf _ records same
  rw [records.extends.vertex_eq wf.graph.root_lt, same]

end Recorder

/-! ## What a graph reproduces -/

/-- What a stepper tells that stands at the step at `n`: its frame, and behind it the frames of the
steps that were open when it came, innermost first, and that of the root. -/
structure Stepper.Shows (s : Stepper) (steps : List Event) (n : Nat) (frame : Frame)
    (opened : List Nat) (behind : List Frame) : Prop where
  here : FrameOf steps n frame
  sorted : opened.Pairwise fun inner outer => outer < inner
  mem_iff : ∀ i, i ∈ opened ↔ Unclosed (steps.take n) i
  around : List.Forall₂ (FrameOf steps) opened behind
  currentFrame : s.currentFrame = some frame
  backtrace : s.backtrace = frame :: (behind ++ [s.graph.rootFrame])

/-- Whether the graph of a trace reproduces it: each step of a cursor shows the next step of the
trace, one more step finishes, and the call tree is the call forest under the root, mirrored, the
frames of its nodes being those of the steps. -/
structure CallGraph.Reproduces (g : CallGraph) (config : Config) (steps : List Event) : Prop where
  root : g.rootFrame = Frame.root ⟨.code config.rootName, .unknown⟩
  shows : ∀ k, 1 ≤ k → k ≤ stepCount steps → ((Stepper.start g).stepUpTo k).stepsTaken = k
    ∧ ∃ n event frame opened behind, steps[n]? = some event ∧ event.isStep = true
      ∧ stepCount (steps.take n) + 1 = k
      ∧ ((Stepper.start g).stepUpTo k).Shows steps n frame opened behind
  finishes : ((Stepper.start g).stepUpTo (stepCount steps + 1)).stepsTaken = stepCount steps + 1
    ∧ ((Stepper.start g).stepUpTo (stepCount steps + 1)).cursor.isFinished = true
  frames : ∀ n event, steps[n]? = some event → event.isStep = true →
    FrameOf steps n (g.frameAt (.edge (stepEdge steps n)))
  callTree : ∃ (forest : Forest) (final : Walk), StepForest 0 steps forest
    ∧ (Stepper.start g).callTree none
      = (((Forest.node .root forest.mirror .nil).stations g 0).map Prod.snd, final)

section

variable {config : Config} {g : CallGraph} {steps : List Event} {n : Nat} {event : Event}

/-- The open brackets before a step are on a stack. -/
theorem exists_after_take (balanced : Balanced steps) (n : Nat) :
    ∃ stack, Brackets.after (steps.take n) = some stack := by
  have whole := (Brackets.after_eq_nil_iff steps).2 balanced
  rw [← List.take_append_drop n steps, Brackets.after_append] at whole
  obtain ⟨stack, nested, -⟩ := Option.bind_eq_some_iff.1 whole
  exact ⟨stack, nested⟩

/-- The frames of the open brackets are those of their steps. -/
theorem RecountsAll.forall₂_frameOf (recounts : RecountsAll config g steps) (wf : g.WellFormed)
    (balanced : Balanced steps) {stack : Brackets}
    (nested : Brackets.after (steps.take n) = some stack) :
    List.Forall₂ (FrameOf steps) (stack.map Prod.fst)
      (stack.map fun top => g.frameAt (.edge (stepEdge steps top.1))) := by
  rw [List.forall₂_map_left_iff, List.forall₂_map_right_iff, List.forall₂_same]
  intro top mem
  obtain ⟨opening, type, found, opens⟩ :=
    ((unclosed_iff_mem nested top.1).2 ⟨top.2, mem⟩).1
  rw [List.getElem?_take] at found
  exact recounts.frameOf_stepEdge wf balanced (Option.ite_none_right_eq_some.1 found).2
    (isStep_of_opens opens)

/-- A cursor that has entered the vertex of a step shows the step. -/
theorem CallGraph.Unshared.shows (unshared : g.Unshared) (wf : g.WellFormed)
    (recounts : RecountsAll config g steps) (balanced : Balanced steps)
    (found : steps[n]? = some event) (step : event.isStep = true) {s : Stepper}
    (entered : s.Entered g (stepCount (steps.take n) + 1)) :
    ∃ frame opened behind, s.Shows steps n frame opened behind := by
  obtain ⟨stack, nested⟩ := exists_after_take balanced n
  have split : steps = steps.take n ++ event :: steps.drop (n + 1) := by
    obtain ⟨inside, rfl⟩ := List.getElem?_eq_some_iff.1 found
    simp
  have length : (steps.take n).length = n :=
    List.length_take_of_le (Nat.le_of_lt (List.getElem?_eq_some_iff.1 found).1)
  obtain ⟨within, source⟩ := recounts.source_stepEdge wf split step nested
  rw [length] at within source
  have lineage := recounts.lineage_of_after wf split nested
  rw [← source] at lineage
  obtain ⟨edge, atPlace, -⟩ := recounts n _ found step
  rw [← index_stepEdge wf atPlace] at entered
  obtain ⟨current, backtrace⟩ := entered.backtrace_eq unshared wf within lineage
  refine ⟨g.frameAt (.edge (stepEdge steps n)), stack.map Prod.fst,
    stack.map fun top => g.frameAt (.edge (stepEdge steps top.1)), ?_⟩
  refine ⟨recounts.frameOf_stepEdge wf balanced found step, ?_, ?_,
    recounts.forall₂_frameOf wf balanced nested, ?_, ?_⟩
  · rw [List.pairwise_map]
    exact (Brackets.after_places nested).2
  · intro i
    rw [unclosed_iff_mem nested, List.mem_map]
    simp
  · rw [Stepper.currentFrame, current, entered.graph]
    rfl
  · rw [backtrace, List.map_map, entered.graph]
    rfl

/-- An unshared graph that recounts a balanced trace reproduces it. -/
theorem CallGraph.Unshared.reproduces (unshared : g.Unshared) (wf : g.WellFormed)
    (recounts : RecountsAll config g steps) (balanced : Balanced steps)
    (size : g.edges.size = stepCount steps)
    (root : g.vertex CallGraph.root = ⟨.code config.rootName, .unknown⟩) :
    g.Reproduces config steps where
  root := congrArg Frame.root root
  shows k first last := by
    have within : k ≤ g.edges.size + 1 := size.symm ▸ Nat.le_succ_of_le last
    obtain ⟨n, event, found, step, place⟩ := exists_step_of_lt (Nat.sub_one_lt_of_le first last)
    obtain rfl : stepCount (steps.take n) + 1 = k := by omega
    have entered := Stepper.entered_stepUpTo unshared wf within
    obtain ⟨frame, opened, behind, shown⟩ :=
      unshared.shows wf recounts balanced found step entered
    exact ⟨Stepper.stepsTaken_of_unshared unshared wf within, n, event, frame, opened, behind,
      found, step, rfl, shown⟩
  finishes := by
    rw [← size]
    exact ⟨Stepper.stepsTaken_of_unshared unshared wf (Nat.le_refl _),
      Stepper.isFinished_of_unshared unshared wf⟩
  frames n event found step := recounts.frameOf_stepEdge wf balanced found step
  callTree := by
    obtain ⟨forest, calls⟩ := exists_stepForest balanced 0
    have whole : steps = [] ++ (steps ++ []) := by simp
    have called := calls.calledFrom recounts wf whole rfl rfl
    have all : forest.positions = g.edgeIds.map .edge := by
      rw [calls.positions_eq, CallGraph.edgeIds, size, List.map_map, List.range_eq_range']
      rfl
    obtain ⟨final, tree⟩ := Stepper.exists_callTree_of_calledFrom unshared wf called all
    exact ⟨forest, final, calls, tree⟩

end

/-! ## Replaying -/

namespace Session

/-- A replay that gives a graph has recorded a balanced trace and then the end of it. -/
theorem exists_recorded_of_replay {config : Config} {events : List Event} {s : Stepper}
    (replayed : replay config (events.map .ok) = .ok s) :
    ∃ steps outcome r before, events = steps ++ [.evaluationEnd outcome]
      ∧ (Recorder.start config .unknown).recordAll events = (r, none) ∧ r.toStepper = s
      ∧ (Recorder.start config .unknown).recordAll steps = (before, none)
      ∧ Recorder.Follows config steps [] before
      ∧ r.graph = { before.graph with outcome := some outcome } := by
  cases recorded : ((Recorder.start config .unknown).recordAll events).2 with
  | some fault =>
    obtain ⟨p, event, rest, before, rfl, earlier, refused⟩ :=
      Recorder.exists_first_refused recorded
    rw [replay_of_refused earlier refused] at replayed
    cases replayed
  | none =>
    have all : (Recorder.start config .unknown).recordAll events
        = (((Recorder.start config .unknown).recordAll events).1, none) := Prod.ext rfl recorded
    rw [replay_of_recorded all] at replayed
    rcases Recorder.recorded_cases all with
      ⟨stack, follows⟩ | ⟨steps, outcome, before, split, earlier, follows, ended⟩
    · rw [follows.not_frozen] at replayed
      cases replayed
    · rw [ended] at replayed all
      obtain rfl := Except.ok.inj replayed
      exact ⟨steps, outcome, _, before, split, all, rfl, earlier, follows, rfl⟩

/-- A trace of different template steps is reproduced by its graph if preprocessing is shown, and
no step of the graph is taken in a replay. -/
theorem reproduces_of_replay (config : Config) (enabled : config.preprocessor = true)
    (events : List Event) (distinct : (templateKeys events).Nodup) (s : Stepper)
    (replayed : replay config (events.map .ok) = .ok s) :
    s = .start s.graph ∧ ∃ steps outcome, events = steps ++ [.evaluationEnd outcome]
      ∧ s.graph.Reproduces config steps := by
  obtain ⟨steps, outcome, r, before, split, recorded, rfl, earlier, follows, same⟩ :=
    exists_recorded_of_replay replayed
  have wf := (Recorder.start_wellFormed config .unknown).of_recordAll recorded
  refine ⟨wf.unmoved, steps, outcome, split, ?_⟩
  have recounts : RecountsAll config r.graph steps := by
    intro n event found step
    obtain ⟨edge, atPlace, placed, timed⟩ :=
      Recorder.recounts_of_follows earlier follows n event found step
    rw [same]
    exact ⟨edge, atPlace, ⟨placed.caller, placed.step, placed.began, placed.enabled⟩, timed⟩
  have balanced := (Brackets.after_eq_nil_iff steps).1 follows.nested
  have size : r.graph.edges.size = stepCount steps := by
    rw [same]
    exact follows.edges_size
  exact (Recorder.separate_of_recorded enabled distinct recorded).graph.reproduces wf.graph recounts
    balanced size (Recorder.vertex_root_of_recorded recorded)

/-- The trace of a template step that reaches a condition, with a macro in it, and another template
step. -/
def conditional : List Event :=
  [.templateBegin .templateInstantiation "a" .unknown .unknown 0,
    .conditionBegin "A > 1" .unknown 1, .macroExpansionBegin "A" none .unknown .unknown 2,
    .rescanning "1" 3, .macroExpansionEnd 4, .conditionEnd true 5,
    .templateBegin .memoization "b" .unknown .unknown 6, .templateEnd 7, .templateEnd 8,
    .evaluationEnd default]

theorem reproduces_of_replay_conditional :
    { Config.default with preprocessor := true }.preprocessor = true
      ∧ (templateKeys conditional).Nodup
      ∧ ∃ s, replay { Config.default with preprocessor := true } (conditional.map .ok) = .ok s
        ∧ s = .start s.graph ∧ ∃ steps outcome, conditional = steps ++ [.evaluationEnd outcome]
          ∧ s.graph.Reproduces { Config.default with preprocessor := true } steps := by
  refine ⟨rfl, by decide, _, rfl, ?_⟩
  exact reproduces_of_replay _ rfl conditional (by decide) _ rfl

end Session

end TemplateTrace
