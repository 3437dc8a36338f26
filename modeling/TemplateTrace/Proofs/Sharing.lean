import TemplateTrace.Proofs.Growth
import Mathlib.Data.Finset.Card
import Mathlib.Data.Set.Function
set_option autoImplicit false

/-!
# Which steps share a vertex

Template steps share a vertex if and only if they have the same name and the same place, and no
other step shares its vertex (`Recorder.sharesExactly_of_recorded`).  The keys met so far and the
vertices of types correspond to each other (`Recorder.Keyed.get?_iff`), so that vertices and edges
can be counted along the trace.
-/

namespace TemplateTrace

/-! ## Keys -/

/-- What identifies the step that an event begins, if that is a template step. -/
def Event.templateKey? : Event → Option TemplateKey
  | .templateBegin _ name _ location _ => some ⟨name, location⟩
  | _ => none

/-- The vertex of the template steps that have a key. -/
def TemplateKey.vertex (key : TemplateKey) : Vertex := ⟨.typeName key.name, key.location⟩

theorem TemplateKey.vertex_injective : Function.Injective TemplateKey.vertex := by
  intro a b same
  cases a
  cases b
  simpa [TemplateKey.vertex] using same

theorem Arrival.key?_eq_some_iff {a : Arrival} {key : TemplateKey} :
    a.key? = some key ↔ (⟨a.node, a.location⟩ : Vertex) = key.vertex := by
  constructor
  · intro keyed
    obtain ⟨node, location⟩ := Arrival.key?_eq_some keyed
    rw [node, location, TemplateKey.vertex]
  · intro same
    obtain ⟨node, location⟩ := Vertex.mk.inj same
    rw [key?, node, location]

theorem templateKey?_of_arrive {event : Event} {a : Arrival} (action : event.action = .arrive a) :
    event.templateKey? = a.key? ∧ event.isStep = true := by
  cases event <;> first
    | (obtain rfl := Action.arrive.inj action; exact ⟨rfl, rfl⟩)
    | simp [Event.action] at action

/-- An event that is no step has no key. -/
theorem templateKey?_of_not_isStep {event : Event} (none : event.isStep = false) :
    event.templateKey? = .none := by
  cases event <;> first | rfl | simp [Event.isStep, Event.role] at none

theorem step?_of_not_isStep {event : Event} (none : event.isStep = false) :
    event.step? = .none := by
  cases event <;> first | rfl | simp [Event.isStep, Event.role] at none

theorem exists_step?_of_isStep {event : Event} (step : event.isStep = true) :
    ∃ data, event.step? = some data := by
  cases event with
  | includeBegin path system point timestamp => cases system <;> exact ⟨_, rfl⟩
  | _ => first | exact ⟨_, rfl⟩ | simp [Event.isStep, Event.role] at step

theorem step?_of_templateKey? {event : Event} {key : TemplateKey}
    (begins : event.templateKey? = some key) :
    ∃ kind point, event.step? = some ⟨kind, key.vertex, point⟩ := by
  cases event <;> first
    | (obtain rfl := Option.some.inj begins; exact ⟨_, _, rfl⟩)
    | simp [Event.templateKey?] at begins

/-- Only template steps are at vertices of keys. -/
theorem step_vertex_ne {event : Event} (single : event.templateKey? = none) {step : StepData}
    (prescribed : event.step? = some step) (key : TemplateKey) : step.vertex ≠ key.vertex := by
  intro same
  have node := congrArg Vertex.node same
  cases event with
  | templateBegin => cases single
  | includeBegin path system point timestamp =>
    cases system <;> (obtain rfl := Option.some.inj prescribed; cases node)
  | _ => first
    | (obtain rfl := Option.some.inj prescribed; cases node)
    | cases prescribed

/-- The keys of the template steps of a trace, in order. -/
def templateKeys (events : List Event) : List TemplateKey :=
  events.filterMap Event.templateKey?

theorem templateKeys_snoc (p : List Event) (event : Event) :
    templateKeys (p ++ [event]) = templateKeys p ++ event.templateKey?.toList := by
  unfold templateKeys
  rw [List.filterMap_append]
  cases keyed : event.templateKey? <;> simp [keyed]

/-- How many steps of preprocessing there are in a trace. -/
def preprocessingCount (events : List Event) : Nat :=
  events.countP fun event => event.isStep && event.templateKey?.isNone

theorem preprocessingCount_snoc (p : List Event) (event : Event) :
    preprocessingCount (p ++ [event])
      = preprocessingCount p + if event.isStep && event.templateKey?.isNone then 1 else 0 := by
  simp [preprocessingCount, List.countP_append, List.countP_cons]

/-- All steps have keys or are steps of preprocessing. -/
theorem length_templateKeys_add (events : List Event) :
    (templateKeys events).length + preprocessingCount events = stepCount events := by
  induction events using List.reverseRecOn with
  | nil => rfl
  | append_singleton p event ih =>
    rw [templateKeys_snoc, preprocessingCount_snoc, List.length_append, stepCount_append,
      stepCount_singleton]
    cases step : event.isStep with
    | false =>
      rw [templateKey?_of_not_isStep step]
      simpa using ih
    | true => cases keyed : event.templateKey? <;> simp <;> omega

/-- The edge of the step at a place of the trace. -/
def stepEdge (events : List Event) (n : Nat) : EdgeId :=
  ⟨UInt32.ofNat (stepCount (events.take n))⟩

namespace Recorder

/-! ## Keys and vertices -/

/-- The keys that are known are those of the vertices of types, and edges that lead to the same
vertex lead to one of these. -/
structure Keyed (r : Recorder) : Prop where
  get?_iff : ∀ key v, r.elements.get? key = some v
    ↔ v.index < r.graph.vertices.size ∧ r.graph.vertex v = key.vertex
  shared : ∀ e f : EdgeId, e.index < r.graph.edges.size → f.index < r.graph.edges.size → e ≠ f →
    (r.graph.edge e).target = (r.graph.edge f).target →
    ∃ key : TemplateKey, r.graph.vertex (r.graph.edge e).target = key.vertex

variable {r after : Recorder} {a : Arrival} {target : VertexId} {event : Event}
  {p events : List Event}

theorem keyed_start (config : Config) (rootLocation : Location) :
    (start config rootLocation).Keyed where
  get?_iff key v := by
    refine iff_of_false (by simp [start]) ?_
    rintro ⟨within, vertex⟩
    -- the only vertex is the root
    obtain rfl : v = CallGraph.root := VertexId.eq_of_index_eq (Nat.lt_one_iff.1 within)
    cases congrArg Vertex.node vertex
  shared _ _ within := absurd within (Nat.not_lt_zero _)

theorem Found.lt_iff (found : r.Found a target after) (arrived : r.Arrived a target after)
    (v : VertexId) : v.index < after.graph.vertices.size
      ↔ v.index < r.graph.vertices.size ∨ v = target := by
  refine ⟨found.lt_or_eq, ?_⟩
  rintro (old | rfl)
  · exact Nat.lt_of_lt_of_le old found.size_le
  · exact arrived.target_lt

/-- An arrival at a vertex that is there is one at a template step. -/
theorem Found.exists_key_of_lt (found : r.Found a target after)
    (old : target.index < r.graph.vertices.size) : ∃ key, a.key? = some key := by
  cases found with
  | before key keyed _ _ _ => exact ⟨key, keyed⟩
  | new _ index _ _ => exact absurd (index ▸ old) (Nat.lt_irrefl _)

theorem Keyed.arrives (keyed : r.Keyed) (wf : r.WellFormed) (arrived : r.Arrived a target after)
    (found : r.Found a target after) : after.Keyed where
  get?_iff key v := by
    rw [found.get?_iff, found.lt_iff arrived, keyed.get?_iff, Arrival.key?_eq_some_iff]
    constructor
    · rintro (⟨old, vertex⟩ | ⟨vertex, rfl⟩)
      · exact ⟨.inl old, (arrived.extends.vertex_eq old).trans vertex⟩
      · exact ⟨.inr rfl, arrived.vertex_target.trans vertex⟩
    · rintro ⟨old | rfl, vertex⟩
      · exact .inl ⟨old, (arrived.extends.vertex_eq old).symm.trans vertex⟩
      · exact .inr ⟨arrived.vertex_target.symm.trans vertex, rfl⟩
  shared e f withinE withinF differs same := by
    have atTarget : target.index < r.graph.vertices.size →
        ∃ key : TemplateKey, after.graph.vertex target = key.vertex := by
      intro old
      obtain ⟨key, keyed⟩ := found.exists_key_of_lt old
      exact ⟨key, arrived.vertex_target.trans (Arrival.key?_eq_some_iff.1 keyed)⟩
    rcases arrived.lt_or_eq withinE with oldE | lastE
    · have lower := wf.graph.target_lt e oldE
      rw [arrived.edge_of_lt oldE] at same ⊢
      rcases arrived.lt_or_eq withinF with oldF | lastF
      · rw [arrived.edge_of_lt oldF] at same
        rw [arrived.extends.vertex_eq lower]
        exact keyed.shared e f oldE oldF differs same
      · rw [arrived.target_of_eq lastF] at same
        rw [same] at lower ⊢
        exact atTarget lower
    · rw [arrived.target_of_eq lastE] at same ⊢
      rcases arrived.lt_or_eq withinF with oldF | lastF
      · rw [arrived.edge_of_lt oldF] at same
        exact atTarget (same ▸ wf.graph.target_lt f oldF)
      · exact absurd (EdgeId.eq_of_index_eq (lastE.trans lastF.symm)) differs

/-- What changes neither vertices nor keys, nor where edges lead, keeps them. -/
theorem Keyed.extends (keyed : r.Keyed) (wf : r.WellFormed) (grown : r.graph.Extends after.graph)
    (elements : after.elements = r.elements)
    (vertices : after.graph.vertices.size = r.graph.vertices.size)
    (edges : after.graph.edges.size = r.graph.edges.size) : after.Keyed where
  get?_iff key v := by
    rw [elements, keyed.get?_iff, vertices]
    exact and_congr_right fun within => by rw [grown.vertex_eq within]
  shared e f withinE withinF differs same := by
    rw [edges] at withinE withinF
    rw [grown.target_eq withinE] at same ⊢
    rw [grown.target_eq withinF] at same
    rw [grown.vertex_eq (wf.graph.target_lt e withinE)]
    exact keyed.shared e f withinE withinF differs same

theorem Keyed.records (keyed : r.Keyed) (wf : r.WellFormed) (records : r.Records event after) :
    after.Keyed := by
  have grown := records.extends
  cases records with
  | arrives _ arrived found => exact keyed.arrives wf arrived found
  | closes => exact keyed.extends wf grown rfl rfl (CallGraph.modifyEdge_size ..)
  | ends => exact keyed.extends wf grown rfl rfl rfl

/-! ## Along a trace -/

/-- What a recorder holds of the trace that it has recorded: an edge for each step, which leads to
the vertex of the step; the keys that were met; and a vertex for each of these keys, for each step
of preprocessing and for the root. -/
structure Counted (events : List Event) (r : Recorder) : Prop where
  edges_size : r.graph.edges.size = stepCount events
  steps : ∀ (n : Nat) (event : Event) (step : StepData), events[n]? = some event →
    event.step? = some step → (stepEdge events n).index < r.graph.edges.size
      ∧ r.graph.vertex (r.graph.edge (stepEdge events n)).target = step.vertex
  known : ∀ key, (∃ v, r.elements.get? key = some v) ↔ key ∈ templateKeys events
  vertices_size : r.graph.vertices.size
    = 1 + (templateKeys events).toFinset.card + preprocessingCount events

theorem counted_start (config : Config) (rootLocation : Location) :
    (start config rootLocation).Counted [] where
  edges_size := rfl
  steps n event step found := by simp at found
  known key := by simp [start, templateKeys]
  vertices_size := rfl

theorem stepEdge_snoc {n : Nat} (within : n < p.length) (event : Event) :
    stepEdge (p ++ [event]) n = stepEdge p n := by
  rw [stepEdge, List.take_append_of_le_length (Nat.le_of_lt within), stepEdge]

/-- The edges of the steps before the last event lead where they did. -/
theorem Counted.steps_snoc (counted : r.Counted p) (wf : r.WellFormed)
    (grown : r.graph.Extends after.graph) {n : Nat} {other : Event} {step : StepData}
    (within : n < p.length) (atPlace : (p ++ [event])[n]? = some other)
    (prescribed : other.step? = some step) :
    (stepEdge (p ++ [event]) n).index < after.graph.edges.size
      ∧ after.graph.vertex (after.graph.edge (stepEdge (p ++ [event]) n)).target
        = step.vertex := by
  rw [List.getElem?_append_left within] at atPlace
  obtain ⟨edge, vertex⟩ := counted.steps n other step atPlace prescribed
  rw [stepEdge_snoc within, grown.target_eq edge,
    grown.vertex_eq (wf.graph.target_lt _ edge)]
  exact ⟨grown.edge_lt edge, vertex⟩

/-- An arrival counts for one edge, and for a vertex unless it is at a template step whose key was
met before. -/
theorem Counted.arrives (counted : r.Counted p) (wf : r.WellFormed)
    (action : event.action = .arrive a) (arrived : r.Arrived a target after)
    (found : r.Found a target after) : after.Counted (p ++ [event]) where
  edges_size := by
    rw [arrived.edges_size, counted.edges_size, stepCount_append, stepCount_singleton,
      (templateKey?_of_arrive action).2, if_pos rfl]
  steps n other step atPlace prescribed := by
    by_cases within : n < p.length
    · exact counted.steps_snoc wf arrived.extends within atPlace prescribed
    · -- the step is the one that has just been reached
      have inside := (List.getElem?_eq_some_iff.1 atPlace).1
      rw [List.length_append, List.length_singleton] at inside
      obtain rfl : n = p.length := by omega
      obtain rfl : event = other := by simpa using atPlace
      obtain rfl := Option.some.inj ((step?_of_arrive action).1.symm.trans prescribed)
      have last : (stepEdge (p ++ [event]) p.length).index = r.graph.edges.size := by
        rw [stepEdge, List.take_left, ← counted.edges_size, EdgeId.index_ofNat wf.graph.edgeRoom]
      rw [arrived.target_of_eq last, last, arrived.edges_size]
      exact ⟨Nat.lt_succ_self _, arrived.vertex_target⟩
  known key := by
    simp only [found.get?_iff, exists_or, counted.known, templateKeys_snoc,
      (templateKey?_of_arrive action).1, List.mem_append, Option.mem_toList]
    simp
  vertices_size := by
    obtain ⟨same, step⟩ := templateKey?_of_arrive action
    rw [templateKeys_snoc, preprocessingCount_snoc, same, step]
    have before := counted.vertices_size
    cases found with
    | before key keyed known vertices _ =>
      have seen : key ∈ (templateKeys p).toFinset :=
        List.mem_toFinset.2 ((counted.known key).1 ⟨target, known⟩)
      simp [vertices, keyed, before, seen]
    | new unknown _ vertices _ =>
      rw [vertices, Array.size_push, before]
      cases keyed : a.key? with
      | none => simp [Nat.add_assoc]
      | some key =>
        have unseen : key ∉ (templateKeys p).toFinset := by
          rw [List.mem_toFinset, ← counted.known, get?_of_unknown unknown keyed]
          simp
        have more : (templateKeys p ++ [key]).toFinset.card
            = (templateKeys p).toFinset.card + 1 := by simp [unseen]
        simp only [Option.toList_some, more, Option.isNone_some, Bool.and_false,
          Bool.false_eq_true, if_false]
        omega

/-- What is no step counts for nothing. -/
theorem Counted.extends (counted : r.Counted p) (wf : r.WellFormed)
    (grown : r.graph.Extends after.graph) (none : event.isStep = false)
    (elements : after.elements = r.elements)
    (vertices : after.graph.vertices.size = r.graph.vertices.size)
    (edges : after.graph.edges.size = r.graph.edges.size) : after.Counted (p ++ [event]) where
  edges_size := by
    rw [edges, counted.edges_size, stepCount_append, stepCount_singleton, none]
    rfl
  steps n other step atPlace prescribed := by
    by_cases within : n < p.length
    · exact counted.steps_snoc wf grown within atPlace prescribed
    · have inside := (List.getElem?_eq_some_iff.1 atPlace).1
      rw [List.length_append, List.length_singleton] at inside
      obtain rfl : n = p.length := by omega
      obtain rfl : event = other := by simpa using atPlace
      rw [step?_of_not_isStep none] at prescribed
      cases prescribed
  known key := by
    rw [elements, counted.known, templateKeys_snoc, templateKey?_of_not_isStep none]
    simp
  vertices_size := by
    rw [vertices, counted.vertices_size, templateKeys_snoc, preprocessingCount_snoc,
      templateKey?_of_not_isStep none, none]
    simp

theorem Counted.records (counted : r.Counted p) (wf : r.WellFormed)
    (records : r.Records event after) : after.Counted (p ++ [event]) := by
  have grown := records.extends
  cases records with
  | arrives action arrived found => exact counted.arrives wf action arrived found
  | closes role =>
    exact counted.extends wf grown (isStep_of_closes role) rfl rfl (CallGraph.modifyEdge_size ..)
  | ends last => exact counted.extends wf grown (last ▸ isStep_of_ends rfl) rfl rfl rfl

/-! ## Sharing -/

/-- The vertices of types. -/
def typeVertices (r : Recorder) : Set VertexId :=
  {v | v.index < r.graph.vertices.size ∧ ∃ name, (r.graph.vertex v).node = .typeName name}

/-- Two template steps are at the same vertex if they have the same key, and no other two steps are;
the keys that were met are those of the vertices of types, one for each; and there are as many
vertices and edges as that makes. -/
structure SharesExactly (r : Recorder) (events : List Event) : Prop where
  steps : ∀ (n : Nat) (event : Event) (step : StepData), events[n]? = some event →
    event.step? = some step → (stepEdge events n).index < r.graph.edges.size
      ∧ r.graph.vertex (r.graph.edge (stepEdge events n)).target = step.vertex
  templates : ∀ (n m : Nat) (event other : Event) (key key' : TemplateKey),
    events[n]? = some event → events[m]? = some other →
    event.templateKey? = some key → other.templateKey? = some key' →
    ((r.graph.edge (stepEdge events n)).target = (r.graph.edge (stepEdge events m)).target
      ↔ key = key')
  others : ∀ (n : Nat) (event : Event), events[n]? = some event → event.isStep = true →
    event.templateKey? = none → ∀ e : EdgeId, e.index < r.graph.edges.size →
    e ≠ stepEdge events n →
    (r.graph.edge e).target ≠ (r.graph.edge (stepEdge events n)).target
  elements : Set.BijOn (fun key => r.elements.get? key) {key | key ∈ templateKeys events}
    (some '' r.typeVertices)
  unknown : ∀ key, key ∉ templateKeys events → r.elements.get? key = none
  vertices_size : r.graph.vertices.size
    = 1 + (templateKeys events).toFinset.card + preprocessingCount events
  edges_size : r.graph.edges.size = stepCount events

/-- A template step is at the vertex of its key. -/
theorem Counted.get?_target (counted : r.Counted events) (wf : r.WellFormed) (keyed : r.Keyed)
    {n : Nat} {key : TemplateKey} (atPlace : events[n]? = some event)
    (begins : event.templateKey? = some key) :
    r.elements.get? key = some (r.graph.edge (stepEdge events n)).target := by
  obtain ⟨kind, point, prescribed⟩ := step?_of_templateKey? begins
  obtain ⟨edge, vertex⟩ := counted.steps n event _ atPlace prescribed
  exact (keyed.get?_iff key _).2 ⟨wf.graph.target_lt _ edge, vertex⟩

/-- Different keys are known for different vertices. -/
theorem Keyed.key_eq (keyed : r.Keyed) {key key' : TemplateKey} {v : VertexId}
    (known : r.elements.get? key = some v) (known' : r.elements.get? key' = some v) :
    key = key' :=
  TemplateKey.vertex_injective
    (((keyed.get?_iff key v).1 known).2.symm.trans ((keyed.get?_iff key' v).1 known').2)

/-- The known keys correspond to the vertices of types. -/
theorem Keyed.bijOn (keyed : r.Keyed) (counted : r.Counted events) :
    Set.BijOn (fun key => r.elements.get? key) {key | key ∈ templateKeys events}
      (some '' r.typeVertices) := by
  refine ⟨?_, ?_, ?_⟩
  · intro key met
    obtain ⟨v, known⟩ := (counted.known key).2 met
    obtain ⟨within, vertex⟩ := (keyed.get?_iff key v).1 known
    exact ⟨v, ⟨within, key.name, congrArg Vertex.node vertex⟩, known.symm⟩
  · intro key met key' _ same
    obtain ⟨v, known⟩ := (counted.known key).2 met
    exact keyed.key_eq known (same.symm.trans known)
  · rintro _ ⟨v, ⟨within, name, typed⟩, rfl⟩
    have known := (keyed.get?_iff ⟨name, (r.graph.vertex v).location⟩ v).2
      ⟨within, congrArg (Vertex.mk · _) typed⟩
    exact ⟨_, (counted.known _).1 ⟨v, known⟩, known⟩

/-- Recorded steps share vertices as their keys tell. -/
theorem sharesExactly_of_recorded (config : Config) (rootLocation : Location)
    (events : List Event) (r : Recorder)
    (recorded : (start config rootLocation).recordAll events = (r, none)) :
    r.SharesExactly events := by
  have started := start_wellFormed config rootLocation
  have wf := started.of_recordAll recorded
  have keyed : r.Keyed := recordAll_induct (motive := fun _ r => r.Keyed) started
    (keyed_start config rootLocation) (fun _ _ _ _ wf _ records kept => kept.records wf records)
    recorded
  have counted : r.Counted events := recordAll_induct (motive := fun p r => r.Counted p) started
    (counted_start config rootLocation) (fun _ _ _ _ wf _ records kept => kept.records wf records)
    recorded
  refine ⟨counted.steps, ?_, ?_, keyed.bijOn counted, ?_, counted.vertices_size,
    counted.edges_size⟩
  · intro n m event other key key' atN atM begins begins'
    have known := counted.get?_target wf keyed atN begins
    have known' := counted.get?_target wf keyed atM begins'
    constructor
    · intro same
      exact keyed.key_eq known (same ▸ known')
    · rintro rfl
      exact Option.some.inj (known.symm.trans known')
  · intro n event atPlace isStep single e within differs same
    obtain ⟨step, prescribed⟩ := exists_step?_of_isStep isStep
    obtain ⟨edge, vertex⟩ := counted.steps n event step atPlace prescribed
    obtain ⟨key, typed⟩ := keyed.shared e _ within edge differs same
    rw [same, vertex] at typed
    exact step_vertex_ne single prescribed key typed
  · intro key unmet
    rw [← counted.known] at unmet
    exact Option.eq_none_iff_forall_ne_some.2 fun v known => unmet ⟨v, known⟩

/-- The step that a template step repeats is at the same vertex; the macro after it has one of its
own. -/
theorem sharesExactly_of_recorded_recursion :
    ∃ r, (start .default .unknown).recordAll recursion = (r, none) ∧ r.SharesExactly recursion :=
  ⟨((start .default .unknown).recordAll recursion).1, Prod.ext rfl rfl,
    sharesExactly_of_recorded .default .unknown recursion _ (Prod.ext rfl rfl)⟩

end Recorder

end TemplateTrace
