import TemplateTrace.Config
import TemplateTrace.Proofs.Codec.Returning
import TemplateTrace.Proofs.EventText
import TemplateTrace.Report.Response
set_option autoImplicit false

/-!
# The text of the data model

Nodes, locations, kinds, outcomes, modes, configurations, vertices, edges, frames and the answers
that can be read back all decode from the compact text that is written of them
(`decode_render_models`).  Only the floats of edges and frames need a condition: their decimal text
must be read as the same float.
-/

namespace TemplateTrace

open Json (Readable)

variable (room : Nat)

/-! ## Nodes -/

namespace Node

/-- Every kind of node can be built again from what is written beside its tag. -/
theorem variants_lawful : ∀ v ∈ union.variants, v.Lawful "type" := by
  have text (name : String) : (Field.required name Codec.string).Lawful :=
    Field.required_lawful name Codec.string_lawful
  have args : argumentField.Lawful := Event.argumentField_lawful
  have flag : (Field.required "system" Codec.bool).Lawful :=
    Field.required_lawful "system" Codec.bool_lawful
  simp only [union, List.forall_mem_cons, List.not_mem_nil, false_implies, implies_true, and_true]
  refine ⟨⟨⟨text _, trivial⟩, by decide, ?_⟩,
    ⟨⟨text _, trivial⟩, by decide, ?_⟩,
    ⟨⟨text _, text _, trivial⟩, by decide, ?_⟩,
    ⟨⟨text _, flag, trivial⟩, by decide, ?_⟩,
    ⟨⟨text _, args, trivial⟩, by decide, ?_⟩,
    ⟨⟨text _, args, text _, trivial⟩, by decide, ?_⟩,
    ⟨⟨text _, trivial⟩, by decide, ?_⟩⟩
  -- each kind takes apart its own nodes only
  all_goals
    intro n
    cases n <;> (intros; rename_i found; cases found <;> rfl)

theorem union_lawful : union.Lawful where
  variants := variants_lawful
  distinct := by decide
  complete := by
    intro n
    cases n <;> simp [union]

theorem codec_lawful : codec.Lawful :=
  Union.codec_lawful union_lawful

/-- Nothing but argument lists is nested in a node. -/
theorem members_readable (n : Node) : ∀ m ∈ union.members n, Readable (room + 1) m.2 := by
  have text (s : String) : Readable (room + 1) (.string s) := .string _ s
  have args := Event.arguments_readable room
  have readable {tag : String} {ρ δ : Type} {fields : Fields ρ δ} {values : ρ}
      (each : fields.Readable (room + 1) values) :
      ∀ m ∈ ("type", Json.string tag) :: fields.members values, Readable (room + 1) m.2 :=
    List.forall_mem_cons.2 ⟨text _, Fields.readable_of_mem_members each⟩
  cases n with
  | typeName name | code name | message name => exact readable ⟨text _, trivial⟩
  | token category value => exact readable ⟨text _, text _, trivial⟩
  | inclusion path system => exact readable ⟨text _, .bool _ _, trivial⟩
  | expansion name names => exact readable ⟨text _, args _, trivial⟩
  | definition name names body => exact readable ⟨text _, args _, text _, trivial⟩

theorem codec_returns (n : Node) : codec.Returns (room + 2) n :=
  Union.codec_returns union_lawful (members_readable room n)

end Node

/-! ## Parts of edges and frames -/

theorem Location.codec_returns (l : Location) : Location.codec.Returns (room + 1) l :=
  Record.codec_returns
    { fields := ⟨Codec.string_lawful, Codec.uint32_lawful, Codec.uint32_lawful, trivial⟩
      distinct := by decide
      rebuilds := fun _ => rfl }
    ⟨Codec.string_returns room _, Codec.uint32_returns room _, Codec.uint32_returns room _, trivial⟩

theorem Outcome.codec_returns (o : Outcome) : Outcome.codec.Returns (room + 1) o :=
  TaggedPair.codec_returns (by decide) OutcomeKind.named_name Codec.string_lawful (fun _ => rfl)
    (Codec.string_returns room _)

theorem Kind.codec_returns (k : Kind) : Kind.codec.Returns room k :=
  Choice.codec_returns Kind.named_name room k

theorem Mode.codec_lawful : Mode.codec.Lawful :=
  Choice.codec_lawful Mode.named_name

theorem Mode.codec_returns (m : Mode) : Mode.codec.Returns room m :=
  Choice.codec_returns Mode.named_name room m

theorem VertexId.codec_lawful : VertexId.codec.Lawful :=
  Codec.uint32_lawful.map fun _ => rfl

theorem VertexId.codec_returns (v : VertexId) : VertexId.codec.Returns room v :=
  (Codec.uint32_returns room v.val).map rfl rfl

/-! ## Records -/

theorem Config.codec_returns (c : Config) : Config.codec.Returns (room + 1) c :=
  Record.codec_returns
    { fields := ⟨Mode.codec_lawful, Codec.bool_lawful, Codec.uint64_lawful.option nofun,
        Codec.string_lawful, trivial⟩
      distinct := by decide
      rebuilds := fun _ => rfl }
    ⟨Mode.codec_returns room _, Codec.bool_returns room _,
      Codec.option_returns (fun n _ => Codec.uint64_returns room n) nofun,
      Codec.string_returns room _, trivial⟩

theorem Vertex.codec_returns (v : Vertex) : Vertex.codec.Returns (room + 3) v :=
  Record.codec_returns
    { fields := ⟨Node.codec_lawful, Location.codec_lawful, trivial⟩
      distinct := by decide
      rebuilds := fun _ => rfl }
    ⟨Node.codec_returns room _, Location.codec_returns (room + 1) _, trivial⟩

/-- The floats of an edge. -/
def Edge.floats (e : Edge) : List Float :=
  e.began :: e.ended.toList

theorem Edge.codec_returns {e : Edge} (floats : ∀ x ∈ e.floats, PrintsBack x) :
    Edge.codec.Returns (room + 2) e := by
  obtain ⟨began, ended⟩ := List.forall_mem_cons.1 floats
  have ended : ∀ x ∈ e.ended, Codec.float.Returns (room + 1) x :=
    fun x given => Codec.float_returns _ (ended x (Option.mem_toList.2 given)).legible
  exact Record.codec_returns
    { fields := ⟨VertexId.codec_lawful, VertexId.codec_lawful, Kind.codec_lawful,
        Location.codec_lawful, Codec.float_lawful,
        Field.optional_lawful "end_timestamp" Codec.float_lawful nofun,
        Field.optional_lawful "condition_result" Codec.bool_lawful nofun, Codec.bool_lawful,
        trivial⟩
      distinct := by decide
      rebuilds := fun _ => rfl }
    ⟨VertexId.codec_returns _ _, VertexId.codec_returns _ _, Kind.codec_returns _ _,
      Location.codec_returns room _, Codec.float_returns _ began.legible,
      Codec.option_returns ended nofun,
      Codec.option_returns (fun b _ => Codec.bool_returns _ b) nofun, Codec.bool_returns _ _,
      trivial⟩

/-- The floats of a frame. -/
def Frame.floats (f : Frame) : List Float :=
  f.timeTaken.toList

theorem Frame.codec_returns {f : Frame} (floats : ∀ x ∈ f.floats, PrintsBack x) :
    Frame.codec.Returns (room + 3) f := by
  have timeTaken : ∀ x ∈ f.timeTaken, Codec.float.Returns (room + 2) x :=
    fun x given => Codec.float_returns _ (floats x (Option.mem_toList.2 given)).legible
  exact Record.codec_returns
    { fields := ⟨Node.codec_lawful, Location.codec_lawful,
        Field.optional_lawful "kind" Kind.codec_lawful nofun,
        Field.optional_lawful "point_of_event" Location.codec_lawful nofun,
        Field.optional_lawful "time_taken" Codec.float_lawful nofun,
        Field.optional_lawful "condition_result" Codec.bool_lawful nofun, trivial⟩
      distinct := by decide
      rebuilds := fun _ => rfl }
    ⟨Node.codec_returns room _, Location.codec_returns (room + 1) _,
      Codec.option_returns (fun k _ => Kind.codec_returns _ k) nofun,
      Codec.option_returns (fun l _ => Location.codec_returns (room + 1) l) nofun,
      Codec.option_returns timeTaken nofun,
      Codec.option_returns (fun b _ => Codec.bool_returns _ b) nofun, trivial⟩

namespace Report

theorem Evaluation.codec_returns (e : Evaluation) : Evaluation.codec.Returns (room + 2) e :=
  Record.codec_returns
    { fields := ⟨Field.optional_lawful "result" Outcome.codec_lawful nofun, Codec.bool_lawful,
        trivial⟩
      distinct := by decide
      rebuilds := fun _ => rfl }
    ⟨Codec.option_returns (fun o _ => Outcome.codec_returns room o) nofun,
      Codec.bool_returns _ _, trivial⟩

/-- An outcome that is left out is absent. -/
theorem Status.result_lawful :
    { Field.optional "result" Outcome.codec with hides := Option.isNone }.Lawful := by
  intro result
  cases result with
  | none => rfl
  | some o => exact Outcome.codec_lawful.option nofun (some o)

theorem Status.codec_returns (s : Status) : Status.codec.Returns (room + 2) s :=
  Record.codec_returns
    { fields := ⟨Mode.codec_lawful, Codec.uint64_lawful, Codec.uint64_lawful, Codec.uint64_lawful,
        Status.result_lawful, trivial⟩
      distinct := by decide
      rebuilds := fun _ => rfl }
    ⟨Mode.codec_returns _ _, Codec.uint64_returns _ _, Codec.uint64_returns _ _,
      Codec.uint64_returns _ _,
      Codec.option_returns (fun o _ => Outcome.codec_returns room o) nofun, trivial⟩

theorem Complaint.codec_returns (c : Complaint) : Complaint.codec.Returns (room + 1) c :=
  Record.codec_returns
    { fields := ⟨Codec.string_lawful, Codec.string_lawful, Codec.string_lawful, trivial⟩
      distinct := by decide
      rebuilds := fun _ => rfl }
    ⟨Codec.string_returns _ _, Codec.string_returns _ _, Codec.string_returns _ _, trivial⟩

end Report

/-! ## Whole texts -/

/-- Every value of the data model decodes from its compact text, if the floats in it do. -/
theorem decode_render_models :
    (∀ n, Node.codec.decode (Node.codec.render n) = .ok n)
      ∧ (∀ l, Location.codec.decode (Location.codec.render l) = .ok l)
      ∧ (∀ k, Kind.codec.decode (Kind.codec.render k) = .ok k)
      ∧ (∀ o, Outcome.codec.decode (Outcome.codec.render o) = .ok o)
      ∧ (∀ m, Mode.codec.decode (Mode.codec.render m) = .ok m)
      ∧ (∀ c, Config.codec.decode (Config.codec.render c) = .ok c)
      ∧ (∀ v, Vertex.codec.decode (Vertex.codec.render v) = .ok v)
      ∧ (∀ e : Edge, (∀ x ∈ e.floats, PrintsBack x) →
        Edge.codec.decode (Edge.codec.render e) = .ok e)
      ∧ (∀ f : Frame, (∀ x ∈ f.floats, PrintsBack x) →
        Frame.codec.decode (Frame.codec.render f) = .ok f)
      ∧ (∀ e, Report.Evaluation.codec.decode (Report.Evaluation.codec.render e) = .ok e)
      ∧ (∀ s, Report.Status.codec.decode (Report.Status.codec.render s) = .ok s)
      ∧ (∀ c, Report.Complaint.codec.decode (Report.Complaint.codec.render c) = .ok c) :=
  ⟨fun n => (Node.codec_returns _ n).decode_render,
    fun l => (Location.codec_returns _ l).decode_render,
    fun k => (Kind.codec_returns _ k).decode_render,
    fun o => (Outcome.codec_returns _ o).decode_render,
    fun m => (Mode.codec_returns _ m).decode_render,
    fun c => (Config.codec_returns _ c).decode_render,
    fun v => (Vertex.codec_returns _ v).decode_render,
    fun _ floats => (Edge.codec_returns _ floats).decode_render,
    fun _ floats => (Frame.codec_returns _ floats).decode_render,
    fun e => (Report.Evaluation.codec_returns _ e).decode_render,
    fun s => (Report.Status.codec_returns _ s).decode_render,
    fun c => (Report.Complaint.codec_returns _ c).decode_render⟩

/-- An edge with both floats, and a frame with one of its own and an empty argument list. -/
theorem decode_render_models_half :
    let e : Edge := ⟨⟨0⟩, ⟨1⟩, .macroExpansion, .unknown, 0.5, some 0.5, none, true⟩
    let f : Frame := ⟨.expansion "é\n" (some []), .unknown, some .macroExpansion, none, some 0.5,
      some false⟩
    ((∀ x ∈ e.floats, PrintsBack x) ∧ Edge.codec.decode (Edge.codec.render e) = .ok e)
      ∧ (∀ x ∈ f.floats, PrintsBack x) ∧ Frame.codec.decode (Frame.codec.render f) = .ok f := by
  intro e f
  obtain ⟨-, -, -, -, -, -, -, edges, frames, -, -, -⟩ := decode_render_models
  have began : ∀ x ∈ e.floats, PrintsBack x := by
    simp [e, Edge.floats, printsBack_half]
  have taken : ∀ x ∈ f.floats, PrintsBack x := by
    simp [f, Frame.floats, printsBack_half]
  exact ⟨⟨began, edges e began⟩, taken, frames f taken⟩

end TemplateTrace
