import TemplateTrace.Kind
import TemplateTrace.Location
import TemplateTrace.Node
set_option autoImplicit false

/-!
# Vertices, edges and frames

A step of a compile-time evaluation has two halves.  Its *identity* is what is evaluated and where
that is defined; it is the payload of a vertex.  Its *occurrence* is why, where and when the step
was reached; it is the payload of an edge, since each begin of a step makes an edge of its own.  A
frame puts the two together for display.
-/

namespace TemplateTrace

/-- The place of a vertex in a call graph. -/
structure VertexId where
  val : UInt32
  deriving DecidableEq, Repr, Inhabited

/-- The place of an edge in a call graph. -/
structure EdgeId where
  val : UInt32
  deriving DecidableEq, Repr, Inhabited

/-- The place as a number. -/
def VertexId.index (v : VertexId) : Nat := v.val.toNat

/-- The place as a number. -/
def EdgeId.index (e : EdgeId) : Nat := e.val.toNat

/-! ## Places -/

theorem EdgeId.eq_of_index_eq {a b : EdgeId} (h : a.index = b.index) : a = b := by
  cases a
  cases b
  exact congrArg EdgeId.mk (UInt32.toNat_inj.1 h)

theorem VertexId.eq_of_index_eq {a b : VertexId} (h : a.index = b.index) : a = b := by
  cases a
  cases b
  exact congrArg VertexId.mk (UInt32.toNat_inj.1 h)

theorem EdgeId.ofNat_index (e : EdgeId) : (⟨UInt32.ofNat e.index⟩ : EdgeId) = e := by
  rw [EdgeId.index, UInt32.ofNat_toNat]

theorem VertexId.ofNat_index (v : VertexId) : (⟨UInt32.ofNat v.index⟩ : VertexId) = v := by
  rw [VertexId.index, UInt32.ofNat_toNat]

/-- Setting the entry of a vertex leaves the entries of the others. -/
theorem VertexId.getD_setIfInBounds {α : Type} (entries : Array α) (v u : VertexId)
    (entry blank : α) :
    (entries.setIfInBounds v.index entry).getD u.index blank
      = if u = v ∧ v.index < entries.size then entry else entries.getD u.index blank := by
  simp only [Array.getD_eq_getD_getElem?, Array.getElem?_setIfInBounds]
  by_cases same : u = v
  · subst same
    by_cases within : u.index < entries.size <;> simp [within]
  · have differs : v.index ≠ u.index := fun eq => same (VertexId.eq_of_index_eq eq.symm)
    simp [same, differs]

theorem VertexId.getD_replicate {α : Type} (n : Nat) (v : VertexId) (blank : α) :
    (Array.replicate n blank).getD v.index blank = blank := by
  rw [Array.getD_eq_getD_getElem?, Array.getElem?_replicate]
  split <;> rfl

/-- The codec of vertex places. -/
def VertexId.codec : Codec VertexId := Codec.uint32.map VertexId.mk VertexId.val

/-- The codec of edge places. -/
def EdgeId.codec : Codec EdgeId := Codec.uint32.map EdgeId.mk EdgeId.val

/-! ## Vertices -/

/-- What is evaluated, and where that is defined. -/
structure Vertex where
  node : Node
  location : Location
  deriving DecidableEq, Repr, Inhabited

/-- The codec of vertices. -/
def Vertex.codec : Codec Vertex :=
  Record.codec {
    title := "struct Vertex"
    fields := .cons (.required "node" Node.codec)
      (.cons (.required "source_location" Location.codec) .nil)
    build := fun (node, location, _) => ⟨node, location⟩
    split := fun v => (v.node, v.location, ()) }

/-! ## Edges -/

/-- One occurrence of a step: who reached what, why, where and when.  The end is absent while the
step is open; the condition is that of a preprocessing condition once it is closed. -/
structure Edge where
  source : VertexId
  target : VertexId
  kind : Kind
  pointOfEvent : Location
  began : Float
  ended : Option Float
  condition : Option Bool
  enabled : Bool
  deriving DecidableEq, Repr, Inhabited

namespace Edge

/-- How long the step took, once it has ended. -/
def timeTaken (e : Edge) : Option Float :=
  e.ended.map fun ended => ended - e.began

/-- The codec of edges. -/
def codec : Codec Edge :=
  Record.codec {
    title := "struct Edge"
    fields := .cons (.required "source" VertexId.codec) (.cons (.required "target" VertexId.codec)
      (.cons (.required "kind" Kind.codec) (.cons (.required "point_of_event" Location.codec)
      (.cons (.required "begin_timestamp" .float) (.cons (.optional "end_timestamp" .float)
      (.cons (.optional "condition_result" .bool) (.cons (.required "enabled" .bool) .nil)))))))
    build := fun (source, target, kind, pointOfEvent, began, ended, condition, enabled, _) =>
      ⟨source, target, kind, pointOfEvent, began, ended, condition, enabled⟩
    split := fun e =>
      (e.source, e.target, e.kind, e.pointOfEvent, e.began, e.ended, e.condition, e.enabled, ()) }

end Edge

/-! ## Frames -/

/-- A step as it is displayed: its identity, and its occurrence unless it is the root. -/
structure Frame where
  node : Node
  location : Location
  kind : Option Kind
  pointOfEvent : Option Location
  timeTaken : Option Float
  condition : Option Bool
  deriving DecidableEq, Repr, Inhabited

namespace Frame

/-- The frame of a vertex that nothing leads to. -/
def root (v : Vertex) : Frame :=
  ⟨v.node, v.location, none, none, none, none⟩

/-- The frame of an edge and the vertex it leads to. -/
def ofEdge (e : Edge) (v : Vertex) : Frame :=
  ⟨v.node, v.location, some e.kind, some e.pointOfEvent, e.timeTaken, e.condition⟩

/-- The text of a frame: the node, the outcome of a condition, the definition's location if it is
known, and the kind with the place it was reached from, if that is known. -/
def text (f : Frame) : String :=
  let condition := match f.condition with
    | some b => s!" = {b}"
    | none => ""
  let location := if f.location.isUnknown then "" else " at " ++ f.location.text
  let reached := match f.kind, f.pointOfEvent with
    | none, _ => ""
    | some kind, none => " (" ++ kind.text ++ ")"
    | some kind, some place =>
        if place.isUnknown then " (" ++ kind.text ++ ")"
        else " (" ++ kind.text ++ " from " ++ place.text ++ ")"
  f.node.text ++ condition ++ location ++ reached

/-- The record of a frame. -/
def record : Record Frame where
  title := "struct Frame"
  fields := .cons (.required "node" Node.codec)
    (.cons (.required "source_location" Location.codec) (.cons (.optional "kind" Kind.codec)
    (.cons (.optional "point_of_event" Location.codec) (.cons (.optional "time_taken" .float)
    (.cons (.optional "condition_result" .bool) .nil)))))
  build := fun (node, location, kind, pointOfEvent, timeTaken, condition, _) =>
    ⟨node, location, kind, pointOfEvent, timeTaken, condition⟩
  split := fun f =>
    (f.node, f.location, f.kind, f.pointOfEvent, f.timeTaken, f.condition, ())

/-- The codec of frames. -/
def codec : Codec Frame := record.codec

end Frame

end TemplateTrace
