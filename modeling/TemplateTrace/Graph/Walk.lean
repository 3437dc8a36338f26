import TemplateTrace.Graph.Cursor
set_option autoImplicit false

/-!
# Walks

The frames below the current position of a cursor form a tree, which a walk goes over node by node:
in preorder, with siblings in reverse order of discovery.  A walk holds the next node and the edges
that wait behind it, last one first.  It works on its own copy of the marks of the cursor.

A node is a leaf when its vertex is marked, when the depth limit is reached, or when the walk, in
full mode and without a limit, finds the vertex among the ancestors of the node; the last case is
remembered as a cycle.  Only minimized mode marks the vertices it expands.
-/

namespace TemplateTrace

/-- A node of a call tree. -/
structure CallNode where
  frame : Frame
  depth : Nat
  /-- how many subtrees follow the node -/
  children : Nat
  deriving DecidableEq, Repr, Inhabited

/-- A walk over a call tree. -/
structure Walk where
  maxDepth : Option Nat
  /-- the vertices that are not expanded again -/
  discovered : Array Bool
  /-- the edges that wait, each with the depth of its node, the next one first -/
  pending : List (EdgeId × Nat)
  /-- the next node -/
  current : Option CallNode
  finished : Bool
  /-- the vertices from the start down to the current one; kept in full mode without a limit -/
  path : Array VertexId
  /-- the members of the path -/
  onPath : Array Bool
  cycleDetected : Bool
  deriving DecidableEq, Repr, Inhabited

namespace Walk

/-- The walk over nothing. -/
def ended : Walk where
  maxDepth := none
  discovered := #[]
  pending := []
  current := none
  finished := true
  path := #[]
  onPath := #[]
  cycleDetected := false

/-- Whether nodes of some depth are expanded: above the limit, and everywhere without one. -/
def isUnderLimit (w : Walk) (depth : Nat) : Bool :=
  w.maxDepth.all fun limit => decide (depth < limit)

/-- Whether the walk looks for cycles. -/
def guardsCycles (w : Walk) (g : CallGraph) : Bool :=
  g.mode == .full && w.maxDepth.isNone

/-- Cuts the path back to the ancestors of a node of some depth, and sees to it that there are as
many marks for the path as others. -/
def cutPath (w : Walk) (depth : Nat) : Walk :=
  let left := w.path.extract depth w.path.size
  let marks := left.foldl (fun marks v => marks.setIfInBounds v.index false) w.onPath
  { w with
    path := w.path.shrink depth
    onPath := marks ++ Array.replicate (w.discovered.size - marks.size) false }

/-- Whether a vertex is on the path. -/
def isOnPath (w : Walk) (v : VertexId) : Bool :=
  w.onPath.getD v.index false

/-- Puts a vertex at the end of the path. -/
def extendPath (w : Walk) (v : VertexId) : Walk :=
  { w with path := w.path.push v, onPath := w.onPath.setIfInBounds v.index true }

/-- Moves the path to a vertex at some depth; also says whether the vertex is on the path already,
which then stays as it is.  A walk that does not look for cycles has no path. -/
def enterPath (w : Walk) (g : CallGraph) (v : VertexId) (depth : Nat) : Bool × Walk :=
  if w.guardsCycles g then
    let cut := w.cutPath depth
    if cut.isOnPath v then (true, { cut with cycleDetected := true })
    else (false, cut.extendPath v)
  else (false, w)

/-- Whether a vertex is marked; one for which there is no mark is not expanded either. -/
def isDiscovered (w : Walk) (v : VertexId) : Bool :=
  w.discovered.getD v.index true

/-- The edges below a node at some depth that is expanded, the last one first. -/
def below (w : Walk) (g : CallGraph) (v : VertexId) (depth : Nat) (expands : Bool) :
    List (EdgeId × Nat) :=
  if expands && w.isUnderLimit depth then
    (g.enabledOut v).reverse.map fun e => (e, depth + 1)
  else []

/-- The walk whose next node is that of a position at some depth. -/
def visit (w : Walk) (g : CallGraph) (here : Position) (depth : Nat) : Walk :=
  let v := g.vertexAt here
  let (onCycle, moved) := w.enterPath g v depth
  let expands := !w.isDiscovered v && !onCycle
  let below := w.below g v depth expands
  { moved with
    discovered :=
      if expands && g.mode != .full then moved.discovered.setIfInBounds v.index true
      else moved.discovered
    current := some ⟨g.frameAt here, depth, below.length⟩
    pending := below ++ moved.pending }

/-- The walk from the current position of a cursor. -/
def start (g : CallGraph) (c : Cursor) (maxDepth : Option Nat) : Walk :=
  let blank : Walk := { ended with maxDepth, discovered := c.discovered }
  match c.current with
  | none => blank
  | some here => { blank with finished := false }.visit g here 0

/-- The next node, and the walk after it. -/
def next (w : Walk) (g : CallGraph) : Option (CallNode × Walk) :=
  match w.current, w.pending with
  | none, _ => none
  | some node, [] => some (node, { w with current := none, finished := true })
  | some node, (e, depth) :: rest =>
      some (node, { w with pending := rest }.visit g (.edge e) depth)

/-- Whether two walks stand at the same place as far as that can be told: both at the end. -/
def bothFinished (a b : Walk) : Bool := a.finished && b.finished

variable {w : Walk} {g : CallGraph} {here : Position} {v : VertexId} {depth : Nat}

/-! ## What cutting and extending the path change -/

/-- Taking the marks off some vertices. -/
def unmarkAll (marks : Array Bool) (vs : List VertexId) : Array Bool :=
  vs.foldl (fun marks v => marks.setIfInBounds v.index false) marks

theorem getD_unmarkAll (marks : Array Bool) (vs : List VertexId) (u : VertexId) :
    (unmarkAll marks vs).getD u.index false = true
      ↔ u ∉ vs ∧ marks.getD u.index false = true := by
  unfold unmarkAll
  induction vs generalizing marks with
  | nil => simp
  | cons v vs ih =>
    rw [List.foldl_cons, ih, VertexId.getD_setIfInBounds]
    by_cases same : u = v
    · by_cases within : v.index < marks.size <;> simp [same, within]
    · simp [same]

theorem getD_append_replicate (marks : Array Bool) (n : Nat) (u : VertexId) :
    (marks ++ Array.replicate n false).getD u.index false = marks.getD u.index false := by
  simp only [Array.getD_eq_getD_getElem?, Array.getElem?_append]
  split
  · rfl
  · next beyond =>
    rw [Array.getElem?_eq_none (Nat.le_of_not_lt beyond), Array.getElem?_replicate]
    split <;> rfl

theorem cutPath_path (w : Walk) (depth : Nat) :
    (w.cutPath depth).path.toList = w.path.toList.take depth := by
  simp [cutPath]

/-- What is cut off is not on the path any more. -/
theorem isOnPath_cutPath (w : Walk) (depth : Nat) (u : VertexId) :
    (w.cutPath depth).isOnPath u = true
      ↔ u ∉ w.path.toList.drop depth ∧ w.isOnPath u = true := by
  have left : (w.path.extract depth w.path.size).toList = w.path.toList.drop depth := by
    simp [List.extract, List.take_of_length_le]
  simp only [isOnPath, cutPath]
  rw [getD_append_replicate, ← Array.foldl_toList, left]
  exact getD_unmarkAll w.onPath (w.path.toList.drop depth) u

theorem discovered_size_le_cutPath (w : Walk) (depth : Nat) :
    w.discovered.size ≤ (w.cutPath depth).onPath.size := by
  simp only [cutPath, Array.size_append, Array.size_replicate]
  omega

theorem isOnPath_extendPath (w : Walk) (v u : VertexId) :
    (w.extendPath v).isOnPath u = true
      ↔ u = v ∧ v.index < w.onPath.size ∨ w.isOnPath u = true := by
  simp only [isOnPath, extendPath, VertexId.getD_setIfInBounds]
  split
  · next new => simp [new]
  · next old => simp [old]

/-! ## What a visit changes -/

/-- Entering a vertex that is on the path closes a cycle. -/
theorem enterPath_of_onPath (guards : w.guardsCycles g = true)
    (closes : (w.cutPath depth).isOnPath v = true) :
    w.enterPath g v depth = (true, { w.cutPath depth with cycleDetected := true }) := by
  simp only [enterPath, guards, closes, if_true]

theorem enterPath_of_not_onPath (guards : w.guardsCycles g = true)
    (fresh : (w.cutPath depth).isOnPath v = false) :
    w.enterPath g v depth = (false, (w.cutPath depth).extendPath v) := by
  simp only [enterPath, guards, fresh, if_true, Bool.false_eq_true, if_false]

theorem enterPath_keeps (w : Walk) (g : CallGraph) (v : VertexId) (depth : Nat) :
    (w.enterPath g v depth).2.maxDepth = w.maxDepth
      ∧ (w.enterPath g v depth).2.pending = w.pending
      ∧ (w.enterPath g v depth).2.discovered = w.discovered := by
  unfold enterPath
  split
  · dsimp only
    split <;> exact ⟨rfl, rfl, rfl⟩
  · exact ⟨rfl, rfl, rfl⟩

@[simp] theorem visit_maxDepth (w : Walk) (g : CallGraph) (here : Position) (depth : Nat) :
    (w.visit g here depth).maxDepth = w.maxDepth :=
  (w.enterPath_keeps g (g.vertexAt here) depth).1

theorem visit_guardsCycles (w : Walk) (g : CallGraph) (here : Position) (depth : Nat) :
    (w.visit g here depth).guardsCycles g = w.guardsCycles g := by
  rw [guardsCycles, visit_maxDepth, guardsCycles]

theorem visit_path (w : Walk) (g : CallGraph) (here : Position) (depth : Nat) :
    (w.visit g here depth).path = (w.enterPath g (g.vertexAt here) depth).2.path := rfl

theorem visit_isOnPath (w : Walk) (g : CallGraph) (here : Position) (depth : Nat) (u : VertexId) :
    (w.visit g here depth).isOnPath u
      = (w.enterPath g (g.vertexAt here) depth).2.isOnPath u := rfl

/-- Whether visiting a position at some depth opens its vertex. -/
def expands (w : Walk) (g : CallGraph) (here : Position) (depth : Nat) : Bool :=
  !w.isDiscovered (g.vertexAt here) && !(w.enterPath g (g.vertexAt here) depth).1

/-- What visiting a position changes, given whether that opens its vertex. -/
theorem visit_eq (w : Walk) (g : CallGraph) (here : Position) (depth : Nat) {expands : Bool}
    (h : w.expands g here depth = expands) :
    w.visit g here depth
      = { (w.enterPath g (g.vertexAt here) depth).2 with
          discovered :=
            if expands && g.mode != .full then
              w.discovered.setIfInBounds (g.vertexAt here).index true
            else w.discovered
          current :=
            some ⟨g.frameAt here, depth, (w.below g (g.vertexAt here) depth expands).length⟩
          pending := w.below g (g.vertexAt here) depth expands ++ w.pending } := by
  obtain ⟨-, pending, discovered⟩ := w.enterPath_keeps g (g.vertexAt here) depth
  subst h
  unfold visit Walk.expands
  rw [← pending, ← discovered]

theorem visit_pending (w : Walk) (g : CallGraph) (here : Position) (depth : Nat) :
    (w.visit g here depth).pending
      = w.below g (g.vertexAt here) depth (w.expands g here depth) ++ w.pending := by
  rw [w.visit_eq g here depth rfl]

theorem visit_discovered (w : Walk) (g : CallGraph) (here : Position) (depth : Nat) :
    (w.visit g here depth).discovered
      = if w.expands g here depth && g.mode != .full then
          w.discovered.setIfInBounds (g.vertexAt here).index true
        else w.discovered := by
  rw [w.visit_eq g here depth rfl]

theorem visit_discovered_size (w : Walk) (g : CallGraph) (here : Position) (depth : Nat) :
    (w.visit g here depth).discovered.size = w.discovered.size := by
  rw [visit_discovered]
  split
  · exact Array.size_setIfInBounds ..
  · rfl

/-- What is called from a vertex comes one deeper, if the vertex is opened above the limit. -/
theorem mem_below {wait : EdgeId × Nat} {opened : Bool}
    (mem : wait ∈ w.below g v depth opened) :
    opened = true ∧ w.isUnderLimit depth = true ∧ wait.2 = depth + 1
      ∧ wait.1 ∈ g.enabledOut v := by
  unfold below at mem
  split at mem
  · next room =>
    obtain ⟨e, called, rfl⟩ := List.mem_map.1 mem
    obtain ⟨expanded, under⟩ := Bool.and_eq_true_iff.1 room
    exact ⟨expanded, under, rfl, List.mem_reverse.1 called⟩
  · cases mem

theorem below_eq_nil_or (w : Walk) (g : CallGraph) (v : VertexId) (depth : Nat) (opened : Bool) :
    w.below g v depth opened = [] ∨ opened = true ∧ w.isUnderLimit depth = true := by
  unfold below
  split
  · next room => exact .inr (Bool.and_eq_true_iff.1 room)
  · exact .inl rfl

/-- A vertex that is opened has a mark. -/
theorem index_lt_of_expands (expands : w.expands g here depth = true) :
    (g.vertexAt here).index < w.discovered.size := by
  refine Nat.lt_of_not_le fun beyond => ?_
  rw [Walk.expands, isDiscovered, Array.getD_eq_getD_getElem?,
    Array.getElem?_eq_none beyond] at expands
  cases expands

end Walk

end TemplateTrace
