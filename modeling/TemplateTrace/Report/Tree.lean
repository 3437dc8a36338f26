import TemplateTrace.Graph.CallTree
set_option autoImplicit false

/-!
# Drawings of call trees

A call tree is drawn one node to a line.  Before its text a node has one connector for each level
above it: those of its ancestors say whether a sibling of the ancestor is still to come, and its own
one says whether a sibling of the node is.  Both follow from the child counts of the nodes before,
which are kept as the numbers of children to come, from the outside in.

Lists that are no preorder of a tree are drawn all the same: a missing level has no child to come.
`drawFrom_length` says that each node has its line.
-/

namespace TemplateTrace.Report

/-- The first `depth` of the child counts, with zero for each that is missing. -/
def levels (depth : Nat) (counts : List Nat) : List Nat :=
  counts.take depth ++ List.replicate (depth - counts.length) 0

@[simp] theorem levels_length (depth : Nat) (counts : List Nat) :
    (levels depth counts).length = depth := by
  simp [levels]
  omega

/-- The connector of an ancestor with so many later siblings. -/
def passing (siblings : Nat) : String :=
  if 0 < siblings then "| " else "  "

/-- The connector of a node with so many later siblings. -/
def branching (siblings : Nat) : String :=
  if 0 < siblings then "+ " else "` "

/-- The connectors before a node, for the counts of the levels outside of its parent and the number
of its later siblings. -/
def connectors (outer : List Nat) (siblings : Nat) : String :=
  String.join (outer.map passing) ++ branching siblings

/-- The lines of the nodes that follow some others, which left these counts. -/
def drawFrom (counts : List Nat) : List CallNode → List String
  | [] => []
  | node :: rest =>
      match node.depth with
      | 0 => node.frame.text :: drawFrom [node.children] rest
      | parent + 1 =>
          let outer := levels parent counts
          let siblings := counts.getD parent 0 - 1
          (connectors outer siblings ++ node.frame.text)
            :: drawFrom (outer ++ [siblings, node.children]) rest

/-- The lines of a call tree. -/
def draw (nodes : List CallNode) : List String :=
  drawFrom [] nodes

/-- Each node has its line. -/
theorem drawFrom_length (counts : List Nat) (nodes : List CallNode) :
    (drawFrom counts nodes).length = nodes.length := by
  induction nodes generalizing counts with
  | nil => rfl
  | cons node rest ih =>
    simp only [drawFrom]
    split <;> simp [ih]

/-- The lines of a backtrace, which number the frames from the current one on. -/
def numberFrames (frames : List Frame) : List String :=
  frames.zipIdx.map fun (frame, n) => s!"#{n} " ++ frame.text

end TemplateTrace.Report
