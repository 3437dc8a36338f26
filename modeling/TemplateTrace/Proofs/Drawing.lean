import Mathlib.Data.List.GetD
import TemplateTrace.Report.Tree
import TemplateTrace.Proofs.Graph.Visiting
set_option autoImplicit false

/-!
# Drawings show their tree

A drawing is made from depths and numbers of children alone, and the connectors of a node are drawn
before the rest of the list is known.  `Report.draw_outlines` says that they are right: wherever the
nodes are trees in preorder, the connectors before a node say of its ancestors and of the node
itself whether a sibling comes later in the list.

The invariant is `Report.Remains`: the counts say how many trees are still to come at each level,
from the inside out, before the list goes on at the level above.  Each node keeps it
(`Remains.next`), and a count that is not zero is a sibling to come (`Remains.pos_iff`).

Any other list is drawn too, and no count is looked up where there is none: `drawChecked` stops at
such a look-up, and it draws what `draw` does.
-/

namespace TemplateTrace

/-! ## Positions in a tree -/

namespace CallNode

/-- The node at `j` is an ancestor of the one at `k`: all nodes after it up to `k` are deeper. -/
def IsAncestor (nodes : List CallNode) (j k : Fin nodes.length) : Prop :=
  j < k ∧ ∀ l, j < l → l ≤ k → nodes[j].depth < nodes[l].depth

/-- The node at `j` is the parent of the one at `k`. -/
def IsParent (nodes : List CallNode) (j k : Fin nodes.length) : Prop :=
  IsAncestor nodes j k ∧ nodes[k].depth = nodes[j].depth + 1

/-- The parent of the node at `k` has another child after it. -/
def HasLaterSibling (nodes : List CallNode) (k : Fin nodes.length) : Prop :=
  ∃ parent l, k < l ∧ IsParent nodes parent k ∧ IsParent nodes parent l

instance (nodes : List CallNode) (j k : Fin nodes.length) : Decidable (IsAncestor nodes j k) :=
  inferInstanceAs (Decidable (j < k ∧ ∀ l, j < l → l ≤ k → nodes[j].depth < nodes[l].depth))

instance (nodes : List CallNode) (j k : Fin nodes.length) : Decidable (IsParent nodes j k) :=
  inferInstanceAs (Decidable (IsAncestor nodes j k ∧ nodes[k].depth = nodes[j].depth + 1))

instance (nodes : List CallNode) (k : Fin nodes.length) : Decidable (HasLaterSibling nodes k) :=
  inferInstanceAs
    (Decidable (∃ parent l, k < l ∧ IsParent nodes parent k ∧ IsParent nodes parent l))

/-- The list goes on at some depth before it goes on at a lesser one. -/
def Resumes (depth : Nat) : List CallNode → Prop
  | [] => False
  | node :: rest => node.depth = depth ∨ (depth < node.depth ∧ Resumes depth rest)

theorem resumes_append_iff {depth : Nat} {inner rest : List CallNode}
    (deeper : ∀ node ∈ inner, depth < node.depth) :
    Resumes depth (inner ++ rest) ↔ Resumes depth rest := by
  induction inner with
  | nil => exact Iff.rfl
  | cons node inner ih =>
    obtain ⟨below, later⟩ := List.forall_mem_cons.1 deeper
    have notHere : node.depth ≠ depth := Nat.ne_of_gt below
    rw [List.cons_append, Resumes, or_iff_right notHere, and_iff_right below, ih later]

/-- In terms of positions: nothing lies less deep before the list is at the depth again. -/
theorem resumes_iff_exists {depth : Nat} {rest : List CallNode} :
    Resumes depth rest ↔ ∃ l, ∃ within : l < rest.length, rest[l].depth = depth
      ∧ ∀ m, (before : m < l) → depth ≤ (rest.get ⟨m, before.trans within⟩).depth := by
  induction rest with
  | nil => simp [Resumes]
  | cons node rest ih =>
    rw [Resumes, ih]
    constructor
    · rintro (here | ⟨below, l, within, level, open'⟩)
      · exact ⟨0, Nat.succ_pos _, here, fun m before => absurd before (Nat.not_lt_zero m)⟩
      · refine ⟨l + 1, Nat.succ_lt_succ within, level, fun m before => ?_⟩
        cases m with
        | zero => exact Nat.le_of_lt below
        | succ m => exact open' m (Nat.lt_of_succ_lt_succ before)
    · rintro ⟨l, within, level, open'⟩
      cases l with
      | zero => exact .inl level
      | succ l =>
        rcases Nat.lt_or_eq_of_le (open' 0 (Nat.succ_pos l)) with below | here
        · refine .inr ⟨below, l, Nat.lt_of_succ_lt_succ within, level, fun m before => ?_⟩
          exact open' (m + 1) (Nat.succ_lt_succ before)
        · exact .inl here.symm

variable {nodes : List CallNode} {j k : Fin nodes.length}

theorem resumes_drop_iff {depth : Nat} :
    Resumes depth (nodes.drop (k + 1)) ↔ ∃ l, k < l ∧ nodes[l].depth = depth
      ∧ ∀ m, k < m → m < l → depth ≤ nodes[m].depth := by
  obtain ⟨k, inList⟩ := k
  rw [resumes_iff_exists]
  simp only [List.get_eq_getElem, List.getElem_drop, Fin.getElem_fin]
  constructor
  · rintro ⟨l, within, level, open'⟩
    have inList' : k + 1 + l < nodes.length := by
      rw [List.length_drop] at within
      omega
    refine ⟨⟨k + 1 + l, inList'⟩, Fin.mk_lt_mk.2 (by omega), level, fun ⟨m, _⟩ after before => ?_⟩
    obtain ⟨n, rfl⟩ := Nat.exists_eq_add_of_le (Fin.mk_lt_mk.1 after)
    exact open' n (Nat.lt_of_add_lt_add_left (Fin.mk_lt_mk.1 before))
  · rintro ⟨⟨l, inList'⟩, after, level, open'⟩
    obtain ⟨n, rfl⟩ := Nat.exists_eq_add_of_le (Fin.mk_lt_mk.1 after)
    have within : n < (nodes.drop (k + 1)).length := by
      rw [List.length_drop]
      omega
    refine ⟨n, within, level, fun m before => ?_⟩
    exact open' ⟨k + 1 + m, by omega⟩ (Fin.mk_lt_mk.2 (by omega)) (Fin.mk_lt_mk.2 (by omega))

/-- A node has one ancestor at most at each depth. -/
theorem IsAncestor.eq_of_depth_eq {other : Fin nodes.length} (above : IsAncestor nodes j k)
    (above' : IsAncestor nodes other k) (level : nodes[j].depth = nodes[other].depth) :
    j = other := by
  rcases lt_trichotomy j other with before | same | after
  · exact absurd level (Nat.ne_of_lt (above.2 other before (Nat.le_of_lt above'.1)))
  · exact same
  · exact absurd level.symm (Nat.ne_of_lt (above'.2 j after (Nat.le_of_lt above.1)))

/-- A later sibling of a node, as seen from the node or from a position below it. -/
theorem hasLaterSibling_iff {parent : Fin nodes.length} (isParent : IsParent nodes parent j)
    (upTo : j ≤ k) (deeper : ∀ l, j < l → l ≤ k → nodes[j].depth < nodes[l].depth) :
    HasLaterSibling nodes j ↔ Resumes nodes[j].depth (nodes.drop (k + 1)) := by
  rw [resumes_drop_iff]
  constructor
  · intro ⟨shared, l, later, ⟨above, level⟩, above', level'⟩
    have same : nodes[l].depth = nodes[j].depth := level'.trans level.symm
    have beyond : k < l := by
      by_contra inside
      exact Nat.ne_of_gt (deeper l later (not_lt.1 inside)) same
    refine ⟨l, beyond, same, fun m after before => ?_⟩
    have start : shared < m := above.1.trans_le (upTo.trans after.le)
    have below : nodes[shared].depth < nodes[m].depth := above'.2 m start before.le
    exact level ▸ below
  · intro ⟨l, beyond, same, open'⟩
    have level : nodes[l].depth = nodes[parent].depth + 1 := same.trans isParent.2
    refine ⟨parent, l, upTo.trans_lt beyond, isParent, ⟨?_, fun m after upTo' => ?_⟩, level⟩
    · exact isParent.1.1.trans (upTo.trans_lt beyond)
    · have here : nodes[parent].depth < nodes[j].depth := isParent.1.2 j isParent.1.1 le_rfl
      -- `m` lies above `j`, below it, behind `k`, or at the sibling itself
      rcases le_or_gt m j with above | below
      · exact isParent.1.2 m after above
      rcases le_or_gt m k with inside | outside
      · exact here.trans (deeper m below inside)
      rcases upTo'.lt_or_eq with before | rfl
      · exact here.trans_le (open' m outside before)
      · exact level ▸ Nat.lt_succ_self _

/-- No node of some trees lies above their roots. -/
theorem InPreorder.depth_le {depth count : Nat} {nodes : List CallNode}
    (trees : InPreorder depth count nodes) : ∀ node ∈ nodes, depth ≤ node.depth := by
  induction trees with
  | none => simp
  | tree level _ _ ihBelow ihBeside =>
    refine List.forall_mem_cons.2 ⟨Nat.le_of_eq level.symm, List.forall_mem_append.2 ⟨?_, ihBeside⟩⟩
    intro node mem
    exact Nat.le_of_succ_le (ihBelow node mem)

/-- A list that starts with a root and in which no node is more than one level below the one before
it. -/
structure Unbroken (nodes : List CallNode) : Prop where
  first : ∀ within : 0 < nodes.length, nodes[0].depth = 0
  next : ∀ k, (within : k + 1 < nodes.length) → nodes[k + 1].depth ≤ nodes[k].depth + 1

theorem Unbroken.exists_isAncestor (unbroken : Unbroken nodes) (k : Fin nodes.length) {depth : Nat}
    (above : depth < nodes[k].depth) : ∃ j, IsAncestor nodes j k ∧ nodes[j].depth = depth := by
  obtain ⟨k, within⟩ := k
  induction k with
  | zero => exact absurd above (by simp [unbroken.first within])
  | succ k ih =>
    have within' : k < nodes.length := Nat.lt_of_succ_lt within
    have adjacent : (⟨k, within'⟩ : Fin nodes.length) < ⟨k + 1, within⟩ :=
      Fin.mk_lt_mk.2 (Nat.lt_succ_self k)
    have notDeep : depth ≤ nodes[k].depth :=
      Nat.le_of_lt_succ (Nat.lt_of_lt_of_le above (unbroken.next k within))
    -- the node before is the ancestor, or has it
    rcases Nat.lt_or_eq_of_le notDeep with deep | here
    · obtain ⟨j, ⟨before, deeper⟩, level⟩ := ih within' deep
      refine ⟨j, ⟨before.trans adjacent, fun l after upTo => ?_⟩, level⟩
      rcases upTo.lt_or_eq with earlier | rfl
      · exact deeper l after (Nat.le_of_lt_succ earlier)
      · exact level ▸ above
    · refine ⟨⟨k, within'⟩, ⟨adjacent, fun l after upTo => ?_⟩, here.symm⟩
      have last : l = ⟨k + 1, within⟩ := le_antisymm upTo after
      subst last
      exact here ▸ above

end CallNode

namespace Report

open CallNode

/-! ## One node -/

/-- The counts after a node, for those before it. -/
def countsAfter (counts : List Nat) (node : CallNode) : List Nat :=
  match node.depth with
  | 0 => [node.children]
  | parent + 1 => levels parent counts ++ [counts.getD parent 0 - 1, node.children]

theorem length_countsAfter (counts : List Nat) (node : CallNode) :
    (countsAfter counts node).length = node.depth + 1 := by
  cases level : node.depth with
  | zero => simp [countsAfter, level]
  | succ parent => simp [countsAfter, level]

/-- What stands before the text of a node at some depth that leaves these counts. -/
def lead (counts : List Nat) : Nat → String
  | 0 => ""
  | parent + 1 => connectors (counts.take parent) (counts.getD parent 0)

theorem drawFrom_cons (counts : List Nat) (node : CallNode) (rest : List CallNode) :
    drawFrom counts (node :: rest)
      = (lead (countsAfter counts node) node.depth ++ node.frame.text)
        :: drawFrom (countsAfter counts node) rest := by
  cases level : node.depth with
  | zero => simp [drawFrom, countsAfter, lead, level]
  | succ parent =>
    have outer : (countsAfter counts node).take parent = levels parent counts := by
      simp [countsAfter, level]
    have siblings : (countsAfter counts node).getD parent 0 = counts.getD parent 0 - 1 := by
      simp [countsAfter, level]
    rw [lead, outer, siblings]
    simp [drawFrom, countsAfter, level]

/-- Two characters stand before a node for each level above it. -/
theorem length_lead {counts : List Nat} {depth : Nat} (enough : depth ≤ counts.length) :
    (lead counts depth).length = 2 * depth := by
  have passing_length : String.length ∘ passing = fun _ => 2 := by
    funext siblings
    rw [Function.comp_apply, passing]
    split <;> rfl
  have branching_length : ∀ siblings, (branching siblings).length = 2 := by
    intro siblings
    rw [branching]
    split <;> rfl
  cases depth with
  | zero => rfl
  | succ parent =>
    rw [lead, connectors, String.length_append, String.length_join, List.map_map, passing_length,
      branching_length, List.map_const', List.sum_replicate, List.length_take,
      Nat.min_eq_left (Nat.le_of_succ_le enough), smul_eq_mul]
    omega

/-- The counts before the node at some position of a list. -/
def countsBefore (nodes : List CallNode) (k : Nat) : List Nat :=
  (nodes.take k).foldl countsAfter []

/-- The counts that the node at some position of a list leaves. -/
def countsAt (nodes : List CallNode) (k : Fin nodes.length) : List Nat :=
  countsAfter (countsBefore nodes k) nodes[k]

theorem length_countsAt (nodes : List CallNode) (k : Fin nodes.length) :
    (countsAt nodes k).length = nodes[k].depth + 1 :=
  length_countsAfter _ _

theorem drawFrom_append (counts : List Nat) (before rest : List CallNode) :
    drawFrom counts (before ++ rest)
      = drawFrom counts before ++ drawFrom (before.foldl countsAfter counts) rest := by
  induction before generalizing counts with
  | nil => rfl
  | cons node before ih =>
    rw [List.cons_append, drawFrom_cons, drawFrom_cons, ih, List.foldl_cons, List.cons_append]

/-- The line of a node in terms of the counts that it leaves. -/
theorem draw_getElem? {nodes : List CallNode} (k : Fin nodes.length) :
    (draw nodes)[(k : Nat)]?
      = some (lead (countsAt nodes k) nodes[k].depth ++ nodes[k].frame.text) := by
  have split : draw nodes = drawFrom [] (nodes.take k)
      ++ drawFrom (countsBefore nodes k) (nodes[k] :: nodes.drop (k + 1)) := by
    rw [countsBefore, ← drawFrom_append, Fin.getElem_fin, ← List.drop_eq_getElem_cons k.isLt,
      List.take_append_drop, draw]
  have place : (drawFrom [] (nodes.take k)).length = k := by
    rw [drawFrom_length, List.length_take, Nat.min_eq_left k.isLt.le]
  rw [split, List.getElem?_append_right place.le, place, Nat.sub_self, drawFrom_cons]
  rfl

theorem levels_of_le {depth : Nat} {counts : List Nat} (enough : depth ≤ counts.length) :
    levels depth counts = counts.take depth := by
  rw [levels, Nat.sub_eq_zero_of_le enough, List.replicate_zero, List.append_nil]

theorem levels_succ (depth : Nat) (counts : List Nat) :
    levels (depth + 1) counts = levels depth counts ++ [counts.getD depth 0] := by
  rcases Nat.lt_or_ge depth counts.length with within | outside
  · rw [levels_of_le within, levels_of_le within.le, List.take_succ_eq_append_getElem within,
      List.getD_eq_getElem _ _ within]
  · have missing : depth + 1 - counts.length = depth - counts.length + 1 := by omega
    rw [levels, levels, List.take_of_length_le outside, List.take_of_length_le (by omega), missing,
      List.replicate_succ', List.getD_eq_default _ _ outside, List.append_assoc]

/-- Counts of levels inside of a node do not matter for what it leaves. -/
theorem countsAfter_append {counts more : List Nat} {node : CallNode}
    (shallow : node.depth ≤ counts.length) :
    countsAfter (counts ++ more) node = countsAfter counts node := by
  cases level : node.depth with
  | zero => simp [countsAfter, level]
  | succ parent =>
    have within : parent < counts.length := by omega
    have enough : parent ≤ (counts ++ more).length := by
      rw [List.length_append]
      omega
    simp only [countsAfter, level, levels_of_le enough, levels_of_le within.le,
      List.take_append_of_le_length within.le, List.getD_append _ _ _ _ within]

theorem countsAfter_of_depth_eq {counts : List Nat} {count : Nat} {node : CallNode}
    (level : node.depth = counts.length + 1) :
    countsAfter (counts ++ [count + 1]) node = counts ++ [count] ++ [node.children] := by
  simp [countsAfter, level, levels_of_le]

/-! ## What is to come -/

/-- The list goes on with as many trees at each level as the counts say, from the inside out, and
then with some trees at the outermost one. -/
inductive Remains : List Nat → List CallNode → Prop
  | roots {count : Nat} {nodes : List CallNode} (trees : InPreorder 0 count nodes) :
      Remains [] nodes
  | level {counts : List Nat} {count : Nat} {inner rest : List CallNode}
      (trees : InPreorder (counts.length + 1) count inner) (outer : Remains counts rest) :
      Remains (counts ++ [count]) (inner ++ rest)

theorem Remains.next {counts : List Nat} {node : CallNode} {rest : List CallNode}
    (remains : Remains counts (node :: rest)) :
    node.depth ≤ counts.length ∧ Remains (countsAfter counts node) rest := by
  generalize all : node :: rest = nodes at remains
  induction remains with
  | roots trees =>
    cases trees with
    | none => cases all
    | tree level inner more =>
      cases all
      have none : countsAfter [] node = [node.children] := by simp [countsAfter, level]
      have after : Remains ([] ++ [node.children]) _ := .level inner (.roots more)
      rw [none]
      exact ⟨Nat.le_of_eq level, after⟩
  | @level counts count inner rest' trees outer ih =>
    cases trees with
    | none =>
      -- the innermost level is done, so the node belongs to the next one
      obtain ⟨shallow, after⟩ := ih all
      rw [countsAfter_append shallow, List.length_append]
      exact ⟨Nat.le_add_right_of_le shallow, after⟩
    | tree level below beside =>
      rw [List.cons_append, List.append_assoc] at all
      cases all
      rw [countsAfter_of_depth_eq level]
      refine ⟨?_, .level ?_ (.level beside outer)⟩
      · rw [level, List.length_append, List.length_singleton]
      · rwa [List.length_append, List.length_singleton]

/-- The count of a level is not zero where the list goes on at that level before it leaves it. -/
theorem Remains.pos_iff {counts : List Nat} {rest : List CallNode} (remains : Remains counts rest)
    {level : Nat} (within : level < counts.length) :
    0 < counts.getD level 0 ↔ Resumes (level + 1) rest := by
  induction remains with
  | roots trees => exact absurd within (Nat.not_lt_zero level)
  | @level counts count inner rest trees outer ih =>
    rw [List.length_append, List.length_singleton] at within
    rcases Nat.lt_or_eq_of_le (Nat.le_of_lt_succ within) with further | rfl
    · have deeper : ∀ node ∈ inner, level + 1 < node.depth := by
        intro node mem
        exact Nat.lt_of_lt_of_le (Nat.succ_lt_succ further) (trees.depth_le node mem)
      rw [resumes_append_iff deeper, ← ih further, List.getD_append _ _ _ _ further]
    · cases trees with
      | none =>
        have notResumed : ¬Resumes (counts.length + 1) rest := by
          cases rest with
          | nil => exact id
          | cons node rest =>
            have shallow := outer.next.1
            rintro (here | ⟨deep, -⟩)
            · omega
            · omega
        simpa using notResumed
      | tree here _ _ => exact iff_of_true (by simp) (.inl here)

/-- What holds of the counts before some nodes holds after them. -/
theorem Remains.foldl {counts : List Nat} {before rest : List CallNode}
    (remains : Remains counts (before ++ rest)) :
    Remains (before.foldl countsAfter counts) rest := by
  induction before generalizing counts with
  | nil => exact remains
  | cons node before ih => exact ih remains.next.2

/-! ## Trees in preorder -/

section

variable {count : Nat} {nodes : List CallNode}

theorem remains_drop (trees : InPreorder 0 count nodes) (k : Nat) :
    Remains (countsBefore nodes k) (nodes.drop k) := by
  have all : Remains [] (nodes.take k ++ nodes.drop k) := by
    rw [List.take_append_drop]
    exact .roots trees
  exact all.foldl

theorem remains_next (trees : InPreorder 0 count nodes) (k : Fin nodes.length) :
    nodes[k].depth ≤ (countsBefore nodes k).length
      ∧ Remains (countsAt nodes k) (nodes.drop (k + 1)) := by
  have remains := remains_drop trees k
  rw [List.drop_eq_getElem_cons k.isLt] at remains
  exact remains.next

theorem unbroken (trees : InPreorder 0 count nodes) : Unbroken nodes where
  first within := Nat.le_zero.1 (remains_next trees ⟨0, within⟩).1
  next k within := by
    have shallow := (remains_next trees ⟨k + 1, within⟩).1
    have last : countsBefore nodes (k + 1) = countsAfter (countsBefore nodes k) nodes[k] := by
      rw [countsBefore, ← List.take_append_getElem (Nat.lt_of_succ_lt within), List.foldl_append]
      rfl
    rwa [last, length_countsAfter] at shallow

/-- The line of a node as a reader of the tree would write it: the text of a root stands alone, and
any other node has one connector for each of its ancestors below the root and one of its own. -/
structure Outlines (nodes : List CallNode) (k : Fin nodes.length) (line : String) : Prop where
  root : nodes[k].depth = 0 → line = nodes[k].frame.text
  inner : ∀ parent, nodes[k].depth = parent + 1 →
    ∃ ancestor : Fin parent → Fin nodes.length,
      (∀ (i : Fin parent) j, (IsAncestor nodes j k ∧ nodes[j].depth = i + 1) ↔ j = ancestor i)
        ∧ line = String.join (List.ofFn fun i =>
              if HasLaterSibling nodes (ancestor i) then "| " else "  ")
            ++ (if HasLaterSibling nodes k then "+ " else "` ") ++ nodes[k].frame.text

/-- Whether a node or an ancestor of it has a later sibling can be seen from what follows the
node. -/
theorem hasLaterSibling_iff_pos (trees : InPreorder 0 count nodes) {j k : Fin nodes.length}
    {level : Nat} (here : nodes[j].depth = level + 1) (upTo : j ≤ k)
    (deeper : ∀ l, j < l → l ≤ k → nodes[j].depth < nodes[l].depth) :
    0 < (countsAt nodes k).getD level 0 ↔ HasLaterSibling nodes j := by
  have below : level < nodes[j].depth := here ▸ Nat.lt_succ_self level
  obtain ⟨parent, above, outer⟩ := (unbroken trees).exists_isAncestor j below
  have isParent : IsParent nodes parent j := ⟨above, by rw [here, outer]⟩
  have within : level < (countsAt nodes k).length := by
    rw [length_countsAt]
    rcases upTo.lt_or_eq with before | rfl
    · have := deeper k before le_rfl
      omega
    · omega
  rw [(remains_next trees k).2.pos_iff within, hasLaterSibling_iff isParent upTo deeper, here]

/-- The connectors of the ancestors of a node. -/
theorem map_passing_eq (trees : InPreorder 0 count nodes) {k : Fin nodes.length} {parent : Nat}
    (level : nodes[k].depth = parent + 1) {ancestor : Fin parent → Fin nodes.length}
    (above : ∀ i, IsAncestor nodes (ancestor i) k)
    (depth_ancestor : ∀ i : Fin parent, nodes[ancestor i].depth = i + 1) :
    ((countsAt nodes k).take parent).map passing
      = List.ofFn fun i => if HasLaterSibling nodes (ancestor i) then "| " else "  " := by
  have enough : parent ≤ (countsAt nodes k).length := by
    rw [length_countsAt]
    omega
  refine List.ext_getElem ?_ fun i _ within => ?_
  · rw [List.length_map, List.length_take, List.length_ofFn, Nat.min_eq_left enough]
  · rw [List.length_ofFn] at within
    have later := hasLaterSibling_iff_pos trees (depth_ancestor ⟨i, within⟩)
      (above ⟨i, within⟩).1.le (above ⟨i, within⟩).2
    rw [List.getD_eq_getElem _ _ (within.trans_le enough)] at later
    rw [List.getElem_map, List.getElem_take, List.getElem_ofFn]
    exact if_congr later rfl rfl

/-- The connector of a node itself. -/
theorem branching_eq (trees : InPreorder 0 count nodes) {k : Fin nodes.length} {parent : Nat}
    (level : nodes[k].depth = parent + 1) :
    branching ((countsAt nodes k).getD parent 0)
      = if HasLaterSibling nodes k then "+ " else "` " := by
  have nothingBetween : ∀ l, k < l → l ≤ k → nodes[k].depth < nodes[l].depth :=
    fun l after upTo => absurd after (not_lt.2 upTo)
  exact if_congr (hasLaterSibling_iff_pos trees level le_rfl nothingBetween) rfl rfl

theorem outlines (trees : InPreorder 0 count nodes) (k : Fin nodes.length) :
    Outlines nodes k (lead (countsAt nodes k) nodes[k].depth ++ nodes[k].frame.text) where
  root level := by rw [level, lead, String.empty_append]
  inner parent level := by
    have exists_ancestor (i : Fin parent) :
        ∃ j, IsAncestor nodes j k ∧ nodes[j].depth = i + 1 :=
      (unbroken trees).exists_isAncestor k (by omega)
    choose ancestor above depth_ancestor using exists_ancestor
    refine ⟨ancestor, fun i j => ⟨fun ⟨above', there⟩ => ?_, fun same => ?_⟩, ?_⟩
    · exact above'.eq_of_depth_eq (above i) (there.trans (depth_ancestor i).symm)
    · exact same ▸ ⟨above i, depth_ancestor i⟩
    · rw [level, lead, connectors, map_passing_eq trees level above depth_ancestor,
        branching_eq trees level]

end

/-! ## Any list -/

/-- Drawing with each look-up in the counts checked: there is no drawing when one of them is
outside of the counts. -/
def drawChecked (counts : List Nat) : List CallNode → Option (List String)
  | [] => some []
  | node :: rest =>
      match node.depth with
      | 0 => do
          let lines ← drawChecked [node.children] rest
          return node.frame.text :: lines
      | parent + 1 => do
          let sized := levels (parent + 1) counts
          let toCome ← sized[parent]?
          let lowered := sized.set parent (toCome - 1)
          guard (parent ≤ lowered.length)
          let siblings ← lowered[parent]?
          let lines ← drawChecked (lowered ++ [node.children]) rest
          return (connectors (lowered.take parent) siblings ++ node.frame.text) :: lines

/-- No look-up in the counts is outside of them, whatever the list. -/
theorem drawChecked_eq (counts : List Nat) (nodes : List CallNode) :
    drawChecked counts nodes = some (drawFrom counts nodes) := by
  induction nodes generalizing counts with
  | nil => rfl
  | cons node rest ih =>
    cases level : node.depth with
    | zero => simp [drawChecked, drawFrom, level, ih]
    | succ parent => simp [drawChecked, drawFrom, level, levels_succ, ih]

/-- All walks over a recorded graph give the nodes of one tree, or none. -/
theorem exists_inPreorder {g : CallGraph} (recorded : g.Recorded) (moves : List Stepper.Move)
    (maxDepth : Option Nat) :
    ∃ count ≤ 1, InPreorder 0 count (((Stepper.start g).performAll moves).callTree maxDepth).1 := by
  have placed := (Stepper.placed_start recorded.wellFormed).performAll moves
  cases current : ((Stepper.start g).performAll moves).cursor.current with
  | none =>
    have finished : ((Stepper.start g).performAll moves).cursor.isFinished = true := by
      rw [Cursor.isFinished_iff]
      exact List.head?_eq_none_iff.1 current
    rw [Stepper.callTree, (Stepper.walk_ends_of_finished finished maxDepth).drain_eq]
    exact ⟨0, Nat.zero_le 1, .none 0⟩
  | some here =>
    obtain ⟨nodes, final, shows⟩ := placed.exists_showsVisit current maxDepth
    rw [shows.tree]
    exact ⟨1, le_rfl, shows.preorder⟩

/-- A drawing shows its tree: where the nodes are trees in preorder, each has the line that a reader
of the tree would write.  All walks over a recorded graph give such nodes, no tree or one.  Any list
of nodes is drawn without a look-up outside of the counts, a line to a node, with two characters
before the text for each level above the node. -/
theorem draw_outlines :
    (∀ count nodes, InPreorder 0 count nodes → ∀ k : Fin nodes.length,
        ∃ line, (draw nodes)[(k : Nat)]? = some line ∧ Outlines nodes k line)
      ∧ (∀ g : CallGraph, g.Recorded → ∀ moves maxDepth, ∃ count ≤ 1,
          InPreorder 0 count (((Stepper.start g).performAll moves).callTree maxDepth).1)
      ∧ ∀ nodes, drawChecked [] nodes = some (draw nodes) ∧ (draw nodes).length = nodes.length
          ∧ ∀ k : Fin nodes.length, ∃ before,
            (draw nodes)[(k : Nat)]? = some (before ++ nodes[k].frame.text)
              ∧ before.length = 2 * nodes[k].depth := by
  refine ⟨fun count nodes trees k => ⟨_, draw_getElem? k, outlines trees k⟩,
    fun g recorded moves maxDepth => exists_inPreorder recorded moves maxDepth, fun nodes => ?_⟩
  refine ⟨drawChecked_eq [] nodes, drawFrom_length [] nodes, fun k => ?_⟩
  have enough : nodes[k].depth ≤ (countsAt nodes k).length := by
    rw [length_countsAt]
    exact Nat.le_succ _
  exact ⟨_, draw_getElem? k, length_lead enough⟩

/-- The nodes below the root of a graph in which one template step is reached twice. -/
def sharingTree : List CallNode :=
  ((Stepper.start (Recorder.sharingGraph .full)).callTree none).1

/-- The step that is reached twice is drawn twice, below two calls of which one has a sibling to
come. -/
theorem draw_outlines_sharing :
    InPreorder 0 1 sharingTree
      ∧ (∀ k : Fin sharingTree.length,
          ∃ line, (draw sharingTree)[(k : Nat)]? = some line ∧ Outlines sharingTree k line)
      ∧ draw sharingTree = ["<root>", "` a (TemplateInstantiation)", "  + c (Memoization)",
        "  | ` d (TemplateInstantiation)", "  ` b (TemplateInstantiation)",
        "    ` c (TemplateInstantiation)", "      ` d (TemplateInstantiation)"]
      ∧ (Recorder.sharingGraph .full).Recorded
      ∧ ∃ count ≤ 1, InPreorder 0 count (((Stepper.start (Recorder.sharingGraph .full)).performAll
          [.stepMany 2]).callTree none).1 := by
  have recorded := Recorder.sharingGraph_recorded .full
  obtain ⟨nodes, final, shows⟩ :=
    (Stepper.placed_start recorded.wellFormed).exists_showsVisit (show _ = some .root from rfl) none
  have trees : InPreorder 0 1 sharingTree := by
    rw [sharingTree, shows.tree]
    exact shows.preorder
  have followed : sharingTree
      = (((Stepper.start (Recorder.sharingGraph .full)).walk none).firstNodes
          (Recorder.sharingGraph .full) 8).1 :=
    congrArg Prod.fst (Walk.drain_eq_firstNodes 8 (by decide +kernel))
  obtain ⟨outlined, walks, -⟩ := draw_outlines
  refine ⟨trees, outlined 1 sharingTree trees, ?_, recorded, walks _ recorded [.stepMany 2] none⟩
  rw [followed]
  decide +kernel

end Report

end TemplateTrace
