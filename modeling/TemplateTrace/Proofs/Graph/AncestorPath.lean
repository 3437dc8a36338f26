import TemplateTrace.Proofs.Graph.Visiting
set_option autoImplicit false

/-!
# The path of a walk

A walk that looks for cycles holds no parents of its nodes.  The positions it has visited and their
depths alone say what the ancestors of a node are (`Walk.ancestors`), and the path is kept to be
their vertices: whatever moves were made over a recorded graph in full mode, right after any node
has been visited, the path holds the vertices of the ancestors from the start down and then, unless
the node closes a cycle, the vertex of the node, and each edge that waits leaves a vertex of the
path, at the place that its depth gives (`Stepper.walk_guarded`).

The invariant of a walk between two visits is `Walk.Follows`; a visit needs the part of it that is
left once the path has been cut back (`Walk.Ready`).
-/

namespace TemplateTrace

namespace CallGraph

/-! ## Descending -/

/-- Some positions lead down from a start, each called from the vertex of the one before it. -/
def Descends (g : CallGraph) (start : Position) (chain : List Position) : Prop :=
  ∃ es, g.IsPath (g.vertexAt start) es ∧ chain = start :: es.map .edge

variable {g : CallGraph} {start : Position} {chain : List Position}

theorem descends_singleton (g : CallGraph) (start : Position) : g.Descends start [start] :=
  ⟨[], trivial, rfl⟩

theorem Descends.take (descends : g.Descends start chain) (k : Nat) :
    g.Descends start (chain.take (k + 1)) := by
  obtain ⟨es, path, rfl⟩ := descends
  refine ⟨es.take k, ?_, by rw [List.take_succ_cons, List.map_take]⟩
  rw [← List.take_append_drop k es, isPath_append] at path
  exact path.1

theorem Descends.snoc (descends : g.Descends start chain) (wf : g.WellFormed) {last : Position}
    {e : EdgeId} (ends : chain.getLast? = some last) (called : e ∈ g.enabledOut (g.vertexAt last)) :
    g.Descends start (chain ++ [.edge e]) := by
  obtain ⟨es, path, rfl⟩ := descends
  obtain ⟨enabled, source⟩ := (wf.mem_enabledOut _ e).1 called
  have last_eq : endOf start es = last := by
    rw [List.getLast?_cons, List.getLast?_map, Option.some.injEq] at ends
    rw [← ends, endOf]
    cases es.getLast? <;> rfl
  refine ⟨es ++ [e], (isPath_snoc_iff start).2 ⟨path, enabled, last_eq ▸ source⟩, ?_⟩
  rw [List.map_append, List.cons_append]
  rfl

/-- An edge waits below a chain of positions: its depth is the place behind a position of the chain
that calls it. -/
def Awaits (g : CallGraph) (chain : List Position) (wait : EdgeId × Nat) : Prop :=
  ∃ k last, wait.2 = k + 1 ∧ chain[k]? = some last ∧ wait.1 ∈ g.enabledOut (g.vertexAt last)

theorem Awaits.le_length {wait : EdgeId × Nat} (awaits : g.Awaits chain wait) :
    0 < wait.2 ∧ wait.2 ≤ chain.length := by
  obtain ⟨k, last, depth, found, -⟩ := awaits
  obtain ⟨within, -⟩ := List.getElem?_eq_some_iff.1 found
  omega

/-- Positions that are as far down and further are of no account. -/
theorem Awaits.congr {other : List Position} {wait : EdgeId × Nat} (awaits : g.Awaits chain wait)
    {depth : Nat} (shallow : wait.2 ≤ depth) (same : other.take depth = chain.take depth) :
    g.Awaits other wait := by
  obtain ⟨k, last, deep, found, called⟩ := awaits
  refine ⟨k, last, deep, ?_, called⟩
  have above : k < depth := by omega
  rw [← List.getElem?_take_of_lt above, same, List.getElem?_take_of_lt above, found]

end CallGraph

namespace Walk

/-! ## Ancestors -/

/-- A position that a walk has visited at some depth, and whether that was found to close a
cycle. -/
structure Visit where
  here : Position
  depth : Nat
  cyclic : Bool
  deriving DecidableEq, Repr

/-- The ancestors, from the start down, of a node of some depth that is visited after others, the
last one of these first: its parent is the last one at a lesser depth. -/
def ancestors : List Visit → Nat → List Position
  | [], _ => []
  | visit :: earlier, depth =>
      if visit.depth < depth then ancestors earlier visit.depth ++ [visit.here]
      else ancestors earlier depth

theorem ancestors_of_lt {visit : Visit} {depth : Nat} (above : visit.depth < depth)
    (earlier : List Visit) :
    ancestors (visit :: earlier) depth = ancestors earlier visit.depth ++ [visit.here] :=
  if_pos above

theorem ancestors_of_le {visit : Visit} {depth : Nat} (beside : depth ≤ visit.depth)
    (earlier : List Visit) : ancestors (visit :: earlier) depth = ancestors earlier depth :=
  if_neg (Nat.not_lt.2 beside)

theorem length_ancestors_le (visits : List Visit) (depth : Nat) :
    (ancestors visits depth).length ≤ depth := by
  induction visits generalizing depth with
  | nil => exact Nat.zero_le _
  | cons visit earlier ih =>
    rcases Nat.lt_or_ge visit.depth depth with above | beside
    · rw [ancestors_of_lt above, List.length_append]
      exact Nat.succ_le_of_lt (Nat.lt_of_le_of_lt (ih _) above)
    · rw [ancestors_of_le beside]
      exact ih depth

/-- Where no depth is passed over, the ancestors of a node that is less deep are the first ones. -/
theorem ancestors_take {visits : List Visit} {deep depth : Nat}
    (whole : (ancestors visits deep).length = deep) (shallow : depth ≤ deep) :
    ancestors visits depth = (ancestors visits deep).take depth := by
  induction visits generalizing deep with
  | nil => rw [ancestors, ancestors, List.take_nil]
  | cons visit earlier ih =>
    rcases Nat.lt_or_ge visit.depth deep with above | beside
    · rw [ancestors_of_lt above] at whole ⊢
      rw [List.length_append, List.length_singleton] at whole
      have less := length_ancestors_le earlier visit.depth
      have wholeAbove : (ancestors earlier visit.depth).length = visit.depth := by omega
      rcases Nat.lt_or_ge visit.depth depth with new | old
      · rw [ancestors_of_lt new, List.take_of_length_le]
        rw [List.length_append, List.length_singleton]
        omega
      · rw [ancestors_of_le old, ih wholeAbove old, List.take_append_of_le_length]
        omega
    · rw [ancestors_of_le beside] at whole ⊢
      rw [ancestors_of_le (Nat.le_trans shallow beside)]
      exact ih whole shallow

/-! ## The invariant -/

/-- A walk without a limit, after some visits, beside a chain of ancestors that no depth is missing
from: what waits is called from the chain, the deepest first, and a cycle was reported if some visit
closed one. -/
structure Tracks (w : Walk) (g : CallGraph) (visits : List Visit) (chain : List Position) :
    Prop where
  limit : w.maxDepth = none
  size : w.discovered.size = g.vertices.size
  whole : ancestors visits chain.length = chain
  awaits : ∀ wait ∈ w.pending, g.Awaits chain wait
  deepestFirst : w.pending.Pairwise fun a b => b.2 ≤ a.2
  reported : w.cycleDetected = true ↔ ∃ visit ∈ visits, visit.cyclic = true

/-- Between two visits: the path holds the vertices of the chain, which leads down from the
start. -/
structure Follows (w : Walk) (g : CallGraph) (start : Position) (visits : List Visit)
    (chain : List Position) : Prop extends w.Tracks g visits chain where
  path : w.OnPath g (chain.map g.vertexAt)
  descends : g.Descends start chain

/-- Before the visit of a position: the chain leads down to the position, and the path may go on
behind the chain. -/
structure Ready (w : Walk) (g : CallGraph) (start : Position) (visits : List Visit)
    (above : List Position) (here : Position) : Prop extends w.Tracks g visits above where
  path : ∃ beyond, w.OnPath g (above.map g.vertexAt ++ beyond)
  descends : g.Descends start (above ++ [here])
  within : (g.vertexAt here).index < g.vertices.size

variable {w : Walk} {g : CallGraph} {start here : Position} {visits : List Visit}
  {above chain : List Position}

/-- Before the next visit, the path goes back to the position that calls what waits first. -/
theorem Follows.ready (follows : w.Follows g start visits chain) (wf : g.WellFormed) {e : EdgeId}
    {depth : Nat} {later : List (EdgeId × Nat)} (waits : w.pending = (e, depth) :: later) :
    depth ≤ chain.length
      ∧ Ready { w with pending := later } g start visits (chain.take depth) (.edge e) := by
  have first := follows.awaits (e, depth) (waits ▸ List.mem_cons_self)
  have shallow : depth ≤ chain.length := first.le_length.2
  have length : (chain.take depth).length = depth := List.length_take_of_le shallow
  have order := follows.deepestFirst
  rw [waits, List.pairwise_cons] at order
  obtain ⟨k, last, rfl, found, called⟩ := first
  have ends : (chain.take (k + 1)).getLast? = some last := by
    rw [List.getLast?_take]
    simp [found]
  have tracks : Tracks { w with pending := later } g visits (chain.take (k + 1)) := by
    refine ⟨follows.limit, follows.size, ?_, ?_, order.2, follows.reported⟩
    · have whole : (ancestors visits chain.length).length = chain.length := by rw [follows.whole]
      rw [length, ancestors_take whole shallow, follows.whole]
    · intro wait mem
      refine (follows.awaits wait (waits ▸ List.mem_cons_of_mem _ mem)).congr (order.1 wait mem) ?_
      rw [List.take_take, Nat.min_self]
  refine ⟨shallow, tracks, ⟨(chain.drop (k + 1)).map g.vertexAt, ?_⟩,
    (follows.descends.take k).snoc wf ends called, ?_⟩
  · rw [← List.map_append, List.take_append_drop]
    exact follows.path.congr rfl rfl
  · exact wf.callee_lt (List.mem_map_of_mem (List.mem_reverse.2 called))

/-- The visit of a position at some depth, as the path tells it. -/
def visitOf (w : Walk) (g : CallGraph) (here : Position) (depth : Nat) : Visit where
  here := here
  depth := depth
  cyclic := (w.enterPath g (g.vertexAt here) depth).1

/-- The path of the vertices down to a position, the vertex of a position that closes a cycle not
being put on it again. -/
def chainTo (above : List Position) (visit : Visit) : List Position :=
  if visit.cyclic then above else above ++ [visit.here]

theorem Ready.stands (ready : w.Ready g start visits above here) :
    w.Stands g none (above.map g.vertexAt).reverse w.discovered where
  limit := ready.limit
  discovered := rfl
  size := ready.size
  path _ := by
    rw [List.reverse_reverse]
    exact ready.path

/-- The vertex of a position closes a cycle if it is the vertex of an ancestor. -/
theorem Ready.cyclic_iff (ready : w.Ready g start visits above here) (full : g.mode = .full) :
    (w.visitOf g here above.length).cyclic = true
      ↔ g.vertexAt here ∈ above.map g.vertexAt := by
  have repeats := (ready.stands.entered ready.within).repeats
  rw [List.length_reverse, List.length_map] at repeats
  refine repeats.trans ((and_iff_right ⟨full, rfl⟩).trans ?_)
  exact List.mem_reverse

theorem Ready.entered_path (ready : w.Ready g start visits above here) (full : g.mode = .full) :
    (w.enterPath g (g.vertexAt here) above.length).2.OnPath g
      ((chainTo above (w.visitOf g here above.length)).map g.vertexAt) := by
  have path := (ready.stands.entered ready.within).path ⟨full, rfl⟩
  rw [List.length_reverse, List.length_map, List.reverse_reverse] at path
  have cyclic := ready.cyclic_iff full
  rw [← List.mem_reverse] at cyclic
  unfold chainTo
  by_cases mem : g.vertexAt here ∈ (above.map g.vertexAt).reverse
  · rw [if_pos mem] at path
    rw [if_pos (cyclic.2 mem)]
    exact path
  · rw [if_neg mem] at path
    rw [if_neg (mt cyclic.1 mem), List.map_append]
    exact path

theorem Ready.reported_visit (ready : w.Ready g start visits above here) :
    (w.visit g here above.length).cycleDetected = true
      ↔ ∃ visit ∈ w.visitOf g here above.length :: visits, visit.cyclic = true := by
  have cycle := (ready.stands.entered ready.within).cycle
  have repeats := (ready.stands.entered ready.within).repeats
  rw [List.length_reverse, List.length_map] at cycle repeats
  rw [List.exists_mem_cons_iff, ← ready.reported]
  exact cycle.trans ((or_congr_right repeats.symm).trans or_comm)

theorem take_chainTo (above : List Position) (visit : Visit) :
    (chainTo above visit).take above.length = above.take above.length := by
  unfold chainTo
  split
  · rfl
  · rw [List.take_left, List.take_length]

theorem Ready.awaits_visit (ready : w.Ready g start visits above here) {wait : EdgeId × Nat}
    (mem : wait ∈ (w.visit g here above.length).pending) :
    g.Awaits (chainTo above (w.visitOf g here above.length)) wait := by
  rw [visit_pending] at mem
  rcases List.mem_append.1 mem with new | old
  · obtain ⟨expands, -, depth, called⟩ := mem_below new
    have opened : (w.visitOf g here above.length).cyclic = false := by
      simpa [visitOf] using (Bool.and_eq_true_iff.1 expands).2
    refine ⟨above.length, here, depth, ?_, called⟩
    rw [chainTo, opened]
    exact List.getElem?_concat_length
  · have awaits := ready.awaits wait old
    exact awaits.congr awaits.le_length.2 (take_chainTo above _)

theorem Ready.deepestFirst_visit (ready : w.Ready g start visits above here) :
    (w.visit g here above.length).pending.Pairwise fun a b => b.2 ≤ a.2 := by
  have level : ∀ wait ∈ w.below g (g.vertexAt here) above.length (w.expands g here above.length),
      wait.2 = above.length + 1 := fun wait mem => (mem_below mem).2.2.1
  rw [visit_pending, List.pairwise_append]
  refine ⟨List.pairwise_of_forall_mem_list fun a memA b memB => ?_, ready.deepestFirst, ?_⟩
  · rw [level a memA, level b memB]
  · intro a memA b memB
    rw [level a memA]
    exact Nat.le_succ_of_le (ready.awaits b memB).le_length.2

/-- A visit leaves a walk whose path leads down to the position. -/
theorem Ready.visit (ready : w.Ready g start visits above here) (full : g.mode = .full) :
    (w.visit g here above.length).Follows g start (w.visitOf g here above.length :: visits)
      (chainTo above (w.visitOf g here above.length)) where
  limit := (w.visit_maxDepth g here above.length).trans ready.limit
  size := (w.visit_discovered_size g here above.length).trans ready.size
  path := (ready.entered_path full).congr rfl rfl
  whole := by
    have depth : (w.visitOf g here above.length).depth = above.length := rfl
    unfold chainTo
    split
    · rw [ancestors_of_le (Nat.le_of_eq depth.symm), ready.whole]
    · rw [List.length_append, List.length_singleton,
        ancestors_of_lt (Nat.lt_succ_of_le (Nat.le_of_eq depth)), depth, ready.whole]
  descends := by
    unfold chainTo
    split
    · next cyclic =>
      obtain ⟨p, mem, -⟩ := List.mem_map.1 ((ready.cyclic_iff full).1 cyclic)
      obtain ⟨k, length⟩ := Nat.exists_eq_succ_of_ne_zero
        (Nat.ne_of_gt (List.length_pos_of_mem mem))
      have cut := ready.descends.take k
      rwa [← Nat.succ_eq_add_one, ← length, List.take_left] at cut
    · exact ready.descends
  awaits wait mem := ready.awaits_visit mem
  deepestFirst := ready.deepestFirst_visit
  reported := ready.reported_visit

/-! ## What a visit leaves -/

/-- What holds right after a walk that looks for cycles has visited a position.  Its path and the
marks beside it are the same set of vertices; the first ones are those of the ancestors of the node,
and the vertex of the node is the next and last one unless the node closes a cycle, which it does if
its vertex is that of an ancestor.  Each edge that waits leaves the vertex at the place before its
depth. -/
structure Guarded (w : Walk) (g : CallGraph) (start : Position) (last : Visit)
    (earlier : List Visit) : Prop where
  node : ∃ children, w.current = some ⟨g.frameAt last.here, last.depth, children⟩
  distinct : w.path.toList.Nodup
  marks : ∀ v, w.isOnPath v = true ↔ v ∈ w.path.toList
  depth : (ancestors earlier last.depth).length = last.depth
  descends : g.Descends start (ancestors earlier last.depth ++ [last.here])
  above : w.path.toList.take last.depth = (ancestors earlier last.depth).map g.vertexAt
  opened : last.cyclic = false →
    w.path.size = last.depth + 1 ∧ w.path.toList.getLast? = some (g.vertexAt last.here)
  closed : last.cyclic = true → w.path.size = last.depth
  cyclic : last.cyclic = true
    ↔ g.vertexAt last.here ∈ (ancestors earlier last.depth).map g.vertexAt
  reported : w.cycleDetected = true ↔ ∃ visit ∈ last :: earlier, visit.cyclic = true
  awaits : ∀ e depth, (e, depth) ∈ w.pending →
    0 < depth ∧ depth ≤ w.path.size ∧ w.path[depth - 1]? = some (g.edge e).source

/-- What waits leaves the vertex of the path that is the place before its depth. -/
theorem Follows.source (follows : w.Follows g start visits chain) (wf : g.WellFormed) {e : EdgeId}
    {depth : Nat} (waits : (e, depth) ∈ w.pending) :
    0 < depth ∧ depth ≤ w.path.size ∧ w.path[depth - 1]? = some (g.edge e).source := by
  have awaits := follows.awaits (e, depth) waits
  have size : w.path.size = chain.length := by
    rw [← Array.length_toList, follows.path.path, List.length_map]
  obtain ⟨pos, le⟩ := awaits.le_length
  obtain ⟨k, last, rfl, found, called⟩ := awaits
  have source := ((wf.mem_enabledOut _ e).1 called).2
  refine ⟨pos, size ▸ le, ?_⟩
  rw [Nat.add_sub_cancel, ← Array.getElem?_toList, follows.path.path, List.getElem?_map, found,
    source]
  rfl

theorem Ready.guarded (ready : w.Ready g start visits above here) (wf : g.WellFormed)
    (full : g.mode = .full) :
    (w.visit g here above.length).Guarded g start (w.visitOf g here above.length) visits := by
  have follows := ready.visit full
  have path := follows.path.path
  have whole : ancestors visits (w.visitOf g here above.length).depth = above := ready.whole
  exact
    { node := ⟨_, rfl⟩
      distinct := path ▸ follows.path.nodup
      marks := path ▸ follows.path.marks
      depth := congrArg List.length whole
      descends := by
        rw [whole]
        exact ready.descends
      above := by
        rw [path, whole, ← List.map_take]
        exact congrArg _ ((take_chainTo above _).trans List.take_length)
      opened := by
        intro opened
        have ends : chainTo above (w.visitOf g here above.length) = above ++ [here] := by
          rw [chainTo, opened]
          rfl
        rw [← Array.length_toList, path, ends, List.map_append, List.length_append,
          List.length_map, List.getLast?_append]
        exact ⟨rfl, rfl⟩
      closed := by
        intro closed
        rw [← Array.length_toList, path, chainTo, if_pos closed, List.length_map]
        rfl
      cyclic := by
        rw [whole]
        exact ready.cyclic_iff full
      reported := follows.reported
      awaits := fun _ _ => follows.source wf }

end Walk

namespace Stepper

/-! ## Draining -/

/-- The walk from the current position, without a limit, right after each of its visits, with the
visits so far, the last one first. -/
inductive Drains (s : Stepper) : List Walk.Visit → Walk → Prop
  | first {here : Position} (current : s.cursor.current = some here) :
      Drains s [(Walk.blank none s.cursor.discovered).visitOf s.graph here 0] (s.walk none)
  | next {visits : List Walk.Visit} {w after : Walk} {node : CallNode} {e : EdgeId} {depth : Nat}
      {later : List (EdgeId × Nat)} (drains : Drains s visits w)
      (waits : w.pending = (e, depth) :: later) (taken : w.next s.graph = some (node, after)) :
      Drains s (({ w with pending := later } : Walk).visitOf s.graph (.edge e) depth :: visits)
        after

variable {s : Stepper} {here : Position} {visits : List Walk.Visit} {w : Walk}

/-- A walk that has not begun is ready to visit the current position. -/
theorem Placed.ready (placed : s.Placed) (full : s.graph.mode = .full)
    (current : s.cursor.current = some here) :
    (Walk.blank none s.cursor.discovered).Ready s.graph here [] [] here where
  limit := rfl
  size := placed.cursor.fits.discovered
  path := (Walk.stands_blank s.graph none placed.cursor.fits.discovered).path ⟨full, rfl⟩
  whole := rfl
  descends := s.graph.descends_singleton here
  within := placed.within current
  awaits _ mem := nomatch mem
  deepestFirst := .nil
  reported := by simp [Walk.blank, Walk.ended]

theorem Placed.follows_of_drains (placed : s.Placed) (full : s.graph.mode = .full)
    (current : s.cursor.current = some here) (drains : s.Drains visits w) :
    ∃ last earlier chain, visits = last :: earlier ∧ w.Guarded s.graph here last earlier
      ∧ w.Follows s.graph here visits chain := by
  induction drains with
  | first now =>
    obtain rfl : _ = here := Option.some.inj (now.symm.trans current)
    have ready := placed.ready full current
    rw [walk_eq_visit none current]
    exact ⟨_, _, _, rfl, ready.guarded placed.graph full, ready.visit full⟩
  | @next visits w after node e depth later _ waits taken ih =>
    obtain ⟨last, earlier, chain, -, guarded, follows⟩ := ih
    obtain ⟨children, shown⟩ := guarded.node
    rw [Walk.next_of_waits s.graph shown waits, Option.some.injEq, Prod.mk.injEq] at taken
    obtain ⟨-, rfl⟩ := taken
    obtain ⟨shallow, ready⟩ := follows.ready placed.graph waits
    have guardedNext := ready.guarded placed.graph full
    have followsNext := ready.visit full
    rw [List.length_take_of_le shallow] at guardedNext followsNext
    exact ⟨_, _, _, rfl, guardedNext, followsNext⟩

/-- A walk that goes on from right after a visit until it has some node again makes one more visit
for each node that it yields. -/
theorem Placed.exists_drains_of_yields (placed : s.Placed) (full : s.graph.mode = .full)
    (current : s.cursor.current = some here) {last : Walk.Visit} {earlier : List Walk.Visit}
    {final : Walk} {nodes : List CallNode} (yields : w.Yields s.graph nodes final)
    (drains : s.Drains (last :: earlier) w) (stands : final.current.isSome = true) :
    ∃ last' earlier', s.Drains (last' :: earlier') final
      ∧ earlier'.reverse.map (fun visit => (s.graph.frameAt visit.here, visit.depth))
        = earlier.reverse.map (fun visit => (s.graph.frameAt visit.here, visit.depth))
          ++ nodes.map fun node => (node.frame, node.depth) := by
  induction yields generalizing last earlier with
  | stop w => exact ⟨last, earlier, drains, (List.append_nil _).symm⟩
  | @next w after final node nodes step more ih =>
    obtain ⟨_, _, chain, same, guarded, -⟩ := placed.follows_of_drains full current drains
    obtain ⟨rfl, rfl⟩ := List.cons.inj same
    obtain ⟨children, shown⟩ := guarded.node
    cases waits : w.pending with
    | nil =>
      -- the walk is at its end, and nothing is its current node
      rw [Walk.next_of_nothing s.graph shown waits, Option.some.injEq, Prod.mk.injEq] at step
      obtain ⟨-, rfl⟩ := step
      cases more with
      | stop => cases stands
      | next again => cases again
    | cons wait later =>
      have node_eq : node = ⟨s.graph.frameAt last.here, last.depth, children⟩ := by
        rw [Walk.next_of_waits s.graph shown waits, Option.some.injEq, Prod.mk.injEq] at step
        exact step.1.symm
      obtain ⟨last', earlier', drained, listed⟩ := ih (drains.next waits step) stands
      refine ⟨last', earlier', drained, ?_⟩
      rw [listed, List.reverse_cons, List.map_append, List.append_assoc, node_eq]
      rfl

/-- Whatever moves were made over a recorded graph in full mode, a walk without a limit from the
current position is guarded by its path right after each of its visits, and each point of the walk
at which it has a node comes right after some visits, which are those of the nodes it has yielded
and of this one. -/
theorem walk_guarded {g : CallGraph} (recorded : g.Recorded) (full : g.mode = .full)
    (moves : List Move) {here : Position}
    (current : ((start g).performAll moves).cursor.current = some here) :
    (∀ visits w, ((start g).performAll moves).Drains visits w →
        ∃ last earlier, visits = last :: earlier
          ∧ w.Guarded ((start g).performAll moves).graph here last earlier)
      ∧ ∀ nodes w, (((start g).performAll moves).walk none).Yields
          ((start g).performAll moves).graph nodes w → w.current.isSome = true →
        ∃ last earlier, ((start g).performAll moves).Drains (last :: earlier) w
          ∧ nodes.map (fun node => (node.frame, node.depth)) = earlier.reverse.map fun visit =>
            (((start g).performAll moves).graph.frameAt visit.here, visit.depth) := by
  have placed := (placed_start recorded.wellFormed).performAll moves
  have mode : ((start g).performAll moves).graph.mode = .full :=
    (performAll_mode (start g) moves).trans full
  constructor
  · intro visits w drains
    obtain ⟨last, earlier, -, rfl, guarded, -⟩ := placed.follows_of_drains mode current drains
    exact ⟨last, earlier, rfl, guarded⟩
  · intro nodes w yields stands
    obtain ⟨last, earlier, drains, listed⟩ :=
      placed.exists_drains_of_yields mode current yields (.first current) stands
    exact ⟨last, earlier, drains, listed.symm⟩

/-- A step that reaches itself and then a macro: the path goes back from the macro to the step,
which closes a cycle below itself and is not put on the path again. -/
theorem walk_guarded_recursion :
    (Recorder.recursionGraph .full).Recorded ∧ (Recorder.recursionGraph .full).mode = .full
      ∧ ((start (Recorder.recursionGraph .full)).performAll [.step]).cursor.current
        = some (.edge ⟨0⟩)
      ∧ ∃ w : Walk, w.path = #[⟨1⟩]
        ∧ w.Guarded ((start (Recorder.recursionGraph .full)).performAll [.step]).graph (.edge ⟨0⟩)
          ⟨.edge ⟨1⟩, 1, true⟩ [⟨.edge ⟨2⟩, 1, false⟩, ⟨.edge ⟨0⟩, 0, false⟩] := by
  have recorded := Recorder.recursionGraph_recorded .full
  have current : ((start (Recorder.recursionGraph .full)).performAll [.step]).cursor.current
      = some (.edge ⟨0⟩) := rfl
  have drains := Drains.next (.next (.first current) rfl rfl) rfl rfl
  obtain ⟨last, earlier, same, guarded⟩ :=
    (walk_guarded recorded rfl [.step] current).1 _ _ drains
  obtain ⟨rfl, rfl⟩ := List.cons.inj same
  exact ⟨recorded, rfl, current, _, by decide, guarded⟩

end Stepper

end TemplateTrace
