import TemplateTrace.Proofs.Graph.Exploration
set_option autoImplicit false

/-!
# What a walk yields

A walk yields the nodes of the exploration it stands for, one at a time (`exists_walk_ends`).
Between two nodes it holds the marks of the exploration, the positions that wait at all depths and,
where it looks for cycles, the ancestors of the waiting positions as the beginning of its path
(`Walk.Stands`).
-/

namespace TemplateTrace

namespace Walk

/-! ## The path -/

/-- The path of a walk is some chain of vertices, and just these are marked as being on it. -/
structure OnPath (w : Walk) (g : CallGraph) (chain : List VertexId) : Prop where
  path : w.path.toList = chain
  nodup : chain.Nodup
  within : ∀ v ∈ chain, v.index < g.vertices.size
  marks : ∀ v, w.isOnPath v = true ↔ v ∈ chain

namespace OnPath

variable {w : Walk} {g : CallGraph} {chain : List VertexId}

/-- Nothing but the path and its marks is looked at. -/
theorem congr {other : Walk} (holds : w.OnPath g chain) (path : other.path = w.path)
    (onPath : other.onPath = w.onPath) : other.OnPath g chain where
  path := path ▸ holds.path
  nodup := holds.nodup
  within := holds.within
  marks v := by
    rw [isOnPath, onPath]
    exact holds.marks v

theorem cut (holds : w.OnPath g chain) (depth : Nat) :
    (w.cutPath depth).OnPath g (chain.take depth) where
  path := by rw [cutPath_path, holds.path]
  nodup := holds.nodup.sublist (List.take_sublist depth chain)
  within v mem := holds.within v (List.mem_of_mem_take mem)
  marks v := by
    have distinct : (chain.take depth ++ chain.drop depth).Nodup := by
      rw [List.take_append_drop]
      exact holds.nodup
    have split : v ∈ chain ↔ v ∈ chain.take depth ∨ v ∈ chain.drop depth := by
      rw [← List.mem_append, List.take_append_drop]
    rw [isOnPath_cutPath, holds.path, holds.marks, split]
    constructor
    · rintro ⟨left, kept | dropped⟩
      · exact kept
      · exact absurd dropped left
    · intro kept
      exact ⟨fun dropped => (List.nodup_append.1 distinct).2.2 v kept v dropped rfl, .inl kept⟩

theorem extend (holds : w.OnPath g chain) {v : VertexId} (fresh : v ∉ chain)
    (within : v.index < g.vertices.size) (room : v.index < w.onPath.size) :
    (w.extendPath v).OnPath g (chain ++ [v]) where
  path := by rw [extendPath, Array.toList_push, holds.path]
  nodup := by
    rw [← List.concat_eq_append, List.nodup_concat]
    exact ⟨fresh, holds.nodup⟩
  within u mem := by
    rcases List.mem_append.1 mem with old | new
    · exact holds.within u old
    · rw [List.mem_singleton.1 new]
      exact within
  marks u := by
    rw [isOnPath_extendPath, holds.marks, List.mem_append, List.mem_singleton, and_iff_left room,
      or_comm]

end OnPath

/-! ## Between two nodes -/

/-- A walk stands in an exploration, between two positions that have the same ancestors. -/
structure Stands (w : Walk) (g : CallGraph) (maxDepth : Option Nat) (above : List VertexId)
    (seen : Array Bool) : Prop where
  limit : w.maxDepth = maxDepth
  discovered : w.discovered = seen
  size : seen.size = g.vertices.size
  path : g.Guards maxDepth → ∃ beyond, w.OnPath g (above.reverse ++ beyond)

/-- The waiting positions are no part of where a walk stands. -/
theorem Stands.withPending {w : Walk} {g : CallGraph} {maxDepth : Option Nat}
    {above : List VertexId} {seen : Array Bool} (stands : w.Stands g maxDepth above seen)
    (pending : List (EdgeId × Nat)) : Stands { w with pending } g maxDepth above seen where
  limit := stands.limit
  discovered := stands.discovered
  size := stands.size
  path guards := by
    obtain ⟨beyond, holds⟩ := stands.path guards
    exact ⟨beyond, holds.congr rfl rfl⟩

/-- Fewer ancestors are the beginning of the path as well. -/
theorem Stands.pop {w : Walk} {g : CallGraph} {maxDepth : Option Nat} {v : VertexId}
    {above : List VertexId} {seen : Array Bool} (stands : w.Stands g maxDepth (v :: above) seen) :
    w.Stands g maxDepth above seen where
  limit := stands.limit
  discovered := stands.discovered
  size := stands.size
  path guards := by
    obtain ⟨beyond, holds⟩ := stands.path guards
    refine ⟨v :: beyond, ?_⟩
    rwa [List.reverse_cons, List.append_assoc] at holds

section Visit

variable {w : Walk} {g : CallGraph} {maxDepth : Option Nat} {above : List VertexId}
  {seen : Array Bool}

theorem Stands.guardsCycles_iff (stands : w.Stands g maxDepth above seen) :
    w.guardsCycles g = true ↔ g.Guards maxDepth := by
  unfold guardsCycles CallGraph.Guards
  rw [stands.limit]
  simp

/-- What moving the path to a vertex comes to. -/
structure Entered (w : Walk) (g : CallGraph) (maxDepth : Option Nat) (above : List VertexId)
    (v : VertexId) (entered : Bool × Walk) : Prop where
  repeats : entered.1 = true ↔ g.Repeats maxDepth above v
  cycle : entered.2.cycleDetected = true ↔ w.cycleDetected = true ∨ g.Repeats maxDepth above v
  path : g.Guards maxDepth →
    entered.2.OnPath g (if v ∈ above then above.reverse else above.reverse ++ [v])

theorem Stands.entered (stands : w.Stands g maxDepth above seen) {v : VertexId}
    (within : v.index < g.vertices.size) :
    Entered w g maxDepth above v (w.enterPath g v above.length) := by
  by_cases guards : w.guardsCycles g = true
  · have guarded := stands.guardsCycles_iff.1 guards
    obtain ⟨beyond, holds⟩ := stands.path guarded
    have cut := holds.cut above.length
    rw [List.take_left' List.length_reverse] at cut
    have onPath : (w.cutPath above.length).isOnPath v = true ↔ v ∈ above := by
      rw [cut.marks v, List.mem_reverse]
    have repeats : g.Repeats maxDepth above v ↔ v ∈ above := and_iff_right guarded
    by_cases mem : v ∈ above
    · rw [enterPath_of_onPath guards (onPath.2 mem)]
      refine ⟨by simp [repeats, mem], by simp [repeats, mem], ?_⟩
      intro _
      rw [if_pos mem]
      exact cut.congr rfl rfl
    · have off : (w.cutPath above.length).isOnPath v = false := by simpa [mem] using onPath
      have room : v.index < (w.cutPath above.length).onPath.size := by
        refine Nat.lt_of_lt_of_le ?_ (w.discovered_size_le_cutPath above.length)
        rwa [stands.discovered, stands.size]
      rw [enterPath_of_not_onPath guards off]
      refine ⟨by simp [repeats, mem], by simp [repeats, mem, extendPath, cutPath], ?_⟩
      intro _
      rw [if_neg mem]
      exact cut.extend (by simpa using mem) within room
  · have unrepeated : ¬g.Repeats maxDepth above v := fun known =>
      guards (stands.guardsCycles_iff.2 known.1)
    rw [enterPath, if_neg guards]
    refine ⟨by simp [unrepeated], by simp [unrepeated], ?_⟩
    intro guarded
    exact absurd (stands.guardsCycles_iff.2 guarded) guards

/-- Whether visiting a position opens its vertex. -/
theorem Stands.expands_iff (stands : w.Stands g maxDepth above seen) {here : Position}
    (within : (g.vertexAt here).index < g.vertices.size) :
    w.expands g here above.length = true ↔ g.Opens maxDepth above seen (g.vertexAt here) := by
  have repeats := (stands.entered within).repeats
  have marked : w.isDiscovered (g.vertexAt here) = true ↔ Marked seen (g.vertexAt here) := by
    unfold isDiscovered Marked
    have room : (g.vertexAt here).index < seen.size := stands.size.symm ▸ within
    rw [stands.discovered, Array.getD_eq_getD_getElem?, Array.getD_eq_getD_getElem?,
      Array.getElem?_eq_getElem room]
    rfl
  rw [expands, Bool.and_eq_true, Bool.not_eq_true', Bool.not_eq_true', ← Bool.not_eq_true,
    ← Bool.not_eq_true, marked, repeats]
  constructor
  · rintro ⟨unmarked, unrepeated⟩
    exact ⟨unmarked, unrepeated⟩
  · exact fun opens => ⟨opens.unmarked, opens.unrepeated⟩

theorem mark_eq_ite (g : CallGraph) (seen : Array Bool) (v : VertexId) :
    g.mark seen v = if true && g.mode != .full then seen.setIfInBounds v.index true else seen := by
  unfold CallGraph.mark
  cases g.mode <;> rfl

/-- A vertex that is opened becomes an ancestor of what waits next. -/
theorem Stands.visit_of_opens (stands : w.Stands g maxDepth above seen) {here : Position}
    (within : (g.vertexAt here).index < g.vertices.size)
    (opens : g.Opens maxDepth above seen (g.vertexAt here))
    (room : CallGraph.HasRoom maxDepth above.length) :
    (w.visit g here above.length).Stands g maxDepth (g.vertexAt here :: above)
        (g.mark seen (g.vertexAt here))
      ∧ (w.visit g here above.length).current
        = some ⟨g.frameAt here, above.length, (g.callees (g.vertexAt here)).length⟩
      ∧ (w.visit g here above.length).pending
        = (g.enabledOut (g.vertexAt here)).reverse.map (fun e => (e, above.length + 1)) ++ w.pending
      ∧ ((w.visit g here above.length).cycleDetected = true ↔ w.cycleDetected = true) := by
  have entered := stands.entered within
  have below : w.below g (g.vertexAt here) above.length true
      = (g.enabledOut (g.vertexAt here)).reverse.map fun e => (e, above.length + 1) := by
    have under : w.isUnderLimit above.length = true := by
      rw [isUnderLimit, stands.limit, Option.all_eq_true]
      exact fun limit given => decide_eq_true (room limit given)
    rw [Walk.below, under]
    rfl
  rw [w.visit_eq g here above.length ((stands.expands_iff within).2 opens), below]
  refine ⟨⟨?_, ?_, ?_, ?_⟩, ?_, rfl, ?_⟩
  · exact (w.enterPath_keeps g (g.vertexAt here) above.length).1.trans stands.limit
  · rw [mark_eq_ite, stands.discovered]
  · rw [CallGraph.mark_size, stands.size]
  · intro guards
    have fresh : g.vertexAt here ∉ above := fun mem => opens.unrepeated ⟨guards, mem⟩
    have holds := entered.path guards
    rw [if_neg fresh] at holds
    refine ⟨[], ?_⟩
    rw [List.append_nil, List.reverse_cons]
    exact holds.congr rfl rfl
  · simp [CallGraph.callees]
  · exact entered.cycle.trans (or_iff_left opens.unrepeated)

/-- A node with nothing below it leaves the ancestors as they are. -/
theorem Stands.visit_of_leaf (stands : w.Stands g maxDepth above seen) {here : Position}
    (within : (g.vertexAt here).index < g.vertices.size) (expands : Bool)
    (opens : expands = true ↔ g.Opens maxDepth above seen (g.vertexAt here))
    (leaf : expands = true → ¬CallGraph.HasRoom maxDepth above.length) :
    (w.visit g here above.length).Stands g maxDepth above
        (if expands then g.mark seen (g.vertexAt here) else seen)
      ∧ (w.visit g here above.length).current = some ⟨g.frameAt here, above.length, 0⟩
      ∧ (w.visit g here above.length).pending = w.pending
      ∧ ((w.visit g here above.length).cycleDetected = true
        ↔ w.cycleDetected = true ∨ g.Repeats maxDepth above (g.vertexAt here)) := by
  have entered := stands.entered within
  have below : w.below g (g.vertexAt here) above.length expands = [] := by
    unfold Walk.below isUnderLimit
    rw [stands.limit]
    cases expands with
    | false => rfl
    | true =>
      obtain ⟨limit, rfl, full⟩ := CallGraph.not_hasRoom_iff.1 (leaf rfl)
      simp [Nat.not_lt.2 full]
  have same : w.expands g here above.length = expands :=
    Bool.eq_iff_iff.2 ((stands.expands_iff within).trans opens.symm)
  rw [w.visit_eq g here above.length same, below]
  refine ⟨⟨?_, ?_, ?_, ?_⟩, rfl, rfl, entered.cycle⟩
  · exact (w.enterPath_keeps g (g.vertexAt here) above.length).1.trans stands.limit
  · rw [mark_eq_ite, stands.discovered]
    cases expands <;> rfl
  · split
    · rw [CallGraph.mark_size, stands.size]
    · exact stands.size
  · intro guards
    have holds := entered.path guards
    by_cases mem : g.vertexAt here ∈ above
    · rw [if_pos mem] at holds
      refine ⟨[], ?_⟩
      rw [List.append_nil]
      exact holds.congr rfl rfl
    · rw [if_neg mem] at holds
      exact ⟨_, holds.congr rfl rfl⟩

end Visit

/-! ## All nodes -/

/-- What comes after the current node of a walk: nodes with their positions, then the end. -/
inductive Continues (g : CallGraph) : Walk → List (Position × CallNode) → Walk → Prop
  | ended {w : Walk} (nothing : w.pending = []) :
      Continues g w [] { w with current := none, finished := true }
  | visited {w final : Walk} {e : EdgeId} {depth : Nat} {later : List (EdgeId × Nat)}
      {node : CallNode} {stations : List (Position × CallNode)}
      (waits : w.pending = (e, depth) :: later)
      (node_eq : ({ w with pending := later }.visit g (.edge e) depth).current = some node)
      (more : Continues g ({ w with pending := later }.visit g (.edge e) depth) stations final) :
      Continues g w ((.edge e, node) :: stations) final

/-- A walk that stands before some positions yields what exploring them gives, and then stands
behind them. -/
theorem exists_stands_after {g : CallGraph} (wf : g.WellFormed) {maxDepth : Option Nat}
    {above : List VertexId} {seen after : Array Bool} {here : List Position} {forest : Forest}
    (explores : g.Explores maxDepth above seen here forest after)
    (ancestry : g.Ancestry maxDepth above seen)
    (within : ∀ p ∈ here, (g.vertexAt p).index < g.vertices.size) {es : List EdgeId}
    (edges : here = es.map .edge) {w : Walk} (stands : w.Stands g maxDepth above seen)
    {later : List (EdgeId × Nat)}
    (waits : w.pending = es.map (fun e => (e, above.length)) ++ later) :
    ∃ w' : Walk, w'.Stands g maxDepth above after ∧ w'.pending = later
      ∧ (w'.cycleDetected = true ↔ w.cycleDetected = true
        ∨ g.Guards maxDepth ∧ forest.Closes g above)
      ∧ ∀ stations final, w'.Continues g stations final →
        w.Continues g (forest.stations g above.length ++ stations) final := by
  induction explores generalizing es w later with
  | done above seen =>
    obtain rfl : es = [] := List.map_eq_nil_iff.1 edges.symm
    refine ⟨w, stands, waits, ?_, fun stations final continues => continues⟩
    simp [Forest.Closes]
  | closed shut more ih =>
    obtain ⟨withinHere, withinRest⟩ := List.forall_mem_cons.1 within
    obtain ⟨e, es, rfl, rfl, rfl⟩ := List.map_eq_cons_iff.1 edges.symm
    obtain ⟨standsNext, current, pending, cycle⟩ :=
      (stands.withPending (es.map (fun e => (e, _)) ++ later)).visit_of_leaf withinHere
        false (by simpa using shut) (by simp)
    obtain ⟨w', standsAfter, pendingAfter, cycleAfter, continues⟩ :=
      ih ancestry withinRest rfl standsNext pending
    refine ⟨w', standsAfter, pendingAfter, ?_, ?_⟩
    · rw [cycleAfter, cycle, CallGraph.Repeats, or_assoc, ← and_or_left]
      simp only [Forest.Closes, false_or]
    · intro stations final more
      exact .visited waits current (continues stations final more)
  | cut opens full more ih =>
    obtain ⟨withinHere, withinRest⟩ := List.forall_mem_cons.1 within
    obtain ⟨e, es, rfl, rfl, rfl⟩ := List.map_eq_cons_iff.1 edges.symm
    obtain ⟨standsNext, current, pending, cycle⟩ :=
      (stands.withPending (es.map (fun e => (e, _)) ++ later)).visit_of_leaf withinHere
        true (by simpa using opens) (fun _ => full)
    obtain ⟨w', standsAfter, pendingAfter, cycleAfter, continues⟩ :=
      ih (ancestry.mark _) withinRest rfl standsNext pending
    refine ⟨w', standsAfter, pendingAfter, ?_, ?_⟩
    · rw [cycleAfter, cycle, CallGraph.Repeats, or_assoc, ← and_or_left]
      simp only [Forest.Closes, false_or]
    · intro stations final more
      exact .visited waits current (continues stations final more)
  | expanded opens room inner more ihBelow ihBeside =>
    obtain ⟨withinHere, withinRest⟩ := List.forall_mem_cons.1 within
    obtain ⟨e, es, rfl, rfl, rfl⟩ := List.map_eq_cons_iff.1 edges.symm
    obtain ⟨standsBelow, current, pending, cycle⟩ :=
      (stands.withPending (es.map (fun e => (e, _)) ++ later)).visit_of_opens withinHere opens
        room
    have deeper := ancestry.push opens withinHere
    obtain ⟨between, standsBetween, pendingBetween, cycleBetween, continuesBelow⟩ :=
      ihBelow deeper (fun p mem => wf.callee_lt mem) rfl standsBelow pending
    obtain ⟨w', standsAfter, pendingAfter, cycleAfter, continues⟩ :=
      ihBeside (ancestry.afterBelow inner) withinRest rfl standsBetween.pop pendingBetween
    refine ⟨w', standsAfter, pendingAfter, ?_, ?_⟩
    · have unrepeated := opens.unrepeated
      unfold CallGraph.Repeats at unrepeated
      rw [cycleAfter, cycleBetween, cycle, or_assoc, ← and_or_left, Forest.Closes]
      simp only [and_or_left, unrepeated, false_or]
    · intro stations final more
      rw [Forest.stations, inner.count_eq, List.cons_append, List.append_assoc]
      exact .visited waits current (continuesBelow _ _ (continues stations final more))

/-! ## From the start to the end -/

/-- Calls of `next` one after the other, and what they yield. -/
inductive Yields (g : CallGraph) : Walk → List CallNode → Walk → Prop
  | stop (w : Walk) : Yields g w [] w
  | next {w after final : Walk} {node : CallNode} {nodes : List CallNode}
      (step : w.next g = some (node, after)) (more : Yields g after nodes final) :
      Yields g w (node :: nodes) final

/-- So many calls of `next` as there are nodes yield these, and after them the walk is exhausted. -/
structure Ends (w : Walk) (g : CallGraph) (nodes : List CallNode) (final : Walk) : Prop where
  yields : w.Yields g nodes final
  exhausted : final.next g = none
  finished : final.finished = true

/-- The position of the node after the current one, if there is one. -/
def upcoming (w : Walk) (here : Position) : Position :=
  match w.pending with
  | [] => here
  | (e, _) :: _ => .edge e

/-- The nodes that are left, each with its position, that of the current node being given. -/
def stations (w : Walk) (g : CallGraph) (here : Position) : List (Position × CallNode) :=
  match _more : w.next g with
  | none => []
  | some (node, after) => (here, node) :: after.stations g (w.upcoming here)
termination_by (⟨w⟩ : Rest g)
decreasing_by exact ⟨node, _more⟩

theorem stations_of_next {w after : Walk} {g : CallGraph} {node : CallNode}
    (step : w.next g = some (node, after)) (here : Position) :
    w.stations g here = (here, node) :: after.stations g (w.upcoming here) := by
  rw [stations]
  split
  · next none => simp [none] at step
  · next node' after' some =>
    rw [some, Option.some.injEq, Prod.mk.injEq] at step
    rw [step.1, step.2]

theorem stations_of_exhausted {w : Walk} {g : CallGraph} (exhausted : w.next g = none)
    (here : Position) : w.stations g here = [] := by
  rw [stations]
  split
  · rfl
  · next some => simp [some] at exhausted

theorem next_of_nothing {w : Walk} (g : CallGraph) {node : CallNode}
    (current : w.current = some node) (nothing : w.pending = []) :
    w.next g = some (node, { w with current := none, finished := true }) := by
  unfold next
  rw [current, nothing]

theorem next_of_waits {w : Walk} (g : CallGraph) {node : CallNode} {e : EdgeId} {depth : Nat}
    {later : List (EdgeId × Nat)} (current : w.current = some node)
    (waits : w.pending = (e, depth) :: later) :
    w.next g = some (node, { w with pending := later }.visit g (.edge e) depth) := by
  unfold next
  rw [current, waits]

theorem next_of_noCurrent {w : Walk} (g : CallGraph) (current : w.current = none) :
    w.next g = none := by
  unfold next
  rw [current]

theorem Continues.ends {g : CallGraph} {w final : Walk} {stations : List (Position × CallNode)}
    (continues : w.Continues g stations final) {node : CallNode} (current : w.current = some node) :
    w.Ends g (node :: stations.map Prod.snd) final := by
  induction continues generalizing node with
  | ended nothing =>
    exact ⟨.next (next_of_nothing g current nothing) (.stop _), next_of_noCurrent g rfl, rfl⟩
  | visited waits node_eq _ ih =>
    have rest := ih node_eq
    exact ⟨.next (next_of_waits g current waits) rest.yields, rest.exhausted, rest.finished⟩

theorem Continues.stations_eq {g : CallGraph} {w final : Walk}
    {stations : List (Position × CallNode)} (continues : w.Continues g stations final)
    {node : CallNode} (current : w.current = some node) (here : Position) :
    w.stations g here = (here, node) :: stations := by
  induction continues generalizing node here with
  | ended nothing =>
    rw [stations_of_next (next_of_nothing g current nothing),
      stations_of_exhausted (next_of_noCurrent g rfl)]
  | visited waits node_eq _ ih =>
    rw [stations_of_next (next_of_waits g current waits), ih node_eq, upcoming, waits]

/-- What calls of `next` yield until there is nothing more are all nodes. -/
theorem Yields.drain_eq {g : CallGraph} {w final : Walk} {nodes : List CallNode}
    (yields : w.Yields g nodes final) (exhausted : final.next g = none) :
    w.drain g = (nodes, final) := by
  have drained : ∀ done, w.drainInto g done = (done ++ nodes.toArray, final) := by
    induction yields with
    | stop w =>
      intro done
      rw [drainInto]
      split
      · simp
      · next some => simp [some] at exhausted
    | next step _ ih =>
      intro done
      rw [drainInto]
      split
      · next none => simp [none] at step
      · next some =>
        rw [step, Option.some.injEq, Prod.mk.injEq] at some
        rw [← some.1, ← some.2, ih exhausted]
        simp
  simp [drain, drained]

theorem Ends.drain_eq {g : CallGraph} {w final : Walk} {nodes : List CallNode}
    (ends : w.Ends g nodes final) : w.drain g = (nodes, final) :=
  ends.yields.drain_eq ends.exhausted

/-- The first nodes of a walk, so many or fewer if there are no more, and the walk after them. -/
def firstNodes (w : Walk) (g : CallGraph) : Nat → List CallNode × Walk
  | 0 => ([], w)
  | n + 1 =>
      match w.next g with
      | none => ([], w)
      | some (node, after) =>
          let (nodes, last) := after.firstNodes g n
          (node :: nodes, last)

theorem yields_firstNodes (w : Walk) (g : CallGraph) (n : Nat) :
    w.Yields g (w.firstNodes g n).1 (w.firstNodes g n).2 := by
  induction n generalizing w with
  | zero => exact .stop w
  | succ n ih =>
    rw [firstNodes]
    split
    · exact .stop w
    · next step => exact .next step (ih _)

/-- A walk over a small graph can be followed node by node. -/
theorem drain_eq_firstNodes {w : Walk} {g : CallGraph} (n : Nat)
    (exhausted : (w.firstNodes g n).2.next g = none) : w.drain g = w.firstNodes g n :=
  (w.yields_firstNodes g n).drain_eq exhausted

/-- A walk that has not begun. -/
def blank (maxDepth : Option Nat) (seen : Array Bool) : Walk :=
  { ended with maxDepth, discovered := seen, finished := false }

/-- A walk that has not begun stands before everything. -/
theorem stands_blank (g : CallGraph) (maxDepth : Option Nat) {seen : Array Bool}
    (size : seen.size = g.vertices.size) : (blank maxDepth seen).Stands g maxDepth [] seen where
  limit := rfl
  discovered := rfl
  size := size
  path _ := ⟨[], rfl, .nil, by simp, fun v => by simp [isOnPath, blank, ended]⟩

end Walk

namespace Stepper

/-- The call tree below the current position, each node with its position. -/
def stations (s : Stepper) (maxDepth : Option Nat) : List (Position × CallNode) :=
  match s.cursor.current with
  | none => []
  | some here => (s.walk maxDepth).stations s.graph here

theorem walk_eq_visit {s : Stepper} (maxDepth : Option Nat) {here : Position}
    (current : s.cursor.current = some here) :
    s.walk maxDepth = (Walk.blank maxDepth s.cursor.discovered).visit s.graph here 0 := by
  unfold walk Walk.start
  rw [current]
  rfl

/-- The walk has the current position behind it at first, and what lies below that before it. -/
theorem exists_walk_continues {s : Stepper} (wf : s.graph.WellFormed) {maxDepth : Option Nat}
    (size : s.cursor.discovered.size = s.graph.vertices.size) {here : Position}
    (current : s.cursor.current = some here)
    (within : (s.graph.vertexAt here).index < s.graph.vertices.size) {forest : Forest}
    {after : Array Bool}
    (explores : s.graph.Explores maxDepth [] s.cursor.discovered [here] forest after) :
    ∃ node rest final, forest.stations s.graph 0 = (here, node) :: rest
      ∧ (s.walk maxDepth).current = some node
      ∧ (s.walk maxDepth).Continues s.graph rest final
      ∧ final.discovered = after
      ∧ (final.cycleDetected = true ↔ s.graph.Guards maxDepth ∧ forest.Closes s.graph []) := by
  have stands := Walk.stands_blank s.graph maxDepth size
  have ancestry : s.graph.Ancestry maxDepth [] s.cursor.discovered := .root size
  rw [walk_eq_visit maxDepth current]
  cases explores with
  | closed shut more =>
    cases more
    obtain ⟨standsAfter, current, pending, cycle⟩ :=
      stands.visit_of_leaf within false (by simpa using shut) (by simp)
    refine ⟨_, _, _, rfl, current, .ended pending, standsAfter.discovered, cycle.trans ?_⟩
    simp [CallGraph.Repeats, Forest.Closes, Walk.blank, Walk.ended]
  | cut opens full more =>
    cases more
    obtain ⟨standsAfter, current, pending, cycle⟩ :=
      stands.visit_of_leaf within true (by simpa using opens) (fun _ => full)
    refine ⟨_, _, _, rfl, current, .ended pending, standsAfter.discovered, cycle.trans ?_⟩
    simp [CallGraph.Repeats, Forest.Closes, Walk.blank, Walk.ended]
  | expanded opens room inner more =>
    cases more
    obtain ⟨standsBelow, current, pending, cycle⟩ :=
      stands.visit_of_opens within opens room
    obtain ⟨w', standsAfter, pendingAfter, cycleAfter, continues⟩ :=
      Walk.exists_stands_after wf inner (ancestry.push opens within)
        (fun p mem => wf.callee_lt mem) rfl standsBelow pending
    refine ⟨_, _, _, ?_, current, continues _ _ (.ended pendingAfter), standsAfter.discovered,
      cycleAfter.trans ?_⟩
    · rw [Forest.stations, inner.count_eq]
      simp [Forest.stations]
    · rw [cycle]
      simp [Forest.Closes, Walk.blank, Walk.ended]

/-- The walk over a call tree yields what exploring the current position gives. -/
theorem exists_walk_ends {s : Stepper} (wf : s.graph.WellFormed) {maxDepth : Option Nat}
    (size : s.cursor.discovered.size = s.graph.vertices.size) {here : Position}
    (current : s.cursor.current = some here)
    (within : (s.graph.vertexAt here).index < s.graph.vertices.size) {forest : Forest}
    {after : Array Bool}
    (explores : s.graph.Explores maxDepth [] s.cursor.discovered [here] forest after) :
    ∃ final : Walk, s.stations maxDepth = forest.stations s.graph 0
      ∧ (s.walk maxDepth).Ends s.graph ((forest.stations s.graph 0).map Prod.snd) final
      ∧ final.discovered = after
      ∧ (final.cycleDetected = true ↔ s.graph.Guards maxDepth ∧ forest.Closes s.graph []) := by
  obtain ⟨node, rest, final, stations, currentNode, continues, discovered, cycle⟩ :=
    exists_walk_continues wf size current within explores
  refine ⟨final, ?_, ?_, discovered, cycle⟩
  · unfold Stepper.stations
    rw [current, stations]
    exact continues.stations_eq currentNode here
  · rw [stations]
    exact continues.ends currentNode

end Stepper

end TemplateTrace
