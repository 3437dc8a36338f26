import TemplateTrace.Graph.Walk
set_option autoImplicit false

/-!
# Call trees

All nodes of a walk.  Every walk ends (`Walk.leaves_wellFounded`): the nodes that are expanded one
below the other are at different depths above the limit, or their vertices differ, because a vertex
that is expanded is then marked or on the path.  So there is a bound on how many of them can still
come (`Walk.Levels`), which gets smaller from a node to those below it.
-/

namespace TemplateTrace

namespace Walk

variable {w : Walk} {g : CallGraph} {here : Position} {u : VertexId} {depth above count : Nat}

/-! ## How deep a walk can go -/

/-- Whether a vertex cannot be expanded at some depth or deeper: it is marked, or the walk looks for
cycles and has the vertex among the first ones of its path, as many as the depth. -/
def Shut (w : Walk) (g : CallGraph) (above : Nat) (u : VertexId) : Prop :=
  w.isDiscovered u = true
    ∨ w.guardsCycles g = true ∧ w.isOnPath u = true ∧ u ∉ w.path.toList.drop above

theorem Shut.enterPath (shut : w.Shut g above u) (deeper : above ≤ depth) (v : VertexId) :
    (w.enterPath g v depth).2.Shut g above u := by
  obtain ⟨maxDepth, -, discovered⟩ := w.enterPath_keeps g v depth
  rcases shut with marked | ⟨guards, onPath, kept⟩
  · refine .inl ?_
    rwa [isDiscovered, discovered]
  · refine .inr ⟨by rwa [guardsCycles, maxDepth], ?_⟩
    have keptBelow : u ∉ w.path.toList.drop depth := fun mem =>
      kept ((List.drop_sublist_drop_left w.path.toList deeper).subset mem)
    have marked := (w.isOnPath_cutPath depth u).2 ⟨keptBelow, onPath⟩
    have keptCut : u ∉ (w.path.toList.take depth).drop above := fun mem =>
      kept (((List.take_sublist depth w.path.toList).drop above).subset mem)
    cases closes : (w.cutPath depth).isOnPath v with
    | true =>
      rw [enterPath_of_onPath guards closes]
      exact ⟨marked, by rwa [cutPath_path]⟩
    | false =>
      rw [enterPath_of_not_onPath guards closes]
      refine ⟨((w.cutPath depth).isOnPath_extendPath v u).2 (.inr marked), ?_⟩
      have other : u ≠ v := by
        rintro rfl
        rw [marked] at closes
        cases closes
      rw [extendPath, Array.toList_push, cutPath_path, List.drop_append, List.mem_append]
      rintro (old | new)
      · exact keptCut old
      · exact other (List.mem_singleton.1 (List.mem_of_mem_drop new))

/-- A vertex stays shut, whatever is visited at the same depth or deeper. -/
theorem Shut.visit (shut : w.Shut g above u) (deeper : above ≤ depth) (here : Position) :
    (w.visit g here depth).Shut g above u := by
  refine (shut.enterPath deeper (g.vertexAt here)).imp (fun marked => ?_) id
  rw [isDiscovered, (w.enterPath_keeps g (g.vertexAt here) depth).2.2] at marked
  rw [isDiscovered, visit_discovered]
  split
  · rw [VertexId.getD_setIfInBounds, marked, ite_self]
  · exact marked

theorem Shut.mono (shut : w.Shut g above u) (deeper : above ≤ depth) : w.Shut g depth u :=
  shut.imp id fun ⟨guards, onPath, kept⟩ => ⟨guards, onPath, fun mem =>
    kept ((List.drop_sublist_drop_left w.path.toList deeper).subset mem)⟩

/-- What is shut is not opened. -/
theorem Shut.not_expands (shut : w.Shut g above (g.vertexAt here)) (deeper : above ≤ depth) :
    w.expands g here depth = false := by
  unfold expands
  rcases shut.mono deeper with marked | ⟨guards, onPath, kept⟩
  · rw [marked]
    rfl
  · rw [enterPath_of_onPath guards ((w.isOnPath_cutPath depth _).2 ⟨kept, onPath⟩)]
    exact Bool.and_false _

/-- Without a limit, a vertex that is opened is shut for what comes below it. -/
theorem shut_of_expands (unlimited : w.maxDepth = none)
    (expands : w.expands g here depth = true) :
    (w.visit g here depth).Shut g (depth + 1) (g.vertexAt here) := by
  have within := index_lt_of_expands expands
  by_cases full : g.mode = .full
  · have guards : w.guardsCycles g = true := by simp [guardsCycles, full, unlimited]
    have fresh : (w.cutPath depth).isOnPath (g.vertexAt here) = false := by
      refine Bool.eq_false_iff.2 fun closes => ?_
      rw [Walk.expands, enterPath_of_onPath guards closes] at expands
      exact Bool.false_ne_true ((Bool.and_false _).symm.trans expands)
    have room := Nat.lt_of_lt_of_le within (w.discovered_size_le_cutPath depth)
    have short : ((w.cutPath depth).path.push (g.vertexAt here)).toList.length ≤ depth + 1 := by
      rw [Array.toList_push, List.length_append, cutPath_path, List.length_take]
      exact Nat.succ_le_succ (Nat.min_le_left ..)
    rw [Shut, visit_guardsCycles, visit_isOnPath, visit_path, enterPath_of_not_onPath guards fresh]
    refine .inr ⟨guards, ((w.cutPath depth).isOnPath_extendPath _ _).2 (.inl ⟨rfl, room⟩), ?_⟩
    simp only [extendPath]
    rw [List.drop_eq_nil_of_le short]
    exact List.not_mem_nil
  · refine .inl ?_
    have minimized : (g.mode != .full) = true := by simp [full]
    rw [isDiscovered, visit_discovered, expands, minimized, Bool.and_self, if_pos rfl,
      VertexId.getD_setIfInBounds, if_pos ⟨rfl, within⟩]

/-- At most so many nodes are opened one below the other, the first one at some depth or deeper: the
limit is not further away, or no more vertices are not shut. -/
structure Levels (w : Walk) (g : CallGraph) (above count : Nat) : Prop where
  limited : ∀ limit, w.maxDepth = some limit → limit ≤ above + count
  unlimited : w.maxDepth = none → ∃ free : List VertexId, free.length ≤ count
    ∧ ∀ u : VertexId, u.index < w.discovered.size → u ∉ free → w.Shut g above u

/-- There are no more levels than the limit allows, or than there are vertices. -/
theorem exists_levels (w : Walk) (g : CallGraph) : ∃ count, w.Levels g 0 count := by
  refine ⟨w.maxDepth.getD w.discovered.size, fun limit given => by simp [given], fun none => ?_⟩
  refine ⟨(List.range w.discovered.size).map fun i => ⟨UInt32.ofNat i⟩, by simp [none], ?_⟩
  intro u within unlisted
  exact absurd (List.mem_map.2 ⟨u.index, List.mem_range.2 within, u.ofNat_index⟩) unlisted

theorem Levels.withPending (levels : w.Levels g above count) (pending : List (EdgeId × Nat)) :
    Levels { w with pending } g above count :=
  ⟨levels.limited, levels.unlimited⟩

theorem Levels.visit (levels : w.Levels g above count) (deeper : above ≤ depth)
    (here : Position) : (w.visit g here depth).Levels g above count where
  limited limit given := levels.limited limit ((w.visit_maxDepth g here depth).symm.trans given)
  unlimited none := by
    obtain ⟨free, few, shut⟩ :=
      levels.unlimited ((w.visit_maxDepth g here depth).symm.trans none)
    refine ⟨free, few, fun u within unlisted => ?_⟩
    rw [visit_discovered_size] at within
    exact (shut u within unlisted).visit deeper here

/-- One level less is left below a vertex that is opened above the limit. -/
theorem Levels.below (levels : w.Levels g above count) (deeper : above ≤ depth)
    (expands : w.expands g here depth = true) (under : w.isUnderLimit depth = true) :
    ∃ fewer, count = fewer + 1 ∧ (w.visit g here depth).Levels g (depth + 1) fewer := by
  cases limit : w.maxDepth with
  | some furthest =>
    have room : depth < furthest := by simpa [isUnderLimit, limit] using under
    have bound := levels.limited furthest limit
    refine ⟨count - 1, by omega, fun other given => ?_, fun none => ?_⟩
    · rw [visit_maxDepth, limit] at given
      obtain rfl := Option.some.inj given
      omega
    · rw [visit_maxDepth, limit] at none
      cases none
  | none =>
    obtain ⟨free, few, shut⟩ := levels.unlimited limit
    have listed : g.vertexAt here ∈ free := by
      refine Decidable.byContradiction fun unlisted => ?_
      rw [(shut _ (index_lt_of_expands expands) unlisted).not_expands deeper] at expands
      cases expands
    have fewer := List.length_erase_of_mem listed
    have pos := List.length_pos_of_mem listed
    refine ⟨count - 1, by omega, fun other given => ?_, fun _ => ?_⟩
    · rw [visit_maxDepth, limit] at given
      cases given
    · refine ⟨free.erase (g.vertexAt here), by omega, fun u within unlisted => ?_⟩
      by_cases same : u = g.vertexAt here
      · exact same ▸ shut_of_expands limit expands
      · rw [visit_discovered_size] at within
        have before := shut u within fun mem => unlisted ((List.mem_erase_of_ne same).2 mem)
        exact (before.visit deeper here).mono (Nat.le_succ_of_le deeper)

/-! ## Every walk ends -/

/-- One walk is what a node leaves of another one. -/
def Leaves (g : CallGraph) (after before : Walk) : Prop :=
  ∃ node, before.next g = some (node, after)

theorem Leaves.cases {after : Walk} (step : Leaves g after w) :
    (w.pending = [] ∧ after.current = none)
      ∨ ∃ e depth later, w.pending = (e, depth) :: later
        ∧ after = { w with pending := later }.visit g (.edge e) depth := by
  obtain ⟨node, step⟩ := step
  unfold next at step
  split at step
  · cases step
  · next nothing =>
    obtain ⟨-, rfl⟩ := Prod.mk.inj (Option.some.inj step)
    exact .inl ⟨nothing, rfl⟩
  · next waits =>
    obtain ⟨-, rfl⟩ := Prod.mk.inj (Option.some.inj step)
    exact .inr ⟨_, _, _, waits, rfl⟩

/-- Another walk has all the levels that a walk has at some depth or above. -/
def Keeps (g : CallGraph) (depth : Nat) (w other : Walk) : Prop :=
  ∀ above ≤ depth, ∀ count, w.Levels g above count → other.Levels g above count

theorem Keeps.trans {other last : Walk} (first : Keeps g above w other)
    (second : Keeps g depth other last) (deeper : above ≤ depth) : Keeps g above w last :=
  fun a le count levels => second a (Nat.le_trans le deeper) count (first a le count levels)

theorem keeps_visit (w : Walk) (g : CallGraph) (here : Position) (deeper : above ≤ depth)
    (pending : List (EdgeId × Nat)) :
    Keeps g above w ({ w with pending }.visit g here depth) :=
  fun _ le _ levels => (levels.withPending pending).visit (Nat.le_trans le deeper) here

/-- A walk ends if it does whenever it comes to what waits behind its first edges, which are at some
depth or deeper.  The induction is on the levels, and for each of them on the first edges: what lies
below an edge has a level less. -/
theorem acc_of_levels (count : Nat) {w : Walk} {front later : List (EdgeId × Nat)}
    (waits : w.pending = front ++ later) (deep : ∀ wait ∈ front, above ≤ wait.2)
    (levels : w.Levels g above count)
    (behind : ∀ last : Walk, last.pending = later → Keeps g above w last → Acc (Leaves g) last) :
    Acc (Leaves g) w := by
  induction count using Nat.strongRecOn generalizing w above front later with
  | ind count ihBelow =>
    induction front generalizing w with
    | nil => exact behind w waits fun _ _ _ levels => levels
    | cons wait front ihBeside =>
      obtain ⟨deeper, deepRest⟩ := List.forall_mem_cons.1 deep
      refine ⟨w, fun after step => ?_⟩
      rcases step.cases with ⟨nothing, -⟩ | ⟨e, depth, rest, first, rfl⟩
      · rw [waits] at nothing
        cases nothing
      · obtain ⟨rfl, rfl⟩ := List.cons.inj (waits.symm.trans first)
        have kept := w.keeps_visit g (.edge e) deeper (front ++ later)
        have levelsHere := levels.withPending (front ++ later)
        have pending := visit_pending { w with pending := front ++ later } g (.edge e) depth
        dsimp only at pending
        generalize ({ w with pending := front ++ later } : Walk) = here at kept levelsHere pending ⊢
        have levelsAfter := kept above (Nat.le_refl above) count levels
        rcases here.below_eq_nil_or g (g.vertexAt (.edge e)) depth (here.expands g (.edge e) depth)
          with leaf | ⟨expands, under⟩
        · rw [leaf] at pending
          exact ihBeside pending deepRest levelsAfter fun last waitsLast keptLast =>
            behind last waitsLast (kept.trans keptLast (Nat.le_refl above))
        · obtain ⟨fewer, rfl, levelsBelow⟩ := levelsHere.below deeper expands under
          have nearer := Nat.le_succ_of_le deeper
          refine ihBelow fewer (Nat.lt_succ_self fewer) pending
            (fun wait mem => Nat.le_of_eq (mem_below mem).2.2.1.symm) levelsBelow
            fun between waitsBetween keptBelow => ?_
          -- the other ones of the first edges come next
          have keptBetween := kept.trans keptBelow nearer
          exact ihBeside waitsBetween deepRest (keptBetween above (Nat.le_refl above) _ levels)
            fun last waitsLast keptLast =>
              behind last waitsLast (keptBetween.trans keptLast (Nat.le_refl above))

theorem acc_of_noCurrent (none : w.current = none) : Acc (Leaves g) w := by
  refine ⟨w, fun after ⟨node, step⟩ => ?_⟩
  rw [next, none] at step
  cases step

/-- Every walk ends. -/
theorem leaves_wellFounded (g : CallGraph) : WellFounded (Leaves g) := by
  refine ⟨fun w => ?_⟩
  generalize waits : w.pending = pending
  induction pending generalizing w with
  | nil =>
    refine ⟨w, fun after step => ?_⟩
    rcases step.cases with ⟨-, none⟩ | ⟨e, depth, rest, first, -⟩
    · exact acc_of_noCurrent none
    · rw [waits] at first
      cases first
  | cons wait later ih =>
    obtain ⟨count, levels⟩ := w.exists_levels g
    have first : w.pending = [wait] ++ later := waits
    exact acc_of_levels count first (fun _ _ => Nat.zero_le _) levels
      fun last waitsLast _ => ih last waitsLast

/-- What is left of a walk over a graph. -/
structure Rest (g : CallGraph) where
  walk : Walk

instance (g : CallGraph) : WellFoundedRelation (Rest g) :=
  ⟨InvImage (Leaves g) Rest.walk, InvImage.wf Rest.walk (leaves_wellFounded g)⟩

/-! ## All nodes -/

/-- The nodes that are left after those in `done`, and the walk at its end. -/
def drainInto (w : Walk) (g : CallGraph) (done : Array CallNode) : Array CallNode × Walk :=
  match _more : w.next g with
  | none => (done, w)
  | some (node, after) => after.drainInto g (done.push node)
termination_by (⟨w⟩ : Rest g)
decreasing_by exact ⟨node, _more⟩

/-- The nodes that are left, and the walk at its end. -/
def drain (w : Walk) (g : CallGraph) : List CallNode × Walk :=
  let (nodes, w) := w.drainInto g #[]
  (nodes.toList, w)

end Walk

namespace Stepper

/-- The walk over the call tree below the current position. -/
def walk (s : Stepper) (maxDepth : Option Nat) : Walk :=
  Walk.start s.graph s.cursor maxDepth

/-- The call tree below the current position, node by node, and the walk at its end. -/
def callTree (s : Stepper) (maxDepth : Option Nat) : List CallNode × Walk :=
  (s.walk maxDepth).drain s.graph

end Stepper

end TemplateTrace
