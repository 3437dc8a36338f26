import TemplateTrace.Proofs.Graph.Exploration
set_option autoImplicit false

/-!
# What exploration marks

In minimized mode and without a limit the vertices that exploration marks are those of its nodes,
and nothing that is called from a marked vertex stays unmarked, unless that vertex is an ancestor of
what is explored (`Explores.covers`).
-/

namespace TemplateTrace

namespace CallGraph

/-- Whether all that is called from marked vertices is marked, some vertices aside. -/
def Covers (g : CallGraph) (seen : Array Bool) (aside : List VertexId) : Prop :=
  ∀ v, Marked seen v → v ∉ aside → ∀ p ∈ g.callees v, Marked seen (g.vertexAt p)

variable {g : CallGraph} {maxDepth : Option Nat} {above : List VertexId} {seen after : Array Bool}
  {here : List Position} {forest : Forest}

/-- Marking a vertex uncovers at most what is called from that vertex. -/
theorem Covers.mark (covers : g.Covers seen above) (minimized : g.mode ≠ .full) {v : VertexId}
    (within : v.index < seen.size) : g.Covers (g.mark seen v) (v :: above) := by
  intro u marked aside p called
  obtain ⟨differs, aside⟩ := List.ne_and_not_mem_of_not_mem_cons aside
  have before := ((marked_mark_iff minimized within u).1 marked).resolve_left differs
  exact (covers u before aside p called).mark v

theorem Covers.pop {v : VertexId} (covers : g.Covers seen (v :: above))
    (called : ∀ p ∈ g.callees v, Marked seen (g.vertexAt p)) : g.Covers seen above := by
  intro u marked aside p calledFrom
  by_cases same : u = v
  · exact called p (same ▸ calledFrom)
  · exact covers u marked (List.not_mem_cons_of_ne_of_not_mem same aside) p calledFrom

/-- Exploring some positions marks them and covers what it covered before. -/
theorem Explores.covers (wf : g.WellFormed) (minimized : g.mode ≠ .full)
    (explores : g.Explores none above seen here forest after)
    (ancestry : g.Ancestry none above seen)
    (within : ∀ p ∈ here, (g.vertexAt p).index < g.vertices.size)
    (covers : g.Covers seen above) :
    g.Covers after above ∧ ∀ p ∈ here, Marked after (g.vertexAt p) := by
  induction explores with
  | done => exact ⟨covers, by simp⟩
  | closed shut more ih =>
    obtain ⟨withinHere, withinRest⟩ := List.forall_mem_cons.1 within
    obtain ⟨coversAfter, marked⟩ := ih ancestry withinRest covers
    refine ⟨coversAfter, List.forall_mem_cons.2 ⟨more.marked ?_, marked⟩⟩
    by_contra unmarked
    exact shut ⟨unmarked, fun known => minimized known.1.1⟩
  | cut _ full _ _ => exact absurd (hasRoom_none _) full
  | expanded opens _ inner more ihBelow ihBeside =>
    obtain ⟨withinHere, withinRest⟩ := List.forall_mem_cons.1 within
    have size := ancestry.size.symm ▸ withinHere
    obtain ⟨coversBelow, called⟩ := ihBelow (ancestry.push opens withinHere)
      (fun p mem => wf.callee_lt mem) (covers.mark minimized size)
    obtain ⟨coversAfter, marked⟩ :=
      ihBeside (ancestry.afterBelow inner) withinRest (coversBelow.pop called)
    refine ⟨coversAfter, List.forall_mem_cons.2 ⟨more.marked (inner.marked ?_), marked⟩⟩
    exact (marked_mark_iff minimized size _).2 (.inl rfl)

/-- Exploring marks no vertices but those of its nodes. -/
theorem Explores.exists_position_of_marked
    (explores : g.Explores maxDepth above seen here forest after) {v : VertexId}
    (marked : Marked after v) : Marked seen v ∨ ∃ p ∈ forest.positions, g.vertexAt p = v := by
  induction explores with
  | done => exact .inl marked
  | closed _ _ ih =>
    refine (ih marked).imp id fun ⟨p, mem, same⟩ => ⟨p, ?_, same⟩
    simp [Forest.positions, mem]
  | cut _ _ _ ih =>
    rcases ih marked with before | ⟨p, mem, same⟩
    · refine before.of_mark.imp id fun same => ⟨_, List.mem_cons_self, same⟩
    · exact .inr ⟨p, by simp [Forest.positions, mem], same⟩
  | expanded _ _ _ _ ihBelow ihBeside =>
    rcases ihBeside marked with before | ⟨p, mem, same⟩
    · rcases ihBelow before with before | ⟨p, mem, same⟩
      · refine before.of_mark.imp id fun same => ⟨_, List.mem_cons_self, same⟩
      · exact .inr ⟨p, by simp [Forest.positions, mem], same⟩
    · exact .inr ⟨p, by simp [Forest.positions, mem], same⟩

end CallGraph

end TemplateTrace
