import TemplateTrace.Proofs.Graph.Exploration
import Mathlib.Data.List.Induction
set_option autoImplicit false

/-!
# Paths

Paths of enabled edges through a call graph, the vertices they pass and the cycles they run into.  A
cycle can be reached exactly when some path repeats a vertex with its last step for the first time
(`hasCycle_iff_exists_closing`); where none can be reached, no path repeats a vertex.
-/

namespace TemplateTrace

namespace CallGraph

/-- Whether enabled edges lead on from a vertex, one after the other. -/
def IsPath (g : CallGraph) : VertexId → List EdgeId → Prop
  | _, [] => True
  | v, e :: rest => e ∈ g.enabledEdges ∧ (g.edge e).source = v ∧ g.IsPath (g.edge e).target rest

/-- Where a path ends. -/
def endOf (start : Position) (p : List EdgeId) : Position := p.getLast?.elim start .edge

/-- The vertices of a path, in order. -/
def stops (g : CallGraph) (start : Position) (p : List EdgeId) : List VertexId :=
  g.vertexAt start :: p.map fun e => (g.edge e).target

/-- Whether no vertex of a path occurs twice, the last one not counted. -/
def Unlooped (g : CallGraph) (start : Position) (p : List EdgeId) : Prop :=
  (g.stops start p).dropLast.Nodup

/-- Whether some path goes on from where it has come and gets there again. -/
def HasCycle (g : CallGraph) (start : Position) : Prop :=
  ∃ p loop, loop ≠ [] ∧ g.IsPath (g.vertexAt start) (p ++ loop)
    ∧ g.vertexAt (endOf start (p ++ loop)) = g.vertexAt (endOf start p)

variable {g : CallGraph} {start : Position}

/-! ## Edges -/

theorem WellFormed.mem_enabledOut (wf : g.WellFormed) (v : VertexId) (e : EdgeId) :
    e ∈ g.enabledOut v ↔ e ∈ g.enabledEdges ∧ (g.edge e).source = v := by
  unfold enabledOut enabledEdges
  rw [List.mem_filter, List.mem_filter, wf.mem_outEdges, mem_edgeIds wf.edgeRoom]
  tauto

theorem WellFormed.enabledOut_sorted (wf : g.WellFormed) (v : VertexId) :
    (g.enabledOut v).Pairwise fun a b => a.index < b.index :=
  (wf.outEdges_sorted v).sublist List.filter_sublist

theorem WellFormed.nodup_enabledOut (wf : g.WellFormed) (v : VertexId) :
    (g.enabledOut v).Nodup :=
  nodup_of_sorted (wf.enabledOut_sorted v)

/-! ## Ends and vertices -/

@[simp] theorem endOf_nil (start : Position) : endOf start [] = start := rfl

@[simp] theorem endOf_cons (start : Position) (e : EdgeId) (p : List EdgeId) :
    endOf start (e :: p) = endOf (.edge e) p := by
  cases p <;> simp [endOf, List.getLast?_cons]

@[simp] theorem endOf_snoc (start : Position) (p : List EdgeId) (e : EdgeId) :
    endOf start (p ++ [e]) = .edge e := by
  simp [endOf]

theorem dropLast_stops_cons (g : CallGraph) (start : Position) (e : EdgeId) (p : List EdgeId) :
    (g.stops start (e :: p)).dropLast = g.vertexAt start :: (g.stops (.edge e) p).dropLast := rfl

theorem stops_append (g : CallGraph) (start : Position) (p q : List EdgeId) :
    g.stops start (p ++ q) = g.stops start p ++ q.map fun e => (g.edge e).target := by
  simp [stops]

/-- The last vertex of a path is the one where it ends. -/
theorem stops_eq_dropLast_append (g : CallGraph) (start : Position) (p : List EdgeId) :
    g.stops start p = (g.stops start p).dropLast ++ [g.vertexAt (endOf start p)] := by
  induction p using List.reverseRecOn with
  | nil => rfl
  | append_singleton p e _ =>
    rw [stops_append, endOf_snoc]
    simp [vertexAt]

theorem dropLast_stops_snoc (g : CallGraph) (start : Position) (p : List EdgeId) (e : EdgeId) :
    (g.stops start (p ++ [e])).dropLast = g.stops start p := by
  simp [stops_append]

theorem isPath_append (p q : List EdgeId) :
    g.IsPath (g.vertexAt start) (p ++ q)
      ↔ g.IsPath (g.vertexAt start) p ∧ g.IsPath (g.vertexAt (endOf start p)) q := by
  induction p generalizing start with
  | nil => simp [IsPath]
  | cons e p ih =>
    have rest := @ih (.edge e)
    rw [List.cons_append, IsPath, IsPath, endOf_cons, and_assoc, and_assoc]
    exact and_congr_right fun _ => and_congr_right fun _ => rest

theorem isPath_snoc_iff (start : Position) {p : List EdgeId} {e : EdgeId} :
    g.IsPath (g.vertexAt start) (p ++ [e]) ↔ g.IsPath (g.vertexAt start) p
      ∧ e ∈ g.enabledEdges ∧ (g.edge e).source = g.vertexAt (endOf start p) := by
  rw [isPath_append, IsPath, IsPath, and_true]

/-- A path with a repeated vertex, the last one not counted, repeats it before. -/
theorem not_nodup_stops_iff {p : List EdgeId} (unlooped : g.Unlooped start p) :
    ¬(g.stops start p).Nodup ↔ g.vertexAt (endOf start p) ∈ (g.stops start p).dropLast := by
  conv_lhs => rw [stops_eq_dropLast_append, ← List.concat_eq_append, List.nodup_concat]
  unfold Unlooped at unlooped
  tauto

/-! ## Cycles -/

/-- A path that repeats a vertex does so for the first time with some step. -/
theorem exists_closing_of_not_nodup {p : List EdgeId} (path : g.IsPath (g.vertexAt start) p)
    (repeats : ¬(g.stops start p).Nodup) :
    ∃ q, g.IsPath (g.vertexAt start) q ∧ g.Unlooped start q ∧ ¬(g.stops start q).Nodup := by
  induction p using List.reverseRecOn with
  | nil => exact absurd (List.nodup_singleton _) repeats
  | append_singleton p e ih =>
    have earlier := (isPath_append p [e]).1 path
    by_cases distinct : (g.stops start p).Nodup
    · refine ⟨p ++ [e], path, ?_, repeats⟩
      unfold Unlooped
      rwa [dropLast_stops_snoc]
    · exact ih earlier.1 distinct

/-- A path passes every vertex of it but the last one before its end. -/
theorem exists_split_of_mem_dropLast {p : List EdgeId} {v : VertexId}
    (mem : v ∈ (g.stops start p).dropLast) :
    ∃ before loop, p = before ++ loop ∧ loop ≠ [] ∧ g.vertexAt (endOf start before) = v := by
  induction p generalizing start with
  | nil => simp [stops] at mem
  | cons e p ih =>
    rw [dropLast_stops_cons] at mem
    rcases List.mem_cons.1 mem with rfl | later
    · exact ⟨[], e :: p, rfl, by simp, rfl⟩
    · obtain ⟨before, loop, rfl, goes, same⟩ := ih later
      exact ⟨e :: before, loop, rfl, goes, by rw [endOf_cons, same]⟩

theorem hasCycle_iff_exists_closing :
    g.HasCycle start
      ↔ ∃ p, g.IsPath (g.vertexAt start) p ∧ g.Unlooped start p ∧ ¬(g.stops start p).Nodup := by
  constructor
  · rintro ⟨p, loop, goes, path, same⟩
    refine exists_closing_of_not_nodup path ?_
    intro distinct
    -- the vertex at the end of the loop is passed before it as well
    obtain ⟨front, e, rfl⟩ := List.eq_nil_or_concat loop |>.resolve_left goes
    have passed : g.vertexAt (endOf start p) ∈ g.stops start p := by
      rw [stops_eq_dropLast_append]
      simp
    rw [List.concat_eq_append, ← List.append_assoc] at same distinct
    rw [endOf_snoc] at same
    rw [stops_append, stops_append, List.nodup_append] at distinct
    refine distinct.2.2 _ (List.mem_append_left _ passed) _ ?_ same.symm
    simp [vertexAt]
  · rintro ⟨p, path, unlooped, repeats⟩
    obtain ⟨before, loop, rfl, goes, same⟩ :=
      exists_split_of_mem_dropLast ((not_nodup_stops_iff unlooped).1 repeats)
    exact ⟨before, loop, goes, path, same.symm⟩

/-- Where no cycle can be reached, a path repeats no vertex. -/
theorem nodup_stops_of_acyclic (acyclic : ¬g.HasCycle start) {p : List EdgeId}
    (path : g.IsPath (g.vertexAt start) p) : (g.stops start p).Nodup := by
  by_contra repeats
  exact acyclic (hasCycle_iff_exists_closing.2 (exists_closing_of_not_nodup path repeats))

/-- Going round a cycle gives paths of any length. -/
theorem exists_isPath_of_hasCycle (cyclic : g.HasCycle start) (n : Nat) :
    ∃ p, g.IsPath (g.vertexAt start) p ∧ n ≤ p.length := by
  obtain ⟨p, loop, goes, path, same⟩ := cyclic
  obtain ⟨pathTo, pathRound⟩ := (isPath_append p loop).1 path
  have rounds : ∃ q, g.IsPath (g.vertexAt start) q
      ∧ g.vertexAt (endOf start q) = g.vertexAt (endOf start p) ∧ n ≤ q.length := by
    induction n with
    | zero => exact ⟨p, pathTo, rfl, Nat.zero_le _⟩
    | succ n ih =>
      obtain ⟨q, pathQ, endQ, long⟩ := ih
      refine ⟨q ++ loop, (isPath_append q loop).2 ⟨pathQ, endQ ▸ pathRound⟩, ?_, ?_⟩
      · obtain ⟨front, e, rfl⟩ := List.eq_nil_or_concat loop |>.resolve_left goes
        rw [List.concat_eq_append, ← List.append_assoc, endOf_snoc] at same ⊢
        exact same
      · have := List.length_pos_iff.2 goes
        rw [List.length_append]
        omega
  obtain ⟨q, pathQ, -, long⟩ := rounds
  exact ⟨q, pathQ, long⟩

/-- Along edges that all lead to a greater vertex no cycle can be reached. -/
theorem not_hasCycle_of_lt (increasing : ∀ e ∈ g.enabledEdges,
    (g.edge e).source.index < (g.edge e).target.index) : ¬g.HasCycle start := by
  have climbs : ∀ {here : Position} {p : List EdgeId}, g.IsPath (g.vertexAt here) p →
      (g.vertexAt here).index + p.length ≤ (g.vertexAt (endOf here p)).index := by
    intro here p path
    induction p generalizing here with
    | nil => exact Nat.le_refl _
    | cons e rest ih =>
      obtain ⟨enabled, source, more⟩ := path
      have first := increasing e enabled
      have later := @ih (.edge e) more
      rw [source] at first
      rw [vertexAt_edge] at later
      rw [endOf_cons, List.length_cons]
      omega
  rintro ⟨p, loop, goes, path, same⟩
  have round := climbs ((isPath_append p loop).1 path).2
  have ends : endOf (endOf start p) loop = endOf start (p ++ loop) := by
    obtain ⟨front, e, rfl⟩ := List.eq_nil_or_concat loop |>.resolve_left goes
    rw [List.concat_eq_append, ← List.append_assoc, endOf_snoc, endOf_snoc]
  rw [ends, same] at round
  have := List.length_pos_iff.2 goes
  omega

end CallGraph

end TemplateTrace
