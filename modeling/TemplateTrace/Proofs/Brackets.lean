import TemplateTrace.Event.Action
import Mathlib.Data.List.Induction
set_option autoImplicit false

/-!
# The brackets of a trace

Four kinds of events open a bracket, four close one, one ends the evaluation and all others stand by
themselves.  `Balanced` is the language of traces in which every bracket that is opened is closed by
an event of its own type, with a balanced trace in between.

A stack of open brackets decides the language: `Brackets.after_eq_nil_iff` says that exactly the
balanced traces leave it empty.  The stack keeps the place of the event that opened each bracket, so
that it also tells which event closes which: `matches_snoc_iff` reads that off its top.
-/

namespace TemplateTrace

/-! ## The part that an event plays -/

/-- The part that an event plays among the brackets of a trace. -/
inductive Event.Role where
  | opens (bracket : Closing)
  | closes (bracket : Closing)
  /-- the event is a step as a whole -/
  | leaf
  /-- the event ends the evaluation -/
  | ends
  deriving DecidableEq, Repr, Inhabited

/-- The part that an event plays among the brackets of a trace. -/
def Event.role : Event → Event.Role
  | .templateBegin .. => .opens .template
  | .templateEnd .. => .closes .template
  | .macroExpansionBegin .. => .opens .macroExpansion
  | .macroExpansionEnd .. => .closes .macroExpansion
  | .includeBegin .. => .opens .inclusion
  | .includeEnd .. => .closes .inclusion
  | .conditionBegin .. => .opens .condition
  | .conditionEnd .. => .closes .condition
  | .rescanning .. | .expandedCode .. | .tokenGeneration .. | .tokenSkipping .. | .define ..
  | .undefine .. | .elseBranch .. | .endif .. | .errorDirective .. | .lineDirective .. => .leaf
  | .evaluationEnd .. => .ends

/-- Whether an event begins a step or is one. -/
def Event.isStep (event : Event) : Bool :=
  match event.role with
  | .opens _ | .leaf => true
  | .closes _ | .ends => false

/-- How many steps there are in a trace. -/
def stepCount (events : List Event) : Nat :=
  events.countP Event.isStep

@[simp] theorem stepCount_nil : stepCount [] = 0 := rfl

@[simp] theorem stepCount_append (p q : List Event) :
    stepCount (p ++ q) = stepCount p + stepCount q :=
  List.countP_append

theorem stepCount_singleton (event : Event) :
    stepCount [event] = if event.isStep then 1 else 0 := by
  simp [stepCount, List.countP_cons]

theorem stepCount_cons (event : Event) (rest : List Event) :
    stepCount (event :: rest) = (if event.isStep then 1 else 0) + stepCount rest := by
  rw [← List.singleton_append, stepCount_append, stepCount_singleton]

theorem isStep_of_opens {event : Event} {bracket : Closing} (h : event.role = .opens bracket) :
    event.isStep = true := by
  simp [Event.isStep, h]

theorem isStep_of_leaf {event : Event} (h : event.role = .leaf) : event.isStep = true := by
  simp [Event.isStep, h]

theorem isStep_of_closes {event : Event} {bracket : Closing} (h : event.role = .closes bracket) :
    event.isStep = false := by
  simp [Event.isStep, h]

theorem isStep_of_ends {event : Event} (h : event.role = .ends) : event.isStep = false := by
  simp [Event.isStep, h]

/-- An event with the role of an end is an end. -/
theorem exists_outcome_of_ends {event : Event} (h : event.role = .ends) :
    ∃ outcome, event = .evaluationEnd outcome := by
  cases event <;> first | exact ⟨_, rfl⟩ | simp [Event.role] at h

/-! ## Balanced traces -/

/-- The traces in which every bracket is closed by an event of its own type. -/
inductive Balanced : List Event → Prop where
  | nil : Balanced []
  | leaf {event : Event} {rest : List Event} :
      event.role = .leaf → Balanced rest → Balanced (event :: rest)
  | bracket {opening closing : Event} {type : Closing} {inside rest : List Event} :
      opening.role = .opens type → Balanced inside → closing.role = .closes type →
      Balanced rest → Balanced (opening :: (inside ++ closing :: rest))

namespace Balanced

theorem append {p q : List Event} (hp : Balanced p) (hq : Balanced q) : Balanced (p ++ q) := by
  induction hp with
  | nil => exact hq
  | leaf role _ ih => exact .leaf role ih
  | @bracket opening closing type inside rest opens inner closes _ _ ih =>
    have joined := Balanced.bracket opens inner closes ih
    simpa only [List.cons_append, List.append_assoc] using joined

/-- A balanced trace with a leaf after it. -/
theorem snoc_leaf {p : List Event} {event : Event} (hp : Balanced p) (role : event.role = .leaf) :
    Balanced (p ++ [event]) :=
  hp.append (.leaf role .nil)

/-- A balanced trace with a bracket after it. -/
theorem snoc_bracket {p inside : List Event} {opening closing : Event} {type : Closing}
    (hp : Balanced p) (opens : opening.role = .opens type) (inner : Balanced inside)
    (closes : closing.role = .closes type) :
    Balanced (p ++ opening :: (inside ++ [closing])) :=
  hp.append (.bracket opens inner closes .nil)

/-- No evaluation ends within a balanced trace. -/
theorem role_ne_ends {p : List Event} (hp : Balanced p) : ∀ event ∈ p, event.role ≠ .ends := by
  induction hp with
  | nil => simp
  | leaf role _ ih =>
    intro event mem
    rcases List.mem_cons.1 mem with rfl | mem
    · simp [role]
    · exact ih event mem
  | bracket opens _ closes _ ihInside ihRest =>
    intro event mem
    rcases List.mem_cons.1 mem with rfl | mem
    · simp [opens]
    rcases List.mem_append.1 mem with mem | mem
    · exact ihInside event mem
    rcases List.mem_cons.1 mem with rfl | mem
    · simp [closes]
    · exact ihRest event mem

end Balanced

/-! ## The stack of open brackets -/

/-- The brackets that are open, innermost first, each with the place of the event that opened it. -/
abbrev Brackets := List (Nat × Closing)

namespace Brackets

/-- The open brackets after the event at some place; none if it cannot come there or if it ends the
evaluation. -/
def next (place : Nat) (event : Event) (stack : Brackets) : Option Brackets :=
  match event.role, stack with
  | .opens bracket, stack => some ((place, bracket) :: stack)
  | .leaf, stack => some stack
  | .closes bracket, (_, top) :: outer => if bracket = top then some outer else none
  | .closes _, [] => none
  | .ends, _ => none

/-- The open brackets after some events, the first of which is at some place. -/
def afterFrom (place : Nat) (stack : Brackets) : List Event → Option Brackets
  | [] => some stack
  | event :: rest => (next place event stack).bind fun stack => afterFrom (place + 1) stack rest

/-- The open brackets after a trace. -/
def after (events : List Event) : Option Brackets := afterFrom 0 [] events

@[simp] theorem after_nil : after [] = some [] := rfl

theorem afterFrom_append (place : Nat) (stack : Brackets) (p q : List Event) :
    afterFrom place stack (p ++ q)
      = (afterFrom place stack p).bind fun stack => afterFrom (place + p.length) stack q := by
  induction p generalizing place stack with
  | nil => rfl
  | cons event p ih =>
    cases step : next place event stack with
    | none => simp [afterFrom, step]
    | some between =>
      have shift : place + 1 + p.length = place + (p.length + 1) := by omega
      simp [afterFrom, step, ih, shift]

theorem after_append (p q : List Event) :
    after (p ++ q) = (after p).bind fun stack => afterFrom p.length stack q := by
  simpa [after] using afterFrom_append 0 [] p q

theorem after_snoc (p : List Event) (event : Event) :
    after (p ++ [event]) = (after p).bind (next p.length event) := by
  rw [after_append]
  cases after p with
  | none => rfl
  | some stack => simp [afterFrom]

/-- No evaluation ends while brackets are followed. -/
theorem role_ne_ends {events : List Event} {stack : Brackets}
    (h : after events = some stack) : ∀ event ∈ events, event.role ≠ .ends := by
  induction events using List.reverseRecOn generalizing stack with
  | nil => simp
  | append_singleton p last ih =>
    obtain ⟨before, nested, step⟩ := Option.bind_eq_some_iff.1 (after_snoc p last ▸ h)
    intro event member
    rcases List.mem_append.1 member with earlier | here
    · exact ih nested event earlier
    · obtain rfl := List.mem_singleton.1 here
      intro ends
      simp [next, ends] at step

/-- Within a balanced trace all brackets are closed that are opened there. -/
theorem afterFrom_balanced {p : List Event} (hp : Balanced p) (place : Nat) (stack : Brackets) :
    afterFrom place stack p = some stack := by
  induction hp generalizing place stack with
  | nil => rfl
  | leaf role _ ih => simp [afterFrom, next, role, ih]
  | bracket opens _ closes _ ihInside ihRest =>
    simp [afterFrom, next, opens, afterFrom_append, ihInside, closes, ihRest]

/-- A balanced trace leaves the brackets as they were. -/
theorem after_append_balanced {p q : List Event} {stack : Brackets}
    (nested : after p = some stack) (balanced : Balanced q) : after (p ++ q) = some stack := by
  rw [after_append, nested, Option.bind_some, afterFrom_balanced balanced]

/-- The event before a stack is one of three.  Every fact about stacks is shown along these cases,
the last event of the trace first. -/
theorem snoc_cases {p : List Event} {event : Event} {stack : Brackets}
    (h : after (p ++ [event]) = some stack) :
    (∃ bracket outer, event.role = .opens bracket ∧ after p = some outer
      ∧ stack = (p.length, bracket) :: outer)
    ∨ (event.role = .leaf ∧ after p = some stack)
    ∨ (∃ bracket place, event.role = .closes bracket
      ∧ after p = some ((place, bracket) :: stack)) := by
  rw [after_snoc] at h
  obtain ⟨before, hbefore, step⟩ := Option.bind_eq_some_iff.1 h
  cases role : event.role with
  | opens bracket =>
    simp only [next, role, Option.some.injEq] at step
    exact .inl ⟨bracket, before, rfl, hbefore, step.symm⟩
  | leaf =>
    simp only [next, role, Option.some.injEq] at step
    exact .inr (.inl ⟨rfl, step ▸ hbefore⟩)
  | closes bracket =>
    cases before with
    | nil => simp [next, role] at step
    | cons top outer =>
      obtain ⟨place, top⟩ := top
      simp only [next, role, Option.ite_none_right_eq_some, Option.some.injEq] at step
      obtain ⟨rfl, rfl⟩ := step
      exact .inr (.inr ⟨bracket, place, rfl, hbefore⟩)
  | ends => simp [next, role] at step

/-- The innermost open bracket was opened before a balanced trace, under the brackets that are open
around it. -/
theorem exists_split_of_after_cons {p : List Event} {place : Nat} {bracket : Closing}
    {outer : Brackets} (h : after p = some ((place, bracket) :: outer)) :
    ∃ before opening inside, p = before ++ opening :: inside ∧ before.length = place
      ∧ opening.role = .opens bracket ∧ after before = some outer ∧ Balanced inside := by
  induction hlen : p.length using Nat.strongRecOn generalizing p place bracket outer with
  | _ n ih =>
    rcases List.eq_nil_or_concat p with rfl | ⟨p, event, rfl⟩
    · simp at h
    simp only [List.concat_eq_append] at h hlen ⊢
    have shorter : p.length < n := by simp [← hlen]
    rcases snoc_cases h with ⟨type, below, role, hp, same⟩ | ⟨role, hp⟩ | ⟨type, inner, role, hp⟩
    · -- the bracket is opened by the last event
      simp only [List.cons.injEq, Prod.mk.injEq] at same
      obtain ⟨⟨rfl, rfl⟩, rfl⟩ := same
      exact ⟨p, event, [], rfl, rfl, role, hp, .nil⟩
    · obtain ⟨before, opening, inside, rfl, length, opens, outside, balanced⟩ :=
        ih p.length shorter hp rfl
      exact ⟨before, opening, inside ++ [event], by simp, length, opens, outside,
        balanced.snoc_leaf role⟩
    · -- the last event closes a bracket within this one
      obtain ⟨middle, innerOpening, innerInside, rfl, -, innerOpens, hmiddle, innerBalanced⟩ :=
        ih p.length shorter hp rfl
      have stillShorter : middle.length < n := by
        simp only [List.length_append, List.length_cons] at shorter
        omega
      obtain ⟨before, opening, inside, rfl, length, opens, outside, balanced⟩ :=
        ih middle.length stillShorter hmiddle rfl
      refine ⟨before, opening, inside ++ innerOpening :: (innerInside ++ [event]), by simp, length,
        opens, outside, balanced.snoc_bracket innerOpens innerBalanced role⟩

/-- A trace that leaves no bracket open is balanced. -/
theorem balanced_of_after_eq_nil {p : List Event} (h : after p = some []) : Balanced p := by
  induction hlen : p.length using Nat.strongRecOn generalizing p with
  | _ n ih =>
    rcases List.eq_nil_or_concat p with rfl | ⟨p, event, rfl⟩
    · exact .nil
    simp only [List.concat_eq_append] at h hlen ⊢
    have shorter : p.length < n := by simp [← hlen]
    rcases snoc_cases h with ⟨type, below, role, hp, same⟩ | ⟨role, hp⟩ | ⟨type, place, role, hp⟩
    · simp at same
    · exact (ih p.length shorter hp rfl).snoc_leaf role
    · obtain ⟨before, opening, inside, rfl, -, opens, outside, balanced⟩ :=
        exists_split_of_after_cons hp
      have stillShorter : before.length < n := by
        simp only [List.length_append, List.length_cons] at shorter
        omega
      have whole := (ih before.length stillShorter outside rfl).snoc_bracket opens balanced role
      simpa using whole

/-- Exactly the balanced traces leave no bracket open. -/
theorem after_eq_nil_iff (p : List Event) : after p = some [] ↔ Balanced p :=
  ⟨balanced_of_after_eq_nil, fun balanced => afterFrom_balanced balanced 0 []⟩

/-- Every place on the stack lies within the trace, and inner brackets were opened later. -/
theorem after_places {p : List Event} {stack : Brackets} (h : after p = some stack) :
    (∀ top ∈ stack, top.1 < p.length) ∧ stack.Pairwise fun inner outer => outer.1 < inner.1 := by
  induction p using List.reverseRecOn generalizing stack with
  | nil =>
    obtain rfl : [] = stack := by simpa using h
    simp
  | append_singleton p event ih =>
    have longer : (p ++ [event]).length = p.length + 1 := by simp
    rcases snoc_cases h with ⟨type, outer, -, hp, rfl⟩ | ⟨-, hp⟩ | ⟨type, place, -, hp⟩
    · obtain ⟨within, sorted⟩ := ih hp
      refine ⟨?_, List.pairwise_cons.2 ⟨fun below mem => within below mem, sorted⟩⟩
      intro top mem
      rcases List.mem_cons.1 mem with rfl | mem
      · simp
      · have := within top mem
        omega
    · obtain ⟨within, sorted⟩ := ih hp
      refine ⟨?_, sorted⟩
      intro top mem
      have := within top mem
      omega
    · obtain ⟨within, sorted⟩ := ih hp
      refine ⟨?_, (List.pairwise_cons.1 sorted).2⟩
      intro top mem
      have := within top (List.mem_cons_of_mem _ mem)
      omega

/-! ## Closing all brackets -/

/-- An event that closes a bracket. -/
def closingEvent : Closing → Event
  | .template => .templateEnd 0
  | .macroExpansion => .macroExpansionEnd 0
  | .inclusion => .includeEnd 0
  | .condition => .conditionEnd true 0

@[simp] theorem closingEvent_role (bracket : Closing) :
    (closingEvent bracket).role = .closes bracket := by
  cases bracket <;> rfl

/-- Events that close all open brackets. -/
def closers (stack : Brackets) : List Event :=
  stack.map fun top => closingEvent top.2

theorem afterFrom_closers (place : Nat) (stack : Brackets) :
    afterFrom place stack (closers stack) = some [] := by
  induction stack generalizing place with
  | nil => rfl
  | cons top outer ih =>
    have rest := ih (place + 1)
    simpa [closers, afterFrom, next] using rest

theorem stepCount_closers (stack : Brackets) : stepCount (closers stack) = 0 := by
  simp [stepCount, closers, Event.isStep]

/-- Open brackets can be closed. -/
theorem balanced_append_closers {p : List Event} {stack : Brackets} (h : after p = some stack) :
    Balanced (p ++ closers stack) := by
  rw [← after_eq_nil_iff, after_append, h]
  exact afterFrom_closers p.length stack

end Brackets

/-! ## Which event closes which -/

/-- Whether the event at `i` opens a bracket that the event at `j` closes: what stands between the
two is balanced. -/
def Matches (events : List Event) (i j : Nat) : Prop :=
  ∃ before opening inside closing rest type,
    events = before ++ opening :: (inside ++ closing :: rest)
      ∧ before.length = i ∧ i + 1 + inside.length = j
      ∧ opening.role = .opens type ∧ Balanced inside ∧ closing.role = .closes type

/-- Whether the event at `i` opens a bracket that no event of the trace closes. -/
def Unclosed (events : List Event) (i : Nat) : Prop :=
  (∃ opening type, events[i]? = some opening ∧ opening.role = .opens type)
    ∧ ∀ j, ¬ Matches events i j

/-- Whether the bracket that the event at `i` opens is the last of those that are not closed. -/
def InnermostUnclosed (events : List Event) (i : Nat) : Prop :=
  Unclosed events i ∧ ∀ other, Unclosed events other → other ≤ i

theorem Matches.lt_length {events : List Event} {i j : Nat} (h : Matches events i j) :
    i < j ∧ j < events.length := by
  obtain ⟨before, opening, inside, closing, rest, type, rfl, rfl, rfl, -⟩ := h
  simp only [List.length_append, List.length_cons]
  omega

/-- An event closes the bracket on top of the stack, and the pairs before it stay as they were. -/
theorem matches_snoc_iff {p : List Event} {stack : Brackets} (h : Brackets.after p = some stack)
    (event : Event) (i j : Nat) :
    Matches (p ++ [event]) i j ↔ Matches p i j
      ∨ (j = p.length ∧ ∃ type outer, event.role = .closes type
          ∧ stack = (i, type) :: outer) := by
  constructor
  · rintro ⟨before, opening, inside, closing, rest, type, whole, rfl, rfl, opens, inner, closes⟩
    rcases List.eq_nil_or_concat rest with rfl | ⟨rest, last, rfl⟩
    · -- the closing event is the last one
      have ends : p ++ [event] = (before ++ opening :: inside) ++ [closing] := by simp [whole]
      obtain ⟨rfl, rfl⟩ : p = before ++ opening :: inside ∧ event = closing := by
        simpa using List.append_inj' ends rfl
      rw [Brackets.after_append] at h
      obtain ⟨outer, -, inStack⟩ := Option.bind_eq_some_iff.1 h
      have top : stack = (before.length, type) :: outer := by
        simpa [Brackets.afterFrom, Brackets.next, opens, Brackets.afterFrom_balanced inner,
          eq_comm] using inStack
      refine .inr ⟨?_, type, outer, closes, top⟩
      simp only [List.length_append, List.length_cons]
      omega
    · have ends : p ++ [event]
          = (before ++ opening :: (inside ++ closing :: rest)) ++ [last] := by simp [whole]
      obtain ⟨rfl, -⟩ : p = before ++ opening :: (inside ++ closing :: rest) ∧ event = last := by
        simpa using List.append_inj' ends rfl
      exact .inl ⟨before, opening, inside, closing, rest, type, rfl, rfl, rfl, opens, inner, closes⟩
  · rintro (⟨before, opening, inside, closing, rest, type, rfl, rfl, rfl, opens, inner, closes⟩
      | ⟨rfl, type, outer, closes, rfl⟩)
    · exact ⟨before, opening, inside, closing, rest ++ [event], type, by simp, rfl, rfl, opens,
        inner, closes⟩
    · obtain ⟨before, opening, inside, rfl, rfl, opens, -, inner⟩ :=
        Brackets.exists_split_of_after_cons h
      refine ⟨before, opening, inside, event, [], type, by simp, rfl, ?_, opens, inner, closes⟩
      simp only [List.length_append, List.length_cons]
      omega

/-- A bracket is left open by a longer trace if it was left open before and is not closed by the
last event, or if it is opened by that. -/
theorem unclosed_snoc_iff {p : List Event} {stack : Brackets} (h : Brackets.after p = some stack)
    (event : Event) (i : Nat) :
    Unclosed (p ++ [event]) i
      ↔ (Unclosed p i
          ∧ ¬ ∃ type outer, event.role = .closes type ∧ stack = (i, type) :: outer)
        ∨ (i = p.length ∧ ∃ type, event.role = .opens type) := by
  unfold Unclosed
  simp only [matches_snoc_iff h]
  rcases Nat.lt_trichotomy i p.length with before | rfl | beyond
  · have differs : i ≠ p.length := Nat.ne_of_lt before
    simp only [List.getElem?_append_left before, differs, false_and, or_false]
    constructor
    · rintro ⟨opens, unmatched⟩
      exact ⟨⟨opens, fun j inside => unmatched j (.inl inside)⟩,
        fun closed => unmatched p.length (.inr ⟨rfl, closed⟩)⟩
    · rintro ⟨⟨opens, unmatched⟩, stays⟩
      refine ⟨opens, ?_⟩
      intro j closed
      rcases closed with inside | ⟨rfl, closed⟩
      · exact unmatched j inside
      · exact stays closed
  · constructor
    · rintro ⟨⟨opening, type, here, opens⟩, -⟩
      have same : event = opening := by simpa using here
      exact .inr ⟨rfl, type, same ▸ opens⟩
    · rintro (⟨⟨⟨opening, type, here, -⟩, -⟩, -⟩ | ⟨-, type, opens⟩)
      · simp at here
      · refine ⟨⟨event, type, by simp, opens⟩, ?_⟩
        intro j closed
        rcases closed with inside | ⟨-, other, outer, closes, -⟩
        · have := inside.lt_length
          omega
        · simp [opens] at closes
  · have outside : (p ++ [event])[i]? = none := by
      rw [List.getElem?_eq_none_iff, List.length_append, List.length_singleton]
      omega
    have outsideBefore : p[i]? = none := List.getElem?_eq_none_iff.2 (Nat.le_of_lt beyond)
    have differs : i ≠ p.length := Nat.ne_of_gt beyond
    simp [outside, outsideBefore, differs]

/-- The brackets on the stack are those that are not closed. -/
theorem unclosed_iff_mem {p : List Event} {stack : Brackets} (h : Brackets.after p = some stack)
    (i : Nat) : Unclosed p i ↔ ∃ type, (i, type) ∈ stack := by
  induction p using List.reverseRecOn generalizing stack with
  | nil =>
    obtain rfl : [] = stack := by simpa using h
    simp [Unclosed]
  | append_singleton p event ih =>
    rcases Brackets.snoc_cases h with
      ⟨type, outer, role, hp, rfl⟩ | ⟨role, hp⟩ | ⟨type, place, role, hp⟩
    · rw [unclosed_snoc_iff hp, ih hp]
      simp only [role, List.mem_cons, Prod.mk.injEq]
      grind
    · rw [unclosed_snoc_iff hp, ih hp]
      simp [role]
    · -- the place of the closed bracket does not stand on the stack below it
      rw [unclosed_snoc_iff hp, ih hp]
      have lower := (List.pairwise_cons.1 (Brackets.after_places hp).2).1
      simp only [role, List.mem_cons, Prod.mk.injEq, List.cons.injEq]
      constructor
      · rintro (⟨⟨kind, ⟨rfl, rfl⟩ | mem⟩, stays⟩ | ⟨-, kind, opens⟩)
        · exact absurd ⟨kind, stack, rfl, ⟨rfl, rfl⟩, rfl⟩ stays
        · exact ⟨kind, mem⟩
        · simp at opens
      · rintro ⟨kind, mem⟩
        refine .inl ⟨⟨kind, .inr mem⟩, ?_⟩
        rintro ⟨other, outer, -, ⟨same, -⟩, -⟩
        have := lower _ mem
        omega

/-- The last bracket that is not closed is on top of the stack. -/
theorem innermostUnclosed_iff {p : List Event} {stack : Brackets}
    (h : Brackets.after p = some stack) (i : Nat) :
    InnermostUnclosed p i ↔ ∃ type outer, stack = (i, type) :: outer := by
  have sorted := (Brackets.after_places h).2
  unfold InnermostUnclosed
  simp only [unclosed_iff_mem h]
  cases stack with
  | nil => simp
  | cons top outer =>
    obtain ⟨place, type⟩ := top
    have lower := (List.pairwise_cons.1 sorted).1
    constructor
    · rintro ⟨⟨other, mem⟩, last⟩
      rcases List.mem_cons.1 mem with same | mem
      · exact ⟨other, outer, by rw [same]⟩
      · have below := lower _ mem
        have above := last place ⟨type, List.mem_cons_self⟩
        omega
    · rintro ⟨other, rest, same⟩
      simp only [List.cons.injEq, Prod.mk.injEq] at same
      obtain ⟨⟨rfl, rfl⟩, rfl⟩ := same
      refine ⟨⟨type, List.mem_cons_self⟩, ?_⟩
      rintro other ⟨kind, mem⟩
      rcases List.mem_cons.1 mem with same | mem
      · simp only [Prod.mk.injEq] at same
        omega
      · exact Nat.le_of_lt (lower _ mem)

end TemplateTrace
