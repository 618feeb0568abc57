import FinitePlanning.Ground.Explore
import FinitePlanning.Proofs.Semantics.Derivation
import FinitePlanning.Proofs.Semantics.Values

/-!
Instances of conditions, actions and axioms. Literals on atoms that cannot change are evaluated in
the initial state, so that an instance has the meaning of its schema in the states that agree with
the initial one on these atoms.
-/

namespace FinitePlanning

/-- The atoms that are given to hold initially. -/
def Task.given (t : Task) : Set Atom := {a | a ∈ t.init ∨ a ∈ t.typeAtoms}

namespace GroundTask

open Grounding (valuesOf)

variable {t : Task} {atoms : List Atom} {s s' : Interpretation} {values : Renaming}
  {vars : List String} {c : Condition} {ls : List Literal} {b : Atom}

theorem contains_fluent : (grounding t atoms).fluent.contains b = true ↔ b ∈ atoms := by
  rw [grounding, Std.HashSet.contains_ofList, List.contains_iff_mem]

theorem contains_init : (grounding t atoms).init.contains b = true ↔ b ∈ t.given := by
  rw [grounding, Std.HashSet.contains_ofList, List.contains_iff_mem, List.mem_append]
  rfl

/-! ### Conditions -/

/-- The literals on atoms that cannot change are true. -/
def FixedHold (t : Task) (atoms : List Atom) (ls : List Literal) : Prop :=
  ∀ l ∈ ls, l.atom ∉ atoms → l.Holds t.given

/-- Instances of conditions are made of the literals that may change, if the others are true. -/
theorem condition?_eq_some_iff :
    (grounding t atoms).condition? values c = some ls ↔
      FixedHold t atoms (c.literals.map (·.rename values)) ∧
        ls = (c.literals.map (·.rename values)).filter fun l => decide (l.atom ∈ atoms) := by
  have hfalse : ∀ l : Literal, (!(grounding t atoms).fluent.contains l.atom &&
      (grounding t atoms).init.contains l.atom == l.negated) = true ↔
        ¬ (l.atom ∉ atoms → l.Holds t.given) := by
    intro l
    rw [Bool.and_eq_true, Bool.not_eq_true', Bool.eq_false_iff, ne_eq, contains_fluent,
      Classical.not_imp, beq_iff_eq]
    refine and_congr_right fun _ => ?_
    cases hn : l.negated with
    | false =>
        rw [Literal.Holds, hn, if_neg Bool.false_ne_true, Bool.eq_false_iff, ne_eq, contains_init]
    | true => rw [Literal.Holds, hn, if_pos rfl, contains_init, not_not]
  have hfluent : ∀ l : Literal, (grounding t atoms).fluent.contains l.atom =
      decide (l.atom ∈ atoms) := fun l => by
    rw [Bool.eq_iff_iff, contains_fluent, decide_eq_true_iff]
  simp only [Grounding.condition?]
  split
  next h =>
    obtain ⟨l, hl, hlfalse⟩ := List.any_eq_true.mp h
    exact iff_of_false (Option.some_ne_none ls).symm fun hsome =>
      absurd (hsome.1 l hl) ((hfalse l).mp hlfalse)
  next h =>
    have hall : FixedHold t atoms (c.literals.map (·.rename values)) := fun l hl =>
      not_not.mp fun hnot => h (List.any_eq_true.mpr ⟨l, hl, (hfalse l).mpr hnot⟩)
    rw [Option.some.injEq, and_iff_right hall, eq_comm, List.filter_congr fun l _ => hfluent l]

theorem condition?_eq_none_iff :
    (grounding t atoms).condition? values c = none ↔
      ¬ FixedHold t atoms (c.literals.map (·.rename values)) := by
  rw [← not_iff_not, not_not, ← ne_eq, Option.ne_none_iff_exists']
  simp only [condition?_eq_some_iff, exists_and_left, exists_eq, and_true]

/-- A conjunction holds if its literals that may change and the others do. -/
theorem allHold_iff (hs : FixedOutside {a | a ∈ atoms} t.given s) :
    AllHold s ls ↔ FixedHold t atoms ls ∧
      AllHold s (ls.filter fun l => decide (l.atom ∈ atoms)) := by
  have hfixed : ∀ l : Literal, l.atom ∉ atoms → (l.Holds s ↔ l.Holds t.given) :=
    fun l hl => Literal.holds_congr (hs l.atom hl)
  constructor
  · intro h
    exact ⟨fun l hl hnot => (hfixed l hnot).mp (h l hl), fun l hl => h l (List.mem_of_mem_filter hl)⟩
  · rintro ⟨hfixedHold, h⟩ l hl
    by_cases hmem : l.atom ∈ atoms
    · exact h l (List.mem_filter.mpr ⟨hl, decide_eq_true hmem⟩)
    · exact (hfixed l hmem).mpr (hfixedHold l hl hmem)

theorem holds_iff_of_condition? (hs : FixedOutside {a | a ∈ atoms} t.given s) (hc : c.IsOver t vars)
    (h : (grounding t atoms).condition? values c = some ls) :
    t.Holds s values c ↔ AllHold s ls := by
  obtain ⟨hfixed, rfl⟩ := condition?_eq_some_iff.mp h
  rw [Task.Holds, hc.holds_iff, allHold_iff hs, and_iff_right hfixed]

theorem not_holds_of_condition? (hs : FixedOutside {a | a ∈ atoms} t.given s)
    (hc : c.IsOver t vars) (h : (grounding t atoms).condition? values c = none) :
    ¬ t.Holds s values c := by
  rw [Task.Holds, hc.holds_iff, allHold_iff hs]
  exact fun hholds => condition?_eq_none_iff.mp h hholds.1

theorem mem_atoms_of_condition? (h : (grounding t atoms).condition? values c = some ls) :
    ∀ l ∈ ls, l.atom ∈ atoms := by
  obtain ⟨-, rfl⟩ := condition?_eq_some_iff.mp h
  exact fun l hl => of_decide_eq_true (List.mem_filter.mp hl).2

/-! ### Actions -/

/-- What the effects of an action do in an instance. -/
def effectsOf (t : Task) (atoms : List Atom) (a : Action) (args : List String) :
    List (List Literal × Literal) :=
  a.effects.flatMap ((grounding t atoms).effect (valuesOf a.parameters args))

theorem mem_effectsOf_iff {a : Action} {args : List String} {x : List Literal × Literal} :
    x ∈ effectsOf t atoms a args ↔ ∃ e ∈ a.effects, ∃ os, t.Typed e.parameters os ∧
      (grounding t atoms).condition? (valuesOf e.parameters os ++ valuesOf a.parameters args)
        e.condition = some x.1 ∧
      e.literal.rename (valuesOf e.parameters os ++ valuesOf a.parameters args) = x.2 ∧
      x.2.atom ∈ atoms := by
  rw [effectsOf, List.mem_flatMap]
  refine exists_congr fun e => and_congr_right fun _ => ?_
  rw [Grounding.effect, List.mem_filterMap]
  refine exists_congr fun os => and_congr ?_ ?_
  · rw [mem_choices, List.forall₂_map_right_iff]
    exact ⟨List.Forall₂.flip, List.Forall₂.flip⟩
  · change (grounding t atoms).simpleEffect? (valuesOf e.parameters os ++ valuesOf a.parameters args)
      e = some x ↔ _
    simp only [Grounding.simpleEffect?, Option.bind_eq_bind, Option.bind_eq_some_iff,
      contains_fluent, Option.ite_none_right_eq_some, Option.some.injEq]
    constructor
    · rintro ⟨ls, hls, hmem, rfl⟩
      exact ⟨hls, rfl, hmem⟩
    · rintro ⟨hls, hx, hmem⟩
      rw [hx]
      exact ⟨_, hls, hmem, rfl⟩

/-- What triggers in an action are the effects of the instance whose conditions hold. -/
theorem triggers_iff {a : Action} (ha : a.IsNormal t) (hs : FixedOutside {a | a ∈ atoms} t.given s)
    {args : List String} {l : Literal} (hl : l.atom ∈ atoms) :
    t.Triggers s a args l ↔ ∃ x ∈ effectsOf t atoms a args, AllHold s x.1 ∧ x.2 = l := by
  constructor
  · rintro ⟨e, he, os, hos, hholds, rfl⟩
    have hover := (ha.effects e he).condition
    cases hcondition : (grounding t atoms).condition?
        (valuesOf e.parameters os ++ valuesOf a.parameters args) e.condition with
    | none => exact absurd hholds (not_holds_of_condition? hs hover hcondition)
    | some ls =>
        exact ⟨(ls, _), mem_effectsOf_iff.mpr ⟨e, he, os, hos, hcondition, rfl, hl⟩,
          (holds_iff_of_condition? hs hover hcondition).mp hholds, rfl⟩
  · rintro ⟨x, hx, hholds, rfl⟩
    obtain ⟨e, he, os, hos, hcondition, hliteral, -⟩ := mem_effectsOf_iff.mp hx
    exact ⟨e, he, os, hos,
      (holds_iff_of_condition? hs (ha.effects e he).condition hcondition).mpr hholds, hliteral⟩

/-- An effect of an instance, without the literal it makes true being negated or not. -/
def conditionalEffect (x : List Literal × Literal) : ConditionalEffect := ⟨x.1, x.2.atom⟩

/-- The instance of an action has its precondition and its effects. -/
structure IsInstance (t : Task) (atoms : List Atom) (a : Action) (args : List String)
    (x : GroundAction) : Prop where
  precondition : (grounding t atoms).condition? (valuesOf a.parameters args) a.precondition =
    some x.precondition
  adds : x.adds = ((effectsOf t atoms a args).filter (!·.2.negated)).map conditionalEffect
  deletes : x.deletes = ((effectsOf t atoms a args).filter fun y => y.2.negated &&
    decide ((y.1, y.2.negate) ∉ (effectsOf t atoms a args).filter (!·.2.negated))).map
      conditionalEffect

/-- An action without an instance is not applicable or does nothing. -/
theorem of_action?_eq_none {a : Action} {args : List String}
    (h : (grounding t atoms).action? a args = .ok none) :
    (grounding t atoms).condition? (valuesOf a.parameters args) a.precondition = none ∨
      effectsOf t atoms a args = [] := by
  simp only [Grounding.action?] at h
  split at h
  next hcondition => exact .inl hcondition
  next =>
    split at h
    next hempty => exact .inr (List.isEmpty_iff.mp hempty)
    next =>
      exfalso
      revert h
      generalize (grounding t atoms).cost a _ _ = cost
      cases cost <;> exact nofun

theorem isInstance_of_action? {a : Action} {args : List String} {x : GroundAction}
    (h : (grounding t atoms).action? a args = .ok (some x)) : IsInstance t atoms a args x := by
  simp only [Grounding.action?] at h
  split at h
  next => cases h
  next precondition hcondition =>
    split at h
    next => cases h
    next =>
      revert h
      generalize (grounding t atoms).cost a _ _ = cost
      cases cost with
      | error _ => exact nofun
      | ok _ =>
          intro h
          cases h
          exact ⟨hcondition, rfl, rfl⟩

namespace IsInstance

variable {a : Action} {args : List String} {x : GroundAction} (h : IsInstance t atoms a args x)
include h

theorem mem_triggered_adds : b ∈ GroundAction.triggered x.adds s ↔
    ∃ y ∈ effectsOf t atoms a args, AllHold s y.1 ∧ y.2 = b.positive := by
  rw [GroundAction.triggered, h.adds]
  constructor
  · rintro ⟨_, hmem, hholds, rfl⟩
    obtain ⟨y, hy, rfl⟩ := List.mem_map.mp hmem
    obtain ⟨hy, hpositive⟩ := List.mem_filter.mp hy
    refine ⟨y, hy, hholds, ?_⟩
    obtain ⟨ls, l, negated⟩ := y
    obtain rfl : negated = false := by simpa using hpositive
    rfl
  · rintro ⟨y, hy, hholds, he⟩
    refine ⟨_, List.mem_map_of_mem (List.mem_filter.mpr ⟨hy, ?_⟩), hholds,
      congrArg Literal.atom he⟩
    rw [he]
    rfl

/-- A deletion that is left out is undone by an addition. -/
theorem mem_triggered_deletes (hb : b ∉ GroundAction.triggered x.adds s) :
    b ∈ GroundAction.triggered x.deletes s ↔
      ∃ y ∈ effectsOf t atoms a args, AllHold s y.1 ∧ y.2 = b.negative := by
  rw [GroundAction.triggered, h.deletes]
  constructor
  · rintro ⟨_, hmem, hholds, rfl⟩
    obtain ⟨y, hy, rfl⟩ := List.mem_map.mp hmem
    obtain ⟨hy, hnegative⟩ := List.mem_filter.mp hy
    refine ⟨y, hy, hholds, ?_⟩
    obtain ⟨ls, l, negated⟩ := y
    obtain rfl : negated = true := (Bool.and_eq_true_iff.mp hnegative).1
    rfl
  · rintro ⟨y, hy, hholds, he⟩
    refine ⟨_, List.mem_map_of_mem (List.mem_filter.mpr ⟨hy, ?_⟩), hholds,
      congrArg Literal.atom he⟩
    rw [Bool.and_eq_true, decide_eq_true_iff]
    refine ⟨by rw [he]; rfl, fun hadded => hb ?_⟩
    refine h.mem_triggered_adds.mpr ⟨_, List.mem_of_mem_filter hadded, hholds, ?_⟩
    rw [he]
    rfl

theorem mem_atoms_of_mem_conditionLiterals :
    ∀ l ∈ x.conditionLiterals, l.atom ∈ atoms := by
  have heffect : ∀ y ∈ effectsOf t atoms a args, ∀ l ∈ y.1, l.atom ∈ atoms := by
    intro y hy
    obtain ⟨e, -, os, -, hcondition, -⟩ := mem_effectsOf_iff.mp hy
    exact mem_atoms_of_condition? hcondition
  intro l hl
  rcases List.mem_append.mp hl with hl | hl
  · exact mem_atoms_of_condition? h.precondition l hl
  · obtain ⟨e, he, hl⟩ := List.mem_flatMap.mp hl
    rw [h.adds, h.deletes] at he
    rcases List.mem_append.mp he with he | he
    · obtain ⟨y, hy, rfl⟩ := List.mem_map.mp he
      exact heffect y (List.mem_of_mem_filter hy) l hl
    · obtain ⟨y, hy, rfl⟩ := List.mem_map.mp he
      exact heffect y (List.mem_of_mem_filter hy) l hl

variable (ha : a.IsNormal t) (hs : FixedOutside {a | a ∈ atoms} t.given s)
include ha hs

theorem holds_precondition_iff :
    t.Holds s (valuesOf a.parameters args) a.precondition ↔ x.Applicable s :=
  holds_iff_of_condition? hs ha.precondition h.precondition

/-- The instance changes the atoms that may change as the action does. -/
theorem mem_successor_iff (hb : b ∈ atoms) :
    b ∈ t.successor s a args ↔ b ∈ x.successor s := by
  change t.Triggers s a args b.positive ∨ b ∈ s ∧ ¬ t.Triggers s a args b.negative ↔ _
  rw [GroundAction.mem_successor, triggers_iff ha hs (l := b.positive) hb, ← h.mem_triggered_adds]
  by_cases hadd : b ∈ GroundAction.triggered x.adds s
  · simp only [hadd, true_or]
  · rw [triggers_iff ha hs (l := b.negative) hb, ← h.mem_triggered_deletes hadd]

end IsInstance

/-! ### Axioms -/

theorem axiomInstance?_eq_some_iff {x : Axiom} {args : List String} {y : GroundAxiom} :
    (grounding t atoms).axiomInstance? x args = some y ↔
      FixedHold t atoms (Task.axiomInstance x args).condition ∧
      y = { Task.axiomInstance x args with
        condition := (Task.axiomInstance x args).condition.filter fun l =>
          decide (l.atom ∈ atoms) } := by
  simp only [Grounding.axiomInstance?, Option.bind_eq_bind, Option.bind_eq_some_iff,
    Option.pure_def, Option.some.injEq, condition?_eq_some_iff]
  constructor
  · rintro ⟨ls, ⟨hfixed, rfl⟩, rfl⟩
    exact ⟨hfixed, rfl⟩
  · rintro ⟨hfixed, rfl⟩
    exact ⟨_, ⟨hfixed, rfl⟩, rfl⟩

end GroundTask
end FinitePlanning
