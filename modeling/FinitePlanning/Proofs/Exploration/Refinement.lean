import FinitePlanning.Proofs.Exploration.Completeness
import FinitePlanning.Proofs.Exploration.Instances
import FinitePlanning.Proofs.Stratification.Reduction

/-!
The part of a task that is found to be reachable: its atoms, actions and axioms are those of a set
that covers all runs. It has the runs of the task. Its states have the same values of the atoms that
may change, except for derived atoms that do not matter.
-/

namespace FinitePlanning
namespace GroundTask

section ReachablePart

open Datalog SymbolTable

variable {t : Task} {K : Set Mention} {g : GroundTask} {p : Program} {model : List GroundAtom}

/-- The ground task has the fluent atoms of a set and the instances of the actions and axioms that
are applicable in it. -/
structure IsReachablePart (t : Task) (K : Set Mention) (g : GroundTask) : Prop where
  atoms : ∀ a, a ∈ g.atoms ↔ a.predicate ∈ t.fluentPredicates ∧ mention a ∈ K
  instances : ∀ i args, (i, args) ∈ g.instances ↔ (.action i, args) ∈ K
  actions : ∀ x ∈ g.actions, ∃ i a args, t.actions[i]? = some a ∧ (.action i, args) ∈ K ∧
    (grounding t g.atoms).action? a args = .ok (some x)
  /-- All instances can be made, and those that do something are there. -/
  action : ∀ i a args, t.actions[i]? = some a → (.action i, args) ∈ K →
    ∃ r, (grounding t g.atoms).action? a args = .ok r ∧ ∀ x, r = some x → x ∈ g.actions
  axioms : ∀ x, x ∈ g.axioms ↔ ∃ i y args, t.axioms[i]? = some y ∧ (.derivation i, args) ∈ K ∧
    (grounding t g.atoms).axiomInstance? y args = some x
  goal : g.goal = (grounding t g.atoms).condition? [] t.goal

/-- The atoms of the model are read as the mentions of a set. -/
def IsReading (p : Program) (model : List GroundAtom) (K : Set Mention) : Prop :=
  ∀ q : Mention, q.1.isAuxiliary = false →
    (q ∈ K ↔ ∃ g ∈ model, p.symbols.relation g.relation = q.1 ∧ argsOf p g = q.2)

theorem mem_fluentAtoms_iff (h : IsReading p model K) {a : Atom} :
    a ∈ fluentAtoms t p model ↔ a.predicate ∈ t.fluentPredicates ∧ mention a ∈ K := by
  rw [fluentAtoms, List.mem_filterMap, h (mention a) rfl]
  constructor
  · rintro ⟨c, hc, hread⟩
    obtain ⟨hrelation, hargs⟩ := of_fluentAtom_eq_some hread
    refine ⟨?_, c, hc, hrelation, hargs⟩
    rw [hrelation] at hread
    exact (Option.ite_none_right_eq_some.mp hread).1
  · rintro ⟨hfluent, c, hc, hrelation, hargs⟩
    refine ⟨c, hc, ?_⟩
    have hrelation : p.symbols.relation c.relation = .predicate a.predicate := hrelation
    have hargs : argsOf p c = a.args := hargs
    simp only [hrelation, if_pos hfluent, hargs]

theorem mem_actionInstances_iff (h : IsReading p model K) {i : Nat} {args : List String} :
    (i, args) ∈ actionInstances p model ↔ (.action i, args) ∈ K := by
  rw [actionInstances, List.mem_filterMap, h _ rfl]
  refine exists_congr fun c => and_congr_right fun _ => ?_
  constructor
  · intro hread
    split at hread
    next j hj =>
      cases hread
      exact ⟨hj, rfl⟩
    next => cases hread
  · rintro ⟨hrelation, rfl⟩
    simp only [hrelation]

theorem mem_axiomInstances_iff (h : IsReading p model K) {i : Nat} {args : List String} :
    (i, args) ∈ axiomInstances p model ↔ (.derivation i, args) ∈ K := by
  rw [axiomInstances, List.mem_filterMap, h _ rfl]
  refine exists_congr fun c => and_congr_right fun _ => ?_
  constructor
  · intro hread
    split at hread
    next j hj =>
      cases hread
      exact ⟨hj, rfl⟩
    next => cases hread
  · rintro ⟨hrelation, rfl⟩
    simp only [hrelation]

theorem isReachablePart_of_yields_ofModel (hK : IsGrounded t K) (h : IsReading p model K)
    {budget : Budget} (hg : (ofModel t p model budget).Yields g) :
    g.relaxedReachable = false ∧ (.goalReachable, []) ∉ K ∨
      g.relaxedReachable = true ∧ g.IsReachablePart t K := by
  rw [ofModel] at hg
  split at hg
  next hgoal =>
    obtain ⟨-, -, hg⟩ := Compilation.yields_bind hg
    obtain rfl := Compilation.yields_pure hg
    refine .inl ⟨rfl, fun hmem => ?_⟩
    obtain ⟨c, hc, hrelation, -⟩ := (h _ rfl).mp hmem
    have hnone : goalReached p model = false := by simpa using hgoal
    exact absurd (List.any_eq_false.mp hnone c hc) (by simpa using hrelation)
  next =>
    obtain ⟨actions, hactions, hg⟩ := Compilation.yields_bind hg
    obtain ⟨axs, haxs, hg⟩ := Compilation.yields_bind hg
    obtain ⟨-, -, hg⟩ := Compilation.yields_bind hg
    obtain rfl := Compilation.yields_pure hg
    refine .inr ⟨rfl, fun a => mem_fluentAtoms_iff h, fun i args => mem_actionInstances_iff h,
      fun x hx => ?_, fun i a args ha hmem => ?_, fun x => ?_, rfl⟩
    · obtain ⟨⟨i, args⟩, hi, hx⟩ := Compilation.of_mem_filterMapM hactions hx
      obtain ⟨-, -, hx⟩ := Compilation.yields_bind hx
      have hmem := (mem_actionInstances_iff h).mp hi
      obtain ⟨a, ha, -⟩ := hK.typed_action i args hmem
      have hx := Compilation.yields_ofResult hx
      rw [List.getD_eq_getElem?_getD, ha, Option.getD_some] at hx
      exact ⟨i, a, args, ha, hmem, hx⟩
    · obtain ⟨r, hr, hall⟩ := Compilation.exists_yields_of_filterMapM hactions
        ((mem_actionInstances_iff h).mpr hmem)
      obtain ⟨-, -, hr⟩ := Compilation.yields_bind hr
      have hr := Compilation.yields_ofResult hr
      rw [List.getD_eq_getElem?_getD, ha, Option.getD_some] at hr
      exact ⟨r, hr, hall⟩
    · rw [List.mem_mergeSort]
      constructor
      · intro hx
        obtain ⟨⟨i, args⟩, hi, hx⟩ := Compilation.of_mem_filterMapM haxs hx
        obtain ⟨-, -, hx⟩ := Compilation.yields_bind hx
        have hmem := (mem_axiomInstances_iff h).mp hi
        obtain ⟨y, hy, -⟩ := hK.typed_axiom i args hmem
        have hx := Compilation.yields_pure hx
        rw [List.getD_eq_getElem?_getD, hy, Option.getD_some] at hx
        exact ⟨i, y, args, hy, hmem, hx⟩
      · rintro ⟨i, y, args, hy, hmem, hx⟩
        obtain ⟨r, hr, hall⟩ := Compilation.exists_yields_of_filterMapM haxs
          ((mem_axiomInstances_iff h).mpr hmem)
        obtain ⟨-, -, hr⟩ := Compilation.yields_bind hr
        have hr := Compilation.yields_pure hr
        rw [List.getD_eq_getElem?_getD, hy, Option.getD_some] at hr
        exact hall x (hr.symm.trans hx)

/-- Exploration finds what is reachable when negative literals are ignored, or that the goal is not. -/
theorem exists_isReachablePart (ht : t.IsNormal) (hg : t.IsGroundable) {budget : Budget}
    (h : (explore t budget).Yields g) : ∃ K, IsGrounded t K ∧
      (g.relaxedReachable = false ∧ (.goalReachable, []) ∉ K ∨
        g.relaxedReachable = true ∧ g.IsReachablePart t K) := by
  obtain ⟨model, hmodel, h⟩ := Compilation.yields_bind h
  obtain ⟨K, hK, hreading⟩ := Program.exists_isGrounded ht hg hmodel
  exact ⟨K, hK, isReachablePart_of_yields_ofModel hK hreading h⟩

end ReachablePart

open Datalog
open Grounding (valuesOf)

variable {t : Task} {K : Set Mention} {g : GroundTask} {s s' : Interpretation} {b : Atom}

/-! ### States of the task -/

/-- A state with atoms of a set, in which the atoms that cannot change are as given. -/
structure IsStateOf (t : Task) (K : Set Mention) (s : Interpretation) : Prop where
  covered : ∀ b ∈ s, mention b ∈ K
  static : ∀ b : Atom, b.predicate ∉ t.fluentPredicates → (b ∈ s ↔ b ∈ t.given)

theorem mem_fluentPredicates_of_isDerived (h : t.isDerived b = true) :
    b.predicate ∈ t.fluentPredicates := by
  rw [Task.isDerived] at h
  split at h
  next name hname =>
    obtain ⟨x, hx, he⟩ := List.any_eq_true.mp h
    rw [hname, ← beq_iff_eq.mp he]
    exact List.mem_append_right _ (List.mem_map_of_mem hx)
  next => cases h

theorem mem_fluentPredicates_of_triggers {a : Action} (ha : a ∈ t.actions) {args : List String}
    {l : Literal} (h : t.Triggers s a args l) : l.atom.predicate ∈ t.fluentPredicates := by
  obtain ⟨e, he, os, -, -, rfl⟩ := h
  exact List.mem_append_left _ (List.mem_flatMap.mpr ⟨a, ha, List.mem_map_of_mem he⟩)

theorem isStateOf_given (hK : Covers t K) : IsStateOf t K t.given where
  covered b hb := hK.facts b (List.mem_append.mpr hb.symm)
  static _ _ := Iff.rfl

theorem IsStateOf.complete (hK : Covers t K) (ht : t.IsNormal) (h : IsStateOf t K s) :
    IsStateOf t K (t.complete s) where
  covered := hK.complete ht h.covered
  static b hb := by
    have hbasic : t.isDerived b = false := Bool.eq_false_iff.mpr fun hderived =>
      hb (mem_fluentPredicates_of_isDerived hderived)
    rw [Task.mem_complete_of_not_derived _ hbasic, h.static b hb]

theorem IsStateOf.successor (hK : Covers t K) (ht : t.IsNormal) (h : IsStateOf t K s) {a : Action}
    (ha : a ∈ t.actions) {args : List String} (happ : t.Applicable s a args) :
    IsStateOf t K (t.successor s a args) where
  covered b hb := by
    obtain ⟨i, hi⟩ := List.mem_iff_getElem?.mp ha
    rcases hb with hb | ⟨hb, -⟩
    · exact hK.triggers h.covered hi (ht.actions a ha) happ.1
        (hK.action_applicable h.covered hi (ht.actions a ha) happ) hb
    · exact h.covered b hb
  static b hb := by
    have hadd : ¬ t.Triggers s a args b.positive := fun htrigger =>
      hb (mem_fluentPredicates_of_triggers ha htrigger)
    have hdelete : ¬ t.Triggers s a args b.negative := fun htrigger =>
      hb (mem_fluentPredicates_of_triggers ha htrigger)
    rw [← h.static b hb]
    exact ⟨fun hmem => hmem.elim (fun h => absurd h hadd) fun h => h.1, fun hmem => .inr ⟨hmem, hdelete⟩⟩

theorem isStateOf_of_reachable (hK : Covers t K) (ht : t.IsNormal) (h : t.Reachable s) :
    IsStateOf t K s := by
  induction h with
  | init => exact (isStateOf_given hK).complete hK ht
  | step _ ha happ ih => exact (ih.successor hK ht ha happ).complete hK ht

section Fluent

variable {atoms : List Atom} (hK : Covers t K) (h : IsStateOf t K s)
  (hatoms : ∀ b, b ∈ atoms ↔ b.predicate ∈ t.fluentPredicates ∧ mention b ∈ K)
include h hatoms

include hK in
theorem IsStateOf.fixedOutside : FixedOutside {a | a ∈ atoms} t.given s := by
  intro b hb
  by_cases hfluent : b.predicate ∈ t.fluentPredicates
  · have hmention : mention b ∉ K := fun hmem => hb ((hatoms b).mpr ⟨hfluent, hmem⟩)
    exact iff_of_false (fun hs => hmention (h.covered b hs))
      fun hs => hmention ((isStateOf_given hK).covered b hs)
  · exact h.static b hfluent

variable {a : Action} (ha : a ∈ t.actions) {args : List String}
  (hcovered : ∀ b : Atom, t.Triggers s a args b.positive → mention b ∈ K)
include ha hcovered

/-- An action that adds atoms of the set changes only those that may change. -/
theorem IsStateOf.mem_successor_of_not_mem (hb : b ∉ atoms) :
    b ∈ t.successor s a args ↔ b ∈ s := by
  have hfluent : ∀ l : Literal, l.atom = b → t.Triggers s a args l → mention b ∉ K := by
    rintro l rfl htriggers hmention
    exact hb ((hatoms _).mpr ⟨mem_fluentPredicates_of_triggers ha htriggers, hmention⟩)
  constructor
  · rintro (hadd | ⟨hs, -⟩)
    · exact absurd (hcovered b hadd) (hfluent b.positive rfl hadd)
    · exact hs
  · exact fun hs => .inr ⟨hs, fun hdelete =>
      absurd (h.covered b hs) (hfluent b.negative rfl hdelete)⟩

include hK in
/-- An action without effects on the atoms that may change leads back to the same state. -/
theorem IsStateOf.successor_eq_self (hn : a.IsNormal t) (hnone : effectsOf t atoms a args = []) :
    t.successor s a args = s := by
  have hnot : ∀ l : Literal, l.atom ∈ atoms → ¬ t.Triggers s a args l := by
    intro l hl htriggers
    obtain ⟨x, hx, -⟩ := (triggers_iff hn (h.fixedOutside hK hatoms) hl).mp htriggers
    rw [hnone] at hx
    exact List.not_mem_nil hx
  refine Set.ext fun b => ?_
  by_cases hb : b ∈ atoms
  · exact ⟨fun hmem => hmem.elim (fun hadd => absurd hadd (hnot b.positive hb)) And.left,
      fun hs => .inr ⟨hs, hnot b.negative hb⟩⟩
  · exact h.mem_successor_of_not_mem hatoms ha hcovered hb

end Fluent

/-- Completing a state again changes nothing. -/
theorem complete_complete : t.complete (t.complete s) = t.complete s := by
  rw [Task.complete]
  refine congrArg _ (Set.ext fun a => and_congr_left fun ha => ?_)
  exact t.mem_complete_of_not_derived ha

theorem complete_of_reachable (h : t.Reachable s) : t.complete s = s := by
  cases h with
  | init | step _ _ _ => exact complete_complete

namespace IsReachablePart

variable (hg : g.IsReachablePart t K)
include hg

theorem fixedOutside (hK : Covers t K) (h : IsStateOf t K s) :
    FixedOutside {a | a ∈ g.atoms} t.given s := h.fixedOutside hK hg.atoms

/-! ### Axioms -/

theorem effect_mem_atoms (hK : IsGrounded t K) (ht : t.IsNormal) {x : GroundAxiom}
    (hx : x ∈ g.axioms) : x.effect ∈ g.atoms ∧ t.isDerived x.effect = true := by
  obtain ⟨i, y, args, hy, hmem, hinstance⟩ := (hg.axioms x).mp hx
  obtain ⟨-, rfl⟩ := axiomInstance?_eq_some_iff.mp hinstance
  obtain ⟨y', hy', htyped⟩ := hK.typed_axiom i args hmem
  obtain rfl := Option.some.inj (hy.symm.trans hy')
  have hmem' := List.mem_of_getElem? hy
  have hderived : t.isDerived (Task.axiomInstance y args).effect = true :=
    t.isDerived_effect ⟨y, hmem', args, htyped, rfl⟩
  exact ⟨(hg.atoms _).mpr ⟨mem_fluentPredicates_of_isDerived hderived,
    hK.axiom_head hy (ht.axioms y hmem') htyped hmem⟩, hderived⟩

variable (hK : IsGrounded t K) (ht : t.IsNormal)
include hK ht

/-- What follows in a state from the instances of the axioms, outside of the atoms that may change,
is what is given. -/
theorem fixedOutside_consequences (h : IsStateOf t K s) (N : Interpretation) :
    FixedOutside {a | a ∈ g.atoms} t.given
      (consequences t.axiomInstances {a ∈ s | t.isDerived a = false} N) := by
  have hcovered : ∀ {b}, b ∈ consequences t.axiomInstances {a ∈ s | t.isDerived a = false} N →
      mention b ∈ K := fun hb => hK.derives ht (fun b hb => h.covered b hb.1) hb
  intro b hb
  by_cases hfluent : b.predicate ∈ t.fluentPredicates
  · have hmention : mention b ∉ K := fun hmem => hb ((hg.atoms b).mpr ⟨hfluent, hmem⟩)
    exact iff_of_false (fun hs => hmention (hcovered hs))
      fun hs => hmention ((isStateOf_given hK.toCovers).covered b hs)
  · have hbasic : t.isDerived b = false := Bool.eq_false_iff.mpr fun hderived =>
      hfluent (mem_fluentPredicates_of_isDerived hderived)
    have hhead : ¬ IsHead t.axiomInstances b := by
      rintro ⟨x, hx, rfl⟩
      rw [t.isDerived_effect hx] at hbasic
      cases hbasic
    rw [mem_consequences_of_not_head hhead]
    exact ⟨fun hs => (h.static b hfluent).mp hs.1, fun hs => ⟨(h.static b hfluent).mpr hs, hbasic⟩⟩

section Negations

-- what follows when negations are read against interpretations that agree on the atoms that change
variable {N N' : Interpretation} (h : IsStateOf t K s)
  (hs : ∀ b ∈ g.atoms, b ∈ s' ↔ b ∈ s ∧ t.isDerived b = false)
  (hN : FixedOutside {a | a ∈ g.atoms} t.given N) (hagree : AgreeOn {a | a ∈ g.atoms} N N')
include h hN

/-- Literals on atoms that do not change are read in the same way whatever the axioms are. -/
theorem reads_fixed_iff {l : Literal} (hl : l.atom ∉ g.atoms) :
    (l.negated = false → l.atom ∈ consequences t.axiomInstances {a ∈ s | t.isDerived a = false} N) ∧
      (l.negated = true → l.atom ∉ N) ↔ l.Holds t.given := by
  have hpositive := hg.fixedOutside_consequences hK ht h N l.atom hl
  cases hn : l.negated with
  | false => simp [Literal.Holds, hn, hpositive]
  | true => simp [Literal.Holds, hn, hN l.atom hl]

include hs hagree

theorem mem_consequences_found (hb : b ∈ g.atoms)
    (hder : b ∈ consequences t.axiomInstances {a ∈ s | t.isDerived a = false} N) :
    b ∈ consequences {x | x ∈ g.axioms} s' N' := by
  induction hder with
  | given hb' => exact .given ((hs _ hb).mpr hb')
  | rule hx positive negative ih =>
      obtain ⟨y, hy, args, htyped, rfl⟩ := hx
      obtain ⟨i, hi⟩ := List.mem_iff_getElem?.mp hy
      have happ : (.derivation i, args) ∈ K := by
        refine hK.applicable (c := y.condition) (mem_clauses_of_mem_axioms hi List.mem_cons_self)
          (ht.axioms y hy).parameters htyped fun l hl hpos => ?_
        exact hK.derives ht (fun b hb => h.covered b hb.1)
          (positive _ (List.mem_map_of_mem hl) hpos)
      have hinstance := axiomInstance?_eq_some_iff.mpr
        ⟨fun l hl hnot => (hg.reads_fixed_iff hK ht h hN hnot).mp ⟨positive l hl, negative l hl⟩,
          rfl⟩
      refine Derives.rule (x := { Task.axiomInstance y args with
        condition := (Task.axiomInstance y args).condition.filter fun l =>
          decide (l.atom ∈ g.atoms) })
        ((hg.axioms _).mpr ⟨i, y, args, hi, happ, hinstance⟩) (fun l hl hpos => ?_)
        fun l hl hneg => ?_
      · obtain ⟨hl, hmem⟩ := List.mem_filter.mp hl
        exact ih l hl hpos (of_decide_eq_true hmem)
      · obtain ⟨hl, hmem⟩ := List.mem_filter.mp hl
        exact fun hN' => negative l hl hneg ((hagree _ (of_decide_eq_true hmem)).mpr hN')

theorem mem_consequences_of_found (hb : b ∈ g.atoms)
    (hder : b ∈ consequences {x | x ∈ g.axioms} s' N') :
    b ∈ consequences t.axiomInstances {a ∈ s | t.isDerived a = false} N := by
  induction hder with
  | given hb' => exact .given ((hs _ hb).mp hb')
  | rule hx _ negative ih =>
      obtain ⟨i, y, args, hy, hmem, hinstance⟩ := (hg.axioms _).mp hx
      obtain ⟨hfixedHold, rfl⟩ := axiomInstance?_eq_some_iff.mp hinstance
      obtain ⟨y', hy', htyped⟩ := hK.typed_axiom i args hmem
      obtain rfl := Option.some.inj (hy.symm.trans hy')
      have hfixed := fun l (hl : l ∈ (Task.axiomInstance y args).condition) hla =>
        (hg.reads_fixed_iff hK ht h hN hla).mpr (hfixedHold l hl hla)
      refine Derives.rule (x := Task.axiomInstance y args)
        ⟨y, List.mem_of_getElem? hy, args, htyped, rfl⟩ (fun l hl hpos => ?_) fun l hl hneg => ?_
      · by_cases hla : l.atom ∈ g.atoms
        · exact ih l (List.mem_filter.mpr ⟨hl, decide_eq_true hla⟩) hpos hla
        · exact (hfixed l hl hla).1 hpos
      · by_cases hla : l.atom ∈ g.atoms
        · exact fun hN => negative l (List.mem_filter.mpr ⟨hl, decide_eq_true hla⟩) hneg
            ((hagree _ hla).mp hN)
        · exact (hfixed l hl hla).2 hneg

end Negations

/-- The axioms that were found give the atoms that may change the values that they have by all
axioms. -/
theorem agreeOn_complete (h : IsStateOf t K s)
    (hs : ∀ b ∈ g.atoms, b ∈ s' ↔ b ∈ s ∧ t.isDerived b = false) :
    AgreeOn {a | a ∈ g.atoms} (t.complete s) (interpretation {x | x ∈ g.axioms} s') :=
  agreeOn_interpretation (hg.fixedOutside_consequences hK ht h) fun _ _ hN hagree _ hb =>
    ⟨hg.mem_consequences_found hK ht h hs hN hagree hb,
      hg.mem_consequences_of_found hK ht h hs hN hagree hb⟩

end IsReachablePart

/-! ### Runs -/

/-- The ground task with a goal and axioms with layers. -/
abbrev propositional (g : GroundTask) (t : Task) (goal : List Literal) (axioms : StratifiedAxioms) :
    PropositionalTask :=
  ⟨g.atoms, t.init, goal, g.actions, axioms, t.minimizesCost⟩

/-- The states agree on the atoms that may change and do not lack a layer. -/
structure Matches (t : Task) (g : GroundTask) (axioms : StratifiedAxioms)
    (s s' : Interpretation) : Prop where
  agree : ∀ a ∈ g.atoms, (IsHead {x | x ∈ g.axioms} a → a ∈ axioms.keys) → (a ∈ s ↔ a ∈ s')
  derived : ∀ a ∈ s', t.isDerived a = true → a ∈ axioms.keys

section Runs

variable {goal : List Literal} {axioms : StratifiedAxioms} (hg : g.IsReachablePart t K)
  (hK : IsGrounded t K) (ht : t.IsNormal) (hreduction : axioms.IsReduction g.axioms)

section Uses

variable {uses : List Literal}
  (huses : ∀ l ∈ uses, IsHead {x | x ∈ g.axioms} l.atom → l.atom ∈ axioms.keys)
  (hatoms : ∀ l ∈ uses, l.atom ∈ g.atoms)
include huses hatoms

theorem Matches.allHold_iff (h : Matches t g axioms s s') : AllHold s uses ↔ AllHold s' uses :=
  allHold_congr fun l hl => h.agree l.atom (hatoms l hl) (huses l hl)

end Uses

include hreduction in
theorem isDerived_propositional {a : Atom} :
    (g.propositional t goal axioms).IsDerived a ↔ a ∈ axioms.keys := by
  refine ⟨fun ha => ha.elim id fun ha => ?_, .inl⟩
  obtain ⟨x, hx, rfl⟩ := List.mem_map.mp ha
  exact (hreduction.sound x hx).1

include hg hK ht hreduction

/-- Matching states are completed to matching states. -/
theorem matches_complete (h : IsStateOf t K s)
    (hagree : ∀ a ∈ g.atoms, t.isDerived a = false → (a ∈ s ↔ a ∈ s'))
    (hderived : ∀ a ∈ s', t.isDerived a = true → a ∈ axioms.keys) :
    Matches t g axioms (t.complete s) ((g.propositional t goal axioms).complete s') := by
  have hkey : ∀ {a}, a ∈ axioms.keys → t.isDerived a = true := by
    intro a ha
    obtain ⟨x, hx, rfl⟩ := hreduction.head a ha
    exact (hg.effect_mem_atoms hK ht hx).2
  have hbase : ∀ a ∈ ({a ∈ s' | ¬ (g.propositional t goal axioms).IsDerived a} : Set Atom),
      a ∈ s' ∧ t.isDerived a = false := by
    rintro a ⟨ha, hnot⟩
    rw [isDerived_propositional hreduction] at hnot
    exact ⟨ha, Bool.eq_false_iff.mpr fun hd => hnot (hderived a ha hd)⟩
  refine ⟨fun a ha hlayer => ?_, fun a ha hd => ?_⟩
  · rw [PropositionalTask.complete, hreduction.mem_interpretation_iff (fun b hb hhead => ?_) hlayer]
    · refine hg.agreeOn_complete hK ht h (fun b hb => ⟨fun hmem => ?_, fun hmem => ?_⟩) a ha
      · obtain ⟨hmem, hbasic⟩ := hbase b hmem
        exact ⟨(hagree b hb hbasic).mpr hmem, hbasic⟩
      · refine ⟨(hagree b hb hmem.2).mp hmem.1, fun hd => ?_⟩
        rw [isDerived_propositional hreduction] at hd
        rw [hkey hd] at hmem
        exact Bool.false_ne_true hmem.2.symm
    · obtain ⟨x, hx, rfl⟩ := hhead
      have hbasic := (hbase _ hb).2
      rw [(hg.effect_mem_atoms hK ht hx).2] at hbasic
      exact Bool.false_ne_true hbasic.symm
  · by_contra hnot
    have hnot' : ¬ (g.propositional t goal axioms).IsDerived a := fun hmem =>
      hnot ((isDerived_propositional hreduction).mp hmem)
    exact hnot (hderived a ((PropositionalTask.mem_complete_of_not_derived _ hnot').mp ha) hd)

/-- The initial states match. -/
theorem matches_initialState :
    Matches t g axioms t.initialState (g.propositional t goal axioms).initialState := by
  refine matches_complete hg hK ht hreduction (isStateOf_given hK.toCovers) (fun a ha _ => ?_)
    fun a ha hd => ?_
  · refine ⟨fun hgiven => hgiven.resolve_right fun htype => ?_, .inl⟩
    obtain ⟨o, -, htype⟩ := List.mem_flatMap.mp htype
    obtain ⟨type, -, rfl⟩ := List.mem_map.mp htype
    have hfluent := ((hg.atoms _).mp ha).1
    rcases List.mem_append.mp hfluent with hmem | hmem
    · obtain ⟨b, hb, hmem⟩ := List.mem_flatMap.mp hmem
      obtain ⟨e, he, hpredicate⟩ := List.mem_map.mp hmem
      obtain ⟨name, hname⟩ := ((ht.actions b hb).effects e he).named
      exact Predicate.noConfusion (hname.symm.trans hpredicate)
    · obtain ⟨x, -, hpredicate⟩ := List.mem_map.mp hmem
      cases hpredicate
  · rw [(ht.init a ha).2] at hd
    cases hd

/-- An action leads from matching states to matching states. -/
theorem Matches.step (hs : IsStateOf t K s) (h : Matches t g axioms s s') {i : Nat} {a : Action}
    (ha : t.actions[i]? = some a) {args : List String} {x : GroundAction}
    (hx : (grounding t g.atoms).action? a args = .ok (some x))
    (huses : ∀ l ∈ x.conditionLiterals, IsHead {x | x ∈ g.axioms} l.atom → l.atom ∈ axioms.keys)
    (happ : t.Applicable s a args) :
    Matches t g axioms (t.complete (t.successor s a args))
      ((g.propositional t goal axioms).complete (x.successor s')) := by
  have hmem := List.mem_of_getElem? ha
  have hn := ht.actions a hmem
  have hinstance := isInstance_of_action? hx
  have hfixed := hg.fixedOutside hK.toCovers hs
  have hatoms := hinstance.mem_atoms_of_mem_conditionLiterals
  have hbasic : ∀ e ∈ x.adds ++ x.deletes, t.isDerived e.atom = false := fun e he =>
    not_isDerived_of_mem_effects (fun d hd => (hn.effects d hd).basic) hx he
  have htriggered : ∀ effects : List ConditionalEffect, effects ⊆ x.adds ++ x.deletes →
      GroundAction.triggered effects s = GroundAction.triggered effects s' := by
    intro effects hsub
    refine Set.ext fun b => exists_congr fun e => and_congr_right fun he => and_congr_left fun _ => ?_
    refine Matches.allHold_iff (fun l hl => ?_) (fun l hl => ?_) h
    all_goals
      have hl : l ∈ x.conditionLiterals :=
        List.mem_append_right _ (List.mem_flatMap.mpr ⟨e, hsub he, hl⟩)
    · exact huses l hl
    · exact hatoms l hl
  refine matches_complete hg hK ht hreduction (hs.successor hK.toCovers ht hmem happ)
    (fun b hb hd => ?_) fun b hb hd => ?_
  · have hhead : ¬ IsHead {x | x ∈ g.axioms} b := by
      rintro ⟨y, hy, rfl⟩
      rw [(hg.effect_mem_atoms hK ht hy).2] at hd
      cases hd
    rw [hinstance.mem_successor_iff hn hfixed hb, GroundAction.mem_successor,
      GroundAction.mem_successor, htriggered _ (List.subset_append_left _ _),
      htriggered _ (List.subset_append_right _ _), h.agree b hb fun hhead' => absurd hhead' hhead]
  · rcases hb with ⟨e, he, -, rfl⟩ | ⟨hb, -⟩
    · rw [hbasic e (List.mem_append_left _ he)] at hd
      cases hd
    · exact h.derived b hb hd

section Reachability

variable (huses : ∀ l ∈ goal ++ g.actions.flatMap (·.conditionLiterals),
  IsHead {x | x ∈ g.axioms} l.atom → l.atom ∈ axioms.keys)
include huses

/-- Each reachable state of the task is matched by one of the ground task. -/
theorem exists_reachable_propositional (h : t.Reachable s) :
    ∃ s', (g.propositional t goal axioms).Reachable s' ∧ Matches t g axioms s s' := by
  induction h with
  | init => exact ⟨_, .init, matches_initialState hg hK ht hreduction⟩
  | @step s a args hreachable ha happ ih =>
      obtain ⟨s', hs', hmatch⟩ := ih
      have hs := isStateOf_of_reachable hK.toCovers ht hreachable
      obtain ⟨i, hi⟩ := List.mem_iff_getElem?.mp ha
      have hn := ht.actions a ha
      obtain ⟨r, hr, hlisted⟩ := hg.action i a args hi
        (hK.action_applicable hs.covered hi hn happ)
      have hfixed := hg.fixedOutside hK.toCovers hs
      cases r with
      | none =>
          rcases of_action?_eq_none hr with hcondition | hnone
          · exact absurd happ.2 (not_holds_of_condition? hfixed hn.precondition hcondition)
          · have hself : t.successor s a args = s := hs.successor_eq_self hK.toCovers hg.atoms ha
              (fun b hb => (hs.successor hK.toCovers ht ha happ).covered b (.inl hb)) hn hnone
            rw [hself, complete_of_reachable hreachable]
            exact ⟨s', hs', hmatch⟩
      | some x =>
          have hx := hlisted x rfl
          have huses' : ∀ l ∈ x.conditionLiterals, IsHead {x | x ∈ g.axioms} l.atom →
              l.atom ∈ axioms.keys := fun l hl =>
            huses l (List.mem_append_right _ (List.mem_flatMap.mpr ⟨x, hx, hl⟩))
          have hinstance := isInstance_of_action? hr
          have happ' : x.Applicable s' := by
            refine (Matches.allHold_iff (fun l hl => huses' l (List.mem_append_left _ hl))
              (fun l hl => hinstance.mem_atoms_of_mem_conditionLiterals l
                (List.mem_append_left _ hl)) hmatch).mp ?_
            exact (hinstance.holds_precondition_iff hn hfixed).mp happ.2
          exact ⟨_, .step hs' hx happ',
            hmatch.step hg hK ht hreduction hs hi hr huses' happ⟩

/-- Each reachable state of the ground task matches one of the task. -/
theorem exists_reachable_of_propositional (h : (g.propositional t goal axioms).Reachable s') :
    ∃ s, t.Reachable s ∧ Matches t g axioms s s' := by
  induction h with
  | init => exact ⟨_, .init, matches_initialState hg hK ht hreduction⟩
  | @step s' x hreachable hx happ ih =>
      obtain ⟨s, hs, hmatch⟩ := ih
      have hstate := isStateOf_of_reachable hK.toCovers ht hs
      obtain ⟨i, a, args, hi, hmem, hr⟩ := hg.actions x hx
      obtain ⟨a', ha', htyped⟩ := hK.typed_action i args hmem
      obtain rfl := Option.some.inj (hi.symm.trans ha')
      have hn := ht.actions a (List.mem_of_getElem? hi)
      have hinstance := isInstance_of_action? hr
      have huses' : ∀ l ∈ x.conditionLiterals, IsHead {x | x ∈ g.axioms} l.atom →
          l.atom ∈ axioms.keys := fun l hl =>
        huses l (List.mem_append_right _ (List.mem_flatMap.mpr ⟨x, hx, hl⟩))
      have happ' : t.Applicable s a args := by
        refine ⟨htyped, (hinstance.holds_precondition_iff hn
          (hg.fixedOutside hK.toCovers hstate)).mpr ?_⟩
        exact (Matches.allHold_iff (fun l hl => huses' l (List.mem_append_left _ hl))
          (fun l hl => hinstance.mem_atoms_of_mem_conditionLiterals l
            (List.mem_append_left _ hl)) hmatch).mpr happ
      exact ⟨_, .step hs (List.mem_of_getElem? hi) happ',
        hmatch.step hg hK ht hreduction hstate hi hr huses' happ'⟩

/-- The ground task has a plan if the task has one. -/
theorem solvable_propositional_iff (hgoal : g.goal = some goal) :
    (g.propositional t goal axioms).Solvable ↔ t.Solvable := by
  rw [hg.goal] at hgoal
  have hholds : ∀ {s s'}, t.Reachable s → Matches t g axioms s s' →
      (t.Holds s [] t.goal ↔ AllHold s' goal) := by
    intro s s' hs hmatch
    rw [holds_iff_of_condition? (hg.fixedOutside hK.toCovers
      (isStateOf_of_reachable hK.toCovers ht hs)) ht.goal hgoal]
    exact Matches.allHold_iff (fun l hl => huses l (List.mem_append_left _ hl))
      (mem_atoms_of_condition? hgoal) hmatch
  constructor
  · rintro ⟨s', hs', hgoal'⟩
    obtain ⟨s, hs, hmatch⟩ := exists_reachable_of_propositional hg hK ht hreduction huses hs'
    exact ⟨s, hs, (hholds hs hmatch).mpr hgoal'⟩
  · rintro ⟨s, hs, hgoal'⟩
    obtain ⟨s', hs', hmatch⟩ := exists_reachable_propositional hg hK ht hreduction huses hs
    exact ⟨s', hs', (hholds hs hmatch).mp hgoal'⟩

end Reachability

omit hreduction in
/-- If a literal of the goal that cannot change is false there is no plan. -/
theorem not_solvable_of_goal_eq_none (hgoal : g.goal = none) : ¬ t.Solvable := by
  rw [hg.goal] at hgoal
  rintro ⟨s, hs, hholds⟩
  exact not_holds_of_condition? (hg.fixedOutside hK.toCovers
    (isStateOf_of_reachable hK.toCovers ht hs)) ht.goal hgoal hholds

end Runs

/-- If the goal does not follow from the grounding program there is no plan. -/
theorem not_solvable_of_goalReachable_not_mem (hK : Covers t K) (ht : t.IsNormal)
    (h : (.goalReachable, []) ∉ K) : ¬ t.Solvable := by
  rintro ⟨s, hs, hholds⟩
  exact h (hK.goal_reachable (hK.reachable ht hs) ht.goal hholds)

end GroundTask
end FinitePlanning
