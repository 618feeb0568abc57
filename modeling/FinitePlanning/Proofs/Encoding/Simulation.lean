import FinitePlanning.Proofs.Compilation
import FinitePlanning.Proofs.Encoding.Dictionary
import FinitePlanning.Proofs.Encoding.Successor

/-!
The encoded task simulates the ground task. The valuation of a reachable state
satisfies an operator, a rule or the goal as the state satisfies what they were
built from, and operators lead from valuations of states to those of their
successors.
-/

namespace FinitePlanning

namespace FiniteDomain

open Encoder

theorem yields_fitting {α : Type} {r : Except Mismatch α} {a : α}
    (h : (fitting r).Yields a) : r = .ok a := by
  cases r with
  | ok b => rw [Compilation.yields_pure h]
  | error m => exact absurd h Compilation.not_yields_throw

/-- The encoded task, put together from its parts. -/
def assemble (t : PropositionalTask) (groups : FactGroups) (isPartial : Bool)
    (init : Array Nat) (goal : List Fact) (rules : List (List Rule))
    (layers : Array (Option Nat)) : Task where
  vars := (Dictionary.ofGroups groups.groups).vars layers groups.valueNames
  mutexes := if isPartial then
    groups.mutexGroups.map (Dictionary.ofGroups groups.groups).mutexGroup else []
  init := init
  goal := goal
  operators := (t.actions.filterMap (ActionEncoding.ofAction
    (encoderOf groups.groups groups.mutexGroups))).flatMap (·.operators)
  rules := rules.flatten
  metric := t.metric

/-- What an encoded task is made of. -/
structure EncodedFrom (t : PropositionalTask) (groups : FactGroups) (isPartial : Bool)
    (task : Task) : Prop where
  atoms : t.atoms.forM ((Dictionary.ofGroups groups.groups).checkAtom isPartial) = .ok ()
  init : (Dictionary.ofGroups groups.groups).initialState t.init = .ok task.init
  goal : (encoderOf groups.groups groups.mutexGroups).assignments? t.goal = some [task.goal]
  operators : task.operators = (t.actions.filterMap (ActionEncoding.ofAction
    (encoderOf groups.groups groups.mutexGroups))).flatMap (·.operators)
  rules : ∃ rules, t.axioms.axioms.mapM (encoderOf groups.groups groups.mutexGroups).rules =
    .ok rules ∧ task.rules = rules.flatten
  vars : ∃ layers, (Dictionary.ofGroups groups.groups).variableLayers t.axioms.layers =
    .ok layers ∧ task.vars = (Dictionary.ofGroups groups.groups).vars layers groups.valueNames
  mutexes : task.mutexes = if isPartial then
    groups.mutexGroups.map (Dictionary.ofGroups groups.groups).mutexGroup else []

theorem encodedFrom_of_yields_task {t : PropositionalTask} {groups : FactGroups}
    {isPartial : Bool} {init : Array Nat} {goal : List Fact} {task : Task}
    (hatoms : t.atoms.forM ((Dictionary.ofGroups groups.groups).checkAtom isPartial) = .ok ())
    (hinit : (Dictionary.ofGroups groups.groups).initialState t.init = .ok init)
    (hgoal : (encoderOf groups.groups groups.mutexGroups).assignments? t.goal = some [goal])
    (h : (Encoder.task (encoderOf groups.groups groups.mutexGroups) t groups isPartial init
      goal).Yields task) : EncodedFrom t groups isPartial task := by
  rw [Encoder.task] at h
  obtain ⟨rules, hrules, h⟩ := Compilation.yields_bind h
  obtain ⟨-, -, h⟩ := Compilation.yields_bind h
  obtain ⟨-, -, h⟩ := Compilation.yields_bind h
  obtain ⟨layers, hlayers, h⟩ := Compilation.yields_bind h
  have htask : task = assemble t groups isPartial init goal rules layers := by
    cases isPartial with
    | true => exact (Compilation.yields_pure h).symm
    | false =>
        simp only [Bool.not_false, ↓reduceIte] at h
        obtain ⟨-, -, h⟩ := Compilation.yields_bind h
        exact (Compilation.yields_pure h).symm
  subst htask
  exact ⟨hatoms, hinit, hgoal, rfl, ⟨rules, yields_fitting hrules, rfl⟩,
    ⟨layers, yields_fitting hlayers, rfl⟩, rfl⟩

theorem encodedFrom_of_yields {t : PropositionalTask} {groups : FactGroups}
    {isPartial : Bool} {task : Task} (h : (Task.encode t groups isPartial).Yields (.ok task)) :
    EncodedFrom t groups isPartial task := by
  rw [Task.encode] at h
  obtain ⟨⟨⟩, hatoms, h⟩ := Compilation.yields_bind h
  obtain ⟨init, hinit, h⟩ := Compilation.yields_bind h
  split at h
  next => cases Compilation.yields_pure h
  next => cases Compilation.yields_pure h
  next goal _ hgoal =>
    obtain ⟨task', htask, h⟩ := Compilation.yields_bind h
    cases Compilation.yields_pure h
    exact encodedFrom_of_yields_task (yields_fitting hatoms) (yields_fitting hinit) hgoal htask
  next => exact absurd h Compilation.not_yields_throw

/-- The encoding succeeds if everything fits and the goal has one assignment. -/
theorem gives_encode {t : PropositionalTask} {groups : FactGroups} {isPartial : Bool}
    {init : Array Nat} {goal : List Fact} {rules : List (List Rule)}
    {layers : Array (Option Nat)} (hne : goal ≠ [])
    (hatoms : t.atoms.forM ((Dictionary.ofGroups groups.groups).checkAtom isPartial) = .ok ())
    (hinit : (Dictionary.ofGroups groups.groups).initialState t.init = .ok init)
    (hgoal : (encoderOf groups.groups groups.mutexGroups).assignments? t.goal = some [goal])
    (hrules : t.axioms.axioms.mapM (encoderOf groups.groups groups.mutexGroups).rules = .ok rules)
    (hlayers : (Dictionary.ofGroups groups.groups).variableLayers t.axioms.layers = .ok layers) :
    (Task.encode t groups isPartial).Gives
      (.ok (assemble t groups isPartial init goal rules layers)) := by
  have htask : (Encoder.task (encoderOf groups.groups groups.mutexGroups) t groups
      isPartial init goal).Gives (assemble t groups isPartial init goal rules layers) := by
    rw [Encoder.task, hrules, hlayers]
    refine (Compilation.gives_pure rules).bind ((Compilation.gives_log _ _).bind
      ((Compilation.gives_log _ _).bind ((Compilation.gives_pure layers).bind ?_)))
    cases isPartial with
    | true => exact Compilation.gives_pure _
    | false => exact (Compilation.gives_log _ _).bind (Compilation.gives_pure _)
  rw [Task.encode, hatoms, hinit]
  refine (Compilation.gives_pure ()).bind ((Compilation.gives_pure init).bind ?_)
  obtain ⟨f, goal, rfl⟩ := List.exists_cons_of_ne_nil hne
  simp only [hgoal]
  exact htask.bind (Compilation.gives_pure _)

end FiniteDomain

namespace PropositionalTask

open FiniteDomain

/-- The conditions of a ground task: the goal, and those of actions and axioms. -/
def conditions (t : PropositionalTask) : List (List Literal) :=
  t.goal :: (t.actions.flatMap fun a =>
    a.precondition :: (a.adds ++ a.deletes).map (·.condition)) ++
      t.axioms.axioms.map (·.condition)

/-- Fact groups that suit a ground task: no state that it reaches has two true
atoms in one group, and derived atoms are in groups of their own. -/
structure Suits (t : PropositionalTask) (groups : FactGroups) : Prop where
  nodup : NodupGroups groups.groups groups.mutexGroups
  covered : ∀ c ∈ t.conditions, ∀ l ∈ c, ∃ g ∈ groups.groups, l.atom ∈ g
  derived_alone : ∀ g ∈ groups.groups, ∀ a ∈ g, t.IsDerived a → g = [a]
  effects_basic : ∀ a ∈ t.actions, ∀ x ∈ a.adds ++ a.deletes, ¬ t.IsDerived x.atom
  exclusive : ∀ s, t.Reachable s → ExclusiveIn groups.groups groups.mutexGroups s

variable {t : PropositionalTask} {groups : FactGroups}

theorem covers_of_mem_conditions
    (h : ∀ c ∈ t.conditions, ∀ l ∈ c, ∃ g ∈ groups.groups, l.atom ∈ g) {c : List Literal}
    (hc : c ∈ t.conditions) : (encoderOf groups.groups groups.mutexGroups).Covers c := by
  intro l hl
  obtain ⟨f, hf⟩ := Dictionary.exists_fact (h c hc l hl)
  exact List.ne_nil_of_mem hf

theorem coversAction_of_mem_actions
    (h : ∀ c ∈ t.conditions, ∀ l ∈ c, ∃ g ∈ groups.groups, l.atom ∈ g) {a : GroundAction}
    (ha : a ∈ t.actions) : (encoderOf groups.groups groups.mutexGroups).CoversAction a := by
  have hmem : ∀ c ∈ a.precondition :: (a.adds ++ a.deletes).map (·.condition),
      c ∈ t.conditions := fun c hc => List.mem_cons_of_mem _
    (List.mem_append_left _ (List.mem_flatMap.mpr ⟨a, ha, hc⟩))
  refine ⟨covers_of_mem_conditions h (hmem _ List.mem_cons_self), fun x hx => ?_,
    fun x hx => ?_⟩
  · exact covers_of_mem_conditions h (hmem _ (List.mem_cons_of_mem _
      (List.mem_map_of_mem (List.mem_append_left _ hx))))
  · exact covers_of_mem_conditions h (hmem _ (List.mem_cons_of_mem _
      (List.mem_map_of_mem (List.mem_append_right _ hx))))

/-- Before derived atoms are evaluated again the groups are exclusive already. -/
theorem Suits.exclusive_successor (h : t.Suits groups) {s : Interpretation}
    (hs : t.Reachable s) {a : GroundAction} (ha : a ∈ t.actions) (happ : a.Applicable s) :
    Exclusive groups.groups (a.successor s) := by
  intro g hg b hb c hc hbs hcs
  by_cases hd : t.IsDerived b ∨ t.IsDerived c
  · rcases hd with hd | hd
    · have hsingle := h.derived_alone g hg b hb hd
      rw [hsingle, List.mem_singleton] at hc
      exact hc.symm
    · have hsingle := h.derived_alone g hg c hc hd
      rw [hsingle, List.mem_singleton] at hb
      exact hb
  · push Not at hd
    refine (h.exclusive _ (.step hs ha happ)).groups g hg b hb c hc ?_ ?_
    · exact (t.mem_complete_of_not_derived hd.1).mpr hbs
    · exact (t.mem_complete_of_not_derived hd.2).mpr hcs

/-- The rules of an axiom can be applied in a state if its condition holds there,
and set the fact of its effect. -/
theorem exists_rules (h : t.Suits groups) {x : GroundAxiom} (hx : x ∈ t.axioms.axioms)
    {rs : List Rule} (hrs : (encoderOf groups.groups groups.mutexGroups).rules x = .ok rs) :
    (∀ s, ExclusiveIn groups.groups groups.mutexGroups s →
      ((∃ r ∈ rs, FactsHold (encodeState groups.groups s) r.condition) ↔
        AllHold s x.condition)) ∧
    ∀ r ∈ rs, r.effect ∈ (Dictionary.ofGroups groups.groups).facts x.effect := by
  have he := hasAlternatives_encoderOf groups.groups groups.mutexGroups
  have hcover := covers_of_mem_conditions h.covered (c := x.condition)
    (List.mem_append_right _ (List.mem_map_of_mem hx))
  rw [Encoder.rules] at hrs
  split at hrs
  next hnone =>
    cases hrs
    refine ⟨fun s hs => ?_, nofun⟩
    have hnot := Encoder.not_allHold_of_assignments he (shows_encoderOf h.nodup hs) hnone
    simp [hnot]
  next as has =>
    cases hf : (encoderOf groups.groups groups.mutexGroups).dictionary.derivedFact x.effect with
    | error m => rw [hf] at hrs; cases hrs
    | ok f =>
        rw [hf] at hrs
        cases hrs
        constructor
        · intro s hs
          have hshow := shows_encoderOf h.nodup hs
          simp only [List.mem_map, exists_exists_and_eq_and, Rule.ofParts,
            Operator.factsHold_orderedSet]
          constructor
          · rintro ⟨a, ha, hσ⟩
            exact Encoder.allHold_of_factsHold he hshow hcover has ha hσ
          · intro hall
            obtain ⟨as', has', a, ha, hσ⟩ := Encoder.exists_assignment he hshow hall
            obtain rfl := Option.some.inj (has.symm.trans has')
            exact ⟨a, ha, hσ⟩
        · intro r hr
          obtain ⟨a, -, rfl⟩ := List.mem_map.mp hr
          simp only [Dictionary.derivedFact] at hf
          split at hf
          next g hg =>
            cases hf
            simp [Rule.ofParts, hg]
          next => cases hf

/-- The operators of an action. -/
def operatorsOf (groups : FactGroups) (a : GroundAction) : List Operator :=
  ((ActionEncoding.ofAction (encoderOf groups.groups groups.mutexGroups) a).map
    (·.operators)).getD []

theorem flatMap_operatorsOf (actions : List GroundAction) :
    (actions.filterMap (ActionEncoding.ofAction
      (encoderOf groups.groups groups.mutexGroups))).flatMap (·.operators) =
      actions.flatMap (operatorsOf groups) := by
  induction actions with
  | nil => rfl
  | cons a actions ih =>
      rw [List.flatMap_cons, ← ih, List.filterMap_cons, operatorsOf]
      cases ActionEncoding.ofAction (encoderOf groups.groups groups.mutexGroups) a <;> simp

theorem exists_initialValue (h : t.Suits groups) {isPartial : Bool} {task : FiniteDomain.Task}
    (hrun : EncodedFrom t groups isPartial task) {var : Nat} {g : List Atom}
    (hg : groups.groups[var]? = some g) (hbasic : ∀ a ∈ g, ¬ t.IsDerived a) :
    task.initialValue var = encodeState groups.groups t.initialState var := by
  have hmem := List.mem_of_getElem? hg
  exact Dictionary.initialState_eq_encodeState hrun.init hg (h.nodup.groups g hmem)
    ((h.exclusive _ .init).groups g hmem) fun a ha =>
      (t.mem_complete_of_not_derived (s := {b | b ∈ t.init}) (hbasic a ha)).symm

theorem operatorsOf_of_applicable (h : t.Suits groups) {s : Interpretation}
    (hs : t.Reachable s) {a : GroundAction} (ha : a ∈ t.actions) (happ : a.Applicable s) :
    (∃ o, (operatorsOf groups a).filter
        (fun o => decide (o.Applicable (encodeState groups.groups s))) = [o] ∧
      o.apply (encodeState groups.groups s) =
        encodeState groups.groups (a.successor s)) ∨
    ((operatorsOf groups a).filter
        (fun o => decide (o.Applicable (encodeState groups.groups s))) = [] ∧
      encodeState groups.groups (a.successor s) = encodeState groups.groups s) := by
  have hex := h.exclusive s hs
  have hcover := coversAction_of_mem_actions h.covered ha
  cases hx : ActionEncoding.ofAction (encoderOf groups.groups groups.mutexGroups) a with
  | none =>
      -- the precondition violates a mutex, although it holds
      have hnone := Option.map_eq_none_iff.mp hx
      exact absurd happ (Encoder.not_allHold_of_assignments (hasAlternatives_encoderOf _ _)
        (shows_encoderOf h.nodup hex) hnone)
  | some x =>
      simp only [operatorsOf, hx, Option.map_some, Option.getD_some]
      exact operators_of_applicable h.nodup hex hcover (h.exclusive_successor hs ha happ) hx happ

theorem not_applicable_of_mem_operatorsOf (h : t.Suits groups) {s : Interpretation}
    (hs : t.Reachable s) {a : GroundAction} (ha : a ∈ t.actions) (happ : ¬ a.Applicable s)
    {o : Operator} (ho : o ∈ operatorsOf groups a) :
    ¬ o.Applicable (encodeState groups.groups s) := by
  cases hx : ActionEncoding.ofAction (encoderOf groups.groups groups.mutexGroups) a with
  | none => simp [operatorsOf, hx] at ho
  | some x =>
      simp only [operatorsOf, hx, Option.map_some, Option.getD_some] at ho
      exact not_applicable_of_mem_operators h.nodup (h.exclusive s hs)
        (coversAction_of_mem_actions h.covered ha) hx happ ho

theorem goal_holds_iff (h : t.Suits groups) {isPartial : Bool} {task : FiniteDomain.Task}
    (hrun : EncodedFrom t groups isPartial task) {s : Interpretation} (hs : t.Reachable s) :
    FactsHold (encodeState groups.groups s) task.goal ↔ AllHold s t.goal := by
  have he := hasAlternatives_encoderOf groups.groups groups.mutexGroups
  have hshow := shows_encoderOf h.nodup (h.exclusive s hs)
  have hcover := covers_of_mem_conditions h.covered (c := t.goal) List.mem_cons_self
  constructor
  · exact Encoder.allHold_of_factsHold he hshow hcover hrun.goal (List.mem_singleton_self _)
  · intro hall
    obtain ⟨as, has, a, ha, hσ⟩ := Encoder.exists_assignment he hshow hall
    obtain rfl := Option.some.inj (hrun.goal.symm.trans has)
    rwa [List.mem_singleton.mp ha] at hσ

/-- The name and the cost of an operator are those of its action. -/
theorem name_cost_of_mem_operatorsOf {a : GroundAction} {o : Operator}
    (ho : o ∈ operatorsOf groups a) : o.name = a.name ∧ o.cost = a.cost := by
  cases hx : ActionEncoding.ofAction (encoderOf groups.groups groups.mutexGroups) a with
  | none => simp [operatorsOf, hx] at ho
  | some x =>
      simp only [operatorsOf, hx, Option.map_some, Option.getD_some] at ho
      obtain ⟨ps, -, rfl⟩ := Option.map_eq_some_iff.mp hx
      obtain ⟨p, -, ho⟩ := List.mem_filterMap.mp ho
      obtain ⟨-, rfl⟩ := ActionEncoding.operator_eq_some ho
      exact ⟨rfl, rfl⟩

/-- The rules of an axiom. -/
def rulesOf (groups : FactGroups) (x : GroundAxiom) : List Rule :=
  ((encoderOf groups.groups groups.mutexGroups).rules x).toOption.getD []

theorem flatten_eq_flatMap_rulesOf {axs : List GroundAxiom} {rules : List (List Rule)}
    (h : List.Forall₂ (fun x rs => (encoderOf groups.groups groups.mutexGroups).rules x = .ok rs)
      axs rules) : rules.flatten = axs.flatMap (rulesOf groups) := by
  induction h with
  | nil => rfl
  | cons hx _ ih => simp [rulesOf, hx, ih, Except.toOption]

/-- The encoded task simulates the ground task step by step. Variables whose groups
hold no derived atom start with the values of the initial state. Of the operators
of an action none is applicable where the action is not; otherwise exactly one is,
and leads to the valuation of the next state, or none is and the valuation stays
the same. The goal and the rules hold in the valuation of a state as the goal and
the axioms do in the state. -/
structure Simulates (t : PropositionalTask) (groups : FactGroups)
    (task : FiniteDomain.Task) : Prop where
  initial : ∀ var g, groups.groups[var]? = some g → (∀ a ∈ g, ¬ t.IsDerived a) →
    task.initialValue var = encodeState groups.groups t.initialState var
  operators : task.operators = t.actions.flatMap (operatorsOf groups)
  rules : task.rules = t.axioms.axioms.flatMap (rulesOf groups)
  name_cost : ∀ a, ∀ o ∈ operatorsOf groups a, o.name = a.name ∧ o.cost = a.cost
  inapplicable : ∀ s, t.Reachable s → ∀ a ∈ t.actions, ¬ a.Applicable s →
    ∀ o ∈ operatorsOf groups a, ¬ o.Applicable (encodeState groups.groups s)
  applicable : ∀ s, t.Reachable s → ∀ a ∈ t.actions, a.Applicable s →
    (∃ o, (operatorsOf groups a).filter
        (fun o => decide (o.Applicable (encodeState groups.groups s))) = [o] ∧
      ∀ var g, groups.groups[var]? = some g → (∀ b ∈ g, ¬ t.IsDerived b) →
        o.apply (encodeState groups.groups s) var =
          encodeState groups.groups (t.complete (a.successor s)) var) ∨
    ((operatorsOf groups a).filter
        (fun o => decide (o.Applicable (encodeState groups.groups s))) = [] ∧
      ∀ var g, groups.groups[var]? = some g → (∀ b ∈ g, ¬ t.IsDerived b) →
        encodeState groups.groups (t.complete (a.successor s)) var =
          encodeState groups.groups s var)
  goal : ∀ s, t.Reachable s →
    (FactsHold (encodeState groups.groups s) task.goal ↔ AllHold s t.goal)
  rule_condition : ∀ s, t.Reachable s → ∀ x ∈ t.axioms.axioms,
    (∃ r ∈ rulesOf groups x, FactsHold (encodeState groups.groups s) r.condition) ↔
      AllHold s x.condition
  rule_effect : ∀ s, t.Reachable s → ∀ x ∈ t.axioms.axioms, ∀ r ∈ rulesOf groups x,
    r.effect.Holds (encodeState groups.groups s) ↔ x.effect ∈ s

theorem encodeState_complete {s : Interpretation} {var : Nat} {g : List Atom}
    (hg : groups.groups[var]? = some g) (hbasic : ∀ b ∈ g, ¬ t.IsDerived b) :
    encodeState groups.groups (t.complete s) var = encodeState groups.groups s var := by
  simp only [encodeState, List.getD_eq_getElem?_getD, hg, Option.getD_some]
  exact groupValue_congr fun b hb => t.mem_complete_of_not_derived (hbasic b hb)

theorem encode_simulates (h : t.Suits groups) {isPartial : Bool} {task : FiniteDomain.Task}
    (hrun : (FiniteDomain.Task.encode t groups isPartial).Yields (.ok task)) :
    t.Simulates groups task := by
  have hfrom := encodedFrom_of_yields hrun
  obtain ⟨rules, hrules, hflat⟩ := hfrom.rules
  have hpairs := forall₂_of_mapM hrules
  have hok : ∀ x ∈ t.axioms.axioms,
      (encoderOf groups.groups groups.mutexGroups).rules x = .ok (rulesOf groups x) := by
    intro x hx
    obtain ⟨rs, -, hrs⟩ := exists_of_mem_forall₂ hpairs hx
    rw [hrs, rulesOf, hrs]
    rfl
  exact {
    initial := fun var g hg hbasic => exists_initialValue h hfrom hg hbasic
    operators := by rw [hfrom.operators, flatMap_operatorsOf]
    rules := by rw [hflat, flatten_eq_flatMap_rulesOf hpairs]
    name_cost := fun a o ho => name_cost_of_mem_operatorsOf ho
    inapplicable := fun s hs a ha happ o ho => not_applicable_of_mem_operatorsOf h hs ha happ ho
    applicable := by
      intro s hs a ha happ
      refine (operatorsOf_of_applicable h hs ha happ).imp ?_ ?_
      · rintro ⟨o, ho, happly⟩
        refine ⟨o, ho, fun var g hg hbasic => ?_⟩
        rw [happly, encodeState_complete hg hbasic]
      · rintro ⟨hnone, hsame⟩
        refine ⟨hnone, fun var g hg hbasic => ?_⟩
        rw [encodeState_complete hg hbasic, hsame]
    goal := fun s hs => goal_holds_iff h hfrom hs
    rule_condition := fun s hs x hx => (exists_rules h hx (hok x hx)).1 s (h.exclusive s hs)
    rule_effect := fun s hs x hx r hr =>
      (shows_encoderOf h.nodup (h.exclusive s hs)).dictionary.holds_iff _ _
        ((exists_rules h hx (hok x hx)).2 r hr) }

/-- A truck that drives from one place to another. -/
def driving : PropositionalTask where
  atoms := [.named "at" ["a"], .named "at" ["b"]]
  init := [.named "at" ["a"]]
  goal := [(Atom.named "at" ["b"]).positive]
  actions := [{
    name := "(drive)"
    precondition := [(Atom.named "at" ["a"]).positive]
    adds := [⟨[], .named "at" ["b"]⟩]
    deletes := [⟨[], .named "at" ["a"]⟩]
    cost := 1 }]
  axioms := { axioms := [], layers := [] }
  metric := false

/-- The places of the truck. -/
def drivingGroups : FactGroups where
  groups := [driving.atoms]
  mutexGroups := [driving.atoms]
  valueNames := [["at a", "at b", "none"]]

theorem suits_driving : driving.Suits drivingGroups := by
  have hbasic : ∀ b, ¬ driving.IsDerived b := by rintro b (h | h) <;> cases h
  have hab : Atom.named "at" ["a"] ≠ .named "at" ["b"] := by decide
  -- in every state exactly one of the atoms is true
  have hone : ∀ s, driving.Reachable s →
      (.named "at" ["a"] ∈ s ↔ .named "at" ["b"] ∉ s) := by
    intro s hs
    cases hs with
    | init =>
        rw [initialState, mem_complete_of_not_derived _ (hbasic _),
          mem_complete_of_not_derived _ (hbasic _)]
        simp [driving, hab.symm]
    | @step s a hs ha happ =>
        obtain rfl := List.mem_singleton.mp ha
        rw [mem_complete_of_not_derived _ (hbasic _), mem_complete_of_not_derived _ (hbasic _)]
        simp [GroundAction.mem_successor, GroundAction.triggered, AllHold, hab, hab.symm]
  have hexclusive : ∀ s, driving.Reachable s → Exclusive [driving.atoms] s := by
    intro s hs g hg b hb c hc hbs hcs
    obtain rfl := List.mem_singleton.mp hg
    have := hone s hs
    simp only [driving, List.mem_cons, List.not_mem_nil, or_false] at hb hc
    rcases hb with rfl | rfl <;> rcases hc with rfl | rfl <;> simp_all
  exact {
    nodup := ⟨by decide, by decide⟩
    covered := by decide
    derived_alone := fun g hg b hb h => absurd h (hbasic b)
    effects_basic := fun a ha x hx => hbasic x.atom
    exclusive := fun s hs => ⟨hexclusive s hs, hexclusive s hs⟩ }

theorem yields_driving : (FiniteDomain.Task.encode driving drivingGroups true).Yields
    (.ok (assemble driving drivingGroups true #[0] [⟨0, 1⟩] [] #[none])) := by
  have hfrom : (Dictionary.ofGroups drivingGroups.groups).facts (.named "at" ["a"]) =
      [⟨0, 0⟩] := by
    rw [Dictionary.facts_ofGroups]
    rfl
  have hto : (Dictionary.ofGroups drivingGroups.groups).facts (.named "at" ["b"]) =
      [⟨0, 1⟩] := by
    rw [Dictionary.facts_ofGroups]
    rfl
  have hrestrict : (Dictionary.ofGroups drivingGroups.groups).restrict driving.goal =
      some [(0, [1])] := by
    simp only [Dictionary.restrict, driving, Atom.positive, List.filter, Bool.not_false,
      List.map_cons, List.map_nil, List.foldlM_cons, List.foldlM_nil, Dictionary.requireAtom, hto]
    rfl
  refine (gives_encode (by simp) ?_ ?_ ?_ rfl rfl).yields
  · rw [forM_eq_ok_iff]
    simp only [driving, List.mem_cons, List.not_mem_nil, or_false, Dictionary.checkAtom]
    rintro a (rfl | rfl)
    · rw [hfrom]
      rfl
    · rw [hto]
      rfl
  · have hset : (Dictionary.ofGroups drivingGroups.groups).setInitial #[2] (.named "at" ["a"]) =
        .ok #[0] := by
      rw [Dictionary.setInitial, hfrom]
      rfl
    rw [Dictionary.initialState]
    have hstart : (Dictionary.ofGroups drivingGroups.groups).ranges.map (· - 1) = #[2] := by
      simp [Dictionary.ofGroups, drivingGroups, driving]
    simp only [hstart, driving, List.foldlM_cons, List.foldlM_nil, hset]
    rfl
  · rw [Encoder.assignments?, Dictionary.assignments?, hrestrict]
    have hmutex : (encoderOf drivingGroups.groups drivingGroups.mutexGroups).mutexes.restrict
        driving.goal = some [(0, [1])] := hrestrict
    rw [hmutex]
    simp [ValueSets.assignments, choices]

theorem driving_simulates : driving.Simulates drivingGroups
    (assemble driving drivingGroups true #[0] [⟨0, 1⟩] [] #[none]) :=
  encode_simulates suits_driving yields_driving

end PropositionalTask
end FinitePlanning
