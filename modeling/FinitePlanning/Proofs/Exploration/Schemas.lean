import FinitePlanning.Proofs.Exploration.Refinement

/-!
Ground instances have the meaning of their schemas. What may change are the atoms of a set that has
the facts of the grounding program and in which its rules hold. An action of the set only adds atoms
of the set, so that its instance leads from a state over these atoms to the same state.
-/

namespace FinitePlanning

open Datalog
open Grounding (valuesOf)

namespace Datalog.Program

variable {t : Task} {T : SymbolTable} {facts : List GroundAtom} {rules : List Rule}
  {M : Set GroundAtom} {s : Interpretation} (hraw : IsRaw t T facts rules)
include hraw

/-- The objects that an atom is about when the parameters of an effect have values. -/
theorem IsRaw.known_of_isOver {ps qs : List Parameter} (hv : AreVariables (ps ++ qs))
    {args os : List String} (hlength : ps.length = args.length)
    (hargs : ∀ x ∈ args, (T.objectId? x).isSome = true) (hos : t.Typed qs os) {a : Atom}
    (h : a.IsOver t ((ps ++ qs).map (·.name))) : ∀ x ∈ a.args,
      (T.objectId? ((valuesOf qs os ++ valuesOf ps args : Renaming).apply x)).isSome = true := by
  intro x hx
  cases hvariable : isVariable x with
  | false =>
      rw [inner_values_fixObjects hv x hvariable]
      exact hraw.objects x ((h.args x hx).2 hvariable)
  | true =>
      have hscope := (h.args x hx).1 hvariable
      rw [List.map_append] at hscope
      rcases List.mem_append.mp hscope with hp | hq
      · rw [Renaming.apply_append_of_not_mem fun hmem =>
          hv.disjoint hp (Grounding.mem_keys_valuesOf hmem)]
        have hvalue := List.mem_map_of_mem (f := (valuesOf ps args).apply) hp
        rw [Grounding.map_apply_valuesOf hv.left.nodup hlength] at hvalue
        exact hargs _ hvalue
      · rw [Renaming.apply_append_of_mem ((mem_keys_valuesOf_iff hos.length_eq).mpr hq)]
        obtain ⟨q, hqs, rfl⟩ := List.mem_map.mp hq
        exact hraw.objects _ (Task.mem_objects_of_mem_objectsOf
          (hos.apply_mem hv.right.nodup hqs))

/-- What an action of the set makes true, whatever the types of its arguments are. -/
theorem IsRaw.mem_reading_of_triggers (hfacts : ∀ g ∈ facts, g ∈ M)
    (hrules : ∀ r ∈ rules, r.Holds M) (hs : ∀ b ∈ s, mention b ∈ T.reading M) {i : Nat}
    {a : Action} (ha : t.actions[i]? = some a) (hn : a.IsNormal t) {args : List String}
    (hlength : a.parameters.length = args.length) (happ : (.action i, args) ∈ T.reading M)
    {b : Atom} (hb : t.Triggers s a args b.positive) : mention b ∈ T.reading M := by
  obtain ⟨e, he, os, hos, hholds, hliteral⟩ := hb
  have hnormal := hn.effects e he
  obtain rfl : e.literal.atom.rename (valuesOf e.parameters os ++ valuesOf a.parameters args) = b :=
    congrArg Literal.atom hliteral
  obtain ⟨r, hr, hread⟩ := exists_of_mem_forall₂ hraw.rules
    (mem_clauses_of_mem_effects ha he (congrArg Literal.negated hliteral))
  have hknown : ∀ x ∈ args, (T.objectId? x).isSome = true := by
    obtain ⟨g, -, hnames⟩ := happ
    exact hnames.known
  rw [mention_rename]
  exact hread.holds (hrules r hr) (inner_values_fixObjects hnormal.parameters)
    (hraw.known_of_isOver hnormal.parameters hlength hknown hos hnormal.literal)
    ((hraw.covers hfacts hrules).effect_conditions hn he hos hs hlength happ hholds)

end Datalog.Program

namespace GroundTask

variable {t : Task} {K : Set Mention} {atoms : List Atom} {s : Interpretation} {a : Action}
  {args : List String} {x : GroundAction}

theorem IsInstance.mem_atoms_of_mem_effects (h : IsInstance t atoms a args x) :
    ∀ e ∈ x.adds ++ x.deletes, e.atom ∈ atoms := by
  have hatom : ∀ y ∈ effectsOf t atoms a args, y.2.atom ∈ atoms := by
    intro y hy
    obtain ⟨-, -, -, -, -, -, hmem⟩ := mem_effectsOf_iff.mp hy
    exact hmem
  rw [h.adds, h.deletes, List.forall_mem_append]
  constructor
  all_goals
    refine List.forall_mem_map.mpr fun y hy => ?_
    exact hatom y (List.mem_of_mem_filter hy)

/-- The instance leads to the state that the action leads to. -/
theorem IsStateOf.successor_eq (hK : Covers t K) (h : IsStateOf t K s)
    (hatoms : ∀ b, b ∈ atoms ↔ b.predicate ∈ t.fluentPredicates ∧ mention b ∈ K)
    (ha : a ∈ t.actions) (hn : a.IsNormal t)
    (hcovered : ∀ b : Atom, t.Triggers s a args b.positive → mention b ∈ K)
    (hinstance : IsInstance t atoms a args x) : t.successor s a args = x.successor s := by
  refine Set.ext fun b => ?_
  by_cases hb : b ∈ atoms
  · exact hinstance.mem_successor_iff hn (h.fixedOutside hK hatoms) hb
  · have huntouched : ∀ e ∈ x.adds ++ x.deletes, e.atom ≠ b := fun e he heq =>
      hb (heq ▸ hinstance.mem_atoms_of_mem_effects e he)
    rw [List.forall_mem_append] at huntouched
    rw [h.mem_successor_of_not_mem hatoms ha hcovered hb,
      GroundAction.mem_successor_of_untouched _ _ huntouched.1 huntouched.2]

/-- The instance of an axiom has the meaning of its condition. -/
theorem axiomInstance?_agrees {y : Axiom} (hy : y.IsNormal t)
    (hs : FixedOutside {a | a ∈ atoms} t.given s) (args : List String) :
    (∀ x, (grounding t atoms).axiomInstance? y args = some x →
      x.effect = .named y.name (args.take y.external) ∧
      (t.Holds s (valuesOf y.parameters args) y.condition ↔ AllHold s x.condition)) ∧
    ((grounding t atoms).axiomInstance? y args = none →
      ¬ t.Holds s (valuesOf y.parameters args) y.condition) := by
  rw [Grounding.axiomInstance?]
  cases hcondition : (grounding t atoms).condition? (valuesOf y.parameters args) y.condition with
  | none =>
      exact ⟨fun _ hx => absurd hx.symm (Option.some_ne_none _),
        fun _ => not_holds_of_condition? hs hy.condition hcondition⟩
  | some ls =>
      refine ⟨fun x hx => ?_, fun hnone => absurd hnone (Option.some_ne_none _)⟩
      cases hx
      exact ⟨rfl, holds_iff_of_condition? hs hy.condition hcondition⟩

/-- Instances over the fluent atoms of a set that is closed under the rules of the task agree with
their schemas in all states whose fluent atoms are of the set. -/
theorem instances_agree (ht : t.IsNormal) {M : Set GroundAtom}
    (hfacts : ∀ g ∈ (Program.rawProgram t).facts, g ∈ M)
    (hrules : ∀ r ∈ (Program.rawProgram t).rules, r.Holds M)
    (hatoms : ∀ b : Atom, b ∈ atoms ↔ b.predicate ∈ t.fluentPredicates ∧
      ∃ g ∈ M, (Program.rawProgram t).symbols.Names (.predicate b.predicate) b.args g)
    (hfluent : ∀ b ∈ s, b.predicate ∈ t.fluentPredicates → b ∈ atoms)
    (hstatic : ∀ b : Atom, b.predicate ∉ t.fluentPredicates → (b ∈ s ↔ b ∈ t.given)) :
    (∀ i a args, t.actions[i]? = some a → a.parameters.length = args.length →
      (∃ g ∈ M, (Program.rawProgram t).symbols.Names (.action i) args g) →
      (∀ x, (grounding t atoms).action? a args = .ok (some x) →
        (t.Holds s (valuesOf a.parameters args) a.precondition ↔ x.Applicable s) ∧
        t.successor s a args = x.successor s) ∧
      ((grounding t atoms).action? a args = .ok none →
        ¬ t.Holds s (valuesOf a.parameters args) a.precondition ∨ t.successor s a args = s)) ∧
    ∀ y ∈ t.axioms, ∀ args,
      (∀ x, (grounding t atoms).axiomInstance? y args = some x →
        x.effect = .named y.name (args.take y.external) ∧
        (t.Holds s (valuesOf y.parameters args) y.condition ↔ AllHold s x.condition)) ∧
      ((grounding t atoms).axiomInstance? y args = none →
        ¬ t.Holds s (valuesOf y.parameters args) y.condition) := by
  have hraw := Program.isRaw_rawProgram t
  have hK := hraw.covers hfacts hrules
  have hs : IsStateOf t ((Program.rawProgram t).symbols.reading M) s := by
    refine ⟨fun b hb => ?_, hstatic⟩
    by_cases hpredicate : b.predicate ∈ t.fluentPredicates
    · exact ((hatoms b).mp (hfluent b hb hpredicate)).2
    · exact hK.facts b (List.mem_append.mpr ((hstatic b hpredicate).mp hb).symm)
  have hfixed := hs.fixedOutside hK hatoms
  refine ⟨fun i a args ha hlength happ => ?_,
    fun y hy => axiomInstance?_agrees (ht.axioms y hy) hfixed⟩
  have hmem := List.mem_of_getElem? ha
  have hn := ht.actions a hmem
  have hcovered := fun b =>
    hraw.mem_reading_of_triggers (b := b) hfacts hrules hs.covered ha hn hlength happ
  refine ⟨fun x hx => ?_, fun hnone => ?_⟩
  · have hinstance := isInstance_of_action? hx
    exact ⟨hinstance.holds_precondition_iff hn hfixed,
      hs.successor_eq hK hatoms hmem hn hcovered hinstance⟩
  · exact (of_action?_eq_none hnone).imp (not_holds_of_condition? hfixed hn.precondition)
      (hs.successor_eq_self hK hatoms hmem hcovered hn)

section Lighting

/-- All atoms with as many arguments as their relations take. -/
def lightingAtoms : Set GroundAtom :=
  {g | g.args.length = arityIn lighting (Program.rawProgram lighting).symbols g.relation}

def lightingFluents : List Atom :=
  [.named "lit" ["left"], .named "lit" ["right"], .named "bright" []]

theorem facts_subset_lightingAtoms :
    ∀ g ∈ (Program.rawProgram lighting).facts, g ∈ lightingAtoms := by
  intro g hg
  obtain ⟨a, ha, hnames⟩ :=
    exists_of_mem_forall₂_right (Program.isRaw_rawProgram lighting).facts hg
  have harity : ∀ a ∈ lighting.typeAtoms ++ lighting.init,
      a.args.length = lighting.relationArity (.predicate a.predicate) := by decide
  exact (hnames.isTyped (harity a ha)).arity

theorem holds_lightingAtoms :
    ∀ r ∈ (Program.rawProgram lighting).rules, r.Holds lightingAtoms := by
  intro r hr σ _
  obtain ⟨c, hc, hread⟩ :=
    exists_of_mem_forall₂_right (Program.isRaw_rawProgram lighting).rules hr
  exact (r.head.length_evalArgs σ).trans
    (hread.isTyped (isTyped_clauses lighting_isNormal c hc) _ List.mem_cons_self).arity

theorem mem_lightingFluents {b : Atom} :
    b ∈ lightingFluents ↔ b.predicate ∈ lighting.fluentPredicates ∧ ∃ g ∈ lightingAtoms,
      (Program.rawProgram lighting).symbols.Names (.predicate b.predicate) b.args g := by
  constructor
  · intro hb
    have hfluent : ∀ b ∈ lightingFluents, b.predicate ∈ lighting.fluentPredicates ∧
        b.args.length = lighting.relationArity (.predicate b.predicate) := by decide
    have hknown : ∀ b ∈ lightingFluents,
        ((Program.rawProgram lighting).symbols.groundAtom? b).isSome = true := by
      decide +kernel
    obtain ⟨g, hg⟩ := Option.isSome_iff_exists.mp (hknown b hb)
    have hnames := SymbolTable.groundAtom?_eq_some_iff.mp hg
    exact ⟨(hfluent b hb).1, g, (hnames.isTyped (hfluent b hb).2).arity, hnames⟩
  · rintro ⟨hpredicate, g, hg, hnames⟩
    have hobjects : ∀ x ∈ b.args, x ∈ ["left", "right"] := by
      have htable : (Program.rawProgram lighting).symbols.objects = ["left", "right"] := by
        decide +kernel
      intro x hx
      obtain ⟨id, -, hid⟩ := exists_of_mem_forall₂ hnames.args hx
      exact htable ▸ List.mem_of_getElem? (SymbolTable.getElem?_of_objectId? hid)
    have hlength : b.args.length = lighting.relationArity (.predicate b.predicate) := by
      rw [hnames.args.length_eq, show g.args.length = _ from hg,
        arityIn_of_relationId? hnames.relation]
    obtain ⟨predicate, args⟩ := b
    rcases List.mem_pair.mp hpredicate with rfl | rfl
    · obtain ⟨x, rfl⟩ := List.length_eq_one_iff.mp hlength
      rcases List.mem_pair.mp (hobjects x List.mem_cons_self) with rfl | rfl
      · decide
      · decide
    · obtain rfl := List.length_eq_zero_iff.mp hlength
      decide

theorem lighting_actions_ne_nil : lighting.actions ≠ [] := List.cons_ne_nil _ _

def switching : Action := lighting.actions.head lighting_actions_ne_nil

/-- Switching has an instance for the lamp that is off. -/
theorem exists_action?_switching : ∃ x,
    (grounding lighting lightingFluents).action? switching ["right"] = .ok (some x) := by
  have hfixed : ∀ (values : Renaming) (c : Condition) (ls : List Literal),
      c.conjunction? = some ls → (∀ l ∈ ls, (l.rename values).atom ∈ lightingFluents) →
      ∃ ls', (grounding lighting lightingFluents).condition? values c = some ls' := by
    intro values c ls hls hmem
    refine ⟨_, condition?_eq_some_iff.mpr ⟨?_, rfl⟩⟩
    rw [Condition.literals_of_conjunction hls]
    exact List.forall_mem_map.mpr fun l hl hnot => absurd (hmem l hl) hnot
  obtain ⟨ls, hprecondition⟩ := hfixed (valuesOf switching.parameters ["right"])
    switching.precondition _ rfl (by decide)
  obtain ⟨ls', hcondition⟩ := hfixed (valuesOf [⟨"?y", objectType⟩] ["left"] ++
    valuesOf switching.parameters ["right"]) .true _ rfl nofun
  have heffect : (ls', (Atom.named "lit" ["left"]).positive) ∈
      effectsOf lighting lightingFluents switching ["right"] :=
    mem_effectsOf_iff.mpr ⟨_, List.mem_singleton_self _, ["left"], .cons (by decide) .nil,
      hcondition, rfl, List.mem_cons_self⟩
  have hnonempty : ¬ (switching.effects.flatMap ((grounding lighting lightingFluents).effect
      (valuesOf switching.parameters ["right"]))).isEmpty = true :=
    fun hempty => List.ne_nil_of_mem heffect (List.isEmpty_iff.mp hempty)
  simp only [Grounding.action?, hprecondition, if_neg hnonempty]
  exact ⟨_, rfl⟩

/-- The lamp that is off may be switched initially, which its instance does in the same way. -/
theorem switching_agrees : ∃ x,
    (grounding lighting lightingFluents).action? switching ["right"] = .ok (some x) ∧
    x.Applicable lighting.given ∧
    lighting.successor lighting.given switching ["right"] = x.successor lighting.given := by
  obtain ⟨x, hx⟩ := exists_action?_switching
  have hfluent : ∀ b ∈ lighting.given, b.predicate ∈ lighting.fluentPredicates →
      b ∈ lightingFluents := by
    have hall : ∀ b ∈ lighting.init ++ lighting.typeAtoms,
        b.predicate ∈ lighting.fluentPredicates → b ∈ lightingFluents := by decide
    exact fun b hb => hall b (List.mem_append.mpr hb)
  have happ : ∃ g ∈ lightingAtoms,
      (Program.rawProgram lighting).symbols.Names (.action 0) ["right"] g := by
    have hknown :
        ((Program.rawProgram lighting).symbols.relationId? (.action 0)).isSome = true ∧
        ((Program.rawProgram lighting).symbols.objectId? "right").isSome = true := by
      decide +kernel
    obtain ⟨id, hid⟩ := Option.isSome_iff_exists.mp hknown.1
    obtain ⟨o, ho⟩ := Option.isSome_iff_exists.mp hknown.2
    have hnames : (Program.rawProgram lighting).symbols.Names (.action 0) ["right"] ⟨id, [o]⟩ :=
      ⟨hid, .cons ho .nil⟩
    exact ⟨_, (hnames.isTyped rfl).arity, hnames⟩
  obtain ⟨hprecondition, hsuccessor⟩ := ((instances_agree lighting_isNormal
    facts_subset_lightingAtoms holds_lightingAtoms (fun _ => mem_lightingFluents) hfluent
    fun _ _ => Iff.rfl).1 0 switching ["right"] rfl rfl happ).1 x hx
  refine ⟨x, hx, hprecondition.mp ?_, hsuccessor⟩
  have hdark : Atom.named "lit" ["right"] ∉ lighting.init ++ lighting.typeAtoms := by decide
  exact fun hlit => hdark (List.mem_append.mpr hlit)

end Lighting

end GroundTask
end FinitePlanning
