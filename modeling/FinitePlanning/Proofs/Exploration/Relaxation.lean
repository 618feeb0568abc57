import FinitePlanning.Proofs.Exploration.Rules

/-!
The grounding program covers all runs. Whatever is true in a reachable state, and whatever is
applicable in it, is in each set that has the facts and in which the rules hold.
-/

namespace FinitePlanning
namespace Datalog

open Grounding (valuesOf)

variable {t : Task} {K : Set Mention} {s : Interpretation}

/-- A set that has the initial atoms and follows the clauses of a task. -/
structure Covers (t : Task) (K : Set Mention) : Prop where
  facts : ∀ a ∈ t.typeAtoms ++ t.init, mention a ∈ K
  clauses : ∀ c ∈ clauses t, ∀ values : String → String, FixesObjects values →
    (∀ x ∈ c.head.2, values x ∈ t.objects.map (·.name)) →
    (∀ q ∈ c.body, (q.1, q.2.map values) ∈ K) → (c.head.1, c.head.2.map values) ∈ K

theorem Program.IsRaw.covers {T : SymbolTable} {facts : List GroundAtom} {rules : List Rule}
    (h : IsRaw t T facts rules) {M : Set GroundAtom} (hfacts : ∀ g ∈ facts, g ∈ M)
    (hrules : ∀ r ∈ rules, r.Holds M) : Covers t (T.reading M) where
  facts a ha := by
    obtain ⟨g, hg, hnames⟩ := exists_of_mem_forall₂ h.facts ha
    exact ⟨g, hfacts g hg, hnames⟩
  clauses c hc values hfix hhead hbody := by
    obtain ⟨r, hr, hread⟩ := exists_of_mem_forall₂ h.rules hc
    exact hread.holds (hrules r hr) hfix (fun x hx => h.objects _ (hhead x hx)) hbody

theorem mention_rename (a : Atom) (values : Renaming) :
    mention (a.rename values) = ((mention a).1, (mention a).2.map values.apply) := rfl

theorem mem_clauses_of_mem_actions {a : Action} {i : Nat} (ha : t.actions[i]? = some a) {c : Clause}
    (hc : c ∈ actionClauses a i) : c ∈ clauses t := by
  refine List.mem_append_left _ (List.mem_append_left _ (List.mem_flatten.mpr ⟨_, ?_, hc⟩))
  exact List.mem_map.mpr ⟨(a, i), List.mem_zipIdx_iff_getElem?.mpr ha, rfl⟩

theorem mem_clauses_of_mem_effects {a : Action} {i : Nat} (ha : t.actions[i]? = some a) {e : Effect}
    (he : e ∈ a.effects) (hpos : e.literal.negated = false) :
    effectClause (.action i, a.parameters.map (·.name)) e ∈ clauses t :=
  mem_clauses_of_mem_actions ha (List.mem_cons_of_mem _ (List.mem_map_of_mem
    (List.mem_filter.mpr ⟨he, by simp [hpos]⟩)))

theorem mem_clauses_of_mem_axioms {a : Axiom} {i : Nat} (ha : t.axioms[i]? = some a) {c : Clause}
    (hc : c ∈ axiomClauses a i) : c ∈ clauses t := by
  refine List.mem_append_left _ (List.mem_append_right _ (List.mem_flatten.mpr ⟨_, ?_, hc⟩))
  exact List.mem_map.mpr ⟨(a, i), List.mem_zipIdx_iff_getElem?.mpr ha, rfl⟩

theorem positiveMentions_subset {c : Condition} {values : Renaming}
    (hc : ∀ l ∈ c.literals, l.negated = false → mention (l.atom.rename values) ∈ K) :
    ∀ q ∈ positiveMentions c, (q.1, q.2.map values.apply) ∈ K := by
  intro q hq
  obtain ⟨l, hl, rfl⟩ := List.mem_map.mp hq
  obtain ⟨hl, hpos⟩ := List.mem_filter.mp hl
  exact hc l hl (by simpa using hpos)

namespace Covers

variable (h : Covers t K)
include h

theorem typeMentions {ps : List Parameter} {values : Renaming}
    (hvalues : ∀ p ∈ ps, values.apply p.name ∈ t.objectsOf p.type) :
    ∀ q ∈ typeMentions ps, (q.1, q.2.map values.apply) ∈ K := by
  intro q hq
  obtain ⟨p, hp, rfl⟩ := List.mem_map.mp hq
  obtain ⟨o, ho, hname⟩ := List.mem_map.mp (hvalues p hp)
  obtain ⟨ho, htype⟩ := List.mem_filter.mp ho
  refine h.facts ⟨.type p.type, [values.apply p.name]⟩ (List.mem_append_left _ ?_)
  rw [← hname]
  exact List.mem_flatMap.mpr ⟨o, ho, List.mem_map.mpr ⟨_, of_decide_eq_true htype, rfl⟩⟩

/-- An action or axiom whose literals that are not negated hold is applicable. -/
theorem applicable {r : Relation} {ps : List Parameter} {c : Condition}
    (hmem : applicabilityClause r ps c ∈ Datalog.clauses t) (hps : AreVariables ps)
    {args : List String} (htyped : t.Typed ps args)
    (hc : ∀ l ∈ c.literals, l.negated = false → mention (l.atom.rename (valuesOf ps args)) ∈ K) :
    (r, args) ∈ K := by
  have hvalues : ∀ p ∈ ps, (valuesOf ps args).apply p.name ∈ t.objectsOf p.type :=
    fun p hp => htyped.apply_mem hps.nodup hp
  have hargs : (ps.map (·.name)).map (valuesOf ps args).apply = args :=
    Grounding.map_apply_valuesOf hps.nodup htyped.length_eq
  have hhead := h.clauses _ hmem _ (outer_values_fixObjects hps args) ?_ ?_
  · rwa [applicabilityClause, hargs] at hhead
  · exact List.forall_mem_map.mpr fun p hp => Task.mem_objects_of_mem_objectsOf (hvalues p hp)
  · exact List.forall_mem_append.mpr ⟨h.typeMentions hvalues, positiveMentions_subset hc⟩

section Effects

variable {a : Action} {i : Nat} (hn : a.IsNormal t) {args : List String} {e : Effect}
  (he : e ∈ a.effects) {os : List String} (hos : t.Typed e.parameters os)
include hn he hos

/-- The conditions of the rule of an effect hold if the effect takes place. -/
theorem effect_conditions (hs : ∀ b ∈ s, mention b ∈ K)
    (hlength : a.parameters.length = args.length) (happ : (.action i, args) ∈ K)
    (hholds : t.Holds s (valuesOf e.parameters os ++ valuesOf a.parameters args) e.condition) :
    ∀ q ∈ (effectClause (.action i, a.parameters.map (·.name)) e).body,
      (q.1, q.2.map (valuesOf e.parameters os ++ valuesOf a.parameters args : Renaming).apply) ∈
        K := by
  have hnormal := hn.effects e he
  have hvars := hnormal.parameters
  rw [effectClause, List.cons_append, List.forall_mem_cons]
  refine ⟨?_, List.forall_mem_append.mpr ⟨h.typeMentions fun p hp => ?_,
    positiveMentions_subset fun l hl hlpos => ?_⟩⟩
  · have hargs : (a.parameters.map (·.name)).map
        (valuesOf e.parameters os ++ valuesOf a.parameters args : Renaming).apply = args := by
      refine Eq.trans (List.map_congr_left fun x hx => ?_)
        (Grounding.map_apply_valuesOf hvars.left.nodup hlength)
      exact Renaming.apply_append_of_not_mem fun hmem =>
        hvars.disjoint hx (Grounding.mem_keys_valuesOf hmem)
    rwa [hargs]
  · rw [Renaming.apply_append_of_mem
      ((mem_keys_valuesOf_iff hos.length_eq).mpr (List.mem_map_of_mem hp))]
    exact hos.apply_mem hvars.right.nodup hp
  · refine hs _ ?_
    have := hnormal.condition.holds_iff.mp hholds _ (List.mem_map_of_mem hl)
    simpa [Literal.Holds, Literal.rename, hlpos] using this

end Effects

/-- What an applicable action makes true. -/
theorem triggers (hs : ∀ b ∈ s, mention b ∈ K) {a : Action} {i : Nat}
    (ha : t.actions[i]? = some a) (hn : a.IsNormal t) {args : List String}
    (htyped : t.Typed a.parameters args) (happ : (.action i, args) ∈ K) {b : Atom}
    (hb : t.Triggers s a args b.positive) : mention b ∈ K := by
  obtain ⟨e, he, os, hos, hholds, hliteral⟩ := hb
  have hnormal := hn.effects e he
  have hvars := hnormal.parameters
  obtain rfl : e.literal.atom.rename (valuesOf e.parameters os ++ valuesOf a.parameters args) = b :=
    congrArg Literal.atom hliteral
  have hmem := mem_clauses_of_mem_effects ha he (congrArg Literal.negated hliteral)
  rw [mention_rename]
  refine h.clauses _ hmem _ (inner_values_fixObjects hvars) ?_
    (h.effect_conditions hn he hos hs htyped.length_eq happ hholds)
  have hground := hnormal.literal.isGround_inner hvars htyped.areObjects hos.areObjects
  exact fun x hx => hground.args _ (List.mem_map_of_mem hx)

/-- What an applicable axiom makes true. -/
theorem axiom_head {a : Axiom} {i : Nat} (ha : t.axioms[i]? = some a) (hn : a.IsNormal t)
    {args : List String} (htyped : t.Typed a.parameters args) (happ : (.derivation i, args) ∈ K) :
    mention (Task.axiomInstance a args).effect ∈ K := by
  have hmem : (⟨(.predicate (.named a.name), a.externalParameters.map (·.name)),
      [(.derivation i, a.parameters.map (·.name))]⟩ : Clause) ∈ Datalog.clauses t :=
    mem_clauses_of_mem_axioms ha (List.mem_cons_of_mem _ List.mem_cons_self)
  have hargs : (a.parameters.map (·.name)).map (valuesOf a.parameters args).apply = args :=
    Grounding.map_apply_valuesOf hn.parameters.nodup htyped.length_eq
  have hhead := h.clauses _ hmem _ (outer_values_fixObjects hn.parameters args) ?_ ?_
  · rwa [Axiom.externalParameters, List.map_take, List.map_take, hargs] at hhead
  · exact List.forall_mem_map.mpr fun p hp => Task.mem_objects_of_mem_objectsOf
      (htyped.apply_mem hn.parameters.nodup (List.mem_of_mem_take hp))
  · rw [List.forall_mem_singleton, hargs]
    exact happ

/-- What follows by axioms, by induction on the derivation. -/
theorem derives (hn : t.IsNormal) {N : Interpretation} (hs : ∀ b ∈ s, mention b ∈ K) {b : Atom}
    (hb : Derives t.axiomInstances s N b) : mention b ∈ K := by
  induction hb with
  | given hb => exact hs _ hb
  | rule hx _ _ ih =>
      obtain ⟨a, ha, args, htyped, rfl⟩ := hx
      obtain ⟨i, hi⟩ := List.mem_iff_getElem?.mp ha
      have hnormal := hn.axioms a ha
      refine h.axiom_head hi hnormal htyped (h.applicable (c := a.condition) ?_
        hnormal.parameters htyped fun l hl hpos => ?_)
      · exact mem_clauses_of_mem_axioms hi List.mem_cons_self
      · exact ih _ (List.mem_map_of_mem hl) hpos

theorem complete (hn : t.IsNormal) (hs : ∀ b ∈ s, mention b ∈ K) :
    ∀ b ∈ t.complete s, mention b ∈ K := by
  intro b hb
  rw [Task.complete, interpretation_eq] at hb
  exact h.derives hn (fun b hb => hs b hb.1) hb

/-- An action is applicable in the program if it is in a state that is covered. -/
theorem action_applicable (hs : ∀ b ∈ s, mention b ∈ K) {a : Action} {i : Nat}
    (ha : t.actions[i]? = some a) (hn : a.IsNormal t) {args : List String}
    (happ : t.Applicable s a args) : (.action i, args) ∈ K := by
  refine h.applicable (c := a.precondition) (mem_clauses_of_mem_actions ha List.mem_cons_self)
    hn.parameters happ.1 fun l hl hpos => hs _ ?_
  have := hn.precondition.holds_iff.mp happ.2 _ (List.mem_map_of_mem hl)
  simpa [Literal.Holds, Literal.rename, hpos] using this

theorem axiom_applicable (hs : ∀ b ∈ s, mention b ∈ K) {a : Axiom} {i : Nat}
    (ha : t.axioms[i]? = some a) (hn : a.IsNormal t) {args : List String}
    (htyped : t.Typed a.parameters args) (hc : t.Holds s (valuesOf a.parameters args) a.condition) :
    (.derivation i, args) ∈ K := by
  refine h.applicable (c := a.condition) (mem_clauses_of_mem_axioms ha List.mem_cons_self)
    hn.parameters htyped fun l hl hpos => hs _ ?_
  have := hn.condition.holds_iff.mp hc _ (List.mem_map_of_mem hl)
  simpa [Literal.Holds, Literal.rename, hpos] using this

theorem goal_reachable (hs : ∀ b ∈ s, mention b ∈ K) (hn : t.goal.IsOver t [])
    (hgoal : t.Holds s [] t.goal) : (.goalReachable, []) ∈ K := by
  have hfix : FixesObjects (Renaming.apply []) := fun _ _ => rfl
  refine h.clauses ⟨(.goalReachable, []), Datalog.positiveMentions t.goal⟩
    (List.mem_append_right _ List.mem_cons_self) _ hfix nofun
    (positiveMentions_subset fun l hl hpos => hs _ ?_)
  have := hn.holds_iff.mp hgoal _ (List.mem_map_of_mem hl)
  simpa [Literal.Holds, Literal.rename, hpos] using this

/-- Reachable states are covered, by induction on the run. -/
theorem reachable (hn : t.IsNormal) (hs : t.Reachable s) : ∀ b ∈ s, mention b ∈ K := by
  induction hs with
  | init =>
      refine h.complete hn fun b hb => h.facts b ?_
      exact hb.elim (List.mem_append_right _) (List.mem_append_left _)
  | step _ ha happ ih =>
      obtain ⟨i, hi⟩ := List.mem_iff_getElem?.mp ha
      have hnormal := hn.actions _ ha
      refine h.complete hn fun b hb => ?_
      rcases hb with hb | ⟨hb, -⟩
      · exact h.triggers ih hi hnormal happ.1 (h.action_applicable ih hi hnormal happ) hb
      · exact ih b hb

end Covers

/-- The grounding program covers all runs: sets that have its facts and in which its rules hold
have all atoms that are true in reachable states, all actions and axioms that are applicable
there, and the atom of the goal if the goal is reached. -/
theorem Program.rawProgram_covers_runs (hn : t.IsNormal) {M : Set GroundAtom}
    (hfacts : ∀ g ∈ (rawProgram t).facts, g ∈ M) (hrules : ∀ r ∈ (rawProgram t).rules, r.Holds M)
    (hs : t.Reachable s) :
    (∀ b ∈ s, ∃ g ∈ M, (rawProgram t).symbols.Names (.predicate b.predicate) b.args g) ∧
    (∀ i a args, t.actions[i]? = some a → t.Applicable s a args →
      ∃ g ∈ M, (rawProgram t).symbols.Names (.action i) args g) ∧
    (∀ i a args, t.axioms[i]? = some a → t.Typed a.parameters args →
      t.Holds s (valuesOf a.parameters args) a.condition →
      ∃ g ∈ M, (rawProgram t).symbols.Names (.derivation i) args g) ∧
    (t.Holds s [] t.goal → ∃ g ∈ M, (rawProgram t).symbols.Names .goalReachable [] g) := by
  have hcovers := (isRaw_rawProgram t).covers hfacts hrules
  have hstate := hcovers.reachable hn hs
  exact ⟨hstate,
    fun i a args ha happ =>
      hcovers.action_applicable hstate ha (hn.actions a (List.mem_of_getElem? ha)) happ,
    fun i a args ha htyped hc =>
      hcovers.axiom_applicable hstate ha (hn.axioms a (List.mem_of_getElem? ha)) htyped hc,
    fun hgoal => hcovers.goal_reachable hstate hn.goal hgoal⟩

section Lighting

/-- A task in which a lamp that is off switches all lamps on, and some lamp makes it bright. -/
def lighting : Task where
  domainName := "light"
  problemName := "light"
  requirements := []
  types := ⟨[objectType], []⟩
  objects := [⟨"left", objectType⟩, ⟨"right", objectType⟩]
  predicates := [⟨"lit", [⟨"?x", objectType⟩], false⟩, ⟨"bright", [], true⟩]
  functions := []
  init := [.named "lit" ["left"], ⟨.equal, ["left", "left"]⟩, ⟨.equal, ["right", "right"]⟩]
  assignments := []
  goal := .and [.literal (Atom.named "bright" []).positive, .literal (Atom.named "lit" ["right"]).positive]
  actions := [{
    name := { name := "switch" }
    parameters := [⟨"?x", objectType⟩]
    external := 1
    precondition := .literal (Atom.named "lit" ["?x"]).negative
    effects := [⟨[⟨"?y", objectType⟩], .true, (Atom.named "lit" ["?y"]).positive⟩]
    cost := none }]
  axioms := [{
    name := "bright"
    parameters := [⟨"?x", objectType⟩]
    external := 0
    condition := .literal (Atom.named "lit" ["?x"]).positive }]
  minimizesCost := false

theorem lighting_isNormal : lighting.IsNormal where
  objects := by decide
  predicates := by decide
  init := by decide
  equal := by simp [lighting, Atom.named]
  goal := by decide
  actions := by decide
  axioms a ha := by
    obtain rfl := List.mem_singleton.mp ha
    exact ⟨by decide, by decide, by decide, by decide⟩

private def switch : Action := lighting.actions.head (by decide)

theorem applicable_switch : lighting.Applicable lighting.initialState switch ["right"] := by
  refine ⟨.cons (by decide) .nil, ?_⟩
  have hdark : Atom.named "lit" ["right"] ∉ lighting.initialState := by
    rw [Task.initialState, Task.mem_complete_of_not_derived _ (by decide)]
    decide
  exact hdark

private def lit : Interpretation :=
  lighting.complete (lighting.successor lighting.initialState switch ["right"])

/-- All lamps are on after the switch, so that it is bright. -/
theorem goal_lit : lighting.Holds lit [] lighting.goal := by
  have hright : Atom.named "lit" ["right"] ∈
      lighting.successor lighting.initialState switch ["right"] :=
    .inl ⟨_, List.mem_cons_self, ["right"], .cons (by decide) .nil, trivial, rfl⟩
  have hlit := (Task.mem_complete_of_not_derived lighting (by decide)).mpr hright
  refine ⟨?_, hlit, trivial⟩
  have hcondition : (Task.axiomInstance (lighting.axioms.head (by decide)) ["right"]).condition =
      [(Atom.named "lit" ["right"]).positive] := by
    have hliterals : (lighting.axioms.head (by decide)).condition.literals =
        [(Atom.named "lit" ["?x"]).positive] := Condition.literals_of_conjunction (by decide)
    rw [Task.axiomInstance, hliterals]
    rfl
  change Atom.named "bright" [] ∈ _
  rw [lit, Task.complete, interpretation_eq]
  refine Derives.rule (x := Task.axiomInstance (lighting.axioms.head (by decide)) ["right"])
    ⟨_, List.mem_cons_self, _, .cons (by decide) .nil, rfl⟩ ?_ ?_
  · rw [hcondition, List.forall_mem_singleton]
    exact fun _ => .given ⟨hright, by decide⟩
  · rw [hcondition, List.forall_mem_singleton]
    exact fun h => absurd h Bool.false_ne_true

/-- What follows from the facts and rules of the task. -/
def lightingModel : Set GroundAtom :=
  leastModel {g | g ∈ (Program.rawProgram lighting).facts}
    {r | r ∈ (Program.rawProgram lighting).rules}

theorem lighting_rawProgram_covers_runs : lighting.IsNormal ∧ lighting.Reachable lit ∧
    (∀ b ∈ lit, ∃ g ∈ lightingModel,
      (Program.rawProgram lighting).symbols.Names (.predicate b.predicate) b.args g) ∧
    ∃ g ∈ lightingModel, (Program.rawProgram lighting).symbols.Names .goalReachable [] g := by
  have hreach : lighting.Reachable lit := .step .init List.mem_cons_self applicable_switch
  obtain ⟨hstate, -, -, hgoal⟩ := Program.rawProgram_covers_runs lighting_isNormal
    (M := lightingModel) (fun g hg => subset_leastModel hg) (fun r hr => holds_leastModel hr) hreach
  exact ⟨lighting_isNormal, hreach, hstate, hgoal goal_lit⟩

end Lighting

end Datalog
end FinitePlanning
