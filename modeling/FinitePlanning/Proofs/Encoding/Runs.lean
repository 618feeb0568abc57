import FinitePlanning.Proofs.Encoding.WellFormed
import FinitePlanning.Proofs.FiniteDomain.Evaluation
import FinitePlanning.Proofs.Pruning.Operators
import FinitePlanning.Proofs.Stratification.Reduction

/-!
Runs of an encoded task. Its rules give the derived variables the values of the derived atoms: each
firing of an axiom is one of a rule, and the layers of the variables are those of the atoms. So it
reaches the valuations of the states that the ground task reaches.
-/

namespace FinitePlanning

namespace FiniteDomain

variable {groups mutexGroups : List (List Atom)} {s s' : Interpretation}

theorem ExclusiveIn.mono (h : ExclusiveIn groups mutexGroups s') (hsub : s ⊆ s') :
    ExclusiveIn groups mutexGroups s where
  groups g hg a ha b hb has hbs := h.groups g hg a ha b hb (hsub has) (hsub hbs)
  mutexGroups g hg a ha b hb has hbs := h.mutexGroups g hg a ha b hb (hsub has) (hsub hbs)

end FiniteDomain

namespace PropositionalTask

open FiniteDomain

variable {t : PropositionalTask} {groups : FactGroups} {isPartial : Bool} {task : FiniteDomain.Task}
  {I J s : Interpretation} {σ : Valuation}
  (h : t.Suits groups) (hfits : t.FitsGroups groups isPartial)
  (he : EncodedFrom t groups isPartial task)
include hfits he

/-- The layers of variables are those of derived atoms. -/
theorem layers_of_encoded : task.layers = t.axioms.layerNumbers := by
  refine orderedSet_eq_of_pairwise pairwise_orderedSet fun layer => ?_
  have hlayer : layer ∈ task.vars.toList.filterMap (·.layer) ↔
      ∃ var, task.layerOf? var = some layer := by
    refine ⟨fun hmem => ?_, fun ⟨var, hvar⟩ => Task.mem_layers_of_layerOf? hvar⟩
    obtain ⟨v, hv, hlayer⟩ := List.mem_filterMap.mp hmem
    obtain ⟨var, hvar⟩ := List.getElem?_of_mem hv
    rw [Array.getElem?_toList] at hvar
    exact ⟨var, Option.bind_eq_some_iff.mpr ⟨v, hvar, hlayer⟩⟩
  rw [hlayer, t.axioms.mem_layerNumbers]
  constructor
  · rintro ⟨var, hvar⟩
    obtain ⟨a, ha, -⟩ := (layerOf?_eq_some_iff hfits he).mp hvar
    exact ⟨a, ha⟩
  · rintro ⟨a, ha⟩
    obtain ⟨var, hvar, -⟩ := hfits.derivedFact (isDerived_of_mem_layers ha)
    exact ⟨var, (layerOf?_eq_some_iff hfits he).mpr ⟨a, ha, hvar⟩⟩

omit he in
/-- A derived atom has one fact. -/
theorem eq_of_mem_facts_of_derived {a : Atom} (ha : t.IsDerived a) {f f' : Fact}
    (hf : f ∈ (Dictionary.ofGroups groups.groups).facts a)
    (hf' : f' ∈ (Dictionary.ofGroups groups.groups).facts a) : f = f' := by
  obtain ⟨g, hg⟩ := List.length_eq_one_iff.mp
    ((Dictionary.length_facts groups.groups a).trans (hfits.derived_once a ha))
  rw [hg] at hf hf'
  exact (List.mem_singleton.mp hf).trans (List.mem_singleton.mp hf').symm

omit he in
/-- Making a derived atom true sets its variable. -/
theorem encodeState_insert {a : Atom} (ha : t.IsDerived a) {f : Fact}
    (hf : f ∈ (Dictionary.ofGroups groups.groups).facts a)
    (hex : Exclusive groups.groups (insert a I)) :
    encodeState groups.groups (insert a I) = f.set (encodeState groups.groups I) := by
  funext var
  by_cases hvar : var = f.var
  · subst hvar
    rw [Fact.set, Function.update_self]
    exact ((Dictionary.shows_encodeState hfits.nodup hex).holds_iff a f hf).mpr
      (Set.mem_insert a I)
  · rw [Fact.set, Function.update_of_ne hvar, encodeState, encodeState]
    refine groupValue_congr fun b hb => ?_
    have hne : b ≠ a := by
      rintro rfl
      obtain ⟨value, hvalue⟩ := List.getElem?_of_mem hb
      rw [List.getD_eq_getElem?_getD] at hb hvalue
      cases hg : groups.groups[var]? with
      | none =>
          rw [hg] at hb
          cases hb
      | some g =>
          rw [hg] at hvalue
          have hmem : (⟨var, value⟩ : Fact) ∈ (Dictionary.ofGroups groups.groups).facts b :=
            Dictionary.mem_facts.mpr ⟨g, hg, hvalue⟩
          exact hvar (congrArg Fact.var (eq_of_mem_facts_of_derived hfits ha hmem hf))
    exact ⟨fun hmem => hmem.resolve_left hne, fun hmem => .inr hmem⟩

include h

/-- A rule is one of an axiom on the same layer. -/
theorem exists_axiom_of_mem_rulesOf {n : Nat} {r : Rule} (hr : r ∈ task.rulesOf n) :
    ∃ x ∈ t.axioms.axiomsOf n, ∃ rs,
      (encoderOf groups.groups groups.mutexGroups).rules x = .ok rs ∧ r ∈ rs := by
  obtain ⟨hr, hlayer⟩ := Task.mem_rulesOf.mp hr
  obtain ⟨rules, hrules, hflat⟩ := he.rules
  rw [hflat] at hr
  obtain ⟨rs, hrs, hr⟩ := List.mem_flatten.mp hr
  obtain ⟨x, hx, hxs⟩ := exists_of_mem_forall₂_right (forall₂_of_mapM hrules) hrs
  have hfact := (exists_rules h hx hxs).2 r hr
  exact ⟨x, t.axioms.mem_axiomsOf.mpr ⟨hx, (eq_of_mem_facts hfits he hlayer hfact rfl).1⟩, rs, hxs, hr⟩

/-- The rules of an axiom are on the layer of the axiom. -/
theorem mem_rulesOf_of_axiom {n : Nat} {x : GroundAxiom} (hx : x ∈ t.axioms.axiomsOf n) :
    ∃ rs, (encoderOf groups.groups groups.mutexGroups).rules x = .ok rs ∧
      ∀ r ∈ rs, r ∈ task.rulesOf n := by
  obtain ⟨hmem, hlayer⟩ := t.axioms.mem_axiomsOf.mp hx
  obtain ⟨rules, hrules, hflat⟩ := he.rules
  obtain ⟨rs, hrs, hxs⟩ := exists_of_mem_forall₂ (forall₂_of_mapM hrules) hmem
  refine ⟨rs, hxs, fun r hr => Task.mem_rulesOf.mpr ⟨?_, ?_⟩⟩
  · rw [hflat]
    exact List.mem_flatten.mpr ⟨rs, hrs, hr⟩
  · obtain ⟨var, hvar, -⟩ := hfits.derivedFact (isDerived_of_mem_axioms hmem)
    have hfact : (⟨var, 0⟩ : Fact) ∈ (Dictionary.ofGroups groups.groups).facts x.effect :=
      Dictionary.mem_facts.mpr ⟨_, hvar, rfl⟩
    rw [eq_of_mem_facts_of_derived hfits (isDerived_of_mem_axioms hmem)
      ((exists_rules h hmem hxs).2 r hr) hfact]
    exact (layerOf?_eq_some_iff hfits he).mpr ⟨x.effect, hlayer, hvar⟩

/-- Firing the axioms of a layer is firing its rules. -/
theorem settles_of_saturates {n : Nat} (hsat : Saturates (t.axioms.axiomsOf n) I J)
    (hex : ExclusiveIn groups.groups groups.mutexGroups J) :
    Settles (task.rulesOf n) (encodeState groups.groups I) (encodeState groups.groups J) := by
  induction hsat with
  | done hdone =>
      refine .done fun r hr hc => ?_
      obtain ⟨x, hx, rs, hrs, hr⟩ := exists_axiom_of_mem_rulesOf h hfits he hr
      obtain ⟨hcondition, heffect⟩ := exists_rules h (t.axioms.mem_axiomsOf.mp hx).1 hrs
      refine ((shows_encoderOf h.nodup hex).dictionary.holds_iff _ _ (heffect r hr)).mpr ?_
      exact hdone x hx ((hcondition _ hex).mp ⟨r, hr, hc⟩)
  | @fire I J x hx hc hnot next ih =>
      have hexI := hex.mono ((Set.subset_insert x.effect I).trans next.subset)
      obtain ⟨rs, hrs, hrules⟩ := mem_rulesOf_of_axiom h hfits he hx
      have hmem := (t.axioms.mem_axiomsOf.mp hx).1
      obtain ⟨hcondition, heffect⟩ := exists_rules h hmem hrs
      obtain ⟨r, hr, hrc⟩ := (hcondition _ hexI).mpr hc
      have hfact := heffect r hr
      have hinsert := encodeState_insert hfits (isDerived_of_mem_axioms hmem) hfact
        (hex.mono next.subset).groups
      have hih := ih hex
      rw [hinsert] at hih
      refine .fire (hrules r hr) hrc (fun hholds => hnot ?_) hih
      exact ((shows_encoderOf h.nodup hexI).dictionary.holds_iff _ _ hfact).mp hholds

theorem settlesAll_of_saturatesAll {layers : List Nat}
    (hsat : SaturatesAll (layers.map t.axioms.axiomsOf) I J)
    (hex : ExclusiveIn groups.groups groups.mutexGroups J) :
    SettlesAll (layers.map task.rulesOf) (encodeState groups.groups I)
      (encodeState groups.groups J) := by
  induction layers generalizing I with
  | nil =>
      cases hsat
      exact .nil
  | cons n layers ih =>
      cases hsat with
      | cons hfirst next =>
          exact .cons (settles_of_saturates h hfits he hfirst (hex.mono next.subset)) (ih next)

section Reset

variable {axs : List GroundAxiom} (hreduction : t.axioms.IsReduction axs)
include hreduction
omit h

/-- A derived atom has a derived variable. -/
theorem isDerived_of_mem_group {var : Nat} {g : List Atom} (hg : groups.groups[var]? = some g)
    {a : Atom} (ha : a ∈ g) (hderived : t.IsDerived a) : task.IsDerived var := by
  have hkey : a ∈ t.axioms.keys := hderived.elim id fun hhead => by
    obtain ⟨x, hx, rfl⟩ := List.mem_map.mp hhead
    exact (hreduction.sound x hx).1
  obtain ⟨n, hn⟩ := StratifiedAxioms.mem_keys.mp hkey
  have halone := hfits.derived_alone a hderived g (List.mem_of_getElem? hg) ha
  exact Option.isSome_iff_exists.mpr
    ⟨n, (layerOf?_eq_some_iff hfits he).mpr ⟨a, hn, halone ▸ hg⟩⟩

/-- Resetting the derived variables is making the derived atoms false. -/
theorem reset_eq_encodeState
    (hσ : ∀ var, ¬ task.IsDerived var → σ var = encodeState groups.groups s var) :
    task.reset σ = encodeState groups.groups {a ∈ s | ¬ t.IsDerived a} := by
  funext var
  by_cases hd : task.IsDerived var
  · obtain ⟨layer, hlayer⟩ := Option.isSome_iff_exists.mp hd
    obtain ⟨a, ha, hg⟩ := (layerOf?_eq_some_iff hfits he).mp hlayer
    have hnone : ∀ b ∈ [a], b ∉ ({a ∈ s | ¬ t.IsDerived a} : Set Atom) := by
      intro b hb hmem
      rw [List.mem_singleton.mp hb] at hmem
      exact hmem.2 (isDerived_of_mem_layers ha)
    rw [Task.reset_of_derived hd, initialValue_of_derived hfits he hlayer, encodeState,
      List.getD_eq_getElem?_getD, hg]
    exact (groupValue_eq_length.mpr hnone).symm
  · rw [Task.reset_of_not_derived hd, hσ var hd, encodeState, encodeState, List.getD_eq_getElem?_getD]
    cases hg : groups.groups[var]? with
    | none => rfl
    | some g => exact groupValue_congr fun a ha => ⟨fun hmem => ⟨hmem, fun hderived =>
        hd (isDerived_of_mem_group hfits he hreduction hg ha hderived)⟩, fun hmem => hmem.1⟩

include h

/-- The rules lead to the valuation of the completed state. -/
theorem evaluates_encodeState
    (hσ : ∀ var, ¬ task.IsDerived var → σ var = encodeState groups.groups s var)
    (hex : ExclusiveIn groups.groups groups.mutexGroups (t.complete s)) :
    task.Evaluates σ (encodeState groups.groups (t.complete s)) := by
  obtain ⟨J, hJ⟩ := SaturatesAll.exists_saturatesAll
    (t.axioms.layerNumbers.map t.axioms.axiomsOf) {a ∈ s | ¬ t.IsDerived a}
  have hmodel : t.complete s = J :=
    (hreduction.eq_interpretation (fun a ha hkey => ha.2 (.inl hkey)) hJ).symm
  rw [hmodel] at hex ⊢
  rw [Task.Evaluates, layers_of_encoded hfits he, reset_eq_encodeState hfits he hreduction hσ]
  exact settlesAll_of_saturatesAll h hfits he hJ hex

end Reset

end PropositionalTask

/-!
### Plans

The valuations that an encoded task reaches are those of the states that the ground task reaches, so
that the one has a plan if and only if the other one does.
-/

open FiniteDomain

/-! ### Operators -/

namespace FiniteDomain.ActionEncoding

variable {x : ActionEncoding} {p : Assignment} {o : Operator}

/-- Effects on a variable of the precondition start at the value that it requires. -/
theorem before_eq_of_operator? (h : x.operator? p = some o) {e : Effect} (he : e ∈ o.effects) :
    e.before = p.value? e.var := by
  obtain ⟨-, rfl⟩ := operator_eq_some h
  obtain ⟨d, hd, rfl⟩ := Operator.mem_effects_ofParts.mp he
  obtain ⟨entry, -, hd⟩ := List.mem_flatMap.mp hd
  obtain ⟨-, a, -, c, -, rfl⟩ := mem_effectsOn.mp hd
  rfl

/-- What prevails is on variables that are not changed. -/
theorem prevail_apart_of_operator? (h : x.operator? p = some o) {f : Fact} (hf : f ∈ o.prevail)
    {e : Effect} (he : e ∈ o.effects) : f.var ≠ e.var := by
  obtain ⟨-, rfl⟩ := operator_eq_some h
  obtain ⟨d, hd, rfl⟩ := Operator.mem_effects_ofParts.mp he
  intro hvar
  refine of_decide_eq_true (List.mem_filter.mp (mem_orderedSet.mp hf)).2 ?_
  exact List.mem_map.mpr ⟨d, hd, hvar.symm⟩

end FiniteDomain.ActionEncoding

namespace PropositionalTask

variable {t : PropositionalTask} {groups : FactGroups} {isPartial : Bool} {task : FiniteDomain.Task}
  {s : Interpretation} {σ : Valuation}

/-- An operator comes from a precondition of an action. -/
theorem exists_operator?_of_mem_operators (he : EncodedFrom t groups isPartial task) {o : Operator}
    (ho : o ∈ task.operators) : ∃ a ∈ t.actions, ∃ x : ActionEncoding,
      ActionEncoding.ofAction (encoderOf groups.groups groups.mutexGroups) a = some x ∧
      ∃ p ∈ x.preconditions, x.operator? p = some o := by
  rw [he.operators] at ho
  obtain ⟨x, hx, ho⟩ := List.mem_flatMap.mp ho
  obtain ⟨a, ha, hx⟩ := List.mem_filterMap.mp hx
  exact ⟨a, ha, x, hx, List.mem_filterMap.mp ho⟩

theorem operatorsAreTidy_of_encoded (he : EncodedFrom t groups isPartial task) :
    task.OperatorsAreTidy := by
  constructor
  · intro o ho f hf e heff
    obtain ⟨-, -, x, -, p, -, hx⟩ := exists_operator?_of_mem_operators he ho
    exact ActionEncoding.prevail_apart_of_operator? hx hf heff
  · intro o ho e heff d hd hvar
    obtain ⟨-, -, x, -, p, -, hx⟩ := exists_operator?_of_mem_operators he ho
    rw [ActionEncoding.before_eq_of_operator? hx heff, ActionEncoding.before_eq_of_operator? hx hd,
      hvar]

section Runs

variable {axs : List GroundAxiom} (h : t.Suits groups) (hfits : t.FitsGroups groups isPartial)
  (hreduction : t.axioms.IsReduction axs) (he : EncodedFrom t groups isPartial task)
include h hfits hreduction he

theorem evaluates_initial :
    task.Evaluates task.initialValue (encodeState groups.groups t.initialState) := by
  refine evaluates_encodeState h hfits he hreduction (fun var hbasic => ?_) (h.exclusive _ .init)
  cases hg : groups.groups[var]? with
  | none =>
      have hsize : task.init.size = groups.groups.length :=
        (Dictionary.reflects_initialState he.init).1.trans (Dictionary.size_ranges _)
      have hvar : task.init[var]? = none :=
        Array.getElem?_eq_none (hsize ▸ List.getElem?_eq_none_iff.mp hg)
      rw [Task.initialValue, Array.getD_eq_getD_getElem?, hvar, encodeState,
        List.getD_eq_getElem?_getD, hg]
      rfl
  | some g =>
      have hnone : ∀ a ∈ g, ¬ t.IsDerived a := fun a ha hderived =>
        hbasic (isDerived_of_mem_group hfits he hreduction hg ha hderived)
      rw [exists_initialValue h he hg hnone, encodeState, encodeState, List.getD_eq_getElem?_getD, hg]
      exact groupValue_congr fun a ha => t.mem_complete_of_not_derived (hnone a ha)

theorem evaluates_successor (hs : t.Reachable s) {a : GroundAction} (ha : a ∈ t.actions)
    (happ : a.Applicable s) (hσ : σ = encodeState groups.groups (a.successor s)) :
    task.Evaluates σ (encodeState groups.groups (t.complete (a.successor s))) :=
  evaluates_encodeState h hfits he hreduction (fun _ _ => congrFun hσ _)
    (h.exclusive _ (.step hs ha happ))

/-- Each state of the ground task is reached. -/
theorem reachable_encodeState (hs : t.Reachable s) :
    task.Reachable (encodeState groups.groups s) := by
  obtain ⟨hw, hr⟩ := isWellFormed_of_encoded hfits he
  induction hs with
  | init => exact .init (evaluates_initial h hfits hreduction he)
  | @step s a hs ha happ ih =>
      rcases operatorsOf_of_applicable h hs ha happ with ⟨o, ho, happly⟩ | ⟨-, hsame⟩
      · have hmem : o ∈ (operatorsOf groups a).filter
            (fun o => decide (o.Applicable (encodeState groups.groups s))) :=
          ho ▸ List.mem_singleton_self o
        rw [List.mem_filter, decide_eq_true_eq] at hmem
        have hoperator : o ∈ task.operators := by
          rw [he.operators, flatMap_operatorsOf]
          exact List.mem_flatMap.mpr ⟨a, ha, hmem.1⟩
        exact .step ih hoperator hmem.2 (evaluates_successor h hfits hreduction he hs ha happ happly)
      · -- nothing changes, and evaluating the axioms again does not matter
        obtain ⟨τ, hτ⟩ := ih.exists_evaluates
        have hnext := evaluates_successor h hfits hreduction he hs ha happ hsame.symm
        rw [hτ.eq_self hw hr hnext]
        exact ih

omit h hfits hreduction he in
/-- An operator that is applicable is one of an applicable action, and leads to its successor. -/
theorem exists_action_of_applicable (h : t.Suits groups)
    (he : EncodedFrom t groups isPartial task) (hs : t.Reachable s) {o : Operator} (ho : o ∈ task.operators)
    (happ : o.Applicable (encodeState groups.groups s)) :
    ∃ a ∈ t.actions, a.Applicable s ∧ o ∈ operatorsOf groups a ∧
      o.apply (encodeState groups.groups s) = encodeState groups.groups (a.successor s) := by
  rw [he.operators, flatMap_operatorsOf] at ho
  obtain ⟨a, ha, ho⟩ := List.mem_flatMap.mp ho
  have happ' : a.Applicable s := by
    by_contra hnot
    exact not_applicable_of_mem_operatorsOf h hs ha hnot ho happ
  have hmem : o ∈ (operatorsOf groups a).filter
      (fun o => decide (o.Applicable (encodeState groups.groups s))) :=
    List.mem_filter.mpr ⟨ho, decide_eq_true happ⟩
  refine ⟨a, ha, happ', ho, ?_⟩
  rcases operatorsOf_of_applicable h hs ha happ' with ⟨o', hone, happly⟩ | ⟨hnone, -⟩
  · rw [hone] at hmem
    exact List.mem_singleton.mp hmem ▸ happly
  · rw [hnone] at hmem
    cases hmem

/-- Each valuation that is reached is the one of a state of the ground task. -/
theorem exists_reachable_of_encoded (hσ : task.Reachable σ) :
    ∃ s, t.Reachable s ∧ σ = encodeState groups.groups s := by
  obtain ⟨hw, hr⟩ := isWellFormed_of_encoded hfits he
  induction hσ with
  | init hσ => exact ⟨_, .init, hσ.unique hw hr (evaluates_initial h hfits hreduction he)⟩
  | @step σ τ o _ ho happ hτ ih =>
      obtain ⟨s, hs, rfl⟩ := ih
      obtain ⟨a, ha, happ', -, happly⟩ := exists_action_of_applicable h he hs ho happ
      exact ⟨_, .step hs ha happ',
        hτ.unique hw hr (evaluates_successor h hfits hreduction he hs ha happ' happly)⟩

/-- The encoded task has a plan if and only if the ground task has one. -/
theorem solvable_encoded_iff : task.Solvable ↔ t.Solvable := by
  constructor
  · rintro ⟨σ, hσ, hgoal⟩
    obtain ⟨s, hs, rfl⟩ := exists_reachable_of_encoded h hfits hreduction he hσ
    exact ⟨s, hs, (goal_holds_iff h he hs).mp hgoal⟩
  · rintro ⟨s, hs, hgoal⟩
    exact ⟨_, reachable_encodeState h hfits hreduction he hs, (goal_holds_iff h he hs).mpr hgoal⟩

/-- No operator sets a variable to different values. -/
theorem isConsistent_of_encoded : task.IsConsistent := by
  intro σ hσ o ho happ
  obtain ⟨s, hs, rfl⟩ := exists_reachable_of_encoded h hfits hreduction he hσ
  obtain ⟨a, ha, happ', hoa, -⟩ := exists_action_of_applicable h he hs ho happ
  cases hx : ActionEncoding.ofAction (encoderOf groups.groups groups.mutexGroups) a with
  | none => simp [operatorsOf, hx] at hoa
  | some x =>
      simp only [operatorsOf, hx, Option.map_some, Option.getD_some] at hoa
      exact Operator.isConsistent_of_holds fun f hf =>
        holds_successor_of_sets h.nodup (h.exclusive s hs) (coversAction_of_mem_actions h.covered ha)
          (h.exclusive_successor hs ha happ') hx hoa happ hf

end Runs

/-- The goal is trivial only if all states satisfy it, or none. -/
theorem solvable_iff_of_yields_error (h : t.Suits groups) {reason : Trivial}
    (hrun : (FiniteDomain.Task.encode t groups isPartial).Yields (.error reason)) :
    t.Solvable ↔ reason.isSolvable = true := by
  have hencoder := hasAlternatives_encoderOf groups.groups groups.mutexGroups
  rw [Task.encode] at hrun
  obtain ⟨_, _, hrun⟩ := Compilation.yields_bind hrun
  obtain ⟨init, _, hrun⟩ := Compilation.yields_bind hrun
  split at hrun
  next hgoal =>
    cases Compilation.yields_pure hrun
    refine iff_of_false ?_ Bool.false_ne_true
    rintro ⟨s, hs, hholds⟩
    exact Encoder.not_allHold_of_assignments hencoder (shows_encoderOf h.nodup (h.exclusive s hs))
      hgoal hholds
  next hgoal =>
    cases Compilation.yields_pure hrun
    refine iff_of_true ⟨_, .init, ?_⟩ rfl
    exact Encoder.allHold_of_factsHold hencoder (shows_encoderOf h.nodup (h.exclusive _ .init))
      (covers_of_mem_conditions h.covered List.mem_cons_self) hgoal (List.mem_singleton_self [])
      (factsHold_nil _)
  next =>
    obtain ⟨task, _, hrun⟩ := Compilation.yields_bind hrun
    cases Compilation.yields_pure hrun
  next => exact absurd hrun Compilation.not_yields_throw

end PropositionalTask
end FinitePlanning
