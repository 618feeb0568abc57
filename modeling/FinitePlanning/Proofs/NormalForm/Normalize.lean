import FinitePlanning.Proofs.Condition.Disjunctive
import FinitePlanning.Proofs.NormalForm.Universal

/-!
Normalizing a well scoped task, if it succeeds, gives a task in normal form.
-/

namespace FinitePlanning
namespace Task

open Condition

variable {t : Task} {vars : List String} {c d : Condition}

/-! ### The goal -/

/-- The goal becomes a conjunction of literals, and the rest stays well scoped. -/
theorem deriveGoal_spec {k : Fragment} {names : AxiomNames} (h : t.IsWellScoped k)
    (hnames : ∀ p ∈ t.predicates, p.name ∈ names.taken) :
    (t.deriveGoal names).IsDeclared ∧ (t.deriveGoal names).HasSchemas k ∧
      (t.deriveGoal names).goal.IsOver (t.deriveGoal names) [] := by
  rw [deriveGoal]
  split
  next hc => exact ⟨h.toIsDeclared, h.toHasSchemas, isOver_of_conjunction h.goal.inScope hc⟩
  next =>
    dsimp only
    generalize hname : (names.fresh AxiomNames.base).1 = name
    have hnew : name ∉ t.predicates.map (·.name) := by
      intro hmem
      obtain ⟨p, hp, he⟩ := List.mem_map.mp hmem
      have hfresh : (names.fresh AxiomNames.base).1 ∉ names.taken := AxiomNames.fresh_not_mem_taken
      rw [hname, ← he] at hfresh
      exact hfresh (hnames p hp)
    have ht : t.IsExtendedBy { t.define ⟨name, [], 0, t.goal⟩ with
        goal := .literal (Atom.named name []).positive } :=
      ⟨rfl, List.subset_append_left _ _⟩
    have harity : { t.define ⟨name, [], 0, t.goal⟩ with
        goal := .literal (Atom.named name []).positive }.HasArity (.named name) 0 :=
      ⟨_, List.mem_append_right _ (List.mem_singleton_self _), rfl, rfl⟩
    refine ⟨⟨h.objects, ?_, fun a ha => (h.init a ha).of_task ht, h.equal⟩,
      ⟨fun a ha => (h.actions a ha).of_task ht, fun a ha => ?_⟩, ?_⟩
    · refine List.map_append ▸ List.nodup_append.mpr ⟨h.predicates, List.nodup_singleton name,
        fun a ha b hb he => ?_⟩
      obtain rfl : b = name := List.mem_singleton.mp hb
      exact hnew (he ▸ ha)
    · rcases List.mem_append.mp ha with ha | ha
      · exact (h.axioms a ha).of_task ht
      · obtain rfl := List.mem_singleton.mp ha
        exact ⟨h.distinct, h.goal.of_task ht, Nat.le_refl 0, harity⟩
    · exact ⟨[(Atom.named name []).positive], rfl, List.forall_mem_singleton.mpr
        ⟨harity, List.forall_mem_nil _⟩⟩

/-! ### Disjunctions -/

theorem mem_splitItems {α : Type} {condition : α → Condition} {withCondition : α → Condition → α}
    (hsame : ∀ a, withCondition a (condition a) = a) {items : List α} {b : α} :
    b ∈ splitItems condition withCondition items ↔
      ∃ a ∈ items, ∃ d ∈ (condition a).alternatives, b = withCondition a d := by
  rw [splitItems, List.mem_append]
  constructor
  · rintro (h | h)
    · obtain ⟨hb, hnone⟩ := List.mem_filter.mp h
      refine ⟨b, hb, condition b, ?_, (hsame b).symm⟩
      rw [alternatives, Option.isNone_iff_eq_none.mp hnone]
      exact List.mem_singleton_self _
    · obtain ⟨a, ha, hb⟩ := List.mem_flatMap.mp h
      obtain ⟨d, hd, rfl⟩ := List.mem_map.mp hb
      refine ⟨a, ha, d, ?_, rfl⟩
      rw [alternatives]
      cases hc : (condition a).alternatives? with
      | none =>
          rw [hc] at hd
          cases hd
      | some ds => rwa [hc] at hd
  · rintro ⟨a, ha, d, hd, rfl⟩
    rw [alternatives] at hd
    cases hc : (condition a).alternatives? with
    | none =>
        obtain rfl : d = condition a := by simpa [hc] using hd
        exact .inl (List.mem_filter.mpr ⟨by rwa [hsame], by simp [hsame, hc]⟩)
    | some ds =>
        exact .inr (List.mem_flatMap.mpr ⟨a, ha, List.mem_map_of_mem (by simpa [hc] using hd)⟩)

theorem refines_of_mem_alternatives (h : c.IsWellScoped t .withoutUniversals vars)
    (hd : d ∈ c.disjunctiveForm.alternatives) : c.Refines t .existentialConjunctions vars d :=
  ⟨isPart_of_mem_alternatives h.inScope hd,
    isSimplified_of_mem_alternatives (isSimplified_disjunctiveForm h.simplified) hd⟩

/-- Every schema that results from splitting has one of the alternatives as its condition. -/
theorem hasSchemas_splitDisjunctions (h : t.HasSchemas .withoutUniversals) :
    (t.mapConditions Condition.disjunctiveForm).splitDisjunctions.HasSchemas
      .existentialConjunctions := by
  have ht : t.IsExtendedBy (t.mapConditions Condition.disjunctiveForm).splitDisjunctions :=
    ⟨rfl, List.Subset.refl _⟩
  refine ⟨fun a' ha' => ?_, fun a' ha' => ?_⟩
  · obtain ⟨b, hb, d, hd, rfl⟩ := (mem_splitItems fun _ => rfl).mp ha'
    obtain ⟨b', hb', rfl⟩ := List.mem_map.mp hb
    obtain ⟨a, ha, rfl⟩ := List.mem_map.mp hb'
    have ha := h.actions a ha
    refine ha.refine ht (refines_of_mem_alternatives (ha.precondition.of_task ht) hd)
      fun e' he' => ?_
    obtain ⟨f, hf, d, hd, rfl⟩ := (mem_splitItems fun _ => rfl).mp he'
    obtain ⟨e, he, rfl⟩ := List.mem_map.mp hf
    exact ⟨e, he, d, refines_of_mem_alternatives ((ha.effects e he).condition.of_task ht) hd, rfl⟩
  · obtain ⟨b, hb, d, hd, rfl⟩ := (mem_splitItems fun _ => rfl).mp ha'
    obtain ⟨a, ha, rfl⟩ := List.mem_map.mp hb
    have ha := h.axioms a ha
    exact ha.refine ht (refines_of_mem_alternatives (ha.condition.of_task ht) hd)

/-! ### Existential quantifiers -/

/-- A condition that is not false is a conjunction of literals over the variables in scope and
those that were quantified. -/
theorem isOver_pullExistentials (h : c.IsWellScoped t .existentialConjunctions vars)
    (hfalse : c.pullExistentials.splitExistential.2 ≠ .false) :
    c.pullExistentials.splitExistential.2.IsOver t
      (vars ++ c.pullExistentials.splitExistential.1.map (·.name)) :=
  isOver_of_conjunction (isSplit_pullExistentials h.inScope).inScope
    (isSome_conjunction? (isSimplified_splitExistential h.simplified)
      (splitsInto_pullExistentials h.inScope.inFragment).fragment hfalse)

theorem isNormal_eliminateInEffect {outer inner ps : List Parameter} {e : Effect}
    (h : e.IsWellScoped t .existentialConjunctions outer inner) (hps : ps.Subperm inner)
    (hbasic : t.isDerived e.literal.atom = Bool.false)
    (hfalse : (eliminateInEffect { e with
      condition := e.condition.pullExistentials }).condition ≠ .false) :
    (eliminateInEffect { e with condition := e.condition.pullExistentials }).IsNormal t
      (outer ++ ps) where
  parameters := by
    refine h.distinct.of_subperm (((List.Subperm.refl outer).append hps).append ?_)
    exact (List.Subperm.refl e.parameters).append
      (isSplit_pullExistentials h.condition.inScope).quantified
  condition := by
    refine (isOver_pullExistentials h.condition hfalse).mono ?_
    rw [← List.map_append]
    refine List.map_subset _ fun p hp => ?_
    rcases List.mem_append.mp hp with hp | hp
    · rcases List.mem_append.mp hp with hp | hp
      · exact List.mem_append_left _ (List.mem_append_left _ hp)
      · exact List.mem_append_right _ (List.mem_append_left _ hp)
    · exact List.mem_append_right _ (List.mem_append_right _ hp)
  literal := by
    refine h.literal.mono (List.map_subset _ fun p hp => ?_)
    rcases List.mem_append.mp hp with hp | hp
    · exact List.mem_append_left _ (List.mem_append_left _ hp)
    · exact List.mem_append_right _ (List.mem_append_left _ hp)
  named := h.named
  basic := hbasic

theorem isNormal_eliminateInAction {a : Action} {effects : List Effect}
    (h : a.IsWellScoped t .existentialConjunctions)
    (hfalse : a.precondition.pullExistentials.splitExistential.2 ≠ .false)
    (heffects : ∀ e' ∈ effects, ∃ e ∈ a.effects, t.isDerived e.literal.atom = Bool.false ∧
      e'.condition ≠ .false ∧
      e' = eliminateInEffect { e with condition := e.condition.pullExistentials }) :
    Action.IsNormal t { eliminateInAction { a with
      precondition := a.precondition.pullExistentials } with effects } where
  parameters := h.distinct.of_subperm ((List.Subperm.refl a.parameters).append
    (isSplit_pullExistentials h.precondition.inScope).quantified)
  precondition := by
    have hover := isOver_pullExistentials h.precondition hfalse
    rw [← List.map_append] at hover
    exact hover
  effects := by
    intro e' he'
    obtain ⟨e, he, hbasic, hne, rfl⟩ := heffects e' he'
    exact isNormal_eliminateInEffect (h.effects e he)
      (isSplit_pullExistentials h.precondition.inScope).quantified hbasic hne

theorem checkDerived_eq_ok (h : t.checkDerived = .ok ()) :
    (∀ a ∈ t.init, t.isDerived a = Bool.false) ∧
      ∀ a ∈ t.actions, ∀ e ∈ a.effects, t.isDerived e.literal.atom = Bool.false := by
  rw [checkDerived] at h
  cases hinit : t.init.find? t.isDerived with
  | some fact =>
      rw [hinit] at h
      cases h
  | none =>
      rw [hinit] at h
      refine ⟨fun a ha => by simpa using List.find?_eq_none.mp hinit a ha, fun a ha e he => ?_⟩
      have hactions := forM_eq_ok_iff.mp h a ha
      cases heffects : a.effects.find? (t.isDerived ·.literal.atom) with
      | some e =>
          rw [heffects] at hactions
          cases hactions
      | none => simpa using List.find?_eq_none.mp heffects e he

/-- What is left when the quantifiers have become parameters is in normal form. -/
theorem isNormal_eliminated (hdeclared : t.IsDeclared)
    (hschemas : t.HasSchemas .existentialConjunctions) (hgoal : t.goal.IsOver t [])
    {t' : Task} (ht' : t' =
      (t.mapConditions Condition.pullExistentials).eliminateExistentials.removeImpossible)
    (hcheck : t'.checkDerived = .ok ()) : t'.IsNormal := by
  obtain ⟨hinit, heffects⟩ := checkDerived_eq_ok hcheck
  have ht : t.IsExtendedBy t' := by
    rw [ht']
    exact ⟨rfl, List.Subset.refl _⟩
  subst ht'
  refine ⟨hdeclared.objects, hdeclared.predicates, fun a ha =>
    ⟨(hdeclared.init a ha).of_task ht, hinit a ha⟩, hdeclared.equal, hgoal.of_task ht,
    fun a'' ha'' => ?_, fun a'' ha'' => ?_⟩
  · have heffects := heffects a'' ha''
    obtain ⟨ha'', hfalse⟩ := List.mem_filter.mp ha''
    obtain ⟨b, hb, rfl⟩ := List.mem_map.mp ha''
    obtain ⟨a', ha', rfl⟩ := List.mem_map.mp hb
    obtain ⟨a, ha, rfl⟩ := List.mem_map.mp ha'
    rw [Bool.and_eq_true, decide_eq_true_eq] at hfalse
    refine isNormal_eliminateInAction ((hschemas.actions a ha).of_task ht) hfalse.1 fun e'' he'' => ?_
    have hbasic := heffects e'' he''
    obtain ⟨he'', hne⟩ := List.mem_filter.mp he''
    obtain ⟨e', he', rfl⟩ := List.mem_map.mp he''
    obtain ⟨e, he, rfl⟩ := List.mem_map.mp he'
    exact ⟨e, he, hbasic, by simpa using hne, rfl⟩
  · obtain ⟨hb, hfalse⟩ := List.mem_filter.mp ha''
    obtain ⟨a', ha', rfl⟩ := List.mem_map.mp hb
    obtain ⟨a, ha, rfl⟩ := List.mem_map.mp ha'
    have hproper := (hschemas.axioms a ha).of_task ht
    rw [decide_eq_true_eq] at hfalse
    have hover := isOver_pullExistentials hproper.condition hfalse
    rw [← List.map_append] at hover
    refine ⟨hproper.distinct.of_subperm ((List.Subperm.refl a.parameters).append
      (isSplit_pullExistentials hproper.condition.inScope).quantified), hover, ?_, hproper.arity⟩
    exact hproper.external.trans (by simp [eliminateInAxiom])

theorem isDeclared_splitDisjunctions (h : t.IsDeclared) :
    (t.mapConditions Condition.disjunctiveForm).splitDisjunctions.IsDeclared :=
  ⟨h.objects, h.predicates, fun a ha => (h.init a ha).of_task ⟨rfl, List.Subset.refl _⟩, h.equal⟩

/-- Normalization changes the conditions and checks the result. -/
theorem of_normalize_eq_ok {t t' : Task} (h : t.normalize = .ok t') :
    t' = t.normalizeConditions { taken := t.predicates.map (·.name) } ∧
      t'.checkDerived = .ok () := by
  rw [normalize] at h
  generalize t.normalizeConditions { taken := t.predicates.map (·.name) } = t'' at h ⊢
  cases hcheck : t''.checkDerived with
  | error e =>
      rw [hcheck] at h
      cases h
  | ok =>
      rw [hcheck] at h
      cases h
      exact ⟨rfl, hcheck⟩

/-- A task without universal quantifiers whose goal is a conjunction gets a normal form. -/
theorem isNormal_split (hdeclared : t.IsDeclared) (hschemas : t.HasSchemas .withoutUniversals)
    (hgoal : t.goal.IsOver t []) {t' : Task} (ht' : t' =
      ((t.mapConditions Condition.disjunctiveForm).splitDisjunctions.mapConditions
        Condition.pullExistentials).eliminateExistentials.removeImpossible)
    (hcheck : t'.checkDerived = .ok ()) : t'.IsNormal :=
  isNormal_eliminated (isDeclared_splitDisjunctions hdeclared)
    (hasSchemas_splitDisjunctions hschemas) (hgoal.of_task ⟨rfl, List.Subset.refl _⟩) ht' hcheck

/-- Normalizing a well scoped task gives a task in normal form, or fails. -/
theorem isNormal_normalize {t t' : Task} (h : t.IsWellScoped .full) (ht' : t.normalize = .ok t') :
    t'.IsNormal := by
  obtain ⟨hremoved, hnames⟩ := isWellScoped_removeUniversals h
    { taken := t.predicates.map (·.name) } rfl
  obtain ⟨hdeclared, hschemas, hgoal⟩ := deriveGoal_spec hremoved hnames
  obtain ⟨ht', hcheck⟩ := of_normalize_eq_ok ht'
  exact isNormal_split hdeclared hschemas hgoal ht' hcheck

end Task
end FinitePlanning
