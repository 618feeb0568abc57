import FinitePlanning.Proofs.Encoding.Facts
import FinitePlanning.Proofs.Encoding.Fitting
import FinitePlanning.Proofs.FiniteDomain.Evaluation
import FinitePlanning.Proofs.Pruning.Values
import FinitePlanning.Proofs.Stratification.Layers

/-!
The encoded task is well formed. A derived variable stands for a single derived atom, which is false
initially and not changed by actions, and whose axioms respect the layers.
-/

namespace FinitePlanning

open FiniteDomain

theorem FactGroups.length_valueNamesOf (group : List Atom) :
    (valueNamesOf group).length = group.length + 1 := by
  match group with
  | [] | [_] => rfl
  | _ :: _ :: _ => simp [valueNamesOf]

namespace PropositionalTask

/-- A ground task fits its fact groups. Its derived atoms are in groups of their own, they are false
initially and no effects of actions. -/
structure FitsGroups (t : PropositionalTask) (groups : FactGroups) (isPartial : Bool) : Prop where
  nodup : ∀ l ∈ groups.groups, l.Nodup
  atoms : ∀ a ∈ t.atoms, a ∈ groups.groups.flatten ∧
    (isPartial = true → groups.groups.flatten.count a = 1)
  initial : ∀ l ∈ groups.groups, ∀ a ∈ l, ∀ b ∈ l, a ∈ t.init → b ∈ t.init → a = b
  names : groups.valueNames = groups.groups.map FactGroups.valueNamesOf
  stratified : t.axioms.IsStratified
  derived_once : ∀ a, t.IsDerived a → groups.groups.flatten.count a = 1
  derived_alone : ∀ a, t.IsDerived a → ∀ l ∈ groups.groups, a ∈ l → l = [a]
  derived_initial : ∀ a, t.IsDerived a → a ∉ t.init
  derived_effects : ∀ a ∈ t.actions, ∀ x ∈ a.adds ++ a.deletes, ¬ t.IsDerived x.atom

variable {t : PropositionalTask} {groups : FactGroups} {isPartial : Bool} {task : FiniteDomain.Task}

theorem FitsGroups.derivedFact (h : t.FitsGroups groups isPartial) {a : Atom} (ha : t.IsDerived a) :
    ∃ var : Nat, groups.groups[var]? = some [a] ∧
      (Dictionary.ofGroups groups.groups).derivedFact a = .ok ⟨var, 0⟩ :=
  Dictionary.derivedFact_eq_ok (h.derived_once a ha) (h.derived_alone a ha)

theorem isDerived_of_mem_layers {p : Atom × Nat} (h : p ∈ t.axioms.layers) : t.IsDerived p.1 :=
  .inl (List.mem_map_of_mem h)

theorem isDerived_of_mem_axioms {x : GroundAxiom} (h : x ∈ t.axioms.axioms) :
    t.IsDerived x.effect :=
  .inr (List.mem_map_of_mem h)

/-- All that can be encoded without the goal. -/
theorem FitsGroups.exists_parts (h : t.FitsGroups groups isPartial) :
    t.atoms.forM ((Dictionary.ofGroups groups.groups).checkAtom isPartial) = .ok () ∧
      (∃ init, (Dictionary.ofGroups groups.groups).initialState t.init = .ok init) ∧
      (∃ rules, t.axioms.axioms.mapM (encoderOf groups.groups groups.mutexGroups).rules =
        .ok rules) ∧
      ∃ layers, (Dictionary.ofGroups groups.groups).variableLayers t.axioms.layers = .ok layers := by
  have hrules : ∀ xs : List GroundAxiom, (∀ x ∈ xs, t.IsDerived x.effect) →
      ∃ rules, xs.mapM (encoderOf groups.groups groups.mutexGroups).rules = .ok rules := by
    intro xs hxs
    induction xs with
    | nil => exact ⟨[], rfl⟩
    | cons x xs ih =>
        rw [List.forall_mem_cons] at hxs
        obtain ⟨rules, hrules⟩ := ih hxs.2
        obtain ⟨var, -, hf⟩ := h.derivedFact hxs.1
        have hx : ∃ rs, (encoderOf groups.groups groups.mutexGroups).rules x = .ok rs := by
          rw [Encoder.rules]
          split
          · exact ⟨[], rfl⟩
          · exact ⟨_, by rw [encoderOf, hf]; rfl⟩
        obtain ⟨rs, hrs⟩ := hx
        exact ⟨rs :: rules, by rw [List.mapM_cons, hrs, hrules]; rfl⟩
  exact ⟨forM_eq_ok_iff.mpr fun a ha => Dictionary.checkAtom_eq_ok (h.atoms a ha).1 (h.atoms a ha).2,
    Dictionary.exists_initialState h.nodup h.initial,
    hrules t.axioms.axioms fun x hx => isDerived_of_mem_axioms hx,
    Dictionary.exists_variableLayers fun p hp =>
      (h.derivedFact (isDerived_of_mem_layers hp)).elim fun _ hf => ⟨_, hf.2⟩⟩

/-- The encoding finds no mismatch. -/
theorem FitsGroups.isCoherent_encode (h : t.FitsGroups groups isPartial) :
    (FiniteDomain.Task.encode t groups isPartial).IsCoherent := by
  obtain ⟨hatoms, ⟨init, hinit⟩, ⟨rules, hrules⟩, layers, hlayers⟩ := h.exists_parts
  have htask : ∀ goal, (Encoder.task (encoderOf groups.groups groups.mutexGroups) t groups
      isPartial init goal).IsCoherent := by
    intro goal
    rw [Encoder.task, hrules, hlayers]
    refine (Compilation.isCoherent_pure rules).bind fun _ _ =>
      (Compilation.isCoherent_log _ _).bind fun _ _ =>
      (Compilation.isCoherent_log _ _).bind fun _ _ =>
      (Compilation.isCoherent_pure layers).bind fun _ _ => ?_
    cases isPartial with
    | true => exact Compilation.isCoherent_pure _
    | false => exact (Compilation.isCoherent_log _ _).bind fun _ _ => Compilation.isCoherent_pure _
  rw [FiniteDomain.Task.encode, hatoms, hinit]
  refine (Compilation.isCoherent_pure ()).bind fun _ _ =>
    (Compilation.isCoherent_pure init).bind fun init' hinit' => ?_
  obtain rfl := Compilation.yields_pure hinit'
  split
  · exact Compilation.isCoherent_pure _
  · exact Compilation.isCoherent_pure _
  · exact (htask _).bind fun _ _ => Compilation.isCoherent_pure _
  · exact Compilation.isCoherent_throw fun _ => Failure.noConfusion

section Encoded

variable (h : t.FitsGroups groups isPartial) (he : EncodedFrom t groups isPartial task)
include he

theorem range_of_encoded (var : Nat) : (task.vars[var]?).map (·.range) =
    (Dictionary.ofGroups groups.groups).ranges[var]? := by
  obtain ⟨layers, -, hvars⟩ := he.vars
  rw [hvars, Dictionary.vars, Array.getElem?_mapIdx]
  cases (Dictionary.ofGroups groups.groups).ranges[var]? <;> rfl

theorem hasFact_iff_of_encoded {f : Fact} :
    task.hasFact f = true ↔ f.value < (Dictionary.ofGroups groups.groups).range f.var := by
  have hrange := range_of_encoded he f.var
  rw [Dictionary.range, Array.getD_eq_getD_getElem?, ← hrange, Task.hasFact]
  cases task.vars[f.var]? <;> simp

omit he in
theorem layerOf?_of_encoded {layers : Array (Option Nat)} (var : Nat)
    (hlayers : (Dictionary.ofGroups groups.groups).variableLayers t.axioms.layers = .ok layers)
    (hvars : task.vars = (Dictionary.ofGroups groups.groups).vars layers groups.valueNames) :
    task.layerOf? var = layers.getD var none := by
  have hsize := (Dictionary.variableLayers_spec hlayers).1
  rw [Task.layerOf?, hvars, Dictionary.vars, Array.getElem?_mapIdx]
  by_cases hvar : var < layers.size
  · rw [Array.getElem?_eq_getElem (hsize ▸ hvar)]
    rfl
  · rw [Array.getElem?_eq_none (hsize ▸ Nat.le_of_not_lt hvar)]
    simp [Array.getD, hvar]

include h

/-- A derived variable stands for an atom that has its layer. -/
theorem layerOf?_eq_some_iff {var layer : Nat} : task.layerOf? var = some layer ↔
    ∃ a, (a, layer) ∈ t.axioms.layers ∧ groups.groups[var]? = some [a] := by
  obtain ⟨layers, hlayers, hvars⟩ := he.vars
  obtain ⟨hsize, hspec⟩ := Dictionary.variableLayers_spec hlayers
  rw [Dictionary.size_ranges] at hsize
  rw [layerOf?_of_encoded var hlayers hvars]
  have hfact : ∀ p ∈ t.axioms.layers, ∀ f,
      (Dictionary.ofGroups groups.groups).derivedFact p.1 = .ok f →
        groups.groups[f.var]? = some [p.1] := by
    intro p hp f hf
    obtain ⟨w, hw, hf'⟩ := h.derivedFact (isDerived_of_mem_layers hp)
    obtain rfl := Except.ok.inj (hf.symm.trans hf')
    exact hw
  constructor
  · intro hl
    have hvar : var < layers.size := by
      by_contra hge
      simp [Array.getD, hge] at hl
    rcases hspec var hvar with ⟨p, hp, f, hf, rfl, hget⟩ | ⟨hget, -⟩
    · obtain rfl := Option.some.inj (hget.symm.trans hl)
      exact ⟨p.1, hp, hfact p hp f hf⟩
    · cases hget.symm.trans hl
  · rintro ⟨a, ha, hvar⟩
    obtain ⟨w, hw, hf⟩ := h.derivedFact (isDerived_of_mem_layers ha)
    obtain rfl : w = var := by
      have hfacts : ∀ v : Nat, groups.groups[v]? = some [a] →
          (⟨v, 0⟩ : Fact) ∈ (Dictionary.ofGroups groups.groups).facts a :=
        fun v hv => Dictionary.mem_facts.mpr ⟨[a], hv, rfl⟩
      obtain ⟨f, hone⟩ := List.length_eq_one_iff.mp ((Dictionary.length_facts _ a).trans
        (h.derived_once a (isDerived_of_mem_layers ha)))
      have hw := hfacts w hw
      have hvar := hfacts var hvar
      rw [hone, List.mem_singleton] at hw hvar
      exact congrArg Fact.var (hw.trans hvar.symm)
    have hlt : w < layers.size := hsize ▸ (List.getElem?_eq_some_iff.mp hvar).1
    rcases hspec w hlt with ⟨p, hp, f, hfp, rfl, hget⟩ | ⟨-, hnone⟩
    · have hsame := hfact p hp f hfp
      obtain rfl : a = p.1 := by simpa using Option.some.inj (hvar.symm.trans hsame)
      rw [hget]
      have hunique := List.inj_on_of_nodup_map h.stratified.unique hp ha rfl
      rw [hunique]
    · exact absurd rfl (hnone _ ha _ hf)

/-- Derived variables are not among those of other atoms. -/
theorem eq_of_mem_facts {var layer : Nat} (hl : task.layerOf? var = some layer) {b : Atom} {f : Fact}
    (hf : f ∈ (Dictionary.ofGroups groups.groups).facts b) (hvar : f.var = var) :
    (b, layer) ∈ t.axioms.layers ∧ f.value = 0 ∧
      (Dictionary.ofGroups groups.groups).range var = 2 := by
  obtain ⟨a, ha, hg⟩ := (layerOf?_eq_some_iff h he).mp hl
  obtain ⟨g, hg', hb⟩ := Dictionary.mem_facts.mp hf
  obtain rfl := Option.some.inj (hg.symm.trans (hvar ▸ hg'))
  have hvalue : f.value = 0 := by simpa using (List.getElem?_eq_some_iff.mp hb).1
  obtain rfl : a = b := by simpa [hvalue] using hb
  exact ⟨ha, hvalue, Dictionary.range_ofGroups hg⟩

theorem wellFormed_variable {v : Variable} (hv : v ∈ task.vars.toList) : v.IsWellFormed := by
  obtain ⟨var, hvar⟩ := List.getElem?_of_mem hv
  rw [Array.getElem?_toList] at hvar
  obtain ⟨layers, hlayers, hvars⟩ := he.vars
  have hlayer : task.layerOf? var = v.layer := by rw [Task.layerOf?, hvar]; rfl
  rw [hvars, Dictionary.vars, Array.getElem?_mapIdx] at hvar
  obtain ⟨range, hrange, rfl⟩ := Option.map_eq_some_iff.mp hvar
  obtain ⟨g, hg, rfl⟩ : ∃ g, groups.groups[var]? = some g ∧ g.length + 1 = range := by
    simpa [Dictionary.ofGroups] using hrange
  refine ⟨Nat.succ_pos _, ?_, fun hderived => ?_⟩
  · have hnames : (groups.valueNames.toArray.getD var []) = FactGroups.valueNamesOf g := by
      simp [h.names, hg]
    exact (congrArg List.length hnames).trans (FactGroups.length_valueNamesOf g)
  · obtain ⟨layer, hl⟩ := Option.isSome_iff_exists.mp hderived
    obtain ⟨a, -, ha⟩ := (layerOf?_eq_some_iff h he).mp (hlayer.trans hl)
    rw [Option.some.inj (hg.symm.trans ha)]
    rfl

omit h in
theorem hasFact_init {var value : Nat} (hi : task.init[var]? = some value) :
    task.hasFact ⟨var, value⟩ = true := by
  obtain ⟨hsize, hvalues⟩ := Dictionary.reflects_initialState he.init
  obtain ⟨hlt, rfl⟩ := Array.getElem?_eq_some_iff.mp hi
  have hget : task.init.getD var 0 = task.init[var] := by simp [Array.getD, hlt]
  rw [hasFact_iff_of_encoded he, ← hget]
  dsimp only
  rcases hvalues var hlt with ⟨f, hf, rfl, hvalue⟩ | ⟨hvalue, -⟩
  · obtain ⟨a, -, hf⟩ := List.mem_flatMap.mp hf
    rw [hvalue]
    exact (Dictionary.lt_of_mem_facts hf).2
  · rw [Dictionary.size_ranges] at hsize
    rw [hvalue, Dictionary.noneOfThose,
      Dictionary.range_ofGroups (List.getElem?_eq_getElem (hsize ▸ hlt))]
    exact Nat.lt_succ_self _

theorem initialValue_of_derived {var layer : Nat} (hl : task.layerOf? var = some layer) :
    task.initialValue var = 1 := by
  obtain ⟨hsize, hvalues⟩ := Dictionary.reflects_initialState he.init
  obtain ⟨a, ha, hg⟩ := (layerOf?_eq_some_iff h he).mp hl
  rw [Dictionary.size_ranges] at hsize
  rw [Task.initialValue]
  rcases hvalues var (hsize ▸ (List.getElem?_eq_some_iff.mp hg).1) with
    ⟨f, hf, hvar, -⟩ | ⟨hvalue, -⟩
  · obtain ⟨b, hb, hf⟩ := List.mem_flatMap.mp hf
    exact absurd hb (h.derived_initial b
      (isDerived_of_mem_layers (eq_of_mem_facts h he hl hf hvar).1))
  · rw [hvalue, Dictionary.noneOfThose, Dictionary.range_ofGroups hg]
    rfl

theorem fits_operator {o : Operator} (ho : o ∈ task.operators) : task.OperatorFits o := by
  rw [he.operators] at ho
  obtain ⟨x, hx, ho⟩ := List.mem_flatMap.mp ho
  obtain ⟨a, ha, hx⟩ := List.mem_filterMap.mp hx
  obtain ⟨hprevail, hbefore, heffects⟩ := ActionEncoding.operatorFits_of_mem_operators
    (Dictionary.hasValues_ofGroups groups.groups) hx ho
  have hvalid : ∀ {f : Fact}, (encoderOf groups.groups groups.mutexGroups).HasFact f →
      task.hasFact f = true := (hasFact_iff_of_encoded he).mpr
  refine ⟨fun f hf => hvalid (hprevail f hf), fun d hd f hf =>
    hvalid ((heffects d hd).condition f hf), fun d hd => hvalid (heffects d hd).valid,
    fun d hd f hf => hvalid (hbefore d hd f hf), fun d hd => ?_⟩
  by_contra hne
  obtain ⟨layer, hl⟩ := Option.ne_none_iff_exists'.mp hne
  obtain ⟨y, hy, g, hg, hvar⟩ := (heffects d hd).origin
  exact h.derived_effects a ha y hy
    (isDerived_of_mem_layers (eq_of_mem_facts h he hl hg hvar).1)

theorem fits_rule {r : Rule} (hr : r ∈ task.rules) :
    task.RuleFits r ∧ r.effect.value = 0 := by
  obtain ⟨rules, hrules, hflat⟩ := he.rules
  rw [hflat] at hr
  obtain ⟨rs, hrs, hr⟩ := List.mem_flatten.mp hr
  obtain ⟨x, hx, hxs⟩ := exists_of_mem_forall₂_right (forall₂_of_mapM hrules) hrs
  obtain ⟨layer, hlayer, hbelow⟩ := h.stratified.layered x hx
  obtain ⟨var, hvar, hf⟩ := h.derivedFact (isDerived_of_mem_axioms hx)
  have hl := (layerOf?_eq_some_iff h he).mpr ⟨x.effect, hlayer, hvar⟩
  rw [Encoder.rules] at hxs
  split at hxs
  next =>
    cases hxs
    cases hr
  next as has =>
    have hf' : (encoderOf groups.groups groups.mutexGroups).dictionary.derivedFact x.effect =
      .ok ⟨var, 0⟩ := hf
    rw [hf'] at hxs
    cases hxs
    obtain ⟨a, ha, rfl⟩ := List.mem_map.mp hr
    refine ⟨⟨?_, layer, hl, fun f hf => ?_⟩, rfl⟩
    · rw [hasFact_iff_of_encoded he]
      exact Nat.lt_of_lt_of_eq Nat.zero_lt_two (Dictionary.range_ofGroups hvar).symm
    · have hf := mem_orderedSet.mp hf
      obtain ⟨l, hlx, hlt, g, hg, hgf, hvalue⟩ := Dictionary.allows_of_mem_assignments
        (Dictionary.hasValues_ofGroups groups.groups) (Encoder.dictionary_of_assignments has) ha hf
      refine ⟨(hasFact_iff_of_encoded he).mpr hlt, fun below hl' => ?_, fun below hl' hfalse => ?_⟩
      · exact (hbelow l hlx below (eq_of_mem_facts h he hl' hg hgf).1).1
      · obtain ⟨hmem, hzero, -⟩ := eq_of_mem_facts h he hl' hg hgf
        refine (hbelow l hlx below hmem).2 (by_contra fun hneg => ?_)
        have hsame := hvalue.mpr (Bool.eq_false_of_not_eq_true hneg)
        rw [hfalse, hzero] at hsame
        cases hsame

/-- Encoded tasks are well formed, and derived variables are reset to the last value. -/
theorem isWellFormed_of_encoded : task.IsWellFormed ∧ task.ResetsToOne := by
  have hsize : task.vars.size = groups.groups.length := by
    obtain ⟨layers, -, hvars⟩ := he.vars
    rw [hvars, Dictionary.vars, Array.size_mapIdx, Dictionary.size_ranges]
  refine ⟨⟨fun v hv => wellFormed_variable h he hv, ?_, fun var value => hasFact_init he, ?_, ?_,
    fun o ho => fits_operator h he ho, fun r hr => (fits_rule h he hr).1⟩, fun var hvar => ?_,
    fun r hr => (fits_rule h he hr).2⟩
  · rw [hsize, (Dictionary.reflects_initialState he.init).1, Dictionary.size_ranges]
  · intro m hm f hf
    rw [he.mutexes] at hm
    split at hm
    · obtain ⟨atoms, -, rfl⟩ := List.mem_map.mp hm
      obtain ⟨a, -, ha⟩ := List.mem_filterMap.mp (mem_orderedSet.mp hf)
      exact (hasFact_iff_of_encoded he).mpr (Dictionary.lt_of_mem_facts (List.mem_of_head? ha)).2
    · cases hm
  · intro f hf
    exact (hasFact_iff_of_encoded he).mpr (Encoder.hasFact_of_mem_assignments
      (Dictionary.hasValues_ofGroups groups.groups) he.goal (List.mem_singleton_self _) hf)
  · obtain ⟨layer, hl⟩ := Option.isSome_iff_exists.mp hvar
    exact initialValue_of_derived h he hl

end Encoded

end PropositionalTask
end FinitePlanning
