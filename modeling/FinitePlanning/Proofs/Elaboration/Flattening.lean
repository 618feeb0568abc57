import FinitePlanning.Proofs.Elaboration.Effects
import FinitePlanning.Proofs.Elaboration.Premises

/-!
Flattening keeps the meaning of an effect. The single effects have an instance for each value of the
enclosing variables under which the enclosing conditions hold, and there is one cost for each
increase.
-/

namespace FinitePlanning

open Grounding (valuesOf)

namespace Elaboration

variable {d : Declarations} {within : Enclosure} {inner : Scope} {s s' : ElaborationState}
  {objects : String → List String} {I : Interpretation} {values : Renaming} {os : List String}
  {bound premise : Sexpr} {ps : List Parameter} {c : Condition} {l : Literal}
  {es fs : List Effect}

/-! ### Enclosures -/

/-- The truth value of a condition depends on the values of reserved names only. -/
def DependsOnReserved (s : ElaborationState) (c : Condition) : Prop :=
  ∀ ⦃objects : String → List String⦄ ⦃I : Interpretation⦄ ⦃values values' : Renaming⦄,
    FixesObjects values.apply → FixesObjects values'.apply →
      (∀ x ∈ s.reserved, values.apply x = values'.apply x) →
        (c.Holds objects I values ↔ c.Holds objects I values')

theorem DependsOnReserved.mono (h : DependsOnReserved s c) (hgrows : s.reserved ⊆ s'.reserved) :
    DependsOnReserved s' c :=
  fun _ _ _ _ hfix hfix' hagree => h hfix hfix' fun x hx => hagree x (hgrows hx)

theorem Weighs.dependsOnReserved {scope : Scope} (h : Weighs d scope premise c)
    (hreserved : scope.IsReserved s) : DependsOnReserved s c := by
  intro objects I values values' hfix hfix' hagree
  rw [h.holds_iff hfix (scope.agrees_environment values), h.holds_iff hfix' fun x y hxy => ?_]
  rw [scope.agrees_environment values x y hxy]
  exact hagree y (hreserved y (List.mem_map_of_mem (mem_of_lookup hxy)))

namespace Enclosure

/-- The names in what encloses an effect are reserved, and its conditions are simplified. -/
structure IsReserved (within : Enclosure) (s : ElaborationState) : Prop where
  scope : within.scope.IsReserved s
  areVariables : ∀ p ∈ within.parameters, isVariable p.name = true
  simplified : ∀ c ∈ within.conditions, c.IsSimplified
  depends : ∀ c ∈ within.conditions, DependsOnReserved s c

/-- The values of the enclosing variables under which the enclosing conditions are true. -/
def Admits (within : Enclosure) (objects : String → List String) (I : Interpretation)
    (values : Renaming) (os : List String) : Prop :=
  TypedBy objects within.parameters os ∧
    ∀ c ∈ within.conditions, c.Holds objects I (valuesOf within.parameters os ++ values)

/-- For all values of the enclosing variables the names in scope have their values. -/
def Agrees (within : Enclosure) (objects : String → List String) (env : List String → Environment)
    (values : Renaming) : Prop :=
  ∀ os, TypedBy objects within.parameters os →
    within.scope.Agrees (env os) (valuesOf within.parameters os ++ values)

/-- What encloses the body of a quantifier. -/
abbrev quantified (within : Enclosure) (ps : List Parameter) (inner : Scope) : Enclosure :=
  { within with parameters := within.parameters ++ ps, scope := inner }

/-- What encloses the body of a conditional effect. -/
abbrev when (within : Enclosure) (c : Condition) : Enclosure :=
  { within with conditions := within.conditions ++ [c] }

theorem IsReserved.mono (h : within.IsReserved s) (hgrows : s.reserved ⊆ s'.reserved) :
    within.IsReserved s' where
  scope x hx := hgrows (h.scope x hx)
  areVariables := h.areVariables
  simplified := h.simplified
  depends c hc := (h.depends c hc).mono hgrows

theorem IsReserved.quantified (h : within.IsReserved s)
    (hbound : Quantifies within.scope bound s ps inner s') :
    (within.quantified ps inner).IsReserved s' where
  scope := hbound.reserved h.scope
  areVariables := List.forall_mem_append.mpr
    ⟨h.areVariables, hbound.declares.areVariables.isVariable⟩
  simplified := h.simplified
  depends c hc := (h.depends c hc).mono hbound.declares.grows

theorem IsReserved.when (h : within.IsReserved s) (hgrows : s.reserved ⊆ s'.reserved)
    (hc : Weighs d within.scope premise c) : (within.when c).IsReserved s' where
  scope x hx := hgrows (h.scope x hx)
  areVariables := h.areVariables
  simplified := List.forall_mem_append.mpr
    ⟨h.simplified, List.forall_mem_singleton.mpr hc.simplified⟩
  depends := List.forall_mem_append.mpr ⟨fun c hc => (h.depends c hc).mono hgrows,
    List.forall_mem_singleton.mpr ((hc.dependsOnReserved h.scope).mono hgrows)⟩

theorem IsReserved.fixesObjects (h : within.IsReserved s) (hfix : FixesObjects values.apply)
    (os : List String) :
    FixesObjects (valuesOf within.parameters os ++ values : Renaming).apply :=
  Condition.fixesObjects_append h.areVariables hfix os

theorem values_quantified (hlength : within.parameters.length = os.length) (os' : List String) :
    valuesOf (within.quantified ps inner).parameters (os ++ os') ++ values =
      valuesOf ps os' ++ (valuesOf within.parameters os ++ values) := by
  rw [Condition.valuesOf_append hlength, List.append_assoc]

/-- New variables do not matter for the conditions outside of their quantifier. -/
theorem admits_quantified (h : within.IsReserved s)
    (hbound : Quantifies within.scope bound s ps inner s') (hfix : FixesObjects values.apply)
    {os' : List String} : (within.quantified ps inner).Admits objects I values os' ↔
      ∃ os os₂, within.Admits objects I values os ∧ TypedBy objects ps os₂ ∧ os' = os ++ os₂ := by
  have hconditions {os os₂ : List String} (hos : TypedBy objects within.parameters os)
      (hos₂ : TypedBy objects ps os₂) : (∀ c ∈ within.conditions, c.Holds objects I
        (valuesOf (within.quantified ps inner).parameters (os ++ os₂) ++ values)) ↔
        ∀ c ∈ within.conditions, c.Holds objects I (valuesOf within.parameters os ++ values) := by
    rw [values_quantified hos.length_eq]
    have hfix' := h.fixesObjects hfix os
    refine forall₂_congr fun c hc => h.depends c hc ?_ hfix' fun x hx => ?_
    · exact Condition.fixesObjects_append hbound.declares.areVariables.isVariable hfix' os₂
    · refine Renaming.apply_append_of_not_mem fun hmem => ?_
      exact hbound.declares.fresh x (Grounding.mem_keys_valuesOf hmem) hx
  constructor
  · rintro ⟨htyped, hholds⟩
    obtain ⟨os, os₂, hos, hos₂, rfl⟩ := Condition.typedBy_append.mp htyped
    exact ⟨os, os₂, ⟨hos, (hconditions hos hos₂).mp hholds⟩, hos₂, rfl⟩
  · rintro ⟨os, os₂, ⟨hos, hholds⟩, hos₂, rfl⟩
    exact ⟨Condition.typedBy_append.mpr ⟨os, os₂, hos, hos₂, rfl⟩,
      (hconditions hos hos₂).mpr hholds⟩

theorem admits_when : (within.when c).Admits objects I values os ↔
    within.Admits objects I values os ∧
      c.Holds objects I (valuesOf within.parameters os ++ values) := by
  rw [Admits, Admits, List.forall_mem_append, List.forall_mem_singleton, and_assoc]

theorem bringsAbout_single (h : within.IsReserved s) {l' : Literal} :
    (within.single l).BringsAbout objects I values l' ↔
      ∃ os, within.Admits objects I values os ∧
        l.rename (valuesOf within.parameters os ++ values) = l' := by
  have hsame : within.conditions.map Condition.simplified = within.conditions :=
    map_eq_self fun c hc => (h.simplified c hc).simplified_eq
  refine exists_congr fun os => ?_
  rw [Admits, and_assoc, single, Condition.simplified_and, hsame]
  simp only [Condition.holds_iff_holdsWith, Condition.holdsWith_simplifyNode_and]

end Enclosure

/-! ### Readings of effects -/

/-- What an effect brings about, given what the types and predicates mean and the values of the
variables. -/
abbrev Meaning := (String → List String) → Interpretation → Literal → Environment → Prop

/-- The meaning of a nested effect. -/
abbrev meaningOf (d : Declarations) (e : Sexpr) : Meaning :=
  fun objects I l env => e.Does d objects I l env

/-- Single effects have a meaning, for the values of the enclosing variables under which the
enclosing conditions are true. -/
def Mean (within : Enclosure) (fs : List Effect) (does : Meaning) : Prop :=
  ∀ ⦃objects : String → List String⦄ ⦃I : Interpretation⦄ ⦃values : Renaming⦄
    ⦃env : List String → Environment⦄, FixesObjects values.apply →
      within.Agrees objects env values → ∀ l, SomeBringsAbout objects I values fs l ↔
        ∃ os, within.Admits objects I values os ∧ does objects I l (env os)

variable {does does' : Meaning}

theorem mean_nil (h : ∀ objects I l env, ¬ does objects I l env) : Mean within [] does := by
  intro objects I values env _ _ l
  refine iff_of_false ?_ (by simp [h])
  rintro ⟨f, hf, -⟩
  cases hf

theorem Mean.append (h : Mean within es does) (h' : Mean within fs does') :
    Mean within (es ++ fs) fun objects I l env =>
      does objects I l env ∨ does' objects I l env := by
  intro objects I values env hfix hagrees l
  have hsplit : SomeBringsAbout objects I values (es ++ fs) l ↔
      SomeBringsAbout objects I values es l ∨ SomeBringsAbout objects I values fs l := by
    simp only [SomeBringsAbout, List.mem_append, or_and_right, exists_or]
  rw [hsplit, h hfix hagrees, h' hfix hagrees, ← exists_or]
  exact exists_congr fun os => and_or_left.symm

theorem Mean.congr (h : Mean within fs does)
    (hsame : ∀ objects I l env, does objects I l env ↔ does' objects I l env) :
    Mean within fs does' := by
  have heq : does = does' := by
    funext objects I l env
    exact propext (hsame objects I l env)
  exact heq ▸ h

/-- A quantifier brings about what its body does for some values of its variables. -/
theorem Mean.forall (hreserved : within.IsReserved s)
    (hbound : Quantifies within.scope bound s ps inner s')
    (h : Mean (within.quantified ps inner) fs does) :
    Mean within fs fun objects I l env => ∃ os, Sexpr.RangeOver objects bound.boundNames os ∧
      does objects I l (env.update (bound.boundNames.map (·.1)) os) := by
  intro objects I values env hfix hagrees l
  -- the values of the outer variables come first
  let env' (os : List String) : Environment :=
    (env (os.take within.parameters.length)).update (bound.boundNames.map (·.1))
      (os.drop within.parameters.length)
  have henv {os os₂ : List String} (hos : TypedBy objects within.parameters os) :
      env' (os ++ os₂) = (env os).update (bound.boundNames.map (·.1)) os₂ := by
    simp only [env', hos.length_eq, List.take_left, List.drop_left]
  have hagrees' : (within.quantified ps inner).Agrees objects env' values := by
    intro os' hos'
    obtain ⟨os, os₂, hos, hos₂, rfl⟩ := Condition.typedBy_append.mp hos'
    rw [henv hos, Enclosure.values_quantified hos.length_eq]
    exact hbound.agrees hreserved.scope (hagrees os hos) hos₂.length_eq
  rw [h hfix hagrees' l]
  simp only [Enclosure.admits_quantified hreserved hbound hfix, hbound.range]
  constructor
  · rintro ⟨_, ⟨os, os₂, hos, hos₂, rfl⟩, hdoes⟩
    exact ⟨os, hos, os₂, hos₂, henv hos.1 ▸ hdoes⟩
  · rintro ⟨os, hos, os₂, hos₂, hdoes⟩
    exact ⟨_, ⟨os, os₂, hos, hos₂, rfl⟩, (henv hos.1).symm ▸ hdoes⟩

/-- A conditional effect brings about what its body does if its premise is granted. -/
theorem Mean.when (hreserved : within.IsReserved s) (hc : Weighs d within.scope premise c)
    (h : Mean (within.when c) fs does) : Mean within fs fun objects I l env =>
      premise.IsGranted d objects I env ∧ does objects I l env := by
  intro objects I values env hfix hagrees l
  rw [h hfix hagrees l]
  refine exists_congr fun os => ?_
  rw [Enclosure.admits_when, and_assoc]
  refine and_congr_right fun hos => and_congr_left fun _ => ?_
  exact hc.holds_iff (hreserved.fixesObjects hfix os) (hagrees os hos.1)

theorem mean_single {a : Atom} {head : Symbol} {args : List Sexpr} (negated : Bool)
    (hreserved : within.IsReserved s) (hpredicate : a.predicate = d.denotes head.name)
    (hargs : List.Forall₂ (fun e x => term d within.scope e = .ok x) args a.args) :
    Mean within [within.single ⟨a, negated⟩] fun _ _ l env =>
      l = ⟨⟨d.denotes head.name, args.map (Sexpr.value env)⟩, negated⟩ := by
  intro objects I values env hfix hagrees l
  simp only [SomeBringsAbout, List.mem_singleton, exists_eq_left]
  rw [Enclosure.bringsAbout_single hreserved]
  refine exists_congr fun os => and_congr_right fun hos => ?_
  rw [Literal.rename,
    rename_of_terms (hreserved.fixesObjects hfix os) (hagrees os hos.1) hpredicate hargs]
  exact eq_comm

/-- A reading of an effect within reserved names keeps its meaning. -/
structure KeepsMeaning (within : Enclosure) (does : Meaning) (s : ElaborationState)
    (fs : List Effect) (s' : ElaborationState) : Prop where
  grows : s.reserved ⊆ s'.reserved
  mean : within.IsReserved s → Mean within fs does

theorem keepsMeaning_of_flattensEach {args : List Sexpr} {ks : List Cost}
    (h : FlattensEach (fun e s fs _ s' => KeepsMeaning within (meaningOf d e) s fs s') args s fs ks
      s') :
    KeepsMeaning within (fun objects I l env => ∃ e ∈ args, e.Does d objects I l env) s fs s' := by
  induction h with
  | nil s => exact ⟨List.Subset.refl _, fun _ => mean_nil (by simp)⟩
  | cons hfirst _ ih =>
      refine ⟨List.Subset.trans hfirst.grows ih.grows, fun hreserved => ?_⟩
      refine ((hfirst.mean hreserved).append (ih.mean (hreserved.mono hfirst.grows))).congr ?_
      intro objects I l env
      rw [List.exists_mem_cons_iff]

theorem flattensFromParts_keepsMeaning :
    FlattensFromParts d fun within e s fs _ s' => KeepsMeaning within (meaningOf d e) s fs s' where
  nothing within span s := ⟨List.Subset.refl _, fun _ => mean_nil (by simp)⟩
  and hhead h := by
    have hargs := keepsMeaning_of_flattensEach h
    exact ⟨hargs.grows, fun hreserved =>
      (hargs.mean hreserved).congr fun _ _ _ _ => (Sexpr.does_and hhead).symm⟩
  «forall» hhead hbound h := by
    have hquantifies := quantifies_of_reads hbound
    refine ⟨List.Subset.trans hquantifies.declares.grows h.grows, fun hreserved => ?_⟩
    have hbody := h.mean (hreserved.quantified hquantifies)
    exact (hbody.forall hreserved hquantifies).congr fun _ _ _ _ => (Sexpr.does_forall hhead).symm
  when hhead hpremise h := by
    obtain ⟨hgrows, hweighs⟩ := weighs_of_condition hpremise
    refine ⟨List.Subset.trans hgrows h.grows, fun hreserved => ?_⟩
    have hc := hweighs hreserved.scope
    have hbody := h.mean (hreserved.when hgrows hc)
    exact (hbody.when hreserved hc).congr fun _ _ _ _ => (Sexpr.does_when hhead).symm
  increase hhead hparameters hconditions h :=
    ⟨List.Subset.refl _, fun _ => mean_nil fun _ _ _ _ => Sexpr.not_does_increase hhead⟩
  not hhead h := by
    obtain ⟨predicate, args, harg, -, hpredicate, hargs, hgrows⟩ := reads_atom (reads_effectAtom h).1
    obtain ⟨place, rfl⟩ := of_headed harg
    exact ⟨hgrows, fun hreserved => (mean_single true hreserved hpredicate hargs).congr
      fun _ _ _ _ => (Sexpr.does_delete hhead).symm⟩
  atom hhead h := by
    obtain ⟨predicate, args, harg, -, hpredicate, hargs, hgrows⟩ := reads_atom (reads_effectAtom h).1
    cases harg
    exact ⟨hgrows, fun hreserved => (mean_single false hreserved hpredicate hargs).congr
      fun _ _ _ _ => (Sexpr.does_add hhead).symm⟩

/-! ### Costs -/

open Sexpr (Encloser)

/-- Neither variables nor conditions enclose an effect. -/
def Enclosure.IsOpen (within : Enclosure) : Prop :=
  within.parameters = [] ∧ within.conditions = []

/-- There is one cost for each increase, and all increases are at the top level. -/
def Counts (within : Enclosure) (ks : List Cost)
    (increases : List Encloser → List (List Encloser)) : Prop :=
  ∀ outer, (within.IsOpen ↔ ∀ x ∈ outer, x.IsVoid) →
    (increases outer).length = ks.length ∧ ∀ enclosers ∈ increases outer, ∀ x ∈ enclosers, x.IsVoid

variable {ks ks' : List Cost} {increases increases' : List Encloser → List (List Encloser)}

theorem counts_nil (h : ∀ outer, increases outer = []) : Counts within [] increases := by
  intro outer _
  rw [h]
  exact ⟨rfl, List.forall_mem_nil _⟩

theorem Counts.append (h : Counts within ks increases) (h' : Counts within ks' increases') :
    Counts within (ks ++ ks') fun outer => increases outer ++ increases' outer := by
  intro outer hopen
  obtain ⟨hlength, hvoid⟩ := h outer hopen
  obtain ⟨hlength', hvoid'⟩ := h' outer hopen
  exact ⟨by rw [List.length_append, List.length_append, hlength, hlength'],
    List.forall_mem_append.mpr ⟨hvoid, hvoid'⟩⟩

theorem Quantifies.eq_nil_iff {scope : Scope} (h : Quantifies scope bound s ps inner s') :
    ps = [] ↔ bound.boundNames = [] := by
  have hrange := h.range (fun _ => []) []
  rw [Sexpr.RangeOver, TypedBy, List.forall₂_nil_right_iff, List.forall₂_nil_right_iff] at hrange
  exact hrange.symm

theorem counts_of_flattensEach {args : List Sexpr}
    (h : FlattensEach (fun e _ _ ks _ => Counts within ks fun outer => e.increases outer) args s fs
      ks s') : Counts within ks fun outer => args.flatMap (Sexpr.increases outer) := by
  induction h with
  | nil s => exact counts_nil fun _ => rfl
  | cons hfirst _ ih => exact hfirst.append ih

theorem flattensFromParts_counts :
    FlattensFromParts d fun within e _ _ ks _ => Counts within ks fun outer => e.increases outer where
  nothing within span s := counts_nil fun _ => Sexpr.increases_nil
  and hhead h := by
    simp only [Sexpr.increases_and hhead]
    exact counts_of_flattensEach h
  «forall» hhead hbound h outer hopen := by
    dsimp only
    rw [Sexpr.increases_forall hhead]
    refine h _ ?_
    rw [List.forall_mem_append, List.forall_mem_singleton, ← hopen, Encloser.IsVoid,
      ← (quantifies_of_reads hbound).eq_nil_iff, Enclosure.IsOpen, Enclosure.IsOpen,
      List.append_eq_nil_iff, and_right_comm]
  when hhead hpremise h outer hopen := by
    dsimp only
    rw [Sexpr.increases_when hhead]
    refine h _ (iff_of_false ?_ ?_)
    · simp [Enclosure.IsOpen]
    · simp [Encloser.IsVoid]
  increase hhead hparameters hconditions h outer hopen := by
    dsimp only
    rw [Sexpr.increases_increase hhead]
    exact ⟨rfl, List.forall_mem_singleton.mpr (hopen.mp ⟨hparameters, hconditions⟩)⟩
  not hhead h := counts_nil fun _ => Sexpr.increases_delete hhead
  atom hhead h := counts_nil fun _ => Sexpr.increases_add hhead

theorem Counts.isSome_iff {scope : Scope} {k : Option Cost}
    (h : Counts { scope } k.toList increases) :
    k.isSome ↔ ∃ outer, increases [] = [outer] ∧ ∀ x ∈ outer, x.IsVoid := by
  obtain ⟨hlength, hvoid⟩ := h [] (iff_of_true ⟨rfl, rfl⟩ (List.forall_mem_nil _))
  constructor
  · intro hsome
    obtain ⟨k, rfl⟩ := Option.isSome_iff_exists.mp hsome
    obtain ⟨outer, houter⟩ := List.length_eq_one_iff.mp hlength
    exact ⟨outer, houter, hvoid outer (houter ▸ List.mem_singleton_self outer)⟩
  · rintro ⟨outer, houter, -⟩
    rw [houter] at hlength
    cases k with
    | none => cases hlength
    | some k => rfl

/-! ### Whole effects -/

theorem Mean.someBringsAbout_iff {scope : Scope} (h : Mean { scope } fs does)
    (hfix : FixesObjects values.apply) :
    SomeBringsAbout objects I values fs l ↔ does objects I l (scope.environment values) := by
  have hagrees : Enclosure.Agrees { scope } objects (fun _ => scope.environment values) values := by
    intro os hos
    obtain rfl := Condition.typedBy_nil.mp hos
    exact scope.agrees_environment values
  have hadmits {os : List String} :
      Enclosure.Admits { scope } objects I values os ↔ os = [] :=
    (and_iff_left (List.forall_mem_nil _)).trans Condition.typedBy_nil
  rw [h hfix hagrees]
  simp only [hadmits, exists_eq_left]

/-- Flattening keeps the meaning of every effect that can be read. In every state, for all objects
of the types and all values of the variables in scope, the single effects add the same atoms as the
nested effect, and delete the same ones that are not added; a premise is granted if and only if the
condition that it is read as is true. A cost is returned if and only if there is one increase, which
no condition and no quantified variable encloses. Of contradictory and duplicate effects the same
ones stay in whatever order they come. -/
theorem flattening_keeps_meaning {scope : Scope} {e : Sexpr} {o : Outcome}
    (hreserved : scope.IsReserved s) (h : Reads (effect d { scope } {} e) s o s') :
    (∀ (objects : String → List String) (I : Interpretation) (values : Renaming),
      FixesObjects values.apply →
        added (SomeBringsAbout objects I values o.effects) =
            added (e.Does d objects I · (scope.environment values)) ∧
          deleted (SomeBringsAbout objects I values o.effects) =
            deleted (e.Does d objects I · (scope.environment values))) ∧
      (∀ (inner : Scope) (premise : Sexpr) (q q' : ElaborationState) (c : Condition),
        inner.IsReserved q → Reads (condition d inner premise) q c q' →
          ∀ (objects : String → List String) (I : Interpretation) (values : Renaming),
            FixesObjects values.apply → (c.Holds objects I values ↔
              premise.IsGranted d objects I (inner.environment values))) ∧
      (o.cost.isSome ↔ ∃ outer, e.increases [] = [outer] ∧ ∀ x ∈ outer, x.IsVoid) ∧
      ∀ es fs : List Effect, es.Perm fs → (es.foldl addEffect []).Perm (fs.foldl addEffect []) := by
  refine ⟨fun objects I values hfix => ?_, fun inner premise q q' c hinner hc objects I values hfix =>
    ?_, ?_, fun es fs => (isReduced es).perm (isReduced fs)⟩
  · obtain ⟨fs, ks, hcollects, hkeeps⟩ := flattensFromParts_keepsMeaning.of_reads h
    have hreduced : IsReduced o.effects fs := hcollects.effects ▸ isReduced fs
    have hmean : Mean { scope } fs (meaningOf d e) := hkeeps.mean
      ⟨hreserved, List.forall_mem_nil _, List.forall_mem_nil _, List.forall_mem_nil _⟩
    have hsame : SomeBringsAbout objects I values fs =
        (e.Does d objects I · (scope.environment values)) :=
      funext fun l => propext (hmean.someBringsAbout_iff hfix)
    rw [hreduced.added, hreduced.deleted, hsame]
    exact ⟨rfl, rfl⟩
  · exact ((weighs_of_condition hc).2 hinner).holds_iff hfix (inner.agrees_environment values)
  · obtain ⟨fs, ks, hcollects, hcounts⟩ := flattensFromParts_counts.of_reads h
    obtain rfl : o.cost.toList = ks := hcollects.cost
    exact hcounts.isSome_iff

/-! ### An example -/

/-- Places and roads between them, with a toll at each place. -/
def tollRoads : Declarations :=
  { roads with functions := [("toll", 1)] }

/-- A place is visited, also if it is left, and all places with a road to home are left. -/
def moveOn : Sexpr :=
  listed [named "and", listed [named "visited", named "?x"],
    listed [named "forall", listed [named "?x"],
      listed [named "when", listed [named "road", named "?x", named "home"],
        listed [named "not", listed [named "visited", named "?x"]]]],
    listed [named "not", listed [named "visited", named "?x"]],
    listed [named "increase", listed [named "total-cost"], listed [named "toll", named "?x"]]]

/-- The variable of the quantifier is renamed, and the addition cancels the deletion. -/
theorem moveOn_keeps_meaning :
    let start : ElaborationState := { names := ⟨["?x"]⟩ }
    let scope : Scope := [("?x", "?x")]
    let o : Outcome := {
      effects := [⟨[], .true, ⟨⟨.named "visited", ["?x"]⟩, false⟩⟩,
        ⟨[⟨"?x1", "object"⟩], .literal ⟨⟨.named "road", ["?x1", "home"]⟩, false⟩,
          ⟨⟨.named "visited", ["?x1"]⟩, true⟩⟩]
      cost := some (.function (.named "toll" ["?x"])) }
    scope.IsReserved start ∧
      Reads (effect tollRoads { scope } {} moveOn) start o { names := ⟨["?x1", "?x"]⟩ } ∧
      (∀ (objects : String → List String) (I : Interpretation) (values : Renaming),
        FixesObjects values.apply →
          added (SomeBringsAbout objects I values o.effects) =
              added (moveOn.Does tollRoads objects I · (scope.environment values)) ∧
            deleted (SomeBringsAbout objects I values o.effects) =
              deleted (moveOn.Does tollRoads objects I · (scope.environment values))) ∧
      (∀ (inner : Scope) (premise : Sexpr) (q q' : ElaborationState) (c : Condition),
        inner.IsReserved q → Reads (condition tollRoads inner premise) q c q' →
          ∀ (objects : String → List String) (I : Interpretation) (values : Renaming),
            FixesObjects values.apply → (c.Holds objects I values ↔
              premise.IsGranted tollRoads objects I (inner.environment values))) ∧
      (o.cost.isSome ↔ ∃ outer, moveOn.increases [] = [outer] ∧ ∀ x ∈ outer, x.IsVoid) ∧
      ∀ es fs : List Effect, es.Perm fs → (es.foldl addEffect []).Perm (fs.foldl addEffect []) := by
  intro start scope o
  have hreserved : scope.IsReserved start := by
    intro x hx
    exact hx
  have hread : Reads (effect tollRoads { scope } {} moveOn) start o { names := ⟨["?x1", "?x"]⟩ } := by
    rw [Reads]
    cbv
  exact ⟨hreserved, hread, flattening_keeps_meaning hreserved hread⟩

/-- An increase within a quantifier that declares no variables. -/
def unboundIncrease : Sexpr :=
  listed [named "forall", listed [],
    listed [named "increase", listed [named "total-cost"], named "3"]]

/-- Its cost is returned, though the only increase is not at the top level. -/
theorem unboundIncrease_has_cost :
    let o : Outcome := { cost := some (.constant 3) }
    Reads (effect roads { scope := [] } {} unboundIncrease) {} o {} ∧
      unboundIncrease.increases [] = [[.variables []]] ∧
      ¬ (o.cost.isSome ↔ unboundIncrease.increases [] = [[]]) := by
  intro o
  have hread : Reads (effect roads { scope := [] } {} unboundIncrease) {} o {} := by
    rw [effect_eq]
    rfl
  have hincreases : unboundIncrease.increases [] = [[.variables []]] := by cbv
  refine ⟨hread, hincreases, fun h => ?_⟩
  cases hincreases.symm.trans (h.mp rfl)

end Elaboration
end FinitePlanning
