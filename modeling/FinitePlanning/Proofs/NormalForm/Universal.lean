import FinitePlanning.Proofs.NormalForm.Scope
import FinitePlanning.Proofs.Names
import FinitePlanning.Task.NormalForm

/-!
The removal of universal quantifiers. Each predicate that is introduced has a new name
and one axiom, whose condition has no universal quantifiers. Conditions stay within the
scope of their variables.
-/

namespace FinitePlanning

namespace AxiomNames

variable {names : AxiomNames} {base : String}

theorem fresh_not_mem_taken : (names.fresh base).1 ∉ names.taken :=
  firstFree_not_mem (numbered_injective (base ++ "@")) names.next

end AxiomNames

namespace Universal

/-- The task with the predicates that stand for conditions. -/
def State.task (s : State) (t : Task) : Task :=
  { t with predicates := t.predicates ++ s.known.map fun e => ⟨e.2, e.1.2, true⟩ }

variable {t : Task} {s s' s'' : State}

/-- What a removal adds to a state: predicates with new names, and an axiom for each of them. -/
structure Adds (t : Task) (s s' : State) (entries : List ((Condition × List Parameter) × String))
    (axioms : List Axiom) : Prop where
  known : s'.known = entries ++ s.known
  defined : s'.axioms = s.axioms ++ axioms
  heads : (entries.map fun e => (e.2, e.1.2)).Perm (axioms.map fun x => (x.name, x.parameters))
  nodup : (entries.map (·.2)).Nodup
  fresh : ∀ e ∈ entries, e.2 ∉ s.names.taken
  taken : s'.names.taken = entries.map (·.2) ++ s.names.taken
  axioms : ∀ x ∈ axioms, x.IsWellScoped (s'.task t) .withoutUniversals

def Grows (t : Task) (s s' : State) : Prop :=
  ∃ entries axioms, Adds t s s' entries axioms

section

variable {entries entries' : List ((Condition × List Parameter) × String)}
  {axioms axioms' : List Axiom}

theorem isExtendedBy_of_known (h : s'.known = entries ++ s.known) :
    (s.task t).IsExtendedBy (s'.task t) where
  objects := rfl
  predicates := by
    simp only [State.task, h, List.map_append]
    exact List.append_subset.mpr ⟨List.subset_append_left _ _, fun p hp =>
      List.mem_append_right _ (List.mem_append_right _ hp)⟩

theorem isExtendedBy_task (t : Task) (s : State) : t.IsExtendedBy (s.task t) :=
  ⟨rfl, List.subset_append_left _ _⟩

theorem Grows.isExtendedBy (h : Grows t s s') : (s.task t).IsExtendedBy (s'.task t) := by
  obtain ⟨entries, axioms, h⟩ := h
  exact isExtendedBy_of_known h.known

theorem Grows.refl (t : Task) (s : State) : Grows t s s :=
  ⟨[], [], rfl, (List.append_nil _).symm, .refl _, List.nodup_nil, List.forall_mem_nil _, rfl,
    List.forall_mem_nil _⟩

theorem Adds.trans (h : Adds t s s' entries axioms) (h' : Adds t s' s'' entries' axioms') :
    Adds t s s'' (entries' ++ entries) (axioms ++ axioms') where
  known := by rw [h'.known, h.known, List.append_assoc]
  defined := by rw [h'.defined, h.defined, List.append_assoc]
  heads := by
    rw [List.map_append, List.map_append]
    exact (h'.heads.append h.heads).trans List.perm_append_comm
  nodup := by
    rw [List.map_append, List.nodup_append]
    refine ⟨h'.nodup, h.nodup, fun name hname name' hname' he => ?_⟩
    obtain ⟨e, hentry, rfl⟩ := List.mem_map.mp hname
    refine h'.fresh e hentry ?_
    rw [h.taken, he]
    exact List.mem_append_left _ hname'
  fresh := by
    intro e he
    rcases List.mem_append.mp he with he | he
    · intro htaken
      refine h'.fresh e he ?_
      rw [h.taken]
      exact List.mem_append_right _ htaken
    · exact h.fresh e he
  taken := by rw [h'.taken, h.taken, List.map_append, List.append_assoc]
  axioms := by
    intro x hx
    rcases List.mem_append.mp hx with hx | hx
    · exact (h.axioms x hx).of_task (isExtendedBy_of_known h'.known)
    · exact h'.axioms x hx

theorem Grows.trans (h : Grows t s s') (h' : Grows t s' s'') : Grows t s s'' := by
  obtain ⟨entries, axioms, h⟩ := h
  obtain ⟨entries', axioms', h'⟩ := h'
  exact ⟨_, _, h.trans h'⟩

end

/-- A new predicate is known first, and defined after those that its definition needs. -/
theorem Grows.define {key : Condition × List Parameter} {name : String} {names : AxiomNames}
    {x : Axiom} (h : Grows t { s with names, known := (key, name) :: s.known } s')
    (hfresh : name ∉ s.names.taken) (htaken : names.taken = name :: s.names.taken)
    (hhead : (x.name, x.parameters) = (name, key.2))
    (hx : x.IsWellScoped (s'.task t) .withoutUniversals) :
    Grows t s { s' with axioms := s'.axioms ++ [x] } := by
  obtain ⟨entries, axioms, h⟩ := h
  refine ⟨entries ++ [(key, name)], axioms ++ [x], ?_, ?_, ?_, ?_, ?_, ?_, ?_⟩
  · rw [List.append_assoc]
    exact h.known
  · rw [← List.append_assoc]
    exact congrArg (· ++ [x]) h.defined
  · rw [List.map_append, List.map_append, List.map_singleton, List.map_singleton, hhead]
    exact h.heads.append (.refl _)
  · rw [List.map_append, List.nodup_append]
    refine ⟨h.nodup, List.nodup_singleton name, fun a ha b hb he => ?_⟩
    obtain ⟨e, hentry, rfl⟩ := List.mem_map.mp ha
    refine h.fresh e hentry ?_
    rw [he, List.mem_singleton.mp hb, htaken]
    exact List.mem_cons_self
  · intro e he
    rcases List.mem_append.mp he with he | he
    · intro hmem
      refine h.fresh e he ?_
      rw [htaken]
      exact List.mem_cons_of_mem name hmem
    · rw [List.mem_singleton.mp he]
      exact hfresh
  · rw [h.taken, htaken, List.map_append, List.append_assoc]
    rfl
  · intro y hy
    rcases List.mem_append.mp hy with hy | hy
    · exact h.axioms y hy
    · rw [List.mem_singleton.mp hy]
      exact hx

/-- A removal adds predicates, and its result has a property in all tasks with at least those. -/
def Keeps {α : Type} (t : Task) (m : Removal α) (P : Task → α → Prop) : Prop :=
  ∀ s, Grows t s (m.run s).2 ∧ ∀ t', ((m.run s).2.task t).IsExtendedBy t' → P t' (m.run s).1

namespace Keeps

variable {α β : Type} {m : Removal α} {P : Task → α → Prop} {Q : Task → β → Prop}

theorem mono {P' : Task → α → Prop} (h : Keeps t m P) (hP : ∀ t' a, P t' a → P' t' a) :
    Keeps t m P' :=
  fun s => ⟨(h s).1, fun t' ht => hP t' _ ((h s).2 t' ht)⟩

theorem pure {a : α} (h : ∀ t', t.IsExtendedBy t' → P t' a) : Keeps t (Pure.pure a) P :=
  fun s => ⟨.refl t s, fun t' ht => h t' ((isExtendedBy_task t s).trans ht)⟩

theorem bind {f : α → Removal β} (h : Keeps t m P)
    (hf : ∀ a, Keeps t (f a) fun t' b => P t' a → Q t' b) : Keeps t (m >>= f) Q := by
  intro s
  obtain ⟨hgrows, hP⟩ := h s
  obtain ⟨hgrows', hQ⟩ := hf (m.run s).1 (m.run s).2
  exact ⟨hgrows.trans hgrows', fun t' ht => hQ t' ht (hP t' (hgrows'.isExtendedBy.trans ht))⟩

theorem map {f : α → β} (h : Keeps t m fun t' a => Q t' (f a)) : Keeps t (f <$> m) Q := by
  rw [← bind_pure_comp]
  exact h.bind fun a => .pure fun _ _ => id

theorem mapM {γ : Type} {f : γ → Removal β} {R : Task → γ → β → Prop} {l : List γ}
    (h : ∀ c ∈ l, Keeps t (f c) fun t' b => R t' c b) :
    Keeps t (l.mapM f) fun t' bs => List.Forall₂ (R t') l bs := by
  induction l with
  | nil => exact .pure fun _ _ => .nil
  | cons c l ih =>
      rw [List.forall_mem_cons] at h
      rw [List.mapM_cons]
      refine h.1.bind fun b => (ih h.2).bind fun bs => .pure fun t' _ hbs hb => ?_
      exact .cons hb hbs

end Keeps

/-- Removes the universal quantifiers of a condition that defines a predicate. -/
def definition (c : Condition) (defining : Removal Condition) : Removal Condition :=
  if c.hasUniversalPart then Condition.simplified <$> defining else pure c

theorem run_negatedAxiom (types : List Parameter) (c : Condition) (defining : Removal Condition)
    (s : State) : (negatedAxiom types c defining).run s =
      match s.known.lookup (c, parametersOf types c) with
      | some name =>
        (.literal (Atom.named name ((parametersOf types c).map (·.name))).negative, s)
      | none =>
        let name := (s.names.fresh AxiomNames.base).1
        let r := (definition c defining).run { s with
          names := (s.names.fresh AxiomNames.base).2
          known := ((c, parametersOf types c), name) :: s.known }
        (.literal (Atom.named name ((parametersOf types c).map (·.name))).negative,
          { r.2 with axioms := r.2.axioms ++ [⟨name, parametersOf types c,
            (parametersOf types c).length, r.1⟩] }) := by
  unfold negatedAxiom definition
  dsimp only [StateT.run, bind, StateT.bind, get, getThe, MonadStateOf.get, StateT.get, pure]
  cases s.known.lookup (c, parametersOf types c) with
  | some name => rfl
  | none => cases c.hasUniversalPart <;> rfl

section

open Condition

variable {c : Condition} {types : List Parameter} {defining : Removal Condition}

theorem map_name_parametersOf : (parametersOf types c).map (·.name) = c.freeVariables := by
  simp [parametersOf, Function.comp_def]

/-- A condition without universal quantifiers is kept. -/
theorem isPart_of_not_hasUniversalPart {vars : List String} (h : c.IsScoped t .full vars)
    (hu : ¬ c.hasUniversalPart) : IsPart t .withoutUniversals vars c c :=
  ⟨h.within (inFragment_withoutUniversals (Bool.not_eq_true _ ▸ hu)), .refl _⟩

theorem keeps_definition {vars : List String} (h : c.IsScoped t .full vars) (hs : c.IsSimplified)
    (hd : Keeps t defining fun t' d => IsPart t' .withoutUniversals vars c d) :
    Keeps t (definition c defining) fun t' d =>
      IsPart t' .withoutUniversals vars c d ∧ d.IsSimplified := by
  rw [definition]
  split
  next => exact (hd.mono fun t' d hd => ⟨hd.simplified, isSimplified_simplified d⟩).map
  next hu =>
    refine .pure fun t' ht => ⟨isPart_of_not_hasUniversalPart ?_ hu, hs⟩
    exact h.of_task fun _ _ ha => ha.of_task ht

theorem areVariables_parametersOf (hq : AreVariables c.quantifiedParameters) :
    AreVariables (parametersOf types c ++ c.quantifiedParameters) where
  nodup := by
    rw [List.map_append, map_name_parametersOf, List.nodup_append]
    refine ⟨nodup_freeVariables, hq.nodup, fun x hx y hy he => ?_⟩
    exact (mem_freeVariables.mp hx).2 (he ▸ hy)
  isVariable p hp := by
    rcases List.mem_append.mp hp with hp | hp
    · exact isVariable_of_mem_freeVariables (map_name_parametersOf ▸ List.mem_map_of_mem hp)
    · exact hq.isVariable p hp

/-- The predicate of a condition is declared with as many parameters as the literal has. -/
theorem isPart_literal {t' : Task} {name : String}
    (h : (⟨name, parametersOf types c, true⟩ : PredicateSchema) ∈ t'.predicates) :
    IsPart t' .withoutUniversals c.freeVariables c
      (.literal (Atom.named name ((parametersOf types c).map (·.name))).negative) := by
  refine ⟨.literal ⟨⟨_, h, rfl, ?_⟩, fun x hx => ?_⟩,
    quantifiedParameters_literal _ ▸ List.nil_subperm⟩
  · exact (List.length_map _).symm
  · change x ∈ (parametersOf types c).map (·.name) at hx
    rw [map_name_parametersOf] at hx
    refine ⟨fun _ => hx, fun hv => ?_⟩
    rw [isVariable_of_mem_freeVariables hx] at hv
    cases hv

theorem keeps_negatedAxiom (h : c.IsScoped t .full c.freeVariables) (hs : c.IsSimplified)
    (hq : AreVariables c.quantifiedParameters)
    (hd : Keeps t defining fun t' d => IsPart t' .withoutUniversals c.freeVariables c d) :
    Keeps t (negatedAxiom types c defining) fun t' d =>
      IsPart t' .withoutUniversals c.freeVariables c d := by
  intro s
  rw [run_negatedAxiom]
  cases hlookup : s.known.lookup (c, parametersOf types c) with
  | some name =>
      refine ⟨.refl t s, fun t' ht => isPart_literal (ht.predicates ?_)⟩
      exact List.mem_append_right _ (List.mem_map_of_mem (mem_of_lookup hlookup))
  | none =>
      obtain ⟨hgrows, hdefinition⟩ := keeps_definition h hs hd { s with
        names := (s.names.fresh AxiomNames.base).2
        known := ((c, parametersOf types c), (s.names.fresh AxiomNames.base).1) :: s.known }
      obtain ⟨hpart, hsimplified⟩ := hdefinition _ (.refl _)
      have hknown := hgrows.isExtendedBy.predicates (List.mem_append_right _ List.mem_cons_self)
      refine ⟨hgrows.define AxiomNames.fresh_not_mem_taken rfl rfl ?_, fun t' ht =>
        isPart_literal (ht.predicates hknown)⟩
      refine ⟨?_, ⟨?_, hsimplified⟩, Nat.le_refl _, ⟨_, hknown, rfl, rfl⟩⟩
      · have hvariables : AreVariables (parametersOf types c ++ c.quantifiedParameters) :=
          areVariables_parametersOf hq
        refine hvariables.of_subperm ?_
        exact (List.Subperm.refl _).append hpart.quantified
      · rw [map_name_parametersOf]
        exact hpart.inScope

/-- A condition whose quantified variables differ from each other and from those in scope. -/
structure IsBound (t : Task) (vars : List String) (c : Condition) : Prop
    extends c.IsWellScoped t .full vars where
  distinct : AreVariables c.quantifiedParameters
  separate : ∀ x ∈ vars, x ∉ c.quantifiedParameters.map (·.name)

variable {vars : List String} {ps : List Parameter} {body : Condition} {parts : List Condition}

theorem IsBound.of_scope {vars' : List String} (h : IsBound t vars c)
    (hscope : c.IsScoped t .full vars') (hsub : vars' ⊆ vars) : IsBound t vars' c :=
  ⟨⟨hscope, h.simplified⟩, h.distinct, fun x hx => h.separate x (hsub hx)⟩

/-- The free variables are enough. -/
theorem IsBound.free (h : IsBound t vars c) : IsBound t c.freeVariables c :=
  h.of_scope (h.inScope.freeVariables h.separate) h.inScope.freeVariables_subset

theorem IsBound.part {d : Condition} (h : IsBound t vars c) (hd : d.IsScoped t .full vars)
    (hmem : d ∈ c.parts) (hq : c.quantifiedParameters = c.parts.flatMap quantifiedParameters) :
    IsBound t vars d := by
  have hsub : d.quantifiedParameters.Subperm c.quantifiedParameters :=
    hq ▸ subperm_of_mem_flatMap hmem
  exact ⟨⟨hd, h.simplified.of_mem_parts hmem⟩, h.distinct.of_subperm hsub, fun x hx hxd =>
    h.separate x hx (List.map_subset _ hsub.subset hxd)⟩

theorem IsBound.under (h : IsBound t vars c) (hbody : body.IsScoped t .full (vars ++ ps.map (·.name)))
    (hmem : body ∈ c.parts) (hq : c.quantifiedParameters = ps ++ body.quantifiedParameters) :
    IsBound t (vars ++ ps.map (·.name)) body := by
  have hdistinct := hq ▸ h.distinct
  refine ⟨⟨hbody, h.simplified.of_mem_parts hmem⟩, hdistinct.right, fun x hx hxb => ?_⟩
  rcases List.mem_append.mp hx with hx | hx
  · refine h.separate x hx ?_
    rw [hq, List.map_append]
    exact List.mem_append_right _ hxb
  · exact hdistinct.disjoint hx hxb

/-- Under a quantifier that is kept, the variables of the quantifier are in scope. -/
theorem keeps_exists {negated : Bool} (hq : c.quantifiedParameters = ps ++ body.quantifiedParameters)
    (h : Keeps t (remove types negated body) fun t' d =>
      IsPart t' .withoutUniversals (vars ++ ps.map (·.name)) body d) :
    Keeps t (do return .exists ps (← remove types negated body)) fun t' d =>
      IsPart t' .withoutUniversals vars c d := by
  refine h.bind fun d => .pure fun t' _ hd => ⟨.exists rfl hd.inScope, ?_⟩
  rw [quantifiedParameters_exists, hq]
  exact (List.Subperm.refl ps).append hd.quantified

theorem keeps_removeAll {negated : Bool} {cs : List Condition}
    (h : ∀ c ∈ cs, Keeps t (remove types negated c) fun t' d =>
      IsPart t' .withoutUniversals vars c d) :
    Keeps t (removeAll types negated cs) fun t' ds =>
      List.Forall₂ (IsPart t' .withoutUniversals vars) cs ds := by
  induction cs with
  | nil => exact .pure fun _ _ => .nil
  | cons c cs ih =>
      rw [List.forall_mem_cons] at h
      exact h.1.bind fun d => (ih h.2).bind fun ds => .pure fun _ _ hds hd => .cons hd hds

theorem isPart_and (hq : c.quantifiedParameters = parts.flatMap quantifiedParameters)
    {ds : List Condition} (h : List.Forall₂ (IsPart t .withoutUniversals vars) parts ds) :
    IsPart t .withoutUniversals vars c (.and ds) := by
  refine ⟨.and fun d hd => ?_, ?_⟩
  · obtain ⟨c, -, hc⟩ := exists_of_mem_forall₂_right h hd
    exact hc.inScope
  · rw [quantifiedParameters_and, hq]
    exact subperm_flatMap (h.flip.imp fun _ _ h => h.quantified)

theorem isPart_or (hq : c.quantifiedParameters = parts.flatMap quantifiedParameters)
    {ds : List Condition} (h : List.Forall₂ (IsPart t .withoutUniversals vars) parts ds) :
    IsPart t .withoutUniversals vars c (.or ds) := by
  refine ⟨.or rfl fun d hd => ?_, ?_⟩
  · obtain ⟨c, -, hc⟩ := exists_of_mem_forall₂_right h hd
    exact hc.inScope
  · rw [quantifiedParameters_or, hq]
    exact subperm_flatMap (h.flip.imp fun _ _ h => h.quantified)

theorem IsBound.of_mem_and {d : Condition} (h : IsBound t vars (.and parts)) (hd : d ∈ parts) :
    IsBound t vars d := by
  cases h.inScope with
  | and hparts => exact h.part (hparts d hd) hd (quantifiedParameters_and parts)

theorem IsBound.of_mem_or {d : Condition} (h : IsBound t vars (.or parts)) (hd : d ∈ parts) :
    IsBound t vars d := by
  cases h.inScope with
  | or _ hparts => exact h.part (hparts d hd) hd (quantifiedParameters_or parts)

theorem IsBound.under_forall (h : IsBound t vars (.forall ps body)) :
    IsBound t (vars ++ ps.map (·.name)) body := by
  cases h.inScope with
  | «forall» _ hbody =>
      exact h.under hbody List.mem_cons_self (quantifiedParameters_forall ps body)

theorem IsBound.under_exists (h : IsBound t vars (.exists ps body)) :
    IsBound t (vars ++ ps.map (·.name)) body := by
  cases h.inScope with
  | «exists» _ hbody =>
      exact h.under hbody List.mem_cons_self (quantifiedParameters_exists ps body)

/-- A universal condition is the negation of an existential one. -/
theorem IsBound.negate_forall (h : IsBound t vars (.forall ps body)) :
    IsBound t vars (.exists ps body.negate) := by
  have hq : (Condition.exists ps body.negate).quantifiedParameters =
      (Condition.forall ps body).quantifiedParameters := by simp
  refine ⟨⟨.exists rfl h.under_forall.inScope.negate, ?_⟩, hq ▸ h.distinct, hq ▸ h.separate⟩
  cases h.simplified with
  | «forall» some hbody hopen => exact .exists some hbody.negate ((isConstant_negate _).trans hopen)

theorem freeVariables_negate_forall (ps : List Parameter) (body : Condition) :
    (Condition.exists ps body.negate).freeVariables = (Condition.forall ps body).freeVariables := by
  simp [freeVariables, Literal.negate, List.flatMap_map]

theorem keeps_remove {negated : Bool} (h : IsBound t vars c) :
    Keeps t (remove types negated c) fun t' d => IsPart t' .withoutUniversals vars c d := by
  induction c generalizing vars negated with
  | true =>
      cases negated with
      | true => exact .pure fun _ _ => isPart_false
      | false => exact .pure fun _ _ => isPart_true
  | false =>
      cases negated with
      | true => exact .pure fun _ _ => isPart_true
      | false => exact .pure fun _ _ => isPart_false
  | literal l =>
      cases h.inScope with
      | literal hl =>
          refine .pure fun t' ht => ?_
          have hl' : l.atom.IsOver t' vars := hl.of_task ht
          split
          · exact ⟨.literal hl', by simp⟩
          · exact ⟨.literal hl', by simp⟩
  | and parts ih =>
      refine (keeps_removeAll fun c hc => ih c hc (h.of_mem_and hc)).bind fun ds =>
        .pure fun t' _ hds => ?_
      split
      · exact isPart_or (quantifiedParameters_and parts) hds
      · exact isPart_and (quantifiedParameters_and parts) hds
  | or parts ih =>
      refine (keeps_removeAll fun c hc => ih c hc (h.of_mem_or hc)).bind fun ds =>
        .pure fun t' _ hds => ?_
      split
      · exact isPart_and (quantifiedParameters_or parts) hds
      · exact isPart_or (quantifiedParameters_or parts) hds
  | «forall» ps body ih =>
      rw [remove]
      split
      · exact keeps_exists (quantifiedParameters_forall ps body) (ih h.under_forall)
      · have hexists := h.negate_forall
        have hfree := freeVariables_negate_forall ps body
        refine (keeps_negatedAxiom hexists.free.inScope hexists.simplified hexists.distinct
          ?_).mono fun t' d hd => ?_
        · refine keeps_exists (by simp) (ih ?_)
          rw [hfree]
          exact h.free.under_forall
        · refine ⟨hd.inScope.mono hexists.inScope.freeVariables_subset, ?_⟩
          simpa using hd.quantified
  | «exists» ps body ih =>
      rw [remove]
      split
      · refine (keeps_negatedAxiom h.free.inScope h.simplified h.distinct ?_).mono fun t' d hd =>
          ⟨hd.inScope.mono h.inScope.freeVariables_subset, hd.quantified⟩
        exact keeps_exists (quantifiedParameters_exists ps body) (ih h.free.under_exists)
      · exact keeps_exists (quantifiedParameters_exists ps body) (ih h.under_exists)

theorem keeps_removeFrom (h : IsBound t vars c) :
    Keeps t (removeFrom types c) fun t' d => c.Refines t' .withoutUniversals vars d := by
  rw [removeFrom]
  split
  next =>
    exact (keeps_remove h).bind fun d => .pure fun t' _ hd =>
      ⟨hd.simplified, isSimplified_simplified d⟩
  next hu =>
    refine .pure fun t' ht => ⟨isPart_of_not_hasUniversalPart ?_ hu, h.simplified⟩
    exact h.inScope.of_task fun _ _ ha => ha.of_task ht

end

/-! ### Schemas and tasks -/

theorem isBound_of_distinct {c : Condition} {vars : List String} {ps : List Parameter}
    (h : c.IsWellScoped t .full vars) (hv : vars = ps.map (·.name))
    (hdistinct : AreVariables (ps ++ c.quantifiedParameters)) : IsBound t vars c :=
  ⟨h, hdistinct.right, fun _ hx hq => hdistinct.disjoint (hv ▸ hx) hq⟩

theorem keeps_removeFromAction {a : Action} (h : a.IsWellScoped t .full) :
    Keeps t (removeFromAction a) fun t' a' => t.IsExtendedBy t' →
      a'.IsWellScoped t' .withoutUniversals := by
  refine (keeps_removeFrom (isBound_of_distinct h.precondition rfl h.distinct)).bind fun d =>
    (Keeps.mapM (R := fun t' e e' => ∃ d : Condition, e.condition.Refines t' .withoutUniversals
      ((a.parameters ++ e.parameters).map (·.name)) d ∧ e' = { e with condition := d })
      fun e he => ?_).bind fun effects => .pure fun t' _ heffects hd ht => ?_
  · have he := h.effects e he
    have hdistinct : AreVariables (a.parameters ++ e.parameters ++
        e.condition.quantifiedParameters) := by
      refine he.distinct.of_subperm ?_
      rw [List.append_assoc, List.append_assoc]
      exact (List.Subperm.refl _).append (List.sublist_append_right _ _).subperm
    exact (keeps_removeFrom (isBound_of_distinct he.condition rfl hdistinct)).bind fun d =>
      .pure fun t' _ hd => ⟨d, hd, rfl⟩
  · refine h.refine ht hd fun e' he' => ?_
    exact exists_of_mem_forall₂_right heffects he'

theorem keeps_removeFromAxiom {a : Axiom} (h : a.IsWellScoped t .full) :
    Keeps t (removeFromAxiom a) fun t' a' => t.IsExtendedBy t' →
      a'.IsWellScoped t' .withoutUniversals :=
  (keeps_removeFrom (isBound_of_distinct h.condition rfl h.distinct)).bind fun _ =>
    .pure fun _ _ hd ht => h.refine ht hd

/-- What the removal makes of the schemas and the goal of a task. -/
structure IsRemoved (t t' : Task) (actions : List Action) (axioms : List Axiom) (goal : Condition) :
    Prop where
  actions : ∀ a ∈ actions, a.IsWellScoped t' .withoutUniversals
  axioms : ∀ a ∈ axioms, a.IsWellScoped t' .withoutUniversals
  goal : t.goal.Refines t' .withoutUniversals [] goal

theorem keeps_removeFromTask (h : t.IsWellScoped .full) :
    Keeps t (removeFromTask t) fun t' r => t.IsExtendedBy t' →
      ∃ actions axioms goal, r = { t with actions, axioms, goal } ∧
        IsRemoved t t' actions axioms goal := by
  refine (Keeps.mapM fun a ha => keeps_removeFromAction (h.actions a ha)).bind fun actions =>
    (Keeps.mapM fun a ha => keeps_removeFromAxiom (h.axioms a ha)).bind fun axioms =>
    (keeps_removeFrom (isBound_of_distinct h.goal (List.map_nil).symm h.distinct)).bind fun goal =>
    .pure fun t' _ hgoal haxioms hactions ht =>
      ⟨actions, axioms, goal, rfl, fun a ha => ?_, fun a ha => ?_, hgoal⟩
  · obtain ⟨_, -, hproper⟩ := exists_of_mem_forall₂_right hactions ha
    exact hproper ht
  · obtain ⟨_, -, hproper⟩ := exists_of_mem_forall₂_right haxioms ha
    exact hproper ht

theorem foldl_define (t : Task) (xs : List Axiom) : xs.foldl Task.define t =
    { t with
      predicates := t.predicates ++ xs.map fun x => ⟨x.name, x.parameters, true⟩
      axioms := t.axioms ++ xs } := by
  induction xs generalizing t with
  | nil => simp
  | cons x xs ih => simp [ih, Task.define]

end Universal

namespace Task

open Universal

/-- Universal quantifiers are removed, and the names of all predicates are taken afterwards. -/
theorem isWellScoped_removeUniversals {t : Task} (h : t.IsWellScoped .full) (names : AxiomNames)
    (hnames : names.taken = t.predicates.map (·.name)) :
    (t.removeUniversals names).1.IsWellScoped .withoutUniversals ∧
      ∀ p ∈ (t.removeUniversals names).1.predicates,
        p.name ∈ (t.removeUniversals names).2.taken := by
  obtain ⟨hgrows, hremoved⟩ := keeps_removeFromTask h { names }
  rw [removeUniversals]
  revert hgrows hremoved
  generalize (removeFromTask t).run { names } = result
  obtain ⟨r, s⟩ := result
  rintro ⟨entries, newAxioms, hadds⟩ hremoved
  dsimp only at hadds hremoved
  obtain ⟨actions, axioms, goal, rfl, hactions, haxioms, hgoal⟩ :=
    hremoved _ (.refl _) (isExtendedBy_task t s)
  obtain rfl : s.known = entries := hadds.known.trans (List.append_nil entries)
  obtain rfl : s.axioms = newAxioms := hadds.defined
  have hnewNames : (s.known.map (·.2)).Perm (s.axioms.map (·.name)) := by
    simpa [Function.comp_def] using hadds.heads.map (·.1)
  have hnewPredicates : (s.known.map fun e => (⟨e.2, e.1.2, true⟩ : PredicateSchema)).Perm
      (s.axioms.map fun x => ⟨x.name, x.parameters, true⟩) := by
    simpa [Function.comp_def] using
      hadds.heads.map fun p : String × List Parameter => (⟨p.1, p.2, true⟩ : PredicateSchema)
  simp only [Id.run, foldl_define]
  have ht : (s.task t).IsExtendedBy { t with
      predicates := t.predicates ++ s.axioms.map fun x => ⟨x.name, x.parameters, true⟩
      actions, axioms := axioms ++ s.axioms, goal } := by
    refine ⟨rfl, List.append_subset.mpr ⟨List.subset_append_left _ _, fun p hp => ?_⟩⟩
    exact List.mem_append_right _ (hnewPredicates.subset hp)
  have ht' := (isExtendedBy_task t s).trans ht
  have hnew : ∀ name ∈ s.axioms.map (·.name), name ∉ t.predicates.map (·.name) := by
    intro name hname
    obtain ⟨e, he, rfl⟩ := List.mem_map.mp (hnewNames.mem_iff.mpr hname)
    exact hnames ▸ hadds.fresh e he
  have hpredicates : (t.predicates ++ s.axioms.map fun x =>
      (⟨x.name, x.parameters, true⟩ : PredicateSchema)).map (·.name) =
      t.predicates.map (·.name) ++ s.axioms.map (·.name) := by
    simp [Function.comp_def]
  refine ⟨?_, fun p hp => ?_⟩
  · refine ⟨⟨h.objects, ?_, fun a ha => (h.init a ha).of_task ht', h.equal⟩,
      ⟨fun a ha => (hactions a ha).of_task ht, fun a ha => ?_⟩, h.distinct.of_subperm
        hgoal.quantified, hgoal.inScope.of_task fun _ _ ha => ha.of_task ht, hgoal.simplified⟩
    · rw [hpredicates, List.nodup_append]
      exact ⟨h.predicates, hnewNames.nodup_iff.mp hadds.nodup, fun a ha b hb he =>
        hnew b hb (he ▸ ha)⟩
    · rcases List.mem_append.mp ha with ha | ha
      · exact (haxioms a ha).of_task ht
      · exact (hadds.axioms a ha).of_task ht
  · have hp := List.mem_map_of_mem (f := (·.name)) hp
    rw [hpredicates] at hp
    rw [hadds.taken]
    rcases List.mem_append.mp hp with hp | hp
    · exact List.mem_append_right _ (hnames ▸ hp)
    · exact List.mem_append_left _ (hnewNames.mem_iff.mpr hp)

end Task
end FinitePlanning
