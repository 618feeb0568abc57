import FinitePlanning.Proofs.NormalForm.Universal

/-!
What the removal of universal quantifiers makes of a condition, given the predicates that stand for
conditions in the end. Each of them has an axiom whose condition is made from the one it stands for.
-/

namespace FinitePlanning
namespace Universal

open Condition

/-- The conditions that predicates stand for, with the parameters of the predicates. -/
abbrev Known := List ((Condition × List Parameter) × String)

/-- The type that the removal gives to a free variable. -/
def typeIn (types : List Parameter) (x : String) : String :=
  ((types.find? (·.name == x)).map (·.type)).getD objectType

/-- The negation of a predicate that stands for a condition. -/
def standIn (name : String) (ps : List Parameter) : Condition :=
  .literal (Atom.named name (ps.map (·.name))).negative

/-- What the removal makes of a condition or, if so indicated, of its negation. -/
inductive Rewrites (types : List Parameter) (known : Known) :
    Bool → Condition → Condition → Prop where
  | truth {negated : Bool} : Rewrites types known negated .true (if negated then .false else .true)
  | falsity {negated : Bool} :
      Rewrites types known negated .false (if negated then .true else .false)
  | literal {negated : Bool} {l : Literal} :
      Rewrites types known negated (.literal l) (.literal (if negated then l.negate else l))
  | and {negated : Bool} {cs ds : List Condition} (length : cs.length = ds.length)
      (h : ∀ p ∈ cs.zip ds, Rewrites types known negated p.1 p.2) :
      Rewrites types known negated (.and cs) (if negated then .or ds else .and ds)
  | or {negated : Bool} {cs ds : List Condition} (length : cs.length = ds.length)
      (h : ∀ p ∈ cs.zip ds, Rewrites types known negated p.1 p.2) :
      Rewrites types known negated (.or cs) (if negated then .and ds else .or ds)
  | notForall {ps : List Parameter} {body d : Condition} (h : Rewrites types known true body d) :
      Rewrites types known true (.forall ps body) (.exists ps d)
  | «forall» {ps : List Parameter} {body : Condition} {name : String}
      (h : ((.exists ps body.negate, parametersOf types (.exists ps body.negate)), name) ∈ known) :
      Rewrites types known false (.forall ps body)
        (standIn name (parametersOf types (.exists ps body.negate)))
  | «exists» {ps : List Parameter} {body d : Condition} (h : Rewrites types known false body d) :
      Rewrites types known false (.exists ps body) (.exists ps d)
  | notExists {ps : List Parameter} {body : Condition} {name : String}
      (h : ((.exists ps body, parametersOf types (.exists ps body)), name) ∈ known) :
      Rewrites types known true (.exists ps body)
        (standIn name (parametersOf types (.exists ps body)))

/-- A condition whose variables are bound as it should be, with the types that the removal gives to
them. -/
structure IsTyped (t : Task) (types : List Parameter) (vars : List String) (c : Condition) : Prop
    extends IsBound t vars c where
  types : ∀ p ∈ c.quantifiedParameters, p.type = typeIn types p.name

/-- The condition of the axiom of a predicate that stands for a condition. -/
inductive Defines (t : Task) (types : List Parameter) (known : Known) :
    Condition → Condition → Prop where
  | same {c : Condition} (hc : IsTyped t types c.freeVariables c)
      (h : c.hasUniversalPart = Bool.false) : Defines t types known c c
  | notForall {ps : List Parameter} {body d : Condition}
      (hc : IsTyped t types (Condition.forall ps body).freeVariables (.forall ps body))
      (h : Rewrites types known true body d) :
      Defines t types known (.exists ps body.negate) (Condition.exists ps d).simplified
  | «exists» {ps : List Parameter} {body d : Condition}
      (hc : IsTyped t types (Condition.exists ps body).freeVariables (.exists ps body))
      (h : Rewrites types known false body d) :
      Defines t types known (.exists ps body) (Condition.exists ps d).simplified

/-- An axiom of a predicate that stands for a condition. -/
structure IsDefinition (t : Task) (known : Known) (x : Axiom) : Prop where
  external : x.external = x.parameters.length
  source : ∃ types c, ((c, x.parameters), x.name) ∈ known ∧ x.parameters = parametersOf types c ∧
    Defines t types known c x.condition

variable {t : Task} {types : List Parameter} {known known' : Known} {negated : Bool}
  {c d : Condition} {vars : List String} {ps : List Parameter} {body : Condition}

theorem Rewrites.mono (h : Rewrites types known negated c d) (hknown : known ⊆ known') :
    Rewrites types known' negated c d := by
  induction h with
  | truth => exact .truth
  | falsity => exact .falsity
  | literal => exact .literal
  | and length _ ih => exact .and length ih
  | or length _ ih => exact .or length ih
  | notForall _ ih => exact .notForall ih
  | «forall» h => exact .forall (hknown h)
  | «exists» _ ih => exact .exists ih
  | notExists h => exact .notExists (hknown h)

theorem Defines.mono (h : Defines t types known c d) (hknown : known ⊆ known') :
    Defines t types known' c d := by
  cases h with
  | same hc h => exact .same hc h
  | notForall hc h => exact .notForall hc (h.mono hknown)
  | «exists» hc h => exact .exists hc (h.mono hknown)

theorem IsDefinition.mono {x : Axiom} (h : IsDefinition t known x) (hknown : known ⊆ known') :
    IsDefinition t known' x := by
  obtain ⟨types, c, hmem, hparameters, hdefines⟩ := h.source
  exact ⟨h.external, types, c, hknown hmem, hparameters, hdefines.mono hknown⟩

/-! ### Bound conditions -/

theorem IsTyped.of_quantified (h : IsTyped t types vars c) {vars' : List String}
    (hd : IsBound t vars' d) (hsub : d.quantifiedParameters ⊆ c.quantifiedParameters) :
    IsTyped t types vars' d :=
  ⟨hd, fun p hp => h.types p (hsub hp)⟩

theorem IsTyped.of_mem_and {cs : List Condition} (h : IsTyped t types vars (.and cs)) (hc : c ∈ cs) :
    IsTyped t types vars c :=
  h.of_quantified (h.toIsBound.of_mem_and hc) fun p hp => by
    rw [quantifiedParameters_and]
    exact List.mem_flatMap.mpr ⟨c, hc, hp⟩

theorem IsTyped.of_mem_or {cs : List Condition} (h : IsTyped t types vars (.or cs)) (hc : c ∈ cs) :
    IsTyped t types vars c :=
  h.of_quantified (h.toIsBound.of_mem_or hc) fun p hp => by
    rw [quantifiedParameters_or]
    exact List.mem_flatMap.mpr ⟨c, hc, hp⟩

theorem IsTyped.under_forall (h : IsTyped t types vars (.forall ps body)) :
    IsTyped t types (vars ++ ps.map (·.name)) body :=
  h.of_quantified h.toIsBound.under_forall fun p hp => by
    rw [quantifiedParameters_forall]
    exact List.mem_append_right _ hp

theorem IsTyped.under_exists (h : IsTyped t types vars (.exists ps body)) :
    IsTyped t types (vars ++ ps.map (·.name)) body :=
  h.of_quantified h.toIsBound.under_exists fun p hp => by
    rw [quantifiedParameters_exists]
    exact List.mem_append_right _ hp

theorem IsTyped.free (h : IsTyped t types vars c) : IsTyped t types c.freeVariables c :=
  h.of_quantified h.toIsBound.free (List.Subset.refl _)

theorem IsTyped.negate_forall (h : IsTyped t types vars (.forall ps body)) :
    IsTyped t types vars (.exists ps body.negate) :=
  h.of_quantified h.toIsBound.negate_forall (by simp)

/-! ### Runs -/

/-- A removal adds definitions of predicates, and its result has a property for all that is known in
the end. -/
def Traces {α : Type} (t : Task) (m : Removal α) (Q : Known → α → Prop) : Prop :=
  ∀ s : State, s.known ⊆ (m.run s).2.known ∧
    (∀ x ∈ (m.run s).2.axioms, x ∈ s.axioms ∨ IsDefinition t (m.run s).2.known x) ∧
    ∀ known, (m.run s).2.known ⊆ known → Q known (m.run s).1

namespace Traces

variable {α β : Type} {m : Removal α} {P : Known → α → Prop} {Q : Known → β → Prop}

theorem mono {P' : Known → α → Prop} (h : Traces t m P) (hP : ∀ known a, P known a → P' known a) :
    Traces t m P' :=
  fun s => ⟨(h s).1, (h s).2.1, fun known hknown => hP known _ ((h s).2.2 known hknown)⟩

theorem pure {a : α} (h : ∀ known, P known a) : Traces t (Pure.pure a) P :=
  fun _ => ⟨List.Subset.refl _, fun _ hx => .inl hx, fun known _ => h known⟩

theorem bind {f : α → Removal β} (h : Traces t m P)
    (hf : ∀ a, Traces t (f a) fun known b => P known a → Q known b) : Traces t (m >>= f) Q := by
  intro s
  obtain ⟨hgrows, hdefined, hP⟩ := h s
  obtain ⟨hgrows', hdefined', hQ⟩ := hf (m.run s).1 (m.run s).2
  refine ⟨List.Subset.trans hgrows hgrows', fun x hx => ?_, fun known hknown =>
    hQ known hknown (hP known (List.Subset.trans hgrows' hknown))⟩
  rcases hdefined' x hx with hx | hx
  · exact (hdefined x hx).imp_right fun hx => hx.mono hgrows'
  · exact .inr hx

theorem map {f : α → β} (h : Traces t m fun known a => Q known (f a)) : Traces t (f <$> m) Q := by
  rw [← bind_pure_comp]
  exact h.bind fun a => .pure fun _ => id

theorem mapM {γ : Type} {f : γ → Removal β} {R : Known → γ → β → Prop} {l : List γ}
    (h : ∀ c ∈ l, Traces t (f c) fun known b => R known c b) :
    Traces t (l.mapM f) fun known bs => List.Forall₂ (R known) l bs := by
  induction l with
  | nil => exact .pure fun _ => .nil
  | cons c l ih =>
      rw [List.forall_mem_cons] at h
      rw [List.mapM_cons]
      exact h.1.bind fun b => (ih h.2).bind fun bs => .pure fun _ hbs hb => .cons hb hbs

end Traces

theorem traces_negatedAxiom {defining : Removal Condition} (hc : IsTyped t types c.freeVariables c)
    (hd : Traces t defining fun known d => Defines t types known c d.simplified) :
    Traces t (negatedAxiom types c defining) fun known d => ∃ name,
      ((c, parametersOf types c), name) ∈ known ∧ d = standIn name (parametersOf types c) := by
  intro s
  rw [run_negatedAxiom]
  cases hlookup : s.known.lookup (c, parametersOf types c) with
  | some name =>
      exact ⟨List.Subset.refl _, fun _ hx => .inl hx, fun known hknown =>
        ⟨name, hknown (mem_of_lookup hlookup), rfl⟩⟩
  | none =>
      have hdefinition : Traces t (definition c defining) fun known d => Defines t types known c d := by
        rw [definition]
        split
        next => exact hd.map
        next hu => exact .pure fun _ => .same hc (Bool.eq_false_iff.mpr hu)
      obtain ⟨hgrows, hdefined, hresult⟩ := hdefinition { s with
        names := (s.names.fresh AxiomNames.base).2
        known := ((c, parametersOf types c), (s.names.fresh AxiomNames.base).1) :: s.known }
      have hmem := hgrows List.mem_cons_self
      refine ⟨List.Subset.trans (List.subset_cons_self _ _) hgrows, fun x hx => ?_,
        fun known hknown => ⟨_, hknown hmem, rfl⟩⟩
      rcases List.mem_append.mp hx with hx | hx
      · exact hdefined x hx
      · rw [List.mem_singleton.mp hx]
        exact .inr ⟨rfl, types, c, hmem, rfl, hresult _ (List.Subset.refl _)⟩

theorem traces_removeAll {cs : List Condition}
    (h : ∀ c ∈ cs, Traces t (remove types negated c) fun known d =>
      Rewrites types known negated c d) :
    Traces t (removeAll types negated cs) fun known ds => cs.length = ds.length ∧
      ∀ p ∈ cs.zip ds, Rewrites types known negated p.1 p.2 := by
  induction cs with
  | nil => exact .pure fun _ => ⟨rfl, List.forall_mem_nil _⟩
  | cons c cs ih =>
      rw [List.forall_mem_cons] at h
      refine h.1.bind fun d => (ih h.2).bind fun ds => .pure fun known hds hd => ?_
      exact ⟨congrArg (· + 1) hds.1, List.forall_mem_cons.mpr ⟨hd, hds.2⟩⟩

theorem traces_remove (h : IsTyped t types vars c) : Traces t (remove types negated c)
    fun known d => Rewrites types known negated c d := by
  induction c generalizing vars negated with
  | true => exact .pure fun _ => .truth
  | false => exact .pure fun _ => .falsity
  | literal l => exact .pure fun _ => .literal
  | and cs ih =>
      exact (traces_removeAll fun c hc => ih c hc (h.of_mem_and hc)).bind fun ds =>
        .pure fun _ hds => .and hds.1 hds.2
  | or cs ih =>
      exact (traces_removeAll fun c hc => ih c hc (h.of_mem_or hc)).bind fun ds =>
        .pure fun _ hds => .or hds.1 hds.2
  | «forall» ps body ih =>
      rw [remove]
      cases negated with
      | true => exact (ih h.under_forall).bind fun d => .pure fun _ hd => .notForall hd
      | false =>
          have hinner : Traces t (do return Condition.exists ps (← remove types true body))
              fun known d => Defines t types known (.exists ps body.negate) d.simplified :=
            (ih h.free.under_forall).bind fun d => .pure fun _ hd => .notForall h.free hd
          refine (traces_negatedAxiom h.negate_forall.free hinner).mono fun known d hd => ?_
          obtain ⟨name, hname, rfl⟩ := hd
          exact .forall hname
  | «exists» ps body ih =>
      rw [remove]
      cases negated with
      | true =>
          have hinner : Traces t (do return Condition.exists ps (← remove types false body))
              fun known d => Defines t types known (.exists ps body) d.simplified :=
            (ih h.free.under_exists).bind fun d => .pure fun _ hd => .exists h.free hd
          refine (traces_negatedAxiom h.free hinner).mono fun known d hd => ?_
          obtain ⟨name, hname, rfl⟩ := hd
          exact .notExists hname
      | false => exact (ih h.under_exists).bind fun d => .pure fun _ hd => .exists hd

/-- What the removal makes of a condition of the task. -/
inductive Replaces (t : Task) (types : List Parameter) (known : Known) :
    List String → Condition → Condition → Prop where
  | same {vars : List String} {c : Condition} (hc : IsTyped t types vars c)
      (h : c.hasUniversalPart = Bool.false) : Replaces t types known vars c c
  | rewritten {vars : List String} {c d : Condition} (hc : IsTyped t types vars c)
      (h : Rewrites types known false c d) : Replaces t types known vars c d.simplified

theorem traces_removeFrom (h : IsTyped t types vars c) : Traces t (removeFrom types c)
    fun known d => Replaces t types known vars c d := by
  rw [removeFrom]
  split
  next => exact (traces_remove h).bind fun d => .pure fun _ hd => .rewritten h hd
  next hu => exact .pure fun _ => .same h (Bool.eq_false_iff.mpr hu)

end Universal
end FinitePlanning
