import FinitePlanning.Proofs.Condition.Free
import FinitePlanning.Proofs.Condition.Simplify
import FinitePlanning.Proofs.Semantics.Lifted

/-!
The scope of variables. A condition stays within its scope when it is negated or simplified: what
matters are its connectives, its literals and its free names.
-/

namespace FinitePlanning
namespace Condition

/-- A condition of a fragment with atoms over objects and the variables in scope. -/
inductive IsScoped (t : Task) (k : Fragment) : List String → Condition → Prop where
  | truth {vars : List String} : IsScoped t k vars .true
  | falsity {vars : List String} : IsScoped t k vars .false
  | literal {vars : List String} {l : Literal} (h : l.atom.IsOver t vars) :
      IsScoped t k vars (.literal l)
  | and {vars : List String} {parts : List Condition} (h : ∀ c ∈ parts, IsScoped t k vars c) :
      IsScoped t k vars (.and parts)
  | or {vars : List String} {parts : List Condition} (hk : k.disjunction = Bool.true)
      (h : ∀ c ∈ parts, IsScoped t k vars c) : IsScoped t k vars (.or parts)
  | «forall» {vars : List String} {ps : List Parameter} {body : Condition}
      (hk : k.universal = Bool.true) (h : IsScoped t k (vars ++ ps.map (·.name)) body) :
      IsScoped t k vars (.forall ps body)
  | «exists» {vars : List String} {ps : List Parameter} {body : Condition}
      (hk : k.existential = Bool.true) (h : IsScoped t k (vars ++ ps.map (·.name)) body) :
      IsScoped t k vars (.exists ps body)

variable {t t' : Task} {k k' : Fragment} {vars vars' : List String} {c : Condition}

/-- The predicate of an atom takes its number of arguments, and its objects exist. -/
structure IsDeclaredIn (t : Task) (a : Atom) : Prop where
  arity : t.HasArity a.predicate a.args.length
  objects : ∀ x ∈ a.args, isVariable x = Bool.false → x ∈ t.objects.map (·.name)

theorem isOver_iff {a : Atom} : a.IsOver t vars ↔
    IsDeclaredIn t a ∧ ∀ x ∈ a.args, isVariable x = Bool.true → x ∈ vars :=
  ⟨fun h => ⟨⟨h.arity, fun x hx => (h.args x hx).2⟩, fun x hx => (h.args x hx).1⟩,
    fun ⟨h, hvars⟩ => ⟨h.arity, fun x hx => ⟨hvars x hx, h.objects x hx⟩⟩⟩

theorem mem_append_of_isFree {ps : List Parameter} {x : String}
    (h : x ∉ ps.map (·.name) → x ∈ vars) : x ∈ vars ++ ps.map (·.name) := by
  by_cases hx : x ∈ ps.map (·.name)
  · exact List.mem_append_right _ hx
  · exact List.mem_append_left _ (h hx)

/-- A condition is within the scope of its free variables. -/
theorem isScoped_iff : c.IsScoped t k vars ↔ c.InFragment k ∧
    (∀ l ∈ c.literals, IsDeclaredIn t l.atom) ∧
    ∀ x, c.IsFree x → isVariable x = Bool.true → x ∈ vars := by
  constructor
  · intro h
    induction h with
    | truth => simp
    | falsity => simp
    | literal h => simpa using isOver_iff.mp h
    | and _ ih =>
        refine ⟨inFragment_and.mpr fun c hc => (ih c hc).1, fun l hl => ?_, fun x hx hv => ?_⟩
        · obtain ⟨c, hc, hl⟩ := List.mem_flatMap.mp (literals_and _ ▸ hl)
          exact (ih c hc).2.1 l hl
        · obtain ⟨c, hc, hx⟩ := isFree_and.mp hx
          exact (ih c hc).2.2 x hx hv
    | or hk _ ih =>
        refine ⟨inFragment_or.mpr ⟨hk, fun c hc => (ih c hc).1⟩, fun l hl => ?_, fun x hx hv => ?_⟩
        · obtain ⟨c, hc, hl⟩ := List.mem_flatMap.mp (literals_or _ ▸ hl)
          exact (ih c hc).2.1 l hl
        · obtain ⟨c, hc, hx⟩ := isFree_or.mp hx
          exact (ih c hc).2.2 x hx hv
    | «forall» hk _ ih =>
        rw [literals_forall]
        refine ⟨inFragment_forall.mpr ⟨hk, ih.1⟩, ih.2.1, fun x hx hv => ?_⟩
        obtain ⟨hp, hx⟩ := isFree_forall.mp hx
        exact (List.mem_append.mp (ih.2.2 x hx hv)).resolve_right hp
    | «exists» hk _ ih =>
        rw [literals_exists]
        refine ⟨inFragment_exists.mpr ⟨hk, ih.1⟩, ih.2.1, fun x hx hv => ?_⟩
        obtain ⟨hp, hx⟩ := isFree_exists.mp hx
        exact (List.mem_append.mp (ih.2.2 x hx hv)).resolve_right hp
  · intro ⟨hfragment, hdeclared, hfree⟩
    induction c generalizing vars with
    | true => exact .truth
    | false => exact .falsity
    | literal l =>
        exact .literal (isOver_iff.mpr ⟨by simpa using hdeclared, by simpa using hfree⟩)
    | and parts ih =>
        rw [inFragment_and] at hfragment
        rw [literals_and] at hdeclared
        exact .and fun c hc => ih c hc (hfragment c hc)
          (fun l hl => hdeclared l (List.mem_flatMap.mpr ⟨c, hc, hl⟩))
          fun x hx => hfree x (.and hc hx)
    | or parts ih =>
        rw [inFragment_or] at hfragment
        rw [literals_or] at hdeclared
        exact .or hfragment.1 fun c hc => ih c hc (hfragment.2 c hc)
          (fun l hl => hdeclared l (List.mem_flatMap.mpr ⟨c, hc, hl⟩))
          fun x hx => hfree x (.or hc hx)
    | «forall» ps body ih =>
        rw [inFragment_forall] at hfragment
        rw [literals_forall] at hdeclared
        exact .forall hfragment.1 (ih hfragment.2 hdeclared fun x hx hv =>
          mem_append_of_isFree fun hp => hfree x (.forall hp hx) hv)
    | «exists» ps body ih =>
        rw [inFragment_exists] at hfragment
        rw [literals_exists] at hdeclared
        exact .exists hfragment.1 (ih hfragment.2 hdeclared fun x hx hv =>
          mem_append_of_isFree fun hp => hfree x (.exists hp hx) hv)

namespace IsScoped

theorem inFragment (h : c.IsScoped t k vars) : c.InFragment k := (isScoped_iff.mp h).1

theorem of_shrinksTo {d : Condition} (h : c.IsScoped t k vars) (hd : ShrinksTo k' c d) :
    d.IsScoped t k' vars := by
  obtain ⟨-, hdeclared, hfree⟩ := isScoped_iff.mp h
  exact isScoped_iff.mpr ⟨hd.fragment, fun l hl => hdeclared l (hd.literals hl),
    fun x hx => hfree x (hd.free x hx)⟩

theorem mono (h : c.IsScoped t k vars) (hsub : vars ⊆ vars') : c.IsScoped t k vars' := by
  obtain ⟨hfragment, hdeclared, hfree⟩ := isScoped_iff.mp h
  exact isScoped_iff.mpr ⟨hfragment, hdeclared, fun x hx hv => hsub (hfree x hx hv)⟩

/-- A condition belongs to each fragment that allows its nodes. -/
theorem within (h : c.IsScoped t k vars) (hk : c.InFragment k') : c.IsScoped t k' vars :=
  h.of_shrinksTo ⟨.refl c, hk⟩

/-- The scope also holds in a task with more predicates. -/
theorem of_task (h : c.IsScoped t k vars) (ht : ∀ a vars, Atom.IsOver t vars a → a.IsOver t' vars) :
    c.IsScoped t' k vars := by
  induction h with
  | truth => exact .truth
  | falsity => exact .falsity
  | literal h => exact .literal (ht _ _ h)
  | and _ ih => exact .and ih
  | or hk _ ih => exact .or hk ih
  | «forall» hk _ ih => exact .forall hk ih
  | «exists» hk _ ih => exact .exists hk ih

theorem mapBottomUp {f : Condition → Condition} (h : c.IsScoped t k vars)
    (hf : ∀ vars c, IsScoped t k vars c → IsScoped t k vars (f c)) :
    (c.mapBottomUp f).IsScoped t k vars := by
  induction h with
  | truth => exact mapBottomUp_true ▸ hf _ _ .truth
  | falsity => exact mapBottomUp_false ▸ hf _ _ .falsity
  | literal h => exact mapBottomUp_literal _ ▸ hf _ _ (.literal h)
  | and _ ih => exact mapBottomUp_and _ ▸ hf _ _ (.and (List.forall_mem_map.mpr ih))
  | or hk _ ih => exact mapBottomUp_or _ ▸ hf _ _ (.or hk (List.forall_mem_map.mpr ih))
  | «forall» hk _ ih => exact mapBottomUp_forall _ _ ▸ hf _ _ (.forall hk ih)
  | «exists» hk _ ih => exact mapBottomUp_exists _ _ ▸ hf _ _ (.exists hk ih)

theorem simplified (h : c.IsScoped t k vars) : c.simplified.IsScoped t k vars :=
  h.of_shrinksTo ⟨.simplified c, h.inFragment.simplified⟩

end IsScoped

/-- A condition in a fragment, with some of the quantified variables of another one. -/
structure IsPart (t : Task) (k : Fragment) (vars : List String) (c d : Condition) : Prop where
  inScope : d.IsScoped t k vars
  quantified : d.quantifiedParameters.Subperm c.quantifiedParameters

theorem IsPart.simplified {d : Condition} (h : IsPart t k vars c d) :
    IsPart t k vars c d.simplified :=
  ⟨h.inScope.simplified, (Shrinks.simplified d).quantified.trans h.quantified⟩

theorem ShrinksTo.isPart {d : Condition} (h : ShrinksTo k' c d) (hc : c.IsScoped t k vars) :
    IsPart t k' vars c d :=
  ⟨hc.of_shrinksTo h, h.quantified⟩

theorem isPart_true : IsPart t k vars c .true :=
  ⟨.truth, quantifiedParameters_true ▸ List.nil_subperm⟩

theorem isPart_false : IsPart t k vars c .false :=
  ⟨.falsity, quantifiedParameters_false ▸ List.nil_subperm⟩

/-! ### Negation -/

@[simp] theorem quantifiedParameters_negate (c : Condition) :
    c.negate.quantifiedParameters = c.quantifiedParameters := by
  induction c with
  | true | false | literal l => simp
  | and parts ih | or parts ih =>
      simp only [negate_and, negate_or, quantifiedParameters_and, quantifiedParameters_or,
        List.flatMap_map]
      exact List.flatMap_congr ih
  | «forall» ps body ih | «exists» ps body ih => simp [ih]

theorem IsScoped.negate (h : c.IsScoped t .full vars) : c.negate.IsScoped t .full vars := by
  refine h.mapBottomUp fun vars c h => ?_
  cases h with
  | truth => exact .falsity
  | falsity => exact .truth
  | literal h => exact .literal h
  | and h => exact .or rfl h
  | or _ h => exact .and h
  | «forall» _ h => exact .exists rfl h
  | «exists» _ h => exact .forall rfl h

/-! ### Free variables -/

theorem mem_freeVariables {x : String} : x ∈ c.freeVariables ↔
    x ∈ c.literals.flatMap (·.atom.vars) ∧ x ∉ c.quantifiedParameters.map (·.name) := by
  simp [freeVariables, sortedNames, List.mem_mergeSort]

theorem nodup_freeVariables : c.freeVariables.Nodup :=
  (List.mergeSort_perm _ _).nodup_iff.mpr (nodup_eraseDups _)

theorem isVariable_of_mem_freeVariables {x : String} (h : x ∈ c.freeVariables) :
    isVariable x = Bool.true := by
  obtain ⟨l, -, hx⟩ := List.mem_flatMap.mp (mem_freeVariables.mp h).1
  exact (List.mem_filter.mp hx).2

/-- Where no variable is bound twice, exactly the free variables are listed. -/
theorem IsRectified.mem_freeVariables (h : c.IsRectified) {x : String} :
    x ∈ c.freeVariables ↔ c.IsFree x ∧ isVariable x = Bool.true := by
  rw [Condition.mem_freeVariables, List.mem_flatMap]
  constructor
  · rintro ⟨⟨l, hl, hx⟩, hquantified⟩
    obtain ⟨hx, hvariable⟩ := List.mem_filter.mp hx
    exact ⟨(isFree_or_mem_quantified hl hx).resolve_right hquantified, hvariable⟩
  · rintro ⟨hfree, hvariable⟩
    obtain ⟨l, hl, hx⟩ := hfree.exists_literal
    exact ⟨⟨l, hl, List.mem_filter.mpr ⟨hx, hvariable⟩⟩, fun hq => h.bound x hq hfree⟩

/-- The free variables are enough if no variable in scope is quantified. -/
theorem IsScoped.freeVariables (h : c.IsScoped t k vars)
    (hv : ∀ x ∈ vars, x ∉ c.quantifiedParameters.map (·.name)) :
    c.IsScoped t k c.freeVariables := by
  obtain ⟨hfragment, hdeclared, hfree⟩ := isScoped_iff.mp h
  refine isScoped_iff.mpr ⟨hfragment, hdeclared, fun x hx hvariable => ?_⟩
  obtain ⟨l, hl, hmem⟩ := hx.exists_literal
  exact mem_freeVariables.mpr ⟨List.mem_flatMap.mpr ⟨l, hl, List.mem_filter.mpr ⟨hmem, hvariable⟩⟩,
    hv x (hfree x hx hvariable)⟩

/-- The variables that occur are in scope or quantified. -/
theorem IsScoped.mem_of_occurring (h : c.IsScoped t k vars) {x : String}
    (hx : x ∈ c.literals.flatMap (·.atom.vars)) :
    x ∈ vars ∨ x ∈ c.quantifiedParameters.map (·.name) := by
  obtain ⟨l, hl, hx⟩ := List.mem_flatMap.mp hx
  obtain ⟨hx, hvariable⟩ := List.mem_filter.mp hx
  exact (isFree_or_mem_quantified hl hx).imp_left fun hfree =>
    (isScoped_iff.mp h).2.2 x hfree hvariable

theorem IsScoped.freeVariables_subset (h : c.IsScoped t k vars) : c.freeVariables ⊆ vars := by
  intro x hx
  obtain ⟨hx, hq⟩ := mem_freeVariables.mp hx
  exact (h.mem_of_occurring hx).resolve_right hq

@[simp] theorem literals_negate (c : Condition) : c.negate.literals = c.literals.map (·.negate) := by
  induction c with
  | true | false | literal l => simp
  | and parts ih | or parts ih =>
      simp only [negate_and, negate_or, literals_and, literals_or, List.flatMap_map,
        List.map_flatMap]
      exact List.flatMap_congr ih
  | «forall» ps body ih | «exists» ps body ih => simp [ih]

end Condition
end FinitePlanning
