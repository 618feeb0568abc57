import Mathlib.Data.Set.Basic
import FinitePlanning.Datalog.Model
import FinitePlanning.Proofs.Collections

/-!
The meaning of Horn rules. The least model of a program has the atoms that follow
from its facts when its rules are used with all values of their variables.
-/

namespace FinitePlanning
namespace Datalog

variable {σ : String → ObjectId}

def Term.eval (σ : String → ObjectId) : Term → ObjectId
  | .variable v => σ v
  | .object id => id

namespace Pattern

def evalArgs (σ : String → ObjectId) (p : Pattern) : List ObjectId := p.args.map (·.eval σ)

/-- The instance of an atom of a rule under values of the variables. -/
def eval (σ : String → ObjectId) (p : Pattern) : GroundAtom := ⟨p.relation, p.evalArgs σ⟩

theorem mem_vars {p : Pattern} {v : String} : v ∈ p.vars ↔ Term.variable v ∈ p.args := by
  simp only [vars, List.mem_filterMap]
  constructor
  · rintro ⟨term, hterm, h⟩
    cases term with
    | «variable» w => cases h; exact hterm
    | object id => cases h
  · exact fun h => ⟨_, h, rfl⟩

/-- Only the values of its variables matter to an atom. -/
theorem evalArgs_congr {τ : String → ObjectId} {p : Pattern} (h : ∀ v ∈ p.vars, σ v = τ v) :
    p.evalArgs σ = p.evalArgs τ := by
  refine List.map_congr_left fun term hterm => ?_
  cases term with
  | «variable» v => exact h v (mem_vars.mpr hterm)
  | object id => rfl

theorem eval_congr {τ : String → ObjectId} {p : Pattern} (h : ∀ v ∈ p.vars, σ v = τ v) :
    p.eval σ = p.eval τ := by
  rw [eval, eval, evalArgs_congr h]

theorem length_evalArgs (σ : String → ObjectId) (p : Pattern) :
    (p.evalArgs σ).length = p.args.length := List.length_map _

end Pattern

/-- A set that has the head of a rule wherever it has the conditions. -/
def Rule.Holds (r : Rule) (X : Set GroundAtom) : Prop :=
  ∀ σ, (∀ p ∈ r.body, p.eval σ ∈ X) → r.head.eval σ ∈ X

/-- The atoms that follow from facts. -/
inductive Derivable (facts : Set GroundAtom) (rules : Set Rule) : GroundAtom → Prop where
  | fact {a : GroundAtom} (h : a ∈ facts) : Derivable facts rules a
  | rule {r : Rule} (h : r ∈ rules) (σ : String → ObjectId)
      (body : ∀ p ∈ r.body, Derivable facts rules (p.eval σ)) :
      Derivable facts rules (r.head.eval σ)

/-- The least set that has the facts and in which the rules hold. -/
def leastModel (facts : Set GroundAtom) (rules : Set Rule) : Set GroundAtom :=
  {a | Derivable facts rules a}

variable {facts : Set GroundAtom} {rules : Set Rule}

theorem leastModel_subset {X : Set GroundAtom} (hfacts : facts ⊆ X)
    (hrules : ∀ r ∈ rules, r.Holds X) : leastModel facts rules ⊆ X := by
  intro a ha
  induction ha with
  | fact h => exact hfacts h
  | rule h σ _ ih => exact hrules _ h σ ih

theorem subset_leastModel : facts ⊆ leastModel facts rules := fun _ h => .fact h

theorem holds_leastModel {r : Rule} (h : r ∈ rules) : r.Holds (leastModel facts rules) :=
  fun σ hbody => .rule h σ hbody

/-- Facts of relations that no rule mentions have no other consequences. -/
theorem leastModel_union_of_unmentioned (unmentioned : RelationId → Prop) {extra : Set GroundAtom}
    (hextra : ∀ a ∈ extra, unmentioned a.relation) (hfacts : ∀ a ∈ facts, ¬ unmentioned a.relation)
    (hrules : ∀ r ∈ rules, ∀ p ∈ r.head :: r.body, ¬ unmentioned p.relation) :
    {a ∈ leastModel (facts ∪ extra) rules | ¬ unmentioned a.relation} = leastModel facts rules := by
  have hleast : leastModel (facts ∪ extra) rules ⊆
      {a | unmentioned a.relation ∨ a ∈ leastModel facts rules} := by
    refine leastModel_subset ?_ fun r hr σ hbody => .inr (holds_leastModel hr σ fun p hp => ?_)
    · rintro a (ha | ha)
      · exact .inr (.fact ha)
      · exact .inl (hextra a ha)
    · exact (hbody p hp).resolve_left (hrules r hr p (List.mem_cons_of_mem _ hp))
  refine Set.Subset.antisymm (fun a ha => (hleast ha.1).resolve_left ha.2) ?_
  refine Set.subset_inter (leastModel_subset ?_ fun r hr => holds_leastModel hr)
    (leastModel_subset hfacts fun r hr σ _ => hrules r hr _ List.mem_cons_self)
  exact fun a ha => .fact (.inl ha)

/-- The rules of a program as rules of any kind. -/
def Program.ruleSet (p : Program) : Set Rule := {r | ∃ s ∈ p.rules, s.toRule = r}

def Program.factSet (p : Program) : Set GroundAtom := {a | a ∈ p.facts}

/-- The least model of a program. -/
def Program.meaning (p : Program) : Set GroundAtom := leastModel p.factSet p.ruleSet

/-- A rule whose matches can be found one condition at a time. -/
structure SplitRule.IsSafe (r : SplitRule) : Prop where
  nonempty : r.body ≠ []
  nodup : ∀ p ∈ r.body, p.vars.Nodup
  bound : ∀ v ∈ r.head.vars, ∃ p ∈ r.body, v ∈ p.vars
  apart : r.body.length ≤ 2 ∨ r.body.Pairwise fun p q => ∀ v ∈ p.vars, v ∉ q.vars

/-- A rule has as many conditions as its kind calls for. -/
def SplitRule.FitsKind (r : SplitRule) : Prop :=
  match r.kind with
  | .project => r.body.length = 1
  | .join => r.body.length = 2
  | .product => 2 ≤ r.body.length ∧ r.body.Pairwise fun p q => ∀ v ∈ p.vars, v ∉ q.vars

/-- What a rule has of this even if its conditions repeat variables. -/
structure SplitRule.IsGuarded (r : SplitRule) : Prop where
  nonempty : r.body ≠ []
  bound : ∀ v ∈ r.head.vars, ∃ p ∈ r.body, v ∈ p.vars
  apart : r.body.length ≤ 2 ∨ r.body.Pairwise fun p q => ∀ v ∈ p.vars, v ∉ q.vars

/-- A rule of its kind, whose conditions have all variables of its head. -/
structure SplitRule.IsProper (r : SplitRule) : Prop where
  kind : r.FitsKind
  bound : ∀ v ∈ r.head.vars, ∃ p ∈ r.body, v ∈ p.vars

theorem SplitRule.IsProper.isGuarded {r : SplitRule} (h : r.IsProper) : r.IsGuarded := by
  have hsize : 0 < r.body.length ∧
      (r.body.length ≤ 2 ∨ r.body.Pairwise fun p q => ∀ v ∈ p.vars, v ∉ q.vars) := by
    have hkind := h.kind
    rw [FitsKind] at hkind
    cases hk : r.kind with
    | project =>
        rw [hk] at hkind
        dsimp only at hkind
        exact ⟨by omega, .inl (by omega)⟩
    | join =>
        rw [hk] at hkind
        dsimp only at hkind
        exact ⟨by omega, .inl (by omega)⟩
    | product =>
        rw [hk] at hkind
        exact ⟨Nat.lt_of_lt_of_le Nat.two_pos hkind.1, .inr hkind.2⟩
  exact ⟨List.ne_nil_of_length_pos hsize.1, h.bound, hsize.2⟩

theorem SplitRule.IsGuarded.isSafe {r : SplitRule} (h : r.IsGuarded)
    (hnodup : ∀ p ∈ r.body, p.vars.Nodup) : r.IsSafe :=
  ⟨h.nonempty, hnodup, h.bound, h.apart⟩

end Datalog
end FinitePlanning
