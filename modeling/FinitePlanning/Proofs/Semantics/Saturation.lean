import Mathlib.Data.Set.Insert
import FinitePlanning.Proofs.Collections
import FinitePlanning.Proofs.Semantics.Derivation
import FinitePlanning.Stratification

/-!
Stratified axioms are evaluated layer by layer. The axioms of a layer are fired in any order until
nothing changes any more.
-/

namespace FinitePlanning

/-- Axioms are fired until none changes anything. -/
inductive Saturates (axioms : List GroundAxiom) : Interpretation → Interpretation → Prop where
  | done {I : Interpretation} (h : ∀ x ∈ axioms, AllHold I x.condition → x.effect ∈ I) :
      Saturates axioms I I
  | fire {I J : Interpretation} {x : GroundAxiom} (h : x ∈ axioms) (hc : AllHold I x.condition)
      (he : x.effect ∉ I) (next : Saturates axioms (insert x.effect I) J) : Saturates axioms I J

/-- Lists of axioms are fired one after the other. -/
inductive SaturatesAll : List (List GroundAxiom) → Interpretation → Interpretation → Prop where
  | nil {I : Interpretation} : SaturatesAll [] I I
  | cons {axioms : List GroundAxiom} {rest : List (List GroundAxiom)} {I J K : Interpretation}
      (h : Saturates axioms I J) (next : SaturatesAll rest J K) : SaturatesAll (axioms :: rest) I K

namespace StratifiedAxioms

variable (s : StratifiedAxioms)

/-- The layers of atoms, in order. -/
def layerNumbers : List Nat := orderedSet (s.layers.map (·.2))

def axiomsOf (layer : Nat) : List GroundAxiom :=
  s.axioms.filter fun x => (x.effect, layer) ∈ s.layers

/-- The axioms may turn `I` into `J`. -/
def Evaluates (I J : Interpretation) : Prop :=
  SaturatesAll (s.layerNumbers.map s.axiomsOf) I J

theorem mem_layerNumbers {layer : Nat} :
    layer ∈ s.layerNumbers ↔ ∃ a, (a, layer) ∈ s.layers := by
  simp [layerNumbers, mem_orderedSet]

theorem mem_axiomsOf {layer : Nat} {x : GroundAxiom} :
    x ∈ s.axiomsOf layer ↔ x ∈ s.axioms ∧ (x.effect, layer) ∈ s.layers := by
  rw [axiomsOf, List.mem_filter, decide_eq_true_eq]

end StratifiedAxioms

variable {axioms : List GroundAxiom} {I J K : Interpretation} {a : Atom}

/-! ### One layer -/

namespace Saturates

theorem subset (h : Saturates axioms I J) : I ⊆ J := by
  induction h with
  | done _ => exact Set.Subset.rfl
  | fire _ _ _ _ ih => exact (Set.subset_insert _ _).trans ih

theorem mem_or (h : Saturates axioms I J) (ha : a ∈ J) :
    a ∈ I ∨ ∃ x ∈ axioms, x.effect = a := by
  induction h with
  | done _ => exact .inl ha
  | fire hx _ _ _ ih =>
      rcases ih ha with ha | ha
      · rcases Set.mem_insert_iff.mp ha with rfl | ha
        · exact .inr ⟨_, hx, rfl⟩
        · exact .inl ha
      · exact .inr ha

/-- No axiom has a further effect in the end. -/
theorem closed (h : Saturates axioms I J) {x : GroundAxiom} (hx : x ∈ axioms)
    (hc : AllHold J x.condition) : x.effect ∈ J := by
  induction h with
  | done hdone => exact hdone x hx hc
  | fire _ _ _ _ ih => exact ih hc

/-- Firing comes to an end, since each axiom that is fired makes its effect true. -/
theorem exists_saturates (axioms : List GroundAxiom) (I : Interpretation) :
    ∃ J, Saturates axioms I J := by
  classical
  let isMissing (I : Interpretation) (x : GroundAxiom) : Bool := decide (x.effect ∉ I)
  have hmissing : ∀ {I x}, isMissing I x = true ↔ x.effect ∉ I := decide_eq_true_iff
  induction hn : axioms.countP (isMissing I) using Nat.strongRecOn generalizing I with
  | _ n ih =>
      by_cases hdone : ∀ x ∈ axioms, AllHold I x.condition → x.effect ∈ I
      · exact ⟨I, .done hdone⟩
      · push Not at hdone
        obtain ⟨x, hx, hc, he⟩ := hdone
        have hlt : axioms.countP (isMissing (insert x.effect I)) < n := by
          rw [← hn]
          refine countP_lt_countP (fun y _ h => ?_) hx (hmissing.mpr he) ?_
          · exact hmissing.mpr fun hy => hmissing.mp h (Set.mem_insert_of_mem _ hy)
          · exact Bool.eq_false_iff.mpr fun h => hmissing.mp h (Set.mem_insert _ _)
        obtain ⟨J, hJ⟩ := ih _ hlt (insert x.effect I) rfl
        exact ⟨J, .fire hx hc he hJ⟩

end Saturates

/-- No axiom requires the negation of what one of them has as its effect. -/
def GroundAxiom.AreMonotone (axioms : List GroundAxiom) : Prop :=
  ∀ x ∈ axioms, ∀ l ∈ x.condition, l.negated = true → ∀ y ∈ axioms, y.effect ≠ l.atom

namespace GroundAxiom.AreMonotone

theorem not_mem (hm : AreMonotone axioms) (h : Saturates axioms I J) {x : GroundAxiom}
    (hx : x ∈ axioms) {l : Literal} (hl : l ∈ x.condition) (hn : l.negated = true)
    (hI : l.atom ∉ I) : l.atom ∉ J := fun hJ =>
  (h.mem_or hJ).elim hI fun ⟨y, hy, he⟩ => hm x hx l hl hn y hy he

/-- Whatever the order, the result is what follows when negations are read before the first axiom is
fired. -/
theorem eq_consequences (hm : AreMonotone axioms) (h : Saturates axioms I J) :
    J = consequences {x | x ∈ axioms} I I := by
  refine Set.Subset.antisymm (fun a ha => ?_) fun a ha => ?_
  · -- what holds when an axiom is fired follows from what held in the beginning
    suffices hall : ∀ {K J}, Saturates axioms K J → I ⊆ K →
        (∀ b ∈ K, Derives {x | x ∈ axioms} I I b) → ∀ b ∈ J, Derives {x | x ∈ axioms} I I b from
      hall h Set.Subset.rfl (fun b hb => .given hb) a ha
    intro K J hKJ
    induction hKJ with
    | done _ => exact fun _ hK => hK
    | @fire K J x hx hc he _ ih =>
        intro hIK hK
        refine ih (hIK.trans (Set.subset_insert _ _)) fun b hb => ?_
        rcases Set.mem_insert_iff.mp hb with rfl | hb
        · refine .rule hx (fun l hl hn => hK _ ?_) fun l hl hn hI => ?_
          · have hl := hc l hl
            rwa [Literal.Holds, hn, if_neg Bool.false_ne_true] at hl
          · have hl := hc l hl
            rw [Literal.Holds, hn, if_pos rfl] at hl
            exact hl (hIK hI)
        · exact hK b hb
  · induction ha with
    | given ha => exact h.subset ha
    | @rule x hx _ negative ih =>
        refine h.closed hx fun l hl => ?_
        cases hn : l.negated with
        | false =>
            rw [Literal.Holds, hn, if_neg Bool.false_ne_true]
            exact ih l hl hn
        | true =>
            rw [Literal.Holds, hn, if_pos rfl]
            exact hm.not_mem h hx hl hn (negative l hl hn)

theorem unique (hm : AreMonotone axioms) (h : Saturates axioms I J) (h' : Saturates axioms I K) :
    J = K :=
  (hm.eq_consequences h).trans (hm.eq_consequences h').symm

end GroundAxiom.AreMonotone

/-! ### All layers -/

namespace SaturatesAll

variable {lists front rest : List (List GroundAxiom)}

theorem subset (h : SaturatesAll lists I J) : I ⊆ J := by
  induction h with
  | nil => exact Set.Subset.rfl
  | cons h _ ih => exact h.subset.trans ih

theorem mem_or (h : SaturatesAll lists I J) (ha : a ∈ J) :
    a ∈ I ∨ ∃ axioms ∈ lists, ∃ x ∈ axioms, x.effect = a := by
  induction h with
  | nil => exact .inl ha
  | cons h _ ih =>
      rcases ih ha with ha | ⟨axioms, haxioms, hx⟩
      · exact (h.mem_or ha).imp_right fun hx => ⟨_, List.mem_cons_self, hx⟩
      · exact .inr ⟨axioms, List.mem_cons_of_mem _ haxioms, hx⟩

theorem split (h : SaturatesAll (front ++ rest) I J) :
    ∃ K, SaturatesAll front I K ∧ SaturatesAll rest K J := by
  induction front generalizing I with
  | nil => exact ⟨I, .nil, h⟩
  | cons axioms front ih =>
      cases h with
      | cons hfirst next =>
          obtain ⟨K, hfront, hrest⟩ := ih next
          exact ⟨K, .cons hfirst hfront, hrest⟩

theorem exists_saturatesAll (lists : List (List GroundAxiom)) (I : Interpretation) :
    ∃ J, SaturatesAll lists I J := by
  induction lists generalizing I with
  | nil => exact ⟨I, .nil⟩
  | cons axioms lists ih =>
      obtain ⟨J, hJ⟩ := Saturates.exists_saturates axioms I
      obtain ⟨K, hK⟩ := ih J
      exact ⟨K, .cons hJ hK⟩

end SaturatesAll
end FinitePlanning
