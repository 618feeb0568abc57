import Mathlib.Data.Set.Basic
import FinitePlanning.Ground.Basic
import FinitePlanning.Ground.Propositional

/-!
The meaning of literals and axioms, and the runs of ground tasks. An interpretation is the set of
all true atoms. Axioms complete an interpretation by their well-founded model: negations are first
read against what is possible at all, then against what is certain. For axioms that have a
stratification the two readings agree, and the model is the one that is computed layer by layer.
The effects of a ground action whose conditions hold take place together; an atom that is both
deleted and added is true afterwards. Derived atoms are not changed by actions but follow from the
axioms in each state.
-/

namespace FinitePlanning

abbrev Interpretation := Set Atom

namespace Literal

def Holds (s : Interpretation) (l : Literal) : Prop :=
  if l.negated then l.atom ∉ s else l.atom ∈ s

@[simp] theorem holds_positive (s : Interpretation) (a : Atom) :
    a.positive.Holds s ↔ a ∈ s := by
  simp [Holds, Atom.positive]

@[simp] theorem holds_negative (s : Interpretation) (a : Atom) :
    a.negative.Holds s ↔ a ∉ s := by
  simp [Holds, Atom.negative]

@[simp] theorem holds_negate (s : Interpretation) (l : Literal) :
    l.negate.Holds s ↔ ¬ l.Holds s := by
  cases h : l.negated <;> simp [Holds, negate, h]

theorem holds_congr {s s' : Interpretation} {l : Literal}
    (h : l.atom ∈ s ↔ l.atom ∈ s') : l.Holds s ↔ l.Holds s' := by
  simp only [Holds, h]

end Literal

/-- All literals of a conjunction hold. -/
def AllHold (s : Interpretation) (ls : List Literal) : Prop :=
  ∀ l ∈ ls, l.Holds s

@[simp] theorem allHold_nil (s : Interpretation) : AllHold s [] := nofun

@[simp] theorem allHold_cons (s : Interpretation) (l : Literal) (ls : List Literal) :
    AllHold s (l :: ls) ↔ l.Holds s ∧ AllHold s ls := by
  simp [AllHold]

@[simp] theorem allHold_append (s : Interpretation) (ls ms : List Literal) :
    AllHold s (ls ++ ms) ↔ AllHold s ls ∧ AllHold s ms := by
  simp only [AllHold, List.mem_append]
  exact ⟨fun h => ⟨fun l hl => h l (.inl hl), fun l hl => h l (.inr hl)⟩,
    fun h l hl => hl.elim (h.1 l) (h.2 l)⟩

theorem allHold_congr {s s' : Interpretation} {ls : List Literal}
    (h : ∀ l ∈ ls, (l.atom ∈ s ↔ l.atom ∈ s')) : AllHold s ls ↔ AllHold s' ls :=
  forall₂_congr fun l hl => Literal.holds_congr (h l hl)

variable {axioms : Set GroundAxiom} {s N M : Interpretation}

/-- What follows from the atoms of `s` when exactly the atoms of `N` count as
true in negations. -/
inductive Derives (axioms : Set GroundAxiom) (s N : Interpretation) : Atom → Prop where
  | given {a : Atom} (h : a ∈ s) : Derives axioms s N a
  | rule {x : GroundAxiom} (h : x ∈ axioms)
      (positive : ∀ l ∈ x.condition, l.negated = false → Derives axioms s N l.atom)
      (negative : ∀ l ∈ x.condition, l.negated = true → l.atom ∉ N) :
      Derives axioms s N x.effect

def consequences (axioms : Set GroundAxiom) (s N : Interpretation) : Interpretation :=
  {a | Derives axioms s N a}

/-- The certain atoms: the least interpretation that contains all that follows
when negations are read against what is possible. -/
def interpretation (axioms : Set GroundAxiom) (s : Interpretation) : Interpretation :=
  {a | ∀ N, consequences axioms s (consequences axioms s N) ⊆ N → a ∈ N}

/-- The atoms that are possible, given those that are certain. -/
def possible (axioms : Set GroundAxiom) (s : Interpretation) : Interpretation :=
  consequences axioms s (interpretation axioms s)

theorem consequences_anti (h : N ⊆ M) :
    consequences axioms s M ⊆ consequences axioms s N := by
  intro a ha
  induction ha with
  | given ha => exact .given ha
  | rule hx _ negative ih =>
      exact .rule hx ih fun l hl hn hN => negative l hl hn (h hN)

theorem consequences_possible_subset :
    consequences axioms s (possible axioms s) ⊆ interpretation axioms s := by
  intro a ha N hN
  have h : interpretation axioms s ⊆ N := fun b hb => hb N hN
  exact hN (consequences_anti (consequences_anti h) ha)

/-- The certain atoms are those that follow when negations are read against what
is possible. -/
theorem interpretation_eq :
    interpretation axioms s = consequences axioms s (possible axioms s) := by
  refine Set.Subset.antisymm (fun a ha => ha _ ?_) consequences_possible_subset
  exact consequences_anti (consequences_anti consequences_possible_subset)

theorem interpretation_subset_possible :
    interpretation axioms s ⊆ possible axioms s := by
  intro a ha
  apply ha
  have h : consequences axioms s (possible axioms s) = interpretation axioms s :=
    interpretation_eq.symm
  rw [h]
  rfl

/-- An atom that is the effect of some axiom. -/
def IsHead (axioms : Set GroundAxiom) (a : Atom) : Prop :=
  ∃ x ∈ axioms, x.effect = a

theorem mem_consequences_of_not_head {a : Atom} (h : ¬ IsHead axioms a) :
    a ∈ consequences axioms s N ↔ a ∈ s := by
  refine ⟨fun ha => ?_, .given⟩
  cases ha with
  | given ha => exact ha
  | rule hx => exact absurd ⟨_, hx, rfl⟩ h

theorem mem_interpretation_of_not_head {a : Atom} (h : ¬ IsHead axioms a) :
    a ∈ interpretation axioms s ↔ a ∈ s := by
  rw [interpretation_eq]
  exact mem_consequences_of_not_head h

/-- The ranks stratify the axioms of the atoms of `R`: these axioms mention only
atoms of `R` or atoms without axioms, positively on ranks that are not higher and
negatively on lower ones. -/
structure Stratifies (axioms : Set GroundAxiom) (R : Set Atom) (rank : Atom → Nat) : Prop where
  closed : ∀ x ∈ axioms, x.effect ∈ R → ∀ l ∈ x.condition, IsHead axioms l.atom → l.atom ∈ R
  positive : ∀ x ∈ axioms, x.effect ∈ R → ∀ l ∈ x.condition, IsHead axioms l.atom →
    l.negated = false → rank l.atom ≤ rank x.effect
  negative : ∀ x ∈ axioms, x.effect ∈ R → ∀ l ∈ x.condition, IsHead axioms l.atom →
    l.negated = true → rank l.atom < rank x.effect

/-- The closure of an interpretation under the axioms, negations being read
against the interpretation itself, gives back its atoms in `R`. -/
def StableOn (axioms : Set GroundAxiom) (s I : Interpretation) (R : Set Atom) : Prop :=
  (∀ a, ¬ IsHead axioms a → (a ∈ I ↔ a ∈ s)) ∧
    ∀ a ∈ R, (a ∈ I ↔ Derives axioms s I a)

/-- One step of the comparison of two readings of negations that agree below a
rank. -/
theorem Stratifies.derives_transfer {R : Set Atom} {rank : Atom → Nat}
    (h : Stratifies axioms R rank) {k : Nat}
    (below : ∀ b, (IsHead axioms b → b ∈ R ∧ rank b < k) → b ∈ M → b ∈ N)
    {a : Atom} (ha : Derives axioms s N a) (hR : IsHead axioms a → a ∈ R ∧ rank a ≤ k) :
    Derives axioms s M a := by
  induction ha with
  | given ha => exact .given ha
  | @rule x hx _ negative ih =>
      obtain ⟨hxR, hxk⟩ := hR ⟨x, hx, rfl⟩
      refine .rule hx (fun l hl hp => ?_) fun l hl hn hM => ?_
      · exact ih l hl hp fun hd =>
          ⟨h.closed x hx hxR l hl hd, (h.positive x hx hxR l hl hd hp).trans hxk⟩
      · refine negative l hl hn (below _ (fun hd => ?_) hM)
        exact ⟨h.closed x hx hxR l hl hd,
          Nat.lt_of_lt_of_le (h.negative x hx hxR l hl hd hn) hxk⟩

/-- Where axioms are stratified there is only one stable interpretation. -/
theorem StableOn.unique {I J : Interpretation} {R : Set Atom} {rank : Atom → Nat}
    (h : Stratifies axioms R rank) (hI : StableOn axioms s I R) (hJ : StableOn axioms s J R)
    {a : Atom} (ha : IsHead axioms a → a ∈ R) : a ∈ I ↔ a ∈ J := by
  by_cases hd : IsHead axioms a
  · induction hk : rank a using Nat.strong_induction_on generalizing a with
    | _ k ih =>
      have below : ∀ b, (IsHead axioms b → b ∈ R ∧ rank b < k) → (b ∈ I ↔ b ∈ J) := by
        intro b hb
        by_cases hbd : IsHead axioms b
        · exact ih _ (hb hbd).2 (fun _ => (hb hbd).1) hbd rfl
        · rw [hI.1 b hbd, hJ.1 b hbd]
      rw [hI.2 a (ha hd), hJ.2 a (ha hd)]
      exact ⟨fun hder => h.derives_transfer (fun b hb => (below b hb).2) hder
          fun hd => ⟨ha hd, hk.le⟩,
        fun hder => h.derives_transfer (fun b hb => (below b hb).1) hder
          fun hd => ⟨ha hd, hk.le⟩⟩
  · rw [hI.1 a hd, hJ.1 a hd]

/-- Where axioms are stratified nothing is merely possible. -/
theorem Stratifies.possible_subset {R : Set Atom} {rank : Atom → Nat}
    (h : Stratifies axioms R rank) {a : Atom} (ha : IsHead axioms a → a ∈ R)
    (hp : a ∈ possible axioms s) : a ∈ interpretation axioms s := by
  by_cases hd : IsHead axioms a
  · induction hk : rank a using Nat.strong_induction_on generalizing a with
    | _ k ih =>
      rw [interpretation_eq]
      refine h.derives_transfer (fun b hb hbp => ?_) hp fun hd => ⟨ha hd, hk.le⟩
      by_cases hbd : IsHead axioms b
      · exact ih _ (hb hbd).2 (fun _ => (hb hbd).1) hbp hbd rfl
      · rw [mem_interpretation_of_not_head hbd]
        exact (mem_consequences_of_not_head hbd).mp hbp
  · rw [mem_interpretation_of_not_head hd]
    exact (mem_consequences_of_not_head hd).mp hp

/-- The well-founded model is stable where axioms are stratified. -/
theorem Stratifies.stableOn {R : Set Atom} {rank : Atom → Nat}
    (h : Stratifies axioms R rank) : StableOn axioms s (interpretation axioms s) R := by
  refine ⟨fun a ha => mem_interpretation_of_not_head ha, fun a ha => ?_⟩
  refine ⟨fun hi => interpretation_subset_possible hi, fun hder => ?_⟩
  exact h.possible_subset (fun _ => ha) hder

/-!
### Agreement of two sets of axioms

The models of two sets of axioms agree on a set of atoms if what follows from them does, whenever
negations are read against interpretations that agree there. The other atoms have to be fixed in the
first of them.
-/

section Agreement

variable {axioms axioms' : Set GroundAxiom} {s s' N N' : Interpretation} {R fixed : Set Atom}

/-- The same atoms of a set are true. -/
def AgreeOn (R : Set Atom) (I J : Interpretation) : Prop := ∀ a ∈ R, a ∈ I ↔ a ∈ J

/-- Outside of a set exactly the fixed atoms are true. -/
def FixedOutside (R fixed : Set Atom) (I : Interpretation) : Prop :=
  ∀ a, a ∉ R → (a ∈ I ↔ a ∈ fixed)

/-- Completes what is true in a set by the fixed atoms outside of it. -/
def fillOutside (R fixed : Set Atom) (I : Interpretation) : Interpretation :=
  {a | a ∈ R ∧ a ∈ I ∨ a ∉ R ∧ a ∈ fixed}

theorem fixedOutside_fillOutside (I : Interpretation) :
    FixedOutside R fixed (fillOutside R fixed I) := by
  intro a ha
  simp [fillOutside, ha]

theorem agreeOn_fillOutside (I : Interpretation) : AgreeOn R (fillOutside R fixed I) I := by
  intro a ha
  simp [fillOutside, ha]

/-- The models agree if each step of the readings of negations does. -/
theorem agreeOn_interpretation
    (hfixed : ∀ N, FixedOutside R fixed (consequences axioms s N))
    (hstep : ∀ N N', FixedOutside R fixed N → AgreeOn R N N' →
      AgreeOn R (consequences axioms s N) (consequences axioms' s' N')) :
    AgreeOn R (interpretation axioms s) (interpretation axioms' s') := by
  have htwice : ∀ {N N'}, FixedOutside R fixed N → AgreeOn R N N' →
      AgreeOn R (consequences axioms s (consequences axioms s N))
        (consequences axioms' s' (consequences axioms' s' N')) := fun hN hagree =>
    hstep _ _ (hfixed _) (hstep _ _ hN hagree)
  intro a ha
  constructor
  · intro hmem N' hN'
    -- what is closed under the second axioms is closed under the first ones when it is completed
    have hN : FixedOutside R fixed (fillOutside R fixed N') := fixedOutside_fillOutside N'
    have hagree : AgreeOn R (fillOutside R fixed N') N' := agreeOn_fillOutside N'
    refine (hagree a ha).mp (hmem _ fun b hb => ?_)
    by_cases hbR : b ∈ R
    · exact (hagree b hbR).mpr (hN' ((htwice hN hagree b hbR).mp hb))
    · exact (hN b hbR).mpr ((hfixed _ b hbR).mp hb)
  · intro hmem
    have hmodel : interpretation axioms s =
        consequences axioms s (consequences axioms s (interpretation axioms s)) := interpretation_eq
    have hW : FixedOutside R fixed (interpretation axioms s) := by
      rw [hmodel]
      exact hfixed _
    have hagree : AgreeOn R (interpretation axioms s) {b | b ∈ R → b ∈ interpretation axioms s} :=
      fun b hb => ⟨fun h _ => h, fun h => h hb⟩
    refine hmem {b | b ∈ R → b ∈ interpretation axioms s} (fun b hb hbR => ?_) ha
    rw [hmodel]
    exact (htwice hW hagree b hbR).mpr hb

/-- Axioms with the same consequences have the same model. -/
theorem interpretation_congr (h : ∀ N, consequences axioms s N = consequences axioms' s N) :
    interpretation axioms s = interpretation axioms' s := by
  simp only [interpretation, h]

end Agreement

namespace GroundAction

variable (a : GroundAction) (s : Interpretation)

def Applicable : Prop := AllHold s a.precondition

/-- The atoms that are set by the effects of a list whose conditions hold. -/
def triggered (effects : List ConditionalEffect) (s : Interpretation) : Interpretation :=
  {b | ∃ x ∈ effects, AllHold s x.condition ∧ x.atom = b}

/-- What is true after the action, derived atoms being left as they are. -/
def successor : Interpretation :=
  triggered a.adds s ∪ s \ triggered a.deletes s

theorem mem_successor {b : Atom} :
    b ∈ a.successor s ↔ b ∈ triggered a.adds s ∨ b ∈ s ∧ b ∉ triggered a.deletes s :=
  Iff.rfl

theorem mem_successor_of_untouched {b : Atom} (hadd : ∀ x ∈ a.adds, x.atom ≠ b)
    (hdel : ∀ x ∈ a.deletes, x.atom ≠ b) : b ∈ a.successor s ↔ b ∈ s := by
  rw [mem_successor]
  constructor
  · rintro (⟨x, hx, _, rfl⟩ | h)
    · exact absurd rfl (hadd x hx)
    · exact h.1
  · exact fun h => .inr ⟨h, fun ⟨x, hx, _, he⟩ => hdel x hx he⟩

end GroundAction

namespace PropositionalTask

variable (t : PropositionalTask)

/-- The atoms that have a layer or an axiom. -/
def IsDerived (a : Atom) : Prop :=
  a ∈ t.axioms.layers.map (·.1) ∨ a ∈ t.axioms.axioms.map (·.effect)

/-- The state with the given values of the atoms that are not derived. -/
def complete (s : Interpretation) : Interpretation :=
  interpretation {x | x ∈ t.axioms.axioms} {a ∈ s | ¬ t.IsDerived a}

theorem mem_complete_of_not_derived {s : Interpretation} {a : Atom} (h : ¬ t.IsDerived a) :
    a ∈ t.complete s ↔ a ∈ s := by
  have hh : ¬ IsHead {x | x ∈ t.axioms.axioms} a := fun ⟨x, hx, he⟩ =>
    h (.inr (List.mem_map.mpr ⟨x, hx, he⟩))
  rw [complete, mem_interpretation_of_not_head hh]
  exact ⟨fun h => h.1, fun ha => ⟨ha, h⟩⟩

def initialState : Interpretation := t.complete {a | a ∈ t.init}

inductive Reachable : Interpretation → Prop where
  | init : Reachable t.initialState
  | step {s : Interpretation} {a : GroundAction} (hs : Reachable s) (ha : a ∈ t.actions)
      (happ : a.Applicable s) : Reachable (t.complete (a.successor s))

def Solvable : Prop := ∃ s, t.Reachable s ∧ AllHold s t.goal

end PropositionalTask
end FinitePlanning
