import FinitePlanning.Proofs.Semantics.Derivation
import FinitePlanning.Proofs.Semantics.Saturation
import FinitePlanning.Proofs.Stratification.Antichain
import FinitePlanning.Proofs.Stratification.LeastLayers

/-!
Evaluation of the axioms that remain. Layer by layer they give each atom that has a layer the value
that it has in the model of all given axioms.
-/

namespace FinitePlanning
namespace StratifiedAxioms

variable {s : StratifiedAxioms} {axioms : List GroundAxiom} {I J : Interpretation} {a : Atom}
  {n m : Nat}

/-- The derived atoms that have a layer. -/
def keys (s : StratifiedAxioms) : Set Atom := {a | a ∈ s.layers.map (·.1)}

theorem mem_keys : a ∈ s.keys ↔ ∃ n, (a, n) ∈ s.layers := by
  simp [keys]

/-- The axioms are among given ones. They suffice for the atoms that have a layer, and the layers
respect what the given axioms of these atoms require. -/
structure IsReduction (s : StratifiedAxioms) (axioms : List GroundAxiom) : Prop where
  unique : (s.layers.map (·.1)).Nodup
  head : ∀ a ∈ s.keys, IsHead {x | x ∈ axioms} a
  sound : ∀ x ∈ s.axioms, x.effect ∈ s.keys ∧
    ∃ y ∈ axioms, y.effect = x.effect ∧ ∀ l, l ∈ y.condition ↔ l ∈ x.condition
  complete : ∀ y ∈ axioms, y.effect ∈ s.keys → y.effect.positive ∈ y.condition ∨
    ∃ x ∈ s.axioms, x.effect = y.effect ∧ ∀ l ∈ x.condition, l ∈ y.condition
  layered : ∀ y ∈ axioms, ∀ n, (y.effect, n) ∈ s.layers → ∀ l ∈ y.condition,
    IsHead {x | x ∈ axioms} l.atom →
      ∃ m, (l.atom, m) ∈ s.layers ∧ m ≤ n ∧ (l.negated = true → m < n)

namespace IsReduction

/-- What is true before the first layer is evaluated. -/
abbrev start (axioms : List GroundAxiom) (I : Interpretation) : Interpretation :=
  {a ∈ I | ¬ IsHead {x | x ∈ axioms} a}

theorem layer_eq (h : s.IsReduction axioms) (hn : (a, n) ∈ s.layers) (hm : (a, m) ∈ s.layers) :
    n = m := by
  have hlookup := lookup_eq_some_of_nodup h.unique hn
  exact Option.some.inj (hlookup.symm.trans (lookup_eq_some_of_nodup h.unique hm))

/-- The layer of an atom, if it has one. -/
def rank (s : StratifiedAxioms) (a : Atom) : Nat := (s.layers.lookup a).getD 0

theorem rank_eq (h : s.IsReduction axioms) (hn : (a, n) ∈ s.layers) : rank s a = n := by
  rw [rank, lookup_eq_some_of_nodup h.unique hn]
  rfl

/-- The layers stratify the given axioms of the atoms that have one. -/
theorem stratifies (h : s.IsReduction axioms) :
    Stratifies {x | x ∈ axioms} s.keys (rank s) := by
  have hall : ∀ y ∈ axioms, y.effect ∈ s.keys → ∀ l ∈ y.condition, IsHead {x | x ∈ axioms} l.atom →
      l.atom ∈ s.keys ∧ rank s l.atom ≤ rank s y.effect ∧
        (l.negated = true → rank s l.atom < rank s y.effect) := by
    intro y hy hkey l hl hhead
    obtain ⟨n, hn⟩ := mem_keys.mp hkey
    obtain ⟨m, hm, hle, hlt⟩ := h.layered y hy n hn l hl hhead
    rw [h.rank_eq hn, h.rank_eq hm]
    exact ⟨mem_keys.mpr ⟨m, hm⟩, hle, hlt⟩
  exact ⟨fun y hy hkey l hl hhead => (hall y hy hkey l hl hhead).1,
    fun y hy hkey l hl hhead _ => (hall y hy hkey l hl hhead).2.1,
    fun y hy hkey l hl hhead => (hall y hy hkey l hl hhead).2.2⟩

theorem layered_axiomsOf (h : s.IsReduction axioms) {x : GroundAxiom} (hx : x ∈ s.axiomsOf n)
    {l : Literal} (hl : l ∈ x.condition) (hhead : IsHead {x | x ∈ axioms} l.atom) :
    ∃ m, (l.atom, m) ∈ s.layers ∧ m ≤ n ∧ (l.negated = true → m < n) := by
  obtain ⟨hx, hn⟩ := s.mem_axiomsOf.mp hx
  obtain ⟨-, y, hy, he, hsame⟩ := h.sound x hx
  exact h.layered y hy n (he ▸ hn) l ((hsame l).mpr hl) hhead

theorem areMonotone_axiomsOf (h : s.IsReduction axioms) (n : Nat) :
    GroundAxiom.AreMonotone (s.axiomsOf n) := by
  intro x hx l hl hnegated y hy he
  obtain ⟨hy, hyn⟩ := s.mem_axiomsOf.mp hy
  have hhead := h.head y.effect (h.sound y hy).1
  obtain ⟨m, hm, -, hlt⟩ := h.layered_axiomsOf hx hl (he ▸ hhead)
  exact Nat.ne_of_lt (hlt hnegated) (h.layer_eq hm (he ▸ hyn))

/-- Each layer is evaluated once. Before, no atom of it or of a higher layer is true, and afterwards
none of it or of a lower layer becomes true. -/
theorem exists_saturates (h : s.Evaluates (start axioms I) J) (hn : n ∈ s.layerNumbers) :
    ∃ K L, Saturates (s.axiomsOf n) K L ∧ start axioms I ⊆ K ∧ L ⊆ J ∧
      (∀ a ∈ K, a ∈ start axioms I ∨ ∃ m < n, (a, m) ∈ s.layers) ∧
      ∀ a ∈ J, a ∈ L ∨ ∃ m, n < m ∧ (a, m) ∈ s.layers := by
  obtain ⟨front, rest, hnumbers⟩ := List.append_of_mem hn
  have hsorted : s.layerNumbers.Pairwise (· < ·) := pairwise_orderedSet
  rw [hnumbers, List.pairwise_append, List.pairwise_cons] at hsorted
  rw [Evaluates, hnumbers, List.map_append, List.map_cons] at h
  obtain ⟨K, hfront, hrest⟩ := h.split
  cases hrest with
  | @cons _ _ _ L _ hlayer hrest =>
      refine ⟨K, L, hlayer, hfront.subset, hrest.subset, fun a ha => ?_, fun a ha => ?_⟩
      · refine (hfront.mem_or ha).imp_right fun ⟨rules, hrules, x, hx, he⟩ => ?_
        obtain ⟨m, hm, rfl⟩ := List.mem_map.mp hrules
        exact ⟨m, hsorted.2.2 m hm n List.mem_cons_self, he ▸ (s.mem_axiomsOf.mp hx).2⟩
      · refine (hrest.mem_or ha).imp_right fun ⟨rules, hrules, x, hx, he⟩ => ?_
        obtain ⟨m, hm, rfl⟩ := List.mem_map.mp hrules
        exact ⟨m, hsorted.2.1.1 m hm, he ▸ (s.mem_axiomsOf.mp hx).2⟩

theorem mem_iff_of_not_head (h : s.IsReduction axioms) (hJ : s.Evaluates (start axioms I) J)
    (ha : ¬ IsHead {x | x ∈ axioms} a) : a ∈ J ↔ a ∈ start axioms I := by
  refine ⟨fun hmem => ?_, fun hmem => hJ.subset hmem⟩
  refine (hJ.mem_or hmem).resolve_right fun ⟨rules, hrules, x, hx, he⟩ => ?_
  obtain ⟨n, -, rfl⟩ := List.mem_map.mp hrules
  exact ha (he ▸ h.head _ (h.sound x (s.mem_axiomsOf.mp hx).1).1)

/-- What becomes true follows from the given axioms. -/
theorem derives (h : s.IsReduction axioms) (hJ : s.Evaluates (start axioms I) J)
    (hn : (a, n) ∈ s.layers) (ha : a ∈ J) : Derives {x | x ∈ axioms} (start axioms I) J a := by
  induction n using Nat.strongRecOn generalizing a with
  | _ n ih =>
      obtain ⟨K, L, hlayer, -, hLJ, hbefore, hafter⟩ :=
        exists_saturates hJ (s.mem_layerNumbers.mpr ⟨a, hn⟩)
      have hL : a ∈ L := (hafter a ha).resolve_right fun ⟨m, hlt, hm⟩ =>
        Nat.ne_of_lt hlt (h.layer_eq hn hm)
      rw [(h.areMonotone_axiomsOf n).eq_consequences hlayer] at hL
      clear hn ha
      induction hL with
      | given hK =>
          rcases hbefore _ hK with hstart | ⟨m, hlt, hm⟩
          · exact .given hstart
          · exact ih m hlt hm (hLJ (hlayer.subset hK))
      | @rule x hx _ negative ihRule =>
          obtain ⟨hxs, hxn⟩ := s.mem_axiomsOf.mp hx
          obtain ⟨-, y, hy, he, hsame⟩ := h.sound x hxs
          rw [← he]
          refine .rule hy (fun l hl hpositive => ihRule l ((hsame l).mp hl) hpositive)
            fun l hl hnegated hlJ => ?_
          have hlx := (hsame l).mp hl
          have hlL : l.atom ∈ L := by
            refine (hafter _ hlJ).resolve_right fun ⟨k, hlt, hk⟩ => ?_
            obtain ⟨m, hm, hle, -⟩ := h.layered_axiomsOf hx hlx (h.head _ (mem_keys.mpr ⟨k, hk⟩))
            exact Nat.not_le.mpr hlt (h.layer_eq hm hk ▸ hle)
          exact (h.areMonotone_axiomsOf n).not_mem hlayer hx hlx hnegated
            (negative l hlx hnegated) hlL

/-- In the end the axioms have no further effect. -/
theorem closed (h : s.IsReduction axioms) (hJ : s.Evaluates (start axioms I) J) {x : GroundAxiom}
    (hx : x ∈ s.axioms) (hc : AllHold J x.condition) : x.effect ∈ J := by
  obtain ⟨n, hn⟩ := mem_keys.mp (h.sound x hx).1
  have hxn := s.mem_axiomsOf.mpr ⟨hx, hn⟩
  obtain ⟨K, L, hlayer, -, hLJ, -, hafter⟩ :=
    exists_saturates hJ (s.mem_layerNumbers.mpr ⟨x.effect, hn⟩)
  refine hLJ (hlayer.closed hxn fun l hl => (Literal.holds_congr ⟨fun hmem => hLJ hmem,
    fun hmem => ?_⟩).mpr (hc l hl))
  refine (hafter _ hmem).resolve_right fun ⟨k, hlt, hk⟩ => ?_
  obtain ⟨m, hm, hle, -⟩ := h.layered_axiomsOf hxn hl (h.head _ (mem_keys.mpr ⟨k, hk⟩))
  exact Nat.not_le.mpr hlt (h.layer_eq hm hk ▸ hle)

/-- What follows from the given axioms becomes true. -/
theorem mem_of_derives (h : s.IsReduction axioms) (hJ : s.Evaluates (start axioms I) J)
    (hder : Derives {x | x ∈ axioms} (start axioms I) J a)
    (ha : IsHead {x | x ∈ axioms} a → a ∈ s.keys) : a ∈ J := by
  induction hder with
  | given hstart => exact hJ.subset hstart
  | @rule y hy _ negative ih =>
      have hkey := ha ⟨y, hy, rfl⟩
      obtain ⟨n, hn⟩ := mem_keys.mp hkey
      have hpositive : ∀ l ∈ y.condition, l.negated = false → l.atom ∈ J := fun l hl hl' =>
        ih l hl hl' fun hhead => by
          obtain ⟨m, hm, -⟩ := h.layered y hy n hn l hl hhead
          exact mem_keys.mpr ⟨m, hm⟩
      rcases h.complete y hy hkey with hcircular | ⟨x, hx, he, hcondition⟩
      · exact hpositive _ hcircular rfl
      · rw [← he]
        refine h.closed hJ hx fun l hl => ?_
        have hly := hcondition l hl
        cases hnegated : l.negated with
        | false =>
            rw [Literal.Holds, hnegated, if_neg Bool.false_ne_true]
            exact hpositive l hly hnegated
        | true =>
            rw [Literal.Holds, hnegated, if_pos rfl]
            exact negative l hly hnegated

/-- The result is stable under all given axioms, as far as atoms have a layer. -/
theorem stableOn (h : s.IsReduction axioms) (hJ : s.Evaluates (start axioms I) J) :
    StableOn {x | x ∈ axioms} (start axioms I) J s.keys := by
  refine ⟨fun a ha => h.mem_iff_of_not_head hJ ha, fun a ha => ⟨fun hmem => ?_, fun hder =>
    h.mem_of_derives hJ hder fun _ => ha⟩⟩
  obtain ⟨n, hn⟩ := mem_keys.mp ha
  exact h.derives hJ hn hmem

/-- Atoms with a layer get the value that they have in the model of all given axioms. -/
theorem mem_iff (h : s.IsReduction axioms) (hJ : s.Evaluates (start axioms I) J)
    (ha : IsHead {x | x ∈ axioms} a → a ∈ s.keys) :
    a ∈ J ↔ a ∈ interpretation {x | x ∈ axioms} (start axioms I) :=
  (h.stableOn hJ).unique h.stratifies h.stratifies.stableOn ha

/-- The axioms that remain, with one more for each atom with a layer that requires the atom itself.
So exactly these atoms have axioms, while nothing more follows. -/
def withCircular (s : StratifiedAxioms) : List GroundAxiom :=
  s.axioms ++ s.layers.map fun p => ⟨"", [p.1.positive], p.1⟩

theorem mem_withCircular {x : GroundAxiom} : x ∈ withCircular s ↔
    x ∈ s.axioms ∨ ∃ a ∈ s.keys, x = ⟨"", [a.positive], a⟩ := by
  rw [withCircular, List.mem_append, List.mem_map]
  refine or_congr_right ⟨?_, ?_⟩
  · rintro ⟨p, hp, rfl⟩
    exact ⟨p.1, List.mem_map_of_mem hp, rfl⟩
  · rintro ⟨a, ha, rfl⟩
    obtain ⟨p, hp, rfl⟩ := List.mem_map.mp ha
    exact ⟨p, hp, rfl⟩

theorem isHead_withCircular (h : s.IsReduction axioms) :
    IsHead {x | x ∈ withCircular s} a ↔ a ∈ s.keys := by
  constructor
  · rintro ⟨x, hx, rfl⟩
    rcases mem_withCircular.mp hx with hx | ⟨b, hb, rfl⟩
    · exact (h.sound x hx).1
    · exact hb
  · exact fun ha => ⟨_, mem_withCircular.mpr (.inr ⟨a, ha, rfl⟩), rfl⟩

theorem isReduction_withCircular (h : s.IsReduction axioms) :
    s.IsReduction (withCircular s) where
  unique := h.unique
  head _ ha := h.isHead_withCircular.mpr ha
  sound x hx := ⟨(h.sound x hx).1, x, mem_withCircular.mpr (.inl hx), rfl, fun _ => Iff.rfl⟩
  complete y hy _ := by
    rcases mem_withCircular.mp hy with hy | ⟨b, -, rfl⟩
    · exact .inr ⟨y, hy, rfl, fun _ => id⟩
    · exact .inl (List.mem_singleton_self _)
  layered y hy n hn l hl hhead := by
    rcases mem_withCircular.mp hy with hy | ⟨b, -, rfl⟩
    · exact h.layered_axiomsOf (s.mem_axiomsOf.mpr ⟨hy, hn⟩) hl
        (h.head _ (h.isHead_withCircular.mp hhead))
    · obtain rfl := List.mem_singleton.mp hl
      exact ⟨n, hn, Nat.le_refl n, fun hnegated => absurd hnegated Bool.false_ne_true⟩

theorem consequences_withCircular (I N : Interpretation) :
    consequences {x | x ∈ withCircular s} I N = consequences {x | x ∈ s.axioms} I N := by
  refine Set.Subset.antisymm (fun a ha => ?_) fun a ha => ?_
  · induction ha with
    | given ha => exact .given ha
    | rule hx _ negative ih =>
        rcases mem_withCircular.mp hx with hx | ⟨b, -, rfl⟩
        · exact .rule hx ih negative
        · exact ih _ (List.mem_singleton_self _) rfl
  · induction ha with
    | given ha => exact .given ha
    | rule hx _ negative ih => exact .rule (mem_withCircular.mpr (.inl hx)) ih negative

/-- The result is the model of the axioms that remain. -/
theorem eq_interpretation (h : s.IsReduction axioms) (hI : ∀ a ∈ I, a ∉ s.keys)
    (hJ : s.Evaluates I J) : J = interpretation {x | x ∈ s.axioms} I := by
  have hstart : start (withCircular s) I = I :=
    Set.sep_eq_self_iff_mem_true.mpr fun a ha hhead => hI a ha (h.isHead_withCircular.mp hhead)
  rw [← hstart] at hJ
  rw [← interpretation_congr (consequences_withCircular I)]
  refine Set.ext fun a => ?_
  rw [h.isReduction_withCircular.mem_iff hJ h.isHead_withCircular.mp, hstart]

/-- Atoms that have a layer, if they have an axiom, are true in the model of the axioms that remain
if they are in that of the given axioms. -/
theorem mem_interpretation_iff (h : s.IsReduction axioms)
    (hI : ∀ a ∈ I, ¬ IsHead {x | x ∈ axioms} a)
    (ha : IsHead {x | x ∈ axioms} a → a ∈ s.keys) :
    a ∈ interpretation {x | x ∈ s.axioms} I ↔ a ∈ interpretation {x | x ∈ axioms} I := by
  have hstart : start axioms I = I := Set.sep_eq_self_iff_mem_true.mpr hI
  obtain ⟨J, hJ⟩ := SaturatesAll.exists_saturatesAll (s.layerNumbers.map s.axiomsOf) I
  rw [← h.eq_interpretation (fun a ha hkey => hI a ha (h.head a hkey)) hJ, ← hstart]
  exact h.mem_iff (hstart.symm ▸ hJ) ha

end IsReduction
variable {actions : List GroundAction} {goal uses : List Literal} {strategy : LayerStrategy}

theorem mem_keys_layered (h : IsAccepted (relevantAxioms axioms uses)) :
    a ∈ (layered (relevantAxioms axioms uses) strategy).keys ↔ IsRelevant axioms uses a :=
  (mem_map_layers_layered h).trans isHead_relevantAxioms

/-- Neither the choice of relevant axioms nor their simplification loses anything that matters to
the atoms that have a layer. -/
theorem isReduction_layered (h : IsAccepted (relevantAxioms axioms uses)) :
    (layered (relevantAxioms axioms uses) strategy).IsReduction axioms := by
  refine ⟨(isStratified_layered h).unique, fun a ha => ((mem_keys_layered h).mp ha).isHead, fun x hx => ?_,
    fun y hy hkey => ?_, fun y hy n hn l hl hhead => ?_⟩
  · obtain ⟨y, hy, rfl⟩ := exists_of_mem_axioms_layered h hx
    obtain ⟨hy, hrelevant⟩ := mem_relevantAxioms.mp hy
    exact ⟨(mem_keys_layered h).mpr hrelevant, y, hy, rfl, fun l =>
      GroundAxiom.mem_condition_ordered.symm⟩
  · refine Classical.or_iff_not_imp_left.mpr fun hcircular => ?_
    have hrelevant := mem_relevantAxioms.mpr ⟨hy, (mem_keys_layered h).mp hkey⟩
    have hfiltered : y ∈ (relevantAxioms axioms uses).filter (·.effect = y.effect) :=
      List.mem_filter.mpr ⟨hrelevant, decide_eq_true rfl⟩
    obtain ⟨x, hx, hcondition⟩ := GroundAxiom.exists_mem_simplify hfiltered hcircular
    refine ⟨x, (mem_axioms_layered h).mpr ⟨y.effect, ⟨y, hrelevant, rfl⟩, hx⟩, ?_, hcondition⟩
    obtain ⟨z, hz, rfl⟩ := GroundAxiom.exists_of_mem_simplify hx
    exact of_decide_eq_true (List.mem_filter.mp hz).2
  · -- the layers were chosen before the axioms were simplified
    have hrelevant := (mem_keys_layered h).mp (mem_keys.mpr ⟨n, hn⟩)
    have hdep : DependsOn axioms l.negated y.effect l.atom :=
      ⟨hhead, y, hy, rfl, l, hl, rfl, rfl⟩
    obtain ⟨m, hm⟩ := mem_keys.mp ((mem_keys_layered h).mpr (hrelevant.dependsOn hdep))
    exact ⟨m, hm, layer_le_of_mem_condition h (mem_relevantAxioms.mpr ⟨hy, hrelevant⟩) hl hn hm⟩

/-- The axioms that remain are a reduction of the given ones, and have the derived atoms that occur
in the goal and in the actions. -/
theorem isReduction_of_yields (h : (compute actions axioms goal strategy).Yields s) :
    s.IsReduction axioms ∧ ∀ l ∈ goal ++ actions.flatMap (·.conditionLiterals),
      IsHead {x | x ∈ axioms} l.atom → l.atom ∈ s.keys := by
  obtain ⟨haccepted, rfl⟩ := eq_layered_of_yields h
  exact ⟨isReduction_layered haccepted, fun l hl hhead =>
    (mem_keys_layered haccepted).mpr (isRelevant_of_mem hl hhead)⟩

/-- The axioms that remain give the literals of the goal and of the actions the values that they
have in the model of all axioms, in whatever order the axioms of a layer are fired. -/
theorem compute_keeps_values (h : (compute actions axioms goal strategy).Yields s) :
    (∀ l ∈ goal ++ actions.flatMap (·.conditionLiterals),
      IsHead {x | x ∈ axioms} l.atom → l.atom ∈ s.keys) ∧
    (∀ n K L L', Saturates (s.axiomsOf n) K L → Saturates (s.axiomsOf n) K L' → L = L') ∧
    ∀ I : Interpretation,
      (∃ J, s.Evaluates {a ∈ I | ¬ IsHead {x | x ∈ axioms} a} J) ∧
      ∀ J, s.Evaluates {a ∈ I | ¬ IsHead {x | x ∈ axioms} a} J →
        (∀ a ∈ s.keys, a ∈ J ↔
          a ∈ interpretation {x | x ∈ axioms} {a ∈ I | ¬ IsHead {x | x ∈ axioms} a}) ∧
        (∀ M, StableOn {x | x ∈ axioms} {a ∈ I | ¬ IsHead {x | x ∈ axioms} a} M s.keys →
          ∀ a ∈ s.keys, a ∈ J ↔ a ∈ M) ∧
        ∀ l ∈ goal ++ actions.flatMap (·.conditionLiterals), l.Holds J ↔
          l.Holds (interpretation {x | x ∈ axioms} {a ∈ I | ¬ IsHead {x | x ∈ axioms} a}) := by
  obtain ⟨haccepted, rfl⟩ := eq_layered_of_yields h
  have hreduction : (layered (relevantAxioms axioms
      (goal ++ actions.flatMap (·.conditionLiterals))) strategy).IsReduction axioms :=
    isReduction_layered haccepted
  have huses : ∀ l ∈ goal ++ actions.flatMap (·.conditionLiterals),
      IsHead {x | x ∈ axioms} l.atom → l.atom ∈ (layered (relevantAxioms axioms
        (goal ++ actions.flatMap (·.conditionLiterals))) strategy).keys := fun l hl hhead =>
    (mem_keys_layered haccepted).mpr (isRelevant_of_mem hl hhead)
  refine ⟨huses, fun n K L L' hL hL' => (hreduction.areMonotone_axiomsOf n).unique hL hL',
    fun I => ⟨SaturatesAll.exists_saturatesAll _ _, fun J hJ => ⟨fun a ha =>
      hreduction.mem_iff hJ fun _ => ha, fun M hM a ha => ?_, fun l hl => ?_⟩⟩⟩
  · exact (hreduction.stableOn hJ).unique hreduction.stratifies hM fun _ => ha
  · exact Literal.holds_congr (hreduction.mem_iff hJ (huses l hl))

/-- With the switch on the lamp is lit and it is not dark. -/
theorem allHold_lamp (hon : ⟨.named "on", []⟩ ∈ I) (hdark : ⟨.named "dark", []⟩ ∉ I) :
    AllHold (interpretation {x | x ∈ lamp} I)
      [⟨⟨.named "lit", []⟩, false⟩, ⟨⟨.named "dark", []⟩, true⟩] := by
  have hstep : ∀ N, ∀ x ∈ lamp, (∀ l ∈ x.condition, l.negated = false ∧
      Derives {x | x ∈ lamp} I N l.atom) → Derives {x | x ∈ lamp} I N x.effect := by
    intro N x hx hcondition
    refine .rule hx (fun l hl _ => (hcondition l hl).2) fun l hl hnegated => ?_
    rw [(hcondition l hl).1] at hnegated
    cases hnegated
  have hlit : ∀ N, Derives {x | x ∈ lamp} I N ⟨.named "lit", []⟩ := fun N =>
    hstep N _ (List.mem_of_getElem? (i := 1) rfl) (List.forall_mem_singleton.mpr ⟨rfl,
      hstep N _ (List.mem_of_getElem? (i := 0) rfl) (List.forall_mem_singleton.mpr ⟨rfl,
        .given hon⟩)⟩)
  have hrequires : ∀ x ∈ lamp, x.effect = ⟨.named "dark", []⟩ →
      ⟨⟨.named "lit", []⟩, true⟩ ∈ x.condition := by decide
  have hdarkness : ∀ a, Derives {x | x ∈ lamp} I (possible {x | x ∈ lamp} I) a →
      a ≠ ⟨.named "dark", []⟩ := by
    intro a ha he
    cases ha with
    | given ha => exact hdark (he ▸ ha)
    | rule hx _ hnegative => exact hnegative _ (hrequires _ hx he) rfl (hlit _)
  rw [interpretation_eq]
  refine List.forall_mem_cons.mpr ⟨hlit _, List.forall_mem_singleton.mpr fun hmem => ?_⟩
  exact hdarkness _ hmem rfl

theorem lamp_keeps_values :
    ∃ s, (compute [] lamp [⟨⟨.named "lit", []⟩, false⟩, ⟨⟨.named "dark", []⟩, true⟩] .min).Yields s ∧
      ∀ I : Interpretation, ⟨.named "on", []⟩ ∈ I →
        ∃ J, s.Evaluates {a ∈ I | ¬ IsHead {x | x ∈ lamp} a} J ∧
          AllHold J [⟨⟨.named "lit", []⟩, false⟩, ⟨⟨.named "dark", []⟩, true⟩] := by
  have haccepted : IsAccepted (relevantAxioms lamp
      ([⟨⟨.named "lit", []⟩, false⟩, ⟨⟨.named "dark", []⟩, true⟩] ++
        ([] : List GroundAction).flatMap (·.conditionLiterals))) :=
    (isAccepted_iff lamp).mpr isLayerAssignment_lampLayer.not_hasNegativeCycle
  obtain ⟨s, hyields⟩ : ∃ s, (compute [] lamp
      [⟨⟨.named "lit", []⟩, false⟩, ⟨⟨.named "dark", []⟩, true⟩] .min).Yields s :=
    ⟨_, (gives_compute_of_isAccepted haccepted).yields⟩
  refine ⟨s, hyields, fun I hon => ?_⟩
  obtain ⟨-, -, hvalues⟩ := compute_keeps_values hyields
  obtain ⟨⟨J, hJ⟩, hall⟩ := hvalues I
  have hnothead : ∀ x ∈ lamp, x.effect ≠ ⟨.named "on", []⟩ := by decide
  have hmodel := allHold_lamp (I := {a ∈ I | ¬ IsHead {x | x ∈ lamp} a})
    ⟨hon, fun ⟨x, hx, he⟩ => hnothead x hx he⟩
    fun hmem => hmem.2 ⟨_, List.mem_of_getElem? (i := 3) rfl, rfl⟩
  exact ⟨J, hJ, fun l hl => ((hall J hJ).2.2 l (List.mem_append_left _ hl)).mpr (hmodel l hl)⟩

end StratifiedAxioms
end FinitePlanning
