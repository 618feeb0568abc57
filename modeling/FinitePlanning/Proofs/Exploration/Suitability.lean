import FinitePlanning.Proofs.Encoding.Simulation
import FinitePlanning.Proofs.Exploration.Explored
import FinitePlanning.Proofs.Exploration.Refinement
import FinitePlanning.Proofs.Invariant.Cover

/-!
The fact groups that are computed suit the ground task if they are exclusive in its states. What is
exclusive in the states of the task is exclusive in those of the ground task, since only atoms that
may change are in the groups.
-/

namespace FinitePlanning
namespace GroundTask

open Datalog FiniteDomain

variable {t : Task} {K : Set Mention} {g : GroundTask} {groups : FactGroups} {o : Options}
  {budget : Budget} {goal : List Literal} {axioms : StratifiedAxioms}

/-! ### Instances -/

/-- A ground task is made of instances of the actions, the axioms and the goal of a task. -/
structure IsInstantiated (t : Task) (g : GroundTask) : Prop where
  actions : ∀ x ∈ g.actions, ∃ a args, (grounding t g.atoms).action? a args = .ok (some x)
  axioms : ∀ x ∈ g.axioms, ∃ y ∈ default :: t.axioms, ∃ args,
    (grounding t g.atoms).axiomInstance? y args = some x
  goal : ∀ goal, g.goal = some goal → (grounding t g.atoms).condition? [] t.goal = some goal

theorem isInstantiated_of_yields (h : (explore t budget).Yields g) : g.IsInstantiated t := by
  obtain ⟨model, -, h⟩ := Compilation.yields_bind h
  rw [ofModel] at h
  split at h
  next =>
    obtain ⟨-, -, h⟩ := Compilation.yields_bind h
    obtain rfl := Compilation.yields_pure h
    refine ⟨fun x hx => absurd hx List.not_mem_nil, fun x hx => absurd hx List.not_mem_nil,
      fun goal hgoal => ?_⟩
    cases hgoal
  next =>
    obtain ⟨actions, hactions, h⟩ := Compilation.yields_bind h
    obtain ⟨axs, haxs, h⟩ := Compilation.yields_bind h
    obtain ⟨-, -, h⟩ := Compilation.yields_bind h
    obtain rfl := Compilation.yields_pure h
    refine ⟨fun x hx => ?_, fun x hx => ?_, fun goal hgoal => hgoal⟩
    · obtain ⟨⟨i, args⟩, -, hx⟩ := Compilation.of_mem_filterMapM hactions hx
      obtain ⟨-, -, hx⟩ := Compilation.yields_bind hx
      exact ⟨_, _, Compilation.yields_ofResult hx⟩
    · obtain ⟨⟨i, args⟩, -, hx⟩ := Compilation.of_mem_filterMapM haxs (List.mem_mergeSort.mp hx)
      obtain ⟨-, -, hx⟩ := Compilation.yields_bind hx
      exact ⟨_, getD_mem_cons _ _ _, _, Compilation.yields_pure hx⟩

theorem IsReachablePart.isInstantiated (hg : g.IsReachablePart t K) : g.IsInstantiated t where
  actions x hx := by
    obtain ⟨-, a, args, -, -, h⟩ := hg.actions x hx
    exact ⟨a, args, h⟩
  axioms x hx := by
    obtain ⟨i, y, args, hy, -, h⟩ := (hg.axioms x).mp hx
    exact ⟨y, List.mem_cons_of_mem _ (List.mem_of_getElem? hy), args, h⟩
  goal _ h := hg.goal.symm.trans h

/-- Conditions are about atoms that may change. -/
theorem IsInstantiated.mem_atoms_of_mem_conditions (hg : g.IsInstantiated t)
    (hreduction : axioms.IsReduction g.axioms) (hgoal : g.goal = some goal) {c : List Literal}
    (hc : c ∈ (g.propositional t goal axioms).conditions) {l : Literal} (hl : l ∈ c) :
    l.atom ∈ g.atoms := by
  rcases List.mem_append.mp hc with hc | hc
  · rcases List.mem_cons.mp hc with rfl | hc
    · exact mem_atoms_of_condition? (hg.goal _ hgoal) l hl
    · obtain ⟨x, hx, hc⟩ := List.mem_flatMap.mp hc
      obtain ⟨a, args, hr⟩ := hg.actions x hx
      refine (isInstance_of_action? hr).mem_atoms_of_mem_conditionLiterals l ?_
      rcases List.mem_cons.mp hc with rfl | hc
      · exact List.mem_append_left _ hl
      · obtain ⟨e, he, rfl⟩ := List.mem_map.mp hc
        exact List.mem_append_right _ (List.mem_flatMap.mpr ⟨e, he, hl⟩)
  · obtain ⟨x, hx, rfl⟩ := List.mem_map.mp hc
    obtain ⟨-, y, hy, -, hsame⟩ := hreduction.sound x hx
    obtain ⟨z, -, args, hr⟩ := hg.axioms y hy
    obtain ⟨-, rfl⟩ := axiomInstance?_eq_some_iff.mp hr
    exact of_decide_eq_true (List.mem_filter.mp ((hsame l).mpr hl)).2

/-- Fact groups suit a ground task if they are exclusive in its states. -/
theorem suits_of_exclusive (ht : t.IsNormal) (hexplored : g.IsExplored t)
    (hg : g.IsInstantiated t) (hreduction : axioms.IsReduction g.axioms)
    (hgroups : (FactGroups.compute t g.atoms (argumentsOf g.instances) o budget).Yields groups)
    (hgoal : g.goal = some goal) (hexclusive : ∀ s, (g.propositional t goal axioms).Reachable s →
      ExclusiveIn groups.groups groups.mutexGroups s) :
    (g.propositional t goal axioms).Suits groups := by
  have hcover := FactGroups.isCover_of_yields ht hexplored.nodup hgroups
  have hderived : ∀ {a}, (g.propositional t goal axioms).IsDerived a → t.isDerived a = true := by
    intro a ha
    obtain ⟨x, hx, rfl⟩ := hreduction.head a ((isDerived_propositional hreduction).mp ha)
    exact (hexplored.effects x hx).2
  refine ⟨⟨hcover.nodup, fun l hl => ?_⟩, fun c hc l hl => ?_, fun l hl a ha hd =>
    hcover.derived l hl a ha (hderived hd), fun a ha x hx hd => ?_, hexclusive⟩
  · rcases FactGroups.singleton_or_of_yields ht hgroups (List.mem_append_right _ hl) with
      ⟨a, rfl⟩ | ⟨hn, -⟩
    · exact List.nodup_singleton a
    · exact hn
  · exact List.mem_flatten.mp (hcover.mem l.atom
      (hg.mem_atoms_of_mem_conditions hreduction hgoal hc hl))
  · have hbasic := hexplored.actions a ha x hx
    rw [hderived hd] at hbasic
    cases hbasic

/-! ### Exclusive groups -/

variable (hg : g.IsReachablePart t K) (hK : IsGrounded t K) (ht : t.IsNormal)
include hg hK ht

/-- All applicable instances of actions were found. -/
theorem lists_argumentsOf : t.Lists (argumentsOf g.instances) := by
  intro s hs i a args hi happ
  refine List.mem_filterMap.mpr ⟨(i, args), (hg.instances i args).mpr ?_, if_pos rfl⟩
  exact hK.action_applicable (isStateOf_of_reachable hK.toCovers ht hs).covered hi
    (ht.actions a (List.mem_of_getElem? hi)) happ

variable (hreduction : axioms.IsReduction g.axioms)
  (huses : ∀ l ∈ goal ++ g.actions.flatMap (·.conditionLiterals),
    IsHead {x | x ∈ g.axioms} l.atom → l.atom ∈ axioms.keys)
  (hgroups : (FactGroups.compute t g.atoms (argumentsOf g.instances) o budget).Yields groups)
  (hreliable : ∀ invariants, (Invariant.find t (argumentsOf g.instances) o.invariantMaxCandidates
    o.invariantMaxTime budget).Yields invariants →
      ∀ v ∈ invariants, v.IsReliable t (argumentsOf g.instances))
include hreduction huses hgroups hreliable

/-- A group that is exclusive in the task is exclusive in the states of the ground task. -/
theorem exclusiveIn_of_reachable {s : Interpretation}
    (hs : (g.propositional t goal axioms).Reachable s) :
    ExclusiveIn groups.groups groups.mutexGroups s := by
  obtain ⟨s', hs', hmatch⟩ := exists_reachable_of_propositional hg hK ht hreduction huses hs
  obtain ⟨hexclusive, hmutex⟩ := FactGroups.areExclusive_of_yields ht
    (lists_argumentsOf hg hK ht) hreliable hgroups
  have hall : ∀ l ∈ groups.groups ++ groups.mutexGroups, ∀ a ∈ l, ∀ b ∈ l, a ∈ s → b ∈ s →
      a = b := by
    intro l hl a ha b hb has hbs
    rcases FactGroups.singleton_or_of_yields ht hgroups hl with ⟨c, rfl⟩ | ⟨-, hbasic⟩
    · exact (List.mem_singleton.mp ha).trans (List.mem_singleton.mp hb).symm
    · have hmem : ∀ c ∈ l, c ∈ s → c ∈ s' := by
        intro c hc hcs
        refine (hmatch.agree c (hbasic c hc).1 fun ⟨x, hx, he⟩ => ?_).mpr hcs
        have hderived := (hg.effect_mem_atoms hK ht hx).2
        rw [he, (hbasic c hc).2] at hderived
        cases hderived
      refine (hexclusive.append hmutex) s' hs' l hl a ha b hb (hmem a ha has) (hmem b hb hbs)
  exact ⟨fun l hl => hall l (List.mem_append_left _ hl),
    fun l hl => hall l (List.mem_append_right _ hl)⟩

theorem suits_propositional (hexplored : g.IsExplored t) (hgoal : g.goal = some goal) :
    (g.propositional t goal axioms).Suits groups :=
  suits_of_exclusive ht hexplored hg.isInstantiated hreduction hgroups hgoal fun _ hs =>
    exclusiveIn_of_reachable hg hK ht hreduction huses hgroups hreliable hs

end GroundTask
end FinitePlanning
