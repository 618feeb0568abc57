import Mathlib
import FinitePlanning.Proofs.Compile.Coherence
import FinitePlanning.Proofs.Compile.Plans

/-!
Options that only concern how a task is encoded, simplified and layered do not change its meaning,
and neither does the time that the search for invariants has. The ground task does not depend on
them, and each choice of groups and each of the encodings keeps what can be planned. Only goals with
negative literals may be supported by one compilation and not by the other one: whether a single
assignment is left for them depends on the variables.
-/

namespace FinitePlanning

open Compilation

/-- Options that differ only in how a task is encoded, simplified and layered. -/
def Options.IsVariant (o o' : Options) : Prop :=
  { o with
    usePartialEncoding := o'.usePartialEncoding
    filterUnreachableFacts := o'.filterUnreachableFacts
    filterUnimportantVariables := o'.filterUnimportantVariables
    reorderVariables := o'.reorderVariables
    layerStrategy := o'.layerStrategy } = o'

theorem Options.IsVariant.invariantMaxCandidates_eq {o o' : Options} (h : o.IsVariant o') :
    o'.invariantMaxCandidates = o.invariantMaxCandidates :=
  (congrArg Options.invariantMaxCandidates h).symm

theorem Options.IsVariant.invariantMaxTime_eq {o o' : Options} (h : o.IsVariant o') :
    o'.invariantMaxTime = o.invariantMaxTime :=
  (congrArg Options.invariantMaxTime h).symm

/-! ### Layers -/

namespace GroundTask

open StratifiedAxioms

variable {t : Task} {g : GroundTask} {goal : List Literal} {relevant : List GroundAxiom}
  {strategy strategy' : LayerStrategy} {s : Interpretation}

theorem complete_layered :
    (g.propositional t goal (layered relevant strategy)).complete =
      (g.propositional t goal (layered relevant strategy')).complete := by
  have hkeys : (layered relevant strategy).layers.map (·.1) =
      (layered relevant strategy').layers.map (·.1) := by
    simp only [layered, List.map_filterMap, Option.map_map, Function.comp_def]
  funext s
  simp only [PropositionalTask.complete, PropositionalTask.IsDerived, hkeys]
  rfl

/-- The layers of derived atoms do not matter to the states that are reached. -/
theorem reachable_layered (hs : (g.propositional t goal (layered relevant strategy)).Reachable s) :
    (g.propositional t goal (layered relevant strategy')).Reachable s := by
  induction hs with
  | init =>
      rw [PropositionalTask.initialState, complete_layered]
      exact .init
  | step _ ha happ ih =>
      rw [complete_layered]
      exact .step ih ha happ

theorem solvable_layered_iff :
    (g.propositional t goal (layered relevant strategy)).Solvable ↔
      (g.propositional t goal (layered relevant strategy')).Solvable :=
  exists_congr fun _ => and_congr_left fun _ => ⟨reachable_layered, reachable_layered⟩

end GroundTask

/-! ### Groups -/

namespace FactGroups

open FiniteDomain

variable {atoms : List Atom} {found : List (List Atom)} {isPartial : Bool} {s : Interpretation}

/-- The groups that become variables are parts of exclusive ones. -/
theorem exclusiveIn_ofFound (h : Exclusive (found ++ singletons (uncovered found atoms)) s) :
    ExclusiveIn (ofFound atoms found isPartial).groups
      (ofFound atoms found isPartial).mutexGroups s := by
  refine ⟨fun l hl a ha b hb has hbs => ?_, h⟩
  obtain ⟨l', hl', rfl⟩ := mem_sortGroups.mp hl
  have ha := (List.mergeSort_perm l' _).subset ha
  have hb := (List.mergeSort_perm l' _).subset hb
  rcases List.mem_append.mp hl' with hl' | hl'
  · obtain ⟨-, -, l'', hl'', hsub⟩ := of_mem_chooseLarge hl'
    exact h l'' (List.mem_append_left _ hl'') a (hsub ha) b (hsub hb) has hbs
  · obtain ⟨c, -, rfl⟩ := List.mem_map.mp hl'
    exact (List.mem_singleton.mp ha).trans (List.mem_singleton.mp hb).symm

end FactGroups

namespace Compile

open FactGroups (ofFound found)
open FiniteDomain (Exclusive)
open GroundTask (argumentsOf)
open PropositionalTask (goalNotSupported)
open StratifiedAxioms (layered IsAccepted)

/-- At most one atom of each group of exclusive atoms is true in any state of the ground task. -/
def GroupsHold (t : Task) (o : Options) (b : Budget) : Prop :=
  ∀ g goal groups axioms, (GroundTask.explore t b).Yields g → g.relaxedReachable = true →
    g.goal = some goal →
    (FactGroups.compute t g.atoms (argumentsOf g.instances) o b).Yields groups →
    (StratifiedAxioms.compute g.actions g.axioms goal o.layerStrategy).Yields axioms →
      ∀ s, (g.propositional t goal axioms).Reachable s → Exclusive groups.mutexGroups s

/-- Groups hold that stem from invariants that rely on deletions that take place. -/
theorem groupsHold_of_findsReliable {t : Task} {o : Options} {b : Budget} (ht : t.IsNormal)
    (hground : t.IsGroundable) (hreliable : FindsReliable t o b) : GroupsHold t o b := by
  intro g goal groups axioms hyields hreachable hgoal hgroups haxioms s hs
  obtain ⟨K, hK, hpart⟩ := GroundTask.exists_isReachablePart ht hground hyields
  obtain ⟨-, hg⟩ := hpart.resolve_left fun hnot =>
    Bool.false_ne_true (hnot.1.symm.trans hreachable)
  obtain ⟨hreduction, huses⟩ := StratifiedAxioms.isReduction_of_yields haxioms
  exact (GroundTask.exclusiveIn_of_reachable hg hK ht hreduction huses hgroups
    (hreliable g hyields) hs).mutexGroups

/-! ### Ground tasks -/

/-- A compilation fails only if the encoding does not support the goal. Otherwise it gives a task
that has a plan if and only if the given one has. -/
structure EndsBy (c : Compilation Outcome) (supported solvable : Prop) : Prop where
  gives : supported → ∃ outcome, c.Gives outcome ∧ (outcome.task.Solvable ↔ solvable)
  fails : ¬ supported → c.Fails goalNotSupported

/-- A ground task whose groups are exclusive is compiled, into a task that has a plan if and only if
it has one, unless its goal has several assignments. -/
theorem encoded_endsBy {t : Task} (ht : t.IsNormal) {g : GroundTask} (hexplored : g.IsExplored t)
    (hg : g.IsInstantiated t) {goal : List Literal} (hgoal : g.goal = some goal) {o : Options}
    {searchTime : Nat → Duration} {groups : FactGroups} {axioms : StratifiedAxioms}
    (hgroups : (FactGroups.compute t g.atoms (argumentsOf g.instances) o
      (.unlimited searchTime)).Gives groups)
    (haxioms : (StratifiedAxioms.compute g.actions g.axioms goal o.layerStrategy).Gives axioms)
    (hexclusive : ∀ s, (g.propositional t goal axioms).Reachable s →
      FiniteDomain.ExclusiveIn groups.groups groups.mutexGroups s) :
    EndsBy (encoded t g goal o (.unlimited searchTime)) (groups.SupportsGoal goal)
      (g.propositional t goal axioms).Solvable := by
  obtain ⟨hreduction, -⟩ := StratifiedAxioms.isReduction_of_yields haxioms.yields
  have hfits := fitsGroups_of_gives hgroups haxioms ht hexplored
  have hsuits := GroundTask.suits_of_exclusive ht hexplored hg hreduction hgroups.yields hgoal
    hexclusive
  constructor
  · intro hsupports
    obtain ⟨outcome, houtcome⟩ := exists_gives_encode hfits hsupports
    exact ⟨outcome, gives_encoded hgroups haxioms houtcome,
      (decides_of_yields_encode hsuits hfits hreduction houtcome.yields).solvable⟩
  · exact fun hnot => fails_encoded hgroups haxioms (hfits.fails_encode hnot)

/-! ### Compilations -/

/-- Two compilations fail in the same way, or they give tasks of which both or none has a plan. -/
def EndAlike (c c' : Compilation Outcome) : Prop :=
  (∃ e, c.Fails e ∧ c'.Fails e) ∨
    ∃ outcome outcome', c.Gives outcome ∧ c'.Gives outcome' ∧
      (outcome.task.Solvable ↔ outcome'.task.Solvable)

/-- One of two compilations finds several assignments of the goal, and the other one succeeds. -/
def DifferInGoal (c c' : Compilation Outcome) : Prop :=
  c.Fails goalNotSupported ∧ (∃ outcome, c'.Gives outcome) ∨
    (∃ outcome, c.Gives outcome) ∧ c'.Fails goalNotSupported

theorem EndAlike.of_gives {c c' : Compilation Outcome} {outcome : Outcome} (h : c.Gives outcome)
    (h' : c'.Gives outcome) : EndAlike c c' :=
  .inr ⟨outcome, outcome, h, h', Iff.rfl⟩

/-- Compilations of equally solvable tasks end alike, unless only one of the encodings supports the
goal. -/
theorem EndsBy.endAlike_or {c c' : Compilation Outcome}
    {supported supported' solvable solvable' : Prop}
    (h : EndsBy c supported solvable) (h' : EndsBy c' supported' solvable')
    (hsolvable : solvable ↔ solvable') :
    EndAlike c c' ∨ ¬ (supported ↔ supported') ∧ DifferInGoal c c' := by
  by_cases hs : supported <;> by_cases hs' : supported'
  · obtain ⟨outcome, hgives, hiff⟩ := h.gives hs
    obtain ⟨outcome', hgives', hiff'⟩ := h'.gives hs'
    exact .inl (.inr ⟨outcome, outcome', hgives, hgives',
      hiff.trans (hsolvable.trans hiff'.symm)⟩)
  · obtain ⟨outcome, hgives, -⟩ := h.gives hs
    exact .inr ⟨fun hiff => hs' (hiff.mp hs), .inr ⟨⟨outcome, hgives⟩, h'.fails hs'⟩⟩
  · obtain ⟨outcome', hgives', -⟩ := h'.gives hs'
    exact .inr ⟨fun hiff => hs (hiff.mpr hs'), .inl ⟨h.fails hs, outcome', hgives'⟩⟩
  · exact .inl (.inl ⟨goalNotSupported, h.fails hs, h'.fails hs'⟩)

section Bind

variable {α : Type} {c : Compilation α} {f f' : α → Compilation Outcome} {a : α}

theorem EndAlike.bind (hc : c.Gives a) (h : EndAlike (f a) (f' a)) :
    EndAlike (c >>= f) (c >>= f') := by
  rcases h with ⟨e, h, h'⟩ | ⟨outcome, outcome', h, h', hsolvable⟩
  · exact .inl ⟨e, hc.bind_fails h, hc.bind_fails h'⟩
  · exact .inr ⟨outcome, outcome', hc.bind h, hc.bind h', hsolvable⟩

theorem DifferInGoal.bind (hc : c.Gives a) (h : DifferInGoal (f a) (f' a)) :
    DifferInGoal (c >>= f) (c >>= f') := by
  rcases h with ⟨h, outcome, h'⟩ | ⟨⟨outcome, h⟩, h'⟩
  · exact .inl ⟨hc.bind_fails h, outcome, hc.bind h'⟩
  · exact .inr ⟨⟨outcome, hc.bind h⟩, hc.bind_fails h'⟩

end Bind

/-- The time of the search for invariants is up at the same candidates. -/
def StopAlike (o : Options) (searchTime searchTime' : Nat → Duration) : Prop :=
  ∀ n, o.invariantMaxTime < searchTime n ↔ o.invariantMaxTime < searchTime' n

/-- Groups are computed from the invariants that are found in time. The two lists of invariants are
the same if the searches stop alike. -/
theorem exists_groups {t : Task} (g : GroundTask) {o o' : Options} (h : o.IsVariant o')
    (searchTime searchTime' : Nat → Duration) :
    ∃ invariants invariants', (StopAlike o searchTime searchTime' → invariants = invariants') ∧
      (FactGroups.compute t g.atoms (argumentsOf g.instances) o (.unlimited searchTime)).Gives
        (ofFound g.atoms (found t g.atoms invariants) o.usePartialEncoding) ∧
      (FactGroups.compute t g.atoms (argumentsOf g.instances) o (.unlimited searchTime')).Gives
        (ofFound g.atoms (found t g.atoms invariants') o.usePartialEncoding) ∧
      (FactGroups.compute t g.atoms (argumentsOf g.instances) o' (.unlimited searchTime')).Gives
        (ofFound g.atoms (found t g.atoms invariants') o'.usePartialEncoding) := by
  obtain ⟨invariants, hfind⟩ := Invariant.exists_gives_find t (argumentsOf g.instances)
    o.invariantMaxCandidates o.invariantMaxTime searchTime
  obtain ⟨invariants', hfind'⟩ := Invariant.exists_gives_find t (argumentsOf g.instances)
    o.invariantMaxCandidates o.invariantMaxTime searchTime'
  refine ⟨invariants, invariants', fun hstop => ?_, FactGroups.gives_compute hfind,
    FactGroups.gives_compute hfind', FactGroups.gives_compute ?_⟩
  · rw [Invariant.find_congr hstop] at hfind
    exact hfind.unique hfind'
  · rw [h.invariantMaxCandidates_eq, h.invariantMaxTime_eq]
    exact hfind'

theorem encoded_variants_end_alike {t : Task} (ht : t.IsNormal) {g : GroundTask}
    (hexplored : g.IsExplored t) (hg : g.IsInstantiated t) {goal : List Literal}
    (hgoal : g.goal = some goal) {o o' : Options} (h : o.IsVariant o')
    (searchTime searchTime' : Nat → Duration)
    (hhold : ∀ time, time = searchTime ∨ time = searchTime' → ∀ groups axioms,
      (FactGroups.compute t g.atoms (argumentsOf g.instances) o (.unlimited time)).Yields groups →
      (StratifiedAxioms.compute g.actions g.axioms goal o.layerStrategy).Yields axioms →
        ∀ s, (g.propositional t goal axioms).Reachable s → Exclusive groups.mutexGroups s) :
    EndAlike (encoded t g goal o (.unlimited searchTime))
        (encoded t g goal o' (.unlimited searchTime')) ∨
      (o.usePartialEncoding ≠ o'.usePartialEncoding ∨ ¬ StopAlike o searchTime searchTime') ∧
        (∃ l ∈ t.goal.literals, l.negated = true) ∧
        DifferInGoal (encoded t g goal o (.unlimited searchTime))
          (encoded t g goal o' (.unlimited searchTime')) := by
  obtain ⟨invariants, invariants', hsame, hgroups, hlater, hgroups'⟩ :=
    exists_groups (t := t) g h searchTime searchTime'
  by_cases haccepted : IsAccepted (relevantAxioms g.axioms
      (goal ++ g.actions.flatMap (·.conditionLiterals)))
  · have haxioms : ∀ strategy, (StratifiedAxioms.compute g.actions g.axioms goal strategy).Gives
        (layered (relevantAxioms g.axioms (goal ++ g.actions.flatMap (·.conditionLiterals)))
          strategy) := fun _ => StratifiedAxioms.gives_compute_of_isAccepted haccepted
    have hexclusive := hhold _ (.inl rfl) _ _ hgroups.yields (haxioms o.layerStrategy).yields
    have hexclusive' := hhold _ (.inr rfl) _ _ hlater.yields (haxioms o.layerStrategy).yields
    have hends := encoded_endsBy ht hexplored hg hgoal hgroups (haxioms o.layerStrategy)
      fun s hs => FactGroups.exclusiveIn_ofFound (hexclusive s hs)
    have hends' := encoded_endsBy ht hexplored hg hgoal hgroups' (haxioms o'.layerStrategy)
      fun s hs => FactGroups.exclusiveIn_ofFound (hexclusive' s (GroundTask.reachable_layered hs))
    refine (hends.endAlike_or hends' GroundTask.solvable_layered_iff).imp_right
      fun ⟨hne, hdiffer⟩ => ⟨not_and_or.mp fun ⟨hpartial, hstop⟩ => hne ?_, ?_, hdiffer⟩
    · rw [hsame hstop, hpartial]
    · by_contra hnone
      push Not at hnone
      have hsupports := supportsGoal_of_positive hg hgoal
        fun l hl => Bool.eq_false_iff.mpr (hnone l hl)
      exact hne (iff_of_true (hsupports _) (hsupports _))
  · obtain ⟨text, htext⟩ := StratifiedAxioms.exists_fails_compute haccepted
    have hfails : ∀ {o : Options} {time : Nat → Duration} {groups : FactGroups},
        (FactGroups.compute t g.atoms (argumentsOf g.instances) o (.unlimited time)).Gives groups →
          (encoded t g goal o (.unlimited time)).Fails (.notStratifiable text) := fun hgroups =>
      Budget.gives_check_unlimited.bind_fails (hgroups.bind_fails
        (Budget.gives_check_unlimited.bind_fails ((htext _).bind _)))
    exact .inl (.inl ⟨.notStratifiable text, hfails hgroups, hfails hgroups'⟩)

/-- Options that concern the encoding, the simplifications and the layers do not matter to how a
compilation ends and to whether the compiled task has a plan, and neither does the time that the
search for invariants has. Compilations with different encodings, or with searches that stop at
different candidates, may only differ in whether they support a goal with negative literals. -/
theorem variants_end_alike {t : Task} (ht : t.IsNormal) {o o' : Options} (h : o.IsVariant o')
    {searchTime searchTime' : Nat → Duration} (hhold : GroupsHold t o (.unlimited searchTime))
    (hhold' : GroupsHold t o (.unlimited searchTime')) :
    EndAlike (task t o (.unlimited searchTime)) (task t o' (.unlimited searchTime')) ∨
      (o.usePartialEncoding ≠ o'.usePartialEncoding ∨ ¬ StopAlike o searchTime searchTime') ∧
        (∃ l ∈ t.goal.literals, l.negated = true) ∧
        DifferInGoal (task t o (.unlimited searchTime)) (task t o' (.unlimited searchTime')) := by
  have hexplore : ∀ time, GroundTask.explore t (.unlimited time) = GroundTask.explore t .unlimited :=
    fun _ => GroundTask.explore_unlimited t
  simp only [task, hexplore]
  rcases GroundTask.isSettled_explore t with ⟨g, hgives⟩ | ⟨e, hfails⟩
  · cases hreachable : g.relaxedReachable with
    | false =>
        refine .inl (.bind hgives ?_)
        simp only [hreachable, Bool.not_false, if_true]
        exact .of_gives (gives_trivial _ _) (gives_trivial _ _)
    | true =>
        cases hgoal : g.goal with
        | none =>
            refine .inl (.bind hgives ?_)
            simp only [hreachable, hgoal, Bool.not_true, Bool.false_eq_true, if_false]
            exact .of_gives (gives_trivial _ _) (gives_trivial _ _)
        | some goal =>
            have hencoded := encoded_variants_end_alike ht
              (GroundTask.isExplored_of_yields ht hgives.yields)
              (GroundTask.isInstantiated_of_yields hgives.yields) hgoal h searchTime searchTime'
              fun time htime groups axioms => by
                have hyields := (hexplore time).symm ▸ hgives.yields
                rcases htime with rfl | rfl
                · exact hhold g goal groups axioms hyields hreachable hgoal
                · exact hhold' g goal groups axioms hyields hreachable hgoal
            rcases hencoded with halike | ⟨hne, hnegated, hdiffer⟩
            · refine .inl (.bind hgives ?_)
              simpa only [hreachable, hgoal, Bool.not_true, Bool.false_eq_true, if_false]
                using halike
            · refine .inr ⟨hne, hnegated, .bind hgives ?_⟩
              simpa only [hreachable, hgoal, Bool.not_true, Bool.false_eq_true, if_false]
                using hdiffer
  · exact .inl (.inl ⟨e, hfails.bind _, hfails.bind _⟩)

/-- Options without any of the simplifications. -/
def plainOptions : Options where
  usePartialEncoding := false
  filterUnreachableFacts := false
  filterUnimportantVariables := false
  reorderVariables := false
  layerStrategy := .max

/-- The search for invariants has used up its time when it comes to the second candidate. -/
def slowly : Nat → Duration := fun n => .ofSeconds (400 * n)

/-- Neither the simplifications nor the time for invariants matter to driving to work, as the goal
is positive. -/
theorem travelling_variants_end_alike :
    Options.IsVariant {} plainOptions ∧ GroupsHold FactGroups.travelling {} .unlimited ∧
      GroupsHold FactGroups.travelling {} (.unlimited slowly) ∧
      EndAlike (task FactGroups.travelling {} .unlimited)
        (task FactGroups.travelling plainOptions (.unlimited slowly)) := by
  have hvariant : Options.IsVariant {} plainOptions := rfl
  have hhold : ∀ b, GroupsHold FactGroups.travelling {} b := fun b =>
    groupsHold_of_findsReliable FactGroups.travelling_isNormal isGroundable_travelling
      (findsReliable_travelling {} b)
  have hpositive : ∀ l ∈ FactGroups.travelling.goal.literals, l.negated = false := by
    simp [FactGroups.travelling, Condition.literals, Condition.walk, Condition.walkAll,
      Condition.parts, Condition.literal?]
    rfl
  refine ⟨hvariant, hhold _, hhold _, (variants_end_alike FactGroups.travelling_isNormal hvariant
    (hhold .unlimited) (hhold (.unlimited slowly))).resolve_right fun h => ?_⟩
  obtain ⟨-, ⟨l, hl, hnegated⟩, -⟩ := h
  exact Bool.false_ne_true ((hpositive l hl).symm.trans hnegated)

section Selling

open Invariant (Search)

private theorem enqueue_of_not_mem {most : Nat} {s : Search} {v : Invariant}
    (hsize : s.seen.size < most) (hv : v ∉ s.seen) :
    Search.enqueue most s v = { s with queue := s.queue ++ [v], seen := s.seen.insert v } := by
  rw [Search.enqueue, if_pos (by simpa using ⟨hsize, hv⟩)]

private theorem examine_of_two {actions : List BalancedAction} {most : Nat} {s : Search}
    {v w w' : Invariant} (h : v.violation? actions = some [w, w'])
    (hsize : s.seen.size + 1 < most) (hw : w ∉ s.seen) (hw' : w' ∉ s.seen.insert w) :
    ∃ seen, Search.examine actions most s v =
      { queue := s.queue ++ [w] ++ [w'], seen, examined := (v, false) :: s.examined } := by
  have hinserted : (s.seen.insert w).size < most := Std.HashSet.size_insert_le.trans_lt hsize
  rw [Search.examine, h]
  simp only [List.foldl_cons, List.foldl_nil]
  rw [enqueue_of_not_mem (s := { s with examined := (v, false) :: s.examined })
    ((Nat.le_succ _).trans_lt hsize) hw, enqueue_of_not_mem hinserted hw']
  exact ⟨_, rfl⟩

private def thing (name : String) : Atom := .named name []

/-- A task in which a desk and a pen are sold together for cash. The goal is to own no pen. -/
def selling : Task where
  domainName := "selling"
  problemName := "selling"
  requirements := []
  types := ⟨[objectType], []⟩
  objects := []
  predicates := [⟨"cash", [], false⟩, ⟨"desk", [], false⟩, ⟨"pen", [], false⟩]
  functions := []
  init := [thing "pen", thing "desk"]
  assignments := []
  goal := .literal (thing "pen").negative
  actions := [{
    name := { name := "sell" }
    parameters := []
    external := 0
    precondition := .and [.literal (thing "pen").positive, .literal (thing "desk").positive]
    effects := [⟨[], .true, (thing "cash").positive⟩, ⟨[], .true, (thing "pen").negative⟩,
      ⟨[], .true, (thing "desk").negative⟩]
    cost := none }]
  axioms := []
  minimizesCost := false

private def sale : GroundAction where
  name := "(sell)"
  precondition := [(thing "pen").positive, (thing "desk").positive]
  adds := [⟨[], thing "cash"⟩]
  deletes := [⟨[], thing "pen"⟩, ⟨[], thing "desk"⟩]
  cost := 1

private def groundSelling : GroundTask where
  relaxedReachable := true
  atoms := [thing "pen", thing "desk", thing "cash"]
  actions := [sale]
  axioms := []
  goal := some [(thing "pen").negative]
  instances := [(0, [])]

theorem selling_isNormal : selling.IsNormal where
  objects := by decide
  predicates := by decide
  init := by decide
  equal := by simp [selling, thing, Atom.named]
  goal := by decide
  actions := by decide
  axioms := nofun

private theorem gives_model_selling : ((Datalog.Program.ofTask selling).model .unlimited).Gives
    [⟨⟨0⟩, []⟩, ⟨⟨1⟩, []⟩, ⟨⟨4⟩, []⟩, ⟨⟨2⟩, []⟩, ⟨⟨3⟩, []⟩] :=
  IsSettled.gives (.inl (Datalog.Program.exists_gives_model _)) (by cbv)

private theorem action?_selling : (GroundTask.grounding selling groundSelling.atoms).action?
    (selling.actions.getD 0 default) [] = .ok (some sale) := by
  have hvalues : Grounding.valuesOf [] [] = [] := rfl
  have hname : Grounding.instanceName "sell" [] = "(sell)" := by decide +kernel
  simp [Grounding.action?, Grounding.condition?, Grounding.effect, Grounding.simpleEffect?,
    Grounding.cost, GroundTask.grounding, Std.HashSet.contains_ofList, selling, groundSelling,
    thing, sale, Atom.named, Atom.positive, Atom.negative, Literal.rename, Literal.negate,
    Atom.rename, choices, hvalues, hname]
  rfl

private theorem gives_explore_selling :
    (GroundTask.explore selling .unlimited).Gives groundSelling := by
  refine gives_model_selling.bind ?_
  generalize hmodel : ([⟨⟨0⟩, []⟩, ⟨⟨1⟩, []⟩, ⟨⟨4⟩, []⟩, ⟨⟨2⟩, []⟩, ⟨⟨3⟩, []⟩] :
    List Datalog.GroundAtom) = model
  have hreached : GroundTask.goalReached (Datalog.Program.ofTask selling) model = true := by
    rw [← hmodel]
    cbv
  have hatoms : GroundTask.fluentAtoms selling (Datalog.Program.ofTask selling) model =
      groundSelling.atoms := by
    rw [← hmodel]
    cbv
  have hinstances :
      GroundTask.actionInstances (Datalog.Program.ofTask selling) model = [(0, [])] := by
    rw [← hmodel]
    cbv
  have haxioms : GroundTask.axiomInstances (Datalog.Program.ofTask selling) model = [] := by
    rw [← hmodel]
    cbv
  have hgoal : (GroundTask.grounding selling groundSelling.atoms).condition? [] selling.goal =
      groundSelling.goal :=
    GroundTask.condition?_eq_some_iff.mpr (by
      simp [GroundTask.FixedHold, selling, groundSelling, Literal.rename, Atom.rename, thing,
        Atom.named, Atom.negative])
  have hactions : Gives ([(0, [])].filterMapM fun (p : Nat × List String) => do
      Budget.unlimited.tick
      ofResult ((GroundTask.grounding selling groundSelling.atoms).action?
        (selling.actions.getD p.1 default) p.2)) [sale] := by
    rw [List.filterMapM_cons, List.filterMapM_nil]
    refine Gives.bind (a := some sale) (Budget.gives_tick_unlimited.bind ?_) (gives_pure _)
    rw [action?_selling]
    exact gives_pure _
  simp only [GroundTask.ofModel, hreached, hatoms, hinstances, haxioms]
  refine hactions.bind (Gives.bind (gives_pure []) ((gives_log _ _).bind ?_))
  rw [hgoal, List.mergeSort_nil]
  exact gives_pure _

private def countedPart (name : String) : InvariantPart := ⟨.named name, [], none⟩

private def pairs : List Invariant :=
  [⟨[countedPart "cash", countedPart "desk"]⟩, ⟨[countedPart "cash", countedPart "pen"]⟩,
    ⟨[countedPart "desk"]⟩, ⟨[countedPart "pen"]⟩]

private def examinedThings : List (Invariant × Bool) :=
  [(⟨[countedPart "cash", countedPart "desk"]⟩, true),
    (⟨[countedPart "cash", countedPart "pen"]⟩, true), (⟨[countedPart "pen"]⟩, true),
    (⟨[countedPart "desk"]⟩, true), (⟨[countedPart "cash"]⟩, false)]

/-- Cash cannot be counted alone. Adding the pen or the desk to it balances it. -/
private theorem gives_find_selling : (Invariant.find selling
    (GroundTask.argumentsOf groundSelling.instances) 100000 (.ofSeconds 300) .unlimited).Gives
      pairs := by
  have hstart : Invariant.initialCandidates selling =
      [⟨[countedPart "cash"]⟩, ⟨[countedPart "desk"]⟩, ⟨[countedPart "pen"]⟩] := by cbv
  generalize hactions : BalancedAction.ofTask selling
    (GroundTask.argumentsOf groundSelling.instances) = actions
  have hcash : (⟨[countedPart "cash"]⟩ : Invariant).violation? actions =
      some [⟨[countedPart "cash", countedPart "pen"]⟩,
        ⟨[countedPart "cash", countedPart "desk"]⟩] := by
    rw [← hactions]
    cbv
  have hproven : ∀ v ∈ pairs, v.violation? actions = none := by
    rw [← hactions]
    simp only [pairs, List.forall_mem_cons, List.not_mem_nil, false_imp_iff, implies_true, and_true]
    refine ⟨?_, ?_, ?_, ?_⟩ <;> cbv
  have hexamine : ∀ (s : Search), ∀ v ∈ pairs, Search.examine actions 100000 s v =
      { s with examined := (v, true) :: s.examined } := by
    intro s v hv
    rw [Search.examine, hproven v hv]
  obtain ⟨seen, hexamined⟩ : ∃ seen, Search.examine actions 100000
      { queue := [⟨[countedPart "desk"]⟩, ⟨[countedPart "pen"]⟩]
        seen := .ofList [⟨[countedPart "cash"]⟩, ⟨[countedPart "desk"]⟩, ⟨[countedPart "pen"]⟩] }
      ⟨[countedPart "cash"]⟩ =
        { queue := [⟨[countedPart "desk"]⟩, ⟨[countedPart "pen"]⟩,
            ⟨[countedPart "cash", countedPart "pen"]⟩, ⟨[countedPart "cash", countedPart "desk"]⟩]
          seen, examined := [(⟨[countedPart "cash"]⟩, false)] } :=
    examine_of_two hcash ((Nat.succ_le_succ Std.HashSet.size_ofList_le).trans_lt (by decide))
      (by simp [countedPart]) (by simp [countedPart])
  have hrun : (Search.run .unlimited actions 100000 (.ofSeconds 300) (99998 + 5)
      (Search.start selling)).Gives { queue := [], seen, examined := examinedThings } := by
    rw [Search.start, hstart]
    refine Search.gives_run_of_cons rfl (Nat.zero_le _) ?_
    rw [hexamined]
    refine Search.gives_run_of_cons rfl (Nat.zero_le _) ?_
    rw [hexamine _ _ (by simp [pairs])]
    refine Search.gives_run_of_cons rfl (Nat.zero_le _) ?_
    rw [hexamine _ _ (by simp [pairs])]
    refine Search.gives_run_of_cons rfl (Nat.zero_le _) ?_
    rw [hexamine _ _ (by simp [pairs])]
    refine Search.gives_run_of_cons rfl (Nat.zero_le _) ?_
    rw [hexamine _ _ (by simp [pairs])]
    exact Search.gives_run_of_nil rfl
  have hpairs : Search.proven { queue := [], seen, examined := examinedThings } = pairs := by
    rw [Search.proven]
    cbv
  refine (gives_log _ _).bind (Gives.bind (hactions ▸ hrun) ((gives_log _ _).bind ?_))
  rw [hpairs]
  exact gives_pure _

private def exclusiveThings : List (List Atom) :=
  [[thing "cash", thing "desk"], [thing "cash", thing "pen"], [thing "desk"], [thing "pen"]]

private theorem found_selling :
    found selling groundSelling.atoms pairs = exclusiveThings := by
  have hgroups : Invariant.usefulGroups pairs selling.init =
      [[⟨.named "cash", []⟩, ⟨.named "desk", []⟩], [⟨.named "cash", []⟩, ⟨.named "pen", []⟩],
        [⟨.named "desk", []⟩], [⟨.named "pen", []⟩]] := by
    rw [Invariant.usefulGroups]
    cbv
  have hknown : (Std.HashSet.ofList groundSelling.atoms).contains = groundSelling.atoms.contains :=
    funext fun _ => Std.HashSet.contains_ofList
  simp only [found, hgroups, List.map_cons, List.map_nil, FactGroups.expand, hknown]
  cbv

private theorem supportsGoal_selling_iff (isPartial : Bool) :
    (ofFound groundSelling.atoms exclusiveThings isPartial).SupportsGoal
      [(thing "pen").negative] ↔ isPartial = true := by
  have hgroups : (ofFound groundSelling.atoms exclusiveThings isPartial).groups =
      if isPartial then [[thing "cash", thing "desk"], [thing "pen"]]
      else [[thing "cash", thing "desk"], [thing "cash", thing "pen"]] := by
    simp only [ofFound, FactGroups.uncovered, Std.HashSet.contains_ofList]
    cases isPartial <;> cbv
  rw [FactGroups.supportsGoal_negative_iff, hgroups]
  cases isPartial <;> decide

/-- The full encoding has a variable for cash and the pen, with two values without the pen. -/
theorem selling_variants_differ : selling.IsNormal ∧
    Options.IsVariant {} { usePartialEncoding := false } ∧
    ¬ EndAlike (task selling {} .unlimited)
      (task selling { usePartialEncoding := false } .unlimited) := by
  refine ⟨selling_isNormal, rfl, ?_⟩
  have hexplored := GroundTask.isExplored_of_yields selling_isNormal gives_explore_selling.yields
  have haccepted : IsAccepted [] := by
    rw [IsAccepted]
    cbv
  have hrelevant : ∀ uses, relevantAxioms groundSelling.axioms uses = [] := fun _ => rfl
  have haxioms : ∀ strategy, (StratifiedAxioms.compute groundSelling.actions groundSelling.axioms
      [(thing "pen").negative] strategy).Gives (layered [] strategy) := fun _ =>
    hrelevant _ ▸ StratifiedAxioms.gives_compute_of_isAccepted ((hrelevant _).symm ▸ haccepted)
  have hgroups : ∀ o : Options, o.invariantMaxCandidates = 100000 →
      o.invariantMaxTime = .ofSeconds 300 →
      (FactGroups.compute selling groundSelling.atoms (argumentsOf groundSelling.instances) o
        .unlimited).Gives (ofFound groundSelling.atoms exclusiveThings o.usePartialEncoding) :=
    fun o hmost htime => found_selling ▸ FactGroups.gives_compute
      (hmost ▸ htime ▸ gives_find_selling)
  have hfits : ∀ o : Options, o.invariantMaxCandidates = 100000 →
      o.invariantMaxTime = .ofSeconds 300 →
      (groundSelling.propositional selling [(thing "pen").negative]
        (layered [] o.layerStrategy)).FitsGroups
          (ofFound groundSelling.atoms exclusiveThings o.usePartialEncoding) o.usePartialEncoding :=
    fun o hmost htime => fitsGroups_of_gives (hgroups o hmost htime) (haxioms _) selling_isNormal
      hexplored
  obtain ⟨outcome, houtcome⟩ : ∃ outcome, (task selling {} .unlimited).Gives outcome := by
    obtain ⟨outcome, houtcome⟩ := exists_gives_encode (hfits {} rfl rfl)
      ((supportsGoal_selling_iff true).mpr rfl)
    exact ⟨outcome,
      gives_explore_selling.bind (gives_encoded (hgroups {} rfl rfl) (haxioms _) houtcome)⟩
  have hfails : (task selling { usePartialEncoding := false } .unlimited).Fails goalNotSupported :=
    gives_explore_selling.bind_fails (fails_encoded (hgroups _ rfl rfl) (haxioms _)
      ((hfits { usePartialEncoding := false } rfl rfl).fails_encode
        (mt (supportsGoal_selling_iff false).mp Bool.false_ne_true)))
  rintro (⟨e, he, -⟩ | ⟨-, outcome', -, houtcome', -⟩)
  · exact houtcome.not_fails he
  · exact houtcome'.not_fails hfails

end Selling

end Compile
end FinitePlanning
