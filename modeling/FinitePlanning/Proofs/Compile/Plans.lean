import FinitePlanning.Compile.Reading
import FinitePlanning.Proofs.Compile.Coherence
import FinitePlanning.Proofs.Elaboration.Task
import FinitePlanning.Proofs.Encoding.Runs
import FinitePlanning.Proofs.Exploration.Suitability
import FinitePlanning.Proofs.FiniteDomain.Arrangement
import FinitePlanning.Proofs.NormalForm.Normalize
import FinitePlanning.Proofs.Pruning.Bisimulation

/-!
A compiled task has a plan if and only if the given one has. Each stage keeps this, as long as the
invariants that are found rely on deletions that take place and the grounding program is faithful to
the task. When the search for invariants is given up does not matter.
-/

namespace FinitePlanning

open Compilation

/-- Reading and normalizing gives tasks in normal form. -/
theorem Compile.isNormal_of_normalized {domain problem : Source} {t : Task}
    (h : (Compile.normalized domain problem).Yields t) : t.IsNormal := by
  rw [normalized] at h
  obtain ⟨_, _, h⟩ := yields_bind h
  have hresult := yields_ofResult h
  split at hresult
  next => cases hresult
  next domain problem _ =>
    cases helaborated : Task.elaborate domain problem with
    | mk result warnings =>
        rw [helaborated] at hresult
        cases result with
        | error e => cases hresult
        | ok t' => exact Task.isNormal_normalize (Task.elaborate_isWellScoped helaborated).1 hresult

namespace Outcome

/-- An outcome for a task that has a plan if `P` is the case. -/
structure Decides (P : Prop) (outcome : Outcome) : Prop where
  solvable : outcome.task.Solvable ↔ P
  unsolvable : outcome.groups? = none → ¬ P

variable {P : Prop} {task : FiniteDomain.Task} {groups : FactGroups} {outcome : Outcome}

theorem decides_compiled (h : task.Solvable ↔ P) : (compiled task groups).Decides P :=
  ⟨h, fun hnone => absurd hnone (Option.some_ne_none groups)⟩

theorem decides_ofTrivial {reason : FiniteDomain.Trivial} (h : P ↔ reason.isSolvable = true) :
    (ofTrivial reason groups).Decides P := by
  have htask := reason.solvable_task_iff.trans h.symm
  rw [ofTrivial]
  split
  next => exact decides_compiled htask
  next hfalse => exact ⟨htask, fun _ hP => hfalse (h.mp hP)⟩

end Outcome

namespace Compile

open FiniteDomain (Trivial)

variable {P : Prop} {groups : FactGroups} {o : Options} {b : Budget} {outcome : Outcome}

theorem decides_of_yields_trivial {reason : Trivial} (hy : (trivial reason groups).Yields outcome)
    (h : P ↔ reason.isSolvable = true) : outcome.Decides P := by
  obtain ⟨_, _, hy⟩ := yields_bind hy
  obtain rfl := yields_pure hy
  exact Outcome.decides_ofTrivial h

/-! ### Simplification -/

section Simplification

variable {t smaller : FiniteDomain.Task} (hw : t.IsWellFormed) (hr : t.ResetsToOne)
  (htidy : t.OperatorsAreTidy) (hc : t.IsConsistent)
include hw hr htidy hc

theorem solvable_of_yields_pruned (h : (pruned t o).Yields (.ok smaller)) :
    smaller.IsConsistent ∧ (smaller.Solvable ↔ t.Solvable) := by
  rw [pruned] at h
  split at h
  · obtain rfl := Except.ok.inj (yields_pure h)
    exact ⟨hc, Iff.rfl⟩
  · split at h
    next => cases yields_pure h
    next pruned hpruned =>
      obtain ⟨_, _, h⟩ := yields_bind h
      obtain ⟨_, _, h⟩ := yields_bind h
      obtain ⟨_, _, h⟩ := yields_bind h
      obtain ⟨_, _, h⟩ := yields_bind h
      obtain rfl := Except.ok.inj (yields_pure h)
      obtain ⟨goal, hgoal, -, rfl⟩ := FiniteDomain.Task.pruneValues_eq_ok hpruned
      exact ⟨FiniteDomain.Task.isConsistent_withoutValues hw hr htidy hc hgoal,
        (FiniteDomain.Task.isImage_withoutValues hw hr htidy hc hgoal).solvable_iff⟩

omit htidy in
theorem solvable_of_yields_pruned_error {reason : Trivial}
    (h : (pruned t o).Yields (.error reason)) : t.Solvable ↔ reason.isSolvable = true := by
  rw [pruned] at h
  split at h
  · cases yields_pure h
  · split at h
    next trivial hpruned =>
      obtain rfl := Except.error.inj (yields_pure h)
      exact FiniteDomain.Task.solvable_iff_of_pruneValues_eq_error hw hr hc hpruned
    next =>
      obtain ⟨_, _, h⟩ := yields_bind h
      obtain ⟨_, _, h⟩ := yields_bind h
      obtain ⟨_, _, h⟩ := yields_bind h
      obtain ⟨_, _, h⟩ := yields_bind h
      cases yields_pure h

theorem decides_of_yields_simplified (h : (simplified t groups o).Yields outcome) :
    outcome.Decides t.Solvable := by
  obtain ⟨r, hr', h⟩ := yields_bind h
  cases r with
  | error reason =>
      exact decides_of_yields_trivial h (solvable_of_yields_pruned_error hw hr hc hr')
  | ok smaller =>
      obtain ⟨hc', hsolvable⟩ := solvable_of_yields_pruned hw hr htidy hc hr'
      obtain ⟨hw', hr'⟩ := wellFormed_of_pruned hw hr hr'
      obtain ⟨result, hresult, h⟩ := yields_bind h
      obtain rfl := eq_of_yields_arranged hresult
      split at h
      next => exact absurd h not_yields_throw
      next =>
        obtain rfl := yields_pure h
        exact Outcome.decides_compiled
          ((FiniteDomain.Task.solvable_arrange_iff hw' hr' hc' _ _).trans hsolvable)

end Simplification

/-! ### Encoding -/

theorem decides_of_yields_encode {t : PropositionalTask} {axs : List GroundAxiom}
    (h : t.Suits groups) (hfits : t.FitsGroups groups o.usePartialEncoding)
    (hreduction : t.axioms.IsReduction axs)
    (hy : Compilation.Yields (FiniteDomain.Task.encode t groups o.usePartialEncoding >>= fun
      | .error reason => trivial reason groups
      | .ok task => do
        b.check
        simplified task groups o) outcome) : outcome.Decides t.Solvable := by
  obtain ⟨r, hr, hy⟩ := yields_bind hy
  cases r with
  | error reason =>
      exact decides_of_yields_trivial hy (PropositionalTask.solvable_iff_of_yields_error h hr)
  | ok task =>
      obtain ⟨_, _, hy⟩ := yields_bind hy
      have he := FiniteDomain.encodedFrom_of_yields hr
      obtain ⟨hw, hreset⟩ := PropositionalTask.isWellFormed_of_encoded hfits he
      have hdecides := decides_of_yields_simplified hw hreset
        (PropositionalTask.operatorsAreTidy_of_encoded he)
        (PropositionalTask.isConsistent_of_encoded h hfits hreduction he) hy
      have hsolvable := PropositionalTask.solvable_encoded_iff h hfits hreduction he
      exact ⟨hdecides.solvable.trans hsolvable,
        fun hnone hP => hdecides.unsolvable hnone (hsolvable.mpr hP)⟩

section Grounded

variable {t : Task} {K : Set Datalog.Mention} {g : GroundTask} {goal : List Literal}
  (ht : t.IsNormal) (hK : Datalog.IsGrounded t K) (hexplored : g.IsExplored t)
  (hg : g.IsReachablePart t K)
  (hreliable : ∀ invariants, (Invariant.find t (GroundTask.argumentsOf g.instances)
    o.invariantMaxCandidates o.invariantMaxTime b).Yields invariants →
      ∀ v ∈ invariants, v.IsReliable t (GroundTask.argumentsOf g.instances))
include ht hK hexplored hg hreliable

theorem decides_of_yields_encoded (hgoal : g.goal = some goal)
    (h : (encoded t g goal o b).Yields outcome) : outcome.Decides t.Solvable := by
  obtain ⟨_, _, h⟩ := yields_bind h
  obtain ⟨groups, hgroups, h⟩ := yields_bind h
  obtain ⟨_, _, h⟩ := yields_bind h
  obtain ⟨axioms, haxioms, h⟩ := yields_bind h
  obtain ⟨hstratified, hfrom⟩ := StratifiedAxioms.isStratified_of_yields haxioms
  obtain ⟨hreduction, huses⟩ := StratifiedAxioms.isReduction_of_yields haxioms
  have hfits := fitsGroups_of_isCover ht hexplored
    (FactGroups.isCover_of_yields ht hexplored.nodup hgroups) hstratified hfrom goal t.minimizesCost
  have hsuits := GroundTask.suits_propositional hg hK ht hreduction huses hgroups hreliable
    hexplored hgoal
  have hsolvable := GroundTask.solvable_propositional_iff hg hK ht hreduction huses hgoal
  have hdecides : outcome.Decides (g.propositional t goal axioms).Solvable := by
    dsimp only at h
    split at h
    · obtain ⟨_, _, h⟩ := yields_bind h
      exact decides_of_yields_encode hsuits hfits hreduction h
    · exact decides_of_yields_encode hsuits hfits hreduction h
  exact ⟨hdecides.solvable.trans hsolvable,
    fun hnone hP => hdecides.unsolvable hnone (hsolvable.mpr hP)⟩

end Grounded

/-! ### Compilation -/

/-- The invariants that are found rely on deletions that take place. -/
def FindsReliable (t : Task) (o : Options) (b : Budget) : Prop :=
  ∀ g, (GroundTask.explore t b).Yields g → ∀ invariants,
    (Invariant.find t (GroundTask.argumentsOf g.instances) o.invariantMaxCandidates
      o.invariantMaxTime b).Yields invariants →
        ∀ v ∈ invariants, v.IsReliable t (GroundTask.argumentsOf g.instances)

theorem findsReliable_of_plain {t : Task} (ht : t.IsNormal)
    (hplain : ∀ a ∈ t.actions, a.IsPlain t) (o : Options) (b : Budget) : FindsReliable t o b :=
  fun _ _ _ => FactGroups.isReliable_of_find ht hplain

theorem decides_of_yields_task {t : Task} (ht : t.IsNormal) (hground : t.IsGroundable)
    (hreliable : FindsReliable t o b) (h : (task t o b).Yields outcome) :
    outcome.Decides t.Solvable := by
  obtain ⟨g, hyields, h⟩ := yields_bind h
  have hexplored := GroundTask.isExplored_of_yields ht hyields
  obtain ⟨K, hK, hpart⟩ := GroundTask.exists_isReachablePart ht hground hyields
  split at h
  next hunreachable =>
    refine decides_of_yields_trivial h (iff_of_false ?_ Bool.false_ne_true)
    rcases hpart with ⟨-, hgoal⟩ | ⟨hreachable, -⟩
    · exact GroundTask.not_solvable_of_goalReachable_not_mem hK.toCovers ht hgoal
    · rw [hreachable] at hunreachable
      cases hunreachable
  next hreachable =>
    obtain ⟨-, hg⟩ := hpart.resolve_left fun hpart => hreachable (by rw [hpart.1]; rfl)
    split at h
    next hgoal =>
      exact decides_of_yields_trivial h (iff_of_false
        (GroundTask.not_solvable_of_goal_eq_none hg hK ht hgoal) Bool.false_ne_true)
    next goal hgoal =>
      exact decides_of_yields_encoded ht hK hexplored hg (hreliable g hyields) hgoal h

/-- The compilation of a task with plain actions keeps what can be planned. -/
theorem decides_of_plain {t : Task} (ht : t.IsNormal) (hground : t.IsGroundable)
    (hplain : ∀ a ∈ t.actions, a.IsPlain t) (h : (task t o b).Yields outcome) :
    outcome.Decides t.Solvable :=
  decides_of_yields_task ht hground (findsReliable_of_plain ht hplain o b) h

/-- A compilation keeps what can be planned if the test is right about the invariants that it finds
until its time is up. A task that it calls unsolvable has no plan, and a task that it returns has
one if and only if the given one has. -/
theorem task_preserves_plans {t : Task} (ht : t.IsNormal) (hground : t.IsGroundable)
    (hreliable : FindsReliable t o b) :
    (∀ task, (Compile.task t o b).Yields (.unsolvable task) → ¬ t.Solvable ∧ ¬ task.Solvable) ∧
    ∀ task groups, (Compile.task t o b).Yields (.compiled task groups) →
      (task.Solvable ↔ t.Solvable) := by
  refine ⟨fun task h => ?_, fun task groups h => ?_⟩
  · obtain ⟨hsolvable, hnot⟩ := decides_of_yields_task ht hground hreliable h
    exact ⟨hnot rfl, fun htask => hnot rfl (hsolvable.mp htask)⟩
  · exact (decides_of_yields_task ht hground hreliable h).solvable

theorem isGroundable_travelling : FactGroups.travelling.IsGroundable where
  actions a ha := by
    refine Datalog.Program.isPlain_of_notMem fun v hv => ?_
    obtain rfl := List.mem_singleton.mp ha
    have hnames : ∀ v ∈ (FactGroups.travelling.actions.head (by decide)).variableNames,
        '@' ∉ v.toList := by decide
    exact hnames v hv
  axioms _ hx := absurd hx List.not_mem_nil
  types a ha type htype := by
    have hnone : ∀ a ∈ FactGroups.travelling.init, ∀ type, a.predicate ≠ .type type := by
      simp [FactGroups.travelling, Atom.named]
    exact absurd htype (hnone a ha type)

theorem findsReliable_travelling (o : Options) (b : Budget) :
    FindsReliable FactGroups.travelling o b :=
  findsReliable_of_plain FactGroups.travelling_isNormal FactGroups.travelling_isPlain o b

/-- Driving once leads to the goal. -/
theorem solvable_travelling : FactGroups.travelling.Solvable := by
  have hhome : Atom.named "at" ["home"] ∈ FactGroups.travelling.initialState :=
    (Task.mem_complete_of_not_derived _ rfl).mpr (.inl List.mem_cons_self)
  refine ⟨_, .step .init List.mem_cons_self
    ⟨.cons (b := "home") (by decide) (.cons (b := "work") (by decide) .nil), ?_⟩, ?_⟩
  · change Condition.Holds _ _ _ (.literal (Atom.named "at" ["?x"]).positive)
    rw [Condition.Holds]
    exact (Literal.holds_positive _ _).mpr hhome
  · change Condition.Holds _ _ _ (.literal (Atom.named "at" ["work"]).positive)
    rw [Condition.Holds]
    refine (Literal.holds_positive _ _).mpr ((Task.mem_complete_of_not_derived _ rfl).mpr (.inl ?_))
    refine ⟨⟨[], .true, (Atom.named "at" ["?y"]).positive⟩, List.mem_cons_self, [], .nil, ?_, rfl⟩
    rw [Task.Holds, Condition.Holds]
    trivial

/-- The task is compiled to one with a plan, although the search for invariants is given up before
its first candidate. -/
theorem travelling_preserves_plans :
    let b := Budget.unlimited fun _ => .ofSeconds 400
    FactGroups.travelling.IsNormal ∧ FactGroups.travelling.IsGroundable ∧
    FindsReliable FactGroups.travelling {} b ∧
    (∀ task, ¬ (Compile.task FactGroups.travelling {} b).Yields (.unsolvable task)) ∧
    ∃ task groups, (Compile.task FactGroups.travelling {} b).Yields (.compiled task groups) ∧
      task.Solvable := by
  intro b
  obtain ⟨hunsolvable, hcompiled⟩ := task_preserves_plans FactGroups.travelling_isNormal
    isGroundable_travelling (findsReliable_travelling {} b)
  have hgoal : ∀ l ∈ FactGroups.travelling.goal.literals, l.negated = false := by
    simp only [FactGroups.travelling, Condition.literals_literal, List.forall_mem_singleton]
    rfl
  obtain ⟨outcome, houtcome⟩ := exists_gives_task FactGroups.travelling_isNormal rfl
    (List.forall_mem_nil _) hgoal {} fun _ => .ofSeconds 400
  have hnever : ∀ task, ¬ (Compile.task FactGroups.travelling {} b).Yields (.unsolvable task) :=
    fun task h => (hunsolvable task h).1 solvable_travelling
  refine ⟨FactGroups.travelling_isNormal, isGroundable_travelling, findsReliable_travelling {} b,
    hnever, ?_⟩
  cases outcome with
  | unsolvable task => exact absurd houtcome.yields (hnever task)
  | compiled task groups =>
      exact ⟨task, groups, houtcome.yields,
        (hcompiled task groups houtcome.yields).mpr solvable_travelling⟩

end Compile
end FinitePlanning
