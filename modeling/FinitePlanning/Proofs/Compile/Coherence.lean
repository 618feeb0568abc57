import FinitePlanning.Compile.Outcome
import FinitePlanning.Proofs.Encoding.WellFormed
import FinitePlanning.Proofs.Exploration.Explored
import FinitePlanning.Proofs.Exploration.Relaxation
import FinitePlanning.Proofs.Exploration.Suitability
import FinitePlanning.Proofs.FiniteDomain.Renumbering
import FinitePlanning.Proofs.Invariant.Cover
import FinitePlanning.Proofs.Pruning.WellFormed
import FinitePlanning.Proofs.Stratification.LeastLayers

/-!
The stages of a compilation agree with each other. Each of them gives what the next one relies on,
so that no check between them fails and the result is well formed.
-/

namespace FinitePlanning

open Compilation

/-! ### Stages that check nothing -/

theorem Datalog.Search.isCoherent_run (b : Budget) (table : Array (Selector ConditionRef))
    (fuel : Nat) (s : Search) : (run b table fuel s).IsCoherent := by
  induction fuel generalizing s with
  | zero => exact isCoherent_pure s
  | succ fuel ih =>
      rw [run]
      split
      · exact isCoherent_pure s
      · exact b.isCoherent_tick.bind fun _ _ => (b.isCoherent_checkModelSize _).bind fun _ _ => ih _

theorem Datalog.Program.isCoherent_model (p : Program) (b : Budget) : (p.model b).IsCoherent :=
  (Search.isCoherent_run b _ _ _).bind fun _ _ => (isCoherent_log _ _).bind fun _ _ =>
    (isCoherent_log _ _).bind fun _ _ => (isCoherent_log _ _).bind fun _ _ =>
    (isCoherent_log _ _).bind fun _ _ => isCoherent_pure _

theorem GroundTask.isCoherent_explore (t : Task) (b : Budget) : (explore t b).IsCoherent := by
  refine (Datalog.Program.isCoherent_model _ b).bind fun model _ => ?_
  rw [ofModel]
  split
  · exact (isCoherent_log _ _).bind fun _ _ => isCoherent_pure _
  · exact (isCoherent_filterMapM fun _ _ => b.isCoherent_tick.bind fun _ _ =>
      isCoherent_ofResult _).bind fun _ _ => (isCoherent_filterMapM fun _ _ =>
        b.isCoherent_tick.bind fun _ _ => isCoherent_pure _).bind fun _ _ =>
          (isCoherent_log _ _).bind fun _ _ => isCoherent_pure _

theorem Invariant.Search.isCoherent_run (b : Budget) (actions : List BalancedAction)
    (most : Nat) (maxTime : Duration) (fuel : Nat) (s : Search) :
    (run b actions most maxTime fuel s).IsCoherent := by
  induction fuel generalizing s with
  | zero => exact isCoherent_pure s
  | succ fuel ih =>
      rw [run]
      split
      · exact isCoherent_pure s
      · refine b.isCoherent_tick.bind fun _ _ => ?_
        split
        · exact (isCoherent_log _ _).bind fun _ _ => isCoherent_pure s
        · exact ih _

theorem FactGroups.isCoherent_compute (t : Task) (atoms : List Atom)
    (argumentsOf : Nat → List (List String)) (o : Options) (b : Budget) :
    (compute t atoms argumentsOf o b).IsCoherent :=
  IsCoherent.bind ((isCoherent_log _ _).bind fun _ _ => (Invariant.Search.isCoherent_run b _ _ _
    _ _).bind fun _ _ => (isCoherent_log _ _).bind fun _ _ => isCoherent_pure _)
    fun _ _ => (isCoherent_log _ _).bind fun _ _ => isCoherent_pure _

theorem StratifiedAxioms.isCoherent_compute (actions : List GroundAction)
    (axioms : List GroundAxiom) (goal : List Literal) (strategy : LayerStrategy) :
    (compute actions axioms goal strategy).IsCoherent := by
  rw [compute]
  refine (isCoherent_log _ _).bind fun _ _ => ?_
  split
  · exact isCoherent_throw fun _ => Failure.noConfusion
  · exact isCoherent_pure _

/-! ### Stages that rely on the ones before them -/

/-- What was explored fits the chosen groups. -/
theorem fitsGroups_of_isCover {t : Task} {g : GroundTask} {groups : FactGroups}
    {axioms : StratifiedAxioms} {isPartial : Bool} (ht : t.IsNormal) (hg : g.IsExplored t)
    (hgroups : groups.IsCover t g.atoms isPartial) (haxioms : axioms.IsStratified)
    (hfrom : axioms.IsFrom g.axioms) (goal : List Literal) (metric : Bool) :
    PropositionalTask.FitsGroups ⟨g.atoms, t.init, goal, g.actions, axioms, metric⟩ groups
      isPartial := by
  have hderived : ∀ a, PropositionalTask.IsDerived
      ⟨g.atoms, t.init, goal, g.actions, axioms, metric⟩ a → a ∈ g.atoms ∧ t.isDerived a = true := by
    rintro a (ha | ha)
    · obtain ⟨p, hp, rfl⟩ := List.mem_map.mp ha
      obtain ⟨x, hx, hxp⟩ := hfrom.layers p hp
      exact hxp ▸ hg.effects x hx
    · obtain ⟨x, hx, rfl⟩ := List.mem_map.mp ha
      obtain ⟨y, hy, rfl⟩ := hfrom.axioms x hx
      exact hg.effects y hy
  refine ⟨hgroups.nodup, fun a ha => ⟨hgroups.mem a ha, fun h => hgroups.count a ha (.inl h)⟩,
    hgroups.initial, hgroups.names, haxioms, fun a ha => ?_, fun a ha l hl hal => ?_,
    fun a ha hinit => ?_, fun a ha x hx hd => ?_⟩
  · obtain ⟨hmem, hd⟩ := hderived a ha
    exact hgroups.count a hmem (.inr hd)
  · exact hgroups.derived l hl a hal (hderived a ha).2
  · have hbasic := (ht.init a hinit).2
    rw [(hderived a ha).2] at hbasic
    cases hbasic
  · have hbasic := hg.actions a ha x hx
    rw [(hderived x.atom hd).2] at hbasic
    cases hbasic

namespace Compile

open FiniteDomain (Trivial)

variable {t : FiniteDomain.Task} {groups : FactGroups} {o : Options} {outcome : Outcome}

/-- A step that does not find a disagreement, and all of whose results are well formed. -/
structure IsSafe (c : Compilation Outcome) : Prop where
  coherent : c.IsCoherent
  wellFormed : ∀ outcome, c.Yields outcome → outcome.task.IsWellFormed ∧ outcome.task.ResetsToOne

theorem IsSafe.bind {α : Type} {c : Compilation α} {f : α → Compilation Outcome}
    (hc : c.IsCoherent) (hf : ∀ a, c.Yields a → IsSafe (f a)) : IsSafe (c >>= f) where
  coherent := hc.bind fun a ha => (hf a ha).coherent
  wellFormed outcome h := by
    obtain ⟨a, ha, h⟩ := yields_bind h
    exact (hf a ha).wellFormed outcome h

theorem isSafe_pure (h : outcome.task.IsWellFormed ∧ outcome.task.ResetsToOne) :
    IsSafe (pure outcome) where
  coherent := isCoherent_pure outcome
  wellFormed _ hy := yields_pure hy ▸ h

theorem wellFormed_trivial (reason : Trivial) :
    reason.task.IsWellFormed ∧ reason.task.ResetsToOne := by
  have hconstant : ∀ v < 2, (FiniteDomain.Task.constant v).IsWellFormed ∧
      (FiniteDomain.Task.constant v).ResetsToOne := by
    intro v hv
    refine ⟨FiniteDomain.Task.check_eq_ok_iff.mp ?_, fun var hd => ?_, nofun⟩
    · match v, hv with
      | 0, _ | 1, _ => decide
    · cases var <;> simp [FiniteDomain.Task.IsDerived, FiniteDomain.Task.layerOf?,
        FiniteDomain.Task.constant] at hd
  rw [Trivial.task]
  split
  · exact hconstant 0 Nat.zero_lt_two
  · exact hconstant 1 Nat.one_lt_two

theorem isSafe_trivial (reason : Trivial) (groups : FactGroups) :
    IsSafe (trivial reason groups) := by
  refine IsSafe.bind (isCoherent_log _ _) fun _ _ => isSafe_pure ?_
  have htask : (Outcome.ofTrivial reason groups).task = reason.task := by
    rw [Outcome.ofTrivial]
    split <;> rfl
  rw [htask]
  exact wellFormed_trivial reason

theorem isCoherent_pruned (t : FiniteDomain.Task) (o : Options) : (pruned t o).IsCoherent := by
  rw [pruned]
  split
  · exact isCoherent_pure _
  · split
    · exact isCoherent_pure _
    · exact (isCoherent_log _ _).bind fun _ _ => (isCoherent_log _ _).bind fun _ _ =>
        (isCoherent_log _ _).bind fun _ _ => (isCoherent_log _ _).bind fun _ _ => isCoherent_pure _

theorem wellFormed_of_pruned (hw : t.IsWellFormed) (hr : t.ResetsToOne)
    {smaller : FiniteDomain.Task} (h : (pruned t o).Yields (.ok smaller)) :
    smaller.IsWellFormed ∧ smaller.ResetsToOne := by
  rw [pruned] at h
  split at h
  · obtain rfl := Except.ok.inj (yields_pure h)
    exact ⟨hw, hr⟩
  · split at h
    next => cases yields_pure h
    next pruned hpruned =>
      obtain ⟨-, -, h⟩ := yields_bind h
      obtain ⟨-, -, h⟩ := yields_bind h
      obtain ⟨-, -, h⟩ := yields_bind h
      obtain ⟨-, -, h⟩ := yields_bind h
      obtain rfl := Except.ok.inj (yields_pure h)
      obtain ⟨goal, hgoal, -, rfl⟩ := FiniteDomain.Task.pruneValues_eq_ok hpruned
      exact FiniteDomain.Task.isWellFormed_withoutValues hw hr hgoal

theorem isCoherent_arranged (t : FiniteDomain.Task) (o : Options) :
    (arranged t o).IsCoherent := by
  have hlog : ∀ message, (Compilation.info message).IsCoherent := isCoherent_log _
  rw [arranged]
  cases o.filterUnimportantVariables <;> cases o.reorderVariables
  · exact isCoherent_pure _
  · exact (hlog _).bind fun _ _ => (hlog _).bind fun _ _ => (hlog _).bind fun _ _ =>
      isCoherent_pure _
  all_goals
    exact (hlog _).bind fun _ _ => (hlog _).bind fun _ _ => (hlog _).bind fun _ _ =>
      (hlog _).bind fun _ _ => isCoherent_pure _

theorem eq_of_yields_arranged {smaller : FiniteDomain.Task} (h : (arranged t o).Yields smaller) :
    smaller = t.arrange o.reorderVariables o.filterUnimportantVariables := by
  have hlog : ∀ {message : String} {c : Compilation FiniteDomain.Task},
      (Compilation.info message >>= fun _ => c).Yields smaller → c.Yields smaller := by
    intro message c h
    obtain ⟨-, -, h⟩ := yields_bind h
    exact h
  revert h
  rw [arranged]
  cases o.filterUnimportantVariables <;> cases o.reorderVariables
  · exact fun h => (yields_pure h).symm
  · exact fun h => (yields_pure (hlog (hlog (hlog h)))).symm
  · exact fun h => (yields_pure (hlog (hlog (hlog (hlog h))))).symm
  · exact fun h => (yields_pure (hlog (hlog (hlog (hlog h))))).symm

theorem isSafe_simplified (hw : t.IsWellFormed) (hr : t.ResetsToOne) (groups : FactGroups)
    (o : Options) : IsSafe (simplified t groups o) := by
  refine IsSafe.bind (isCoherent_pruned t o) fun r hr' => ?_
  cases r with
  | error reason => exact isSafe_trivial reason groups
  | ok smaller =>
      obtain ⟨hw, hr⟩ := wellFormed_of_pruned hw hr hr'
      refine IsSafe.bind (isCoherent_arranged smaller o) fun result hresult => ?_
      obtain rfl := eq_of_yields_arranged hresult
      have hresult := FiniteDomain.Task.isWellFormed_arrange hw hr o.reorderVariables
        o.filterUnimportantVariables
      rw [FiniteDomain.Task.check_eq_ok_iff.mpr hresult.1]
      exact isSafe_pure hresult

theorem isSafe_encode {t : PropositionalTask} {groups : FactGroups} {o : Options}
    (h : t.FitsGroups groups o.usePartialEncoding) (b : Budget) :
    IsSafe (FiniteDomain.Task.encode t groups o.usePartialEncoding >>= fun
      | .error reason => trivial reason groups
      | .ok task => do
        b.check
        simplified task groups o) := by
  refine IsSafe.bind h.isCoherent_encode fun r hr => ?_
  cases r with
  | error reason => exact isSafe_trivial reason groups
  | ok task =>
      obtain ⟨hw, hr⟩ := PropositionalTask.isWellFormed_of_encoded h
        (FiniteDomain.encodedFrom_of_yields hr)
      exact IsSafe.bind b.isCoherent_check fun _ _ => isSafe_simplified hw hr groups o

theorem isSafe_encoded {t : Task} {g : GroundTask} (ht : t.IsNormal) (hg : g.IsExplored t)
    (goal : List Literal) (o : Options) (b : Budget) : IsSafe (encoded t g goal o b) := by
  refine IsSafe.bind b.isCoherent_check fun _ _ =>
    IsSafe.bind (FactGroups.isCoherent_compute t _ _ o b) fun groups hgroups =>
    IsSafe.bind b.isCoherent_check fun _ _ =>
    IsSafe.bind (StratifiedAxioms.isCoherent_compute _ _ goal _) fun axioms haxioms => ?_
  obtain ⟨hstratified, hfrom⟩ := StratifiedAxioms.isStratified_of_yields haxioms
  have hfits := fitsGroups_of_isCover ht hg (FactGroups.isCover_of_yields ht hg.nodup hgroups)
    hstratified hfrom goal t.minimizesCost
  dsimp only
  split
  · exact IsSafe.bind (isCoherent_log _ _) fun _ _ => isSafe_encode hfits b
  · exact isSafe_encode hfits b

theorem isSafe_task {t : Task} (ht : t.IsNormal) (o : Options) (b : Budget) :
    IsSafe (task t o b) := by
  refine IsSafe.bind (GroundTask.isCoherent_explore t b) fun g hg => ?_
  have hg := GroundTask.isExplored_of_yields ht hg
  split
  · exact isSafe_trivial _ _
  · split
    · exact isSafe_trivial _ _
    · exact isSafe_encoded ht hg _ o b

end Compile

/-!
### Compilations without a limit

Without a limit a compilation ends in one way, which depends on when the search for invariants is
given up. Only three of its stages can fail: an action may have
no cost, the axioms may not be stratifiable, and the goal may have several assignments.
-/

open FiniteDomain (Dictionary)

/-! ### Exploration -/

variable {searchTime : Nat → Duration}

theorem Datalog.Search.exists_gives_run (table : Array (Selector ConditionRef)) (fuel : Nat)
    (s : Search) : ∃ s', (run (.unlimited searchTime) table fuel s).Gives s' := by
  induction fuel generalizing s with
  | zero => exact ⟨s, gives_pure s⟩
  | succ fuel ih =>
      rw [run]
      split
      · exact ⟨s, gives_pure s⟩
      next atom queue _ =>
        obtain ⟨s', hs'⟩ := ih (process table { s with toQueue := queue } atom)
        exact ⟨s', Budget.gives_tick_unlimited.bind
          ((Budget.gives_checkModelSize_unlimited _).bind hs')⟩

theorem Datalog.Program.exists_gives_model (p : Program) :
    ∃ model, (p.model (.unlimited searchTime)).Gives model := by
  obtain ⟨s, hs⟩ := Search.exists_gives_run (selectors p) (p.atomBound + 1) p.firstSearch
  exact ⟨_, hs.bind ((gives_log _ _).bind ((gives_log _ _).bind ((gives_log _ _).bind
    ((gives_log _ _).bind (gives_pure _)))))⟩

theorem GroundTask.isSettled_ofModel (t : Task) (p : Datalog.Program)
    (model : List Datalog.GroundAtom) : (ofModel t p model (.unlimited searchTime)).IsSettled := by
  have htick : (Budget.unlimited searchTime).tick.IsSettled := .inl ⟨(), Budget.gives_tick_unlimited⟩
  have hlog : ∀ message, (Compilation.info message).IsSettled := fun _ => .inl ⟨(), gives_log _ _⟩
  rw [ofModel]
  split
  · exact (hlog _).bind fun _ _ => isSettled_pure _
  · exact (isSettled_filterMapM fun _ _ => htick.bind fun _ _ => isSettled_ofResult _).bind fun _ _ =>
      (isSettled_filterMapM fun _ _ => htick.bind fun _ _ => isSettled_pure _).bind fun _ _ =>
        (hlog _).bind fun _ _ => isSettled_pure _

theorem GroundTask.isSettled_explore (t : Task) : (explore t (.unlimited searchTime)).IsSettled :=
  .bind (.inl (Datalog.Program.exists_gives_model _)) fun _ _ => isSettled_ofModel t _ _

theorem Datalog.Search.run_unlimited (table : Array (Selector ConditionRef)) (fuel : Nat)
    (s : Search) : run (.unlimited searchTime) table fuel s = run .unlimited table fuel s := by
  induction fuel generalizing s with
  | zero => rfl
  | succ fuel ih =>
      rw [run, run]
      split
      · rfl
      · simp only [ih]
        rfl

/-- The time that the search for invariants takes does not matter to the exploration. -/
theorem GroundTask.explore_unlimited (t : Task) :
    explore t (.unlimited searchTime) = explore t .unlimited := by
  have htick : (Budget.unlimited searchTime).tick = Budget.unlimited.tick := rfl
  simp only [explore, Datalog.Program.model, Datalog.Search.run_unlimited, ofModel, htick]

/-! ### Encoding -/

/-- A goal has a single assignment, unless it violates a mutex. -/
def FactGroups.SupportsGoal (groups : FactGroups) (goal : List Literal) : Prop :=
  ∀ assignments, (FiniteDomain.encoderOf groups.groups groups.mutexGroups).assignments? goal =
    some assignments → assignments.length = 1

/-- A goal that excludes a single atom is supported if no variable stands for the atom, or if one of
its variables stands for no other atom. Otherwise two values are left at least. -/
theorem FactGroups.supportsGoal_negative_iff {groups : FactGroups} {a : Atom} :
    groups.SupportsGoal [a.negative] ↔
      (∀ g ∈ groups.groups, a ∉ g) ∨ [a] ∈ groups.groups := by
  have hassignments : (FiniteDomain.encoderOf groups.groups groups.mutexGroups).assignments?
      [a.negative] = (Dictionary.ofGroups groups.groups).assignments? [a.negative] := by
    obtain ⟨sets, hsets, -⟩ := Option.map_eq_some_iff.mp
      (Dictionary.assignments?_negative (Dictionary.ofGroups groups.mutexGroups) a)
    rw [FiniteDomain.Encoder.assignments?, hsets]
    rfl
  have hfacts : ∀ g ∈ groups.groups, a ∈ g →
      ∃ f ∈ (Dictionary.ofGroups groups.groups).facts a, groups.groups[f.var]? = some g := by
    intro g hg ha
    obtain ⟨var, hvar⟩ := List.mem_iff_getElem?.mp hg
    obtain ⟨value, hvalue⟩ := List.mem_iff_getElem?.mp ha
    exact ⟨⟨var, value⟩, Dictionary.mem_facts.mpr ⟨g, hvar, hvalue⟩, hvar⟩
  rw [SupportsGoal, hassignments, Dictionary.assignments?_negative]
  simp only [Option.some.injEq, forall_eq']
  cases hmin : ((Dictionary.ofGroups groups.groups).facts a).minOn? fun f =>
      (Dictionary.ofGroups groups.groups).range f.var with
  | none =>
      have hnone : ∀ g ∈ groups.groups, a ∉ g := by
        intro g hg ha
        obtain ⟨f, hf, -⟩ := hfacts g hg ha
        exact Option.isSome_iff_ne_none.mp (List.isSome_minOn?_of_mem hf) hmin
      have hfixed : FiniteDomain.ValueSets.Fixed [] := fun p hp => absurd hp List.not_mem_nil
      exact iff_of_true hfixed.length_assignments (.inl hnone)
  | some f =>
      obtain ⟨g, hg, ha⟩ := Dictionary.mem_facts.mp (List.minOn?_mem hmin)
      have hvalue : f.value < g.length := (List.getElem?_eq_some_iff.mp ha).1
      rw [FiniteDomain.ValueSets.length_assignments_single, Dictionary.range_ofGroups hg,
        length_filter_range (Nat.lt_add_right 1 hvalue), Nat.add_sub_cancel]
      constructor
      · intro hlength
        obtain ⟨b, rfl⟩ := List.length_eq_one_iff.mp hlength
        obtain rfl := List.mem_singleton.mp (List.mem_of_getElem? ha)
        exact .inr (List.mem_of_getElem? hg)
      · rintro (hnone | hsingle)
        · exact absurd (List.mem_of_getElem? ha) (hnone g (List.mem_of_getElem? hg))
        · obtain ⟨f', hf', hgroup⟩ := hfacts [a] hsingle List.mem_cons_self
          have hle := List.apply_get_minOn?_le_of_mem
            (f := fun f => (Dictionary.ofGroups groups.groups).range f.var) hf'
          simp only [hmin, Option.get_some, Dictionary.range_ofGroups hg,
            Dictionary.range_ofGroups hgroup, List.length_singleton] at hle
          omega

namespace PropositionalTask

open FiniteDomain

variable {t : PropositionalTask} {groups : FactGroups} {isPartial : Bool}

/-- How the encoding fails if the goal has several assignments. -/
def goalNotSupported : Failure := .input (.error "Negative goal not supported")

theorem FitsGroups.exists_gives_encode (h : t.FitsGroups groups isPartial)
    (hgoal : groups.SupportsGoal t.goal) :
    ∃ r, (FiniteDomain.Task.encode t groups isPartial).Gives r := by
  obtain ⟨hatoms, ⟨init, hinit⟩, ⟨rules, hrules⟩, layers, hlayers⟩ := h.exists_parts
  cases hassignments : (encoderOf groups.groups groups.mutexGroups).assignments? t.goal with
  | none =>
      refine ⟨.error .goalViolatesMutex, ?_⟩
      rw [FiniteDomain.Task.encode, hatoms, hinit]
      refine (gives_pure ()).bind ((gives_pure init).bind ?_)
      simp only [hassignments]
      exact gives_pure _
  | some assignments =>
      obtain ⟨goal, rfl⟩ := List.length_eq_one_iff.mp (hgoal assignments hassignments)
      by_cases hempty : goal = []
      · refine ⟨.error .goalEmpty, ?_⟩
        rw [FiniteDomain.Task.encode, hatoms, hinit]
        refine (gives_pure ()).bind ((gives_pure init).bind ?_)
        simp only [hassignments, hempty]
        exact gives_pure _
      · exact ⟨_, gives_encode hempty hatoms hinit hassignments hrules hlayers⟩

theorem FitsGroups.fails_encode (h : t.FitsGroups groups isPartial)
    (hgoal : ¬ groups.SupportsGoal t.goal) :
    (FiniteDomain.Task.encode t groups isPartial).Fails goalNotSupported := by
  obtain ⟨hatoms, ⟨init, hinit⟩, -, -⟩ := h.exists_parts
  obtain ⟨assignments, hassignments, hlength⟩ : ∃ assignments,
      (encoderOf groups.groups groups.mutexGroups).assignments? t.goal = some assignments ∧
        assignments.length ≠ 1 := by
    simpa [FactGroups.SupportsGoal] using hgoal
  rw [FiniteDomain.Task.encode, hatoms, hinit]
  refine (gives_pure ()).bind_fails ((gives_pure init).bind_fails ?_)
  simp only [hassignments]
  split
  next hsome => cases hsome
  next hsome => cases hsome; exact absurd rfl hlength
  next hsome => cases hsome; exact absurd rfl hlength
  next => exact fails_throw _

end PropositionalTask

/-! ### Simplification -/

namespace Compile

variable {t : FiniteDomain.Task} {groups : FactGroups} {o : Options}

theorem gives_trivial (reason : FiniteDomain.Trivial) (groups : FactGroups) :
    (trivial reason groups).Gives (.ofTrivial reason groups) :=
  (gives_log _ _).bind (gives_pure _)

theorem exists_gives_pruned (t : FiniteDomain.Task) (o : Options) :
    ∃ r, (pruned t o).Gives r := by
  rw [pruned]
  split
  · exact ⟨_, gives_pure _⟩
  · split
    · exact ⟨_, gives_pure _⟩
    · exact ⟨_, (gives_log _ _).bind ((gives_log _ _).bind ((gives_log _ _).bind
        ((gives_log _ _).bind (gives_pure _))))⟩

theorem gives_arranged (t : FiniteDomain.Task) (o : Options) : (arranged t o).Gives
    (t.arrange o.reorderVariables o.filterUnimportantVariables) := by
  have hlog : ∀ {message : String} {c : Compilation FiniteDomain.Task} {result : FiniteDomain.Task},
      c.Gives result → (Compilation.info message >>= fun _ => c).Gives result :=
    fun h => (gives_log _ _).bind h
  rw [arranged]
  cases o.filterUnimportantVariables <;> cases o.reorderVariables
  · exact gives_pure _
  · exact hlog (hlog (hlog (gives_pure _)))
  · exact hlog (hlog (hlog (hlog (gives_pure _))))
  · exact hlog (hlog (hlog (hlog (gives_pure _))))

theorem exists_gives_simplified (hw : t.IsWellFormed) (hr : t.ResetsToOne) (groups : FactGroups)
    (o : Options) : ∃ outcome, (simplified t groups o).Gives outcome := by
  obtain ⟨r, hpruned⟩ := exists_gives_pruned t o
  cases r with
  | error reason => exact ⟨_, hpruned.bind (gives_trivial reason groups)⟩
  | ok smaller =>
      obtain ⟨hw, hr⟩ := wellFormed_of_pruned hw hr hpruned.yields
      refine ⟨.compiled (smaller.arrange o.reorderVariables o.filterUnimportantVariables) groups,
        hpruned.bind ((gives_arranged smaller o).bind ?_)⟩
      rw [FiniteDomain.Task.check_eq_ok_iff.mpr (FiniteDomain.Task.isWellFormed_arrange hw hr
        o.reorderVariables o.filterUnimportantVariables).1]
      exact gives_pure _

/-- What is left of the compilation of a ground task that fits its groups succeeds. -/
theorem exists_gives_encode {t : PropositionalTask} (h : t.FitsGroups groups o.usePartialEncoding)
    (hgoal : groups.SupportsGoal t.goal) :
    ∃ outcome, Gives (FiniteDomain.Task.encode t groups o.usePartialEncoding >>= fun
      | .error reason => trivial reason groups
      | .ok task => do
        (Budget.unlimited searchTime).check
        simplified task groups o) outcome := by
  obtain ⟨r, hr⟩ := h.exists_gives_encode hgoal
  cases r with
  | error reason => exact ⟨_, hr.bind (gives_trivial reason groups)⟩
  | ok task =>
      obtain ⟨hw, hreset⟩ := PropositionalTask.isWellFormed_of_encoded h
        (FiniteDomain.encodedFrom_of_yields hr.yields)
      obtain ⟨outcome, houtcome⟩ := exists_gives_simplified hw hreset groups o
      exact ⟨outcome, hr.bind (Budget.gives_check_unlimited.bind houtcome)⟩

/-! ### Ground tasks -/

open GroundTask (argumentsOf)
open PropositionalTask (goalNotSupported)

section Ground

variable {t : Task} {g : GroundTask} {goal : List Literal} {groups : FactGroups}
  {axioms : StratifiedAxioms} {o : Options} {searchTime : Nat → Duration} {outcome : Outcome}
  {e : Failure}
  (hgroups : (FactGroups.compute t g.atoms (argumentsOf g.instances) o
    (.unlimited searchTime)).Gives groups)
  (haxioms : (StratifiedAxioms.compute g.actions g.axioms goal o.layerStrategy).Gives axioms)
include hgroups haxioms

theorem fitsGroups_of_gives (ht : t.IsNormal) (hexplored : g.IsExplored t) :
    (g.propositional t goal axioms).FitsGroups groups o.usePartialEncoding := by
  obtain ⟨hstratified, hfrom⟩ := StratifiedAxioms.isStratified_of_yields haxioms.yields
  exact fitsGroups_of_isCover ht hexplored (FactGroups.isCover_of_yields ht hexplored.nodup
    hgroups.yields) hstratified hfrom goal t.minimizesCost

theorem gives_encoded
    (h : Gives (FiniteDomain.Task.encode (g.propositional t goal axioms) groups
      o.usePartialEncoding >>= fun
        | .error reason => trivial reason groups
        | .ok task => do
          (Budget.unlimited searchTime).check
          simplified task groups o) outcome) :
    (encoded t g goal o (.unlimited searchTime)).Gives outcome := by
  refine Budget.gives_check_unlimited.bind (hgroups.bind (Budget.gives_check_unlimited.bind
    (haxioms.bind ?_)))
  dsimp only
  split
  · exact (gives_log _ _).bind h
  · exact h

theorem fails_encoded
    (h : (FiniteDomain.Task.encode (g.propositional t goal axioms) groups
      o.usePartialEncoding).Fails e) : (encoded t g goal o (.unlimited searchTime)).Fails e := by
  refine Budget.gives_check_unlimited.bind_fails (hgroups.bind_fails
    (Budget.gives_check_unlimited.bind_fails (haxioms.bind_fails ?_)))
  dsimp only
  split
  · exact (gives_log _ _).bind_fails (h.bind _)
  · exact h.bind _

end Ground

/-- A goal without negative literals has a single assignment. -/
theorem supportsGoal_of_positive {t : Task} {g : GroundTask} (hg : g.IsInstantiated t)
    {goal : List Literal} (hgoal : g.goal = some goal)
    (hpositive : ∀ l ∈ t.goal.literals, l.negated = false) (groups : FactGroups) :
    groups.SupportsGoal goal := by
  intro assignments hassignments
  obtain ⟨_, -, hassignments⟩ := Option.bind_eq_some_iff.mp hassignments
  refine FiniteDomain.Dictionary.length_assignments?_of_positive (fun l hl => ?_) hassignments
  obtain ⟨-, rfl⟩ := GroundTask.condition?_eq_some_iff.mp (hg.goal goal hgoal)
  obtain ⟨l', hl', rfl⟩ := List.mem_map.mp (List.mem_of_mem_filter hl)
  exact hpositive l' hl'

end Compile

/-! ### Tasks without negation -/

theorem Grounding.exists_action?_eq_ok {g : Grounding} (hcost : g.task.minimizesCost = false)
    (a : Action) (args : List String) : ∃ r, g.action? a args = .ok r := by
  simp only [action?, cost, hcost]
  split
  · exact ⟨_, rfl⟩
  · split
    · exact ⟨_, rfl⟩
    · exact ⟨_, rfl⟩

section Positive

variable {t : Task} (hcost : t.minimizesCost = false)
include hcost

theorem GroundTask.exists_gives_explore :
    ∃ g, (explore t (.unlimited searchTime)).Gives g := by
  obtain ⟨model, hmodel⟩ : ∃ model, ((Datalog.Program.ofTask t).model
    (.unlimited searchTime)).Gives model := Datalog.Program.exists_gives_model _
  suffices h : ∃ g, (ofModel t (Datalog.Program.ofTask t) model (.unlimited searchTime)).Gives g from
    h.imp fun g hg => hmodel.bind hg
  rw [ofModel]
  split
  · exact ⟨_, (gives_log _ _).bind (gives_pure _)⟩
  · obtain ⟨actions, hactions⟩ := exists_gives_filterMapM
      (l := actionInstances (Datalog.Program.ofTask t) model)
      (f := fun p => do
        (Budget.unlimited searchTime).tick
        ofResult ((grounding t (fluentAtoms t (Datalog.Program.ofTask t) model)).action?
          (t.actions.getD p.1 default) p.2)) fun p _ => by
        obtain ⟨r, hr⟩ := Grounding.exists_action?_eq_ok (g := grounding t _) hcost
          (t.actions.getD p.1 default) p.2
        exact ⟨r, Budget.gives_tick_unlimited.bind (hr ▸ gives_pure r)⟩
    obtain ⟨axioms, haxioms⟩ := exists_gives_filterMapM
      (l := axiomInstances (Datalog.Program.ofTask t) model)
      (f := fun p => do
        (Budget.unlimited searchTime).tick
        return (grounding t (fluentAtoms t (Datalog.Program.ofTask t) model)).axiomInstance?
          (t.axioms.getD p.1 default) p.2) fun p _ =>
        ⟨_, Budget.gives_tick_unlimited.bind (gives_pure _)⟩
    exact ⟨_, hactions.bind (haxioms.bind ((gives_log _ _).bind (gives_pure _)))⟩

end Positive

/-- Axioms without negation are stratifiable. -/
theorem StratifiedAxioms.exists_gives_compute {axioms : List GroundAxiom}
    (h : ∀ x ∈ axioms, ∀ l ∈ x.condition, l.negated = false) (actions : List GroundAction)
    (goal : List Literal) (strategy : LayerStrategy) :
    ∃ s, (compute actions axioms goal strategy).Gives s := by
  refine ⟨_, gives_compute_of_isAccepted ?_⟩
  rw [IsAccepted, Dependencies.negativeCycle?_eq_none_iff]
  rintro ⟨a, b, ⟨-, x, hx, -, l, hl, hnegated, -⟩, -⟩
  exact Bool.false_ne_true ((h x (List.mem_of_mem_filter hx) l hl).symm.trans hnegated)

/-- Instances of conditions without negation have none. -/
theorem GroundTask.IsInstantiated.positive {t : Task} {g : GroundTask} (hg : g.IsInstantiated t)
    (haxioms : ∀ x ∈ t.axioms, ∀ l ∈ x.condition.literals, l.negated = false) :
    ∀ x ∈ g.axioms, ∀ l ∈ x.condition, l.negated = false := by
  intro x hx l hl
  obtain ⟨y, hy, args, hr⟩ := hg.axioms x hx
  obtain ⟨-, rfl⟩ := axiomInstance?_eq_some_iff.mp hr
  obtain ⟨l', hl', rfl⟩ := List.mem_map.mp (List.mem_of_mem_filter hl)
  rcases List.mem_cons.mp hy with rfl | hy
  · exact absurd (Condition.literals_true ▸ hl') List.not_mem_nil
  · exact haxioms y hy l' hl'

namespace Compile

/-- A task is compiled if its costs are not minimized and its axioms and its goal have no
negation. -/
theorem exists_gives_task {t : Task} (ht : t.IsNormal) (hcost : t.minimizesCost = false)
    (haxioms : ∀ x ∈ t.axioms, ∀ l ∈ x.condition.literals, l.negated = false)
    (hgoal : ∀ l ∈ t.goal.literals, l.negated = false) (o : Options)
    (searchTime : Nat → Duration) :
    ∃ outcome, (task t o (.unlimited searchTime)).Gives outcome := by
  obtain ⟨g, hgives⟩ := GroundTask.exists_gives_explore hcost
  have hexplored := GroundTask.isExplored_of_yields ht hgives.yields
  have hg := GroundTask.isInstantiated_of_yields hgives.yields
  cases hreachable : g.relaxedReachable with
  | false =>
      refine ⟨.ofTrivial .goalUnreachable {}, hgives.bind ?_⟩
      simp only [hreachable, Bool.not_false, if_true]
      exact gives_trivial _ _
  | true =>
      cases hground : g.goal with
      | none =>
          refine ⟨.ofTrivial .goalFalse {}, hgives.bind ?_⟩
          simp only [hreachable, hground, Bool.not_true, Bool.false_eq_true, if_false]
          exact gives_trivial _ _
      | some goal =>
          obtain ⟨invariants, hfind⟩ := Invariant.exists_gives_find t
            (GroundTask.argumentsOf g.instances) o.invariantMaxCandidates o.invariantMaxTime
            searchTime
          have hgroups : (FactGroups.compute t g.atoms (GroundTask.argumentsOf g.instances) o
              (.unlimited searchTime)).Gives _ := FactGroups.gives_compute hfind
          obtain ⟨layered, hlayered⟩ := StratifiedAxioms.exists_gives_compute
            (hg.positive haxioms) g.actions goal o.layerStrategy
          obtain ⟨outcome, houtcome⟩ :=
            exists_gives_encode (fitsGroups_of_gives hgroups hlayered ht hexplored)
              (supportsGoal_of_positive hg hground hgoal _)
          refine ⟨outcome, hgives.bind ?_⟩
          simpa only [hreachable, hground, Bool.not_true, Bool.false_eq_true, if_false]
            using gives_encoded hgroups hlayered houtcome

/-- A compilation never fails because two of its stages disagree, and all tasks that it returns pass
the check. Their derived variables are binary and initially false, rules make them true, operators
do not change them, and the rules respect the layers. -/
theorem task_is_coherent {t : Task} (ht : t.IsNormal) (o : Options) (b : Budget) :
    (∀ reason, ¬ (task t o b).MayFail (.inconsistent reason)) ∧
      ∀ outcome, (task t o b).Yields outcome → outcome.task.check = .ok () ∧
        outcome.task.IsWellFormed ∧ outcome.task.ResetsToOne := by
  obtain ⟨hcoherent, hwellFormed⟩ := isSafe_task ht o b
  refine ⟨hcoherent, fun outcome h => ?_⟩
  obtain ⟨hw, hr⟩ := hwellFormed outcome h
  exact ⟨FiniteDomain.Task.check_eq_ok_iff.mpr hw, hw, hr⟩

/-- The light is compiled, also if the search for invariants is given up at its second candidate. -/
theorem lighting_task_is_coherent : Datalog.lighting.IsNormal ∧
    ∃ outcome, (task Datalog.lighting {} (.unlimited fun n => .ofSeconds (400 * n))).Yields outcome ∧
      outcome.task.check = .ok () ∧ outcome.task.IsWellFormed ∧ outcome.task.ResetsToOne := by
  have haxioms : ∀ x ∈ Datalog.lighting.axioms, ∀ l ∈ x.condition.literals, l.negated = false := by
    simp [Datalog.lighting, Atom.positive]
  have hgoal : ∀ l ∈ Datalog.lighting.goal.literals, l.negated = false := by
    simp [Datalog.lighting, Atom.positive]
  obtain ⟨outcome, houtcome⟩ := exists_gives_task Datalog.lighting_isNormal rfl haxioms hgoal {}
    fun n => .ofSeconds (400 * n)
  exact ⟨Datalog.lighting_isNormal, outcome, houtcome.yields,
    (task_is_coherent Datalog.lighting_isNormal {} _).2 outcome houtcome.yields⟩

end Compile
end FinitePlanning
