import FinitePlanning.Proofs.Compilation
import FinitePlanning.Proofs.Datalog.Compiled

/-!
The budget of the computation of a model. A bound on the number of atoms stops it if
and only if the least model has more atoms, and has no influence otherwise.
-/

namespace FinitePlanning
namespace Datalog

theorem Queue.size_le_push (q : Queue) (a : GroundAtom) :
    q.atoms.size ≤ (q.push a).atoms.size := by
  rw [push]
  split
  · exact Nat.le_refl _
  · simp

namespace Search

variable {budget : Budget} {table : Array (Selector ConditionRef)} {s : Search} {fuel most : Nat}

theorem size_le_foldl_push (found : Array GroundAtom) (q : Queue) :
    q.atoms.size ≤ (found.foldl .push q).atoms.size := by
  obtain ⟨found⟩ := found
  rw [List.foldl_toArray]
  induction found generalizing q with
  | nil => exact Nat.le_refl _
  | cons a found ih => exact (q.size_le_push a).trans (ih (q.push a))

theorem size_le_process (s : Search) (atom : Nat) :
    s.atoms.size ≤ (process table s atom).atoms.size :=
  size_le_foldl_push _ _

theorem size_le_exhaust (fuel : Nat) (s : Search) :
    s.atoms.size ≤ (exhaust table fuel s).atoms.size := by
  induction fuel generalizing s with
  | zero => exact Nat.le_refl _
  | succ fuel ih =>
      rw [exhaust, Queue.pop?]
      split
      next => exact Nat.le_refl _
      next heq =>
        split at heq
        · cases heq
          exact (size_le_process { s with next := s.next + 1 } _).trans (ih _)
        · cases heq

/-- A run that is not stopped by the budget processes the same atoms. -/
theorem eq_exhaust_of_yields_run {s' : Search} (h : (run budget table fuel s).Yields s') :
    s' = exhaust table fuel s := by
  induction fuel generalizing s with
  | zero => exact (Compilation.yields_pure h).symm
  | succ fuel ih =>
      rw [run] at h
      rw [exhaust]
      cases hnext : s.pop? with
      | none =>
          rw [hnext] at h
          exact (Compilation.yields_pure h).symm
      | some next =>
          rw [hnext] at h
          obtain ⟨-, -, h⟩ := Compilation.yields_bind h
          obtain ⟨-, -, h⟩ := Compilation.yields_bind h
          exact ih h

/-- A bound that the final number of atoms does not exceed has no influence. -/
theorem gives_run (htime : budget.timeIsUp = false)
    (hsize : ∀ most, budget.maxModelAtoms = some most →
      (exhaust table fuel s).atoms.size ≤ most) :
    (run budget table fuel s).Gives (exhaust table fuel s) := by
  induction fuel generalizing s with
  | zero => exact Compilation.gives_pure s
  | succ fuel ih =>
      rw [exhaust] at hsize ⊢
      rw [run]
      cases hnext : s.pop? with
      | none => exact Compilation.gives_pure s
      | some next =>
          simp only [hnext] at hsize ⊢
          have hcheck := Budget.gives_checkModelSize fun most hmost =>
            (size_le_exhaust fuel _).trans (hsize most hmost)
          exact (Budget.gives_tick htime).bind (hcheck.bind (ih hsize))

/-- A bound that the final number of atoms exceeds is noticed when the atom is found. -/
theorem fails_run (htime : budget.timeIsUp = false) (hmost : budget.maxModelAtoms = some most)
    (hpending : s.atoms.size ≤ most ∨ s.next < s.atoms.size ∧ 0 < fuel)
    (hlarge : most < (exhaust table fuel s).atoms.size) :
    (run budget table fuel s).Fails .outOfMemory := by
  induction fuel generalizing s with
  | zero =>
      rw [exhaust] at hlarge
      omega
  | succ fuel ih =>
      rw [exhaust] at hlarge
      rw [run]
      cases hnext : s.pop? with
      | none =>
          simp only [hnext] at hlarge
          rw [Queue.pop?] at hnext
          split at hnext
          · cases hnext
          · omega
      | some next =>
          simp only [hnext] at hlarge ⊢
          refine (Budget.gives_tick htime).bind_fails ?_
          by_cases hnow : (process table { s with toQueue := next.2 } next.1).atoms.size ≤ most
          · have hcheck := Budget.gives_checkModelSize fun m hm =>
              Option.some.inj (hmost.symm.trans hm) ▸ hnow
            exact hcheck.bind_fails (ih (.inl hnow) hlarge)
          · exact (Budget.fails_checkModelSize hmost (Nat.lt_of_not_le hnow)).bind _

end Search

namespace Program

variable {p : Program} {arity : RelationId → Nat} {budget : Budget}

/-- The search in which all atoms were processed. -/
def lastSearch (p : Program) : Search :=
  Search.exhaust (selectors p) (p.atomBound + 1) p.firstSearch

theorem eq_of_yields_model {atoms : List GroundAtom} (h : (p.model budget).Yields atoms) :
    atoms = p.lastSearch.atoms.toList := by
  rw [model] at h
  obtain ⟨s, hrun, h⟩ := Compilation.yields_bind h
  obtain ⟨-, -, h⟩ := Compilation.yields_bind h
  obtain ⟨-, -, h⟩ := Compilation.yields_bind h
  obtain ⟨-, -, h⟩ := Compilation.yields_bind h
  obtain ⟨-, -, h⟩ := Compilation.yields_bind h
  obtain rfl := Compilation.yields_pure h
  obtain rfl := Search.eq_exhaust_of_yields_run hrun
  rfl

theorem gives_model {s : Search}
    (h : (Search.run budget (selectors p) (p.atomBound + 1) p.firstSearch).Gives s) :
    (p.model budget).Gives s.atoms.toList :=
  h.bind (.bind (Compilation.gives_log _ _) (.bind (Compilation.gives_log _ _)
    (.bind (Compilation.gives_log _ _) (.bind (Compilation.gives_log _ _)
      (Compilation.gives_pure _)))))

/-- All atoms of the model were found, each once, and processed. -/
structure IsExhausted (p : Program) (q : Queue) : Prop where
  nodup : q.atoms.toList.Nodup
  mem_iff : ∀ a, a ∈ q.atoms.toList ↔ a ∈ p.meaning
  next : q.next = q.atoms.size

section WellFormed

variable (hp : p.IsWellFormed arity) (hproper : ∀ r ∈ p.rules, r.IsProper)
include hp hproper

theorem isExhausted_lastSearch : p.IsExhausted p.lastSearch.toQueue := by
  obtain ⟨hinvariant, hdone⟩ := ActiveSearch.invariant_exhaust hp (p.atomBound + 1)
    (ActiveSearch.invariant_start hp.safe) (by omega)
  rw [lastSearch, toQueue_exhaust hp.toIsTyped hproper]
  exact ⟨hinvariant.nodup, fun a => ⟨hinvariant.sound a,
    fun ha => hinvariant.meaning_subset hdone ha⟩, by simpa using hdone⟩

/-- The bound on the number of steps is never reached. -/
theorem toQueue_exhaust_eq_lastSearch {fuel : Nat} (h : p.atomBound < fuel) :
    (Search.exhaust (selectors p) fuel p.firstSearch).toQueue = p.lastSearch.toQueue := by
  rw [lastSearch, toQueue_exhaust hp.toIsTyped hproper, toQueue_exhaust hp.toIsTyped hproper,
    ActiveSearch.exhaust_eq hp (ActiveSearch.invariant_start hp.safe) (Nat.lt_add_right _ h)
      (Nat.lt_add_right _ (Nat.lt_succ_self _))]

/-- The computed model has the atoms of the least model, each once. -/
theorem mem_of_yields_model {atoms : List GroundAtom} (h : (p.model budget).Yields atoms) :
    atoms.Nodup ∧ ∀ a, a ∈ atoms ↔ a ∈ p.meaning := by
  obtain rfl := eq_of_yields_model h
  have hexhausted := isExhausted_lastSearch hp hproper
  exact ⟨hexhausted.nodup, hexhausted.mem_iff⟩

end WellFormed

/-- The atoms that are found even if conditions repeat variables, each once. Rules with a single
condition without objects hold. -/
theorem found_of_yields_model (ht : p.IsTyped arity) (hproper : ∀ r ∈ p.rules, r.IsProper)
    {atoms : List GroundAtom} (h : (p.model budget).Yields atoms) :
    atoms.Nodup ∧ (∀ a ∈ atoms, p.Admits arity a) ∧
      ∀ a ∈ atoms, ∀ r ∈ p.rules, ∀ q, r.body = [q] → q.relation = a.relation → q.constants = [] →
        r.head.instantiate (q.bindings a.args) ∈ atoms := by
  obtain ⟨hclosing, hdone⟩ := ActiveSearch.isClosing_exhaust ht
    (fun r hr => (hproper r hr).isGuarded) (p.atomBound + 1) (ActiveSearch.isClosing_start ht)
    (by omega)
  obtain rfl := eq_of_yields_model h
  rw [lastSearch, toQueue_exhaust ht hproper]
  refine ⟨hclosing.nodup, hclosing.admits, fun a ha r hr q hbody hq hconstants => ?_⟩
  obtain ⟨i, hi⟩ := List.mem_iff_getElem?.mp ha
  exact hclosing.projected i a (hdone ▸ (List.getElem?_eq_some_iff.mp hi).1) hi r hr q hbody hq
    hconstants

end Program

/-- A program over the relations and objects of its table, each relation with a fixed
number of arguments, whose rules are of the three kinds. -/
structure Program.IsSplit (p : Program) (arity : RelationId → Nat) : Prop where
  kind : ∀ r ∈ p.rules, r.FitsKind
  nodup : ∀ r ∈ p.rules, ∀ q ∈ r.head :: r.body, q.vars.Nodup
  bound : ∀ r ∈ p.rules, ∀ v ∈ r.head.vars, ∃ q ∈ r.body, v ∈ q.vars
  fact_arity : ∀ a ∈ p.facts, a.args.length = arity a.relation
  rule_arity : ∀ r ∈ p.rules, ∀ q ∈ r.head :: r.body, q.args.length = arity q.relation
  fact_symbols : ∀ a ∈ p.facts, a.relation.index < p.symbols.relations.length ∧
    ∀ o ∈ a.args, o.index < p.symbols.objects.length
  rule_symbols : ∀ r ∈ p.rules, ∀ q ∈ r.head :: r.body,
    q.relation.index < p.symbols.relations.length ∧
      ∀ id, Term.object id ∈ q.args → id.index < p.symbols.objects.length

theorem Program.IsSplit.isProper {p : Program} {arity : RelationId → Nat} (h : p.IsSplit arity) :
    ∀ r ∈ p.rules, r.IsProper := fun r hr =>
  ⟨h.kind r hr, h.bound r hr⟩

theorem Program.IsSplit.isWellFormed {p : Program} {arity : RelationId → Nat}
    (h : p.IsSplit arity) : p.IsWellFormed arity where
  safe r hr := (h.isProper r hr).isGuarded.isSafe fun q hq =>
    h.nodup r hr q (List.mem_cons_of_mem _ hq)
  fact_relation a ha := (h.fact_symbols a ha).1
  head_relation r hr := (h.rule_symbols r hr _ List.mem_cons_self).1
  fact_arity := h.fact_arity
  rule_arity := h.rule_arity
  fact_objects a ha := (h.fact_symbols a ha).2
  rule_objects r hr := (h.rule_symbols r hr _ List.mem_cons_self).2

/-- The least model is computed, each atom once: the loop ends by itself, and a bound on
the number of atoms makes it fail exactly if the least model has more. -/
theorem Program.model_is_leastModel {p : Program} {arity : RelationId → Nat}
    (h : p.IsSplit arity) :
    ∃ atoms : List GroundAtom, (p.model .unlimited).Gives atoms ∧ atoms.Nodup ∧
      (∀ a, a ∈ atoms ↔ Derivable p.factSet p.ruleSet a) ∧
      (∀ fuel, p.atomBound < fuel → ∃ s, s.next = s.atoms.size ∧ s.atoms.toList = atoms ∧
        (Search.run .unlimited (selectors p) fuel p.firstSearch).Gives s) ∧
      ∀ budget most, budget.timeIsUp = false → budget.maxModelAtoms = some most →
        ((p.model budget).Fails .outOfMemory ↔ most < atoms.length) ∧
        (atoms.length ≤ most → (p.model budget).Gives atoms) := by
  have hp := h.isWellFormed
  have hexhausted := isExhausted_lastSearch hp h.isProper
  have hlength : p.lastSearch.atoms.toList.length = p.lastSearch.atoms.size := by simp
  have hgives : ∀ budget most, budget.timeIsUp = false → budget.maxModelAtoms = some most →
      p.lastSearch.atoms.toList.length ≤ most →
        (p.model budget).Gives p.lastSearch.atoms.toList := by
    intro budget most htime hmost hle
    refine gives_model (Search.gives_run htime fun m hm => ?_)
    obtain rfl := Option.some.inj (hmost.symm.trans hm)
    exact hlength ▸ hle
  refine ⟨p.lastSearch.atoms.toList, gives_model (Search.gives_run rfl nofun), hexhausted.nodup,
    hexhausted.mem_iff, fun fuel hfuel => ?_,
    fun budget most htime hmost => ⟨⟨fun hfails => ?_, fun hlarge => ?_⟩,
      hgives budget most htime hmost⟩⟩
  · have hqueue := toQueue_exhaust_eq_lastSearch hp h.isProper hfuel
    refine ⟨Search.exhaust (selectors p) fuel p.firstSearch, ?_, congrArg (·.atoms.toList) hqueue,
      Search.gives_run rfl nofun⟩
    rw [hqueue]
    exact hexhausted.next
  · by_contra hle
    exact (hgives budget most htime hmost (Nat.le_of_not_lt hle)).not_fails hfails
  · refine Compilation.Fails.bind (Search.fails_run htime hmost ?_ (hlength ▸ hlarge)) _
    change p.firstSearch.atoms.size ≤ most ∨ p.firstSearch.next < p.firstSearch.atoms.size ∧ _
    have hnext : p.firstSearch.next = 0 :=
      (Queue.isSet_foldl_push p.sortedFacts Queue.isSet_empty).2.2.2
    rw [hnext]
    omega

namespace Program

def edge (x y : Term) : Pattern := ⟨⟨0⟩, [x, y]⟩

def path (x y : Term) : Pattern := ⟨⟨1⟩, [x, y]⟩

/-- Paths in a graph with a loop. An atom can match both conditions of the join, and the product
pairs every edge from the first object with every edge. -/
def paths : Program where
  symbols := ⟨[.predicate (.named "edge"), .predicate (.named "path")], ["a", "b"]⟩
  facts := [⟨⟨0⟩, [⟨0⟩, ⟨1⟩]⟩, ⟨⟨0⟩, [⟨1⟩, ⟨1⟩]⟩, ⟨⟨0⟩, [⟨0⟩, ⟨1⟩]⟩]
  rules := [
    { kind := .project, body := [edge (.variable "x") (.variable "y")]
      head := path (.variable "x") (.variable "y") },
    { kind := .join, body := [path (.variable "x") (.variable "y"), path (.variable "y") (.variable "z")]
      head := path (.variable "x") (.variable "z") },
    { kind := .product
      body := [edge (.object ⟨0⟩) (.variable "x"), edge (.variable "y") (.variable "z")]
      head := path (.variable "x") (.variable "y") }]

theorem paths_isSplit : paths.IsSplit fun _ => 2 where
  kind := by simp [paths, SplitRule.FitsKind, edge, path, Pattern.vars, Term.variable?]
  nodup := by decide
  bound := by decide
  fact_arity := by decide
  rule_arity := by decide
  fact_symbols := by decide
  rule_symbols := by simp [paths, edge, path]

theorem paths_model_is_leastModel : (paths.IsSplit fun _ => 2) ∧
    ∃ atoms : List GroundAtom, (paths.model .unlimited).Gives atoms ∧ atoms.Nodup ∧
      (∀ a, a ∈ atoms ↔ Derivable paths.factSet paths.ruleSet a) ∧
      ((paths.model { listens := false, maxModelAtoms := some 3 }).Fails .outOfMemory ↔
        3 < atoms.length) := by
  obtain ⟨atoms, hgives, hnodup, hmem, -, hbudget⟩ := model_is_leastModel paths_isSplit
  exact ⟨paths_isSplit, atoms, hgives, hnodup, hmem,
    (hbudget { listens := false, maxModelAtoms := some 3 } 3 rfl rfl).1⟩

end Program
end Datalog
end FinitePlanning
