import FinitePlanning.Proofs.Datalog.Bounded
import FinitePlanning.Proofs.Datalog.Typing

/-!
Splitting a list of rules. The rules that come out are of the three kinds, each auxiliary relation
is defined once, and what is derived for the other relations is what the given rules derive.
-/

namespace FinitePlanning
namespace Datalog

variable {T : SymbolTable} {rules : List Rule} {facts : Set GroundAtom}

/-- Rules over the relations of a table that has no auxiliary ones. They have conditions with all
variables of their heads, and repeat no variable within an atom. -/
structure AreSplittable (T : SymbolTable) (rules : List Rule) : Prop where
  relations_nodup : T.relations.Nodup
  given : ∀ r ∈ T.relations, r.isAuxiliary = false
  nonempty : ∀ r ∈ rules, r.body ≠ []
  bound : ∀ r ∈ rules, ∀ v ∈ r.head.vars, ∃ q ∈ r.body, v ∈ q.vars
  nodup : ∀ r ∈ rules, ∀ q ∈ r.head :: r.body, q.vars.Nodup
  relation_lt : ∀ r ∈ rules, ∀ q ∈ r.head :: r.body, q.relation.index < T.relations.length

theorem AreSplittable.spec (h : AreSplittable T rules) :
    ∃ aux, SplitsAll T.relations.length (splitRules T rules).2.relations.length rules aux
        (splitRules T rules).1 ∧ T.AddsAuxiliary (splitRules T rules).2 := by
  have hfresh : ∀ k, .auxiliary k ∉ T.relations := fun k hk =>
    absurd (h.given _ hk) (Bool.noConfusion : ¬ true = false)
  obtain ⟨aux, hsplit, hadds, -⟩ := splitRules_spec hfresh h.nonempty h.bound
  exact ⟨aux, hsplit, hadds⟩

/-- Relations of the table that was given are not auxiliary. -/
theorem AreSplittable.isAuxiliary_eq_false (h : AreSplittable T rules) {T' : SymbolTable}
    (hadds : T.AddsAuxiliary T') {id : RelationId} (hid : id.index < T.relations.length) :
    (T'.relation id).isAuxiliary = false := by
  rw [hadds.relation_eq hid, SymbolTable.relation_eq_getElem hid]
  exact h.given _ (List.getElem_mem hid)

theorem relation_lt_of_mem_leastModel {n : Nat} {rules : Set Rule}
    (hfacts : ∀ a ∈ facts, a.relation.index < n) (hrules : ∀ r ∈ rules, r.head.relation.index < n)
    {a : GroundAtom} (ha : a ∈ leastModel facts rules) : a.relation.index < n := by
  cases ha with
  | fact ha => exact hfacts a ha
  | rule hr σ _ => exact hrules _ hr

namespace SplitsAll

variable {n n' : Nat} {aux parts : List SplitRule}

theorem head_lt (h : SplitsAll n n' rules aux parts)
    (hrules : ∀ r ∈ rules, r.head.relation.index < n) :
    ∀ x ∈ parts, x.head.relation.index < n' := by
  intro x hx
  rcases h.of_mem x hx with hx | ⟨r, hr, hlast⟩
  · exact (h.range x hx).2
  · rw [hlast.head]
    exact (hrules r hr).trans_le h.le

/-- No atom of a rule that was split repeats a variable if no given one does. -/
theorem nodup_vars (h : SplitsAll n n' rules aux parts)
    (hnodup : ∀ r ∈ rules, ∀ q ∈ r.head :: r.body, q.vars.Nodup) :
    ∀ x ∈ parts, ∀ q ∈ x.head :: x.body, q.vars.Nodup := by
  have hgiven : ∀ q ∈ rules.flatMap (·.body), q.vars.Nodup := by
    intro q hq
    obtain ⟨r, hr, hq⟩ := List.mem_flatMap.mp hq
    exact hnodup r hr q (List.mem_cons_of_mem _ hq)
  have haux : ∀ q : Pattern, (∃ y ∈ aux, q = y.head) → q.vars.Nodup := by
    rintro q ⟨y, hy, rfl⟩
    exact h.distinct y hy
  intro x hx q hq
  rcases h.of_mem x hx with hx | ⟨r, hr, hlast⟩
  · rcases List.mem_cons.mp hq with rfl | hq
    · exact h.distinct x hx
    · exact (h.bodies x hx q hq).elim (hgiven q) (haux q)
  · rcases List.mem_cons.mp hq with rfl | hq
    · rw [hlast.head]
      exact hnodup r hr _ List.mem_cons_self
    · exact (hlast.last_body q hq).elim
        (fun hq => hnodup r hr q (List.mem_cons_of_mem _ hq)) (haux q)

/-- The rules with new heads are the ones for the new relations. -/
theorem nodup_new_heads (h : SplitsAll n n' rules aux parts)
    (hrules : ∀ r ∈ rules, r.head.relation.index < n) :
    ((parts.map (·.head.relation)).filter (n ≤ ·.index)).Nodup := by
  obtain ⟨lasts, hperm, hlasts⟩ := h.perm
  have hnew : (aux.map (·.head.relation)).filter (n ≤ ·.index) = aux.map (·.head.relation) := by
    refine List.filter_eq_self.mpr fun id hid => ?_
    obtain ⟨x, hx, rfl⟩ := List.mem_map.mp hid
    exact decide_eq_true (h.range x hx).1
  have hold : (lasts.map (·.head.relation)).filter (n ≤ ·.index) = [] := by
    refine List.filter_eq_nil_iff.mpr fun id hid hle => ?_
    obtain ⟨x, hx, rfl⟩ := List.mem_map.mp hid
    obtain ⟨r, hr, he⟩ := hlasts x hx
    rw [he] at hle
    exact absurd (of_decide_eq_true hle) (Nat.not_le_of_lt (hrules r hr))
  refine ((hperm.map (·.head.relation)).filter _).nodup_iff.mpr ?_
  rw [List.map_append, List.filter_append, hnew, hold, List.append_nil]
  exact h.nodup

end SplitsAll

/-- Splitting rules does not fail, and gives rules of the three kinds that repeat no variable within
an atom. An auxiliary relation is the head of one of them at most, and the atoms of the other
relations that are derived are the same as before. -/
theorem splitRules_keeps_model (h : AreSplittable T rules)
    (hfacts : ∀ a ∈ facts, a.relation.index < T.relations.length) :
    splitRules? T rules = some (splitRules T rules) ∧
    {a ∈ leastModel facts {r | ∃ x ∈ (splitRules T rules).1, x.toRule = r} |
        ((splitRules T rules).2.relation a.relation).isAuxiliary = false} =
      leastModel facts {r | r ∈ rules} ∧
    (∀ x ∈ (splitRules T rules).1, x.FitsKind ∧ (∀ q ∈ x.head :: x.body, q.vars.Nodup) ∧
      ∀ v ∈ x.head.vars, ∃ q ∈ x.body, v ∈ q.vars) ∧
    (((splitRules T rules).1.map (·.head.relation)).filter fun id =>
      ((splitRules T rules).2.relation id).isAuxiliary).Nodup := by
  obtain ⟨aux, hsplit, hadds⟩ := h.spec
  have hheads : ∀ r ∈ rules, r.head.relation.index < T.relations.length := fun r hr =>
    h.relation_lt r hr _ List.mem_cons_self
  have hlt := hsplit.head_lt hheads
  refine ⟨?_, Set.Subset.antisymm ?_ ?_, fun x hx => ?_, ?_⟩
  · rw [splitRules?_eq, splitRules_eq]
  · rintro a ⟨ha, hauxiliary⟩
    refine hsplit.meaning_subset hfacts h.relation_lt ha
      (hadds.index_lt h.relations_nodup ?_ hauxiliary)
    refine relation_lt_of_mem_leastModel (fun b hb => (hfacts b hb).trans_le hsplit.le) ?_ ha
    rintro r ⟨x, hx, rfl⟩
    exact hlt x hx
  · intro a ha
    exact ⟨hsplit.subset_meaning ha,
      h.isAuxiliary_eq_false hadds (relation_lt_of_mem_leastModel hfacts hheads ha)⟩
  · have hproper := hsplit.isProper x hx
    exact ⟨hproper.kind, hsplit.nodup_vars h.nodup x hx, hproper.bound⟩
  · refine (hsplit.nodup_new_heads hheads).sublist (List.monotone_filter_right _ fun id hid => ?_)
    refine decide_eq_true (Nat.le_of_not_lt fun hold => ?_)
    rw [h.isAuxiliary_eq_false hadds hold] at hid
    cases hid

namespace Program

/-- The relations of `paths` and one without arguments. -/
def routeTable : SymbolTable :=
  ⟨[.predicate (.named "edge"), .predicate (.named "path"), .predicate (.named "open")], ["a", "b"]⟩

/-- A chain of three conditions, and conditions without common variables, one of which has no
variable at all. -/
def routes : List Rule := [
  { body := [edge (.variable "w") (.variable "x"), edge (.variable "x") (.variable "y"),
      edge (.variable "y") (.variable "z")]
    head := path (.variable "w") (.variable "z") },
  { body := [edge (.variable "x") (.variable "z"), edge (.variable "y") (.object ⟨0⟩), ⟨⟨2⟩, []⟩]
    head := path (.variable "x") (.variable "y") }]

theorem routes_areSplittable : AreSplittable routeTable routes where
  relations_nodup := by decide
  given := by decide
  nonempty := by decide
  bound := by decide
  nodup := by decide
  relation_lt := by decide

/-- Around a loop there is a path of three edges. -/
theorem loop_mem_routes : (⟨⟨1⟩, [⟨1⟩, ⟨1⟩]⟩ : GroundAtom) ∈
    leastModel {⟨⟨0⟩, [⟨1⟩, ⟨1⟩]⟩} {r | r ∈ routes} := by
  refine .rule (r := routes.head (by decide)) (List.head_mem _) (fun _ => ⟨1⟩) fun q hq => ?_
  have hedge : ∀ q ∈ (routes.head (by decide)).body, q.eval (fun _ => ⟨1⟩) = ⟨⟨0⟩, [⟨1⟩, ⟨1⟩]⟩ := by
    decide
  rw [hedge q hq]
  exact .fact rfl

theorem routes_keep_model : AreSplittable routeTable routes ∧
    (∀ a ∈ ({⟨⟨0⟩, [⟨1⟩, ⟨1⟩]⟩} : Set GroundAtom), a.relation.index < routeTable.relations.length) ∧
    (⟨⟨1⟩, [⟨1⟩, ⟨1⟩]⟩ : GroundAtom) ∈ leastModel {⟨⟨0⟩, [⟨1⟩, ⟨1⟩]⟩}
      {r | ∃ x ∈ (splitRules routeTable routes).1, x.toRule = r} ∧
    ∀ x ∈ (splitRules routeTable routes).1, x.FitsKind := by
  have hfacts : ∀ a ∈ ({⟨⟨0⟩, [⟨1⟩, ⟨1⟩]⟩} : Set GroundAtom),
      a.relation.index < routeTable.relations.length := by
    rintro a rfl
    decide
  obtain ⟨-, hmodel, hproper, -⟩ := splitRules_keeps_model routes_areSplittable hfacts
  exact ⟨routes_areSplittable, hfacts, (hmodel.ge loop_mem_routes).1, fun x hx => (hproper x hx).1⟩

end Program

end Datalog
end FinitePlanning
