import Mathlib.Data.List.Nodup
import FinitePlanning.Proofs.Semantics.Lifted
import FinitePlanning.Task.Declarations

/-!
Elaborated declarations. No two objects and no two predicates have the same name, and derived
predicates are declared with as many parameters as their rules have.
-/

namespace FinitePlanning

namespace Declarations

open Pddl (TypedSymbol)

/-- Declarations are listed with the symbols of their names, which are different. -/
structure AreNamed {α : Type} (name : α → String) (entries : List (Symbol × α)) : Prop where
  named : ∀ e ∈ entries, e.1.name = name e.2
  nodup : (entries.map fun e => name e.2).Nodup

theorem areNamed_nil {α : Type} (name : α → String) : AreNamed name [] :=
  ⟨List.forall_mem_nil _, List.nodup_nil⟩

theorem AreNamed.concat {α : Type} {name : α → String} {entries : List (Symbol × α)}
    (h : AreNamed name entries) {symbol : Symbol} {a : α} (hname : symbol.name = name a)
    (hnew : entries.find? (·.1.name == symbol.name) = none) :
    AreNamed name (entries ++ [(symbol, a)]) where
  named := List.forall_mem_append.mpr ⟨h.named, List.forall_mem_singleton.mpr hname⟩
  nodup := by
    rw [List.map_append, List.map_singleton]
    refine h.nodup.append (List.nodup_singleton _) (List.disjoint_singleton.mpr fun hmem => ?_)
    obtain ⟨e, he, heq⟩ := List.mem_map.mp hmem
    have hother := List.find?_eq_none.mp hnew e he
    rw [h.named e he, heq, ← hname] at hother
    exact hother (beq_self_eq_true _)

theorem nodup_of_objectList {h : TypeHierarchy} {symbols : List TypedSymbol} {os : List Object}
    (hread : objectList h symbols = .ok os) : (os.map (·.name)).Nodup := by
  rw [objectList] at hread
  obtain ⟨entries, hentries, hread⟩ := exists_of_bind_eq_ok hread
  cases hread
  have hnamed : AreNamed Object.name entries := by
    refine foldlM_ok_keeps (fun s _ earlier later hearlier hstep => ?_) (areNamed_nil _) hentries
    rw [addObject] at hstep
    split at hstep
    next => cases hstep
    next hnew =>
      obtain ⟨type, -, hstep⟩ := exists_of_bind_eq_ok hstep
      cases hstep
      exact hearlier.concat rfl hnew
  rw [List.map_map]
  exact hnamed.nodup

theorem areNamed_of_addPredicates {h : TypeHierarchy} {ps : List Pddl.PredicateDeclaration}
    {declared : List (Symbol × PredicateSchema)}
    (hread : ps.foldlM (addPredicate h) [] = .ok declared) :
    AreNamed PredicateSchema.name declared := by
  refine foldlM_ok_keeps (fun p _ earlier later hearlier hstep => ?_) (areNamed_nil _) hread
  rw [addPredicate] at hstep
  split at hstep
  next => cases hstep
  next =>
    split at hstep
    next => cases hstep
    next hnew =>
      obtain ⟨parameters, -, hstep⟩ := exists_of_bind_eq_ok hstep
      cases hstep
      exact hearlier.concat rfl hnew

/-- The names of predicates with the numbers of their arguments. -/
def heads (predicates : List (Symbol × PredicateSchema)) : List (String × Nat) :=
  predicates.map fun e => (e.2.name, e.2.arity)

theorem heads_markDerived {predicates marked : List (Symbol × PredicateSchema)}
    {d : Pddl.DerivedDeclaration} (hnamed : AreNamed PredicateSchema.name predicates)
    (h : markDerived predicates d = .ok marked) :
    AreNamed PredicateSchema.name marked ∧ heads marked = heads predicates ∧
      (d.name.name, d.parameters.length) ∈ heads predicates := by
  rw [markDerived] at h
  split at h
  next => cases h
  next declaration schema hfind =>
    split at h
    next harity =>
      cases h
      have hname : declaration.name = d.name.name := by simpa using List.find?_some hfind
      have hmem := List.mem_of_find?_eq_some hfind
      refine ⟨⟨?_, ?_⟩, ?_, ?_⟩
      · refine List.forall_mem_map.mpr fun e he => (hnamed.named e he).trans ?_
        dsimp only
        split <;> rfl
      · have hsame : ∀ e ∈ predicates, (if e.2.name = d.name.name then
            { e.2 with derived := true } else e.2 : PredicateSchema).name = e.2.name := by
          intro e _
          split <;> rfl
        rw [List.map_map]
        exact (List.map_congr_left hsame).symm ▸ hnamed.nodup
      · rw [heads, heads, List.map_map]
        refine List.map_congr_left fun e _ => ?_
        dsimp only [Function.comp_apply]
        split <;> rfl
      · exact List.mem_map.mpr ⟨_, hmem, by rw [← hname, hnamed.named _ hmem, harity]⟩
    next => cases h

theorem heads_of_markDerived {derived : List Pddl.DerivedDeclaration}
    {predicates marked : List (Symbol × PredicateSchema)}
    (hnamed : AreNamed PredicateSchema.name predicates)
    (h : derived.foldlM markDerived predicates = .ok marked) :
    AreNamed PredicateSchema.name marked ∧ heads marked = heads predicates ∧
      ∀ d ∈ derived, (d.name.name, d.parameters.length) ∈ heads predicates := by
  induction derived generalizing predicates with
  | nil =>
      cases h
      exact ⟨hnamed, rfl, List.forall_mem_nil _⟩
  | cons d derived ih =>
      rw [List.foldlM_cons] at h
      obtain ⟨first, hfirst, h⟩ := exists_of_bind_eq_ok h
      obtain ⟨hnamed', hheads, hmem⟩ := heads_markDerived hnamed hfirst
      obtain ⟨hlast, hheads', hrest⟩ := ih hnamed' h
      exact ⟨hlast, hheads'.trans hheads, List.forall_mem_cons.mpr ⟨hmem, hheads ▸ hrest⟩⟩

/-- The names of predicates are different, and those of derived declarations are among them. -/
theorem nodup_of_predicateSchemas {h : TypeHierarchy} {d : Pddl.Domain}
    {predicates : List PredicateSchema} (hread : predicateSchemas h d = .ok predicates) :
    (predicates.map (·.name)).Nodup ∧ ∀ x ∈ d.derived, ∃ q ∈ predicates,
      q.name = x.name.name ∧ q.arity = x.parameters.length := by
  rw [predicateSchemas] at hread
  obtain ⟨declared, hdeclared, hread⟩ := exists_of_bind_eq_ok hread
  obtain ⟨marked, hmarked, hread⟩ := exists_of_bind_eq_ok hread
  cases hread
  obtain ⟨hnamed, hheads, hderived⟩ :=
    heads_of_markDerived (areNamed_of_addPredicates hdeclared) hmarked
  refine ⟨?_, fun x hx => ?_⟩
  · rw [List.map_map]
    exact hnamed.nodup
  · obtain ⟨e, he, hhead⟩ := List.mem_map.mp (hheads ▸ hderived x hx)
    obtain ⟨hname, harity⟩ := Prod.ext_iff.mp hhead
    exact ⟨e.2, List.mem_map_of_mem he, hname, harity⟩

/-- The declarations that formulas see are those of the task. -/
theorem hasArity_of_ofSchemas {t : Task} {functions : List FunctionSchema} {types : TypeHierarchy} :
    ∀ entry ∈ (ofSchemas types t.objects t.predicates functions).predicates,
      t.HasArity (.named entry.1) entry.2 := by
  refine List.forall_mem_map.mpr fun q hq => ?_
  exact ⟨q, hq, rfl, rfl⟩

end Declarations
end FinitePlanning
