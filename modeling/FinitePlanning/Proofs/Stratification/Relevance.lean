import FinitePlanning.Proofs.Graph.Connectivity
import FinitePlanning.Proofs.Semantics.Derivation
import FinitePlanning.Proofs.Stratification.Layers

/-!
The dependencies between derived atoms, and the atoms on which given literals depend. The axioms
that are kept for them have the same dependencies, restricted to these atoms.
-/

namespace FinitePlanning

/-- Some axiom of an atom requires a derived atom or, if so indicated, its negation. -/
def DependsOn (axioms : List GroundAxiom) (negated : Bool) (a b : Atom) : Prop :=
  IsHead {x | x ∈ axioms} b ∧
    ∃ x ∈ axioms, x.effect = a ∧ ∃ l ∈ x.condition, l.negated = negated ∧ l.atom = b

/-- A chain of dependencies leads from an atom to another one. -/
def DependsUpon (axioms : List GroundAxiom) : Atom → Atom → Prop :=
  Relation.ReflTransGen fun a b => ∃ negated, DependsOn axioms negated a b

/-- A derived atom that occurs in one of the literals, or on which one that occurs depends. -/
def IsRelevant (axioms : List GroundAxiom) (uses : List Literal) (a : Atom) : Prop :=
  ∃ l ∈ uses, IsHead {x | x ∈ axioms} l.atom ∧ DependsUpon axioms l.atom a

section Relevance

variable {axioms : List GroundAxiom} {uses : List Literal} {negated : Bool} {a b : Atom}
  {v w : Nat}

theorem DependsOn.isHead (h : DependsOn axioms negated a b) : IsHead {x | x ∈ axioms} a :=
  have ⟨_, x, hx, he, _⟩ := h
  ⟨x, hx, he⟩

theorem DependsUpon.isHead (h : DependsUpon axioms a b) (ha : IsHead {x | x ∈ axioms} a) :
    IsHead {x | x ∈ axioms} b := by
  induction h with
  | refl => exact ha
  | tail _ hstep _ =>
      obtain ⟨negated, hstep⟩ := hstep
      exact hstep.1

theorem IsRelevant.isHead (h : IsRelevant axioms uses a) : IsHead {x | x ∈ axioms} a := by
  obtain ⟨l, -, hl, hpath⟩ := h
  exact hpath.isHead hl

theorem IsRelevant.dependsOn (h : IsRelevant axioms uses a) (hab : DependsOn axioms negated a b) :
    IsRelevant axioms uses b := by
  obtain ⟨l, hl, hhead, hpath⟩ := h
  exact ⟨l, hl, hhead, hpath.tail ⟨negated, hab⟩⟩

theorem isRelevant_of_mem {l : Literal} (hl : l ∈ uses) (h : IsHead {x | x ∈ axioms} l.atom) :
    IsRelevant axioms uses l.atom :=
  ⟨l, hl, h, .refl⟩

namespace Dependencies

theorem isHead_iff : IsHead {x | x ∈ axioms} a ↔ ∃ v : Nat, (ofAxioms axioms).atoms[v]? = some a :=
  exists_getElem?_atoms.symm

theorem isHead_of_getElem? (h : (ofAxioms axioms).atoms[v]? = some a) :
    IsHead {x | x ∈ axioms} a :=
  isHead_iff.mpr ⟨v, h⟩

theorem mem_requirements_iff (hv : (ofAxioms axioms).atoms[v]? = some a)
    (hw : (ofAxioms axioms).atoms[w]? = some b) :
    w ∈ ((ofAxioms axioms).requirements negated).getD v [] ↔ DependsOn axioms negated a b := by
  rw [mem_requirements hv]
  refine Iff.trans (exists_congr fun x => and_congr_right fun _ => and_congr_right fun _ =>
    exists_congr fun l => and_congr_right fun _ => and_congr_right fun _ => ?_)
    (and_iff_right (isHead_of_getElem? hw)).symm
  rw [hw, Option.some.injEq]
  exact eq_comm

/-- The edges of the graph are the dependencies between the atoms at their ends. -/
theorem edge_graph_iff (hv : (ofAxioms axioms).atoms[v]? = some a)
    (hw : (ofAxioms axioms).atoms[w]? = some b) :
    (ofAxioms axioms).graph.Edge v w ↔ ∃ negated, DependsOn axioms negated a b := by
  have hlt := (Array.getElem?_eq_some_iff.mp hv).1
  rw [Graph.Edge, successorsOf_graph hlt, mem_orderedSet, List.mem_append,
    mem_requirements_iff hv hw, mem_requirements_iff hv hw, Bool.exists_bool]

theorem reaches_graph_iff (hv : (ofAxioms axioms).atoms[v]? = some a)
    (hw : (ofAxioms axioms).atoms[w]? = some b) :
    (ofAxioms axioms).graph.Reaches v w ↔ DependsUpon axioms a b := by
  constructor
  · intro h
    induction h generalizing b with
    | refl =>
        obtain rfl := Option.some.inj (hv.symm.trans hw)
        exact .refl
    | @tail u w hpath hedge ih =>
        have hlt : u < (ofAxioms axioms).atoms.size := size_graph axioms ▸ hedge.lt
        have hu := Array.getElem?_eq_getElem hlt
        exact (ih hu).tail ((edge_graph_iff hu hw).mp hedge)
  · intro h
    induction h generalizing w with
    | refl =>
        obtain rfl := inj_atoms hv hw
        exact .refl
    | @tail c b _ hstep ih =>
        obtain ⟨negated, hdep⟩ := id hstep
        obtain ⟨u, hu⟩ := isHead_iff.mp hdep.isHead
        exact (ih hu).tail ((edge_graph_iff hu hw).mpr hstep)

/-- The atoms that the traversal finds are the relevant ones. -/
theorem contains_relevantAtoms :
    ((ofAxioms axioms).relevantAtoms uses).contains a = true ↔ IsRelevant axioms uses a := by
  have hroots : ∀ u, u ∈ (ofAxioms axioms).graph.vertices.filter (fun v =>
      ((ofAxioms axioms).atoms[v]?).any
        (Std.HashSet.ofList (uses.map (·.atom))).contains) ↔
        ∃ l ∈ uses, (ofAxioms axioms).atoms[u]? = some l.atom := by
    intro u
    rw [List.mem_filter, Graph.vertices, List.mem_range, size_graph]
    cases hu : (ofAxioms axioms).atoms[u]? with
    | none => simp
    | some c =>
        have hlt := (Array.getElem?_eq_some_iff.mp hu).1
        rw [and_iff_right hlt, Option.any_some, Std.HashSet.contains_ofList,
          List.contains_iff_mem, List.mem_map]
        exact exists_congr fun l => and_congr_right fun _ => by rw [Option.some.injEq, eq_comm]
  have hdiscovered : ∀ {v : Nat}, (ofAxioms axioms).atoms[v]? = some a →
      (v ∈ ((ofAxioms axioms).graph.traverse ((ofAxioms axioms).graph.vertices.filter fun v =>
        ((ofAxioms axioms).atoms[v]?).any
          (Std.HashSet.ofList (uses.map (·.atom))).contains)).discovered ↔
        ∃ l ∈ uses, ∃ u : Nat, (ofAxioms axioms).atoms[u]? = some l.atom ∧
          DependsUpon axioms l.atom a) := by
    intro v hv
    have hlt : v < (ofAxioms axioms).graph.size :=
      (size_graph axioms).symm ▸ (Array.getElem?_eq_some_iff.mp hv).1
    rw [Graph.mem_discovered_traverse hlt]
    constructor
    · intro ⟨u, hu, hpath⟩
      obtain ⟨l, hl, hget⟩ := (hroots u).mp hu
      exact ⟨l, hl, u, hget, (reaches_graph_iff hget hv).mp hpath⟩
    · intro ⟨l, hl, u, hget, hpath⟩
      exact ⟨u, (hroots u).mpr ⟨l, hl, hget⟩, (reaches_graph_iff hget hv).mpr hpath⟩
  rw [relevantAtoms, Std.HashSet.contains_ofList, List.contains_iff_mem, List.mem_filterMap]
  constructor
  · intro ⟨v, hmem, hv⟩
    obtain ⟨l, hl, u, hget, hpath⟩ := (hdiscovered hv).mp hmem
    exact ⟨l, hl, isHead_of_getElem? hget, hpath⟩
  · intro ⟨l, hl, hhead, hpath⟩
    obtain ⟨u, hu⟩ := isHead_iff.mp hhead
    obtain ⟨v, hv⟩ := isHead_iff.mp (hpath.isHead hhead)
    exact ⟨v, (hdiscovered hv).mpr ⟨l, hl, u, hu, hpath⟩, hv⟩

end Dependencies

theorem mem_relevantAxioms {x : GroundAxiom} :
    x ∈ relevantAxioms axioms uses ↔ x ∈ axioms ∧ IsRelevant axioms uses x.effect := by
  rw [relevantAxioms, List.mem_filter, Dependencies.contains_relevantAtoms]

theorem isHead_relevantAxioms :
    IsHead {x | x ∈ relevantAxioms axioms uses} a ↔ IsRelevant axioms uses a := by
  constructor
  · intro ⟨x, hx, he⟩
    exact he ▸ (mem_relevantAxioms.mp hx).2
  · intro h
    obtain ⟨x, hx, rfl⟩ := h.isHead
    exact ⟨x, mem_relevantAxioms.mpr ⟨hx, h⟩, rfl⟩

/-- The axioms that are kept have the dependencies of the relevant atoms. -/
theorem dependsOn_relevantAxioms : DependsOn (relevantAxioms axioms uses) negated a b ↔
    IsRelevant axioms uses a ∧ DependsOn axioms negated a b := by
  constructor
  · intro ⟨hb, x, hx, he, hl⟩
    obtain ⟨hx, hrelevant⟩ := mem_relevantAxioms.mp hx
    exact ⟨he ▸ hrelevant, (isHead_relevantAxioms.mp hb).isHead, x, hx, he, hl⟩
  · intro ⟨ha, hdep⟩
    obtain ⟨x, hx, he, hl⟩ := hdep.2
    exact ⟨isHead_relevantAxioms.mpr (ha.dependsOn hdep), x,
      mem_relevantAxioms.mpr ⟨hx, he ▸ ha⟩, he, hl⟩

end Relevance
end FinitePlanning
