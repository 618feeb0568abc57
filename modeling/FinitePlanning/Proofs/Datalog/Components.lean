import Mathlib.Data.List.Induction
import Mathlib.Data.List.Nodup
import FinitePlanning.Datalog.Split
import FinitePlanning.Proofs.Datalog.Semantics
import FinitePlanning.Proofs.UnionFind

/-!
The groups of conditions that a rule is split into. Conditions of different groups
have no variable in common.
-/

namespace FinitePlanning
namespace Datalog

variable {conditions rest : List Pattern} {vars : List String} {p q : Pattern} {v : String}

theorem mem_sortedNames {names : List String} : v ∈ Condition.sortedNames names ↔ v ∈ names := by
  simp [Condition.sortedNames, List.mem_mergeSort]

theorem mem_variableSet : v ∈ variableSet conditions ↔ ∃ p ∈ conditions, v ∈ p.vars := by
  rw [variableSet, mem_sortedNames, List.mem_flatMap]

theorem nodup_variableSet (ps : List Pattern) : (variableSet ps).Nodup :=
  (List.mergeSort_perm _ _).nodup_iff.mpr (nodup_eraseDups _)

theorem mem_occurrences {i : Nat} :
    (v, i) ∈ occurrences conditions ↔ ∃ p, conditions[i]? = some p ∧ v ∈ p.vars := by
  simp [occurrences, List.mem_zipIdx_iff_getElem?]

/-! ### Connected conditions -/

/-- All conditions in which a variable was seen are in one set. -/
structure Connects (n : Nat) (seen : List (String × Nat)) (c : Connections) : Prop where
  size : c.sets.size = n
  lt : ∀ v i, c.first.lookup v = some i → i < n
  joined : ∀ v i, (v, i) ∈ seen →
    ∃ j, c.first.lookup v = some j ∧ c.sets.root j = c.sets.root i

theorem Connects.add {n : Nat} {seen : List (String × Nat)} {c : Connections}
    (h : Connects n seen c) {i : Nat} (hi : i < n) :
    Connects n (seen ++ [(v, i)]) (c.add (v, i)) := by
  have hkept : ∀ {a b k l : Nat}, a < n → b < n → c.sets.root k = c.sets.root l →
      (c.sets.unite a b).root k = (c.sets.unite a b).root l := fun ha hb hkl =>
    (UnionFind.root_unite_eq_iff (h.size ▸ ha) (h.size ▸ hb)).mpr (.inl hkl)
  rw [Connections.add]
  cases hfirst : c.first.lookup v with
  | some j =>
      have hj := h.lt v j hfirst
      refine ⟨UnionFind.size_unite.trans h.size, h.lt, fun w k hk => ?_⟩
      rcases List.mem_append.mp hk with hk | hk
      · obtain ⟨l, hl, hroot⟩ := h.joined w k hk
        exact ⟨l, hl, hkept hj hi hroot⟩
      · cases List.mem_singleton.mp hk
        exact ⟨j, hfirst, (UnionFind.root_unite_eq_iff (h.size ▸ hj) (h.size ▸ hi)).mpr
          (.inr (.inl ⟨rfl, rfl⟩))⟩
  | none =>
      refine ⟨UnionFind.size_unite.trans h.size, fun w j hj => ?_, fun w k hk => ?_⟩
      · rw [List.lookup_cons] at hj
        split at hj
        · exact Option.some.inj hj ▸ hi
        · exact h.lt w j hj
      · rcases List.mem_append.mp hk with hk | hk
        · obtain ⟨l, hl, hroot⟩ := h.joined w k hk
          refine ⟨l, ?_, hkept hi hi hroot⟩
          rw [List.lookup_cons]
          split
          next heq =>
            rw [beq_iff_eq] at heq
            rw [heq, hfirst] at hl
            cases hl
          next => exact hl
        · cases List.mem_singleton.mp hk
          exact ⟨i, List.lookup_cons_self, rfl⟩

theorem connects_connections (conditions : List Pattern) :
    Connects conditions.length (occurrences conditions) (connections conditions) := by
  have hlt : ∀ o ∈ occurrences conditions, o.2 < conditions.length := fun ⟨v, i⟩ ho =>
    let ⟨_, hp, _⟩ := mem_occurrences.mp ho
    (List.getElem?_eq_some_iff.mp hp).1
  rw [connections]
  generalize occurrences conditions = os at hlt ⊢
  induction os using List.reverseRecOn with
  | nil => exact ⟨UnionFind.size_ofSize _, nofun, nofun⟩
  | append_singleton os o ih =>
      rw [List.foldl_concat]
      exact (ih fun o ho => hlt o (List.mem_append_left _ ho)).add
        (hlt o (List.mem_append_right _ (List.mem_singleton_self o)))

/-- Conditions with a common variable are connected. -/
theorem root_eq_root_of_mem_vars {i j : Nat} (hp : conditions[i]? = some p)
    (hq : conditions[j]? = some q) (hvp : v ∈ p.vars) (hvq : v ∈ q.vars) :
    (connections conditions).sets.root i = (connections conditions).sets.root j := by
  have h := (connects_connections conditions).joined v
  obtain ⟨k, hk, hi⟩ := h i (mem_occurrences.mpr ⟨p, hp, hvp⟩)
  obtain ⟨l, hl, hj⟩ := h j (mem_occurrences.mpr ⟨q, hq, hvq⟩)
  obtain rfl := Option.some.inj (hk.symm.trans hl)
  exact hi.symm.trans hj

/-! ### Groups -/

/-- There is a group for each root, with the conditions that have it. -/
structure Groups (conditions : List (Pattern × Nat)) (groups : List (Nat × List Pattern)) : Prop
    where
  nodup : (groups.map (·.1)).Nodup
  ne_nil : ∀ g ∈ groups, g.2 ≠ []
  rooted : ∀ g ∈ groups, ∀ p ∈ g.2, (p, g.1) ∈ conditions
  grouped : ∀ x ∈ conditions, ∃ g ∈ groups, x.1 ∈ g.2

section Groups

variable {root : Nat} {rooted : List (Pattern × Nat)} {groups : List (Nat × List Pattern)}

theorem addToGroup_of_notMem (h : root ∉ groups.map (·.1)) :
    addToGroup root p groups = groups ++ [(root, [p])] := by
  induction groups with
  | nil => rfl
  | cons g groups ih =>
      obtain ⟨hne, hrest⟩ := not_or.mp (mt List.mem_cons.mpr h)
      rw [addToGroup, if_neg (Ne.symm hne), ih hrest, List.cons_append]

theorem addToGroup_of_mem (h : root ∈ groups.map (·.1)) : ∃ front group back,
    groups = front ++ (root, group) :: back ∧
      addToGroup root p groups = front ++ (root, group ++ [p]) :: back := by
  induction groups with
  | nil => exact absurd h List.not_mem_nil
  | cons g groups ih =>
      by_cases hroot : g.1 = root
      · exact ⟨[], g.2, groups, by rw [← hroot]; rfl, by rw [addToGroup, if_pos hroot, hroot]; rfl⟩
      · obtain ⟨front, group, back, hgroups, hadd⟩ :=
          ih ((List.mem_cons.mp h).resolve_left (Ne.symm hroot))
        exact ⟨g :: front, group, back, by rw [hgroups]; rfl,
          by rw [addToGroup, if_neg hroot, hadd]; rfl⟩

theorem Groups.add (h : Groups rooted groups) :
    Groups (rooted ++ [(p, root)]) (addToGroup root p groups) := by
  have hold : ∀ g ∈ groups, ∀ q ∈ g.2, (q, g.1) ∈ rooted ++ [(p, root)] := fun g hg q hq =>
    List.mem_append_left _ (h.rooted g hg q hq)
  have hnew : (p, root) ∈ rooted ++ [(p, root)] := by simp
  by_cases hroot : root ∈ groups.map (·.1)
  · obtain ⟨front, group, back, rfl, hadd⟩ := addToGroup_of_mem (p := p) hroot
    rw [hadd]
    constructor
    · have hnodup := h.nodup
      rw [List.map_append, List.map_cons] at hnodup ⊢
      exact hnodup
    · obtain ⟨hfront, hback⟩ := List.forall_mem_append.mp h.ne_nil
      exact List.forall_mem_append.mpr ⟨hfront, List.forall_mem_cons.mpr
        ⟨List.append_ne_nil_of_right_ne_nil _ (List.cons_ne_nil _ _),
          (List.forall_mem_cons.mp hback).2⟩⟩
    · obtain ⟨hfront, hback⟩ := List.forall_mem_append.mp hold
      obtain ⟨hgroup, hback⟩ := List.forall_mem_cons.mp hback
      exact List.forall_mem_append.mpr ⟨hfront, List.forall_mem_cons.mpr
        ⟨List.forall_mem_append.mpr ⟨hgroup, List.forall_mem_singleton.mpr hnew⟩, hback⟩⟩
    · refine List.forall_mem_append.mpr ⟨fun x hx => ?_, List.forall_mem_singleton.mpr
        ⟨(root, group ++ [p]), by simp, by simp⟩⟩
      obtain ⟨g, hg, hmem⟩ := h.grouped x hx
      rcases List.mem_append.mp hg with hg | hg
      · exact ⟨g, List.mem_append_left _ hg, hmem⟩
      · rcases List.mem_cons.mp hg with rfl | hg
        · exact ⟨(root, group ++ [p]), by simp, List.mem_append_left _ hmem⟩
        · exact ⟨g, List.mem_append_right _ (List.mem_cons_of_mem _ hg), hmem⟩
  · rw [addToGroup_of_notMem hroot]
    constructor
    · rw [List.map_append]
      refine List.nodup_append.mpr ⟨h.nodup, List.nodup_singleton _, ?_⟩
      rintro a ha _ hb rfl
      exact hroot ((List.mem_singleton.mp hb : a = root) ▸ ha)
    · exact List.forall_mem_append.mpr
        ⟨h.ne_nil, List.forall_mem_singleton.mpr (List.cons_ne_nil _ _)⟩
    · exact List.forall_mem_append.mpr ⟨hold, List.forall_mem_singleton.mpr
        (List.forall_mem_singleton.mpr hnew)⟩
    · refine List.forall_mem_append.mpr ⟨fun x hx => ?_, List.forall_mem_singleton.mpr
        ⟨_, List.mem_append_right _ (List.mem_singleton_self _), List.mem_singleton_self _⟩⟩
      obtain ⟨g, hg, hmem⟩ := h.grouped x hx
      exact ⟨g, List.mem_append_left _ hg, hmem⟩

theorem groups_foldl (rooted : List (Pattern × Nat)) :
    Groups rooted (rooted.foldl (fun groups (p, root) => addToGroup root p groups) []) := by
  induction rooted using List.reverseRecOn with
  | nil => exact ⟨List.nodup_nil, nofun, nofun, nofun⟩
  | append_singleton rooted x ih =>
      rw [List.foldl_concat]
      exact ih.add

end Groups

theorem groups_components (conditions : List Pattern) : ∃ groups,
    components conditions = groups.map (·.2) ∧
      Groups (conditions.zip ((List.range conditions.length).map (connections conditions).sets.root))
        groups :=
  ⟨_, rfl, UnionFind.roots_eq _ _ ▸ groups_foldl _⟩

theorem mem_zip_roots {ρ : Nat → Nat} {root : Nat} :
    (p, root) ∈ conditions.zip ((List.range conditions.length).map ρ) ↔
      ∃ i, conditions[i]? = some p ∧ ρ i = root := by
  rw [List.mem_iff_getElem?]
  refine exists_congr fun i => ?_
  rw [List.getElem?_zip_eq_some]
  refine and_congr_right fun hi => ?_
  rw [List.getElem?_map, List.getElem?_range (List.getElem?_eq_some_iff.mp hi).1, Option.map_some,
    Option.some.injEq]

theorem mem_components : p ∈ (components conditions).flatten ↔ p ∈ conditions := by
  obtain ⟨groups, hgroups, h⟩ := groups_components conditions
  rw [hgroups, ← List.flatMap_def, List.mem_flatMap]
  constructor
  · rintro ⟨g, hg, hp⟩
    obtain ⟨i, hi, -⟩ := mem_zip_roots.mp (h.rooted g hg p hp)
    exact List.mem_of_getElem? hi
  · intro hp
    obtain ⟨i, hi⟩ := List.mem_iff_getElem?.mp hp
    exact h.grouped (p, _) (mem_zip_roots.mpr ⟨i, hi, rfl⟩)

theorem ne_nil_of_mem_components {body : List Pattern} (h : body ∈ components conditions) :
    body ≠ [] := by
  obtain ⟨groups, hgroups, hspec⟩ := groups_components conditions
  obtain ⟨g, hg, rfl⟩ := List.mem_map.mp (hgroups ▸ h)
  exact hspec.ne_nil g hg

/-- Conditions of different groups have no variable in common. -/
theorem pairwise_components : (components conditions).Pairwise fun body body' =>
    ∀ p ∈ body, ∀ q ∈ body', ∀ v ∈ p.vars, v ∉ q.vars := by
  obtain ⟨groups, hgroups, h⟩ := groups_components conditions
  rw [hgroups, List.pairwise_map]
  refine (List.pairwise_map.mp h.nodup).imp_of_mem
    fun {g g'} hg hg' hne p hp q hq v hvp hvq => hne ?_
  obtain ⟨i, hi, hroot⟩ := mem_zip_roots.mp (h.rooted g hg p hp)
  obtain ⟨j, hj, hroot'⟩ := mem_zip_roots.mp (h.rooted g' hg' q hq)
  exact hroot ▸ hroot' ▸ root_eq_root_of_mem_vars hi hj hvp hvq

end Datalog
end FinitePlanning
