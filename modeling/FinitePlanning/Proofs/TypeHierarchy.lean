import Mathlib.Data.List.Nodup
import Mathlib.Logic.Relation
import FinitePlanning.Proofs.Collections
import FinitePlanning.TypeHierarchy

/-!
The hierarchy of declared types is a tree. There is none only if the root is given a parent, a type
has two declared parents, or the declared parents of a type lead back to it. Otherwise the chain of
parents of each type ends at the root, and the order of the declarations does not matter.
-/

namespace FinitePlanning
namespace TypeHierarchy

/-! ### Declared parents -/

/-- The parent that a declaration gives, which is `object` if it names none. -/
def parentName (e : Symbol × Option Symbol) : String :=
  (e.2.getD { name := objectType }).name

/-- The declared parents of types. The root has none, even if it is declared below itself. -/
def IsDeclaredBelow (es : List (Symbol × Option Symbol)) (x p : String) : Prop :=
  x ≠ objectType ∧ ∃ e ∈ es, e.1.name = x ∧ parentName e = p

/-- No declaration contradicts an earlier one. -/
structure AreCompatible (es : List (Symbol × Option Symbol)) : Prop where
  root : ∀ e ∈ es, e.1.name = objectType → parentName e = objectType
  unique : ∀ x p q, IsDeclaredBelow es x p → IsDeclaredBelow es x q → p = q

variable {es es' : List (Symbol × Option Symbol)} {e : Symbol × Option Symbol}
  {below : String → String → Prop} {x p : String}

theorem isDeclaredBelow_concat : IsDeclaredBelow (es ++ [e]) x p ↔
    IsDeclaredBelow es x p ∨ (x ≠ objectType ∧ e.1.name = x ∧ parentName e = p) := by
  simp only [IsDeclaredBelow, List.mem_append, List.mem_singleton, or_and_right, exists_or,
    exists_eq_left, and_or_left]

theorem isDeclaredBelow_congr (h : ∀ e, e ∈ es ↔ e ∈ es') :
    IsDeclaredBelow es = IsDeclaredBelow es' := by
  funext x p
  simp only [IsDeclaredBelow, h]

/-- A declaration that adds nothing to the declared parents. -/
theorem isDeclaredBelow_concat_of_known
    (h : e.1.name = objectType ∨ IsDeclaredBelow es e.1.name (parentName e)) :
    IsDeclaredBelow (es ++ [e]) = IsDeclaredBelow es := by
  funext x p
  refine propext (isDeclaredBelow_concat.trans (or_iff_left_of_imp ?_))
  intro ⟨hx, hname, hparent⟩
  subst hname hparent
  exact h.resolve_left hx

theorem AreCompatible.of_append (h : AreCompatible (es ++ es')) : AreCompatible es where
  root e he := h.root e (List.mem_append_left _ he)
  unique x p q hp hq := h.unique x p q
    ⟨hp.1, hp.2.imp fun _ he => he.imp_left (List.mem_append_left _)⟩
    ⟨hq.1, hq.2.imp fun _ he => he.imp_left (List.mem_append_left _)⟩

/-! ### Parents of all types -/

/-- A type that is used as a parent, but has no declared parent itself. -/
structure IsOnlyParent (below : String → String → Prop) (x : String) : Prop where
  ne_root : x ≠ objectType
  used : ∃ y, below y x
  undeclared : ∀ p, ¬ below x p

/-- The parents of the types in a hierarchy with the given declared parents. -/
def HasParent (below : String → String → Prop) (x p : String) : Prop :=
  below x p ∨ IsOnlyParent below x ∧ p = objectType

/-- Some declared parents with a further one. -/
def extend (below : String → String → Prop) (type parent : String) (x p : String) : Prop :=
  below x p ∨ x = type ∧ p = parent

/-- A declaration of another type than the root adds its parent. -/
theorem isDeclaredBelow_concat_of_ne (h : e.1.name ≠ objectType) :
    IsDeclaredBelow (es ++ [e]) = extend (IsDeclaredBelow es) e.1.name (parentName e) := by
  funext x p
  refine propext (isDeclaredBelow_concat.trans (or_congr_right ?_))
  exact ⟨fun hx => ⟨hx.2.1.symm, hx.2.2.symm⟩, fun hx => ⟨hx.1 ▸ h, hx.1.symm, hx.2.symm⟩⟩

theorem isOnlyParent_iff : IsOnlyParent below x ↔
    x ≠ objectType ∧ (∃ y, below y x) ∧ ∀ p, ¬ below x p :=
  ⟨fun h => ⟨h.ne_root, h.used, h.undeclared⟩, fun h => ⟨h.1, h.2.1, h.2.2⟩⟩

section Extend

variable {type parent : String}

theorem hasParent_extend_self (hnew : ∀ q, ¬ below type q) :
    HasParent (extend below type parent) type p ↔ p = parent := by
  simp [HasParent, isOnlyParent_iff, extend, hnew]

theorem hasParent_extend_parent (hroot : parent ≠ objectType) (hne : parent ≠ type) :
    HasParent (extend below type parent) parent p ↔
      below parent p ∨ (∀ q, ¬ below parent q) ∧ p = objectType := by
  have hused : ∃ y, extend below type parent y parent := ⟨type, .inr ⟨rfl, rfl⟩⟩
  simp only [HasParent, isOnlyParent_iff, hused, true_and, hroot, ne_eq, not_false_eq_true]
  simp [extend, hne]

theorem hasParent_extend_of_ne (hx : x ≠ type) (hparent : x ≠ parent ∨ x = objectType) :
    HasParent (extend below type parent) x p ↔ HasParent below x p := by
  cases hparent with
  | inl hparent => simp [HasParent, isOnlyParent_iff, extend, hx, hparent]
  | inr hroot => simp [HasParent, isOnlyParent_iff, extend, hx, ← hroot]

/-- A type that has a parent already keeps it. -/
theorem hasParent_extend_of_hasParent (hx : x ≠ type) (hknown : ∃ q, HasParent below x q) :
    HasParent (extend below type parent) x p ↔ HasParent below x p := by
  by_cases hparent : x = parent
  · by_cases hroot : x = objectType
    · exact hasParent_extend_of_ne hx (.inr hroot)
    · subst hparent
      rw [hasParent_extend_parent hroot hx]
      obtain ⟨q, hq⟩ := hknown
      cases hq with
      | inl hq =>
          have hdeclared : ¬ ∀ q, ¬ below x q := fun h => h q hq
          simp [HasParent, isOnlyParent_iff, hdeclared]
      | inr hq => simp [HasParent, hq.1, hq.1.undeclared]
  · exact hasParent_extend_of_ne hx (.inl hparent)

end Extend

namespace Draft

variable {d d' : Draft} {type parent : Symbol}

theorem lookup_place : (d.place type p).parents.lookup x =
    if x = type.name then some p else d.parents.lookup x := by
  rw [place, List.lookup_cons]
  by_cases hx : x = type.name
  · simp [hx]
  · simp [beq_false_of_ne hx, hx]

theorem isPlaced_place :
    (d.place type p).isPlaced x = true ↔ x = type.name ∨ d.isPlaced x = true := by
  rw [isPlaced, lookup_place]
  by_cases hx : x = type.name
  · simp [hx]
  · simp [hx, isPlaced]

/-- The root and the types that were placed are listed once, the root first. -/
structure IsListed (d : Draft) : Prop where
  root : (d.types.map (·.name)).head? = some objectType
  nodup : (d.types.map (·.name)).Nodup
  mem_types : ∀ x, x ∈ d.types.map (·.name) ↔ x = objectType ∨ d.isPlaced x = true

theorem IsListed.place (h : d.IsListed) (hroot : type.name ≠ objectType) :
    (d.place type p).IsListed := by
  cases hplaced : d.isPlaced type.name with
  | true =>
      have htypes : (d.place type p).types = d.types := if_pos hplaced
      refine ⟨htypes ▸ h.root, htypes ▸ h.nodup, fun x => ?_⟩
      rw [htypes, h.mem_types, isPlaced_place]
      refine or_congr_right (or_iff_right_of_imp fun hx => ?_).symm
      rw [hx, hplaced]
  | false =>
      have htypes : (d.place type p).types = d.types ++ [type] := by
        simp [Draft.place, hplaced]
      have hnew : type.name ∉ d.types.map (·.name) := by
        simp [h.mem_types, hroot, hplaced]
      refine ⟨?_, ?_, fun x => ?_⟩
      · rw [htypes, List.map_append, List.head?_append, h.root]
        rfl
      · rw [htypes, List.map_append]
        exact h.nodup.append (List.nodup_singleton _) (List.disjoint_singleton.mpr hnew)
      · rw [htypes, List.map_append, List.mem_append, h.mem_types, isPlaced_place]
        simp only [List.map_cons, List.map_nil, List.mem_singleton]
        tauto

/-- What was entered of some declared parents. -/
structure Represents (d : Draft) (below : String → String → Prop) : Prop extends d.IsListed where
  declared : ∀ x p, (d.declared.lookup x).map (·.name) = some p ↔ below x p
  parents : ∀ x p, d.parents.lookup x = some p ↔ HasParent below x p

theorem Represents.isPlaced_iff (h : d.Represents below) :
    d.isPlaced x = true ↔ ∃ p, HasParent below x p := by
  simp only [isPlaced, Option.isSome_iff_exists, h.parents]

theorem Represents.not_below (h : d.Represents below) (hlookup : d.declared.lookup x = none)
    (p : String) : ¬ below x p := by
  intro hp
  have hsome := (h.declared x p).mpr hp
  rw [hlookup] at hsome
  cases hsome

/-- The draft with nothing but the root. -/
def start : Draft :=
  ⟨[{ name := objectType }], [], []⟩

theorem represents_start : start.Represents (IsDeclaredBelow []) where
  root := rfl
  nodup := List.nodup_singleton _
  mem_types := by simp [start, isPlaced]
  declared := by simp [start, IsDeclaredBelow]
  parents := by simp [start, HasParent, isOnlyParent_iff, IsDeclaredBelow]

/-- The type and its declared parent, before the parent is placed. -/
def enter (d : Draft) (type parent : Symbol) : Draft :=
  { d.place type parent.name with declared := (type.name, parent) :: d.declared }

theorem IsListed.enter (h : (d.place type parent.name).IsListed) : (d.enter type parent).IsListed :=
  ⟨h.root, h.nodup, h.mem_types⟩

section Enter

variable (h : d.Represents below) (hroot : type.name ≠ objectType)
  (hnew : ∀ q, ¬ below type.name q)
include h hnew

theorem Represents.declared_enter : ((d.enter type parent).declared.lookup x).map (·.name) = some p ↔
    extend below type.name parent.name x p := by
  rw [enter, List.lookup_cons]
  by_cases hx : x = type.name
  · subst hx
    simp only [beq_self_eq_true, extend, hnew, true_and, false_or, Option.map_some,
      Option.some.injEq]
    exact eq_comm
  · simp [beq_false_of_ne hx, extend, hx, h.declared]

include hroot

/-- The parent is the root, or was placed before. -/
theorem Represents.enter (hparent : parent.name = objectType ∨
    (d.enter type parent).isPlaced parent.name = true) :
    (d.enter type parent).Represents (extend below type.name parent.name) where
  toIsListed := (h.toIsListed.place hroot).enter
  declared _ _ := h.declared_enter hnew
  parents x p := by
    rw [Draft.enter, lookup_place]
    by_cases hx : x = type.name
    · subst hx
      rw [if_pos rfl, hasParent_extend_self hnew, Option.some.injEq]
      exact eq_comm
    · rw [if_neg hx, h.parents]
      by_cases hused : x = parent.name ∧ x ≠ objectType
      · obtain ⟨rfl, hne⟩ := hused
        have hplaced := (isPlaced_place.mp (hparent.resolve_left hne)).resolve_left hx
        exact (hasParent_extend_of_hasParent hx (h.isPlaced_iff.mp hplaced)).symm
      · refine (hasParent_extend_of_ne hx ?_).symm
        tauto

/-- The parent is mentioned for the first time. -/
theorem Represents.enter_place (hparent : parent.name ≠ objectType)
    (hplaced : (d.enter type parent).isPlaced parent.name = false) :
    ((d.enter type parent).place parent objectType).Represents
      (extend below type.name parent.name) where
  toIsListed := (h.toIsListed.place hroot).enter.place hparent
  declared _ _ := h.declared_enter hnew
  parents x p := by
    have hplaced : ¬ (parent.name = type.name ∨ d.isPlaced parent.name = true) :=
      fun hor => Bool.eq_false_iff.mp hplaced (isPlaced_place.mpr hor)
    rw [not_or, h.isPlaced_iff] at hplaced
    rw [lookup_place, Draft.enter, lookup_place]
    by_cases hused : x = parent.name
    · subst hused
      have hundeclared : ∀ q, ¬ below parent.name q := fun q hq => hplaced.2 ⟨q, .inl hq⟩
      rw [if_pos rfl, hasParent_extend_parent hparent hplaced.1]
      simp [hundeclared, eq_comm]
    · rw [if_neg hused]
      by_cases hx : x = type.name
      · subst hx
        rw [if_pos rfl, hasParent_extend_self hnew, Option.some.injEq]
        exact eq_comm
      · rw [if_neg hx, h.parents]
        exact (hasParent_extend_of_ne hx (.inl hused)).symm

end Enter

/-- What was entered of a list of declarations without contradictions. -/
structure IsOf (d : Draft) (es : List (Symbol × Option Symbol)) : Prop
    extends d.Represents (IsDeclaredBelow es) where
  root_declared : ∀ e ∈ es, e.1.name = objectType → parentName e = objectType

theorem IsOf.areCompatible (h : d.IsOf es) : AreCompatible es where
  root := h.root_declared
  unique x p q hp hq :=
    Option.some.inj (((h.declared x p).mpr hp).symm.trans ((h.declared x q).mpr hq))

theorem IsOf.concat (h : d.IsOf es) (hd' : d'.Represents (IsDeclaredBelow (es ++ [e])))
    (hroot : e.1.name = objectType → parentName e = objectType) : d'.IsOf (es ++ [e]) where
  toRepresents := hd'
  root_declared := List.forall_mem_append.mpr
    ⟨h.root_declared, List.forall_mem_singleton.mpr hroot⟩

/-- A declaration is entered unless it contradicts an earlier one. -/
theorem IsOf.declare (h : d.IsOf es) (e : Symbol × Option Symbol) :
    match d.declare e.1 e.2 with
    | .ok d' => d'.IsOf (es ++ [e])
    | .error _ => ¬ AreCompatible (es ++ [e]) := by
  have hmem : e ∈ es ++ [e] := List.mem_append_right _ (List.mem_singleton_self e)
  rw [Draft.declare]
  generalize hname : e.2.getD { name := objectType } = parent
  replace hname : parentName e = parent.name := congrArg Symbol.name hname
  by_cases hroot : e.1.name = objectType
  · rw [if_pos hroot]
    by_cases hparent : parent.name = objectType
    · rw [if_pos hparent]
      refine h.concat ?_ fun _ => hname.trans hparent
      rw [isDeclaredBelow_concat_of_known (.inl hroot)]
      exact h.toRepresents
    · rw [if_neg hparent]
      change ¬ AreCompatible (es ++ [e])
      exact fun hcompatible => hparent (hname ▸ hcompatible.root e hmem hroot)
  · rw [if_neg hroot]
    dsimp only
    cases hlookup : d.declared.lookup e.1.name with
    | some previous =>
        have hbelow : IsDeclaredBelow es e.1.name previous.name :=
          (h.declared _ _).mp (hlookup ▸ rfl)
        dsimp only
        by_cases hsame : previous.name = parent.name
        · rw [if_pos hsame]
          refine h.concat ?_ fun hr => absurd hr hroot
          rw [isDeclaredBelow_concat_of_known (.inr (hname ▸ hsame ▸ hbelow))]
          exact h.toRepresents
        · rw [if_neg hsame]
          change ¬ AreCompatible (es ++ [e])
          exact fun hcompatible => hsame (hcompatible.unique e.1.name _ _
            (isDeclaredBelow_concat.mpr (.inl hbelow))
            (isDeclaredBelow_concat.mpr (.inr ⟨hroot, rfl, hname⟩)))
    | none =>
        have hnew := h.not_below hlookup
        have hextend : IsDeclaredBelow (es ++ [e]) =
            extend (IsDeclaredBelow es) e.1.name parent.name :=
          hname ▸ isDeclaredBelow_concat_of_ne hroot
        dsimp only
        by_cases hparent : parent.name = objectType ∨ (d.enter e.1 parent).isPlaced parent.name = true
        · rw [if_pos (by simpa [Draft.enter] using hparent)]
          refine h.concat ?_ fun hr => absurd hr hroot
          exact hextend ▸ h.toRepresents.enter hroot hnew hparent
        · rw [if_neg (by simpa [Draft.enter] using hparent)]
          rw [not_or, Bool.not_eq_true] at hparent
          refine h.concat ?_ fun hr => absurd hr hroot
          exact hextend ▸ h.toRepresents.enter_place hroot hnew hparent.1 hparent.2

/-- The draft after a list of declarations. -/
def declares (d : Draft) (es : List (Symbol × Option Symbol)) : Result Draft :=
  es.foldlM (fun d e => d.declare e.1 e.2) d

theorem IsOf.declares (h : d.IsOf es) (es' : List (Symbol × Option Symbol)) :
    match d.declares es' with
    | .ok d' => d'.IsOf (es ++ es')
    | .error _ => ¬ AreCompatible (es ++ es') := by
  induction es' generalizing d es with
  | nil => exact (List.append_nil es).symm ▸ h
  | cons e es' ih =>
      have hstep := h.declare e
      rw [Draft.declares, List.foldlM_cons, List.append_cons]
      cases hd' : d.declare e.1 e.2 with
      | ok d' =>
          rw [hd'] at hstep
          exact ih hstep
      | error m =>
          rw [hd'] at hstep
          exact fun hcompatible => hstep hcompatible.of_append

end Draft
variable {h h' : TypeHierarchy} {n : Nat}

/-! ### Chains of parents -/

/-- The second type is the parent of the first one. -/
def IsBelow (h : TypeHierarchy) (x p : String) : Prop :=
  h.parent? x = some p

/-- No type is an ancestor of itself. -/
def IsAcyclic (h : TypeHierarchy) : Prop :=
  ∀ x, ¬ Relation.TransGen h.IsBelow x x

theorem IsBelow.unique {q : String} (hp : h.IsBelow x p) (hq : h.IsBelow x q) : p = q :=
  Option.some.inj (hp.symm.trans hq)

theorem not_transGen_of_endsWithin (hends : h.endsWithin n x = true) :
    ¬ Relation.TransGen h.IsBelow x x := by
  intro hcycle
  obtain ⟨p, hp, hback⟩ := Relation.TransGen.head'_iff.mp hcycle
  induction n generalizing x p with
  | zero =>
      rw [endsWithin, show h.parent? x = some p from hp] at hends
      cases hends
  | succ n ih =>
      rw [endsWithin, show h.parent? x = some p from hp] at hends
      have hcycle := Relation.TransGen.tail' hback hp
      obtain ⟨q, hq, hback'⟩ := Relation.TransGen.head'_iff.mp hcycle
      exact ih hends hcycle q hq hback'

open Classical in
/-- The number of entries about a type and its ancestors. -/
noncomputable def entriesAbove (h : TypeHierarchy) (x : String) : Nat :=
  h.parents.countP fun e => Relation.ReflTransGen h.IsBelow x e.1

theorem entriesAbove_lt (hacyclic : h.IsAcyclic) (hp : h.IsBelow x p) :
    h.entriesAbove p < h.entriesAbove x := by
  classical
  refine countP_lt_countP (a := (x, p)) (fun e _ he => ?_) (mem_of_lookup hp) ?_ ?_
  · exact decide_eq_true (.head hp (of_decide_eq_true he))
  · exact decide_eq_true .refl
  · exact decide_eq_false fun hback => hacyclic x (.head' hp hback)

theorem entriesAbove_le (h : TypeHierarchy) (x : String) :
    h.entriesAbove x ≤ h.parents.length :=
  List.countP_le_length

theorem endsWithin_of_entriesAbove_le (hacyclic : h.IsAcyclic) (hn : h.entriesAbove x ≤ n) :
    h.endsWithin n x = true := by
  induction n generalizing x with
  | zero =>
      rw [endsWithin, Option.isNone_iff_eq_none]
      refine Option.eq_none_iff_forall_ne_some.mpr fun p hp => ?_
      have hlt := entriesAbove_lt hacyclic hp
      omega
  | succ n ih =>
      rw [endsWithin]
      cases hp : h.parent? x with
      | none => rfl
      | some p =>
          have hlt := entriesAbove_lt hacyclic hp
          exact ih (by omega)

/-- The bound on the length of chains suffices exactly if there are no cycles. -/
theorem isAcyclic_iff_endsWithin :
    h.IsAcyclic ↔ ∀ x, h.endsWithin h.parents.length x = true :=
  ⟨fun hacyclic x => endsWithin_of_entriesAbove_le hacyclic (h.entriesAbove_le x),
    fun hends x => not_transGen_of_endsWithin (hends x)⟩

/-- A chain of parents from a type up to the root. -/
structure IsPathToRoot (h : TypeHierarchy) (x : String) (path : List String) : Prop where
  first : path.head? = some x
  last : path.getLast? = some objectType
  steps : path.IsChain h.IsBelow

theorem isPathToRoot_root (hnone : h.parent? x = none) (hx : h.contains x = true) :
    h.IsPathToRoot x [x] := by
  refine ⟨rfl, ?_, List.IsChain.singleton x⟩
  rw [contains, hnone, Option.isSome_none, Bool.or_false, beq_iff_eq] at hx
  rw [hx, List.getLast?_singleton]

theorem IsPathToRoot.cons {path : List String} (hp : h.IsBelow x p)
    (hpath : h.IsPathToRoot p path) : h.IsPathToRoot x (x :: path) := by
  cases path with
  | nil => cases hpath.first
  | cons q path =>
      cases hpath.first
      exact ⟨rfl, hpath.last, hpath.steps.cons_cons hp⟩

theorem isPathToRoot_ancestorsWithin (hacyclic : h.IsAcyclic)
    (hclosed : ∀ x p, h.IsBelow x p → h.contains p = true) (hx : h.contains x = true)
    (hn : h.entriesAbove x ≤ n) : h.IsPathToRoot x (h.ancestorsWithin n x) := by
  induction n generalizing x with
  | zero =>
      have hends := endsWithin_of_entriesAbove_le hacyclic hn
      exact isPathToRoot_root (Option.isNone_iff_eq_none.mp hends) hx
  | succ n ih =>
      rw [ancestorsWithin]
      cases hp : h.parent? x with
      | none => exact isPathToRoot_root hp hx
      | some p =>
          have hlt := entriesAbove_lt hacyclic hp
          exact .cons hp (ih (hclosed x p hp) (by omega))

/-! ### The tree of some declarations -/

theorem not_hasParent_root : ¬ HasParent (IsDeclaredBelow es) objectType p := by
  intro hp
  cases hp with
  | inl hp => exact hp.1 rfl
  | inr hp => exact hp.1.ne_root rfl

/-- The types without declared parents are directly below the root. -/
theorem transGen_hasParent {y : String}
    (hxy : Relation.TransGen (HasParent (IsDeclaredBelow es)) x y) :
    Relation.TransGen (IsDeclaredBelow es) x y ∨ y = objectType := by
  induction hxy with
  | single hy => exact hy.imp .single And.right
  | tail _ hz ih =>
      cases hz with
      | inl hz => exact .inl ((ih.resolve_right hz.1).tail hz)
      | inr hz => exact .inr hz.2

theorem transGen_self_iff : Relation.TransGen (HasParent (IsDeclaredBelow es)) x x ↔
    Relation.TransGen (IsDeclaredBelow es) x x := by
  constructor
  · intro hcycle
    refine (transGen_hasParent hcycle).resolve_right fun hx => ?_
    obtain ⟨p, hp, -⟩ := Relation.TransGen.head'_iff.mp hcycle
    exact not_hasParent_root (hx ▸ hp)
  · exact Relation.TransGen.mono (fun _ _ => .inl) x x

/-- The types that have a parent are those that occur in declarations. -/
theorem exists_hasParent_iff (hroot : ∀ e ∈ es, e.1.name = objectType → parentName e = objectType)
    (hx : x ≠ objectType) :
    (∃ p, HasParent (IsDeclaredBelow es) x p) ↔ ∃ e ∈ es, e.1.name = x ∨ parentName e = x := by
  constructor
  · intro ⟨p, hp⟩
    cases hp with
    | inl hp =>
        obtain ⟨-, e, he, hname, -⟩ := hp
        exact ⟨e, he, .inl hname⟩
    | inr hp =>
        obtain ⟨y, -, e, he, -, hparent⟩ := hp.1.used
        exact ⟨e, he, .inr hparent⟩
  · intro ⟨e, he, hor⟩
    by_cases hdeclared : ∃ p, IsDeclaredBelow es x p
    · exact hdeclared.imp fun _ => .inl
    · have hparent : parentName e = x := hor.resolve_left fun hname =>
        hdeclared ⟨parentName e, hx, e, he, hname, rfl⟩
      have hne : e.1.name ≠ objectType := fun hname =>
        hx (hparent.symm.trans (hroot e he hname))
      exact ⟨objectType, .inr ⟨⟨hx, ⟨e.1.name, hne, e, he, rfl, hparent⟩,
        not_exists.mp hdeclared⟩, rfl⟩⟩

/-- The types and the parents that some declarations ask for. -/
structure IsHierarchyOf (h : TypeHierarchy) (es : List (Symbol × Option Symbol)) : Prop where
  root : h.types.head? = some objectType
  nodup : h.types.Nodup
  mem_types : ∀ x, x ∈ h.types ↔
    x = objectType ∨ ∃ e ∈ es, e.1.name = x ∨ parentName e = x
  contains_iff : ∀ x, h.contains x = true ↔ x ∈ h.types
  parents : ∀ x p, h.IsBelow x p ↔ HasParent (IsDeclaredBelow es) x p

/-- The tree of some declarations, in which every type is connected to the root. -/
structure IsTreeOf (h : TypeHierarchy) (es : List (Symbol × Option Symbol)) : Prop
    extends h.IsHierarchyOf es where
  ancestors : ∀ x ∈ h.types, h.IsPathToRoot x (h.ancestors x)

theorem IsHierarchyOf.contains_of_isBelow (hh : h.IsHierarchyOf es) (hp : h.IsBelow x p) :
    h.contains p = true := by
  rw [hh.contains_iff, hh.mem_types]
  cases (hh.parents x p).mp hp with
  | inl hp =>
      obtain ⟨-, e, he, -, hparent⟩ := hp
      exact .inr ⟨e, he, .inr hparent⟩
  | inr hp => exact .inl hp.2

theorem IsHierarchyOf.isAcyclic_iff (hh : h.IsHierarchyOf es) :
    h.IsAcyclic ↔ ∀ x, ¬ Relation.TransGen (IsDeclaredBelow es) x x := by
  have hbelow : h.IsBelow = HasParent (IsDeclaredBelow es) := by
    funext x p
    exact propext (hh.parents x p)
  simp only [IsAcyclic, hbelow, transGen_self_iff]

/-- Types that are not listed have no parents that could form a cycle. -/
theorem IsHierarchyOf.isAcyclic_iff_forall_types (hh : h.IsHierarchyOf es) :
    h.IsAcyclic ↔ ∀ x ∈ h.types, h.endsWithin h.parents.length x = true := by
  rw [isAcyclic_iff_endsWithin]
  refine ⟨fun hends x _ => hends x, fun hends x => ?_⟩
  by_cases hx : x ∈ h.types
  · exact hends x hx
  · rw [← hh.contains_iff, contains, Bool.or_eq_true, not_or] at hx
    have hnone : h.parent? x = none := Option.not_isSome_iff_eq_none.mp hx.2
    cases h.parents.length with
    | zero => rw [endsWithin, hnone]; rfl
    | succ n => rw [endsWithin, hnone]

theorem IsHierarchyOf.isTreeOf (hh : h.IsHierarchyOf es) (hacyclic : h.IsAcyclic) :
    h.IsTreeOf es where
  toIsHierarchyOf := hh
  ancestors x hx := isPathToRoot_ancestorsWithin hacyclic (fun _ _ => hh.contains_of_isBelow)
    ((hh.contains_iff x).mpr hx) (entriesAbove_le h x)

/-- The tree depends only on which declarations there are. -/
theorem IsTreeOf.congr (hes : ∀ e, e ∈ es ↔ e ∈ es') (htree : h.IsTreeOf es)
    (htree' : h'.IsTreeOf es') : h.parent? = h'.parent? ∧ ∀ x, x ∈ h.types ↔ x ∈ h'.types := by
  constructor
  · funext x
    refine Option.ext fun p => ?_
    change h.IsBelow x p ↔ h'.IsBelow x p
    rw [htree.parents, htree'.parents, isDeclaredBelow_congr hes]
  · intro x
    simp only [htree.mem_types, htree'.mem_types, hes]

namespace Draft

variable {d : Draft}

/-- The hierarchy of a draft, which may still have cycles. -/
def toHierarchy (d : Draft) : TypeHierarchy :=
  ⟨d.types.map (·.name), d.parents⟩

theorem IsOf.isHierarchyOf (hd : d.IsOf es) : d.toHierarchy.IsHierarchyOf es where
  root := hd.root
  nodup := hd.nodup
  mem_types x := by
    refine (hd.mem_types x).trans ?_
    by_cases hx : x = objectType
    · simp [hx]
    · rw [hd.isPlaced_iff, exists_hasParent_iff hd.root_declared hx]
  contains_iff x := by
    refine Iff.trans ?_ (hd.mem_types x).symm
    rw [contains, Bool.or_eq_true, beq_iff_eq]
    rfl
  parents := hd.parents

/-- The hierarchy of a draft unless it has a cycle. -/
def finish (d : Draft) : Result TypeHierarchy :=
  match d.types.find? fun type =>
      !d.toHierarchy.endsWithin d.toHierarchy.parents.length type.name with
  | some type => .error (.invalid type "Cyclic type hierarchy")
  | none => .ok d.toHierarchy

theorem IsOf.finish (hd : d.IsOf es) :
    match d.finish with
    | .ok h => h.IsTreeOf es ∧ ∀ x, ¬ Relation.TransGen (IsDeclaredBelow es) x x
    | .error _ => ¬ ∀ x, ¬ Relation.TransGen (IsDeclaredBelow es) x x := by
  have hh := hd.isHierarchyOf
  have hcheck := hh.isAcyclic_iff_forall_types
  rw [Draft.finish, ← hh.isAcyclic_iff]
  cases hfind : d.types.find? fun type =>
      !d.toHierarchy.endsWithin d.toHierarchy.parents.length type.name with
  | some type =>
      intro hacyclic
      have hends := hcheck.mp hacyclic _
        (List.mem_map_of_mem (List.mem_of_find?_eq_some hfind))
      have hfails := List.find?_some hfind
      rw [hends] at hfails
      cases hfails
  | none =>
      have hacyclic := hcheck.mpr fun x hx => by
        obtain ⟨type, htype, rfl⟩ := List.mem_map.mp hx
        simpa using List.find?_eq_none.mp hfind type htype
      exact ⟨hh.isTreeOf hacyclic, hacyclic⟩

end Draft

theorem ofDeclarations_eq (es : List (Symbol × Option Symbol)) :
    ofDeclarations es = Draft.start.declares es >>= Draft.finish :=
  rfl

/-- The declarations have a hierarchy, which is their tree, exactly if they are compatible and
without cycles. -/
theorem isTreeOf_ofDeclarations (es : List (Symbol × Option Symbol)) :
    match ofDeclarations es with
    | .ok h => h.IsTreeOf es ∧
        AreCompatible es ∧ ∀ x, ¬ Relation.TransGen (IsDeclaredBelow es) x x
    | .error _ => ¬ (AreCompatible es ∧ ∀ x, ¬ Relation.TransGen (IsDeclaredBelow es) x x) := by
  have hdeclares := Draft.IsOf.declares ⟨Draft.represents_start, List.forall_mem_nil _⟩ es
  rw [List.nil_append] at hdeclares
  rw [ofDeclarations_eq]
  cases hd : Draft.start.declares es with
  | error m =>
      rw [hd] at hdeclares
      exact fun hok => hdeclares hok.1
  | ok d =>
      rw [hd] at hdeclares
      have hfinish := hdeclares.finish
      change match d.finish with
        | .ok h => h.IsTreeOf es ∧
            AreCompatible es ∧ ∀ x, ¬ Relation.TransGen (IsDeclaredBelow es) x x
        | .error _ => ¬ (AreCompatible es ∧ ∀ x, ¬ Relation.TransGen (IsDeclaredBelow es) x x)
      cases hh : d.finish with
      | ok h =>
          rw [hh] at hfinish
          exact ⟨hfinish.1, hdeclares.areCompatible, hfinish.2⟩
      | error m =>
          rw [hh] at hfinish
          exact fun hok => hfinish hok.2

theorem isTreeOf_of_eq_ok (hread : ofDeclarations es = .ok h) : h.IsTreeOf es := by
  have hes := isTreeOf_ofDeclarations es
  rw [hread] at hes
  exact hes.1

/-- The parents of types are types. -/
theorem contains_of_parent {type parent : String} (hread : ofDeclarations es = .ok h)
    (hparent : h.parent? type = some parent) : h.contains parent = true :=
  (isTreeOf_of_eq_ok hread).contains_of_isBelow hparent

theorem ofDeclarations_eq_error_iff : (∃ m, ofDeclarations es = .error m) ↔
    ¬ (AreCompatible es ∧ ∀ x, ¬ Relation.TransGen (IsDeclaredBelow es) x x) := by
  have hes := isTreeOf_ofDeclarations es
  cases hread : ofDeclarations es with
  | ok h =>
      rw [hread] at hes
      simp [hes.2]
  | error m =>
      rw [hread] at hes
      exact iff_of_true ⟨m, rfl⟩ hes

theorem areCompatible_iff : AreCompatible es ↔
    ¬ (∃ e ∈ es, e.1.name = objectType ∧ parentName e ≠ objectType) ∧
    ¬ ∃ x p q, IsDeclaredBelow es x p ∧ IsDeclaredBelow es x q ∧ p ≠ q := by
  push Not
  exact ⟨fun h => ⟨h.root, h.unique⟩, fun h => ⟨h.1, h.2⟩⟩

theorem areCompatible_congr (hes : ∀ e, e ∈ es ↔ e ∈ es') :
    AreCompatible es ↔ AreCompatible es' := by
  simp only [areCompatible_iff, isDeclaredBelow_congr hes, hes]

/-- Success depends only on which declarations there are. -/
theorem exists_eq_ok_of_congr (hes : ∀ e, e ∈ es ↔ e ∈ es') (hread : ofDeclarations es = .ok h) :
    ∃ h', ofDeclarations es' = .ok h' := by
  have htree := isTreeOf_ofDeclarations es
  rw [hread, areCompatible_congr hes, isDeclaredBelow_congr hes] at htree
  cases hread' : ofDeclarations es' with
  | ok h' => exact ⟨h', rfl⟩
  | error m => exact absurd htree.2 (ofDeclarations_eq_error_iff.mp ⟨m, hread'⟩)

/-- The set of the declarations determines the tree. -/
theorem declarations_determine_tree (es : List (Symbol × Option Symbol)) :
    ((∃ m, ofDeclarations es = .error m) ↔
      (∃ e ∈ es, e.1.name = objectType ∧ parentName e ≠ objectType) ∨
      (∃ x p q, IsDeclaredBelow es x p ∧ IsDeclaredBelow es x q ∧ p ≠ q) ∨
      ∃ x, Relation.TransGen (IsDeclaredBelow es) x x) ∧
    (∀ h, ofDeclarations es = .ok h → h.IsTreeOf es) ∧
    ∀ es', (∀ e, e ∈ es ↔ e ∈ es') → ∀ h, ofDeclarations es = .ok h →
      ∃ h', ofDeclarations es' = .ok h' ∧ h.parent? = h'.parent? ∧
        ∀ x, x ∈ h.types ↔ x ∈ h'.types := by
  refine ⟨?_, fun h => isTreeOf_of_eq_ok, fun es' hes h hread => ?_⟩
  · rw [ofDeclarations_eq_error_iff, areCompatible_iff, not_and_or, not_and_or, not_not, not_not,
      or_assoc, not_forall_not]
  · obtain ⟨h', hread'⟩ := exists_eq_ok_of_congr hes hread
    exact ⟨h', hread', (isTreeOf_of_eq_ok hread).congr hes (isTreeOf_of_eq_ok hread')⟩

/-- A parent that is declared later, and a type without a parent. -/
theorem declarations_determine_tree_vehicles :
    ∃ h, ofDeclarations [(⟨"truck", none⟩, some ⟨"vehicle", none⟩), (⟨"city", none⟩, none),
        (⟨"vehicle", none⟩, none)] = .ok h ∧
      h.types = ["object", "truck", "vehicle", "city"] ∧
      h.IsPathToRoot "truck" ["truck", "vehicle", "object"] ∧
      ∃ h', ofDeclarations [(⟨"vehicle", none⟩, none), (⟨"truck", none⟩, some ⟨"vehicle", none⟩),
          (⟨"city", none⟩, none)] = .ok h' ∧ h.parent? = h'.parent? := by
  have hread : ofDeclarations [(⟨"truck", none⟩, some ⟨"vehicle", none⟩), (⟨"city", none⟩, none),
      (⟨"vehicle", none⟩, none)] = .ok _ := rfl
  have hsame := declarations_determine_tree [(⟨"truck", none⟩, some ⟨"vehicle", none⟩),
    (⟨"city", none⟩, none), (⟨"vehicle", none⟩, none)]
  refine ⟨_, hread, rfl, (hsame.2.1 _ hread).ancestors "truck" (by decide), ?_⟩
  obtain ⟨h', hread', hparent, -⟩ := hsame.2.2 [(⟨"vehicle", none⟩, none),
    (⟨"truck", none⟩, some ⟨"vehicle", none⟩), (⟨"city", none⟩, none)]
    (by simp only [List.mem_cons, List.not_mem_nil]; tauto) _ hread
  exact ⟨h', hread', hparent⟩

end TypeHierarchy
end FinitePlanning
