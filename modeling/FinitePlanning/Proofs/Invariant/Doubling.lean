import FinitePlanning.Proofs.Names
import FinitePlanning.Proofs.Condition.Traversal
import FinitePlanning.Proofs.Invariant.Requirements
import FinitePlanning.Proofs.Semantics.Values

/-!
Universal effects that occur twice, with different variables. Two instances of
effects are instances of two occurrences under the same values of all variables.
-/

namespace FinitePlanning
namespace Condition

theorem rename_conjunction {c : Condition} {ls : List Literal} (h : c.conjunction? = some ls)
    (r : Renaming) : (c.rename r).conjunction? = some (ls.map (·.rename r)) := by
  rcases conjunction?_eq_some h with ⟨rfl, rfl⟩ | ⟨l, rfl, rfl⟩ | rfl
  · rw [rename, mapBottomUp_true]
    rfl
  · rw [rename, mapBottomUp_literal]
    rfl
  · rw [rename, mapBottomUp_and, ← conjunction?_and]
    simp [Function.comp_def]

end Condition

namespace Action

/-- A renaming of parameters to different variables that are not used. -/
structure RenamesApart (used : List String) (ps : List Parameter) (r : Renaming) : Prop where
  keys : r.map (·.1) = ps.map (·.name)
  nodup : (r.map (·.2)).Nodup
  fresh : ∀ x ∈ r.map (·.2), x ∉ used ∧ isVariable x = true

theorem freshNames_spec (ps : List Parameter) (names : VariableNames)
    (hv : ∀ p ∈ ps, isVariable p.name = true) :
    RenamesApart names.used ps (freshNames names ps).1 ∧
      names.used ⊆ (freshNames names ps).2.used := by
  induction ps generalizing names with
  | nil => exact ⟨⟨rfl, List.nodup_nil, nofun⟩, List.Subset.refl _⟩
  | cons p ps ih =>
      obtain ⟨⟨hkeys, hnodup, hfresh⟩, hused⟩ := ih (names.fresh p.name).2
        fun q hq => hv q (List.mem_cons_of_mem p hq)
      rw [VariableNames.fresh_used] at hused hfresh
      refine ⟨⟨?_, ?_, ?_⟩, fun x hx => hused (List.mem_cons_of_mem _ hx)⟩
      · simp only [freshNames, List.map_cons, hkeys]
      · simp only [freshNames, List.map_cons, List.nodup_cons]
        exact ⟨fun hmem => (hfresh _ hmem).1 List.mem_cons_self, hnodup⟩
      · simp only [freshNames, List.map_cons, List.mem_cons]
        rintro x (rfl | hx)
        · exact ⟨VariableNames.fresh_not_mem,
            VariableNames.fresh_isVariable (hv p List.mem_cons_self)⟩
        · exact ⟨fun h => (hfresh x hx).1 (List.mem_cons_of_mem _ h), (hfresh x hx).2⟩

/-- A copy of an effect: the effect itself if it has no parameters, and otherwise
one with variables that are not used elsewhere. -/
def IsCopy (used : List String) (e copy : Effect) : Prop :=
  e.parameters = [] ∧ copy = e ∨
    ∃ r, RenamesApart used e.parameters r ∧ copy = e.rename r

theorem isCopy_of_subset {used used' : List String} {e copy : Effect} (hu : used ⊆ used')
    (h : IsCopy used' e copy) : IsCopy used e copy :=
  h.imp_right fun ⟨r, hr, hc⟩ =>
    ⟨r, ⟨hr.keys, hr.nodup, fun x hx => ⟨fun hm => (hr.fresh x hx).1 (hu hm),
      (hr.fresh x hx).2⟩⟩, hc⟩

theorem exists_copy_mem (names : VariableNames) {effects : List Effect}
    (hv : ∀ e ∈ effects, ∀ p ∈ e.parameters, isVariable p.name = true) {e : Effect}
    (he : e ∈ effects) : ∃ copy ∈ doubledEffects names effects, IsCopy names.used e copy := by
  induction effects generalizing names with
  | nil => cases he
  | cons f effects ih =>
      have ih := fun names => ih names
        fun e he => hv e (List.mem_cons_of_mem f he)
      rw [doubledEffects]
      split
      next hempty =>
        rcases List.mem_cons.mp he with rfl | he
        · exact ⟨e, List.mem_cons_self, .inl ⟨List.isEmpty_iff.mp hempty, rfl⟩⟩
        · obtain ⟨copy, hcopy, hc⟩ := ih names he
          exact ⟨copy, List.mem_cons_of_mem _ hcopy, hc⟩
      next =>
        rcases List.mem_cons.mp he with rfl | he
        · exact ⟨_, List.mem_cons_of_mem _ List.mem_cons_self,
            .inr ⟨_, (freshNames_spec _ names (hv e List.mem_cons_self)).1, rfl⟩⟩
        · obtain ⟨copy, hcopy, hc⟩ := ih (freshNames names f.parameters).2 he
          obtain ⟨-, hused⟩ := freshNames_spec f.parameters names (hv f List.mem_cons_self)
          exact ⟨copy, List.mem_cons_of_mem _ (List.mem_cons_of_mem _ hcopy),
            isCopy_of_subset hused hc⟩

/-- Of two different effects the first one comes with a copy of the second one, and
a universal effect with a copy of itself. -/
theorem exists_copy_after (names : VariableNames) {effects : List Effect}
    (hv : ∀ e ∈ effects, ∀ p ∈ e.parameters, isVariable p.name = true) {e f : Effect}
    (h : [e, f].Sublist effects ∨ e = f ∧ e ∈ effects ∧ e.parameters ≠ []) :
    ∃ copy, [e, copy].Sublist (doubledEffects names effects) ∧
      IsCopy names.used f copy := by
  induction effects generalizing names with
  | nil =>
      rcases h with h | ⟨-, h, -⟩
      · cases h
      · cases h
  | cons g effects ih =>
      have hv' := fun e he => hv e (List.mem_cons_of_mem g he)
      have ih := fun names => ih names hv'
      obtain ⟨hapart, hused⟩ := freshNames_spec g.parameters names (hv g List.mem_cons_self)
      -- the first effect is the head, or both are in the tail
      have hcases : (g = e ∧ (f ∈ effects ∨ e = f ∧ e.parameters ≠ [])) ∨
          ([e, f].Sublist effects ∨ e = f ∧ e ∈ effects ∧ e.parameters ≠ []) := by
        rcases h with h | ⟨rfl, he, hne⟩
        · cases h with
          | cons _ h => exact .inr (.inl h)
          | cons_cons _ h => exact .inl ⟨rfl, .inl (List.singleton_sublist.mp h)⟩
        · rcases List.mem_cons.mp he with rfl | he
          · exact .inl ⟨rfl, .inr ⟨rfl, hne⟩⟩
          · exact .inr (.inr ⟨rfl, he, hne⟩)
      rw [doubledEffects]
      split
      next hempty =>
        rcases hcases with ⟨rfl, hf | ⟨-, hne⟩⟩ | htail
        · obtain ⟨copy, hcopy, hc⟩ := exists_copy_mem names hv' hf
          exact ⟨copy, (List.singleton_sublist.mpr hcopy).cons_cons g, hc⟩
        · exact absurd (List.isEmpty_iff.mp hempty) hne
        · obtain ⟨copy, hcopy, hc⟩ := ih names htail
          exact ⟨copy, hcopy.cons g, hc⟩
      next =>
        rcases hcases with ⟨rfl, hf | ⟨rfl, -⟩⟩ | htail
        · obtain ⟨copy, hcopy, hc⟩ := exists_copy_mem
            (freshNames names g.parameters).2 hv' hf
          exact ⟨copy, ((List.singleton_sublist.mpr hcopy).cons _).cons_cons g,
            isCopy_of_subset hused hc⟩
        · exact ⟨_, (List.singleton_sublist.mpr List.mem_cons_self).cons_cons g,
            .inr ⟨_, hapart, rfl⟩⟩
        · obtain ⟨copy, hcopy, hc⟩ := ih (freshNames names g.parameters).2 htail
          exact ⟨copy, (hcopy.cons _).cons _, isCopy_of_subset hused hc⟩

theorem mem_variableNames_of_parameter {a : Action} {x : String}
    (h : x ∈ a.parameters.map (·.name)) : x ∈ a.variableNames := by
  rw [variableNames, List.map_append]
  exact List.mem_append_left _ h

theorem mem_variableNames_of_effect {a : Action} {e : Effect} (he : e ∈ a.effects) {x : String}
    (h : x ∈ e.parameters.map (·.name)) : x ∈ a.variableNames := by
  obtain ⟨p, hp, rfl⟩ := List.mem_map.mp h
  exact List.mem_map_of_mem (List.mem_append_right _ (List.mem_flatMap.mpr ⟨e, he, hp⟩))

end Action

/-- An atom over variables that are renamed. -/
theorem Atom.IsOver.renamed {t : Task} {vars vars' : List String} {a : Atom}
    (h : a.IsOver t vars) {r : Renaming} (hfix : FixesObjects r.apply)
    (hr : ∀ x ∈ vars, r.apply x ∈ vars' ∧ isVariable (r.apply x) = true) :
    (a.rename r).IsOver t vars' where
  arity := by simpa [Atom.rename] using h.arity
  args := by
    intro y hy
    obtain ⟨x, hx, rfl⟩ := List.mem_map.mp hy
    cases hv : isVariable x with
    | true =>
        have hx := hr x ((h.args x hx).1 hv)
        refine ⟨fun _ => hx.1, fun hf => ?_⟩
        rw [hx.2] at hf
        cases hf
    | false =>
        rw [hfix x hv]
        refine ⟨fun hf => ?_, (h.args x hx).2⟩
        rw [hv] at hf
        cases hf

theorem Renaming.map_apply_keys {r : Renaming} (hr : (r.map (·.1)).Nodup) :
    (r.map (·.1)).map r.apply = r.map (·.2) := by
  rw [List.map_map]
  exact List.map_congr_left fun p hp => Renaming.apply_of_mem hr hp

namespace Action

open Grounding (valuesOf)

/-- What a copy of an effect of an action shares with it. -/
structure CopyOf (t : Task) (a : Action) (e copy : Effect) : Prop where
  normal : copy.IsNormal t a.parameters
  types : copy.parameters.map (·.type) = e.parameters.map (·.type)
  fresh : copy.parameters = [] ∨ ∀ x ∈ copy.parameters.map (·.name), x ∉ a.variableNames
  sign : copy.literal.negated = e.literal.negated
  literal : ∀ args os, e.parameters.length = os.length →
    copy.literal.rename (valuesOf copy.parameters os ++ valuesOf a.parameters args) =
      e.literal.rename (valuesOf e.parameters os ++ valuesOf a.parameters args)
  condition : ∀ args os, e.parameters.length = os.length →
    copy.condition.literals.map
        (·.rename (valuesOf copy.parameters os ++ valuesOf a.parameters args)) =
      e.condition.literals.map
        (·.rename (valuesOf e.parameters os ++ valuesOf a.parameters args))

section RenamesApart

variable {t : Task} {a : Action} {e : Effect} {r : Renaming}
  (hr : RenamesApart a.variableNames e.parameters r) (hn : e.IsNormal t a.parameters)

theorem names_rename : (e.parameters.map (·.rename r)).map (·.name) =
    (e.parameters.map (·.name)).map r.apply := by
  simp [Parameter.rename]

theorem apply_mem_rename {x : String} (hx : x ∈ e.parameters.map (·.name)) :
    r.apply x ∈ (e.parameters.map (·.rename r)).map (·.name) := by
  rw [names_rename]
  exact List.mem_map_of_mem hx

include hr hn

theorem RenamesApart.keys_nodup : (r.map (·.1)).Nodup := hr.keys ▸ hn.parameters.right.nodup

theorem RenamesApart.fixesObjects : FixesObjects r.apply := Renaming.fixesObjects fun _ hx =>
  hn.parameters.right.isVariable_of_mem (hr.keys ▸ hx)

theorem RenamesApart.nodup_names :
    ((e.parameters.map (·.rename r)).map (·.name)).Nodup := by
  rw [names_rename, ← hr.keys, Renaming.map_apply_keys (hr.keys_nodup hn)]
  exact hr.nodup

theorem RenamesApart.fresh_names {x : String}
    (hx : x ∈ (e.parameters.map (·.rename r)).map (·.name)) :
    x ∉ a.variableNames ∧ isVariable x = true := by
  rw [names_rename, ← hr.keys, Renaming.map_apply_keys (hr.keys_nodup hn)] at hx
  exact hr.fresh x hx

theorem RenamesApart.apply_outer {x : String} (hx : x ∈ a.parameters.map (·.name)) :
    r.apply x = x :=
  Renaming.apply_of_not_mem fun hmem => hn.parameters.disjoint hx (hr.keys ▸ hmem)

theorem RenamesApart.areVariables :
    AreVariables (a.parameters ++ e.parameters.map (·.rename r)) where
  nodup := by
    rw [List.map_append, List.nodup_append]
    refine ⟨hn.parameters.left.nodup, hr.nodup_names hn, ?_⟩
    rintro x hx y hy rfl
    exact (hr.fresh_names hn hy).1 (mem_variableNames_of_parameter hx)
  isVariable p hp := by
    rcases List.mem_append.mp hp with hp | hp
    · exact hn.parameters.left.isVariable p hp
    · exact (hr.fresh_names hn (List.mem_map_of_mem hp)).2

theorem RenamesApart.apply_mem_all {x : String}
    (hx : x ∈ (a.parameters ++ e.parameters).map (·.name)) :
    r.apply x ∈ (a.parameters ++ e.parameters.map (·.rename r)).map (·.name) ∧
      isVariable (r.apply x) = true := by
  have hmem : r.apply x ∈ (a.parameters ++ e.parameters.map (·.rename r)).map (·.name) := by
    rw [List.map_append, List.mem_append] at hx ⊢
    exact hx.imp (fun hx => (hr.apply_outer hn hx).symm ▸ hx) apply_mem_rename
  exact ⟨hmem, (hr.areVariables hn).isVariable_of_mem hmem⟩

/-- Renamed variables have the values that the original ones have. -/
theorem RenamesApart.apply_values {args os : List String}
    (hlen : e.parameters.length = os.length) {x : String}
    (hx : x ∈ (a.parameters ++ e.parameters).map (·.name)) :
    (valuesOf (e.parameters.map (·.rename r)) os ++
        valuesOf a.parameters args : Renaming).apply (r.apply x) =
      (valuesOf e.parameters os ++ valuesOf a.parameters args : Renaming).apply x := by
  have hlen' : (e.parameters.map (·.rename r)).length = os.length := by simpa using hlen
  rw [List.map_append, List.mem_append] at hx
  rcases hx with hx | hx
  · rw [hr.apply_outer hn hx, Renaming.apply_append_of_not_mem,
      Renaming.apply_append_of_not_mem]
    · exact fun hmem => hn.parameters.disjoint hx (Grounding.mem_keys_valuesOf hmem)
    · exact fun hmem => (hr.fresh_names hn (Grounding.mem_keys_valuesOf hmem)).1
        (mem_variableNames_of_parameter hx)
  · rw [Renaming.apply_append_of_mem ((mem_keys_valuesOf_iff hlen').mpr (apply_mem_rename hx)),
      Renaming.apply_append_of_mem ((mem_keys_valuesOf_iff hlen).mpr hx)]
    obtain ⟨p, hp, rfl⟩ := List.mem_map.mp hx
    obtain ⟨i, hi, rfl⟩ := List.mem_iff_getElem.mp hp
    have hio : os[i]? = some os[i] := List.getElem?_eq_getElem (hlen ▸ hi)
    rw [Grounding.apply_valuesOf hn.parameters.right.nodup hlen
      (List.getElem?_eq_getElem hi) hio]
    exact Grounding.apply_valuesOf (p := (e.parameters[i]).rename r) (hr.nodup_names hn) hlen'
      (by simp [hi]) hio

theorem RenamesApart.rename_rename {args os : List String}
    (hlen : e.parameters.length = os.length) {l : Literal}
    (hl : l.atom.IsOver t ((a.parameters ++ e.parameters).map (·.name))) :
    (l.rename r).rename (valuesOf (e.parameters.map (·.rename r)) os ++
        valuesOf a.parameters args) =
      l.rename (valuesOf e.parameters os ++ valuesOf a.parameters args) := by
  have hargs : ∀ x ∈ l.atom.args,
      (valuesOf (e.parameters.map (·.rename r)) os ++
          valuesOf a.parameters args : Renaming).apply (r.apply x) =
        (valuesOf e.parameters os ++ valuesOf a.parameters args : Renaming).apply x := by
    intro x hx
    cases hv : isVariable x with
    | true => exact hr.apply_values hn hlen ((hl.args x hx).1 hv)
    | false =>
        rw [hr.fixesObjects hn x hv, inner_values_fixObjects (hr.areVariables hn) x hv,
          inner_values_fixObjects hn.parameters x hv]
  simp only [Literal.rename, Atom.rename, List.map_map, Function.comp_def,
    List.map_congr_left hargs]

end RenamesApart

theorem IsCopy.copyOf {t : Task} {a : Action} {e copy : Effect}
    (hn : e.IsNormal t a.parameters) (h : IsCopy a.variableNames e copy) :
    CopyOf t a e copy := by
  rcases h with ⟨hempty, rfl⟩ | ⟨r, hr, rfl⟩
  · exact ⟨hn, rfl, .inl hempty, rfl, fun _ _ _ => rfl, fun _ _ _ => rfl⟩
  · have hcond : (e.condition.rename r).conjunction? =
        some (e.condition.literals.map (·.rename r)) :=
      Condition.rename_conjunction hn.condition.conjunction r
    have hrenamed : ∀ {b : Atom}, b.IsOver t ((a.parameters ++ e.parameters).map (·.name)) →
        (b.rename r).IsOver t
          ((a.parameters ++ e.parameters.map (·.rename r)).map (·.name)) := fun hb =>
      hb.renamed (hr.fixesObjects hn) fun x hx => hr.apply_mem_all hn hx
    exact {
      normal := {
        parameters := hr.areVariables hn
        condition := by
          refine ⟨_, hcond, fun l hl => ?_⟩
          obtain ⟨m, hm, rfl⟩ := List.mem_map.mp hl
          exact hrenamed (hn.condition.literals m hm)
        literal := hrenamed hn.literal
        named := hn.named
        basic := hn.basic }
      types := by simp [Effect.rename, Parameter.rename]
      fresh := .inr fun x hx => (hr.fresh_names hn hx).1
      sign := rfl
      literal := fun args os hlen => hr.rename_rename hn hlen hn.literal
      condition := by
        intro args os hlen
        simp only [Effect.rename, Condition.literals_of_conjunction hcond, List.map_map]
        exact List.map_congr_left fun l hl =>
          hr.rename_rename hn hlen (hn.condition.literals l hl) }

end Action

/-- Two different elements of a list come in one order or the other. -/
theorem pair_sublist {α : Type} {l : List α} {a b : α} (ha : a ∈ l) (hb : b ∈ l)
    (hne : a ≠ b) : [a, b].Sublist l ∨ [b, a].Sublist l := by
  induction l with
  | nil => cases ha
  | cons c l ih =>
      rcases List.mem_cons.mp ha with rfl | hal
      · have hbl := (List.mem_cons.mp hb).resolve_left hne.symm
        exact .inl ((List.singleton_sublist.mpr hbl).cons_cons a)
      · rcases List.mem_cons.mp hb with rfl | hbl
        · exact .inr ((List.singleton_sublist.mpr hal).cons_cons b)
        · exact (ih hal hbl).imp (.cons c) (.cons c)

theorem Invariant.mem_pairs {α : Type} {l : List α} {a b : α} :
    (a, b) ∈ pairs l ↔ [a, b].Sublist l := by
  induction l with
  | nil => simp [pairs]
  | cons c l ih =>
      rw [pairs, List.mem_append, ih]
      constructor
      · rintro (h | h)
        · obtain ⟨d, hd, he⟩ := List.mem_map.mp h
          cases he
          exact (List.singleton_sublist.mpr hd).cons_cons a
        · exact h.cons c
      · intro h
        cases h with
        | cons _ h => exact .inr h
        | cons_cons _ h =>
            exact .inl (List.mem_map_of_mem (List.singleton_sublist.mp h))

end FinitePlanning
