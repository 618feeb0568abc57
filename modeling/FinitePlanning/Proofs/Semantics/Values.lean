import Mathlib.Data.List.Nodup
import FinitePlanning.Proofs.Semantics.Lifted

/-!
The values that parameters have in an instance, as renamings and as valuations
of all terms.
-/

namespace FinitePlanning

/-- A valuation of terms leaves objects alone. -/
def FixesObjects (σ : String → String) : Prop := ∀ x, isVariable x = false → σ x = x

namespace Renaming

variable {r q : Renaming} {x y : String}

theorem apply_of_not_mem (h : x ∉ r.map (·.1)) : r.apply x = x := by
  rw [apply, lookup_eq_none_iff_not_mem.mpr h]
  rfl

theorem apply_of_mem (hr : (r.map (·.1)).Nodup) (h : (x, y) ∈ r) : r.apply x = y := by
  rw [apply, lookup_eq_some_of_nodup hr h]
  rfl

theorem apply_append_of_mem (h : x ∈ r.map (·.1)) :
    Renaming.apply (r ++ q) x = r.apply x := by
  cases hl : r.lookup x with
  | none => exact absurd h (lookup_eq_none_iff_not_mem.mp hl)
  | some y => simp [apply, List.lookup_append, hl]

theorem apply_append_of_not_mem (h : x ∉ r.map (·.1)) :
    Renaming.apply (r ++ q) x = q.apply x := by
  simp [apply, List.lookup_append, lookup_eq_none_iff_not_mem.mpr h]

theorem fixesObjects (h : ∀ x ∈ r.map (·.1), isVariable x = true) : FixesObjects r.apply := by
  intro x hx
  refine apply_of_not_mem fun hmem => ?_
  rw [h x hmem] at hx
  cases hx

end Renaming

namespace Grounding

variable {ps : List Parameter} {os : List String}

theorem keys_valuesOf (h : ps.length = os.length) :
    (valuesOf ps os).map (·.1) = (ps.map (·.name)).reverse := by
  rw [valuesOf, List.map_reverse, List.map_fst_zip (by simp [h])]

theorem mem_keys_valuesOf {x : String} (h : x ∈ (valuesOf ps os).map (·.1)) :
    x ∈ ps.map (·.name) := by
  rw [valuesOf, List.map_reverse, List.mem_reverse] at h
  obtain ⟨⟨y, o⟩, hmem, rfl⟩ := List.mem_map.mp h
  exact (List.of_mem_zip hmem).1

theorem apply_valuesOf (hn : (ps.map (·.name)).Nodup) (h : ps.length = os.length) {i : Nat}
    {p : Parameter} {o : String} (hp : ps[i]? = some p) (ho : os[i]? = some o) :
    (valuesOf ps os).apply p.name = o := by
  refine Renaming.apply_of_mem ?_ ?_
  · rw [keys_valuesOf h]
    exact List.nodup_reverse.mpr hn
  · rw [valuesOf, List.mem_reverse]
    refine List.mem_of_getElem? (i := i) ?_
    simp [List.getElem?_zip_eq_some, hp, ho]

theorem map_apply_valuesOf (hn : (ps.map (·.name)).Nodup) (h : ps.length = os.length) :
    (ps.map (·.name)).map (valuesOf ps os).apply = os := by
  refine List.ext_getElem (by simpa using h) fun i h₁ h₂ => ?_
  simp only [List.getElem_map]
  have hi : i < ps.length := by simpa using h₁
  exact apply_valuesOf hn h (List.getElem?_eq_getElem hi) (List.getElem?_eq_getElem h₂)

end Grounding

open Grounding (valuesOf)

theorem TypedBy.length_eq {objects : String → List String} {ps : List Parameter}
    {os : List String} (h : TypedBy objects ps os) : ps.length = os.length :=
  List.Forall₂.length_eq h

theorem TypedBy.apply_mem {objects : String → List String} {ps : List Parameter}
    {os : List String} (h : TypedBy objects ps os) (hn : (ps.map (·.name)).Nodup)
    {p : Parameter} (hp : p ∈ ps) : (valuesOf ps os).apply p.name ∈ objects p.type := by
  obtain ⟨i, hi, rfl⟩ := List.mem_iff_getElem.mp hp
  have hio : i < os.length := h.length_eq ▸ hi
  rw [Grounding.apply_valuesOf hn h.length_eq (List.getElem?_eq_getElem hi)
    (List.getElem?_eq_getElem hio)]
  exact List.forall₂_iff_get.mp h |>.2 i hi hio

namespace Task

variable {t : Task}

theorem mem_objects_of_mem_objectsOf {type o : String} (h : o ∈ t.objectsOf type) :
    o ∈ t.objects.map (·.name) := by
  obtain ⟨x, hx, rfl⟩ := List.mem_map.mp h
  exact List.mem_map_of_mem (List.mem_filter.mp hx).1

/-- One object for each parameter, whatever the types. -/
abbrev AreObjects (t : Task) (ps : List Parameter) (os : List String) : Prop :=
  TypedBy (fun _ => t.objects.map (·.name)) ps os

theorem Typed.areObjects {ps : List Parameter} {os : List String} (h : t.Typed ps os) :
    t.AreObjects ps os :=
  List.Forall₂.imp (fun _ _ => mem_objects_of_mem_objectsOf) h

end Task

theorem AreVariables.left {ps qs : List Parameter} (h : AreVariables (ps ++ qs)) :
    AreVariables ps where
  nodup := (List.nodup_append.mp (List.map_append ▸ h.nodup)).1
  isVariable p hp := h.isVariable p (List.mem_append_left _ hp)

theorem AreVariables.right {ps qs : List Parameter} (h : AreVariables (ps ++ qs)) :
    AreVariables qs where
  nodup := (List.nodup_append.mp (List.map_append ▸ h.nodup)).2.1
  isVariable p hp := h.isVariable p (List.mem_append_right _ hp)

theorem AreVariables.disjoint {ps qs : List Parameter} (h : AreVariables (ps ++ qs))
    {x : String} (hp : x ∈ ps.map (·.name)) (hq : x ∈ qs.map (·.name)) : False :=
  (List.nodup_append.mp (List.map_append ▸ h.nodup)).2.2 x hp x hq rfl

theorem AreVariables.isVariable_of_mem {ps : List Parameter} (h : AreVariables ps) {x : String}
    (hx : x ∈ ps.map (·.name)) : FinitePlanning.isVariable x = true := by
  obtain ⟨p, hp, rfl⟩ := List.mem_map.mp hx
  exact h.isVariable p hp

/-- The values of the parameters of an effect and of its action make ground atoms
of the atoms over them. -/
theorem Atom.IsOver.isGround {t : Task} {ps : List Parameter} {a : Atom}
    (h : a.IsOver t (ps.map (·.name))) {r : Renaming}
    (hr : ∀ p ∈ ps, r.apply p.name ∈ t.objects.map (·.name))
    (hfix : FixesObjects r.apply) : (a.rename r).IsGround t where
  arity := by simpa [Atom.rename] using h.arity
  args := by
    intro x hx
    obtain ⟨y, hy, rfl⟩ := List.mem_map.mp hx
    cases hv : isVariable y with
    | true =>
        obtain ⟨p, hp, rfl⟩ := List.mem_map.mp ((h.args y hy).1 hv)
        exact hr p hp
    | false =>
        rw [hfix y hv]
        exact (h.args y hy).2 hv

theorem mem_keys_valuesOf_iff {ps : List Parameter} {os : List String}
    (h : ps.length = os.length) {x : String} :
    x ∈ (valuesOf ps os).map (·.1) ↔ x ∈ ps.map (·.name) := by
  rw [Grounding.keys_valuesOf h, List.mem_reverse]

section Inner

variable {ps qs : List Parameter} {args os : List String} (hv : AreVariables (ps ++ qs))
include hv

theorem inner_values_typed {objects : String → List String} (hargs : TypedBy objects ps args)
    (hos : TypedBy objects qs os) {p : Parameter} (hp : p ∈ ps ++ qs) :
    (valuesOf qs os ++ valuesOf ps args : Renaming).apply p.name ∈ objects p.type := by
  rcases List.mem_append.mp hp with hp | hp
  · have hout : p.name ∉ (valuesOf qs os).map (·.1) := fun h =>
      hv.disjoint (List.mem_map_of_mem hp) (Grounding.mem_keys_valuesOf h)
    rw [Renaming.apply_append_of_not_mem hout]
    exact hargs.apply_mem hv.left.nodup hp
  · have hin : p.name ∈ (valuesOf qs os).map (·.1) :=
      (mem_keys_valuesOf_iff hos.length_eq).mpr (List.mem_map_of_mem hp)
    rw [Renaming.apply_append_of_mem hin]
    exact hos.apply_mem hv.right.nodup hp

theorem inner_values_fixObjects :
    FixesObjects (valuesOf qs os ++ valuesOf ps args : Renaming).apply := by
  refine Renaming.fixesObjects fun x hx => ?_
  rw [List.map_append, List.mem_append] at hx
  rcases hx with hx | hx
  · exact hv.right.isVariable_of_mem (Grounding.mem_keys_valuesOf hx)
  · exact hv.left.isVariable_of_mem (Grounding.mem_keys_valuesOf hx)

theorem Atom.IsOver.isGround_inner {t : Task} {a : Atom}
    (h : a.IsOver t ((ps ++ qs).map (·.name))) (hargs : t.AreObjects ps args)
    (hos : t.AreObjects qs os) : (a.rename (valuesOf qs os ++ valuesOf ps args)).IsGround t :=
  h.isGround (fun _ hp => inner_values_typed hv hargs hos hp) (inner_values_fixObjects hv)

end Inner

theorem outer_values_fixObjects {ps : List Parameter} (h : AreVariables ps)
    (args : List String) : FixesObjects (valuesOf ps args).apply :=
  Renaming.fixesObjects fun _ hx => h.isVariable_of_mem (Grounding.mem_keys_valuesOf hx)

/-- An atom over some variables has the same instances under valuations that agree
on these variables. -/
theorem Atom.IsOver.rename_congr {t : Task} {vars : List String} {a : Atom}
    (h : a.IsOver t vars) {r q : Renaming} (hr : FixesObjects r.apply)
    (hq : FixesObjects q.apply) (hrq : ∀ x ∈ vars, r.apply x = q.apply x) :
    a.rename r = a.rename q := by
  have hargs : ∀ x ∈ a.args, r.apply x = q.apply x := by
    intro x hx
    cases hv : isVariable x with
    | true => exact hrq x ((h.args x hx).1 hv)
    | false => rw [hr x hv, hq x hv]
  simp only [Atom.rename, List.map_congr_left hargs]

theorem Literal.rename_eq {l : Literal} {r q : Renaming}
    (h : ∀ x ∈ l.atom.args, r.apply x = q.apply x) : l.rename r = l.rename q := by
  simp only [Literal.rename, Atom.rename, List.map_congr_left h]

theorem Literal.rename_congr {t : Task} {vars : List String} {l : Literal}
    (h : l.atom.IsOver t vars) {r q : Renaming} (hr : FixesObjects r.apply)
    (hq : FixesObjects q.apply) (hrq : ∀ x ∈ vars, r.apply x = q.apply x) :
    l.rename r = l.rename q := by
  simp only [Literal.rename, h.rename_congr hr hq hrq]

/-- A literal over the outer parameters does not depend on the inner ones. -/
theorem Literal.rename_outer {t : Task} {ps qs : List Parameter} (hv : AreVariables (ps ++ qs))
    {l : Literal} (hl : l.atom.IsOver t (ps.map (·.name))) (args os : List String) :
    l.rename (valuesOf qs os ++ valuesOf ps args) = l.rename (valuesOf ps args) :=
  Literal.rename_congr hl (inner_values_fixObjects hv) (outer_values_fixObjects hv.left args)
    fun _ hx => Renaming.apply_append_of_not_mem fun hmem =>
      hv.disjoint hx (Grounding.mem_keys_valuesOf hmem)

end FinitePlanning
