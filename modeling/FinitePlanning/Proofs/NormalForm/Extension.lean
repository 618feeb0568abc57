import FinitePlanning.Proofs.Condition.Constants
import FinitePlanning.Proofs.NormalForm.Rewriting

/-!
The truth value of conditions without universal quantifiers. Where each new predicate holds of the
objects for which its axiom applies, it holds if and only if the condition does that it stands for,
and the rewritten conditions keep their truth values. By the size of these conditions there is exactly
one such interpretation of the new predicates.
-/

namespace FinitePlanning
namespace Universal

open Condition Grounding

variable {objects : String → List String} {t : Task} {types : List Parameter} {known : Known}
  {negated : Bool} {c d : Condition} {vars : List String} {values : Renaming}
  {s s' : Interpretation} {ps : List Parameter} {body : Condition} {name : String}

/-- A predicate holds of the objects for which the condition holds that it stands for. -/
def StandsFor (objects : String → List String) (s : Interpretation)
    (e : (Condition × List Parameter) × String) : Prop :=
  ∀ os, TypedBy objects e.1.2 os →
    (Atom.named e.2 os ∈ s ↔ e.1.1.Holds objects s (valuesOf e.1.2 os))

/-- The values of variables have the types that the removal gives to them. -/
def RespectsTypes (objects : String → List String) (types : List Parameter) (vars : List String)
    (values : Renaming) : Prop :=
  ∀ x ∈ vars, values.apply x ∈ objects (typeIn types x)

theorem IsTyped.isVariable (hc : IsTyped t types vars c) :
    ∀ p ∈ c.quantifiedParameters, isVariable p.name = Bool.true :=
  hc.distinct.isVariable

theorem IsTyped.fixesObjects (hc : IsTyped t types vars c)
    (hps : ps ⊆ c.quantifiedParameters) (hfix : FixesObjects values.apply) (os : List String) :
    FixesObjects (valuesOf ps os ++ values : Renaming).apply :=
  fixesObjects_append (fun _ hp => hc.isVariable _ (hps hp)) hfix os

theorem IsTyped.respectsTypes (hc : IsTyped t types vars c)
    (hps : ∃ qs, c.quantifiedParameters = ps ++ qs) (h : RespectsTypes objects types vars values)
    {os : List String} (hos : TypedBy objects ps os) :
    RespectsTypes objects types (vars ++ ps.map (·.name)) (valuesOf ps os ++ values) := by
  obtain ⟨qs, hqs⟩ := hps
  intro x hx
  by_cases hmem : x ∈ ps.map (·.name)
  · obtain ⟨p, hp, rfl⟩ := List.mem_map.mp hmem
    have hkey := (mem_keys_valuesOf_iff hos.length_eq).mpr hmem
    rw [Renaming.apply_append_of_mem hkey,
      ← hc.types p (hqs ▸ List.mem_append_left qs hp)]
    exact hos.apply_mem (hqs ▸ hc.distinct).left.nodup hp
  · rw [Renaming.apply_append_of_not_mem fun hkey => hmem (mem_keys_valuesOf hkey)]
    exact h x ((List.mem_append.mp hx).resolve_right hmem)

theorem of_mem_parametersOf {p : Parameter} (hp : p ∈ parametersOf types c) :
    p.type = typeIn types p.name ∧ p.name ∈ c.freeVariables := by
  obtain ⟨x, hx, rfl⟩ := List.mem_map.mp hp
  exact ⟨rfl, hx⟩

theorem typedBy_parametersOf (h : RespectsTypes objects types c.freeVariables values) :
    TypedBy objects (parametersOf types c) (c.freeVariables.map values.apply) := by
  rw [TypedBy, parametersOf, List.forall₂_map_left_iff, List.forall₂_map_right_iff,
    List.forall₂_same]
  exact h

/-- A condition that is defined by a predicate has the truth value for the values of its free
variables. -/
theorem IsTyped.holds_valuesOf (hc : IsTyped t types c.freeVariables c)
    (hfix : FixesObjects values.apply) :
    c.Holds objects s (valuesOf (parametersOf types c) (c.freeVariables.map values.apply)) ↔
      c.Holds objects s values := by
  have hvariables : AreVariables (parametersOf types c) :=
    (areVariables_parametersOf hc.distinct).left
  refine hc.inScope.holds_congr (outer_values_fixObjects hvariables _) hfix ?_
  have hlength : (parametersOf types c).length = (c.freeVariables.map values.apply).length := by
    simp [parametersOf]
  have hmap := map_apply_valuesOf hvariables.nodup hlength
  rw [map_name_parametersOf] at hmap
  exact List.map_inj_left.mp hmap

theorem holds_standIn (hc : IsTyped t types c.freeVariables c) (hfix : FixesObjects values.apply)
    (hvalues : RespectsTypes objects types c.freeVariables values)
    (h : StandsFor objects s ((c, parametersOf types c), name)) :
    (standIn name (parametersOf types c)).Holds objects s values ↔ ¬ c.Holds objects s values := by
  have hatom : (Atom.named name ((parametersOf types c).map (·.name))).rename values =
      Atom.named name (c.freeVariables.map values.apply) := by
    rw [map_name_parametersOf]
    rfl
  rw [← hc.holds_valuesOf hfix, ← h _ (typedBy_parametersOf hvalues), ← hatom]
  exact Literal.holds_negative s _

/-! ### Rewritten conditions -/

theorem exists_mem_zip_of_mem_right {α β : Type} {as : List α} {bs : List β}
    (length : as.length = bs.length) {b : β} (hb : b ∈ bs) : ∃ a, (a, b) ∈ as.zip bs := by
  rw [← List.map_snd_zip (Nat.le_of_eq length.symm)] at hb
  obtain ⟨⟨a, b⟩, hp, rfl⟩ := List.mem_map.mp hb
  exact ⟨a, hp⟩

/-- The truth value is kept or, if so indicated, inverted. -/
theorem Rewrites.holds_iff (h : Rewrites types known negated c d) (hc : IsTyped t types vars c)
    (hfix : FixesObjects values.apply) (hvalues : RespectsTypes objects types vars values)
    (hknown : ∀ e ∈ known, e.1.1.size ≤ c.size → StandsFor objects s e) :
    d.Holds objects s values ↔
      if negated then ¬ c.Holds objects s values else c.Holds objects s values := by
  induction h generalizing vars values with
  | @truth negated => cases negated <;> simp
  | @falsity negated => cases negated <;> simp
  | @literal negated l =>
      cases negated with
      | true => exact Literal.holds_negate s (l.rename values)
      | false => rfl
  | @and negated cs ds length _ ih =>
      have hparts : List.Forall₂ (fun c d => d.Holds objects s values ↔
          if negated then ¬ c.Holds objects s values else c.Holds objects s values) cs ds := by
        refine List.forall₂_iff_zip.mpr ⟨length, fun {c d} hp => ?_⟩
        have hmem := (List.of_mem_zip hp).1
        refine ih (c, d) hp (hc.of_mem_and hmem) hfix hvalues fun e he hsize => hknown e he ?_
        exact (hsize.trans (size_le_of_mem hmem)).trans (Nat.le_succ _)
      cases negated with
      | true =>
          rw [if_pos rfl, if_pos rfl, holds_or, holds_and]
          push Not
          exact exists_mem_iff_of_forall₂ hparts
      | false =>
          rw [if_neg Bool.false_ne_true, if_neg Bool.false_ne_true, holds_and, holds_and]
          exact forall_mem_iff_of_forall₂ hparts
  | @or negated cs ds length _ ih =>
      have hparts : List.Forall₂ (fun c d => d.Holds objects s values ↔
          if negated then ¬ c.Holds objects s values else c.Holds objects s values) cs ds := by
        refine List.forall₂_iff_zip.mpr ⟨length, fun {c d} hp => ?_⟩
        have hmem := (List.of_mem_zip hp).1
        refine ih (c, d) hp (hc.of_mem_or hmem) hfix hvalues fun e he hsize => hknown e he ?_
        exact (hsize.trans (size_le_of_mem hmem)).trans (Nat.le_succ _)
      cases negated with
      | true =>
          rw [if_pos rfl, if_pos rfl, holds_or, holds_and]
          push Not
          exact forall_mem_iff_of_forall₂ hparts
      | false =>
          rw [if_neg Bool.false_ne_true, if_neg Bool.false_ne_true, holds_or, holds_or]
          exact exists_mem_iff_of_forall₂ hparts
  | @notForall ps body d _ ih =>
      rw [if_pos rfl, holds_exists, holds_forall]
      push Not
      refine exists_congr fun os => and_congr_right fun hos => ?_
      refine ih hc.under_forall (hc.fixesObjects ?_ hfix os) (hc.respectsTypes ?_ hvalues hos)
        fun e he hsize => hknown e he (hsize.trans (Nat.le_succ _))
      · exact quantifiedParameters_forall ps body ▸ List.subset_append_left _ _
      · exact ⟨_, quantifiedParameters_forall ps body⟩
  | @«forall» ps body name hname =>
      have hsound := hknown _ hname (by simp [size])
      have hfree : (Condition.exists ps body.negate).freeVariables ⊆ vars :=
        hc.negate_forall.inScope.freeVariables_subset
      rw [if_neg Bool.false_ne_true, holds_standIn hc.negate_forall.free hfix
        (fun x hx => hvalues x (hfree hx)) hsound, holds_exists, holds_forall]
      simp [holds_negate]
  | @«exists» ps body d _ ih =>
      rw [if_neg Bool.false_ne_true, holds_exists, holds_exists]
      refine exists_congr fun os => and_congr_right fun hos => ?_
      refine ih hc.under_exists (hc.fixesObjects ?_ hfix os) (hc.respectsTypes ?_ hvalues hos)
        fun e he hsize => hknown e he (hsize.trans (Nat.le_succ _))
      · exact quantifiedParameters_exists ps body ▸ List.subset_append_left _ _
      · exact ⟨_, quantifiedParameters_exists ps body⟩
  | @notExists ps body name hname =>
      rw [if_pos rfl]
      exact holds_standIn hc.free hfix
        (fun x hx => hvalues x (hc.inScope.freeVariables_subset hx)) (hknown _ hname (Nat.le_refl _))

theorem Rewrites.isSolid (h : Rewrites types known negated c d) (hc : c.IsSolid) : d.IsSolid := by
  induction h with
  | truth | falsity => cases hc
  | literal => exact .literal _
  | @and negated cs ds length _ ih =>
      cases hc with
      | and some hcs =>
          have hds : ∀ d ∈ ds, d.IsSolid := fun d hd => by
            obtain ⟨c, hcd⟩ := exists_mem_zip_of_mem_right length hd
            exact ih (c, d) hcd (hcs c (List.of_mem_zip hcd).1)
          have hsome : ds ≠ [] := fun hnil => some (by simpa [hnil] using length)
          cases negated with
          | true => exact .or hsome hds
          | false => exact .and hsome hds
  | @or negated cs ds length _ ih =>
      cases hc with
      | or some hcs =>
          have hds : ∀ d ∈ ds, d.IsSolid := fun d hd => by
            obtain ⟨c, hcd⟩ := exists_mem_zip_of_mem_right length hd
            exact ih (c, d) hcd (hcs c (List.of_mem_zip hcd).1)
          have hsome : ds ≠ [] := fun hnil => some (by simpa [hnil] using length)
          cases negated with
          | true => exact .and hsome hds
          | false => exact .or hsome hds
  | notForall _ ih =>
      cases hc with
      | «forall» hbody => exact .exists (ih hbody)
  | «exists» _ ih =>
      cases hc with
      | «exists» hbody => exact .exists (ih hbody)
  | «forall» | notExists => exact .literal _

/-- Only the predicates of the condition occur, and those that stand for no larger conditions. -/
theorem Rewrites.mem_literals (h : Rewrites types known negated c d) {l : Literal}
    (hl : l ∈ d.literals) : (∃ l' ∈ c.literals, l.atom = l'.atom) ∨
      ∃ c' name, ((c', parametersOf types c'), name) ∈ known ∧ c'.size ≤ c.size ∧
        l.atom = Atom.named name ((parametersOf types c').map (·.name)) := by
  induction h generalizing l with
  | @truth negated => cases negated <;> simp at hl
  | @falsity negated => cases negated <;> simp at hl
  | @literal negated m =>
      left
      refine ⟨m, by simp, ?_⟩
      cases negated <;> simp at hl <;> simp [hl, Literal.negate]
  | @and negated cs ds length _ ih | @or negated cs ds length _ ih =>
      have hds : ∃ d ∈ ds, l ∈ d.literals := by
        cases negated <;> simpa using hl
      obtain ⟨d, hd, hl⟩ := hds
      obtain ⟨c, hp⟩ := exists_mem_zip_of_mem_right length hd
      have hmem := (List.of_mem_zip hp).1
      rcases ih (c, d) hp hl with ⟨l', hl', heq⟩ | ⟨c', name, hname, hsize, heq⟩
      · exact .inl ⟨l', by simpa using ⟨c, hmem, hl'⟩, heq⟩
      · have hsmaller : c.size ≤ sizeAll cs + 1 := (size_le_of_mem hmem).trans (Nat.le_succ _)
        exact .inr ⟨c', name, hname, hsize.trans hsmaller, heq⟩
  | notForall _ ih | «exists» _ ih =>
      rw [literals_exists] at hl
      rcases ih hl with ⟨l', hl', heq⟩ | ⟨c', name, hname, hsize, heq⟩
      · exact .inl ⟨l', by simpa using hl', heq⟩
      · exact .inr ⟨c', name, hname, hsize.trans (Nat.le_succ _), heq⟩
  | @«forall» ps body name hname =>
      obtain rfl := List.mem_singleton.mp (literals_literal _ ▸ hl)
      exact .inr ⟨_, name, hname, by simp [size], rfl⟩
  | @notExists ps body name hname =>
      obtain rfl := List.mem_singleton.mp (literals_literal _ ▸ hl)
      exact .inr ⟨_, name, hname, Nat.le_refl _, rfl⟩

theorem IsTyped.isSolid (hc : IsTyped t types vars c) (hopen : c.isConstant = Bool.false) :
    c.IsSolid :=
  hc.simplified.isSolid hopen

/-- The condition of an axiom has the truth value of the condition that the predicate stands for. -/
theorem Defines.holds_iff (h : Defines t types known c d) (hfix : FixesObjects values.apply)
    (hvalues : RespectsTypes objects types c.freeVariables values)
    (hknown : ∀ e ∈ known, e.1.1.size < c.size → StandsFor objects s e) :
    d.Holds objects s values ↔ c.Holds objects s values := by
  cases h with
  | same => rfl
  | @notForall ps body d hc h =>
      have hsolid : body.IsSolid := by
        cases hc.isSolid rfl with
        | «forall» hbody => exact hbody
      have hq := quantifiedParameters_forall ps body
      rw [freeVariables_negate_forall] at hvalues
      rw [(IsSolid.exists (h.isSolid hsolid)).holds_simplified, holds_exists, holds_exists]
      refine exists_congr fun os => and_congr_right fun hos => ?_
      rw [h.holds_iff hc.under_forall (hc.fixesObjects (hq ▸ List.subset_append_left _ _) hfix os)
        (hc.respectsTypes ⟨_, hq⟩ hvalues hos) fun e he hsize => hknown e he ?_, if_pos rfl,
        holds_negate]
      rw [size, size_negate]
      exact Nat.lt_succ_of_le hsize
  | @«exists» ps body d hc h =>
      have hsolid : body.IsSolid := by
        cases hc.isSolid rfl with
        | «exists» hbody => exact hbody
      have hq := quantifiedParameters_exists ps body
      rw [(IsSolid.exists (h.isSolid hsolid)).holds_simplified, holds_exists, holds_exists]
      refine exists_congr fun os => and_congr_right fun hos => ?_
      rw [h.holds_iff hc.under_exists (hc.fixesObjects (hq ▸ List.subset_append_left _ _) hfix os)
        (hc.respectsTypes ⟨_, hq⟩ hvalues hos) fun e he hsize => hknown e he ?_,
        if_neg Bool.false_ne_true]
      exact Nat.lt_succ_of_le hsize

/-- A condition that defines a predicate is over the free variables of what it stands for. -/
theorem Defines.isTyped (h : Defines t types known c d) : IsTyped t types c.freeVariables c := by
  cases h with
  | same hc => exact hc
  | notForall hc => exact hc.negate_forall.free
  | «exists» hc => exact hc

/-- The condition of an axiom uses only predicates that stand for smaller conditions. -/
theorem Defines.mem_literals (h : Defines t types known c d) {l : Literal} (hl : l ∈ d.literals) :
    (∃ l' ∈ c.literals, l.atom.predicate = l'.atom.predicate) ∨
      ∃ c' name, ((c', parametersOf types c'), name) ∈ known ∧ c'.size < c.size ∧
        l.atom = Atom.named name ((parametersOf types c').map (·.name)) := by
  cases h with
  | same => exact .inl ⟨l, hl, rfl⟩
  | @notForall ps body d _ h =>
      have hl := (Condition.Shrinks.simplified _).literals hl
      rw [literals_exists] at hl
      rcases h.mem_literals hl with ⟨l', hl', heq⟩ | ⟨c', name, hname, hsize, heq⟩
      · refine .inl ⟨l'.negate, ?_, by rw [heq, Literal.negate]⟩
        rw [literals_exists, literals_negate]
        exact List.mem_map_of_mem hl'
      · refine .inr ⟨c', name, hname, ?_, heq⟩
        rw [size, size_negate]
        exact Nat.lt_succ_of_le hsize
  | «exists» _ h =>
      have hl := (Condition.Shrinks.simplified _).literals hl
      rw [literals_exists] at hl
      rcases h.mem_literals hl with ⟨l', hl', heq⟩ | ⟨c', name, hname, hsize, heq⟩
      · exact .inl ⟨l', by rwa [literals_exists], congrArg _ heq⟩
      · exact .inr ⟨c', name, hname, Nat.lt_succ_of_le hsize, heq⟩

/-- A condition of the task has the same truth value as what the removal makes of it. -/
theorem Replaces.holds_iff (h : Replaces t types known vars c d) (hfix : FixesObjects values.apply)
    (hvalues : RespectsTypes objects types c.freeVariables values)
    (hknown : ∀ e ∈ known, StandsFor objects s e) :
    d.Holds objects s values ↔ c.Holds objects s values := by
  cases h with
  | same => rfl
  | @rewritten d hc h =>
      have hd := h.holds_iff hc.free hfix hvalues fun e he _ => hknown e he
      rw [if_neg Bool.false_ne_true] at hd
      rw [← hd]
      cases hopen : c.isConstant with
      | false => exact (h.isSolid (hc.isSolid hopen)).holds_simplified
      | true =>
          cases h with
          | truth | falsity => simp [simplified, simplifyNode]
          | literal | and | or | «forall» | «exists» => cases hopen

/-! ### The interpretation of the new predicates -/

/-- The predicates of new axioms hold of the objects for which the axioms apply, and all else is
interpreted as before. -/
structure IsExtension (objects : String → List String) (new : List Axiom) (s s' : Interpretation) :
    Prop where
  other : ∀ a : Atom, (∀ x ∈ new, a.predicate ≠ .named x.name) → (a ∈ s' ↔ a ∈ s)
  applies : ∀ x ∈ new, ∀ args, Atom.named x.name args ∈ s' ↔
    ∃ os, TypedBy objects x.parameters os ∧ os.take x.external = args ∧
      x.condition.Holds objects s' (valuesOf x.parameters os)

/-- The new axioms are those of the predicates that stand for conditions. -/
structure AreDefinitions (t : Task) (known : Known) (new : List Axiom) : Prop where
  heads : (known.map fun e => (e.2, e.1.2)).Perm (new.map fun x => (x.name, x.parameters))
  nodup : (known.map (·.2)).Nodup
  fresh : ∀ e ∈ known, e.2 ∉ t.predicates.map (·.name)
  defined : ∀ x ∈ new, IsDefinition t known x

namespace AreDefinitions

variable {new : List Axiom} (h : AreDefinitions t known new)
include h

theorem eq_of_name {e e' : (Condition × List Parameter) × String} (he : e ∈ known)
    (he' : e' ∈ known) (hname : e.2 = e'.2) : e = e' :=
  List.inj_on_of_nodup_map h.nodup he he' hname

/-- Each predicate that stands for a condition has an axiom. -/
theorem exists_definition {e : (Condition × List Parameter) × String} (he : e ∈ known) :
    ∃ x ∈ new, x.name = e.2 ∧ x.parameters = e.1.2 ∧
      ∃ types, e.1.2 = parametersOf types e.1.1 ∧ Defines t types known e.1.1 x.condition := by
  obtain ⟨x, hx, hhead⟩ := List.mem_map.mp (h.heads.subset (List.mem_map_of_mem he))
  obtain ⟨hname, hparameters⟩ := Prod.ext_iff.mp hhead
  obtain ⟨types, c, hmem, hps, hdefines⟩ := (h.defined x hx).source
  obtain rfl := h.eq_of_name hmem he hname
  exact ⟨x, hx, hname, hparameters, types, hps, hdefines⟩

theorem exists_known {x : Axiom} (hx : x ∈ new) :
    ∃ e ∈ known, x.name = e.2 ∧ x.parameters = e.1.2 := by
  obtain ⟨e, he, hhead⟩ := List.mem_map.mp (h.heads.symm.subset (List.mem_map_of_mem hx))
  obtain ⟨hname, hparameters⟩ := Prod.ext_iff.mp hhead
  exact ⟨e, he, hname.symm, hparameters.symm⟩

/-- All parameters of a new axiom are parameters of its predicate. -/
theorem take_external {x : Axiom} (hx : x ∈ new) {os : List String}
    (hos : TypedBy objects x.parameters os) : os.take x.external = os := by
  rw [(h.defined x hx).external, hos.length_eq, List.take_length]

theorem nodup_names : (new.map (·.name)).Nodup := by
  have hnames := h.heads.map (·.1)
  simp only [List.map_map, Function.comp_def] at hnames
  exact hnames.nodup_iff.mp h.nodup

theorem not_mem_predicates {x : Axiom} (hx : x ∈ new) : x.name ∉ t.predicates.map (·.name) := by
  obtain ⟨e, he, hname, -⟩ := h.exists_known hx
  exact hname ▸ h.fresh e he

/-- A condition over declared predicates contains no new one. -/
theorem predicate_ne {k : Fragment} (hc : c.IsScoped t k vars) {l : Literal} (hl : l ∈ c.literals)
    {x : Axiom} (hx : x ∈ new) : l.atom.predicate ≠ .named x.name := by
  intro hpredicate
  have harity := hc.hasArity l hl
  rw [hpredicate] at harity
  obtain ⟨q, hq, hname, -⟩ := harity
  exact h.not_mem_predicates hx (hname ▸ List.mem_map_of_mem hq)

/-- The conditions that predicates stand for do not depend on the new predicates. -/
theorem holds_key (hs : ∀ a : Atom, (∀ x ∈ new, a.predicate ≠ .named x.name) → (a ∈ s' ↔ a ∈ s))
    {e : (Condition × List Parameter) × String} (he : e ∈ known) :
    e.1.1.Holds objects s' values ↔ e.1.1.Holds objects s values := by
  obtain ⟨_, -, -, -, _, -, hdefines⟩ := h.exists_definition he
  exact holds_congr_interpretation fun l hl a ha => hs a fun x hx =>
    ha ▸ h.predicate_ne hdefines.isTyped.inScope hl hx

/-- The condition of an axiom agrees with what its predicate stands for, if smaller conditions do so
with their predicates. -/
theorem holds_definition {x : Axiom} (hx : x ∈ new) {e : (Condition × List Parameter) × String}
    (he : e ∈ known) (hname : x.name = e.2)
    (hknown : ∀ e' ∈ known, e'.1.1.size < e.1.1.size → StandsFor objects s e') {os : List String}
    (hos : TypedBy objects x.parameters os) :
    x.condition.Holds objects s (valuesOf x.parameters os) ↔
      e.1.1.Holds objects s (valuesOf x.parameters os) := by
  obtain ⟨types, c, hmem, hparameters, hdefines⟩ := (h.defined x hx).source
  obtain rfl := h.eq_of_name hmem he hname
  have hvariables : AreVariables (parametersOf types c) :=
    (areVariables_parametersOf hdefines.isTyped.distinct).left
  have hnames : (parametersOf types c).map (·.name) = c.freeVariables := map_name_parametersOf
  rw [← hparameters] at hvariables hnames
  refine hdefines.holds_iff (outer_values_fixObjects hvariables os) (fun y hy => ?_) hknown
  rw [← hnames] at hy
  obtain ⟨p, hp, rfl⟩ := List.mem_map.mp hy
  have htype := (of_mem_parametersOf (hparameters ▸ hp)).1
  exact htype ▸ hos.apply_mem hvariables.nodup hp

end AreDefinitions

/-- The new predicates hold of the objects for which the conditions do that they stand for. -/
def extended (objects : String → List String) (known : Known) (s : Interpretation) :
    Interpretation :=
  {a | ((∀ e ∈ known, a.predicate ≠ .named e.2) ∧ a ∈ s) ∨ ∃ e ∈ known, a.predicate = .named e.2 ∧
    TypedBy objects e.1.2 a.args ∧ e.1.1.Holds objects s (valuesOf e.1.2 a.args)}

namespace AreDefinitions

variable {new : List Axiom} (h : AreDefinitions t known new)
include h

theorem mem_extended_named {e : (Condition × List Parameter) × String} (he : e ∈ known)
    {args : List String} : Atom.named e.2 args ∈ extended objects known s ↔
      TypedBy objects e.1.2 args ∧ e.1.1.Holds objects s (valuesOf e.1.2 args) := by
  constructor
  · rintro (⟨hnone, -⟩ | ⟨e', he', hpredicate, hholds⟩)
    · exact absurd rfl (hnone e he)
    · obtain rfl := h.eq_of_name he he' (Predicate.named.inj hpredicate)
      exact hholds
  · exact fun hholds => .inr ⟨e, he, rfl, hholds⟩

theorem mem_extended_other {a : Atom} (ha : ∀ x ∈ new, a.predicate ≠ .named x.name) :
    a ∈ extended objects known s ↔ a ∈ s := by
  have hnone : ∀ e ∈ known, a.predicate ≠ .named e.2 := fun e he => by
    obtain ⟨x, hx, hname, -⟩ := h.exists_definition he
    exact hname ▸ ha x hx
  constructor
  · rintro (⟨-, hmem⟩ | ⟨e, he, hpredicate, -⟩)
    · exact hmem
    · exact absurd hpredicate (hnone e he)
  · exact fun hmem => .inl ⟨hnone, hmem⟩

/-- In an extension each new predicate holds of the objects for which the condition does that it
stands for. -/
theorem standsFor (hs : IsExtension objects new s s') :
    ∀ e ∈ known, StandsFor objects s' e := by
  intro e he
  induction hsize : e.1.1.size using Nat.strong_induction_on generalizing e with
  | _ n ih =>
      intro os hos
      obtain ⟨x, hx, hname, hparameters, -⟩ := h.exists_definition he
      have hbelow : ∀ e' ∈ known, e'.1.1.size < e.1.1.size → StandsFor objects s' e' :=
        fun e' he' hlt => ih e'.1.1.size (hsize ▸ hlt) e' he' rfl
      rw [← hparameters] at hos
      rw [← hname, hs.applies x hx os, ← hparameters, ← h.holds_definition hx he hname hbelow hos]
      constructor
      · rintro ⟨os', hos', htake, hholds⟩
        rw [h.take_external hx hos'] at htake
        exact htake ▸ hholds
      · exact fun hholds => ⟨os, hos, h.take_external hx hos, hholds⟩

theorem isExtension_extended : IsExtension objects new s (extended objects known s) where
  other _ ha := h.mem_extended_other ha
  applies x hx args := by
    obtain ⟨e, he, hname, hparameters⟩ := h.exists_known hx
    have hkeys : ∀ e ∈ known, StandsFor objects (extended objects known s) e := fun e he os hos => by
      rw [h.mem_extended_named he, h.holds_key (fun _ => h.mem_extended_other) he]
      exact and_iff_right hos
    have happlies : ∀ os, TypedBy objects x.parameters os →
        (x.condition.Holds objects (extended objects known s) (valuesOf x.parameters os) ↔
          e.1.1.Holds objects s (valuesOf x.parameters os)) := fun os hos => by
      rw [h.holds_definition hx he hname (fun e' he' _ => hkeys e' he') hos,
        h.holds_key (fun _ => h.mem_extended_other) he]
    rw [hname, h.mem_extended_named he, ← hparameters]
    constructor
    · rintro ⟨hargs, hholds⟩
      exact ⟨args, hargs, h.take_external hx hargs, (happlies args hargs).mpr hholds⟩
    · rintro ⟨os, hos, rfl, hholds⟩
      rw [h.take_external hx hos]
      exact ⟨hos, (happlies os hos).mp hholds⟩

/-- There is exactly one interpretation of the new predicates. -/
theorem existsUnique_isExtension (objects : String → List String) (s : Interpretation) :
    ∃! s', IsExtension objects new s s' := by
  refine ⟨extended objects known s, h.isExtension_extended, fun s' hs => Set.ext fun a => ?_⟩
  by_cases hnew : ∃ x ∈ new, a.predicate = .named x.name
  · obtain ⟨x, hx, hpredicate⟩ := hnew
    obtain ⟨e, he, hname, hparameters⟩ := h.exists_known hx
    obtain ⟨predicate, args⟩ := a
    obtain rfl : predicate = .named e.2 := hpredicate.trans (congrArg _ hname)
    refine Iff.trans ?_ (h.mem_extended_named he).symm
    by_cases hargs : TypedBy objects e.1.2 args
    · exact (h.standsFor hs e he args hargs).trans
        ((h.holds_key hs.other he).trans (and_iff_right hargs).symm)
    · refine iff_of_false (fun hmem => ?_) fun hholds => hargs hholds.1
      obtain ⟨os, hos, rfl, -⟩ := (hs.applies x hx args).mp (hname ▸ hmem)
      rw [h.take_external hx hos] at hargs
      exact hargs (hparameters ▸ hos)
  · push Not at hnew
    rw [hs.other a hnew, h.mem_extended_other hnew]

/-- The definitions are well-founded: each predicate is defined by predicates of smaller rank. -/
theorem exists_rank : ∃ rank : String → Nat, ∀ x ∈ new, ∀ l ∈ x.condition.literals, ∀ y ∈ new,
    l.atom.predicate = .named y.name → rank y.name < rank x.name := by
  let rank (name : String) : Nat := ((known.find? (·.2 == name)).map (·.1.1.size)).getD 0
  have hrank : ∀ e ∈ known, rank e.2 = e.1.1.size := fun e he => by
    have hfind : known.find? (·.2 == e.2) = some e := by
      have hsome : (known.find? (·.2 == e.2)).isSome :=
        List.find?_isSome.mpr ⟨e, he, beq_self_eq_true e.2⟩
      obtain ⟨e', he'⟩ := Option.isSome_iff_exists.mp hsome
      have hname := List.find?_some he'
      rw [he', h.eq_of_name (List.mem_of_find?_eq_some he') he (eq_of_beq hname)]
    simp [rank, hfind]
  refine ⟨rank, fun x hx l hl y hy hpredicate => ?_⟩
  obtain ⟨types, c, hmem, -, hdefines⟩ := (h.defined x hx).source
  rcases hdefines.mem_literals hl with ⟨l', hl', heq⟩ | ⟨c', name, hname, hsize, hatom⟩
  · exact absurd (heq ▸ hpredicate) (h.predicate_ne hdefines.isTyped.inScope hl' hy)
  · rw [hatom] at hpredicate
    rw [← Predicate.named.inj hpredicate, hrank _ hname, hrank _ hmem]
    exact hsize

end AreDefinitions

end Universal
end FinitePlanning
