import Mathlib.Data.List.Nodup
import FinitePlanning.FiniteDomain.Basic
import FinitePlanning.Proofs.Encoding.Dictionary
import FinitePlanning.Proofs.Semantics.FiniteDomain

/-!
Partial assignments and value sets as conjunctions of facts: extending, joining and relativizing
them. The facts of an assignment are about different variables.
-/

namespace FinitePlanning
namespace FiniteDomain

namespace Assignment

variable {σ : Valuation} {a b : Assignment} {f : Fact}

theorem value?_eq_some {var value : Nat} (h : a.value? var = some value) :
    (⟨var, value⟩ : Fact) ∈ a := by
  simp only [value?, Option.map_eq_some_iff] at h
  obtain ⟨g, hg, rfl⟩ := h
  have hvar : g.var = var := by simpa using List.find?_some hg
  exact hvar ▸ List.mem_of_find?_eq_some hg

theorem value?_eq_none {var : Nat} (h : a.value? var = none) : ∀ g ∈ a, g.var ≠ var := by
  simpa [value?] using h

theorem eq_value?_of_mem (hn : (a.map (·.var)).Nodup) (hf : f ∈ a) :
    a.value? f.var = some f.value := by
  cases h : a.value? f.var with
  | none => exact absurd rfl (value?_eq_none h f hf)
  | some value =>
      have hinj := List.inj_on_of_nodup_map hn (value?_eq_some h) hf rfl
      rw [← hinj]

theorem not_contradicts (ha : FactsHold σ a) (hf : f.Holds σ) : a.contradicts f = false := by
  cases h : a.value? f.var with
  | none => simp [contradicts, h]
  | some value =>
      have hv : σ f.var = value := ha _ (value?_eq_some h)
      rw [show σ f.var = f.value from hf] at hv
      simp [contradicts, h, hv]

theorem mem_assign : f ∈ a.assign f := by
  induction a with
  | nil => simp [assign]
  | cons g a ih =>
      simp only [assign]
      split
      · simp
      · split
        · simp
        · simp [ih]

theorem mem_of_mem_assign {g : Fact} (h : g ∈ a.assign f) : g = f ∨ g ∈ a := by
  induction a with
  | nil => simpa [assign] using h
  | cons b a ih =>
      simp only [assign] at h
      split at h
      · rcases List.mem_cons.mp h with rfl | h
        · exact .inl rfl
        · exact .inr h
      · split at h
        · rcases List.mem_cons.mp h with rfl | h
          · exact .inl rfl
          · exact .inr (List.mem_cons_of_mem b h)
        · rcases List.mem_cons.mp h with rfl | h
          · exact .inr List.mem_cons_self
          · exact (ih h).imp_right (List.mem_cons_of_mem b)

/-- Only a fact about the same variable is replaced. -/
theorem mem_assign_of_mem {g : Fact} (hg : g ∈ a) :
    g ∈ a.assign f ∨ a.value? f.var = some g.value ∧ g.var = f.var := by
  induction a with
  | nil => cases hg
  | cons b a ih =>
      simp only [assign]
      split
      next => exact .inl (List.mem_cons_of_mem f hg)
      next hlt =>
        split
        next heq =>
          rcases List.mem_cons.mp hg with rfl | hg
          · exact .inr ⟨by simp [value?, heq], heq.symm⟩
          · exact .inl (List.mem_cons_of_mem f hg)
        next hne =>
          rcases List.mem_cons.mp hg with rfl | hg
          · exact .inl List.mem_cons_self
          · refine (ih hg).imp (List.mem_cons_of_mem b) fun h => ⟨?_, h.2⟩
            have hb : ¬ b.var = f.var := fun h => hne h.symm
            simpa [value?, List.find?_cons, hb] using h.1

theorem factsHold_assign (h : a.contradicts f = false) :
    FactsHold σ (a.assign f) ↔ FactsHold σ a ∧ f.Holds σ := by
  constructor
  · intro hσ
    have hf : f.Holds σ := hσ f mem_assign
    refine ⟨fun g hg => ?_, hf⟩
    rcases mem_assign_of_mem (f := f) hg with hmem | ⟨hv, hvar⟩
    · exact hσ g hmem
    · have hvalue : g.value = f.value := by simpa [contradicts, hv] using h
      unfold Fact.Holds at hf ⊢
      rw [hvar, hf, hvalue]
  · rintro ⟨ha, hf⟩ g hg
    rcases mem_of_mem_assign hg with rfl | hg
    · exact hf
    · exact ha g hg

theorem value?_assign_of_ne {var : Nat} (h : var ≠ f.var) :
    (a.assign f).value? var = a.value? var := by
  have hf : ¬ f.var = var := fun he => h he.symm
  induction a with
  | nil => simp [assign, value?, hf]
  | cons g a ih =>
      simp only [value?] at ih
      simp only [assign]
      split
      · simp [value?, hf]
      · split
        next he => simp [value?, hf, ← he]
        next =>
          by_cases hg : g.var = var
          · simp [value?, hg]
          · simp [value?, hg, ih]

theorem factsHold_foldl_assign (hn : (b.map (·.var)).Nodup)
    (h : ∀ f ∈ b, a.contradicts f = false) :
    FactsHold σ (b.foldl (fun a f => assign f a) a) ↔ FactsHold σ a ∧ FactsHold σ b := by
  induction b generalizing a with
  | nil => simp
  | cons f b ih =>
      rw [List.map_cons, List.nodup_cons] at hn
      have hrest : ∀ g ∈ b, (a.assign f).contradicts g = false := by
        intro g hg
        have hne : g.var ≠ f.var := fun he => hn.1 (he ▸ List.mem_map_of_mem hg)
        rw [contradicts, value?_assign_of_ne hne]
        exact h g (List.mem_cons_of_mem f hg)
      rw [List.foldl_cons, ih hn.2 hrest, factsHold_assign (h f List.mem_cons_self),
        factsHold_cons, and_assoc]

theorem factsHold_union {c : Assignment} (hn : (b.map (·.var)).Nodup)
    (h : a.union? b = some c) : FactsHold σ c ↔ FactsHold σ a ∧ FactsHold σ b := by
  simp only [union?] at h
  split at h
  next => cases h
  next hc =>
    obtain rfl := Option.some.inj h
    exact factsHold_foldl_assign hn (by simpa using hc)

theorem exists_union (ha : FactsHold σ a) (hb : FactsHold σ b) : ∃ c, a.union? b = some c := by
  have hc : b.any a.contradicts = false := by
    rw [List.any_eq_false]
    intro f hf
    simp [not_contradicts ha (hb f hf)]
  exact ⟨_, by rw [union?, hc]; rfl⟩

theorem factsHold_residual {facts rest : List Fact} (ha : FactsHold σ a)
    (h : a.residual? facts = some rest) : FactsHold σ rest ↔ FactsHold σ facts := by
  simp only [residual?] at h
  split at h
  next => cases h
  next hc =>
    obtain rfl := Option.some.inj h
    refine ⟨fun hrest f hf => ?_, fun hfacts f hf => hfacts f (List.mem_filter.mp hf).1⟩
    cases hv : a.value? f.var with
    | none => exact hrest f (List.mem_filter.mpr ⟨hf, by simp [hv]⟩)
    | some value =>
        have hnot : a.contradicts f = false := by simpa using List.any_eq_false.mp (by simpa using hc) f hf
        have hvalue : value = f.value := by simpa [contradicts, hv] using hnot
        have hσ : σ f.var = value := ha _ (value?_eq_some hv)
        exact hσ.trans hvalue

theorem exists_residual {facts : List Fact} (ha : FactsHold σ a) (hf : FactsHold σ facts) :
    ∃ rest, a.residual? facts = some rest := by
  have hc : facts.any a.contradicts = false := by
    rw [List.any_eq_false]
    intro f hmem
    simp [not_contradicts ha (hf f hmem)]
  exact ⟨_, by rw [residual?, hc]; rfl⟩

end Assignment

end FiniteDomain

/-!
### Value sets

Conjunctions of literals as value sets. Literals that contradict each other leave
no value sets; otherwise exactly the valuations in which all of them hold pick a
value from each set, and each of these valuations contains exactly one of the
assignments.
-/
namespace FiniteDomain

namespace ValueSets

/-- The valuation picks a value from each set. -/
def Admits (sets : ValueSets) (σ : Valuation) : Prop := ∀ p ∈ sets, σ p.1 ∈ p.2

/-- Each variable occurs once, with values that are left. -/
structure Proper (sets : ValueSets) : Prop where
  nodup : (sets.map (·.1)).Nodup
  values_nodup : ∀ p ∈ sets, p.2.Nodup
  values_ne_nil : ∀ p ∈ sets, p.2 ≠ []

theorem proper_nil : Proper [] := ⟨by simp, nofun, nofun⟩

@[simp] theorem admits_nil (σ : Valuation) : Admits [] σ := nofun

@[simp] theorem admits_append (sets more : ValueSets) (σ : Valuation) :
    Admits (sets ++ more) σ ↔ Admits sets σ ∧ Admits more σ := by
  simp only [Admits, List.mem_append]
  exact ⟨fun h => ⟨fun p hp => h p (.inl hp), fun p hp => h p (.inr hp)⟩,
    fun h p hp => hp.elim (h.1 p) (h.2 p)⟩

variable {sets : ValueSets} {f : Fact}

theorem Proper.append {var : Nat} {values : List Nat} (h : Proper sets)
    (hvar : sets.lookup var = none) (hn : values.Nodup) (hne : values ≠ []) :
    Proper (sets ++ [(var, values)]) where
  nodup := by
    rw [List.map_append, List.nodup_append]
    refine ⟨h.nodup, by simp, ?_⟩
    rintro a ha b hb rfl
    obtain rfl : a = var := by simpa using hb
    exact lookup_eq_none_iff_not_mem.mp hvar ha
  values_nodup p hp := by
    rcases List.mem_append.mp hp with hp | hp
    · exact h.values_nodup p hp
    · obtain rfl := List.mem_singleton.mp hp
      exact hn
  values_ne_nil p hp := by
    rcases List.mem_append.mp hp with hp | hp
    · exact h.values_ne_nil p hp
    · obtain rfl := List.mem_singleton.mp hp
      exact hne

theorem Proper.exists_admits (h : Proper sets) :
    ∃ σ, sets.Admits σ := by
  refine ⟨fun v => ((sets.lookup v).getD []).headD 0, fun p hp => ?_⟩
  obtain ⟨x, xs, hvalues⟩ := List.exists_cons_of_ne_nil (h.values_ne_nil p hp)
  have hlookup : sets.lookup p.1 = some (x :: xs) := hvalues ▸ lookup_eq_some_of_nodup h.nodup hp
  simp only [hlookup, hvalues, Option.getD_some, List.headD_cons, List.mem_cons_self]

theorem Admits.set {σ : Valuation} (h : Admits sets σ) {f : Fact}
    (hf : f.var ∉ sets.map (·.1)) : Admits sets (f.set σ) := by
  intro p hp
  have hne : p.1 ≠ f.var := fun he => hf (he ▸ List.mem_map_of_mem hp)
  rw [Fact.set, Function.update_of_ne hne]
  exact h p hp

/-- Every set is left with one value, as when only facts have been required. -/
def Fixed (sets : ValueSets) : Prop := ∀ p ∈ sets, ∃ value, p.2 = [value]

theorem fixed_nil : Fixed [] := fun _ hp => absurd hp List.not_mem_nil

theorem not_admits_of_require {σ : Valuation} (hfix : sets.Fixed) (h : sets.require f = none)
    (ha : sets.Admits σ) : ¬ f.Holds σ := by
  intro hf
  cases hl : sets.lookup f.var with
  | none => simp [require, hl] at h
  | some values =>
      obtain ⟨value, hv⟩ := hfix _ (mem_of_lookup hl)
      have hσ := ha _ (mem_of_lookup hl)
      simp only [require, hl] at h
      rw [show σ f.var = f.value from hf] at hσ
      simp [hσ] at h

theorem require_spec {sets' : ValueSets} (hp : sets.Proper) (hfix : sets.Fixed)
    (h : sets.require f = some sets') :
    sets'.Proper ∧ sets'.Fixed ∧ ∀ σ, sets'.Admits σ ↔ sets.Admits σ ∧ f.Holds σ := by
  cases hl : sets.lookup f.var with
  | none =>
      simp only [require, hl, Option.some.injEq] at h
      subst h
      refine ⟨hp.append hl (by simp) (by simp), fun p hmem => ?_, fun σ => ?_⟩
      · rcases List.mem_append.mp hmem with hmem | hmem
        · exact hfix p hmem
        · exact ⟨f.value, by rw [List.mem_singleton.mp hmem]⟩
      · rw [admits_append]
        simp [Admits, Fact.Holds]
  | some values =>
      simp only [require, hl] at h
      obtain ⟨value, hv⟩ := hfix _ (mem_of_lookup hl)
      split at h
      next hmem =>
        obtain rfl := Option.some.inj h
        refine ⟨hp, hfix, fun σ => ⟨fun ha => ⟨ha, ?_⟩, And.left⟩⟩
        have hσ := ha _ (mem_of_lookup hl)
        simp only at hv
        subst hv
        rw [List.mem_singleton] at hmem hσ
        exact hσ.trans hmem.symm
      next => cases h

/-- The values of a variable without the one of a fact. -/
def otherValues (f : Fact) (p : Nat × List Nat) : List Nat :=
  if p.1 = f.var then p.2.filter (· ≠ f.value) else p.2

theorem mem_otherValues {p : Nat × List Nat} {value : Nat} :
    value ∈ otherValues f p ↔ value ∈ p.2 ∧ (p.1 = f.var → value ≠ f.value) := by
  rw [otherValues]
  split
  next hvar => simp [hvar]
  next hvar => simp [hvar]

theorem nodup_otherValues {p : Nat × List Nat} (h : p.2.Nodup) : (otherValues f p).Nodup := by
  rw [otherValues]
  split
  · exact h.filter _
  · exact h

/-- No value is left only if there was no other one. -/
theorem eq_of_otherValues_eq_nil {p : Nat × List Nat} (hn : p.2.Nodup) (hne : p.2 ≠ [])
    (h : otherValues f p = []) : p = (f.var, [f.value]) := by
  have hall : ∀ value ∈ p.2, p.1 = f.var ∧ value = f.value := by
    intro value hv
    by_contra hother
    refine List.ne_nil_of_mem (mem_otherValues.mpr ⟨hv, fun hvar hvalue => ?_⟩) h
    exact hother ⟨hvar, hvalue⟩
  obtain ⟨value, hv⟩ := List.exists_mem_of_ne_nil _ hne
  have hvalues : p.2 = List.replicate p.2.length f.value :=
    List.eq_replicate_of_mem fun value hv => (hall value hv).2
  have hlength : p.2.length = 1 :=
    Nat.le_antisymm (List.nodup_replicate.mp (hvalues ▸ hn)) (List.length_pos_of_mem hv)
  rw [hlength] at hvalues
  exact Prod.ext (hall value hv).1 hvalues

theorem exclude_eq_none_iff : sets.exclude f = none ↔ sets.lookup f.var = some [f.value] := by
  simp [exclude]

theorem exclude_eq_some_iff {sets' : ValueSets} : sets.exclude f = some sets' ↔
    sets.lookup f.var ≠ some [f.value] ∧ sets.map (fun p => (p.1, otherValues f p)) = sets' := by
  rw [exclude]
  split
  next hl => simp [hl]
  next hl => simp [hl, otherValues]

theorem not_admits_of_exclude {σ : Valuation} (h : sets.exclude f = none)
    (ha : sets.Admits σ) : f.Holds σ :=
  List.mem_singleton.mp (ha _ (mem_of_lookup (exclude_eq_none_iff.mp h)))

theorem exclude_spec {sets' : ValueSets} (hp : sets.Proper)
    (hvar : f.var ∈ sets.map (·.1)) (h : sets.exclude f = some sets') :
    sets'.Proper ∧ sets'.map (·.1) = sets.map (·.1) ∧
      ∀ σ, sets'.Admits σ ↔ sets.Admits σ ∧ ¬ f.Holds σ := by
  obtain ⟨hl, rfl⟩ := exclude_eq_some_iff.mp h
  have hkeys : (sets.map fun p => (p.1, otherValues f p)).map (·.1) = sets.map (·.1) := by
    rw [List.map_map]
    rfl
  refine ⟨{ nodup := hkeys ▸ hp.nodup, values_nodup := ?_, values_ne_nil := ?_ }, hkeys,
    fun σ => ?_⟩
  · exact List.forall_mem_map.mpr fun p hmem => nodup_otherValues (hp.values_nodup p hmem)
  · refine List.forall_mem_map.mpr fun p hmem hempty => hl ?_
    obtain rfl := eq_of_otherValues_eq_nil (hp.values_nodup p hmem) (hp.values_ne_nil p hmem) hempty
    exact lookup_eq_some_of_nodup hp.nodup hmem
  · simp only [Admits, List.forall_mem_map, mem_otherValues]
    obtain ⟨q, hq, hqvar⟩ := List.mem_map.mp hvar
    constructor
    · exact fun ha => ⟨fun p hmem => (ha p hmem).1, fun hf => (ha q hq).2 hqvar (hqvar ▸ hf)⟩
    · refine fun ⟨ha, hf⟩ p hmem => ⟨ha p hmem, fun hpvar hvalue => hf ?_⟩
      rwa [hpvar] at hvalue

end ValueSets
end FiniteDomain
end FinitePlanning
