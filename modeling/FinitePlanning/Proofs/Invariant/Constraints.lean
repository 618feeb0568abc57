import Mathlib.Data.List.Induction
import Mathlib.Data.List.Nodup
import FinitePlanning.Constraint
import FinitePlanning.Proofs.Semantics.Values
import FinitePlanning.Proofs.UnionFind

/-!
Solvability of constraints. The classes of numbered terms are what the equalities force to be equal,
so that the mapping of equalities gives equal terms, and only these, the same representative. The
search tries all choices, each one before the choices that come after it. So a system is solvable if
and only if a valuation of the terms that leaves objects alone satisfies it.
-/

namespace FinitePlanning

namespace TermPairs

variable {V : Type*} {σ : String → V} {eqs : TermPairs} {p : String × String} {x y : String}

def SatisfiedBy {V : Type*} (eqs : TermPairs) (σ : String → V) : Prop :=
  ∀ p ∈ eqs, σ p.1 = σ p.2

/-- The equalities make two terms equal. -/
def Forces (eqs : TermPairs) : String → String → Prop :=
  Relation.EqvGen fun a b => (a, b) ∈ eqs

/-- A term of one of the equalities. -/
def Mentions (eqs : TermPairs) (x : String) : Prop := ∃ p ∈ eqs, x = p.1 ∨ x = p.2

/-- Terms that are forced to be equal have one value wherever the equalities hold. -/
theorem SatisfiedBy.eq_of_forces (h : eqs.SatisfiedBy σ) (hxy : eqs.Forces x y) : σ x = σ y := by
  induction hxy with
  | rel a b hab => exact h (a, b) hab
  | refl a => rfl
  | symm a b _ ih => exact ih.symm
  | trans a b c _ _ ih₁ ih₂ => exact ih₁.trans ih₂

theorem satisfiedBy_append {qs : TermPairs} :
    SatisfiedBy (eqs ++ qs) σ ↔ eqs.SatisfiedBy σ ∧ qs.SatisfiedBy σ :=
  List.forall_mem_append

/-- Nothing is said of a term that is not mentioned. -/
theorem eq_of_forces_of_not_mentions (hxy : eqs.Forces x y) (hx : ¬ eqs.Mentions x) : y = x := by
  have hsatisfied : eqs.SatisfiedBy (· = x) := fun p hp =>
    (eq_false fun h => hx ⟨p, hp, .inl h.symm⟩).trans
      (eq_false fun h => hx ⟨p, hp, .inr h.symm⟩).symm
  exact (hsatisfied.eq_of_forces hxy).mp rfl

theorem forces_concat : Forces (eqs ++ [p]) x y ↔ eqs.Forces x y ∨
    (eqs.Forces x p.1 ∧ eqs.Forces p.2 y) ∨ (eqs.Forces x p.2 ∧ eqs.Forces p.1 y) := by
  rw [Forces, Forces, ← eqvGen_extend_iff]
  simp only [List.mem_append, List.mem_singleton, Prod.ext_iff]

theorem mentions_concat :
    Mentions (eqs ++ [p]) x ↔ eqs.Mentions x ∨ x = p.1 ∨ x = p.2 := by
  simp [Mentions, or_and_right, exists_or]

end TermPairs

namespace TermClasses

open TermPairs

variable {c : TermClasses} {eqs : TermPairs} {t u x : String} {i j : Nat}

/-! ### Classes -/

/-- Numbered terms are in one set where the equalities force them to be equal. -/
structure Represents (c : TermClasses) (eqs : TermPairs) : Prop where
  nodup : c.terms.Nodup
  size : c.forest.size = c.terms.length
  mentions : ∀ x, eqs.Mentions x → x ∈ c.terms
  joined : ∀ i j x y, c.terms[i]? = some x → c.terms[j]? = some y →
    (c.forest.root i = c.forest.root j ↔ eqs.Forces x y)

/-- A new term is equal to no other one. -/
theorem Represents.add (h : c.Represents eqs) (ht : t ∉ c.terms) :
    Represents ⟨c.terms ++ [t], c.forest.grow⟩ eqs where
  nodup := List.nodup_append.mpr ⟨h.nodup, List.nodup_singleton t, fun a ha b hb => by
    rintro rfl
    exact ht (List.mem_singleton.mp hb ▸ ha)⟩
  size := by rw [UnionFind.size_grow, h.size, List.length_append, List.length_singleton]
  mentions x hx := List.mem_append_left _ (h.mentions x hx)
  joined i j x y hi₀ hj₀ := by
    have hunmentioned : ¬ eqs.Mentions t := fun hm => ht (h.mentions t hm)
    have hroot : c.forest.root c.terms.length = c.terms.length :=
      UnionFind.root_eq_self (UnionFind.parent_eq_self_of_size_le (Nat.le_of_eq h.size))
    have hlt : ∀ {i x}, c.terms[i]? = some x → c.forest.root i ≠ c.terms.length := fun hi he =>
      Nat.not_lt.mpr (c.forest.root_le _) (he ▸ (List.getElem?_eq_some_iff.mp hi).1)
    have hcases : ∀ {i x}, (c.terms ++ [t])[i]? = some x →
        c.terms[i]? = some x ∨ i = c.terms.length ∧ x = t := by
      intro i x hi
      rw [List.getElem?_append] at hi
      split at hi
      next => exact .inl hi
      next hle =>
        rw [List.getElem?_singleton] at hi
        split at hi
        next hzero => exact .inr ⟨by omega, (Option.some.inj hi).symm⟩
        next => cases hi
    simp only [UnionFind.root_grow]
    rcases hcases hi₀ with hi | ⟨rfl, rfl⟩ <;> rcases hcases hj₀ with hj | ⟨rfl, rfl⟩
    · exact h.joined i j x y hi hj
    · refine iff_of_false (fun he => hlt hi (he.trans hroot)) fun he => ht ?_
      exact eq_of_forces_of_not_mentions (he.symm _ _) hunmentioned ▸ List.mem_of_getElem? hi
    · refine iff_of_false (fun he => hlt hj (he.symm.trans hroot)) fun he => ht ?_
      exact eq_of_forces_of_not_mentions he hunmentioned ▸ List.mem_of_getElem? hj
    · exact iff_of_true rfl (.refl _)

theorem Represents.number (h : c.Represents eqs) (t : String) :
    (c.number t).2.Represents eqs ∧ (c.number t).2.terms[(c.number t).1]? = some t ∧
      (∀ (i : Nat) (x : String), c.terms[i]? = some x → (c.number t).2.terms[i]? = some x) ∧
      ∀ x, x ∈ (c.number t).2.terms ↔ x ∈ c.terms ∨ x = t := by
  rw [TermClasses.number]
  split
  next i hi =>
    obtain ⟨hlt, ht, -⟩ := List.idxOf?_eq_some_iff.mp hi
    have hget : c.terms[i]? = some t := List.getElem?_eq_some_iff.mpr ⟨hlt, ht⟩
    refine ⟨h, hget, fun _ _ => id, fun x => ⟨.inl, fun hx => hx.elim id ?_⟩⟩
    rintro rfl
    exact List.mem_of_getElem? hget
  next hnone =>
    refine ⟨h.add (List.idxOf?_eq_none_iff.mp hnone), List.getElem?_concat_length, fun i x hi => ?_,
      fun x => by simp⟩
    exact (List.getElem?_append_left (List.getElem?_eq_some_iff.mp hi).1).trans hi

theorem Represents.equate (h : c.Represents eqs) (p : String × String) :
    (c.equate p).Represents (eqs ++ [p]) ∧
      ∀ x, x ∈ (c.equate p).terms ↔ x ∈ c.terms ∨ x = p.1 ∨ x = p.2 := by
  obtain ⟨hfirst, ha, -, hmem⟩ := h.number p.1
  obtain ⟨hsecond, hb, hkept, hmem'⟩ := hfirst.number p.2
  replace ha := hkept _ _ ha
  have hterms : ∀ x, x ∈ (c.equate p).terms ↔ x ∈ c.terms ∨ x = p.1 ∨ x = p.2 := fun x => by
    rw [← or_assoc, ← hmem x]
    exact hmem' x
  have hlt : ∀ {i x}, ((c.number p.1).2.number p.2).2.terms[i]? = some x →
      i < ((c.number p.1).2.number p.2).2.forest.size := fun hi =>
    hsecond.size ▸ (List.getElem?_eq_some_iff.mp hi).1
  refine ⟨⟨hsecond.nodup, UnionFind.size_unite.trans hsecond.size, fun x hx => ?_,
    fun i j x y hi hj => ?_⟩, hterms⟩
  · exact (hterms x).mpr ((mentions_concat.mp hx).imp_left (h.mentions x))
  · rw [forces_concat, ← hsecond.joined i j x y hi hj, ← hsecond.joined _ _ _ _ hi ha,
      ← hsecond.joined _ _ _ _ hi hb, ← hsecond.joined _ _ _ _ ha hj,
      ← hsecond.joined _ _ _ _ hb hj]
    exact UnionFind.root_unite_eq_iff (hlt ha) (hlt hb)

theorem represents_ofEqualities (eqs : TermPairs) : (ofEqualities eqs).Represents eqs ∧
    ∀ x, x ∈ (ofEqualities eqs).terms ↔ eqs.Mentions x := by
  induction eqs using List.reverseRecOn with
  | nil =>
      exact ⟨⟨List.nodup_nil, rfl, fun _ ⟨_, hp, _⟩ => absurd hp List.not_mem_nil, nofun⟩,
        fun _ => iff_of_false List.not_mem_nil fun ⟨_, hp, _⟩ => List.not_mem_nil hp⟩
  | append_singleton eqs p ih =>
      obtain ⟨h, hmem⟩ := ih.1.equate p
      rw [ofEqualities, List.foldl_concat]
      exact ⟨h, fun x => by rw [mentions_concat, ← ih.2 x]; exact hmem x⟩

/-! ### Terms that stand for classes -/

/-- A term may stand for another one in its class. -/
def Stands (t x : String) : Prop :=
  (isVariable x = false → t = x) ∧ (isVariable t = true → t ≤ x)

theorem stands_refl (t : String) : Stands t t := ⟨fun _ => rfl, fun _ => String.le_refl t⟩

theorem Stands.trans (hut : Stands u t) (htx : Stands t x) : Stands u x := by
  refine ⟨fun hx => ?_, fun hu => ?_⟩
  · obtain rfl := htx.1 hx
    exact hut.1 hx
  · cases ht : isVariable t with
    | true => exact String.le_trans (hut.2 hu) (htx.2 ht)
    | false => exact hut.1 ht ▸ htx.2 (hut.1 ht ▸ hu)

theorem prefer?_eq_some (h : prefer? t x = some u) : (u = t ∨ u = x) ∧ Stands u t ∧ Stands u x := by
  rw [prefer?] at h
  split at h
  next ht hx =>
    split at h
    next => cases h
    next heq =>
      obtain rfl := not_not.mp heq
      obtain rfl := Option.some.inj h
      exact ⟨.inl rfl, stands_refl _, stands_refl _⟩
  next ht hx =>
    obtain rfl := Option.some.inj h
    exact ⟨.inr rfl, ⟨fun ht' => by simp_all, fun hx' => by simp_all⟩, stands_refl _⟩
  next ht hx =>
    split at h
    next hlt =>
      obtain rfl := Option.some.inj h
      exact ⟨.inr rfl,
        ⟨fun ht' => by simp_all, fun _ => String.not_lt.mp (String.lt_asymm hlt)⟩, stands_refl _⟩
    next hlt =>
      obtain rfl := Option.some.inj h
      exact ⟨.inl rfl, stands_refl _, ⟨fun hx' => by simp_all, fun _ => String.not_lt.mp hlt⟩⟩
  next ht hx =>
    obtain rfl := Option.some.inj h
    exact ⟨.inl rfl, stands_refl _, ⟨fun hx' => by simp_all, fun ht' => by simp_all⟩⟩

theorem prefer?_eq_none (h : prefer? t x = none) :
    isVariable t = false ∧ isVariable x = false ∧ t ≠ x := by
  rw [prefer?] at h
  split at h
  next ht hx =>
    split at h
    next hne => exact ⟨ht, hx, hne⟩
    next => cases h
  all_goals cases h

theorem standing?_eq_some {current : Option String} (h : standing? current x = some u) :
    (u = x ∨ current = some u) ∧ (∀ t, current = some t → Stands u t) ∧ Stands u x := by
  cases current with
  | none =>
      obtain rfl := Option.some.inj h
      exact ⟨.inl rfl, nofun, stands_refl _⟩
  | some t =>
      obtain ⟨hu, hut, hux⟩ := prefer?_eq_some h
      exact ⟨hu.symm.imp_right (congrArg some ·.symm), fun t' ht' => Option.some.inj ht' ▸ hut, hux⟩

/-- Each class of the numbered terms that have been seen has an entry, one of its terms. -/
structure IsBest (ρ : Nat → Nat) (seen : List (String × Nat)) (best : List (Nat × String)) :
    Prop where
  chosen : ∀ r t, best.lookup r = some t → ∃ i, (t, i) ∈ seen ∧ ρ i = r
  standing : ∀ p ∈ seen, ∃ t, best.lookup (ρ p.2) = some t ∧ Stands t p.1

section Best

variable {ρ : Nat → Nat} {seen rest : List (String × Nat)} {best best' : List (Nat × String)}
  {forest forest' : UnionFind}

theorem isBest_nil : IsBest ρ [] [] := ⟨nofun, nofun⟩

theorem IsBest.cons (h : IsBest ρ seen best) (hu : standing? (best.lookup (ρ i)) x = some u) :
    IsBest ρ (seen ++ [(x, i)]) ((ρ i, u) :: best) where
  chosen r t ht := by
    rw [List.lookup_cons] at ht
    split at ht
    next hr =>
      obtain rfl := Option.some.inj ht
      rw [beq_iff_eq] at hr
      rcases (standing?_eq_some hu).1 with rfl | hu
      · exact ⟨i, by simp, hr.symm⟩
      · obtain ⟨j, hj, hroot⟩ := h.chosen _ _ hu
        exact ⟨j, List.mem_append_left _ hj, hroot.trans hr.symm⟩
    next =>
      obtain ⟨j, hj, hroot⟩ := h.chosen r t ht
      exact ⟨j, List.mem_append_left _ hj, hroot⟩
  standing p hp := by
    rcases List.mem_append.mp hp with hp | hp
    · obtain ⟨t, ht, hstands⟩ := h.standing p hp
      rw [List.lookup_cons]
      split
      next hr =>
        rw [beq_iff_eq] at hr
        exact ⟨u, rfl, ((standing?_eq_some hu).2.1 t (hr ▸ ht)).trans hstands⟩
      next => exact ⟨t, ht, hstands⟩
    · obtain rfl := List.mem_singleton.mp hp
      exact ⟨u, List.lookup_cons_self, (standing?_eq_some hu).2.2⟩

theorem best?_cons : best? forest best ((x, i) :: rest) =
    (standing? (best.lookup (forest.find i).1) x).bind fun u =>
      best? (forest.find i).2 (((forest.find i).1, u) :: best) rest :=
  rfl

theorem represented?_cons : represented? forest best ((x, i) :: rest) =
    (best.lookup (forest.find i).1).bind fun r =>
      (represented? (forest.find i).2 best rest).map ((x, r) :: ·) :=
  rfl

variable (hroot : ∀ j, forest.root j = ρ j)
include hroot

theorem root_find_eq (j : Nat) : (forest.find i).2.root j = ρ j := by
  rw [UnionFind.root_find, hroot]

/-- Either each class gets a term that stands for it, or one of them has two objects. -/
theorem best?_spec (rest : List (String × Nat)) (h : IsBest ρ seen best) :
    (best? forest best rest = none ∧ ∃ p ∈ seen ++ rest, ∃ q ∈ seen ++ rest, ρ p.2 = ρ q.2 ∧
      isVariable p.1 = false ∧ isVariable q.1 = false ∧ p.1 ≠ q.1) ∨
    ∃ best' forest', best? forest best rest = some (best', forest') ∧
      IsBest ρ (seen ++ rest) best' ∧ ∀ j, forest'.root j = ρ j := by
  induction rest generalizing forest best seen with
  | nil => exact .inr ⟨best, forest, rfl, by rwa [List.append_nil], hroot⟩
  | cons p rest ih =>
      obtain ⟨x, i⟩ := p
      rw [best?_cons, UnionFind.find_fst, hroot, List.append_cons seen]
      cases hu : standing? (best.lookup (ρ i)) x with
      | some u => exact ih (root_find_eq hroot) (h.cons hu)
      | none =>
          cases hcurrent : best.lookup (ρ i) with
          | none =>
              rw [hcurrent] at hu
              cases hu
          | some t =>
              rw [hcurrent] at hu
              obtain ⟨ht, hx, hne⟩ := prefer?_eq_none hu
              obtain ⟨j, hj, htroot⟩ := h.chosen _ _ hcurrent
              exact .inl ⟨rfl, (t, j), by simp [hj], (x, i), by simp, htroot, ht, hx, hne⟩

/-- The terms of a mapping are those that were numbered, each with the entry of its class. -/
theorem represented?_spec {m : Renaming} (h : represented? forest best rest = some m) :
    m.map (·.1) = rest.map (·.1) ∧
      ∀ x r, (x, r) ∈ m ↔ ∃ i, (x, i) ∈ rest ∧ best.lookup (ρ i) = some r := by
  induction rest generalizing forest m with
  | nil =>
      obtain rfl := Option.some.inj h
      simp
  | cons p rest ih =>
      obtain ⟨y, i⟩ := p
      rw [represented?_cons, UnionFind.find_fst, hroot] at h
      obtain ⟨r, hr, h⟩ := Option.bind_eq_some_iff.mp h
      obtain ⟨m, hm, rfl⟩ := Option.map_eq_some_iff.mp h
      obtain ⟨hkeys, hmem⟩ := ih (root_find_eq hroot) hm
      refine ⟨congrArg (y :: ·) hkeys, fun x q => ?_⟩
      constructor
      · intro hx
        rcases List.mem_cons.mp hx with hx | hx
        · cases hx
          exact ⟨i, List.mem_cons_self, hr⟩
        · obtain ⟨j, hj, hq⟩ := (hmem x q).mp hx
          exact ⟨j, List.mem_cons_of_mem _ hj, hq⟩
      · rintro ⟨j, hj, hq⟩
        rcases List.mem_cons.mp hj with hj | hj
        · cases hj
          exact Option.some.inj (hr.symm.trans hq) ▸ List.mem_cons_self
        · exact List.mem_cons_of_mem _ ((hmem x q).mpr ⟨j, hj, hq⟩)

theorem represented?_ne_none (h : ∀ p ∈ rest, ∃ r, best.lookup (ρ p.2) = some r) :
    ∃ m, represented? forest best rest = some m := by
  induction rest generalizing forest with
  | nil => exact ⟨[], rfl⟩
  | cons p rest ih =>
      obtain ⟨x, i⟩ := p
      obtain ⟨r, hr⟩ := h (x, i) List.mem_cons_self
      obtain ⟨m, hm⟩ := ih (root_find_eq hroot) fun q hq => h q (List.mem_cons_of_mem _ hq)
      exact ⟨_, by rw [represented?_cons, UnionFind.find_fst, hroot, hr, Option.bind_some, hm]; rfl⟩

end Best

end TermClasses

namespace TermPairs

open TermClasses

variable {V : Type*} {σ : String → V} {eqs : TermPairs} {m : Renaming} {p : String × String}
  {x y : String}

/-! ### Mappings -/

/-- Each mentioned term is mapped to the object that it is forced to equal, and otherwise to the
least of the variables that it is forced to equal. -/
structure RepresentedBy (eqs : TermPairs) (m : Renaming) : Prop where
  mentioned : ∀ x, (∃ r, m.lookup x = some r) ↔ eqs.Mentions x
  same : ∀ x y r q, m.lookup x = some r → m.lookup y = some q → (r = q ↔ eqs.Forces x y)
  forced : ∀ x r, m.lookup x = some r → eqs.Forces x r
  object : ∀ x r o, m.lookup x = some r → eqs.Forces x o → isVariable o = false → r = o
  least : ∀ x r, m.lookup x = some r → (∀ y, eqs.Forces x y → isVariable y = true) →
    ∀ y, eqs.Forces x y → r ≤ y

/-- The entries of the classes represent the terms. -/
theorem representedBy_of_isBest {c : TermClasses} (hclasses : c.Represents eqs)
    (hterms : ∀ x, x ∈ c.terms ↔ eqs.Mentions x) {best : List (Nat × String)}
    (hbest : IsBest c.forest.root c.terms.zipIdx best)
    (hm : ∀ x r, m.lookup x = some r ↔
      ∃ i, c.terms[i]? = some x ∧ best.lookup (c.forest.root i) = some r) :
    eqs.RepresentedBy m := by
  -- a representative is a term of its class, and stands for each of the terms
  have hforced : ∀ x r, m.lookup x = some r → eqs.Forces x r := by
    intro x r hr
    obtain ⟨i, hi, hr⟩ := (hm x r).mp hr
    obtain ⟨k, hk, hroot⟩ := hbest.chosen _ _ hr
    exact (hclasses.joined i k x r hi (List.mem_zipIdx_iff_getElem?.mp hk)).mp hroot.symm
  have hstands : ∀ x r y, m.lookup x = some r → eqs.Forces x y → Stands r y := by
    intro x r y hr hxy
    obtain ⟨i, hi, hr⟩ := (hm x r).mp hr
    obtain ⟨j, hj⟩ : ∃ j : Nat, c.terms[j]? = some y := by
      by_cases hy : eqs.Mentions y
      · exact List.mem_iff_getElem?.mp ((hterms y).mpr hy)
      · exact ⟨i, eq_of_forces_of_not_mentions (hxy.symm _ _) hy ▸ hi⟩
    obtain ⟨t, ht, hstands⟩ := hbest.standing (y, j) (List.mem_zipIdx_iff_getElem?.mpr hj)
    rw [← (hclasses.joined i j x y hi hj).mpr hxy, hr] at ht
    exact Option.some.inj ht ▸ hstands
  refine ⟨fun x => ?_, fun x y r q hr hq => ⟨?_, fun hxy => ?_⟩, hforced,
    fun x r o hr ho => (hstands x r o hr ho).1, fun x r hr hvariables y hy =>
      (hstands x r y hr hy).2 (hvariables r (hforced x r hr))⟩
  · rw [← hterms x, List.mem_iff_getElem?]
    constructor
    · rintro ⟨r, hr⟩
      obtain ⟨i, hi, -⟩ := (hm x r).mp hr
      exact ⟨i, hi⟩
    · rintro ⟨i, hi⟩
      obtain ⟨r, hr, -⟩ := hbest.standing (x, i) (List.mem_zipIdx_iff_getElem?.mpr hi)
      exact ⟨r, (hm x r).mpr ⟨i, hi, hr⟩⟩
  · rintro rfl
    exact (hforced x r hr).trans _ _ _ ((hforced y r hq).symm _ _)
  · obtain ⟨i, hi, hr⟩ := (hm x r).mp hr
    obtain ⟨j, hj, hq⟩ := (hm y q).mp hq
    rw [(hclasses.joined i j x y hi hj).mpr hxy] at hr
    exact Option.some.inj (hr.symm.trans hq)

/-- Either two objects are forced to be equal, or the terms are represented. -/
theorem mapping?_cases (eqs : TermPairs) :
    (eqs.mapping? = none ∧
      ∃ a b, isVariable a = false ∧ isVariable b = false ∧ a ≠ b ∧ eqs.Forces a b) ∨
    ∃ m, eqs.mapping? = some m ∧ eqs.RepresentedBy m := by
  obtain ⟨hclasses, hterms⟩ := represents_ofEqualities eqs
  rcases best?_spec (fun _ => rfl) (ofEqualities eqs).terms.zipIdx isBest_nil with
    ⟨hnone, ⟨a, i⟩, ha, ⟨b, j⟩, hb, hroot, hao, hbo, hab⟩ | ⟨best, forest, hsome, hbest, hforest⟩
  · rw [List.nil_append, List.mem_zipIdx_iff_getElem?] at ha hb
    exact .inl ⟨by rw [mapping?, hnone]; rfl, a, b, hao, hbo, hab,
      (hclasses.joined i j a b ha hb).mp hroot⟩
  · rw [List.nil_append] at hbest
    obtain ⟨m, hm⟩ := represented?_ne_none hforest fun p hp =>
      let ⟨t, ht, _⟩ := hbest.standing p hp
      ⟨t, ht⟩
    obtain ⟨hkeys, hmem⟩ := represented?_spec hforest hm
    refine .inr ⟨m, by rw [mapping?, hsome]; exact hm,
      representedBy_of_isBest hclasses hterms hbest fun x r => ?_⟩
    have hnodup : (m.map (·.1)).Nodup := by
      rw [hkeys, List.zipIdx_map_fst]
      exact hclasses.nodup
    rw [show m.lookup x = some r ↔ (x, r) ∈ m from
      ⟨mem_of_lookup, lookup_eq_some_of_nodup hnodup⟩, hmem x r]
    simp only [List.mem_zipIdx_iff_getElem?]

theorem representedBy_of_mapping? (h : eqs.mapping? = some m) : eqs.RepresentedBy m := by
  rcases mapping?_cases eqs with ⟨hnone, -⟩ | ⟨m', hm', hrepresented⟩
  · cases hnone.symm.trans h
  · exact Option.some.inj (hm'.symm.trans h) ▸ hrepresented

theorem fixesObjects_of_mapping? (h : eqs.mapping? = some m) : FixesObjects m.apply := by
  intro x hx
  cases hl : m.lookup x with
  | none => rw [Renaming.apply, hl, Option.getD_none]
  | some r =>
      rw [Renaming.apply, hl, Option.getD_some]
      exact (representedBy_of_mapping? h).object x r x hl (.refl x) hx

/-- Both terms of an equality have the same representative. -/
theorem apply_eq_of_mem (h : eqs.mapping? = some m) (hp : p ∈ eqs) : m.apply p.1 = m.apply p.2 := by
  have hm := representedBy_of_mapping? h
  obtain ⟨r, hr⟩ := (hm.mentioned p.1).mpr ⟨p, hp, .inl rfl⟩
  obtain ⟨q, hq⟩ := (hm.mentioned p.2).mpr ⟨p, hp, .inr rfl⟩
  rw [Renaming.apply, Renaming.apply, hr, hq, Option.getD_some, Option.getD_some]
  exact (hm.same _ _ _ _ hr hq).mpr (.rel _ _ hp)

/-- A term has the value of its representative. -/
theorem SatisfiedBy.apply_eq (h : eqs.SatisfiedBy σ) (hm : eqs.mapping? = some m) (x : String) :
    σ (m.apply x) = σ x := by
  cases hl : m.lookup x with
  | none => rw [Renaming.apply, hl, Option.getD_none]
  | some r =>
      rw [Renaming.apply, hl, Option.getD_some]
      exact (h.eq_of_forces ((representedBy_of_mapping? hm).forced x r hl)).symm

/-- There is no mapping if and only if two objects are forced to be equal. -/
theorem mapping?_eq_none_iff : eqs.mapping? = none ↔
    ∃ a b, isVariable a = false ∧ isVariable b = false ∧ a ≠ b ∧ eqs.Forces a b := by
  constructor
  · intro h
    exact (mapping?_cases eqs).elim And.right fun ⟨m, hm, _⟩ => nomatch h.symm.trans hm
  · rintro ⟨a, b, ha, hb, hab, hforced⟩
    cases h : eqs.mapping? with
    | none => rfl
    | some m =>
        have heq := SatisfiedBy.eq_of_forces (fun p hp => apply_eq_of_mem h hp) hforced
        rw [fixesObjects_of_mapping? h a ha, fixesObjects_of_mapping? h b hb] at heq
        exact absurd heq hab

theorem SatisfiedBy.exists_mapping {σ : String → String} (hσ : FixesObjects σ)
    (h : eqs.SatisfiedBy σ) : ∃ m, eqs.mapping? = some m := by
  refine Option.ne_none_iff_exists'.mp fun hnone => ?_
  obtain ⟨a, b, ha, hb, hab, hforced⟩ := mapping?_eq_none_iff.mp hnone
  exact hab (hσ a ha ▸ hσ b hb ▸ h.eq_of_forces hforced)

end TermPairs

namespace ConstraintSystem

variable {V : Type*} {σ : String → V} {s t : ConstraintSystem}

/-- A valuation satisfies a conjunction of each disjunction of equalities and
makes some terms of each disjunction of inequalities different. -/
structure SatisfiedBy {V : Type*} (s : ConstraintSystem) (σ : String → V) : Prop where
  equalities : ∀ alternatives ∈ s.equalities, ∃ c ∈ alternatives, c.SatisfiedBy σ
  inequalities : ∀ disjunction ∈ s.inequalities, ∃ p ∈ disjunction, σ p.1 ≠ σ p.2

theorem satisfiedBy_empty : SatisfiedBy {} σ := ⟨nofun, nofun⟩

theorem satisfiedBy_withEqualities {c : TermPairs} :
    (s.withEqualities c).SatisfiedBy σ ↔ s.SatisfiedBy σ ∧ c.SatisfiedBy σ := by
  constructor
  · intro h
    refine ⟨⟨fun a ha => h.equalities a (List.mem_append_left _ ha), h.inequalities⟩, ?_⟩
    obtain ⟨d, hd, hdσ⟩ := h.equalities [c]
      (List.mem_append_right _ (List.mem_singleton_self _))
    exact List.mem_singleton.mp hd ▸ hdσ
  · rintro ⟨h, hc⟩
    refine ⟨fun a ha => ?_, h.inequalities⟩
    rcases List.mem_append.mp ha with ha | ha
    · exact h.equalities a ha
    · exact ⟨c, by simp [List.mem_singleton.mp ha], hc⟩

theorem satisfiedBy_withInequalities {d : TermPairs} :
    (s.withInequalities d).SatisfiedBy σ ↔
      s.SatisfiedBy σ ∧ ∃ p ∈ d, σ p.1 ≠ σ p.2 := by
  constructor
  · intro h
    exact ⟨⟨h.equalities, fun a ha => h.inequalities a (List.mem_append_left _ ha)⟩,
      h.inequalities d (List.mem_append_right _ (List.mem_singleton_self _))⟩
  · rintro ⟨h, hd⟩
    refine ⟨h.equalities, fun a ha => ?_⟩
    rcases List.mem_append.mp ha with ha | ha
    · exact h.inequalities a ha
    · exact List.mem_singleton.mp ha ▸ hd

theorem separates_of_ne {eqs : TermPairs} {m : Renaming} (hm : eqs.mapping? = some m)
    (h : eqs.SatisfiedBy σ) {d : TermPairs} (hd : ∃ p ∈ d, σ p.1 ≠ σ p.2) :
    separates m d = true := by
  obtain ⟨p, hp, hne⟩ := hd
  simp only [separates, List.any_eq_true, bne_iff_ne]
  refine ⟨p, hp, fun he => hne ?_⟩
  rw [← h.apply_eq hm p.1, ← h.apply_eq hm p.2]
  exact congrArg σ he

/-- A choice of equalities satisfies inequalities if some valuation does. -/
theorem isSatisfiedBy_iff {eqs : TermPairs} {inequalities : List TermPairs} :
    isSatisfiedBy eqs inequalities = true ↔ ∃ σ : String → String, FixesObjects σ ∧
      eqs.SatisfiedBy σ ∧ ∀ d ∈ inequalities, ∃ p ∈ d, σ p.1 ≠ σ p.2 := by
  rw [isSatisfiedBy]
  constructor
  · intro h
    cases hm : eqs.mapping? with
    | none => simp [hm] at h
    | some m =>
        simp only [hm, List.all_eq_true, separates, List.any_eq_true, bne_iff_ne] at h
        exact ⟨Renaming.apply m, TermPairs.fixesObjects_of_mapping? hm,
          fun p hp => TermPairs.apply_eq_of_mem hm hp, h⟩
  · rintro ⟨σ, hσ, h, hne⟩
    obtain ⟨m, hm⟩ := h.exists_mapping hσ
    simp only [hm, List.all_eq_true]
    exact fun d hd => separates_of_ne hm h (hne d hd)

/-! ### Choices -/

section Choices

variable {choice later : List Nat} {disjunctions : List (List TermPairs)}

/-- A position in each of the disjunctions. -/
def IsChoice (choice : List Nat) (disjunctions : List (List TermPairs)) : Prop :=
  List.Forall₂ (fun i alternatives => i < alternatives.length) choice disjunctions

/-- A choice comes later if the last position where the two differ is larger. -/
def IsBefore : List Nat → List Nat → Prop
  | i :: choice, j :: later => IsBefore choice later ∨ choice = later ∧ i < j
  | _, _ => False

/-- The next choice is the first one of those that come later. -/
theorem next?_spec (h : IsChoice choice disjunctions) :
    (next? choice disjunctions = none ∧ ∀ c, IsChoice c disjunctions → ¬ IsBefore choice c) ∨
    ∃ later, next? choice disjunctions = some later ∧ IsChoice later disjunctions ∧
      ∀ c, IsChoice c disjunctions → (IsBefore choice c ↔ c = later ∨ IsBefore later c) := by
  induction h with
  | nil => exact .inl ⟨rfl, fun c hc => by cases hc; exact id⟩
  | @cons i alternatives choice rest hi hchoice ih =>
      rw [next?]
      split
      next hlt =>
        refine .inr ⟨_, rfl, .cons hlt hchoice, fun c hc => ?_⟩
        cases hc with
        | @cons j _ c _ hj hc =>
            simp only [IsBefore, List.cons.injEq]
            constructor
            · rintro (h | ⟨rfl, h⟩)
              · exact .inr (.inl h)
              · rcases Nat.eq_or_lt_of_le h with h | h
                · exact .inl ⟨h.symm, rfl⟩
                · exact .inr (.inr ⟨rfl, h⟩)
            · rintro (⟨rfl, rfl⟩ | h | ⟨rfl, h⟩)
              · exact .inr ⟨rfl, Nat.lt_succ_self i⟩
              · exact .inl h
              · exact .inr ⟨rfl, by omega⟩
      next hlast =>
        rcases ih with ⟨hnone, hall⟩ | ⟨later, hsome, hlater, hiff⟩
        · refine .inl ⟨by rw [hnone]; rfl, fun c hc => ?_⟩
          cases hc with
          | @cons j _ c _ hj hc =>
              rintro (h | ⟨-, h⟩)
              · exact hall c hc h
              · omega
        · refine .inr ⟨0 :: later, by rw [hsome]; rfl, .cons (by omega) hlater, fun c hc => ?_⟩
          cases hc with
          | @cons j _ c _ hj hc =>
              simp only [IsBefore, List.cons.injEq, hiff c hc]
              constructor
              · rintro ((rfl | h) | ⟨-, h⟩)
                · rcases Nat.eq_zero_or_pos j with h | h
                  · exact .inl ⟨h, rfl⟩
                  · exact .inr (.inr ⟨rfl, h⟩)
                · exact .inr (.inl h)
                · omega
              · rintro (⟨-, rfl⟩ | h | ⟨rfl, -⟩)
                · exact .inl (.inl rfl)
                · exact .inl (.inr h)
                · exact .inl (.inl rfl)

/-- The search comes to each choice from the one it starts with. -/
theorem searchFrom_iff (h : IsChoice choice s.equalities) :
    s.searchFrom choice = true ↔ ∃ c, IsChoice c s.equalities ∧ (c = choice ∨ IsBefore choice c) ∧
      isSatisfiedBy (picked c s.equalities) s.inequalities = true := by
  fun_induction searchFrom s choice with
  | case1 choice hsatisfied => exact iff_of_true rfl ⟨choice, h, .inl rfl, hsatisfied⟩
  | case2 choice hsatisfied hnone =>
      obtain ⟨-, hall⟩ := (next?_spec h).resolve_right fun ⟨later, hsome, _⟩ =>
        nomatch hnone.symm.trans hsome
      refine iff_of_false Bool.false_ne_true ?_
      rintro ⟨c, hc, rfl | hbefore, hc'⟩
      · exact hsatisfied hc'
      · exact hall c hc hbefore
  | case3 choice hsatisfied later hsome _ ih =>
      obtain ⟨later', hsome', hlater, hiff⟩ := (next?_spec h).resolve_left fun ⟨hnone, _⟩ =>
        nomatch hnone.symm.trans hsome
      obtain rfl := Option.some.inj (hsome'.symm.trans hsome)
      rw [ih hlater]
      refine exists_congr fun c => and_congr_right fun hc => and_congr_left fun hc' => ?_
      rw [← hiff c hc]
      exact (or_iff_right fun he : c = choice => hsatisfied (he ▸ hc')).symm

/-- The choice of the first alternatives comes before all others. -/
theorem isChoice_replicate (h : ∀ alternatives ∈ disjunctions, alternatives ≠ []) :
    IsChoice (.replicate disjunctions.length 0) disjunctions ∧
      ∀ c, IsChoice c disjunctions → c = .replicate disjunctions.length 0 ∨
        IsBefore (.replicate disjunctions.length 0) c := by
  induction disjunctions with
  | nil => exact ⟨.nil, fun c hc => by cases hc; exact .inl rfl⟩
  | cons alternatives rest ih =>
      obtain ⟨halternatives, hrest⟩ := List.forall_mem_cons.mp h
      obtain ⟨hchoice, hfirst⟩ := ih hrest
      refine ⟨.cons (List.length_pos_iff.mpr halternatives) hchoice, fun c hc => ?_⟩
      cases hc with
      | @cons j _ c _ hj hc =>
          rcases hfirst c hc with rfl | hbefore
          · rcases Nat.eq_zero_or_pos j with rfl | hpos
            · exact .inl rfl
            · exact .inr (.inr ⟨rfl, hpos⟩)
          · exact .inr (.inl hbefore)

/-- A system is solvable if and only if some choice satisfies the inequalities. -/
theorem isSolvable_iff_exists_choice : s.isSolvable = true ↔ ∃ choice,
    IsChoice choice s.equalities ∧
      isSatisfiedBy (picked choice s.equalities) s.inequalities = true := by
  rw [isSolvable]
  split
  next hempty =>
    obtain ⟨alternatives, hmem, hnil⟩ := List.any_eq_true.mp hempty
    refine iff_of_false Bool.false_ne_true fun ⟨choice, hchoice, _⟩ => ?_
    obtain ⟨i, -, hi⟩ := exists_of_mem_forall₂_right hchoice hmem
    rw [List.isEmpty_iff.mp hnil] at hi
    exact Nat.not_lt_zero i hi
  next hempty =>
    have hne : ∀ alternatives ∈ s.equalities, alternatives ≠ [] := fun alternatives hmem hnil =>
      hempty (List.any_eq_true.mpr ⟨alternatives, hmem, List.isEmpty_iff.mpr hnil⟩)
    obtain ⟨hfirst, hall⟩ := isChoice_replicate hne
    rw [searchFrom_iff hfirst]
    exact exists_congr fun c => and_congr_right fun hc => and_iff_right (hall c hc)

theorem picked_cons {i : Nat} {alternatives : List TermPairs} (hi : i < alternatives.length) :
    picked (i :: choice) (alternatives :: disjunctions) =
      alternatives[i] ++ picked choice disjunctions := by
  have hget : alternatives.getD i [] = alternatives[i] := by
    rw [List.getD_eq_getElem?_getD, List.getElem?_eq_getElem hi, Option.getD_some]
  exact congrArg (· ++ picked choice disjunctions) hget

theorem exists_choice_iff : (∃ choice, IsChoice choice disjunctions ∧
    (picked choice disjunctions).SatisfiedBy σ) ↔
      ∀ alternatives ∈ disjunctions, ∃ c ∈ alternatives, c.SatisfiedBy σ := by
  induction disjunctions with
  | nil => exact iff_of_true ⟨[], .nil, nofun⟩ nofun
  | cons alternatives rest ih =>
      rw [List.forall_mem_cons, ← ih]
      constructor
      · rintro ⟨choice, hchoice, h⟩
        cases hchoice with
        | @cons i _ choice _ hi hchoice =>
            rw [picked_cons hi, TermPairs.satisfiedBy_append] at h
            exact ⟨⟨alternatives[i], List.getElem_mem hi, h.1⟩, choice, hchoice, h.2⟩
      · rintro ⟨⟨c, hc, hσ⟩, choice, hchoice, h⟩
        obtain ⟨i, hi, rfl⟩ := List.getElem_of_mem hc
        refine ⟨i :: choice, .cons hi hchoice, ?_⟩
        rw [picked_cons hi, TermPairs.satisfiedBy_append]
        exact ⟨hσ, h⟩

end Choices

/-- A system is solvable if and only if some valuation satisfies it. -/
theorem isSolvable_iff : s.isSolvable = true ↔ ∃ σ, FixesObjects σ ∧ s.SatisfiedBy σ := by
  simp only [isSolvable_iff_exists_choice, isSatisfiedBy_iff]
  constructor
  · rintro ⟨choice, hchoice, σ, hσ, hpicked, hne⟩
    exact ⟨σ, hσ, exists_choice_iff.mp ⟨choice, hchoice, hpicked⟩, hne⟩
  · rintro ⟨σ, hσ, h⟩
    obtain ⟨choice, hchoice, hpicked⟩ := exists_choice_iff.mpr h.equalities
    exact ⟨choice, hchoice, σ, hσ, hpicked, h.inequalities⟩

/-- A system that some valuation satisfies is solvable. -/
theorem SatisfiedBy.isSolvable {σ : String → String} (hσ : FixesObjects σ) (h : s.SatisfiedBy σ) :
    s.isSolvable = true :=
  isSolvable_iff.mpr ⟨σ, hσ, h⟩

end ConstraintSystem
end FinitePlanning
