import FinitePlanning.Proofs.Encoding.Simulation
import FinitePlanning.Proofs.Invariant.Cover

/-!
A task fits its fact groups if each atom is in one of them, derived atoms are in groups of their
own, and no group has two initial atoms. Then no step of the encoding finds a mismatch.
-/

namespace FinitePlanning
namespace FiniteDomain
namespace Dictionary

variable {d : Dictionary} {groups : List (List Atom)} {a : Atom}

/-- An atom has a fact for each of its occurrences in groups. -/
theorem length_groupFacts (a : Atom) (var k : Nat) (g : List Atom) :
    ((g.zipIdx k).filterMap fun (b, value) =>
      if b = a then some (Fact.mk var value) else none).length = g.count a := by
  induction g generalizing k with
  | nil => rfl
  | cons b g ih =>
      rw [List.zipIdx_cons, List.filterMap_cons, List.count_cons, ← ih (k + 1)]
      by_cases hb : b = a <;> simp [hb]

theorem length_groupsFacts (a : Atom) (k : Nat) (groups : List (List Atom)) :
    ((groups.zipIdx k).flatMap fun (g, var) => g.zipIdx.filterMap fun (b, value) =>
      if b = a then some (Fact.mk var value) else none).length = groups.flatten.count a := by
  induction groups generalizing k with
  | nil => rfl
  | cons g groups ih =>
      rw [List.zipIdx_cons, List.flatMap_cons, List.length_append, length_groupFacts, ih,
        List.flatten_cons, List.count_append]

theorem length_facts (groups : List (List Atom)) (a : Atom) :
    ((ofGroups groups).facts a).length = groups.flatten.count a := by
  rw [facts_ofGroups, length_groupsFacts]

theorem checkAtom_eq_ok {isPartial : Bool} (hmem : a ∈ groups.flatten)
    (hcount : isPartial = true → groups.flatten.count a = 1) :
    (ofGroups groups).checkAtom isPartial a = .ok () := by
  have hpos := List.count_pos_iff.mpr hmem
  rw [← length_facts] at hcount hpos
  rw [checkAtom]
  cases isPartial with
  | true => exact if_pos (hcount rfl)
  | false => exact if_neg (Nat.ne_of_gt hpos)

/-- An atom with a group of its own. -/
theorem derivedFact_eq_ok (hcount : groups.flatten.count a = 1)
    (hown : ∀ g ∈ groups, a ∈ g → g = [a]) :
    ∃ var : Nat, groups[var]? = some [a] ∧ (ofGroups groups).derivedFact a = .ok ⟨var, 0⟩ := by
  rw [← length_facts] at hcount
  obtain ⟨f, hf⟩ := List.length_eq_one_iff.mp hcount
  obtain ⟨g, hg, ha⟩ := mem_facts.mp (hf ▸ List.mem_singleton_self f)
  obtain rfl := hown g (List.mem_of_getElem? hg) (List.mem_of_getElem? ha)
  have hvalue : f.value = 0 := by
    have hlt := (List.getElem?_eq_some_iff.mp ha).1
    simpa using hlt
  refine ⟨f.var, hg, ?_⟩
  rw [derivedFact, hf, ← hvalue]
  rfl

/-! ### The initial state -/

theorem Reflects.exists_foldlM {fs seen : List Fact} {state : Array Nat}
    (h : d.Reflects state seen) (hvar : ∀ f ∈ fs, f.var < d.ranges.size)
    (hagree : ∀ f ∈ seen ++ fs, ∀ g ∈ seen ++ fs, f.var = g.var → f.value = g.value) :
    ∃ state' : Array Nat, fs.foldlM (fun (state : Array Nat) (f : Fact) =>
      let current := state.getD f.var 0
      if current = d.noneOfThose f.var ∨ current = f.value then
        (pure (state.setIfInBounds f.var f.value) : Except Mismatch (Array Nat))
      else throw (.initialFacts a)) state = .ok state' := by
  induction fs generalizing seen state with
  | nil => exact ⟨state, rfl⟩
  | cons f fs ih =>
      rw [List.forall_mem_cons] at hvar
      have hcurrent : state.getD f.var 0 = d.noneOfThose f.var ∨ state.getD f.var 0 = f.value := by
        rcases h.2 f.var (h.1 ▸ hvar.1) with ⟨g, hg, hgf, hvalue⟩ | ⟨hnone, -⟩
        · rw [hvalue]
          exact .inr (hagree g (List.mem_append_left _ hg) f
            (List.mem_append_right _ List.mem_cons_self) hgf)
        · exact .inl hnone
      rw [List.foldlM_cons]
      dsimp only
      rw [if_pos hcurrent]
      exact ih (h.set f) hvar.2 (by rwa [List.append_assoc])

/-- The initial values are found if no group has two initial atoms. -/
theorem exists_initialState {init : List Atom} (hn : ∀ g ∈ groups, g.Nodup)
    (hone : ∀ g ∈ groups, ∀ a ∈ g, ∀ b ∈ g, a ∈ init → b ∈ init → a = b) :
    ∃ state, (ofGroups groups).initialState init = .ok state := by
  have hagree : ∀ f ∈ init.flatMap (ofGroups groups).facts,
      ∀ g ∈ init.flatMap (ofGroups groups).facts, f.var = g.var → f.value = g.value := by
    intro f hf g hg hvar
    obtain ⟨a, ha, hf⟩ := List.mem_flatMap.mp hf
    obtain ⟨b, hb, hg⟩ := List.mem_flatMap.mp hg
    obtain ⟨l, hl, hal⟩ := mem_facts.mp hf
    obtain ⟨l', hl', hbl⟩ := mem_facts.mp hg
    obtain rfl := Option.some.inj (hl.symm.trans (hvar ▸ hl'))
    have hmem := List.mem_of_getElem? hl
    obtain rfl := hone l hmem a (List.mem_of_getElem? hal) b (List.mem_of_getElem? hbl) ha hb
    obtain ⟨hlt, hget⟩ := List.getElem?_eq_some_iff.mp hal
    obtain ⟨hlt', hget'⟩ := List.getElem?_eq_some_iff.mp hbl
    exact (hn l hmem).getElem_inj_iff.mp (hget.trans hget'.symm)
  have hall : ∀ (rest seen : List Atom) (state : Array Nat), seen ++ rest = init →
      (ofGroups groups).Reflects state (seen.flatMap (ofGroups groups).facts) →
        ∃ state', rest.foldlM (ofGroups groups).setInitial state = .ok state' := by
    intro rest
    induction rest with
    | nil => exact fun _ state _ _ => ⟨state, rfl⟩
    | cons a rest ih =>
        intro seen state hinit hreflects
        have hsub : ∀ f ∈ seen.flatMap (ofGroups groups).facts ++ (ofGroups groups).facts a,
            f ∈ init.flatMap (ofGroups groups).facts := by
          intro f hf
          rw [← hinit, List.flatMap_append, List.flatMap_cons]
          rcases List.mem_append.mp hf with hf | hf
          · exact List.mem_append_left _ hf
          · exact List.mem_append_right _ (List.mem_append_left _ hf)
        obtain ⟨next, hnext⟩ := hreflects.exists_foldlM (a := a)
          (fun f hf => size_ranges groups ▸ (lt_of_mem_facts hf).1) fun f hf g hg => hagree f (hsub f hf) g (hsub g hg)
        have hnext : (ofGroups groups).setInitial state a = .ok next := hnext
        rw [List.foldlM_cons, hnext]
        refine ih (seen ++ [a]) next (by rw [← hinit, List.append_assoc]; rfl) ?_
        simpa using reflects_setInitial hreflects hnext
  refine hall init [] _ rfl ⟨by simp, fun var hvar => .inr ⟨?_, nofun⟩⟩
  have hvar : var < (ofGroups groups).ranges.size := by simpa using hvar
  simp [noneOfThose, range, Array.getD, hvar]

/-! ### Layers of variables -/

theorem exists_variableLayers {layers : List (Atom × Nat)}
    (h : ∀ p ∈ layers, ∃ f, d.derivedFact p.1 = .ok f) :
    ∃ ls, d.variableLayers layers = .ok ls := by
  rw [variableLayers]
  generalize Array.replicate d.ranges.size none = ls
  induction layers generalizing ls with
  | nil => exact ⟨ls, rfl⟩
  | cons p layers ih =>
      rw [List.forall_mem_cons] at h
      obtain ⟨f, hf⟩ := h.1
      rw [List.foldlM_cons]
      dsimp only
      rw [hf]
      exact ih h.2 _

/-- A variable has the layer of the last atom whose fact is about it. -/
theorem foldlM_layers_spec {layers : List (Atom × Nat)} {start ls : Array (Option Nat)}
    (h : layers.foldlM (fun ls (a, layer) =>
      return ls.setIfInBounds (← d.derivedFact a).var (some layer)) start = .ok ls) :
    ls.size = start.size ∧ ∀ var < ls.size,
      (∃ p ∈ layers, ∃ f, d.derivedFact p.1 = .ok f ∧ f.var = var ∧ ls.getD var none = some p.2) ∨
        ls.getD var none = start.getD var none ∧
          ∀ p ∈ layers, ∀ f, d.derivedFact p.1 = .ok f → f.var ≠ var := by
  induction layers generalizing start with
  | nil =>
      cases h
      exact ⟨rfl, fun var _ => .inr ⟨rfl, List.forall_mem_nil _⟩⟩
  | cons p layers ih =>
      rw [List.foldlM_cons] at h
      dsimp only at h
      cases hp : d.derivedFact p.1 with
      | error e =>
          rw [hp] at h
          cases h
      | ok f =>
          rw [hp] at h
          obtain ⟨hsize, hspec⟩ := ih h
          refine ⟨hsize.trans Array.size_setIfInBounds, fun var hvar => ?_⟩
          rcases hspec var hvar with ⟨q, hq, g, hg⟩ | ⟨hget, hrest⟩
          · exact .inl ⟨q, List.mem_cons_of_mem p hq, g, hg⟩
          · by_cases hf : f.var = var
            · have hlt : var < start.size := by simpa [hsize] using hvar
              refine .inl ⟨p, List.mem_cons_self, f, hp, hf, hget.trans ?_⟩
              simp [Array.getD, hf, hlt]
            · refine .inr ⟨hget.trans ?_, List.forall_mem_cons.mpr ⟨fun g hg => ?_, hrest⟩⟩
              · simp [Array.getD_eq_getD_getElem?, hf]
              · obtain rfl := Except.ok.inj (hp.symm.trans hg)
                exact hf

theorem variableLayers_spec {layers : List (Atom × Nat)} {ls : Array (Option Nat)}
    (h : d.variableLayers layers = .ok ls) : ls.size = d.ranges.size ∧ ∀ var < ls.size,
      (∃ p ∈ layers, ∃ f, d.derivedFact p.1 = .ok f ∧ f.var = var ∧ ls.getD var none = some p.2) ∨
        ls.getD var none = none ∧ ∀ p ∈ layers, ∀ f, d.derivedFact p.1 = .ok f → f.var ≠ var := by
  obtain ⟨hsize, hspec⟩ := foldlM_layers_spec h
  refine ⟨hsize.trans Array.size_replicate, fun var hvar => (hspec var hvar).imp_right
    fun h => ⟨h.1.trans ?_, h.2⟩⟩
  rw [Array.getD_eq_getD_getElem?, Array.getElem?_replicate]
  split <;> rfl

end Dictionary
end FiniteDomain
end FinitePlanning
