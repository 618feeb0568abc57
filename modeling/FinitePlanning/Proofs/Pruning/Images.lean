import Mathlib.Data.List.Nodup
import FinitePlanning.FiniteDomain.Pruning
import FinitePlanning.Proofs.Pruning.Values
import FinitePlanning.Proofs.Semantics.FiniteDomain

/-!
What becomes of facts when the values that cannot be taken are removed. A variable with
a single value is dropped; the values of the other ones are numbered in order.
-/

namespace FinitePlanning

section FilterMap

variable {α β : Type} {f : α → Option β} {l : List α} {i : Nat} {a : α} {b : β}

/-- The position of a result among all results. -/
theorem getElem?_filterMap_countP (ha : l[i]? = some a) (hb : f a = some b) :
    (l.filterMap f)[(l.take i).countP (f · |>.isSome)]? = some b := by
  induction l generalizing i with
  | nil => simp at ha
  | cons c l ih =>
      cases i with
      | zero =>
          obtain rfl := Option.some.inj ha
          simp [hb]
      | succ i =>
          have ih := ih (i := i) (by simpa using ha)
          cases hc : f c with
          | none => simpa [hc] using ih
          | some d => simpa [hc] using ih

theorem exists_of_getElem?_filterMap {k : Nat} (h : (l.filterMap f)[k]? = some b) :
    ∃ i a, l[i]? = some a ∧ f a = some b ∧ k = (l.take i).countP (f · |>.isSome) := by
  induction l generalizing k with
  | nil => simp at h
  | cons c l ih =>
      cases hc : f c with
      | none =>
          rw [List.filterMap_cons_none hc] at h
          obtain ⟨i, a, ha, hb, rfl⟩ := ih h
          exact ⟨i + 1, a, by simpa using ha, hb, by simp [hc]⟩
      | some d =>
          rw [List.filterMap_cons_some hc] at h
          cases k with
          | zero => exact ⟨0, c, rfl, hc.trans h, rfl⟩
          | succ k =>
              obtain ⟨i, a, ha, hb, rfl⟩ := ih (by simpa using h)
              exact ⟨i + 1, a, by simpa using ha, hb, by simp [hc]⟩

end FilterMap

namespace FiniteDomain
namespace Pruning

variable {vals : List Nat} {newVar value range kept i : Nat}

theorem getD_foldl_set {images : Array Image} {k : Nat} (hnodup : vals.Nodup)
    (hlt : ∀ x ∈ vals, x < images.size) :
    ((vals.zipIdx k).foldl (fun images (value, i) =>
        images.setIfInBounds value (.fact ⟨newVar, i⟩)) images).getD value .never =
      if value ∈ vals then .fact ⟨newVar, k + vals.idxOf value⟩ else images.getD value .never := by
  induction vals generalizing images k with
  | nil => simp
  | cons x vals ih =>
      rw [List.nodup_cons] at hnodup
      rw [List.forall_mem_cons] at hlt
      rw [List.zipIdx_cons, List.foldl_cons, ih hnodup.2 (by simpa using hlt.2)]
      by_cases hx : value = x
      · subst hx
        simp [hnodup.1, hlt.1, Array.getD_eq_getD_getElem?]
      · have hne : x ≠ value := Ne.symm hx
        by_cases hmem : value ∈ vals
        · simp [hmem, hx, List.idxOf_cons_ne _ hne]
          omega
        · simp [hmem, hx, hne, Array.getD_eq_getD_getElem?]

/-- The images of the values of a variable. -/
theorem getD_imagesOf (hnodup : vals.Nodup) (hlt : ∀ x ∈ vals, x < range) :
    (imagesOf range kept vals).getD value .never =
      if value ∈ vals then
        if isKept vals = true then .fact ⟨kept, vals.idxOf value⟩ else .always
      else .never := by
  have hnever : (Array.replicate range Image.never).getD value .never = .never := by
    by_cases h : value < range <;> simp [h]
  by_cases hsingle : ∃ single, vals = [single]
  · obtain ⟨single, rfl⟩ := hsingle
    have hs : single < range := hlt single List.mem_cons_self
    rw [imagesOf]
    by_cases hv : value = single
    · subst hv
      simp [hs, isKept, Array.getD_eq_getD_getElem?]
    · rw [if_neg (by simpa using hv)]
      refine Eq.trans ?_ hnever
      simp [Array.getD_eq_getD_getElem?, Ne.symm hv]
  · have hkept : isKept vals = true := by
      rw [isKept, decide_eq_true_eq]
      exact fun h => hsingle (List.length_eq_one_iff.mp h)
    have himages : imagesOf range kept vals = keptImages range kept vals := by
      rw [imagesOf]
      exact fun single h => hsingle ⟨single, h⟩
    rw [himages, keptImages, getD_foldl_set hnodup (by simpa using hlt), hnever, if_pos hkept,
      Nat.zero_add]

theorem getElem?_foldl_push (vs : List (Variable × List Nat)) (acc : Array (Array Image) × Nat) :
    ((vs.foldl push acc).1)[acc.1.size + i]? = vs[i]?.map fun v =>
      imagesOf v.1.range (acc.2 + (vs.take i).countP (isKept ·.2)) v.2 := by
  have hkeep : ∀ (vs : List (Variable × List Nat)) (acc : Array (Array Image) × Nat) (j : Nat),
      j < acc.1.size → ((vs.foldl push acc).1)[j]? = acc.1[j]? := by
    intro vs
    induction vs with
    | nil => exact fun _ _ _ => rfl
    | cons v vs ih =>
        intro acc j hj
        rw [List.foldl_cons, ih _ j (by simp [push]; omega)]
        simp only [push]
        rw [Array.getElem?_push_lt hj, Array.getElem?_eq_getElem hj]
  induction vs generalizing acc i with
  | nil => simp
  | cons v vs ih =>
      cases i with
      | zero =>
          rw [List.foldl_cons, Nat.add_zero, hkeep _ _ _ (by simp [push])]
          simp [push]
      | succ i =>
          have ih := ih (i := i) (push acc v)
          have hsize : (push acc v).1.size + i = acc.1.size + (i + 1) := by
            simp [push]
            omega
          rw [hsize] at ih
          rw [List.foldl_cons, ih]
          simp only [List.getElem?_cons_succ, List.take_succ_cons, List.countP_cons]
          refine congrArg (Option.map · _) (funext fun w => congrArg (imagesOf _ · _) ?_)
          by_cases hk : isKept v.2 = true
          · simp [push, hk]
            omega
          · simp [push, hk]

end Pruning

namespace Task

variable {t : Task} {σ : Valuation} {f g : Fact} {var : Nat}

/-- The images of facts without the values that cannot be taken. -/
def pruning (t : Task) : Pruning := .ofReachable t.vars t.reachableValues

/-- A variable that can take more than one value. -/
def Keeps (t : Task) (var : Nat) : Prop := Pruning.isKept (t.reachableValues.getD var []) = true

/-- The number of a variable after other ones were dropped. -/
def newNumber (t : Task) (var : Nat) : Nat :=
  (t.reachableValues.toList.take var).countP Pruning.isKept

/-- The number of a value after other ones were removed. -/
def newValue (t : Task) (var value : Nat) : Nat := (t.reachableValues.getD var []).idxOf value

instance (var value : Nat) : Decidable (t.CanTake var value) :=
  inferInstanceAs (Decidable (_ ∈ _))

instance (var : Nat) : Decidable (t.Keeps var) := inferInstanceAs (Decidable (_ = true))

/-- What becomes of a fact. -/
theorem image_eq (hw : t.IsWellFormed) (hvar : f.var < t.vars.size) :
    t.pruning.image f =
      if t.CanTake f.var f.value then
        if t.Keeps f.var then .fact ⟨t.newNumber f.var, t.newValue f.var f.value⟩ else .always
      else .never := by
  have hsize := size_reachableValues hw
  have hreach : f.var < t.reachableValues.size := hsize ▸ hvar
  obtain ⟨hsorted, hlt⟩ := pairwise_reachableValues hw (Array.getElem?_eq_getElem hvar)
  have hget := Pruning.getElem?_foldl_push (i := f.var) (t.vars.zip t.reachableValues).toList (#[], 0)
  have hzip : (t.vars.zip t.reachableValues).toList[f.var]? =
      some (t.vars[f.var], t.reachableValues.getD f.var []) := by
    rw [Array.toList_zip, List.getElem?_zip_eq_some]
    simp [hvar, hreach]
  have hcount : ((t.vars.zip t.reachableValues).toList.take f.var).countP (Pruning.isKept ·.2) =
      t.newNumber f.var := by
    have hmap : (t.vars.zip t.reachableValues).toList.map (·.2) = t.reachableValues.toList := by
      rw [Array.toList_zip]
      exact List.map_snd_zip (by simp [hsize])
    rw [newNumber, ← hmap, ← List.map_take, List.countP_map]
    rfl
  have himages : (t.pruning.images.getD f.var #[]) = Pruning.imagesOf t.vars[f.var].range
      (t.newNumber f.var) (t.reachableValues.getD f.var []) := by
    rw [hzip, Option.map_some, hcount] at hget
    simp only [Array.size_empty, Nat.zero_add, Array.foldl_toList] at hget
    rw [Array.getD_eq_getD_getElem?, pruning, Pruning.ofReachable, hget]
    rfl
  rw [Pruning.image, himages, Pruning.getD_imagesOf (hsorted.imp Nat.ne_of_lt) hlt]
  rfl

theorem newNumber_eq (hw : t.IsWellFormed) (hvar : var ≤ t.vars.size) :
    t.newNumber var = (List.range var).countP (decide <| t.Keeps ·) := by
  have htake : t.reachableValues.toList.take var =
      (List.range var).map (t.reachableValues.getD · []) := by
    refine List.ext_getElem? fun i => ?_
    rw [List.getElem?_take, List.getElem?_map]
    by_cases hi : i < var
    · have hlt : i < t.reachableValues.size := size_reachableValues hw ▸ Nat.lt_of_lt_of_le hi hvar
      simp [hi, hlt]
    · simp [hi]
  rw [newNumber, htake, List.countP_map]
  exact List.countP_congr fun i _ => by simp [Keeps]

theorem newNumber_lt (hw : t.IsWellFormed) {u v : Nat} (hu : t.Keeps u) (huv : u < v)
    (hv : v ≤ t.vars.size) : t.newNumber u < t.newNumber v := by
  induction v with
  | zero => exact absurd huv (Nat.not_lt_zero u)
  | succ v ih =>
      rw [newNumber_eq hw hv, List.range_succ, List.countP_append,
        ← newNumber_eq hw (Nat.le_of_succ_le hv)]
      rcases Nat.lt_succ_iff_lt_or_eq.mp huv with huv | rfl
      · exact Nat.lt_of_lt_of_le (ih huv (Nat.le_of_succ_le hv)) (Nat.le_add_right _ _)
      · simp [hu]

theorem newNumber_inj (hw : t.IsWellFormed) {u v : Nat} (hu : t.Keeps u) (hv : t.Keeps v)
    (hun : u < t.vars.size) (hvn : v < t.vars.size) (h : t.newNumber u = t.newNumber v) :
    u = v := by
  rcases Nat.lt_trichotomy u v with huv | huv | huv
  · exact absurd h (Nat.ne_of_lt (newNumber_lt hw hu huv (Nat.le_of_lt hvn)))
  · exact huv
  · exact absurd h.symm (Nat.ne_of_lt (newNumber_lt hw hv huv (Nat.le_of_lt hun)))

theorem countP_isSome_kept {α : Type} (g : Nat → α) (hw : t.IsWellFormed)
    (hvar : var ≤ t.vars.size) : ((List.range t.vars.size).take var).countP (fun var =>
      (if t.Keeps var then some (g var) else none).isSome) = t.newNumber var := by
  rw [newNumber_eq hw hvar, List.take_range, Nat.min_eq_left hvar]
  refine List.countP_congr fun i _ => ?_
  by_cases hk : t.Keeps i <;> simp [hk]

/-- What belongs to the variables that are kept, by their new numbers. -/
theorem getElem?_kept_newNumber {α : Type} (g : Nat → α) (hw : t.IsWellFormed)
    (hvar : var < t.vars.size) (hk : t.Keeps var) :
    ((List.range t.vars.size).filterMap fun var =>
      if t.Keeps var then some (g var) else none)[t.newNumber var]? = some (g var) := by
  have hget := getElem?_filterMap_countP
    (f := fun var => if t.Keeps var then some (g var) else none)
    (List.getElem?_range hvar) (if_pos hk)
  rwa [countP_isSome_kept g hw (Nat.le_of_lt hvar)] at hget

theorem getElem?_kept_eq_none {α : Type} (g : Nat → α) (hw : t.IsWellFormed) {w : Nat}
    (h : ∀ var < t.vars.size, t.Keeps var → w ≠ t.newNumber var) :
    ((List.range t.vars.size).filterMap fun var =>
      if t.Keeps var then some (g var) else none)[w]? = none := by
  by_contra hne
  obtain ⟨b, hb⟩ := Option.ne_none_iff_exists'.mp hne
  obtain ⟨i, var, hi, hvalue, rfl⟩ := exists_of_getElem?_filterMap hb
  obtain ⟨hlt, rfl⟩ := List.getElem?_eq_some_iff.mp hi
  simp only [List.length_range, List.getElem_range, Option.ite_none_right_eq_some] at hlt hvalue
  exact h i hlt hvalue.1 (countP_isSome_kept g hw (Nat.le_of_lt hlt))

/-- All variables have values that they can take. -/
def Possible (t : Task) (σ : Valuation) : Prop := ∀ var < t.vars.size, t.CanTake var (σ var)

/-- The valuation of the variables that are kept. -/
def prunedValuation (t : Task) (σ : Valuation) : Valuation := fun var =>
  (t.pruning.state ((List.range t.vars.size).map σ).toArray).getD var 0

theorem getElem?_state (values : Array Nat) (w : Nat) : (t.pruning.state values)[w]? =
    ((List.range values.size).filterMap fun var =>
      ((t.pruning.image ⟨var, values.getD var 0⟩).fact?).map (·.value))[w]? := by
  have hzip : values.toList.zipIdx =
      (List.range values.size).map fun var => (values.getD var 0, var) := by
    refine List.ext_getElem? fun i => ?_
    by_cases hi : i < values.size
    · simp [hi]
    · simp [hi]
  rw [Pruning.state, ← Array.getElem?_toList, Array.toList_filterMap, Array.toList_zipIdx, hzip,
    List.filterMap_map]
  rfl

theorem getElem?_state_range (σ : Valuation) (w : Nat) :
    (t.pruning.state ((List.range t.vars.size).map σ).toArray)[w]? =
      ((List.range t.vars.size).filterMap fun var =>
        ((t.pruning.image ⟨var, σ var⟩).fact?).map (·.value))[w]? := by
  rw [getElem?_state]
  refine congrArg (·[w]?) ?_
  simp only [List.size_toArray, List.length_map, List.length_range]
  refine List.filterMap_congr fun var hvar => ?_
  simp [List.mem_range.mp hvar]

section Possible

variable (hw : t.IsWellFormed) (hσ : t.Possible σ)
include hw hσ

theorem fact?_image_value (hvar : var < t.vars.size) :
    ((t.pruning.image ⟨var, σ var⟩).fact?).map (·.value) =
      if t.Keeps var then some (t.newValue var (σ var)) else none := by
  rw [image_eq hw hvar, if_pos (hσ var hvar)]
  by_cases hk : t.Keeps var <;> simp [hk, Image.fact?]

theorem getElem?_state_kept (w : Nat) :
    (t.pruning.state ((List.range t.vars.size).map σ).toArray)[w]? =
      ((List.range t.vars.size).filterMap fun var =>
        if t.Keeps var then some (t.newValue var (σ var)) else none)[w]? := by
  rw [getElem?_state_range]
  exact congrArg (·[w]?) (List.filterMap_congr fun var hvar =>
    fact?_image_value hw hσ (List.mem_range.mp hvar))

/-- A variable that is kept has the number of its value. -/
theorem prunedValuation_newNumber (hvar : var < t.vars.size) (hk : t.Keeps var) :
    t.prunedValuation σ (t.newNumber var) = t.newValue var (σ var) := by
  rw [prunedValuation, Array.getD_eq_getD_getElem?, getElem?_state_kept hw hσ,
    getElem?_kept_newNumber (fun var => t.newValue var (σ var)) hw hvar hk]
  rfl

/-- Other numbers are not those of variables. -/
theorem prunedValuation_eq_zero {w : Nat}
    (h : ∀ var < t.vars.size, t.Keeps var → w ≠ t.newNumber var) : t.prunedValuation σ w = 0 := by
  rw [prunedValuation, Array.getD_eq_getD_getElem?, getElem?_state_kept hw hσ,
    getElem?_kept_eq_none (fun var => t.newValue var (σ var)) hw h]
  rfl

/-- Valuations of the kept variables are the same if they agree on each of them. -/
theorem prunedValuation_ext {τ : Valuation} (hτ : t.Possible τ) {ρ : Valuation}
    (hρ : ∀ w, ρ w = t.prunedValuation τ w ∨
      ∃ var < t.vars.size, t.Keeps var ∧ w = t.newNumber var)
    (h : ∀ var < t.vars.size, t.Keeps var → t.newValue var (σ var) = ρ (t.newNumber var)) :
    t.prunedValuation σ = ρ := by
  funext w
  by_cases hex : ∃ var < t.vars.size, t.Keeps var ∧ w = t.newNumber var
  · obtain ⟨var, hvar, hk, rfl⟩ := hex
    rw [prunedValuation_newNumber hw hσ hvar hk, h var hvar hk]
  · have hne : ∀ var < t.vars.size, t.Keeps var → w ≠ t.newNumber var :=
      fun var hvar hk he => hex ⟨var, hvar, hk, he⟩
    rw [prunedValuation_eq_zero hw hσ hne, (hρ w).resolve_right hex,
      prunedValuation_eq_zero hw hτ hne]

theorem not_holds_of_image_never (hvar : f.var < t.vars.size)
    (h : t.pruning.image f = .never) : ¬ f.Holds σ := by
  intro hf
  rw [image_eq hw hvar, ← hf, if_pos (hσ f.var hvar)] at h
  split at h <;> cases h

theorem holds_of_image_always (hvar : f.var < t.vars.size)
    (h : t.pruning.image f = .always) : f.Holds σ := by
  rw [image_eq hw hvar] at h
  split at h
  next htake =>
    split at h
    next => cases h
    next hk =>
      rw [Keeps, Pruning.isKept, decide_eq_true_eq, ne_eq, Decidable.not_not] at hk
      obtain ⟨single, hsingle⟩ := List.length_eq_one_iff.mp hk
      have hnow := hσ f.var hvar
      rw [CanTake, hsingle, List.mem_singleton] at htake hnow
      exact hnow.trans htake.symm
  next => cases h

omit hσ in
theorem of_image_fact (hvar : f.var < t.vars.size) (h : t.pruning.image f = .fact g) :
    t.CanTake f.var f.value ∧ t.Keeps f.var ∧
      g = ⟨t.newNumber f.var, t.newValue f.var f.value⟩ := by
  rw [image_eq hw hvar] at h
  split at h
  next htake =>
    split at h
    next hk =>
      cases h
      exact ⟨htake, hk, rfl⟩
    next => cases h
  next => cases h

theorem holds_image_iff (hvar : f.var < t.vars.size) (h : t.pruning.image f = .fact g) :
    g.Holds (t.prunedValuation σ) ↔ f.Holds σ := by
  obtain ⟨-, hk, rfl⟩ := of_image_fact hw hvar h
  rw [Fact.Holds, prunedValuation_newNumber hw hσ hvar hk, Fact.Holds]
  exact List.idxOf_inj (hσ f.var hvar)

omit hw in
theorem possible_set (htake : t.CanTake f.var f.value) : t.Possible (f.set σ) := by
  intro var hvar
  by_cases hv : var = f.var
  · rw [hv, Fact.set, Function.update_self]
    exact htake
  · rw [Fact.set, Function.update_of_ne hv]
    exact hσ var hvar

/-- Setting a variable that is kept. -/
theorem prunedValuation_set (hvar : f.var < t.vars.size) (h : t.pruning.image f = .fact g) :
    t.prunedValuation (f.set σ) = g.set (t.prunedValuation σ) := by
  obtain ⟨htake, hk, rfl⟩ := of_image_fact hw hvar h
  refine prunedValuation_ext hw (possible_set hσ htake) hσ (fun w => ?_) fun u hu hku => ?_
  · by_cases hwv : w = t.newNumber f.var
    · exact .inr ⟨f.var, hvar, hk, hwv⟩
    · exact .inl (Function.update_of_ne hwv _ _)
  · by_cases huv : u = f.var
    · subst huv
      rw [Fact.set, Fact.set, Function.update_self, Function.update_self]
    · have hne : t.newNumber u ≠ t.newNumber f.var :=
        fun he => huv (newNumber_inj hw hku hk hu hvar he)
      rw [Fact.set, Fact.set, Function.update_of_ne huv, Function.update_of_ne hne,
        prunedValuation_newNumber hw hσ hu hku]

/-- A conjunction of facts has an image if it can hold, and the image holds if it does. -/
theorem facts?_eq_none {fs : List Fact} (hfs : ∀ f ∈ fs, f.var < t.vars.size)
    (h : t.pruning.facts? fs = none) : ¬ FactsHold σ fs := by
  rw [Pruning.facts?] at h
  split at h
  next hmem =>
    obtain ⟨f, hf, himage⟩ := List.mem_map.mp hmem
    exact fun hall => not_holds_of_image_never hw hσ (hfs f hf) himage (hall f hf)
  next => cases h

theorem factsHold_facts? {fs fs' : List Fact} (hfs : ∀ f ∈ fs, f.var < t.vars.size)
    (h : t.pruning.facts? fs = some fs') :
    FactsHold (t.prunedValuation σ) fs' ↔ FactsHold σ fs := by
  rw [Pruning.facts?] at h
  split at h
  next => cases h
  next hnever =>
    obtain rfl := Option.some.inj h
    constructor
    · intro hall f hf
      cases himage : t.pruning.image f with
      | always => exact holds_of_image_always hw hσ (hfs f hf) himage
      | never => exact absurd (List.mem_map.mpr ⟨f, hf, himage⟩) hnever
      | fact g =>
          refine (holds_image_iff hw hσ (hfs f hf) himage).mp (hall g ?_)
          exact List.mem_filterMap.mpr ⟨_, List.mem_map.mpr ⟨f, hf, himage⟩, rfl⟩
    · intro hall g hg
      obtain ⟨image, himage, hg⟩ := List.mem_filterMap.mp hg
      obtain ⟨f, hf, rfl⟩ := List.mem_map.mp himage
      cases himage : t.pruning.image f with
      | always => rw [himage] at hg; cases hg
      | never => rw [himage] at hg; cases hg
      | fact g' =>
          rw [himage] at hg
          cases hg
          exact (holds_image_iff hw hσ (hfs f hf) himage).mpr (hall f hf)

end Possible

/-- The facts of an image are the images of facts. -/
theorem mem_facts? {fs fs' : List Fact} (h : t.pruning.facts? fs = some fs') :
    g ∈ fs' ↔ ∃ f ∈ fs, t.pruning.image f = .fact g := by
  rw [Pruning.facts?] at h
  split at h
  next => cases h
  next =>
    obtain rfl := Option.some.inj h
    simp only [List.mem_filterMap, List.mem_map]
    constructor
    · rintro ⟨_, ⟨f, hf, rfl⟩, hg⟩
      refine ⟨f, hf, ?_⟩
      cases himage : t.pruning.image f with
      | always => rw [himage] at hg; cases hg
      | never => rw [himage] at hg; cases hg
      | fact g' => rw [himage] at hg; exact congrArg Image.fact (Option.some.inj hg)
    · rintro ⟨f, hf, himage⟩
      exact ⟨_, ⟨f, hf, rfl⟩, by rw [himage]; rfl⟩

end Task
end FiniteDomain
end FinitePlanning
