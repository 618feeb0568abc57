import Mathlib.Data.List.InsertIdx
import Mathlib.Data.List.Perm.Basic
import FinitePlanning.Proofs.Datalog.Splitting

/-!
The splitter does what the recursion on the conditions does. The numbers of occurrences are those in
the conditions that are left and in the head, so that they never become negative, and the costs are
those of the pairs that are left. None of the internal checks fails.
-/

namespace FinitePlanning
namespace Datalog

/-! ### Occurrences -/

namespace Occurrences

variable {o : Occurrences} {vs ws : List String} {v w : String} {p : Pattern}

/-- Each variable has as many occurrences as in a list. -/
def Counts (o : Occurrences) (vs : List String) : Prop :=
  ∀ v, o.lookup v = if vs.count v = 0 then none else some (vs.count v)

theorem Counts.perm (h : o.Counts vs) (hperm : vs.Perm ws) : o.Counts ws := fun v =>
  hperm.count_eq v ▸ h v

theorem Counts.contains_iff (h : o.Counts vs) : o.contains v = true ↔ v ∈ vs := by
  rw [contains, h v, ← List.count_pos_iff]
  split
  next hzero => simp [hzero]
  next hpos => simp [Nat.pos_of_ne_zero hpos]

/-- A change of the occurrences of one variable. -/
theorem Counts.change (h : o.Counts vs) {delta : Int}
    (hcount : (vs.count v : Int) + delta = ws.count v)
    (hothers : ∀ w, w ≠ v → vs.count w = ws.count w) :
    ∃ o', o.change? delta v = some o' ∧ o'.Counts ws := by
  have hold : (o.lookup v).getD 0 = vs.count v := by
    rw [h v]
    split
    next hzero => rw [hzero, Option.getD_none]
    next => rfl
  have hnew : ∀ w, w ≠ v → o.lookup w = if ws.count w = 0 then none else some (ws.count w) :=
    fun w hw => hothers w hw ▸ h w
  rw [change?, hold, hcount, if_neg (Int.not_lt.mpr (Int.natCast_nonneg _))]
  by_cases hzero : ws.count v = 0
  · refine ⟨_, if_pos (by rw [hzero]; rfl), fun w => ?_⟩
    rw [lookup_filter (fun w => decide (w ≠ v))]
    by_cases hw : w = v
    · rw [if_neg (by simpa using hw), hw, if_pos hzero]
    · rw [if_pos (by simpa using hw), hnew w hw]
  · refine ⟨_, if_neg (by exact_mod_cast hzero), fun w => ?_⟩
    rw [List.lookup_cons, Int.toNat_natCast, lookup_filter (fun w => decide (w ≠ v))]
    by_cases hw : w = v
    · rw [hw, beq_self_eq_true, if_neg hzero]
    · rw [beq_false_of_ne hw, if_pos (by simpa using hw)]
      exact hnew w hw

theorem Counts.add (h : o.Counts vs) (p : Pattern) :
    ∃ o', o.update? 1 p = some o' ∧ o'.Counts (p.vars ++ vs) := by
  rw [update?]
  generalize p.vars = us
  induction us generalizing o vs with
  | nil => exact ⟨o, rfl, h⟩
  | cons v us ih =>
      have hcount : (vs.count v : Int) + 1 = (v :: vs).count v := by
        rw [List.count_cons_self]
        rfl
      obtain ⟨o', ho', hv⟩ := h.change hcount fun w hw => (List.count_cons_of_ne hw.symm).symm
      obtain ⟨o'', ho'', hus⟩ := ih hv
      exact ⟨o'', by rw [List.foldlM_cons, ho']; exact ho'', hus.perm List.perm_middle⟩

theorem exists_count (ps : List Pattern) :
    ∃ o, count? ps = some o ∧ o.Counts (ps.flatMap Pattern.vars) := by
  have h : ∀ {o : Occurrences} {vs : List String}, o.Counts vs →
      ∃ o', ps.foldlM (fun o p => update? o 1 p) o = some o' ∧
        o'.Counts (ps.flatMap Pattern.vars ++ vs) := by
    induction ps with
    | nil => exact fun h => ⟨_, rfl, h⟩
    | cons p ps ih =>
        intro o vs h
        obtain ⟨o', ho', hp⟩ := h.add p
        obtain ⟨o'', ho'', hps⟩ := ih hp
        refine ⟨o'', by rw [List.foldlM_cons, ho']; exact ho'', hps.perm ?_⟩
        rw [List.flatMap_cons, List.append_assoc]
        exact List.perm_append_comm_assoc _ _ _
  obtain ⟨o, ho, hcounts⟩ := h (o := []) fun v => by rw [List.count_nil, if_pos rfl]; rfl
  exact ⟨o, ho, List.append_nil (ps.flatMap Pattern.vars) ▸ hcounts⟩

/-- The occurrences in one of the conditions are taken away again. -/
theorem Counts.remove (h : o.Counts (p.vars ++ vs)) :
    ∃ o', o.update? (-1) p = some o' ∧ o'.Counts vs := by
  rw [update?]
  generalize p.vars = us at h
  induction us generalizing o with
  | nil => exact ⟨o, rfl, h⟩
  | cons v us ih =>
      have hcount : ((v :: us ++ vs).count v : Int) + -1 = (us ++ vs).count v := by
        rw [List.cons_append, List.count_cons_self]
        omega
      obtain ⟨o', ho', hv⟩ := h.change hcount fun w hw => List.count_cons_of_ne hw.symm
      obtain ⟨o'', ho'', hus⟩ := ih hv
      exact ⟨o'', by rw [List.foldlM_cons, ho']; exact ho'', hus⟩

end Occurrences

/-! ### Costs -/

theorem takeAt?_eq {α : Type} {l : List α} {i : Nat} (h : i < l.length) :
    takeAt? l i = some (l[i], l.eraseIdx i) := by
  rw [takeAt?, List.getElem?_eq_getElem h, Option.map_some]

theorem take_eraseIdx_of_le {α : Type} (l : List α) {i k : Nat} (h : i ≤ k) :
    (l.eraseIdx i).take k = (l.take (k + 1)).eraseIdx i := by
  refine List.ext_getElem? fun n => ?_
  rw [List.getElem?_take, List.getElem?_eraseIdx, List.getElem?_eraseIdx, List.getElem?_take,
    List.getElem?_take]
  split <;> split <;> first | rfl | omega | (split <;> first | rfl | omega)

theorem mapM_eq_some_map {α β : Type} {f : α → Option β} {g : α → β} {l : List α}
    (h : ∀ x ∈ l, f x = some (g x)) : l.mapM f = some (l.map g) := by
  induction l with
  | nil => rfl
  | cons x l ih =>
      rw [List.forall_mem_cons] at h
      rw [List.mapM_cons, h.1, ih h.2]
      rfl

theorem zipIdx_map_range {α : Type} (f : Nat → α) (n : Nat) :
    ((List.range n).map f).zipIdx = (List.range n).map fun i => (f i, i) := by
  refine List.ext_getElem? fun i => ?_
  rw [List.getElem?_zipIdx, List.getElem?_map, List.getElem?_map, Option.map_map]
  by_cases h : i < n
  · simp [List.getElem?_range h]
  · simp [h]

namespace CostMatrix

variable {m : CostMatrix} {conditions : List Pattern} {i j : Nat}

/-- The matrix has the costs of the pairs of conditions. -/
structure IsMatrix (m : CostMatrix) (conditions : List Pattern) : Prop where
  joinees : m.joinees = conditions
  costs : ∀ i : Nat, m.costs[i]? = conditions[i]?.map fun p => (conditions.take i).map (joinCost p)

theorem isMatrix_empty : IsMatrix {} [] := ⟨rfl, fun _ => rfl⟩

theorem IsMatrix.length (h : m.IsMatrix conditions) : m.costs.length = conditions.length := by
  refine Nat.le_antisymm ?_ ?_ <;> refine Nat.le_of_not_lt fun hlt => ?_
  · have := h.costs conditions.length
    simp [hlt] at this
  · have := h.costs m.costs.length
    simp [hlt] at this

theorem IsMatrix.add (h : m.IsMatrix conditions) (p : Pattern) :
    (m.add p).IsMatrix (conditions ++ [p]) where
  joinees := by rw [CostMatrix.add, h.joinees]
  costs i := by
    rw [CostMatrix.add, List.getElem?_append, List.getElem?_append, h.length, h.joinees]
    split
    next hi => rw [h.costs, List.take_append_of_le_length (Nat.le_of_lt hi)]
    next hi =>
      rw [List.getElem?_singleton, List.getElem?_singleton]
      split
      next hzero =>
        obtain rfl : i = conditions.length := by omega
        rw [Option.map_some, List.take_left]
      next => rfl

theorem isMatrix_foldl (conditions : List Pattern) :
    (conditions.foldl CostMatrix.add {}).IsMatrix conditions := by
  have h : ∀ (back : List Pattern) {m : CostMatrix} {front : List Pattern}, m.IsMatrix front →
      (back.foldl CostMatrix.add m).IsMatrix (front ++ back) := by
    intro back
    induction back with
    | nil =>
        intro m front hm
        rwa [List.append_nil]
    | cons p back ih =>
        intro m front hm
        exact List.append_cons front p back ▸ ih (hm.add p)
  exact h conditions isMatrix_empty

/-- The costs of the other pairs are left when a condition is taken out. -/
theorem IsMatrix.remove (h : m.IsMatrix conditions) (hi : i < conditions.length) :
    ∃ rest, m.remove? i = some (conditions.getD i default, rest) ∧
      rest.IsMatrix (conditions.eraseIdx i) := by
  have hlater : (m.costs.drop (i + 1)).mapM (fun row => (takeAt? row i).map (·.2)) =
      some ((m.costs.drop (i + 1)).map (·.eraseIdx i)) := by
    refine mapM_eq_some_map fun row hrow => ?_
    obtain ⟨k, hk⟩ := List.mem_iff_getElem?.mp hrow
    rw [List.getElem?_drop, h.costs] at hk
    obtain ⟨p, hp, rfl⟩ := Option.map_eq_some_iff.mp hk
    have hlt := (List.getElem?_eq_some_iff.mp hp).1
    rw [takeAt?_eq (by rw [List.length_map, List.length_take]; omega), Option.map_some]
  have hcosts : i < (m.costs.take (i + 1) ++ (m.costs.drop (i + 1)).map (·.eraseIdx i)).length := by
    rw [List.length_append, List.length_take, h.length]
    omega
  have hget : conditions.getD i default = conditions[i] := by
    rw [List.getD_eq_getElem?_getD, List.getElem?_eq_getElem hi, Option.getD_some]
  refine ⟨⟨conditions.eraseIdx i, (m.costs.take (i + 1) ++
    (m.costs.drop (i + 1)).map (·.eraseIdx i)).eraseIdx i⟩, ?_, rfl, fun k => ?_⟩
  · simp only [remove?, hlater, h.joinees, takeAt?_eq hcosts, takeAt?_eq hi, Option.bind_eq_bind,
      Option.bind_some, Option.pure_def, hget]
  · rw [List.getElem?_eraseIdx, List.getElem?_eraseIdx]
    split
    next hk =>
      rw [List.getElem?_append_left (by rw [List.length_take, h.length]; omega),
        List.getElem?_take_of_lt (by omega), h.costs,
        List.take_eraseIdx_eq_take_of_le _ _ _ (Nat.le_of_lt hk)]
    next hk =>
      have hlength : (m.costs.take (i + 1)).length = i + 1 := by
        rw [List.length_take, h.length]
        omega
      rw [List.getElem?_append_right (by omega), hlength, List.getElem?_map, List.getElem?_drop,
        show i + 1 + (k + 1 - (i + 1)) = k + 1 by omega, h.costs, Option.map_map,
        take_eraseIdx_of_le _ (Nat.le_of_not_lt hk)]
      refine congrArg (conditions[k + 1]?.map ·) (funext fun p => ?_)
      exact List.eraseIdx_map _ _ _

/-- The rows of the matrix in terms of the positions. -/
theorem IsMatrix.costs_eq (h : m.IsMatrix conditions) :
    m.costs = (List.range conditions.length).map fun i => (List.range i).map fun j =>
      joinCost (conditions.getD i default) (conditions.getD j default) := by
  refine List.ext_getElem? fun i => ?_
  rw [h.costs, List.getElem?_map]
  by_cases hi : i < conditions.length
  · rw [List.getElem?_eq_getElem hi, List.getElem?_range hi, Option.map_some, Option.map_some,
      List.getD_eq_getElem?_getD, List.getElem?_eq_getElem hi, Option.getD_some]
    refine congrArg some (List.ext_getElem? fun j => ?_)
    rw [List.getElem?_map, List.getElem?_map, List.getElem?_take]
    split
    next hj =>
      rw [List.getElem?_range hj, Option.map_some, List.getD_eq_getElem?_getD,
        List.getElem?_eq_getElem (hj.trans hi)]
      rfl
    next hj => simp [hj]
  · simp [hi]

/-- The cost of the best pair so far may be kept with it. -/
theorem foldl_best_map (cost : Nat × Nat → JoinCost) (pairs : List (Nat × Nat))
    (best? : Option (Nat × Nat)) :
    pairs.foldl (fun best? pair =>
        match best? with
        | none => some (cost pair, pair)
        | some best => if (cost pair).lt best.1 then some (cost pair, pair) else some best)
      (best?.map fun pair => (cost pair, pair)) =
    (pairs.foldl (fun best? pair =>
        match best? with
        | none => some pair
        | some best => if (cost pair).lt (cost best) then some pair else some best)
      best?).map fun pair => (cost pair, pair) := by
  induction pairs generalizing best? with
  | nil => rfl
  | cons pair pairs ih =>
      rw [List.foldl_cons, List.foldl_cons, ← ih]
      refine congrArg (pairs.foldl _ ·) ?_
      cases best? with
      | none => rfl
      | some best =>
          simp only [Option.map_some]
          split <;> rfl

theorem IsMatrix.minPair (h : m.IsMatrix conditions) : m.minPair? = cheapestPair? conditions := by
  let cost (pair : Nat × Nat) := joinCost (conditions.getD pair.1 default)
    (conditions.getD pair.2 default)
  have hentries :
      m.entries = (positionPairs conditions.length).map fun pair => (cost pair, pair) := by
    rw [entries, h.costs_eq, zipIdx_map_range, List.flatMap_map, positionPairs, List.map_flatMap]
    refine List.flatMap_congr fun i _ => ?_
    simp only [zipIdx_map_range, List.map_map]
    rfl
  rw [minPair?, hentries, List.foldl_map, cheapestPair?]
  exact (congrArg (Option.map (·.2)) (foldl_best_map cost _ none)).trans
    ((Option.map_map ..).trans Option.map_id')

theorem getD_eraseIdx_of_lt {α : Type} (l : List α) (default : α) (hj : j < i) :
    (l.eraseIdx i).getD j default = l.getD j default := by
  rw [List.getD_eq_getElem?_getD, List.getD_eq_getElem?_getD, List.getElem?_eraseIdx, if_pos hj]

theorem IsMatrix.removeMinPair (h : m.IsMatrix conditions)
    (hpair : cheapestPair? conditions = some (i, j)) (hj : j < i) (hi : i < conditions.length) :
    ∃ rest, m.removeMinPair? = some (conditions.getD i default, conditions.getD j default, rest) ∧
      rest.IsMatrix (withoutPair conditions i j) := by
  obtain ⟨other, hleft, hother⟩ := h.remove hi
  obtain ⟨rest, hright, hrest⟩ := hother.remove (i := j)
    (by rw [List.length_eraseIdx_of_lt hi]; omega)
  rw [getD_eraseIdx_of_lt _ _ hj] at hright
  refine ⟨rest, ?_, hrest⟩
  simp only [removeMinPair?, h.minPair, hpair, hleft, hright, Option.bind_eq_bind,
    Option.bind_some, Option.pure_def]

end CostMatrix

/-- The two conditions of a pair and those that are left. -/
theorem perm_withoutPair {conditions : List Pattern} {i j : Nat} (hj : j < i)
    (hi : i < conditions.length) : conditions.Perm (conditions.getD i default ::
      conditions.getD j default :: withoutPair conditions i j) := by
  have hget : ∀ {l : List Pattern} {k : Nat}, k < l.length →
      l.Perm (l.getD k default :: l.eraseIdx k) := by
    intro l k hk
    rw [List.getD_eq_getElem?_getD, List.getElem?_eq_getElem hk, Option.getD_some]
    exact (List.getElem_cons_eraseIdx_perm hk).symm
  have hlength : j < (conditions.eraseIdx i).length := by
    rw [List.length_eraseIdx_of_lt hi]
    omega
  exact (hget hi).trans (((CostMatrix.getD_eraseIdx_of_lt conditions default hj) ▸
    hget hlength).cons _)

/-! ### Runs of the splitter -/

namespace Splitter

variable {α β : Type} {s : Splitter}

theorem run_bind_of_run {x : Run α} {f : α → Run β} {a : α} {s' : Splitter}
    (h : x.run s = some (a, s')) : (x >>= f).run s = (f a).run s' := by
  rw [StateT.run_bind, h]
  rfl

/-- The splitter does what a recursion says, which lists its rules apart. -/
def Performs (x : Run α) (y : Splitting (α × List SplitRule)) : Prop :=
  ∀ s : Splitter, x.run s = some ((y.run s.toSplitState).1.1,
    ⟨(y.run s.toSplitState).2, s.result ++ (y.run s.toSplitState).1.2⟩)

theorem Performs.run {x : Run α} {y : Splitting (α × List SplitRule)} (h : Performs x y) {a : α}
    {rules : List SplitRule} {s' : SplitState} (hy : y.run s.toSplitState = ((a, rules), s')) :
    x.run s = some (a, ⟨s', s.result ++ rules⟩) := by
  rw [h s, hy]

theorem fresh_run (vars : List String) (s : Splitter) :
    (fresh vars).run s = some (((freshPattern vars).run s.toSplitState).1,
      ⟨((freshPattern vars).run s.toSplitState).2, s.result⟩) :=
  rfl

theorem push_run (r : SplitRule) (s : Splitter) :
    (push r).run s = some ((), ⟨s.toSplitState, s.result ++ [r]⟩) :=
  rfl

theorem liftM_run {x : Option α} {a : α} (h : x = some a) (s : Splitter) :
    (liftM x : Run α).run s = some (a, s) := by
  rw [h]
  rfl

theorem performs_projectTo (retained : List String) (p : Pattern) :
    Performs (projectTo retained p) (Datalog.projectTo retained p) := by
  intro s
  rw [projectTo, Datalog.projectTo]
  by_cases hall : (variableSet [p]).filter (· ∈ retained) = variableSet [p]
  · simp only [hall, if_true]
    exact congrArg (fun rules => some (p, Splitter.mk s.toSplitState rules))
      (List.append_nil _).symm
  · simp only [hall, if_false]
    rfl

theorem joinPairs_eq {o : Occurrences} {m rest : CostMatrix} {left right : Pattern}
    (hlen : 2 ≤ m.joinees.length) (h : m.removeMinPair? = some (left, right, rest)) :
    joinPairs o m = (do
      let o ← (liftM (o.update? (-1) left) : Run Occurrences)
      let o ← (liftM (o.update? (-1) right) : Run Occurrences)
      let l ← projectTo ((variableSet [left, right]).filter (o.contains ·) ++
        left.vars.filter (· ∈ right.vars)) left
      let r ← projectTo ((variableSet [left, right]).filter (o.contains ·) ++
        left.vars.filter (· ∈ right.vars)) right
      let joint ← fresh ((variableSet [left, right]).filter (o.contains ·))
      push ⟨⟨[l, r], joint⟩, .join⟩
      let o ← (liftM (o.update? 1 joint) : Run Occurrences)
      joinPairs o (rest.add joint)) := by
  rw [joinPairs, if_neg (Nat.not_lt.mpr hlen)]
  split
  next hnone => cases hnone.symm.trans h
  next hsome =>
    cases hsome.symm.trans h
    rfl

/-- The variables that still occur after two conditions were taken out are those that are needed. -/
theorem exists_needed {head : Pattern} {conditions : List Pattern} {o : Occurrences} {i j : Nat}
    (ho : o.Counts (conditions.flatMap Pattern.vars ++ head.vars)) (hj : j < i)
    (hi : i < conditions.length) :
    ∃ o₁ o₂, o.update? (-1) (conditions.getD i default) = some o₁ ∧
      o₁.update? (-1) (conditions.getD j default) = some o₂ ∧
      o₂.Counts ((withoutPair conditions i j).flatMap Pattern.vars ++ head.vars) ∧
      (variableSet [conditions.getD i default, conditions.getD j default]).filter
        (o₂.contains ·) = jointVariables head conditions i j := by
  have hperm := ((perm_withoutPair hj hi).flatMap_right Pattern.vars).append_right head.vars
  rw [List.flatMap_cons, List.flatMap_cons, List.append_assoc, List.append_assoc] at hperm
  obtain ⟨o₁, ho₁, hc₁⟩ := (ho.perm hperm).remove
  obtain ⟨o₂, ho₂, hc₂⟩ := hc₁.remove
  refine ⟨o₁, o₂, ho₁, ho₂, hc₂, List.filter_congr fun v _ => ?_⟩
  rw [Bool.eq_iff_iff, hc₂.contains_iff, decide_eq_true_iff, neededVariables, List.mem_append,
    List.mem_append, or_comm]

/-- A step of the splitter joins the pair that the recursion joins, and leaves the counts and the
costs of the conditions with which the recursion goes on. -/
theorem exists_step {head : Pattern} {conditions : List Pattern} {o : Occurrences}
    {m : CostMatrix} (hm : m.IsMatrix conditions)
    (ho : o.Counts (conditions.flatMap Pattern.vars ++ head.vars))
    (hlen : 2 ≤ conditions.length) (s : Splitter) :
    ∃ (i j : Nat) (aux : List SplitRule) (body : List Pattern) (joint : Pattern)
      (o' : Occurrences) (m' : CostMatrix) (s' : SplitState), j < i ∧ i < conditions.length ∧
      m'.IsMatrix (withoutPair conditions i j ++ [joint]) ∧
      o'.Counts ((withoutPair conditions i j ++ [joint]).flatMap Pattern.vars ++ head.vars) ∧
      (joinAll head conditions).run s.toSplitState =
        (if withoutPair conditions i j = [] then
          pure (aux ++ [(⟨⟨body, head⟩, .join⟩ : SplitRule)])
        else do
          let later ← joinAll head (withoutPair conditions i j ++ [joint])
          return aux ++ [(⟨⟨body, joint⟩, .join⟩ : SplitRule)] ++ later).run s' ∧
      (joinPairs o m).run s =
        (joinPairs o' m').run ⟨s', s.result ++ aux ++ [⟨⟨body, joint⟩, .join⟩]⟩ := by
  obtain ⟨i, j, hpair, hj, hi⟩ := exists_cheapestPair hlen
  obtain ⟨rest, hremoved, hrest⟩ := hm.removeMinPair hpair hj hi
  obtain ⟨o₁, o₂, ho₁, ho₂, hcounts, hneeded⟩ := exists_needed ho hj hi
  have hlength := length_withoutPair hj hi
  -- the steps of the recursion
  obtain ⟨⟨⟨l, first⟩, s₁⟩, hl⟩ : ∃ x, (Datalog.projectTo (retainedVariables head conditions i j)
    (conditions.getD i default)).run s.toSplitState = x := ⟨_, rfl⟩
  obtain ⟨⟨⟨r, second⟩, s₂⟩, hr⟩ : ∃ x, (Datalog.projectTo (retainedVariables head conditions i j)
    (conditions.getD j default)).run s₁ = x := ⟨_, rfl⟩
  obtain ⟨⟨joint, s₃⟩, hjoint⟩ : ∃ x, (freshPattern (jointVariables head conditions i j)).run s₂ =
    x := ⟨_, rfl⟩
  obtain ⟨o₃, ho₃, hcounts'⟩ := hcounts.add joint
  have hperm : (joint.vars ++ ((withoutPair conditions i j).flatMap Pattern.vars ++ head.vars)).Perm
      ((withoutPair conditions i j ++ [joint]).flatMap Pattern.vars ++ head.vars) := by
    rw [List.flatMap_append, List.flatMap_singleton, List.append_assoc]
    exact List.perm_append_comm_assoc _ _ _
  refine ⟨i, j, first ++ second, [l, r], joint, o₃, rest.add joint, s₃, hj, hi, hrest.add joint,
    hcounts'.perm hperm, ?plain, ?splitter⟩
  case plain =>
    rw [joinAll_eq hpair, FinitePlanning.run_bind_of_run hl, FinitePlanning.run_bind_of_run hr,
      FinitePlanning.run_bind_of_run hjoint]
    by_cases hnil : withoutPair conditions i j = []
    · rw [if_pos (List.isEmpty_iff.mpr hnil), if_pos hnil]
    · rw [if_neg (by simpa using hnil), if_neg hnil, if_pos (by omega)]
  case splitter =>
    have hretained : jointVariables head conditions i j ++ (conditions.getD i default).vars.filter
        (· ∈ (conditions.getD j default).vars) = retainedVariables head conditions i j := rfl
    have hjoint : (fresh (jointVariables head conditions i j)).run
        ⟨s₂, s.result ++ first ++ second⟩ = some (joint, ⟨s₃, s.result ++ first ++ second⟩) := by
      rw [fresh_run, hjoint]
    rw [joinPairs_eq (by rw [hm.joinees]; exact hlen) hremoved,
      run_bind_of_run (liftM_run ho₁ s), run_bind_of_run (liftM_run ho₂ s), hneeded, hretained,
      run_bind_of_run ((performs_projectTo _ _).run hl),
      run_bind_of_run ((performs_projectTo _ _).run hr), run_bind_of_run hjoint,
      run_bind_of_run (push_run _ _), run_bind_of_run (liftM_run ho₃ _), List.append_assoc s.result]

/-- The rules of the joins, the last one of which still has a head of its own. -/
theorem joinPairs_run {head : Pattern} {conditions : List Pattern} {o : Occurrences}
    {m : CostMatrix} (hm : m.IsMatrix conditions)
    (ho : o.Counts (conditions.flatMap Pattern.vars ++ head.vars))
    (hlen : 2 ≤ conditions.length) (s : Splitter) :
    ∃ s' rules last, (joinAll head conditions).run s.toSplitState =
        (rules ++ [{ last with head := head }], s') ∧
      (joinPairs o m).run s = some ((), ⟨s', s.result ++ (rules ++ [last])⟩) := by
  -- each join leaves one condition fewer
  induction hn : conditions.length using Nat.strongRecOn generalizing conditions o m s with
  | ind n ih =>
    obtain ⟨i, j, aux, body, joint, o', m', s₁, hj, hi, hm', ho', hplain, hsplitter⟩ :=
      exists_step hm ho hlen s
    have hlength := length_withoutPair hj hi
    have hleft : (withoutPair conditions i j ++ [joint]).length + 1 = conditions.length := by
      rw [List.length_append, List.length_singleton]
      omega
    rw [hplain, hsplitter]
    by_cases hnil : withoutPair conditions i j = []
    · refine ⟨s₁, aux, ⟨⟨body, joint⟩, .join⟩, by rw [if_pos hnil]; rfl, ?_⟩
      rw [hnil, List.length_nil] at hlength
      rw [joinPairs, if_pos (by rw [hm'.joinees]; omega), ← List.append_assoc]
      rfl
    · have hpos := List.length_pos_iff.mpr hnil
      obtain ⟨s', rules, last, hplain', hsplitter'⟩ := ih _ (by omega) hm' ho' (by omega)
        ⟨s₁, s.result ++ aux ++ [⟨⟨body, joint⟩, .join⟩]⟩ rfl
      refine ⟨s', aux ++ [⟨⟨body, joint⟩, .join⟩] ++ rules, last, ?_, ?_⟩
      · rw [if_neg hnil, FinitePlanning.run_bind_of_run hplain']
        exact congrArg (·, s') (List.append_assoc _ _ _).symm
      · rw [hsplitter']
        simp only [List.append_assoc]

theorem withLastHead_append (head : Pattern) (before rules : List SplitRule) (last : SplitRule) :
    withLastHead head (before ++ (rules ++ [last])) = before ++ (rules ++ [{ last with head }]) := by
  rw [← List.append_assoc, withLastHead, List.getLast?_concat, List.dropLast_concat,
    ← List.append_assoc]

theorem performs_greedyJoin {head : Pattern} {body : List Pattern} (h : 2 ≤ body.length) :
    Performs (greedyJoin head body) (((), ·) <$> joinAll head body) := by
  intro s
  obtain ⟨o, ho, hcounts⟩ := Occurrences.exists_count (head :: body)
  obtain ⟨s', rules, last, hplain, hjoin⟩ := joinPairs_run (CostMatrix.isMatrix_foldl body)
    (hcounts.perm List.perm_append_comm) h s
  have hget : ∀ s : Splitter, (get : Run Splitter).run s = some (s, s) := fun _ => rfl
  have hlonger : ¬ (s.result ++ (rules ++ [last])).length ≤ s.result.length := by
    rw [List.length_append, List.length_append, List.length_singleton]
    omega
  rw [greedyJoin, run_bind_of_run (liftM_run ho s), run_bind_of_run (hget s),
    run_bind_of_run hjoin, run_bind_of_run (hget _), if_neg hlonger, withLastHead_append,
    StateT.run_map, hplain]
  rfl

theorem performs_splitConnected (head : Pattern) (body : List Pattern) :
    Performs (splitConnected head body) (((), ·) <$> Datalog.splitConnected head body) := by
  rw [splitConnected, Datalog.splitConnected]
  split
  next => exact fun s => push_run _ s
  next hlong => exact performs_greedyJoin (by omega)

/-- The rules for the elements of a list follow each other. -/
theorem performs_mapM {γ : Type} {f : γ → Run α} {g : γ → Splitting (α × List SplitRule)}
    (h : ∀ x, Performs (f x) (g x)) (xs : List γ) :
    Performs (xs.mapM f)
      ((fun parts => (parts.map (·.1), parts.flatMap (·.2))) <$> xs.mapM g) := by
  induction xs with
  | nil =>
      exact fun s => congrArg (fun rules => some ([], Splitter.mk s.toSplitState rules))
        (List.append_nil _).symm
  | cons x xs ih =>
      intro s
      obtain ⟨⟨⟨a, rules⟩, s₁⟩, hx⟩ : ∃ y, (g x).run s.toSplitState = y := ⟨_, rfl⟩
      obtain ⟨⟨parts, s₂⟩, hxs⟩ : ∃ y, (xs.mapM g).run s₁ = y := ⟨_, rfl⟩
      have hplain : ((fun parts => (parts.map (·.1), parts.flatMap (·.2))) <$> xs.mapM g).run s₁ =
          ((parts.map (·.1), parts.flatMap (·.2)), s₂) := by
        rw [StateT.run_map, hxs]
        rfl
      rw [List.mapM_cons, List.mapM_cons, run_bind_of_run ((h x).run hx),
        run_bind_of_run (ih.run hplain), StateT.run_map, FinitePlanning.run_bind_of_run hx,
        FinitePlanning.run_bind_of_run hxs]
      exact congrArg (fun rules => some (_, Splitter.mk s₂ rules)) (List.append_assoc _ _ _)

/-- The rules for several components, and the one that combines them with the trivial conditions. -/
theorem performs_parts (head : Pattern) (cs : List (List Pattern)) (trivial : List Pattern) :
    Performs
      (do
        let parts ← cs.mapM fun component => do
          let projected ← fresh ((variableSet component).filter (· ∈ head.vars))
          splitConnected projected component
          return projected
        let combined := parts ++ trivial
        let kind := if 2 ≤ combined.length then RuleKind.product else .project
        push { kind, body := combined, head })
      (((), ·) <$> do
        let parts ← cs.mapM fun component => do
          let projected ← freshPattern ((variableSet component).filter (· ∈ head.vars))
          return (projected, ← Datalog.splitConnected projected component)
        let combined := parts.map (·.1) ++ trivial
        let kind := if 2 ≤ combined.length then RuleKind.product else .project
        return parts.flatMap (·.2) ++ [{ kind, body := combined, head }]) := by
  have hpart : ∀ component, Performs
      (do
        let projected ← fresh ((variableSet component).filter (· ∈ head.vars))
        splitConnected projected component
        return projected)
      (do
        let projected ← freshPattern ((variableSet component).filter (· ∈ head.vars))
        return (projected, ← Datalog.splitConnected projected component)) := by
    intro component s
    rw [run_bind_of_run (fresh_run _ s), run_bind_of_run (performs_splitConnected _ component _)]
    rfl
  intro s
  rw [run_bind_of_run (performs_mapM hpart cs s), push_run]
  exact congrArg (fun rules => some ((), Splitter.mk _ rules)) (List.append_assoc _ _ _)

theorem performs_splitRule (r : Rule) :
    Performs (splitRule r) (((), ·) <$> Datalog.splitRule r) := by
  rw [splitRule, Datalog.splitRule]
  dsimp only
  generalize components (r.body.filter Pattern.hasVariables) = cs
  generalize r.body.filter (!·.hasVariables) = trivial
  rcases cs with _ | ⟨body, _ | ⟨other, cs⟩⟩
  case cons.nil =>
    cases trivial with
    | nil => exact performs_splitConnected r.head body
    | cons t trivial => exact performs_parts r.head [body] (t :: trivial)
  all_goals exact performs_parts r.head _ trivial

theorem performs_forM (rules : List Rule) : Performs (forM rules splitRule)
    ((fun parts => ((), parts.flatten)) <$> rules.mapM Datalog.splitRule) := by
  induction rules with
  | nil =>
      exact fun s => congrArg (fun rules => some ((), Splitter.mk s.toSplitState rules))
        (List.append_nil _).symm
  | cons r rules ih =>
      intro s
      rw [List.forM_cons, List.mapM_cons, run_bind_of_run (performs_splitRule r s), ih]
      exact congrArg (fun rules => some ((), Splitter.mk _ rules)) (List.append_assoc _ _ _)

end Splitter

/-- None of the internal checks of the splitter fails, and its rules are those of the recursion. -/
theorem splitRules?_eq (symbols : SymbolTable) (rules : List Rule) :
    splitRules? symbols rules = some (splitAll symbols rules) := by
  rw [splitRules?, Splitter.performs_forM]
  rfl

theorem splitRules_eq (symbols : SymbolTable) (rules : List Rule) :
    splitRules symbols rules = splitAll symbols rules := by
  rw [splitRules, splitRules?_eq, Option.getD_some]

end Datalog
end FinitePlanning
