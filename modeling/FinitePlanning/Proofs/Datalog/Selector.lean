import FinitePlanning.Datalog.Selector

/-!
What a selector finds. Adding an entry makes one new path to it, on which exactly its constants are
tested, and keeps all other paths. So an entry is found as often as it was added with constants that
agree with the arguments. On each path the arguments are tested in the order of their positions.
-/

namespace FinitePlanning
namespace Datalog

/-- The arguments at some positions have the given values. -/
def Agrees (args : List ObjectId) (constants : List (Nat × ObjectId)) : Prop :=
  ∀ c ∈ constants, args[c.1]? = some c.2

instance (args : List ObjectId) (constants : List (Nat × ObjectId)) :
    Decidable (Agrees args constants) :=
  inferInstanceAs (Decidable (∀ c ∈ constants, args[c.1]? = some c.2))

theorem agrees_nil (args : List ObjectId) : Agrees args [] := nofun

theorem agrees_cons {args : List ObjectId} {c : Nat × ObjectId}
    {constants : List (Nat × ObjectId)} :
    Agrees args (c :: constants) ↔ args[c.1]? = some c.2 ∧ Agrees args constants := by
  simp [Agrees]

/-- Constants in the order of their positions, which are at least `low` and less than `high`. -/
structure AreWithin (low high : Nat) (constants : List (Nat × ObjectId)) : Prop where
  sorted : constants.Pairwise (·.1 < ·.1)
  low_le : ∀ c ∈ constants, low ≤ c.1
  lt_high : ∀ c ∈ constants, c.1 < high

theorem AreWithin.tail {low high : Nat} {c : Nat × ObjectId} {constants : List (Nat × ObjectId)}
    (h : AreWithin low high (c :: constants)) : AreWithin (c.1 + 1) high constants where
  sorted := (List.pairwise_cons.mp h.sorted).2
  low_le := (List.pairwise_cons.mp h.sorted).1
  lt_high d hd := h.lt_high d (List.mem_cons_of_mem c hd)

namespace Selector

variable {α : Type} {args : List ObjectId} {entry e : α} {constants : List (Nat × ObjectId)}

/-- What an entry contributes to a selection. -/
def hits (args : List ObjectId) (constants : List (Nat × ObjectId)) (entry : α) : List α :=
  if Agrees args constants then [entry] else []

@[simp] theorem hits_nil : hits args [] entry = [entry] :=
  if_pos (agrees_nil args)

theorem hits_cons (position : Nat) (value : ObjectId) :
    hits args ((position, value) :: constants) entry =
      if args[position]? = some value then hits args constants entry else [] := by
  simp only [hits, agrees_cons]
  split
  next h => rw [if_pos h.1, if_pos h.2]
  next h => rw [ite_eq_right_iff.mpr fun hvalue => if_neg fun hrest => h ⟨hvalue, hrest⟩]

theorem mem_hits : e ∈ hits args constants entry ↔ e = entry ∧ Agrees args constants := by
  rw [hits]
  split
  next h => simp [h]
  next h => simp [h]

/-- What is found in the branches of a node. -/
def selectAt (args : List ObjectId) (position : Nat) (branches : Branches α) : List α :=
  match args[position]? with
  | some value => selectBranch args value branches
  | none => []

theorem select_node (position : Nat) (entries : List α) (branches : Branches α)
    (next : Selector α) : select args (.node position entries branches next) =
      entries ++ selectAt args position branches ++ select args next := by
  rw [select]
  rfl

theorem selectAt_single (position : Nat) (value : ObjectId) (s : Selector α) :
    selectAt args position (.cons value s .empty) =
      if args[position]? = some value then select args s else [] := by
  rw [selectAt]
  cases args[position]? with
  | none => rfl
  | some v => simp only [selectBranch, Option.some.injEq, eq_comm]

theorem select_chain : select args (chain entry constants) = hits args constants entry := by
  induction constants with
  | nil => rw [chain, select, hits_nil]
  | cons c constants ih =>
      rw [chain, select_node, selectAt_single, ih, hits_cons, select, List.nil_append,
        List.append_nil]

theorem select_withEntries {entries : List α} {c : Nat × ObjectId} :
    select args ((chain entry (c :: constants)).withEntries entries) =
      entries ++ select args (chain entry (c :: constants)) := by
  simp only [chain, withEntries, select_node, List.nil_append, List.append_assoc]

theorem perm_append_between {left between right : List α} :
    (left ++ between ++ right).Perm (left ++ right ++ between) := by
  rw [List.append_assoc, List.append_assoc]
  exact List.perm_append_comm.append_left left

mutual

/-- An entry that is added is found in addition to the others, if its constants agree with the
arguments. -/
theorem select_insert (constants : List (Nat × ObjectId)) (s : Selector α) :
    (select args (insert constants entry s)).Perm (select args s ++ hits args constants entry) := by
  cases s with
  | leaf entries =>
      cases constants with
      | nil => rw [insert, select, select, hits_nil]
      | cons c constants => rw [insert, select_withEntries, select_chain, select]; exact nofun
  | node position entries branches next =>
      cases constants with
      | nil =>
          have hperm :
              (entries ++ [entry] ++ (selectAt args position branches ++ select args next)).Perm
                (entries ++ (selectAt args position branches ++ select args next) ++ [entry]) :=
            perm_append_between
          rw [insert, select_node, select_node, hits_nil]
          simpa only [List.append_assoc] using hperm
      | cons c constants =>
          obtain ⟨p, value⟩ := c
          rw [insert]
          split
          next =>
            rw [select_node, select_node, List.append_assoc _ (select args next)]
            exact (select_insert ((p, value) :: constants) next).append_left _
          next =>
            split
            next =>
              rw [select_node, selectAt_single, select_chain, ← hits_cons, List.nil_append]
              exact List.perm_append_comm
            next hlt hgt =>
              obtain rfl : position = p := by omega
              have hbranches : (selectAt args position
                  (insertBranch value constants entry branches)).Perm
                  (selectAt args position branches ++
                    hits args ((position, value) :: constants) entry) := by
                rw [hits_cons, selectAt, selectAt]
                cases args[position]? with
                | none => simp
                | some v => simpa using selectBranch_insertBranch v value constants branches
              rw [select_node, select_node]
              refine ((hbranches.append_left entries).append_right _).trans ?_
              rw [← List.append_assoc]
              exact perm_append_between

theorem selectBranch_insertBranch (v value : ObjectId) (constants : List (Nat × ObjectId))
    (bs : Branches α) :
    (selectBranch args v (insertBranch value constants entry bs)).Perm
      (selectBranch args v bs ++ if v = value then hits args constants entry else []) := by
  cases bs with
  | empty =>
      rw [insertBranch, selectBranch, selectBranch, selectBranch, select_chain, List.nil_append]
      simp only [eq_comm (a := value)]
      exact .refl _
  | cons w s rest =>
      rw [insertBranch]
      by_cases hw : w = value
      · subst hw
        rw [if_pos rfl, selectBranch, selectBranch]
        by_cases hv : w = v
        · rw [if_pos hv, if_pos hv, if_pos hv.symm]
          exact select_insert constants s
        · rw [if_neg hv, if_neg hv, if_neg (Ne.symm hv), List.append_nil]
      · rw [if_neg hw, selectBranch, selectBranch]
        by_cases hv : w = v
        · rw [if_pos hv, if_pos hv, if_neg (hv ▸ hw), List.append_nil]
        · rw [if_neg hv, if_neg hv]
          exact selectBranch_insertBranch v value constants rest

end

theorem mem_select_insert (constants : List (Nat × ObjectId)) (s : Selector α) :
    e ∈ select args (insert constants entry s) ↔
      e ∈ select args s ∨ e = entry ∧ Agrees args constants := by
  rw [(select_insert constants s).mem_iff, List.mem_append, mem_hits]

/-! ### The order of the tests -/

variable {low high : Nat}

mutual

/-- On each path, arguments are tested in the order of their positions, which are at least `low` and
less than `high`. -/
def IsOrdered (low high : Nat) : Selector α → Prop
  | .leaf _ => True
  | .node position _ branches next => low ≤ position ∧ position < high ∧
    AreOrdered (position + 1) high branches ∧ IsOrdered (position + 1) high next

def AreOrdered (low high : Nat) : Branches α → Prop
  | .empty => True
  | .cons _ s rest => IsOrdered low high s ∧ AreOrdered low high rest

end

theorem isOrdered_chain (h : AreWithin low high constants) :
    (chain entry constants).IsOrdered low high := by
  induction constants generalizing low with
  | nil => trivial
  | cons c constants ih =>
      exact ⟨h.low_le c List.mem_cons_self, h.lt_high c List.mem_cons_self, ⟨ih h.tail, trivial⟩,
        trivial⟩

theorem IsOrdered.withEntries {s : Selector α} (h : s.IsOrdered low high) (entries : List α) :
    (s.withEntries entries).IsOrdered low high := by
  cases s with
  | leaf _ => trivial
  | node _ _ _ _ => exact h

mutual

theorem isOrdered_insert {constants : List (Nat × ObjectId)} {low : Nat}
    (hc : AreWithin low high constants) (s : Selector α) (h : s.IsOrdered low high) :
    (insert constants entry s).IsOrdered low high := by
  cases s with
  | leaf entries =>
      cases constants with
      | nil => trivial
      | cons c constants => exact (isOrdered_chain hc).withEntries entries
  | node position entries branches next =>
      obtain ⟨hlow, hhigh, hbranches, hnext⟩ := h
      cases constants with
      | nil => exact ⟨hlow, hhigh, hbranches, hnext⟩
      | cons c constants =>
          have hp := hc.low_le c List.mem_cons_self
          have hhp := hc.lt_high c List.mem_cons_self
          obtain ⟨p, value⟩ := c
          rw [insert]
          split
          next hlt =>
            have hc' : AreWithin (position + 1) high ((p, value) :: constants) :=
              ⟨hc.sorted, List.forall_mem_cons.mpr
                ⟨hlt, fun d hd => Nat.le_trans (by omega) (hc.tail.low_le d hd)⟩, hc.lt_high⟩
            exact ⟨hlow, hhigh, hbranches, isOrdered_insert hc' next hnext⟩
          next =>
            split
            next hgt =>
              exact ⟨hp, hhp, ⟨isOrdered_chain hc.tail, trivial⟩, hgt, hhigh, hbranches, hnext⟩
            next hlt hgt =>
              obtain rfl : position = p := by omega
              exact ⟨hlow, hhigh, areOrdered_insertBranch hc.tail branches hbranches, hnext⟩

theorem areOrdered_insertBranch {constants : List (Nat × ObjectId)} {low : Nat} {value : ObjectId}
    (hc : AreWithin low high constants) (bs : Branches α) (h : AreOrdered low high bs) :
    AreOrdered low high (insertBranch value constants entry bs) := by
  cases bs with
  | empty => exact ⟨isOrdered_chain hc, trivial⟩
  | cons v s rest =>
      rw [insertBranch]
      split
      next => exact ⟨isOrdered_insert hc s h.1, h.2⟩
      next => exact ⟨h.1, areOrdered_insertBranch hc rest h.2⟩

end

/-! ### Several entries -/

/-- The selector to which some entries are added one after the other, each with the constants that
it has to match. -/
def ofEntries (entries : List (List (Nat × ObjectId) × α)) : Selector α :=
  entries.foldl (fun s (constants, entry) => insert constants entry s) (.leaf [])

theorem select_foldl_insert (entries : List (List (Nat × ObjectId) × α)) (s : Selector α) :
    (select args (entries.foldl (fun s (constants, entry) => insert constants entry s) s)).Perm
      (select args s ++ (entries.filter fun e => Agrees args e.1).map (·.2)) := by
  induction entries generalizing s with
  | nil => simp
  | cons e entries ih =>
      refine (ih _).trans (((select_insert e.1 s).append_right _).trans ?_)
      rw [List.append_assoc, List.filter_cons, hits]
      split
      next h => simp [h]
      next h => simp [h]

theorem isOrdered_foldl_insert {entries : List (List (Nat × ObjectId) × α)}
    (h : ∀ e ∈ entries, AreWithin low high e.1) {s : Selector α} (hs : s.IsOrdered low high) :
    (entries.foldl (fun s (constants, entry) => insert constants entry s) s).IsOrdered
      low high := by
  induction entries generalizing s with
  | nil => exact hs
  | cons e entries ih =>
      rw [List.forall_mem_cons] at h
      exact ih h.2 (isOrdered_insert h.1 s hs)

/-- Entries whose constants are given in the order of their positions are found for arguments that
are longer than all these positions as often as they were added with constants that agree with the
arguments. No argument is tested that does not exist, or twice on one path. -/
theorem selects_compatible_entries {entries : List (List (Nat × ObjectId) × α)}
    (hsorted : ∀ e ∈ entries, e.1.Pairwise (·.1 < ·.1))
    (hlong : ∀ e ∈ entries, ∀ c ∈ e.1, c.1 < args.length) :
    (select args (ofEntries entries)).Perm
        ((entries.filter fun e => Agrees args e.1).map (·.2)) ∧
      (ofEntries entries).IsOrdered 0 args.length := by
  refine ⟨select_foldl_insert entries (.leaf []), isOrdered_foldl_insert (fun e he => ?_) trivial⟩
  exact ⟨hsorted e he, fun c _ => Nat.zero_le c.1, hlong e he⟩

section Overlapping

private def first : ObjectId := ⟨0⟩

private def second : ObjectId := ⟨1⟩

/-- Entries that share tests, one of them twice. -/
private def overlappingEntries : List (List (Nat × ObjectId) × Nat) :=
  [([], 0), ([(1, first)], 1), ([(0, second), (1, first)], 2), ([(1, second)], 3),
    ([(1, first)], 1)]

theorem selects_overlapping_entries :
    (∀ e ∈ overlappingEntries, e.1.Pairwise (·.1 < ·.1)) ∧
      (∀ e ∈ overlappingEntries, ∀ c ∈ e.1, c.1 < [second, first].length) ∧
      (select [second, first] (ofEntries overlappingEntries)).Perm [0, 1, 2, 1] ∧
      (ofEntries overlappingEntries).IsOrdered 0 2 :=
  ⟨by decide, by decide, selects_compatible_entries (by decide) (by decide)⟩

end Overlapping

end Selector
end Datalog
end FinitePlanning
