import FinitePlanning.Proofs.Condition.Traversal

/-!
The traversals by stacks are recursions. Both ways to rebuild a condition make the same calls in the
same order as a recursive definition, with the same effects, and always end with one finished
condition. The walk lists the nodes by their positions in the condition, in lexicographic order.
-/

namespace FinitePlanning
namespace Condition

/-! ### Rebuilding top-down -/

section TopDown

variable {m : Type → Type} [Monad m]

mutual

/-- Rebuilds a condition from the root down by recursion. A replacement is not entered. -/
def replaceM (f : (c : Condition) → m (Visit c)) (c : Condition) : m Condition := do
  match ← f c with
  | .replace replacement => return replacement
  | .descend kept _ => replacePartsM f kept
termination_by 3 * c.size + 2

/-- Rebuilds the parts of a node from left to right. -/
def replacePartsM (f : (c : Condition) → m (Visit c)) (c : Condition) : m Condition := do
  match c with
  | .true | .false | .literal _ => return c
  | .and parts => return .and (← replaceAllM f parts)
  | .or parts => return .or (← replaceAllM f parts)
  | .forall ps body => return .forall ps (← replaceM f body)
  | .exists ps body => return .exists ps (← replaceM f body)
termination_by 3 * c.size + 1
decreasing_by all_goals simp only [size]; omega

def replaceAllM (f : (c : Condition) → m (Visit c)) (cs : List Condition) :
    m (List Condition) := do
  match cs with
  | [] => return []
  | c :: cs => return (← replaceM f c) :: (← replaceAllM f cs)
termination_by 3 * sizeAll cs + 3
decreasing_by
  · simp only [sizeAll]; omega
  · have hpos := c.size_pos
    simp only [sizeAll]; omega

end

variable {f : (c : Condition) → m (Visit c)}

theorem runTopDown_rebuild {shell : Shell} {n : Nat} {node : Condition} (ds : List Condition)
    (hlength : ds.length = n) (hfill : shell.fill? ds = some node) (stack : List Frame)
    (done : List Condition) : runTopDown f (.rebuild shell n :: stack) (ds.reverse ++ done) =
      runTopDown f stack (node :: done) := by
  rw [runTopDown, take_finished hlength, drop_finished hlength]
  simp only [hfill]

variable [LawfulMonad m]

theorem replaceAllM_eq_mapM (f : (c : Condition) → m (Visit c)) (cs : List Condition) :
    replaceAllM f cs = cs.mapM (replaceM f) := by
  induction cs with
  | nil => rw [replaceAllM, List.mapM_nil]
  | cons c cs ih => rw [replaceAllM, ih, List.mapM_cons]

/-- The parts of a node that is kept are visited before it is rebuilt. -/
theorem runTopDown_parts {c : Condition} (h : ∀ d ∈ c.parts, Visits (runTopDown f) (replaceM f) d)
    (stack : List Frame) (done : List Condition) :
    (match c.shell? with
      | some shell => runTopDown f (openNode shell c.parts stack) done
      | none => runTopDown f stack (c :: done)) =
        replacePartsM f c >>= fun d => runTopDown f stack (d :: done) := by
  cases c with
  | true | false | literal l => rw [replacePartsM, pure_bind]; rfl
  | and parts | or parts =>
      rw [replacePartsM]
      simp only [shell?, openNode, replaceAllM_eq_mapM, bind_assoc, pure_bind]
      rw [run_parts h]
      exact bind_mapM_congr fun ds hds => runTopDown_rebuild ds hds rfl stack done
  | «forall» ps body | «exists» ps body =>
      rw [replacePartsM]
      simp only [shell?, openNode, bind_assoc, pure_bind]
      rw [run_parts h, parts, List.mapM_cons, List.mapM_nil]
      simp only [bind_assoc, pure_bind]
      exact bind_congr fun d => runTopDown_rebuild [d] rfl rfl stack done

/-- A node may be kept in another form, so that the recursion is on the size. -/
theorem visits_replaceM (f : (c : Condition) → m (Visit c)) (c : Condition) :
    Visits (runTopDown f) (replaceM f) c := by
  intro stack done
  rw [runTopDown, replaceM, bind_assoc]
  refine bind_congr fun visit => ?_
  cases visit with
  | replace replacement => rw [pure_bind]
  | descend kept hkept =>
      refine runTopDown_parts (fun d hd => ?_) stack done
      have hsize : d.size < c.size := Nat.lt_of_le_of_lt (size_le_of_mem hd)
        (Nat.lt_of_lt_of_le (sizeAll_parts_lt kept) hkept)
      exact visits_replaceM f d
termination_by c.size

/-- The traversal comes to an end with one finished condition. -/
theorem runTopDown_eq (f : (c : Condition) → m (Visit c)) (c : Condition) :
    runTopDown f [.enter c] [] = some <$> replaceM f c := by
  rw [visits_replaceM, map_eq_pure_bind]
  refine bind_congr fun d => ?_
  rw [runTopDown]
  rfl

theorem replaceTopDownM_eq_replaceM (f : (c : Condition) → m (Visit c)) (c : Condition) :
    c.replaceTopDownM f = replaceM f c := by
  rw [replaceTopDownM, runTopDown_eq]
  simp

end TopDown

/-! ### Calls -/

section Calls

variable {m : Type → Type} [Monad m]

/-- Counts the calls of a function. -/
def counting (f : Condition → m Condition) (c : Condition) : StateT Nat m Condition := do
  modify (· + 1)
  f c

variable [LawfulMonad m] {f : Condition → m Condition}

theorem run_counting (c : Condition) (n : Nat) :
    (counting f c).run n = (·, n + 1) <$> f c := by
  simp [counting]

mutual

/-- A function is called once for each node. -/
theorem run_rebuildM_counting (c : Condition) (n : Nat) :
    (rebuildM (counting f) c).run n = (·, n + c.size) <$> rebuildM f c := by
  cases c with
  | true | false | literal l => exact run_counting _ n
  | and parts | or parts =>
      rw [rebuildM, rebuildM, StateT.run_bind, run_rebuildAllM_counting, size]
      simp only [bind_map_left, map_bind, run_counting, Nat.add_assoc]
  | «forall» ps body | «exists» ps body =>
      rw [rebuildM, rebuildM, StateT.run_bind, run_rebuildM_counting, size]
      simp only [bind_map_left, map_bind, run_counting, Nat.add_assoc]

theorem run_rebuildAllM_counting (cs : List Condition) (n : Nat) :
    (rebuildAllM (counting f) cs).run n = (·, n + sizeAll cs) <$> rebuildAllM f cs := by
  cases cs with
  | nil => simp [rebuildAllM, sizeAll]
  | cons c cs =>
      rw [rebuildAllM, rebuildAllM, StateT.run_bind, run_rebuildM_counting, sizeAll]
      simp only [StateT.run_bind, run_rebuildAllM_counting, StateT.run_pure, bind_map_left,
        map_bind, map_pure, Nat.add_assoc]

end

end Calls

/-! ### Positions -/

/-- The node at a position, which is given by the numbers of the parts on the way to it. -/
def at? : Condition → List Nat → Option Condition
  | c, [] => some c
  | c, i :: position => c.parts[i]?.bind (at? · position)

mutual

/-- The positions of the nodes in preorder. -/
def positions : Condition → List (List Nat)
  | .true | .false | .literal _ => [[]]
  | .and parts | .or parts => [] :: positionsFrom 0 parts
  | .forall _ body | .exists _ body => [] :: (positions body).map (0 :: ·)

/-- The positions of the nodes of some parts, of which the first one has the number `i`. -/
def positionsFrom (i : Nat) : List Condition → List (List Nat)
  | [] => []
  | c :: cs => (positions c).map (i :: ·) ++ positionsFrom (i + 1) cs

end

theorem positions_eq (c : Condition) : c.positions = [] :: positionsFrom 0 c.parts := by
  cases c with
  | true | false | literal _ | and _ | or _ => rfl
  | «forall» ps body | «exists» ps body =>
      simp only [positions, parts, positionsFrom, List.append_nil]

theorem mem_positionsFrom {cs : List Condition} {n i : Nat} {p : List Nat} :
    i :: p ∈ positionsFrom n cs ↔ ∃ k c, i = n + k ∧ cs[k]? = some c ∧ p ∈ c.positions := by
  induction cs generalizing n with
  | nil => simp [positionsFrom]
  | cons c cs ih =>
      simp only [positionsFrom, List.mem_append, List.mem_map, List.cons.injEq, ih]
      constructor
      · rintro (⟨q, hq, rfl, rfl⟩ | ⟨k, d, rfl, hd, hp⟩)
        · exact ⟨0, c, rfl, rfl, hq⟩
        · exact ⟨k + 1, d, by omega, hd, hp⟩
      · rintro ⟨k, d, rfl, hd, hp⟩
        cases k with
        | zero => cases hd; exact .inl ⟨p, hp, rfl, rfl⟩
        | succ k => exact .inr ⟨k, d, by omega, hd, hp⟩

theorem nil_not_mem_positionsFrom {cs : List Condition} {n : Nat} : [] ∉ positionsFrom n cs := by
  induction cs generalizing n with
  | nil => exact List.not_mem_nil
  | cons c cs ih => simp [positionsFrom, ih]

theorem mem_positions {c : Condition} {p : List Nat} : p ∈ c.positions ↔ (c.at? p).isSome := by
  induction p generalizing c with
  | nil => simp [positions_eq, at?]
  | cons i p ih =>
      rw [positions_eq, List.mem_cons, or_iff_right (List.cons_ne_nil i p), mem_positionsFrom, at?]
      simp only [Nat.zero_add, ih]
      cases hi : c.parts[i]? with
      | none => simp [hi]
      | some d => simp [hi]

theorem pairwise_positionsFrom {cs : List Condition} {n : Nat}
    (h : ∀ c ∈ cs, c.positions.Pairwise (· < ·)) : (positionsFrom n cs).Pairwise (· < ·) := by
  induction cs generalizing n with
  | nil => exact .nil
  | cons c cs ih =>
      rw [List.forall_mem_cons] at h
      rw [positionsFrom, List.pairwise_append, List.pairwise_map]
      refine ⟨h.1.imp fun hlt => List.cons_lt_cons_iff.mpr (.inr ⟨rfl, hlt⟩), ih h.2, ?_⟩
      intro p hp q hq
      obtain ⟨p, -, rfl⟩ := List.mem_map.mp hp
      cases q with
      | nil => exact absurd hq nil_not_mem_positionsFrom
      | cons j q =>
          obtain ⟨k, -, rfl, -⟩ := mem_positionsFrom.mp hq
          exact List.cons_lt_cons_iff.mpr (.inl (by omega))

/-- The positions are in lexicographic order, in which a node precedes all nodes below it. -/
theorem pairwise_positions (c : Condition) : c.positions.Pairwise (· < ·) := by
  induction c using inductionOnParts with
  | node c ih =>
      rw [positions_eq, List.pairwise_cons]
      refine ⟨fun p hp => ?_, pairwise_positionsFrom ih⟩
      cases p with
      | nil => exact absurd hp nil_not_mem_positionsFrom
      | cons i p => exact List.nil_lt_cons i p

/-- The nodes of the parts of a condition from the one with the number `n` on. -/
theorem map_walk_parts {c : Condition} {cs : List Condition} {n : Nat}
    (h : ∀ d ∈ cs, d.walk.map some = d.positions.map d.at?)
    (hparts : ∀ k, c.parts[n + k]? = cs[k]?) :
    (cs.flatMap walk).map some = (positionsFrom n cs).map c.at? := by
  induction cs generalizing n with
  | nil => rfl
  | cons d cs ih =>
      rw [List.forall_mem_cons] at h
      have hfirst : c.parts[n]? = some d := hparts 0
      have hrest : ∀ k, c.parts[n + 1 + k]? = cs[k]? := fun k =>
        (congrArg (c.parts[·]?) (by omega)).trans (hparts (k + 1))
      rw [List.flatMap_cons, positionsFrom, List.map_append, List.map_append, List.map_map, h.1,
        ih h.2 hrest]
      refine congrArg (· ++ _) (List.map_congr_left fun p _ => ?_)
      rw [Function.comp_apply, at?, hfirst, Option.bind_some]

/-- The walk lists what is found at the positions. -/
theorem map_walk (c : Condition) : c.walk.map some = c.positions.map c.at? := by
  induction c using inductionOnParts with
  | node c ih =>
      rw [walk_eq, positions_eq, List.map_cons, List.map_cons, at?]
      exact congrArg _ (map_walk_parts ih fun k => by rw [Nat.zero_add])

/-! ### Main statement -/

/-- The traversals by stacks are recursions, for functions with any effects. Both ways to rebuild a
condition end with one finished condition and have the effects and the result of the recursion, and
the bottom-up one calls the function once for each node. The walk yields the nodes at all positions,
in the lexicographic order of the positions and each once. -/
theorem traversals_are_recursions {m : Type → Type} [Monad m] [LawfulMonad m] (c : Condition) :
    (∀ f : Condition → m Condition,
      runBottomUp f [.enter c] [] = some <$> rebuildM f c ∧ c.mapBottomUpM f = rebuildM f c ∧
        ∀ n, (c.mapBottomUpM (counting f)).run n = (·, n + c.size) <$> c.mapBottomUpM f) ∧
      (∀ f : (c : Condition) → m (Visit c),
        runTopDown f [.enter c] [] = some <$> replaceM f c ∧ c.replaceTopDownM f = replaceM f c) ∧
      c.walk.map some = c.positions.map c.at? ∧ c.positions.Pairwise (· < ·) ∧
        ∀ p, p ∈ c.positions ↔ (c.at? p).isSome := by
  refine ⟨fun f => ⟨runBottomUp_eq f c, mapBottomUpM_eq_rebuildM f c, fun n => ?_⟩,
    fun f => ⟨runTopDown_eq f c, replaceTopDownM_eq_replaceM f c⟩, map_walk c,
    pairwise_positions c, fun p => mem_positions⟩
  rw [mapBottomUpM_eq_rebuildM, mapBottomUpM_eq_rebuildM, run_rebuildM_counting]

section Nested

private def heavyCrate : Literal := (Atom.named "heavy" ["?c"]).positive

private def crate : Parameter := ⟨"?c", "crate"⟩

/-- A quantifier below another one, next to an empty conjunction. -/
private def nestedCondition : Condition :=
  .or [.exists [crate] (.forall [crate] (.literal heavyCrate)), .and []]

/-- Negates a node and records that it was called. -/
private def negateAndLog (c : Condition) : StateM (List Condition) Condition := do
  modify (· ++ [c])
  return c.negateNode

theorem nested_traversals_are_recursions : LawfulMonad (StateM (List Condition)) ∧
    (nestedCondition.mapBottomUpM negateAndLog).run [] =
      (.and [.forall [crate] (.exists [crate] (.literal heavyCrate.negate)), .or []],
        [.literal heavyCrate, .forall [crate] (.literal heavyCrate.negate),
          .exists [crate] (.exists [crate] (.literal heavyCrate.negate)), .and [],
          .or [.forall [crate] (.exists [crate] (.literal heavyCrate.negate)), .or []]]) := by
  refine ⟨inferInstance, ?_⟩
  rw [((traversals_are_recursions nestedCondition).1 negateAndLog).2.1]
  rfl

end Nested

end Condition
end FinitePlanning
