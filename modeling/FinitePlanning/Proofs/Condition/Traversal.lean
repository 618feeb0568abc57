import FinitePlanning.Condition.Simplify

/-!
The traversals of conditions work off a stack. Here their results are given by the
structure of the condition: a condition is rebuilt from its rebuilt parts, and its
nodes are itself and the nodes of its parts.
-/

namespace FinitePlanning
namespace Condition

/-- Induction over the parts of a condition. -/
@[induction_eliminator]
theorem induction {motive : Condition → Prop} (true : motive .true) (false : motive .false)
    (literal : ∀ l, motive (.literal l))
    (and : ∀ parts, (∀ c ∈ parts, motive c) → motive (.and parts))
    (or : ∀ parts, (∀ c ∈ parts, motive c) → motive (.or parts))
    («forall» : ∀ ps body, motive body → motive (.forall ps body))
    («exists» : ∀ ps body, motive body → motive (.exists ps body)) (c : Condition) : motive c :=
  @Condition.rec motive (fun cs => ∀ c ∈ cs, motive c) true false literal and or «forall» «exists»
    (List.forall_mem_nil _) (fun _ _ hc hcs => List.forall_mem_cons.mpr ⟨hc, hcs⟩) c

/-- Induction from the parts of a node to the node, whatever its kind. -/
theorem inductionOnParts {motive : Condition → Prop}
    (node : ∀ c : Condition, (∀ d ∈ c.parts, motive d) → motive c) (c : Condition) : motive c := by
  induction c with
  | true | false | literal l => exact node _ (List.forall_mem_nil _)
  | and parts ih | or parts ih => exact node _ ih
  | «forall» ps body ih | «exists» ps body ih => exact node _ (List.forall_mem_singleton.mpr ih)

/-! ### Rebuilding -/

section

variable {m : Type → Type} [Monad m]

mutual

/-- Rebuilds a condition by recursion: the parts from left to right, and then the node. -/
def rebuildM (f : Condition → m Condition) : Condition → m Condition
  | .true => f .true
  | .false => f .false
  | .literal l => f (.literal l)
  | .and parts => do f (.and (← rebuildAllM f parts))
  | .or parts => do f (.or (← rebuildAllM f parts))
  | .forall ps body => do f (.forall ps (← rebuildM f body))
  | .exists ps body => do f (.exists ps (← rebuildM f body))

def rebuildAllM (f : Condition → m Condition) : List Condition → m (List Condition)
  | [] => return []
  | c :: cs => do return (← rebuildM f c) :: (← rebuildAllM f cs)

end

theorem rebuildAllM_eq_mapM [LawfulMonad m] (f : Condition → m Condition) (cs : List Condition) :
    rebuildAllM f cs = cs.mapM (rebuildM f) := by
  induction cs with
  | nil => rfl
  | cons c cs ih => rw [rebuildAllM, ih, List.mapM_cons]

/-- What is done with the results of several visits matters for as many results only. -/
theorem bind_mapM_congr [LawfulMonad m] {α β γ : Type} {visit : α → m β} {cs : List α}
    {k k' : List β → m γ}
    (h : ∀ ds, ds.length = cs.length → k ds = k' ds) :
    cs.mapM visit >>= k = cs.mapM visit >>= k' := by
  induction cs generalizing k k' with
  | nil => simpa using h [] rfl
  | cons c cs ih =>
      simp only [List.mapM_cons, bind_assoc, pure_bind]
      exact bind_congr fun d => ih fun ds hds => h (d :: ds) (congrArg (· + 1) hds)

/-- Working off a stack visits a condition and puts the result on top of those that are finished. -/
def Visits (run : List Frame → List Condition → m (Option Condition))
    (visit : Condition → m Condition) (c : Condition) : Prop :=
  ∀ stack done, run (.enter c :: stack) done = do run stack ((← visit c) :: done)

theorem run_parts [LawfulMonad m] {run : List Frame → List Condition → m (Option Condition)}
    {visit : Condition → m Condition} {cs : List Condition} (h : ∀ c ∈ cs, Visits run visit c)
    (stack : List Frame) (done : List Condition) :
    run (cs.map .enter ++ stack) done =
      cs.mapM visit >>= fun ds => run stack (ds.reverse ++ done) := by
  induction cs generalizing done with
  | nil => simp
  | cons c cs ih =>
      rw [List.forall_mem_cons] at h
      rw [List.map_cons, List.cons_append, h.1, List.mapM_cons]
      simp only [bind_assoc, pure_bind, List.reverse_cons, List.append_assoc]
      exact bind_congr fun d => ih h.2 (d :: done)

theorem take_finished {ds done : List Condition} {n : Nat} (h : ds.length = n) :
    ((ds.reverse ++ done).take n).reverse = ds := by
  rw [← h, List.take_left' List.length_reverse, List.reverse_reverse]

theorem drop_finished {ds done : List Condition} {n : Nat} (h : ds.length = n) :
    (ds.reverse ++ done).drop n = done := by
  rw [← h, List.drop_left' List.length_reverse]

section BottomUp

variable {f : Condition → m Condition}

theorem visits_leaf {c : Condition} (hc : c.shell? = none) : Visits (runBottomUp f) f c := by
  intro stack done
  rw [runBottomUp]
  simp only [hc]

theorem runBottomUp_rebuild {shell : Shell} {n : Nat} {node : Condition} (ds : List Condition)
    (hlength : ds.length = n) (hfill : shell.fill? ds = some node) (stack : List Frame)
    (done : List Condition) : runBottomUp f (.rebuild shell n :: stack) (ds.reverse ++ done) =
      f node >>= fun d => runBottomUp f stack (d :: done) := by
  rw [runBottomUp, take_finished hlength, drop_finished hlength]
  simp only [hfill]

variable [LawfulMonad m]

theorem runBottomUp_node {c : Condition} {shell : Shell} (hshell : c.shell? = some shell)
    (hparts : ∀ d ∈ c.parts, Visits (runBottomUp f) (rebuildM f) d) (stack : List Frame)
    (done : List Condition) : runBottomUp f (.enter c :: stack) done =
      c.parts.mapM (rebuildM f) >>= fun ds =>
        runBottomUp f (.rebuild shell c.parts.length :: stack) (ds.reverse ++ done) := by
  rw [runBottomUp]
  simp only [hshell, openNode]
  exact run_parts hparts _ _

theorem visits_rebuildM (c : Condition) : Visits (runBottomUp f) (rebuildM f) c := by
  induction c with
  | true | false | literal l =>
      simp only [Visits, rebuildM]
      exact visits_leaf rfl
  | and parts ih | or parts ih =>
      intro stack done
      rw [rebuildM, rebuildAllM_eq_mapM, bind_assoc]
      refine Eq.trans (runBottomUp_node rfl ?hparts stack done) ?hrebuild
      case hparts => exact ih
      case hrebuild =>
        exact bind_mapM_congr fun ds hds => runBottomUp_rebuild ds hds rfl stack done
  | «forall» ps body ih | «exists» ps body ih =>
      intro stack done
      rw [rebuildM, bind_assoc]
      refine Eq.trans (runBottomUp_node rfl ?hparts stack done) ?hrebuild
      case hparts => exact List.forall_mem_singleton.mpr ih
      case hrebuild =>
        rw [parts, List.mapM_cons, List.mapM_nil]
        simp only [bind_assoc, pure_bind]
        exact bind_congr fun d => runBottomUp_rebuild [d] rfl rfl stack done

end BottomUp

variable [LawfulMonad m]

/-- The traversal comes to an end with one finished condition. -/
theorem runBottomUp_eq (f : Condition → m Condition) (c : Condition) :
    runBottomUp f [.enter c] [] = some <$> rebuildM f c := by
  rw [visits_rebuildM, map_eq_pure_bind]
  refine bind_congr fun d => ?_
  rw [runBottomUp]
  rfl

theorem mapBottomUpM_eq_rebuildM (f : Condition → m Condition) (c : Condition) :
    c.mapBottomUpM f = rebuildM f c := by
  rw [mapBottomUpM, runBottomUp_eq]
  simp

end

section

variable {f : Condition → Condition}

theorem mapBottomUp_eq (c : Condition) :
    c.mapBottomUp f = rebuildM (m := Id) (fun c => pure (f c)) c := by
  rw [mapBottomUp, mapBottomUpM_eq_rebuildM]
  rfl

theorem map_mapBottomUp (cs : List Condition) :
    cs.map (·.mapBottomUp f) = rebuildAllM (m := Id) (fun c => pure (f c)) cs := by
  induction cs with
  | nil => rfl
  | cons c cs ih => rw [List.map_cons, mapBottomUp_eq c, ih]; rfl

@[simp] theorem mapBottomUp_true : Condition.true.mapBottomUp f = f .true :=
  mapBottomUp_eq _

@[simp] theorem mapBottomUp_false : Condition.false.mapBottomUp f = f .false :=
  mapBottomUp_eq _

@[simp] theorem mapBottomUp_literal (l : Literal) :
    (Condition.literal l).mapBottomUp f = f (.literal l) :=
  mapBottomUp_eq _

@[simp] theorem mapBottomUp_and (parts : List Condition) :
    (Condition.and parts).mapBottomUp f = f (.and (parts.map (·.mapBottomUp f))) := by
  rw [map_mapBottomUp]
  exact mapBottomUp_eq _

@[simp] theorem mapBottomUp_or (parts : List Condition) :
    (Condition.or parts).mapBottomUp f = f (.or (parts.map (·.mapBottomUp f))) := by
  rw [map_mapBottomUp]
  exact mapBottomUp_eq _

@[simp] theorem mapBottomUp_forall (ps : List Parameter) (body : Condition) :
    (Condition.forall ps body).mapBottomUp f = f (.forall ps (body.mapBottomUp f)) := by
  rw [mapBottomUp_eq body]
  exact mapBottomUp_eq _

@[simp] theorem mapBottomUp_exists (ps : List Parameter) (body : Condition) :
    (Condition.exists ps body).mapBottomUp f = f (.exists ps (body.mapBottomUp f)) := by
  rw [mapBottomUp_eq body]
  exact mapBottomUp_eq _

end

/-! ### Nodes -/

theorem size_le_of_mem {c : Condition} {cs : List Condition} (hc : c ∈ cs) :
    c.size ≤ sizeAll cs := by
  induction cs with
  | nil => cases hc
  | cons d cs ih =>
      rw [sizeAll]
      rcases List.mem_cons.mp hc with rfl | hc
      · exact Nat.le_add_right _ _
      · exact Nat.le_add_left_of_le (ih hc)

theorem walkAll_append (as bs : List Condition) : walkAll (as ++ bs) = walkAll as ++ walkAll bs := by
  induction as using walkAll.induct with
  | case1 => simp [walkAll]
  | case2 c stack ih =>
      rw [List.cons_append, walkAll, ← List.append_assoc, ih, walkAll, List.cons_append]

theorem walkAll_eq (cs : List Condition) : walkAll cs = cs.flatMap walk := by
  induction cs with
  | nil => simp [walkAll]
  | cons c cs ih => rw [← List.singleton_append, walkAll_append, ih]; rfl

theorem walk_eq (c : Condition) : c.walk = c :: c.parts.flatMap walk := by
  rw [walk, walkAll, List.append_nil, walkAll_eq]

theorem forall_mem_walk {p : Condition → Prop} {c : Condition} :
    (∀ d ∈ c.walk, p d) ↔ p c ∧ ∀ d ∈ c.parts, ∀ e ∈ d.walk, p e := by
  rw [walk_eq, List.forall_mem_cons]
  refine and_congr_right fun _ => ?_
  simp only [List.mem_flatMap, forall_exists_index, and_imp]
  rw [forall_comm]
  exact ⟨fun h d hd e he => h d e hd he, fun h d e hd he => h d hd e he⟩

@[simp] theorem walk_true : Condition.true.walk = [.true] := walk_eq _

@[simp] theorem walk_false : Condition.false.walk = [.false] := walk_eq _

theorem literals_eq (c : Condition) :
    c.literals = c.literal?.toList ++ c.parts.flatMap literals := by
  rw [literals, walk_eq, List.filterMap_cons, List.filterMap_flatMap]
  cases c.literal? <;> rfl

@[simp] theorem literals_true : Condition.true.literals = [] := by simp [literals_eq, parts, literal?]

@[simp] theorem literals_false : Condition.false.literals = [] := by
  simp [literals_eq, parts, literal?]

@[simp] theorem literals_literal (l : Literal) : (Condition.literal l).literals = [l] := by
  simp [literals_eq, parts, literal?]

@[simp] theorem literals_and (parts : List Condition) :
    (Condition.and parts).literals = parts.flatMap literals := literals_eq _

@[simp] theorem literals_or (parts : List Condition) :
    (Condition.or parts).literals = parts.flatMap literals := literals_eq _

@[simp] theorem literals_forall (ps : List Parameter) (body : Condition) :
    (Condition.forall ps body).literals = body.literals :=
  (literals_eq _).trans (List.append_nil _)

@[simp] theorem literals_exists (ps : List Parameter) (body : Condition) :
    (Condition.exists ps body).literals = body.literals :=
  (literals_eq _).trans (List.append_nil _)

@[simp] theorem quantifiedParameters_true : Condition.true.quantifiedParameters = [] := by
  simp [quantifiedParameters, walk_eq, parts]

@[simp] theorem quantifiedParameters_false : Condition.false.quantifiedParameters = [] := by
  simp [quantifiedParameters, walk_eq, parts]

@[simp] theorem quantifiedParameters_literal (l : Literal) :
    (Condition.literal l).quantifiedParameters = [] := by
  simp [quantifiedParameters, walk_eq, parts]

@[simp] theorem quantifiedParameters_and (parts : List Condition) :
    (Condition.and parts).quantifiedParameters = parts.flatMap quantifiedParameters := by
  rw [quantifiedParameters, walk_eq, List.flatMap_cons, List.flatMap_assoc]
  rfl

@[simp] theorem quantifiedParameters_or (parts : List Condition) :
    (Condition.or parts).quantifiedParameters = parts.flatMap quantifiedParameters := by
  rw [quantifiedParameters, walk_eq, List.flatMap_cons, List.flatMap_assoc]
  rfl

@[simp] theorem quantifiedParameters_forall (ps : List Parameter) (body : Condition) :
    (Condition.forall ps body).quantifiedParameters = ps ++ body.quantifiedParameters := by
  rw [quantifiedParameters, walk_eq, List.flatMap_cons, List.flatMap_assoc]
  exact congrArg _ (List.append_nil _)

@[simp] theorem quantifiedParameters_exists (ps : List Parameter) (body : Condition) :
    (Condition.exists ps body).quantifiedParameters = ps ++ body.quantifiedParameters := by
  rw [quantifiedParameters, walk_eq, List.flatMap_cons, List.flatMap_assoc]
  exact congrArg _ (List.append_nil _)

end Condition
end FinitePlanning
