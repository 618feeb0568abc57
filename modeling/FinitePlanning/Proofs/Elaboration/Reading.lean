import FinitePlanning.Proofs.Names
import FinitePlanning.Proofs.NormalForm.Scope
import FinitePlanning.Proofs.Sexpr.Reader
import FinitePlanning.Task.Elaboration

/-!
Runs of the elaboration, step by step, and the names that they reserve. A variable that is bound
within a formula never has a name that was reserved before.
-/

namespace FinitePlanning

namespace Elaboration

variable {α β γ : Type} {s s' s'' : ElaborationState}

/-- The run from a state ends in another one and returns a value. -/
def Reads (act : Elaboration α) (s : ElaborationState) (a : α) (s' : ElaborationState) : Prop :=
  act.run.run s = (.ok a, s')

theorem reads_pure {a b : α} (h : Reads (pure a) s b s') : b = a ∧ s = s' := by
  cases h
  exact ⟨rfl, rfl⟩

theorem not_reads_throw {e : Message} {a : α} : ¬ Reads (throw e) s a s' := by
  rintro ⟨⟩

theorem reads_bind {act : Elaboration α} {f : α → Elaboration β} {b : β}
    (h : Reads (act >>= f) s b s'') : ∃ a s', Reads act s a s' ∧ Reads (f a) s' b s'' := by
  cases hact : act.run.run s with
  | mk r s' =>
      simp only [Reads, ExceptT.run_bind, StateT.run_bind, hact] at h
      cases r with
      | ok a => exact ⟨a, s', hact, h⟩
      | error e => cases h

theorem not_reads_throw_bind {e : Message} {f : α → Elaboration β} {b : β} :
    ¬ Reads (throw e >>= f) s b s' := by
  rintro ⟨⟩

theorem reads_result {r : Result α} {a : α} (h : Reads (liftM r) s a s') :
    r = .ok a ∧ s = s' := by
  cases h
  exact ⟨rfl, rfl⟩

theorem reads_adapt {act : Elaboration α} {f : Message → Message} {a : α}
    (h : Reads (ExceptT.adapt f act) s a s') : Reads act s a s' := by
  have hrun : (ExceptT.adapt f act).run.run s =
      ((act.run.run s).1.mapError f, (act.run.run s).2) := rfl
  rw [Reads, hrun] at h
  rw [Reads]
  cases hact : act.run.run s with
  | mk r q =>
      rw [hact] at h
      cases r with
      | ok b => exact h
      | error e => cases h

theorem exists_reads_of_mem_mapM {f : α → Elaboration β} {as : List α} {bs : List β}
    (h : Reads (as.mapM f) s bs s') {b : β} (hb : b ∈ bs) :
    ∃ a ∈ as, ∃ q q', Reads (f a) q b q' := by
  induction as generalizing s bs with
  | nil =>
      obtain ⟨rfl, -⟩ := reads_pure h
      exact absurd hb List.not_mem_nil
  | cons a as ih =>
      rw [List.mapM_cons] at h
      obtain ⟨c, q, hc, h⟩ := reads_bind h
      obtain ⟨cs, q', hcs, h⟩ := reads_bind h
      obtain ⟨rfl, rfl⟩ := reads_pure h
      rcases List.mem_cons.mp hb with rfl | hb
      · exact ⟨a, List.mem_cons_self, s, q, hc⟩
      · obtain ⟨d, hd, hread⟩ := ih hcs hb
        exact ⟨d, List.mem_cons_of_mem a hd, hread⟩

theorem exists_reads_of_mem_filterMapM {f : α → Elaboration (Option β)} {as : List α}
    {bs : List β} (h : Reads (as.filterMapM f) s bs s') {b : β} (hb : b ∈ bs) :
    ∃ a ∈ as, ∃ q q', Reads (f a) q (some b) q' := by
  induction as generalizing s bs with
  | nil =>
      obtain ⟨rfl, -⟩ := reads_pure h
      exact absurd hb List.not_mem_nil
  | cons a as ih =>
      rw [List.filterMapM_cons] at h
      obtain ⟨r, q, hr, h⟩ := reads_bind h
      cases r with
      | none =>
          obtain ⟨d, hd, hread⟩ := ih h hb
          exact ⟨d, List.mem_cons_of_mem a hd, hread⟩
      | some c =>
          obtain ⟨cs, q', hcs, h⟩ := reads_bind h
          obtain ⟨rfl, rfl⟩ := reads_pure h
          rcases List.mem_cons.mp hb with rfl | hb
          · exact ⟨a, List.mem_cons_self, s, q, hr⟩
          · obtain ⟨d, hd, hread⟩ := ih hcs hb
            exact ⟨d, List.mem_cons_of_mem a hd, hread⟩

/-- What each step of a run keeps, the whole run keeps. -/
theorem foldlM_keeps {P : β → Prop} {f : β → α → Elaboration β} {as : List α} {b b' : β}
    (hstep : ∀ a ∈ as, ∀ b q b' q', P b → Reads (f b a) q b' q' → P b') (hb : P b)
    (h : Reads (as.foldlM f b) s b' s') : P b' := by
  induction as generalizing s b with
  | nil => exact (reads_pure h).1 ▸ hb
  | cons a as ih =>
      rw [List.foldlM_cons] at h
      obtain ⟨c, q, hc, h⟩ := reads_bind h
      exact ih (fun a ha => hstep a (List.mem_cons_of_mem _ ha))
        (hstep a List.mem_cons_self b s c q hb hc) h

/-- What one of the steps of a run establishes, and the later ones keep, holds in the end. -/
theorem foldlM_reaches {P Q : β → Prop} {f : β → α → Elaboration β} {as : List α} {a : α}
    {b b' : β} (ha : a ∈ as) (hP : ∀ a b q b' q', P b → Reads (f b a) q b' q' → P b')
    (hQ : ∀ a b q b' q', Q b → Reads (f b a) q b' q' → Q b')
    (hstep : ∀ b q b' q', P b → Reads (f b a) q b' q' → Q b') (hb : P b)
    (h : Reads (as.foldlM f b) s b' s') : Q b' := by
  induction as generalizing s b with
  | nil => cases ha
  | cons c as ih =>
      rw [List.foldlM_cons] at h
      obtain ⟨e, q, he, hrest⟩ := reads_bind h
      rcases List.mem_cons.mp ha with rfl | ha
      · exact foldlM_keeps (fun c _ => hQ c) (hstep b s e q hb he) hrest
      · exact ih ha (hP c b s e q hb he) hrest

end Elaboration

/-! ### Names -/

theorem AreVariables.append {ps qs : List Parameter} (hp : AreVariables ps) (hq : AreVariables qs)
    (h : ∀ x ∈ qs.map (·.name), x ∉ ps.map (·.name)) : AreVariables (ps ++ qs) where
  nodup := by
    rw [List.map_append]
    refine hp.nodup.append hq.nodup fun x hx hx' => h x hx' hx
  isVariable p := by
    rw [List.mem_append]
    exact Or.rec (hp.isVariable p) (hq.isVariable p)

namespace ElaborationState

def reserved (s : ElaborationState) : List String :=
  s.names.used

end ElaborationState

namespace Elaboration

/-- Between two states the names of some parameters were reserved, and they are different
variables. -/
structure Declares (s : ElaborationState) (ps : List Parameter) (s' : ElaborationState) : Prop where
  grows : s.reserved ⊆ s'.reserved
  areVariables : AreVariables ps
  fresh : ∀ x ∈ ps.map (·.name), x ∉ s.reserved
  reserved : ∀ x ∈ ps.map (·.name), x ∈ s'.reserved

namespace Declares

variable {s s' s'' : ElaborationState} {ps qs : List Parameter}

theorem of_subset (h : s.reserved ⊆ s'.reserved) : Declares s [] s' where
  grows := h
  areVariables := ⟨List.nodup_nil, List.forall_mem_nil _⟩
  fresh := List.forall_mem_nil _
  reserved := List.forall_mem_nil _

theorem refl (s : ElaborationState) : Declares s [] s :=
  .of_subset (List.Subset.refl _)

theorem append (h : Declares s ps s') (h' : Declares s' qs s'') : Declares s (ps ++ qs) s'' where
  grows := List.Subset.trans h.grows h'.grows
  areVariables := h.areVariables.append h'.areVariables fun x hq hp =>
    h'.fresh x hq (h.reserved x hp)
  fresh := by
    rw [List.map_append, List.forall_mem_append]
    exact ⟨h.fresh, fun x hx hs => h'.fresh x hx (h.grows hs)⟩
  reserved := by
    rw [List.map_append, List.forall_mem_append]
    exact ⟨fun x hx => h'.grows (h.reserved x hx), h'.reserved⟩

theorem of_subperm (h : Declares s ps s') (hsub : qs.Subperm ps) : Declares s qs s' where
  grows := h.grows
  areVariables := h.areVariables.of_subperm hsub
  fresh x hx := h.fresh x (List.map_subset _ hsub.subset hx)
  reserved x hx := h.reserved x (List.map_subset _ hsub.subset hx)

/-- Parameters that were declared before are different from the new ones. -/
theorem areVariables_append (h : Declares s qs s') (hps : AreVariables ps)
    (hreserved : ∀ x ∈ ps.map (·.name), x ∈ s.reserved) : AreVariables (ps ++ qs) :=
  hps.append h.areVariables fun x hq hp => h.fresh x hq (hreserved x hp)

end Declares

variable {s s' s'' : ElaborationState}

/-- The name of a variable is reserved. If it may be replaced, it was not reserved before. -/
structure IsDeclared (s : ElaborationState) (name : String) (rename : Bool) (x : String)
    (s' : ElaborationState) : Prop where
  grows : s.reserved ⊆ s'.reserved
  reserved : x ∈ s'.reserved
  isVariable : FinitePlanning.isVariable name = true → FinitePlanning.isVariable x = true
  fresh : rename = true → x ∉ s.reserved
  kept : rename = false → x = name

theorem isDeclared_of_reads {name x : String} {rename : Bool}
    (h : Reads (declareVariable name rename) s x s') : IsDeclared s name rename x s' := by
  have hrun : (declareVariable name rename).run.run s =
      let reserved := s.names.reserve name
      let named := if rename && !reserved.1 then reserved.2.fresh name else (name, reserved.2)
      (.ok named.1, { s with names := named.2 }) := rfl
  rw [Reads, hrun, VariableNames.reserve] at h
  by_cases hused : name ∈ s.names.used
  · cases rename with
    | false =>
        simp only [hused, if_true, Bool.false_and, Bool.false_eq_true, if_false] at h
        cases h
        exact ⟨List.Subset.refl _, hused, id, Bool.noConfusion, fun _ => rfl⟩
    | true =>
        simp only [hused, if_true, Bool.not_false, Bool.and_true] at h
        cases h
        exact ⟨List.subset_cons_self _ _, List.mem_cons_self, VariableNames.fresh_isVariable,
          fun _ => VariableNames.fresh_not_mem, Bool.noConfusion⟩
  · simp only [hused, if_false, Bool.not_true, Bool.and_false, Bool.false_eq_true] at h
    cases h
    exact ⟨List.subset_cons_self _ _, List.mem_cons_self, id, fun _ => hused, fun _ => rfl⟩

/-- The variables bound by some symbols, and the scope within. -/
structure Binds (rename : Bool) (seen : List String) (s : ElaborationState) (scope : Scope)
    (symbols : List Pddl.TypedSymbol) (ps : List Parameter) (inner : Scope)
    (s' : ElaborationState) : Prop where
  grows : s.reserved ⊆ s'.reserved
  areVariables : AreVariables ps
  reserved : ∀ x ∈ ps.map (·.name), x ∈ s'.reserved
  fresh : rename = true → ∀ x ∈ ps.map (·.name), x ∉ s.reserved
  unseen : rename = false → ∀ x ∈ ps.map (·.name), x ∉ seen
  length : ps.length = symbols.length
  scope : inner.map (·.2) = (ps.map (·.name)).reverse ++ scope.map (·.2)

theorem Binds.declares {seen : List String} {scope inner : Scope} {symbols : List Pddl.TypedSymbol}
    {ps : List Parameter} (h : Binds true seen s scope symbols ps inner s') : Declares s ps s' :=
  ⟨h.grows, h.areVariables, h.fresh rfl, h.reserved⟩

theorem Binds.cons {rename : Bool} {seen : List String} {scope inner : Scope}
    {symbol : Pddl.TypedSymbol} {rest : List Pddl.TypedSymbol} {ps : List Parameter}
    {x type : String} (h : Binds rename (symbol.symbol.name :: seen) s'
      ((symbol.symbol.name, x) :: scope) rest ps inner s'')
    (hx : IsDeclared s symbol.symbol.name rename x s')
    (hvariable : symbol.symbol.isVariable = true) (hseen : symbol.symbol.name ∉ seen) :
    Binds rename seen s scope (symbol :: rest) (⟨x, type⟩ :: ps) inner s'' where
  grows := List.Subset.trans hx.grows h.grows
  areVariables := by
    change AreVariables ([⟨x, type⟩] ++ ps)
    refine AreVariables.append
      ⟨List.nodup_singleton x, List.forall_mem_singleton.mpr (hx.isVariable hvariable)⟩
      h.areVariables fun y hy hyx => ?_
    obtain rfl := List.mem_singleton.mp hyx
    cases rename with
    | false => exact h.unseen rfl y hy (hx.kept rfl ▸ List.mem_cons_self)
    | true => exact h.fresh rfl y hy hx.reserved
  reserved := List.forall_mem_cons.mpr ⟨h.grows hx.reserved, h.reserved⟩
  fresh hrename := List.forall_mem_cons.mpr
    ⟨hx.fresh hrename, fun y hy hs => h.fresh hrename y hy (hx.grows hs)⟩
  unseen hrename := List.forall_mem_cons.mpr
    ⟨hx.kept hrename ▸ hseen, fun y hy hs => h.unseen hrename y hy (List.mem_cons_of_mem _ hs)⟩
  length := congrArg (· + 1) h.length
  scope := by simp [h.scope]

theorem binds_of_reads {types : TypeHierarchy} {rename : Bool} {seen : List String}
    {scope inner : Scope} {symbols : List Pddl.TypedSymbol} {ps : List Parameter}
    (h : Reads (bind types rename seen scope symbols) s (ps, inner) s') :
    Binds rename seen s scope symbols ps inner s' := by
  induction symbols generalizing seen scope ps s with
  | nil =>
      rw [bind] at h
      obtain ⟨h, rfl⟩ := reads_pure h
      cases h
      exact ⟨List.Subset.refl _, ⟨List.nodup_nil, List.forall_mem_nil _⟩, List.forall_mem_nil _,
        fun _ => List.forall_mem_nil _, fun _ => List.forall_mem_nil _, rfl, rfl⟩
  | cons symbol rest ih =>
      rw [bind] at h
      split at h
      next hvariable =>
        dsimp only at h
        split at h
        next => exact absurd h not_reads_throw_bind
        next hseen =>
          obtain ⟨type, q, htype, h⟩ := reads_bind h
          obtain ⟨-, rfl⟩ := reads_result htype
          obtain ⟨x, q', hx, h⟩ := reads_bind h
          obtain ⟨⟨ps', inner'⟩, q'', hrest, h⟩ := reads_bind h
          obtain ⟨h, rfl⟩ := reads_pure h
          cases h
          exact (ih hrest).cons (isDeclared_of_reads hx) hvariable hseen
      next => exact absurd h not_reads_throw_bind

end Elaboration
end FinitePlanning
