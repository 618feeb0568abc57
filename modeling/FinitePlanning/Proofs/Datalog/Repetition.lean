import FinitePlanning.Proofs.Datalog.Semantics
import FinitePlanning.Proofs.Lines

/-!
Rules without repeated variables in their atoms. The later occurrences of a variable
are replaced by new variables, which the conditions say to be equal to it.
-/

namespace FinitePlanning

namespace Datalog

/-- The variables of a rule. -/
def Rule.Mentions (r : Rule) (v : String) : Prop := ∃ p ∈ r.head :: r.body, v ∈ p.vars

/-- The variables of the head occur in the conditions. -/
def Rule.IsBound (r : Rule) : Prop := ∀ v ∈ r.head.vars, ∃ p ∈ r.body, v ∈ p.vars

namespace Program

/-- The name that replaces a later occurrence of a variable. -/
def replacement (v : String) (n : Nat) : String := v ++ "@" ++ toString n

theorem replacement_inj {v w : String} {m n : Nat} (h : replacement v m = replacement w n) :
    v = w ∧ m = n := by
  have h := congrArg String.toList h
  simp only [replacement, String.toList_append] at h
  have hat : ("@" : String).toList = ['@'] := rfl
  rw [hat, List.append_assoc, List.append_assoc] at h
  obtain ⟨hv, hn⟩ := lastMark_inj (not_mem_toString (by decide) m)
    (not_mem_toString (by decide) n) h
  exact ⟨String.toList_inj.mp hv, toString_injective (String.toList_inj.mp hn)⟩

theorem ne_replacement (v : String) (n : Nat) : v ≠ replacement v n := by
  intro h
  have h := congrArg (fun s : String => s.toList.length) h
  have hat : ("@" : String).toList = ['@'] := rfl
  simp only [replacement, String.toList_append, List.length_append, hat, List.length_singleton] at h
  omega

variable {σ τ : String → ObjectId} {seen : List String} {count : Nat} {args : List Term}

theorem renameRepeated_object {id : ObjectId} :
    renameRepeated seen count (.object id :: args) =
      (.object id :: (renameRepeated seen count args).1, (renameRepeated seen count args).2) := rfl

theorem renameRepeated_seen {v : String} (h : v ∈ seen) :
    renameRepeated seen count (.variable v :: args) =
      (.variable (replacement v count) :: (renameRepeated seen (count + 1) args).1,
        (v, replacement v count) :: (renameRepeated seen (count + 1) args).2) := by
  rw [renameRepeated, if_pos h]
  rfl

theorem renameRepeated_new {v : String} (h : v ∉ seen) :
    renameRepeated seen count (.variable v :: args) =
      (.variable v :: (renameRepeated (v :: seen) count args).1,
        (renameRepeated (v :: seen) count args).2) := by
  rw [renameRepeated, if_neg h]

/-- Induction along the arguments whose repetitions are replaced. -/
theorem renameRepeated_induction {motive : List String → Nat → List Term → Prop}
    (nil : ∀ seen count, motive seen count [])
    (object : ∀ seen count id args, motive seen count args →
      motive seen count (.object id :: args))
    (seen : ∀ seen count v args, v ∈ seen → motive seen (count + 1) args →
      motive seen count (.variable v :: args))
    (new : ∀ seen count v args, v ∉ seen → motive (v :: seen) count args →
      motive seen count (.variable v :: args)) (seen' : List String) (count : Nat)
    (args : List Term) : motive seen' count args := by
  induction args generalizing seen' count with
  | nil => exact nil seen' count
  | cons term args ih =>
      cases term with
      | object id => exact object seen' count id args (ih seen' count)
      | «variable» v =>
          by_cases h : v ∈ seen'
          · exact seen seen' count v args h (ih seen' (count + 1))
          · exact new seen' count v args h (ih (v :: seen') count)

/-- What is replaced are variables of the atom, with numbers that are used once. -/
theorem of_mem_renamed {x : String × String} (h : x ∈ (renameRepeated seen count args).2) :
    Term.variable x.1 ∈ args ∧
      ∃ n, count ≤ n ∧ n < count + (renameRepeated seen count args).2.length ∧
        x.2 = replacement x.1 n := by
  induction seen, count, args using renameRepeated_induction with
  | nil seen count => cases h
  | object seen count id args ih =>
      rw [renameRepeated_object] at h ⊢
      exact (ih h).imp_left (List.mem_cons_of_mem _)
  | seen seen count v args hv ih =>
      rw [renameRepeated_seen hv] at h ⊢
      rw [List.length_cons]
      rcases List.mem_cons.mp h with rfl | h
      · exact ⟨List.mem_cons_self, count, Nat.le_refl _, by omega, rfl⟩
      · obtain ⟨hmem, n, hle, hlt, hx⟩ := ih h
        exact ⟨List.mem_cons_of_mem _ hmem, n, by omega, by omega, hx⟩
  | new seen count v args hv ih =>
      rw [renameRepeated_new hv] at h ⊢
      exact (ih h).imp_left (List.mem_cons_of_mem _)

/-- The variables of an atom whose repetitions were replaced. -/
theorem of_variable_mem_renamed {v : String}
    (h : Term.variable v ∈ (renameRepeated seen count args).1) :
    Term.variable v ∈ args ∧ v ∉ seen ∨ ∃ x ∈ (renameRepeated seen count args).2, x.2 = v := by
  induction seen, count, args using renameRepeated_induction with
  | nil seen count => cases h
  | object seen count id args ih =>
      rw [renameRepeated_object] at h ⊢
      have h := (List.mem_cons.mp h).resolve_left Term.noConfusion
      exact (ih h).imp_left fun h => ⟨List.mem_cons_of_mem _ h.1, h.2⟩
  | seen seen count w args hw ih =>
      rw [renameRepeated_seen hw] at h ⊢
      rcases List.mem_cons.mp h with he | h
      · injection he with he
        exact .inr ⟨_, List.mem_cons_self, he.symm⟩
      · rcases ih h with h | ⟨x, hx, rfl⟩
        · exact .inl ⟨List.mem_cons_of_mem _ h.1, h.2⟩
        · exact .inr ⟨x, List.mem_cons_of_mem _ hx, rfl⟩
  | new seen count w args hw ih =>
      rw [renameRepeated_new hw] at h ⊢
      rcases List.mem_cons.mp h with he | h
      · injection he with he
        exact .inl ⟨he ▸ List.mem_cons_self, he ▸ hw⟩
      · exact (ih h).imp_left fun h =>
          ⟨List.mem_cons_of_mem _ h.1, fun hv => h.2 (List.mem_cons_of_mem _ hv)⟩

theorem object_mem_renamed {id : ObjectId} :
    Term.object id ∈ (renameRepeated seen count args).1 ↔ Term.object id ∈ args := by
  induction seen, count, args using renameRepeated_induction with
  | nil seen count => rfl
  | object seen count id args ih => rw [renameRepeated_object, List.mem_cons, List.mem_cons, ih]
  | seen seen count w args hw ih =>
      rw [renameRepeated_seen hw, List.mem_cons, List.mem_cons, ih]
      simp
  | new seen count w args hw ih =>
      rw [renameRepeated_new hw, List.mem_cons, List.mem_cons, ih]

/-- Every variable keeps its first occurrence. -/
theorem variable_mem_renamed {v : String} (h : Term.variable v ∈ args) (hv : v ∉ seen) :
    Term.variable v ∈ (renameRepeated seen count args).1 := by
  induction seen, count, args using renameRepeated_induction with
  | nil seen count => cases h
  | object seen count id args ih =>
      rw [renameRepeated_object]
      exact List.mem_cons_of_mem _ (ih ((List.mem_cons.mp h).resolve_left Term.noConfusion) hv)
  | seen seen count w args hw ih =>
      rw [renameRepeated_seen hw]
      rcases List.mem_cons.mp h with he | h
      · injection he with he
        exact absurd (he ▸ hw) hv
      · exact List.mem_cons_of_mem _ (ih h hv)
  | new seen count w args hw ih =>
      rw [renameRepeated_new hw]
      by_cases he : v = w
      · exact he ▸ List.mem_cons_self
      · refine List.mem_cons_of_mem _ (ih ((List.mem_cons.mp h).resolve_left ?_) ?_)
        · exact fun h => he (by injection h)
        · exact fun h => (List.mem_cons.mp h).elim he hv

theorem length_renamed : (renameRepeated seen count args).1.length = args.length := by
  induction seen, count, args using renameRepeated_induction with
  | nil seen count => rfl
  | object seen count id args ih => rw [renameRepeated_object, List.length_cons, List.length_cons, ih]
  | seen seen count w args hw ih => rw [renameRepeated_seen hw, List.length_cons, List.length_cons, ih]
  | new seen count w args hw ih => rw [renameRepeated_new hw, List.length_cons, List.length_cons, ih]

/-- The replacements have no influence where they have the values of what they replace. -/
theorem map_eval_renamed (h : ∀ x ∈ (renameRepeated seen count args).2, σ x.2 = σ x.1) :
    (renameRepeated seen count args).1.map (·.eval σ) = args.map (·.eval σ) := by
  induction seen, count, args using renameRepeated_induction with
  | nil seen count => rfl
  | object seen count id args ih =>
      rw [renameRepeated_object] at h ⊢
      rw [List.map_cons, List.map_cons, ih h]
  | seen seen count w args hw ih =>
      rw [renameRepeated_seen hw] at h ⊢
      rw [List.forall_mem_cons] at h
      rw [List.map_cons, List.map_cons, ih h.2]
      exact congrArg (· :: _) h.1
  | new seen count w args hw ih =>
      rw [renameRepeated_new hw] at h ⊢
      rw [List.map_cons, List.map_cons, ih h]

theorem nodup_renamed
    (h : ∀ x ∈ (renameRepeated seen count args).2, Term.variable x.2 ∉ args) :
    ((renameRepeated seen count args).1.filterMap Term.variable?).Nodup := by
  induction seen, count, args using renameRepeated_induction with
  | nil seen count => exact List.nodup_nil
  | object seen count id args ih =>
      exact ih fun x hx hmem => h x hx (List.mem_cons_of_mem _ hmem)
  | seen seen count w args hw ih =>
      rw [renameRepeated_seen hw] at h ⊢
      rw [List.forall_mem_cons] at h
      rw [List.filterMap_cons_some (f := Term.variable?) (a := Term.variable _) rfl,
        List.nodup_cons]
      refine ⟨fun hmem => ?_, ih fun x hx hmem => h.2 x hx (List.mem_cons_of_mem _ hmem)⟩
      have hmem : Term.variable (replacement w count) ∈ (renameRepeated seen (count + 1) args).1 :=
        Pattern.mem_vars (p := ⟨default, _⟩).mp hmem
      rcases of_variable_mem_renamed hmem with ⟨hmem, -⟩ | ⟨x, hx, hreplaced⟩
      · exact h.1 (List.mem_cons_of_mem _ hmem)
      · obtain ⟨-, n, hle, -, hn⟩ := of_mem_renamed hx
        have := (replacement_inj (hn.symm.trans hreplaced)).2
        omega
  | new seen count w args hw ih =>
      rw [renameRepeated_new hw] at h ⊢
      rw [List.filterMap_cons_some (f := Term.variable?) (a := Term.variable _) rfl,
        List.nodup_cons]
      refine ⟨fun hmem => ?_, ih fun x hx hmem => h x hx (List.mem_cons_of_mem _ hmem)⟩
      have hmem : Term.variable w ∈ (renameRepeated (w :: seen) count args).1 :=
        Pattern.mem_vars (p := ⟨default, _⟩).mp hmem
      rcases of_variable_mem_renamed hmem with ⟨-, hmem⟩ | ⟨x, hx, hreplaced⟩
      · exact hmem List.mem_cons_self
      · exact h x hx (hreplaced ▸ List.mem_cons_self)

/-- An atom whose repeated variables were replaced, some of the replacements. -/
def IsSeparated (renamed : List (String × String)) (p p' : Pattern) : Prop :=
  ∃ count, p' = { p with args := (renameRepeated [] count p.args).1 } ∧
    ∀ x ∈ (renameRepeated [] count p.args).2, x ∈ renamed

theorem renameRepeatedAll_spec (count : Nat) (ps : List Pattern) :
    List.Forall₂ (IsSeparated (renameRepeatedAll count ps).2) ps (renameRepeatedAll count ps).1 ∧
      ∀ x ∈ (renameRepeatedAll count ps).2, ∃ p ∈ ps, x.1 ∈ p.vars ∧
        ∃ n, x.2 = replacement x.1 n := by
  induction ps generalizing count with
  | nil => exact ⟨.nil, fun x hx => absurd hx List.not_mem_nil⟩
  | cons p ps ih =>
      obtain ⟨hall, hrenamed⟩ := ih (count + (renameRepeated [] count p.args).2.length)
      simp only [renameRepeatedAll]
      refine ⟨.cons ⟨count, rfl, fun x hx => List.mem_append_left _ hx⟩ (hall.imp ?_), ?_⟩
      · rintro q q' ⟨c, rfl, hc⟩
        exact ⟨c, rfl, fun x hx => List.mem_append_right _ (hc x hx)⟩
      · intro x hx
        rcases List.mem_append.mp hx with hx | hx
        · obtain ⟨hmem, n, -, -, hn⟩ := of_mem_renamed hx
          exact ⟨p, List.mem_cons_self, Pattern.mem_vars.mpr hmem, n, hn⟩
        · obtain ⟨q, hq, hx⟩ := hrenamed x hx
          exact ⟨q, List.mem_cons_of_mem _ hq, hx⟩

/-- The condition that a replacement is equal to what it replaces. -/
def equality (equal : RelationId) (x : String × String) : Pattern :=
  ⟨equal, [.variable x.1, .variable x.2]⟩

/-- The replacements that are made in a rule, with what they replace. -/
def replacements (r : Rule) : List (String × String) :=
  (renameRepeatedAll 0 (r.head :: r.body)).2

/-- No replacement is a variable of the rule. -/
def IsFresh (r : Rule) : Prop := ∀ x ∈ replacements r, ¬ r.Mentions x.2

/-- No variable is occupied by a replacement for another one. -/
def IsPlain (vars : String → Prop) : Prop :=
  ∀ v w, vars v → vars w → ∀ n, v ≠ replacement w n

theorem of_mem_replacements {r : Rule} {x : String × String} (h : x ∈ replacements r) :
    r.Mentions x.1 ∧ ∃ n, x.2 = replacement x.1 n := by
  obtain ⟨p, hp, hmem, hn⟩ := (renameRepeatedAll_spec 0 (r.head :: r.body)).2 x h
  exact ⟨⟨p, hp, hmem⟩, hn⟩

theorem IsPlain.isFresh {r : Rule} (h : IsPlain r.Mentions) : IsFresh r := by
  intro x hx hmentions
  obtain ⟨hreplaced, n, hn⟩ := of_mem_replacements hx
  exact h _ _ hmentions hreplaced n hn

/-- What a rule without repeated variables is made of. -/
theorem separateRepeated_spec (equal : RelationId) (r : Rule) :
    ∃ body, IsSeparated (replacements r) r.head (separateRepeated equal r).head ∧
      List.Forall₂ (IsSeparated (replacements r)) r.body body ∧
      (separateRepeated equal r).body = body ++ (replacements r).map (equality equal) := by
  have hall := (renameRepeatedAll_spec 0 (r.head :: r.body)).1
  rw [separateRepeated, replacements]
  revert hall
  generalize renameRepeatedAll 0 (r.head :: r.body) = result
  obtain ⟨atoms, renamed⟩ := result
  intro hall
  cases hall with
  | @cons _ head _ body hhead hbody => exact ⟨body, hhead, hbody, rfl⟩

namespace IsSeparated

variable {renamed : List (String × String)} {p p' : Pattern}

theorem eval_eq (h : IsSeparated renamed p p') (hσ : ∀ x ∈ renamed, σ x.2 = σ x.1) :
    p'.eval σ = p.eval σ := by
  obtain ⟨count, rfl, hrenamed⟩ := h
  exact congrArg (GroundAtom.mk p.relation) (map_eval_renamed fun x hx => hσ x (hrenamed x hx))

theorem relation_eq (h : IsSeparated renamed p p') : p'.relation = p.relation := by
  obtain ⟨count, rfl, -⟩ := h
  rfl

theorem length_eq (h : IsSeparated renamed p p') : p'.args.length = p.args.length := by
  obtain ⟨count, rfl, -⟩ := h
  exact length_renamed

theorem object_mem (h : IsSeparated renamed p p') {id : ObjectId} :
    Term.object id ∈ p'.args ↔ Term.object id ∈ p.args := by
  obtain ⟨count, rfl, -⟩ := h
  exact object_mem_renamed

theorem vars_subset (h : IsSeparated renamed p p') : p.vars ⊆ p'.vars := by
  obtain ⟨count, rfl, -⟩ := h
  intro v hv
  exact Pattern.mem_vars.mpr (variable_mem_renamed (Pattern.mem_vars.mp hv) List.not_mem_nil)

theorem of_mem_vars (h : IsSeparated renamed p p') {v : String} (hv : v ∈ p'.vars) :
    v ∈ p.vars ∨ ∃ x ∈ renamed, x.2 = v := by
  obtain ⟨count, rfl, hrenamed⟩ := h
  rcases of_variable_mem_renamed (Pattern.mem_vars.mp hv) with ⟨hv, -⟩ | ⟨x, hx, he⟩
  · exact .inl (Pattern.mem_vars.mpr hv)
  · exact .inr ⟨x, hrenamed x hx, he⟩

theorem nodup_vars (h : IsSeparated renamed p p') (hfresh : ∀ x ∈ renamed, x.2 ∉ p.vars) :
    p'.vars.Nodup := by
  obtain ⟨count, rfl, hrenamed⟩ := h
  exact nodup_renamed fun x hx hmem =>
    hfresh x (hrenamed x hx) (Pattern.mem_vars.mpr hmem)

end IsSeparated

variable {X : Set GroundAtom} {equal : RelationId} {r : Rule}

theorem holds_separateRepeated (hequal : ∀ o o', ⟨equal, [o, o']⟩ ∈ X → o = o')
    (h : r.Holds X) : (separateRepeated equal r).Holds X := by
  obtain ⟨body, hhead, hbody, hbody'⟩ := separateRepeated_spec equal r
  intro σ hσ
  rw [hbody'] at hσ
  have hsame : ∀ x ∈ replacements r, σ x.2 = σ x.1 := fun x hx => (hequal _ _ (hσ (equality equal x)
    (List.mem_append_right _ (List.mem_map_of_mem hx)))).symm
  rw [hhead.eval_eq hsame]
  refine h σ fun p hp => ?_
  obtain ⟨p', hp', hpp'⟩ := exists_of_mem_forall₂ hbody hp
  rw [← hpp'.eval_eq hsame]
  exact hσ p' (List.mem_append_left _ hp')

/-- Values under which all replacements have the values of what they replace. -/
theorem exists_values_of_fresh (hfresh : IsFresh r) (σ : String → ObjectId) :
    ∃ τ : String → ObjectId, (∀ v, r.Mentions v → τ v = σ v) ∧
      ∀ x ∈ replacements r, τ x.2 = σ x.1 := by
  classical
  refine ⟨fun v => if h : ∃ x ∈ replacements r, x.2 = v then σ h.choose.1 else σ v,
    fun v hv => ?_, fun x hx => ?_⟩
  · refine dif_neg fun ⟨x, hx, hxv⟩ => ?_
    exact hfresh x hx (hxv ▸ hv)
  · have h : ∃ y ∈ replacements r, y.2 = x.2 := ⟨x, hx, rfl⟩
    obtain ⟨-, n, hn⟩ := of_mem_replacements hx
    obtain ⟨-, m, hm⟩ := of_mem_replacements h.choose_spec.1
    have he := (replacement_inj (hm.symm.trans (h.choose_spec.2.trans hn))).1
    exact (dif_pos h).trans (congrArg σ he)

theorem holds_of_separateRepeated (hself : ∀ a ∈ X, ∀ o ∈ a.args, ⟨equal, [o, o]⟩ ∈ X)
    (hfresh : IsFresh r) (hbound : r.IsBound)
    (h : (separateRepeated equal r).Holds X) : r.Holds X := by
  obtain ⟨body, hhead, hbody, hbody'⟩ := separateRepeated_spec equal r
  intro σ hσ
  obtain ⟨τ, hτ, hreplaced⟩ := exists_values_of_fresh hfresh σ
  have hsame : ∀ x ∈ replacements r, τ x.2 = τ x.1 := fun x hx =>
    (hreplaced x hx).trans (hτ x.1 (of_mem_replacements hx).1).symm
  have heval : ∀ p ∈ r.head :: r.body, p.eval τ = p.eval σ := fun p hp =>
    Pattern.eval_congr fun v hv => hτ v ⟨p, hp, hv⟩
  rw [← heval r.head List.mem_cons_self, ← hhead.eval_eq hsame]
  refine h τ fun q hq => ?_
  rw [hbody'] at hq
  rcases List.mem_append.mp hq with hq | hq
  · obtain ⟨p, hp, hpq⟩ := exists_of_mem_forall₂_right hbody hq
    rw [hpq.eval_eq hsame, heval p (List.mem_cons_of_mem _ hp)]
    exact hσ p hp
  · obtain ⟨x, hx, rfl⟩ := List.mem_map.mp hq
    -- the value of the replaced variable occurs in some condition
    have hmentioned : ∃ p ∈ r.body, x.1 ∈ p.vars := by
      obtain ⟨p, hp, hxp⟩ := (of_mem_replacements hx).1
      rcases List.mem_cons.mp hp with rfl | hp
      · exact hbound x.1 hxp
      · exact ⟨p, hp, hxp⟩
    obtain ⟨p, hp, hxp⟩ := hmentioned
    have hvalue := hself _ (hσ p hp) (σ x.1)
      (List.mem_map_of_mem (f := (·.eval σ)) (Pattern.mem_vars.mp hxp))
    have heval : (equality equal x).eval τ = ⟨equal, [τ x.1, τ x.2]⟩ := rfl
    rw [heval, hτ x.1 (of_mem_replacements hx).1, hreplaced x hx]
    exact hvalue

theorem isBound_separateRepeated (h : r.IsBound) : (separateRepeated equal r).IsBound := by
  obtain ⟨body, hhead, hbody, hbody'⟩ := separateRepeated_spec equal r
  intro v hv
  rw [hbody']
  rcases hhead.of_mem_vars hv with hv | ⟨x, hx, rfl⟩
  · obtain ⟨p, hp, hvp⟩ := h v hv
    obtain ⟨p', hp', hpp'⟩ := exists_of_mem_forall₂ hbody hp
    exact ⟨p', List.mem_append_left _ hp', hpp'.vars_subset hvp⟩
  · exact ⟨equality equal x, List.mem_append_right _ (List.mem_map_of_mem hx),
      by simp [equality, Pattern.vars, Term.variable?]⟩

theorem nodup_separateRepeated (h : IsFresh r) :
    ∀ p ∈ (separateRepeated equal r).head :: (separateRepeated equal r).body, p.vars.Nodup := by
  obtain ⟨body, hhead, hbody, hbody'⟩ := separateRepeated_spec equal r
  have hatom : ∀ p ∈ r.head :: r.body, ∀ q, IsSeparated (replacements r) p q → q.vars.Nodup :=
    fun p hp q hpq => hpq.nodup_vars fun x hx hmem => h x hx ⟨p, hp, hmem⟩
  rw [List.forall_mem_cons, hbody', List.forall_mem_append]
  refine ⟨hatom _ List.mem_cons_self _ hhead, fun q hq => ?_, fun q hq => ?_⟩
  · obtain ⟨p, hp, hpq⟩ := exists_of_mem_forall₂_right hbody hq
    exact hatom p (List.mem_cons_of_mem _ hp) q hpq
  · obtain ⟨x, hx, rfl⟩ := List.mem_map.mp hq
    obtain ⟨-, n, hn⟩ := of_mem_replacements hx
    have hne : x.1 ≠ x.2 := hn ▸ ne_replacement x.1 n
    simp [equality, Pattern.vars, Term.variable?, hne]

/-- The atoms of a rule without repetitions. -/
theorem exists_of_mem_separateRepeated {q : Pattern}
    (h : q ∈ (separateRepeated equal r).head :: (separateRepeated equal r).body) :
    (∃ p ∈ r.head :: r.body, ∃ renamed, IsSeparated renamed p q) ∨ ∃ x, q = equality equal x := by
  obtain ⟨body, hhead, hbody, hbody'⟩ := separateRepeated_spec equal r
  rcases List.mem_cons.mp h with rfl | h
  · exact .inl ⟨r.head, List.mem_cons_self, _, hhead⟩
  · rw [hbody'] at h
    rcases List.mem_append.mp h with h | h
    · obtain ⟨p, hp, hpq⟩ := exists_of_mem_forall₂_right hbody h
      exact .inl ⟨p, List.mem_cons_of_mem _ hp, _, hpq⟩
    · obtain ⟨x, -, rfl⟩ := List.mem_map.mp h
      exact .inr ⟨x, rfl⟩

theorem renameRepeated_of_nodup (hargs : (args.filterMap Term.variable?).Nodup)
    (hseen : ∀ v ∈ args.filterMap Term.variable?, v ∉ seen) :
    renameRepeated seen count args = (args, []) := by
  induction args generalizing seen with
  | nil => rfl
  | cons term args ih =>
      cases term with
      | object id =>
          rw [renameRepeated_object, ih hargs hseen]
      | «variable» v =>
          have hargs : v ∉ args.filterMap Term.variable? ∧ (args.filterMap Term.variable?).Nodup :=
            List.nodup_cons.mp hargs
          have hseen : v ∉ seen ∧ ∀ w ∈ args.filterMap Term.variable?, w ∉ seen :=
            List.forall_mem_cons.mp hseen
          rw [renameRepeated_new hseen.1, ih hargs.2 fun w hw hmem => ?_]
          rcases List.mem_cons.mp hmem with rfl | hmem
          · exact hargs.1 hw
          · exact hseen.2 w hw hmem

/-- Nothing is replaced in a rule that repeats no variable in an atom. -/
theorem separateRepeated_of_nodup (h : ∀ p ∈ r.head :: r.body, p.vars.Nodup) :
    separateRepeated equal r = r := by
  have hall : ∀ (ps : List Pattern) count, (∀ p ∈ ps, p.vars.Nodup) →
      renameRepeatedAll count ps = (ps, []) := by
    intro ps
    induction ps with
    | nil => exact fun _ _ => rfl
    | cons p ps ih =>
        intro count hps
        rw [List.forall_mem_cons] at hps
        simp only [renameRepeatedAll, renameRepeated_of_nodup hps.1 fun _ _ => List.not_mem_nil,
          ih _ hps.2, List.append_nil]
  rw [separateRepeated, hall _ 0 h]
  simp

/-- The head of a rule without conditions is an atom. -/
theorem eval_head_of_isBound (h : r.IsBound) (hbody : r.body = []) (σ : String → ObjectId) :
    r.head.eval σ = headFact r := by
  have hvars : ∀ v, Term.variable v ∉ r.head.args := by
    intro v hv
    obtain ⟨p, hp, -⟩ := h v (Pattern.mem_vars.mpr hv)
    rw [hbody] at hp
    exact absurd hp List.not_mem_nil
  rw [Pattern.eval, headFact, Pattern.evalArgs]
  congr 1
  revert hvars
  induction r.head.args with
  | nil => exact fun _ => rfl
  | cons term args ih =>
      intro hvars
      have htail := ih fun v hv => hvars v (List.mem_cons_of_mem _ hv)
      cases term with
      | object id => exact congrArg (id :: ·) htail
      | «variable» v => exact absurd List.mem_cons_self (hvars v)

section Meaning

variable {facts : List GroundAtom} {rules : List Rule}

/-- The facts and the rules that are left when no atom of a rule repeats a variable. -/
def separatedFacts (equal : RelationId) (facts : List GroundAtom) (rules : List Rule) :
    List GroundAtom :=
  facts ++ ((rules.map (separateRepeated equal)).filter (·.body.isEmpty)).map headFact

def separatedRules (equal : RelationId) (rules : List Rule) : List Rule :=
  (rules.map (separateRepeated equal)).filter (!·.body.isEmpty)

/-- Equality holds of the objects that occur, each with itself, and no rule has it in its
head. -/
structure HasEquality (equal : RelationId) (facts : List GroundAtom) (rules : List Rule) :
    Prop where
  only : ∀ o o', ⟨equal, [o, o']⟩ ∈ facts → o = o'
  of_fact : ∀ a ∈ facts, ∀ o ∈ a.args, ⟨equal, [o, o]⟩ ∈ facts
  of_head : ∀ r ∈ rules, ∀ o, Term.object o ∈ r.head.args → ⟨equal, [o, o]⟩ ∈ facts
  relations : ∀ r ∈ rules, r.head.relation ≠ equal

namespace HasEquality

variable (h : HasEquality equal facts rules)
include h

/-- All objects that follow are equal to themselves. -/
theorem mem_of_leastModel (hbound : ∀ r ∈ rules, r.IsBound) {a : GroundAtom}
    (ha : a ∈ leastModel {a | a ∈ facts} {r | r ∈ rules}) {o : ObjectId} (ho : o ∈ a.args) :
    (⟨equal, [o, o]⟩ : GroundAtom) ∈ facts := by
  have hself : leastModel {a | a ∈ facts} {r | r ∈ rules} ⊆
      {a | ∀ o ∈ a.args, (⟨equal, [o, o]⟩ : GroundAtom) ∈ facts} := by
    refine leastModel_subset h.of_fact fun r hr σ hσ o ho => ?_
    obtain ⟨term, hterm, rfl⟩ := List.mem_map.mp ho
    cases term with
    | object id => exact h.of_head r hr id hterm
    | «variable» v =>
        obtain ⟨p, hp, hv⟩ := hbound r hr v (Pattern.mem_vars.mpr hterm)
        exact hσ p hp _ (List.mem_map_of_mem (f := (·.eval σ)) (Pattern.mem_vars.mp hv))
  exact hself ha o ho

/-- Different objects do not become equal. -/
theorem eq_of_leastModel {o o' : ObjectId}
    (ho : ⟨equal, [o, o']⟩ ∈ leastModel {a | a ∈ facts} {r | r ∈ rules}) : o = o' := by
  generalize ha : (⟨equal, [o, o']⟩ : GroundAtom) = a at ho
  cases ho with
  | fact hfact => exact h.only o o' (ha ▸ hfact)
  | rule hr σ _ => exact absurd (congrArg GroundAtom.relation ha).symm (h.relations _ hr)

theorem leastModel_separated_subset (hbound : ∀ r ∈ rules, r.IsBound) :
    leastModel {a | a ∈ separatedFacts equal facts rules}
      {r | r ∈ separatedRules equal rules} ⊆ leastModel {a | a ∈ facts} {r | r ∈ rules} := by
  have honly : ∀ o o', ⟨equal, [o, o']⟩ ∈ leastModel {a | a ∈ facts} {r | r ∈ rules} → o = o' :=
    fun _ _ => h.eq_of_leastModel
  refine leastModel_subset (fun a ha => ?_) fun r hr => ?_
  · rcases List.mem_append.mp ha with ha | ha
    · exact .fact ha
    · obtain ⟨r', hr', rfl⟩ := List.mem_map.mp ha
      obtain ⟨hr', hempty⟩ := List.mem_filter.mp hr'
      obtain ⟨r, hr, rfl⟩ := List.mem_map.mp hr'
      have hbody := List.isEmpty_iff.mp hempty
      rw [← eval_head_of_isBound (isBound_separateRepeated (hbound r hr)) hbody
        (fun _ => default)]
      refine holds_separateRepeated honly (holds_leastModel hr) _ fun p hp => ?_
      rw [hbody] at hp
      exact absurd hp List.not_mem_nil
  · obtain ⟨r', hr', rfl⟩ := List.mem_map.mp (List.mem_filter.mp hr).1
    exact holds_separateRepeated honly (holds_leastModel hr')

end HasEquality

theorem leastModel_separated (h : HasEquality equal facts rules)
    (hfresh : ∀ r ∈ rules, IsFresh r) (hbound : ∀ r ∈ rules, r.IsBound) :
    leastModel {a | a ∈ separatedFacts equal facts rules} {r | r ∈ separatedRules equal rules} =
      leastModel {a | a ∈ facts} {r | r ∈ rules} := by
  have hsubset := h.leastModel_separated_subset hbound
  refine hsubset.antisymm (leastModel_subset
    (fun a ha => .fact (List.mem_append_left _ ha)) fun r hr => ?_)
  refine holds_of_separateRepeated (fun a ha o ho => .fact (List.mem_append_left _
    (h.mem_of_leastModel hbound (hsubset ha) ho))) (hfresh r hr) (hbound r hr) ?_
  have hmem : separateRepeated equal r ∈ rules.map (separateRepeated equal) :=
    List.mem_map_of_mem hr
  by_cases hbody : (separateRepeated equal r).body = []
  · intro σ _
    rw [eval_head_of_isBound (isBound_separateRepeated (hbound r hr)) hbody σ]
    exact .fact (List.mem_append_right _ (List.mem_map_of_mem (List.mem_filter.mpr
      ⟨hmem, List.isEmpty_iff.mpr hbody⟩)))
  · exact holds_leastModel (List.mem_filter.mpr ⟨hmem, by simpa using hbody⟩)

end Meaning

end Program
end Datalog
end FinitePlanning
