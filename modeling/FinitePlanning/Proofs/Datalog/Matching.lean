import Mathlib.Data.List.Nodup
import FinitePlanning.Proofs.Datalog.Selector
import FinitePlanning.Proofs.Datalog.Semantics

/-!
Matches of the conditions of a rule. An active rule records the atoms that matched its conditions,
and looks at all of them again when one more is matched. What it yields for an atom are the heads of
the instances whose conditions are this atom and atoms that were recorded.
-/

namespace FinitePlanning
namespace Datalog

/-- The values that the arguments of an atom give to the variables of a condition, the last one
first. -/
def Pattern.bindings (p : Pattern) (args : List ObjectId) : List (String × ObjectId) :=
  ((p.args.zip args).filterMap fun (term, value) => term.variable?.map (·, value)).reverse

/-- The value that an atom gives to the first occurrence of a variable in a condition. -/
def Pattern.firstValue? (p : Pattern) (args : List ObjectId) (v : String) :
    Option ObjectId :=
  (p.args.zip args).findSome? fun (term, value) =>
    if term = .variable v then some value else none

/-- Whether two atoms give the same values to the variables that two conditions share. -/
def Pattern.agree (p : Pattern) (args : List ObjectId) (q : Pattern) (args' : List ObjectId) :
    Bool :=
  p.vars.all fun v =>
    v ∉ q.vars || p.firstValue? args v = q.firstValue? args' v

/-- The instance of an atom of a rule under values of its variables. -/
def Pattern.instantiate (p : Pattern) (values : List (String × ObjectId)) : GroundAtom :=
  { relation := p.relation
    args := p.args.map fun
      | .variable v => (values.lookup v).getD default
      | .object id => id }

/-- A rule with the arguments of the atoms that matched each of its conditions, in order. -/
structure ActiveRule where
  rule : SplitRule
  seen : List (Array (List ObjectId))
deriving Inhabited

namespace ActiveRule

def start (rule : SplitRule) : ActiveRule :=
  ⟨rule, rule.body.map fun _ => #[]⟩

/-- The heads that follow when an atom with the given arguments matches a condition. -/
def consequences (r : ActiveRule) (condition : Nat) (args : List ObjectId) : List GroundAtom :=
  let own := r.rule.body.getD condition default
  let others := (r.rule.body.zip r.seen).eraseIdx condition
  let alternatives := others.map fun (p, seen) =>
    (seen.toList.filter (own.agree args p ·)).map p.bindings
  (choices alternatives).map fun choice =>
    r.rule.head.instantiate (choice.reverse.flatten ++ own.bindings args)

/-- Records that an atom matches a condition. -/
def record (r : ActiveRule) (condition : Nat) (args : List ObjectId) : ActiveRule :=
  { r with seen := r.seen.modify condition (·.push args) }

end ActiveRule

variable {σ : String → ObjectId}

/-- Bindings that values of the variables extend. -/
def Follows (σ : String → ObjectId) (bs : List (String × ObjectId)) : Prop :=
  ∀ b ∈ bs, b.2 = σ b.1

theorem Follows.append {bs cs : List (String × ObjectId)} (hb : Follows σ bs)
    (hc : Follows σ cs) : Follows σ (bs ++ cs) := fun b h =>
  (List.mem_append.mp h).elim (hb b) (hc b)

theorem Follows.lookup {bs : List (String × ObjectId)} (h : Follows σ bs) {v : String}
    (hv : v ∈ bs.map (·.1)) : bs.lookup v = some (σ v) := by
  cases hl : bs.lookup v with
  | none => exact absurd hv (lookup_eq_none_iff_not_mem.mp hl)
  | some value => exact congrArg some (h (v, value) (mem_of_lookup hl))

namespace Pattern

variable {p q : Pattern} {args args' : List ObjectId}

/-- Arguments that an instance of an atom has. -/
def Matches (p : Pattern) (args : List ObjectId) : Prop := ∃ σ, p.evalArgs σ = args

theorem mem_zip_evalArgs {term : Term} {value : ObjectId}
    (h : (term, value) ∈ p.args.zip (p.evalArgs σ)) : value = term.eval σ ∧ term ∈ p.args := by
  obtain ⟨i, hi⟩ := List.mem_iff_getElem?.mp h
  rw [List.getElem?_zip_eq_some, evalArgs, List.getElem?_map] at hi
  obtain ⟨hterm, hvalue⟩ := hi
  rw [hterm] at hvalue
  exact ⟨(Option.some.inj hvalue).symm, List.mem_of_getElem? hterm⟩

theorem follows_bindings : Follows σ (p.bindings (p.evalArgs σ)) := by
  intro b hb
  rw [bindings, List.mem_reverse, List.mem_filterMap] at hb
  obtain ⟨⟨term, value⟩, hmem, hb⟩ := hb
  obtain ⟨rfl, -⟩ := mem_zip_evalArgs hmem
  cases term with
  | «variable» v => cases hb; rfl
  | object id => cases hb

theorem keys_bindings {args : List ObjectId} (hlen : args.length = p.args.length) {v : String} :
    v ∈ (p.bindings args).map (·.1) ↔ v ∈ p.vars := by
  rw [mem_vars, bindings, List.map_reverse, List.mem_reverse, List.mem_map]
  constructor
  · rintro ⟨b, hb, rfl⟩
    obtain ⟨⟨term, value⟩, hmem, hb⟩ := List.mem_filterMap.mp hb
    cases term with
    | «variable» v => cases hb; exact (List.of_mem_zip hmem).1
    | object id => cases hb
  · intro h
    obtain ⟨i, hi⟩ := List.mem_iff_getElem?.mp h
    have hlt : i < args.length := hlen ▸ (List.getElem?_eq_some_iff.mp hi).1
    exact ⟨(v, args[i]), List.mem_filterMap.mpr ⟨(.variable v, args[i]), List.mem_of_getElem?
      (List.getElem?_zip_eq_some.mpr ⟨hi, List.getElem?_eq_getElem hlt⟩), rfl⟩, rfl⟩

theorem snd_mem_of_mem_bindings {args : List ObjectId} {b : String × ObjectId}
    (hb : b ∈ p.bindings args) : b.2 ∈ args := by
  rw [bindings, List.mem_reverse, List.mem_filterMap] at hb
  obtain ⟨⟨term, value⟩, hmem, hb⟩ := hb
  cases term with
  | «variable» v => cases hb; exact (List.of_mem_zip hmem).2
  | object id => cases hb

theorem firstValue?_evalArgs {v : String} (hv : v ∈ p.vars) :
    p.firstValue? (p.evalArgs σ) v = some (σ v) := by
  cases hf : p.firstValue? (p.evalArgs σ) v with
  | none =>
      rw [firstValue?, List.findSome?_eq_none_iff] at hf
      obtain ⟨b, hb, hbv⟩ := List.mem_map.mp ((keys_bindings (length_evalArgs _ _)).mpr hv)
      rw [bindings, List.mem_reverse, List.mem_filterMap] at hb
      obtain ⟨⟨term, value⟩, hmem, hb⟩ := hb
      cases term with
      | «variable» w =>
          cases hb
          have hnone := hf _ hmem
          simp only at hbv
          simp [hbv] at hnone
      | object id => cases hb
  | some value =>
      rw [firstValue?] at hf
      obtain ⟨⟨term, value'⟩, hmem, hfound⟩ := List.exists_of_findSome?_eq_some hf
      obtain ⟨rfl, -⟩ := mem_zip_evalArgs hmem
      by_cases hterm : term = .variable v
      · simp only [hterm, if_true, Option.some.injEq] at hfound
        rw [← hfound]
        rfl
      · simp [hterm] at hfound

theorem agree_evalArgs : p.agree (p.evalArgs σ) q (q.evalArgs σ) = true := by
  rw [agree, List.all_eq_true]
  intro v hv
  by_cases hq : v ∈ q.vars
  · simp [firstValue?_evalArgs hv, firstValue?_evalArgs hq]
  · simp [hq]

/-- Atoms that agree on the common variables of two conditions are instances for
values that agree there. -/
theorem eq_of_agree {τ : String → ObjectId}
    (h : p.agree (p.evalArgs σ) q (q.evalArgs τ) = true) {v : String} (hp : v ∈ p.vars)
    (hq : v ∈ q.vars) : σ v = τ v := by
  rw [agree, List.all_eq_true] at h
  have h := h v hp
  rw [firstValue?_evalArgs hp, firstValue?_evalArgs hq] at h
  simpa [hq] using h

/-- An instance of an atom under bindings that cover its variables. -/
theorem instantiate_eq {bs : List (String × ObjectId)} (h : Follows σ bs)
    (hv : ∀ v ∈ p.vars, v ∈ bs.map (·.1)) : p.instantiate bs = p.eval σ := by
  rw [instantiate, eval, evalArgs]
  refine congrArg (GroundAtom.mk p.relation) (List.map_congr_left fun term hterm => ?_)
  cases term with
  | «variable» v =>
      simp only [h.lookup (hv v (mem_vars.mpr hterm))]
      rfl
  | object id => rfl

/-- An atom without repeated variables matches all arguments in number that agree with
its objects. -/
theorem matches_of_constants (hnodup : p.vars.Nodup) (hlen : args.length = p.args.length)
    (hconstants : ∀ c ∈ p.constants, args[c.1]? = some c.2) : p.Matches args := by
  have hgeneral : ∀ (terms : List Term) (values : List ObjectId),
      (terms.filterMap Term.variable?).Nodup → values.length = terms.length →
      (∀ (i : Nat) id, terms[i]? = some (Term.object id) → values[i]? = some id) →
      ∃ σ : String → ObjectId, terms.map (·.eval σ) = values := by
    intro terms
    induction terms with
    | nil => exact fun values _ hlen _ => ⟨fun _ => default, (List.length_eq_zero_iff.mp hlen).symm⟩
    | cons term terms ih =>
        intro values hnodup hlen hobjects
        cases values with
        | nil => cases hlen
        | cons value values =>
            have htail : ∀ (i : Nat) id, terms[i]? = some (Term.object id) → values[i]? = some id :=
              fun i id hi => hobjects (i + 1) id hi
            cases term with
            | object id =>
                obtain ⟨σ, hσ⟩ := ih values hnodup (Nat.succ.inj hlen) htail
                refine ⟨σ, ?_⟩
                have hid : value = id := Option.some.inj (hobjects 0 id rfl)
                rw [List.map_cons, hσ, hid]
                rfl
            | «variable» v =>
                rw [List.filterMap_cons_some (f := Term.variable?) (a := Term.variable v) rfl,
                  List.nodup_cons] at hnodup
                obtain ⟨σ, hσ⟩ := ih values hnodup.2 (Nat.succ.inj hlen) htail
                refine ⟨fun w => if w = v then value else σ w, ?_⟩
                rw [List.map_cons, ← hσ]
                refine congrArg₂ List.cons (if_pos rfl) (List.map_congr_left fun term hterm => ?_)
                cases term with
                | «variable» w =>
                    have hne : w ≠ v := by
                      rintro rfl
                      exact hnodup.1 (List.mem_filterMap.mpr ⟨_, hterm, rfl⟩)
                    exact if_neg hne
                | object id => rfl
  refine hgeneral p.args args hnodup hlen fun i id hi => hconstants (i, id) ?_
  exact List.mem_filterMap.mpr
    ⟨(.object id, i), List.mem_zipIdx_iff_getElem?.mpr hi, rfl⟩

theorem constants_of_matches (h : p.Matches args) : ∀ c ∈ p.constants, args[c.1]? = some c.2 := by
  obtain ⟨σ, rfl⟩ := h
  intro c hc
  obtain ⟨⟨term, i⟩, hmem, hc⟩ := List.mem_filterMap.mp hc
  cases term with
  | «variable» v => cases hc
  | object id =>
      cases hc
      rw [evalArgs, List.getElem?_map, List.mem_zipIdx_iff_getElem?.mp hmem]
      rfl

end Pattern
namespace ActiveRule

variable {r : ActiveRule} {c : Nat} {args : List ObjectId}

/-- The conditions but one, with the atoms that matched them. -/
def others (r : ActiveRule) (c : Nat) : List (Pattern × Array (List ObjectId)) :=
  (r.rule.body.zip r.seen).eraseIdx c

/-- What was recorded matches the conditions. -/
structure IsSound (r : ActiveRule) : Prop where
  length : r.seen.length = r.rule.body.length
  recorded : ∀ q ∈ r.rule.body.zip r.seen, ∀ args ∈ q.2, q.1.Matches args

theorem mem_others {q : Pattern × Array (List ObjectId)} :
    q ∈ r.others c ↔ ∃ i ≠ c, (r.rule.body.zip r.seen)[i]? = some q :=
  List.mem_eraseIdx_iff_getElem?

theorem mem_zip_of_mem_others {q : Pattern × Array (List ObjectId)} (h : q ∈ r.others c) :
    q ∈ r.rule.body.zip r.seen := List.mem_of_mem_eraseIdx h

theorem eq_or_mem_others (hlen : r.seen.length = r.rule.body.length) {p : Pattern}
    (hp : p ∈ r.rule.body) :
    p = r.rule.body.getD c default ∨ ∃ q ∈ r.others c, q.1 = p := by
  obtain ⟨i, hi⟩ := List.mem_iff_getElem?.mp hp
  by_cases hic : i = c
  · left
    rw [← hic, List.getD_eq_getElem?_getD, hi]
    rfl
  · right
    have hlt : i < r.seen.length := hlen ▸ (List.getElem?_eq_some_iff.mp hi).1
    refine ⟨(p, r.seen[i]), mem_others.mpr ⟨i, hic, ?_⟩, rfl⟩
    exact List.getElem?_zip_eq_some.mpr ⟨hi, List.getElem?_eq_getElem hlt⟩

/-- The variables of the head are bound by bindings of the conditions. -/
theorem head_eq_eval (hsafe : r.rule.IsSafe) (hr : r.IsSound) {σ : String → ObjectId}
    {choice : List (List (String × ObjectId))}
    (hchoice : List.Forall₂ (fun bs q => bs = q.1.bindings (q.1.evalArgs σ)) choice
      (r.others c)) :
    r.rule.head.instantiate (choice.reverse.flatten ++
      (r.rule.body.getD c default).bindings ((r.rule.body.getD c default).evalArgs σ)) =
      r.rule.head.eval σ := by
  refine Pattern.instantiate_eq (Follows.append ?_ Pattern.follows_bindings) fun v hv => ?_
  · intro b hb
    obtain ⟨bs, hbs, hb⟩ := List.mem_flatten.mp hb
    obtain ⟨q, -, rfl⟩ := exists_of_mem_forall₂ hchoice (List.mem_reverse.mp hbs)
    exact Pattern.follows_bindings b hb
  · obtain ⟨p, hp, hvp⟩ := hsafe.bound v hv
    rw [List.map_append, List.mem_append]
    rcases eq_or_mem_others (c := c) hr.length hp with he | ⟨q, hq, rfl⟩
    · exact .inr ((Pattern.keys_bindings (Pattern.length_evalArgs _ _)).mpr (he ▸ hvp))
    · left
      obtain ⟨bs, hbs, rfl⟩ := exists_of_mem_forall₂_right hchoice hq
      obtain ⟨b, hb, rfl⟩ := List.mem_map.mp
        ((Pattern.keys_bindings (Pattern.length_evalArgs _ _)).mpr hvp)
      exact List.mem_map_of_mem (List.mem_flatten.mpr ⟨_, List.mem_reverse.mpr hbs, hb⟩)

/-- The head of an instance follows when the last one of its conditions is matched. -/
theorem mem_consequences (hsafe : r.rule.IsSafe) (hr : r.IsSound) {σ : String → ObjectId}
    (h : ∀ q ∈ r.others c, q.1.evalArgs σ ∈ q.2) :
    r.rule.head.eval σ ∈ r.consequences c ((r.rule.body.getD c default).evalArgs σ) := by
  refine List.mem_map.mpr
    ⟨(r.others c).map fun q => q.1.bindings (q.1.evalArgs σ), ?_, ?_⟩
  · refine mem_choices.mpr (List.forall₂_map_left_iff.mpr (List.forall₂_map_right_iff.mpr
      (List.forall₂_same.mpr fun q hq => ?_)))
    exact List.mem_map_of_mem (List.mem_filter.mpr ⟨Array.mem_toList_iff.mpr (h q hq),
      Pattern.agree_evalArgs⟩)
  · exact head_eq_eval hsafe hr (List.forall₂_map_left_iff.mpr (List.forall₂_same.mpr
      fun q _ => rfl))

/-- Values for several conditions without common variables, given the values for the
condition that is matched last. -/
theorem exists_values {own : Pattern} (σ : String → ObjectId)
    (matched : List (Pattern × List ObjectId))
    (hmatched : ∀ m ∈ matched, m.1.Matches m.2 ∧ own.agree (own.evalArgs σ) m.1 m.2 = true)
    (hapart : matched.Pairwise fun m n => ∀ v ∈ m.1.vars, v ∉ n.1.vars) :
    ∃ τ : String → ObjectId, (∀ v ∈ own.vars, τ v = σ v) ∧
      ∀ m ∈ matched, m.1.evalArgs τ = m.2 := by
  induction matched with
  | nil => exact ⟨σ, fun _ _ => rfl, nofun⟩
  | cons m matched ih =>
      rw [List.forall_mem_cons] at hmatched
      rw [List.pairwise_cons] at hapart
      obtain ⟨τ, hown, hrest⟩ := ih hmatched.2 hapart.2
      obtain ⟨⟨ρ, hρ⟩, hagree⟩ := hmatched.1
      rw [← hρ] at hagree
      refine ⟨fun v => if v ∈ m.1.vars then ρ v else τ v, fun v hv => ?_,
        List.forall_mem_cons.mpr ⟨?_, fun n hn => ?_⟩⟩
      · by_cases hvm : v ∈ m.1.vars
        · exact (if_pos hvm).trans (Pattern.eq_of_agree hagree hv hvm).symm
        · exact (if_neg hvm).trans (hown v hv)
      · rw [← hρ]
        exact Pattern.evalArgs_congr fun v hv => if_pos hv
      · rw [← hrest n hn]
        exact Pattern.evalArgs_congr fun v hv => if_neg fun hvm => hapart.1 n hn v hvm hv

theorem others_apart (hsafe : r.rule.IsSafe) (hr : r.IsSound) (hc : c < r.rule.body.length) :
    (r.others c).Pairwise fun p q => ∀ v ∈ p.1.vars, v ∉ q.1.vars := by
  rcases hsafe.apart with hlen | hapart
  · have hlength : (r.others c).length ≤ 1 := by
      rw [others, List.length_eraseIdx, List.length_zip, hr.length, Nat.min_self, if_pos hc]
      omega
    match h : r.others c with
    | [] => exact .nil
    | [q] => exact List.pairwise_singleton _ _
    | _ :: _ :: _ => simp [h] at hlength
  · have hmap : (r.rule.body.zip r.seen).map (·.1) = r.rule.body :=
      List.map_fst_zip (Nat.le_of_eq hr.length.symm)
    rw [← hmap, List.pairwise_map] at hapart
    exact hapart.sublist (List.eraseIdx_sublist _ _)

/-- The recorded atoms that a choice of bindings comes from. -/
theorem exists_matched {own : Pattern} {qs : List (Pattern × Array (List ObjectId))}
    {choice : List (List (String × ObjectId))}
    (h : List.Forall₂ (fun bs q => bs ∈ (q.2.toList.filter (own.agree args q.1 ·)).map
      q.1.bindings) choice qs) :
    ∃ matched : List ((Pattern × Array (List ObjectId)) × List ObjectId),
      matched.map (·.1) = qs ∧ choice = matched.map (fun m => m.1.1.bindings m.2) ∧
      ∀ m ∈ matched, m.2 ∈ m.1.2 ∧ own.agree args m.1.1 m.2 = true := by
  induction h with
  | nil => exact ⟨[], rfl, rfl, fun m hm => absurd hm List.not_mem_nil⟩
  | @cons bs q choice qs hbs _ ih =>
      obtain ⟨args, hargs, rfl⟩ := List.mem_map.mp hbs
      obtain ⟨hseen, hagree⟩ := List.mem_filter.mp hargs
      obtain ⟨matched, rfl, rfl, hmatched⟩ := ih
      exact ⟨(q, args) :: matched, rfl, rfl,
        List.forall_mem_cons.mpr ⟨⟨Array.mem_toList_iff.mp hseen, hagree⟩, hmatched⟩⟩

/-- What follows is the head of an instance whose other conditions were matched before. -/
theorem exists_of_mem_consequences (hsafe : r.rule.IsSafe) (hr : r.IsSound)
    (hc : c < r.rule.body.length) (hargs : (r.rule.body.getD c default).Matches args)
    {a : GroundAtom} (h : a ∈ r.consequences c args) :
    ∃ σ, (r.rule.body.getD c default).evalArgs σ = args ∧
      (∀ q ∈ r.others c, q.1.evalArgs σ ∈ q.2) ∧ a = r.rule.head.eval σ := by
  obtain ⟨choice, hchoice, rfl⟩ := List.mem_map.mp h
  obtain ⟨σ, rfl⟩ := hargs
  obtain ⟨matched, hothers, rfl, hmatched⟩ :=
    exists_matched (List.forall₂_map_right_iff.mp (mem_choices.mp hchoice))
  rw [← others] at hothers
  have hmem : ∀ m ∈ matched, m.1 ∈ r.others c := fun m hm => hothers ▸ List.mem_map_of_mem hm
  obtain ⟨τ, hown, hτ⟩ := @exists_values (r.rule.body.getD c default) σ
    (matched.map fun m => (m.1.1, m.2))
    (List.forall_mem_map.mpr fun m hm =>
      ⟨hr.recorded _ (mem_zip_of_mem_others (hmem m hm)) _ (hmatched m hm).1, (hmatched m hm).2⟩)
    (List.pairwise_map.mpr (List.pairwise_map.mp (hothers ▸ others_apart hsafe hr hc)))
  have hown := Pattern.evalArgs_congr hown
  have hτ : ∀ m ∈ matched, m.1.1.evalArgs τ = m.2 := List.forall_mem_map.mp hτ
  refine ⟨τ, hown, fun q hq => ?_, ?_⟩
  · obtain ⟨m, hm, rfl⟩ := List.mem_map.mp (hothers ▸ hq)
    rw [hτ m hm]
    exact (hmatched m hm).1
  · rw [← hown]
    refine head_eq_eval hsafe hr ?_
    rw [← hothers, List.forall₂_map_left_iff, List.forall₂_map_right_iff, List.forall₂_same]
    exact fun m hm => by rw [hτ m hm]

end ActiveRule
end Datalog
end FinitePlanning
