import Mathlib.Data.List.Forall2
import FinitePlanning.Collections

/-!
What the lists hold that choices, ordered sets and tables are made of.
-/

namespace FinitePlanning

theorem mem_choices {α : Type} {ls : List (List α)} {c : List α} :
    c ∈ choices ls ↔ List.Forall₂ (· ∈ ·) c ls := by
  induction ls generalizing c with
  | nil => simp [choices]
  | cons l ls ih =>
      simp only [choices, List.mem_flatMap, List.mem_map, ih]
      constructor
      · rintro ⟨a, ha, tail, ht, rfl⟩
        exact .cons ha ht
      · rintro (_ | ⟨ha, ht⟩)
        exact ⟨_, ha, _, ht, rfl⟩

theorem exists_choices_iff {α : Type} {P : α → Prop} {ls : List (List α)} :
    (∃ choice ∈ choices ls, ∀ a ∈ choice, P a) ↔ ∀ l ∈ ls, ∃ a ∈ l, P a := by
  simp only [mem_choices]
  induction ls with
  | nil => simp
  | cons l ls ih =>
      rw [List.forall_mem_cons, ← ih]
      constructor
      · rintro ⟨_, _ | ⟨ha, h⟩, hP⟩
        rw [List.forall_mem_cons] at hP
        exact ⟨⟨_, ha, hP.1⟩, _, h, hP.2⟩
      · rintro ⟨⟨a, ha, hPa⟩, choice, h, hP⟩
        exact ⟨a :: choice, .cons ha h, List.forall_mem_cons.mpr ⟨hPa, hP⟩⟩

/-- The choices all of whose elements satisfy a test are those from the elements
that satisfy it. -/
theorem filter_choices {α : Type} (p : α → Bool) (ls : List (List α)) :
    (choices ls).filter (·.all p) = choices (ls.map (·.filter p)) := by
  induction ls with
  | nil => simp [choices]
  | cons l ls ih =>
      simp only [choices, List.map_cons, ← ih, List.filter_flatMap, List.filter_map]
      induction l with
      | nil => rfl
      | cons a l ihl =>
          rw [List.flatMap_cons, ihl]
          by_cases ha : p a
          · simp [Function.comp_def, ha]
          · simp [Function.comp_def, ha]

theorem choices_singleton {α : Type} (l : List α) : choices [l] = l.map ([·]) := by
  simp [choices, List.map_eq_flatMap]

theorem choices_map_zip {α β γ : Type} (f : α × β → γ) (g : α → List β) (l : List α) :
    (choices (l.map g)).map (fun choice => (l.zip choice).map f) =
      choices (l.map fun a => (g a).map fun b => f (a, b)) := by
  induction l with
  | nil => rfl
  | cons a l ih =>
      simp only [List.map_cons, choices, ← ih, List.map_flatMap, List.flatMap_map, List.map_map]
      rfl

theorem choices_singletons {α β : Type} (f : β → α) (l : List β) :
    choices (l.map fun b => [f b]) = [l.map f] := by
  induction l with
  | nil => rfl
  | cons b l ih => simp [choices, ih]

@[simp] theorem mem_dropRepeats {α : Type} [DecidableEq α] {l : List α} {a : α} :
    a ∈ dropRepeats l ↔ a ∈ l := by
  induction l with
  | nil => simp [dropRepeats]
  | cons b l ih =>
      have hcons : dropRepeats (b :: l) =
          if (dropRepeats l).head? = some b then dropRepeats l else b :: dropRepeats l := rfl
      rw [hcons, List.mem_cons, ← ih]
      split
      next h =>
        have hb := List.mem_of_mem_head? h
        exact ⟨.inr, fun ha => ha.elim (· ▸ hb) id⟩
      next => rw [List.mem_cons]

@[simp] theorem mem_orderedSet {α : Type} [Ord α] [DecidableEq α] {l : List α} {a : α} :
    a ∈ orderedSet l ↔ a ∈ l := by
  simp [orderedSet, List.mem_mergeSort]

theorem dropRepeats_cons {α : Type} [DecidableEq α] (a : α) (l : List α) :
    dropRepeats (a :: l) =
      if (dropRepeats l).head? = some a then dropRepeats l else a :: dropRepeats l := rfl

theorem dropRepeats_sublist {α : Type} [DecidableEq α] (l : List α) :
    (dropRepeats l).Sublist l := by
  induction l with
  | nil => exact .slnil
  | cons a l ih =>
      rw [dropRepeats_cons]
      split
      · exact ih.cons a
      · exact ih.cons_cons a

/-- Leaving one of equal neighbours leaves one of each if equal elements are neighbours. -/
theorem nodup_dropRepeats {α : Type} [DecidableEq α] {r : α → α → Prop}
    (hr : ∀ a b, r a b → r b a → a = b) {l : List α} (h : l.Pairwise r) :
    (dropRepeats l).Nodup := by
  induction l with
  | nil => exact List.nodup_nil
  | cons a l ih =>
      rw [List.pairwise_cons] at h
      have ih := ih h.2
      rw [dropRepeats_cons]
      split
      next => exact ih
      next hne =>
        refine List.nodup_cons.mpr ⟨fun ha => ?_, ih⟩
        -- the first element is before and after `a`
        have hsorted := h.2.sublist (dropRepeats_sublist l)
        have hmem : ∀ c ∈ dropRepeats l, r a c := fun c hc => h.1 c (mem_dropRepeats.mp hc)
        cases hl : dropRepeats l with
        | nil => rw [hl] at ha; cases ha
        | cons c rest =>
            rw [hl] at ha hne hsorted hmem
            rcases List.mem_cons.mp ha with rfl | ha
            · exact hne rfl
            · obtain rfl := hr a c (hmem c List.mem_cons_self) ((List.pairwise_cons.mp hsorted).1 a ha)
              exact hne rfl

section OrderedSet

variable {α : Type} [Ord α] [DecidableEq α] [Std.TransOrd α]

omit [DecidableEq α] in
theorem pairwise_mergeSort_compare (l : List α) :
    (l.mergeSort fun a b => (compare a b).isLE).Pairwise fun a b => (compare a b).isLE = true :=
  List.pairwise_mergeSort (fun _ _ _ => Std.TransCmp.isLE_trans)
    (fun a b => by
      rw [@Std.OrientedCmp.eq_swap α compare _ b a]
      cases compare a b <;> rfl) l

omit [DecidableEq α] in
/-- The elements of a list can be put in order in one way only. -/
theorem mergeSort_eq_of_perm [Std.LawfulEqOrd α] {l l' : List α} (h : l.Perm l') :
    (l.mergeSort fun a b => (compare a b).isLE) = l'.mergeSort fun a b => (compare a b).isLE := by
  refine List.Perm.eq_of_pairwise (fun a b _ _ hab hba => ?_) (pairwise_mergeSort_compare l)
    (pairwise_mergeSort_compare l')
    ((List.mergeSort_perm l _).trans (h.trans (List.mergeSort_perm l' _).symm))
  exact Std.LawfulEqCmp.eq_of_compare (Std.OrientedCmp.isLE_antisymm hab hba)

theorem nodup_orderedSet [Std.LawfulEqOrd α] (l : List α) : (orderedSet l).Nodup :=
  nodup_dropRepeats (r := fun a b => (compare a b).isLE = true)
    (fun _ _ h h' => Std.LawfulEqCmp.eq_of_compare (Std.OrientedCmp.isLE_antisymm h h'))
    (pairwise_mergeSort_compare l)

/-- The elements are in order, each once. -/
theorem pairwise_compare_orderedSet [Std.LawfulEqOrd α] (l : List α) :
    (orderedSet l).Pairwise fun a b => compare a b = .lt := by
  have hle : (orderedSet l).Pairwise fun a b => (compare a b).isLE = true :=
    (pairwise_mergeSort_compare l).sublist (dropRepeats_sublist _)
  refine (hle.and (nodup_orderedSet l)).imp fun {a b} h => ?_
  refine (Ordering.isLE_iff_eq_lt_or_eq_eq.mp h.1).resolve_right fun heq => ?_
  exact h.2 (Std.LawfulEqCmp.eq_of_compare heq)

end OrderedSet

theorem pairwise_orderedSet {l : List Nat} : (orderedSet l).Pairwise (· < ·) :=
  (pairwise_compare_orderedSet l).imp Nat.compare_eq_lt.mp

/-- The ordered set of the elements of a list is the only ordered list of them. -/
theorem orderedSet_eq_of_pairwise {l l' : List Nat} (h : l'.Pairwise (· < ·))
    (hmem : ∀ a, a ∈ l ↔ a ∈ l') : orderedSet l = l' := by
  have hsorted : (orderedSet l).Pairwise (· < ·) := pairwise_orderedSet
  refine List.Perm.eq_of_pairwise
    (fun a b _ _ hab hba => absurd (Nat.lt_trans hab hba) (Nat.lt_irrefl a)) hsorted h
    ((List.perm_ext_iff_of_nodup (hsorted.imp Nat.ne_of_lt) (h.imp Nat.ne_of_lt)).mpr fun a => ?_)
  rw [mem_orderedSet, hmem]

/-- Fewer elements satisfy a stronger condition that some element fails. -/
theorem countP_lt_countP {α : Type} {p q : α → Bool} {l : List α} {a : α}
    (h : ∀ b ∈ l, p b = true → q b = true) (ha : a ∈ l) (hq : q a = true) (hp : p a = false) :
    l.countP p < l.countP q := by
  induction l with
  | nil => cases ha
  | cons b l ih =>
      rw [List.forall_mem_cons] at h
      have hle : l.countP p ≤ l.countP q := List.countP_mono_left h.2
      rcases List.mem_cons.mp ha with rfl | ha
      · rw [List.countP_cons_of_neg (by simp [hp]), List.countP_cons_of_pos hq]
        exact Nat.lt_succ_of_le hle
      · have ih := ih h.2 ha
        cases hpb : p b with
        | true =>
            rw [List.countP_cons_of_pos hpb, List.countP_cons_of_pos (h.1 hpb)]
            exact Nat.succ_lt_succ ih
        | false =>
            rw [List.countP_cons_of_neg (by simp [hpb])]
            exact Nat.lt_of_lt_of_le ih (List.sublist_cons_self b l).countP_le

theorem map_eq_self {α : Type} {f : α → α} {l : List α} (h : ∀ a ∈ l, f a = a) : l.map f = l :=
  (List.map_congr_left h).trans (List.map_id l)

theorem two_le_length {α : Type} {l : List α} (hnil : l ≠ []) (hone : ∀ a, l ≠ [a]) :
    2 ≤ l.length := by
  cases l with
  | nil => exact absurd rfl hnil
  | cons a l =>
      cases l with
      | nil => exact absurd rfl (hone a)
      | cons b l => exact Nat.le_add_left 2 l.length

theorem nodup_eraseDups {α : Type} [BEq α] [LawfulBEq α] (l : List α) : l.eraseDups.Nodup := by
  induction hn : l.length using Nat.strongRecOn generalizing l with
  | ind n ih =>
    cases l with
    | nil => simp
    | cons a l =>
        rw [List.eraseDups_cons, List.nodup_cons]
        refine ⟨fun ha => ?_, ih _ ?_ _ rfl⟩
        · simpa using (List.mem_filter.mp (List.mem_eraseDups.mp ha)).2
        · rw [← hn]
          exact Nat.lt_succ_of_le (List.length_filter_le _ l)

theorem eraseDups_of_nodup {α : Type} [BEq α] [LawfulBEq α] {l : List α} (h : l.Nodup) :
    l.eraseDups = l := by
  induction l with
  | nil => rfl
  | cons a l ih =>
      rw [List.nodup_cons] at h
      have hfilter : l.filter (!· == a) = l := List.filter_eq_self.mpr fun b hb => by
        simpa using fun heq : b = a => h.1 (heq ▸ hb)
      rw [List.eraseDups_cons, hfilter, ih h.2]

theorem foldl_max_le_iff {l : List Nat} {n k : Nat} :
    l.foldl max n ≤ k ↔ n ≤ k ∧ ∀ m ∈ l, m ≤ k := by
  induction l generalizing n with
  | nil => simp
  | cons m l ih => rw [List.foldl_cons, ih, Nat.max_le, List.forall_mem_cons, and_assoc]

theorem le_foldl_max {l : List Nat} {n m : Nat} (h : m ∈ l) : m ≤ l.foldl max n :=
  (foldl_max_le_iff.mp (Nat.le_refl _)).2 m h

theorem pairwise_zipIdx {α : Type} (l : List α) : l.zipIdx.Pairwise fun a b => a.2 < b.2 := by
  rw [← List.pairwise_map (f := Prod.snd) (R := (· < ·)), List.zipIdx_map_snd]
  exact List.pairwise_lt_range'

/-- An order in which the elements of an unordered collection are listed: each time it is listed,
which is counted by a number, in any order. -/
structure IterationOrder (α : Type) where
  list : Nat → List α → List α
  perm : ∀ n l, (list n l).Perm l

instance {α : Type} : Inhabited (IterationOrder α) :=
  ⟨⟨fun _ l => l.reverse, fun _ l => l.reverse_perm⟩⟩

/-- Each permutation of the elements is one of the orders. -/
theorem IterationOrder.exists_list_eq {α : Type} {l l' : List α} (h : l'.Perm l) (n : Nat) :
    ∃ order : IterationOrder α, order.list n l = l' := by
  classical
  refine ⟨⟨fun _ k => if k = l then l' else k, fun _ k => ?_⟩, if_pos rfl⟩
  split
  next heq => exact heq ▸ h
  next => exact .refl k

theorem run_bind_of_run {σ α β : Type} {m : StateM σ α} {f : α → StateM σ β} {a : α} {s s' : σ}
    (h : m.run s = (a, s')) : (m >>= f).run s = (f a).run s' := by
  rw [StateT.run_bind, h]
  rfl

section Lookup

variable {α β : Type} [BEq α] [LawfulBEq α]

theorem mem_of_lookup {l : List (α × β)} {k : α} {v : β} (h : l.lookup k = some v) :
    (k, v) ∈ l := by
  obtain ⟨as, bs, rfl, -⟩ := List.lookup_eq_some_iff.mp h
  simp

theorem lookup_eq_none_iff_not_mem {l : List (α × β)} {k : α} :
    l.lookup k = none ↔ k ∉ l.map (·.1) := by
  rw [List.lookup_eq_none_iff]
  simp only [List.mem_map, not_exists, not_and, bne_iff_ne, ne_eq]
  exact ⟨fun h p hp he => h p hp he.symm, fun h p hp he => h p hp he.symm⟩

theorem lookup_eq_some_of_nodup {l : List (α × β)} {k : α} {v : β}
    (hl : (l.map (·.1)).Nodup) (h : (k, v) ∈ l) : l.lookup k = some v := by
  induction l with
  | nil => cases h
  | cons p l ih =>
      rw [List.map_cons, List.nodup_cons] at hl
      rcases List.mem_cons.mp h with rfl | h
      · simp
      · have hne : k ≠ p.1 := fun he => hl.1 (he ▸ List.mem_map_of_mem (f := (·.1)) h)
        rw [List.lookup_cons, beq_false_of_ne hne]
        exact ih hl.2 h

theorem lookup_map_self {f : α → β} {l : List α} {k : α} (h : k ∈ l) :
    (l.map fun a => (a, f a)).lookup k = some (f k) := by
  induction l with
  | nil => cases h
  | cons a l ih =>
      rw [List.map_cons, List.lookup_cons]
      by_cases he : k = a
      · simp [he]
      · rw [beq_false_of_ne he]
        exact ih ((List.mem_cons.mp h).resolve_left he)

theorem lookup_filter (q : α → Bool) (l : List (α × β))
    (k : α) : (l.filter fun e => q e.1).lookup k = if q k then l.lookup k else none := by
  induction l with
  | nil => simp
  | cons e l ih =>
      obtain ⟨x, value⟩ := e
      rw [List.filter_cons]
      by_cases hk : k = x
      · subst hk
        by_cases hq : q k
        · rw [if_pos hq, if_pos hq, List.lookup_cons, List.lookup_cons, beq_self_eq_true]
        · rw [if_neg hq, ih, if_neg hq, if_neg hq]
      · rw [List.lookup_cons, beq_false_of_ne hk, ← ih]
        split
        · rw [List.lookup_cons, beq_false_of_ne hk]
        · rfl

end Lookup

section Except

variable {α β ε : Type}

theorem toOption_eq_some_iff {x : Except ε α} {a : α} : x.toOption = some a ↔ x = .ok a := by
  cases x with
  | error e => exact iff_of_false nofun nofun
  | ok b => exact ⟨fun h => congrArg _ (Option.some.inj h), fun h => h ▸ rfl⟩

theorem exists_of_bind_eq_ok {x : Except ε α} {f : α → Except ε β} {b : β}
    (h : x >>= f = .ok b) : ∃ a, x = .ok a ∧ f a = .ok b := by
  cases x with
  | error e => cases h
  | ok a => exact ⟨a, rfl, h⟩

/-- What each step keeps, the whole run keeps. -/
theorem foldlM_ok_keeps {P : β → Prop} {f : β → α → Except ε β} {as : List α} {b b' : β}
    (hstep : ∀ a ∈ as, ∀ b b', P b → f b a = .ok b' → P b') (hb : P b)
    (h : as.foldlM f b = .ok b') : P b' := by
  induction as generalizing b with
  | nil =>
      cases h
      exact hb
  | cons a as ih =>
      rw [List.foldlM_cons] at h
      obtain ⟨c, hc, h⟩ := exists_of_bind_eq_ok h
      rw [List.forall_mem_cons] at hstep
      exact ih hstep.2 (hstep.1 b c hb hc) h

/-- A check of a list succeeds if the check of each element does. -/
theorem forM_eq_ok_iff {f : α → Except ε Unit} {l : List α} :
    l.forM f = .ok () ↔ ∀ a ∈ l, f a = .ok () := by
  induction l with
  | nil => simp [List.forM, pure, Except.pure]
  | cons a l ih =>
      have hcons : (a :: l).forM f = (f a >>= fun _ => l.forM f) := rfl
      rw [hcons, List.forall_mem_cons]
      cases h : f a with
      | error e => exact iff_of_false nofun (fun h => nomatch h.1)
      | ok u => exact ih.trans (by simp)

theorem forall₂_of_mapM {f : α → Except ε β} {l : List α} {bs : List β}
    (h : l.mapM f = .ok bs) : List.Forall₂ (fun a b => f a = .ok b) l bs := by
  induction l generalizing bs with
  | nil =>
      cases h
      exact .nil
  | cons a l ih =>
      rw [List.mapM_cons] at h
      cases ha : f a with
      | error e => rw [ha] at h; cases h
      | ok b =>
          rw [ha] at h
          cases hl : l.mapM f with
          | error e => simp only [hl] at h; cases h
          | ok cs =>
              simp only [hl] at h
              cases h
              exact .cons ha (ih hl)

end Except

theorem forall₂_of_mapM_some {α β : Type} {f : α → Option β} {l : List α} {bs : List β}
    (h : l.mapM f = some bs) : List.Forall₂ (fun a b => f a = some b) l bs := by
  induction l generalizing bs with
  | nil =>
      cases h
      exact .nil
  | cons a l ih =>
      rw [List.mapM_cons] at h
      simp only [Option.bind_eq_bind, Option.bind_eq_some_iff] at h
      obtain ⟨b, hb, cs, hcs, h⟩ := h
      cases h
      exact .cons hb (ih hcs)

theorem exists_of_mem_forall₂ {α β : Type} {R : α → β → Prop} {as : List α} {bs : List β}
    (h : List.Forall₂ R as bs) {a : α} (ha : a ∈ as) : ∃ b ∈ bs, R a b := by
  induction h with
  | nil => cases ha
  | @cons a' b as bs hr _ ih =>
      rcases List.mem_cons.mp ha with rfl | ha
      · exact ⟨b, List.mem_cons_self, hr⟩
      · obtain ⟨c, hc, hac⟩ := ih ha
        exact ⟨c, List.mem_cons_of_mem b hc, hac⟩

theorem exists_of_mem_forall₂_right {α β : Type} {R : α → β → Prop} {as : List α}
    {bs : List β} (h : List.Forall₂ R as bs) {b : β} (hb : b ∈ bs) : ∃ a ∈ as, R a b :=
  exists_of_mem_forall₂ h.flip hb

theorem choices_eq_nil {α : Type} {ls : List (List α)} (h : [] ∈ ls) : choices ls = [] := by
  refine List.eq_nil_iff_forall_not_mem.mpr fun choice hchoice => ?_
  obtain ⟨_, -, hmem⟩ := exists_of_mem_forall₂_right (mem_choices.mp hchoice) h
  exact absurd hmem List.not_mem_nil

theorem forall_mem_iff_of_forall₂ {α β : Type} {P : α → Prop} {Q : β → Prop} {as : List α}
    {bs : List β} (h : List.Forall₂ (fun a b => Q b ↔ P a) as bs) :
    (∀ b ∈ bs, Q b) ↔ ∀ a ∈ as, P a := by
  induction h with
  | nil => simp
  | cons hr _ ih => rw [List.forall_mem_cons, List.forall_mem_cons, hr, ih]

theorem exists_mem_iff_of_forall₂ {α β : Type} {P : α → Prop} {Q : β → Prop} {as : List α}
    {bs : List β} (h : List.Forall₂ (fun a b => Q b ↔ P a) as bs) :
    (∃ b ∈ bs, Q b) ↔ ∃ a ∈ as, P a := by
  induction h with
  | nil => simp
  | cons hr _ ih => rw [List.exists_mem_cons_iff, List.exists_mem_cons_iff, hr, ih]

theorem getD_mem_cons {α : Type} (l : List α) (i : Nat) (a : α) : l.getD i a ∈ a :: l := by
  rw [List.getD_eq_getElem?_getD]
  cases h : l[i]? with
  | none => exact List.mem_cons_self
  | some b => exact List.mem_cons_of_mem a (List.mem_of_getElem? h)

theorem length_filter_range {n i : Nat} (h : i < n) :
    ((List.range n).filter (· ≠ i)).length = n - 1 := by
  have herase : (List.range n).filter (· ≠ i) = (List.range n).erase i := by
    rw [List.nodup_range.erase_eq_filter]
    exact List.filter_congr fun _ _ => by simp [bne, BEq.beq]
  rw [herase, List.length_erase_of_mem (List.mem_range.mpr h), List.length_range]

/-- Modifying entries of an array one after the other. -/
theorem getElem?_foldl_modify {α β : Type} (f : β → Nat) (g : β → α → α) (l : List β)
    (xs : Array α) (i : Nat) :
    (l.foldl (fun xs b => xs.modify (f b) (g b)) xs)[i]? =
      xs[i]?.map fun a => (l.filter (f · = i)).foldl (fun a b => g b a) a := by
  induction l generalizing xs with
  | nil => simp
  | cons b l ih =>
      rw [List.foldl_cons, ih, Array.getElem?_modify]
      by_cases hb : f b = i
      · simp [hb, Function.comp_def]
      · simp [hb]

/-- In a list along a relation, elements that are not related the other way round are in order. -/
theorem pair_sublist_of_pairwise {α : Type} {R : α → α → Prop} {l : List α} {a b : α}
    (h : l.Pairwise R) (ha : a ∈ l) (hb : b ∈ l) (hne : a ≠ b) (hba : ¬ R b a) :
    [a, b].Sublist l := by
  induction h with
  | nil => cases ha
  | @cons x l hx _ ih =>
      rcases List.mem_cons.mp ha with rfl | hal
      · exact .cons_cons a (List.singleton_sublist.mpr (List.mem_of_ne_of_mem hne.symm hb))
      · rcases List.mem_cons.mp hb with rfl | hbl
        · exact absurd (hx a hal) hba
        · exact .cons x (ih hal hbl)

end FinitePlanning
