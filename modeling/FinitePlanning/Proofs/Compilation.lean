import FinitePlanning.Budget

/-!
What steps of a compilation return. A step yields a value if some run of it does,
and gives a value if every run without a pending interruption does.
-/

namespace FinitePlanning
namespace Compilation

variable {α β : Type}

/-- Some run of the step returns the value. -/
def Yields (c : Compilation α) (a : α) : Prop := ∃ p q, c.run.run p = (.ok a, q)

theorem yields_pure {a b : α} (h : Yields (pure a) b) : a = b := by
  obtain ⟨p, q, h⟩ := h
  cases h
  rfl

theorem yields_bind {c : Compilation α} {f : α → Compilation β} {b : β}
    (h : Yields (c >>= f) b) : ∃ a, c.Yields a ∧ (f a).Yields b := by
  obtain ⟨p, q, h⟩ := h
  cases hc : c.run.run p with
  | mk r p' =>
      have hrun : (c >>= f).run.run p = (match r with
          | .ok a => (f a).run.run p'
          | .error e => (.error e, p')) := by
        simp only [ExceptT.run_bind, StateT.run_bind, hc]
        cases r <;> rfl
      rw [hrun] at h
      cases r with
      | ok a => exact ⟨a, ⟨p, p', hc⟩, p', q, h⟩
      | error e => cases h

theorem not_yields_throw {e : Failure} {a : α} : ¬ Yields (throw e : Compilation α) a := by
  rintro ⟨p, q, h⟩
  cases h

theorem yields_ofResult {r : Result α} {a : α} (h : (ofResult r).Yields a) : r = .ok a := by
  cases r with
  | ok b => exact congrArg _ (yields_pure h)
  | error m => exact absurd h not_yields_throw

/-- The values that a list of steps yields. -/
theorem of_mem_filterMapM {γ : Type} {f : γ → Compilation (Option β)} {l : List γ} {bs : List β}
    (h : (l.filterMapM f).Yields bs) {b : β} (hb : b ∈ bs) :
    ∃ c ∈ l, (f c).Yields (some b) := by
  induction l generalizing bs with
  | nil =>
      obtain rfl := yields_pure h
      exact absurd hb List.not_mem_nil
  | cons c l ih =>
      rw [List.filterMapM_cons] at h
      obtain ⟨r, hr, h⟩ := yields_bind h
      cases r with
      | none =>
          obtain ⟨d, hd, hdb⟩ := ih h hb
          exact ⟨d, List.mem_cons_of_mem c hd, hdb⟩
      | some b' =>
          obtain ⟨bs', hbs, h⟩ := yields_bind h
          obtain rfl := yields_pure h
          rcases List.mem_cons.mp hb with rfl | hb
          · exact ⟨c, List.mem_cons_self, hr⟩
          · obtain ⟨d, hd, hdb⟩ := ih hbs hb
            exact ⟨d, List.mem_cons_of_mem c hd, hdb⟩

/-- Each step of a list yields something, and what it yields is listed. -/
theorem exists_yields_of_filterMapM {γ : Type} {f : γ → Compilation (Option β)} {l : List γ}
    {bs : List β} (h : (l.filterMapM f).Yields bs) {c : γ} (hc : c ∈ l) :
    ∃ r, (f c).Yields r ∧ ∀ b, r = some b → b ∈ bs := by
  induction l generalizing bs with
  | nil => exact absurd hc List.not_mem_nil
  | cons d l ih =>
      rw [List.filterMapM_cons] at h
      obtain ⟨r, hr, h⟩ := yields_bind h
      cases r with
      | none =>
          rcases List.mem_cons.mp hc with rfl | hc
          · exact ⟨none, hr, nofun⟩
          · exact ih h hc
      | some b' =>
          obtain ⟨bs', hbs, h⟩ := yields_bind h
          obtain rfl := yields_pure h
          rcases List.mem_cons.mp hc with rfl | hc
          · exact ⟨some b', hr, fun b hb => Option.some.inj hb ▸ List.mem_cons_self⟩
          · obtain ⟨r, hr, hmem⟩ := ih hbs hc
            exact ⟨r, hr, fun b hb => List.mem_cons_of_mem _ (hmem b hb)⟩

theorem run_get_bind (f : Progress → Compilation α) (p : Progress) :
    ((get : Compilation Progress) >>= f).run.run p = (f p).run.run p := rfl

theorem run_set_bind (q : Progress) (c : Compilation α) (p : Progress) :
    ((set q : Compilation PUnit) >>= fun _ => c).run.run p = c.run.run q := rfl

/-- No interruption was sent that is not yet noticed. -/
def IsCalm (p : Progress) : Prop := p.interruptions = 0

/-- Every calm run of the step returns the value, and stays calm. -/
def Gives (c : Compilation α) (a : α) : Prop :=
  ∀ p : Progress, IsCalm p → ∃ q : Progress, IsCalm q ∧ c.run.run p = (.ok a, q)

theorem Gives.yields {c : Compilation α} {a : α} (h : c.Gives a) : c.Yields a := by
  obtain ⟨q, -, hq⟩ := h {} rfl
  exact ⟨{}, q, hq⟩

theorem gives_pure (a : α) : Gives (pure a) a := fun p hp => ⟨p, hp, rfl⟩

theorem gives_log (level : LogLevel) (message : String) :
    Gives (log level message) () :=
  fun p hp => ⟨{ p with log := ⟨level, message⟩ :: p.log }, hp, rfl⟩

theorem Gives.bind {c : Compilation α} {f : α → Compilation β} {a : α} {b : β}
    (hc : c.Gives a) (hf : (f a).Gives b) : (c >>= f).Gives b := by
  intro p hp
  obtain ⟨q, hq, hcq⟩ := hc p hp
  obtain ⟨r, hr, hfr⟩ := hf q hq
  refine ⟨r, hr, ?_⟩
  simp only [ExceptT.run_bind, StateT.run_bind, hcq]
  exact hfr

/-- Every calm run of the step fails in the given way. -/
def Fails (c : Compilation α) (e : Failure) : Prop :=
  ∀ p : Progress, IsCalm p → ∃ q : Progress, c.run.run p = (.error e, q)

theorem fails_throw (e : Failure) : Fails (throw e : Compilation α) e := fun p _ => ⟨p, rfl⟩

theorem Fails.bind {c : Compilation α} {e : Failure} (h : c.Fails e) (f : α → Compilation β) :
    (c >>= f).Fails e := by
  intro p hp
  obtain ⟨q, hq⟩ := h p hp
  refine ⟨q, ?_⟩
  simp only [ExceptT.run_bind, StateT.run_bind, hq]
  rfl

theorem Gives.bind_fails {c : Compilation α} {f : α → Compilation β} {a : α} {e : Failure}
    (hc : c.Gives a) (hf : (f a).Fails e) : (c >>= f).Fails e := by
  intro p hp
  obtain ⟨q, hq, hcq⟩ := hc p hp
  obtain ⟨r, hfr⟩ := hf q hq
  refine ⟨r, ?_⟩
  simp only [ExceptT.run_bind, StateT.run_bind, hcq]
  exact hfr

theorem Gives.unique {c : Compilation α} {a b : α} (h : c.Gives a) (h' : c.Gives b) : a = b := by
  obtain ⟨q, -, hq⟩ := h {} rfl
  obtain ⟨r, -, hr⟩ := h' {} rfl
  rw [hq] at hr
  cases hr
  rfl

theorem Gives.not_fails {c : Compilation α} {a : α} {e : Failure} (h : c.Gives a) :
    ¬ c.Fails e := by
  intro hf
  obtain ⟨q, -, hq⟩ := h {} rfl
  obtain ⟨r, hr⟩ := hf {} rfl
  rw [hq] at hr
  cases hr

/-- Some run of the step fails in the given way. -/
def MayFail (c : Compilation α) (e : Failure) : Prop := ∃ p q, c.run.run p = (.error e, q)

theorem mayFail_bind {c : Compilation α} {f : α → Compilation β} {e : Failure}
    (h : (c >>= f).MayFail e) : c.MayFail e ∨ ∃ a, c.Yields a ∧ (f a).MayFail e := by
  obtain ⟨p, q, h⟩ := h
  cases hc : c.run.run p with
  | mk r p' =>
      simp only [ExceptT.run_bind, StateT.run_bind, hc] at h
      cases r with
      | ok a => exact .inr ⟨a, ⟨p, p', hc⟩, p', q, h⟩
      | error e' =>
          obtain rfl := Except.error.inj (congrArg Prod.fst h)
          exact .inl ⟨p, p', hc⟩

/-- No run of the step finds that two stages disagree. -/
def IsCoherent (c : Compilation α) : Prop := ∀ reason, ¬ c.MayFail (.inconsistent reason)

theorem isCoherent_pure (a : α) : IsCoherent (pure a) := by
  rintro reason ⟨p, q, h⟩
  cases h

theorem isCoherent_throw {e : Failure} (h : ∀ reason, e ≠ .inconsistent reason) :
    IsCoherent (throw e : Compilation α) := by
  rintro reason ⟨p, q, hrun⟩
  cases hrun
  exact h reason rfl

theorem isCoherent_log (level : LogLevel) (message : String) : IsCoherent (log level message) := by
  rintro reason ⟨p, q, h⟩
  cases h

theorem IsCoherent.bind {c : Compilation α} {f : α → Compilation β} (hc : c.IsCoherent)
    (hf : ∀ a, c.Yields a → (f a).IsCoherent) : (c >>= f).IsCoherent := by
  intro reason h
  rcases mayFail_bind h with h | ⟨a, ha, h⟩
  · exact hc reason h
  · exact hf a ha reason h

theorem isCoherent_ofResult (r : Result α) : (ofResult r).IsCoherent :=
  match r with
  | .ok a => isCoherent_pure a
  | .error _ => isCoherent_throw nofun

theorem isCoherent_filterMapM {γ : Type} {f : γ → Compilation (Option β)} {l : List γ}
    (h : ∀ c ∈ l, (f c).IsCoherent) : (l.filterMapM f).IsCoherent := by
  induction l with
  | nil => exact isCoherent_pure []
  | cons c l ih =>
      rw [List.forall_mem_cons] at h
      rw [List.filterMapM_cons]
      refine h.1.bind fun r _ => ?_
      cases r with
      | none => exact ih h.2
      | some b => exact (ih h.2).bind fun bs _ => isCoherent_pure _

/-- All calm runs of the step end in the same way. -/
def IsSettled (c : Compilation α) : Prop := (∃ a, c.Gives a) ∨ ∃ e, c.Fails e

theorem isSettled_pure (a : α) : IsSettled (pure a) := .inl ⟨a, gives_pure a⟩

theorem isSettled_ofResult (r : Result α) : (ofResult r).IsSettled :=
  match r with
  | .ok a => isSettled_pure a
  | .error _ => .inr ⟨_, fails_throw _⟩

theorem IsSettled.bind {c : Compilation α} {f : α → Compilation β} (hc : c.IsSettled)
    (hf : ∀ a, c.Gives a → (f a).IsSettled) : (c >>= f).IsSettled := by
  rcases hc with ⟨a, ha⟩ | ⟨e, he⟩
  · rcases hf a ha with ⟨b, hb⟩ | ⟨e, he⟩
    · exact .inl ⟨b, ha.bind hb⟩
    · exact .inr ⟨e, ha.bind_fails he⟩
  · exact .inr ⟨e, he.bind f⟩

theorem isSettled_filterMapM {γ : Type} {f : γ → Compilation (Option β)} {l : List γ}
    (h : ∀ c ∈ l, (f c).IsSettled) : (l.filterMapM f).IsSettled := by
  induction l with
  | nil => exact isSettled_pure []
  | cons c l ih =>
      rw [List.forall_mem_cons] at h
      rw [List.filterMapM_cons]
      refine h.1.bind fun r _ => ?_
      cases r with
      | none => exact ih h.2
      | some b => exact (ih h.2).bind fun bs _ => isSettled_pure _

theorem exists_gives_filterMapM {γ : Type} {f : γ → Compilation (Option β)} {l : List γ}
    (h : ∀ c ∈ l, ∃ r, (f c).Gives r) : ∃ bs, (l.filterMapM f).Gives bs := by
  induction l with
  | nil => exact ⟨[], gives_pure []⟩
  | cons c l ih =>
      rw [List.forall_mem_cons] at h
      obtain ⟨⟨r, hr⟩, hl⟩ := h
      obtain ⟨bs, hbs⟩ := ih hl
      rw [List.filterMapM_cons]
      cases r with
      | none => exact ⟨bs, hr.bind hbs⟩
      | some b => exact ⟨b :: bs, hr.bind (hbs.bind (gives_pure _))⟩

/-- One run tells how a settled step ends. -/
theorem IsSettled.gives {c : Compilation α} {a : α} (h : c.IsSettled)
    (hrun : (c.run.run {}).1 = .ok a) : c.Gives a := by
  rcases h with ⟨b, hb⟩ | ⟨e, he⟩
  · obtain ⟨q, -, hq⟩ := hb {} rfl
    rw [hq] at hrun
    exact Except.ok.inj hrun ▸ hb
  · obtain ⟨q, hq⟩ := he {} rfl
    rw [hq] at hrun
    cases hrun

end Compilation

namespace Budget

open Compilation

variable {b : Budget}

/-- The budget is not exceeded as long as there is time. -/
theorem gives_check (h : b.timeIsUp = false) : b.check.Gives () := by
  intro p hp
  refine ⟨p, hp, ?_⟩
  have hnone : ¬ 0 < p.interruptions := by rw [hp]; exact Nat.lt_irrefl 0
  rw [check, run_get_bind, if_neg hnone, h]
  rfl

theorem gives_tick (h : b.timeIsUp = false) : b.tick.Gives () := by
  intro p hp
  rw [tick, run_get_bind]
  by_cases ht : p.ticks + 1 < ticksPerCheck
  · rw [if_pos ht]
    exact ⟨{ p with ticks := p.ticks + 1 }, hp, rfl⟩
  · rw [if_neg ht, run_set_bind]
    exact gives_check h { p with ticks := 0 } hp

theorem gives_checkModelSize {atoms : Nat} (h : ∀ most, b.maxModelAtoms = some most → atoms ≤ most) :
    (b.checkModelSize atoms).Gives () := by
  rw [checkModelSize]
  cases hb : b.maxModelAtoms with
  | none => exact gives_pure ()
  | some most =>
      simp only [Nat.not_lt.mpr (h most hb), if_false]
      exact gives_pure ()

section Unlimited

variable {searchTime : Nat → Duration}

@[simp] theorem searchTime_unlimited : (unlimited searchTime).searchTime = searchTime := rfl

theorem gives_check_unlimited : (unlimited searchTime).check.Gives () := gives_check rfl

theorem gives_tick_unlimited : (unlimited searchTime).tick.Gives () := gives_tick rfl

theorem gives_checkModelSize_unlimited (atoms : Nat) :
    ((unlimited searchTime).checkModelSize atoms).Gives () :=
  gives_checkModelSize nofun

end Unlimited

theorem fails_checkModelSize {atoms most : Nat} (hb : b.maxModelAtoms = some most)
    (h : most < atoms) : (b.checkModelSize atoms).Fails .outOfMemory := by
  simp only [checkModelSize, hb, if_pos h]
  exact (gives_log _ _).bind_fails (fails_throw _)

theorem isCoherent_check (b : Budget) : b.check.IsCoherent := by
  rintro reason ⟨p, q, h⟩
  rw [check, run_get_bind] at h
  split at h
  · cases h
  · split at h <;> cases h

theorem isCoherent_tick (b : Budget) : b.tick.IsCoherent := by
  rintro reason ⟨p, q, h⟩
  rw [tick, run_get_bind] at h
  split at h
  · cases h
  · rw [run_set_bind] at h
    exact b.isCoherent_check reason ⟨_, _, h⟩

theorem isCoherent_checkModelSize (b : Budget) (atoms : Nat) :
    (b.checkModelSize atoms).IsCoherent := by
  rw [checkModelSize]
  split
  · exact isCoherent_pure ()
  · split
    · exact (isCoherent_log _ _).bind fun _ _ => isCoherent_throw nofun
    · exact isCoherent_pure ()

end Budget
end FinitePlanning
