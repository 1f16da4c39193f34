/-
Runs without bounds. What an action comes to at all it comes to within some
bound, and within every larger one (`Lasts`); so a family of actions, one
for each bound, has a limit, which is cut off only where all of them are
(`limit`). Where evaluation with bounded calls is compared with evaluation
with calls without bounds, both have the same limit (`Settling.abreast`): a
run that ends makes finitely many calls, and there is a bound for all of
them.

Simulations carry over to limits (`Simulation.follows_limit`), even if one
run needs more turns than the other.
-/
import BoardScript.Proofs.Run.Settle

namespace BoardScript

open Filter

variable {α : Type}

/-- A result of going on for longer than the bounds. -/
def Exhausted (r : EStateM.Result Unwind Machine α) : Prop := ∃ n, r = .error .exhausted n

theorem settles_fuel_iff {X : Nat → Eval α} {x : Eval α} :
    Settles .fuel X x ↔ ∀ m, ¬Exhausted (x m) → ∀ᶠ k in atTop, X k m = x m := by
  refine forall_congr' fun m => ?_
  rw [← or_iff_not_imp_left]
  refine or_congr_left ⟨?_, ?_⟩
  · rintro ⟨e, n, hr, rfl⟩
    exact ⟨n, hr⟩
  · rintro ⟨n, hr⟩
    exact ⟨.exhausted, n, hr, rfl⟩

/-- What comes to an end does the same within all larger bounds. -/
def Lasts (X : Nat → Eval α) : Prop := ∀ k, Settles .fuel X (X k)

open Classical in
/-- What a family of actions comes to within some bound. -/
noncomputable def limit (X : Nat → Eval α) : Eval α := fun m =>
  if h : ∃ k, ¬Exhausted (X k m) then X h.choose m else .error .exhausted m

section

variable {X Y : Nat → Eval α} {m : Machine}

/-- The limit is reached within some bound, or within none. -/
theorem limit_cases (X : Nat → Eval α) (m : Machine) :
    (∃ k, ¬Exhausted (X k m) ∧ limit X m = X k m) ∨
      (∀ k, Exhausted (X k m)) ∧ limit X m = .error .exhausted m := by
  unfold limit
  split
  · rename_i h
    exact .inl ⟨h.choose, h.choose_spec, rfl⟩
  · rename_i h
    refine .inr ⟨fun k => ?_, rfl⟩
    by_contra hk
    exact h ⟨k, hk⟩

theorem Lasts.limit_eq (h : Lasts X) {k : Nat} (hk : ¬Exhausted (X k m)) : limit X m = X k m := by
  rcases limit_cases X m with ⟨j, hj, hlimit⟩ | ⟨hnone, -⟩
  · -- both are what the family does from some place on
    have hsame := (settles_fuel_iff.1 (h k) m hk).and (settles_fuel_iff.1 (h j) m hj)
    obtain ⟨i, hik, hij⟩ := hsame.exists
    rw [hlimit, ← hij, hik]
  · exact absurd (hnone k) hk

theorem Lasts.exhausted_limit (h : Lasts X) :
    Exhausted (limit X m) ↔ ∀ k, Exhausted (X k m) := by
  constructor
  · intro hlimit k
    by_contra hk
    rw [h.limit_eq hk] at hlimit
    exact hk hlimit
  · intro hnone
    rcases limit_cases X m with ⟨k, hk, -⟩ | ⟨-, hlimit⟩
    · exact absurd (hnone k) hk
    · exact ⟨m, hlimit⟩

theorem Lasts.settles_limit (h : Lasts X) : Settles .fuel X (limit X) := by
  refine settles_fuel_iff.2 fun m hm => ?_
  rcases limit_cases X m with ⟨k, hk, hlimit⟩ | ⟨-, hlimit⟩
  · rw [hlimit]
    exact settles_fuel_iff.1 (h k) m hk
  · exact absurd ⟨m, hlimit⟩ hm

theorem Lasts.limit_settles (h : Lasts X) (k : Nat) : Settles .fuel (fun _ => limit X) (X k) :=
  settles_fuel_iff.2 fun _ hm => .of_forall fun _ => h.limit_eq hm

/-- Families each of which settles on the members of the other. -/
structure Abreast (X Y : Nat → Eval α) : Prop where
  left : ∀ k, Settles .fuel Y (X k)
  right : ∀ k, Settles .fuel X (Y k)

namespace Abreast

theorem symm (h : Abreast X Y) : Abreast Y X := ⟨h.right, h.left⟩

/-- A member that comes to an end shares its result with later members of
either family. -/
theorem reached (h : Abreast X Y) {k : Nat} (hk : ¬Exhausted (X k m)) :
    (∀ᶠ i in atTop, Y i m = X k m) ∧ ∀ᶠ i in atTop, X i m = X k m := by
  have hlater := settles_fuel_iff.1 (h.left k) m hk
  obtain ⟨j, hj⟩ := hlater.exists
  have hback := settles_fuel_iff.1 (h.right j) m (hj ▸ hk)
  exact ⟨hlater, hj ▸ hback⟩

theorem limit_eq (h : Abreast X Y) : limit X = limit Y := by
  funext m
  rcases limit_cases X m with ⟨k, hk, hlimit⟩ | ⟨hnone, hlimit⟩ <;>
    rcases limit_cases Y m with ⟨j, hj, hlimit'⟩ | ⟨hnone', hlimit'⟩ <;> rw [hlimit, hlimit']
  · obtain ⟨i, hik, hij⟩ := ((h.reached hk).1.and (h.symm.reached hj).2).exists
    exact hik.symm.trans hij
  · obtain ⟨i, hi⟩ := (h.reached hk).1.exists
    exact absurd (hnone' i) (hi ▸ hk)
  · obtain ⟨i, hi⟩ := (h.symm.reached hj).1.exists
    exact absurd (hnone i) (hi ▸ hj)

theorem enclosed {X Y : Nat → Eval Value} (h : Abreast X Y) (refusal : Eval Value) (c : Closure)
    (args : List Value) : Abreast (fun k => BoardScript.enclosed refusal c args (X k))
      fun k => BoardScript.enclosed refusal c args (Y k) :=
  ⟨fun k => (Settles.same refusal).enclosed (h.left k) c args,
    fun k => (Settles.same refusal).enclosed (h.right k) c args⟩

theorem bodyValue {X Y : Nat → Eval Value} (h : Abreast X Y) (isMap : Bool) :
    Abreast (fun k => BoardScript.bodyValue isMap (X k)) fun k => BoardScript.bodyValue isMap (Y k) :=
  ⟨fun k => settles_bodyValue isMap (h.left k), fun k => settles_bodyValue isMap (h.right k)⟩

end Abreast

end

-- ==================================================================== calls

theorem callClosure_lasts (hooks : Hooks) (levels : Nat) (c : Closure) (args : List Value)
    (site : CallSite) : Lasts fun fuel => callClosure hooks fuel levels c args site :=
  fun k => settles_callClosure (fun _ => .same _) (fun _ => .same _)
    ((eventually_ge_atTop k).mono fun _ => Cutoff.fuel_allows) levels c args site

/-- Calling closures without a bound on how often loops go round. -/
noncomputable def callFreely (hooks : Hooks) (levels : Nat) : Caller := fun c args site =>
  limit fun fuel => callClosure hooks fuel levels c args site

/-- An environment with a bound for loops and for those of the functions
called. -/
def Hooks.bounded (hooks : Hooks) (levels : Nat) (source : Source) (fuel : Nat) : Env :=
  ⟨fuel, callClosure hooks fuel levels, hooks.ask, source⟩

/-- An environment with a bound for loops, but not for those of the functions
called. -/
noncomputable def Hooks.unbounded (hooks : Hooks) (levels : Nat) (source : Source) (fuel : Nat) :
    Env :=
  ⟨fuel, callFreely hooks levels, hooks.ask, source⟩

/-- Actions that settle where the environments do. -/
def Settling (F : Env → Eval α) : Prop :=
  ∀ (envs : Nat → Env) (env : Env), Env.Settles .fuel envs env →
    Settles .fuel (fun k => F (envs k)) (F env)

section

variable {hooks : Hooks} {levels : Nat} {source : Source} {F : Env → Eval α}

theorem bounded_settles_unbounded (fuel : Nat) : Env.Settles .fuel (hooks.bounded levels source)
    (hooks.unbounded levels source fuel) where
  fuel := (eventually_ge_atTop fuel).mono fun _ => Cutoff.fuel_allows
  source _ := rfl
  call c args site := (callClosure_lasts hooks levels c args site).settles_limit
  ask _ := .same _

theorem unbounded_settles_bounded (fuel : Nat) : Env.Settles .fuel (hooks.unbounded levels source)
    (hooks.bounded levels source fuel) where
  fuel := (eventually_ge_atTop fuel).mono fun _ => Cutoff.fuel_allows
  source _ := rfl
  call c args site := (callClosure_lasts hooks levels c args site).limit_settles fuel
  ask _ := .same _

theorem unbounded_settles (fuel : Nat) : Env.Settles .fuel (hooks.unbounded levels source)
    (hooks.unbounded levels source fuel) where
  fuel := (eventually_ge_atTop fuel).mono fun _ => Cutoff.fuel_allows
  source _ := rfl
  call _ _ _ := .same _
  ask _ := .same _

theorem bounded_settles (fuel : Nat) : Env.Settles .fuel (hooks.bounded levels source)
    (hooks.bounded levels source fuel) where
  fuel := (eventually_ge_atTop fuel).mono fun _ => Cutoff.fuel_allows
  source _ := rfl
  call c args site := callClosure_lasts hooks levels c args site fuel
  ask _ := .same _

/-- Whether the functions called have a bound of their own does not matter
in the limit. -/
theorem Settling.abreast (h : Settling F) :
    Abreast (fun fuel => F (hooks.bounded levels source fuel))
      fun fuel => F (hooks.unbounded levels source fuel) :=
  ⟨fun k => h _ _ (unbounded_settles_bounded k), fun k => h _ _ (bounded_settles_unbounded k)⟩

theorem Settling.unbounded_lasts (h : Settling F) :
    Lasts fun fuel => F (hooks.unbounded levels source fuel) :=
  fun k => h _ _ (unbounded_settles k)

theorem Settling.bounded_lasts (h : Settling F) :
    Lasts fun fuel => F (hooks.bounded levels source fuel) :=
  fun k => h _ _ (bounded_settles k)

end

-- =============================================================== simulations

namespace Simulation

variable {S : Simulation} [Recodable α] {m₀ : Machine}

theorem exhausted_recode {g : Recoding} {r : EStateM.Result Unwind Machine α} :
    Exhausted (recode g r) ↔ Exhausted r := by
  constructor
  · rintro ⟨n, hn⟩
    cases r with
    | ok a k => cases hn
    | error e k =>
        cases e with
        | exhausted => exact ⟨k, rfl⟩
        | returned v => cases hn
        | failed error => cases hn
  · rintro ⟨n, rfl⟩
    exact ⟨recode g n, rfl⟩

/-- If actions follow each other within equal bounds, then so do their
limits. -/
theorem follows_limit {X' X : Nat → Eval α} (hlasts : Lasts X')
    (h : ∀ k, S.Follows m₀ (X' k) (X k)) : S.Follows m₀ (limit X') (limit X) := by
  intro m hm hi hc
  rcases limit_cases X m with ⟨k, hk, hlimit⟩ | ⟨hnone, hlimit⟩
  · -- the end of a member is the end of the limit, on both sides
    have hends := h k m hm hi hc
    rw [hlimit]
    rcases hends.eq_recode with ⟨e, n, hr, hskip⟩ | hr'
    · rw [hr]
      exact .inl hskip
    · have hk' : ¬Exhausted (X' k (recode S.code m)) := by
        rw [hr']
        exact fun h => hk (exhausted_recode.1 h)
      rw [hlasts.limit_eq hk']
      exact hends
  · rw [hlimit]
    by_cases hskip : S.Skip .exhausted
    · exact .inl hskip
    · have hnone' (k : Nat) : Exhausted (X' k (recode S.code m)) := by
        obtain ⟨n, hn⟩ := hnone k
        rcases (h k m hm hi hc).eq_recode with ⟨e, n', hr, he⟩ | hr'
        · rw [hn] at hr
          cases hr
          exact absurd he hskip
        · rw [hr', hn]
          exact ⟨_, rfl⟩
      have hlimit' : limit X' (recode S.code m) = .error .exhausted (recode S.code m) := by
        rcases limit_cases X' (recode S.code m) with ⟨k, hk, -⟩ | ⟨-, hlimit'⟩
        · exact absurd (hnone' k) hk
        · exact hlimit'
      exact .inr ⟨.refl m, hc, fun _ ⟨_, he, _⟩ => (nomatch he), fun _ he => (nomatch he), hlimit'⟩

end Simulation

end BoardScript
