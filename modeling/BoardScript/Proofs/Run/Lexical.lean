/-
Calls do not depend on their caller. Nothing in a run looks at the scopes
that are suspended below those it suspends itself, so a run goes along
with the same run above any others (`Simulation.beneath`). A body begins
in a scope of its own, whose parent is the scope that its closure was made
in; so which scope calls it decides only what is put back behind the call
(`callClosure_eq`).
-/
import BoardScript.Proofs.Run.Calling

namespace BoardScript

open Simulation

-- =========================================================== scopes beneath

/-- Nothing changes but what is suspended below all others. -/
def Recoding.beneath (outer : Array ScopeId) : Recoding where
  closure := id
  span := id
  source := id
  created := id
  mode := id
  ticks := id
  outer := outer
  identity_closure := Recoding.identity.identity_closure
  text_closure := Recoding.identity.text_closure
  created_at := Recoding.identity.created_at

/-- A run beside the same run with other scopes suspended beneath it. -/
def Simulation.beneath (outer : Array ScopeId) : Simulation where
  code := .beneath outer
  Inv _ := True
  Keeps _ _ := True
  Skip _ := False
  Bad _ := False
  inv_later _ h := h
  keeps_mono _ h := h
  skip_returned _ := id
  bad_fault := Fault.isOverflow_of_false

namespace Machine

/-- The same machine as another caller finds it. -/
def calledFrom (current : ScopeId) (suspended : Array ScopeId) (m : Machine) : Machine :=
  { m with scopes := ⟨m.scopes.table, current, suspended⟩ }

/-- The machine on which a body begins, apart from who calls it. -/
def inside (m : Machine) (c : Closure) (args : List Value) : Machine :=
  (m.enter c args).calledFrom m.scopes.table.size #[]

end Machine

section

variable {outer : Array ScopeId} {m m₀ : Machine}

theorem recode_beneath (m : Machine) :
    recode (.beneath outer) m
      = m.calledFrom m.scopes.current (outer ++ m.scopes.suspended) := by
  have hrest : recode (.beneath outer) m = (recode .identity m).calledFrom m.scopes.current
      (outer ++ m.scopes.suspended) := rfl
  rw [hrest, recode_identity]

theorem recode_beneath_result (r : EStateM.Result Unwind Machine Value) :
    recode (.beneath outer) r = onMachine (recode (.beneath outer)) r := by
  cases r with
  | ok v n => exact congrArg (EStateM.Result.ok · _) (recode_identity v)
  | error e n => exact congrArg (EStateM.Result.error · _) (recode_identity e)

theorem recode_beneath_args (args : List Value) :
    recode (Simulation.beneath outer).code args = args :=
  recode_identity args

theorem span_beneath (span : Span) : (Simulation.beneath outer).code.span span = span := rfl

theorem clean_beneath {α : Type} [Recodable α] (x : α) : (Simulation.beneath outer).Clean m x :=
  fun _ _ => trivial

theorem follows_ownClosure (literal : FunctionLiteral) (compiled : Option Chunk) (source : Source) :
    (Simulation.beneath outer).Follows m₀ (makeClosure literal compiled source)
      (makeClosure literal compiled source) := by
  intro m _ _ _
  rw [makeClosure_eq, makeClosure_eq, dependencies_recode]
  cases literal.notFormula with
  | some node => exact .inr ⟨.refl m, clean_beneath m, clean_beneath _, fun _ _ => id, rfl⟩
  | none => exact ⟨.of_scopes rfl id rfl rfl rfl rfl, clean_beneath _, clean_beneath _, rfl⟩

/-- Environments above other scopes. -/
theorem beneath_environment {fuel : Nat} {call' call : Caller} {source : Source}
    (hcall : ∀ m₀ c args site, (Simulation.beneath outer).Follows m₀ (call' c args site)
      (call c args site)) :
    (Env.mk fuel call' checkCancelled source).Follows (.beneath outer) false
      ⟨fuel, call, checkCancelled, source⟩ where
  fuel := rfl
  source := rfl
  call m₀ c args site _ _ := by
    rw [recode_beneath_args]
    exact hcall m₀ c args site
  ask m₀ span := .of_natural (natural_checkCancelled (fun _ => rfl) span)
    (fun _ _ => natural_checkCancelled (fun _ => rfl) span) (steady_checkCancelled span)
  free h := nomatch h
  make m₀ literal := by
    rw [literalRecast_self span_beneath]
    exact follows_ownClosure literal none source

theorem beneath_calls (outer : Array ScopeId) (fuel : Nat) :
    (Simulation.beneath outer).Calls .standard .standard fuel where
  scope _ := rfl
  params _ := rfl
  enter _ _ _ _ _ _ := trivial
  refuse m site _ _ _ := .inr ⟨.refl m, clean_beneath m, clean_beneath _, fun _ _ => id, rfl⟩
  unknown _ _ _ _ := id
  body {call' call} hcall m₀ c _ := by
    have henv : (Env.mk fuel call' checkCancelled c.source).Follows (.beneath outer) false
        ⟨fuel, call, checkCancelled, c.source⟩ := beneath_environment fun m₀ c args site => by
      have h := hcall m₀ c args site trivial (clean_beneath args)
      rwa [recode_beneath_args] at h
    show (Simulation.beneath outer).Follows m₀ (c.body _) (c.body _)
    unfold Closure.body
    cases c.compiled with
    | some chunk =>
        exact Chunk.follows_run
          { around := henv
            still := ⟨fun _ => rfl, fun _ => rfl, fun _ => rfl⟩
            malformed := fun _ => id
            make := fun _ literal body _ => follows_ownClosure literal (some body) c.source } m₀
    | none =>
        have hbody := Node.follows henv c.literal.body none m₀
        rw [recast_self span_beneath] at hbody
        exact follows_bodyValue _ hbody

end

-- ===================================================================== calls

/-- A body does above any scopes what it does above none. -/
theorem body_beneath (fuel levels : Nat) (outer : Array ScopeId) (c : Closure) (m : Machine) :
    let env : Env := ⟨fuel, callClosure .standard fuel levels, checkCancelled, c.source⟩
    c.body env (recode (.beneath outer) m) = recode (.beneath outer) (c.body env m) ∧
      m.Later (after (c.body env m)) := by
  intro env
  have hcalls := beneath_calls outer fuel
  have hends := hcalls.body (fun m₀ c args site _ _ =>
    follows_callClosure hcalls levels m₀ c args site trivial (clean_beneath args)) m c trivial m
    (.refl m) trivial (clean_beneath m)
  refine ⟨hends.eq_recode.resolve_left fun ⟨_, _, _, h⟩ => h, ?_⟩
  cases hr : c.body env m with
  | ok v n => exact (hr ▸ hends).1
  | error e n => exact ((hr ▸ hends).resolve_left id).1

/-- Leaving a body that was entered from a scope puts back what was there. -/
theorem leave_beneath {n : Machine} (hn : n.scopes.suspended = #[]) (current : ScopeId)
    (suspended : Array ScopeId) :
    (recode (.beneath (suspended.push current)) n).leave suspended.size
      = (n.leave 0).calledFrom current suspended := by
  rw [recode_beneath, hn]
  simp [Machine.leave, Machine.calledFrom, Scopes.unwindTo, hn]

/-- Where a call is let in, the caller is what is put back behind the body,
and nothing else. -/
theorem callClosure_eq (fuel levels : Nat) (c : Closure) (args : List Value) (site : CallSite)
    (m : Machine) (hlimit : m.callDepth < m.options.maxCallDepth)
    (hscope : m.scopes.contains c.scope = true) :
    callClosure .standard fuel (levels + 1) c args site m
      = onMachine (fun n => (n.leave 0).calledFrom m.scopes.current m.scopes.suspended)
          (c.body ⟨fuel, callClosure .standard fuel levels, checkCancelled, c.source⟩
            (m.inside c args)) := by
  have henter : m.enter c args
      = recode (.beneath (m.scopes.suspended.push m.scopes.current)) (m.inside c args) := by
    rw [recode_beneath]
    simp [Machine.inside, Machine.calledFrom, Machine.enter, Scopes.push]
  obtain ⟨hbody, hlater⟩ := body_beneath fuel levels (m.scopes.suspended.push m.scopes.current) c
    (m.inside c args)
  rw [callClosure_succ, if_neg (Nat.not_le.2 hlimit), if_pos hscope, henter]
  show onMachine _ (c.body ⟨fuel, callClosure .standard fuel levels, checkCancelled, c.source⟩ _) = _
  rw [hbody, recode_beneath_result]
  have hleft := leave_beneath hlater.suspended m.scopes.current m.scopes.suspended
  revert hleft
  cases c.body _ (m.inside c args) with
  | ok v n => exact fun hleft => congrArg (EStateM.Result.ok v) hleft
  | error e n => exact fun hleft => congrArg (EStateM.Result.error e) hleft

/-- Lexical scoping: a closure, whether it has code or not, called with the
same arguments does the same whichever scope is current and whichever are
suspended. It comes to the same value or the same error, or goes on for
longer than its bounds either way, and leaves the same machine behind but
for the scopes of its caller, which are what they were. -/
theorem callClosure_calledFrom (fuel levels : Nat) (c : Closure) (args : List Value)
    (site : CallSite) (m : Machine) (current : ScopeId) (suspended : Array ScopeId) :
    callClosure .standard fuel levels c args site (m.calledFrom current suspended)
      = onMachine (Machine.calledFrom current suspended)
          (callClosure .standard fuel levels c args site m) := by
  cases levels with
  | zero => rfl
  | succ levels =>
      -- the limit and the scopes there are do not depend on the caller
      have hdepth : (m.calledFrom current suspended).options.maxCallDepth
            ≤ (m.calledFrom current suspended).callDepth
          ↔ m.options.maxCallDepth ≤ m.callDepth := Iff.rfl
      have hknown : (m.calledFrom current suspended).scopes.contains c.scope
          = m.scopes.contains c.scope := rfl
      by_cases hlimit : m.options.maxCallDepth ≤ m.callDepth
      · rw [callClosure_succ, callClosure_succ, if_pos (hdepth.2 hlimit), if_pos hlimit]
        rfl
      by_cases hscope : m.scopes.contains c.scope = true
      · rw [callClosure_eq _ _ _ _ _ m (Nat.lt_of_not_le hlimit) hscope,
          callClosure_eq _ _ _ _ _ (m.calledFrom current suspended) (Nat.lt_of_not_le hlimit) hscope]
        show onMachine _ (c.body _ (m.inside c args)) = onMachine _ (onMachine _ (c.body _ _))
        cases c.body _ (m.inside c args) <;> rfl
      · rw [callClosure_succ, callClosure_succ, if_neg (mt hdepth.1 hlimit), if_neg hlimit, hknown,
          if_neg hscope, if_neg hscope]
        rfl

end BoardScript
