/-
Calling closures. A call enters a scope, runs the body and leaves all that
the body entered (`callClosure_succ`). A body stays in its activation, so
the machine that a call leaves behind is one of the activation that it was
made in, and every scope that was there before the call binds what it
bound (`later_leave`, `kept_leave`).

By induction over the nesting of calls, calls follow calls
(`Simulation.follows_callClosure`).
-/
import BoardScript.Proofs.Run.Execute
import BoardScript.Run.Activation

namespace BoardScript

open Simulation

-- ====================================================== entering and leaving

namespace Machine

/-- The machine on which the body of a closure begins. -/
def enter (m : Machine) (c : Closure) (args : List Value) : Machine :=
  { m with callDepth := m.callDepth + 1, scopes := m.scopes.push c.scope c.params args }

/-- What is put right behind a call that began at a depth. -/
def leave (depth : Nat) (m : Machine) : Machine :=
  { m with scopes := m.scopes.unwindTo depth, callDepth := m.callDepth - 1 }

end Machine

/-- The body of a closure, from its code or from its tree. -/
def Closure.body (env : Env) (c : Closure) : Eval Value :=
  match c.compiled with
  | some chunk => chunk.run env
  | none => bodyValue c.literal.isMap (c.literal.body.eval env none)

/-- A result on another machine. -/
def onMachine {α : Type} (f : Machine → Machine) :
    EStateM.Result Unwind Machine α → EStateM.Result Unwind Machine α
  | .ok a m => .ok a (f m)
  | .error e m => .error e (f m)

theorem after_onMachine {α : Type} (f : Machine → Machine) (r : EStateM.Result Unwind Machine α) :
    after (onMachine f r) = f (after r) := by
  cases r <;> rfl

theorem Scopes.unwindTo_depth (s : Scopes) : s.unwindTo s.depth = s := by
  simp [unwindTo, depth]

theorem enterScope_eq (c : Closure) (args : List Value) (m : Machine) :
    enterScope c args m =
      if m.scopes.contains c.scope then
        .ok () { m with scopes := m.scopes.push c.scope c.params args }
      else .error (.failed (.compile (.malformed (.unknownScope c.scope)))) m := by
  show (if m.scopes.contains c.scope then _ else _ : Eval Unit) m = _
  split <;> rfl

/-- A call of a closure with a body: counted, and between entering the
scope of the call and leaving all that was entered. -/
def enclosed (refusal : Eval Value) (c : Closure) (args : List Value) (body : Eval Value) :
    Eval Value :=
  countingCall refusal (leavingScopes (enterScope c args >>= fun _ => body))

/-- A call: refused at the limit, else the body between entering and
leaving. -/
theorem enclosed_eq (refusal : Eval Value) (c : Closure) (args : List Value) (body : Eval Value)
    (m : Machine) :
    enclosed refusal c args body m =
      if m.options.maxCallDepth ≤ m.callDepth then refusal m
      else if m.scopes.contains c.scope then
        onMachine (.leave m.scopes.depth) (body (m.enter c args))
      else .error (.failed (.compile (.malformed (.unknownScope c.scope)))) m := by
  unfold enclosed
  by_cases hlimit : m.options.maxCallDepth ≤ m.callDepth
  · simp only [countingCall, hlimit, if_true]
  · simp only [countingCall, hlimit, if_false, leavingScopes, always, bind, EStateM.bind,
      enterScope_eq]
    cases m.scopes.contains c.scope with
    | true =>
        simp only [if_true]
        show _ = onMachine _ (body (m.enter c args))
        simp only [Machine.enter]
        generalize body _ = r
        cases r <;> rfl
    | false => simp [Scopes.unwindTo_depth]

theorem callClosure_enclosed (hooks : Hooks) (fuel levels : Nat) (c : Closure)
    (args : List Value) (site : CallSite) :
    callClosure hooks fuel (levels + 1) c args site = enclosed (hooks.refuse site) c args
      (c.body ⟨fuel, callClosure hooks fuel levels, hooks.ask, c.source⟩) := rfl

theorem callClosure_succ (hooks : Hooks) (fuel levels : Nat) (c : Closure)
    (args : List Value) (site : CallSite) (m : Machine) :
    callClosure hooks fuel (levels + 1) c args site m =
      if m.options.maxCallDepth ≤ m.callDepth then hooks.refuse site m
      else if m.scopes.contains c.scope then
        onMachine (.leave m.scopes.depth)
          (c.body ⟨fuel, callClosure hooks fuel levels, hooks.ask, c.source⟩ (m.enter c args))
      else .error (.failed (.compile (.malformed (.unknownScope c.scope)))) m := by
  rw [callClosure_enclosed, enclosed_eq]

-- ================================================================ discipline

section

variable {m n : Machine} {c : Closure} {args : List Value}

theorem table_leave (depth : Nat) : (n.leave depth).scopes.table = n.scopes.table := by
  simp only [Machine.leave, Scopes.unwindTo]
  split <;> rfl

/-- Scopes that were there before a call are the same behind it. -/
theorem kept_leave (h : (m.enter c args).Later n) {scope : ScopeId}
    (hscope : scope < m.scopes.table.size) :
    (n.leave m.scopes.depth).scopes.table[scope]? = m.scopes.table[scope]? := by
  have hsize : (m.enter c args).scopes.table.size = m.scopes.table.size + 1 := Array.size_push ..
  have hothers := h.others scope (hsize ▸ Nat.lt_succ_of_lt hscope) (Nat.ne_of_lt hscope)
  rw [table_leave, hothers, Array.getElem?_eq_getElem hscope]
  exact Array.getElem?_push_lt hscope

/-- What a body leaves behind once it is left is a machine of the activation
that the call was made in. -/
theorem later_leave (hscope : m.scopes.contains c.scope = true) (h : (m.enter c args).Later n) :
    m.Later (n.leave m.scopes.depth) := by
  have hsuspended : n.scopes.suspended = m.scopes.suspended.push m.scopes.current := h.suspended
  have hleft : n.scopes.unwindTo m.scopes.depth
      = ⟨n.scopes.table, m.scopes.current, m.scopes.suspended⟩ := by
    simp [Scopes.unwindTo, Scopes.depth, hsuspended]
  refine ⟨h.cancelled, ?_, fun scope hlt _ => kept_leave h hlt, ?_, ?_, ?_, h.running, h.options,
    h.ticks⟩
  · rw [table_leave]
    exact (Scopes.Grown.push _ rfl (of_decide_eq_true hscope)).trans h.grown
  · rw [Machine.leave, hleft]
  · rw [Machine.leave, hleft]
  · have hdepth : n.callDepth = m.callDepth + 1 := h.callDepth
    rw [Machine.leave, hdepth, Nat.add_sub_cancel]

end

-- ============================================================ recoded calls

section

variable {g : Recoding}

theorem Scopes.bindParams_recode (params : List String) (args : List Value) :
    bindParams params (recode g args) = recode g (bindParams params args) := by
  have hfold : ∀ (named : List (String × Nat)) (scope : Scope),
      named.foldl (fun scope p => Scope.define p.1 ((recode g args).getD p.2 .undefined) scope)
          (recode g scope)
        = recode g (named.foldl (fun scope p =>
            Scope.define p.1 (args.getD p.2 .undefined) scope) scope) := by
    intro named
    induction named with
    | nil => exact fun _ => rfl
    | cons p named ih =>
        intro scope
        rw [List.foldl_cons, List.foldl_cons, ← ih, getD_recode _ _ _ rfl, Scope.define_recode]
  exact congrArg Scope.locals (hfold params.zipIdx ⟨none, []⟩)

theorem Scopes.push_recode (s : Scopes) (parent : ScopeId) (params : List String)
    (args : List Value) :
    (recode g s).push parent params (recode g args) = recode g (s.push parent params args) := by
  simp only [push, bindParams_recode]
  simp [recode]

theorem Machine.enter_recode {c : Closure} (hscope : (g.closure c).scope = c.scope)
    (hparams : (g.closure c).params = c.params) (m : Machine) (args : List Value) :
    (recode g m).enter (g.closure c) (recode g args) = recode g (m.enter c args) := by
  simp only [enter, scopes_recode, hscope, hparams, Scopes.push_recode]
  rfl

theorem Scopes.depth_recode (s : Scopes) : (recode g s).depth = g.outer.size + s.depth :=
  Array.size_append

/-- What was suspended below stays suspended. -/
theorem Scopes.unwindTo_recode (depth : Nat) (s : Scopes) :
    (recode g s).unwindTo (g.outer.size + depth) = recode g (s.unwindTo depth) := by
  have hfound : (recode g s).suspended[g.outer.size + depth]? = s.suspended[depth]? := by
    simp only [recode]
    rw [Array.getElem?_append_right (Nat.le_add_right _ _), Nat.add_sub_cancel_left]
  unfold Scopes.unwindTo
  rw [hfound]
  cases s.suspended[depth]? with
  | none => rfl
  | some scope => simp [recode, Array.extract_append, Array.extract_eq_self_of_le]

theorem Machine.leave_recode (depth : Nat) (m : Machine) :
    (recode g m).leave (g.outer.size + depth) = recode g (m.leave depth) := by
  simp only [leave, scopes_recode, Scopes.unwindTo_recode]
  rfl

end

-- ===================================================================== calls

/-- What calls that go along with each other need: a closure keeps its scope
and its parameters, bodies go along with each other and so do refusals, and
what holds of machines holds of the one that a body begins on. -/
structure Simulation.Calls (S : Simulation) (hooks' hooks : Hooks) (fuel : Nat) : Prop where
  scope : ∀ c, (S.code.closure c).scope = c.scope
  params : ∀ c, (S.code.closure c).params = c.params
  enter : ∀ m c args, S.Inv m → S.Fine m c → m.callDepth < m.options.maxCallDepth →
    S.Inv (m.enter c args)
  refuse : ∀ m site, S.Inv m → S.Clean m m → m.options.maxCallDepth ≤ m.callDepth →
    S.Ends m (hooks'.refuse (recode S.code site) (recode S.code m)) (hooks.refuse site m)
  unknown : ∀ m c, S.Fine m c → m.scopes.contains c.scope = false →
    ¬S.Bad (.compile (.malformed (.unknownScope c.scope)))
  body : ∀ {call' call : Caller},
    (∀ m₀ c args site, S.Fine m₀ c → S.Clean m₀ args → S.Follows m₀
      (call' (S.code.closure c) (recode S.code args) (recode S.code site)) (call c args site)) →
    ∀ m₀ c, S.Fine m₀ c → S.Follows m₀
      ((S.code.closure c).body ⟨fuel, call', hooks'.ask, (S.code.closure c).source⟩)
      (c.body ⟨fuel, call, hooks.ask, c.source⟩)

namespace Simulation

variable {S : Simulation} {m n : Machine}

/-- What a body is worth to its caller. -/
theorem follows_bodyValue {x' x : Eval Value} (isMap : Bool) (h : S.Follows m x' x) :
    S.Follows m (bodyValue isMap x') (bodyValue isMap x) := by
  intro n hn hi hc
  have hbody := h n hn hi hc
  unfold bodyValue
  cases hr : x n with
  | ok v n' =>
      rw [hr] at hbody
      obtain ⟨hn', hcn, hcv, hr'⟩ := hbody
      rw [hr']
      cases isMap with
      | true => exact ⟨hn', hcn, hcv, rfl⟩
      | false => exact ⟨hn', hcn, clean_undefined, rfl⟩
  | error e n' =>
      rw [hr] at hbody
      cases e with
      | returned v =>
          obtain ⟨hn', hcn, hcv, -, hr'⟩ := hbody.resolve_left (S.skip_returned v)
          rw [hr']
          exact ⟨hn', hcn, fun c hv => hcv c ⟨v, rfl, hv⟩, rfl⟩
      | failed error =>
          refine hbody.imp_right fun ⟨hn', hcn, hce, hbad, hr'⟩ => ⟨hn', hcn, hce, hbad, ?_⟩
          rw [hr']
          rfl
      | exhausted =>
          refine hbody.imp_right fun ⟨hn', hcn, hce, hbad, hr'⟩ => ⟨hn', hcn, hce, hbad, ?_⟩
          rw [hr']
          rfl

/-- Leaving changes nothing about closures. -/
theorem clean_leave {α : Type} [Recodable α] {x : α} (h : S.Clean n x) (depth : Nat) :
    S.Clean (n.leave depth) x := by
  intro c hc
  rw [Fine, table_leave]
  exact h c hc

theorem clean_left (h : S.Clean n n) (depth : Nat) : S.Clean (n.leave depth) (n.leave depth) := by
  intro c hc
  refine clean_leave h depth c (hc.imp_right fun hscopes => ?_)
  simp only [Holds, table_leave] at hscopes
  exact hscopes

/-- A machine that a body begins on holds what the machine and the arguments
hold. -/
theorem clean_enter {c : Closure} {args : List Value} (hm : S.Clean m m) (hc : S.Fine m c)
    (ha : S.Clean m args) : S.Clean (m.enter c args) (m.enter c args) := by
  have hgrown : m.scopes.table.size ≤ (m.enter c args).scopes.table.size := by
    rw [show (m.enter c args).scopes.table.size = m.scopes.table.size + 1 from Array.size_push ..]
    exact Nat.le_succ _
  have hclosure : (Recoding.moving (S.Fine m)).closure c = c := Recoding.moving_closure.2 hc
  have hfixed : recode (.moving (S.Fine m)) (m.enter c args) = m.enter c args := by
    rw [← Machine.enter_recode (by rw [hclosure]) (by rw [hclosure]), hclosure,
      recode_moving_eq.2 hm, recode_moving_eq.2 ha]
  exact fun c' hc' => S.keeps_mono hgrown (recode_moving_eq.1 hfixed c' hc')

theorem Ends.onMachine_leave {α : Type} [Recodable α] {c : Closure} {args : List Value}
    {r' r : EStateM.Result Unwind Machine α} (hscope : m.scopes.contains c.scope = true)
    (h : S.Ends (m.enter c args) r' r) :
    S.Ends m (onMachine (.leave (recode S.code m).scopes.depth) r')
      (onMachine (.leave m.scopes.depth) r) := by
  rw [scopes_recode, Scopes.depth_recode]
  cases r with
  | ok a n =>
      obtain ⟨hn, hcn, hca, rfl⟩ := h
      exact ⟨later_leave hscope hn, clean_left hcn _, clean_leave hca _,
        congrArg (EStateM.Result.ok _) (Machine.leave_recode _ n)⟩
  | error e n =>
      rcases h with hskip | ⟨hn, hcn, hce, hbad, rfl⟩
      · exact .inl hskip
      · exact .inr ⟨later_leave hscope hn, clean_left hcn _, clean_leave hce _, hbad,
          congrArg (EStateM.Result.error _) (Machine.leave_recode _ n)⟩

/-- Calls with bodies that go along with each other. -/
theorem follows_enclosed {m₀ : Machine} {c : Closure} {args : List Value}
    {refusal' refusal body' body : Eval Value} (hfine : S.Fine m₀ c) (hargs : S.Clean m₀ args)
    (hscope : (S.code.closure c).scope = c.scope) (hparams : (S.code.closure c).params = c.params)
    (henter : ∀ m, S.Inv m → S.Fine m c → m.callDepth < m.options.maxCallDepth →
      S.Inv (m.enter c args))
    (hrefuse : ∀ m, S.Inv m → S.Clean m m → m.options.maxCallDepth ≤ m.callDepth →
      S.Ends m (refusal' (recode S.code m)) (refusal m))
    (hunknown : ∀ m, S.Fine m c → m.scopes.contains c.scope = false →
      ¬S.Bad (.compile (.malformed (.unknownScope c.scope))))
    (hbody : ∀ m : Machine, S.Fine (m.enter c args) c → m.scopes.contains c.scope = true →
      S.Follows (m.enter c args) body' body) :
    S.Follows m₀ (enclosed refusal' (S.code.closure c) (recode S.code args) body')
      (enclosed refusal c args body) := by
  intro m hm hi hc
  rw [enclosed_eq, enclosed_eq]
  have hfine := fine_later hm hfine
  have hlimit : (recode S.code m).options.maxCallDepth = m.options.maxCallDepth := rfl
  have hdepth : (recode S.code m).callDepth = m.callDepth := rfl
  have hknown : (recode S.code m).scopes.contains (S.code.closure c).scope
      = m.scopes.contains c.scope := by
    simp only [Scopes.contains, hscope]
    rw [show (recode S.code m).scopes.table.size = m.scopes.table.size from size_recode _]
  rw [hlimit, hdepth, hknown]
  split
  · -- one call too many
    exact hrefuse m hi hc ‹_›
  split
  · -- the body
    have hbegin := henter m hi hfine (Nat.lt_of_not_le ‹_›)
    have hfine' : S.Fine (m.enter c args) c := by
      refine S.keeps_mono ?_ hfine
      rw [show (m.enter c args).scopes.table.size = m.scopes.table.size + 1 from
        Array.size_push ..]
      exact Nat.le_succ _
    have hends := hbody m hfine' ‹_› _ (.refl _) hbegin (clean_enter hc hfine (hargs.later hm))
    rw [Machine.enter_recode hscope hparams]
    exact hends.onMachine_leave ‹_›
  · rename_i hother
    refine .inr ⟨.refl m, hc, fun c ⟨_, he, _⟩ => (nomatch he), ?_, by rw [hscope]; rfl⟩
    rintro error he
    cases he
    exact hunknown m hfine (Bool.eq_false_iff.2 hother)

/-- Calls follow calls. The induction is over how deep they nest. -/
theorem follows_callClosure {hooks' hooks : Hooks} {fuel : Nat} (h : S.Calls hooks' hooks fuel)
    (levels : Nat) : ∀ m₀ c args site, S.Fine m₀ c → S.Clean m₀ args → S.Follows m₀
      (callClosure hooks' fuel levels (S.code.closure c) (recode S.code args) (recode S.code site))
      (callClosure hooks fuel levels c args site) := by
  induction levels with
  | zero => exact fun m₀ c args site _ _ => .exhausted
  | succ levels ih =>
      intro m₀ c args site hfine hargs
      rw [callClosure_enclosed, callClosure_enclosed]
      exact follows_enclosed hfine hargs (h.scope c) (h.params c)
        (fun m hi hc hlimit => h.enter m c args hi hc hlimit)
        (fun m hi hc hlimit => h.refuse m site hi hc hlimit) (fun m => h.unknown m c)
        fun m hc _ => h.body ih _ c hc

end Simulation

end BoardScript
