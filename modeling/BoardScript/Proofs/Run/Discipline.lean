/-
What a run leaves as it found it, on every path. Two runs with different
hooks go along with each other as long as the hooks agree where they are
used (`Alike`); from this all the rest is read off by a choice of hooks.

A run with the standard hooks goes along with itself, so it stays in its
activation: behind it the current scope, the suspended ones, the count of
calls and the count of runs are what they were, and behind a call every
scope that was there binds what it bound. Hooks that do something else on
machines on which calls and suspended scopes do not match are never
noticed, so there are no such machines. And how a call too many is refused
is noticed by just those runs that fail for one.
-/
import BoardScript.Proofs.Run.Calling
import BoardScript.Run.Interpreter
import Mathlib

namespace BoardScript

open Simulation

-- ============================================================== alike runs

/-- Two choices of hooks that do the same on machines of a run, except that
nothing is said about ends to be skipped. -/
structure Alike (hooks' hooks : Hooks) where
  Inv : Machine → Prop
  Skip : Unwind → Prop
  Bad : RuntimeError → Prop
  later : ∀ {m n : Machine}, m.Later n → Inv m → Inv n
  enter : ∀ m c args, Inv m → m.callDepth < m.options.maxCallDepth → Inv (m.enter c args)
  steady : ∀ span, Steady (hooks.ask span)
  ask : ∀ m span, Inv m → hooks'.ask span m = hooks.ask span m
  refuse : ∀ m site, Inv m → m.options.maxCallDepth ≤ m.callDepth →
    ∃ e, hooks.refuse site m = .error e m ∧
      (Skip e ∨ hooks'.refuse site m = .error e m ∧
        ∃ error, e = .failed error ∧ ¬Bad error)
  skip_returned : ∀ v, ¬Skip (.returned v)
  bad_fault : ∀ {f : Fault} {span : Span}, Bad (.fault f span) → f.isOverflow = true
  bad_compile : ∀ cause, ¬Bad (.compile cause)

namespace Alike

variable {hooks' hooks : Hooks} (A : Alike hooks' hooks)

/-- The simulation in which nothing is recoded. -/
def simulation : Simulation where
  code := .identity
  Inv := A.Inv
  Keeps _ _ := True
  Skip := A.Skip
  Bad := A.Bad
  inv_later h := A.later h
  keeps_mono _ h := h
  skip_returned := A.skip_returned
  bad_fault := A.bad_fault

theorem recode_simulation {α : Type} [Recodable α] [LawfulRecodable α] (x : α) :
    recode A.simulation.code x = x :=
  recode_identity x

theorem clean {α : Type} [Recodable α] {m : Machine} (x : α) : A.simulation.Clean m x :=
  fun _ _ => trivial

/-- How alike runs end: nothing is said, or they end the same. -/
theorem ends_iff {α : Type} [Recodable α] [LawfulRecodable α] {m : Machine}
    {r' r : EStateM.Result Unwind Machine α} :
    A.simulation.Ends m r' r ↔ (∃ e n, r = .error e n ∧ A.Skip e) ∨
      m.Later (after r) ∧ r' = r ∧ ∀ error n, r = .error (.failed error) n → ¬A.Bad error := by
  cases r with
  | ok a n =>
      simp only [Ends, recode_simulation, reduceCtorEq, false_and, exists_false, false_or,
        false_implies, implies_true, and_true]
      exact ⟨fun h => ⟨h.1, h.2.2.2⟩, fun h => ⟨h.1, fun _ _ => trivial, fun _ _ => trivial, h.2⟩⟩
  | error e n =>
      simp only [Ends, recode_simulation]
      constructor
      · rintro (hskip | ⟨hn, -, -, hbad, hr⟩)
        · exact .inl ⟨e, n, rfl, hskip⟩
        · refine .inr ⟨hn, hr, fun error n' he => ?_⟩
          cases he
          exact hbad error rfl
      · rintro (⟨_, _, he, hskip⟩ | ⟨hn, hr, hbad⟩)
        · cases he
          exact .inl hskip
        · refine .inr ⟨hn, fun _ _ => trivial, fun _ _ => trivial, fun error he => ?_, hr⟩
          cases he
          exact hbad error n rfl

/-- An action that makes no difference where the invariant holds. -/
theorem follows {α : Type} [Recodable α] [LawfulRecodable α] {m₀ : Machine} {x' x : Eval α}
    (hs : Steady x) (h : ∀ m, A.Inv m → x' m = x m) : A.simulation.Follows m₀ x' x := by
  intro m _ hi _
  obtain ⟨hlater, hordinary⟩ := hs m
  rw [recode_simulation, h m hi, ends_iff]
  refine .inr ⟨hlater, rfl, fun error n he hbad => ?_⟩
  rw [he] at hordinary
  cases error with
  | fault f span =>
      have hf : f.isOverflow = false := hordinary
      rw [A.bad_fault hbad] at hf
      cases hf
  | compile cause => exact hordinary

/-- Environments around alike runs. -/
theorem environment {call' call : Caller} (fuel : Nat) (source : Source)
    (hcall : ∀ m₀ c args site, A.simulation.Follows m₀ (call' c args site) (call c args site)) :
    (Env.mk fuel call' hooks'.ask source).Follows A.simulation false
      ⟨fuel, call, hooks.ask, source⟩ where
  fuel := rfl
  source := rfl
  call m₀ c args site _ _ := by
    rw [recode_simulation]
    exact hcall m₀ c args site
  ask m₀ span := A.follows (A.steady span) fun m hi => A.ask m span hi
  free h := nomatch h
  make m₀ literal := by
    rw [literalRecast_self (show ∀ span, A.simulation.code.span span = span from fun _ => rfl)]
    exact A.follows (steady_makeClosure _ _ _) fun _ _ => rfl

/-- Trees are alike. -/
theorem eval {call' call : Caller} (fuel : Nat) (source : Source)
    (hcall : ∀ m₀ c args site, A.simulation.Follows m₀ (call' c args site) (call c args site))
    (node : Node) (m₀ : Machine) :
    A.simulation.Follows m₀ (node.eval ⟨fuel, call', hooks'.ask, source⟩ none)
      (node.eval ⟨fuel, call, hooks.ask, source⟩ none) := by
  have h := Node.follows (A.environment fuel source hcall) node none m₀
  rwa [recast_self (show ∀ span, A.simulation.code.span span = span from fun _ => rfl)] at h

/-- Chunks are alike, any code at all. -/
theorem run {call' call : Caller} (fuel : Nat) (source : Source)
    (hcall : ∀ m₀ c args site, A.simulation.Follows m₀ (call' c args site) (call c args site))
    (chunk : Chunk) (m₀ : Machine) :
    A.simulation.Follows m₀ (chunk.run ⟨fuel, call', hooks'.ask, source⟩)
      (chunk.run ⟨fuel, call, hooks.ask, source⟩) :=
  Chunk.follows_run
    { around := A.environment fuel source hcall
      still := Recoding.plain_identity.toStill
      malformed := fun _ => A.bad_compile _
      make := fun _ _ _ _ => A.follows (steady_makeClosure _ _ _) fun _ _ => rfl } m₀

/-- Bodies are alike. -/
theorem body {call' call : Caller} (fuel : Nat)
    (hcall : ∀ m₀ c args site, A.simulation.Follows m₀ (call' c args site) (call c args site))
    (m₀ : Machine) (c : Closure) :
    A.simulation.Follows m₀ (c.body ⟨fuel, call', hooks'.ask, c.source⟩)
      (c.body ⟨fuel, call, hooks.ask, c.source⟩) := by
  unfold Closure.body
  cases c.compiled with
  | some chunk => exact A.run fuel c.source hcall chunk m₀
  | none => exact follows_bodyValue _ (A.eval fuel c.source hcall c.literal.body m₀)

/-- Calls are alike. -/
theorem calls (fuel : Nat) : A.simulation.Calls hooks' hooks fuel where
  scope _ := rfl
  params _ := rfl
  enter m c args hi _ hlimit := A.enter m c args hi hlimit
  refuse m site hi _ hlimit := by
    show A.simulation.Ends m (hooks'.refuse site _) _
    rw [recode_simulation, A.ends_iff]
    obtain ⟨e, he, hskip | ⟨he', error, rfl, hbad⟩⟩ := A.refuse m site hi hlimit
    · exact .inl ⟨e, m, he, hskip⟩
    · refine .inr ⟨he ▸ .refl m, he'.trans he.symm, fun error' n h => ?_⟩
      cases he.symm.trans h
      exact hbad
  unknown m c _ _ := A.bad_compile _
  body hcall m₀ c _ := by
    refine A.body fuel (fun m₀ c args site => ?_) m₀ c
    have h := hcall m₀ c args site trivial (A.clean args)
    rwa [recode_simulation] at h

theorem callClosure (fuel levels : Nat) (m₀ : Machine) (c : Closure) (args : List Value)
    (site : CallSite) :
    A.simulation.Follows m₀ (BoardScript.callClosure hooks' fuel levels c args site)
      (BoardScript.callClosure hooks fuel levels c args site) := by
  have h := follows_callClosure (A.calls fuel) levels m₀ c args site trivial fun _ _ => trivial
  rwa [recode_simulation] at h

end Alike

-- ============================================================== whole runs

theorem always_id {α : Type} (x : Eval α) : always x id = x := by
  funext m
  unfold always
  cases x m <;> rfl

/-- A program with syntax errors fails for these. -/
theorem Parsed.faultless_ne_runtime (parsed : Parsed) (error : RuntimeError) :
    parsed.faultless ≠ .error (.runtime error) := by
  unfold faultless
  split <;> simp

/-- What an unwinding run comes to. -/
def Unwind.result : Unwind → Except Failure Value
  | .returned v => .ok v
  | .failed error => .error (.runtime error)
  | .exhausted => .error .exhausted

/-- A machine on which no run and no call is under way that was not under
way on another. -/
structure Machine.Restored (m m' : Machine) : Prop where
  current : m'.scopes.current = m.scopes.current
  suspended : m'.scopes.suspended = m.scopes.suspended
  callDepth : m'.callDepth = m.callDepth
  running : m'.running = m.running

namespace Machine

theorem Restored.refl (m : Machine) : m.Restored m := ⟨rfl, rfl, rfl, rfl⟩

theorem Restored.trans {m n k : Machine} (h : m.Restored n) (h' : n.Restored k) : m.Restored k :=
  ⟨h'.current.trans h.current, h'.suspended.trans h.suspended, h'.callDepth.trans h.callDepth,
    h'.running.trans h.running⟩

theorem Later.restored {m n : Machine} (h : m.Later n) : m.Restored n :=
  ⟨h.current, h.suspended, h.callDepth, h.running⟩

@[simp] theorem enterRun_scopes (m : Machine) : m.enterRun.scopes = m.scopes := by
  unfold enterRun
  split <;> rfl

@[simp] theorem enterRun_callDepth (m : Machine) : m.enterRun.callDepth = m.callDepth := by
  unfold enterRun
  split <;> rfl

@[simp] theorem enterRun_options (m : Machine) : m.enterRun.options = m.options := by
  unfold enterRun
  split <;> rfl

@[simp] theorem enterRun_running (m : Machine) : m.enterRun.running = m.running + 1 := by
  unfold enterRun
  split
  · rename_i hidle
    rw [hidle]
  · rfl

/-- Whatever a run does between its beginning and its end. -/
theorem restored_leaveRun {m n : Machine} (h : m.enterRun.Later n) :
    m.Restored (leaveRun m.scopes.depth n) := by
  have hsuspended := h.suspended
  rw [enterRun_scopes] at hsuspended
  have hstays : n.scopes.unwindTo m.scopes.depth = n.scopes := by
    simp [Scopes.unwindTo, Scopes.depth, hsuspended]
  refine ⟨?_, ?_, ?_, ?_⟩
  · rw [leaveRun, hstays, h.current, enterRun_scopes]
  · rw [leaveRun, hstays, hsuspended]
  · rw [leaveRun, h.callDepth, enterRun_callDepth]
  · rw [leaveRun, h.running, enterRun_running, Nat.add_sub_cancel]

end Machine

namespace Alike

variable {hooks' hooks : Hooks} (A : Alike hooks' hooks) {m : Machine}

/-- How whole runs from a machine go along: nothing is said, or they come to
the same, and the machine is back where it was. -/
def Comes (m : Machine) (p' p : Except Failure Value × Machine) : Prop :=
  (∃ e, p.1 = Unwind.result e ∧ A.Skip e) ∨
    p' = p ∧ m.Restored p.2 ∧ p.2.options = m.options ∧
      ∀ error, p.1 = .error (.runtime error) → ¬A.Bad error

/-- From how actions end to what they come to, with something put right in
between. -/
theorem comes_outcome {x' x : Eval Value} {n : Machine} {restore : Machine → Machine}
    (hrestore : ∀ k, n.Later k → m.Restored (restore k) ∧ (restore k).options = m.options)
    (h : A.simulation.Ends n (x' n) (x n)) :
    A.Comes m (Machine.outcome (always x' restore) n) (Machine.outcome (always x restore) n) := by
  rcases A.ends_iff.1 h with ⟨e, k, hr, hskip⟩ | ⟨hlater, hr', hbad⟩
  · refine .inl ⟨e, ?_, hskip⟩
    unfold Machine.outcome always
    rw [hr]
    cases e <;> rfl
  · refine .inr ?_
    unfold Machine.outcome always
    rw [hr']
    cases hr : x n with
    | ok v k =>
        rw [hr] at hlater
        exact ⟨rfl, (hrestore k hlater).1, (hrestore k hlater).2, fun _ he => (nomatch he)⟩
    | error e k =>
        rw [hr] at hlater
        cases e with
        | returned v =>
            exact ⟨rfl, (hrestore k hlater).1, (hrestore k hlater).2, fun _ he => (nomatch he)⟩
        | failed error =>
            refine ⟨rfl, (hrestore k hlater).1, (hrestore k hlater).2, fun error' he => ?_⟩
            cases he
            exact hbad error k hr
        | exhausted =>
            exact ⟨rfl, (hrestore k hlater).1, (hrestore k hlater).2, fun _ he => (nomatch he)⟩

/-- The program as an action. -/
theorem action (m₀ : Machine) (turns : Nat) (source : Source) (root : Node) :
    A.simulation.Follows m₀ (m.action hooks' turns source root)
      (m.action hooks turns source root) := by
  have hcall := A.callClosure turns (m.options.maxCallDepth + 1)
  unfold Machine.action
  cases m.options.mode with
  | tree => exact A.eval turns source hcall root m₀
  | compiled =>
      cases compileScript source root with
      | ok chunk => exact A.run turns source hcall chunk m₀
      | error cause =>
          intro n _ _ _
          refine A.ends_iff.2 (.inr ⟨.refl _, by rw [recode_simulation], fun error k he => ?_⟩)
          cases he
          cases cause with
          | notFormula span => exact fun hbad => nomatch A.bad_fault hbad
          | _ => exact A.bad_compile _

theorem executeHooked (hbegin : A.Inv m.enterRun) (turns : Nat) (source : Source) (root : Node) :
    A.Comes m (m.executeHooked hooks' turns source root)
      (m.executeHooked hooks turns source root) := by
  have hends := A.action (m := m) m.enterRun turns source root m.enterRun (.refl _) hbegin
    fun _ _ => trivial
  rw [recode_simulation] at hends
  refine A.comes_outcome (fun k hk => ⟨m.restored_leaveRun hk, ?_⟩) hends
  exact hk.options.trans m.enterRun_options

/-- Calling a value without arguments. -/
theorem follows_call (n : Machine) (turns : Nat) (source : Source) (function : Value)
    (site : CallSite) :
    A.simulation.Follows n
      (BoardScript.callValue (n.environment hooks' turns source).call function [] none site)
      (BoardScript.callValue (n.environment hooks turns source).call function [] none site) := by
  have h := follows_callValue (S := A.simulation) (A.clean function) (A.clean []) (A.clean none)
    fun c _ => A.callClosure turns (n.options.maxCallDepth + 1) n c [] site
  rwa [A.recode_simulation function] at h

/-- Calling what a run came to. -/
theorem callValue {n : Machine} (hi : A.Inv n) (hrestored : m.Restored n)
    (hoptions : n.options = m.options) (turns : Nat) (source : Source) (function : Value)
    (site : CallSite) :
    A.Comes m
      (Machine.outcome
        (BoardScript.callValue (n.environment hooks' turns source).call function [] none site) n)
      (Machine.outcome
        (BoardScript.callValue (n.environment hooks turns source).call function [] none site) n) := by
  have hends := A.follows_call n turns source function site n (.refl n) hi (A.clean n)
  rw [recode_simulation] at hends
  have hrestore (k : Machine) (hk : n.Later k) : m.Restored (id k) ∧ (id k).options = m.options :=
    ⟨hrestored.trans hk.restored, hk.options.trans hoptions⟩
  have hcomes := A.comes_outcome hrestore hends
  rwa [always_id, always_id] at hcomes

theorem callResult (hbegin : A.Inv m.enterRun)
    (hbehind : ∀ n, m.Restored n → n.options = m.options → A.Inv n) (turns : Nat)
    (source : Source) (parsed : Except Failure Node)
    (hparsed : ∀ error, parsed ≠ .error (.runtime error)) :
    A.Comes m (m.callResult hooks' turns source parsed)
      (m.callResult hooks turns source parsed) := by
  cases parsed with
  | error failure =>
      refine .inr ⟨rfl, .refl m, rfl, fun error he => ?_⟩
      cases he
      exact absurd rfl (hparsed error)
  | ok root =>
      have hrun := A.executeHooked hbegin turns source root
      simp only [Machine.callResult]
      generalize m.executeHooked hooks' turns source root = p' at hrun ⊢
      generalize m.executeHooked hooks turns source root = p at hrun ⊢
      obtain ⟨result, n⟩ := p
      rcases hrun with ⟨e, he, hskip⟩ | ⟨rfl, hrestored, hoptions, hbad⟩
      · cases e with
        | returned v => exact absurd hskip (A.skip_returned v)
        | failed error =>
            cases he
            exact .inl ⟨.failed error, rfl, hskip⟩
        | exhausted =>
            cases he
            exact .inl ⟨.exhausted, rfl, hskip⟩
      · cases result with
        | error failure => exact .inr ⟨rfl, hrestored, hoptions, hbad⟩
        | ok function =>
            exact A.callValue (hbehind n hrestored hoptions) hrestored hoptions turns source function _

theorem snippetHooked (hbegin : A.Inv m.enterRun)
    (hbehind : ∀ n, m.Restored n → n.options = m.options → A.Inv n) (turns : Nat)
    (expression : String) :
    A.Comes m (m.snippetHooked hooks' turns expression)
      (m.snippetHooked hooks turns expression) :=
  let source := Source.ofText (Machine.snippetText expression)
  A.callResult hbegin hbehind turns source (parseProgram m.options.parsing source)
    (parse m.options.parsing source).faultless_ne_runtime

end Alike

-- ========================================================= the choices made

/-- A run beside itself. -/
def Alike.standard : Alike .standard .standard where
  Inv _ := True
  Skip _ := False
  Bad _ := False
  later _ _ := trivial
  enter _ _ _ _ _ := trivial
  steady := steady_checkCancelled
  ask _ _ _ := rfl
  refuse _ _ _ _ := ⟨_, rfl, .inr ⟨rfl, _, rfl, id⟩⟩
  skip_returned _ := id
  bad_fault := Fault.isOverflow_of_false
  bad_compile _ := id

/-- As many calls are under way as scopes are suspended, and no more than
may be. -/
structure Machine.Level (m : Machine) : Prop where
  depth : m.callDepth = m.scopes.depth
  limit : m.callDepth ≤ m.options.maxCallDepth

theorem Machine.Level.settled {m n : Machine} (h : m.Level) (hd : n.callDepth = m.callDepth)
    (hs : n.scopes.suspended = m.scopes.suspended) (ho : n.options = m.options) : n.Level :=
  ⟨by rw [hd, h.depth, Scopes.depth, Scopes.depth, hs], by
    rw [hd, ho]
    exact h.limit⟩

/-- Hooks that do as the standard ones do on level machines, and refuse as
they do where as many calls are under way as may be. -/
structure Hooks.StandardWhenLevel (hooks : Hooks) : Prop where
  ask : ∀ m span, m.Level → hooks.ask span m = checkCancelled span m
  refuse : ∀ m site, m.Level → m.callDepth = m.options.maxCallDepth →
    hooks.refuse site m = overflow site m

/-- A run beside one that does anything else on machines that are not
level. -/
def Alike.level {hooks : Hooks} (h : hooks.StandardWhenLevel) : Alike hooks .standard where
  Inv := Machine.Level
  Skip _ := False
  Bad _ := False
  later h hi := hi.settled h.callDepth h.suspended h.options
  enter m c args hi hlimit := by
    refine ⟨?_, hlimit⟩
    show m.callDepth + 1 = (m.scopes.suspended.push m.scopes.current).size
    rw [Array.size_push, hi.depth, Scopes.depth]
  steady := steady_checkCancelled
  ask m span hi := h.ask m span hi
  refuse m site hi hlimit :=
    ⟨_, rfl, .inr ⟨h.refuse m site hi (Nat.le_antisymm hi.limit hlimit), _, rfl, id⟩⟩
  skip_returned _ := id
  bad_fault := Fault.isOverflow_of_false
  bad_compile _ := id

/-- The error of one call too many. -/
def RuntimeError.isOverflow : RuntimeError → Bool
  | .fault f _ => f.isOverflow
  | .compile _ => false

/-- A run beside one that refuses calls in any other way, up to the first
call that is refused. -/
def Alike.refused (refuse : CallSite → Eval Value) : Alike ⟨checkCancelled, refuse⟩ .standard where
  Inv _ := True
  Skip e := ∃ error, e = .failed error ∧ error.isOverflow = true
  Bad _ := False
  later _ _ := trivial
  enter _ _ _ _ _ := trivial
  steady := steady_checkCancelled
  ask _ _ _ := rfl
  refuse _ _ _ _ := ⟨_, rfl, .inl ⟨_, rfl, rfl⟩⟩
  skip_returned _ := fun ⟨_, h, _⟩ => nomatch h
  bad_fault := Fault.isOverflow_of_false
  bad_compile _ := id

/-- Refuses a call as if the run had been cut off. -/
def cutOff : Hooks := ⟨checkCancelled, fun _ => throw .exhausted⟩

/-- A run that is cut off at a call too many, beside the run. -/
def Alike.cutOff : Alike .standard cutOff where
  Inv _ := True
  Skip e := e = .exhausted
  Bad error := error.isOverflow = true
  later _ _ := trivial
  enter _ _ _ _ _ := trivial
  steady := steady_checkCancelled
  ask _ _ _ := rfl
  refuse _ _ _ _ := ⟨_, rfl, .inl rfl⟩
  skip_returned _ h := nomatch h
  bad_fault h := h
  bad_compile _ h := nomatch h

-- =================================================================== results

/-- What goes along with itself stays in its activation. -/
theorem later_of_follows {x : Eval Value} {m : Machine}
    (h : Alike.standard.simulation.Follows m x x) : m.Later (after (x m)) := by
  rcases Alike.standard.ends_iff.1 (h m (.refl m) trivial fun _ _ => trivial) with
    ⟨_, _, _, hskip⟩ | ⟨hlater, -⟩
  · exact hskip.elim
  · exact hlater

/-- A body stays in its activation. -/
theorem later_body (fuel levels : Nat) (c : Closure) (m : Machine) :
    m.Later (after (c.body ⟨fuel, callClosure .standard fuel levels, checkCancelled, c.source⟩ m)) :=
  later_of_follows (Alike.standard.body fuel (Alike.standard.callClosure fuel levels) m c)

/-- Behind a call every scope that there was before it binds what it bound:
a closure can rebind no variable but its own. -/
theorem callClosure_keeps_scopes (fuel levels : Nat) (c : Closure) (args : List Value)
    (site : CallSite) (m : Machine) (scope : ScopeId) (hscope : m.scopes.contains scope = true) :
    (after (callClosure .standard fuel levels c args site m)).scopes.table[scope]?
      = m.scopes.table[scope]? := by
  cases levels with
  | zero => rfl
  | succ levels =>
      rw [callClosure_succ]
      split
      · rfl
      split
      · rw [after_onMachine]
        exact kept_leave (later_body fuel levels c (m.enter c args)) (of_decide_eq_true hscope)
      · rfl

/-- A function that assigns a variable of the program around it, called
where the program has bound that variable. -/
theorem callClosure_keeps_global :
    let global : Scope := ⟨none, [("x", .boolean false)]⟩
    let m : Machine := { scopes := ⟨#[global], Scopes.globalId, #[]⟩ }
    let body : Node := .block [.assign ⟨"x", default⟩ (.boolean true default) default] default
    let c : Closure := ⟨0, ⟨false, [], body, default⟩, Scopes.globalId, [], none, default⟩
    let ended := callClosure .standard 1 1 c [] ⟨default, "f", none, default⟩ m
    (∃ n, ended = .ok .undefined n) ∧ m.scopes.contains Scopes.globalId = true ∧
      (after ended).scopes.table[Scopes.globalId]? = some global :=
  ⟨⟨_, by
      rw [callClosure_succ]
      simp only [Closure.body, bodyValue, Node.eval, evalStatements]
      rfl⟩, rfl, callClosure_keeps_scopes 1 1 _ _ _ _ _ rfl⟩

/-- An interpreter that runs nothing. -/
structure Machine.Idle (m : Machine) : Prop where
  running : m.running = 0
  callDepth : m.callDepth = 0
  suspended : m.scopes.suspended = #[]

theorem Machine.Idle.level {m : Machine} (h : m.Idle) : m.Level :=
  ⟨by rw [h.callDepth, Scopes.depth, h.suspended]; rfl, by rw [h.callDepth]; exact Nat.zero_le _⟩

/-- Whether a run failed for one call too many. -/
def Overflowed (ended : Except Failure Value × Machine) : Prop :=
  ∃ error, ended.1 = .error (.runtime error) ∧ error.isOverflow = true

/-- A run fails for one call too many just when it matters how such a call
is refused. -/
theorem overflowed_iff {m : Machine} (run : Hooks → Except Failure Value × Machine)
    (hrun : ∀ {hooks' hooks : Hooks} (A : Alike hooks' hooks), (∀ n, A.Inv n) →
      A.Comes m (run hooks') (run hooks)) :
    Overflowed (run .standard) ↔ ∃ refuse, run ⟨checkCancelled, refuse⟩ ≠ run .standard := by
  constructor
  · rintro ⟨error, herror, hover⟩
    refine ⟨cutOff.refuse, fun hsame => ?_⟩
    change run cutOff = run .standard at hsame
    rcases hrun Alike.cutOff (fun _ => trivial) with ⟨e, he, rfl⟩ | ⟨-, -, -, hbad⟩
    · rw [hsame, herror] at he
      cases he
    · exact hbad error (by rw [hsame, herror]) hover
  · rintro ⟨refuse, hother⟩
    rcases hrun (Alike.refused refuse) (fun _ => trivial) with ⟨_, he, error, rfl, hover⟩ | ⟨hsame, -⟩
    · exact ⟨error, he, hover⟩
    · exact absurd hsame hother

/-- What runs leave as they found it. Whatever a run of a program or of an
expression comes to, the current scope, the suspended ones, the count of
calls and the count of runs are what they were. If nothing else runs, then
hooks that differ from the standard ones anywhere but on level machines are
never noticed, which is to say that every machine on which a node or an
instruction is evaluated is level; and a run fails for one call too many
just when it matters how a closure is refused that is called while as many
calls are under way as may be. -/
theorem run_discipline (m : Machine) (turns : Nat) (source : Source) (root : Node)
    (expression : String) :
    m.Restored (m.executeWithin turns source root).2 ∧
    m.Restored (m.snippetWithin turns expression).2 ∧
    (m.Idle →
      (∀ hooks : Hooks, hooks.StandardWhenLevel →
        m.executeHooked hooks turns source root = m.executeWithin turns source root ∧
        m.snippetHooked hooks turns expression = m.snippetWithin turns expression) ∧
      (Overflowed (m.executeWithin turns source root) ↔
        ∃ refuse, m.executeHooked ⟨checkCancelled, refuse⟩ turns source root
          ≠ m.executeWithin turns source root) ∧
      (Overflowed (m.snippetWithin turns expression) ↔
        ∃ refuse, m.snippetHooked ⟨checkCancelled, refuse⟩ turns expression
          ≠ m.snippetWithin turns expression)) := by
  refine ⟨?_, ?_, fun hidle => ⟨fun hooks h => ⟨?_, ?_⟩, ?_, ?_⟩⟩
  · rcases Alike.standard.executeHooked trivial turns source root with ⟨_, _, h⟩ | ⟨-, h, -⟩
    · exact h.elim
    · exact h
  · rcases Alike.standard.snippetHooked trivial (fun _ _ _ => trivial) turns expression with ⟨_, _, h⟩ | ⟨-, h, -⟩
    · exact h.elim
    · exact h
  · have hbegin : m.enterRun.Level := hidle.level.settled m.enterRun_callDepth
      (by rw [m.enterRun_scopes]) m.enterRun_options
    rcases (Alike.level h).executeHooked hbegin turns source root with ⟨_, _, h⟩ | ⟨h, -⟩
    · exact h.elim
    · exact h
  · have hbegin : m.enterRun.Level := hidle.level.settled m.enterRun_callDepth
      (by rw [m.enterRun_scopes]) m.enterRun_options
    have hbehind (n : Machine) (hn : m.Restored n) (ho : n.options = m.options) : n.Level :=
      hidle.level.settled hn.callDepth hn.suspended ho
    rcases (Alike.level h).snippetHooked hbegin hbehind turns expression with ⟨_, _, h⟩ | ⟨h, -⟩
    · exact h.elim
    · exact h
  · exact overflowed_iff (fun hooks => m.executeHooked hooks turns source root)
      fun A hi => A.executeHooked (hi _) turns source root
  · exact overflowed_iff (fun hooks => m.snippetHooked hooks turns expression)
      fun A hi => A.snippetHooked (hi _) (fun n _ _ => hi n) turns expression

/-- The program `f = function () { return f(); }; f();`. -/
def Node.recursing (s : Span) : Node :=
  let again : Node := .call (.identifier "f" s) [] s
  .block [.assign ⟨"f", s⟩ (.function [] (.block [.returnValue again s] s) s s) s,
    .expression again s] s

/-- A function that calls itself makes one call too many, which is noticed
where it is refused, and the run leaves all as it was. -/
theorem run_discipline_recursing :
    let m := { Machine.withBuiltins with options := { maxCallDepth := 3 } }
    let root := Node.recursing default
    m.Idle ∧ m.Restored (m.executeWithin 1 default root).2 ∧
      (∀ hooks : Hooks, hooks.StandardWhenLevel →
        m.executeHooked hooks 1 default root = m.executeWithin 1 default root) ∧
      Overflowed (m.executeWithin 1 default root) ∧
      ∃ refuse, m.executeHooked ⟨checkCancelled, refuse⟩ 1 default root
        ≠ m.executeWithin 1 default root := by
  intro m root
  have hidle : m.Idle := ⟨rfl, rfl, rfl⟩
  obtain ⟨hrestored, -, hlevel⟩ := run_discipline m 1 default root ""
  obtain ⟨hstandard, hoverflowed, -⟩ := hlevel hidle
  have hover : Overflowed (m.executeWithin 1 default root) := by
    have hends : (m.executeWithin 1 default root).1
        = .error (.runtime (.fault (.stackOverflow 3) default)) := by
      simp only [m, root, Node.recursing, Machine.executeWithin, Machine.executeHooked, Machine.action,
        Node.eval, evalStatements]
      cbv
    exact ⟨_, hends, rfl⟩
  exact ⟨hidle, hrestored, fun hooks h => (hstandard hooks h).1, hover, hoverflowed.1 hover⟩

end BoardScript
