/-
Running what was written out. A run does not depend on where its program
stands in a text, nor on whether bodies have braces: apart from places, it
comes to what the program without places comes to when no one asks whether
to stop (`placeless_run`). A program and its own text without places are
the same tree, so running the text of a program shows what running the
program shows (`run_surface`).
-/
import BoardScript.Proofs.Program.RoundTrip
import BoardScript.Proofs.Run.Discipline

namespace BoardScript

open Simulation

-- =============================================================== placeless runs

/-- No place is kept, and every body is a block. -/
def Recoding.placeless : Recoding where
  closure c := { c with literal := c.literal.recast nowhere true, source := default }
  span := nowhere
  source _ := default
  created c := .at c.object default default
  mode := id
  ticks _ := none
  identity_closure _ := rfl
  text_closure c := literal_recast nowhere true c.literal
  created_at _ _ _ := rfl

/-- The end of a run that was stopped. -/
def Unwind.Stopped (e : Unwind) : Prop := ∃ span, e = .failed (.fault .cancelled span)

/-- A run from trees beside the same run without places, as long as it is
not stopped. -/
def Simulation.placeless : Simulation where
  code := .placeless
  Inv _ := True
  Keeps _ c := c.compiled = none
  Skip := Unwind.Stopped
  Bad _ := False
  inv_later _ h := h
  keeps_mono _ h := h
  skip_returned _ := fun ⟨_, h⟩ => nomatch h
  bad_fault := Fault.isOverflow_of_false

/-- Nothing is asked. -/
def Hooks.free : Hooks := ⟨fun _ => pure (), overflow⟩

namespace Simulation

/-- Asking whether to stop, if the answer is no. -/
theorem follows_checkCancelled (m₀ : Machine) (span : Span) :
    placeless.Follows m₀ (pure ()) (checkCancelled span) := by
  intro m _ _ hc
  have hgo (left : Option Nat) (hleft : left.isSome = m.ticks.isSome) :
      placeless.Ends m (.ok () (recode Recoding.placeless m)) (.ok () { m with ticks := left }) :=
    ⟨.of_scopes rfl id rfl rfl rfl hleft, hc, fun _ h => h.elim, rfl⟩
  unfold checkCancelled
  split
  · split
    · exact .inl ⟨span, rfl⟩
    · exact hgo m.ticks rfl
  · exact .inl ⟨span, rfl⟩
  · rename_i hleft
    split
    · exact .inl ⟨span, rfl⟩
    · exact hgo _ (by rw [hleft]; rfl)

theorem follows_recastClosure (m₀ : Machine) (literal : FunctionLiteral) (source : Source) :
    placeless.Follows m₀ (makeClosure (literal.recast nowhere true) none default)
      (makeClosure literal none source) := by
  intro m _ _ hc
  rw [makeClosure_eq, makeClosure_eq]
  have hformula : (literal.recast nowhere true).notFormula
      = literal.notFormula.map (Node.recast nowhere true) := by
    unfold FunctionLiteral.notFormula FunctionLiteral.recast
    cases literal.isMap with
    | true => exact notFormula_recast nowhere true literal.body
    | false => rfl
  rw [hformula]
  cases literal.notFormula with
  | some node =>
      refine .inr ⟨.refl m, hc, fun c ⟨_, he, _⟩ => (nomatch he), fun _ _ h => h, ?_⟩
      simp only [Option.map_some, span_recast]
      rfl
  | none =>
      have hdependencies : (recode placeless.code m).dependencies (literal.recast nowhere true)
          = m.dependencies literal := by
        rw [dependencies_recode]
        simp only [Machine.dependencies, FunctionLiteral.recast, namesLookedUp_recast, texts_recast]
      refine ⟨.of_scopes rfl id rfl rfl rfl rfl, hc, ?_, ?_⟩
      · rintro c h
        cases h
        rfl
      · show EStateM.Result.ok (Value.closure ⟨_, _, _, Machine.dependencies _ _, _, _⟩) _ = _
        rw [hdependencies]
        rfl

/-- Environments with and without places. -/
theorem placeless_environment {call' call : Caller}
    (hcall : ∀ m₀ c args site, placeless.Fine m₀ c → placeless.Clean m₀ args → placeless.Follows m₀
      (call' (placeless.code.closure c) (recode placeless.code args) (recode placeless.code site))
      (call c args site)) (fuel : Nat) (source : Source) :
    (Env.mk fuel call' Hooks.free.ask default).Follows placeless true
      ⟨fuel, call, checkCancelled, source⟩ where
  fuel := rfl
  source := rfl
  call := hcall
  ask := follows_checkCancelled
  free _ _ := rfl
  make m₀ literal := follows_recastClosure m₀ literal source

theorem placeless_calls (fuel : Nat) : placeless.Calls .free .standard fuel where
  scope _ := rfl
  params c := texts_recast nowhere c.literal.params
  enter _ _ _ _ _ _ := trivial
  refuse m site _ hc _ :=
    .inr ⟨.refl m, hc, fun c ⟨_, he, _⟩ => (nomatch he), fun _ _ h => h, rfl⟩
  unknown _ _ _ _ h := h
  body hcall m₀ c hfine := by
    have hcompiled : c.compiled = none := hfine
    have hbody := Node.follows (placeless_environment hcall fuel c.source) c.literal.body none m₀
    simp only [Closure.body, placeless, Recoding.placeless, hcompiled]
    exact follows_bodyValue c.literal.isMap hbody

end Simulation

/-- What a program without places comes to on a machine without places, if
it is not stopped. -/
def Machine.placelessAction (m : Machine) (turns : Nat) (root : Node) : Eval Value :=
  root.braced.eval ⟨turns, callClosure .free turns (m.options.maxCallDepth + 1), Hooks.free.ask, default⟩
    none

/-- A run goes along with the run without places. -/
theorem placeless_run {m : Machine} (hmode : m.options.mode = .tree)
    (hclean : placeless.Clean m m) (turns : Nat) (source : Source) (root : Node) :
    placeless.Ends m.enterRun (m.placelessAction turns root (recode placeless.code m.enterRun))
      (m.action .standard turns source root m.enterRun) := by
  have hcall := follows_callClosure (placeless_calls turns) (m.options.maxCallDepth + 1)
  have hfollows := Node.follows (placeless_environment hcall turns source) root none m.enterRun
  have henter : placeless.Clean m.enterRun m.enterRun := by
    unfold Machine.enterRun
    split <;> exact hclean
  rw [Machine.action, hmode]
  exact hfollows m.enterRun (.refl _) trivial henter

-- ============================================================== what is shown

/-- An error apart from its place. -/
def RuntimeError.unplaced : RuntimeError → RuntimeError
  | .fault f _ => .fault f default
  | .compile cause => .compile cause

def Warning.unplaced : Warning → Warning
  | .shadowed name _ => .shadowed name default
  | .deprecatedUse _ => .deprecatedUse default
  | .deprecatedDelete _ => .deprecatedDelete default

def Failure.unplaced : Failure → Failure
  | .runtime error => .runtime error.unplaced
  | other => other

/-- What a run shows apart from places: the text of its value or the
failure, the text written, the warnings, and the identifier and name of
each object made. -/
structure Shown where
  result : Except Failure String
  output : String
  warnings : List Warning
  created : List (String × String)

/-- What is shown of a machine behind a run. -/
def Machine.shown (m : Machine) (result : Except Failure String) : Shown :=
  ⟨result.mapError Failure.unplaced, m.output, m.warnings.toList.map Warning.unplaced,
    m.created.toList.map fun c => (m.heap.hostId c.object, m.heap.hostName c.object)⟩

/-- What a run shows. -/
def shown (ended : Except Failure Value × Machine) : Shown :=
  ended.2.shown (ended.1.map ended.2.heap.text)

/-- The same of an end that was not yet put right. -/
def shownEnd : EStateM.Result Unwind Machine Value → Shown
  | .ok v m => m.shown (.ok (m.heap.text v))
  | .error e m => m.shown (e.result.map m.heap.text)

theorem shown_outcome (x : Eval Value) (depth : Nat) (m : Machine) :
    shown (Machine.outcome (always x (Machine.leaveRun depth)) m) = shownEnd (x m) := by
  unfold Machine.outcome always
  cases x m with
  | ok v n => rfl
  | error e n => cases e <;> rfl

/-- Places are not shown. -/
theorem shown_recode (m : Machine) (result : Except Failure String) :
    (recode Recoding.placeless m).shown result = m.shown result := by
  have hwarnings : (recode Recoding.placeless m).warnings.toList.map Warning.unplaced
      = m.warnings.toList.map Warning.unplaced := by
    show ((m.warnings.map _).toList).map _ = _
    rw [Array.toList_map, List.map_map]
    refine List.map_congr_left fun w _ => ?_
    cases w <;> rfl
  have hcreated : (recode Recoding.placeless m).created.toList.map (fun c =>
        ((recode Recoding.placeless m).heap.hostId c.object,
          (recode Recoding.placeless m).heap.hostName c.object))
      = m.created.toList.map fun c => (m.heap.hostId c.object, m.heap.hostName c.object) := by
    show ((m.created.map _).toList).map _ = _
    rw [Array.toList_map, List.map_map]
    refine List.map_congr_left fun c _ => ?_
    simp only [Function.comp, heap_recode, Heap.hostId_recode, Heap.hostName_recode]
    rfl
  rw [Machine.shown, hwarnings, hcreated]
  rfl

theorem shownEnd_recode (r : EStateM.Result Unwind Machine Value) :
    shownEnd (recode Recoding.placeless r) = shownEnd r := by
  cases r with
  | ok v m =>
      show (recode Recoding.placeless m).shown (.ok ((recode Recoding.placeless m.heap).text _)) = _
      rw [shown_recode, Heap.text_recode]
      rfl
  | error e m =>
      cases e with
      | returned v =>
          show (recode Recoding.placeless m).shown (.ok ((recode Recoding.placeless m.heap).text _)) = _
          rw [shown_recode, Heap.text_recode]
          rfl
      | failed error =>
          refine (shown_recode m _).trans ?_
          cases error <;> rfl
      | exhausted => exact shown_recode m _

theorem exhausted_iff (ended : Except Failure Value × Machine) :
    (shown ended).result = .error .exhausted ↔ ended.1 = .error .exhausted := by
  obtain ⟨result, m⟩ := ended
  cases result with
  | ok v => simp [shown, Machine.shown, Except.map, Except.mapError]
  | error failure =>
      cases failure <;>
        simp [shown, Machine.shown, Except.map, Except.mapError, Failure.unplaced]

-- ==================================================================== running

namespace Machine

theorem runWithin_eq {m : Machine} {text : String} {root : Node}
    (h : parse m.options.parsing (.ofText text) = ⟨some root, []⟩) (turns : Nat) :
    m.runWithin turns text = m.executeWithin turns (.ofText text) root := by
  have hparsed : parseProgram m.options.parsing (.ofText text) = .ok root := by
    rw [parseProgram, h]
    exact Parsed.faultless.eq_1 root
  rw [runWithin, hparsed, executeParsed]

/-- A new interpreter, in front of no host or of a new board. -/
inductive Fresh : Machine → Prop
  | hostless (options : Options) : Fresh { withBuiltins with options }
  | onBoard (name : String) (options : Options) : Fresh { withBoard name with options }

/-- A new interpreter holds no closures. -/
theorem Fresh.clean {m : Machine} (h : m.Fresh) : placeless.Clean m m := by
  rintro c hc
  cases h with
  | hostless options =>
      simp [Holds, withBuiltins, Scopes.start] at hc
  | onBoard name options =>
      simp [Holds, withBoard, withBuiltins, connect, Scopes.start, Heap.newBoard] at hc

end Machine

/-- A run that was stopped. -/
def Stopped (ended : Except Failure Value × Machine) : Prop :=
  ∃ span, ended.1 = .error (.runtime (.fault .cancelled span))

theorem executeWithin_shown {m : Machine} (hmode : m.options.mode = .tree)
    (hclean : placeless.Clean m m) (turns : Nat) (source : Source) (root : Node)
    (hgoes : ¬Stopped (m.executeWithin turns source root)) :
    shown (m.executeWithin turns source root)
      = shownEnd (m.placelessAction turns root (recode Recoding.placeless m.enterRun)) := by
  rcases (placeless_run hmode hclean turns source root).eq_recode with ⟨e, n, hr, span, rfl⟩ | hr
  · refine absurd ⟨span, ?_⟩ hgoes
    simp only [Machine.executeWithin, Machine.executeHooked, Machine.outcome, always, hr]
  · rw [Machine.executeWithin, Machine.executeHooked, shown_outcome, ← shownEnd_recode]
    exact congrArg shownEnd hr.symm

/-- Running the text of a program shows what running the program shows. For
each number of turns that loops may take, if neither run is stopped, both
come to an end or neither does, and they show the same. -/
theorem run_surface {m : Machine} (hfresh : m.Fresh) (hmode : m.options.mode = .tree)
    {text : String} {root : Node}
    (hparse : parse m.options.parsing (.ofText text) = ⟨some root, []⟩)
    (hblank : Comment.blank (Surface.program root).toList = (Surface.program root).toList) :
    (∀ turns, ¬Stopped (m.runWithin turns text) →
      ¬Stopped (m.runWithin turns (Surface.program root)) →
      shown (m.runWithin turns text) = shown (m.runWithin turns (Surface.program root))) ∧
    ((∀ turns, ¬Stopped (m.runWithin turns text) ∧
        ¬Stopped (m.runWithin turns (Surface.program root))) →
      ((∃ turns, (m.runWithin turns text).1 ≠ .error .exhausted) ↔
        ∃ turns, (m.runWithin turns (Surface.program root)).1 ≠ .error .exhausted)) := by
  obtain ⟨hblock, hproper⟩ := proper_of_parse hparse
  obtain ⟨again, hagain, hbare⟩ := parse_program m.options.parsing hblock hproper hblank
  have hbraced : again.braced = root.braced := by
    have hrecast : again.bare.braced = root.braced.braced := congrArg Node.braced hbare
    simp only [Node.bare, Node.braced, recast_recast] at hrecast
    exact hrecast
  have hsame : ∀ turns, ¬Stopped (m.runWithin turns text) →
      ¬Stopped (m.runWithin turns (Surface.program root)) →
      shown (m.runWithin turns text) = shown (m.runWithin turns (Surface.program root)) := by
    intro turns hgoes hgoes'
    rw [Machine.runWithin_eq hparse] at hgoes ⊢
    rw [Machine.runWithin_eq hagain] at hgoes' ⊢
    rw [executeWithin_shown hmode hfresh.clean _ _ _ hgoes,
      executeWithin_shown hmode hfresh.clean _ _ _ hgoes', Machine.placelessAction,
      Machine.placelessAction, hbraced]
  refine ⟨hsame, fun hgoes => ?_⟩
  have hends (turns : Nat) : (m.runWithin turns text).1 = .error .exhausted ↔
      (m.runWithin turns (Surface.program root)).1 = .error .exhausted := by
    rw [← exhausted_iff, ← exhausted_iff, hsame turns (hgoes turns).1 (hgoes turns).2]
  exact exists_congr fun turns => not_congr (hends turns)

-- ================================================== a program, written out

namespace Node

section

variable {node condition body callee value : Node} {s t : Span}

theorem exists_of_bare_doLoop (h : node.bare = .doLoop body condition s) :
    ∃ body' condition' s', node = .doLoop body' condition' s' ∧ body'.bare = body ∧
      condition'.bare = condition := by
  cases node with
  | doLoop body' condition' s' =>
      exact ⟨body', condition', s', rfl, (doLoop.inj h).1, (doLoop.inj h).2.1⟩
  | _ => cases h

theorem exists_of_bare_ifThen (h : node.bare = .ifThen condition body s) :
    ∃ condition' body' s', node = .ifThen condition' body' s' ∧ condition'.bare = condition ∧
      body'.bare = body := by
  cases node with
  | ifThen condition' body' s' =>
      exact ⟨condition', body', s', rfl, (ifThen.inj h).1, (ifThen.inj h).2.1⟩
  | _ => cases h

theorem exists_of_bare_expression (h : node.bare = .expression value s) :
    ∃ value' s', node = .expression value' s' ∧ value'.bare = value := by
  cases node with
  | expression value' s' => exact ⟨value', s', rfl, (expression.inj h).1⟩
  | _ => cases h

theorem exists_of_bare_call {args : List Node} (h : node.bare = .call callee args s) :
    ∃ callee' args' s', node = .call callee' args' s' ∧ callee'.bare = callee ∧
      args'.map bare = args := by
  cases node with
  | call callee' args' s' =>
      exact ⟨callee', args', s', rfl, (call.inj h).1, recastAll_eq_map .. ▸ (call.inj h).2.1⟩
  | _ => cases h

theorem exists_of_bare_function (h : node.bare = .function [] body s t) :
    ∃ body' s' t', node = .function [] body' s' t' ∧ body'.bare = body := by
  cases node with
  | function params body' s' t' =>
      obtain ⟨hparams, hbody, -⟩ := function.inj h
      obtain rfl := List.map_eq_nil_iff.1 hparams
      exact ⟨body', s', t', rfl, hbody⟩
  | _ => cases h

theorem exists_of_bare_boolean {b : Bool} (h : node.bare = .boolean b s) :
    ∃ s', node = .boolean b s' := by
  cases node with
  | boolean b' s' => exact ⟨s', (boolean.inj h).1 ▸ rfl⟩
  | _ => cases h

theorem exists_of_bare_identifier {name : String} (h : node.bare = .identifier name s) :
    ∃ s', node = .identifier name s' := by
  cases node with
  | identifier name' s' => exact ⟨s', (identifier.inj h).1 ▸ rfl⟩
  | _ => cases h

theorem exists_of_bare_string {text : String} (h : node.bare = .string text s) :
    ∃ s', node = .string text s' := by
  cases node with
  | string text' s' => exact ⟨s', (string.inj h).1 ▸ rfl⟩
  | _ => cases h

end

/-- A program that logs once comes to its end, wherever it stands in a text
and with braces around each body. -/
theorem executeWithin_logOnce {again : Node} (h : again.bare = Node.logOnce.braced) (source : Source) :
    (Machine.withBuiltins.executeWithin 1 source again).1 = .ok .undefined := by
  obtain ⟨loop, whole, rfl, hloop⟩ := exists_of_bare_block h
  obtain ⟨body, last, _, rfl, hbody, hlast⟩ := exists_of_bare_doLoop hloop
  obtain ⟨_, rfl⟩ := exists_of_bare_boolean hlast
  obtain ⟨branch, _, rfl, hbranch⟩ := exists_of_bare_block hbody
  obtain ⟨test, yes, _, rfl, htest, hyes⟩ := exists_of_bare_ifThen hbranch
  obtain ⟨_, rfl⟩ := exists_of_bare_boolean htest
  obtain ⟨statement, _, rfl, hstatement⟩ := exists_of_bare_block hyes
  obtain ⟨called, _, rfl, hcalled⟩ := exists_of_bare_expression hstatement
  obtain ⟨function, given, _, rfl, hfunction, hgiven⟩ := exists_of_bare_call hcalled
  obtain rfl := List.map_eq_nil_iff.1 hgiven
  obtain ⟨code, _, _, rfl, hcode⟩ := exists_of_bare_function hfunction
  obtain ⟨line, _, rfl, hline⟩ := exists_of_bare_block hcode
  obtain ⟨logging, _, rfl, hlogging⟩ := exists_of_bare_expression hline
  obtain ⟨log, args, _, rfl, hlog, hargs⟩ := exists_of_bare_call hlogging
  obtain ⟨letter, rfl, hletter⟩ := List.map_eq_singleton_iff.1 hargs
  obtain ⟨_, rfl⟩ := exists_of_bare_identifier hlog
  obtain ⟨_, rfl⟩ := exists_of_bare_string hletter
  cbv

end Node

/-- What comes to an end with a value was not stopped. -/
theorem not_stopped_of_ok {ended : Except Failure Value × Machine} {v : Value} (h : ended.1 = .ok v) :
    ¬Stopped ended := by
  rintro ⟨span, hstopped⟩
  rw [h] at hstopped
  cases hstopped

/-- A loop with a branch and calls, and its own text with braces, show the
same. -/
theorem run_surface_logOnce :
    parse {} (.ofText logOnceText) = ⟨some .logOnce, []⟩ ∧
      Comment.blank (Surface.program .logOnce).toList = (Surface.program .logOnce).toList ∧
      ¬Stopped (Machine.withBuiltins.runWithin 1 logOnceText) ∧
      ¬Stopped (Machine.withBuiltins.runWithin 1 (Surface.program .logOnce)) ∧
      shown (Machine.withBuiltins.runWithin 1 logOnceText)
        = shown (Machine.withBuiltins.runWithin 1 (Surface.program .logOnce)) := by
  have hparse := parse_logOnce {}
  have hblank : Comment.blank (Surface.program .logOnce).toList = (Surface.program .logOnce).toList := by
    decide
  have hgoes : ¬Stopped (Machine.withBuiltins.runWithin 1 logOnceText) := by
    rw [Machine.runWithin_eq (m := Machine.withBuiltins) hparse]
    exact not_stopped_of_ok (v := .undefined) (by cbv)
  have hgoes' : ¬Stopped (Machine.withBuiltins.runWithin 1 (Surface.program .logOnce)) := by
    obtain ⟨again, hagain, hbare⟩ := parse_program {} rfl (proper_of_parse hparse).2 hblank
    rw [Machine.runWithin_eq (m := Machine.withBuiltins) hagain]
    exact not_stopped_of_ok (Node.executeWithin_logOnce hbare _)
  exact ⟨hparse, hblank, hgoes, hgoes',
    (run_surface (.hostless {}) rfl hparse hblank).1 1 hgoes hgoes'⟩

end BoardScript
