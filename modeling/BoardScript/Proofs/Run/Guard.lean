/-
Where the clock goes. While a program runs, every machine on which a node or
an instruction is evaluated counts the run, and if running time is limited
then its clock goes (`Machine.Timed`). The function that an expression is
wrapped in is made by such a run, but it is called when the run is over: no
run is counted then and no clock goes (`Machine.Untimed`), so that nothing
bounds the time an expression takes.

As before, that all machines of a run are of a kind is said with hooks that
do anything on other machines and are not noticed (`Hooks.StandardOn`).
-/
import BoardScript.Proofs.Program.Wrapped
import BoardScript.Proofs.Run.Discipline

namespace BoardScript

-- ============================================================ kinds of machine

/-- A machine with a run under way, and a clock that goes if there is a
limit to running time. -/
structure Machine.Timed (m : Machine) : Prop where
  running : 1 ≤ m.running
  clock : m.options.maxRuntime.isSome = true → m.ticks.isSome = true

/-- A machine with no run under way and no clock that goes. -/
structure Machine.Untimed (m : Machine) : Prop where
  running : m.running = 0
  clock : m.ticks = none

/-- Hooks that do as the standard ones on machines of a kind. -/
structure Hooks.StandardOn (Kind : Machine → Prop) (hooks : Hooks) : Prop where
  ask : ∀ m span, Kind m → hooks.ask span m = checkCancelled span m
  refuse : ∀ m site, Kind m → hooks.refuse site m = overflow site m

theorem Hooks.standardOn_standard (Kind : Machine → Prop) : Hooks.standard.StandardOn Kind :=
  ⟨fun _ _ _ => rfl, fun _ _ _ => rfl⟩

/-- A run beside one that does anything else on machines of another kind,
where the kind stays the same within a run. -/
def Alike.on {Kind : Machine → Prop} {hooks : Hooks} (h : hooks.StandardOn Kind)
    (hlater : ∀ {m n : Machine}, m.Later n → Kind m → Kind n)
    (henter : ∀ m c args, Kind m → Kind (m.enter c args)) : Alike hooks .standard where
  Inv := Kind
  Skip _ := False
  Bad _ := False
  later := hlater
  enter m c args hi _ := henter m c args hi
  steady := steady_checkCancelled
  ask m span hi := h.ask m span hi
  refuse m site hi _ := ⟨_, rfl, .inr ⟨h.refuse m site hi, _, rfl, id⟩⟩
  skip_returned _ := id
  bad_fault := Fault.isOverflow_of_false
  bad_compile _ := id

namespace Machine

variable {m n : Machine}

theorem Timed.later (h : m.Later n) (hm : m.Timed) : n.Timed :=
  ⟨h.running ▸ hm.running, fun hlimit => h.ticks.trans (hm.clock (h.options ▸ hlimit))⟩

theorem Untimed.later (h : m.Later n) (hm : m.Untimed) : n.Untimed :=
  ⟨h.running.trans hm.running, Option.isSome_eq_false_iff.1 (by rw [h.ticks, hm.clock]; rfl) |>
    Option.isNone_iff_eq_none.1⟩

/-- The outermost run starts the clock. -/
theorem Untimed.enterRun (h : m.Untimed) : m.enterRun.Timed := by
  unfold Machine.enterRun
  rw [if_pos h.running]
  exact ⟨Nat.le_refl 1, fun hlimit => by rw [Option.isSome_map]; exact hlimit⟩

/-- The outermost run stops the clock. -/
theorem untimed_leaveRun (h : m.Untimed) (hn : m.enterRun.Later n) (depth : Nat) :
    (leaveRun depth n).Untimed := by
  have hrunning : n.running = 1 := by rw [hn.running, enterRun_running, h.running]
  exact ⟨by rw [leaveRun, hrunning], by simp [leaveRun, hrunning]⟩

theorem outcome_snd (x : Eval Value) (m : Machine) : (outcome x m).2 = after (x m) := by
  unfold outcome
  split <;> simp [*, after]

theorem after_always {α : Type} (x : Eval α) (restore : Machine → Machine) (m : Machine) :
    after (always x restore m) = restore (after (x m)) := by
  unfold always
  split <;> simp [*, after]

/-- Running a program leaves no clock behind. -/
theorem Untimed.executeWithin (h : m.Untimed) (turns : Nat) (source : Source) (root : Node) :
    (m.executeWithin turns source root).2.Untimed := by
  have hlater := later_of_follows (Alike.standard.action (m := m) m.enterRun turns source root)
  rw [Machine.executeWithin, executeHooked, outcome_snd, after_always]
  exact untimed_leaveRun h hlater _

/-- Calling a value starts no clock. -/
theorem Untimed.function (h : n.Untimed) (turns : Nat) (source : Source) (function : Value)
    (site : CallSite) :
    (outcome (callValue (n.environment .standard turns source).call function [] none site) n).2.Untimed := by
  rw [outcome_snd]
  exact h.later (later_of_follows (Alike.standard.follows_call n turns source function site))

theorem Untimed.executeParsed (h : m.Untimed) (turns : Nat) (source : Source)
    (parsed : Except Failure Node) : (m.executeParsed turns source parsed).2.Untimed := by
  cases parsed with
  | error failure => exact h
  | ok root => exact h.executeWithin turns source root

theorem Untimed.callResult (h : m.Untimed) (turns : Nat) (source : Source)
    (parsed : Except Failure Node) : (m.callResult .standard turns source parsed).2.Untimed := by
  cases parsed with
  | error failure => exact h
  | ok root =>
      have hbehind := h.executeWithin turns source root
      simp only [Machine.executeWithin] at hbehind
      simp only [Machine.callResult]
      generalize m.executeHooked .standard turns source root = ended at hbehind ⊢
      obtain ⟨result, n⟩ := ended
      cases result with
      | error failure => exact hbehind
      | ok function => exact hbehind.function turns source function _

/-- Machines that programs and expressions were run on, any number of them
one after the other, beginning with one that runs nothing. -/
inductive Served : Machine → Prop
  | new {m : Machine} (h : m.Untimed) : Served m
  | execute {m : Machine} (h : Served m) (turns : Nat) (source : Source) (root : Node) :
      Served (m.executeWithin turns source root).2
  | run {m : Machine} (h : Served m) (turns : Nat) (text : String) : Served (m.runWithin turns text).2
  | snippet {m : Machine} (h : Served m) (turns : Nat) (expression : String) :
      Served (m.snippetWithin turns expression).2

/-- Between runs no clock goes. -/
theorem Served.untimed (h : m.Served) : m.Untimed := by
  induction h with
  | new h => exact h
  | execute _ turns source root ih => exact ih.executeWithin turns source root
  | run _ turns text ih =>
      rw [runWithin]
      exact ih.executeParsed turns _ _
  | snippet _ turns expression ih =>
      rw [snippetWithin, snippetHooked]
      exact ih.callResult turns _ _

end Machine

-- ==================================================================== runs

/-- A result of alike runs of which none is skipped. -/
theorem Alike.on_comes {Kind : Machine → Prop} {hooks : Hooks} (h : hooks.StandardOn Kind)
    (hlater : ∀ {m n : Machine}, m.Later n → Kind m → Kind n)
    (henter : ∀ m c args, Kind m → Kind (m.enter c args)) {m : Machine}
    {p' p : Except Failure Value × Machine} (hcomes : (Alike.on h hlater henter).Comes m p' p) :
    p' = p := by
  rcases hcomes with ⟨_, _, hskip⟩ | ⟨heq, -⟩
  · exact hskip.elim
  · exact heq

-- ====================================================== an expression, and hooks

/-- The tokens of the function that stands for no text at all. -/
theorem scan_snippet_nothing : Token.scan (Machine.snippetText "") =
    [⟨.functionWord, "function", ⟨0, 8⟩, ⟨1, 1⟩⟩, ⟨.leftParen, "(", ⟨9, 1⟩, ⟨1, 10⟩⟩,
     ⟨.rightParen, ")", ⟨10, 1⟩, ⟨1, 11⟩⟩, ⟨.leftBrace, "\x7b", ⟨12, 1⟩, ⟨1, 13⟩⟩,
     ⟨.returnWord, "return", ⟨14, 6⟩, ⟨1, 15⟩⟩, ⟨.semicolon, ";", ⟨21, 1⟩, ⟨1, 22⟩⟩,
     ⟨.rightBrace, "\x7d", ⟨23, 1⟩, ⟨1, 24⟩⟩, ⟨.semicolon, ";", ⟨24, 1⟩, ⟨1, 25⟩⟩,
     ⟨.endOfInput, "", ⟨25, 0⟩, ⟨1, 26⟩⟩] := by
  have htext : Machine.snippetText "" = "function () \x7b return ; \x7d;" := rfl
  rw [htext, Token.scan_eq]
  cbv

/-- No text at all is parsed to a function that returns. -/
theorem parse_snippet_nothing (options : ParseOptions) :
    ∃ given literal statement whole, parse options (.ofText (Machine.snippetText ""))
      = ⟨some ((Node.returnNothing given).wrapped literal statement whole), []⟩ := by
  let word : Token := ⟨.returnWord, "return", ⟨14, 6⟩, ⟨1, 15⟩⟩
  let semicolon : Token := ⟨.semicolon, ";", ⟨21, 1⟩, ⟨1, 22⟩⟩
  obtain ⟨given, hmeaning⟩ := Phrase.exists_meaning_returning word semicolon rfl rfl 23
  obtain ⟨literal, statement, whole, hparse⟩ := Wrapping.parseTokens_around
    ⟨⟨.functionWord, "function", ⟨0, 8⟩, ⟨1, 1⟩⟩, ⟨.leftParen, "(", ⟨9, 1⟩, ⟨1, 10⟩⟩,
      ⟨.rightParen, ")", ⟨10, 1⟩, ⟨1, 11⟩⟩, ⟨.leftBrace, "\x7b", ⟨12, 1⟩, ⟨1, 13⟩⟩,
      ⟨.rightBrace, "\x7d", ⟨23, 1⟩, ⟨1, 24⟩⟩, ⟨.semicolon, ";", ⟨24, 1⟩, ⟨1, 25⟩⟩,
      rfl, rfl, rfl, rfl, rfl, rfl⟩
    options (.ofText (Machine.snippetText "")) (Phrase.nearest_returning word semicolon rfl rfl)
    hmeaning (show (⟨.endOfInput, "", ⟨25, 0⟩, ⟨1, 26⟩⟩ : Token).kind = .endOfInput from rfl)
  refine ⟨given, literal, statement, whole, ?_⟩
  show parseTokens options (.ofText (Machine.snippetText "")) (Token.scan (Machine.snippetText "")) = _
  rw [scan_snippet_nothing]
  exact hparse

/-- The closure that this function makes. -/
def Closure.givingNothing (given literal : Span) : Closure :=
  let literal : FunctionLiteral := ⟨false, [], .block [.returnNothing given] literal, literal⟩
  ⟨0, literal, 0, Machine.withBuiltins.enterRun.dependencies literal, none,
    .ofText (Machine.snippetText "")⟩

/-- Running the program of the function makes the closure. -/
theorem executeWithin_snippet_nothing (given literal statement whole : Span) :
    Machine.withBuiltins.executeWithin 1 (.ofText (Machine.snippetText ""))
        ((Node.returnNothing given).wrapped literal statement whole)
      = (.ok (.closure (.givingNothing given literal)), { Machine.withBuiltins with nextClosure := 1 }) := by
  simp only [Machine.executeWithin, Machine.executeHooked, Machine.action, Node.wrapped, Node.eval,
    evalStatements]
  rfl

/-- Hooks that go on as the standard ones while a run is counted, and else
cut the run off. -/
def Hooks.onlyCounted : Hooks :=
  ⟨fun span m => if m.running = 0 then .error .exhausted m else checkCancelled span m, overflow⟩

/-- Hooks that cut a run off that is counted. -/
def Hooks.neverCounted : Hooks :=
  ⟨fun span m => if m.running = 0 then checkCancelled span m else .error .exhausted m, overflow⟩

theorem Hooks.onlyCounted_standardOn : Hooks.onlyCounted.StandardOn Machine.Timed :=
  ⟨fun _ _ hm => if_neg (Nat.ne_of_gt hm.running), fun _ _ _ => rfl⟩

theorem Hooks.neverCounted_standardOn : Hooks.neverCounted.StandardOn Machine.Untimed :=
  ⟨fun _ _ hm => if_pos hm.running, fun _ _ _ => rfl⟩

-- =================================================================== results

/-- The clock covers programs, and not expressions. However programs and
expressions were run before, a program is run on timed machines only: hooks
that differ from the standard ones anywhere else are not noticed. But the
function that stands for an expression is called behind the run that makes
it, and there all machines are untimed. -/
theorem clock_covers_programs {m : Machine} (h : m.Served) (turns : Nat) :
    (∀ hooks : Hooks, hooks.StandardOn Machine.Timed → ∀ source root,
      m.executeHooked hooks turns source root = m.executeWithin turns source root) ∧
    ∀ hooks : Hooks, hooks.StandardOn Machine.Untimed → ∀ expression root function n,
      let source := Source.ofText (Machine.snippetText expression)
      parseProgram m.options.parsing source = .ok root →
      m.executeWithin turns source root = (.ok function, n) →
      Machine.outcome (callValue (n.environment hooks turns source).call function [] none
        ⟨root.span, "snippet", none, source⟩) n = m.snippetWithin turns expression := by
  constructor
  · intro hooks hh source root
    exact Alike.on_comes hh Machine.Timed.later
      (fun m c args hm => ⟨hm.running, hm.clock⟩)
      (Alike.executeHooked _ h.untimed.enterRun turns source root)
  · intro hooks hh expression root function n source hparse hrun
    have hn : n.Untimed := by
      have hbehind := h.untimed.executeWithin turns source root
      rwa [hrun] at hbehind
    have hcall : m.snippetWithin turns expression
        = Machine.outcome (callValue (n.environment .standard turns source).call function [] none
          ⟨root.span, "snippet", none, source⟩) n := by
      rw [Machine.executeWithin] at hrun
      rw [Machine.snippetWithin, Machine.snippetHooked, hparse, Machine.callResult, hrun]
    rw [hcall]
    exact Alike.on_comes hh Machine.Untimed.later
      (fun m c args hm => ⟨hm.running, hm.clock⟩)
      (Alike.callValue _ hn (.refl n) rfl turns source function _)

/-- A loop with a branch and calls is run to its end though the run would be
cut off where none is counted, and an expression is evaluated though it would
be cut off where one is. -/
theorem clock_covers_programs_logOnce :
    let m := Machine.withBuiltins
    let source := Source.ofText logOnceText
    let expression := Source.ofText (Machine.snippetText "")
    m.Served ∧ Hooks.onlyCounted.StandardOn Machine.Timed ∧
      Hooks.neverCounted.StandardOn Machine.Untimed ∧
      m.executeHooked .onlyCounted 1 source .logOnce = m.executeWithin 1 source .logOnce ∧
      ∃ root function n, parseProgram m.options.parsing expression = .ok root ∧
        m.executeWithin 1 expression root = (.ok function, n) ∧
        Machine.outcome (callValue (n.environment .neverCounted 1 expression).call function [] none
          ⟨root.span, "snippet", none, expression⟩) n = m.snippetWithin 1 "" := by
  intro m source expression
  have hserved : m.Served := .new ⟨rfl, rfl⟩
  obtain ⟨hprograms, hexpressions⟩ := clock_covers_programs hserved 1
  obtain ⟨given, literal, statement, whole, hparse⟩ := parse_snippet_nothing {}
  have hroot : parseProgram m.options.parsing expression
      = .ok ((Node.returnNothing given).wrapped literal statement whole) := by
    rw [parseProgram, show m.options.parsing = {} from rfl, hparse]
    rfl
  have hrun := executeWithin_snippet_nothing given literal statement whole
  exact ⟨hserved, Hooks.onlyCounted_standardOn, Hooks.neverCounted_standardOn,
    hprograms _ Hooks.onlyCounted_standardOn source .logOnce, _, _, _, hroot, hrun,
    hexpressions _ Hooks.neverCounted_standardOn "" _ _ _ hroot hrun⟩

/-- An expression notices what the hooks do where no run is counted: it is
evaluated there. -/
theorem snippet_not_timed :
    ∃ hooks : Hooks, hooks.StandardOn Machine.Timed ∧
      Machine.withBuiltins.snippetHooked hooks 1 "" ≠ Machine.withBuiltins.snippetWithin 1 "" := by
  refine ⟨.onlyCounted, Hooks.onlyCounted_standardOn, fun hsame => ?_⟩
  obtain ⟨given, literal, statement, whole, hparse⟩ := parse_snippet_nothing {}
  have hroot : parseProgram Machine.withBuiltins.options.parsing (.ofText (Machine.snippetText ""))
      = .ok ((Node.returnNothing given).wrapped literal statement whole) := by
    rw [parseProgram, show Machine.withBuiltins.options.parsing = {} from rfl, hparse]
    rfl
  -- both runs make the function, and then call it
  have hrun (hooks : Hooks) (hhooks : hooks.StandardOn Machine.Timed) :
      Machine.withBuiltins.executeHooked hooks 1 (.ofText (Machine.snippetText ""))
          ((Node.returnNothing given).wrapped literal statement whole)
        = (.ok (.closure (.givingNothing given literal)), { Machine.withBuiltins with nextClosure := 1 }) := by
    rw [← executeWithin_snippet_nothing given literal statement whole]
    exact Alike.on_comes hhooks Machine.Timed.later (fun m c args hm => ⟨hm.running, hm.clock⟩)
      (Alike.executeHooked _ (m := .withBuiltins)
        (show Machine.withBuiltins.Untimed from ⟨rfl, rfl⟩).enterRun 1 _ _)
  have hcut : (Machine.withBuiltins.snippetHooked .onlyCounted 1 "").1 = .error .exhausted := by
    rw [Machine.snippetHooked, hroot, Machine.callResult, hrun _ Hooks.onlyCounted_standardOn]
    simp only [callValue, Machine.environment, callClosure, runBody, Node.eval, Closure.givingNothing]
    rfl
  have hfree : (Machine.withBuiltins.snippetWithin 1 "").1 = .ok .undefined := by
    rw [Machine.snippetWithin, Machine.snippetHooked, hroot, Machine.callResult,
      hrun _ (Hooks.standardOn_standard _)]
    simp only [callValue, Machine.environment, callClosure, runBody, Node.eval, evalStatements,
      Closure.givingNothing]
    rfl
  rw [hsame, hfree] at hcut
  cases hcut

end BoardScript
