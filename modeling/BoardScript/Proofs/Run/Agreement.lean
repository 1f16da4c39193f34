/-
Both ways of running agree. A run in either mode, on a machine on which some
closures may have code and some may not, goes along with the run from the
tree on the machine without code (`follows_tree`, `follows_code`), so any two
such runs come to the same.

Neither mode takes as many turns or asks as many questions as the other, so
the runs are compared without bounds, and without anyone to stop them. By
induction over how deep calls nest, calling a closure with code comes to
what calling it without comes to (`follows_callFreely`).
-/
import BoardScript.Proofs.Run.Rerun
import BoardScript.Proofs.Run.Uncoded

namespace BoardScript

open Filter Simulation

-- ============================================================ heedless runs

/-- The clock hears of questions, and no run is stopped. -/
def Hooks.heedless : Hooks where
  ask _ m := .ok () { m with ticks := m.ticks.map (· - 1) }
  refuse := overflow

/-- A run that is not stopped does not notice the questions. -/
theorem settles_checkCancelled (span : Span) :
    Settles .stopped (fun _ => Hooks.heedless.ask span) (checkCancelled span) := by
  refine Settles.const_iff.2 fun m => ?_
  unfold checkCancelled
  split
  · rename_i hticks
    split
    · exact .inl ⟨_, m, rfl, ⟨span, rfl⟩, ‹_›⟩
    · have hsame : m.ticks.map (· - 1) = m.ticks := by rw [hticks]; rfl
      refine .inr ?_
      simp only [Hooks.heedless, hsame]
  · exact .inl ⟨_, _, rfl, ⟨span, rfl⟩, rfl⟩
  · rename_i left hticks
    split
    · exact .inl ⟨_, m, rfl, ⟨span, rfl⟩, ‹_›⟩
    · have hless : m.ticks.map (· - 1) = some left := by rw [hticks]; rfl
      refine .inr ?_
      simp only [Hooks.heedless, hless]

theorem heedless_settles (levels : Nat) (source : Source) (fuel : Nat) : Env.Settles .stopped
    (fun _ => Hooks.heedless.bounded levels source fuel)
    (Hooks.standard.bounded levels source fuel) where
  fuel := .of_forall fun _ => Cutoff.allows_refl _ _
  source _ := rfl
  call c args site := by
    have hask (span : Span) : Settles .stopped (fun _ => Hooks.heedless.ask span)
        (Hooks.standard.ask span) := settles_checkCancelled span
    have hrefuse (site : CallSite) : Settles .stopped (fun _ => Hooks.heedless.refuse site)
        (Hooks.standard.refuse site) := .same _
    exact settles_callClosure hask hrefuse (.of_forall fun _ => Cutoff.allows_refl _ _) levels c
      args site
  ask := settles_checkCancelled

theorem returnless_heedless (span : Span) : Returnless (Hooks.heedless.ask span) :=
  fun _ _ _ h => nomatch h

theorem returnless_overflow (site : CallSite) : Returnless (overflow site) :=
  fun _ _ _ h => nomatch h

-- ==================================================================== calls

/-- Calls without code beside calls with code. -/
def CallsAlong (levels : Nat) : Prop :=
  ∀ m₀ c args site, c.Coded → AllCoded args → uncoded.Follows m₀
    (callFreely .free levels (Recoding.uncoded.closure c) (recode .uncoded args) site)
    (callFreely .heedless levels c args site)

section

variable {levels : Nat} (h : CallsAlong levels)

include h

theorem beside_unbounded (source : Source) (fuel : Nat) :
    (Hooks.free.unbounded levels source fuel).Beside
      (Hooks.heedless.unbounded levels source fuel) where
  call := h
  free _ := rfl
  ask _ m := ⟨m.ticks.map (· - 1), by simp, rfl⟩

/-- Trees along with themselves. -/
theorem follows_unbounded (source : Source) (fuel : Nat) (node : Node) (m₀ : Machine) :
    uncoded.Follows m₀ (node.eval (Hooks.free.unbounded levels source fuel) none)
      (node.eval (Hooks.heedless.unbounded levels source fuel) none) := by
  have hspan : ∀ span, uncoded.code.span span = span := fun _ => rfl
  have henv : (Hooks.free.unbounded levels source fuel).Follows uncoded false
      (Hooks.heedless.unbounded levels source fuel) :=
    { fuel := rfl
      source := rfl
      call := h
      ask := fun m₀ span m _ _ hc =>
        ⟨.of_scopes rfl id rfl rfl rfl (by simp), hc, fun _ h => h.elim, rfl⟩
      free := fun h => nomatch h
      make := fun m₀ literal => by
        rw [literalRecast_self hspan]
        exact follows_makeCode (fun chunk (h : none = some chunk) => nomatch h) m₀ }
  have hfollows := Node.follows henv node none m₀
  rwa [recast_self hspan] at hfollows

end

/-- A body is not run in the global scope. -/
theorem isGlobal_enter {m : Machine} {c : Closure} {args : List Value}
    (h : m.scopes.contains c.scope = true) : (m.enter c args).scopes.isGlobal = false := by
  have hsize : c.scope < m.scopes.table.size := of_decide_eq_true h
  show (m.scopes.table.size == Scopes.globalId) = false
  rw [beq_eq_false_iff_ne]
  exact Nat.ne_of_gt (Nat.zero_lt_of_lt hsize)

theorem follows_overflow {m : Machine} (site : CallSite) (hc : uncoded.Clean m m) :
    uncoded.Ends m (overflow site (recode uncoded.code m)) (overflow site m) :=
  .inr ⟨.refl m, hc, fun _ ⟨_, he, _⟩ => (nomatch he), fun _ _ h => h, rfl⟩

/-- What calls come to without bounds, they come to with bodies that call
without bounds. -/
theorem callFreely_succ (hooks : Hooks) (levels : Nat) (c : Closure) (args : List Value)
    (site : CallSite) :
    callFreely hooks (levels + 1) c args site = limit fun fuel =>
      enclosed (hooks.refuse site) c args (c.body (hooks.unbounded levels c.source fuel)) := by
  have hbody : Settling c.body := fun _ _ h => c.settles_body h
  exact (hbody.abreast.enclosed (hooks.refuse site) c args).limit_eq

/-- Without bounds, the body of a closure with code comes to what its plan
comes to. -/
theorem abreast_coded {c : Closure} (hc : c.Coded) {chunk : Chunk} (hcode : c.compiled = some chunk)
    (levels : Nat) : Abreast (fun fuel => c.body (Hooks.heedless.unbounded levels c.source fuel))
      fun fuel => (c.literal.plan c.source fuel).ending
        (Hooks.heedless.unbounded levels c.source fuel) := by
  obtain ⟨hproper, hchunk⟩ := hc chunk hcode
  have hbody (env : Env) : c.body env = chunk.run env := by
    unfold Closure.body
    rw [hcode]
  simp only [hbody]
  exact abreast_ending returnless_heedless returnless_overflow
    (fun env hsource => FunctionLiteral.run_eq hproper hchunk hsource)
    (c.literal.plan_gives c.source) (fun h => c.literal.plan_below h c.source) levels

/-- Calling closures without code goes along with calling them with it. The
induction is over how deep calls nest. -/
theorem follows_callFreely (levels : Nat) : CallsAlong levels := by
  induction levels with
  | zero => exact fun m₀ c args site _ _ => follows_limit (fun _ => .same _) fun _ => .exhausted
  | succ levels ih =>
      intro m₀ c args site hc hargs
      -- bodies that go along with each other make calls that do
      have hcalls {body' body : Nat → Eval Value}
          (hlasts : Lasts body')
          (hbody : ∀ k, ∀ m : Machine, m.scopes.isGlobal = false →
            uncoded.Follows m (body' k) (body k)) :
          uncoded.Follows m₀
            (limit fun k => enclosed (overflow site) (Recoding.uncoded.closure c)
              (recode .uncoded args) (body' k))
            (limit fun k => enclosed (overflow site) c args (body k)) := by
        refine follows_limit (fun k => (Settles.same _).enclosed (hlasts k) _ _) fun k => ?_
        exact follows_enclosed (S := uncoded) hc hargs rfl rfl (fun _ _ _ _ => trivial)
          (fun m _ hm _ => follows_overflow site hm) (fun _ _ _ h => h)
          fun m _ hscope => hbody k _ (isGlobal_enter hscope)
      rw [callFreely_succ, callFreely_succ]
      have hlasts : Lasts fun k => (Recoding.uncoded.closure c).body
          (Hooks.free.unbounded levels c.source k) :=
        Settling.unbounded_lasts fun _ _ h => Closure.settles_body h _
      cases hcode : c.compiled with
      | some chunk =>
          obtain ⟨hproper, -⟩ := hc chunk hcode
          rw [((abreast_coded hc hcode levels).enclosed _ c args).limit_eq]
          exact hcalls hlasts fun k m hm =>
            FunctionLiteral.follows_ending (beside_unbounded ih c.source k) hproper rfl hm
      | none =>
          refine hcalls hlasts fun k m _ => ?_
          have hbody : c.body (Hooks.heedless.unbounded levels c.source k)
              = bodyValue c.literal.isMap
                (c.literal.body.eval (Hooks.heedless.unbounded levels c.source k) none) := by
            unfold Closure.body
            rw [hcode]
          rw [hbody]
          exact follows_bodyValue _ (follows_unbounded ih c.source k c.literal.body m)

-- ================================================================ programs

theorem bodyValue_bodyValue (isMap : Bool) (x : Eval Value) :
    bodyValue true (bodyValue isMap x) = bodyValue isMap x := by
  funext m
  unfold bodyValue
  cases x m with
  | ok v n => rfl
  | error e n => cases e <;> rfl

/-- What a program comes to from its tree if no bound is set, no one stops it
and no closure has code. -/
noncomputable def Node.worth (levels : Nat) (source : Source) (root : Node) : Eval Value :=
  limit fun k => bodyValue true (root.eval (Hooks.free.bounded levels source k) none)

section

variable {source : Source} {root : Node}

theorem settling_eval (root : Node) : Settling fun env => bodyValue true (root.eval env none) :=
  fun _ _ h => settles_bodyValue true (Node.settles h root none)

theorem settling_run (chunk : Chunk) : Settling fun env => bodyValue true (chunk.run env) :=
  fun _ _ h => settles_bodyValue true (Chunk.settles_run h chunk)

theorem lasts_eval (levels : Nat) (source : Source) (root : Node) :
    Lasts fun k => bodyValue true (root.eval (Hooks.free.unbounded levels source k) none) :=
  (settling_eval root).unbounded_lasts

theorem worth_eq (levels : Nat) (source : Source) (root : Node) : root.worth levels source
    = limit fun k => bodyValue true (root.eval (Hooks.free.unbounded levels source k) none) :=
  (settling_eval root).abreast.limit_eq

/-- From the tree, with closures that may have code. -/
theorem follows_tree (levels : Nat) (source : Source) (root : Node) (m₀ : Machine) :
    uncoded.Follows m₀ (root.worth levels source) (limit fun k =>
      bodyValue true (root.eval (Hooks.heedless.bounded levels source k) none)) := by
  rw [worth_eq, (settling_eval root).abreast.limit_eq]
  exact follows_limit (lasts_eval levels source root) fun k =>
    follows_bodyValue true (follows_unbounded (follows_callFreely levels) source k root m₀)

/-- Compiled, with closures that may have code. -/
theorem follows_code (hproper : root.Proper Lexical) {chunk : Chunk}
    (hchunk : compileScript source root = .ok chunk) (levels : Nat) {m₀ : Machine}
    (hout : m₀.scopes.isGlobal = true) :
    uncoded.Follows m₀ (root.worth levels source) (limit fun k =>
      bodyValue true (chunk.run (Hooks.heedless.bounded levels source k))) := by
  have hcode := (abreast_ending returnless_heedless returnless_overflow
    (fun env hsource => script_run_eq hproper hchunk hsource)
    (fun k => scriptPlan_gives source k root) (fun h => scriptPlan_below h source root)
    levels).bodyValue true
  simp only [Plan.ending, bodyValue_bodyValue] at hcode
  rw [worth_eq, (settling_run chunk).abreast.limit_eq, hcode.limit_eq]
  exact follows_limit (lasts_eval levels source root) fun k =>
    follows_script (beside_unbounded (follows_callFreely levels) source k) hproper rfl hout

end

-- ==================================================================== runs

namespace Machine

/-- How a program ends that is run on a machine. -/
def ending (m : Machine) (hooks : Hooks) (turns : Nat) (source : Source) (root : Node) :
    EStateM.Result Unwind Machine Value :=
  bodyValue true (m.action hooks turns source root) m.enterRun

/-- What a program comes to that ended so. -/
def comesTo (depth : Nat) : EStateM.Result Unwind Machine Value → Except Failure Value × Machine
  | .ok v m => (.ok v, leaveRun depth m)
  | .error e m => (e.result, leaveRun depth m)

theorem executeWithin_eq (m : Machine) (turns : Nat) (source : Source) (root : Node) :
    m.executeWithin turns source root
      = comesTo m.scopes.depth (m.ending .standard turns source root) := by
  simp only [executeWithin, executeHooked, ending, outcome, always, bodyValue]
  cases m.action .standard turns source root m.enterRun with
  | ok v n => rfl
  | error e n => cases e <;> rfl

theorem exhausted_comesTo {depth : Nat} {r : EStateM.Result Unwind Machine Value} :
    (comesTo depth r).1 = .error .exhausted ↔ Exhausted r := by
  cases r with
  | ok v m => exact ⟨fun h => (nomatch h), fun ⟨_, h⟩ => (nomatch h)⟩
  | error e m =>
      cases e with
      | exhausted => exact ⟨fun _ => ⟨m, rfl⟩, fun _ => rfl⟩
      | returned v => exact ⟨fun h => (nomatch h), fun ⟨_, h⟩ => (nomatch h)⟩
      | failed error => exact ⟨fun h => (nomatch h), fun ⟨_, h⟩ => (nomatch h)⟩

theorem snd_comesTo (depth : Nat) (r : EStateM.Result Unwind Machine Value) :
    (comesTo depth r).2 = leaveRun depth (after r) := by
  cases r <;> rfl

/-- A machine on which no clock runs. -/
def unclocked (m : Machine) : Machine := { m with ticks := none }

theorem enterRun_uncoded (m : Machine) :
    recode .uncoded m.enterRun = (recode Recoding.uncoded m).enterRun.unclocked := by
  unfold enterRun
  rw [show (recode Recoding.uncoded m).running = m.running from rfl]
  split <;> rfl

theorem leaveRun_uncoded (depth : Nat) (m : Machine) :
    recode .uncoded (leaveRun depth m) = (leaveRun depth (recode Recoding.uncoded m)).unclocked := by
  have hscopes : (recode Recoding.uncoded m.scopes).unwindTo depth
      = recode .uncoded (m.scopes.unwindTo depth) := by
    rw [← Scopes.unwindTo_recode]
    exact congrArg _ (Nat.zero_add depth).symm
  simp only [leaveRun, unclocked, scopes_recode, hscopes]
  rfl

/-- What a program comes to shows no more code than how it ended. -/
theorem comesTo_uncoded (depth : Nat) (r : EStateM.Result Unwind Machine Value) :
    recode .uncoded (comesTo depth r)
      = (comesTo depth (recode Recoding.uncoded r)).map id unclocked := by
  cases r with
  | ok v m => exact Prod.ext rfl (leaveRun_uncoded depth m)
  | error e m =>
      refine Prod.ext ?_ (leaveRun_uncoded depth m)
      cases e with
      | failed error => cases error <;> rfl
      | _ => rfl

-- ---------------------------------------------------------------- either mode

section

variable {m : Machine} {source : Source} {root : Node} {chunk : Chunk}

/-- A run in either mode goes along with the one from the tree without code,
if no bound is set and no one stops it. -/
theorem follows_ending (hout : m.scopes.isGlobal = true) (hproper : root.Proper Lexical)
    (hchunk : compileScript source root = .ok chunk) (m₀ : Machine) (hm₀ : m₀.scopes = m.scopes) :
    uncoded.Follows m₀ (root.worth (m.options.maxCallDepth + 1) source)
      (limit fun turns => bodyValue true (m.action .heedless turns source root)) := by
  unfold action
  cases m.options.mode with
  | tree => exact follows_tree _ source root m₀
  | compiled =>
      rw [hchunk]
      exact follows_code hproper hchunk _ (hm₀ ▸ hout)

theorem lasts_action (hchunk : compileScript source root = .ok chunk) :
    Lasts fun turns => bodyValue true (m.action .heedless turns source root) := by
  unfold action
  cases m.options.mode with
  | tree => exact (settling_eval root).bounded_lasts
  | compiled =>
      rw [hchunk]
      exact (settling_run chunk).bounded_lasts

/-- A run that no one stops does not notice the clock. -/
theorem ending_heedless (hchunk : compileScript source root = .ok chunk) {turns : Nat}
    (hgoes : (after (m.ending .standard turns source root)).cancelled = false) :
    m.ending .standard turns source root = m.ending .heedless turns source root := by
  have hsettles : Settles .stopped
      (fun _ => bodyValue true (m.action .heedless turns source root))
      (bodyValue true (m.action .standard turns source root)) := by
    have henv := heedless_settles (m.options.maxCallDepth + 1) source turns
    refine settles_bodyValue true ?_
    unfold action
    cases m.options.mode with
    | tree => exact Node.settles henv root none
    | compiled =>
        rw [hchunk]
        exact Chunk.settles_run henv chunk
  rcases Settles.const_iff.1 hsettles m.enterRun with ⟨e, n, hr, -, hstopped⟩ | hsame
  · have hended : m.ending .standard turns source root = .error e n := hr
    rw [hended] at hgoes
    exact absurd hstopped (Bool.eq_false_iff.1 hgoes)
  · exact hsame.symm

/-- What a run without bounds comes to beside the one from the tree without
code. -/
theorem ends_limit (hcoded : AllCoded m) (hout : m.scopes.isGlobal = true)
    (hproper : root.Proper Lexical) (hchunk : compileScript source root = .ok chunk) :
    uncoded.Ends m.enterRun
      (root.worth (m.options.maxCallDepth + 1) source (recode .uncoded m.enterRun))
      (limit (fun turns => bodyValue true (m.action .heedless turns source root)) m.enterRun) := by
  have hclean : uncoded.Clean m.enterRun m.enterRun := by
    unfold enterRun
    split <;> exact hcoded
  exact follows_ending hout hproper hchunk m.enterRun (enterRun_scopes m) m.enterRun (.refl _)
    trivial hclean

/-- A run that comes to an end, and that no one stops. -/
theorem ends_ending (hcoded : AllCoded m) (hout : m.scopes.isGlobal = true)
    (hproper : root.Proper Lexical) (hchunk : compileScript source root = .ok chunk) {turns : Nat}
    (hgoes : (after (m.ending .standard turns source root)).cancelled = false)
    (hends : ¬Exhausted (m.ending .standard turns source root)) :
    uncoded.Ends m.enterRun
      (root.worth (m.options.maxCallDepth + 1) source (recode .uncoded m.enterRun))
      (m.ending .standard turns source root) := by
  rw [ending_heedless hchunk hgoes] at hends ⊢
  have hlimit : limit (fun turns => bodyValue true (m.action .heedless turns source root)) m.enterRun
      = m.ending .heedless turns source root := (lasts_action hchunk).limit_eq hends
  exact hlimit ▸ ends_limit hcoded hout hproper hchunk

/-- A run comes to an end within some bound just if the one from the tree
without code does. -/
theorem exists_ending_iff (hcoded : AllCoded m) (hout : m.scopes.isGlobal = true)
    (hproper : root.Proper Lexical) (hchunk : compileScript source root = .ok chunk)
    (hgoes : ∀ turns, (after (m.ending .standard turns source root)).cancelled = false) :
    (∃ turns, ¬Exhausted (m.ending .standard turns source root)) ↔
      ¬Exhausted (root.worth (m.options.maxCallDepth + 1) source
        (recode .uncoded m.enterRun)) := by
  have hlimit := (ends_limit hcoded hout hproper hchunk).eq_recode.resolve_left
    fun ⟨_, _, _, hskip⟩ => hskip
  have hexhausted := (lasts_action (m := m) hchunk).exhausted_limit (m := m.enterRun)
  rw [hlimit, exhausted_recode, hexhausted, not_forall]
  exact exists_congr fun turns => by
    rw [ending_heedless hchunk (hgoes turns)]
    rfl

end

end Machine

-- =================================================================== agreement

/-- Machines between runs that differ at most in the code that closures have,
all of it made of their literals, in how programs are run, and in the
clock. -/
structure Machine.Twins (m n : Machine) : Prop where
  same : recode .uncoded m = recode Recoding.uncoded n
  coded : AllCoded m
  coded' : AllCoded n
  outside : m.scopes.isGlobal = true

/-- What closures hold is not changed at the end of a run. -/
theorem AllCoded.leaveRun {m : Machine} (h : AllCoded m) (depth : Nat) :
    AllCoded (Machine.leaveRun depth m) := by
  intro c hc
  refine h c (hc.imp_right fun hscopes => ?_)
  have htable : (m.scopes.unwindTo depth).table = m.scopes.table := by
    unfold Scopes.unwindTo
    split <;> rfl
  simpa only [Holds, Machine.leaveRun, htable] using hscopes

/-- Where a run without code leads, later machines hold coded closures. -/
theorem Simulation.Ends.uncoded_after {m : Machine} {r' r : EStateM.Result Unwind Machine Value}
    (h : uncoded.Ends m r' r) : m.Later (after r) ∧ AllCoded (after r) := by
  cases r with
  | ok v n => exact ⟨h.1, h.2.1⟩
  | error e n => exact (h.resolve_left id).imp_right And.left

namespace Machine.Twins

variable {m n : Machine}

/-- What is read off machines without code. -/
theorem read {α : Type} (h : m.Twins n) (f : Machine → α) :
    f (recode .uncoded m) = f (recode .uncoded n) :=
  congrArg f h.same

theorem symm (h : m.Twins n) : n.Twins m where
  same := h.same.symm
  coded := h.coded'
  coded' := h.coded
  outside := (h.read fun k => k.scopes.isGlobal).symm.trans h.outside

/-- Twins have written the same and given the same warnings, have the same on
record, and are in front of the same host and session. -/
theorem shown (h : m.Twins n) : m.output = n.output ∧ m.warnings = n.warnings ∧
    m.created = n.created ∧ m.host = n.host ∧ m.session = n.session := by
  have hstill : Recoding.uncoded.Still := ⟨fun _ => rfl, fun _ => rfl, fun _ => rfl⟩
  have hwarnings : recode .uncoded m.warnings = recode .uncoded n.warnings := h.read Machine.warnings
  have hcreated : recode .uncoded m.created = recode .uncoded n.created := h.read Machine.created
  rw [hstill.warnings, hstill.warnings] at hwarnings
  rw [hstill.records, hstill.records] at hcreated
  exact ⟨h.read Machine.output, hwarnings, hcreated, h.read Machine.host, h.read Machine.session⟩

section

variable {source : Source} {root : Node} {chunk : Chunk} (h : m.Twins n)

include h

/-- Both ways of running a program agree. On twins, in whichever modes, a
program that compiles comes to an end on both or on neither, if no one stops
it; and where it does, it comes to the same value, apart from the code of
closures, or to the same error at the same place, and leaves twins behind. -/
theorem agree {options : ParseOptions} {text : Source}
    (hparse : parse options text = ⟨some root, []⟩)
    (hchunk : compileScript source root = .ok chunk)
    (hm : ∀ turns, (m.executeWithin turns source root).2.cancelled = false)
    (hn : ∀ turns, (n.executeWithin turns source root).2.cancelled = false) :
    ((∃ turns, (m.executeWithin turns source root).1 ≠ .error .exhausted) ↔
      ∃ turns, (n.executeWithin turns source root).1 ≠ .error .exhausted) ∧
    ∀ turns turns', (m.executeWithin turns source root).1 ≠ .error .exhausted →
      (n.executeWithin turns' source root).1 ≠ .error .exhausted →
      recode .uncoded (m.executeWithin turns source root).1
          = recode .uncoded (n.executeWithin turns' source root).1 ∧
        (m.executeWithin turns source root).2.Twins (n.executeWithin turns' source root).2 := by
  have hproper := (proper_of_parse hparse).2
  have hbegin : recode .uncoded m.enterRun = recode .uncoded n.enterRun := by
    rw [enterRun_uncoded, enterRun_uncoded, h.same]
  have hlevels : m.options.maxCallDepth = n.options.maxCallDepth :=
    h.read fun k => k.options.maxCallDepth
  have hdepth : m.scopes.depth = n.scopes.depth := by
    have hsame := h.read fun k => k.scopes.depth
    simp only [scopes_recode, Scopes.depth_recode] at hsame
    exact Nat.add_left_cancel hsame
  have hout := h.symm.outside
  simp only [executeWithin_eq, ne_eq, exhausted_comesTo, snd_comesTo] at hm hn ⊢
  constructor
  · rw [exists_ending_iff h.coded h.outside hproper hchunk hm,
      exists_ending_iff h.coded' hout hproper hchunk hn, hbegin, hlevels]
  · intro turns turns' hmends hnends
    have hends := ends_ending h.coded h.outside hproper hchunk (hm turns) hmends
    have hends' := ends_ending h.coded' hout hproper hchunk (hn turns') hnends
    have hsame : recode .uncoded (m.ending .standard turns source root)
        = recode .uncoded (n.ending .standard turns' source root) := by
      have hworth := hends.eq_recode.resolve_left fun ⟨_, _, _, hskip⟩ => hskip
      have hworth' := hends'.eq_recode.resolve_left fun ⟨_, _, _, hskip⟩ => hskip
      rw [hbegin, hlevels] at hworth
      exact hworth.symm.trans hworth'
    have hcomes : recode .uncoded (comesTo m.scopes.depth (m.ending .standard turns source root))
        = recode .uncoded (comesTo n.scopes.depth (n.ending .standard turns' source root)) := by
      rw [comesTo_uncoded, comesTo_uncoded, hsame, hdepth]
    obtain ⟨hlater, hcoded⟩ := hends.uncoded_after
    obtain ⟨-, hcoded'⟩ := hends'.uncoded_after
    refine ⟨congrArg Prod.fst hcomes, ?_, hcoded.leaveRun _, hcoded'.leaveRun _, ?_⟩
    · have hmachines := congrArg Prod.snd hcomes
      rw [← snd_comesTo, ← snd_comesTo]
      exact hmachines
    · rw [Scopes.isGlobal, (restored_leaveRun hlater).current]
      exact h.outside

end

end Machine.Twins

/-- A new interpreter and the same in any mode. -/
theorem Machine.Fresh.twins {m : Machine} (h : m.Fresh) (mode : Mode) :
    m.Twins { m with options := { m.options with mode } } := by
  have hcoded : AllCoded m := by
    intro c hc chunk hcode
    rw [h.clean c hc] at hcode
    cases hcode
  refine ⟨rfl, hcoded, hcoded, ?_⟩
  cases h <;> rfl

-- ======================================================= an agreed program

/-- A new interpreter that compiles what it runs. -/
def Machine.compiling : Machine :=
  { Machine.withBuiltins with options := { mode := .compiled } }

/-- From its tree a program that logs once needs one turn. -/
theorem executeWithin_logOnce_tree (turns : Nat) :
    (Machine.withBuiltins.executeWithin (turns + 1) (.ofText logOnceText) .logOnce).1
      = .ok .undefined := by
  cbv

/-- Compiled it takes twelve instructions. -/
theorem executeWithin_logOnce_compiled (turns : Nat) :
    (Machine.compiling.executeWithin (turns + 12) (.ofText logOnceText) .logOnce).1
      = .ok .undefined := by
  cbv

theorem cancelled_logOnce_compiled (turns : Nat) :
    (Machine.compiling.executeWithin turns (.ofText logOnceText) .logOnce).2.cancelled = false := by
  by_cases hturns : turns < 12
  · revert turns
    decide +kernel
  · obtain ⟨more, rfl⟩ := Nat.exists_eq_add_of_le' (Nat.le_of_not_lt hturns)
    cbv

/-- A loop with a branch and calls writes the same from its tree and
compiled. -/
theorem agree_logOnce :
    let m := Machine.withBuiltins
    let n := Machine.compiling
    let source := Source.ofText logOnceText
    m.Twins n ∧ parse {} source = ⟨some .logOnce, []⟩ ∧
      (∀ turns, (m.executeWithin turns source .logOnce).2.cancelled = false ∧
        (n.executeWithin turns source .logOnce).2.cancelled = false) ∧
      (m.executeWithin 1 source .logOnce).2.output = "a\n" ∧
      ∀ turns, (m.executeWithin (turns + 1) source .logOnce).2.Twins
        (n.executeWithin (turns + 12) source .logOnce).2 := by
  intro m n source
  have htwins : m.Twins n := Machine.Fresh.twins (.hostless {}) .compiled
  have hparse : parse {} source = ⟨some .logOnce, []⟩ := parse_logOnce {}
  have htree (turns : Nat) : (m.executeWithin turns source .logOnce).2.cancelled = false := by
    unfold m source
    cases turns <;> cbv
  refine ⟨htwins, hparse, fun turns => ⟨htree turns, cancelled_logOnce_compiled turns⟩, ?_,
    fun turns => ?_⟩
  · unfold m source
    cbv
  refine ((htwins.agree hparse rfl htree cancelled_logOnce_compiled).2 (turns + 1) (turns + 12) ?_ ?_).2
  · rw [executeWithin_logOnce_tree]
    simp
  · rw [executeWithin_logOnce_compiled]
    simp

end BoardScript
