/-
Runs on watched machines. Where closures are called, and where programs and
expressions are run, machines stay watched with what is made meanwhile
(`Machine.Watched`), and hooks that do anything on other machines are not
noticed. So what a watch says of a machine holds between runs and within runs.
-/
import BoardScript.Proofs.Run.Guard
import BoardScript.Proofs.Run.Retain

namespace BoardScript

variable {W : Watch}

-- ============================================================ kinds of machine

namespace Machine

/-- A machine of stored values for which a watch's invariant holds, by what
was made until then. -/
structure Watched (W : Watch) (past : List Creation) (m : Machine) : Prop where
  stores : m.Stores (Value.Stored W.Fine)
  inv : W.Inv past m

/-- A watched machine, whatever was made until then. -/
def InWatch (W : Watch) (m : Machine) : Prop := ∃ past, m.Watched W past

variable {past : List Creation} {m n : Machine}

/-- The same heap and scopes, and nothing made. -/
theorem Watched.of_table (h : m.Watched W past) (hheap : n.heap = m.heap)
    (htable : n.scopes.table = m.scopes.table) (hhost : n.host = m.host)
    (hcreated : n.created = m.created) : n.Watched W past :=
  ⟨⟨hheap ▸ h.stores.heap, htable ▸ h.stores.scopes⟩, W.quiet (.of_heap hhost hcreated hheap) h.inv⟩

theorem Watched.enterRun (h : m.Watched W past) : m.enterRun.Watched W past := by
  unfold Machine.enterRun
  split <;> exact h.of_table rfl rfl rfl rfl

theorem table_unwindTo (s : Scopes) (depth : Nat) : (s.unwindTo depth).table = s.table := by
  unfold Scopes.unwindTo
  split <;> rfl

theorem Watched.leaveRun (h : m.Watched W past) (depth : Nat) : (leaveRun depth m).Watched W past :=
  h.of_table rfl (table_unwindTo _ _) rfl rfl

theorem Watched.leave (h : m.Watched W past) (depth : Nat) : (m.leave depth).Watched W past :=
  h.of_table rfl (table_unwindTo _ _) rfl rfl

/-- A scope for stored arguments. -/
theorem Watched.enter (h : m.Watched W past) (c : Closure) {args : List Value}
    (ha : ∀ v ∈ args, v.Stored W.Fine) : (m.enter c args).Watched W past :=
  ⟨⟨h.stores.heap, forall_mem_push h.stores.scopes
      (Scopes.of_bindParams (P := Value.Stored W.Fine) trivial ha _)⟩,
    W.quiet (m := m) (.of_heap rfl rfl rfl) h.inv⟩

end Machine

-- ===================================================================== calls

section

variable {env' env : Env} {calls : CallMakings}

theorem agrees_bodyValue {x' x : Eval Value} {made : Makings} (isMap : Bool)
    (h : Agrees W (Value.Stored W.Fine) x' x made) :
    Agrees W (Value.Stored W.Fine) (bodyValue isMap x') (bodyValue isMap x) made := by
  intro past m hm hi
  obtain ⟨hsame, hkept, hinv⟩ := h past m hm hi
  unfold bodyValue
  rw [hsame]
  refine ⟨rfl, ?_⟩
  cases hr : x m with
  | ok v n =>
      rw [hr] at hkept hinv
      refine ⟨⟨hkept.1, ?_⟩, hinv⟩
      split
      · exact hkept.2
      · trivial
  | error e n =>
      rw [hr] at hkept hinv
      cases e with
      | returned v => exact ⟨⟨hkept.1, hkept.2 v rfl⟩, hinv⟩
      | failed error => exact ⟨hkept, hinv⟩
      | exhausted => exact ⟨hkept, hinv⟩

/-- The body of a closure, from its code or from its tree. -/
theorem Watch.agrees_body {c : Closure} (hc : W.Fine c) (h : env'.Agrees W env calls)
    (hsource : env.source = c.source) :
    Agrees W (Value.Stored W.Fine) (c.body env') (c.body env) (c.makes env calls) := by
  unfold Closure.body Closure.makes
  cases hcompiled : c.compiled with
  | none => exact agrees_bodyValue _ (Node.agrees h c.literal.body (hsource ▸ W.body hc) none)
  | some chunk =>
      obtain ⟨hproper, hchunk⟩ := W.coded hc chunk hcompiled
      dsimp only
      rw [FunctionLiteral.run_eq hproper hchunk hsource,
        FunctionLiteral.run_eq hproper hchunk (h.source.trans hsource), Plan.runWithin, Plan.runWithin,
        h.fuel]
      exact (FunctionLiteral.keeps hproper (W.body hc) env.fuel).runFor h (fun _ _ hv => .pure hv) _

/-- Putting a machine right that an action left behind. -/
theorem kept_onMachine {α : Type} {Q : α → Prop} {past : List Creation}
    {r : EStateM.Result Unwind Machine α} (h : Kept W.Fine Q r) (hi : W.Inv past (after r))
    {f : Machine → Machine} (hf : ∀ m : Machine, m.Watched W past → (f m).Watched W past) :
    Kept W.Fine Q (onMachine f r) ∧ W.Inv past (after (onMachine f r)) := by
  cases r with
  | ok a m => exact ⟨⟨(hf m ⟨h.1, hi⟩).stores, h.2⟩, (hf m ⟨h.1, hi⟩).inv⟩
  | error e m => exact ⟨⟨(hf m ⟨h.1, hi⟩).stores, h.2⟩, (hf m ⟨h.1, hi⟩).inv⟩

/-- Hooks that do as the standard ones on watched machines are not noticed by
questions. -/
theorem agrees_ask {hooks : Hooks} (hh : hooks.StandardOn (Machine.InWatch W)) (span : Span) :
    Agrees W (fun _ => True) (hooks.ask span) (checkCancelled span) .nothing := fun past m hm hi =>
  ⟨hh.ask m span ⟨past, hm, hi⟩, ((keeps_checkCancelled span).agrees past m hm hi).2⟩

/-- Nor are they by calls. -/
theorem agrees_callClosure {hooks : Hooks} (hh : hooks.StandardOn (Machine.InWatch W))
    (fuel levels : Nat) (c : Closure) (args : List Value) (site : CallSite) (hc : W.Fine c)
    (ha : ∀ v ∈ args, v.Stored W.Fine) :
    Agrees W (Value.Stored W.Fine) (callClosure hooks fuel levels c args site)
      (callClosure .standard fuel levels c args site) (callClosureMakes fuel levels c args site) := by
  induction levels generalizing c args site with
  | zero => exact Keeps.exhausted.agrees
  | succ levels ih =>
      intro past m hm hi
      rw [callClosure_succ, callClosure_succ, callClosureMakes]
      dsimp only
      have hnothing : W.Inv (past ++ []) m := (List.append_nil past).symm ▸ hi
      split
      · exact ⟨hh.refuse m site ⟨past, hm, hi⟩, kept_failed hm _, hnothing⟩
      split
      · have henv : Env.Agrees W ⟨fuel, callClosure hooks fuel levels, hooks.ask, c.source⟩
            ⟨fuel, callClosure .standard fuel levels, checkCancelled, c.source⟩
            (callClosureMakes fuel levels) :=
          ⟨rfl, rfl, fun c args site hc ha => ih c args site hc ha, agrees_ask hh⟩
        have hbegin : (m.enter c args).Watched W past := Machine.Watched.enter ⟨hm, hi⟩ c ha
        obtain ⟨hsame, hkept, hinv⟩ := W.agrees_body hc henv rfl _ _ hbegin.stores hbegin.inv
        exact ⟨congrArg _ hsame, kept_onMachine hkept hinv fun n hn => hn.leave _⟩
      · exact ⟨rfl, kept_failed hm _, hnothing⟩

/-- The standard environment agrees with itself. -/
theorem agrees_standard (turns levels : Nat) (source : Source) :
    let env : Env := ⟨turns, callClosure .standard turns levels, checkCancelled, source⟩
    env.Agrees W env (callClosureMakes turns levels) :=
  ⟨rfl, rfl,
    fun c args site hc ha =>
      agrees_callClosure (Hooks.standardOn_standard _) turns levels c args site hc ha,
    fun span => (keeps_checkCancelled span).agrees⟩

end

-- ====================================================================== runs

/-- A text whose program, if it is one, may be evaluated. -/
def Watch.Text (W : Watch) (options : ParseOptions) (text : String) : Prop :=
  ∀ root, parseProgram options (.ofText text) = .ok root → W.Code (.ofText text) root

namespace Machine

/-- A watched machine, and a stored value if a value at all. -/
def WatchedEnd (W : Watch) (past : List Creation) (ended : Except Failure Value × Machine) : Prop :=
  ended.2.Watched W past ∧ ∀ v, ended.1 = .ok v → v.Stored W.Fine

variable {past : List Creation} {m : Machine} {hooks : Hooks}

theorem agrees_environment (hh : hooks.StandardOn (InWatch W)) (n : Machine) (turns : Nat)
    (source : Source) : (n.environment hooks turns source).Agrees W
      (n.environment .standard turns source) (n.callsMake turns) :=
  ⟨rfl, rfl, fun c args site hc ha => agrees_callClosure hh turns _ c args site hc ha, agrees_ask hh⟩

theorem agrees_action (hh : hooks.StandardOn (InWatch W)) (n : Machine) (turns : Nat)
    {source : Source} {root : Node} (hroot : root.Proper Lexical) (hcode : W.Code source root) :
    Agrees W (Value.Stored W.Fine) (n.action hooks turns source root)
      (n.action .standard turns source root) (n.actionMakes turns source root) := by
  have henv := agrees_environment hh n turns source
  unfold Machine.action Machine.actionMakes
  cases n.options.mode with
  | tree => exact Node.agrees henv root hcode none
  | compiled =>
      cases hchunk : compileScript source root with
      | ok chunk =>
          dsimp only
          rw [script_run_eq hroot hchunk (show (n.environment hooks turns source).source = source from rfl),
            script_run_eq hroot hchunk
              (show (n.environment .standard turns source).source = source from rfl)]
          exact (keeps_scriptPlan hroot hcode turns).runFor henv (fun _ _ hv => .pure hv) _
      | error cause => exact fun past k hk hi => ⟨rfl, kept_failed hk _, (List.append_nil past).symm ▸ hi⟩

/-- What actions in agreement come to. -/
theorem same_outcome {x' x : Eval Value} {made : Makings} {n : Machine} {restore : Machine → Machine}
    (hrestore : ∀ past (k : Machine), k.Watched W past → (restore k).Watched W past)
    (h : Agrees W (Value.Stored W.Fine) x' x made) (hn : n.Watched W past) :
    outcome (always x' restore) n = outcome (always x restore) n ∧
      WatchedEnd W (past ++ made n) (outcome (always x restore) n) := by
  obtain ⟨hsame, hkept, hinv⟩ := h past n hn.stores hn.inv
  unfold outcome always
  rw [hsame]
  refine ⟨rfl, ?_⟩
  generalize x n = r at hkept hinv ⊢
  cases r with
  | ok v k =>
      refine ⟨hrestore _ k ⟨hkept.1, hinv⟩, ?_⟩
      rintro _ ⟨⟩
      exact hkept.2
  | error e k =>
      cases e with
      | returned v =>
          refine ⟨hrestore _ k ⟨hkept.1, hinv⟩, ?_⟩
          rintro _ ⟨⟩
          exact hkept.2 v rfl
      | failed error => exact ⟨hrestore _ k ⟨hkept.1, hinv⟩, fun _ h => nomatch h⟩
      | exhausted => exact ⟨hrestore _ k ⟨hkept.1, hinv⟩, fun _ h => nomatch h⟩

theorem Watched.executeHooked (h : m.Watched W past) (hh : hooks.StandardOn (InWatch W)) (turns : Nat)
    {source : Source} {root : Node} (hroot : root.Proper Lexical) (hcode : W.Code source root) :
    m.executeHooked hooks turns source root = m.executeWithin turns source root ∧
      WatchedEnd W (past ++ m.executeMakes turns source root) (m.executeWithin turns source root) := by
  rw [Machine.executeWithin, Machine.executeHooked, Machine.executeHooked]
  exact same_outcome (fun _ _ hk => hk.leaveRun _) (agrees_action hh m turns hroot hcode) h.enterRun

theorem Watched.callResult (h : m.Watched W past) (hh : hooks.StandardOn (InWatch W)) (turns : Nat)
    {source : Source} {parsed : Except Failure Node}
    (hparsed : ∀ root, parsed = .ok root → root.Proper Lexical ∧ W.Code source root) :
    m.callResult hooks turns source parsed = m.callResult .standard turns source parsed ∧
      WatchedEnd W (past ++ m.callResultMakes turns source parsed)
        (m.callResult .standard turns source parsed) := by
  cases parsed with
  | error failure => exact ⟨rfl, (List.append_nil past).symm ▸ h, fun _ h => by cases h⟩
  | ok root =>
      obtain ⟨hroot, hcode⟩ := hparsed root rfl
      obtain ⟨hsame, hend⟩ := h.executeHooked hh turns hroot hcode
      simp only [Machine.callResult, Machine.callResultMakes, hsame, ← List.append_assoc]
      rw [executeWithin] at hend ⊢
      generalize m.executeHooked .standard turns source root = ended at hend ⊢
      obtain ⟨result, n⟩ := ended
      cases result with
      | error failure => exact ⟨rfl, (List.append_nil _).symm ▸ hend.1, fun _ h => by cases h⟩
      | ok function =>
          have hfunction := hend.2 function rfl
          have hnone : ∀ fields : Fields, none = some fields →
              ∀ p ∈ fields, p.2.Stored W.Fine := fun _ h => by cases h
          -- what a run comes to is stored, and so it is no creator
          have hno : ∀ creator, function = .creator creator →
              W.Site root ⟨root.span, "snippet", none, source⟩ := by
            rintro creator rfl
            exact hfunction.elim
          have hcall := agrees_callValue hfunction.callee (List.forall_mem_nil _) hnone hno
            fun c hc => (agrees_environment hh n turns source).call c [] _ hc (List.forall_mem_nil _)
          have hid : ∀ past (k : Machine), k.Watched W past → (id k).Watched W past :=
            fun _ _ hk => hk
          have hcalled := same_outcome hid hcall hend.1
          rwa [always_id, always_id] at hcalled

/-- Only what was parsed without an error is faultless. -/
theorem eq_of_faultless {parsed : Parsed} {root : Node} (h : parsed.faultless = .ok root) :
    parsed = ⟨some root, []⟩ := by
  obtain ⟨found, errors⟩ := parsed
  cases found with
  | none => cases h
  | some node =>
      cases errors with
      | nil =>
          cases h
          rfl
      | cons error errors => cases h

/-- The texts in a program are such as tokens have. -/
theorem proper_of_parseProgram {options : ParseOptions} {source : Source} {root : Node}
    (h : parseProgram options source = .ok root) : root.Proper Lexical := by
  rw [parseProgram] at h
  exact (proper_of_parse (eq_of_faultless h)).2

theorem Watched.executeParsed (h : m.Watched W past) (turns : Nat) {source : Source}
    {parsed : Except Failure Node}
    (hparsed : ∀ root, parsed = .ok root → root.Proper Lexical ∧ W.Code source root) :
    WatchedEnd W (past ++ m.executeParsedMakes turns source parsed) (m.executeParsed turns source parsed) := by
  cases parsed with
  | error failure => exact ⟨(List.append_nil past).symm ▸ h, fun _ h => nomatch h⟩
  | ok root =>
      obtain ⟨hroot, hcode⟩ := hparsed root rfl
      exact (h.executeHooked (Hooks.standardOn_standard _) turns hroot hcode).2

theorem Watched.runWithin (h : m.Watched W past) (turns : Nat) {text : String}
    (htext : W.Text m.options.parsing text) :
    WatchedEnd W (past ++ m.runMakes turns text) (m.runWithin turns text) := by
  rw [Machine.runWithin, Machine.runMakes]
  exact h.executeParsed turns fun root hroot => ⟨proper_of_parseProgram hroot, htext root hroot⟩

theorem Watched.snippetHooked (h : m.Watched W past) (hh : hooks.StandardOn (InWatch W)) (turns : Nat)
    {expression : String} (htext : W.Text m.options.parsing (snippetText expression)) :
    m.snippetHooked hooks turns expression = m.snippetWithin turns expression ∧
      WatchedEnd W (past ++ m.snippetMakes turns expression) (m.snippetWithin turns expression) := by
  rw [Machine.snippetWithin, Machine.snippetHooked, Machine.snippetHooked, Machine.snippetMakes]
  exact h.callResult hh turns fun root hroot => ⟨proper_of_parseProgram hroot, htext root hroot⟩

end Machine

end BoardScript
