/-
Runs that are allowed more. A family of actions settles on an action if,
from some place on, its members do what the action does on a machine, unless
the action is cut off there (`Settles`). What counts as being cut off is
left open (`Cutoff`): to run out of turns, or to be stopped.

Evaluation is made of parts by binding, so it settles where its parts do:
trees (`Node.settles`), chunks of any code (`Chunk.settles_run`), and so
calls (`settles_callClosure`). With a family that does not vary this says
that a run which is not cut off is the same if it may go on for longer.
-/
import BoardScript.Proofs.Run.Calling
import Mathlib.Order.Filter.AtTopBot.Basic

namespace BoardScript

open Filter

-- ================================================================= settling

/-- Ends that say nothing about runs which are allowed more. A call that is
left does not change what they are, and a return is none of them. -/
structure Cutoff where
  Cut : Unwind → Machine → Prop
  not_returned : ∀ v m, ¬Cut (.returned v) m
  leave : ∀ {e m} depth, Cut e m → Cut e (m.leave depth)

namespace Cutoff

/-- Runs that went on for longer than their bounds. -/
def fuel : Cutoff := ⟨fun e _ => e = .exhausted, fun _ _ => nofun, fun _ h => h⟩

/-- Runs that were stopped because they were asked to. -/
def stopped : Cutoff where
  Cut e m := (∃ span, e = .failed (.fault .cancelled span)) ∧ m.cancelled = true
  not_returned _ _ := fun ⟨⟨_, h⟩, _⟩ => nomatch h
  leave _ h := h

/-- A bound that may stand for another: the same one, or a larger one where
to reach a bound is to be cut off. -/
def Allows (C : Cutoff) (bound more : Nat) : Prop :=
  more = bound ∨ bound ≤ more ∧ ∀ m, C.Cut .exhausted m

theorem allows_refl (C : Cutoff) (bound : Nat) : C.Allows bound bound := .inl rfl

theorem fuel_allows {bound more : Nat} (h : bound ≤ more) : fuel.Allows bound more :=
  .inr ⟨h, fun _ => rfl⟩

/-- One turn is gone on both sides. -/
theorem Allows.pred {C : Cutoff} {bound more : Nat} (h : C.Allows (bound + 1) more) :
    ∃ left, more = left + 1 ∧ C.Allows bound left := by
  rcases h with rfl | ⟨hle, hcut⟩
  · exact ⟨bound, rfl, allows_refl C bound⟩
  · exact ⟨more - 1, by omega, .inr ⟨by omega, hcut⟩⟩

end Cutoff

variable {C : Cutoff} {α β : Type}

/-- From some place on a family does what an action does, unless that is cut
off. -/
def Settles (C : Cutoff) (X : Nat → Eval α) (x : Eval α) : Prop :=
  ∀ m, (∃ e n, x m = .error e n ∧ C.Cut e n) ∨ ∀ᶠ k in atTop, X k m = x m

namespace Settles

variable {X Y : Nat → Eval α} {x : Eval α}

theorem same (x : Eval α) : Settles C (fun _ => x) x := fun _ => .inr (.of_forall fun _ => rfl)

/-- Only what a family does from some place on matters. -/
theorem congr (h : ∀ᶠ k in atTop, X k = Y k) (hy : Settles C Y x) : Settles C X x := fun m =>
  (hy m).imp_right fun hm => by
    filter_upwards [h, hm] with k hk hm
    rw [hk, hm]

theorem bind {K : Nat → α → Eval β} {k : α → Eval β} (hx : Settles C X x)
    (hk : ∀ a, Settles C (fun i => K i a) (k a)) :
    Settles C (fun i => X i >>= K i) (x >>= k) := by
  intro m
  show (∃ e n, EStateM.bind x k m = _ ∧ _) ∨
    ∀ᶠ i in atTop, EStateM.bind (X i) (K i) m = EStateM.bind x k m
  unfold EStateM.bind
  rcases hx m with ⟨e, n, hr, hcut⟩ | hsame
  · exact .inl ⟨e, n, by rw [hr], hcut⟩
  · cases hr : x m with
    | error e n =>
        refine .inr ?_
        filter_upwards [hsame] with i hi
        rw [hi, hr]
    | ok a n =>
        refine (hk a n).imp_right fun hnext => ?_
        filter_upwards [hsame, hnext] with i hi hnext
        rw [hi, hr]
        exact hnext

/-- An action whose value is not used. -/
theorem ignored {X : Nat → Eval Value} {x : Eval Value} (h : Settles C X x) :
    Settles C (fun i => do let _ ← X i) (do let _ ← x) :=
  h.bind fun _ => .same _

/-- An action that begins by looking at the machine. -/
theorem reading {K : Nat → Machine → Eval β} {k : Machine → Eval β}
    (hk : ∀ m, Settles C (fun i => K i m) (k m)) :
    Settles C (fun i => MonadState.get >>= K i) (MonadState.get >>= k) :=
  fun m => hk m m

/-- Along with an action that does not vary. -/
theorem const_iff {x y : Eval α} : Settles C (fun _ => y) x ↔
    ∀ m, (∃ e n, x m = .error e n ∧ C.Cut e n) ∨ y m = x m := by
  simp only [Settles, eventually_const]

end Settles

namespace Settles

variable {X Y : Nat → Nat → Eval α} {x : Eval α} {fuels : Nat → Nat}

/-- No turn is left. -/
theorem zero (hx : ∀ k, X k 0 = throw .exhausted) (hfuel : ∀ᶠ k in atTop, C.Allows 0 (fuels k)) :
    Settles C (fun k => X k (fuels k)) (throw .exhausted) := by
  intro m
  by_cases hcut : C.Cut .exhausted m
  · exact .inl ⟨_, m, rfl, hcut⟩
  · refine .inr ?_
    filter_upwards [hfuel] with k hk
    rw [hk.resolve_right fun h => hcut (h.2 m), hx]

/-- One turn, and then the rest with fewer turns. -/
theorem succ {fuel : Nat} (hx : ∀ k left, X k (left + 1) = Y k left)
    (hfuel : ∀ᶠ k in atTop, C.Allows (fuel + 1) (fuels k))
    (hy : ∀ lefts : Nat → Nat, (∀ᶠ k in atTop, C.Allows fuel (lefts k)) →
      Settles C (fun k => Y k (lefts k)) x) :
    Settles C (fun k => X k (fuels k)) x := by
  refine (hy (fun k => fuels k - 1) ?_).congr ?_
  · filter_upwards [hfuel] with k hk
    obtain ⟨left, hleft, hallows⟩ := hk.pred
    rwa [hleft]
  · filter_upwards [hfuel] with k hk
    obtain ⟨left, hleft, -⟩ := hk.pred
    rw [hleft, hx, Nat.add_sub_cancel]

end Settles

theorem settles_loopWhile {condition : Nat → Eval Value} {turn : Nat → Eval Unit}
    {condition' : Eval Value} {turn' : Eval Unit} (hcondition : Settles C condition condition')
    (hturn : Settles C turn turn') (fuel : Nat) {fuels : Nat → Nat}
    (hfuel : ∀ᶠ k in atTop, C.Allows fuel (fuels k)) :
    Settles C (fun k => loopWhile (condition k) (turn k) (fuels k))
      (loopWhile condition' turn' fuel) := by
  induction fuel generalizing fuels with
  | zero => exact .zero (fun _ => rfl) hfuel
  | succ fuel ih =>
      refine .succ (fun _ _ => rfl) hfuel fun lefts hlefts => hcondition.bind fun v => ?_
      split
      · exact hturn.bind fun _ => ih hlefts
      · exact .same _

-- ==================================================================== calls

/-- Environments that settle on one: loops are allowed enough turns, and
calls and questions settle. -/
structure Env.Settles (C : Cutoff) (envs : Nat → Env) (env : Env) : Prop where
  fuel : ∀ᶠ k in atTop, C.Allows env.fuel (envs k).fuel
  source : ∀ k, (envs k).source = env.source
  call : ∀ c args site, BoardScript.Settles C (fun k => (envs k).call c args site)
    (env.call c args site)
  ask : ∀ span, BoardScript.Settles C (fun k => (envs k).ask span) (env.ask span)

section

variable {envs : Nat → Env} {env : Env}

/-- Calling a value settles if calling closures does. -/
theorem settles_callValue (h : Env.Settles C envs env) (callee : Value) (args : List Value)
    (attributes : Option Fields) (site : CallSite) :
    Settles C (fun k => callValue (envs k).call callee args attributes site)
      (callValue env.call callee args attributes site) := by
  cases callee with
  | closure c =>
      cases attributes with
      | some attributes => exact .same _
      | none => exact h.call c args site
  | creator creator => exact .same _
  | _ => cases attributes <;> exact .same _

theorem settles_giveBack {value : Nat → Eval Value} {value' : Eval Value}
    (h : Settles C value value') (span : Span) :
    Settles C (fun k => giveBack (value k) span) (giveBack value' span) := by
  refine .reading fun m => ?_
  split
  · exact .same _
  · exact h.bind fun v => .same _

theorem settles_evalCall (h : Env.Settles C envs env) (callee : Node)
    {calleeValue : Nat → Eval Value} {calleeValue' : Eval Value} {args : Nat → Eval (List Value)}
    {args' : Eval (List Value)} (attributes : Nat → Option (Eval Fields))
    (attributes' : Option (Eval Fields)) (naming : Option String) (span : Span)
    (hcallee : Settles C calleeValue calleeValue') (hargs : Settles C args args')
    (hattributes : Settles C (fun k => givenFields (attributes k)) (givenFields attributes')) :
    Settles C
      (fun k => evalCall (envs k) callee (calleeValue k) (args k) (attributes k) naming span)
      (evalCall env callee calleeValue' args' attributes' naming span) := by
  have hresolved : Settles C (fun k => callee.resolved (calleeValue k))
      (callee.resolved calleeValue') := by
    unfold Node.resolved
    cases callee.name? with
    | some name => exact .same _
    | none => exact hcallee
  simp only [evalCall_eq, h.source]
  exact hresolved.bind fun function => hargs.bind fun values => hattributes.bind fun fields =>
    settles_callValue h function values fields _

theorem settles_properties {properties : List Property}
    (h : Settles C (fun k => evalPairs (envs k) properties) (evalPairs env properties)) :
    Settles C (fun k => evalProperties (envs k) properties) (evalProperties env properties) := by
  simp only [evalProperties]
  exact h.bind fun pairs => .same _

-- ==================================================================== nodes

mutual

theorem Node.settles (h : Env.Settles C envs env) : (node : Node) → (naming : Option String) →
    Settles C (fun k => node.eval (envs k) naming) (node.eval env naming)
  | .useBoard _ span, _ | .returnNothing span, _ | .identifier _ span, _ | .numeral _ _ span, _
  | .string _ span, _ | .boolean _ span, _ => by
      simp only [Node.eval]
      exact (h.ask span).bind fun _ => .same _
  | .function _ _ _ span, _ | .map _ _ _ span, _ => by
      simp only [Node.eval, h.source]
      exact (h.ask span).bind fun _ => .same _
  | .assign _ x span, _ | .delete x span, _ | .unary _ x span, _ | .coordinate _ x span, _
  | .property x _ span, _ => by
      simp only [Node.eval]
      exact (h.ask span).bind fun _ => (Node.settles h x _).bind fun v => .same _
  | .assignProperty x _ y span, _ | .index x y span, _ => by
      simp only [Node.eval]
      exact (h.ask span).bind fun _ => (Node.settles h x _).bind fun v =>
        (Node.settles h y _).bind fun w => .same _
  | .assignIndex base index value span, _ => by
      simp only [Node.eval]
      exact (h.ask span).bind fun _ => (Node.settles h base _).bind fun b =>
        (Node.settles h index _).bind fun i => (Node.settles h value _).bind fun v => .same _
  | .expression value span, _ => by
      simp only [Node.eval]
      exact (h.ask span).bind fun _ => Node.settles h value none
  | .returnValue value span, _ => by
      simp only [Node.eval]
      exact (h.ask span).bind fun _ => settles_giveBack (Node.settles h value none) span
  | .block statements span, _ => by
      simp only [Node.eval]
      exact (h.ask span).bind fun _ => settles_statements h statements
  | .array items span, _ => by
      simp only [Node.eval]
      exact (h.ask span).bind fun _ => (settles_all h items).bind fun _ => .same _
  | .object properties span, _ => by
      simp only [Node.eval]
      exact (h.ask span).bind fun _ =>
        (settles_properties (settles_pairs h properties)).bind fun _ => .same _
  | .ifThen condition yes span, _ => by
      simp only [Node.eval]
      refine (h.ask span).bind fun _ => (Node.settles h condition _).bind fun v => ?_
      split
      · exact Node.settles h yes none
      · exact .same _
  | .ifElse condition yes no span, _ | .conditional condition yes no span, _ => by
      simp only [Node.eval]
      refine (h.ask span).bind fun _ => (Node.settles h condition _).bind fun v => ?_
      split
      · exact Node.settles h yes none
      · exact Node.settles h no none
  | .whileLoop condition body span, _ => by
      simp only [Node.eval]
      exact (h.ask span).bind fun _ => (settles_loopWhile (Node.settles h condition none)
        (Node.settles h body none).ignored _ h.fuel).bind fun _ => .same _
  | .doLoop body condition span, _ => by
      have hbody := Node.settles h body none
      simp only [Node.eval]
      exact (h.ask span).bind fun _ => hbody.bind fun _ =>
        (settles_loopWhile (Node.settles h condition none) hbody.ignored _ h.fuel).bind
          fun _ => .same _
  | .forLoop init condition step body span, _ => by
      simp only [Node.eval]
      exact (h.ask span).bind fun _ => (Node.settles h init none).bind fun _ =>
        (settles_loopWhile (Node.settles h condition none)
          ((Node.settles h body none).bind fun _ => (Node.settles h step none).ignored) _
          h.fuel).bind fun _ => .same _
  | .call callee args span, naming => by
      have hcall := settles_evalCall h callee (fun _ => none) none naming span
        (Node.settles h callee none) (settles_all h args) (.same _)
      simp only [Node.eval]
      split
      · exact (h.ask span).bind fun _ => hcall
      · exact hcall
  | .callWith callee args attributes span, naming => by
      have hcall := settles_evalCall h callee (fun k => some (evalProperties (envs k) attributes))
        (some (evalProperties env attributes)) naming span (Node.settles h callee none)
        (settles_all h args)
        ((settles_properties (settles_pairs h attributes)).bind fun fields => .same _)
      simp only [Node.eval]
      split
      · exact (h.ask span).bind fun _ => hcall
      · exact hcall
  | .binary operator left right span, _ => by
      have hleft := Node.settles h left none
      have hright := Node.settles h right none
      by_cases hand : operator = .and
      · subst hand
        simp only [eval_and]
        refine (h.ask span).bind fun _ => hleft.bind fun v => ?_
        split
        · exact hright
        · exact .same _
      · by_cases hor : operator = .or
        · subst hor
          simp only [eval_or]
          refine (h.ask span).bind fun _ => hleft.bind fun v => ?_
          split
          · exact .same _
          · exact hright
        · simp only [eval_binary hand hor]
          exact (h.ask span).bind fun _ => hleft.bind fun l => hright.bind fun r => .same _

theorem settles_statements (h : Env.Settles C envs env) : (nodes : List Node) →
    Settles C (fun k => evalStatements (envs k) nodes) (evalStatements env nodes)
  | [] => by
      simp only [evalStatements]
      exact .same _
  | [node] => by
      simp only [evalStatements]
      exact Node.settles h node none
  | node :: next :: rest => by
      have hrest := settles_statements h (next :: rest)
      simp only [evalStatements_cons]
      exact (Node.settles h node none).bind fun _ => hrest

theorem settles_all (h : Env.Settles C envs env) : (nodes : List Node) →
    Settles C (fun k => evalAll (envs k) nodes) (evalAll env nodes)
  | [] => by
      simp only [evalAll]
      exact .same _
  | node :: rest => by
      simp only [evalAll]
      exact (Node.settles h node none).bind fun v => (settles_all h rest).bind fun vs => .same _

theorem settles_pairs (h : Env.Settles C envs env) : (properties : List Property) →
    Settles C (fun k => evalPairs (envs k) properties) (evalPairs env properties)
  | [] => by
      simp only [evalPairs]
      exact .same _
  | .mk name value :: rest => by
      simp only [evalPairs]
      exact (Node.settles h value none).bind fun v => (settles_pairs h rest).bind fun vs => .same _

end

end

-- ===================================================================== code

namespace Frame

section

variable {envs : Nat → Env} {env : Env} {chunk : Chunk}

theorem settles_performCall (h : Env.Settles C envs env) (span : Span) (named attributed : Bool)
    (ip : Nat) (stack : List Value) :
    Settles C (fun k => performCall (envs k) chunk span named attributed ip stack)
      (performCall env chunk span named attributed ip stack) := by
  simp only [performCall, h.source]
  exact (Settles.same _).bind fun _ => (Settles.same _).bind fun _ => (Settles.same _).bind
    fun _ => (Settles.same _).bind fun _ => (Settles.same _).bind fun _ => (Settles.same _).bind
    fun _ => (settles_callValue h _ _ _ _).bind fun _ => .same _

/-- Only the call instructions depend on how closures are called. -/
theorem settles_perform (h : Env.Settles C envs env) (span : Span) (ip : Nat)
    (stack : List Value) (op : OpCode) :
    Settles C (fun k => perform (envs k) chunk span ip stack op)
      (perform env chunk span ip stack op) := by
  cases op with
  | call => exact settles_performCall h span false false ip stack
  | callWithAttributes => exact settles_performCall h span false true ip stack
  | callNamed => exact settles_performCall h span true false ip stack
  | closure =>
      simp only [perform, h.source]
      exact .same _
  | _ => exact .same _

theorem settles_step (h : Env.Settles C envs env) (frame : Frame) :
    Settles C (fun k => step (envs k) chunk frame) (step env chunk frame) := by
  unfold step
  cases chunk.spanAt frame.ip with
  | none => exact .same _
  | some span =>
      exact (h.ask span).bind fun _ => (Settles.same _).bind fun _ =>
        settles_perform h span _ frame.stack _

theorem settles_exec (h : Env.Settles C envs env) (fuel : Nat) (frame : Frame)
    {fuels : Nat → Nat} (hfuel : ∀ᶠ k in atTop, C.Allows fuel (fuels k)) :
    Settles C (fun k => exec (envs k) chunk (fuels k) frame) (exec env chunk fuel frame) := by
  induction fuel generalizing frame fuels with
  | zero => exact .zero (X := fun k fuel => exec (envs k) chunk fuel frame) (fun _ => rfl) hfuel
  | succ fuel ih =>
      refine .succ (X := fun k fuel => exec (envs k) chunk fuel frame) (fun _ _ => rfl) hfuel
        fun lefts hlefts => (settles_step h frame).bind fun progress => ?_
      cases progress with
      | next frame => exact ih frame hlefts
      | done value => exact .same _

end

end Frame

section

variable {envs : Nat → Env} {env : Env}

/-- Any code at all. -/
theorem Chunk.settles_run (h : Env.Settles C envs env) (chunk : Chunk) :
    Settles C (fun k => chunk.run (envs k)) (chunk.run env) :=
  Frame.settles_exec h env.fuel .start h.fuel

-- =================================================================== bodies

theorem settles_bodyValue (isMap : Bool) {X : Nat → Eval Value} {x : Eval Value}
    (h : Settles C X x) : Settles C (fun k => bodyValue isMap (X k)) (bodyValue isMap x) := by
  intro m
  rcases h m with ⟨e, n, hr, hcut⟩ | hsame
  · refine .inl ⟨e, n, ?_, hcut⟩
    unfold bodyValue
    rw [hr]
    cases e with
    | returned v => exact absurd hcut (C.not_returned v n)
    | _ => rfl
  · refine .inr ?_
    filter_upwards [hsame] with k hk
    unfold bodyValue
    rw [hk]

/-- The body of a closure, from its code or from its tree. -/
theorem Closure.settles_body (h : Env.Settles C envs env) (c : Closure) :
    Settles C (fun k => c.body (envs k)) (c.body env) := by
  unfold Closure.body
  cases c.compiled with
  | some chunk => exact Chunk.settles_run h chunk
  | none => exact settles_bodyValue _ (Node.settles h c.literal.body none)

theorem Settles.enclosed {refusal body : Nat → Eval Value} {refusal' body' : Eval Value}
    (hrefusal : Settles C refusal refusal') (hbody : Settles C body body') (c : Closure)
    (args : List Value) :
    Settles C (fun k => BoardScript.enclosed (refusal k) c args (body k))
      (BoardScript.enclosed refusal' c args body') := by
  intro m
  simp only [enclosed_eq]
  split
  · exact hrefusal m
  split
  · rcases hbody (m.enter c args) with ⟨e, n, hr, hcut⟩ | hsame
    · exact .inl ⟨e, n.leave m.scopes.depth, by rw [hr]; rfl, C.leave _ hcut⟩
    · refine .inr ?_
      filter_upwards [hsame] with k hk
      rw [hk]
  · exact .inr (.of_forall fun _ => rfl)

/-- Calls settle if questions and refusals do. The induction is over how deep
calls nest. -/
theorem settles_callClosure {hooks' hooks : Hooks}
    (hask : ∀ span, Settles C (fun _ => hooks'.ask span) (hooks.ask span))
    (hrefuse : ∀ site, Settles C (fun _ => hooks'.refuse site) (hooks.refuse site)) {fuel : Nat}
    {fuels : Nat → Nat} (hfuel : ∀ᶠ k in atTop, C.Allows fuel (fuels k)) (levels : Nat)
    (c : Closure) (args : List Value) (site : CallSite) :
    Settles C (fun k => callClosure hooks' (fuels k) levels c args site)
      (callClosure hooks fuel levels c args site) := by
  induction levels generalizing c args site with
  | zero => exact .same _
  | succ levels ih =>
      simp only [callClosure_enclosed]
      refine (hrefuse site).enclosed (c.settles_body ?_) c args
      exact ⟨hfuel, fun _ => rfl, ih, hask⟩

end

end BoardScript
