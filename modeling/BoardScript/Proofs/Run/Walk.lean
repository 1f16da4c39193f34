/-
Evaluating a tree follows evaluating the recast one, if the environments
go along with each other: closures are called along with each other, what
is asked is answered along with each other, and the closures made are fine
(`Env.Follows`). The induction is over the tree; one turn of a loop is
followed by one turn.
-/
import BoardScript.Proofs.Run.Follow
import BoardScript.Run.Tree

namespace BoardScript

open Simulation

-- ================================================================= equations

/-- What is called; a name is resolved as something to be called. -/
def Node.resolved (callee : Node) (value : Eval Value) : Eval Value :=
  match callee.name? with
  | some name => readCallee name callee.span
  | none => value

/-- The attributes of a call, as an object of their own. -/
def givenFields : Option (Eval Fields) → Eval (Option Fields)
  | some attributes => do
      let fields ← attributes
      let _ ← allocate (·.newObject fields)
      return some fields
  | none => return none

theorem evalCall_eq (env : Env) (callee : Node) (calleeValue : Eval Value)
    (args : Eval (List Value)) (attributes : Option (Eval Fields)) (naming : Option String)
    (span : Span) :
    evalCall env callee calleeValue args attributes naming span = (do
      let calleeValue ← callee.resolved calleeValue
      let args ← args
      let attributes ← givenFields attributes
      callValue env.call calleeValue args attributes
        ⟨span, Compile.calleeText callee, naming, env.source⟩) := by
  unfold evalCall Node.resolved givenFields
  cases callee.name? <;> cases attributes <;> simp only [bind_assoc, pure_bind]

theorem evalStatements_cons (env : Env) (node next : Node) (rest : List Node) :
    evalStatements env (node :: next :: rest) = (do
      let _ ← node.eval env none
      evalStatements env (next :: rest)) := by
  rw [evalStatements]
  simp

theorem eval_and (env : Env) (naming : Option String) (left right : Node) (span : Span) :
    (Node.binary .and left right span).eval env naming = (do
      env.ask span
      let left ← left.eval env none
      if left.truthy then right.eval env none else return left) := by
  rw [Node.eval]

theorem eval_or (env : Env) (naming : Option String) (left right : Node) (span : Span) :
    (Node.binary .or left right span).eval env naming = (do
      env.ask span
      let left ← left.eval env none
      if left.truthy then return left else right.eval env none) := by
  rw [Node.eval]

/-- An operator that always needs both operands. -/
theorem eval_binary {operator : BinaryOperator} (hand : operator ≠ .and) (hor : operator ≠ .or)
    (env : Env) (naming : Option String) (left right : Node) (span : Span) :
    (Node.binary operator left right span).eval env naming = (do
      env.ask span
      let left ← left.eval env none
      let right ← right.eval env none
      binaryOperation operator left right span) := by
  rw [Node.eval]
  · exact hand
  · exact hor

/-- Environments that go along with each other. Where braces are added,
nothing may be asked in front of them. -/
structure Env.Follows (S : Simulation) (braced : Bool) (env' env : Env) : Prop where
  fuel : env'.fuel = env.fuel
  source : env'.source = S.code.source env.source
  call : ∀ m₀ c args site, S.Fine m₀ c → S.Clean m₀ args →
    S.Follows m₀ (env'.call (S.code.closure c) (recode S.code args) (recode S.code site))
      (env.call c args site)
  ask : ∀ m₀ span, S.Follows m₀ (env'.ask (S.code.span span)) (env.ask span)
  free : braced = true → ∀ span, env'.ask span = pure ()
  make : ∀ m₀ literal, S.Follows m₀
    (makeClosure (literal.recast S.code.span braced) none env'.source)
    (makeClosure literal none env.source)

section

variable {S : Simulation} {m₀ m₁ : Machine}

theorem clean_none {α : Type} [Recodable α] : S.Clean m₀ (none : Option α) :=
  fun _ ⟨_, h, _⟩ => (nomatch h)

theorem Simulation.Clean.some {α : Type} [Recodable α] {a : α} (h : S.Clean m₀ a) :
    S.Clean m₀ (some a) := by
  rintro c ⟨b, hb, hc⟩
  cases hb
  exact h c hc

theorem clean_nil {α : Type} [Recodable α] : S.Clean m₀ ([] : List α) :=
  fun _ ⟨_, h, _⟩ => (nomatch h)

theorem Simulation.Clean.cons {α : Type} [Recodable α] {a : α} {as : List α}
    (h : S.Clean m₀ a) (hs : S.Clean m₀ as) : S.Clean m₀ (a :: as) := by
  rintro c ⟨b, hb, hc⟩
  rcases List.mem_cons.1 hb with rfl | hb
  · exact h c hc
  · exact hs c ⟨b, hb, hc⟩

theorem clean_undefined : S.Clean m₀ Value.undefined := fun _ h => (nomatch h)
theorem clean_number (x : Float) : S.Clean m₀ (Value.number x) := fun _ h => (nomatch h)
theorem clean_string (text : String) : S.Clean m₀ (Value.string text) := fun _ h => (nomatch h)
theorem clean_boolean (b : Bool) : S.Clean m₀ (Value.boolean b) := fun _ h => (nomatch h)

theorem Simulation.Clean.field {name : String} {v : Value} (h : S.Clean m₀ v) :
    S.Clean m₀ (name, v) := by
  rintro c (hc | hc)
  · exact hc.elim
  · exact h c hc

/-- Fields hold the closures of their pairs. -/
theorem Simulation.Clean.ofPairs {pairs : List (String × Value)} (h : S.Clean m₀ pairs) :
    S.Clean m₀ (Fields.ofPairs pairs) := by
  have hfixed := recode_moving_eq.2 h
  refine recode_moving_eq.1 ?_
  rw [← Fields.ofPairs_recode, hfixed]

-- ===================================================================== loops

theorem follows_loopWhile {condition' condition : Eval Value} {turn' turn : Eval Unit}
    (hcondition : ∀ m₀, S.Follows m₀ condition' condition)
    (hturn : ∀ m₀, S.Follows m₀ turn' turn) (fuel : Nat) (m₀ : Machine) :
    S.Follows m₀ (loopWhile condition' turn' fuel) (loopWhile condition turn fuel) := by
  induction fuel generalizing m₀ with
  | zero => exact .exhausted
  | succ fuel ih =>
      rw [loopWhile, loopWhile]
      refine (hcondition m₀).bind fun v m₁ _ _ => ?_
      rw [Value.truthy_recode]
      split
      · exact (hturn m₁).bind fun _ m₂ _ _ => ih m₂
      · exact .pure (a := ()) fun _ h => h.elim

/-- An action whose value is not used. -/
theorem Simulation.Follows.ignored {x' x : Eval Value} (h : S.Follows m₀ x' x) :
    S.Follows m₀ (do let _ ← x') (do let _ ← x) :=
  h.bind fun _ _ _ _ => .pure (a := ()) fun _ h => h.elim

-- ============================================================ calls, returns

theorem follows_giveBack {value' value : Eval Value} (hvalue : ∀ m₀, S.Follows m₀ value' value)
    (span : Span) (m₀ : Machine) :
    S.Follows m₀ (giveBack value' (S.code.span span)) (giveBack value span) := by
  refine .reading fun m _ => ?_
  rw [scopes_recode, isGlobal_recode]
  split
  · exact .fault _ span rfl
  · exact (hvalue m).bind fun _ _ _ hv => .returned hv

@[simp] theorem calleeText_recast (move : Span → Span) (braced : Bool) (callee : Node) :
    Compile.calleeText (callee.recast move braced) = Compile.calleeText callee := by
  rw [Compile.calleeText, name?_recast, node_recast, Compile.calleeText]

theorem follows_evalCall {env' env : Env} {braced : Bool} (h : env'.Follows S braced env)
    (callee : Node) {calleeValue' calleeValue : Eval Value} {args' args : Eval (List Value)}
    {attributes' attributes : Option (Eval Fields)} (naming : Option String) (span : Span)
    (hcallee : ∀ m₀, S.Follows m₀ calleeValue' calleeValue)
    (hargs : ∀ m₀, S.Follows m₀ args' args)
    (hattributes : ∀ m₀, Option.Rel (S.Follows m₀) attributes' attributes) (m₀ : Machine) :
    S.Follows m₀
      (evalCall env' (callee.recast S.code.span braced) calleeValue' args' attributes' naming
        (S.code.span span))
      (evalCall env callee calleeValue args attributes naming span) := by
  have hresolved : S.Follows m₀ ((callee.recast S.code.span braced).resolved calleeValue')
      (callee.resolved calleeValue) := by
    unfold Node.resolved
    rw [name?_recast, span_recast]
    cases callee.name? with
    | some name => exact follows_readCallee name callee.span
    | none => exact hcallee m₀
  have hgiven (m₀ : Machine) : S.Follows m₀ (givenFields attributes') (givenFields attributes) := by
    cases hattributes m₀ with
    | none => exact .pure (a := none) clean_none
    | some hfields =>
        exact hfields.bind fun fields m₁ _ hf => (follows_newObject hf).bind fun _ m₂ hm₂ _ =>
          .pure (a := some fields) (hf.later hm₂).some
  let site : CallSite := ⟨span, Compile.calleeText callee, naming, env.source⟩
  have hcalled (c : Value) (args : List Value) (attributes : Option Fields) (m₀ : Machine)
      (hc : S.Clean m₀ c) (ha : S.Clean m₀ args) (hs : S.Clean m₀ attributes) : S.Follows m₀
        (callValue env'.call (recode S.code c) (recode S.code args) (recode S.code attributes)
          (recode S.code site)) (callValue env.call c args attributes site) :=
    follows_callValue hc ha hs fun c hfine => h.call m₀ c args site hfine ha
  rw [evalCall_eq, evalCall_eq, calleeText_recast, h.source]
  exact hresolved.bind fun c m₁ _ hc => (hargs m₁).bind fun args m₂ hm₂ ha =>
    (hgiven m₂).bind fun attributes m₃ hm₃ hs =>
      hcalled c args attributes m₃ (hc.later (hm₂.trans hm₃)) (ha.later hm₃) hs

end

-- ===================================================================== nodes

section

variable {S : Simulation} {braced : Bool} {env' env : Env}

/-- A body, with braces around it or without. -/
theorem follows_body (h : env'.Follows S braced env) {node : Node} (m₀ : Machine)
    (hnode : ∀ m₀, S.Follows m₀ ((node.recast S.code.span braced).eval env' none)
      (node.eval env none)) :
    S.Follows m₀ ((node.recastBody S.code.span braced).eval env' none) (node.eval env none) := by
  unfold Node.recastBody
  split
  · rename_i hbraced
    rw [Node.eval, evalStatements, h.free (Bool.and_eq_true_iff.1 hbraced).1]
    exact hnode m₀
  · exact hnode m₀

/-- The last property of a name wins on both sides. -/
theorem follows_properties {properties : List Property} {m₀ : Machine}
    (h : S.Follows m₀ (evalPairs env' (recastProperties S.code.span braced properties))
      (evalPairs env properties)) :
    S.Follows m₀ (evalProperties env' (recastProperties S.code.span braced properties))
      (evalProperties env properties) := by
  rw [evalProperties, evalProperties]
  refine h.bind fun pairs m₁ _ hp => ?_
  rw [Fields.ofPairs_recode]
  exact .pure (a := Fields.ofPairs pairs) hp.ofPairs

mutual

theorem Node.follows (h : env'.Follows S braced env) :
    (node : Node) → (naming : Option String) → (m₀ : Machine) →
    S.Follows m₀ ((node.recast S.code.span braced).eval env' naming) (node.eval env naming)
  | .block statements span, naming, m₀ => by
      rw [Node.recast, Node.eval, Node.eval]
      exact (h.ask m₀ span).bind fun _ m₁ _ _ => follows_statements h statements m₁
  | .assign name value span, naming, m₀ => by
      rw [Node.recast, Node.eval, Node.eval]
      exact (h.ask m₀ span).bind fun _ m₁ _ _ => (Node.follows h value _ m₁).bind fun v m₂ _ hv =>
        (follows_assignLocal name.text hv name.span).bind fun _ m₃ hm₃ _ => .pure (hv.later hm₃)
  | .assignProperty owner name value span, naming, m₀ => by
      rw [Node.recast, Node.eval, Node.eval]
      exact (h.ask m₀ span).bind fun _ m₁ _ _ => (Node.follows h owner _ m₁).bind fun o m₂ _ ho =>
        (Node.follows h value _ m₂).bind fun v m₃ hm₃ hv =>
          (follows_setProperty (ho.later hm₃) name.text hv name.span).bind fun _ m₄ hm₄ _ =>
            .pure (hv.later hm₄)
  | .assignIndex base index value span, naming, m₀ => by
      rw [Node.recast, Node.eval, Node.eval, span_recast]
      exact (h.ask m₀ span).bind fun _ m₁ _ _ => (Node.follows h base _ m₁).bind fun b m₂ _ hb =>
        (Node.follows h index _ m₂).bind fun i m₃ hm₃ hi =>
          (Node.follows h value _ m₃).bind fun v m₄ hm₄ hv =>
            (follows_setIndex (hb.later (hm₃.trans hm₄)) (hi.later hm₄) hv value.span).bind
              fun _ m₅ hm₅ _ => .pure (hv.later hm₅)
  | .ifThen condition yes span, naming, m₀ => by
      rw [Node.recast, Node.eval, Node.eval]
      refine (h.ask m₀ span).bind fun _ m₁ _ _ =>
        (Node.follows h condition _ m₁).bind fun v m₂ _ _ => ?_
      rw [Value.truthy_recode]
      split
      · exact follows_body h m₂ (Node.follows h yes none)
      · exact .pure (a := Value.undefined) clean_undefined
  | .ifElse condition yes no span, naming, m₀ => by
      rw [Node.recast, Node.eval, Node.eval]
      refine (h.ask m₀ span).bind fun _ m₁ _ _ =>
        (Node.follows h condition _ m₁).bind fun v m₂ _ _ => ?_
      rw [Value.truthy_recode]
      split
      · exact follows_body h m₂ (Node.follows h yes none)
      · exact follows_body h m₂ (Node.follows h no none)
  | .conditional condition yes no span, naming, m₀ => by
      rw [Node.recast, Node.eval, Node.eval]
      refine (h.ask m₀ span).bind fun _ m₁ _ _ =>
        (Node.follows h condition _ m₁).bind fun v m₂ _ _ => ?_
      rw [Value.truthy_recode]
      split
      · exact Node.follows h yes none m₂
      · exact Node.follows h no none m₂
  | .whileLoop condition body span, naming, m₀ => by
      rw [Node.recast, Node.eval, Node.eval, h.fuel]
      exact (h.ask m₀ span).bind fun _ m₁ _ _ =>
        (follows_loopWhile (Node.follows h condition none)
          (fun m => (follows_body h m (Node.follows h body none)).ignored) _ m₁).bind
          fun _ _ _ _ => .pure (a := Value.undefined) clean_undefined
  | .doLoop body condition span, naming, m₀ => by
      have hbody := fun m => follows_body h m (Node.follows h body none)
      rw [Node.recast, Node.eval, Node.eval, h.fuel]
      exact (h.ask m₀ span).bind fun _ m₁ _ _ => (hbody m₁).bind fun _ m₂ _ _ =>
        (follows_loopWhile (Node.follows h condition none) (fun m => (hbody m).ignored) _ m₂).bind
          fun _ _ _ _ => .pure (a := Value.undefined) clean_undefined
  | .forLoop init condition step body span, naming, m₀ => by
      rw [Node.recast, Node.eval, Node.eval, h.fuel]
      exact (h.ask m₀ span).bind fun _ m₁ _ _ => (Node.follows h init none m₁).bind fun _ m₂ _ _ =>
        (follows_loopWhile (Node.follows h condition none)
          (fun m => (follows_body h m (Node.follows h body none)).bind fun _ m' _ _ =>
            (Node.follows h step none m').ignored) _ m₂).bind
          fun _ _ _ _ => .pure (a := Value.undefined) clean_undefined
  | .useBoard name span, naming, m₀ => by
      rw [Node.recast, Node.eval, Node.eval]
      exact (h.ask m₀ span).bind fun _ m₁ _ _ => (follows_useSession name.text span).bind
        fun _ _ _ _ => .pure (a := Value.undefined) clean_undefined
  | .delete operand span, naming, m₀ => by
      rw [Node.recast, Node.eval, Node.eval]
      exact (h.ask m₀ span).bind fun _ m₁ _ _ => (Node.follows h operand _ m₁).bind
        fun v m₂ _ hv => follows_deleteValue hv span
  | .returnNothing span, naming, m₀ => by
      rw [Node.recast, Node.eval, Node.eval]
      exact (h.ask m₀ span).bind fun _ m₁ _ _ =>
        follows_giveBack (fun _ => .pure (a := Value.undefined) clean_undefined) span m₁
  | .returnValue value span, naming, m₀ => by
      rw [Node.recast, Node.eval, Node.eval]
      exact (h.ask m₀ span).bind fun _ m₁ _ _ => follows_giveBack (Node.follows h value none) span m₁
  | .expression value span, naming, m₀ => by
      rw [Node.recast, Node.eval, Node.eval]
      exact (h.ask m₀ span).bind fun _ m₁ _ _ => Node.follows h value none m₁
  | .function params body literal span, naming, m₀ => by
      rw [Node.recast, Node.eval, Node.eval]
      exact (h.ask m₀ span).bind fun _ m₁ _ _ => h.make m₁ ⟨false, params, body, literal⟩
  | .map params body literal span, naming, m₀ => by
      rw [Node.recast, Node.eval, Node.eval]
      exact (h.ask m₀ span).bind fun _ m₁ _ _ => h.make m₁ ⟨true, params, body, literal⟩
  | .call callee args span, naming, m₀ => by
      have hcall := follows_evalCall h callee naming span (Node.follows h callee none)
        (follows_all h args) (fun _ => .none)
      rw [Node.recast, Node.eval, Node.eval]
      split
      · exact (h.ask m₀ span).bind fun _ m₁ _ _ => hcall m₁
      · exact hcall m₀
  | .callWith callee args attributes span, naming, m₀ => by
      have hcall := follows_evalCall h callee naming span (Node.follows h callee none)
        (follows_all h args) fun m₀ => .some (follows_properties (follows_pairs h attributes m₀))
      rw [Node.recast, Node.eval, Node.eval]
      split
      · exact (h.ask m₀ span).bind fun _ m₁ _ _ => hcall m₁
      · exact hcall m₀
  | .array items span, naming, m₀ => by
      rw [Node.recast, Node.eval, Node.eval]
      exact (h.ask m₀ span).bind fun _ m₁ _ _ => (follows_all h items m₁).bind
        fun _ _ _ hi => follows_newArray hi
  | .object properties span, naming, m₀ => by
      rw [Node.recast, Node.eval, Node.eval]
      exact (h.ask m₀ span).bind fun _ m₁ _ _ => (follows_properties (follows_pairs h properties m₁)).bind
        fun _ _ _ hf => follows_newObject hf
  | .index base index span, naming, m₀ => by
      rw [Node.recast, Node.eval, Node.eval]
      exact (h.ask m₀ span).bind fun _ m₁ _ _ => (Node.follows h base _ m₁).bind fun b m₂ _ hb =>
        (Node.follows h index _ m₂).bind fun i m₃ hm₃ hi => follows_getIndex (hb.later hm₃) hi
  | .binary operator left right span, naming, m₀ => by
      have hleft := Node.follows h left none
      have hright := Node.follows h right none
      rw [Node.recast]
      by_cases hand : operator = .and
      · subst hand
        rw [eval_and, eval_and]
        refine (h.ask m₀ span).bind fun _ m₁ _ _ => (hleft m₁).bind fun v m₂ _ hv => ?_
        rw [Value.truthy_recode]
        split
        · exact hright m₂
        · exact .pure hv
      · by_cases hor : operator = .or
        · subst hor
          rw [eval_or, eval_or]
          refine (h.ask m₀ span).bind fun _ m₁ _ _ => (hleft m₁).bind fun v m₂ _ hv => ?_
          rw [Value.truthy_recode]
          split
          · exact .pure hv
          · exact hright m₂
        · rw [eval_binary hand hor, eval_binary hand hor]
          exact (h.ask m₀ span).bind fun _ m₁ _ _ => (hleft m₁).bind fun l m₂ _ hl =>
            (hright m₂).bind fun r m₃ hm₃ hr =>
              follows_binaryOperation operator (hl.later hm₃) hr span
  | .unary operator operand span, naming, m₀ => by
      rw [Node.recast, Node.eval, Node.eval]
      exact (h.ask m₀ span).bind fun _ m₁ _ _ => (Node.follows h operand _ m₁).bind
        fun v m₂ _ hv => follows_unaryOperation operator hv span
  | .identifier name span, naming, m₀ => by
      rw [Node.recast, Node.eval, Node.eval]
      exact (h.ask m₀ span).bind fun _ m₁ _ _ => follows_readName name
  | .numeral text kind span, naming, m₀ => by
      rw [Node.recast, Node.eval, Node.eval]
      exact (h.ask m₀ span).bind fun _ m₁ _ _ => .pure (a := Value.number _) (clean_number _)
  | .string value span, naming, m₀ => by
      rw [Node.recast, Node.eval, Node.eval]
      exact (h.ask m₀ span).bind fun _ m₁ _ _ => .pure (a := Value.string _) (clean_string _)
  | .boolean value span, naming, m₀ => by
      rw [Node.recast, Node.eval, Node.eval]
      exact (h.ask m₀ span).bind fun _ m₁ _ _ => .pure (a := Value.boolean _) (clean_boolean _)
  | .coordinate axis operand span, naming, m₀ => by
      rw [Node.recast, Node.eval, Node.eval]
      exact (h.ask m₀ span).bind fun _ m₁ _ _ => (Node.follows h operand _ m₁).bind
        fun v m₂ _ hv => follows_coordinateOf axis hv span
  | .property owner name span, naming, m₀ => by
      rw [Node.recast, Node.eval, Node.eval]
      exact (h.ask m₀ span).bind fun _ m₁ _ _ => (Node.follows h owner _ m₁).bind
        fun o m₂ _ ho => follows_getProperty ho name.text name.span

theorem follows_statements (h : env'.Follows S braced env) :
    (nodes : List Node) → (m₀ : Machine) →
    S.Follows m₀ (evalStatements env' (recastAll S.code.span braced nodes))
      (evalStatements env nodes)
  | [], m₀ => by
      rw [recastAll, evalStatements, evalStatements]
      exact .pure (a := Value.undefined) clean_undefined
  | [node], m₀ => by
      rw [recastAll, recastAll, evalStatements, evalStatements]
      exact Node.follows h node none m₀
  | node :: next :: rest, m₀ => by
      have hrest := follows_statements h (next :: rest)
      rw [recastAll] at hrest
      rw [recastAll, recastAll, evalStatements_cons, evalStatements_cons]
      exact (Node.follows h node none m₀).bind fun _ m₁ _ _ => hrest m₁

theorem follows_all (h : env'.Follows S braced env) : (nodes : List Node) → (m₀ : Machine) →
    S.Follows m₀ (evalAll env' (recastAll S.code.span braced nodes)) (evalAll env nodes)
  | [], m₀ => by
      rw [recastAll, evalAll, evalAll]
      exact .pure (a := []) clean_nil
  | node :: rest, m₀ => by
      rw [recastAll, evalAll, evalAll]
      exact (Node.follows h node none m₀).bind fun v m₁ _ hv =>
        (follows_all h rest m₁).bind fun vs m₂ hm₂ hvs =>
          .pure (a := v :: vs) ((hv.later hm₂).cons hvs)

theorem follows_pairs (h : env'.Follows S braced env) :
    (properties : List Property) → (m₀ : Machine) →
    S.Follows m₀ (evalPairs env' (recastProperties S.code.span braced properties))
      (evalPairs env properties)
  | [], m₀ => by
      rw [recastProperties, evalPairs, evalPairs]
      exact .pure (a := []) clean_nil
  | .mk name value :: rest, m₀ => by
      rw [recastProperties, evalPairs, evalPairs]
      exact (Node.follows h value none m₀).bind fun v m₁ _ hv =>
        (follows_pairs h rest m₁).bind fun vs m₂ hm₂ hvs =>
          .pure (a := (name.text, v) :: vs) ((hv.later hm₂).field.cons hvs)

end

end

end BoardScript
