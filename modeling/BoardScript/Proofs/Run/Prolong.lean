/-
Plans that are allowed more. A plan with more turns for its loops is the same
plan, except that loops are cut off later (`Plan.Below`,
`Node.plan_below`). Running a plan to its end and running it for so many
instructions come to the same in the limit: whatever is not cut off
took so many turns and so many instructions, and is the same with more of
both (`abreast_ending`).

A return on its way to its function is an end that only trees have. Code
ends with its value instead, and nothing that it calls returns any further
(`Returnless`).
-/
import BoardScript.Proofs.Run.Compiled
import BoardScript.Proofs.Run.Limit

namespace BoardScript

open Filter Plan

-- ============================================================== longer plans

/-- The same plan, but for loops that are cut off later. -/
inductive Plan.Below {α : Type} : Plan α → Plan α → Prop
  | give (a : α) : Below (.give a) (.give a)
  | act {β : Type} (span : Span) (x : Eval β) (steady : Steady x) {next next' : β → Plan α}
      (h : ∀ b, Below (next b) (next' b)) :
      Below (.act span x steady next) (.act span x steady next')
  | call (node : Node) (function : Value) (args : List Value) (attributes : Option ObjectId)
      (site : CallSite) {next next' : Value → Plan α} (h : ∀ v, Below (next v) (next' v)) :
      Below (.call node function args attributes site next)
        (.call node function args attributes site next')
  | done (span : Span) (x : Eval Value) (steady : Steady x) :
      Below (.done span x steady) (.done span x steady)
  | cut (p : Plan α) : Below .cut p

namespace Plan.Below

variable {α β : Type}

theorem refl (p : Plan α) : p.Below p := by
  induction p with
  | give a => exact .give a
  | act span x steady next ih => exact .act span x steady ih
  | call node function args attributes site next ih =>
      exact .call node function args attributes site ih
  | done span x steady => exact .done span x steady
  | cut => exact .cut _

theorem bind {p p' : Plan α} {q q' : α → Plan β} (hp : p.Below p')
    (hq : ∀ a, (q a).Below (q' a)) : (p >>= q).Below (p' >>= q') := by
  induction hp with
  | give a => exact hq a
  | act span x steady _ ih => exact .act span x steady ih
  | call node function args attributes site _ ih => exact .call node function args attributes site ih
  | done span x steady => exact .done span x steady
  | cut p => exact .cut _

theorem choice {yes yes' no no' : Plan Value} (hyes : yes.Below yes') (hno : no.Below no')
    (v : Value) (span : Span) : (choice v yes no span).Below (choice v yes' no' span) := by
  unfold Plan.choice
  refine (refl _).bind fun _ => (refl _).bind fun _ => ?_
  split
  · exact hyes.bind fun _ => refl _
  · exact hno

theorem looping {condition condition' : Plan Value} {turn turn' : Plan Unit}
    (hcondition : condition.Below condition') (hturn : turn.Below turn') (span : Span)
    {turns more : Nat} (h : turns ≤ more) :
    (looping condition turn span turns).Below (looping condition' turn' span more) := by
  induction turns generalizing more with
  | zero => exact .cut _
  | succ turns ih =>
      obtain ⟨left, rfl⟩ : ∃ left, more = left + 1 := ⟨more - 1, by omega⟩
      rw [Plan.looping, Plan.looping]
      refine hcondition.bind fun v => (refl _).bind fun _ => (refl _).bind fun _ => ?_
      split
      · exact hturn.bind fun _ => ih (Nat.le_of_succ_le_succ h)
      · exact refl _

theorem resolved (callee : Node) {value value' : Plan Value} (h : value.Below value') :
    (resolved callee value).Below (resolved callee value') := by
  unfold Plan.resolved
  cases callee.name? with
  | some name => exact refl _
  | none => exact h

theorem calling (source : Source) (node callee : Node) {calleeValue calleeValue' : Plan Value}
    {args args' : Plan (List Value)}
    {attributes attributes' : Option (Plan (List (String × Value)))} (naming : Option String)
    (span : Span) (hcallee : calleeValue.Below calleeValue') (hargs : args.Below args')
    (hattributes : Option.Rel Below attributes attributes') :
    (calling source node callee calleeValue args attributes naming span).Below
      (calling source node callee calleeValue' args' attributes' naming span) := by
  unfold Plan.calling
  refine (hcallee.resolved callee).bind fun function => hargs.bind fun args => ?_
  cases hattributes with
  | none => exact refl _
  | some hpairs => exact hpairs.bind fun pairs => refl _

end Plan.Below

section

variable {turns more : Nat}

mutual

theorem Node.plan_below (h : turns ≤ more) (place : Compile.Place) : (node : Node) →
    (naming : Option String) → (node.plan place turns naming).Below (node.plan place more naming)
  | .block statements span, naming => by
      rw [Node.plan, Node.plan]
      split
      · exact .refl _
      · exact planStatements_below h place statements
  | .assign name value span, naming => by
      rw [Node.plan, Node.plan]
      exact (Node.plan_below h place value _).bind fun v => .refl _
  | .assignProperty owner name value span, naming => by
      rw [Node.plan, Node.plan]
      exact (Node.plan_below h place owner _).bind fun o =>
        (Node.plan_below h place value _).bind fun v => .refl _
  | .assignIndex base index value span, naming => by
      rw [Node.plan, Node.plan]
      exact (Node.plan_below h place base _).bind fun b =>
        (Node.plan_below h place index _).bind fun i =>
          (Node.plan_below h place value _).bind fun v => .refl _
  | .ifThen condition yes span, naming => by
      rw [Node.plan, Node.plan]
      exact (Node.plan_below h place condition _).bind fun v =>
        .choice (Node.plan_below h place yes none) (.refl _) v span
  | .ifElse condition yes no span, naming => by
      rw [Node.plan, Node.plan]
      exact (Node.plan_below h place condition _).bind fun v =>
        .choice (Node.plan_below h place yes none) (Node.plan_below h place no none) v span
  | .conditional condition yes no span, naming => by
      rw [Node.plan, Node.plan]
      exact (Node.plan_below h place condition _).bind fun v =>
        .choice (Node.plan_below h place yes none) (Node.plan_below h place no none) v span
  | .whileLoop condition body span, naming => by
      rw [Node.plan, Node.plan]
      exact .looping (Node.plan_below h place condition none)
        ((Node.plan_below h place body none).bind fun _ => .refl _) span h
  | .doLoop body condition span, naming => by
      have hbody := Node.plan_below h place body none
      rw [Node.plan, Node.plan]
      exact hbody.bind fun _ => (Below.refl _).bind fun _ =>
        .looping (Node.plan_below h place condition none)
          ((Below.refl _).bind fun _ => hbody.bind fun _ => .refl _) span h
  | .forLoop init condition step body span, naming => by
      rw [Node.plan, Node.plan]
      exact (Node.plan_below h place init none).bind fun _ => (Below.refl _).bind fun _ =>
        .looping (Node.plan_below h place condition none)
          ((Node.plan_below h place body none).bind fun _ => (Below.refl _).bind fun _ =>
            (Node.plan_below h place step none).bind fun _ => .refl _) span h
  | .useBoard name span, naming => by
      rw [Node.plan, Node.plan]
      exact .refl _
  | .delete operand span, naming => by
      rw [Node.plan, Node.plan]
      exact (Node.plan_below h place operand _).bind fun v => .refl _
  | .returnNothing span, naming => by
      rw [Node.plan, Node.plan]
      exact .refl _
  | .returnValue value span, naming => by
      rw [Node.plan, Node.plan]
      split
      · exact (Node.plan_below h place value none).bind fun v => .refl _
      · exact .refl _
  | .expression value span, naming => by
      rw [Node.plan, Node.plan]
      exact Node.plan_below h place value none
  | .function params body literal span, naming => by
      rw [Node.plan, Node.plan]
      exact .refl _
  | .map params body literal span, naming => by
      rw [Node.plan, Node.plan]
      exact .refl _
  | .call callee args span, naming => by
      rw [Node.plan, Node.plan]
      exact .calling place.source _ callee naming span (Node.plan_below h place callee none)
        (planAll_below h place args) .none
  | .callWith callee args attributes span, naming => by
      rw [Node.plan, Node.plan]
      exact .calling place.source _ callee naming span (Node.plan_below h place callee none)
        (planAll_below h place args) (.some (planPairs_below h place attributes))
  | .array items span, naming => by
      rw [Node.plan, Node.plan]
      exact (planAll_below h place items).bind fun values => .refl _
  | .object properties span, naming => by
      rw [Node.plan, Node.plan]
      exact (planPairs_below h place properties).bind fun pairs => .refl _
  | .index base index span, naming => by
      rw [Node.plan, Node.plan]
      exact (Node.plan_below h place base _).bind fun b =>
        (Node.plan_below h place index _).bind fun i => .refl _
  | .binary operator left right span, naming => by
      have hleft := Node.plan_below h place left none
      have hright := Node.plan_below h place right none
      by_cases hand : operator = .and
      · subst hand
        rw [Node.plan, Node.plan]
        refine hleft.bind fun v => (Below.refl _).bind fun _ => ?_
        split
        · exact (Below.refl _).bind fun _ => hright
        · exact .refl _
      · by_cases hor : operator = .or
        · subst hor
          rw [Node.plan, Node.plan]
          refine hleft.bind fun v => (Below.refl _).bind fun _ => (Below.refl _).bind fun _ => ?_
          split
          · exact .refl _
          · exact hright
        · rw [plan_binary hand hor, plan_binary hand hor]
          exact hleft.bind fun l => hright.bind fun r => .refl _
  | .unary operator operand span, naming => by
      rw [Node.plan, Node.plan]
      exact (Node.plan_below h place operand _).bind fun v => .refl _
  | .identifier name span, naming => by
      rw [Node.plan, Node.plan]
      exact .refl _
  | .numeral text kind span, naming => by
      rw [Node.plan, Node.plan]
      exact .refl _
  | .string value span, naming => by
      rw [Node.plan, Node.plan]
      exact .refl _
  | .boolean value span, naming => by
      rw [Node.plan, Node.plan]
      exact .refl _
  | .coordinate axis operand span, naming => by
      rw [Node.plan, Node.plan]
      exact (Node.plan_below h place operand _).bind fun v => .refl _
  | .property owner name span, naming => by
      rw [Node.plan, Node.plan]
      exact (Node.plan_below h place owner _).bind fun o => .refl _

theorem planStatements_below (h : turns ≤ more) (place : Compile.Place) : (nodes : List Node) →
    (planStatements place turns nodes).Below (planStatements place more nodes)
  | [] => by
      rw [planStatements, planStatements]
      exact .refl _
  | [node] => by
      rw [planStatements, planStatements]
      exact Node.plan_below h place node none
  | node :: next :: rest => by
      have hrest := planStatements_below h place (next :: rest)
      rw [planStatements, planStatements]
      exact (Node.plan_below h place node none).bind fun _ => (Below.refl _).bind fun _ => hrest

theorem planAll_below (h : turns ≤ more) (place : Compile.Place) : (nodes : List Node) →
    (planAll place turns nodes).Below (planAll place more nodes)
  | [] => by
      rw [planAll, planAll]
      exact .refl _
  | node :: rest => by
      rw [planAll, planAll]
      exact (Node.plan_below h place node none).bind fun v =>
        (planAll_below h place rest).bind fun vs => .refl _

theorem planPairs_below (h : turns ≤ more) (place : Compile.Place) :
    (properties : List Property) →
    (planPairs place turns properties).Below (planPairs place more properties)
  | [] => by
      rw [planPairs, planPairs]
      exact .refl _
  | .mk name value :: rest => by
      rw [planPairs, planPairs]
      exact (Below.refl _).bind fun _ => (Node.plan_below h place value none).bind fun v =>
        (planPairs_below h place rest).bind fun ps => .refl _

end

theorem FunctionLiteral.plan_below (h : turns ≤ more) (source : Source)
    (literal : FunctionLiteral) : (literal.plan source turns).Below (literal.plan source more) := by
  rw [FunctionLiteral.plan, FunctionLiteral.plan]
  exact (Node.plan_below h ⟨source, true⟩ literal.body none).bind fun v => .refl _

theorem scriptPlan_below (h : turns ≤ more) (source : Source) (root : Node) :
    (scriptPlan source turns root).Below (scriptPlan source more root) :=
  (Node.plan_below h ⟨source, false⟩ root none).bind fun _ => .refl _

end

-- ================================================================== returns

/-- An action that does not end with a return on its way. -/
def Returnless {α : Type} (x : Eval α) : Prop := ∀ m v n, x m ≠ .error (.returned v) n

namespace Returnless

variable {α β : Type}

theorem pure (a : α) : Returnless (Pure.pure a : Eval α) := fun _ _ _ h => nomatch h

theorem bind {x : Eval α} {k : α → Eval β} (hx : Returnless x) (hk : ∀ a, Returnless (k a)) :
    Returnless (x >>= k) := by
  intro m v n h
  change EStateM.bind x k m = _ at h
  unfold EStateM.bind at h
  cases hr : x m with
  | ok a m' =>
      rw [hr] at h
      exact hk a m' v n h
  | error e m' =>
      rw [hr] at h
      cases h
      exact hx m v _ hr

theorem of_steady {x : Eval α} (hx : Steady x) : Returnless x := by
  intro m v n h
  have hends := (hx m).2
  rw [h] at hends
  exact hends

/-- An action that begins by looking at the machine. -/
theorem reading {k : Machine → Eval β} (hk : ∀ m, Returnless (k m)) :
    Returnless (MonadState.get >>= k) :=
  fun m => hk m m

theorem fault (f : Fault) (span : Span) : Returnless (BoardScript.fault f span : Eval α) :=
  fun _ _ _ h => nomatch h

theorem codeFault (cause : CodeError) : Returnless (BoardScript.codeFault cause : Eval α) :=
  fun _ _ _ h => nomatch h

theorem exhausted : Returnless (throw .exhausted : Eval α) := fun _ _ _ h => nomatch h

theorem readCode (r : Except CodeError α) : Returnless (BoardScript.readCode r) := by
  cases r with
  | ok a => exact .pure a
  | error cause => exact .codeFault cause

/-- What a body is worth is not returned any further. -/
theorem bodyValue (isMap : Bool) (x : Eval Value) : Returnless (BoardScript.bodyValue isMap x) := by
  intro m v n h
  unfold BoardScript.bodyValue at h
  split at h
  · cases h
  · cases h
  · rename_i hother _
    cases h
    exact hother v rfl

theorem limit {X : Nat → Eval α} (h : ∀ k, Returnless (X k)) : Returnless (limit X) := by
  intro m v n hreturned
  rcases limit_cases X m with ⟨k, -, hlimit⟩ | ⟨-, hlimit⟩
  · exact h k m v n (hlimit ▸ hreturned)
  · rw [hlimit] at hreturned
    cases hreturned

theorem callValue {call : Caller} (hcall : ∀ c args site, Returnless (call c args site))
    (callee : Value) (args : List Value) (attributes : Option Fields) (site : CallSite) :
    Returnless (callValue call callee args attributes site) := by
  by_cases hclosure : ∃ c, callee = .closure c ∧ attributes = none
  · obtain ⟨c, rfl, rfl⟩ := hclosure
    exact hcall c args site
  · exact .of_steady (steady_callValue fun c hc ha => hclosure ⟨c, hc, ha⟩)

end Returnless

namespace Frame

section

variable {env : Env} {chunk : Chunk}

theorem returnless_pop (stack : List Value) : Returnless (pop stack) := by
  cases stack with
  | nil => exact .codeFault _
  | cons v rest => exact .pure _

theorem returnless_peek (stack : List Value) : Returnless (peek stack) :=
  (returnless_pop stack).bind fun _ => .pure _

theorem returnless_popMany (count : Nat) (stack : List Value) :
    Returnless (popMany count stack) := by
  unfold popMany
  split
  · exact .pure _
  · exact .codeFault _

theorem returnless_pairs (ip : Nat) : (values : List Value) → Returnless (pairs ip values)
  | [] => .pure _
  | [v] => by cases v <;> exact .pure _
  | v :: w :: rest => by
      cases v with
      | string name => exact (returnless_pairs ip rest).bind fun _ => .pure _
      | _ => exact .codeFault _

theorem returnless_popAttributes (attributed : Bool) (ip : Nat) (stack : List Value) :
    Returnless (popAttributes attributed ip stack) := by
  unfold popAttributes
  split
  · refine (returnless_pop stack).bind fun p => ?_
    split
    · exact .reading fun _ => .pure _
    · exact .codeFault _
  · exact .pure _

theorem returnless_readNaming (named : Bool) (ip : Nat) :
    Returnless (readNaming chunk named ip) := by
  unfold readNaming
  split
  · exact (Returnless.readCode _).bind fun _ => .pure _
  · exact .pure _

theorem returnless_performCall (hcall : ∀ c args site, Returnless (env.call c args site))
    (span : Span) (named attributed : Bool) (ip : Nat) (stack : List Value) :
    Returnless (performCall env chunk span named attributed ip stack) := by
  unfold performCall
  exact (Returnless.readCode _).bind fun _ => (Returnless.readCode _).bind fun _ =>
    (returnless_readNaming named _).bind fun _ => (returnless_popAttributes attributed _ _).bind
    fun _ => (returnless_popMany _ _).bind fun _ => (returnless_pop _).bind fun _ =>
    (Returnless.callValue hcall _ _ _ _).bind fun _ => .pure _

/-- An instruction leaves its value on the stack. -/
theorem returnless_push {x : Eval Value} (hx : Steady x) (ip : Nat) (stack : List Value) :
    Returnless (x >>= fun v => Pure.pure (Progress.next ⟨ip, v :: stack⟩)) :=
  (Returnless.of_steady hx).bind fun _ => .pure _

theorem returnless_perform (hcall : ∀ c args site, Returnless (env.call c args site)) (span : Span)
    (ip : Nat) (stack : List Value) (op : OpCode) :
    Returnless (perform env chunk span ip stack op) := by
  have reads {α : Type} (r : Except CodeError α) : Returnless (readCode r) := .readCode r
  have pops := returnless_pop
  cases op with
  | constant =>
      refine (reads _).bind fun p => ?_
      split
      · exact .pure _
      · exact .pure _
      · exact .codeFault _
  | undefined => exact .pure _
  | true => exact .pure _
  | false => exact .pure _
  | pop => exact (pops _).bind fun _ => .pure _
  | getName => exact (reads _).bind fun _ => returnless_push (steady_readName _) _ _
  | getCallee => exact (reads _).bind fun _ => returnless_push (steady_readCallee _ _) _ _
  | setLocal =>
      exact (reads _).bind fun _ => (returnless_peek _).bind fun _ =>
        (Returnless.of_steady (steady_assignLocal _ _ _)).bind fun _ => .pure _
  | getProperty =>
      exact (reads _).bind fun _ => (pops _).bind fun _ =>
        returnless_push (steady_getProperty _ _ _) _ _
  | setProperty =>
      exact (reads _).bind fun _ => (pops _).bind fun _ => (pops _).bind fun _ =>
        (Returnless.of_steady (steady_setProperty _ _ _ _)).bind fun _ => .pure _
  | getIndex =>
      exact (pops _).bind fun _ => (pops _).bind fun _ => returnless_push (steady_getIndex _ _) _ _
  | setIndex =>
      exact (pops _).bind fun _ => (pops _).bind fun _ => (pops _).bind fun _ =>
        (Returnless.of_steady (steady_setIndex _ _ _ _)).bind fun _ => .pure _
  | coordinate =>
      exact (reads _).bind fun _ => (pops _).bind fun _ =>
        returnless_push (steady_coordinateOf _ _ _) _ _
  | binary =>
      exact (reads _).bind fun _ => (pops _).bind fun _ => (pops _).bind fun _ =>
        returnless_push (steady_binaryOperation _ _ _ _) _ _
  | negate => exact (pops _).bind fun _ => returnless_push (steady_unaryOperation _ _ _) _ _
  | not => exact (pops _).bind fun _ => returnless_push (steady_unaryOperation _ _ _) _ _
  | jump => exact (reads _).bind fun _ => .pure _
  | jumpIfFalse =>
      refine (reads _).bind fun _ => (returnless_peek _).bind fun _ => ?_
      split <;> exact .pure _
  | loop =>
      refine (reads _).bind fun p => ?_
      dsimp only
      split
      · exact .pure _
      · exact .codeFault _
  | array =>
      exact (reads _).bind fun _ => (returnless_popMany _ _).bind fun _ =>
        returnless_push (steady_allocate _) _ _
  | object =>
      exact (reads _).bind fun _ => (returnless_popMany _ _).bind fun _ =>
        (returnless_pairs _ _).bind fun _ => returnless_push (steady_allocate _) _ _
  | closure =>
      refine (reads _).bind fun p => ?_
      split
      · exact returnless_push (steady_makeClosure _ _ _) _ _
      · exact .codeFault _
  | call => exact returnless_performCall hcall span false false ip stack
  | callWithAttributes => exact returnless_performCall hcall span false true ip stack
  | callNamed => exact returnless_performCall hcall span true false ip stack
  | giveBack =>
      refine (pops _).bind fun _ => .reading fun _ => ?_
      split
      · exact .fault _ _
      · exact .pure _
  | stop => exact .pure _
  | useBoard =>
      exact (reads _).bind fun _ => (Returnless.of_steady (steady_useSession _ _)).bind
        fun _ => .pure _
  | delete => exact (pops _).bind fun _ => returnless_push (steady_deleteValue _ _) _ _

theorem returnless_exec (hask : ∀ span, Returnless (env.ask span))
    (hcall : ∀ c args site, Returnless (env.call c args site)) (fuel : Nat) (frame : Frame) :
    Returnless (exec env chunk fuel frame) := by
  induction fuel generalizing frame with
  | zero => exact .exhausted
  | succ fuel ih =>
      rw [exec]
      refine Returnless.bind ?_ fun progress => ?_
      · unfold step
        cases chunk.spanAt frame.ip with
        | none => exact .codeFault _
        | some span =>
            exact (hask span).bind fun _ => (Returnless.readCode _).bind fun _ =>
              returnless_perform hcall span _ frame.stack _
      · cases progress with
        | next frame => exact ih frame
        | done value => exact .pure value

end

end Frame

/-- A call returns nothing any further, whatever its code. -/
theorem returnless_callClosure {hooks : Hooks} (hask : ∀ span, Returnless (hooks.ask span))
    (hrefuse : ∀ site, Returnless (hooks.refuse site)) (fuel levels : Nat) (c : Closure)
    (args : List Value) (site : CallSite) :
    Returnless (callClosure hooks fuel levels c args site) := by
  induction levels generalizing c args site with
  | zero => exact .exhausted
  | succ levels ih =>
      have hbody : Returnless
          (c.body ⟨fuel, callClosure hooks fuel levels, hooks.ask, c.source⟩) := by
        unfold Closure.body
        cases c.compiled with
        | some chunk => exact Frame.returnless_exec hask ih fuel .start
        | none => exact .bodyValue _ _
      intro m v n h
      rw [callClosure_succ] at h
      split at h
      · exact hrefuse site m v n h
      split at h
      · cases hr : c.body ⟨fuel, callClosure hooks fuel levels, hooks.ask, c.source⟩
            (m.enter c args) with
        | ok w k =>
            rw [hr] at h
            cases h
        | error e k =>
            rw [hr] at h
            cases h
            exact hbody _ v k hr
      · cases h

-- ============================================================ to the end

/-- A plan that an instruction ends, run to its end. -/
def Plan.ending (p : Plan Value) (env : Env) : Eval Value := bodyValue true (p.run env)

/-- What comes before a return is no part of it. -/
theorem bodyValue_bind {α : Type} {x : Eval α} (hx : Returnless x) (isMap : Bool)
    (k : α → Eval Value) : bodyValue isMap (x >>= k) = x >>= fun a => bodyValue isMap (k a) := by
  funext m
  show bodyValue isMap (EStateM.bind x k) m = EStateM.bind x (fun a => bodyValue isMap (k a)) m
  simp only [bodyValue, EStateM.bind]
  cases hr : x m with
  | ok a n => rfl
  | error e n =>
      cases e with
      | returned v => exact absurd hr (hx m v n)
      | _ => rfl

/-- Bounds that grow without end do so with one fewer of each. -/
theorem one_fewer {fuels : Nat → Nat} (h : Tendsto fuels atTop atTop) :
    (∀ᶠ k in atTop, fuels k = fuels k - 1 + 1) ∧ Tendsto (fun k => fuels k - 1) atTop atTop := by
  refine ⟨?_, (tendsto_sub_atTop_nat 1).comp h⟩
  filter_upwards [h.eventually_ge_atTop 1] with k hk
  omega

namespace Plan.Below

variable {α β : Type}

/-- Plans that are longer begin with the same instruction. -/
theorem exists_act {span : Span} {x : Eval β} {steady : Steady x} {next : β → Plan α}
    {plans : Nat → Plan α} (h : ∀ᶠ k in atTop, (Plan.act span x steady next).Below (plans k)) :
    ∃ nexts : Nat → β → Plan α, (∀ᶠ k in atTop, plans k = .act span x steady (nexts k)) ∧
      ∀ b, ∀ᶠ k in atTop, (next b).Below (nexts k b) := by
  have hnext (k : Nat) : ∃ next' : β → Plan α, (Plan.act span x steady next).Below (plans k) →
      plans k = .act span x steady next' ∧ ∀ b, (next b).Below (next' b) := by
    generalize plans k = p
    by_cases hp : (Plan.act span x steady next).Below p
    · cases hp with
      | act _ _ _ hnext => exact ⟨_, fun _ => ⟨rfl, hnext⟩⟩
    · exact ⟨next, fun h => absurd h hp⟩
  choose nexts hnexts using hnext
  exact ⟨nexts, h.mono fun k hk => (hnexts k hk).1, fun b => h.mono fun k hk => (hnexts k hk).2 b⟩

theorem exists_call {node : Node} {function : Value} {args : List Value} {attributes : Option ObjectId}
    {site : CallSite} {next : Value → Plan α} {plans : Nat → Plan α}
    (h : ∀ᶠ k in atTop, (Plan.call node function args attributes site next).Below (plans k)) :
    ∃ nexts : Nat → Value → Plan α,
      (∀ᶠ k in atTop, plans k = .call node function args attributes site (nexts k)) ∧
      ∀ v, ∀ᶠ k in atTop, (next v).Below (nexts k v) := by
  have hnext (k : Nat) : ∃ next' : Value → Plan α,
      (Plan.call node function args attributes site next).Below (plans k) →
      plans k = .call node function args attributes site next' ∧ ∀ v, (next v).Below (next' v) := by
    generalize plans k = p
    by_cases hp : (Plan.call node function args attributes site next).Below p
    · cases hp with
      | call _ _ _ _ _ hnext => exact ⟨_, fun _ => ⟨rfl, hnext⟩⟩
    · exact ⟨next, fun h => absurd h hp⟩
  choose nexts hnexts using hnext
  exact ⟨nexts, h.mono fun k hk => (hnexts k hk).1, fun v => h.mono fun k hk => (hnexts k hk).2 v⟩

theorem eq_done {span : Span} {x : Eval Value} {steady : Steady x} {p : Plan α}
    (h : (Plan.done span x steady).Below p) : p = .done span x steady := by
  cases h
  rfl

end Plan.Below

section

variable {env : Env} (hask : ∀ span, Returnless (env.ask span))
  (hcall : ∀ c args site, Returnless (env.call c args site))

include hask in
theorem Plan.ending_act {β : Type} (span : Span) (x : Eval β) (steady : Steady x)
    (next : β → Plan Value) : (Plan.act span x steady next).ending env = (do
      env.ask span
      let b ← x
      (next b).ending env) := by
  rw [ending, run, bodyValue_bind (hask span)]
  exact bind_congr fun _ => bodyValue_bind (.of_steady steady) true _

include hask hcall in
theorem Plan.ending_call (node : Node) (function : Value) (args : List Value) (attributes : Option ObjectId)
    (site : CallSite) (next : Value → Plan Value) :
    (Plan.call node function args attributes site next).ending env = (do
      env.ask site.span
      let fields ← attributesAt attributes
      let value ← callValue env.call function args fields site
      (next value).ending env) := by
  rw [ending, run, bodyValue_bind (hask site.span)]
  refine bind_congr fun _ => ?_
  rw [bodyValue_bind (.of_steady (steady_attributesAt attributes))]
  exact bind_congr fun _ => bodyValue_bind (.callValue hcall _ _ _ _) true _

include hask in
theorem Plan.ending_done (span : Span) (x : Eval Value) (steady : Steady x) :
    (Plan.done span x steady).ending env = (do
      env.ask span
      x) := by
  rw [ending, run, bodyValue_bind (hask span)]
  refine bind_congr fun _ => ?_
  rw [bodyValue_bind (.of_steady steady)]
  exact bind_pure x

variable (env)

include hask hcall

/-- What comes to an end within so many instructions comes to the same end
without a bound on them. -/
theorem Plan.runFor_settles {p : Plan Value} (hp : p.Gives fun _ => False)
    (go : Value → Nat → Eval Value) (fuel : Nat) :
    Settles .fuel (fun _ => p.ending env) (p.runFor env go fuel) := by
  have cut {x : Eval Value} : Settles .fuel (fun _ => x) (throw .exhausted) :=
    fun m => .inl ⟨.exhausted, m, rfl, rfl⟩
  induction p generalizing fuel with
  | give v => exact hp.elim
  | cut => cases fuel <;> exact cut
  | act span x steady next ih =>
      cases fuel with
      | zero => exact cut
      | succ fuel =>
          rw [runFor_act_succ, ending_act hask]
          exact (Settles.same _).bind fun _ => (Settles.same _).bind fun b => ih b (hp b) fuel
  | call node function args attributes site next ih =>
      cases fuel with
      | zero => exact cut
      | succ fuel =>
          rw [runFor_call_succ, ending_call hask hcall]
          exact (Settles.same _).bind fun _ => (Settles.same _).bind fun _ =>
            (Settles.same _).bind fun v => ih v (hp v) fuel
  | done span x steady =>
      cases fuel with
      | zero => exact cut
      | succ fuel =>
          rw [ending_done hask]
          exact .same _

/-- What a plan comes to at its end, longer plans come to within enough
instructions. -/
theorem Plan.settles_runFor {p : Plan Value} (hp : p.Gives fun _ => False)
    (go : Value → Nat → Eval Value) (envs : Nat → Env) (hasks : ∀ k, (envs k).ask = env.ask)
    (hcalls : ∀ k, (envs k).call = env.call) {plans : Nat → Plan Value} {fuels : Nat → Nat}
    (hplans : ∀ᶠ k in atTop, p.Below (plans k)) (hfuels : Tendsto fuels atTop atTop) :
    Settles .fuel (fun k => (plans k).runFor (envs k) go (fuels k)) (p.ending env) := by
  induction p generalizing plans fuels with
  | give v => exact hp.elim
  | cut => exact fun m => .inl ⟨.exhausted, m, rfl, rfl⟩
  | act span x steady next ih =>
      obtain ⟨nexts, heq, hnexts⟩ := Below.exists_act hplans
      obtain ⟨hmore, hless⟩ := one_fewer hfuels
      rw [ending_act hask]
      refine Settles.congr (Y := fun k => do
        env.ask span
        let b ← x
        (nexts k b).runFor (envs k) go (fuels k - 1)) ?_ ?_
      · filter_upwards [heq, hmore] with k hk hfuel
        rw [hk, hfuel, runFor_act_succ, hasks, Nat.add_sub_cancel]
      · exact (Settles.same _).bind fun _ => (Settles.same _).bind fun b =>
          ih b (hp b) (hnexts b) hless
  | call node function args attributes site next ih =>
      obtain ⟨nexts, heq, hnexts⟩ := Below.exists_call hplans
      obtain ⟨hmore, hless⟩ := one_fewer hfuels
      rw [ending_call hask hcall]
      refine Settles.congr (Y := fun k => do
        env.ask site.span
        let fields ← attributesAt attributes
        let value ← callValue env.call function args fields site
        (nexts k value).runFor (envs k) go (fuels k - 1)) ?_ ?_
      · filter_upwards [heq, hmore] with k hk hfuel
        rw [hk, hfuel, runFor_call_succ, hasks, hcalls, Nat.add_sub_cancel]
      · exact (Settles.same _).bind fun _ => (Settles.same _).bind fun _ =>
          (Settles.same _).bind fun v => ih v (hp v) (hnexts v) hless
  | done span x steady =>
      obtain ⟨hmore, -⟩ := one_fewer hfuels
      rw [ending_done hask]
      refine Settles.congr ?_ (.same _)
      filter_upwards [hplans, hmore] with k hk hfuel
      rw [hk.eq_done, hfuel, ← hasks]
      rfl

end

/-- Code that does what plans say, which are longer for larger bounds, comes
without bounds to what they come to. -/
theorem abreast_ending {hooks : Hooks} (hask : ∀ span, Returnless (hooks.ask span))
    (hrefuse : ∀ site, Returnless (hooks.refuse site)) {chunk : Chunk} {source : Source}
    {plans : Nat → Plan Value}
    (hrun : ∀ env : Env, env.source = source → chunk.run env = (plans env.fuel).runWithin env)
    (hends : ∀ k, (plans k).Gives fun _ => False)
    (hplans : ∀ {turns more}, turns ≤ more → (plans turns).Below (plans more)) (levels : Nat) :
    Abreast (fun fuel => chunk.run (hooks.unbounded levels source fuel))
      fun fuel => (plans fuel).ending (hooks.unbounded levels source fuel) := by
  have hcall (c : Closure) (args : List Value) (site : CallSite) :
      Returnless (callFreely hooks levels c args site) :=
    .limit fun fuel => returnless_callClosure hask hrefuse fuel levels c args site
  have hlasts : Lasts fun fuel => chunk.run (hooks.unbounded levels source fuel) :=
    Settling.unbounded_lasts fun _ _ h => Chunk.settles_run h chunk
  have hplan (k : Nat) : chunk.run (hooks.unbounded levels source k)
      = (plans k).runFor (hooks.unbounded levels source k) (fun v _ => pure v) k :=
    hrun (hooks.unbounded levels source k) rfl
  constructor
  · -- later members do the same, and their plans do what they do
    refine fun k => settles_fuel_iff.2 fun m hk => ?_
    filter_upwards [settles_fuel_iff.1 (hlasts k) m hk] with j hj
    have hending := settles_fuel_iff.1 (runFor_settles (hooks.unbounded levels source j) hask
      hcall (hends j) (fun v _ => pure v) j) m
    rw [← hplan, hj] at hending
    exact eventually_const.1 (hending hk)
  · intro k
    simp only [hplan]
    exact settles_runFor (hooks.unbounded levels source k) hask hcall (hends k) _
      (hooks.unbounded levels source) (fun _ => rfl) (fun _ => rfl)
      ((eventually_ge_atTop k).mono fun _ => hplans) tendsto_id

end BoardScript
