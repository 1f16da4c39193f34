/-
Evaluation keeps to watched machines of stored values, from the tree and from
code, with what it makes (`Node.agrees`, `Plan.Watched.runFor`). The value of a node is always
stored; only what a name stands for in front of arguments may be an entry of a
table, and it goes no further than the call. Creators are called at the nodes
of calls only.
-/
import BoardScript.Proofs.Run.Walk
import BoardScript.Proofs.Run.Watch

namespace BoardScript

variable {W : Watch}

/-- Environments in which closures are called and questions are asked in
agreement with each other. -/
structure Env.Agrees (W : Watch) (env' env : Env) (calls : CallMakings) : Prop where
  fuel : env'.fuel = env.fuel
  source : env'.source = env.source
  call : ∀ c args site, W.Fine c → (∀ v ∈ args, v.Stored W.Fine) →
    BoardScript.Agrees W (Value.Stored W.Fine) (env'.call c args site) (env.call c args site)
      (calls c args site)
  ask : ∀ span, BoardScript.Agrees W (fun _ => True) (env'.ask span) (env.ask span) .nothing

-- =============================================================== from the tree

section

theorem agrees_loopWhile {condition' condition : Eval Value} {turn' turn : Eval Unit}
    {conditionMakes turnMakes : Makings}
    (hcondition : Agrees W (Value.Stored W.Fine) condition' condition conditionMakes)
    (hturn : Agrees W (fun _ => True) turn' turn turnMakes) (fuel : Nat) :
    Agrees W (fun _ => True) (loopWhile condition' turn' fuel) (loopWhile condition turn fuel)
      (.looped condition conditionMakes turn turnMakes fuel) := by
  induction fuel with
  | zero => exact Keeps.exhausted.agrees
  | succ fuel ih =>
      rw [loopWhile, loopWhile, Makings.looped]
      refine hcondition.bind fun v _ => ?_
      split
      · exact hturn.bind fun _ _ => ih
      · exact .pure trivial

/-- An action whose value is not used. -/
theorem Agrees.ignored {x' x : Eval Value} {made : Makings}
    (h : Agrees W (Value.Stored W.Fine) x' x made) :
    Agrees W (fun _ => True) (do let _ ← x') (do let _ ← x) made :=
  h.followed fun _ _ => .pure trivial

theorem agrees_undefined :
    Agrees W (Value.Stored W.Fine) (pure .undefined : Eval Value) (pure .undefined) .nothing :=
  .pure trivial

theorem agrees_giveBack {value' value : Eval Value} {made : Makings}
    (h : Agrees W (Value.Stored W.Fine) value' value made) (span : Span) :
    Agrees W (Value.Stored W.Fine) (giveBack value' span) (giveBack value span) made.inFunction := by
  have hthrow : ∀ v, v.Stored W.Fine → Agrees W (Value.Stored W.Fine) (throw (.returned v))
      (throw (.returned v) : Eval Value) .nothing := by
    refine fun v hv past n hn hi => ⟨rfl, ⟨hn, fun w hw => ?_⟩, (List.append_nil past).symm ▸ hi⟩
    cases hw
    exact hv
  refine Agrees.reading (fun m => if m.scopes.isGlobal then .nothing else made) fun m _ => ?_
  split
  · exact (Keeps.fault _ _).agrees
  · exact h.followed hthrow

end

section

variable {env' env : Env} {calls : CallMakings}

theorem agrees_noFields : Agrees W (fun attributes : Option Fields => ∀ fields,
    attributes = some fields → ∀ p ∈ fields, p.2.Stored W.Fine) (givenFields none) (givenFields none)
    .nothing :=
  .pure fun _ h => nomatch h

theorem agrees_givenFields {attributes' attributes : Eval Fields} {made : Makings}
    (h : Agrees W (fun fields : Fields => ∀ p ∈ fields, p.2.Stored W.Fine) attributes' attributes made) :
    Agrees W (fun attributes : Option Fields => ∀ fields, attributes = some fields →
      ∀ p ∈ fields, p.2.Stored W.Fine) (givenFields (some attributes')) (givenFields (some attributes))
      made := by
  refine h.followed fun fields hf => (keeps_newObject hf).agrees.followed fun _ _ => .pure ?_
  rintro _ ⟨⟩
  exact hf

theorem agrees_evalCall (h : env'.Agrees W env calls) {node : Node} (callee : Node)
    {calleeValue' calleeValue : Eval Value} {args' args : Eval (List Value)}
    {attributes' attributes : Option (Eval Fields)} {calleeMakes argsMake attributesMake : Makings}
    (naming : Option String) {span : Span}
    (hsite : W.Site node ⟨span, Compile.calleeText callee, naming, env.source⟩)
    (hcallee : Agrees W (Value.Stored W.Fine) calleeValue' calleeValue calleeMakes)
    (hargs : Agrees W (fun vs : List Value => ∀ v ∈ vs, v.Stored W.Fine) args' args argsMake)
    (hattributes : Agrees W (fun attributes : Option Fields => ∀ fields, attributes = some fields →
      ∀ p ∈ fields, p.2.Stored W.Fine) (givenFields attributes') (givenFields attributes)
      attributesMake) :
    Agrees W (Value.Stored W.Fine)
      (evalCall env' callee calleeValue' args' attributes' naming span)
      (evalCall env callee calleeValue args attributes naming span)
      (evalCallMakes env calls node callee calleeValue calleeMakes args argsMake attributes
        attributesMake naming span) := by
  have hresolved : Agrees W (Value.Callee W.Fine) (callee.resolved calleeValue')
      (callee.resolved calleeValue) (if callee.name?.isSome then .nothing else calleeMakes) := by
    unfold Node.resolved
    cases callee.name? with
    | some name => exact (keeps_readCallee name callee.span).agrees
    | none => exact hcallee.mono fun _ hv => hv.callee
  rw [evalCall_eq, evalCall_eq, h.source]
  exact hresolved.bind fun _ hc => hargs.bind fun _ ha => hattributes.bind fun _ hs =>
    agrees_callValue hc ha hs (fun _ _ => hsite) fun c hfine => h.call c _ _ hfine ha

/-- A closure without code. -/
theorem keeps_makeClosure_tree {literal : FunctionLiteral} {source : Source}
    (h : W.Code source literal.body) :
    Keeps W.Fine (Value.Stored W.Fine) (makeClosure literal none source) :=
  keeps_makeClosure (W.make h fun _ h => nomatch h)

/-- The last property of a name wins. -/
theorem agrees_properties {properties : List Property} {made : Makings}
    (h : Agrees W (fun pairs : List (String × Value) => ∀ p ∈ pairs, p.2.Stored W.Fine)
      (evalPairs env' properties) (evalPairs env properties) made) :
    Agrees W (fun fields : Fields => ∀ p ∈ fields, p.2.Stored W.Fine)
      (evalProperties env' properties) (evalProperties env properties) made := by
  rw [evalProperties, evalProperties]
  exact h.followed fun pairs hp => .pure (Fields.of_ofPairs (P := Value.Stored W.Fine) hp)

mutual

/-- Nodes are evaluated in agreement, to stored values. -/
theorem Node.agrees (h : env'.Agrees W env calls) : (node : Node) → W.Code env.source node →
    (naming : Option String) →
    Agrees W (Value.Stored W.Fine) (node.eval env' naming) (node.eval env naming)
      (node.makes env calls naming)
  | .block statements span, hc, naming => by
      rw [Node.eval, Node.eval, Node.makes]
      exact (h.ask span).behind fun _ _ => agrees_statements h statements fun _ hs => hc.child hs
  | .assign name value span, hc, naming => by
      rw [Node.eval, Node.eval, Node.makes]
      exact (h.ask span).behind fun _ _ => (Node.agrees h value hc.child _).followed
        fun v hv => (keeps_assignLocal name.text hv name.span).agrees.followed fun _ _ => .pure hv
  | .assignProperty owner name value span, hc, naming => by
      rw [Node.eval, Node.eval, Node.makes]
      exact (h.ask span).behind fun _ _ => (Node.agrees h owner hc.child _).bind fun o _ =>
        (Node.agrees h value hc.child _).followed fun v hv =>
          (keeps_setProperty o name.text hv name.span).agrees.followed fun _ _ => .pure hv
  | .assignIndex base index value span, hc, naming => by
      rw [Node.eval, Node.eval, Node.makes]
      exact (h.ask span).behind fun _ _ => (Node.agrees h base hc.child _).bind fun b _ =>
        (Node.agrees h index hc.child _).bind fun i _ =>
          (Node.agrees h value hc.child _).followed fun v hv =>
            (keeps_setIndex b i hv value.span).agrees.followed fun _ _ => .pure hv
  | .ifThen condition yes span, hc, naming => by
      rw [Node.eval, Node.eval, Node.makes]
      refine (h.ask span).behind fun _ _ => (Node.agrees h condition hc.child _).bind fun v _ => ?_
      split
      · exact Node.agrees h yes hc.child none
      · exact .pure trivial
  | .ifElse condition yes no span, hc, naming | .conditional condition yes no span, hc, naming => by
      rw [Node.eval, Node.eval, Node.makes]
      refine (h.ask span).behind fun _ _ => (Node.agrees h condition hc.child _).bind fun v _ => ?_
      split
      · exact Node.agrees h yes hc.child none
      · exact Node.agrees h no hc.child none
  | .whileLoop condition body span, hc, naming => by
      rw [Node.eval, Node.eval, Node.makes, h.fuel]
      exact (h.ask span).behind fun _ _ => (agrees_loopWhile (Node.agrees h condition hc.child none)
        (Node.agrees h body hc.child none).ignored _).followed fun _ _ => .pure trivial
  | .doLoop body condition span, hc, naming => by
      have hbody := Node.agrees h body hc.child none
      rw [Node.eval, Node.eval, Node.makes, h.fuel]
      exact (h.ask span).behind fun _ _ => hbody.bind fun _ _ =>
        (agrees_loopWhile (Node.agrees h condition hc.child none) hbody.ignored _).followed
          fun _ _ => .pure trivial
  | .forLoop init condition step body span, hc, naming => by
      rw [Node.eval, Node.eval, Node.makes, h.fuel]
      exact (h.ask span).behind fun _ _ => (Node.agrees h init hc.child none).bind fun _ _ =>
        (agrees_loopWhile (Node.agrees h condition hc.child none)
          ((Node.agrees h body hc.child none).bind fun _ _ =>
            (Node.agrees h step hc.child none).ignored) _).followed fun _ _ => .pure trivial
  | .useBoard name span, hc, naming => by
      rw [Node.eval, Node.eval, Node.makes]
      exact (h.ask span).followed fun _ _ => (keeps_useSession name.text span).agrees.followed
        fun _ _ => .pure trivial
  | .delete operand span, hc, naming => by
      rw [Node.eval, Node.eval, Node.makes]
      exact (h.ask span).behind fun _ _ => (Node.agrees h operand hc.child _).followed
        fun v _ => (keeps_deleteValue v span).agrees
  | .returnNothing span, hc, naming => by
      rw [Node.eval, Node.eval, Node.makes]
      have hnothing : Makings.nothing.inFunction = .nothing := by
        funext m
        unfold Makings.inFunction
        split <;> rfl
      exact (h.ask span).followed fun _ _ => hnothing ▸ agrees_giveBack agrees_undefined span
  | .returnValue value span, hc, naming => by
      rw [Node.eval, Node.eval, Node.makes]
      exact (h.ask span).behind fun _ _ => agrees_giveBack (Node.agrees h value hc.child none) span
  | .expression value span, hc, naming => by
      rw [Node.eval, Node.eval, Node.makes]
      exact (h.ask span).behind fun _ _ => Node.agrees h value hc.child none
  | .function _ _ _ span, hc, _ | .map _ _ _ span, hc, _ => by
      rw [Node.eval, Node.eval, Node.makes, h.source]
      exact (h.ask span).followed fun _ _ => (keeps_makeClosure_tree hc.child).agrees
  | .call callee args span, hc, naming => by
      have hcall := agrees_evalCall h callee naming ⟨hc, trivial, rfl⟩
        (Node.agrees h callee hc.child none)
        (agrees_all h args fun arg harg => hc.child (by simp [Node.children, harg]))
        agrees_noFields
      rw [Node.eval, Node.eval, Node.makes]
      split
      · exact (h.ask span).behind fun _ _ => hcall
      · exact hcall
  | .callWith callee args attributes span, hc, naming => by
      have hcall := agrees_evalCall h callee naming ⟨hc, trivial, rfl⟩
        (Node.agrees h callee hc.child none)
        (agrees_all h args fun arg harg => hc.child (by simp [Node.children, harg]))
        (agrees_givenFields (agrees_properties (agrees_pairs h attributes fun property hp => hc.child (by
          simpa [Node.children] using .inr (.inr ⟨property, hp, rfl⟩)))))
      rw [Node.eval, Node.eval, Node.makes]
      split
      · exact (h.ask span).behind fun _ _ => hcall
      · exact hcall
  | .array items span, hc, naming => by
      rw [Node.eval, Node.eval, Node.makes]
      exact (h.ask span).behind fun _ _ => (agrees_all h items fun _ hi => hc.child hi).followed
        fun _ hi => (keeps_newArray hi).agrees
  | .object properties span, hc, naming => by
      rw [Node.eval, Node.eval, Node.makes]
      have hpairs := agrees_pairs h properties fun property hp => hc.child (by
        simpa [Node.children] using ⟨property, hp, rfl⟩)
      exact (h.ask span).behind fun _ _ => (agrees_properties hpairs).followed
        fun _ hf => (keeps_newObject hf).agrees
  | .index base index span, hc, naming => by
      rw [Node.eval, Node.eval, Node.makes]
      exact (h.ask span).behind fun _ _ => (Node.agrees h base hc.child _).bind fun b _ =>
        (Node.agrees h index hc.child _).followed fun i _ => (keeps_getIndex b i).agrees
  | .binary operator left right span, hc, naming => by
      have hleft := Node.agrees h left hc.child none
      have hright := Node.agrees h right hc.child none
      by_cases hand : operator = .and
      · subst hand
        rw [eval_and, eval_and, Node.makes]
        refine (h.ask span).behind fun _ _ => hleft.bind fun v hv => ?_
        split
        · exact hright
        · exact .pure hv
      · by_cases hor : operator = .or
        · subst hor
          rw [eval_or, eval_or, Node.makes]
          refine (h.ask span).behind fun _ _ => hleft.bind fun v hv => ?_
          split
          · exact .pure hv
          · exact hright
        · rw [eval_binary hand hor, eval_binary hand hor, makes_binary hand hor]
          exact (h.ask span).behind fun _ _ => hleft.bind fun l hl => hright.followed fun r hr =>
            (keeps_binaryOperation operator hl hr span).agrees
  | .unary operator operand span, hc, naming => by
      rw [Node.eval, Node.eval, Node.makes]
      exact (h.ask span).behind fun _ _ => (Node.agrees h operand hc.child _).followed
        fun v _ => (keeps_unaryOperation operator v span).agrees
  | .identifier name span, hc, naming => by
      rw [Node.eval, Node.eval, Node.makes]
      exact (h.ask span).followed fun _ _ => (keeps_readName name).agrees
  | .numeral _ _ span, _, _ | .string _ span, _, _ | .boolean _ span, _, _ => by
      rw [Node.eval, Node.eval, Node.makes]
      exact (h.ask span).followed fun _ _ => .pure trivial
  | .coordinate axis operand span, hc, naming => by
      rw [Node.eval, Node.eval, Node.makes]
      exact (h.ask span).behind fun _ _ => (Node.agrees h operand hc.child _).followed
        fun v _ => (keeps_coordinateOf axis v span).agrees
  | .property owner name span, hc, naming => by
      rw [Node.eval, Node.eval, Node.makes]
      exact (h.ask span).behind fun _ _ => (Node.agrees h owner hc.child _).followed
        fun o _ => (keeps_getProperty o name.text name.span).agrees

theorem agrees_statements (h : env'.Agrees W env calls) : (nodes : List Node) →
    (∀ node ∈ nodes, W.Code env.source node) →
    Agrees W (Value.Stored W.Fine) (evalStatements env' nodes) (evalStatements env nodes)
      (statementsMake env calls nodes)
  | [], _ => by
      rw [evalStatements, evalStatements, statementsMake]
      exact .pure trivial
  | [node], hnodes => by
      rw [evalStatements, evalStatements, statementsMake, statementsMake, Makings.andThen_nothing]
      exact Node.agrees h node (hnodes node List.mem_cons_self) none
  | node :: next :: rest, hnodes => by
      obtain ⟨hnode, hrest⟩ := List.forall_mem_cons.1 hnodes
      rw [evalStatements_cons, evalStatements_cons, statementsMake]
      exact (Node.agrees h node hnode none).bind fun _ _ => agrees_statements h (next :: rest) hrest

theorem agrees_all (h : env'.Agrees W env calls) : (nodes : List Node) →
    (∀ node ∈ nodes, W.Code env.source node) →
    Agrees W (fun vs : List Value => ∀ v ∈ vs, v.Stored W.Fine) (evalAll env' nodes) (evalAll env nodes)
      (allMake env calls nodes)
  | [], _ => by
      rw [evalAll, evalAll, allMake]
      exact .pure (List.forall_mem_nil _)
  | node :: rest, hnodes => by
      obtain ⟨hnode, hrest⟩ := List.forall_mem_cons.1 hnodes
      rw [evalAll, evalAll, allMake]
      exact (Node.agrees h node hnode none).bind fun v hv => (agrees_all h rest hrest).followed
        fun vs hvs => .pure (List.forall_mem_cons.2 ⟨hv, hvs⟩)

theorem agrees_pairs (h : env'.Agrees W env calls) : (properties : List Property) →
    (∀ property ∈ properties, W.Code env.source property.value) →
    Agrees W (fun pairs : List (String × Value) => ∀ p ∈ pairs, p.2.Stored W.Fine)
      (evalPairs env' properties) (evalPairs env properties) (pairsMake env calls properties)
  | [], _ => by
      rw [evalPairs, evalPairs, pairsMake]
      exact .pure (List.forall_mem_nil _)
  | .mk name value :: rest, hproperties => by
      obtain ⟨hvalue, hrest⟩ := List.forall_mem_cons.1 hproperties
      rw [evalPairs, evalPairs, pairsMake]
      exact (Node.agrees h value hvalue none).bind fun v hv => (agrees_pairs h rest hrest).followed
        fun ps hps => .pure (List.forall_mem_cons.2 ⟨hv, hps⟩)

end

end

-- =================================================================== from code

namespace Plan

variable {α β : Type} {Q : α → Prop} {R : β → Prop}

/-- A plan whose instructions keep to machines of stored values, and hand
over stored values wherever they call, which is where calls stand. -/
def Watched (W : Watch) (Q : α → Prop) : Plan α → Prop
  | .give a => Q a
  | .act _ x _ next => BoardScript.Keeps W.Fine (fun b => (next b).Watched W Q) x
  | .call node function args _ site next =>
      function.Callee W.Fine ∧ (∀ v ∈ args, v.Stored W.Fine) ∧ W.Site node site ∧
        ∀ v, v.Stored W.Fine → (next v).Watched W Q
  | .done _ x _ => BoardScript.Keeps W.Fine (Value.Stored W.Fine) x
  | .cut => True

theorem Watched.mono {Q' : α → Prop} {p : Plan α} (hp : p.Watched W Q) (hQ : ∀ a, Q a → Q' a) :
    p.Watched W Q' := by
  induction p with
  | give a => exact hQ a hp
  | act span x steady next ih => exact fun m hm => ⟨(hp m hm).1.mono ih, (hp m hm).2⟩
  | call node function args attributes site next ih =>
      exact ⟨hp.1, hp.2.1, hp.2.2.1, fun v hv => ih v (hp.2.2.2 v hv)⟩
  | done span x steady => exact hp
  | cut => trivial

theorem Watched.bind {p : Plan α} {q : α → Plan β} (hp : p.Watched W Q)
    (hq : ∀ a, Q a → (q a).Watched W R) : (p >>= q).Watched W R := by
  induction p with
  | give a => exact hq a hp
  | act span x steady next ih => exact fun m hm => ⟨(hp m hm).1.mono ih, (hp m hm).2⟩
  | call node function args attributes site next ih =>
      exact ⟨hp.1, hp.2.1, hp.2.2.1, fun v hv => ih v (hp.2.2.2 v hv)⟩
  | done span x steady => exact hp
  | cut => trivial

theorem keeps_pure {a : α} (ha : Q a) : (pure a : Plan α).Watched W Q := ha

theorem keeps_instr {span : Span} {x : Eval α} {steady : Steady x} (h : BoardScript.Keeps W.Fine Q x) :
    (instr span x steady).Watched W Q := h

theorem keeps_move (span : Span) : (move span).Watched W fun _ => True :=
  keeps_instr (.pure trivial)

/-- Running a plan that keeps to stored values, in environments that agree,
and going on in agreement where nothing more is made. -/
theorem Watched.runFor {env' env : Env} {calls : CallMakings} (h : env'.Agrees W env calls)
    {p : Plan α} (hp : p.Watched W Q) {go' go : α → Nat → Eval Value}
    (hgo : ∀ a left, Q a → Agrees W (Value.Stored W.Fine) (go' a left) (go a left) .nothing)
    (fuel : Nat) :
    Agrees W (Value.Stored W.Fine) (p.runFor env' go' fuel) (p.runFor env go fuel)
      (p.makes env calls fuel) := by
  induction p generalizing fuel with
  | give a =>
      rw [Plan.runFor, Plan.runFor]
      exact hgo a fuel hp
  | cut =>
      rw [Plan.runFor, Plan.runFor]
      exact Keeps.exhausted.agrees
  | act span x steady next ih =>
      cases fuel with
      | zero => exact Keeps.exhausted.agrees
      | succ fuel =>
          rw [runFor_act_succ, runFor_act_succ]
          exact (h.ask span).behind fun _ _ => (BoardScript.Keeps.agrees hp).behind
            fun b hb => ih b hb fuel
  | call node function args attributes site next ih =>
      cases fuel with
      | zero => exact Keeps.exhausted.agrees
      | succ fuel =>
          obtain ⟨hfunction, hargs, hsite, hnext⟩ := hp
          have hattributes : BoardScript.Keeps W.Fine (fun attributes : Option Fields => ∀ fields,
              attributes = some fields → ∀ p ∈ fields, p.2.Stored W.Fine)
              (attributesAt attributes) := by
            cases attributes with
            | none => exact .pure fun _ h => nomatch h
            | some place =>
                refine .reading fun m hm => .pure ?_
                rintro _ ⟨⟩
                exact hm.heap.object place
          rw [runFor_call_succ, runFor_call_succ]
          exact (h.ask site.span).behind fun _ _ => hattributes.agrees.behind fun fields hf =>
            (agrees_callValue hfunction hargs hf (fun _ _ => hsite) fun c hc =>
              h.call c args site hc hargs).bind fun v hv => ih v (hnext v hv) fuel
  | done span x steady =>
      cases fuel with
      | zero => exact Keeps.exhausted.agrees
      | succ fuel => exact (h.ask span).followed fun _ _ => BoardScript.Keeps.agrees hp

end Plan

open Plan

-- ======================================================== plans and their parts

section

theorem keeps_handBack {v : Value} (hv : v.Stored W.Fine) (span : Span) :
    BoardScript.Keeps W.Fine (Value.Stored W.Fine) (handBack v span) := by
  refine .reading fun m _ => ?_
  split
  · exact .fault _ _
  · exact .pure hv

theorem keeps_choice {v : Value} {yes no : Plan Value} (hyes : yes.Watched W (Value.Stored W.Fine))
    (hno : no.Watched W (Value.Stored W.Fine)) (span : Span) :
    (choice v yes no span).Watched W (Value.Stored W.Fine) := by
  refine (keeps_move span).bind fun _ _ => (keeps_move span).bind fun _ _ => ?_
  split
  · exact hyes.bind fun w hw => (keeps_move span).bind fun _ _ => keeps_pure hw
  · exact hno

theorem keeps_looping {condition : Plan Value} {turn : Plan Unit}
    (hcondition : condition.Watched W (Value.Stored W.Fine)) (hturn : turn.Watched W fun _ => True)
    (span : Span) (turns : Nat) :
    (looping condition turn span turns).Watched W (Value.Stored W.Fine) := by
  induction turns with
  | zero => trivial
  | succ turns ih =>
      refine hcondition.bind fun v _ => (keeps_move span).bind fun _ _ =>
        (keeps_move span).bind fun _ _ => ?_
      split
      · exact hturn.bind fun _ _ => ih
      · exact (keeps_move span).bind fun _ _ => keeps_pure (a := Value.undefined) trivial

theorem keeps_makeObject {fields : Fields} (hf : ∀ p ∈ fields, p.2.Stored W.Fine) (span : Span) :
    (makeObject fields span).Watched W fun _ => True :=
  keeps_instr (.reading fun _ _ => (keeps_newObject hf).bind fun _ _ => .pure trivial)

theorem keeps_resolved (callee : Node) {value : Plan Value} (h : value.Watched W (Value.Stored W.Fine)) :
    (resolved callee value).Watched W (Value.Callee W.Fine) := by
  unfold resolved
  cases callee.name? with
  | some name => exact keeps_instr (keeps_readCallee name callee.span)
  | none => exact h.mono fun _ hv => hv.callee

theorem keeps_calling (source : Source) {node : Node} (callee : Node) {calleeValue : Plan Value}
    {args : Plan (List Value)} {attributes : Option (Plan (List (String × Value)))}
    (hcallee : calleeValue.Watched W (Value.Stored W.Fine))
    (hargs : args.Watched W fun vs => ∀ v ∈ vs, v.Stored W.Fine)
    (hattributes : ∀ pairs, attributes = some pairs →
      pairs.Watched W fun ps => ∀ p ∈ ps, p.2.Stored W.Fine)
    (naming : Option String) {span : Span}
    (hsite : ∀ naming, W.Site node ⟨span, Compile.calleeText callee, naming, source⟩) :
    (calling source node callee calleeValue args attributes naming span).Watched W (Value.Stored W.Fine) := by
  refine (keeps_resolved callee hcallee).bind fun f hf => hargs.bind fun vs hvs => ?_
  cases attributes with
  | none => exact ⟨hf, hvs, hsite _, fun v hv => hv⟩
  | some pairs =>
      exact (hattributes pairs rfl).bind fun ps hps =>
        (keeps_makeObject (Fields.of_ofPairs (P := Value.Stored W.Fine) hps) span).bind fun _ _ =>
          (⟨hf, hvs, hsite _, fun v hv => hv⟩ : Plan.Watched W (Value.Stored W.Fine)
            (.call node f vs _ _ .give))

end

-- ================================================================ plans of nodes

section

variable {place : Compile.Place} {turns : Nat}

theorem keeps_planStatements : {nodes : List Node} →
    (∀ node ∈ nodes, (node.plan place turns none).Watched W (Value.Stored W.Fine)) →
    (planStatements place turns nodes).Watched W (Value.Stored W.Fine)
  | [], _ => by
      rw [planStatements]
      exact keeps_pure (a := Value.undefined) trivial
  | [node], h => by
      rw [planStatements]
      exact h node List.mem_cons_self
  | node :: next :: rest, h => by
      obtain ⟨hnode, hrest⟩ := List.forall_mem_cons.1 h
      rw [planStatements]
      exact hnode.bind fun _ _ => (keeps_move _).bind fun _ _ => keeps_planStatements hrest

theorem keeps_planAll {nodes : List Node}
    (h : ∀ node ∈ nodes, (node.plan place turns none).Watched W
      (Value.Stored W.Fine)) :
    (planAll place turns nodes).Watched W
      fun vs : List Value => ∀ v ∈ vs, v.Stored W.Fine := by
  induction nodes with
  | nil =>
      rw [planAll]
      exact List.forall_mem_nil _
  | cons node rest ih =>
      obtain ⟨hnode, hrest⟩ := List.forall_mem_cons.1 h
      rw [planAll]
      exact hnode.bind fun v hv => (ih hrest).bind fun vs hvs =>
        keeps_pure (List.forall_mem_cons.2 ⟨hv, hvs⟩)

theorem keeps_planPairs {properties : List Property}
    (h : ∀ property ∈ properties, (property.value.plan place turns none).Watched W
      (Value.Stored W.Fine)) :
    (planPairs place turns properties).Watched W
      fun ps : List (String × Value) => ∀ p ∈ ps, p.2.Stored W.Fine := by
  induction properties with
  | nil =>
      rw [planPairs]
      exact List.forall_mem_nil _
  | cons property rest ih =>
      obtain ⟨hproperty, hrest⟩ := List.forall_mem_cons.1 h
      obtain ⟨name, value⟩ := property
      rw [planPairs]
      exact (keeps_move _).bind fun _ _ => hproperty.bind fun v hv => (ih hrest).bind fun ps hps =>
        keeps_pure (List.forall_mem_cons.2 ⟨hv, hps⟩)

/-- A closure with the code of its literal. -/
theorem keeps_closure {source : Source} {literal : FunctionLiteral}
    (hcode : W.Code source literal.body) (hproper : literal.body.Proper Lexical) (span : Span) :
    (closure source literal span).Watched W (Value.Stored W.Fine) :=
  keeps_instr (keeps_makeClosure (W.make hcode fun _ hchunk =>
    ⟨hproper, compile_of_toOption hchunk⟩))

/-- What the code of a node does keeps to machines of stored values. -/
theorem Node.Proper.keeps {node : Node} (h : node.Proper Lexical) (place : Compile.Place) (turns : Nat)
    (hc : W.Code place.source node) (naming : Option String) :
    (node.plan place turns naming).Watched W (Value.Stored W.Fine) := by
  induction h generalizing naming with
  | @intro node here below ih =>
  have named (properties : List Property)
      (hmem : ∀ property ∈ properties, property.value ∈ node.children) :
      ∀ property ∈ properties, (property.value.plan place turns none).Watched W
        (Value.Stored W.Fine) :=
    fun property hp => ih _ (hmem property hp) (hc.child (hmem property hp)) none
  cases node with
  | block statements span =>
      rw [Node.plan]
      split
      · exact (keeps_move span).bind fun _ _ => keeps_pure (a := Value.undefined) trivial
      · exact keeps_planStatements fun node hnode => ih node hnode (hc.child hnode) none
  | assign name value span =>
      rw [Node.plan]
      exact (ih value (by simp [Node.children]) hc.child _).bind fun v hv =>
        (keeps_instr (keeps_assignLocal name.text hv name.span)).bind fun _ _ => keeps_pure hv
  | assignProperty owner name value span =>
      rw [Node.plan]
      exact (ih owner (by simp [Node.children]) hc.child none).bind fun o _ =>
        (ih value (by simp [Node.children]) hc.child none).bind fun v hv =>
          (keeps_instr (keeps_setProperty o name.text hv name.span)).bind fun _ _ => keeps_pure hv
  | assignIndex base index value span =>
      rw [Node.plan]
      exact (ih base (by simp [Node.children]) hc.child none).bind fun b _ =>
        (ih index (by simp [Node.children]) hc.child none).bind fun i _ =>
          (ih value (by simp [Node.children]) hc.child none).bind fun v hv =>
            (keeps_instr (keeps_setIndex b i hv value.span)).bind fun _ _ => keeps_pure hv
  | ifThen condition yes span =>
      rw [Node.plan]
      exact (ih condition (by simp [Node.children]) hc.child none).bind fun v _ =>
        keeps_choice (ih yes (by simp [Node.children]) hc.child none)
          ((keeps_move span).bind fun _ _ => keeps_pure (a := Value.undefined) trivial) span
  | ifElse condition yes no span =>
      rw [Node.plan]
      exact (ih condition (by simp [Node.children]) hc.child none).bind fun v _ =>
        keeps_choice (ih yes (by simp [Node.children]) hc.child none) (ih no (by simp [Node.children]) hc.child none) span
  | conditional condition yes no span =>
      rw [Node.plan]
      exact (ih condition (by simp [Node.children]) hc.child none).bind fun v _ =>
        keeps_choice (ih yes (by simp [Node.children]) hc.child none) (ih no (by simp [Node.children]) hc.child none) span
  | whileLoop condition body span =>
      rw [Node.plan]
      exact keeps_looping (ih condition (by simp [Node.children]) hc.child none)
        ((ih body (by simp [Node.children]) hc.child none).bind fun _ _ =>
          (keeps_move span).bind fun _ _ => keeps_move span) span turns
  | doLoop body condition span =>
      rw [Node.plan]
      exact (ih body (by simp [Node.children]) hc.child none).bind fun _ _ => (keeps_move span).bind fun _ _ =>
        keeps_looping (ih condition (by simp [Node.children]) hc.child none)
          ((keeps_move span).bind fun _ _ => (ih body (by simp [Node.children]) hc.child none).bind
            fun _ _ => keeps_move span) span turns
  | forLoop init condition step body span =>
      rw [Node.plan]
      exact (ih init (by simp [Node.children]) hc.child none).bind fun _ _ => (keeps_move span).bind fun _ _ =>
        keeps_looping (ih condition (by simp [Node.children]) hc.child none)
          ((ih body (by simp [Node.children]) hc.child none).bind fun _ _ => (keeps_move span).bind
            fun _ _ => (ih step (by simp [Node.children]) hc.child none).bind fun _ _ =>
              (keeps_move span).bind fun _ _ => keeps_move span) span turns
  | useBoard name span =>
      rw [Node.plan]
      exact (keeps_instr (keeps_useSession name.text span)).bind fun _ _ =>
        keeps_pure (a := Value.undefined) trivial
  | delete operand span =>
      rw [Node.plan]
      exact (ih operand (by simp [Node.children]) hc.child none).bind fun v _ =>
        keeps_instr (keeps_deleteValue v span)
  | returnNothing span =>
      rw [Node.plan]
      exact (keeps_move span).bind fun _ _ => keeps_handBack (v := .undefined) trivial span
  | returnValue value span =>
      rw [Node.plan]
      split
      · exact (ih value (by simp [Node.children]) hc.child none).bind fun v hv => keeps_handBack hv span
      · exact (keeps_move span).bind fun _ _ => keeps_handBack (v := .undefined) trivial span
  | expression value span =>
      rw [Node.plan]
      exact ih value (by simp [Node.children]) hc.child none
  | function params body literal span =>
      rw [Node.plan]
      exact keeps_closure hc.child (below body (by simp [Node.children])) span
  | map params body literal span =>
      rw [Node.plan]
      exact keeps_closure hc.child (below body (by simp [Node.children])) span
  | call callee args span =>
      rw [Node.plan]
      exact keeps_calling _ callee (ih callee (by simp [Node.children]) hc.child none)
        (keeps_planAll fun arg harg => ih arg (by simp [Node.children, harg])
          (hc.child (by simp [Node.children, harg])) none)
        (by rintro _ ⟨⟩) naming fun _ => ⟨hc, trivial, rfl⟩
  | callWith callee args attributes span =>
      rw [Node.plan]
      refine keeps_calling _ callee (ih callee (by simp [Node.children]) hc.child none)
        (keeps_planAll fun arg harg => ih arg (by simp [Node.children, harg])
          (hc.child (by simp [Node.children, harg])) none) ?_ naming
        fun _ => ⟨hc, trivial, rfl⟩
      rintro _ ⟨⟩
      refine keeps_planPairs (named attributes fun property hp => ?_)
      simpa [Node.children] using .inr (.inr ⟨property, hp, rfl⟩)
  | array items span =>
      rw [Node.plan]
      exact (keeps_planAll fun item hitem => ih item hitem (hc.child hitem) none).bind fun vs hvs =>
        keeps_instr (keeps_newArray hvs)
  | object properties span =>
      rw [Node.plan]
      refine (keeps_planPairs (named properties fun property hp => ?_)).bind fun ps hps =>
        keeps_instr (keeps_newObject (Fields.of_ofPairs (P := Value.Stored W.Fine) hps))
      simpa [Node.children] using ⟨property, hp, rfl⟩
  | index base index span =>
      rw [Node.plan]
      exact (ih base (by simp [Node.children]) hc.child none).bind fun b _ =>
        (ih index (by simp [Node.children]) hc.child none).bind fun i _ => keeps_instr (keeps_getIndex b i)
  | binary operator left right span =>
      have hleft := ih left (by simp [Node.children]) hc.child none
      have hright := ih right (by simp [Node.children]) hc.child none
      by_cases hand : operator = .and
      · subst hand
        rw [Node.plan]
        refine hleft.bind fun v hv => (keeps_move span).bind fun _ _ => ?_
        split
        · exact (keeps_move span).bind fun _ _ => hright
        · exact keeps_pure hv
      · by_cases hor : operator = .or
        · subst hor
          rw [Node.plan]
          refine hleft.bind fun v hv => (keeps_move span).bind fun _ _ =>
            (keeps_move span).bind fun _ _ => ?_
          split
          · exact keeps_pure hv
          · exact hright
        · rw [plan_binary hand hor]
          exact hleft.bind fun l hl => hright.bind fun r hr =>
            keeps_instr (keeps_binaryOperation operator hl hr span)
  | unary operator operand span =>
      rw [Node.plan]
      exact (ih operand (by simp [Node.children]) hc.child none).bind fun v _ =>
        keeps_instr (keeps_unaryOperation operator v span)
  | identifier name span =>
      rw [Node.plan]
      exact keeps_instr (keeps_readName name)
  | numeral text kind span =>
      rw [Node.plan]
      exact (keeps_move span).bind fun _ _ => keeps_pure (a := Value.number _) trivial
  | string value span =>
      rw [Node.plan]
      exact (keeps_move span).bind fun _ _ => keeps_pure (a := Value.string _) trivial
  | boolean value span =>
      rw [Node.plan]
      exact (keeps_move span).bind fun _ _ => keeps_pure (a := Value.boolean _) trivial
  | coordinate axis operand span =>
      rw [Node.plan]
      exact (ih operand (by simp [Node.children]) hc.child none).bind fun v _ =>
        keeps_instr (keeps_coordinateOf axis v span)
  | property owner name span =>
      rw [Node.plan]
      exact (ih owner (by simp [Node.children]) hc.child none).bind fun o _ =>
        keeps_instr (keeps_getProperty o name.text name.span)

theorem FunctionLiteral.keeps {literal : FunctionLiteral} (h : literal.body.Proper Lexical)
    {source : Source} (hcode : W.Code source literal.body) (turns : Nat) :
    (literal.plan source turns).Watched W (Value.Stored W.Fine) := by
  rw [FunctionLiteral.plan]
  refine (h.keeps ⟨source, true⟩ turns hcode none).bind fun v hv => ?_
  split
  · exact keeps_handBack hv _
  · exact (keeps_move _).bind fun _ _ => (keeps_move _).bind fun _ _ =>
      keeps_handBack (v := .undefined) trivial _

theorem keeps_scriptPlan {root : Node} (h : root.Proper Lexical) {source : Source}
    (hcode : W.Code source root) (turns : Nat) :
    (scriptPlan source turns root).Watched W (Value.Stored W.Fine) :=
  (h.keeps ⟨source, false⟩ turns hcode none).bind fun _ hv => BoardScript.Keeps.pure hv

end

end BoardScript
