/-
Trees beside plans. On a machine from which all code was taken out, and on
which no clock runs, evaluating a node goes along with running the plan of
the node on the machine itself (`Node.Proper.retraces`). A plan takes more
instructions and asks more often whether to go on, but between the
instructions that only move on it acts as the tree does, in the same order.

A return is where they differ most: from a tree it is on its way out, while
a plan ends. A body comes to the same on either way
(`FunctionLiteral.follows_ending`, `follows_script`).
-/
import BoardScript.Proofs.Run.Prolong
import BoardScript.Proofs.Run.Watch

namespace BoardScript

open Simulation Plan

-- ============================================================= without code

/-- No closure has code, programs are run from trees, and no clock runs. -/
def Recoding.uncoded : Recoding where
  closure c := { c with compiled := none }
  span := id
  source := id
  created := id
  mode _ := .tree
  ticks _ := none
  identity_closure _ := rfl
  text_closure _ := rfl
  created_at := Recoding.identity.created_at

/-- A run on a machine beside one without code. All code is made of its
literal. -/
def Simulation.uncoded : Simulation where
  code := .uncoded
  Inv _ := True
  Keeps _ := Closure.Coded
  Skip _ := False
  Bad _ := False
  inv_later _ h := h
  keeps_mono _ h := h
  skip_returned _ h := h
  bad_fault := Fault.isOverflow_of_false

/-- All closures held have the code of their literals, if any. -/
def AllCoded {α : Type} [Recodable α] (x : α) : Prop := ∀ c, Holds x c → c.Coded

namespace AllCoded

variable {α : Type} [Recodable α]

theorem cons {a : α} {as : List α} (h : AllCoded a) (hs : AllCoded as) : AllCoded (a :: as) := by
  rintro c ⟨b, hb, hc⟩
  rcases List.mem_cons.1 hb with rfl | hb
  · exact h c hc
  · exact hs c ⟨b, hb, hc⟩

theorem field {name : String} {v : Value} (h : AllCoded v) : AllCoded (name, v) := by
  rintro c (hc | hc)
  · exact hc.elim
  · exact h c hc

theorem undefined : AllCoded Value.undefined := fun _ h => nomatch h

theorem ofPairs {pairs : List (String × Value)} (h : AllCoded pairs) :
    AllCoded (Fields.ofPairs pairs) :=
  have hclean : uncoded.Clean {} pairs := h
  hclean.ofPairs

end AllCoded

/-- Environments for a machine without code and for one with code. Without
code nothing is asked; with code nothing but the clock hears of a question. -/
structure Env.Beside (env' env : Env) : Prop where
  call : ∀ m₀ c args site, c.Coded → AllCoded args → uncoded.Follows m₀
    (env'.call (Recoding.uncoded.closure c) (recode .uncoded args) site) (env.call c args site)
  free : ∀ span, env'.ask span = pure ()
  ask : ∀ span m, ∃ left : Option Nat, left.isSome = m.ticks.isSome ∧
    env.ask span m = .ok () { m with ticks := left }

/-- Machines on which a node of a place may be evaluated: those of functions
are not global. -/
def Within (place : Compile.Place) (m : Machine) : Prop :=
  m.scopes.isGlobal = !place.inFunction

/-- An action on machines without code goes along with running a plan. -/
def Retraces {α : Type} [Recodable α] (env : Env) (place : Compile.Place) (x' : Eval α)
    (p : Plan α) : Prop :=
  ∀ m₀, Within place m₀ → uncoded.Follows m₀ x' (p.run env)

/-- A name is given to what is made only if there are no attributes. -/
theorem callValue_naming (call : Caller) (function : Value) (args : List Value) (fields : Fields)
    (site : CallSite) (naming : Option String) :
    callValue call function args (some fields) { site with naming }
      = callValue call function args (some fields) site := by
  cases function <;> rfl

theorem Within.later {place : Compile.Place} {m n : Machine} (h : Within place m)
    (hn : m.Later n) : Within place n := by
  rw [Within, Scopes.isGlobal, hn.current]
  exact h

/-- One plan, and then another. -/
theorem Plan.run_bind {α β : Type} (env : Env) (p : Plan α) (q : α → Plan β) :
    (p >>= q).run env = p.run env >>= fun a => (q a).run env := by
  induction p with
  | give a => rfl
  | act span x steady next ih =>
      simp only [run, bind_assoc, ← ih]
      rfl
  | call node function args attributes site next ih =>
      simp only [run, bind_assoc, ← ih]
      rfl
  | done span x steady =>
      simp only [run, bind_assoc]
      rfl
  | cut => rfl

-- ===================================================================== parts

section

variable {env' env : Env} {place : Compile.Place} {α β : Type} [Recodable α] [Recodable β]

/-- A question that only the plan asks. -/
theorem Env.Beside.asked (h : env'.Beside env) {m₀ : Machine} {span : Span} {x' x : Eval α}
    (hx : ∀ m₁, m₀.Later m₁ → uncoded.Follows m₁ x' x) :
    uncoded.Follows m₀ x' (env.ask span >>= fun _ => x) := by
  have hask : uncoded.Follows m₀ (pure ()) (env.ask span) := by
    intro m _ _ hc
    obtain ⟨left, hleft, hr⟩ := h.ask span m
    rw [hr]
    exact ⟨.of_scopes rfl id rfl rfl rfl hleft, hc, fun _ h => h.elim, rfl⟩
  show uncoded.Follows m₀ (pure () >>= fun _ => x') _
  exact hask.bind fun _ m₁ hm₁ _ => hx m₁ hm₁

namespace Retraces

theorem give {a : α} (ha : AllCoded a) : Retraces env place (pure (recode .uncoded a)) (pure a) :=
  fun _ _ => .pure ha

theorem undefined : Retraces env place (pure Value.undefined) (pure Value.undefined) :=
  .give AllCoded.undefined

theorem bind {x' : Eval α} {p : Plan α} {k' : α → Eval β} {q : α → Plan β}
    (hx : Retraces env place x' p)
    (hk : ∀ a, AllCoded a → Retraces env place (k' (recode .uncoded a)) (q a)) :
    Retraces env place (x' >>= k') (p >>= q) := by
  intro m₀ hin
  rw [run_bind]
  exact (hx m₀ hin).bind fun a m₁ hm₁ ha => hk a ha m₁ (hin.later hm₁)

/-- Only what an action does on machines of the place matters. -/
theorem congr {x' y' : Eval α} {p : Plan α} (hy : Retraces env place y' p)
    (h : ∀ m, Within place m → x' m = y' m) : Retraces env place x' p := by
  intro m₀ hin m hm hi hc
  have hat : Within place (recode uncoded.code m) := hin.later (n := m) hm
  rw [show x' (recode uncoded.code m) = _ from h _ hat]
  exact hy m₀ hin m hm hi hc

/-- Nothing comes of a loop that may not go round. -/
theorem cut : Retraces env place (throw .exhausted : Eval α) .cut := fun _ _ => .exhausted

end Retraces

namespace Env.Beside

variable (h : env'.Beside env)

include h

/-- An instruction that does what the tree does. -/
theorem instr {span : Span} {x' x : Eval α} {steady : Steady x}
    (hx : ∀ m₀, uncoded.Follows m₀ x' x) : Retraces env place x' (Plan.instr span x steady) := by
  intro m₀ _
  have hrun : (Plan.instr span x steady).run env = env.ask span >>= fun _ => x := by
    rw [Plan.instr, run]
    exact bind_congr fun _ => bind_pure x
  rw [hrun]
  exact h.asked fun m₁ _ => hx m₁

/-- An instruction that only moves on. -/
theorem moved {span : Span} {x' : Eval α} {q : Unit → Plan α} (hx : Retraces env place x' (q ())) :
    Retraces env place x' (Plan.move span >>= q) :=
  fun _ hin => h.asked fun m₁ hm₁ => hx m₁ (hin.later hm₁)

theorem moves {span : Span} : Retraces env place (pure ()) (Plan.move span) :=
  h.instr fun _ => .pure (a := ()) fun _ h => h.elim

/-- An instruction behind a plan that only moves on. -/
theorem behind {span : Span} {x' : Eval α} {p : Plan α} (hx : Retraces env place x' p) :
    Retraces env place x' (do
      let a ← p
      Plan.move span
      return a) := by
  have hmoved : Retraces env place (x' >>= pure) (do
      let a ← p
      Plan.move span
      return a) := hx.bind fun a ha => h.moved (.give ha)
  rwa [bind_pure] at hmoved

theorem choice {yes' no' : Eval Value} {yes no : Plan Value} (hyes : Retraces env place yes' yes)
    (hno : Retraces env place no' no) (v : Value) (span : Span) :
    Retraces env place (if (recode Recoding.uncoded v).truthy then yes' else no')
      (Plan.choice v yes no span) := by
  refine h.moved (h.moved ?_)
  rw [Value.truthy_recode]
  split
  · exact h.behind hyes
  · exact hno

/-- Loops go round as often. -/
theorem looping {condition' : Eval Value} {turn' : Eval Unit} {condition : Plan Value}
    {turn : Plan Unit} (hcondition : Retraces env place condition' condition)
    (hturn : Retraces env place turn' turn) (span : Span) (turns : Nat) :
    Retraces env place (do
      loopWhile condition' turn' turns
      return .undefined) (Plan.looping condition turn span turns) := by
  induction turns with
  | zero => exact .cut
  | succ turns ih =>
      rw [loopWhile, Plan.looping, bind_assoc]
      refine hcondition.bind fun v _ => h.moved (h.moved ?_)
      rw [Value.truthy_recode]
      split
      · rw [bind_assoc]
        exact hturn.bind fun _ _ => ih
      · exact h.moved .undefined

-- ============================================================ calls, returns

theorem resolved (callee : Node) {value' : Eval Value} {value : Plan Value}
    (hvalue : Retraces env place value' value) :
    Retraces env place (callee.resolved value') (Plan.resolved callee value) := by
  unfold Node.resolved Plan.resolved
  cases callee.name? with
  | some name => exact h.instr fun _ => follows_readCallee name callee.span
  | none => exact hvalue

theorem callValue {function : Value} {args : List Value} {attributes : Option Fields}
    (hfunction : AllCoded function) (hargs : AllCoded args) (hattributes : AllCoded attributes)
    (site : CallSite) (m₀ : Machine) :
    uncoded.Follows m₀
      (BoardScript.callValue env'.call (recode .uncoded function) (recode .uncoded args)
        (recode .uncoded attributes) site)
      (BoardScript.callValue env.call function args attributes site) := by
  show uncoded.Follows m₀
    (BoardScript.callValue env'.call _ _ _ (recode Recoding.uncoded site)) _
  exact follows_callValue hfunction hargs hattributes fun c hc => h.call m₀ c args site hc hargs

/-- A call without attributes. -/
theorem called {node : Node} {function : Value} {args : List Value} (hfunction : AllCoded function)
    (hargs : AllCoded args) (site : CallSite) :
    Retraces env place
      (BoardScript.callValue env'.call (recode .uncoded function) (recode .uncoded args) none site)
      (.call node function args none site .give) := by
  intro m₀ _
  have hrun : (Plan.call node function args none site .give).run env = (do
      env.ask site.span
      BoardScript.callValue env.call function args none site) :=
    bind_congr fun _ => bind_pure (BoardScript.callValue env.call function args none site)
  have hnone : AllCoded (none : Option Fields) := fun _ ⟨_, h, _⟩ => nomatch h
  rw [hrun]
  exact h.asked fun m₁ _ => h.callValue hfunction hargs hnone site m₁

omit [Recodable β] in
/-- Attributes put on the heap are still there behind a question. -/
theorem placeObject_eq (fields : Fields) (span : Span) (k : Option Fields → Eval β) :
    (do
      let place ← placeObject fields
      env.ask span
      let attributes ← attributesAt (some place)
      k attributes) = (do
      let _ ← allocate (·.newObject fields)
      env.ask span
      k (some fields)) := by
  funext m
  obtain ⟨left, -, hask⟩ := h.ask span { m with heap := (m.heap.newObject fields).2 }
  have hfound : (m.heap.newObject fields).2.object ⟨m.heap.objects.size⟩ = fields := by
    simp [Heap.newObject, Heap.object]
  have hplaced : (placeObject fields >>= fun place => env.ask span >>= fun _ =>
        attributesAt (some place) >>= k) m
      = (env.ask span >>= fun _ => attributesAt (some ⟨m.heap.objects.size⟩) >>= k)
          { m with heap := (m.heap.newObject fields).2 } := rfl
  have hallocated : (allocate (·.newObject fields) >>= fun _ => env.ask span >>= fun _ =>
        k (some fields)) m
      = (env.ask span >>= fun _ => k (some fields))
          { m with heap := (m.heap.newObject fields).2 } := rfl
  rw [hplaced, hallocated]
  simp only [Bind.bind, EStateM.bind, hask]
  show k (some ((m.heap.newObject fields).2.object ⟨m.heap.objects.size⟩)) _ = _
  rw [hfound]

/-- A call with attributes in an object. -/
theorem calledWith {node : Node} {function : Value} {args : List Value} {fields : Fields}
    (hfunction : AllCoded function) (hargs : AllCoded args) (hfields : AllCoded fields)
    (site : CallSite) (naming : Option String) (span : Span) :
    Retraces env place (do
      let _ ← allocate (·.newObject (recode .uncoded fields))
      BoardScript.callValue env'.call (recode .uncoded function) (recode .uncoded args)
        (some (recode .uncoded fields)) { site with naming }) (do
      let object ← makeObject fields span
      .call node function args (some object) site .give) := by
  intro m₀ _
  have hrun : (makeObject fields span >>= fun object =>
        Plan.call node function args (some object) site .give).run env = (do
      env.ask span
      let _ ← allocate (·.newObject fields)
      env.ask site.span
      BoardScript.callValue env.call function args (some fields) site) := by
    rw [← h.placeObject_eq fields site.span fun attributes =>
      BoardScript.callValue env.call function args attributes site]
    refine bind_congr fun _ => bind_congr fun object => bind_congr fun _ => bind_congr fun _ => ?_
    exact bind_pure _
  have hsome : AllCoded (some fields) := fun c ⟨_, h, hc⟩ => hfields c (Option.some.inj h ▸ hc)
  rw [hrun, callValue_naming]
  exact h.asked fun m₁ _ => (follows_newObject (S := uncoded) hfields).bind fun _ m₂ _ _ =>
    h.asked fun m₃ _ => h.callValue hfunction hargs hsome site m₃

/-- A call, given how to get at its parts. -/
theorem calling {source : Source} (hsource : env'.source = source) (node callee : Node)
    {calleeValue' : Eval Value} {calleeValue : Plan Value} {args' : Eval (List Value)}
    {args : Plan (List Value)} (hcallee : Retraces env place calleeValue' calleeValue)
    (hargs : Retraces env place args' args) (naming : Option String) (span : Span) :
    Retraces env place (evalCall env' callee calleeValue' args' none naming span)
      (Plan.calling source node callee calleeValue args none naming span) := by
  rw [evalCall_eq, hsource]
  exact (h.resolved callee hcallee).bind fun f hf => hargs.bind fun vs hvs =>
    h.called hf hvs ⟨span, Compile.calleeText callee, naming, source⟩

theorem callingWith {source : Source} (hsource : env'.source = source) (node callee : Node)
    {calleeValue' : Eval Value} {calleeValue : Plan Value} {args' : Eval (List Value)}
    {args : Plan (List Value)} {pairs' : Eval (List (String × Value))}
    {pairs : Plan (List (String × Value))} (hcallee : Retraces env place calleeValue' calleeValue)
    (hargs : Retraces env place args' args) (hpairs : Retraces env place pairs' pairs)
    (naming : Option String) (span : Span) :
    Retraces env place
      (evalCall env' callee calleeValue' args' (some (return Fields.ofPairs (← pairs'))) naming
        span)
      (Plan.calling source node callee calleeValue args (some pairs) naming span) := by
  rw [evalCall_eq, hsource]
  simp only [givenFields, bind_assoc, pure_bind]
  refine (h.resolved callee hcallee).bind fun f hf => hargs.bind fun vs hvs =>
    hpairs.bind fun ps hps => ?_
  rw [Fields.ofPairs_recode]
  exact h.calledWith hf hvs hps.ofPairs ⟨span, Compile.calleeText callee, none, source⟩ naming span

/-- Giving back a value that is there. -/
theorem gaveBack {v : Value} (hv : AllCoded v) (span : Span) :
    Retraces env place (giveBack (pure (recode .uncoded v)) span)
      (.done span (handBack v span) (steady_handBack v span)) := by
  intro m₀ _
  refine h.asked fun m₁ _ => ?_
  show uncoded.Follows m₁ _ (MonadState.get >>= fun m : Machine =>
    (if m.scopes.isGlobal then fault .unexpectedReturn span else pure v) >>= fun v =>
      throw (.returned v))
  refine .reading fun m _ => ?_
  rw [scopes_recode, isGlobal_recode]
  split
  · exact .fault .unexpectedReturn span rfl
  · exact .returned hv

/-- A value that a plan ends with. -/
theorem ended {v : Value} (hv : AllCoded v) (span : Span) (steady : Steady (pure v)) :
    Retraces env place (throw (.returned (recode .uncoded v)) : Eval Value)
      (.done span (pure v) steady) :=
  fun _ _ => h.asked fun _ _ => .returned hv

end Env.Beside

/-- In a function a return gives back its value. -/
theorem giveBack_within (hin : place.inFunction = true) (value : Eval Value) (span : Span)
    {m : Machine} (hm : Within place m) :
    giveBack value span m = (value >>= fun v => throw (.returned v)) m := by
  have hglobal : m.scopes.isGlobal = false := by rw [hm, hin]; rfl
  show (if m.scopes.isGlobal then fault .unexpectedReturn span
    else value >>= fun v => throw (.returned v) : Eval Value) m = _
  rw [hglobal]
  rfl

/-- Elsewhere it does not get to evaluate it. -/
theorem giveBack_outside (hout : place.inFunction = false) (value value' : Eval Value) (span : Span)
    {m : Machine} (hm : Within place m) : giveBack value span m = giveBack value' span m := by
  have hglobal : m.scopes.isGlobal = true := by rw [hm, hout]; rfl
  show (if m.scopes.isGlobal then fault .unexpectedReturn span
    else value >>= fun v => throw (.returned v) : Eval Value) m
    = (if m.scopes.isGlobal then fault .unexpectedReturn span
      else value' >>= fun v => throw (.returned v) : Eval Value) m
  rw [hglobal]
  rfl

theorem Env.Beside.gone (h : env'.Beside env) (hin : place.inFunction = true) {v : Value}
    (hv : AllCoded v) (span : Span) :
    Retraces env place (throw (.returned (recode .uncoded v)) : Eval Value)
      (.done span (handBack v span) (steady_handBack v span)) :=
  (h.gaveBack hv span).congr fun _ hm => (giveBack_within hin (pure _) span hm).symm

end

-- ===================================================================== nodes

/-- A closure with code beside one without. -/
theorem follows_makeCode {literal : FunctionLiteral} {compiled : Option Chunk} {source : Source}
    (h : ∀ chunk, compiled = some chunk →
      literal.body.Proper Lexical ∧ literal.compile source = .ok chunk) (m₀ : Machine) :
    uncoded.Follows m₀ (makeClosure literal none source) (makeClosure literal compiled source) := by
  intro m _ _ hc
  rw [makeClosure_eq, makeClosure_eq]
  cases literal.notFormula with
  | some node => exact .inr ⟨.refl m, hc, fun _ ⟨_, he, _⟩ => (nomatch he), fun _ _ h => h, rfl⟩
  | none =>
      refine ⟨.of_scopes rfl id rfl rfl rfl rfl, hc, ?_, ?_⟩
      · rintro c h'
        cases h'
        exact h
      · rw [dependencies_recode]
        rfl

section

variable {env' env : Env} {place : Compile.Place} (h : env'.Beside env)

include h

theorem retraces_closure (hsource : env'.source = place.source) {literal : FunctionLiteral}
    (hproper : literal.body.Proper Lexical) (span : Span) :
    Retraces env place (makeClosure literal none env'.source)
      (closure place.source literal span) := by
  rw [hsource]
  refine h.instr (follows_makeCode fun chunk hchunk => ⟨hproper, ?_⟩)
  exact compile_of_toOption hchunk

theorem retraces_statements {turns : Nat} : {nodes : List Node} →
    (∀ node ∈ nodes, Retraces env place (node.eval env' none) (node.plan place turns none)) →
    Retraces env place (evalStatements env' nodes) (planStatements place turns nodes)
  | [], _ => by
      rw [evalStatements, planStatements]
      exact .undefined
  | [node], hnodes => by
      rw [evalStatements, planStatements]
      exact hnodes node List.mem_cons_self
  | node :: next :: rest, hnodes => by
      obtain ⟨hnode, hrest⟩ := List.forall_mem_cons.1 hnodes
      rw [evalStatements_cons, planStatements]
      exact hnode.bind fun _ _ => h.moved (retraces_statements hrest)

omit h in
theorem retraces_all {turns : Nat} {nodes : List Node}
    (hnodes : ∀ node ∈ nodes, Retraces env place (node.eval env' none)
      (node.plan place turns none)) :
    Retraces env place (evalAll env' nodes) (planAll place turns nodes) := by
  induction nodes with
  | nil =>
      rw [evalAll, planAll]
      exact .give (a := ([] : List Value)) fun _ ⟨_, h, _⟩ => nomatch h
  | cons node rest ih =>
      obtain ⟨hnode, hrest⟩ := List.forall_mem_cons.1 hnodes
      rw [evalAll, planAll]
      exact hnode.bind fun v hv => (ih hrest).bind fun vs hvs => .give (hv.cons hvs)

theorem retraces_pairs {turns : Nat} {properties : List Property}
    (hvalues : ∀ property ∈ properties, Retraces env place (property.value.eval env' none)
      (property.value.plan place turns none)) :
    Retraces env place (evalPairs env' properties) (planPairs place turns properties) := by
  induction properties with
  | nil =>
      rw [evalPairs, planPairs]
      exact .give (a := ([] : List (String × Value))) fun _ ⟨_, h, _⟩ => nomatch h
  | cons property rest ih =>
      obtain ⟨hvalue, hrest⟩ := List.forall_mem_cons.1 hvalues
      obtain ⟨name, value⟩ := property
      rw [evalPairs, planPairs]
      exact h.moved (hvalue.bind fun v hv => (ih hrest).bind fun ps hps =>
        .give (a := (name.text, v) :: ps) (hv.field.cons hps))

/-- Evaluating a node goes along with running its plan. -/
theorem Node.Proper.retraces {node : Node} (hnode : node.Proper Lexical)
    (hsource : env'.source = place.source) (naming : Option String) :
    Retraces env place (node.eval env' naming) (node.plan place env'.fuel naming) := by
  induction hnode generalizing naming with
  | @intro node here below ih =>
  have child (child : Node) (naming : Option String)
      (hchild : child ∈ node.children := by simp [Node.children]) :
      Retraces env place (child.eval env' naming) (child.plan place env'.fuel naming) :=
    ih child hchild naming
  cases node with
  | block statements span =>
      rw [Node.eval, Node.plan, h.free, pure_bind]
      cases statements with
      | nil =>
          rw [evalStatements]
          exact h.moved .undefined
      | cons node rest => exact retraces_statements h fun node hnode => child node none hnode
  | assign name value span =>
      rw [Node.eval, Node.plan, h.free, pure_bind]
      exact (child value _).bind fun v hv => (h.instr fun _ =>
        follows_assignLocal (S := uncoded) name.text hv name.span).bind fun _ _ => .give hv
  | assignProperty owner name value span =>
      rw [Node.eval, Node.plan, h.free, pure_bind]
      exact (child owner none).bind fun o ho => (child value none).bind fun v hv =>
        (h.instr fun _ => follows_setProperty (S := uncoded) ho name.text hv name.span).bind
          fun _ _ => .give hv
  | assignIndex base index value span =>
      rw [Node.eval, Node.plan, h.free, pure_bind]
      exact (child base none).bind fun b hb => (child index none).bind fun i hi =>
        (child value none).bind fun v hv => (h.instr fun _ =>
          follows_setIndex (S := uncoded) hb hi hv value.span).bind fun _ _ => .give hv
  | ifThen condition yes span =>
      rw [Node.eval, Node.plan, h.free, pure_bind]
      exact (child condition none).bind fun v _ =>
        h.choice (child yes none) (h.moved .undefined) v span
  | ifElse condition yes no span =>
      rw [Node.eval, Node.plan, h.free, pure_bind]
      exact (child condition none).bind fun v _ =>
        h.choice (child yes none) (child no none) v span
  | conditional condition yes no span =>
      rw [Node.eval, Node.plan, h.free, pure_bind]
      exact (child condition none).bind fun v _ =>
        h.choice (child yes none) (child no none) v span
  | whileLoop condition body span =>
      rw [Node.eval, Node.plan, h.free, pure_bind]
      exact h.looping (child condition none)
        ((child body none).bind fun _ _ => h.moved h.moves) span _
  | doLoop body condition span =>
      rw [Node.eval, Node.plan, h.free, pure_bind]
      exact (child body none).bind fun _ _ => h.moved (h.looping (child condition none)
        (h.moved ((child body none).bind fun _ _ => h.moves)) span _)
  | forLoop init condition step body span =>
      rw [Node.eval, Node.plan, h.free, pure_bind]
      exact (child init none).bind fun _ _ => h.moved (h.looping (child condition none)
        ((child body none).bind fun _ _ => h.moved ((child step none).bind fun _ _ =>
          h.moved h.moves)) span _)
  | useBoard name span =>
      rw [Node.eval, Node.plan, h.free, pure_bind]
      exact (h.instr fun _ => follows_useSession (S := uncoded) name.text span).bind
        fun _ _ => .undefined
  | delete operand span =>
      rw [Node.eval, Node.plan, h.free, pure_bind]
      exact (child operand none).bind fun v hv =>
        h.instr fun _ => follows_deleteValue (S := uncoded) hv span
  | returnNothing span =>
      rw [Node.eval, Node.plan, h.free, pure_bind]
      exact h.moved (h.gaveBack .undefined span)
  | returnValue value span =>
      rw [Node.eval, Node.plan, h.free, pure_bind]
      cases hin : place.inFunction with
      | true =>
          refine .congr ?_ fun m hm => giveBack_within hin _ span hm
          exact (child value none).bind fun v hv => h.gone hin hv span
      | false =>
          refine .congr ?_ fun m hm => giveBack_outside hin _ (pure .undefined) span hm
          exact h.moved (h.gaveBack .undefined span)
  | expression value span =>
      rw [Node.eval, Node.plan, h.free, pure_bind]
      exact child value none
  | function params body literal span =>
      rw [Node.eval, Node.plan, h.free, pure_bind]
      exact retraces_closure h hsource (below body (by simp [Node.children])) span
  | map params body literal span =>
      rw [Node.eval, Node.plan, h.free, pure_bind]
      exact retraces_closure h hsource (below body (by simp [Node.children])) span
  | call callee args span =>
      have hargs : Retraces env place (evalAll env' args) (planAll place env'.fuel args) :=
        retraces_all fun arg harg => child arg none (by simp [Node.children, harg])
      have hcall := h.calling hsource (.call callee args span) callee (child callee none) hargs
        naming span
      rw [Node.eval, Node.plan]
      split
      · rw [h.free, pure_bind]
        exact hcall
      · exact hcall
  | callWith callee args attributes span =>
      have hargs : Retraces env place (evalAll env' args) (planAll place env'.fuel args) :=
        retraces_all fun arg harg => child arg none (by simp [Node.children, harg])
      have hpairs : Retraces env place (evalPairs env' attributes)
          (planPairs place env'.fuel attributes) := retraces_pairs h fun property hp =>
        child property.value none (by simpa [Node.children] using .inr (.inr ⟨property, hp, rfl⟩))
      have hcall := h.callingWith hsource (.callWith callee args attributes span) callee
        (child callee none) hargs hpairs naming span
      rw [Node.eval, Node.plan, evalProperties]
      split
      · rw [h.free, pure_bind]
        exact hcall
      · exact hcall
  | array items span =>
      rw [Node.eval, Node.plan, h.free, pure_bind]
      exact (retraces_all fun item hitem => child item none hitem).bind fun vs hvs =>
        h.instr fun _ => follows_newArray (S := uncoded) hvs
  | object properties span =>
      have hpairs : Retraces env place (evalPairs env' properties)
          (planPairs place env'.fuel properties) := retraces_pairs h fun property hp =>
        child property.value none (by simpa [Node.children] using ⟨property, hp, rfl⟩)
      rw [Node.eval, Node.plan, h.free, pure_bind, evalProperties, bind_assoc]
      refine hpairs.bind fun ps hps => ?_
      rw [pure_bind, Fields.ofPairs_recode]
      exact h.instr fun _ => follows_newObject (S := uncoded) hps.ofPairs
  | index base index span =>
      rw [Node.eval, Node.plan, h.free, pure_bind]
      exact (child base none).bind fun b hb => (child index none).bind fun i hi =>
        h.instr fun _ => follows_getIndex (S := uncoded) hb hi
  | binary operator left right span =>
      have hleft := child left none
      have hright := child right none
      by_cases hand : operator = .and
      · subst hand
        rw [eval_and, Node.plan, h.free, pure_bind]
        refine hleft.bind fun v hv => h.moved ?_
        rw [Value.truthy_recode]
        split
        · exact h.moved hright
        · exact .give hv
      by_cases hor : operator = .or
      · subst hor
        rw [eval_or, Node.plan, h.free, pure_bind]
        refine hleft.bind fun v hv => h.moved (h.moved ?_)
        rw [Value.truthy_recode]
        split
        · exact .give hv
        · exact hright
      · rw [eval_binary hand hor, plan_binary hand hor, h.free, pure_bind]
        exact hleft.bind fun l hl => hright.bind fun r hr =>
          h.instr fun _ => follows_binaryOperation (S := uncoded) operator hl hr span
  | unary operator operand span =>
      rw [Node.eval, Node.plan, h.free, pure_bind]
      exact (child operand none).bind fun v hv =>
        h.instr fun _ => follows_unaryOperation (S := uncoded) operator hv span
  | identifier name span =>
      rw [Node.eval, Node.plan, h.free, pure_bind]
      exact h.instr fun _ => follows_readName name
  | numeral text kind span =>
      rw [Node.eval, Node.plan, h.free, pure_bind]
      exact h.moved (.give (a := Value.number _) fun _ h => by cases h)
  | string value span =>
      rw [Node.eval, Node.plan, h.free, pure_bind]
      exact h.moved (.give (a := Value.string _) fun _ h => by cases h)
  | boolean value span =>
      rw [Node.eval, Node.plan, h.free, pure_bind]
      exact h.moved (.give (a := Value.boolean _) fun _ h => by cases h)
  | coordinate axis operand span =>
      rw [Node.eval, Node.plan, h.free, pure_bind]
      exact (child operand none).bind fun v hv =>
        h.instr fun _ => follows_coordinateOf (S := uncoded) axis hv span
  | property owner name span =>
      rw [Node.eval, Node.plan, h.free, pure_bind]
      exact (child owner none).bind fun o ho =>
        h.instr fun _ => follows_getProperty (S := uncoded) ho name.text name.span

-- ==================================================================== bodies

omit h in
/-- The value of a body is what would be returned at its end. -/
theorem bodyValue_eq (isMap : Bool) (x : Eval Value) : bodyValue isMap x = bodyValue true (do
    let v ← x
    throw (.returned (if isMap then v else .undefined))) := by
  funext m
  show _ = bodyValue true (EStateM.bind x _) m
  unfold bodyValue EStateM.bind
  cases x m with
  | ok v n => rfl
  | error e n => cases e <;> rfl

/-- The body of a function goes along with its plan, run to the end. -/
theorem FunctionLiteral.follows_ending {literal : FunctionLiteral} {source : Source}
    (hproper : literal.body.Proper Lexical) (hsource : env'.source = source) {m₀ : Machine}
    (hin : m₀.scopes.isGlobal = false) :
    uncoded.Follows m₀ (bodyValue literal.isMap (literal.body.eval env' none))
      ((literal.plan source env'.fuel).ending env) := by
  have hbody : Retraces env ⟨source, true⟩ (do
      let v ← literal.body.eval env' none
      throw (.returned (if literal.isMap then v else .undefined)))
      (literal.plan source env'.fuel) := by
    refine (hproper.retraces h hsource none).bind fun v hv => ?_
    cases literal.isMap with
    | true => exact h.gone rfl hv _
    | false => exact h.moved (h.moved (h.gone rfl .undefined _))
  rw [bodyValue_eq, ending]
  exact follows_bodyValue true (hbody m₀ hin)

/-- A script goes along with its plan, run to the end. -/
theorem follows_script {root : Node} {source : Source} (hproper : root.Proper Lexical)
    (hsource : env'.source = source) {m₀ : Machine} (hout : m₀.scopes.isGlobal = true) :
    uncoded.Follows m₀ (bodyValue true (root.eval env' none))
      ((scriptPlan source env'.fuel root).ending env) := by
  have hroot : Retraces env ⟨source, false⟩ (do
      let v ← root.eval env' none
      throw (.returned v)) (scriptPlan source env'.fuel root) :=
    (hproper.retraces h hsource none).bind fun v hv => h.ended hv _ _
  rw [bodyValue_eq, ending]
  exact follows_bodyValue true (hroot m₀ hout)

end

end BoardScript
