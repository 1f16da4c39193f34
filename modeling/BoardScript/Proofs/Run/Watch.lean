/-
What is to hold while evaluation goes on: which closures there may be, what
is known of the nodes that are evaluated, and what holds of machines by what
was made until then, which only creators add to (`Watch`). Two actions that do
the same where all this holds, and keep to it with what they make, agree
(`Agrees`).

Closures that have code must have that of their literal (`Closure.Coded`), so
that what the code does is known: it runs the plan of the literal.
-/
import BoardScript.Proofs.Program.Spanned
import BoardScript.Proofs.Run.Keep
import BoardScript.Proofs.Run.Makes

namespace BoardScript

/-- A closure whose code, if it has any, is made of its literal. -/
def Closure.Coded (c : Closure) : Prop :=
  ∀ chunk, c.compiled = some chunk →
    c.literal.body.Proper Lexical ∧ c.literal.compile c.source = .ok chunk

theorem compile_of_toOption {source : Source} {literal : FunctionLiteral} {chunk : Chunk}
    (h : (literal.compile source).toOption = some chunk) : literal.compile source = .ok chunk := by
  cases hcompiled : literal.compile source with
  | error cause =>
      rw [hcompiled] at h
      cases h
  | ok made =>
      rw [hcompiled] at h
      cases h
      rfl

-- ==================================================================== watches

/-- What is to hold while evaluation goes on. -/
structure Watch where
  /-- the closures that there may be -/
  Fine : Closure → Prop
  /-- the nodes that may be evaluated, of which text -/
  Code : Source → Node → Prop
  /-- what holds of machines, by what was made until then -/
  Inv : List Creation → Machine → Prop
  coded : ∀ {c : Closure}, Fine c → c.Coded
  body : ∀ {c : Closure}, Fine c → Code c.source c.literal.body
  below : ∀ {source : Source} {node child : Node}, Code source node → child ∈ node.children →
    Code source child
  make : ∀ {literal : FunctionLiteral} {compiled : Option Chunk} {source : Source},
    Code source literal.body → (∀ chunk, compiled = some chunk →
      literal.body.Proper Lexical ∧ literal.compile source = .ok chunk) →
    ∀ identity scope dependencies, Fine ⟨identity, literal, scope, dependencies, compiled, source⟩
  quiet : ∀ {past : List Creation} {m n : Machine}, m.Quiet n → Inv past m → Inv past n
  create : ∀ {source : Source} {node : Node}, Code source node → node.IsCall →
    ∀ (creator : Creator) parents attributes callee naming {past : List Creation} {m : Machine},
      Inv past m →
        let ended := invokeCreator creator parents attributes ⟨node.span, callee, naming, source⟩ m
        Inv (past ++ madeBy source node ended) (after ended)

/-- Where a call stands that may be made, by its node. -/
structure Watch.Site (W : Watch) (node : Node) (site : CallSite) : Prop where
  code : W.Code site.source node
  call : node.IsCall
  span : site.span = node.span

/-- What code is made of its literal, and nothing else. -/
def Watch.made : Watch where
  Fine := Closure.Coded
  Code _ _ := True
  Inv _ _ := True
  coded h := h
  body _ := trivial
  below _ _ := trivial
  make _ h _ _ _ := h
  quiet _ _ := trivial
  create _ _ _ _ _ _ _ _ _ _ := trivial

variable {W : Watch}

/-- Parts of what may be evaluated may be. -/
theorem Watch.Code.child {source : Source} {node child : Node} (h : W.Code source node)
    (hchild : child ∈ node.children := by simp [Node.children]) : W.Code source child :=
  W.below h hchild

theorem Watch.Site.create {node : Node} {site : CallSite} (h : W.Site node site) (creator : Creator)
    (parents : List Value) (attributes : Option Fields) {past : List Creation} {m : Machine}
    (hm : W.Inv past m) :
    W.Inv (past ++ madeBy site.source node (invokeCreator creator parents attributes site m))
      (after (invokeCreator creator parents attributes site m)) := by
  obtain ⟨hcode, hcall, hspan⟩ := h
  obtain ⟨span, callee, naming, source⟩ := site
  subst hspan
  exact W.create hcode hcall creator parents attributes callee naming hm

-- =================================================================== agreement

section

variable {α β : Type} {Q : α → Prop} {R : β → Prop}

/-- Actions that do the same on watched machines of stored values, and keep
to them with what they make. -/
def Agrees (W : Watch) (Q : α → Prop) (x' x : Eval α) (made : Makings) : Prop :=
  ∀ (past : List Creation) (m : Machine), m.Stores (Value.Stored W.Fine) → W.Inv past m →
    x' m = x m ∧ Kept W.Fine Q (x m) ∧ W.Inv (past ++ made m) (after (x m))

/-- An action that makes nothing. -/
theorem Keeps.agrees {x : Eval α} (h : Keeps W.Fine Q x) : Agrees W Q x x .nothing :=
  fun past m hm hi =>
    ⟨rfl, (h m hm).1, (List.append_nil past).symm ▸ W.quiet (h m hm).2 hi⟩

namespace Agrees

variable {made : Makings} {x' x : Eval α} {k' k : α → Eval β}

theorem pure {a : α} (ha : Q a) : Agrees W Q (Pure.pure a) (Pure.pure a) .nothing :=
  (Keeps.pure ha).agrees

theorem bind {next : α → Makings} (hx : Agrees W Q x' x made)
    (hk : ∀ a, Q a → Agrees W R (k' a) (k a) (next a)) :
    Agrees W R (x' >>= k') (x >>= k) (made.andThen x next) := by
  intro past m hm hi
  obtain ⟨hsame, hfirst, hinv⟩ := hx past m hm hi
  show EStateM.bind x' k' m = EStateM.bind x k m ∧ Kept W.Fine R (EStateM.bind x k m) ∧
    W.Inv _ (after (EStateM.bind x k m))
  unfold EStateM.bind Makings.andThen Makings.sequel
  rw [hsame, ← List.append_assoc]
  cases hr : x m with
  | ok a n =>
      rw [hr] at hfirst hinv
      exact hk a hfirst.2 _ n hfirst.1 hinv
  | error e n =>
      rw [hr] at hfirst hinv
      exact ⟨rfl, hfirst, (List.append_nil _).symm ▸ hinv⟩

/-- What comes behind an action that makes nothing. -/
theorem behind {next : α → Makings} (hx : Agrees W Q x' x .nothing)
    (hk : ∀ a, Q a → Agrees W R (k' a) (k a) (next a)) :
    Agrees W R (x' >>= k') (x >>= k) (.sequel x next) :=
  hx.bind hk

/-- An action behind which nothing is made. -/
theorem followed (hx : Agrees W Q x' x made) (hk : ∀ a, Q a → Agrees W R (k' a) (k a) .nothing) :
    Agrees W R (x' >>= k') (x >>= k) made :=
  made.andThen_nothing x ▸ hx.bind hk

theorem reading {k' k : Machine → Eval β} (next : Machine → Makings)
    (hk : ∀ m : Machine, m.Stores (Value.Stored W.Fine) → Agrees W R (k' m) (k m) (next m)) :
    Agrees W R (MonadState.get >>= k') (MonadState.get >>= k) fun m => next m m :=
  fun past m hm hi => hk m hm past m hm hi

theorem mono {Q' : α → Prop} (h : Agrees W Q x' x made) (hQ : ∀ a, Q a → Q' a) :
    Agrees W Q' x' x made :=
  fun past m hm hi =>
    have hends := h past m hm hi
    ⟨hends.1, hends.2.1.mono hQ, hends.2.2⟩

end Agrees

end

/-- Calling a value with stored values, if closures are called along with
each other. -/
theorem agrees_callValue {call' call : Caller} {calls : CallMakings} {node : Node} {callee : Value}
    {args : List Value} {attributes : Option Fields} {site : CallSite}
    (hcallee : callee.Callee W.Fine) (hargs : ∀ v ∈ args, v.Stored W.Fine)
    (hattributes : ∀ fields, attributes = some fields → ∀ p ∈ fields, p.2.Stored W.Fine)
    (hsite : ∀ creator, callee = .creator creator → W.Site node site)
    (hcall : ∀ c, W.Fine c →
      Agrees W (Value.Stored W.Fine) (call' c args site) (call c args site) (calls c args site)) :
    Agrees W (Value.Stored W.Fine) (callValue call' callee args attributes site)
      (callValue call callee args attributes site) (callMakes calls node callee args attributes site) := by
  cases callee with
  | creator creator =>
      exact fun past m hm hi => ⟨rfl, kept_invokeCreator creator args hattributes site hm,
        (hsite creator rfl).create creator args attributes hi⟩
  | closure c =>
      cases attributes with
      | some fields => exact (Keeps.fault _ _).agrees
      | none => exact hcall c (hcallee c rfl)
  | builtin b =>
      cases attributes with
      | some fields => exact (Keeps.fault _ _).agrees
      | none => exact (keeps_builtin b hargs site.span).agrees
  | math function =>
      cases attributes with
      | some fields => exact (Keeps.fault _ _).agrees
      | none => exact ((keeps_numbers _ _ args).bind fun _ _ => Keeps.pure trivial).agrees
  | method receiver name =>
      cases attributes with
      | some fields => exact (Keeps.fault _ _).agrees
      | none => exact (keeps_callMethod receiver name args site.span).agrees
  | _ => cases attributes <;> exact (Keeps.fault _ _).agrees

end BoardScript
