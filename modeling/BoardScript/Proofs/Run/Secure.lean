/-
Code that compiling makes is never unreadable. Where the stack matches the
shape in front of an instruction that fits, the instruction finds what it
needs, and the stack matches the shape in front of the next one
(`Frame.sound_step`). A call finds its scope, since a closure keeps it
alive, and its code is made by compiling too (`Closure.WellMade`). So a run
on a machine that holds nothing but such closures goes along with itself
without such an error (`secure_run`).
-/
import BoardScript.Proofs.Code.WellFormed
import BoardScript.Proofs.Program.Grammatical
import BoardScript.Proofs.Program.Progress
import BoardScript.Proofs.Run.Calling
import BoardScript.Proofs.Run.Perform
import BoardScript.Run.Interpreter

namespace BoardScript

open Simulation

-- ================================================================== stacks

/-- A value of which what is known holds. -/
def Slot.Matches : Slot → Value → Prop
  | .any, _ => True
  | .name, v => ∃ text, v = .string text
  | .object, v => ∃ place, v = .object place

/-- A stack of which what is known holds, as high as it says. -/
def Shape.Matches (shape : Shape) (stack : List Value) : Prop :=
  List.Forall₂ Slot.Matches shape stack

namespace Shape.Matches

variable {shape below : Shape} {stack : List Value}

theorem cons {slot : Slot} {v : Value} (hv : slot.Matches v) (h : below.Matches stack) :
    Matches (slot :: below) (v :: stack) :=
  List.Forall₂.cons hv h

theorem any {v : Value} (h : below.Matches stack) : Matches (.any :: below) (v :: stack) :=
  List.Forall₂.cons trivial h

theorem exists_cons {slot : Slot} (h : Matches (slot :: below) stack) :
    ∃ v rest, stack = v :: rest ∧ slot.Matches v ∧ below.Matches rest := by
  cases h with
  | cons hv hrest => exact ⟨_, _, rfl, hv, hrest⟩

/-- Values on top, the last of them topmost. -/
theorem exists_values {count : Nat} (h : Matches (values count below) stack) :
    ∃ args rest : List Value, stack = args.reverse ++ rest ∧ count = args.length ∧
      below.Matches rest := by
  induction count generalizing stack with
  | zero => exact ⟨[], stack, rfl, rfl, h⟩
  | succ count ih =>
      obtain ⟨v, stack, rfl, -, hvalues⟩ := exists_cons h
      obtain ⟨args, rest, rfl, rfl, hrest⟩ := ih hvalues
      exact ⟨args ++ [v], rest, by simp, by simp, hrest⟩

/-- Names and values on top, the last of them topmost. -/
theorem exists_pairs {count : Nat} (h : Matches (pairs count below) stack) :
    ∃ fields rest, stack = (Frame.laid fields).reverse ++ rest ∧ count = fields.length ∧
      below.Matches rest := by
  induction count generalizing stack with
  | zero => exact ⟨[], stack, rfl, rfl, h⟩
  | succ count ih =>
      obtain ⟨v, stack, rfl, -, hname⟩ := exists_cons h
      obtain ⟨_, stack, rfl, ⟨name, rfl⟩, hpairs⟩ := exists_cons hname
      obtain ⟨fields, rest, rfl, rfl, hrest⟩ := ih hpairs
      exact ⟨fields ++ [(name, v)], rest, by simp, by simp, hrest⟩

end Shape.Matches

/-- What a step leads to is at an instruction, with a stack that matches
the shape there. -/
def Progress.Fits (shapes : Nat → Option Shape) : Progress → Prop
  | .next frame => ∃ shape, shapes frame.ip = some shape ∧ shape.Matches frame.stack
  | .done _ => True

-- =============================================================== sound ends

/-- Failing for code that cannot be read. -/
def RuntimeError.Unreadable (error : RuntimeError) : Prop :=
  ∃ cause, error = .compile (.malformed cause)

section

variable {α β : Type}

/-- An end with a value that has a property, or with an error other than
for code that cannot be read. -/
def Sound (P : α → Prop) : EStateM.Result Unwind Machine α → Prop
  | .ok a _ => P a
  | .error e _ => ∀ error, e = .failed error → ¬error.Unreadable

namespace Sound

variable {P : α → Prop} {Q : β → Prop}

theorem bind {x : Eval α} {k : α → Eval β} {m : Machine} (hx : Sound P (x m))
    (hk : ∀ a n, x m = .ok a n → P a → Sound Q (k a n)) : Sound Q ((x >>= k) m) := by
  show Sound Q (EStateM.bind x k m)
  unfold EStateM.bind
  cases hr : x m with
  | ok a n =>
      rw [hr] at hx
      exact hk a n hr hx
  | error e n =>
      rw [hr] at hx
      exact hx

theorem of_steady {x : Eval α} (hx : Steady x) (m : Machine) : Sound (fun _ => True) (x m) := by
  have hordinary := (hx m).2
  cases hr : x m with
  | ok a n => trivial
  | error e n =>
      rw [hr] at hordinary
      rintro error rfl ⟨cause, rfl⟩
      exact hordinary

/-- Whatever a steady action gives is handed on. -/
theorem steady_bind {x : Eval α} {k : α → Eval β} (hx : Steady x) (m : Machine)
    (hk : ∀ a n, Sound Q (k a n)) : Sound Q ((x >>= k) m) :=
  (of_steady hx m).bind fun a n _ _ => hk a n

end Sound

end

-- ============================================================ secure runs

/-- A closure whose code, if it has any, is that of its literal. -/
def Closure.WellMade (c : Closure) : Prop :=
  ∀ chunk, c.compiled = some chunk →
    c.literal.Proper .anything ∧ c.literal.compile c.source = .ok chunk

/-- A run beside itself, on machines whose current scope is there, with
closures that are well made and keep their scope alive. -/
def Simulation.made (Bad : RuntimeError → Prop)
    (hbad : ∀ {f : Fault} {span : Span}, Bad (.fault f span) → f.isOverflow = true) :
    Simulation where
  code := .identity
  Inv m := m.scopes.contains m.scopes.current = true
  Keeps scopes c := c.scope < scopes ∧ c.WellMade
  Skip _ := False
  Bad := Bad
  inv_later h hi := by
    rw [Scopes.contains, h.current]
    exact decide_eq_true (Nat.lt_of_lt_of_le (of_decide_eq_true hi) h.table)
  keeps_mono hle h := ⟨Nat.lt_of_lt_of_le h.1 hle, h.2⟩
  skip_returned _ := id
  bad_fault := hbad

/-- Code that cannot be read is not ruled out. -/
def Simulation.lenient : Simulation := .made (fun _ => False) Fault.isOverflow_of_false

/-- Code that cannot be read is ruled out. -/
def Simulation.secure : Simulation := .made RuntimeError.Unreadable fun ⟨_, h⟩ => nomatch h

section

variable {α : Type} [Recodable α] {m m₀ : Machine}

theorem recode_secure [LawfulRecodable α] (x : α) : recode secure.code x = x := recode_identity x

/-- What goes along securely goes along. -/
theorem Simulation.Ends.lenient {r' r : EStateM.Result Unwind Machine α}
    (h : secure.Ends m r' r) : lenient.Ends m r' r := by
  cases r with
  | ok a n => exact h
  | error e n =>
      exact h.imp_right fun ⟨hn, hcn, hce, _, hr⟩ => ⟨hn, hcn, hce, fun _ _ => id, hr⟩

theorem Simulation.Follows.lenient {x' x : Eval α} (h : secure.Follows m₀ x' x) :
    lenient.Follows m₀ x' x :=
  fun m hm hi hc => (h m hm hi hc).lenient

theorem Simulation.Ends.sound {r' r : EStateM.Result Unwind Machine α} (h : secure.Ends m r' r) :
    Sound (fun _ => True) r := by
  cases r with
  | ok a n => trivial
  | error e n =>
      obtain ⟨-, -, -, hbad, -⟩ := h.resolve_left id
      exact hbad

/-- What goes along and has a sound end goes along securely. -/
theorem Simulation.Ends.secure {r' r : EStateM.Result Unwind Machine α}
    (h : Simulation.lenient.Ends m r' r) {P : α → Prop} (hs : Sound P r) :
    Simulation.secure.Ends m r' r := by
  cases r with
  | ok a n => exact h
  | error e n => exact h.imp_right fun ⟨hn, hcn, hce, _, hr⟩ => ⟨hn, hcn, hce, hs, hr⟩

/-- Making a closure that is well made. -/
theorem follows_makeClosure {literal : FunctionLiteral} {compiled : Option Chunk} {source : Source}
    (h : ∀ chunk, compiled = some chunk →
      literal.Proper .anything ∧ literal.compile source = .ok chunk) (m₀ : Machine) :
    secure.Follows m₀ (makeClosure literal compiled source) (makeClosure literal compiled source) := by
  intro m _ hi hc
  rw [recode_secure, makeClosure_eq]
  cases literal.notFormula with
  | some node =>
      refine .inr ⟨.refl m, hc, fun c ⟨_, he, _⟩ => (nomatch he), ?_, by rw [recode_secure m]; rfl⟩
      rintro error he ⟨cause, rfl⟩
      cases he
  | none =>
      refine ⟨.of_scopes rfl id rfl rfl rfl rfl, hc, ?_, by rw [recode_secure, recode_secure]⟩
      rintro c hv
      cases hv
      exact ⟨of_decide_eq_true hi, h⟩

end

namespace Frame

variable {env' env : Env} {chunk : Chunk} {shapes : Nat → Option Shape} {m : Machine}

/-- An instruction that leaves a value whose next place is known. -/
theorem sound_push {x : Eval Value} (hx : Steady x) {ip : Nat} {stack : List Value} {shape : Shape}
    (hip : shapes ip = some (.any :: shape)) (hstack : shape.Matches stack) :
    Sound (Progress.Fits shapes) ((do
      let value ← x
      return Progress.next ⟨ip, value :: stack⟩ : Eval Progress) m) :=
  .steady_bind hx m fun _ _ => ⟨_, hip, .any hstack⟩

/-- A call instruction, given that closures are called securely. -/
theorem sound_call (henv : env'.Follows secure false env) (hi : secure.Inv m)
    (hc : secure.Clean m m) {v : Value} {values stack : List Value} {attributes : Option Fields}
    {site : CallSite} (hv : secure.Clean m v) (hvs : secure.Clean m values)
    (ha : secure.Clean m attributes) {ip : Nat} {shape : Shape}
    (hip : shapes ip = some (.any :: shape)) (hstack : shape.Matches stack) :
    Sound (Progress.Fits shapes) ((do
      let value ← callValue env.call v values attributes site
      return Progress.next ⟨ip, value :: stack⟩ : Eval Progress) m) := by
  have hends := follows_callValue hv hvs ha (fun c hfine => henv.call m c values site hfine hvs)
    m (.refl m) hi hc
  exact hends.sound.bind fun _ _ _ _ => ⟨_, hip, .any hstack⟩

/-- An instruction that fits does what it says. -/
theorem sound_perform (henv : env'.Follows secure false env) (hi : secure.Inv m)
    (hc : secure.Clean m m) {ip : Nat} {op : OpCode} {args : List UInt8} {span : Span}
    {shape : Shape} {stack : List Value} (h : chunk.Instruction ip op args span)
    (hfits : Step.Fits chunk.constants shapes (ip + 1 + args.length) op args shape)
    (hs : shape.Matches stack) (hclean : secure.Clean m stack) :
    Sound (Progress.Fits shapes) (perform env chunk span (ip + 1) stack op m) := by
  cases hfits with
  | number x hconst hip => exact perform_number h hconst ▸ ⟨_, hip, .any hs⟩
  | text hconst hip =>
      obtain ⟨text, hconst⟩ := hconst
      exact perform_text h hconst ▸ ⟨_, hip, .any hs⟩
  | key hconst hip =>
      obtain ⟨text, hconst⟩ := hconst
      exact perform_text h hconst ▸ ⟨_, hip, .cons ⟨text, rfl⟩ hs⟩
  | undefined hip => exact ⟨_, hip, .any hs⟩
  | yes hip => exact ⟨_, hip, .any hs⟩
  | no hip => exact ⟨_, hip, .any hs⟩
  | pop hip =>
      obtain ⟨v, stack, rfl, -, hs⟩ := hs.exists_cons
      exact ⟨_, hip, hs⟩
  | getName hconst hip =>
      obtain ⟨name, hconst⟩ := hconst
      rw [perform_getName h hconst]
      exact sound_push (steady_readName name) hip hs
  | getCallee hconst hip =>
      obtain ⟨name, hconst⟩ := hconst
      rw [perform_getCallee h hconst]
      exact sound_push (steady_readCallee name span) hip hs
  | useBoard hconst hip =>
      obtain ⟨name, hconst⟩ := hconst
      rw [perform_useBoard h hconst]
      exact .steady_bind (steady_useSession name span) m fun _ _ => ⟨_, hip, .any hs⟩
  | setLocal hconst hip =>
      obtain ⟨name, hconst⟩ := hconst
      obtain ⟨v, stack, rfl, -, hs⟩ := hs.exists_cons
      rw [perform_setLocal h hconst]
      exact .steady_bind (steady_assignLocal name v span) m fun _ _ => ⟨_, hip, .any hs⟩
  | getProperty hconst hip =>
      obtain ⟨name, hconst⟩ := hconst
      obtain ⟨v, stack, rfl, -, hs⟩ := hs.exists_cons
      rw [perform_getProperty h hconst]
      exact sound_push (steady_getProperty v name span) hip hs
  | setProperty hconst hip =>
      obtain ⟨name, hconst⟩ := hconst
      obtain ⟨v, stack, rfl, -, hs⟩ := hs.exists_cons
      obtain ⟨w, stack, rfl, -, hs⟩ := hs.exists_cons
      rw [perform_setProperty h hconst]
      exact .steady_bind (steady_setProperty w name v span) m fun _ _ => ⟨_, hip, .any hs⟩
  | getIndex hip =>
      obtain ⟨v, stack, rfl, -, hs⟩ := hs.exists_cons
      obtain ⟨w, stack, rfl, -, hs⟩ := hs.exists_cons
      exact sound_push (steady_getIndex w v) hip hs
  | setIndex hip =>
      obtain ⟨v, stack, rfl, -, hs⟩ := hs.exists_cons
      obtain ⟨w, stack, rfl, -, hs⟩ := hs.exists_cons
      obtain ⟨u, stack, rfl, -, hs⟩ := hs.exists_cons
      exact .steady_bind (steady_setIndex u w v span) m fun _ _ => ⟨_, hip, .any hs⟩
  | coordinate axis hb hip =>
      obtain ⟨v, stack, rfl, -, hs⟩ := hs.exists_cons
      rw [perform_coordinate h hb]
      exact sound_push (steady_coordinateOf axis v span) hip hs
  | binary operator hb hip =>
      obtain ⟨v, stack, rfl, -, hs⟩ := hs.exists_cons
      obtain ⟨w, stack, rfl, -, hs⟩ := hs.exists_cons
      rw [perform_binary h hb]
      exact sound_push (steady_binaryOperation operator w v span) hip hs
  | negate hip =>
      obtain ⟨v, stack, rfl, -, hs⟩ := hs.exists_cons
      exact sound_push (steady_unaryOperation .negate v span) hip hs
  | not hip =>
      obtain ⟨v, stack, rfl, -, hs⟩ := hs.exists_cons
      exact sound_push (steady_unaryOperation .not v span) hip hs
  | delete hip =>
      obtain ⟨v, stack, rfl, -, hs⟩ := hs.exists_cons
      exact sound_push (steady_deleteValue v span) hip hs
  | jump hip => exact perform_jump h ▸ ⟨_, hip, hs⟩
  | jumpIfFalse hip hjump =>
      obtain ⟨v, stack, rfl, hv, hs⟩ := hs.exists_cons
      rw [perform_jumpIfFalse h]
      split
      · exact ⟨_, hip, .any hs⟩
      · exact ⟨_, hjump, .any hs⟩
  | loop hback hip => exact perform_loop h hback ▸ ⟨_, hip, hs⟩
  | array hip =>
      obtain ⟨values, stack, rfl, hcount, hs⟩ := hs.exists_values
      rw [perform_array h hcount]
      exact sound_push (steady_allocate _) hip hs
  | object hip =>
      obtain ⟨fields, stack, rfl, hcount, hs⟩ := hs.exists_pairs
      rw [perform_object h hcount]
      exact sound_push (steady_allocate _) hip hs
  | attributes hip =>
      obtain ⟨fields, stack, rfl, hcount, hs⟩ := hs.exists_pairs
      rw [perform_object h hcount]
      exact ⟨_, hip, .cons ⟨_, rfl⟩ hs⟩
  | closure literal body hconst hip =>
      rw [perform_closure h hconst]
      exact sound_push (steady_makeClosure literal (some body) env.source) hip hs
  | call hconst hip =>
      obtain ⟨text, hconst⟩ := hconst
      obtain ⟨values, stack, rfl, hcount, hs⟩ := hs.exists_values
      obtain ⟨v, stack, rfl, -, hs⟩ := hs.exists_cons
      rw [perform_call h hconst hcount]
      exact sound_call henv hi hc (fun c hv => hclean c ⟨v, by simp, hv⟩)
        (hclean.subset (by simp +contextual)) clean_none hip hs
  | callNamed hconst hname hip =>
      obtain ⟨text, hconst⟩ := hconst
      obtain ⟨name, hname⟩ := hname
      obtain ⟨values, stack, rfl, hcount, hs⟩ := hs.exists_values
      obtain ⟨v, stack, rfl, -, hs⟩ := hs.exists_cons
      rw [perform_callNamed h hconst hname hcount]
      exact sound_call henv hi hc (fun c hv => hclean c ⟨v, by simp, hv⟩)
        (hclean.subset (by simp +contextual)) clean_none hip hs
  | callWithAttributes hconst hip =>
      obtain ⟨text, hconst⟩ := hconst
      obtain ⟨_, stack, rfl, ⟨fields, rfl⟩, hvalues⟩ := hs.exists_cons
      obtain ⟨values, stack, rfl, hcount, hs⟩ := hvalues.exists_values
      obtain ⟨v, stack, rfl, -, hs⟩ := hs.exists_cons
      rw [perform_callWithAttributes h hconst hcount]
      exact sound_call henv hi hc (fun c hv => hclean c ⟨v, by simp, hv⟩)
        (hclean.subset (by simp +contextual)) (clean_fields hc fields).some hip hs
  | giveBack =>
      obtain ⟨v, stack, rfl, -, hs⟩ := hs.exists_cons
      show Sound _ ((if m.scopes.isGlobal then fault .unexpectedReturn span
        else pure (Progress.done v) : Eval Progress) m)
      split
      · exact fun error he ⟨cause, hcause⟩ => by cases he; cases hcause
      · trivial
  | stop => trivial

/-- One instruction: it can be read, finds what it needs, and leads to
another one with a stack of the shape there. -/
theorem sound_step (henv : env'.Follows secure false env) (hshapes : chunk.Shapes shapes)
    {frame : Frame} (hi : secure.Inv m) (hc : secure.Clean m m)
    (hframe : (Progress.next frame).Fits shapes) (hclean : secure.Clean m frame.stack) :
    Sound (Progress.Fits shapes) (step env chunk frame m) := by
  obtain ⟨shape, hshape, hs⟩ := hframe
  obtain ⟨op, args, span, hinstr, hfits⟩ := hshapes.fits frame.ip shape hshape
  rw [step_eq hinstr]
  have hask := henv.ask m span m (.refl m) hi hc
  refine hask.sound.bind fun _ n hn _ => ?_
  rw [hn] at hask
  obtain ⟨hlater, hcn, -, -⟩ := hask
  exact sound_perform henv (secure.inv_later hlater hi) hcn hinstr hfits hs (hclean.later hlater)

/-- What code goes along with securely if its closures do. -/
theorem follows_lenient (henv : env'.Follows secure false env) (h : chunk.Made env.source) :
    chunk.Follows lenient env' env where
  around := {
    fuel := henv.fuel
    source := henv.source
    call := fun m₀ c args site hfine hargs => (henv.call m₀ c args site hfine hargs).lenient
    ask := fun m₀ span => (henv.ask m₀ span).lenient
    free := fun h => nomatch h
    make := fun m₀ literal => (henv.make m₀ literal).lenient }
  still := Recoding.plain_identity.toStill
  malformed := fun _ => id
  make m₀ literal body hmem := by
    rw [show env'.source = env.source from henv.source]
    refine (follows_makeClosure (fun chunk hchunk => ?_) m₀).lenient
    cases hchunk
    exact h.constants _ hmem

/-- Any number of instructions. -/
theorem sound_exec (henv : env'.Follows secure false env) (h : chunk.Made env.source)
    (hshapes : chunk.Shapes shapes) (fuel : Nat) {frame : Frame} (hi : secure.Inv m)
    (hc : secure.Clean m m) (hframe : (Progress.next frame).Fits shapes)
    (hclean : secure.Clean m frame.stack) :
    Sound (fun _ => True) (exec env chunk fuel frame m) := by
  induction fuel generalizing frame m with
  | zero => exact fun _ he => nomatch he
  | succ fuel ih =>
      rw [exec]
      have hstep := follows_step (follows_lenient henv h) frame hclean m (.refl m) hi hc
      refine (sound_step henv hshapes hi hc hframe hclean).bind fun progress n hn hfits => ?_
      rw [hn] at hstep
      obtain ⟨hlater, hcn, hclean', -⟩ := hstep
      cases progress with
      | next frame => exact ih (secure.inv_later hlater hi) hcn hfits hclean'
      | done value => trivial

end Frame

/-- A chunk that compiling made runs securely. -/
theorem secure_run {env' env : Env} (henv : env'.Follows secure false env) {chunk : Chunk}
    (h : chunk.Made env.source) (m₀ : Machine) :
    secure.Follows m₀ (chunk.run env') (chunk.run env) := by
  intro m hm hi hc
  obtain ⟨shapes, hshapes⟩ := h.wellFormed.shapes
  have hends := Chunk.follows_run (Frame.follows_lenient henv h) m₀ m hm hi hc
  exact hends.secure (Frame.sound_exec henv h hshapes env.fuel hi hc ⟨[], hshapes.start, .nil⟩
    clean_nil)

/-- The environment of secure runs. -/
theorem secure_environment {fuel : Nat} {call' call : Caller} {source : Source}
    (hcall : ∀ m₀ c args site, secure.Fine m₀ c → secure.Clean m₀ args →
      secure.Follows m₀ (call' c args site) (call c args site)) :
    (Env.mk fuel call' checkCancelled source).Follows secure false
      ⟨fuel, call, checkCancelled, source⟩ where
  fuel := rfl
  source := rfl
  call m₀ c args site hfine hargs := by
    rw [recode_secure]
    exact hcall m₀ c args site hfine hargs
  ask m₀ span := .of_natural (natural_checkCancelled (fun _ => rfl) span)
    (fun _ _ => natural_checkCancelled (fun _ => rfl) span) (steady_checkCancelled span)
  free h := nomatch h
  make m₀ literal := by
    rw [literalRecast_self (show ∀ span, secure.code.span span = span from fun _ => rfl)]
    exact follows_makeClosure (fun _ h => by cases h) m₀

/-- Closures are called securely. -/
theorem secure_calls (fuel : Nat) : secure.Calls .standard .standard fuel where
  scope _ := rfl
  params _ := rfl
  enter m c args _ _ _ := by
    show decide (m.scopes.table.size < (m.scopes.table.push _).size) = true
    rw [Array.size_push]
    exact decide_eq_true (Nat.lt_succ_self _)
  refuse m site _ hc _ := by
    rw [recode_secure m]
    refine .inr ⟨.refl m, hc, fun c ⟨_, he, _⟩ => (nomatch he), ?_, by rw [recode_secure m]; rfl⟩
    rintro error he ⟨cause, rfl⟩
    cases he
  unknown m c hfine hunknown := by
    rw [Scopes.contains, decide_eq_false_iff_not] at hunknown
    exact absurd hfine.1 hunknown
  body {call' call} hcall m₀ c hfine := by
    have henv : (Env.mk fuel call' checkCancelled c.source).Follows secure false
        ⟨fuel, call, checkCancelled, c.source⟩ := secure_environment fun m₀ c args site hf ha => by
      have h := hcall m₀ c args site hf ha
      rwa [recode_secure] at h
    show secure.Follows m₀ (c.body _) (c.body _)
    unfold Closure.body
    cases hcompiled : c.compiled with
    | some chunk =>
        obtain ⟨hproper, hchunk⟩ := hfine.2 chunk hcompiled
        exact secure_run henv (made_of_compile hproper hchunk) m₀
    | none =>
        have htree := Node.follows henv c.literal.body none m₀
        rw [recast_self (show ∀ span, secure.code.span span = span from fun _ => rfl)] at htree
        exact follows_bodyValue _ htree

/-- A machine whose current scope is there, and whose closures are well made
and keep their scopes alive. -/
structure Machine.WellMade (m : Machine) : Prop where
  current : m.scopes.contains m.scopes.current = true
  closures : ∀ c, Holds m c → m.scopes.contains c.scope = true ∧ c.WellMade

/-- Compiled code is well formed. Of a program that the parser returned, the
chunk and every chunk reached from it falls into instructions, each with a
span, that fit one assignment of shapes to the stack; it can be listed, and
running it on any machine never fails for code that cannot be read. -/
theorem compileScript_wellFormed {options : ParseOptions} {source : Source} {root : Node}
    {chunk inner : Chunk} (hparse : (parse options source).program = some root)
    (hchunk : compileScript source root = .ok chunk) (hinner : chunk.Reaches inner) :
    inner.WellFormed ∧ (∀ paint, ∃ text, inner.listing paint = .ok text) ∧
      ∀ (m : Machine) (turns : Nat), m.WellMade → ∀ error n,
        inner.run (m.environment .standard turns source) m = .error (.failed error) n →
          ¬error.Unreadable := by
  have hroot : root.Proper .anything := ((parse_good options source).program root hparse).2
  have hmade := (made_of_compileScript hroot hchunk).reaches hinner
  refine ⟨hmade.wellFormed, fun paint => listing_of_reaches paint inner fun further hr =>
    (hmade.reaches hr).wellFormed, fun m turns hm error n hrun => ?_⟩
  have henv : (m.environment .standard turns source).Follows secure false
      (m.environment .standard turns source) := secure_environment fun m₀ c args site hf ha => by
    have h := follows_callClosure (secure_calls turns) (m.options.maxCallDepth + 1) m₀ c args site
      hf ha
    rwa [recode_secure] at h
  have hclean : secure.Clean m m := fun c hc =>
    ⟨of_decide_eq_true (hm.closures c hc).1, (hm.closures c hc).2⟩
  have hends := secure_run henv hmade m m (.refl m) hm.current hclean
  rw [hrun] at hends
  exact hends.sound error rfl

/-- The code of a loop with a branch and a function in it, and the code of
that function. -/
theorem compileScript_wellFormed_logOnce :
    ∃ chunk literal inner, compileScript (.ofText logOnceText) .logOnce = .ok chunk ∧
      .function literal inner ∈ chunk.constants ∧ chunk.WellFormed ∧ inner.WellFormed ∧
      ∀ error n, chunk.run (Machine.withBuiltins.environment .standard 99 (.ofText logOnceText))
        .withBuiltins = .error (.failed error) n → ¬error.Unreadable := by
  have hmachine : Machine.withBuiltins.WellMade :=
    ⟨rfl, fun c hc => by simp [Machine.withBuiltins, Holds, Scopes.start] at hc⟩
  have hparse := congrArg Parsed.program (parse_logOnce {})
  obtain ⟨chunk, literal, inner, hchunk, hinner⟩ : ∃ chunk literal inner,
      compileScript (.ofText logOnceText) .logOnce = .ok chunk ∧
        .function literal inner ∈ chunk.constants :=
    ⟨_, _, _, rfl, List.mem_cons_self⟩
  obtain ⟨hwell, -, hrun⟩ := compileScript_wellFormed hparse hchunk (.refl _)
  exact ⟨chunk, literal, inner, hchunk, hinner, hwell,
    (compileScript_wellFormed hparse hchunk (.step hinner (.refl _))).1, hrun _ 99 hmachine⟩

end BoardScript
