/-
Running code follows running the same code, if the environments go along
with each other and no place is moved. One instruction is followed by one
instruction (`Frame.follows_step`), and so a whole chunk by the chunk
(`Chunk.follows_run`). The code may be any code: what cannot be read is
the same error on both sides.
-/
import BoardScript.Proofs.Run.Walk
import BoardScript.Run.Stack

namespace BoardScript

open Simulation

namespace Frame

instance : Recodable Frame where
  recode g frame := ⟨frame.ip, recode g frame.stack⟩
  Holds frame := Holds frame.stack

end Frame

instance : Recodable Progress where
  recode g
    | .next frame => .next (recode g frame)
    | .done value => .done (recode g value)
  Holds
    | .next frame => Holds frame
    | .done value => Holds value

/-- How code is run along with itself: nothing is moved, code that cannot
be read is an error like others, and the closures made are fine. -/
structure Chunk.Follows (S : Simulation) (env' env : Env) (chunk : Chunk) : Prop where
  around : env'.Follows S false env
  still : S.code.Still
  malformed : ∀ cause, ¬S.Bad (.compile (.malformed cause))
  make : ∀ m₀ literal body, .function literal body ∈ chunk.constants →
    S.Follows m₀ (makeClosure literal (some body) env'.source)
      (makeClosure literal (some body) env.source)

/-- What was read is one of the constants. -/
theorem Chunk.mem_of_readConstant {chunk : Chunk} {offset next : Nat} {c : Constant}
    (h : chunk.readConstant offset = .ok (next, c)) : c ∈ chunk.constants := by
  unfold readConstant readAddress constantAt at h
  simp only [bind, Except.bind, pure, Except.pure] at h
  split at h
  · cases h
  · split at h
    · cases h
    · rename_i hread
      split at hread
      · cases hread
        cases h
        exact List.mem_of_getElem? ‹_›
      · cases hread

section

variable {S : Simulation} {m₀ : Machine} {α β : Type} [Recodable α] [Recodable β]
  {env' env : Env} {chunk : Chunk}

theorem follows_codeFault (h : chunk.Follows S env' env) (cause : CodeError) :
    S.Follows m₀ (codeFault cause : Eval α) (codeFault cause) := by
  intro m _ _ hc
  refine .inr ⟨.refl m, hc, fun c ⟨_, he, _⟩ => (nomatch he), ?_, rfl⟩
  rintro error he hbad
  cases he
  exact h.malformed cause hbad

/-- What was read from the code is the same on both sides. -/
theorem follows_readCode (h : chunk.Follows S env' env) {γ : Type} (r : Except CodeError γ)
    {k' k : γ → Eval β} (hk : ∀ a, r = .ok a → S.Follows m₀ (k' a) (k a)) :
    S.Follows m₀ (readCode r >>= k') (readCode r >>= k) := by
  cases r with
  | ok a => exact hk a rfl
  | error cause => exact follows_codeFault h cause

-- ===================================================================== stack

theorem clean_of_cons {v : Value} {vs : List Value} (h : S.Clean m₀ (v :: vs)) :
    S.Clean m₀ v ∧ S.Clean m₀ vs :=
  ⟨fun c hc => h c ⟨v, List.mem_cons_self, hc⟩,
    fun c ⟨w, hw, hc⟩ => h c ⟨w, List.mem_cons_of_mem _ hw, hc⟩⟩

theorem Simulation.Clean.subset {vs ws : List Value} (h : S.Clean m₀ vs) (hs : ∀ w ∈ ws, w ∈ vs) :
    S.Clean m₀ ws :=
  fun c ⟨w, hw, hc⟩ => h c ⟨w, hs w hw, hc⟩

theorem Simulation.Clean.next {ip : Nat} {stack : List Value} (h : S.Clean m₀ stack) :
    S.Clean m₀ (Progress.next ⟨ip, stack⟩) := h

theorem Simulation.Clean.done {v : Value} (h : S.Clean m₀ v) : S.Clean m₀ (Progress.done v) := h

namespace Frame

theorem follows_pop (h : chunk.Follows S env' env) {stack : List Value} (hs : S.Clean m₀ stack)
    {k' k : Value × List Value → Eval β}
    (hk : ∀ v rest, S.Clean m₀ v → S.Clean m₀ rest →
      S.Follows m₀ (k' (recode S.code v, recode S.code rest)) (k (v, rest))) :
    S.Follows m₀ (pop (recode S.code stack) >>= k') (pop stack >>= k) := by
  cases stack with
  | nil => exact follows_codeFault h _
  | cons v rest =>
      obtain ⟨hv, hrest⟩ := clean_of_cons hs
      exact hk v rest hv hrest

theorem follows_peek (h : chunk.Follows S env' env) {stack : List Value} (hs : S.Clean m₀ stack)
    {k' k : Value → Eval β}
    (hk : ∀ v, S.Clean m₀ v → S.Follows m₀ (k' (recode S.code v)) (k v)) :
    S.Follows m₀ (peek (recode S.code stack) >>= k') (peek stack >>= k) := by
  cases stack with
  | nil => exact follows_codeFault h _
  | cons v rest => exact hk v (clean_of_cons hs).1

theorem follows_popMany (h : chunk.Follows S env' env) (count : Nat) {stack : List Value}
    (hs : S.Clean m₀ stack) {k' k : List Value × List Value → Eval β}
    (hk : ∀ vs rest, S.Clean m₀ vs → S.Clean m₀ rest →
      S.Follows m₀ (k' (recode S.code vs, recode S.code rest)) (k (vs, rest))) :
    S.Follows m₀ (popMany count (recode S.code stack) >>= k') (popMany count stack >>= k) := by
  unfold popMany
  rw [length_recode]
  split
  · have htaken : ((recode S.code stack).take count).reverse
        = recode S.code (stack.take count).reverse := by
      simp [recode, List.map_take]
    have hleft : (recode S.code stack).drop count = recode S.code (stack.drop count) := by
      simp [recode, List.map_drop]
    rw [htaken, hleft]
    exact hk _ _ (hs.subset fun w hw => List.mem_of_mem_take (List.mem_reverse.1 hw))
      (hs.subset fun w hw => List.mem_of_mem_drop hw)
  · exact follows_codeFault h _

theorem follows_pairs (h : chunk.Follows S env' env) (ip : Nat) {m₀ : Machine} :
    (values : List Value) → S.Clean m₀ values →
    S.Follows m₀ (pairs ip (recode S.code values)) (pairs ip values)
  | [], _ => .pure (a := ([] : List (String × Value))) clean_nil
  | [v], _ => by
      cases v <;> exact .pure (a := ([] : List (String × Value))) clean_nil
  | v :: w :: rest, hs => by
      obtain ⟨-, hrest⟩ := clean_of_cons hs
      obtain ⟨hw, hrest⟩ := clean_of_cons hrest
      have ih := follows_pairs h ip rest hrest
      cases v with
      | string name =>
          exact ih.bind fun ps m₁ hm₁ hps =>
            .pure (a := (name, w) :: ps) ((hw.later hm₁).field.cons hps)
      | _ => exact follows_codeFault h _

/-- The fields of an object on the heap. -/
theorem clean_fields {m : Machine} (hm : S.Clean m m) (place : ObjectId) :
    S.Clean m (m.heap.object place) := by
  refine recode_moving_eq.1 ?_
  have hheap : recode (.moving (S.Fine m)) m.heap = m.heap :=
    congrArg Machine.heap (recode_moving_eq.2 hm)
  rw [← Heap.object_recode, hheap]

theorem follows_popAttributes (h : chunk.Follows S env' env) (attributed : Bool) (ip : Nat)
    {stack : List Value} (hs : S.Clean m₀ stack) {k' k : Option Fields × List Value → Eval β}
    (hk : ∀ m₁ fields rest, m₀.Later m₁ → S.Clean m₁ fields → S.Clean m₁ rest →
      S.Follows m₁ (k' (recode S.code fields, recode S.code rest)) (k (fields, rest))) :
    S.Follows m₀ (popAttributes attributed ip (recode S.code stack) >>= k')
      (popAttributes attributed ip stack >>= k) := by
  unfold popAttributes
  cases attributed with
  | false => exact hk m₀ none stack (.refl m₀) clean_none hs
  | true =>
      cases stack with
      | nil => exact follows_codeFault h _
      | cons v rest =>
          obtain ⟨-, hrest⟩ := clean_of_cons hs
          cases v with
          | object place =>
              intro m hm hi hc
              have hread := hk m (some (m.heap.object place)) rest hm (clean_fields hc place).some
                (hrest.later hm) m (.refl m) hi hc
              rwa [recode_some, ← Heap.object_recode] at hread
          | _ => exact follows_codeFault h _

theorem follows_readNaming (h : chunk.Follows S env' env) (named : Bool) (ip : Nat)
    {k' k : Nat × Option String → Eval β} (hk : ∀ p, S.Follows m₀ (k' p) (k p)) :
    S.Follows m₀ (readNaming chunk named ip >>= k') (readNaming chunk named ip >>= k) := by
  unfold readNaming
  cases named with
  | false => exact hk _
  | true =>
      simp only [if_true, bind_assoc, pure_bind]
      exact follows_readCode h _ fun p _ => hk _

-- ============================================================== instructions

variable {span : Span}

theorem follows_performCall (h : chunk.Follows S env' env) (named attributed : Bool) (ip : Nat)
    {stack : List Value} (hs : S.Clean m₀ stack) :
    S.Follows m₀
      (performCall env' chunk (S.code.span span) named attributed ip (recode S.code stack))
      (performCall env chunk span named attributed ip stack) := by
  unfold performCall
  refine follows_readCode h _ fun p _ => follows_readCode h _ fun q _ =>
    follows_readNaming h named _ fun r => ?_
  refine follows_popAttributes h attributed _ hs fun _ fields stack _ hf hs =>
    follows_popMany h _ hs fun args stack ha hs => follows_pop h hs fun function stack hv hs => ?_
  let site : CallSite := ⟨span, q.2, r.2, env.source⟩
  have hcalled := follows_callValue hv ha hf fun c hfine =>
    h.around.call _ c args site hfine ha
  rw [h.around.source]
  exact hcalled.bind fun v m₂ hm₂ hv =>
    .pure (a := Progress.next ⟨r.1, v :: stack⟩) (hv.cons (hs.later hm₂))

/-- An instruction leaves its value on the stack. -/
theorem follows_push {x' x : Eval Value} {stack : List Value} (hx : S.Follows m₀ x' x)
    (hs : S.Clean m₀ stack) (ip : Nat) :
    S.Follows m₀ (x' >>= fun v => Pure.pure (Progress.next ⟨ip, v :: recode S.code stack⟩))
      (x >>= fun v => Pure.pure (Progress.next ⟨ip, v :: stack⟩)) :=
  hx.bind fun v _ hm₁ hv =>
    .pure (a := Progress.next ⟨ip, v :: stack⟩) (hv.cons (hs.later hm₁))

theorem follows_perform (h : chunk.Follows S env' env) (m₀ : Machine) (span : Span) (ip : Nat)
    {stack : List Value} (hs : S.Clean m₀ stack) (op : OpCode) :
    S.Follows m₀ (perform env' chunk (S.code.span span) ip (recode S.code stack) op)
      (perform env chunk span ip stack op) := by
  have hnext (ip : Nat) {stack : List Value} (hs : S.Clean m₀ stack) : S.Follows m₀
      (Pure.pure (Progress.next ⟨ip, recode S.code stack⟩))
      (Pure.pure (Progress.next ⟨ip, stack⟩)) :=
    .pure (a := Progress.next ⟨ip, stack⟩) hs
  cases op with
  | constant =>
      refine follows_readCode h _ fun p _ => ?_
      obtain ⟨ip, c⟩ := p
      cases c with
      | number x => exact hnext ip ((clean_number x).cons hs)
      | string text => exact hnext ip ((clean_string text).cons hs)
      | function literal body => exact follows_codeFault h _
  | undefined => exact hnext ip (clean_undefined.cons hs)
  | true => exact hnext ip ((clean_boolean _).cons hs)
  | false => exact hnext ip ((clean_boolean _).cons hs)
  | pop => exact follows_pop h hs fun _ _ _ hs => hnext ip hs
  | getName => exact follows_readCode h _ fun p _ => follows_push (follows_readName p.2) hs p.1
  | getCallee =>
      exact follows_readCode h _ fun p _ => follows_push (follows_readCallee p.2 span) hs p.1
  | setLocal =>
      exact follows_readCode h _ fun p _ => follows_peek h hs fun v hv =>
        (follows_assignLocal p.2 hv span).bind fun _ m₁ hm₁ _ =>
          .pure (a := Progress.next ⟨p.1, stack⟩) (hs.later hm₁)
  | getProperty =>
      exact follows_readCode h _ fun p _ => follows_pop h hs fun o rest ho hs =>
        follows_push (follows_getProperty ho p.2 span) hs p.1
  | setProperty =>
      exact follows_readCode h _ fun p _ => follows_pop h hs fun v rest hv hs =>
        follows_pop h hs fun o rest ho hs => (follows_setProperty ho p.2 hv span).bind
          fun _ m₁ hm₁ _ => .pure (a := Progress.next ⟨p.1, v :: rest⟩)
            ((hv.later hm₁).cons (hs.later hm₁))
  | getIndex =>
      exact follows_pop h hs fun i rest hi hs => follows_pop h hs fun b rest hb hs =>
        follows_push (follows_getIndex hb hi) hs ip
  | setIndex =>
      exact follows_pop h hs fun v rest hv hs => follows_pop h hs fun i rest hi hs =>
        follows_pop h hs fun b rest hb hs => (follows_setIndex hb hi hv span).bind
          fun _ m₁ hm₁ _ => .pure (a := Progress.next ⟨ip, v :: rest⟩)
            ((hv.later hm₁).cons (hs.later hm₁))
  | coordinate =>
      exact follows_readCode h _ fun p _ => follows_pop h hs fun t rest ht hs =>
        follows_push (follows_coordinateOf p.2 ht span) hs p.1
  | binary =>
      exact follows_readCode h _ fun p _ => follows_pop h hs fun r rest hr hs =>
        follows_pop h hs fun l rest hl hs =>
          follows_push (follows_binaryOperation p.2 hl hr span) hs p.1
  | negate =>
      exact follows_pop h hs fun v rest hv hs =>
        follows_push (follows_unaryOperation .negate hv span) hs ip
  | not =>
      exact follows_pop h hs fun v rest hv hs =>
        follows_push (follows_unaryOperation .not hv span) hs ip
  | jump => exact follows_readCode h _ fun p _ => hnext (p.1 + p.2) hs
  | jumpIfFalse =>
      refine follows_readCode h _ fun p _ => follows_peek h hs fun v hv => ?_
      rw [Value.truthy_recode]
      split
      · exact hnext p.1 hs
      · exact hnext (p.1 + p.2) hs
  | loop =>
      refine follows_readCode h _ fun ⟨ip, distance⟩ _ => ?_
      dsimp only
      split
      · exact hnext (ip - distance) hs
      · exact follows_codeFault h _
  | array =>
      exact follows_readCode h _ fun p _ => follows_popMany h _ hs fun items rest hi hs =>
        follows_push (follows_newArray hi) hs p.1
  | object =>
      refine follows_readCode h _ fun p _ => follows_popMany h _ hs fun values rest hv hs =>
        (follows_pairs h p.1 values hv).bind fun ps m₁ hm₁ hps => ?_
      rw [Fields.ofPairs_recode]
      exact follows_push (follows_newObject hps.ofPairs) (hs.later hm₁) p.1
  | closure =>
      refine follows_readCode h _ fun p hp => ?_
      obtain ⟨ip, c⟩ := p
      cases c with
      | function literal body =>
          exact follows_push (h.make m₀ literal body (Chunk.mem_of_readConstant hp)) hs ip
      | number x => exact follows_codeFault h _
      | string text => exact follows_codeFault h _
  | call => exact follows_performCall h false false ip hs
  | callWithAttributes => exact follows_performCall h false true ip hs
  | callNamed => exact follows_performCall h true false ip hs
  | giveBack =>
      refine follows_pop h hs fun v rest hv hs => .reading fun m hm => ?_
      rw [scopes_recode, isGlobal_recode]
      split
      · exact .fault _ span rfl
      · exact .pure (a := Progress.done v) (hv.later hm)
  | stop =>
      cases stack with
      | nil => exact .pure (a := Progress.done .undefined) clean_undefined
      | cons v rest => exact .pure (a := Progress.done v) (clean_of_cons hs).1
  | useBoard =>
      exact follows_readCode h _ fun p _ => (follows_useSession p.2 span).bind fun _ m₁ hm₁ _ =>
        .pure (a := Progress.next ⟨p.1, .undefined :: stack⟩)
          (clean_undefined.cons (hs.later hm₁))
  | delete =>
      exact follows_pop h hs fun v rest hv hs => follows_push (follows_deleteValue hv span) hs ip

/-- One instruction. -/
theorem follows_step (h : chunk.Follows S env' env) (frame : Frame) (hs : S.Clean m₀ frame.stack) :
    S.Follows m₀ (step env' chunk (recode S.code frame)) (step env chunk frame) := by
  show S.Follows m₀ (step env' chunk ⟨frame.ip, recode S.code frame.stack⟩) _
  unfold step
  cases chunk.spanAt frame.ip with
  | none => exact follows_codeFault h _
  | some span =>
      have hask := h.around.ask m₀ span
      rw [h.still.span] at hask
      refine hask.bind fun _ m₁ hm₁ _ => follows_readCode h _ fun p _ => ?_
      have hperform := follows_perform h m₁ span p.1 (hs.later hm₁) p.2
      rwa [h.still.span] at hperform

/-- Any number of instructions. -/
theorem follows_exec (h : chunk.Follows S env' env) (fuel : Nat) (frame : Frame) (m₀ : Machine)
    (hs : S.Clean m₀ frame.stack) :
    S.Follows m₀ (exec env' chunk fuel (recode S.code frame)) (exec env chunk fuel frame) := by
  induction fuel generalizing frame m₀ with
  | zero => exact .exhausted
  | succ fuel ih =>
      rw [exec, exec]
      refine (follows_step h frame hs).bind fun progress m₁ _ hp => ?_
      cases progress with
      | next frame => exact ih frame m₁ hp
      | done value => exact .pure hp

end Frame

theorem Chunk.follows_run (h : chunk.Follows S env' env) (m₀ : Machine) :
    S.Follows m₀ (chunk.run env') (chunk.run env) := by
  unfold Chunk.run
  rw [h.around.fuel]
  exact Frame.follows_exec h env.fuel .start m₀ clean_nil

end

end BoardScript
