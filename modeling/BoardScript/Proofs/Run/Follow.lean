/-
How a run goes along with another. A simulation says what becomes of the
machine of one run in the other (a recoding), what holds of every machine
of the run and of every closure that it holds, after which ends nothing
more is asked for, and which errors do not arise. One action follows
another if it keeps all this (`Simulation.Follows`).

What holds of a machine may depend only on what stays the same within an
activation, what holds of closures on how many scopes there are. What
holds of closures is kept by every action that makes none, since such an
action commutes with moving the closures of which it does not hold
(`Follows.of_natural`).
-/
import BoardScript.Proofs.Program.Recast
import BoardScript.Proofs.Run.Steady

namespace BoardScript

-- =========================================================== moved closures

namespace Recoding

/-- Nothing changes. -/
def identity : Recoding where
  closure := id
  span := id
  source := id
  created := id
  mode := id
  ticks := id
  identity_closure _ := rfl
  text_closure _ := rfl
  created_at _ _ _ := rfl

theorem plain_identity : identity.Plain :=
  ⟨⟨fun _ => rfl, fun _ => rfl, fun _ => rfl⟩, fun _ => rfl, fun _ => rfl, rfl⟩

open Classical in
/-- Moves the closures without a property, and no others. -/
noncomputable def moving (P : Closure → Prop) : Recoding where
  closure c := if P c then c else { c with scope := c.scope + 1 }
  span := id
  source := id
  created := id
  mode := id
  ticks := id
  identity_closure c := by split <;> rfl
  text_closure c := by split <;> rfl
  created_at _ _ _ := rfl

theorem plain_moving (P : Closure → Prop) : (moving P).Plain :=
  ⟨⟨fun _ => rfl, fun _ => rfl, fun _ => rfl⟩, fun _ => rfl, fun _ => rfl, rfl⟩

theorem moving_closure {P : Closure → Prop} {c : Closure} : (moving P).closure c = c ↔ P c := by
  simp only [moving]
  split
  · simp [*]
  · rename_i hc
    refine ⟨fun h => absurd (congrArg Closure.scope h) (Nat.succ_ne_self _), fun h => absurd h hc⟩

end Recoding

theorem recode_identity {α : Type} [Recodable α] [LawfulRecodable α] (x : α) :
    recode .identity x = x :=
  (recode_eq_iff Recoding.plain_identity x).2 fun _ _ => rfl

theorem recode_moving_eq {α : Type} [Recodable α] [LawfulRecodable α] {P : Closure → Prop} {x : α} :
    recode (.moving P) x = x ↔ ∀ c, Holds x c → P c :=
  (recode_eq_iff (Recoding.plain_moving P) x).trans
    (forall_congr' fun _ => imp_congr_right fun _ => Recoding.moving_closure)

-- ============================================================== simulations

/-- Where no error is bad, every fault that is bad is one call too many. -/
theorem Fault.isOverflow_of_false {f : Fault} (h : False) : f.isOverflow = true := h.elim

/-- How one run goes along with another. -/
structure Simulation where
  /-- what becomes of a machine -/
  code : Recoding
  /-- what holds of each machine -/
  Inv : Machine → Prop
  /-- what holds of each closure that a machine with so many scopes holds -/
  Keeps : Nat → Closure → Prop
  /-- ends after which nothing more is asked for -/
  Skip : Unwind → Prop
  /-- errors that do not arise -/
  Bad : RuntimeError → Prop
  inv_later : ∀ {m n : Machine}, m.Later n → Inv m → Inv n
  keeps_mono : ∀ {scopes more : Nat} {c : Closure}, scopes ≤ more → Keeps scopes c → Keeps more c
  skip_returned : ∀ v, ¬Skip (.returned v)
  bad_fault : ∀ {f : Fault} {span : Span}, Bad (.fault f span) → f.isOverflow = true

namespace Simulation

variable (S : Simulation) {α β : Type} [Recodable α] [Recodable β]

/-- A closure that a machine may hold. -/
def Fine (m : Machine) (c : Closure) : Prop := S.Keeps m.scopes.table.size c

/-- All closures held are fine. -/
def Clean (m : Machine) (x : α) : Prop := ∀ c, Holds x c → S.Fine m c

/-- One end follows another, which was reached from a machine. -/
def Ends (m : Machine) (r' : EStateM.Result Unwind Machine α) :
    EStateM.Result Unwind Machine α → Prop
  | .ok a n => m.Later n ∧ S.Clean n n ∧ S.Clean n a ∧ r' = .ok (recode S.code a) (recode S.code n)
  | .error e n => S.Skip e ∨ m.Later n ∧ S.Clean n n ∧ S.Clean n e ∧
      (∀ error, e = .failed error → ¬S.Bad error) ∧
      r' = .error (recode S.code e) (recode S.code n)

/-- One action follows another on all machines from one on. -/
def Follows (m₀ : Machine) (x' x : Eval α) : Prop :=
  ∀ m, m₀.Later m → S.Inv m → S.Clean m m → S.Ends m (x' (recode S.code m)) (x m)

variable {S} {m₀ m₁ : Machine}

theorem fine_later {c : Closure} (hm : m₀.Later m₁) (h : S.Fine m₀ c) : S.Fine m₁ c :=
  S.keeps_mono hm.table h

theorem Clean.later {x : α} (h : S.Clean m₀ x) (hm : m₀.Later m₁) : S.Clean m₁ x :=
  fun c hc => fine_later hm (h c hc)

/-- What holds fine closures only stays put when the others are moved. -/
theorem Clean.fixed [LawfulRecodable α] {x : α} (h : S.Clean m₀ x) (hm : m₀.Later m₁) :
    recode (.moving (S.Fine m₁)) x = x :=
  recode_moving_eq.2 (h.later hm)

theorem Follows.later {x' x : Eval α} (h : S.Follows m₀ x' x) (hm : m₀.Later m₁) :
    S.Follows m₁ x' x :=
  fun m hm' => h m (hm.trans hm')

theorem Ends.trans {m n : Machine} {r' r : EStateM.Result Unwind Machine α}
    (hm : m.Later n) (h : S.Ends n r' r) : S.Ends m r' r := by
  cases r with
  | ok a n' => exact ⟨hm.trans h.1, h.2⟩
  | error e n' => exact h.imp_right fun h => ⟨hm.trans h.1, h.2⟩

/-- An end that is not to be skipped is the other one, recoded. -/
theorem Ends.eq_recode {m : Machine} {r' r : EStateM.Result Unwind Machine α}
    (h : S.Ends m r' r) : (∃ e n, r = .error e n ∧ S.Skip e) ∨ r' = recode S.code r := by
  cases r with
  | ok a n => exact .inr h.2.2.2
  | error e n => exact h.imp (fun hskip => ⟨e, n, rfl, hskip⟩) fun h => h.2.2.2.2

namespace Follows

theorem pure {a : α} (ha : S.Clean m₀ a) :
    S.Follows m₀ (Pure.pure (recode S.code a)) (Pure.pure a) :=
  fun m hm _ hc => ⟨.refl m, hc, ha.later hm, rfl⟩

theorem bind {x' x : Eval α} {k' k : α → Eval β} (hx : S.Follows m₀ x' x)
    (hk : ∀ a m₁, m₀.Later m₁ → S.Clean m₁ a → S.Follows m₁ (k' (recode S.code a)) (k a)) :
    S.Follows m₀ (x' >>= k') (x >>= k) := by
  intro m hm hi hc
  have hfirst := hx m hm hi hc
  show S.Ends m (EStateM.bind x' k' _) (EStateM.bind x k m)
  unfold EStateM.bind
  cases hr : x m with
  | ok a n =>
      rw [hr] at hfirst
      obtain ⟨hn, hcn, hca, hr'⟩ := hfirst
      rw [hr']
      exact (hk a n (hm.trans hn) hca n (.refl n) (S.inv_later hn hi) hcn).trans hn
  | error e n =>
      rw [hr] at hfirst
      rcases hfirst with hskip | ⟨hn, hcn, hce, hbad, hr'⟩
      · exact .inl hskip
      · rw [hr']
        exact .inr ⟨hn, hcn, hce, hbad, rfl⟩

/-- An action that begins by looking at the machine. -/
theorem reading {k' k : Machine → Eval β}
    (hk : ∀ m, m₀.Later m → S.Follows m (k' (recode S.code m)) (k m)) :
    S.Follows m₀ (MonadState.get >>= k') (MonadState.get >>= k) :=
  fun m hm hi hc => hk m hm m (.refl m) hi hc

/-- Whatever calls nothing and makes no closures goes along. -/
theorem of_natural [LawfulRecodable α] {x' x : Eval α} (hn : Natural S.code x' x)
    (hmoved : ∀ m, m₀.Later m → Natural (.moving (S.Fine m)) x x) (hs : Steady x) :
    S.Follows m₀ x' x := by
  intro m hm _ hc
  obtain ⟨hlater, hordinary⟩ := hs m
  have hfixed : recode (.moving (S.Fine m)) (x m) = x m := by
    rw [← hmoved m hm m, recode_moving_eq.2 hc]
  have hclean : ∀ c, Holds (x m) c → S.Fine m c := recode_moving_eq.1 hfixed
  rw [hn m]
  cases hr : x m with
  | ok a n =>
      rw [hr] at hlater hclean
      exact ⟨hlater, fun c hc => fine_later hlater (hclean c (.inr hc)),
        fun c hc => fine_later hlater (hclean c (.inl hc)), rfl⟩
  | error e n =>
      rw [hr] at hlater hclean hordinary
      refine .inr ⟨hlater, fun c hc => fine_later hlater (hclean c (.inr hc)),
        fun c hc => fine_later hlater (hclean c (.inl hc)), ?_, rfl⟩
      rintro error rfl hbad
      cases error with
      | fault f span =>
          have hf : f.isOverflow = false := hordinary
          rw [S.bad_fault hbad] at hf
          cases hf
      | compile cause => exact hordinary

theorem fault (f : Fault) (span : Span) (hf : f.isOverflow = false) :
    S.Follows m₀ (BoardScript.fault f (S.code.span span) : Eval α) (BoardScript.fault f span) := by
  intro m _ _ hc
  refine .inr ⟨.refl m, hc, fun c ⟨_, h, _⟩ => (nomatch h), ?_, rfl⟩
  rintro error h hbad
  cases h
  rw [S.bad_fault hbad] at hf
  cases hf

theorem exhausted : S.Follows m₀ (throw .exhausted : Eval α) (throw .exhausted) := by
  intro m _ _ hc
  exact .inr ⟨.refl m, hc, fun c ⟨_, h, _⟩ => (nomatch h), fun _ h => (nomatch h), rfl⟩

/-- A return, on its way to the function. -/
theorem returned {v : Value} (hv : S.Clean m₀ v) :
    S.Follows m₀ (throw (.returned (recode S.code v)) : Eval α) (throw (.returned v)) := by
  intro m hm _ hc
  refine .inr ⟨.refl m, hc, ?_, fun _ h => (nomatch h), rfl⟩
  rintro c ⟨w, h, hw⟩
  cases h
  exact hv.later hm c hw

end Follows

-- =================================================================== actions

section

variable {owner base index value target left right : Value}

theorem follows_assignLocal (name : String) (hv : S.Clean m₀ value) (span : Span) :
    S.Follows m₀ (assignLocal name (recode S.code value) (S.code.span span))
      (assignLocal name value span) :=
  .of_natural (natural_assignLocal name value span) (fun m hm => by
    have h := natural_assignLocal (g := .moving (S.Fine m)) name value span
    rwa [hv.fixed hm] at h) (steady_assignLocal name value span)

theorem follows_getProperty (ho : S.Clean m₀ owner) (name : String) (span : Span) :
    S.Follows m₀ (getProperty (recode S.code owner) name (S.code.span span))
      (getProperty owner name span) :=
  .of_natural (natural_getProperty owner name span) (fun m hm => by
    have h := natural_getProperty (g := .moving (S.Fine m)) owner name span
    rwa [ho.fixed hm] at h) (steady_getProperty owner name span)

theorem follows_setProperty (ho : S.Clean m₀ owner) (name : String) (hv : S.Clean m₀ value)
    (span : Span) :
    S.Follows m₀ (setProperty (recode S.code owner) name (recode S.code value) (S.code.span span))
      (setProperty owner name value span) :=
  .of_natural (natural_setProperty owner name value span) (fun m hm => by
    have h := natural_setProperty (g := .moving (S.Fine m)) owner name value span
    rwa [ho.fixed hm, hv.fixed hm] at h) (steady_setProperty owner name value span)

theorem follows_getIndex (hb : S.Clean m₀ base) (hi : S.Clean m₀ index) :
    S.Follows m₀ (getIndex (recode S.code base) (recode S.code index)) (getIndex base index) :=
  .of_natural (natural_getIndex base index) (fun m hm => by
    have h := natural_getIndex (g := .moving (S.Fine m)) base index
    rwa [hb.fixed hm, hi.fixed hm] at h) (steady_getIndex base index)

theorem follows_setIndex (hb : S.Clean m₀ base) (hi : S.Clean m₀ index) (hv : S.Clean m₀ value)
    (span : Span) :
    S.Follows m₀
      (setIndex (recode S.code base) (recode S.code index) (recode S.code value) (S.code.span span))
      (setIndex base index value span) :=
  .of_natural (natural_setIndex base index value span) (fun m hm => by
    have h := natural_setIndex (g := .moving (S.Fine m)) base index value span
    rwa [hb.fixed hm, hi.fixed hm, hv.fixed hm] at h) (steady_setIndex base index value span)

theorem follows_coordinateOf (axis : Axis) (ht : S.Clean m₀ target) (span : Span) :
    S.Follows m₀ (coordinateOf axis (recode S.code target) (S.code.span span))
      (coordinateOf axis target span) :=
  .of_natural (natural_coordinateOf axis target span) (fun m hm => by
    have h := natural_coordinateOf (g := .moving (S.Fine m)) axis target span
    rwa [ht.fixed hm] at h) (steady_coordinateOf axis target span)

theorem follows_useSession (name : String) (span : Span) :
    S.Follows m₀ (useSession name (S.code.span span)) (useSession name span) :=
  .of_natural (natural_useSession name span) (fun _ _ => natural_useSession name span)
    (steady_useSession name span)

theorem follows_deleteValue (ht : S.Clean m₀ target) (span : Span) :
    S.Follows m₀ (deleteValue (recode S.code target) (S.code.span span))
      (deleteValue target span) :=
  .of_natural (natural_deleteValue target span) (fun m hm => by
    have h := natural_deleteValue (g := .moving (S.Fine m)) target span
    rwa [ht.fixed hm] at h) (steady_deleteValue target span)

theorem follows_binaryOperation (operator : BinaryOperator) (hl : S.Clean m₀ left)
    (hr : S.Clean m₀ right) (span : Span) :
    S.Follows m₀
      (binaryOperation operator (recode S.code left) (recode S.code right) (S.code.span span))
      (binaryOperation operator left right span) :=
  .of_natural (natural_binaryOperation operator left right span) (fun m hm => by
    have h := natural_binaryOperation (g := .moving (S.Fine m)) operator left right span
    rwa [hl.fixed hm, hr.fixed hm] at h) (steady_binaryOperation operator left right span)

theorem follows_unaryOperation (operator : UnaryOperator) (ht : S.Clean m₀ target) (span : Span) :
    S.Follows m₀ (unaryOperation operator (recode S.code target) (S.code.span span))
      (unaryOperation operator target span) :=
  .of_natural (natural_unaryOperation operator target span) (fun m hm => by
    have h := natural_unaryOperation (g := .moving (S.Fine m)) operator target span
    rwa [ht.fixed hm] at h) (steady_unaryOperation operator target span)

theorem follows_readName (name : String) : S.Follows m₀ (readName name) (readName name) :=
  .of_natural (natural_readName name) (fun _ _ => natural_readName name) (steady_readName name)

theorem follows_readCallee (name : String) (span : Span) :
    S.Follows m₀ (readCallee name (S.code.span span)) (readCallee name span) :=
  .of_natural (natural_readCallee name span) (fun _ _ => natural_readCallee name span)
    (steady_readCallee name span)

theorem follows_newArray {items : List Value} (hi : S.Clean m₀ items) :
    S.Follows m₀ (allocate (·.newArray (recode S.code items).toArray))
      (allocate (·.newArray items.toArray)) := by
  have hnatural (g : Recoding) : Natural g (allocate (·.newArray (recode g items).toArray))
      (allocate (·.newArray items.toArray)) :=
    natural_allocate fun heap => by rw [toArray_recode, Heap.newArray_recode]
  refine .of_natural (hnatural S.code) (fun m hm => ?_) (steady_allocate _)
  have h := hnatural (.moving (S.Fine m))
  rwa [hi.fixed hm] at h

theorem follows_newObject {fields : Fields} (hf : S.Clean m₀ fields) :
    S.Follows m₀ (allocate (·.newObject (recode S.code fields))) (allocate (·.newObject fields)) := by
  have hnatural (g : Recoding) : Natural g (allocate (·.newObject (recode g fields)))
      (allocate (·.newObject fields)) :=
    natural_allocate fun heap => Heap.newObject_recode heap fields
  refine .of_natural (hnatural S.code) (fun m hm => ?_) (steady_allocate _)
  have h := hnatural (.moving (S.Fine m))
  rwa [hf.fixed hm] at h

end

-- ===================================================================== calls

/-- Calling a value, if closures are called along with each other. -/
theorem follows_callValue {call' call : Caller} {callee : Value} {args : List Value}
    {attributes : Option Fields} {site : CallSite} (hcallee : S.Clean m₀ callee)
    (hargs : S.Clean m₀ args) (hattributes : S.Clean m₀ attributes)
    (hcall : ∀ c, S.Fine m₀ c →
      S.Follows m₀ (call' (S.code.closure c) (recode S.code args) (recode S.code site))
        (call c args site)) :
    S.Follows m₀
      (callValue call' (recode S.code callee) (recode S.code args) (recode S.code attributes)
        (recode S.code site))
      (callValue call callee args attributes site) := by
  by_cases hclosure : ∃ c, callee = .closure c ∧ attributes = none
  · obtain ⟨c, rfl, rfl⟩ := hclosure
    exact hcall c (hcallee c rfl)
  · have hno : ∀ c, callee = .closure c → attributes ≠ none := fun c hc ha =>
      hclosure ⟨c, hc, ha⟩
    have hnatural (g : Recoding) (call' : Caller) : Natural g
        (callValue call' (recode g callee) (recode g args) (recode g attributes) (recode g site))
        (callValue call callee args attributes site) :=
      natural_callValue fun c hc ha => absurd ha (hno c hc)
    refine .of_natural (hnatural S.code call') (fun m hm => ?_) (steady_callValue hno)
    have h := hnatural (.moving (S.Fine m)) call
    rwa [hcallee.fixed hm, hargs.fixed hm, hattributes.fixed hm] at h

end Simulation

end BoardScript
