/-
What operators compute of stored values is stored: a number, a text or a
truth, an array of such, or one of the two values itself. Arrays are all that
they put on the heap.
-/
import BoardScript.Proofs.Value.Operators
import BoardScript.Proofs.Value.Stored

namespace BoardScript

variable {C : Closure → Prop}

/-- A computation that keeps to heaps of stored values and leaves boards
alone, and what it gives. -/
def Computes (C : Closure → Prop) {ε α : Type} (Q : α → Prop) (x : StateT Heap (Except ε) α) : Prop :=
  ∀ h : Heap, h.Stores (Value.Stored C) → ∀ a h', x h = .ok (a, h') →
    Q a ∧ h'.Stores (Value.Stored C) ∧ h.Still h'

namespace Computes

variable {ε α β : Type} {Q : α → Prop} {R : β → Prop}

theorem pure {a : α} (ha : Q a) : Computes C Q (Pure.pure a : StateT Heap (Except ε) α) := by
  rintro h hh _ _ ⟨⟩
  exact ⟨ha, hh, .refl h⟩

theorem throw (e : ε) : Computes C Q (MonadExcept.throw e : StateT Heap (Except ε) α) :=
  fun _ _ _ _ h => nomatch h

theorem bind {x : StateT Heap (Except ε) α} {k : α → StateT Heap (Except ε) β}
    (hx : Computes C Q x) (hk : ∀ a, Q a → Computes C R (k a)) : Computes C R (x >>= k) := by
  intro h hh b h' hr
  simp only [StateT.bind, Bind.bind, Except.bind] at hr
  cases hfirst : x h with
  | error e =>
      rw [hfirst] at hr
      cases hr
  | ok p =>
      rw [hfirst] at hr
      obtain ⟨ha, hp, hstill⟩ := hx h hh p.1 p.2 hfirst
      obtain ⟨hb, hh', hstill'⟩ := hk p.1 ha p.2 hp b h' hr
      exact ⟨hb, hh', hstill.trans hstill'⟩

/-- A computation that begins by looking at the heap. -/
theorem get {k : Heap → StateT Heap (Except ε) β}
    (hk : ∀ h : Heap, h.Stores (Value.Stored C) → Computes C R (k h)) :
    Computes C R (MonadState.get >>= k) :=
  fun h hh => hk h hh h hh

theorem mapM {γ : Type} {P : γ → Prop} {f : γ → StateT Heap (Except ε) α} {as : List γ}
    (has : ∀ a ∈ as, P a) (hf : ∀ a, P a → Computes C Q (f a)) :
    Computes C (fun bs : List α => ∀ b ∈ bs, Q b) (as.mapM f) := by
  induction as with
  | nil => exact .pure (List.forall_mem_nil _)
  | cons a as ih =>
      obtain ⟨ha, has⟩ := List.forall_mem_cons.1 has
      rw [List.mapM_cons]
      exact (hf a ha).bind fun b hb => (ih has).bind fun bs hbs =>
        .pure (List.forall_mem_cons.2 ⟨hb, hbs⟩)

end Computes

namespace Operators

theorem computes_newArray {items : List Value} (hi : ∀ v ∈ items, v.Stored C) :
    Computes C (Value.Stored C) (newArray items) := by
  rintro h hh _ _ ⟨⟩
  exact ⟨trivial, hh.newArray fun v hv => hi v (List.mem_toArray.1 hv), rfl, Nat.le_refl _⟩

theorem computes_items (place : ArrayId) :
    Computes C (fun vs : List Value => ∀ v ∈ vs, v.Stored C) (items place) :=
  .get fun _ hh => .pure fun v hv => hh.array place v (Array.mem_toList_iff.1 hv)

theorem computes_mismatch (left right : Value) :
    Computes C (Value.Stored C) (mismatch left right) :=
  .throw _

/-- A number, a text or a truth. -/
theorem computes_plain {ε : Type} {v : Value} (hv : v.Stored C) :
    Computes C (Value.Stored C) (pure v : StateT Heap (Except ε) Value) :=
  .pure hv

/-- A text that is made of the text of a value. -/
theorem computes_text {ε : Type} (f : Heap → String) :
    Computes C (Value.Stored C) (do return .string (f (← get)) : StateT Heap (Except ε) Value) :=
  .get fun _ _ => .pure trivial

/-- Two arrays item by item. -/
theorem computes_zipped {f : Value → Value → Operation Value}
    (hf : ∀ x y, x.Stored C → y.Stored C → Computes C (Value.Stored C) (f x y)) (a b : ArrayId) :
    Computes C (Value.Stored C)
      (do newArray (← ((← items a).zip (← items b)).mapM fun (x, y) => f x y)) :=
  (computes_items a).bind fun _ hxs => (computes_items b).bind fun _ hys =>
    Computes.bind (Computes.mapM (P := fun p => p.1.Stored C ∧ p.2.Stored C)
      (fun p hp => ⟨hxs p.1 (List.of_mem_zip hp).1, hys p.2 (List.of_mem_zip hp).2⟩)
      fun p hp => hf p.1 p.2 hp.1 hp.2) fun _ => computes_newArray

/-- An array item by item. -/
theorem computes_mapped {f : Value → Operation Value}
    (hf : ∀ x, x.Stored C → Computes C (Value.Stored C) (f x)) (a : ArrayId) :
    Computes C (Value.Stored C) (do newArray (← (← items a).mapM f)) :=
  (computes_items a).bind fun _ hxs => Computes.bind (Computes.mapM hxs hf) fun _ => computes_newArray

-- The cases are those of the operators.

theorem computes_add (depth : Nat) (left right : Value) :
    Computes C (Value.Stored C) (add depth left right) := by
  fun_induction add depth left right with
  | case1 depth a b ih => exact computes_zipped (fun x y _ _ => ih x y) a b
  | case2 _ x y => exact computes_plain trivial
  | case3 _ x right => exact computes_text _
  | case4 _ left y => exact computes_text _
  | case5 _ left right => exact computes_mismatch left right

theorem computes_subtract (depth : Nat) (left right : Value) :
    Computes C (Value.Stored C) (subtract depth left right) := by
  fun_induction subtract depth left right with
  | case1 depth a b ih => exact computes_zipped (fun x y _ _ => ih x y) a b
  | case2 _ x y => exact computes_plain trivial
  | case3 _ left right => exact computes_mismatch left right

theorem computes_scalarProduct (sum : Float) (pairs : List (Value × Value)) :
    Computes C (Value.Stored C) (scalarProduct sum pairs) := by
  fun_induction scalarProduct sum pairs with
  | case1 sum => exact computes_plain trivial
  | case2 sum x y rest ih => exact ih
  | case3 sum x y rest => exact computes_mismatch x y

theorem computes_multiply (depth : Nat) (left right : Value) :
    Computes C (Value.Stored C) (multiply depth left right) := by
  fun_induction multiply depth left right with
  | case1 _ x y => exact computes_plain trivial
  | case2 _ a b =>
      exact (computes_items a).bind fun xs _ => (computes_items b).bind fun ys _ =>
        computes_scalarProduct 0.0 (xs.zip ys)
  | case3 depth a y ih => exact computes_mapped (fun item _ => ih item) a
  | case4 depth x b ih => exact computes_mapped (fun item _ => ih item) b
  | case5 _ left right => exact computes_mismatch left right

theorem computes_divide (depth : Nat) (left right : Value) :
    Computes C (Value.Stored C) (divide depth left right) := by
  fun_induction divide depth left right with
  | case1 _ x y => exact computes_plain trivial
  | case2 depth a y ih => exact computes_mapped (fun item _ => ih item) a
  | case3 _ left right => exact computes_mismatch left right

theorem computes_modulo (depth : Nat) (left right : Value) :
    Computes C (Value.Stored C) (modulo depth left right) := by
  fun_induction modulo depth left right with
  | case1 _ x y => exact computes_plain trivial
  | case2 depth a y ih => exact computes_mapped (fun item _ => ih item) a
  | case3 _ left right => exact computes_mismatch left right

theorem computes_order (left right : Value) :
    Computes C (fun _ => True) (order left right) := by
  fun_cases order left right with
  | case1 x y => exact .pure trivial
  | case2 x y => exact .pure trivial
  | case3 => exact .throw _

theorem computes_ordered (left right : Value) (accepts : Ordering → Bool) :
    Computes C (Value.Stored C) (ordered left right accepts) :=
  (computes_order left right).bind fun _ _ => computes_plain trivial

/-- An operator on two stored values. -/
theorem computes_binary (operator : BinaryOperator) {left right : Value} (hl : left.Stored C)
    (hr : right.Stored C) : Computes C (Value.Stored C) (binary operator left right) := by
  unfold binary
  refine .get fun h _ => ?_
  cases operator with
  | equal => exact computes_plain trivial
  | notEqual => exact computes_plain trivial
  | less => exact computes_ordered left right _
  | greater => exact computes_ordered left right _
  | lessEqual => exact computes_ordered left right _
  | greaterEqual => exact computes_ordered left right _
  | add => exact computes_add h.depth left right
  | subtract => exact computes_subtract h.depth left right
  | multiply => exact computes_multiply h.depth left right
  | divide => exact computes_divide h.depth left right
  | modulo => exact computes_modulo h.depth left right
  | and => exact computes_plain (by split <;> assumption)
  | or => exact computes_plain (by split <;> assumption)
  | approx | power =>
      dsimp only
      split
      · exact computes_plain trivial
      · exact computes_mismatch _ _

theorem computes_negate (depth : Nat) (operand : Value) :
    Computes C (Value.Stored C) (negate depth operand) := by
  induction depth generalizing operand with
  | zero =>
      cases operand with
      | number x => exact computes_plain trivial
      | _ => exact .throw _
  | succ depth ih =>
      cases operand with
      | array place =>
          intro h hh v h' hr
          cases hitems : ((h.array place).toList.mapM (negate depth)).run h with
          | error type =>
              simp only [negate, hitems] at hr
              cases hr
          | ok p =>
              simp only [negate, hitems] at hr
              obtain ⟨hp, hh', hstill⟩ := Computes.mapM (P := fun _ => True) (fun _ _ => trivial)
                (fun a _ => ih a) h hh p.1 p.2 hitems
              cases hr
              exact ⟨trivial, hh'.newArray fun v hv => hp v (List.mem_toArray.1 hv),
                hstill.boards, hstill.elements⟩
      | number x => exact computes_plain trivial
      | _ => exact .throw _

/-- An operator on one value. -/
theorem computes_unary (operator : UnaryOperator) (operand : Value) :
    Computes C (Value.Stored C) (unary operator operand) := by
  cases operator with
  | not => exact computes_plain trivial
  | negate => exact .get fun h _ => computes_negate h.depth operand

end Operators

end BoardScript
