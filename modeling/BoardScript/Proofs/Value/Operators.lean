/-
The operators commute with recoding: what they make of two values on a
heap is decided by numbers, texts and places, and only carries closures
along.
-/
import BoardScript.Proofs.Value.Natural

namespace BoardScript

variable {g : Recoding}

/-- One computation does on a recoded heap what the other does on the heap
itself. -/
def Carried (g : Recoding) {ε α : Type} [Recodable α] (x' x : StateT Heap (Except ε) α) : Prop :=
  ∀ h, x' (recode g h) = recode g (x h)

namespace Carried

variable {ε α β : Type} [Recodable α] [Recodable β]

theorem pure (a : α) : Carried g (Pure.pure (recode g a) : StateT Heap (Except ε) α) (Pure.pure a) :=
  fun _ => rfl

theorem throw (e : ε) :
    Carried g (MonadExcept.throw e : StateT Heap (Except ε) α) (MonadExcept.throw e) :=
  fun _ => rfl

theorem bind {x' x : StateT Heap (Except ε) α} {k' k : α → StateT Heap (Except ε) β}
    (hx : Carried g x' x) (hk : ∀ a, Carried g (k' (recode g a)) (k a)) :
    Carried g (x' >>= k') (x >>= k) := by
  intro h
  simp only [StateT.bind, Bind.bind, Except.bind, hx h]
  cases x h with
  | error e => rfl
  | ok p => exact hk p.1 p.2

/-- A computation that begins by looking at the heap. -/
theorem get {k' k : Heap → StateT Heap (Except ε) β}
    (hk : ∀ h, k' (recode g h) (recode g h) = recode g (k h h)) :
    Carried g (MonadState.get >>= k') (MonadState.get >>= k) :=
  fun h => hk h

theorem mapM {γ : Type} [Recodable γ] {f' f : γ → StateT Heap (Except ε) α} {as : List γ}
    (hf : ∀ a, Carried g (f' (recode g a)) (f a)) :
    Carried g ((recode g as).mapM f') (as.mapM f) := by
  induction as with
  | nil => exact fun _ => rfl
  | cons a as ih =>
      rw [recode_cons, List.mapM_cons, List.mapM_cons]
      refine (hf a).bind fun b => ih.bind fun bs => ?_
      exact Carried.pure (b :: bs)

end Carried

namespace Operators

theorem newArray_carried (items : List Value) :
    Carried g (newArray (recode g items)) (newArray items) := by
  intro h
  simp only [newArray, toArray_recode, Heap.newArray_recode]
  rfl

theorem items_carried (place : ArrayId) : Carried g (items place) (items place) := by
  refine Carried.get fun h => ?_
  rw [Heap.array_recode, toList_recode]
  exact Carried.pure _ h

theorem mismatch_carried {α : Type} [Recodable α] (left right : Value) :
    Carried g (mismatch (recode g left) (recode g right) : Operation α) (mismatch left right) := by
  intro h
  simp only [mismatch, Value.type_recode]
  rfl

theorem zip_recode (as bs : List Value) :
    (recode g as).zip (recode g bs) = recode g (as.zip bs) := by
  simp only [recode_list]
  rw [List.zip_map]
  rfl

/-- Two arrays item by item. -/
theorem zipped_carried {f : Value → Value → Operation Value}
    (hf : ∀ x y, Carried g (f (recode g x) (recode g y)) (f x y)) (a b : ArrayId) :
    Carried g
      (do newArray (← ((← items a).zip (← items b)).mapM fun (x, y) => f x y))
      (do newArray (← ((← items a).zip (← items b)).mapM fun (x, y) => f x y)) := by
  refine (items_carried a).bind fun xs => (items_carried b).bind fun ys => ?_
  rw [zip_recode]
  refine Carried.bind (Carried.mapM fun p => hf p.1 p.2) fun items => ?_
  exact newArray_carried items

/-- An array item by item. -/
theorem mapped_carried {f' f : Value → Operation Value}
    (hf : ∀ x, Carried g (f' (recode g x)) (f x)) (a : ArrayId) :
    Carried g (do newArray (← (← items a).mapM f')) (do newArray (← (← items a).mapM f)) := by
  refine (items_carried a).bind fun xs => ?_
  refine Carried.bind (Carried.mapM hf) fun items => ?_
  exact newArray_carried items

/-- A text in front of or behind another. -/
theorem text_carried (front back : String) (v : Value) :
    Carried g (do return .string (front ++ (← get).text (recode g v) ++ back) : Operation Value)
      (do return .string (front ++ (← get).text v ++ back)) := by
  refine Carried.get fun h => ?_
  rw [Heap.text_recode]
  rfl

theorem textBehind_carried (front : String) (v : Value) :
    Carried g (do return .string (front ++ (← get).text (recode g v)) : Operation Value)
      (do return .string (front ++ (← get).text v)) := by
  simpa using text_carried (g := g) front "" v

theorem textBefore_carried (v : Value) (back : String) :
    Carried g (do return .string ((← get).text (recode g v) ++ back) : Operation Value)
      (do return .string ((← get).text v ++ back)) := by
  simpa using text_carried (g := g) "" back v

theorem recode_eq_number {v : Value} {x : Float} : recode g v = .number x ↔ v = .number x := by
  cases v <;> simp

theorem recode_eq_string {v : Value} {text : String} :
    recode g v = .string text ↔ v = .string text := by
  cases v <;> simp

theorem recode_eq_array {v : Value} {place : ArrayId} :
    recode g v = .array place ↔ v = .array place := by
  cases v <;> simp

/-- A number that is computed from numbers. -/
theorem number_carried (x : Float) :
    Carried g (Pure.pure (.number x) : Operation Value) (Pure.pure (.number x)) :=
  Carried.pure (Value.number x)

-- The cases are those of the operators. Values that an operator is not
-- defined on are no others when they are recoded.

theorem add_carried (depth : Nat) (left right : Value) :
    Carried g (add depth (recode g left) (recode g right)) (add depth left right) := by
  fun_induction add depth left right with
  | case1 depth a b ih => exact zipped_carried ih a b
  | case2 _ x y =>
      rw [recode_number, recode_number, add]
      exact number_carried (x + y)
  | case3 _ x right =>
      rw [recode_string, add]
      exact textBehind_carried x right
  | case4 _ left y hleft =>
      rw [recode_string, add]
      · exact textBefore_carried left y
      · simpa only [recode_eq_string] using hleft
  | case5 _ left right hnumbers hleft hright harrays =>
      rw [add]
      · exact mismatch_carried left right
      · simpa only [recode_eq_string] using hleft
      · simpa only [recode_eq_string] using hright
      · simpa only [recode_eq_number] using hnumbers
      · simpa only [recode_eq_array] using harrays

theorem subtract_carried (depth : Nat) (left right : Value) :
    Carried g (subtract depth (recode g left) (recode g right)) (subtract depth left right) := by
  fun_induction subtract depth left right with
  | case1 depth a b ih => exact zipped_carried ih a b
  | case2 _ x y =>
      rw [recode_number, recode_number, subtract]
      exact number_carried (x - y)
  | case3 _ left right hnumbers harrays =>
      rw [subtract]
      · exact mismatch_carried left right
      · simpa only [recode_eq_number] using hnumbers
      · simpa only [recode_eq_array] using harrays

theorem scalarProduct_carried (sum : Float) (pairs : List (Value × Value)) :
    Carried g (scalarProduct sum (recode g pairs)) (scalarProduct sum pairs) := by
  fun_induction scalarProduct sum pairs with
  | case1 sum => exact number_carried sum
  | case2 sum x y rest ih => exact ih
  | case3 sum x y rest hnumbers =>
      have hpair : recode g ((x, y) :: rest) = (recode g x, recode g y) :: recode g rest := rfl
      rw [hpair, scalarProduct]
      · exact mismatch_carried x y
      · simpa only [recode_eq_number] using hnumbers

theorem multiply_carried (depth : Nat) (left right : Value) :
    Carried g (multiply depth (recode g left) (recode g right)) (multiply depth left right) := by
  fun_induction multiply depth left right with
  | case1 _ x y =>
      rw [recode_number, recode_number, multiply]
      exact number_carried (x * y)
  | case2 _ a b =>
      rw [recode_array, recode_array, multiply]
      refine (items_carried a).bind fun xs => (items_carried b).bind fun ys => ?_
      rw [zip_recode]
      exact scalarProduct_carried 0.0 (xs.zip ys)
  | case3 depth a y ih => exact mapped_carried ih a
  | case4 depth x b ih => exact mapped_carried ih b
  | case5 _ left right hnumbers harrays hleft hright =>
      rw [multiply]
      · exact mismatch_carried left right
      · simpa only [recode_eq_number] using hnumbers
      · simpa only [recode_eq_array] using harrays
      · simpa only [recode_eq_array, recode_eq_number] using hleft
      · simpa only [recode_eq_array, recode_eq_number] using hright

theorem divide_carried (depth : Nat) (left right : Value) :
    Carried g (divide depth (recode g left) (recode g right)) (divide depth left right) := by
  fun_induction divide depth left right with
  | case1 _ x y =>
      rw [recode_number, recode_number, divide]
      exact number_carried (x / y)
  | case2 depth a y ih => exact mapped_carried ih a
  | case3 _ left right hnumbers hleft =>
      rw [divide]
      · exact mismatch_carried left right
      · simpa only [recode_eq_number] using hnumbers
      · simpa only [recode_eq_array, recode_eq_number] using hleft

theorem modulo_carried (depth : Nat) (left right : Value) :
    Carried g (modulo depth (recode g left) (recode g right)) (modulo depth left right) := by
  fun_induction modulo depth left right with
  | case1 _ x y =>
      rw [recode_number, recode_number, modulo]
      exact number_carried (remainder x y)
  | case2 depth a y ih => exact mapped_carried ih a
  | case3 _ left right hnumbers hleft =>
      rw [modulo]
      · exact mismatch_carried left right
      · simpa only [recode_eq_number] using hnumbers
      · simpa only [recode_eq_array, recode_eq_number] using hleft

theorem ordered_carried (left right : Value) (accepts : Ordering → Bool) :
    Carried g (ordered (recode g left) (recode g right) accepts) (ordered left right accepts) := by
  cases left <;> cases right <;> exact fun _ => rfl

theorem equal_recode (left right : Value) :
    equal (recode g left) (recode g right) = equal left right := by
  cases left <;> cases right <;> simp [equal, Value.same]

/-- An operator on two values. -/
theorem binary_carried (operator : BinaryOperator) (left right : Value) :
    Carried g (binary operator (recode g left) (recode g right)) (binary operator left right) := by
  unfold binary
  refine Carried.get fun h => ?_
  rw [Heap.depth_recode]
  cases operator with
  | equal => simp only [equal_recode]; rfl
  | notEqual => simp only [equal_recode]; rfl
  | approx => cases left <;> cases right <;> rfl
  | less => exact ordered_carried left right _ h
  | greater => exact ordered_carried left right _ h
  | lessEqual => exact ordered_carried left right _ h
  | greaterEqual => exact ordered_carried left right _ h
  | add => exact add_carried h.depth left right h
  | subtract => exact subtract_carried h.depth left right h
  | multiply => exact multiply_carried h.depth left right h
  | divide => exact divide_carried h.depth left right h
  | modulo => exact modulo_carried h.depth left right h
  | power => cases left <;> cases right <;> rfl
  | and => simp only [Value.truthy_recode]; split <;> rfl
  | or => simp only [Value.truthy_recode]; split <;> rfl

theorem negate_carried (depth : Nat) (operand : Value) :
    Carried g (negate depth (recode g operand)) (negate depth operand) := by
  induction depth generalizing operand with
  | zero => cases operand <;> exact fun _ => rfl
  | succ depth ih =>
      cases operand with
      | array place =>
          intro h
          have hitems : (recode g (h.array place).toList).mapM (negate depth) (recode g h)
              = recode g ((h.array place).toList.mapM (negate depth) h) := Carried.mapM ih h
          simp only [recode_array, negate, Heap.array_recode, toList_recode, StateT.run, hitems]
          cases (h.array place).toList.mapM (negate depth) h with
          | error type => rfl
          | ok p =>
              obtain ⟨items, h'⟩ := p
              refine congrArg Except.ok ?_
              rw [← Heap.newArray_recode, ← toArray_recode]
              rfl
      | _ => exact fun _ => rfl

/-- An operator on one value. -/
theorem unary_carried (operator : UnaryOperator) (operand : Value) :
    Carried g (unary operator (recode g operand)) (unary operator operand) := by
  cases operator with
  | not =>
      intro h
      simp only [unary, Value.truthy_recode]
      rfl
  | negate =>
      refine Carried.get fun h => ?_
      rw [Heap.depth_recode]
      exact negate_carried h.depth operand h

end Operators

end BoardScript
