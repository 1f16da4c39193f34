/-
Changing what a run does not look at. A recoding replaces each closure by
one of the same identity and the same text, and leaves it open what else
about it changes: its code, its scope. Nothing but a call looks at that,
so that everything short of a call does the same on a machine and on the
recoded one. Spans, which errors, warnings and records of what was created
carry along, are not looked at either.

A recoding of closures alone leaves a machine as it is just when it leaves
the closures as they are that the machine holds (`recode_eq_iff`). So facts
about all the closures of a machine are kept by whatever a recoding
commutes with.
-/
import BoardScript.Run.Activation

namespace BoardScript

/-- The text of a function or map literal. -/
def FunctionLiteral.text (literal : FunctionLiteral) : String :=
  Surface.literal literal.params literal.body literal.isMap

/-- The record of an object made by a call at a span of a text. -/
def Created.at (object : HostRef) (source : Source) (span : Span) : Created :=
  ⟨object, source.lineOf span.start, source.lineOf (max span.stop (span.start + 1) - 1)⟩

/-- A change of closures, of the places that are reported, of how programs
are run, of the clock, and of the scopes suspended below all others. -/
structure Recoding where
  closure : Closure → Closure
  span : Span → Span
  source : Source → Source
  created : Created → Created
  mode : Mode → Mode
  ticks : Option Nat → Option Nat
  outer : Array ScopeId := #[]
  identity_closure : ∀ c, (closure c).identity = c.identity
  text_closure : ∀ c, (closure c).literal.text = c.literal.text
  created_at : ∀ object text place,
    created (.at object text place) = .at object (source text) (span place)

attribute [simp] Recoding.identity_closure Recoding.created_at

@[simp] theorem Recoding.surface_closure (g : Recoding) (c : Closure) :
    Surface.literal (g.closure c).literal.params (g.closure c).literal.body
        (g.closure c).literal.isMap
      = Surface.literal c.literal.params c.literal.body c.literal.isMap :=
  g.text_closure c

/-- A recoding that leaves all places as they are. -/
structure Recoding.Still (g : Recoding) : Prop where
  span : ∀ span, g.span span = span
  source : ∀ source, g.source source = source
  created : ∀ created, g.created created = created

/-- A recoding of closures only. -/
structure Recoding.Plain (g : Recoding) : Prop extends g.Still where
  mode : ∀ mode, g.mode mode = mode
  ticks : ∀ ticks, g.ticks ticks = ticks
  outer : g.outer = #[]

/-- What can hold closures: what becomes of it, and which it holds. -/
class Recodable (α : Type) where
  recode : Recoding → α → α
  Holds : α → Closure → Prop

export Recodable (recode Holds)

/-- Only the closures held decide whether anything changes. -/
class LawfulRecodable (α : Type) [Recodable α] : Prop where
  recode_eq_iff {g : Recoding} (hg : g.Plain) (x : α) :
    recode g x = x ↔ ∀ c, Holds x c → g.closure c = c

export LawfulRecodable (recode_eq_iff)

-- =============================================================== instances

section

variable {α β : Type} [Recodable α] [Recodable β]

instance : Recodable Unit := ⟨fun _ x => x, fun _ _ => False⟩
instance : Recodable Bool := ⟨fun _ x => x, fun _ _ => False⟩
instance : Recodable Nat := ⟨fun _ x => x, fun _ _ => False⟩
instance : Recodable String := ⟨fun _ x => x, fun _ _ => False⟩
instance : Recodable Float := ⟨fun _ x => x, fun _ _ => False⟩

instance : Recodable (α × β) where
  recode g x := (recode g x.1, recode g x.2)
  Holds x c := Holds x.1 c ∨ Holds x.2 c

instance : Recodable (List α) where
  recode g := List.map (recode g)
  Holds xs c := ∃ x ∈ xs, Holds x c

instance : Recodable (Array α) where
  recode g := Array.map (recode g)
  Holds xs c := ∃ x ∈ xs, Holds x c

instance : Recodable (Option α) where
  recode g := Option.map (recode g)
  Holds x c := ∃ a, x = some a ∧ Holds a c

instance {ε : Type} : Recodable (Except ε α) where
  recode g := Except.map (recode g)
  Holds x c := ∃ a, x = .ok a ∧ Holds a c

instance : Recodable Value where
  recode g
    | .closure c => .closure (g.closure c)
    | other => other
  Holds v c := v = .closure c

instance : Recodable Element where
  recode g e := { e with attributes := recode g e.attributes }
  Holds e := Holds e.attributes

instance : Recodable Heap where
  recode g h := { h with
    arrays := recode g h.arrays
    objects := recode g h.objects
    elements := recode g h.elements }
  Holds h c := Holds h.arrays c ∨ Holds h.objects c ∨ Holds h.elements c

instance : Recodable Scope where
  recode g s := { s with locals := recode g s.locals }
  Holds s := Holds s.locals

instance : Recodable Scopes where
  recode g s := { s with table := recode g s.table, suspended := g.outer ++ s.suspended }
  Holds s := Holds s.table

instance : Recodable Warning where
  recode g
    | .shadowed name span => .shadowed name (g.span span)
    | .deprecatedUse span => .deprecatedUse (g.span span)
    | .deprecatedDelete span => .deprecatedDelete (g.span span)
  Holds _ _ := False

instance : Recodable Created where
  recode g := g.created
  Holds _ _ := False

instance : Recodable Machine where
  recode g m := { m with
    heap := recode g m.heap
    scopes := recode g m.scopes
    options := { m.options with mode := g.mode m.options.mode }
    warnings := recode g m.warnings
    created := recode g m.created
    ticks := g.ticks m.ticks }
  Holds m c := Holds m.heap c ∨ Holds m.scopes c

instance : Recodable RuntimeError where
  recode g
    | .fault f span => .fault f (g.span span)
    | .compile cause => .compile cause
  Holds _ _ := False

instance : Recodable Unwind where
  recode g
    | .returned value => .returned (recode g value)
    | .failed error => .failed (recode g error)
    | .exhausted => .exhausted
  Holds u c := ∃ value, u = .returned value ∧ Holds value c

instance : Recodable (EStateM.Result Unwind Machine α) where
  recode g
    | .ok a m => .ok (recode g a) (recode g m)
    | .error e m => .error (recode g e) (recode g m)
  Holds r c := match r with
    | .ok a m => Holds a c ∨ Holds m c
    | .error e m => Holds e c ∨ Holds m c

end

-- ==================================================================== laws

section

variable {α β : Type} [Recodable α] [Recodable β] [LawfulRecodable α] [LawfulRecodable β]

instance : LawfulRecodable Unit := ⟨fun _ _ => by simp [recode, Holds]⟩
instance : LawfulRecodable Bool := ⟨fun _ _ => by simp [recode, Holds]⟩
instance : LawfulRecodable Nat := ⟨fun _ _ => by simp [recode, Holds]⟩
instance : LawfulRecodable String := ⟨fun _ _ => by simp [recode, Holds]⟩
instance : LawfulRecodable Float := ⟨fun _ _ => by simp [recode, Holds]⟩

instance : LawfulRecodable (α × β) where
  recode_eq_iff hg x := by
    simp only [recode, Holds, Prod.ext_iff]
    rw [recode_eq_iff hg x.1, recode_eq_iff hg x.2]
    simp only [or_imp, forall_and]

theorem map_eq_self_iff {α : Type} {f : α → α} {xs : List α} :
    xs.map f = xs ↔ ∀ x ∈ xs, f x = x := by
  induction xs with
  | nil => simp
  | cons x xs ih => simp [ih]

theorem forall_holds_iff {xs : List α} {g : Recoding} (hg : g.Plain) :
    (∀ x ∈ xs, recode g x = x) ↔ ∀ c, (∃ x ∈ xs, Holds x c) → g.closure c = c := by
  constructor
  · rintro h c ⟨x, hx, hc⟩
    exact (recode_eq_iff hg x).1 (h x hx) c hc
  · intro h x hx
    exact (recode_eq_iff hg x).2 fun c hc => h c ⟨x, hx, hc⟩

instance : LawfulRecodable (List α) where
  recode_eq_iff hg xs := by
    simp only [recode, Holds]
    rw [map_eq_self_iff, forall_holds_iff hg]

instance : LawfulRecodable (Array α) where
  recode_eq_iff hg xs := by
    simp only [recode, Holds, ← Array.mem_toList_iff]
    rw [← forall_holds_iff hg, ← map_eq_self_iff, ← Array.toList_map, Array.toList_inj]

instance : LawfulRecodable (Option α) where
  recode_eq_iff hg x := by
    cases x with
    | none => simp [recode, Holds]
    | some a => simp [recode, Holds, ← recode_eq_iff hg a]

instance : LawfulRecodable Value where
  recode_eq_iff _ v := by
    cases v <;> simp [recode, Holds]

instance : LawfulRecodable Element where
  recode_eq_iff hg e := by
    rw [show (∀ c, Holds e c → _ = c) ↔ _ from (recode_eq_iff hg e.attributes).symm]
    cases e
    simp [recode]

instance : LawfulRecodable Heap where
  recode_eq_iff hg h := by
    simp only [Holds, or_imp, forall_and]
    have ha := recode_eq_iff hg h.arrays
    have ho := recode_eq_iff hg h.objects
    have he := recode_eq_iff hg h.elements
    simp only [Holds] at ha ho he
    rw [← ha, ← ho, ← he]
    cases h
    simp [recode]

instance : LawfulRecodable Scope where
  recode_eq_iff hg s := by
    rw [show (∀ c, Holds s c → _ = c) ↔ _ from (recode_eq_iff hg s.locals).symm]
    cases s
    simp [recode]

instance : LawfulRecodable Scopes where
  recode_eq_iff hg s := by
    rw [show (∀ c, Holds s c → _ = c) ↔ _ from (recode_eq_iff hg s.table).symm]
    cases s
    simp [recode, hg.outer]

theorem Recoding.Still.warning {g : Recoding} (hg : g.Still) (w : Warning) : recode g w = w := by
  cases w <;> simp [recode, hg.span]

theorem Recoding.Still.error {g : Recoding} (hg : g.Still) (e : RuntimeError) :
    recode g e = e := by
  cases e <;> simp [recode, hg.span]

theorem Recoding.Still.warnings {g : Recoding} (hg : g.Still) (ws : Array Warning) :
    recode g ws = ws :=
  (Array.map_congr_left fun w _ => hg.warning w).trans (Array.map_id' ws)

theorem Recoding.Still.records {g : Recoding} (hg : g.Still) (cs : Array Created) :
    recode g cs = cs :=
  (Array.map_congr_left fun c _ => hg.created c).trans (Array.map_id' cs)

instance : LawfulRecodable Machine where
  recode_eq_iff {g} hg m := by
    have hsplit : (∀ c, Holds m c → g.closure c = c) ↔
        recode g m.heap = m.heap ∧ recode g m.scopes = m.scopes := by
      rw [recode_eq_iff hg m.heap, recode_eq_iff hg m.scopes, ← forall_and]
      exact forall_congr' fun c => or_imp
    have hfields : recode g m = { m with heap := recode g m.heap, scopes := recode g m.scopes } := by
      show { m with heap := _, scopes := _, options := _, warnings := _, created := _, ticks := _ } = _
      rw [hg.mode, hg.ticks, hg.warnings, hg.records]
    rw [hsplit, hfields]
    cases m
    simp only [Machine.mk.injEq, and_true]

instance : LawfulRecodable Unwind where
  recode_eq_iff {g} hg u := by
    cases u with
    | returned value =>
        have := recode_eq_iff hg value
        simp only [recode, Holds, Unwind.returned.injEq] at this ⊢
        rw [this]
        simp
    | failed error =>
        have := hg.error error
        simp only [recode] at this
        simp [recode, Holds, this]
    | exhausted => simp [recode, Holds]

instance : LawfulRecodable (EStateM.Result Unwind Machine α) where
  recode_eq_iff {g} hg r := by
    cases r with
    | ok a m =>
        simp only [recode, EStateM.Result.ok.injEq]
        exact (and_congr (recode_eq_iff hg a) (recode_eq_iff hg m)).trans
          (by simp only [Holds, or_imp, forall_and])
    | error e m =>
        simp only [recode, EStateM.Result.error.injEq]
        exact (and_congr (recode_eq_iff hg e) (recode_eq_iff hg m)).trans
          (by simp only [Holds, or_imp, forall_and])

end

end BoardScript
