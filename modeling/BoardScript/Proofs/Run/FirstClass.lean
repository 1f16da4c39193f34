/-
Entries of the tables of functions are never first-class values. Running
programs and expressions, from the tree or from code, leaves behind machines
that are tidy (`Machine.Tidy`): whatever is bound in a scope, is an item of an
array, a field of an object or an attribute of an element is first class, and
a closure only has code that is made of its literal. What a run comes to is
first class too (`firstClass_everywhere`).

Within a run all machines are tidy as well, which is said as for the clock:
hooks that do anything on other machines are not noticed. Builtins, creators
and mathematical functions exist as callees only, since every node that is
evaluated has a first-class value, and code hands over first-class values
wherever it calls.
-/
import BoardScript.Proofs.Run.Watched

namespace BoardScript

-- ============================================================ kinds of machine

namespace Machine

/-- A machine on which all values are first class. -/
def FirstClass (m : Machine) : Prop := m.Stores Value.FirstClass

/-- A machine on which all values are first class, and what closures do is
known. -/
def Tidy (m : Machine) : Prop := m.Stores (Value.Stored Closure.Coded)

variable {m n : Machine}

theorem Tidy.firstClass (h : m.Tidy) : m.FirstClass := h.mono fun _ hv => hv.firstClass

theorem watched_iff {past : List Creation} : m.Watched .made past ↔ m.Tidy :=
  ⟨(·.stores), fun h => ⟨h, trivial⟩⟩

/-- A tidy machine, and a stored value if a value at all. -/
def TidyEnd (ended : Except Failure Value × Machine) : Prop :=
  ended.2.Tidy ∧ ∀ v, ended.1 = .ok v → v.Stored Closure.Coded

variable {hooks : Hooks}

theorem WatchedEnd.tidy {past : List Creation} {ended : Except Failure Value × Machine}
    (h : WatchedEnd .made past ended) : TidyEnd ended :=
  ⟨watched_iff.1 h.1, h.2⟩

theorem standardOn_watched (hh : hooks.StandardOn Tidy) : hooks.StandardOn (InWatch .made) :=
  ⟨fun n span ⟨_, hn⟩ => hh.ask n span (watched_iff.1 hn),
    fun n site ⟨_, hn⟩ => hh.refuse n site (watched_iff.1 hn)⟩

theorem Tidy.watched (h : m.Tidy) : m.Watched .made [] := watched_iff.2 h

theorem Tidy.executeHooked (h : m.Tidy) (hh : hooks.StandardOn Tidy) (turns : Nat) (source : Source)
    {root : Node} (hroot : root.Proper Lexical) :
    m.executeHooked hooks turns source root = m.executeWithin turns source root ∧
      TidyEnd (m.executeWithin turns source root) :=
  (h.watched.executeHooked (standardOn_watched hh) turns hroot trivial).imp_right (·.tidy)

theorem Tidy.runWithin (h : m.Tidy) (turns : Nat) (text : String) :
    TidyEnd (m.runWithin turns text) :=
  (h.watched.runWithin turns fun _ _ => trivial).tidy

theorem Tidy.snippetHooked (h : m.Tidy) (hh : hooks.StandardOn Tidy) (turns : Nat)
    (expression : String) :
    m.snippetHooked hooks turns expression = m.snippetWithin turns expression ∧
      TidyEnd (m.snippetWithin turns expression) :=
  (h.watched.snippetHooked (standardOn_watched hh) turns fun _ _ => trivial).imp_right (·.tidy)

/-- Machines in front of boards, with programs and expressions run on them,
any number of them one after the other. -/
inductive Reached : Machine → Prop
  | board (name : String) : Reached (withBoard name)
  /-- setting anything but what is stored -/
  | set {m n : Machine} (h : Reached m) (hheap : n.heap = m.heap) (hscopes : n.scopes = m.scopes) :
      Reached n
  | newBoard {m : Machine} (h : Reached m) (name : String) :
      Reached { m with heap := (m.heap.newBoard name).2 }
  /-- a program that was read, or a part of one -/
  | execute {m : Machine} (h : Reached m) (turns : Nat) (source : Source) {root : Node}
      (hroot : root.Proper Lexical) : Reached (m.executeWithin turns source root).2
  | run {m : Machine} (h : Reached m) (turns : Nat) (text : String) :
      Reached (m.runWithin turns text).2
  | snippet {m : Machine} (h : Reached m) (turns : Nat) (expression : String) :
      Reached (m.snippetWithin turns expression).2

theorem Reached.tidy (h : m.Reached) : m.Tidy := by
  induction h with
  | board name =>
      refine ⟨⟨?_, ?_, ?_⟩, ?_⟩
      · exact fun _ h => absurd h (Array.not_mem_empty _)
      · exact fun _ h => absurd h (Array.not_mem_empty _)
      · exact fun _ h => absurd h (Array.not_mem_empty _)
      · intro s hs p hp
        obtain rfl : s = ⟨none, []⟩ := List.mem_singleton.1 (Array.mem_toList_iff.2 hs)
        cases hp
  | set _ hheap hscopes ih => exact Machine.Stores.of_eq ih hheap hscopes
  | newBoard _ name ih => exact Machine.Stores.withHeap ih (ih.heap.withBoards _)
  | execute _ turns source hroot ih =>
      exact (ih.executeHooked (Hooks.standardOn_standard _) turns source hroot).2.1
  | run _ turns text ih => exact (ih.runWithin turns text).1
  | snippet _ turns expression ih =>
      exact (ih.snippetHooked (Hooks.standardOn_standard _) turns expression).2.1

end Machine

-- ================================================================== arguments

/-- Whatever is evaluated on tidy machines is first class: nodes, the
arguments of calls, and the fields of attributes and objects. -/
def Env.FirstClass (env : Env) : Prop :=
  ∀ n : Machine, n.Tidy →
    (∀ (node : Node) naming v k, node.eval env naming n = .ok v k → v.FirstClass) ∧
    (∀ args vs k, evalAll env args n = .ok vs k → ∀ v ∈ vs, v.FirstClass) ∧
    ∀ properties fields k, evalProperties env properties n = .ok fields k →
      ∀ p ∈ fields, p.2.FirstClass

/-- A plan whose instructions keep to machines of stored values, and hand
over stored values wherever they call. -/
def Plan.Keeps {α : Type} (C : Closure → Prop) (Q : α → Prop) : Plan α → Prop
  | .give a => Q a
  | .act _ x _ next => BoardScript.Keeps C (fun b => (next b).Keeps C Q) x
  | .call _ function args _ _ next =>
      function.Callee C ∧ (∀ v ∈ args, v.Stored C) ∧ ∀ v, v.Stored C → (next v).Keeps C Q
  | .done _ x _ => BoardScript.Keeps C (Value.Stored C) x
  | .cut => True

theorem Plan.Watched.keeps {α : Type} {W : Watch} {Q : α → Prop} {p : Plan α} (hp : p.Watched W Q) :
    p.Keeps W.Fine Q := by
  induction p with
  | give a => exact hp
  | act span x steady next ih => exact fun m hm => ⟨(hp m hm).1.mono ih, (hp m hm).2⟩
  | call node function args attributes site next ih =>
      exact ⟨hp.1, hp.2.1, fun v hv => ih v (hp.2.2.2 v hv)⟩
  | done span x steady => exact hp
  | cut => trivial

/-- Code that does what a plan says, which hands over stored values wherever
it calls. All calls are in the plan: its other instructions are steady. -/
def Chunk.FirstClass (chunk : Chunk) (source : Source) (plan : (turns : Nat) → Plan Value) : Prop :=
  ∀ env : Env, env.source = source →
    (plan env.fuel).Keeps Closure.Coded (Value.Stored Closure.Coded) ∧
      chunk.run env = (plan env.fuel).runWithin env

theorem Env.Agrees.firstClass {env : Env} {calls : CallMakings} (h : env.Agrees .made env calls) :
    env.FirstClass := by
  intro n hn
  refine ⟨fun node naming v k hv => ?_, fun args vs k hvs => ?_, fun properties fields k hfields => ?_⟩
  · have hkept := (Node.agrees h node trivial naming [] n hn trivial).2.1
    rw [hv] at hkept
    exact hkept.2.firstClass
  · have hkept := (agrees_all h args (fun _ _ => trivial) [] n hn trivial).2.1
    rw [hvs] at hkept
    exact fun v hv => (hkept.2 v hv).firstClass
  · have hpairs := agrees_pairs h properties fun _ _ => trivial
    have hkept := (agrees_properties hpairs [] n hn trivial).2.1
    rw [hfields] at hkept
    exact fun p hp => (hkept.2 p hp).firstClass

/-- Builtins, creators and mathematical functions are no first-class values.
However programs and expressions were run before, in either mode, nothing
that a machine stores is one of them, and neither is what another run comes
to. All machines within the run are tidy: hooks that differ from the standard
ones anywhere else are not noticed. On tidy machines nothing that is
evaluated is one of them, the arguments of calls among it; and code, of a
script or of a function, runs the plan of its tree, which hands over none
where it calls. -/
theorem firstClass_everywhere {m : Machine} (h : m.Reached) (turns : Nat) :
    m.FirstClass ∧
    (∀ source root, root.Proper Lexical → ∀ v, (m.executeWithin turns source root).1 = .ok v →
      v.FirstClass) ∧
    (∀ text v, (m.runWithin turns text).1 = .ok v → v.FirstClass) ∧
    (∀ expression v, (m.snippetWithin turns expression).1 = .ok v → v.FirstClass) ∧
    (∀ hooks : Hooks, hooks.StandardOn Machine.Tidy →
      (∀ source root, root.Proper Lexical →
        m.executeHooked hooks turns source root = m.executeWithin turns source root) ∧
      ∀ expression, m.snippetHooked hooks turns expression = m.snippetWithin turns expression) ∧
    (∀ levels source,
      Env.FirstClass ⟨turns, callClosure .standard turns levels, checkCancelled, source⟩) ∧
    (∀ source root chunk, root.Proper Lexical → compileScript source root = .ok chunk →
      chunk.FirstClass source fun turns => scriptPlan source turns root) ∧
    ∀ source (literal : FunctionLiteral) chunk, literal.body.Proper Lexical →
      literal.compile source = .ok chunk →
        chunk.FirstClass source fun turns => literal.plan source turns := by
  have hm := h.tidy
  have hstandard := Hooks.standardOn_standard Machine.Tidy
  refine ⟨hm.firstClass, fun source root hroot v hv => ?_, fun text v hv => ?_,
    fun expression v hv => ?_, fun hooks hh => ⟨fun source root hroot => ?_, fun expression => ?_⟩,
    fun levels source => ?_, fun source root chunk hroot hchunk env hsource => ?_,
    fun source literal chunk hbody hchunk env hsource => ?_⟩
  · exact ((hm.executeHooked hstandard turns source hroot).2.2 v hv).firstClass
  · exact ((hm.runWithin turns text).2 v hv).firstClass
  · exact ((hm.snippetHooked hstandard turns expression).2.2 v hv).firstClass
  · exact (hm.executeHooked hh turns source hroot).1
  · exact (hm.snippetHooked hh turns expression).1
  · exact (agrees_standard turns levels source).firstClass
  · exact ⟨(keeps_scriptPlan (W := .made) hroot trivial env.fuel).keeps,
      script_run_eq hroot hchunk hsource⟩
  · exact ⟨(FunctionLiteral.keeps (W := .made) hbody trivial env.fuel).keeps,
      FunctionLiteral.run_eq hbody hchunk hsource⟩

/-- A loop with a branch and calls, run on a new board from its tree, and
its code: what is logged is handed to a builtin as a first-class value. -/
theorem firstClass_everywhere_logOnce :
    let m := Machine.withBoard "board"
    let source := Source.ofText logOnceText
    m.Reached ∧ Node.logOnce.Proper Lexical ∧ Hooks.standard.StandardOn Machine.Tidy ∧ m.FirstClass ∧
      (m.executeWithin 1 source .logOnce).1 = .ok .undefined ∧ Value.undefined.FirstClass ∧
      ∃ chunk, compileScript source .logOnce = .ok chunk ∧
        chunk.FirstClass source fun turns => scriptPlan source turns .logOnce := by
  intro m source
  have hreached : m.Reached := .board "board"
  have hproper : Node.logOnce.Proper Lexical := (proper_of_parse (parse_logOnce {})).2
  obtain ⟨hm, hresult, -, -, -, -, hscript, -⟩ := firstClass_everywhere hreached 1
  have hends : (m.executeWithin 1 source .logOnce).1 = .ok .undefined := by
    unfold m source
    cbv
  exact ⟨hreached, hproper, Hooks.standardOn_standard _, hm, hends,
    hresult source .logOnce hproper .undefined hends, _, rfl, hscript source .logOnce _ hproper rfl⟩

end BoardScript
