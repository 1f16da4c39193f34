/-
Scopes that are found by number. A machine keeps the global scope, the
current one and the suspended ones, the scopes of all closures that a program
can get to from there, from the boards or from the values that it has in
hand, and the parents of all these (`Machine.Keeps`, `Machine.Reaches`). A
register fits a machine if it has numbered as many scopes and holds those
that the machine keeps; which others it still holds is left open
(`Register.Fits`). Then every closure that can be got to is found a scope
under the number of its scope, which is that scope, and a register that fits
goes on to do so when a scope is entered and when one is dropped that is not
kept (`Register.Fits.numbered`).

A caller that looks the scope of each closure up by number, in registers that
fit, calls closures as they are called anyway (`likeOn_callByNumber`).
-/
import BoardScript.Proofs.Run.Ancestry
import BoardScript.Proofs.Run.Keep
import BoardScript.Proofs.Run.Register

namespace BoardScript

-- ================================================================ what is kept

/-- What a program can get from a value. -/
inductive Heap.Part (h : Heap) : Value → Value → Prop
  | item {place : ArrayId} {v : Value} (hv : v ∈ h.array place) : Part h (.array place) v
  | field {place : ObjectId} {name : String} {v : Value} (hv : (name, v) ∈ h.object place) :
      Part h (.object place) v
  | property {index : Nat} {e : Element} {name : String} {v : Value}
      (he : h.elements[index]? = some e) (hv : (name, v) ∈ e.attributes) :
      Part h (.host (.element index)) v
  | label {index : Nat} {e : Element} {label : HostRef} (he : h.elements[index]? = some e)
      (hlabel : e.label = some label) : Part h (.host (.element index)) (.host label)
  | element {board index : Nat} {e : Element} (he : (index, e) ∈ h.liveElements board) :
      Part h (.host (.board board)) (.host (.element index))

mutual

/-- The scopes that something other than the register holds on a machine,
while a run has values in hand. -/
inductive Machine.Keeps (m : Machine) (hand : List Value) : ScopeId → Prop
  | global : Keeps m hand Scopes.globalId
  | current : Keeps m hand m.scopes.current
  | suspended {scope : ScopeId} (h : scope ∈ m.scopes.suspended) : Keeps m hand scope
  | captured {c : Closure} (h : Reaches m hand (.closure c)) : Keeps m hand c.scope
  | parent {scope parent : ScopeId} {s : Scope} (h : Keeps m hand scope)
      (hs : m.scopes.table[scope]? = some s) (hparent : s.parent = some parent) :
      Keeps m hand parent

/-- The values that a program can get to. -/
inductive Machine.Reaches (m : Machine) (hand : List Value) : Value → Prop
  | inHand {v : Value} (h : v ∈ hand) : Reaches m hand v
  | board {board : Nat} (h : board ∈ m.host.boards) : Reaches m hand (.host (.board board))
  | bound {scope : ScopeId} {s : Scope} {name : String} {v : Value} (h : Keeps m hand scope)
      (hs : m.scopes.table[scope]? = some s) (hv : (name, v) ∈ s.locals) : Reaches m hand v
  | part {v w : Value} (h : Reaches m hand v) (hw : m.heap.Part v w) : Reaches m hand w

end

/-- A register that has numbered the scopes of a machine and holds those that
the machine keeps. -/
structure Register.Fits (r : Register) (m : Machine) (hand : List Value) : Prop where
  reached : r.Reached
  size : r.numbers.size = m.scopes.table.size
  held : ∀ scope < m.scopes.table.size, m.Keeps hand scope → r.held scope = true

section

variable {before : Array Scope} {m : Machine} {hand args : List Value} {c : Closure} {r : Register}

/-- A closure that can be got to is held by the machine, or in hand. -/
theorem Machine.Reaches.stored (h : m.Reaches hand (.closure c)) : Holds m c ∨ Holds hand c := by
  cases h with
  | inHand h => exact .inr ⟨_, h, rfl⟩
  | bound _ hs hv => exact .inl (.inr ⟨_, Array.mem_of_getElem? hs, _, hv, .inr rfl⟩)
  | part _ hw =>
      refine .inl (.inl ?_)
      cases hw with
      | item hv =>
          rw [Heap.array, Array.getD_eq_getD_getElem?] at hv
          cases hitems : m.heap.arrays[‹ArrayId›.index]? with
          | none => simp [hitems] at hv
          | some items =>
              rw [hitems] at hv
              exact .inl ⟨items, Array.mem_of_getElem? hitems, _, hv, rfl⟩
      | field hv =>
          rw [Heap.object, Array.getD_eq_getD_getElem?] at hv
          cases hfields : m.heap.objects[‹ObjectId›.index]? with
          | none => simp [hfields] at hv
          | some fields =>
              rw [hfields] at hv
              exact .inr (.inl ⟨fields, Array.mem_of_getElem? hfields, _, hv, .inr rfl⟩)
      | property he hv => exact .inr (.inr ⟨_, Array.mem_of_getElem? he, _, hv, .inr rfl⟩)

/-- The scope of a closure that can be got to is there. -/
theorem Machine.Rooted.reaches (hm : m.Rooted before)
    (hhand : ∀ d, Holds hand d → d.scope < m.scopes.table.size) (hc : m.Reaches hand (.closure c)) :
    c.scope < m.scopes.table.size :=
  hc.stored.elim (hm.closures c) (hhand c)

/-- There is a register that holds just what a machine keeps. -/
theorem Machine.Rooted.exists_fits (hm : m.Rooted before) (hand : List Value) :
    ∃ r : Register, r.Fits m hand ∧
      ∀ scope, r.held scope = true ↔ scope < m.scopes.table.size ∧ m.Keeps hand scope := by
  obtain ⟨r, hr, hsize, hheld⟩ := Register.exists_holding (m.Keeps hand) (Nat.zero_lt_of_lt hm.current)
  exact ⟨r, ⟨hr, hsize, fun scope hscope hkept => (hheld scope).2 ⟨hscope, hkept⟩⟩, hheld⟩

/-- The scope that is entered is new, and the others are the same. -/
theorem Machine.scope_enter {scope : ScopeId} {s : Scope}
    (hs : (m.enter c args).scopes.table[scope]? = some s) :
    m.scopes.table[scope]? = some s ∨
      scope = m.scopes.table.size ∧ s = ⟨some c.scope, Scopes.bindParams c.params args⟩ := by
  rw [show (m.enter c args).scopes.table = m.scopes.table.push _ from rfl, Array.getElem?_push] at hs
  split at hs
  · exact .inr ⟨‹_›, (Option.some_inj.1 hs).symm⟩
  · exact .inl hs

mutual

/-- Entering a scope below one that is kept adds only the new scope to what is
kept. -/
theorem Machine.keeps_of_enter (hc : m.Reaches hand (.closure c))
    (hargs : ∀ v ∈ args, m.Reaches hand v) {scope : ScopeId} :
    (m.enter c args).Keeps hand scope → m.Keeps hand scope ∨ scope = m.scopes.table.size
  | .global => .inl .global
  | .current => .inr rfl
  | .suspended h => (Array.mem_push.1 h).elim (.inl ∘ .suspended) fun heq => .inl (heq ▸ .current)
  | .captured h => (reaches_of_enter hc hargs h).elim (.inl ∘ .captured) nofun
  | .parent h hs hparent =>
      have hbelow := keeps_of_enter hc hargs h
      match Machine.scope_enter hs with
      | .inl hold => by
          refine hbelow.elim (fun h => .inl (.parent h hold hparent)) ?_
          rintro rfl
          simp at hold
      | .inr ⟨_, hnew⟩ => by
          subst hnew
          cases hparent
          exact .inl (.captured hc)

/-- A program gets to no more behind it, except that parameters without
arguments are undefined. -/
theorem Machine.reaches_of_enter (hc : m.Reaches hand (.closure c))
    (hargs : ∀ v ∈ args, m.Reaches hand v) {v : Value} :
    (m.enter c args).Reaches hand v → m.Reaches hand v ∨ v = .undefined
  | .inHand h => .inl (.inHand h)
  | .board h => .inl (.board h)
  | .bound h hs hv =>
      have hbelow := keeps_of_enter hc hargs h
      match Machine.scope_enter hs with
      | .inl hold => by
          refine hbelow.elim (fun h => .inl (.bound h hold hv)) ?_
          rintro rfl
          simp at hold
      | .inr ⟨_, hnew⟩ => by
          subst hnew
          exact Scopes.of_bindParams (P := fun v => m.Reaches hand v ∨ v = .undefined) (.inr rfl)
            (fun v hv => .inl (hargs v hv)) c.params _ hv
  | .part h hw => (reaches_of_enter hc hargs h).elim (fun h => .inl (.part h hw)) fun hundefined => by
      subst hundefined
      cases hw

end

end

-- ============================================================= finding by number

/-- Enters a scope below the one that is found under the number of the scope
that a closure was made in. -/
def enterByNumber (r : Register) (closure : Closure) (args : List Value) : Eval Unit := fun m =>
  match (r.numbers[closure.scope]?).bind r.find with
  | some parent => .ok () { m with scopes := m.scopes.push parent closure.params args }
  | none => .error (.failed (.compile (.malformed (.unknownScope closure.scope)))) m

/-- What a register does for a machine whose scopes it holds. -/
structure Register.Finds (r : Register) (m : Machine) (hand : List Value) : Prop where
  /-- the scope of a closure is there, and is what is found under its number -/
  found : ∀ c, m.Reaches hand (.closure c) →
    c.scope < m.scopes.table.size ∧ (r.numbers[c.scope]?).bind r.find = some c.scope
  entered : ∀ c args, m.Reaches hand (.closure c) → enterByNumber r c args m = enterScope c args m
  /-- it still fits when a closure has been entered, -/
  made : ∀ c args, m.Reaches hand (.closure c) → (∀ v ∈ args, m.Reaches hand v) →
    r.make.Fits (m.enter c args) hand
  /-- and when the last is gone that held a scope. -/
  dropped : ∀ scope, ¬m.Keeps hand scope → (r.drop scope).Fits m hand

section

variable {before : Array Scope} {m : Machine} {hand args : List Value} {c : Closure} {r : Register}

theorem Register.Fits.found (h : r.Fits m hand) (hscope : c.scope < m.scopes.table.size)
    (hc : m.Reaches hand (.closure c)) : (r.numbers[c.scope]?).bind r.find = some c.scope := by
  obtain ⟨hnumber, hfind⟩ := h.reached.find_eq (h.held c.scope hscope (.captured hc))
  rw [hnumber, Option.bind_some, hfind]

theorem Register.Fits.entered (h : r.Fits m hand) (hscope : c.scope < m.scopes.table.size)
    (hc : m.Reaches hand (.closure c)) (args : List Value) :
    enterByNumber r c args m = enterScope c args m := by
  rw [enterByNumber, h.found hscope hc, enterScope_eq, Scopes.contains, if_pos (decide_eq_true hscope)]

theorem Register.Fits.make (h : r.Fits m hand) (hc : m.Reaches hand (.closure c))
    (hargs : ∀ v ∈ args, m.Reaches hand v) : r.make.Fits (m.enter c args) hand := by
  have hsize : (m.enter c args).scopes.table.size = m.scopes.table.size + 1 := Array.size_push ..
  refine ⟨.make h.reached, ?_, fun scope hscope hkept => ?_⟩
  · rw [hsize, Register.make, Array.size_push, h.size]
  · show (scope == r.numbers.size || r.held scope) = true
    rw [Bool.or_eq_true, beq_iff_eq, h.size]
    rcases Machine.keeps_of_enter hc hargs hkept with hold | hnew
    · rcases Nat.lt_succ_iff_lt_or_eq.1 (hsize ▸ hscope) with hlt | heq
      · exact .inr (h.held scope hlt hold)
      · exact .inl heq
    · exact .inl hnew

theorem Register.Fits.drop (h : r.Fits m hand) {dropped : ScopeId} (hgone : ¬m.Keeps hand dropped) :
    (r.drop dropped).Fits m hand := by
  refine ⟨.drop h.reached dropped, h.size, fun scope hscope hkept => ?_⟩
  show (scope != dropped && r.held scope) = true
  rw [Bool.and_eq_true, bne_iff_ne]
  refine ⟨?_, h.held scope hscope hkept⟩
  rintro rfl
  exact hgone hkept

/-- A register that fits finds what a program can get to. -/
theorem Register.Fits.finds (h : r.Fits m hand) (hm : m.Rooted before)
    (hhand : ∀ d, Holds hand d → d.scope < m.scopes.table.size) : r.Finds m hand where
  found _ hc := ⟨hm.reaches hhand hc, h.found (hm.reaches hhand hc) hc⟩
  entered _ args hc := h.entered (hm.reaches hhand hc) hc args
  made _ _ hc hargs := h.make hc hargs
  dropped _ hgone := h.drop hgone

end

-- ============================================================= calling by number

/-- Calls a closure, the scope of which is looked up in the register of the
moment. Compiled code is entered so; here closures that run from their tree
are looked up as well. -/
def callByNumber (register : Machine → Closure → List Value → Register) (fuel : Nat) :
    (levels : Nat) → Caller
  | 0, _, _, _ => throw .exhausted
  | levels + 1, closure, args, site =>
      countingCall (overflow site) (leavingScopes fun m =>
        (do
          enterByNumber (register m closure args) closure args
          closure.body ⟨fuel, callByNumber register fuel levels, checkCancelled, closure.source⟩)
          m)

/-- Registers that fit the machines on which closures are called. -/
def Register.Serves (before : Array Scope) (register : Machine → Closure → List Value → Register) :
    Prop :=
  ∀ (m : Machine) (c : Closure) (args : List Value), m.Rooted before →
    c.scope < m.scopes.table.size → (∀ d, Holds args d → d.scope < m.scopes.table.size) →
    (register m c args).Fits m (.closure c :: args)

/-- A program as an action, with closures called in a given way. -/
def Machine.actionCalling (m : Machine) (call : Caller) (turns : Nat) (source : Source)
    (root : Node) : Eval Value :=
  let env : Env := ⟨turns, call, checkCancelled, source⟩
  match m.options.mode with
  | .tree => root.eval env none
  | .compiled =>
      match compileScript source root with
      | .ok chunk => chunk.run env
      | .error cause => throw (.failed (.ofCompile cause))

/-- Executes a program with closures called in a given way. -/
def Machine.executeCalling (m : Machine) (call : Caller) (turns : Nat) (source : Source)
    (root : Node) : Except Failure Value × Machine :=
  outcome (always (m.actionCalling call turns source root) (leaveRun m.scopes.depth)) m.enterRun

/-- Closures called as they are called anyway. -/
theorem Machine.executeCalling_callClosure (m : Machine) (turns : Nat) (source : Source)
    (root : Node) :
    m.executeCalling (callClosure .standard turns (m.options.maxCallDepth + 1)) turns source root
      = m.executeWithin turns source root := rfl

section

variable {before : Array Scope} {m : Machine} {c : Closure} {args : List Value}
  {register : Machine → Closure → List Value → Register}

theorem Register.exists_serves (before : Array Scope) : ∃ register, Register.Serves before register := by
  have hfits : ∀ (m : Machine) (c : Closure) (args : List Value), ∃ r : Register,
      m.Rooted before → r.Fits m (.closure c :: args) := fun m c args => by
    by_cases hm : m.Rooted before
    · obtain ⟨r, hr, -⟩ := hm.exists_fits (.closure c :: args)
      exact ⟨r, fun _ => hr⟩
    · exact ⟨.start, fun h => absurd h hm⟩
  choose register hregister using hfits
  exact ⟨register, fun m c args hm _ _ => hregister m c args hm⟩

theorem Machine.Rooted.enter (hm : m.Rooted before) (hscope : c.scope < m.scopes.table.size)
    (hargs : ∀ d, Holds args d → d.scope < m.scopes.table.size) : (m.enter c args).Rooted before := by
  have hsize : (m.enter c args).scopes.table.size = m.scopes.table.size + 1 := Array.size_push ..
  have hc : (Recoding.moving (·.scope < m.scopes.table.size)).closure c = c :=
    Recoding.moving_closure.2 hscope
  have hsame := Machine.enter_recode (congrArg Closure.scope hc) (congrArg Closure.params hc) m args
  rw [recode_moving_eq.2 hm.closures, hc, recode_moving_eq.2 hargs] at hsame
  refine ⟨hm.grown.trans (.push _ rfl hscope), hsize ▸ Nat.lt_succ_self _, fun d hd => ?_⟩
  exact hsize ▸ Nat.lt_succ_of_lt (recode_moving_eq.1 hsame.symm d hd)

theorem countingCall_congr {refusal x y : Eval Value}
    (h : x { m with callDepth := m.callDepth + 1 } = y { m with callDepth := m.callDepth + 1 }) :
    countingCall refusal x m = countingCall refusal y m := by
  simp only [countingCall, always, h]

theorem leavingScopes_congr {x y : Eval Value} (h : x m = y m) :
    leavingScopes x m = leavingScopes y m := by
  simp only [leavingScopes, always, h]

/-- Looking the scopes of closures up by number makes no difference. -/
theorem likeOn_callByNumber (h : Register.Serves before register) (fuel levels : Nat) :
    (callByNumber register fuel levels).LikeOn before (callClosure .standard fuel levels) := by
  induction levels with
  | zero => exact fun _ _ _ _ _ _ _ => rfl
  | succ levels ih =>
      intro c args site m hm hscope hargs
      have hcounted : ({ m with callDepth := m.callDepth + 1 } : Machine).Rooted before :=
        hm.of_scopes rfl fun _ => id
      have hentered := (h _ c args hcounted hscope hargs).entered hscope (.inHand (.head _)) args
      have hcontains : m.scopes.contains c.scope = true := decide_eq_true hscope
      obtain ⟨hnode, hchunk⟩ := calls_rooted c.source ih (hm.enter hscope hargs)
      refine countingCall_congr (leavingScopes_congr ?_)
      show EStateM.bind _ _ _ = EStateM.bind _ _ _
      simp only [EStateM.bind, hentered, enterScope_eq, hcontains, if_true]
      show c.body _ (m.enter c args) = c.body _ (m.enter c args)
      unfold Closure.body
      cases c.compiled with
      | some chunk => exact hchunk chunk
      | none => simp only [bodyValue, hnode, Hooks.standard]

/-- Nor does it for a program. -/
theorem Machine.Rooted.executeCalling (hm : m.Rooted before) {turns : Nat} {call : Caller}
    (hcall : call.LikeOn before (callClosure .standard turns (m.options.maxCallDepth + 1)))
    (source : Source) (root : Node) :
    m.executeCalling call turns source root = m.executeWithin turns source root := by
  obtain ⟨hnode, hchunk⟩ := calls_rooted source hcall hm.enterRun
  have haction : m.actionCalling call turns source root m.enterRun
      = m.action .standard turns source root m.enterRun := by
    unfold Machine.actionCalling Machine.action
    cases m.options.mode with
    | tree => exact hnode root none
    | compiled =>
        cases compileScript source root with
        | ok chunk => exact hchunk chunk
        | error cause => rfl
  rw [Machine.executeWithin, Machine.executeHooked, Machine.executeCalling]
  unfold Machine.outcome always
  rw [haction]

end

-- ====================================================================== the tree

/-- What holds of the scopes of a machine and of the numbers that a register
has given them. -/
structure Scopes.Identified (table : Array Scope) (r : Register) : Prop where
  /-- the number of a scope is its place, so that no two scopes have one -/
  numbers : ∀ scope < table.size, r.numbers[scope]? = some scope
  unique : ∀ scope other number : Nat, r.numbers[scope]? = some number → r.numbers[other]? = some number →
    scope = other
  /-- the next number exceeds all that have been given -/
  next : ∀ number ∈ r.numbers, number < r.next
  kept : ∀ later : Register, r.Leads later → ∀ scope < table.size, later.numbers[scope]? = r.numbers[scope]?
  found : ∀ scope, r.held scope = true → r.find scope = some scope

theorem Register.Reached.identified {r : Register} (h : r.Reached) {table : Array Scope}
    (hsize : r.numbers.size = table.size) : Scopes.Identified table r where
  numbers scope hscope := h.sound.numbers scope (hsize ▸ hscope)
  unique _ _ _ := h.place_unique
  next number hnumber := by
    obtain ⟨place, hplace, rfl⟩ := Array.mem_iff_getElem.1 hnumber
    have hsame := h.sound.numbers place hplace
    rw [Array.getElem?_eq_getElem hplace, Option.some_inj] at hsame
    rw [hsame, h.sound.next]
    exact hplace
  kept later hlater scope hscope := hlater.numbers_eq.2 scope (hsize ▸ hscope)
  found scope hheld := (h.find_eq hheld).2

/-- The scopes of a program are a tree with numbers that stay. Beginning with
a new machine, and however programs and expressions were run before, in
either mode, all machines between runs and within runs are rooted in the
scopes that there were before, and so are the closures that runs come to; no
closure is called whose scope is not there. On a rooted machine every scope
but the global one has an older parent, which is the parent that it always
had; looking a name up finds its first binding along the chain of parents;
and a register numbers the scopes in the order in which they were made, gives
no number twice and, however often it was cleared, finds every scope that is
held. A register that holds what the machine keeps, and there is one that
holds nothing else, finds the scope of every closure that a program can get
to, and still does so once a closure has been entered or a scope dropped that
is not kept. So calls that look the scopes of closures up by number do what
calls do anyway, and so do programs with such calls. -/
theorem scopes_are_tree {new m : Machine} (hnew : new.New) (h : new.Onward m) (turns : Nat) :
    (∀ n, m.Onward n → n.Rooted m.scopes.table) ∧
    (∀ hooks : Hooks, hooks.StandardOn (Machine.Rooted m.scopes.table) →
      (∀ source root, m.executeHooked hooks turns source root = m.executeWithin turns source root ∧
        Machine.RootedEnd m.scopes.table (m.executeWithin turns source root)) ∧
      ∀ expression, m.snippetHooked hooks turns expression = m.snippetWithin turns expression ∧
        Machine.RootedEnd m.scopes.table (m.snippetWithin turns expression)) ∧
    (∀ levels source (call : Caller),
      call.LikeOn m.scopes.table (callClosure .standard turns levels) →
      ∀ n : Machine, n.Rooted m.scopes.table →
        (∀ (node : Node) naming, node.eval ⟨turns, call, checkCancelled, source⟩ naming n
          = node.eval ⟨turns, callClosure .standard turns levels, checkCancelled, source⟩ naming n) ∧
        ∀ chunk : Chunk, chunk.run ⟨turns, call, checkCancelled, source⟩ n
          = chunk.run ⟨turns, callClosure .standard turns levels, checkCancelled, source⟩ n) ∧
    (∀ n : Machine, n.Rooted m.scopes.table →
      Scopes.Tree n.scopes.table ∧ Scopes.Grown m.scopes.table n.scopes.table ∧
      (∀ scope < n.scopes.table.size, ∃ chain, Scopes.Chain n.scopes.table scope chain ∧
        chain.Pairwise (· > ·) ∧ chain.getLast? = some Scopes.globalId ∧
        ∀ name, Scopes.lookupFrom n.scopes.table scope name
          = chain.findSome? (Scopes.bound n.scopes.table name)) ∧
      (∀ r : Register, r.Reached → r.numbers.size = n.scopes.table.size →
        Scopes.Identified n.scopes.table r) ∧
      ∀ hand : List Value, (∀ c, Holds hand c → c.scope < n.scopes.table.size) →
        (∃ r : Register, r.Fits n hand ∧
          ∀ scope, r.held scope = true ↔ scope < n.scopes.table.size ∧ n.Keeps hand scope) ∧
        ∀ r : Register, r.Fits n hand → r.Finds n hand) ∧
    (∃ register, Register.Serves m.scopes.table register) ∧
    ∀ register, Register.Serves m.scopes.table register →
      (∀ levels, (callByNumber register turns levels).LikeOn m.scopes.table
        (callClosure .standard turns levels)) ∧
      ∀ source root,
        m.executeCalling (callByNumber register turns (m.options.maxCallDepth + 1)) turns source root
          = m.executeWithin turns source root := by
  have hm : m.Rooted Scopes.start.table := hnew.rooted.onward h
  refine ⟨fun n hn => hm.self.onward hn, fun hooks hh => ⟨fun source root => ?_, fun expression => ?_⟩,
    fun levels source call hcall n hn => calls_rooted source hcall hn, fun n hn => ?_,
    Register.exists_serves _, fun register hserves => ⟨likeOn_callByNumber hserves turns,
      fun source root => hm.self.executeCalling (likeOn_callByNumber hserves turns _) source root⟩⟩
  · exact hm.self.executeHooked hh turns source root
  · exact hm.self.snippetHooked hh turns expression
  · have htree := Scopes.tree_iff_grown.2 (hm.trans hn).grown
    refine ⟨htree, hn.grown, fun scope hscope => ?_, fun r hr hsize => hr.identified hsize,
      fun hand hhand => ⟨hn.exists_fits hand, fun r hr => hr.finds hn hhand⟩⟩
    obtain ⟨chain, hchain, hsorted, -, hlast, hlookup⟩ := htree.exists_chain scope hscope
    exact ⟨chain, hchain, hsorted, hlast, hlookup⟩

/-- The program
`f = function (x) { return function () { return x; }; }('a');`. -/
def Node.capturing (s : Span) : Node :=
  let inner : Node := .function [] (.block [.returnValue (.identifier "x" s) s] s) s s
  let outer : Node := .function [⟨"x", s⟩] (.block [.returnValue inner s] s) s s
  .block [.assign ⟨"f", s⟩ (.call outer [.string "a" s] s) s] s

/-- The program `f();`. -/
def Node.callingBack (s : Span) : Node := .block [.expression (.call (.identifier "f" s) [] s) s] s

/-- Behind a run that has made a function within a call, a register that fits
finds the scope of that call, and the next program gets at what is bound there
though it looks the scope up by number. -/
theorem scopes_are_tree_calling :
    let new := Machine.withBoard "board"
    let m := (new.executeWithin 100 default (.capturing default)).2
    new.New ∧ new.Onward m ∧ m.Rooted m.scopes.table ∧ Scopes.Tree m.scopes.table ∧
      (∃ r : Register, r.Fits m [] ∧ r.find 1 = some 1) ∧
      ∃ register, Register.Serves m.scopes.table register ∧
        (m.executeCalling (callByNumber register 100 (m.options.maxCallDepth + 1)) 100 default
          (.callingBack default)).1 = .ok (.string "a") := by
  intro new m
  have hnew : new.New := ⟨rfl, fun c hc => by
    simp [new, Machine.withBoard, Machine.connect, Heap.newBoard, Holds] at hc⟩
  have h : new.Onward m := .execute .here 100 _ _
  obtain ⟨hall, -, -, hrooted, ⟨register, hserves⟩, hcalling⟩ := scopes_are_tree hnew h 100
  obtain ⟨htree, -, -, -, hhand⟩ := hrooted m (hall m .here)
  obtain ⟨⟨r, hr, -⟩, hfinds⟩ := hhand [] (by simp [Holds])
  let literal : FunctionLiteral := ⟨false, [], .block [.returnValue (.identifier "x" default) default]
    default, default⟩
  let inner : Closure := ⟨1, literal, 1, [], none, default⟩
  have hscopes : m.scopes = ⟨#[⟨none, [("f", .closure inner)]⟩, ⟨some 0, [("x", .string "a")]⟩], 0, #[]⟩ := by
    unfold m new inner literal
    cbv
  have hinner : m.Reaches [] (.closure inner) := by
    refine .bound .global (s := ⟨none, [("f", .closure inner)]⟩) ?_ (.head _)
    rw [hscopes]
    rfl
  have hfound := ((hfinds r hr).found inner hinner).2
  refine ⟨hnew, h, hall m .here, htree, ⟨r, hr, ?_⟩, register, hserves, ?_⟩
  · rwa [((hr.reached).find_eq (hr.held 1 (by rw [hscopes]; decide) (.captured hinner))).1] at hfound
  · rw [(hcalling register hserves).2]
    unfold m new
    cbv

end BoardScript
