/-
The scopes are a tree. Only the global scope has no parent; any other was
made below a scope that is older than itself, and stays there
(`Scopes.Tree`). So from each scope a chain of parents leads down to the
global scope, and looking a name up finds its first binding along this chain
(`Scopes.Tree.exists_chain`).

A machine is rooted in scopes that there were before if it has grown from
them and every closure that it holds was made in a scope that is there
(`Machine.Rooted`). A run stays on rooted machines and calls closures only
whose scopes are there: this is one more way in which a run goes along with
itself (`Simulation.rooted`).
-/
import BoardScript.Proofs.Run.Guard

namespace BoardScript

open Simulation

-- ====================================================================== tree

namespace Scopes

/-- The global scope has no parent, and any other scope has an older one. -/
structure Tree (table : Array Scope) : Prop where
  root : ∃ root, table[globalId]? = some root ∧ root.parent = none
  older : ∀ scope child, table[scope]? = some child → scope ≠ globalId →
    ∃ parent < scope, child.parent = some parent

/-- The scopes from one scope down to the global one, each followed by its
parent. -/
inductive Chain (table : Array Scope) : ScopeId → List ScopeId → Prop
  | root {scope : ScopeId} {s : Scope} (hs : table[scope]? = some s) (hparent : s.parent = none) :
      Chain table scope [scope]
  | child {scope parent : ScopeId} {s : Scope} {rest : List ScopeId} (hs : table[scope]? = some s)
      (hparent : s.parent = some parent) (hrest : Chain table parent rest) :
      Chain table scope (scope :: rest)

/-- What a scope itself binds a name to. -/
def bound (table : Array Scope) (name : String) (scope : ScopeId) : Option Value :=
  (table[scope]?).bind (·.locals.lookup name)

variable {table : Array Scope}

/-- All scopes grow from the global one. -/
theorem tree_iff_grown : Tree table ↔ Grown start.table table := by
  constructor
  · rintro ⟨⟨root, hroot, hparent⟩, holder⟩
    obtain ⟨hpos, -⟩ := Array.getElem?_eq_some_iff.1 hroot
    refine ⟨hpos, fun scope hscope => ?_, fun scope new hscope hnew =>
      holder scope new hnew (Nat.ne_of_gt hscope)⟩
    obtain rfl : scope = globalId := Nat.lt_one_iff.1 hscope
    rw [hroot, Option.map_some, hparent]
    rfl
  · intro h
    have hpos : globalId < table.size := h.size
    refine ⟨⟨table[globalId], Array.getElem?_eq_getElem hpos, ?_⟩, fun scope child hchild hne =>
      h.younger scope child (Nat.pos_of_ne_zero hne) hchild⟩
    have hroot := h.parents globalId Nat.one_pos
    rw [Array.getElem?_eq_getElem hpos] at hroot
    exact Option.some_inj.1 hroot

theorem lookupFrom_root {scope : ScopeId} {s : Scope} (hs : table[scope]? = some s)
    (hparent : s.parent = none) (name : String) :
    lookupFrom table scope name = bound table name scope := by
  rw [lookupFrom, hs, bound, hs, Option.bind_some]
  dsimp only
  cases s.locals.lookup name with
  | some value => rfl
  | none => rw [hparent]

theorem lookupFrom_child {scope parent : ScopeId} {s : Scope} (hs : table[scope]? = some s)
    (hparent : s.parent = some parent) (hlt : parent < scope) (name : String) :
    lookupFrom table scope name = (bound table name scope).or (lookupFrom table parent name) := by
  rw [lookupFrom, hs, bound, hs, Option.bind_some]
  dsimp only
  cases s.locals.lookup name with
  | some value => rfl
  | none =>
      rw [hparent, Option.none_or]
      exact if_pos hlt

/-- From every scope the parents lead down to the global scope, always to an
older one, and what a name is looked up as is its first binding on the way. -/
theorem Tree.exists_chain (h : Tree table) (scope : ScopeId) (hscope : scope < table.size) :
    ∃ chain, Chain table scope chain ∧ chain.Pairwise (· > ·) ∧ (∀ other ∈ chain, other ≤ scope) ∧
      chain.getLast? = some globalId ∧
      ∀ name, lookupFrom table scope name = chain.findSome? (bound table name) := by
  induction scope using Nat.strongRecOn with
  | ind scope ih =>
      have hs := Array.getElem?_eq_getElem hscope
      by_cases hglobal : scope = globalId
      · obtain ⟨root, hroot, hparent⟩ := h.root
        subst hglobal
        refine ⟨[globalId], .root hroot hparent, List.pairwise_singleton _ _, ?_, rfl, fun name => ?_⟩
        · exact List.forall_mem_singleton.2 (Nat.le_refl _)
        · rw [lookupFrom_root hroot hparent, List.findSome?_singleton]
      · obtain ⟨parent, hlt, hparent⟩ := h.older scope _ hs hglobal
        obtain ⟨chain, hchain, hsorted, hbelow, hlast, hlookup⟩ :=
          ih parent hlt (Nat.lt_trans hlt hscope)
        refine ⟨scope :: chain, .child hs hparent hchain, List.pairwise_cons.2 ⟨?_, hsorted⟩, ?_, ?_,
          fun name => ?_⟩
        · exact fun other hother => Nat.lt_of_le_of_lt (hbelow other hother) hlt
        · exact List.forall_mem_cons.2 ⟨Nat.le_refl _,
            fun other hother => Nat.le_of_lt (Nat.lt_of_le_of_lt (hbelow other hother) hlt)⟩
        · rw [List.getLast?_cons, hlast]
          rfl
        · rw [lookupFrom_child hs hparent hlt, hlookup, List.findSome?_cons]
          cases bound table name scope <;> rfl

end Scopes

-- ============================================================ rooted machines

/-- A machine that has grown from scopes that there were before, whose
current scope is there and all of whose closures were made in scopes that are
there. -/
structure Machine.Rooted (before : Array Scope) (m : Machine) : Prop where
  grown : Scopes.Grown before m.scopes.table
  current : m.scopes.current < m.scopes.table.size
  closures : ∀ c, Holds m c → c.scope < m.scopes.table.size

/-- A run beside itself on rooted machines. -/
def Simulation.rooted (before : Array Scope) : Simulation where
  code := .identity
  Inv m := Scopes.Grown before m.scopes.table ∧ m.scopes.current < m.scopes.table.size
  Keeps scopes c := c.scope < scopes
  Skip _ := False
  Bad _ := False
  inv_later h hi := ⟨hi.1.trans h.grown, h.current ▸ Nat.lt_of_lt_of_le hi.2 h.table⟩
  keeps_mono hle h := Nat.lt_of_lt_of_le h hle
  skip_returned _ := id
  bad_fault := Fault.isOverflow_of_false

section

variable {before : Array Scope} {α : Type} [Recodable α] {m m₀ : Machine}

theorem recode_rooted [LawfulRecodable α] (x : α) : recode (rooted before).code x = x := recode_identity x

/-- How a run beside itself ends: the same, and with closures whose scopes
are there. -/
theorem rooted_ends_iff [LawfulRecodable α] {r' r : EStateM.Result Unwind Machine α} :
    (rooted before).Ends m r' r ↔
      m.Later (after r) ∧ r' = r ∧ ∀ c, Holds r c → c.scope < (after r).scopes.table.size := by
  cases r with
  | ok a n =>
      simp only [Ends, recode_rooted]
      constructor
      · rintro ⟨hn, hcn, hca, hr⟩
        exact ⟨hn, hr, fun c hc => hc.elim (hca c) (hcn c)⟩
      · rintro ⟨hn, hr, hc⟩
        exact ⟨hn, fun c h => hc c (.inr h), fun c h => hc c (.inl h), hr⟩
  | error e n =>
      simp only [Ends, recode_rooted]
      constructor
      · rintro (h | ⟨hn, hcn, hce, -, hr⟩)
        · exact h.elim
        · exact ⟨hn, hr, fun c hc => hc.elim (hce c) (hcn c)⟩
      · rintro ⟨hn, hr, hc⟩
        exact .inr ⟨hn, fun c h => hc c (.inr h), fun c h => hc c (.inl h), fun _ _ => id, hr⟩

theorem rooted_iff : m.Rooted before ↔ (rooted before).Inv m ∧ (rooted before).Clean m m :=
  ⟨fun h => ⟨⟨h.grown, h.current⟩, h.closures⟩, fun h => ⟨h.1.1, h.1.2, h.2⟩⟩

/-- A run on a rooted machine ends on one. -/
theorem Simulation.Ends.rooted [LawfulRecodable α] {r' r : EStateM.Result Unwind Machine α}
    (h : (rooted before).Ends m r' r) (hm : m.Rooted before) : (after r).Rooted before := by
  obtain ⟨hlater, -, hclosures⟩ := rooted_ends_iff.1 h
  obtain ⟨hgrown, hcurrent⟩ := (Simulation.rooted before).inv_later hlater ⟨hm.grown, hm.current⟩
  refine ⟨hgrown, hcurrent, fun c hc => hclosures c ?_⟩
  cases r <;> exact .inr hc

/-- An action that does the same as another on rooted machines. -/
theorem Simulation.Follows.of_eq {x' x : Eval α} (h : (Simulation.rooted before).Follows m₀ x x)
    (heq : ∀ n, n.Rooted before → x' n = x n) : (Simulation.rooted before).Follows m₀ x' x := by
  intro n hn hi hc
  rw [recode_rooted, heq n (rooted_iff.2 ⟨hi, hc⟩)]
  have hends := h n hn hi hc
  rwa [recode_rooted] at hends

theorem rooted_makeClosure (literal : FunctionLiteral) (compiled : Option Chunk) (source : Source)
    (m₀ : Machine) : (rooted before).Follows m₀ (makeClosure literal compiled source)
      (makeClosure literal compiled source) := by
  intro m _ hi hc
  rw [recode_rooted, makeClosure_eq]
  cases literal.notFormula with
  | some node =>
      exact rooted_ends_iff.2 ⟨.refl m, rfl, fun c h => h.elim (fun ⟨_, he, _⟩ => (nomatch he)) (hc c)⟩
  | none =>
      refine rooted_ends_iff.2 ⟨.of_scopes rfl id rfl rfl rfl rfl, rfl, fun c h => h.elim (fun h => ?_) (hc c)⟩
      cases h
      exact hi.2

/-- Environments that call and ask alike on rooted machines. -/
theorem rooted_environment {env' env : Env} (hfuel : env'.fuel = env.fuel)
    (hsource : env'.source = env.source)
    (hcall : ∀ m₀ c args site, (rooted before).Fine m₀ c → (rooted before).Clean m₀ args →
      (rooted before).Follows m₀ (env'.call c args site) (env.call c args site))
    (hask' : ∀ n span, n.Rooted before → env'.ask span n = checkCancelled span n)
    (hask : env.ask = checkCancelled) : env'.Follows (rooted before) false env where
  fuel := hfuel
  source := hsource
  call m₀ c args site hf ha := by
    rw [recode_rooted]
    exact hcall m₀ c args site hf ha
  ask m₀ span := by
    have hself : (rooted before).Follows m₀ (checkCancelled span) (checkCancelled span) :=
      .of_natural (natural_checkCancelled (fun _ => rfl) span)
        (fun _ _ => natural_checkCancelled (fun _ => rfl) span) (steady_checkCancelled span)
    rw [hask]
    exact hself.of_eq fun n hn => hask' n span hn
  free h := nomatch h
  make m₀ literal := by
    rw [literalRecast_self (show ∀ span, (rooted before).code.span span = span from fun _ => rfl),
      show env'.source = env.source from hsource]
    exact rooted_makeClosure literal none env.source m₀

/-- Nodes and any code go along with themselves. -/
theorem rooted_eval {env' env : Env} (h : env'.Follows (rooted before) false env) (node : Node)
    (naming : Option String) (m₀ : Machine) :
    (rooted before).Follows m₀ (node.eval env' naming) (node.eval env naming) := by
  have hfollows := Node.follows h node naming m₀
  rwa [recast_self (show ∀ span, (rooted before).code.span span = span from fun _ => rfl)] at hfollows

theorem rooted_run {env' env : Env} (h : env'.Follows (rooted before) false env) (chunk : Chunk)
    (m₀ : Machine) : (rooted before).Follows m₀ (chunk.run env') (chunk.run env) :=
  Chunk.follows_run
    { around := h
      still := Recoding.plain_identity.toStill
      malformed := fun _ => id
      make := fun m₀ literal body _ => by
        rw [show env'.source = env.source from h.source]
        exact rooted_makeClosure literal (some body) env.source m₀ } m₀

variable {hooks : Hooks}

/-- Closures whose scopes are there are called alike. -/
theorem rooted_calls (hh : hooks.StandardOn (Machine.Rooted before)) (fuel : Nat) :
    (rooted before).Calls hooks .standard fuel where
  scope _ := rfl
  params _ := rfl
  enter m c args hi hfine _ := by
    refine ⟨hi.1.trans (.push _ rfl hfine), ?_⟩
    show m.scopes.table.size < (m.scopes.table.push _).size
    rw [Array.size_push]
    exact Nat.lt_succ_self _
  refuse m site hi hc _ := by
    have hsame := hh.refuse m site (rooted_iff.2 ⟨hi, hc⟩)
    rw [recode_rooted m]
    exact rooted_ends_iff.2 ⟨.refl m, hsame, fun c h => h.elim (fun ⟨_, he, _⟩ => (nomatch he)) (hc c)⟩
  unknown _ _ _ _ := id
  body {call' call} hcall m₀ c _ := by
    have henv : (Env.mk fuel call' hooks.ask c.source).Follows (rooted before) false
        ⟨fuel, call, checkCancelled, c.source⟩ :=
      rooted_environment rfl rfl (fun m₀ c args site hf ha => by
        have h := hcall m₀ c args site hf ha
        rwa [recode_rooted] at h) (fun n span hn => hh.ask n span hn) rfl
    show (rooted before).Follows m₀ (c.body _) (c.body _)
    unfold Closure.body
    cases c.compiled with
    | some chunk => exact rooted_run henv chunk m₀
    | none => exact follows_bodyValue _ (rooted_eval henv c.literal.body none m₀)

theorem rooted_callClosure (hh : hooks.StandardOn (Machine.Rooted before)) (fuel levels : Nat)
    (m₀ : Machine) (c : Closure) (args : List Value) (site : CallSite)
    (hc : (rooted before).Fine m₀ c) (ha : (rooted before).Clean m₀ args) :
    (rooted before).Follows m₀ (callClosure hooks fuel levels c args site)
      (callClosure .standard fuel levels c args site) := by
  have h := follows_callClosure (rooted_calls hh fuel) levels m₀ c args site hc ha
  rwa [recode_rooted] at h

end

-- ====================================================================== runs

namespace Machine

variable {before : Array Scope} {m n : Machine} {hooks : Hooks}

/-- A rooted machine, and a value whose closures were made in scopes that are
there if a value at all. -/
def RootedEnd (before : Array Scope) (ended : Except Failure Value × Machine) : Prop :=
  ended.2.Rooted before ∧ ∀ c, Holds ended.1 c → c.scope < ended.2.scopes.table.size

theorem Rooted.of_scopes (h : m.Rooted before) (hscopes : n.scopes = m.scopes)
    (hheap : ∀ c, Holds n.heap c → Holds m.heap c) : n.Rooted before := by
  refine ⟨hscopes ▸ h.grown, hscopes ▸ h.current, fun c hc => ?_⟩
  rw [hscopes]
  refine h.closures c (hc.imp (hheap c) fun hs => ?_)
  rwa [hscopes] at hs

theorem Rooted.enterRun (h : m.Rooted before) : m.enterRun.Rooted before := by
  refine h.of_scopes m.enterRun_scopes fun c hc => ?_
  unfold Machine.enterRun at hc
  split at hc <;> exact hc

theorem Rooted.environment (hh : hooks.StandardOn (Machine.Rooted before)) (turns : Nat)
    (source : Source) : (m.environment hooks turns source).Follows (rooted before) false
      (m.environment .standard turns source) :=
  rooted_environment rfl rfl (rooted_callClosure hh turns (m.options.maxCallDepth + 1))
    (fun n span hn => hh.ask n span hn) rfl

theorem Rooted.action (hh : hooks.StandardOn (Machine.Rooted before)) (turns : Nat) (source : Source)
    (root : Node) (m₀ : Machine) :
    (rooted before).Follows m₀ (m.action hooks turns source root)
      (m.action .standard turns source root) := by
  have henv := Rooted.environment (m := m) hh turns source
  unfold Machine.action
  cases m.options.mode with
  | tree => exact rooted_eval henv root none m₀
  | compiled =>
      cases compileScript source root with
      | ok chunk => exact rooted_run henv chunk m₀
      | error cause =>
          intro k _ _ hc
          rw [recode_rooted]
          exact rooted_ends_iff.2 ⟨.refl k, rfl, fun c h => h.elim (fun ⟨_, he, _⟩ => (nomatch he)) (hc c)⟩

/-- What goes along with itself comes to the same, on a rooted machine. -/
theorem rooted_outcome {x' x : Eval Value} {restore : Machine → Machine}
    (h : (rooted before).Ends n (x' n) (x n)) (hn : n.Rooted before)
    (hrestore : ∀ k : Machine, n.Later k → (restore k).scopes = k.scopes ∧ (restore k).heap = k.heap) :
    outcome (always x' restore) n = outcome (always x restore) n ∧
      RootedEnd before (outcome (always x restore) n) := by
  obtain ⟨hlater, hsame, hclosures⟩ := rooted_ends_iff.1 h
  have hrooted := h.rooted hn
  unfold outcome always
  rw [hsame]
  refine ⟨rfl, ?_⟩
  generalize x n = r at hlater hclosures hrooted ⊢
  have hback (k : Machine) (hk : n.Later k) (hr : k.Rooted before) : (restore k).Rooted before :=
    hr.of_scopes (hrestore k hk).1 fun c hc => by rwa [(hrestore k hk).2] at hc
  cases r with
  | ok v k =>
      refine ⟨hback k hlater hrooted, ?_⟩
      rintro c ⟨_, hv, hc⟩
      cases hv
      rw [(hrestore k hlater).1]
      exact hclosures c (.inl hc)
  | error e k =>
      cases e with
      | returned v =>
          refine ⟨hback k hlater hrooted, ?_⟩
          rintro c ⟨_, hv, hc⟩
          cases hv
          rw [(hrestore k hlater).1]
          exact hclosures c (.inl ⟨v, rfl, hc⟩)
      | failed error => exact ⟨hback k hlater hrooted, fun c ⟨_, hv, _⟩ => nomatch hv⟩
      | exhausted => exact ⟨hback k hlater hrooted, fun c ⟨_, hv, _⟩ => nomatch hv⟩

theorem Rooted.executeHooked (h : m.Rooted before) (hh : hooks.StandardOn (Machine.Rooted before))
    (turns : Nat) (source : Source) (root : Node) :
    m.executeHooked hooks turns source root = m.executeWithin turns source root ∧
      RootedEnd before (m.executeWithin turns source root) := by
  have hbegin := h.enterRun
  have hends := Rooted.action (m := m) hh turns source root m.enterRun m.enterRun (.refl _)
    (rooted_iff.1 hbegin).1 (rooted_iff.1 hbegin).2
  rw [recode_rooted] at hends
  refine rooted_outcome hends hbegin fun k hk => ⟨?_, rfl⟩
  have hsuspended := hk.suspended
  rw [enterRun_scopes] at hsuspended
  simp [leaveRun, Scopes.unwindTo, Scopes.depth, hsuspended]

theorem Rooted.callResult (h : m.Rooted before) (hh : hooks.StandardOn (Machine.Rooted before))
    (turns : Nat) (source : Source) (parsed : Except Failure Node) :
    m.callResult hooks turns source parsed = m.callResult .standard turns source parsed ∧
      RootedEnd before (m.callResult .standard turns source parsed) := by
  cases parsed with
  | error failure =>
      refine ⟨rfl, h, ?_⟩
      rintro c ⟨_, ⟨⟩, -⟩
  | ok root =>
      obtain ⟨hsame, hend⟩ := h.executeHooked hh turns source root
      simp only [Machine.callResult, hsame]
      rw [executeWithin] at hend ⊢
      generalize m.executeHooked .standard turns source root = ended at hend ⊢
      obtain ⟨result, n⟩ := ended
      cases result with
      | error failure => exact ⟨rfl, hend⟩
      | ok function =>
          have hfunction : (rooted before).Clean n function := fun c hc => hend.2 c ⟨_, rfl, hc⟩
          have hnil : (rooted before).Clean n ([] : List Value) := by
            rintro c ⟨_, ⟨⟩, -⟩
          have hnone : (rooted before).Clean n (none : Option Fields) := by
            rintro c ⟨_, ⟨⟩, -⟩
          have hfollows : (rooted before).Follows n
              (callValue (n.environment hooks turns source).call
                (recode (rooted before).code function) [] none ⟨root.span, "snippet", none, source⟩)
              (callValue (n.environment .standard turns source).call function [] none
                ⟨root.span, "snippet", none, source⟩) :=
            follows_callValue hfunction hnil hnone fun c hc =>
              rooted_callClosure hh turns _ n c [] _ hc hnil
          have hcall := hfollows n (.refl n) (rooted_iff.1 hend.1).1 (rooted_iff.1 hend.1).2
          rw [recode_rooted function, recode_rooted n] at hcall
          have hid : ∀ k : Machine, n.Later k → (id k).scopes = k.scopes ∧ (id k).heap = k.heap :=
            fun _ _ => ⟨rfl, rfl⟩
          have hcalled := rooted_outcome hcall hend.1 hid
          rwa [always_id, always_id] at hcalled

theorem Rooted.snippetHooked (h : m.Rooted before) (hh : hooks.StandardOn (Machine.Rooted before))
    (turns : Nat) (expression : String) :
    m.snippetHooked hooks turns expression = m.snippetWithin turns expression ∧
      RootedEnd before (m.snippetWithin turns expression) := by
  rw [Machine.snippetWithin, Machine.snippetHooked, Machine.snippetHooked]
  exact h.callResult hh turns _ _

theorem Rooted.runWithin (h : m.Rooted before) (turns : Nat) (text : String) :
    RootedEnd before (m.runWithin turns text) := by
  rw [Machine.runWithin]
  cases parseProgram m.options.parsing (Source.ofText text) with
  | error failure =>
      refine ⟨h, ?_⟩
      rintro c ⟨_, ⟨⟩, -⟩
  | ok root => exact (h.executeHooked (Hooks.standardOn_standard _) turns _ root).2

/-- A machine with nothing but the global scope, and no closures. -/
structure New (m : Machine) : Prop where
  scopes : m.scopes = .start
  heap : ∀ c, ¬Holds m.heap c

/-- What becomes of a machine on which programs and expressions are run, any
number of them one after the other. -/
inductive Onward (m : Machine) : Machine → Prop
  | here : Onward m m
  /-- setting anything but the scopes; the heap gets no closures by it -/
  | set {n k : Machine} (h : Onward m n) (hscopes : k.scopes = n.scopes)
      (hheap : ∀ c, Holds k.heap c → Holds n.heap c) : Onward m k
  | execute {n : Machine} (h : Onward m n) (turns : Nat) (source : Source) (root : Node) :
      Onward m (n.executeWithin turns source root).2
  | run {n : Machine} (h : Onward m n) (turns : Nat) (text : String) :
      Onward m (n.runWithin turns text).2
  | snippet {n : Machine} (h : Onward m n) (turns : Nat) (expression : String) :
      Onward m (n.snippetWithin turns expression).2

theorem New.rooted (h : m.New) : m.Rooted Scopes.start.table := by
  refine ⟨h.scopes ▸ .refl _, ?_, fun c hc => hc.elim (fun hheap => absurd hheap (h.heap c)) ?_⟩
  · rw [h.scopes]
    exact Nat.one_pos
  · rw [h.scopes]
    simp [Holds, Scopes.start]

theorem Rooted.self (h : m.Rooted before) : m.Rooted m.scopes.table :=
  ⟨.refl _, h.current, h.closures⟩

theorem Rooted.trans (h : m.Rooted before) (hn : n.Rooted m.scopes.table) : n.Rooted before :=
  ⟨h.grown.trans hn.grown, hn.current, hn.closures⟩

theorem Rooted.onward (h : m.Rooted before) (hn : m.Onward n) : n.Rooted before := by
  induction hn with
  | here => exact h
  | set _ hscopes hheap ih => exact ih.of_scopes hscopes hheap
  | execute _ turns source root ih =>
      exact (ih.executeHooked (Hooks.standardOn_standard _) turns source root).2.1
  | run _ turns text ih => exact (ih.runWithin turns text).1
  | snippet _ turns expression ih =>
      exact (ih.snippetHooked (Hooks.standardOn_standard _) turns expression).2.1

end Machine

-- ==================================================================== results

/-- Callers that call as another one does closures whose scopes are there, on
rooted machines and with arguments whose scopes are there. -/
def Caller.LikeOn (before : Array Scope) (call' call : Caller) : Prop :=
  ∀ c args site (n : Machine), n.Rooted before → c.scope < n.scopes.table.size →
    (∀ d, Holds args d → d.scope < n.scopes.table.size) → call' c args site n = call c args site n

/-- On rooted machines no closure is called whose scope is not there: callers
that do anything else with such closures are not noticed. -/
theorem calls_rooted {before : Array Scope} {call' : Caller} {fuel levels : Nat} (source : Source)
    (hcall : call'.LikeOn before (callClosure .standard fuel levels)) {n : Machine}
    (hn : n.Rooted before) :
    (∀ (node : Node) naming, node.eval ⟨fuel, call', checkCancelled, source⟩ naming n
      = node.eval ⟨fuel, callClosure .standard fuel levels, checkCancelled, source⟩ naming n) ∧
    ∀ chunk : Chunk, chunk.run ⟨fuel, call', checkCancelled, source⟩ n
      = chunk.run ⟨fuel, callClosure .standard fuel levels, checkCancelled, source⟩ n := by
  have henv : (Env.mk fuel call' checkCancelled source).Follows (rooted before) false
      ⟨fuel, callClosure .standard fuel levels, checkCancelled, source⟩ :=
    rooted_environment rfl rfl (fun m₀ c args site hc ha k hk hi hck => by
      have hself := rooted_callClosure (Hooks.standardOn_standard _) fuel levels m₀ c args site hc ha
        k hk hi hck
      have hsame : call' c args site k = _ :=
        hcall c args site k (rooted_iff.2 ⟨hi, hck⟩) (fine_later hk hc) (ha.later hk)
      rw [recode_rooted] at hself ⊢
      show (rooted before).Ends k (call' c args site k) _
      rwa [hsame]) (fun _ _ _ => rfl) rfl
  obtain ⟨hi, hc⟩ := rooted_iff.1 hn
  refine ⟨fun node naming => ?_, fun chunk => ?_⟩
  · have hends := rooted_eval henv node naming n n (.refl n) hi hc
    rw [recode_rooted] at hends
    exact (rooted_ends_iff.1 hends).2.1
  · have hends := rooted_run henv chunk n n (.refl n) hi hc
    rw [recode_rooted] at hends
    exact (rooted_ends_iff.1 hends).2.1

end BoardScript
