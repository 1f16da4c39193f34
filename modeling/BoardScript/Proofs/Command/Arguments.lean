/-
What arguments ask for, whatever their order. An argument asks for one
thing, if it is of one of six forms (`Asks`), and each thing belongs to a
group. Arguments are accepted when every one asks for something and no two
of them for something of the same group, and what they come to is told by
what is asked for (`readArguments_iff`). None of this depends on the order.

Each reader takes the first argument that it knows from those left over.
Arguments that are accepted have one of its group at most, so that what is
left over asks for the rest (`takeFirst_rest`); and if nothing is left over,
the readers have between them taken all that was asked for
(`asked_of_takeFirst`).
-/
import BoardScript.Command
import Mathlib.Data.List.Forall2
import Mathlib.Data.List.Perm.Basic
import Mathlib.Data.Nat.Digits.Defs

namespace BoardScript.Command

-- ============================================================ milliseconds

/-- What digits stand for, the most significant first. -/
def decimal (digits : List Char) : Nat :=
  Nat.ofDigits 10 (digits.reverse.map fun c => c.toNat - '0'.toNat)

theorem decimal_cons (c : Char) (digits : List Char) :
    decimal (c :: digits) = (c.toNat - '0'.toNat) * 10 ^ digits.length + decimal digits := by
  rw [decimal, List.reverse_cons, List.map_append, Nat.ofDigits_append, List.length_map,
    List.length_reverse, List.map_singleton, Nat.ofDigits_singleton, Nat.add_comm,
    Nat.mul_comm (10 ^ _)]
  rfl

/-- A text that stands for a number of 64 bits: some digits, which may have a
plus sign in front. -/
def Unsigned (text : List Char) (number : Nat) : Prop :=
  ∃ digits, (text = digits ∨ text = '+' :: digits) ∧ digits ≠ [] ∧
    (∀ c ∈ digits, c.isDigit = true) ∧ number = decimal digits ∧ number < 2 ^ 64

/-- Reading digits behind a number that fits. A number that does not fit
stays too large however it goes on. -/
theorem readDigits_iff {number : Nat} (hnumber : number < 2 ^ 64) {digits : List Char}
    {result : Nat} :
    readDigits number digits = .ok result ↔ (∀ c ∈ digits, c.isDigit = true) ∧
      result = number * 10 ^ digits.length + decimal digits ∧ result < 2 ^ 64 := by
  induction digits generalizing number with
  | nil =>
      simp only [readDigits, Except.ok.injEq, List.not_mem_nil, false_imp_iff, implies_true,
        List.length_nil, pow_zero, mul_one, true_and]
      constructor
      · rintro rfl
        exact ⟨rfl, hnumber⟩
      · exact fun h => h.1.symm
  | cons c digits ih =>
      have hvalue : number * 10 ^ (c :: digits).length + decimal (c :: digits)
          = (number * 10 + (c.toNat - '0'.toNat)) * 10 ^ digits.length + decimal digits := by
        rw [decimal_cons, List.length_cons, pow_succ]
        ring
      rw [readDigits, List.forall_mem_cons, hvalue]
      by_cases hdigit : c.isDigit = true
      · by_cases hfits : number * 10 + (c.toNat - '0'.toNat) < twoTo 64
        · rw [if_pos hdigit, if_pos hfits, ih hfits]
          simp only [hdigit, true_and]
        · rw [if_pos hdigit, if_neg hfits]
          refine ⟨nofun, fun ⟨_, hresult, hlt⟩ => absurd ?_ hfits⟩
          have hle : number * 10 + (c.toNat - '0'.toNat) ≤ result := by
            rw [hresult]
            exact Nat.le_add_right_of_le (Nat.le_mul_of_pos_right _ (Nat.pow_pos (by decide)))
          exact Nat.lt_of_le_of_lt hle hlt
      · rw [if_neg hdigit]
        exact ⟨nofun, fun h => absurd h.1.1 hdigit⟩

theorem readTimeout_iff {text : List Char} {limit : Nat} :
    readTimeout text = .ok limit ↔ Unsigned text limit := by
  have hdigits : ∀ {digits : List Char}, readDigits 0 digits = .ok limit ↔
      (∀ c ∈ digits, c.isDigit = true) ∧ limit = decimal digits ∧ limit < 2 ^ 64 := by
    intro digits
    rw [readDigits_iff (by decide), Nat.zero_mul, Nat.zero_add]
  have hplus : ¬ '+'.isDigit = true := by decide
  unfold readTimeout Unsigned
  split
  · refine ⟨nofun, ?_⟩
    rintro ⟨digits, rfl | h, hne, -⟩
    · exact absurd rfl hne
    · cases h
  · refine ⟨nofun, ?_⟩
    rintro ⟨digits, rfl | h, hne, hall, -⟩
    · exact absurd (hall _ List.mem_cons_self) hplus
    · exact absurd (List.cons.inj h).2.symm hne
  · rename_i digits hne
    rw [hdigits]
    constructor
    · exact fun h => ⟨digits, .inr rfl, fun e => hne (by rw [e]), h⟩
    · rintro ⟨digits', rfl | h, -, hall, hvalue⟩
      · exact absurd (hall _ List.mem_cons_self) hplus
      · obtain rfl := (List.cons.inj h).2
        exact ⟨hall, hvalue⟩
  · rename_i hne hplain hsigned
    rw [hdigits]
    constructor
    · exact fun h => ⟨text, .inl rfl, hne, h⟩
    · rintro ⟨digits, rfl | h, -, hall, hvalue⟩
      · exact ⟨hall, hvalue⟩
      · exact absurd h (hsigned digits)

-- ================================================================ requests

/-- What one argument asks for. -/
inductive Request where
  | compiled
  | timeout (limit : Nat)
  | form (form : CodeForm)
  | tree
  | file (name : String)

/-- Of each group there is one request at most. -/
inductive Group where
  | mode
  | timeout
  | form
  | tree
  | file
deriving DecidableEq

def Request.group : Request → Group
  | .compiled => .mode
  | .timeout _ => .timeout
  | .form _ => .form
  | .tree => .tree
  | .file _ => .file

/-- The arguments that ask for something. -/
inductive Asks : String → Request → Prop
  | compiled : Asks "--compiled" .compiled
  | timeout {arg : String} {text : List Char} {limit : Nat}
      (harg : arg.toList = "--timeout=".toList ++ text) (h : Unsigned text limit) :
      Asks arg (.timeout limit)
  | surface : Asks "--emit=surface" (.form .surface)
  | bytecode : Asks "--emit=bytecode" (.form .bytecode)
  | tree : Asks "--ast" .tree
  | file {name : String} (h : ¬ "--".toList <+: name.toList) : Asks name (.file name)

/-- Arguments that each ask for something, and no two for the same group. -/
def Asked (args : List String) (requests : List Request) : Prop :=
  List.Forall₂ Asks args requests ∧ (requests.map Request.group).Nodup

/-- What requests come to. -/
structure Granted (requests : List Request) (invocation : Invocation) : Prop where
  mode : invocation.options.mode = .compiled ↔ .compiled ∈ requests
  limit : ∀ limit, invocation.options.maxRuntime = some limit ↔ .timeout limit ∈ requests
  form : ∀ form, invocation.form = some form ↔ .form form ∈ requests
  tree : invocation.showTree = true ↔ .tree ∈ requests
  file : ∀ name, invocation.file = some name ↔ .file name ∈ requests
  /-- nothing else can be asked for -/
  others : invocation.options =
    { mode := invocation.options.mode, maxRuntime := invocation.options.maxRuntime }

theorem Asked.perm {args args' : List String} {requests : List Request} (h : Asked args requests)
    (hperm : args.Perm args') : ∃ requests', Asked args' requests' ∧ requests.Perm requests' := by
  obtain ⟨requests', hall, hrequests⟩ := List.perm_comp_forall₂ hperm.symm h.1
  exact ⟨requests', ⟨hall, (hrequests.map _).nodup_iff.2 h.2⟩, hrequests.symm⟩

theorem Granted.perm {requests requests' : List Request} {invocation : Invocation}
    (h : Granted requests invocation) (hperm : requests.Perm requests') :
    Granted requests' invocation where
  mode := h.mode.trans hperm.mem_iff
  limit n := (h.limit n).trans hperm.mem_iff
  form f := (h.form f).trans hperm.mem_iff
  tree := h.tree.trans hperm.mem_iff
  file name := (h.file name).trans hperm.mem_iff
  others := h.others

/-- Requests come to one thing. -/
theorem Granted.unique {requests : List Request} {a b : Invocation} (ha : Granted requests a)
    (hb : Granted requests b) : a = b := by
  have hmode : a.options.mode = b.options.mode := by
    have hiff := ha.mode.trans hb.mode.symm
    generalize a.options.mode = m, b.options.mode = n at hiff
    cases m <;> cases n <;> simp_all
  have hlimit : a.options.maxRuntime = b.options.maxRuntime :=
    Option.ext fun n => (ha.limit n).trans (hb.limit n).symm
  have hoptions : a.options = b.options := by
    rw [ha.others, hb.others, hmode, hlimit]
  have hform : a.form = b.form := Option.ext fun f => (ha.form f).trans (hb.form f).symm
  have htree : a.showTree = b.showTree := Bool.eq_iff_iff.2 (ha.tree.trans hb.tree.symm)
  have hfile : a.file = b.file := Option.ext fun name => (ha.file name).trans (hb.file name).symm
  cases a
  cases b
  simp_all

-- ================================================================= readers

theorem behind?_eq_some {beginning text rest : List Char} :
    behind? beginning text = some rest ↔ text = beginning ++ rest := by
  fun_induction behind? beginning text with
  | case1 text => simp
  | case2 beginning c text ih => simp [ih]
  | case3 c beginning d text hne =>
      refine ⟨nofun, fun h => absurd (List.cons.inj h).1.symm hne⟩
  | case4 => simp

theorem flag_eq_some {name arg : String} {mark : Unit} :
    flag name arg = some mark ↔ arg = name := by
  unfold flag
  split <;> simp_all

theorem timeoutOf_eq_some {arg : String} {number : Except TimeoutError Nat} :
    timeoutOf arg = some number ↔
      ∃ text, arg.toList = "--timeout=".toList ++ text ∧ readTimeout text = number := by
  rw [timeoutOf, Option.map_eq_some_iff]
  simp only [behind?_eq_some]

theorem fileOf_eq_some {arg name : String} :
    fileOf arg = some name ↔ ¬ "--".toList <+: arg.toList ∧ arg = name := by
  have hsome : (behind? "--".toList arg.toList).isSome = true ↔ "--".toList <+: arg.toList := by
    rw [Option.isSome_iff_exists]
    exact exists_congr fun rest => behind?_eq_some.trans eq_comm
  unfold fileOf
  split <;> simp_all

theorem formOf_eq_some {arg : String} {form : CodeForm} (h : formOf arg = some form) :
    Asks arg (.form form) := by
  unfold formOf at h
  split at h
  · obtain rfl := Option.some.inj h
    exact .surface
  · obtain rfl := Option.some.inj h
    exact .bytecode
  · cases h

/-- A reader of a group: of the arguments that ask for something, it knows
those that ask for something of its group. -/
def Reads {α : Type} (meaning : String → Option α) (group : Group) : Prop :=
  ∀ {arg request}, Asks arg request → ((meaning arg).isSome = true ↔ request.group = group)

theorem ne_of_timeout {arg name : String} {text : List Char}
    (harg : arg.toList = "--timeout=".toList ++ text)
    (hname : ¬ "--timeout=".toList <+: name.toList) : arg ≠ name := by
  rintro rfl
  exact hname ⟨text, harg.symm⟩

theorem ne_of_file {arg name : String} (harg : ¬ "--".toList <+: arg.toList)
    (hname : "--".toList <+: name.toList) : arg ≠ name := by
  rintro rfl
  exact harg hname

/-- Only one argument is read as a flag. -/
theorem isSome_flag {name arg : String} (h : arg ≠ name) : (flag name arg).isSome = false := by
  rw [flag, if_neg h]
  rfl

theorem reads_compiled : Reads (flag "--compiled") .mode := by
  intro arg request h
  cases h with
  | timeout harg _ =>
      have hne : arg ≠ "--compiled" := ne_of_timeout harg (by decide)
      simp only [isSome_flag hne, Request.group, Bool.false_eq_true, reduceCtorEq]
  | file h =>
      have hne : arg ≠ "--compiled" := ne_of_file h (by decide)
      simp only [isSome_flag hne, Request.group, Bool.false_eq_true, reduceCtorEq]
  | _ => decide

theorem reads_tree : Reads (flag "--ast") .tree := by
  intro arg request h
  cases h with
  | timeout harg _ =>
      have hne : arg ≠ "--ast" := ne_of_timeout harg (by decide)
      simp only [isSome_flag hne, Request.group, Bool.false_eq_true, reduceCtorEq]
  | file h =>
      have hne : arg ≠ "--ast" := ne_of_file h (by decide)
      simp only [isSome_flag hne, Request.group, Bool.false_eq_true, reduceCtorEq]
  | _ => decide

theorem reads_timeout : Reads timeoutOf .timeout := by
  intro arg request h
  cases h with
  | @timeout _ text _ harg _ =>
      have hsome : timeoutOf arg = some (readTimeout text) :=
        timeoutOf_eq_some.2 ⟨text, harg, rfl⟩
      simp [hsome, Request.group]
  | file h =>
      have hnone : ¬ (timeoutOf arg).isSome = true := by
        rw [Option.isSome_iff_exists]
        rintro ⟨number, hsome⟩
        obtain ⟨text, harg, -⟩ := timeoutOf_eq_some.1 hsome
        exact h (.trans (by decide) ⟨text, harg.symm⟩)
      simp [hnone, Request.group]
  | _ => decide

theorem reads_form : Reads formOf .form := by
  intro arg request h
  have hnone : arg ≠ "--emit=surface" → arg ≠ "--emit=bytecode" → (formOf arg).isSome = false := by
    intro hsurface hbytecode
    unfold formOf
    split
    · exact absurd rfl hsurface
    · exact absurd rfl hbytecode
    · rfl
  cases h with
  | timeout harg _ =>
      simp [hnone (ne_of_timeout harg (by decide)) (ne_of_timeout harg (by decide)), Request.group]
  | file h => simp [hnone (ne_of_file h (by decide)) (ne_of_file h (by decide)), Request.group]
  | _ => decide

theorem reads_file : Reads fileOf .file := by
  intro arg request h
  cases h with
  | timeout harg _ =>
      have hdashes : "--".toList <+: arg.toList := .trans (by decide) ⟨_, harg.symm⟩
      have hnone : ¬ (fileOf arg).isSome = true := by
        rw [Option.isSome_iff_exists]
        rintro ⟨name, hsome⟩
        exact (fileOf_eq_some.1 hsome).1 hdashes
      simp [hnone, Request.group]
  | file h => simp [fileOf_eq_some.2 ⟨h, rfl⟩, Request.group]
  | _ => decide

/-- The group of what an argument asks for is known from the argument. -/
theorem Asks.group_eq {arg : String} {a b : Request} (ha : Asks arg a) (hb : Asks arg b) :
    a.group = b.group := by
  have hsame : ∀ {α : Type} {meaning : String → Option α} {group : Group}, Reads meaning group →
      (a.group = group ↔ b.group = group) := fun h => (h ha).symm.trans (h hb)
  generalize a.group = group at hsame
  cases group with
  | mode => exact ((hsame reads_compiled).1 rfl).symm
  | timeout => exact ((hsame reads_timeout).1 rfl).symm
  | form => exact ((hsame reads_form).1 rfl).symm
  | tree => exact ((hsame reads_tree).1 rfl).symm
  | file => exact ((hsame reads_file).1 rfl).symm

/-- An argument asks for one thing at most. -/
theorem Asks.unique {arg : String} {a b : Request} (ha : Asks arg a) (hb : Asks arg b) : a = b := by
  have hgroup := ha.group_eq hb
  generalize he : arg = arg' at hb
  cases ha <;> cases hb <;> simp only [Request.group, reduceCtorEq] at hgroup
  case compiled.compiled => rfl
  case timeout.timeout text limit h harg text' limit' h' harg' =>
    rw [he, harg'] at harg
    obtain rfl := List.append_cancel_left harg
    rw [← readTimeout_iff] at h h'
    rw [Except.ok.inj (h.symm.trans h')]
  case surface.surface => rfl
  case surface.bytecode => exact absurd he (by decide)
  case bytecode.surface => exact absurd he (by decide)
  case bytecode.bytecode => rfl
  case tree.tree => rfl
  case file.file => rw [he]

-- ================================================================= what is left

section TakeFirst

variable {α : Type} {meaning : String → Option α} {args rest : List String} {found : Option α}
  {requests : List Request}

/-- What a reader leaves over asks for the rest. -/
theorem takeFirst_rest {group : Group} (hreads : Reads meaning group) (h : Asked args requests) :
    Asked (takeFirst meaning args).2 (requests.filter (·.group ≠ group)) := by
  obtain ⟨hall, hnodup⟩ := h
  refine ⟨?_, hnodup.sublist (List.filter_sublist.map _)⟩
  induction hall with
  | nil => exact .nil
  | @cons arg request args requests hasks _ ih =>
      rw [List.map_cons, List.nodup_cons] at hnodup
      rw [takeFirst]
      cases hmeaning : meaning arg with
      | some a =>
          have hgroup : request.group = group := (hreads hasks).1 (by rw [hmeaning]; rfl)
          -- no other request is for the group
          have hothers : requests.filter (·.group ≠ group) = requests := by
            refine List.filter_eq_self.2 fun other hother => decide_eq_true fun e => ?_
            exact hnodup.1 (List.mem_map.2 ⟨other, hother, e.trans hgroup.symm⟩)
          rw [List.filter_cons_of_neg (by simp [hgroup]), hothers]
          assumption
      | none =>
          have hgroup : request.group ≠ group := fun e => by
            have hsome := (hreads hasks).2 e
            rw [hmeaning] at hsome
            cases hsome
          rw [List.filter_cons_of_pos (by simp [hgroup])]
          exact .cons hasks (ih hnodup.2)

/-- What a reader finds is the meaning of an argument. -/
theorem exists_of_takeFirst {a : α} (h : (takeFirst meaning args).1 = some a) :
    ∃ arg ∈ args, meaning arg = some a := by
  induction args with
  | nil => cases h
  | cons arg args ih =>
      rw [takeFirst] at h
      cases hmeaning : meaning arg with
      | some b =>
          rw [hmeaning] at h
          obtain rfl := Option.some.inj h
          exact ⟨arg, List.mem_cons_self, hmeaning⟩
      | none =>
          rw [hmeaning] at h
          obtain ⟨other, hother, hmeaning'⟩ := ih h
          exact ⟨other, List.mem_cons_of_mem _ hother, hmeaning'⟩

/-- What an argument asks for if a reader finds its meaning. -/
def Meant (meaning : String → Option α) : Option α → Option Request → Prop :=
  Option.Rel fun a request => ∀ arg, meaning arg = some a → Asks arg request

theorem meant_map {request : α → Request}
    (h : ∀ arg a, meaning arg = some a → Asks arg (request a)) :
    Meant meaning found (found.map request) := by
  cases found with
  | none => exact .none
  | some a => exact .some fun arg => h arg a

/-- Arguments ask for what a reader has found and for what those left over
ask for. -/
theorem asked_of_takeFirst (h : takeFirst meaning args = (found, rest)) {request? : Option Request}
    (hmeant : Meant meaning found request?) (hrest : List.Forall₂ Asks rest requests) :
    ∃ all, List.Forall₂ Asks args all ∧ all.Perm (request?.toList ++ requests) := by
  induction args generalizing rest requests with
  | nil =>
      obtain ⟨rfl, rfl⟩ := Prod.mk.inj h
      cases hmeant
      exact ⟨requests, hrest, .refl _⟩
  | cons arg args ih =>
      rw [takeFirst] at h
      cases hmeaning : meaning arg with
      | some a =>
          rw [hmeaning] at h
          obtain ⟨rfl, rfl⟩ := Prod.mk.inj h
          cases hmeant with
          | some hasks => exact ⟨_, .cons (hasks arg hmeaning) hrest, .refl _⟩
      | none =>
          rw [hmeaning] at h
          obtain ⟨rfl, rfl⟩ := Prod.mk.inj h
          cases hrest with
          | @cons _ first _ requests hfirst hrest =>
              obtain ⟨all, hall, hperm⟩ := ih rfl hrest
              exact ⟨first :: all, .cons hfirst hall,
                (hperm.cons first).trans List.perm_middle.symm⟩

end TakeFirst

-- ============================================================== acceptance

/-- Arguments that are accepted: the readers leave nothing over, and the
timeout can be read. -/
theorem readArguments_eq_ok {args : List String} {invocation : Invocation} :
    readArguments args = .ok invocation ↔
      ∃ (compiled : Option Unit) (limit : Option Nat) (form : Option CodeForm)
        (tree : Option Unit) (file : Option String) (second third fourth fifth : List String),
        takeFirst (flag "--compiled") args = (compiled, second) ∧
        takeFirst timeoutOf second = (limit.map .ok, third) ∧
        takeFirst formOf third = (form, fourth) ∧
        takeFirst (flag "--ast") fourth = (tree, fifth) ∧
        takeFirst fileOf fifth = (file, []) ∧
        invocation = {
          options := { mode := if compiled.isSome then .compiled else .tree, maxRuntime := limit }
          form
          showTree := tree.isSome
          file } := by
  constructor
  · intro h
    unfold readArguments at h
    rcases hcompiled : takeFirst (flag "--compiled") args with ⟨compiled, second⟩
    rcases htimeout : takeFirst timeoutOf second with ⟨timeout, third⟩
    rcases hform : takeFirst formOf third with ⟨form, fourth⟩
    rcases htree : takeFirst (flag "--ast") fourth with ⟨tree, fifth⟩
    rcases hfile : takeFirst fileOf fifth with ⟨file, left⟩
    simp only [hcompiled, htimeout, hform, htree, hfile] at h
    cases left with
    | cons arg left => cases h
    | nil =>
        match timeout, htimeout, h with
        | none, htimeout, h =>
            exact ⟨compiled, none, form, tree, file, second, third, fourth, fifth, rfl,
              htimeout, hform, htree, hfile, (Except.ok.inj h).symm⟩
        | some (.ok limit), htimeout, h =>
            exact ⟨compiled, some limit, form, tree, file, second, third, fourth, fifth, rfl,
              htimeout, hform, htree, hfile, (Except.ok.inj h).symm⟩
        | some (.error cause), _, h => cases h
  · rintro ⟨compiled, limit, form, tree, file, second, third, fourth, fifth, hcompiled, htimeout,
      hform, htree, hfile, rfl⟩
    unfold readArguments
    simp only [hcompiled, htimeout, hform, htree, hfile]
    cases limit <;> rfl

/-- What the readers have found, as requests. -/
def requestsOf (compiled : Option Unit) (limit : Option Nat) (form : Option CodeForm)
    (tree : Option Unit) (file : Option String) : List Request :=
  (compiled.map fun _ => Request.compiled).toList ++ ((limit.map Request.timeout).toList ++
    ((form.map Request.form).toList ++ ((tree.map fun _ => Request.tree).toList ++
      ((file.map Request.file).toList ++ []))))

section

variable (compiled : Option Unit) (limit : Option Nat) (form : Option CodeForm)
  (tree : Option Unit) (file : Option String)

theorem requestsOf_nodup :
    ((requestsOf compiled limit form tree file).map Request.group).Nodup := by
  have hgroup : ∀ {α : Type} (found : Option α) (request : α → Request) {group : Group},
      (∀ a, (request a).group = group) →
        ((found.map request).toList.map Request.group).Sublist [group] := by
    intro α found request group h
    cases found with
    | none => exact List.nil_sublist _
    | some a => simp [h]
  have hsublist : ((requestsOf compiled limit form tree file).map Request.group).Sublist
      [.mode, .timeout, .form, .tree, .file] := by
    simp only [requestsOf, List.map_append]
    exact (hgroup compiled (fun _ => .compiled) fun _ => rfl).append <|
      (hgroup limit .timeout fun _ => rfl).append <| (hgroup form .form fun _ => rfl).append <|
      (hgroup tree (fun _ => .tree) fun _ => rfl).append <|
      (hgroup file .file fun _ => rfl).append (.refl [])
  exact List.Nodup.sublist hsublist (by decide)

theorem requestsOf_granted :
    Granted (requestsOf compiled limit form tree file) {
      options := { mode := if compiled.isSome then .compiled else .tree, maxRuntime := limit }
      form
      showTree := tree.isSome
      file } where
  mode := by cases compiled <;> simp [requestsOf]
  limit n := by simp [requestsOf]
  form f := by simp [requestsOf]
  tree := by cases tree <;> simp [requestsOf]
  file name := by simp [requestsOf]
  others := rfl

end

/-- What has been accepted was asked for. -/
theorem granted_of_readArguments {args : List String} {invocation : Invocation}
    (h : readArguments args = .ok invocation) :
    ∃ requests, Asked args requests ∧ Granted requests invocation := by
  obtain ⟨compiled, limit, form, tree, file, second, third, fourth, fifth, hcompiled, htimeout,
    hform, htree, hfile, rfl⟩ := readArguments_eq_ok.1 h
  have hlimit : Meant timeoutOf (limit.map .ok) (limit.map .timeout) := by
    cases limit with
    | none => exact .none
    | some limit =>
        refine .some fun arg hmeaning => ?_
        obtain ⟨text, harg, hread⟩ := timeoutOf_eq_some.1 hmeaning
        exact .timeout harg (readTimeout_iff.1 hread)
  have hname : ∀ arg name, fileOf arg = some name → Asks arg (.file name) := by
    intro arg name hmeaning
    obtain ⟨hdashes, rfl⟩ := fileOf_eq_some.1 hmeaning
    exact .file hdashes
  -- from what the last reader has left over to all there was
  obtain ⟨files, hfiles, hpfiles⟩ := asked_of_takeFirst hfile (meant_map hname) .nil
  obtain ⟨trees, htrees, hptrees⟩ := asked_of_takeFirst htree
    (meant_map fun _ _ hmeaning => flag_eq_some.1 hmeaning ▸ Asks.tree) hfiles
  obtain ⟨forms, hforms, hpforms⟩ := asked_of_takeFirst hform
    (meant_map fun _ _ hmeaning => formOf_eq_some hmeaning) htrees
  obtain ⟨limits, hlimits, hplimits⟩ := asked_of_takeFirst htimeout hlimit hforms
  obtain ⟨requests, hrequests, hprequests⟩ := asked_of_takeFirst hcompiled
    (meant_map fun _ _ hmeaning => flag_eq_some.1 hmeaning ▸ Asks.compiled) hlimits
  have hperm : requests.Perm (requestsOf compiled limit form tree file) :=
    hprequests.trans <| .append_left _ <| hplimits.trans <| .append_left _ <|
      hpforms.trans <| .append_left _ <| hptrees.trans <| .append_left _ hpfiles
  exact ⟨requests, ⟨hrequests, (hperm.map _).nodup_iff.2 (requestsOf_nodup ..)⟩,
    (requestsOf_granted ..).perm hperm.symm⟩

theorem exists_of_mem {args : List String} {requests : List Request}
    (h : List.Forall₂ Asks args requests) {arg : String} (harg : arg ∈ args) :
    ∃ request, Asks arg request := by
  induction h with
  | nil => cases harg
  | @cons first request _ _ hfirst _ ih =>
      rcases List.mem_cons.1 harg with rfl | harg
      · exact ⟨request, hfirst⟩
      · exact ih harg

/-- A timeout that is asked for can be read. -/
theorem ok_of_asks {arg : String} {request : Request} (hasks : Asks arg request)
    {number : Except TimeoutError Nat} (h : timeoutOf arg = some number) :
    ∃ limit, number = .ok limit := by
  have hgroup : request.group = .timeout := (reads_timeout hasks).1 (by rw [h]; rfl)
  cases hasks with
  | timeout harg hlimit =>
      obtain ⟨text, harg', rfl⟩ := timeoutOf_eq_some.1 h
      rw [harg'] at harg
      obtain rfl := List.append_cancel_left harg
      exact ⟨_, readTimeout_iff.2 hlimit⟩
  | _ => cases hgroup

/-- What is asked for is accepted: each reader leaves over what is not of its
group, and in the end there is nothing. -/
theorem readArguments_of_asked {args : List String} {requests : List Request}
    (h : Asked args requests) : ∃ invocation, readArguments args = .ok invocation := by
  have hsecond := takeFirst_rest reads_compiled h
  have hthird := takeFirst_rest reads_timeout hsecond
  have hfourth := takeFirst_rest reads_form hthird
  have hfifth := takeFirst_rest reads_tree hfourth
  obtain ⟨hleft, -⟩ := takeFirst_rest reads_file hfifth
  rcases hcompiled : takeFirst (flag "--compiled") args with ⟨compiled, second⟩
  rw [hcompiled] at hsecond hthird hfourth hfifth hleft
  rcases htimeout : takeFirst timeoutOf second with ⟨timeout, third⟩
  rw [htimeout] at hthird hfourth hfifth hleft
  rcases hform : takeFirst formOf third with ⟨form, fourth⟩
  rw [hform] at hfourth hfifth hleft
  rcases htree : takeFirst (flag "--ast") fourth with ⟨tree, fifth⟩
  rw [htree] at hfifth hleft
  rcases hfile : takeFirst fileOf fifth with ⟨file, left⟩
  rw [hfile] at hleft
  -- every request is of one of the groups
  obtain rfl : left = [] := by
    simp only [List.filter_filter] at hleft
    rw [List.filter_eq_nil_iff.2 fun request _ => by cases request <;> simp [Request.group]] at hleft
    exact List.forall₂_nil_right_iff.1 hleft
  -- a timeout that has been found can be read
  obtain ⟨limit, rfl⟩ : ∃ limit : Option Nat, timeout = limit.map .ok := by
    cases timeout with
    | none => exact ⟨none, rfl⟩
    | some number =>
        obtain ⟨arg, harg, hmeaning⟩ := exists_of_takeFirst (congrArg Prod.fst htimeout)
        obtain ⟨request, hasks⟩ := exists_of_mem hsecond.1 harg
        obtain ⟨limit, rfl⟩ := ok_of_asks hasks hmeaning
        exact ⟨some limit, rfl⟩
  exact ⟨_, readArguments_eq_ok.2 ⟨compiled, limit, form, tree, file, second, third, fourth, fifth,
    hcompiled, htimeout, hform, htree, hfile, rfl⟩⟩

theorem Asked.unique {args : List String} {a b : List Request} (ha : Asked args a)
    (hb : Asked args b) : a = b :=
  List.right_unique_forall₂' (fun _ _ _ h => h.unique) ha.1 hb.1

/-- Arguments are accepted for what they ask for. -/
theorem readArguments_iff {args : List String} {invocation : Invocation} :
    readArguments args = .ok invocation ↔
      ∃ requests, Asked args requests ∧ Granted requests invocation := by
  refine ⟨granted_of_readArguments, fun ⟨requests, hasked, hgranted⟩ => ?_⟩
  obtain ⟨accepted, haccepted⟩ := readArguments_of_asked hasked
  obtain ⟨requests', hasked', hgranted'⟩ := granted_of_readArguments haccepted
  obtain rfl := hasked.unique hasked'
  rw [haccepted, hgranted.unique hgranted']

-- ================================================================= any order

theorem run_refused {args : List String} {error : UsageError}
    (h : readArguments args = .error error) (contents : String → Option String) (input : String) :
    run args contents input = refuse error := by
  rw [run, h]

/-- The order of arguments does not matter. In any order they are accepted
for the same, or refused with exit code 64. Those are accepted that each ask
for something, no two of them for something of the same group. -/
theorem arguments_unordered {args args' : List String} (h : args.Perm args') :
    ((∃ invocation, readArguments args = .ok invocation ∧
        readArguments args' = .ok invocation) ∨
      ∃ error error', readArguments args = .error error ∧ readArguments args' = .error error' ∧
        ∀ contents input, (run args contents input).exit = 64 ∧
          (run args' contents input).exit = 64) ∧
    ((∃ invocation, readArguments args = .ok invocation) ↔ ∃ requests, Asked args requests) := by
  have hmove : ∀ {args args' : List String} {invocation : Invocation}, args.Perm args' →
      readArguments args = .ok invocation → readArguments args' = .ok invocation := by
    intro args args' invocation h haccepted
    obtain ⟨requests, hasked, hgranted⟩ := readArguments_iff.1 haccepted
    obtain ⟨requests', hasked', hperm⟩ := hasked.perm h
    exact readArguments_iff.2 ⟨requests', hasked', hgranted.perm hperm⟩
  refine ⟨?_, ?_⟩
  · cases haccepted : readArguments args with
    | ok invocation => exact .inl ⟨invocation, rfl, hmove h haccepted⟩
    | error error =>
        refine .inr ?_
        cases haccepted' : readArguments args' with
        | ok invocation =>
            rw [hmove h.symm haccepted'] at haccepted
            cases haccepted
        | error error' =>
            refine ⟨error, error', rfl, rfl, fun contents input => ?_⟩
            rw [run_refused haccepted, run_refused haccepted']
            exact ⟨rfl, rfl⟩
  · constructor
    · rintro ⟨invocation, haccepted⟩
      obtain ⟨requests, hasked, -⟩ := readArguments_iff.1 haccepted
      exact ⟨requests, hasked⟩
    · exact fun ⟨requests, hasked⟩ => readArguments_of_asked hasked

/-- A tree of a file within a quarter of a second, asked for in two ways. -/
theorem arguments_unordered_tree :
    ["--ast", "--timeout=250", "point.js"].Perm ["point.js", "--ast", "--timeout=250"] ∧
      ∃ invocation, readArguments ["--ast", "--timeout=250", "point.js"] = .ok invocation ∧
        readArguments ["point.js", "--ast", "--timeout=250"] = .ok invocation := by
  have hperm : ["--ast", "--timeout=250", "point.js"].Perm
      ["point.js", "--ast", "--timeout=250"] := by decide
  rcases (arguments_unordered hperm).1 with haccepted | ⟨error, -, herror, -⟩
  · exact ⟨hperm, haccepted⟩
  · cases herror

end BoardScript.Command
