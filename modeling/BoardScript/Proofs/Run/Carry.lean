/-
Code that does what a plan says. Running code from a frame on carries out a
plan if it does what running the plan does for as many instructions, and
then goes on from where the plan leads (`Carries`). A loop in a plan goes
round so many times at most, and each turn takes instructions, so within
that many instructions no loop is cut off.

Code enacts a plan if it carries it out wherever it stands in a chunk and
whatever lies below on the stack (`Enacts`). Code that enacts plans can be
put one behind the other.
-/
import BoardScript.Proofs.Run.Perform
import BoardScript.Proofs.Run.Plan

namespace BoardScript

open Compile BoardScript.Frame

variable {α β γ : Type}

-- ============================================================ running plans

namespace Plan

variable {env : Env} {span : Span}

theorem runFor_act_succ {x : Eval β} {steady : Steady x} {next : β → Plan α}
    {go : α → Nat → Eval Value} {fuel : Nat} :
    (Plan.act span x steady next).runFor env go (fuel + 1) = (do
      env.ask span
      let b ← x
      (next b).runFor env go fuel) := rfl

theorem runFor_call_succ {node : Node} {function : Value} {args : List Value} {attributes : Option ObjectId}
    {site : CallSite} {next : Value → Plan α} {go : α → Nat → Eval Value} {fuel : Nat} :
    (Plan.call node function args attributes site next).runFor env go (fuel + 1) = (do
      env.ask site.span
      let fields ← attributesAt attributes
      let value ← callValue env.call function args fields site
      (next value).runFor env go fuel) := rfl

/-- Only what a plan goes on with after no more instructions matters. -/
theorem runFor_congr {P : α → Prop} {go go' : α → Nat → Eval Value} {p : Plan α} (hp : p.Gives P) :
    (fuel : Nat) → (∀ a, P a → ∀ left ≤ fuel, go a left = go' a left) →
      p.runFor env go fuel = p.runFor env go' fuel := by
  induction p with
  | give a => exact fun fuel h => h a hp fuel (Nat.le_refl _)
  | act span x steady next ih =>
      intro fuel h
      cases fuel with
      | zero => rfl
      | succ fuel =>
          rw [runFor_act_succ, runFor_act_succ]
          exact bind_congr fun _ => bind_congr fun b =>
            ih b (hp b) fuel fun a ha left hleft => h a ha left (Nat.le_succ_of_le hleft)
  | call node function args attributes site next ih =>
      intro fuel h
      cases fuel with
      | zero => rfl
      | succ fuel =>
          rw [runFor_call_succ, runFor_call_succ]
          exact bind_congr fun _ => bind_congr fun _ => bind_congr fun v =>
            ih v (hp v) fuel fun a ha left hleft => h a ha left (Nat.le_succ_of_le hleft)
  | done span x steady => exact fun fuel _ => by cases fuel <;> rfl
  | cut => exact fun fuel _ => by cases fuel <;> rfl

/-- One plan and then another. -/
theorem runFor_bind {go : β → Nat → Eval Value} (p : Plan α) (q : α → Plan β) : (fuel : Nat) →
    (p >>= q).runFor env go fuel = p.runFor env (fun a left => (q a).runFor env go left) fuel := by
  induction p with
  | give a => exact fun fuel => rfl
  | act span x steady next ih =>
      intro fuel
      cases fuel with
      | zero => rfl
      | succ fuel =>
          exact bind_congr fun _ => bind_congr fun b => ih b fuel
  | call node function args attributes site next ih =>
      intro fuel
      cases fuel with
      | zero => rfl
      | succ fuel =>
          exact bind_congr fun _ => bind_congr fun _ => bind_congr fun v => ih v fuel
  | done span x steady => exact fun fuel => by cases fuel <;> rfl
  | cut => exact fun fuel => by cases fuel <;> rfl

end Plan

-- ========================================================= carrying out plans

/-- Within a number of instructions, running code from a frame on does what
a plan says and goes on from the frame that the plan leads to. -/
def Carries (env : Env) (chunk : Chunk) (limit : Nat) (frame : Frame) (p : Plan α)
    (next : α → Frame) : Prop :=
  ∀ fuel ≤ limit,
    exec env chunk fuel frame = p.runFor env (fun a left => exec env chunk left (next a)) fuel

namespace Carries

variable {env : Env} {chunk : Chunk} {limit : Nat} {frame : Frame} {p : Plan α} {q : α → Plan β}
  {mid : α → Frame} {next : β → Frame} {span : Span}

theorem give {a : β} : Carries env chunk limit (next a) (.give a) next := fun _ _ => rfl

theorem mono {more : Nat} {next : α → Frame} (h : Carries env chunk more frame p next)
    (hle : limit ≤ more) : Carries env chunk limit frame p next :=
  fun fuel hfuel => h fuel (Nat.le_trans hfuel hle)

/-- One plan and then another, for all that the first can come to. -/
theorem bind_of {P : α → Prop} (hgives : p.Gives P) (hp : Carries env chunk limit frame p mid)
    (hq : ∀ a, P a → Carries env chunk limit (mid a) (q a) next) :
    Carries env chunk limit frame (p >>= q) next := by
  intro fuel hfuel
  rw [hp fuel hfuel, Plan.runFor_bind]
  exact Plan.runFor_congr hgives fuel fun a ha left hleft =>
    hq a ha left (Nat.le_trans hleft hfuel)

theorem bind (hp : Carries env chunk limit frame p mid)
    (hq : ∀ a, Carries env chunk limit (mid a) (q a) next) :
    Carries env chunk limit frame (p >>= q) next :=
  bind_of (P := fun _ => True) (Plan.gives_of_forall (fun _ => trivial) p) hp fun a _ => hq a

/-- An instruction, and then the rest within fewer instructions. -/
theorem act {x : Eval α} {steady : Steady x} (mid : α → Frame)
    (hstep : step env chunk frame = (do
      env.ask span
      let a ← x
      return .next (mid a)))
    (hq : ∀ a, Carries env chunk limit (mid a) (q a) next) :
    Carries env chunk (limit + 1) frame (Plan.instr span x steady >>= q) next := by
  intro fuel hfuel
  cases fuel with
  | zero => rfl
  | succ fuel =>
      rw [exec, hstep]
      simp only [bind_assoc, pure_bind]
      exact bind_congr fun _ => bind_congr fun a => hq a fuel (Nat.le_of_succ_le_succ hfuel)

/-- An instruction that only moves on. -/
theorem move {frame' : Frame} {q : Unit → Plan β}
    (hstep : step env chunk frame = (do
      env.ask span
      return .next frame'))
    (hq : Carries env chunk limit frame' (q ()) next) :
    Carries env chunk (limit + 1) frame (Plan.move span >>= q) next :=
  act (fun _ => frame') hstep fun _ => hq

theorem call {node : Node} {function : Value} {args : List Value} {attributes : Option ObjectId} {site : CallSite}
    {next : Value → Frame}
    (hstep : step env chunk frame = (do
      env.ask site.span
      let fields ← attributesAt attributes
      let value ← callValue env.call function args fields site
      return .next (next value))) :
    Carries env chunk limit frame (.call node function args attributes site .give) next := by
  intro fuel hfuel
  cases fuel with
  | zero => rfl
  | succ fuel =>
      rw [exec, hstep]
      simp only [bind_assoc, pure_bind]
      rfl

theorem done {x : Eval Value} {steady : Steady x} {next : α → Frame}
    (hstep : step env chunk frame = (do
      env.ask span
      let value ← x
      return .done value)) :
    Carries env chunk limit frame (.done span x steady) next := by
  intro fuel hfuel
  cases fuel with
  | zero => rfl
  | succ fuel =>
      rw [exec, hstep]
      simp only [bind_assoc, pure_bind]
      exact bind_congr fun _ => bind_pure _

/-- A loop: its condition, the way in or out, the turn and the way back. -/
theorem looping {condition : Plan Value} {turn : Plan Unit} {turns : Nat}
    {tested chosen : Value → Frame} {entered left : Frame} {next : Value → Frame}
    (hcondition : Carries env chunk turns frame condition tested)
    (htest : ∀ v, step env chunk (tested v) = (do
      env.ask span
      return .next (chosen v)))
    (hchosen : ∀ v, step env chunk (chosen v) = (do
      env.ask span
      return .next (if v.truthy then entered else left)))
    (hturn : Carries env chunk turns entered turn fun _ => frame)
    (hlast : step env chunk left = (do
      env.ask span
      return .next (next .undefined))) :
    Carries env chunk turns frame (Plan.looping condition turn span turns) next := by
  suffices ∀ n ≤ turns, Carries env chunk n frame (Plan.looping condition turn span n) next from
    this turns (Nat.le_refl _)
  intro n
  induction n with
  | zero =>
      intro _ fuel hfuel
      rw [Nat.le_zero.1 hfuel]
      rfl
  | succ n ih =>
      intro hn
      have hless := Nat.le_of_succ_le hn
      refine (hcondition.mono hn).bind fun v => move (htest v) (mono (move (hchosen v) ?_) (Nat.le_succ n))
      cases v.truthy with
      | true => exact (hturn.mono hless).bind fun _ => ih hless
      | false => exact (move hlast give).mono (Nat.le_succ n)

end Carries

end BoardScript
