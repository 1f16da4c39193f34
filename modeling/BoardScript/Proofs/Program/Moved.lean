/-
What the rules build at other places. A rule handed the same parts at other
places builds the same at the new places (`rules_movable`), whatever places
those are: it takes the span that it is given, and looks at no other.
-/
import BoardScript.Proofs.Program.Builds
import BoardScript.Proofs.Program.Recast
import BoardScript.Proofs.Token.Spelling

namespace BoardScript

open Grammar

section

variable (move : Span → Span) (place : Position → Position)

def Target.recast : Target → Target
  | .variable name => .variable (name.recast move)
  | .property owner name => .property (owner.recast move false) (name.recast move)
  | .index base inner => .index (base.recast move false) (inner.recast move false)

/-- What a symbol stands for, at other places. -/
def Meaning.moved : Meaning → Meaning
  | .token x => .token (x.moved move place)
  | .node x => .node (x.recast move false)
  | .nodes xs => .nodes (xs.map (Node.recast move false))
  | .names xs => .names (xs.map (Name.recast move))
  | .properties xs => .properties (xs.map (Property.recast move false))
  | .name x => .name (x.recast move)
  | .target x => .target (x.recast move)

theorem Node.recast_withSpan (node : Node) (s : Span) :
    (node.withSpan s).recast move false = (node.recast move false).withSpan (move s) := by
  cases node <;> rfl

theorem Target.recast_assign (target : Target) (value : Node) (s : Span) :
    (target.assign value s).recast move false
      = (target.recast move).assign (value.recast move false) (move s) := by
  cases target <;> rfl

/-- A rule builds the same at every place. -/
def Rule.Movable (rule : Rule) : Prop :=
  ∀ span meanings,
    List.Forall₂ (fun symbol m => m.Sorted .anything symbol.sort) rule.production.body meanings →
    (rule.build span meanings).map (Meaning.moved move place)
      = rule.build (move span) (meanings.map (Meaning.moved move place))

-- Each list of rules is gone through rule by rule, as the sorts of the body
-- say what the meanings are.

theorem statementRules_movable : ∀ rule ∈ statementRules, rule.Movable move place := by
  intro rule h
  simp only [statementRules, List.mem_cons, List.not_mem_nil, or_false] at h
  rcases h with rfl | rfl | rfl | rfl | rfl | rfl | rfl | rfl | rfl | rfl | rfl | rfl | rfl |
    rfl | rfl | rfl | rfl | rfl | rfl | rfl | rfl
  all_goals
    intro span meanings hm
    repeat
      rcases hm with _ | ⟨h, hm⟩
      cases h
    cases hm
  all_goals first
    | rfl
    | simp [Meaning.moved, Target.recast_assign]; done
    | simp [Meaning.moved, Node.recast, recastAll_eq_map]

theorem operatorRules_movable : ∀ rule ∈ operatorRules, rule.Movable move place := by
  intro rule h
  simp only [operatorRules, List.mem_cons, List.not_mem_nil, or_false] at h
  rcases h with rfl | rfl | rfl | rfl | rfl | rfl | rfl | rfl | rfl | rfl | rfl | rfl | rfl |
    rfl | rfl | rfl | rfl | rfl | rfl | rfl | rfl | rfl | rfl | rfl | rfl | rfl | rfl | rfl
  all_goals
    intro span meanings hm
    repeat
      rcases hm with _ | ⟨h, hm⟩
      cases h
    cases hm
  all_goals first
    | rfl
    | simp [Meaning.moved, Node.recast_withSpan]

theorem valueRules_movable : ∀ rule ∈ valueRules, rule.Movable move place := by
  intro rule h
  simp only [valueRules, List.mem_cons, List.not_mem_nil, or_false] at h
  rcases h with rfl | rfl | rfl | rfl | rfl | rfl | rfl | rfl | rfl | rfl | rfl | rfl | rfl |
    rfl | rfl | rfl | rfl
  all_goals
    intro span meanings hm
    repeat
      rcases hm with _ | ⟨h, hm⟩
      cases h
    cases hm
  all_goals first
    | rfl
    | simp [Meaning.moved, Node.recast_withSpan]; done
    | simp [Meaning.moved, Node.recast, recastAll_eq_map, recastProperties_eq_map]

theorem listRules_movable : ∀ rule ∈ listRules, rule.Movable move place := by
  intro rule h
  simp only [listRules, List.mem_cons, List.not_mem_nil, or_false] at h
  rcases h with rfl | rfl | rfl | rfl | rfl | rfl | rfl | rfl | rfl | rfl | rfl | rfl | rfl |
    rfl | rfl
  all_goals
    intro span meanings hm
    repeat
      rcases hm with _ | ⟨h, hm⟩
      cases h
    cases hm
  all_goals first
    | rfl
    | simp [Meaning.moved, Node.recast, recastProperties_eq_map]; done
    | simp [Meaning.moved]; rfl

theorem rules_movable {index : Nat} {rule : Rule} (h : rules[index]? = some rule) :
    rule.Movable move place := by
  rcases mem_rules h with h | h | h | h
  · exact statementRules_movable move place rule h
  · exact operatorRules_movable move place rule h
  · exact valueRules_movable move place rule h
  · exact listRules_movable move place rule h

end

end BoardScript
