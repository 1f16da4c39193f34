/-
The reserved words as a tree of bytes. A scanner walks down it while it reads
a word, so that it knows at each byte whether what it has read is the front of
a reserved word, and which one it is when it is one.

The nodes stand in one array and name each other by their places in it. The
tree carries with it that it has a root and that every edge leads to one of
its nodes, so no place that is walked to can be out of range.
-/
import BoardScript.Token.Basic

namespace BoardScript

/-- What goes on from a place in the tree, and the reserved word that ends
there. -/
structure KeywordNode where
  edges : List (UInt8 × Nat) := []
  keyword : Option TokenKind := none
deriving Repr, Inhabited

structure KeywordTree where
  nodes : Array KeywordNode
  root_lt : 0 < nodes.size
  edge_lt : ∀ node ∈ nodes, ∀ edge ∈ node.edges, edge.2 < nodes.size

namespace KeywordTree

/-- A node, as its place among the nodes. -/
abbrev Place (tree : KeywordTree) : Type := Fin tree.nodes.size

def root (tree : KeywordTree) : tree.Place := ⟨0, tree.root_lt⟩

def node (tree : KeywordTree) (place : tree.Place) : KeywordNode := tree.nodes[place]

/-- The root alone. -/
def empty : KeywordTree where
  nodes := #[{}]
  root_lt := Nat.one_pos
  edge_lt := by simp

/-- Where one more byte leads. -/
def child (tree : KeywordTree) (place : tree.Place) (byte : UInt8) : Option tree.Place :=
  ((tree.node place).edges.find? (·.1 == byte)).pmap (fun edge h => ⟨edge.2, h⟩) fun edge h =>
    tree.edge_lt _ (Array.getElem_mem place.isLt) edge (List.mem_of_find?_eq_some h)

/-- The reserved word that ends at a place. -/
def keyword (tree : KeywordTree) (place : tree.Place) : Option TokenKind :=
  (tree.node place).keyword

/-- A new node behind the others, to which `byte` leads. -/
def grow (tree : KeywordTree) (place : tree.Place) (byte : UInt8) : KeywordTree where
  nodes := (tree.nodes.modify place fun node =>
    { node with edges := node.edges ++ [(byte, tree.nodes.size)] }).push {}
  root_lt := by simp
  edge_lt := by
    intro node hnode edge hedge
    rw [Array.size_push, Array.size_modify]
    rcases Array.mem_push.1 hnode with hnode | rfl
    · obtain ⟨i, hi, rfl⟩ := Array.mem_iff_getElem.1 hnode
      have hold := tree.edge_lt _ (Array.getElem_mem (by simpa using hi)) edge
      rw [Array.getElem_modify] at hedge
      split at hedge
      · rcases List.mem_append.1 hedge with hedge | hedge
        · exact Nat.lt_succ_of_lt (hold hedge)
        · rw [List.mem_singleton.1 hedge]
          exact Nat.lt_succ_self _
      · exact Nat.lt_succ_of_lt (hold hedge)
    · cases hedge

/-- Ends a reserved word at a place. -/
def mark (tree : KeywordTree) (place : tree.Place) (kind : TokenKind) : KeywordTree where
  nodes := tree.nodes.modify place fun node => { node with keyword := some kind }
  root_lt := by
    rw [Array.size_modify]
    exact tree.root_lt
  edge_lt := by
    intro node hnode edge hedge
    obtain ⟨i, hi, rfl⟩ := Array.mem_iff_getElem.1 hnode
    have hold := tree.edge_lt _ (Array.getElem_mem (by simpa using hi)) edge
    rw [Array.size_modify]
    rw [Array.getElem_modify] at hedge
    split at hedge <;> exact hold hedge

/-- Puts in the rest of a word from a place on. -/
def add (tree : KeywordTree) (place : tree.Place) (kind : TokenKind) : List UInt8 → KeywordTree
  | [] => tree.mark place kind
  | byte :: rest =>
      match tree.child place byte with
      | some next => tree.add next kind rest
      | none => (tree.grow place byte).add ⟨tree.nodes.size, by simp [grow]⟩ kind rest

/-- The bytes of a word. -/
def bytesOf (word : String) : List UInt8 := word.toByteArray.data.toList

def ofList (words : List (String × TokenKind)) : KeywordTree :=
  words.foldl (fun tree entry => tree.add tree.root entry.2 (bytesOf entry.1)) empty

end KeywordTree

/-- The tree of the reserved words. -/
def keywordTree : KeywordTree := .ofList TokenKind.keywords

end BoardScript
