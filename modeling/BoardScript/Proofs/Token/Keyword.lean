/-
What the tree of reserved words knows. A place is reached by one word only,
since every node is entered by the edge that came with it (`Branching`), so
putting in a word changes what ends at that word and nothing else
(`wordAt_add`). So the tree made from a list says of each word what the last
entry for it says, and of any other text that it is no reserved word
(`wordAt_ofList`).
-/
import BoardScript.Token.Keyword
import Mathlib.Data.List.Induction

namespace BoardScript.KeywordTree

variable {tree : KeywordTree}

-- ================================================================= walking

/-- The place that some bytes lead to. -/
def walk (tree : KeywordTree) (place : tree.Place) : List UInt8 → Option tree.Place
  | [] => some place
  | byte :: rest => (tree.child place byte).bind (tree.walk · rest)

/-- The reserved word that is spelled by some bytes. -/
def wordAt (tree : KeywordTree) (word : List UInt8) : Option TokenKind :=
  (tree.walk tree.root word).bind tree.keyword

theorem walk_concat (place : tree.Place) (word : List UInt8) (byte : UInt8) :
    tree.walk place (word ++ [byte]) = (tree.walk place word).bind (tree.child · byte) := by
  induction word generalizing place with
  | nil => cases h : tree.child place byte <;> simp [walk, h]
  | cons first word ih =>
      rw [List.cons_append, walk, walk, Option.bind_assoc]
      exact congrArg _ (funext ih)

/-- Different words lead to different places. -/
def Branching (tree : KeywordTree) : Prop :=
  ∀ first second place, tree.walk tree.root first = some place →
    tree.walk tree.root second = some place → first = second

theorem val_child (place : tree.Place) (byte : UInt8) :
    (tree.child place byte).map (·.val) =
      ((tree.node place).edges.find? (·.1 == byte)).map (·.2) := by
  rw [child, Option.map_pmap, Option.pmap_eq_map]

-- ================================================================= growing

@[simp] theorem size_grow (place : tree.Place) (byte : UInt8) :
    (tree.grow place byte).nodes.size = tree.nodes.size + 1 := by simp [grow]

/-- The new node has no children, and the old ones have only the one that
came to `place`. -/
theorem val_child_grow {place : tree.Place} {byte : UInt8} (hnone : tree.child place byte = none)
    (other : (tree.grow place byte).Place) (next : UInt8) :
    ((tree.grow place byte).child other next).map (·.val) =
      if h : other.val < tree.nodes.size then
        if other.val = place ∧ next = byte then some tree.nodes.size
        else (tree.child ⟨other.val, h⟩ next).map (·.val)
      else none := by
  have hfind : tree.nodes[place].edges.find? (·.1 == byte) = none := by
    simpa [hnone, node] using (val_child place byte).symm
  rw [val_child, node]
  obtain ⟨other, hother⟩ := other
  by_cases h : other < tree.nodes.size
  · rw [dif_pos h, val_child, node]
    simp only [grow, Fin.getElem_fin, Array.getElem_push, Array.size_modify, h, dif_pos,
      Array.getElem_modify]
    by_cases hplace : place.val = other
    · subst hplace
      simp only [if_true, List.find?_append, true_and]
      by_cases hnext : next = byte
      · subst hnext
        rw [if_pos rfl, show tree.nodes[place.val].edges.find? (·.1 == next) = none from hfind]
        simp
      · rw [if_neg hnext]
        simp [Ne.symm hnext]
    · rw [if_neg hplace, if_neg fun h => hplace h.1.symm]
  · rw [dif_neg h]
    simp [grow, Array.getElem_push, h]

/-- In the grown tree the new node stands at the end of the new word, and
every other word leads where it led. -/
theorem val_walk_grow {place : tree.Place} {byte : UInt8} (hnone : tree.child place byte = none)
    (hbranching : tree.Branching) {path : List UInt8} (hpath : tree.walk tree.root path = some place)
    (word : List UInt8) :
    ((tree.grow place byte).walk (tree.grow place byte).root word).map (·.val) =
      if word = path ++ [byte] then some tree.nodes.size
      else (tree.walk tree.root word).map (·.val) := by
  induction word using List.reverseRecOn with
  | nil =>
      rw [if_neg (by simp)]
      rfl
  | append_singleton word next ih =>
      have hend : word ++ [next] = path ++ [byte] ↔ word = path ∧ next = byte :=
        List.append_singleton_inj
      rw [walk_concat, walk_concat]
      by_cases hnew : word = path ++ [byte]
      · -- nothing leads on from the new node
        rw [if_pos hnew] at ih
        obtain ⟨last, hlast, hsize⟩ := Option.map_eq_some_iff.1 ih
        have hchild := val_child_grow hnone last next
        rw [dif_neg (by simp [hsize])] at hchild
        rw [if_neg fun h => by simpa using hnew.symm.trans (hend.1 h).1, hlast, Option.bind_some,
          hchild, hnew, walk_concat, hpath, Option.bind_some, hnone]
        rfl
      · rw [if_neg hnew] at ih
        cases hold : tree.walk tree.root word with
        | none =>
            rw [hold, Option.map_none, Option.map_eq_none_iff] at ih
            rw [ih, if_neg fun h => by simp [(hend.1 h).1, hpath] at hold]
            rfl
        | some place' =>
            rw [hold, Option.map_some] at ih
            obtain ⟨last, hlast, hval⟩ := Option.map_eq_some_iff.1 ih
            have hsame : place'.val = place ↔ word = path := by
              rw [Fin.val_inj]
              constructor
              · rintro rfl
                exact hbranching _ _ _ hold hpath
              · rintro rfl
                exact Option.some.inj (hold.symm.trans hpath)
            rw [hlast, Option.bind_some, val_child_grow hnone, dif_pos (hval ▸ place'.isLt)]
            simp only [hsame, hend, Option.bind_some, hval]

theorem Branching.grow {place : tree.Place} {byte : UInt8} (hnone : tree.child place byte = none)
    (hbranching : tree.Branching) {path : List UInt8}
    (hpath : tree.walk tree.root path = some place) : (tree.grow place byte).Branching := by
  intro first second last hfirst hsecond
  have hwalk := val_walk_grow hnone hbranching hpath
  have hboth := (hwalk first).symm.trans ((congrArg (Option.map (·.val))
    (hfirst.trans hsecond.symm)).trans (hwalk second))
  -- an old place is not the new one
  have hold : ∀ word, (tree.walk tree.root word).map (·.val) ≠ some tree.nodes.size := by
    intro word h
    obtain ⟨old, -, hval⟩ := Option.map_eq_some_iff.1 h
    exact absurd hval (Nat.ne_of_lt old.isLt)
  split at hboth <;> split at hboth
  · simp [*]
  · exact absurd hboth.symm (hold second)
  · exact absurd hboth (hold first)
  · rename_i hne _
    have hval := hwalk first
    rw [if_neg hne, hfirst, Option.map_some] at hval
    obtain ⟨old, hfirst', -⟩ := Option.map_eq_some_iff.1 hval.symm
    rw [hfirst', Option.map_some] at hboth
    obtain ⟨old', hsecond', hval'⟩ := Option.map_eq_some_iff.1 hboth.symm
    exact hbranching _ _ _ hfirst' (hsecond'.trans (congrArg some (Fin.val_inj.1 hval')))

/-- What ends at a word, by the number of its node. -/
theorem wordAt_eq (word : List UInt8) :
    tree.wordAt word = ((tree.walk tree.root word).map (·.val)).bind fun i =>
      tree.nodes[i]?.bind (·.keyword) := by
  rw [wordAt, Option.bind_map]
  refine congrArg _ (funext fun place => ?_)
  simp [keyword, node]

theorem wordAt_grow {place : tree.Place} {byte : UInt8} (hnone : tree.child place byte = none)
    (hbranching : tree.Branching) {path : List UInt8}
    (hpath : tree.walk tree.root path = some place) (word : List UInt8) :
    (tree.grow place byte).wordAt word = tree.wordAt word := by
  have hkeyword : ∀ i : Nat, (tree.grow place byte).nodes[i]?.bind (·.keyword)
      = tree.nodes[i]?.bind (·.keyword) := by
    intro i
    rw [grow, Array.getElem?_push, Array.size_modify, Array.getElem?_modify]
    by_cases hnew : i = tree.nodes.size
    · simp [hnew]
    · rw [if_neg hnew]
      split
      · rw [Option.bind_map]
        rfl
      · rfl
  rw [wordAt_eq, wordAt_eq, val_walk_grow hnone hbranching hpath]
  simp only [hkeyword]
  split
  · rename_i h
    simp [h, walk_concat, hpath, hnone]
  · rfl

-- ================================================================= marking

theorem val_walk_mark (place : tree.Place) (kind : TokenKind) (word : List UInt8) :
    ((tree.mark place kind).walk (tree.mark place kind).root word).map (·.val)
      = (tree.walk tree.root word).map (·.val) := by
  induction word using List.reverseRecOn with
  | nil => rfl
  | append_singleton word next ih =>
      rw [walk_concat, walk_concat]
      cases hold : tree.walk tree.root word with
      | none =>
          rw [hold, Option.map_none, Option.map_eq_none_iff] at ih
          rw [ih]
          rfl
      | some old =>
          rw [hold, Option.map_some] at ih
          obtain ⟨last, hlast, hval⟩ := Option.map_eq_some_iff.1 ih
          rw [hlast, Option.bind_some, Option.bind_some, val_child, val_child]
          have hedges : (tree.mark place kind).nodes[last.val].edges = tree.nodes[old.val].edges := by
            simp only [mark, Array.getElem_modify, hval]
            split <;> rfl
          exact congrArg (fun edges => (edges.find? (·.1 == next)).map (·.2)) hedges

theorem Branching.mark (hbranching : tree.Branching) (place : tree.Place) (kind : TokenKind) :
    (tree.mark place kind).Branching := by
  intro first second last hfirst hsecond
  have hboth := (val_walk_mark place kind first).symm.trans ((congrArg (Option.map (·.val))
    (hfirst.trans hsecond.symm)).trans (val_walk_mark place kind second))
  have hval := val_walk_mark place kind first
  rw [hfirst, Option.map_some] at hval
  obtain ⟨old, hfirst', -⟩ := Option.map_eq_some_iff.1 hval.symm
  rw [hfirst', Option.map_some] at hboth
  obtain ⟨old', hsecond', hval'⟩ := Option.map_eq_some_iff.1 hboth.symm
  exact hbranching _ _ _ hfirst' (hsecond'.trans (congrArg some (Fin.val_inj.1 hval')))

theorem wordAt_mark (hbranching : tree.Branching) {place : tree.Place} {path : List UInt8}
    (hpath : tree.walk tree.root path = some place) (kind : TokenKind) (word : List UInt8) :
    (tree.mark place kind).wordAt word = if word = path then some kind else tree.wordAt word := by
  rw [wordAt_eq, wordAt_eq, val_walk_mark]
  cases hold : tree.walk tree.root word with
  | none =>
      rw [if_neg fun h => by simp [h, hpath] at hold]
      rfl
  | some old =>
      have hsame : place.val = old ↔ word = path := by
        rw [Fin.val_inj]
        constructor
        · rintro rfl
          exact hbranching _ _ _ hold hpath
        · rintro rfl
          exact Option.some.inj (hpath.symm.trans hold)
      simp only [Option.map_some, Option.bind_some, mark, Array.getElem?_modify, hsame]
      split
      · simp
      · rfl

-- ================================================================== adding

/-- Putting in a word makes it what ends there, and touches no other. -/
theorem wordAt_add (kind : TokenKind) (rest : List UInt8) {tree : KeywordTree} {place : tree.Place}
    (hbranching : tree.Branching) {path : List UInt8} (hpath : tree.walk tree.root path = some place) :
    (tree.add place kind rest).Branching ∧ ∀ word, (tree.add place kind rest).wordAt word
      = if word = path ++ rest then some kind else tree.wordAt word := by
  induction rest generalizing tree path with
  | nil =>
      rw [add, List.append_nil]
      exact ⟨hbranching.mark place kind, wordAt_mark hbranching hpath kind⟩
  | cons byte rest ih =>
      have hpaths : path ++ byte :: rest = path ++ [byte] ++ rest := by simp
      rw [add, hpaths]
      split
      · rename_i next hnext
        exact ih hbranching (by rw [walk_concat, hpath, Option.bind_some, hnext])
      · rename_i hnone
        have hwalk := val_walk_grow hnone hbranching hpath (path ++ [byte])
        rw [if_pos rfl] at hwalk
        obtain ⟨last, hlast, hval⟩ := Option.map_eq_some_iff.1 hwalk
        obtain rfl : last = ⟨tree.nodes.size, by simp⟩ := Fin.ext hval
        obtain ⟨hadded, hwords⟩ := ih (hbranching.grow hnone hpath) hlast
        refine ⟨hadded, fun word => ?_⟩
        rw [hwords, wordAt_grow hnone hbranching hpath]

theorem branching_empty : empty.Branching := by
  have hnil : ∀ word place, empty.walk empty.root word = some place → word = [] := by
    rintro (_ | ⟨byte, rest⟩) place h
    · rfl
    · cases h
  intro first second place hfirst hsecond
  rw [hnil _ _ hfirst, hnil _ _ hsecond]

theorem bytesOf_inj {first second : String} (h : bytesOf first = bytesOf second) :
    first = second :=
  String.toByteArray_inj.1 (ByteArray.ext (Array.toList_inj.1 h))

/-- A tree says of a word what the last entry for it in the list says. -/
theorem wordAt_ofList (words : List (String × TokenKind)) (word : String) :
    (ofList words).wordAt (bytesOf word) = words.reverse.lookup word := by
  have hfold : ∀ tree : KeywordTree, tree.Branching →
      (words.foldl (fun tree entry => tree.add tree.root entry.2 (bytesOf entry.1)) tree).wordAt
        (bytesOf word) = (words.reverse.lookup word).or (tree.wordAt (bytesOf word)) := by
    induction words with
    | nil => exact fun _ _ => rfl
    | cons entry words ih =>
        intro tree hbranching
        have hroot : tree.walk tree.root [] = some tree.root := rfl
        obtain ⟨hadded, hwords⟩ := wordAt_add entry.2 (bytesOf entry.1) hbranching hroot
        rw [List.foldl_cons, ih _ hadded, hwords, List.nil_append, List.reverse_cons,
          List.lookup_append, Option.or_assoc]
        congr 1
        obtain ⟨key, kind⟩ := entry
        by_cases h : word = key
        · simp [h]
        · rw [if_neg fun hbytes => h (bytesOf_inj hbytes)]
          simp [List.lookup_cons, beq_eq_false_iff_ne.2 h]
  have hempty : empty.wordAt (bytesOf word) = none := by
    cases h : bytesOf word <;> rfl
  rw [ofList, hfold empty branching_empty, hempty, Option.or_none]

end BoardScript.KeywordTree
