import Mathlib

/-!
# Trees that spell words

Nodes with a partial child function spell words from a root.  In a tree no two
words lead to one node.  Grafting a fresh node below a node adds one word and
keeps all others.
-/

namespace MarketDataPipeline

variable {Node Letter : Type*}

/-- The node that a word leads to. -/
def descend (child : Node → Letter → Option Node) (node : Node) :
    List Letter → Option Node
  | [] => some node
  | letter :: rest =>
      (child node letter).bind fun next => descend child next rest

/-- No two words lead to one node. -/
def IsTree (child : Node → Letter → Option Node) (root : Node) : Prop :=
  ∀ ⦃u v node⦄, descend child root u = some node →
    descend child root v = some node → u = v

/-- No word leads to the node, and it has no children. -/
structure IsFresh (child : Node → Letter → Option Node) (root node : Node) :
    Prop where
  unreached : ∀ word, descend child root word ≠ some node
  childless : ∀ letter, child node letter = none

/-- The children with a new one below `parent`. -/
def graft [DecidableEq Node] [DecidableEq Letter]
    (child : Node → Letter → Option Node) (parent : Node) (letter : Letter)
    (node : Node) :
    Node → Letter → Option Node :=
  Function.update child parent
    (Function.update (child parent) letter (some node))

variable {child : Node → Letter → Option Node} {root : Node}

theorem descend_append (node : Node) (u v : List Letter) :
    descend child node (u ++ v) =
      (descend child node u).bind fun middle => descend child middle v := by
  induction u generalizing node with
  | nil => rfl
  | cons letter rest ih =>
      rw [List.cons_append, descend, descend, Option.bind_assoc]
      simp only [ih]

theorem descend_concat (node : Node) (word : List Letter) (letter : Letter) :
    descend child node (word ++ [letter]) =
      (descend child node word).bind fun middle => child middle letter := by
  rw [descend_append]
  simp [descend]

section Graft

variable [DecidableEq Node] [DecidableEq Letter] {parent node : Node}
  {word : List Letter} {letter : Letter}

theorem graft_of_ne {other : Node} {otherLetter : Letter}
    (hne : ¬ (other = parent ∧ otherLetter = letter)) :
    graft child parent letter node other otherLetter =
      child other otherLetter := by
  by_cases hother : other = parent
  · subst hother
    rw [graft, Function.update_self, Function.update_of_ne fun heq =>
      hne ⟨rfl, heq⟩]
  · rw [graft, Function.update_of_ne hother]

theorem graft_self :
    graft child parent letter node parent letter = some node := by
  rw [graft, Function.update_self, Function.update_self]

/-- A graft adds one word, which leads to the new node. -/
theorem IsTree.descend_graft (htree : IsTree child root)
    (hparent : descend child root word = some parent)
    (hnone : child parent letter = none) (hfresh : IsFresh child root node)
    (other : List Letter) :
    descend (graft child parent letter node) root other =
      if other = word ++ [letter] then some node
      else descend child root other := by
  induction other using List.reverseRecOn with
  | nil => rw [if_neg (by simp)]; rfl
  | append_singleton front last ih =>
      rw [descend_concat, ih]
      by_cases hfront : front = word ++ [letter]
      -- The new node has no children yet.
      · have hne : front ++ [last] ≠ word ++ [letter] := by
          intro heq
          have hlength := congrArg List.length heq
          simp [hfront] at hlength
        have hnew : node ≠ parent :=
          fun heq => hfresh.unreached word (heq ▸ hparent)
        have hold : descend child root (front ++ [last]) = none := by
          rw [descend_concat, hfront, descend_concat, hparent]
          simp [hnone]
        rw [if_pos hfront, if_neg hne, hold, Option.bind_some,
          graft_of_ne fun hboth => hnew hboth.1]
        exact hfresh.childless last
      · rw [if_neg hfront, descend_concat]
        cases hmiddle : descend child root front with
        | none =>
            have hne : front ++ [last] ≠ word ++ [letter] := by
              intro heq
              rw [(List.append_inj' heq rfl).1, hparent] at hmiddle
              simp at hmiddle
            rw [if_neg hne]
            rfl
        | some middle =>
            rw [Option.bind_some, Option.bind_some]
            by_cases hboth : middle = parent ∧ last = letter
            · obtain ⟨rfl, rfl⟩ := hboth
              rw [graft_self, if_pos (by rw [htree hmiddle hparent])]
            · have hne : front ++ [last] ≠ word ++ [letter] := by
                intro heq
                obtain ⟨rfl, hlast⟩ := List.append_inj' heq rfl
                rw [hparent, Option.some.injEq] at hmiddle
                exact hboth ⟨hmiddle.symm, (List.cons.inj hlast).1⟩
              rw [if_neg hne, graft_of_ne hboth]

/-- Grafting keeps a tree. -/
theorem IsTree.graft (htree : IsTree child root)
    (hparent : descend child root word = some parent)
    (hnone : child parent letter = none) (hfresh : IsFresh child root node) :
    IsTree (graft child parent letter node) root := by
  intro u v target hu hv
  rw [htree.descend_graft hparent hnone hfresh] at hu hv
  split at hu
  case isTrue hword =>
    split at hv
    case isTrue hword' => rw [hword, hword']
    case isFalse => exact absurd (hv.trans hu.symm) (hfresh.unreached v)
  case isFalse =>
    split at hv
    case isTrue => exact absurd (hu.trans hv.symm) (hfresh.unreached u)
    case isFalse => exact htree hu hv

end Graft

end MarketDataPipeline
