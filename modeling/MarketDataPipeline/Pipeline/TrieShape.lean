import MarketDataPipeline.Core.WordTree
import MarketDataPipeline.Pipeline.PrefixTrie

/-!
# The shape of the trie

The nodes of a `PrefixTrie` form a tree whose words are the clamped bytes of
symbols and their prefixes.  `insert` grafts the nodes that a symbol lacks, and
may stop midway; either way the words and the ids there were stay.
-/

namespace MarketDataPipeline.PrefixTrie

def childOf (trie : PrefixTrie) (nodeIdx : UInt32) (c : UInt8) :
    Option UInt32 :=
  if (trie.nodes nodeIdx).children c = 0 then none
  else some ((trie.nodes nodeIdx).children c)

/-- The node that a word of clamped bytes leads to. -/
def reach (trie : PrefixTrie) (word : List UInt8) : Option UInt32 :=
  descend trie.childOf 0 word

def word (symbol : Symbol) : List UInt8 := symbol.toList.map clampByte

theorem childOf_of_zero {trie : PrefixTrie} {nodeIdx : UInt32} {c : UInt8}
    (hzero : (trie.nodes nodeIdx).children c = 0) :
    trie.childOf nodeIdx c = none := if_pos hzero

theorem childOf_of_ne {trie : PrefixTrie} {nodeIdx : UInt32} {c : UInt8}
    (hne : (trie.nodes nodeIdx).children c ≠ 0) :
    trie.childOf nodeIdx c = some ((trie.nodes nodeIdx).children c) :=
      if_neg hne

theorem follow_eq (trie : PrefixTrie) (nodeIdx : UInt32) (bytes : List UInt8) :
    trie.follow nodeIdx bytes =
      descend trie.childOf nodeIdx (bytes.map clampByte) := by
  induction bytes generalizing nodeIdx with
  | nil => rfl
  | cons byte rest ih =>
      rw [follow, List.map_cons, descend]
      split
      case isTrue hzero => rw [childOf_of_zero hzero, Option.bind_none]
      case isFalse hne => rw [childOf_of_ne hne, Option.bind_some, ih]

theorem follow_symbol (trie : PrefixTrie) (symbol : Symbol) :
    trie.follow 0 symbol.toList = trie.reach (word symbol) :=
      trie.follow_eq 0 symbol.toList

theorem reach_concat {trie : PrefixTrie} {prior : List UInt8} {nodeIdx : UInt32}
    (hprior : trie.reach prior = some nodeIdx) (c : UInt8) :
    trie.reach (prior ++ [c]) = trie.childOf nodeIdx c := by
  rw [reach, descend_concat, ← reach, hprior, Option.bind_some]

theorem reach_child {trie : PrefixTrie} {prior : List UInt8}
    {nodeIdx : UInt32} {c : UInt8} (hprior : trie.reach prior = some nodeIdx)
    (hne : (trie.nodes nodeIdx).children c ≠ 0) :
    trie.reach (prior ++ [c]) = some ((trie.nodes nodeIdx).children c) := by
  rw [reach_concat hprior, childOf_of_ne hne]

/-- The nodes in use are a tree; the others are as `init` left them. -/
structure Shaped (trie : PrefixTrie) : Prop where
  tree : IsTree trie.childOf 0
  used : ∀ ⦃word node⦄, trie.reach word = some node → node < trie.nodeCount
  unused : ∀ node, trie.nodeCount ≤ node →
    trie.nodes node = ⟨fun _ => 0, invalidBookId⟩
  nonempty : 0 < trie.nodeCount
  nodeCount_le : trie.nodeCount ≤ maxNodes

theorem init_reach (word : List UInt8) :
    init.reach word = if word = [] then some 0 else none := by
  cases word <;> rfl

theorem init_shaped : Shaped init := by
  refine ⟨?_, ?_, fun _ _ => rfl, by decide, by decide⟩
  · intro u v node hu hv
    have hempty : ∀ {word}, descend init.childOf 0 word = some node →
        word = [] := by
      intro word hword
      have hreach := init_reach word
      rw [reach, hword] at hreach
      by_contra hne
      rw [if_neg hne] at hreach
      exact Option.some_ne_none node hreach
    rw [hempty hu, hempty hv]
  · intro word node hword
    rw [init_reach] at hword
    split at hword
    · rw [← Option.some.inj hword]
      decide
    · simp at hword

/-- Words and ids stay, and new words lead to new nodes. -/
structure Grows (trie trie' : PrefixTrie) : Prop where
  nodeCount : trie.nodeCount ≤ trie'.nodeCount
  kept : ∀ ⦃word node⦄, trie.reach word = some node →
    trie'.reach word = some node
  added : ∀ ⦃word node⦄, trie'.reach word = some node →
    trie.reach word = some node ∨ trie.nodeCount ≤ node
  bookId : ∀ node, (trie'.nodes node).bookId = (trie.nodes node).bookId
  nextBookId : trie'.nextBookId = trie.nextBookId

theorem Grows.refl (trie : PrefixTrie) : Grows trie trie :=
  ⟨UInt32.le_refl _, fun _ _ hword => hword, fun _ _ hword => Or.inl hword,
    fun _ => rfl, rfl⟩

theorem Grows.trans {trie trie' trie'' : PrefixTrie} (hfirst : Grows trie trie')
    (hlater : Grows trie' trie'') : Grows trie trie'' := by
  refine ⟨UInt32.le_trans hfirst.nodeCount hlater.nodeCount,
    fun _ _ hword => hlater.kept (hfirst.kept hword), fun word node hword => ?_,
    fun node => (hlater.bookId node).trans (hfirst.bookId node),
    hlater.nextBookId.trans hfirst.nextBookId⟩
  rcases hlater.added hword with hold | hnew
  · exact hfirst.added hold
  · exact Or.inr (UInt32.le_trans hfirst.nodeCount hnew)

/-! ## Adding a child -/

section AddChild

variable {trie : PrefixTrie} {prior : List UInt8} {nodeIdx : UInt32} {c : UInt8}

theorem Shaped.isFresh (hshaped : trie.Shaped) :
    IsFresh trie.childOf 0 trie.nodeCount := by
  refine ⟨fun word hword => UInt32.lt_irrefl _ (hshaped.used hword),
    fun letter => ?_⟩
  exact childOf_of_zero (by rw [hshaped.unused _ (UInt32.le_refl _)])

theorem addChild_child :
    ((trie.addChild nodeIdx c).nodes nodeIdx).children c = trie.nodeCount := by
  simp [addChild]

theorem addChild_bookId (node : UInt32) :
    ((trie.addChild nodeIdx c).nodes node).bookId =
      (trie.nodes node).bookId := by
  rw [addChild]
  dsimp only
  by_cases hnode : node = nodeIdx
  · rw [hnode, Function.update_self]
  · rw [Function.update_of_ne hnode]

theorem addChild_childOf (hsome : 0 < trie.nodeCount) :
    (trie.addChild nodeIdx c).childOf =
      graft trie.childOf nodeIdx c trie.nodeCount := by
  funext node letter
  by_cases hboth : node = nodeIdx ∧ letter = c
  · obtain ⟨rfl, rfl⟩ := hboth
    rw [graft_self, childOf, addChild_child,
      if_neg (UInt32.pos_iff_ne_zero.mp hsome)]
  · rw [graft_of_ne hboth, childOf, childOf]
    have hsame : ((trie.addChild nodeIdx c).nodes node).children letter =
        (trie.nodes node).children letter := by
      by_cases hnode : node = nodeIdx
      · subst hnode
        have hletter : letter ≠ c := fun heq => hboth ⟨rfl, heq⟩
        simp [addChild, hletter]
      · simp [addChild, hnode]
    rw [hsame]

theorem addChild_nodeCount_toNat (hroom : trie.nodeCount < maxNodes)
    (nodeIdx : UInt32) (c : UInt8) :
    (trie.addChild nodeIdx c).nodeCount.toNat = trie.nodeCount.toNat + 1 := by
  have hmax : maxNodes.toNat = 2048 := rfl
  rw [UInt32.lt_iff_toNat_lt, hmax] at hroom
  rw [addChild, UInt32.toNat_add, UInt32.toNat_one, Nat.mod_eq_of_lt (by omega)]

/-- The new child is the only new word. -/
theorem Shaped.reach_addChild (hshaped : trie.Shaped)
    (hprior : trie.reach prior = some nodeIdx)
    (hzero : (trie.nodes nodeIdx).children c = 0) (word : List UInt8) :
    (trie.addChild nodeIdx c).reach word =
      if word = prior ++ [c] then some trie.nodeCount else trie.reach word := by
  rw [reach, addChild_childOf hshaped.nonempty]
  exact hshaped.tree.descend_graft hprior (childOf_of_zero hzero)
    hshaped.isFresh word

theorem Shaped.reach_added (hshaped : trie.Shaped)
    (hprior : trie.reach prior = some nodeIdx)
    (hzero : (trie.nodes nodeIdx).children c = 0) :
    (trie.addChild nodeIdx c).reach (prior ++ [c]) =
      some (((trie.addChild nodeIdx c).nodes nodeIdx).children c) := by
  rw [hshaped.reach_addChild hprior hzero, if_pos rfl, addChild_child]

theorem Shaped.addChild (hshaped : trie.Shaped)
    (hprior : trie.reach prior = some nodeIdx)
    (hzero : (trie.nodes nodeIdx).children c = 0)
    (hroom : trie.nodeCount < maxNodes) :
    (trie.addChild nodeIdx c).Shaped := by
  have hcount := addChild_nodeCount_toNat hroom nodeIdx c
  rw [UInt32.lt_iff_toNat_lt] at hroom
  refine ⟨?_, fun word node hword => ?_, fun node hnode => ?_, ?_, ?_⟩
  · rw [addChild_childOf hshaped.nonempty]
    exact hshaped.tree.graft hprior (childOf_of_zero hzero) hshaped.isFresh
  · rw [hshaped.reach_addChild hprior hzero] at hword
    rw [UInt32.lt_iff_toNat_lt, hcount]
    split at hword
    · rw [← Option.some.inj hword]
      exact Nat.lt_succ_self _
    · exact Nat.lt_succ_of_lt (UInt32.lt_iff_toNat_lt.mp (hshaped.used hword))
  · rw [UInt32.le_iff_toNat_le, hcount] at hnode
    have hparent := UInt32.lt_iff_toNat_lt.mp (hshaped.used hprior)
    have hne : node ≠ nodeIdx := by
      rintro rfl
      omega
    have hold := hshaped.unused node (UInt32.le_iff_toNat_le.mpr (by omega))
    rw [← hold]
    exact Function.update_of_ne hne ..
  · rw [UInt32.lt_iff_toNat_lt, hcount, UInt32.toNat_zero]
    exact Nat.succ_pos _
  · rw [UInt32.le_iff_toNat_le, hcount]
    exact hroom

theorem Shaped.grows_addChild (hshaped : trie.Shaped)
    (hprior : trie.reach prior = some nodeIdx)
    (hzero : (trie.nodes nodeIdx).children c = 0)
    (hroom : trie.nodeCount < maxNodes) :
    Grows trie (trie.addChild nodeIdx c) := by
  have hcount := addChild_nodeCount_toNat hroom nodeIdx c
  refine ⟨?_, fun word node hword => ?_, fun word node hword =>
    ?_, addChild_bookId, rfl⟩
  · rw [UInt32.le_iff_toNat_le, hcount]
    exact Nat.le_succ _
  · rw [hshaped.reach_addChild hprior hzero, if_neg, hword]
    rintro rfl
    rw [reach_concat hprior, childOf_of_zero hzero] at hword
    simp at hword
  · rw [hshaped.reach_addChild hprior hzero] at hword
    split at hword
    · exact Or.inr (UInt32.le_of_eq (Option.some.inj hword))
    · exact Or.inl hword

end AddChild

/-! ## Extending -/

/-- The loop of `insert`, from a node that `prior` leads to: it reaches the node
of the whole word unless the nodes run out, and the trie only grows. -/
theorem Shaped.extend {trie : PrefixTrie} (hshaped : trie.Shaped)
    {prior : List UInt8} {nodeIdx : UInt32}
    (hprior : trie.reach prior = some nodeIdx) (bytes : List UInt8) :
    (trie.extend nodeIdx bytes).2.Shaped ∧
      Grows trie (trie.extend nodeIdx bytes).2 ∧
      (∀ node, (trie.extend nodeIdx bytes).1 = some node →
        (trie.extend nodeIdx bytes).2.reach (prior ++ bytes.map clampByte) =
          some node) ∧
      ∀ node, trie.reach (prior ++ bytes.map clampByte) = some node →
        trie.extend nodeIdx bytes = (some node, trie) := by
  induction bytes generalizing trie prior nodeIdx with
  | nil =>
      rw [PrefixTrie.extend, List.map_nil, List.append_nil]
      refine ⟨hshaped, Grows.refl trie, fun node hnode =>
        ?_, fun node hnode => ?_⟩
      · rw [← hnode]
        exact hprior
      · rw [← hprior, hnode]
  | cons byte rest ih =>
      rw [PrefixTrie.extend, List.map_cons, List.append_cons]
      dsimp only
      split
      case isTrue hzero =>
        have hmissing : ∀ node,
            trie.reach (prior ++ [clampByte byte] ++ rest.map clampByte) ≠
            some node := by
          intro node
          rw [reach, descend_append, ← reach, reach_concat hprior,
            childOf_of_zero hzero]
          simp
        split
        case isTrue =>
          exact ⟨hshaped, Grows.refl trie, fun node hnode => by simp at hnode,
            fun node hnode => absurd hnode (hmissing node)⟩
        case isFalse hroom =>
          have hroom := UInt32.not_le.mp hroom
          obtain ⟨hshaped', hgrows, hfound, -⟩ :=
            ih (hshaped.addChild hprior hzero hroom)
              (hshaped.reach_added hprior hzero)
          exact ⟨hshaped', (hshaped.grows_addChild hprior hzero hroom).trans
            hgrows, hfound,
            fun node hnode => absurd hnode (hmissing node)⟩
      case isFalse hne => exact ih hshaped (reach_child hprior hne)

end MarketDataPipeline.PrefixTrie
