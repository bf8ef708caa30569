import MarketDataPipeline.Wire.ItchMessage

/-!
# The symbol trie

`PrefixTrie` maps the eight bytes of a symbol to a book id.  Its nodes lie in a
flat array; a child index of 0 means that there is no child.
-/

namespace MarketDataPipeline

def maxNodes : UInt32 := 2048

def alphabetSize : UInt8 := 128

def invalidBookId : UInt16 := 0xFFFF

/-- The number of ids that `insert` hands out. -/
def maxBooks : UInt16 := 1000

structure TrieNode where
  children : UInt8 → UInt32
  bookId : UInt16

structure PrefixTrie where
  nodes : UInt32 → TrieNode
  nodeCount : UInt32
  nextBookId : UInt16

namespace PrefixTrie

def init : PrefixTrie where
  nodes _ := ⟨fun _ => 0, invalidBookId⟩
  nodeCount := 1
  nextBookId := 0

/-- Bytes outside the alphabet count as 0. -/
def clampByte (byte : UInt8) : UInt8 := if byte ≥ alphabetSize then 0 else byte

/-- The loop of `lookup`: the node reached from `nodeIdx`. -/
def follow (trie : PrefixTrie) (nodeIdx : UInt32) : List UInt8 → Option UInt32
  | [] => some nodeIdx
  | byte :: rest =>
      let child := (trie.nodes nodeIdx).children (clampByte byte)
      if child = 0 then none else trie.follow child rest

def lookup (trie : PrefixTrie) (symbol : Symbol) : UInt16 :=
  match trie.follow 0 symbol.toList with
  | some nodeIdx => (trie.nodes nodeIdx).bookId
  | none => invalidBookId

/-- `nodes[node_idx].children[c] = node_count; node_count++;` -/
def addChild (trie : PrefixTrie) (nodeIdx : UInt32) (c : UInt8) : PrefixTrie :=
  { trie with
    nodes := Function.update trie.nodes nodeIdx
      { trie.nodes nodeIdx with
        children :=
          Function.update (trie.nodes nodeIdx).children c trie.nodeCount }
    nodeCount := trie.nodeCount + 1 }

/-- The loop of `insert`: the node reached, adding what is missing; `none` when
the nodes run out, which leaves what was added so far. -/
def extend (trie : PrefixTrie) (nodeIdx : UInt32) :
    List UInt8 → Option UInt32 × PrefixTrie
  | [] => (some nodeIdx, trie)
  | byte :: rest =>
      let c := clampByte byte
      if (trie.nodes nodeIdx).children c = 0 then
        if trie.nodeCount ≥ maxNodes then (none, trie)
        else
          let extended := trie.addChild nodeIdx c
          extended.extend ((extended.nodes nodeIdx).children c) rest
      else trie.extend ((trie.nodes nodeIdx).children c) rest

def insert (trie : PrefixTrie) (symbol : Symbol) : UInt16 × PrefixTrie :=
  let reached := trie.extend 0 symbol.toList
  match reached.1 with
  | none => (invalidBookId, reached.2)
  | some nodeIdx =>
      let node := reached.2.nodes nodeIdx
      if node.bookId = invalidBookId then
        if reached.2.nextBookId ≥ maxBooks then (invalidBookId, reached.2)
        else
          (reached.2.nextBookId,
            { reached.2 with
              nodes := Function.update reached.2.nodes nodeIdx
                { node with bookId := reached.2.nextBookId }
              nextBookId := reached.2.nextBookId + 1 })
      else (node.bookId, reached.2)

/-- What `get_or_create` returns, with its output flag. -/
structure Routed where
  bookId : UInt16
  created : Bool
  trie : PrefixTrie

def getOrCreate (trie : PrefixTrie) (symbol : Symbol) : Routed :=
  let id := trie.lookup symbol
  if id = invalidBookId then
    let inserted := trie.insert symbol
    ⟨inserted.1, true, inserted.2⟩
  else ⟨id, false, trie⟩

/-- A known symbol changes nothing. -/
theorem getOrCreate_of_known {trie : PrefixTrie} {symbol : Symbol}
    {bookId : UInt16} (hlookup : trie.lookup symbol = bookId)
    (hknown : bookId ≠ invalidBookId) :
    trie.getOrCreate symbol = ⟨bookId, false, trie⟩ := by
  rw [getOrCreate, hlookup]
  exact if_neg hknown

end PrefixTrie

end MarketDataPipeline
