import LibHpack.Huffman.Model

/-!
# LibHpack.Huffman.Generator — the tables that the build generates (huffman-gen.py)

The script reads the code from the specification and renders the two arrays of `huffman_tables.c`.  An `Exception` of
the script is `none` here.  Its check of the tree, which only prints messages, is left out.
-/

namespace LibHpack

/-- An entry of the data that the script parses. -/
structure HuffmanEntry where
  symbN : ℕ
  bitLen : ℕ
  msbBits : List Bool
  lsbHex : ℕ
  deriving DecidableEq, Repr

/-- A `bTree`; `absent` is a child that is `None`.  A node is created with the id `None`, and has another one before it
is read; the id is 0 until then. -/
inductive BTree where
  | absent
  | node (nodeId : ℕ) (zero one : BTree)
  deriving DecidableEq, Repr

namespace BTree

/-- `children[b]`. -/
def child : BTree → Bool → BTree
  | absent, _ => absent
  | node _ zero one, b => if b then one else zero

def nodeId : BTree → ℕ
  | absent => 0
  | node id _ _ => id

def isPresent : BTree → Bool
  | absent => false
  | node .. => true

def isLeaf (t : BTree) : Bool := !((t.child false).isPresent || (t.child true).isPresent)

def buildFromLeaf : BTree → List Bool → ℕ → BTree
  | pos, [], leafId => node leafId (pos.child false) (pos.child true)
  | pos, false :: path, leafId => node pos.nodeId (buildFromLeaf (pos.child false) path leafId) (pos.child true)
  | pos, true :: path, leafId => node pos.nodeId (pos.child false) (buildFromLeaf (pos.child true) path leafId)

/-- `traverse`, behind its first test.  It returns the end node, the decoded symbols, and the ids of the nodes it
visits. -/
def traverseLoop (root : BTree) : BTree → List Bool → Option (BTree × List ℕ × List ℕ)
  | pos, [] => some (pos, if pos.isLeaf then [pos.nodeId] else [], [pos.nodeId])
  | pos, b :: path =>
    let next := pos.child b
    if !next.isPresent then none
    else if next.isLeaf then do
      let (pos', decoded, nodes) ← traverseLoop root root path
      some (pos', next.nodeId :: decoded, pos.nodeId :: next.nodeId :: nodes)
    else do
      let (pos', decoded, nodes) ← traverseLoop root next path
      some (pos', decoded, pos.nodeId :: nodes)

def traverse (root pos : BTree) (path : List Bool) : Option (BTree × List ℕ × List ℕ) :=
  traverseLoop root (if pos.isLeaf then root else pos) path

/-- `getNodes` without leaves, in the order in which its stack returns them. -/
def getNodes : BTree → List BTree
  | absent => []
  | node id zero one =>
    if (node id zero one).isLeaf then [] else node id zero one :: (getNodes zero ++ getNodes one)

/-- `assignIds`, from the id `n` on, and the next id. -/
def assignIds : BTree → ℕ → BTree × ℕ
  | absent, n => (absent, n)
  | node id zero one, n =>
    if (node id zero one).isLeaf then (node id zero one, n)
    else
      let (zero, n0) := assignIds zero (n + 1)
      let (one, n1) := assignIds one n0
      (node n zero one, n1)

end BTree

/-! ### The tables -/

/-- `combinations[x]`. -/
def combination (x : ℕ) : List Bool := [x &&& 8 ≠ 0, x &&& 4 ≠ 0, x &&& 2 ≠ 0, x &&& 1 ≠ 0]

/-- `getFlags`; a node is the root when it is the same object, and no other node has the whole tree below it. -/
def getFlags (root node : BTree) (decod : List ℕ) : ℕ :=
  (if node = root then 1 else 0) ||| (if decod.length ≠ 0 then 2 else 0)

def getFirst : List ℕ → ℕ
  | [] => 0
  | s :: _ => s

/-- One entry of `gen_decode_table`. -/
def decodeTableEntry (root : BTree) (eosPadding : List ℕ) (node : BTree) (decod : List ℕ) : HuffmanDecode :=
  if 256 = getFirst decod then ⟨-1, 0, 0⟩
  else
    ⟨node.nodeId, getFlags root node decod ||| (if node.nodeId ∈ eosPadding then 1 else 0), UInt8.ofNat (getFirst decod)⟩

/-- The tree that `gen_decode_table` builds. -/
def decodeTree (data : List HuffmanEntry) : BTree :=
  let tree := data.foldl (fun tree d => BTree.buildFromLeaf tree d.msbBits d.symbN) (BTree.node 0 .absent .absent)
  (tree.assignIds 0).1

def genDecodeTable (data : List HuffmanEntry) : Option (List (List HuffmanDecode)) :=
  if data.any fun d => d.bitLen < 4 then none
  else do
    let root := decodeTree data
    let last ← data.getLast?
    let (_, _, eosPadding) ← root.traverse root (last.msbBits.take 7)
    root.getNodes.mapM fun n => (List.range 16).mapM fun x => do
      let (pos, decod, _) ← root.traverse n (combination x)
      some (decodeTableEntry root eosPadding.tail pos decod)

def genHpackHuffman (data : List HuffmanEntry) : List HuffmanCode := data.map fun d => ⟨d.bitLen, d.lsbHex⟩

/-- The arrays of `huffman_tables.c`: what the script does not write is zero. -/
def huffmanGen (data : List HuffmanEntry) : Option HuffmanTables := do
  let decodeTable ← genDecodeTable data
  some
    { hpackHuffman := fun s => (genHpackHuffman data).getD s ⟨0, 0⟩
      decodeTable := fun s x => (decodeTable.getD s []).getD x ⟨0, 0, 0⟩ }

end LibHpack
