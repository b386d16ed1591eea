import Infos.Fs.Tar
import Infos.Util.MapRuns
import Infos.Util.Strings

/-!
# The tree of `TarFS`

The nodes are in the order in which they were made, and a pointer to a node is its place in that
order. `alloc` is where the allocator has memory for the nodes of the maps, request by request.
-/

open Infos.Prog Infos.Util

namespace Infos.Fs

structure TarFSNode where
  _children : Map UInt64 ℕ
  _name : List UInt8
  _size : UInt32
  _has_block_offset : Bool
  _block_offset : UInt32

structure Heap where
  nodes : List TarFSNode
  requests : ℕ

abbrev TarOp (α : Type) := StateT Heap (Except Fault) α

namespace TarFSNode

def new (name : List UInt8) : TarOp ℕ := do
  let node := (← get).nodes.length
  modify fun h => { h with nodes := h.nodes ++ [⟨Map.empty, name, 0, false, 0⟩] }
  return node

def load (node : ℕ) : TarOp TarFSNode := do
  match (← get).nodes[node]? with
  | none => throw .null
  | some n => pure n

def store (node : ℕ) (n : TarFSNode) : TarOp Unit :=
  modify fun h => { h with nodes := h.nodes.set node n }

/-- A call on the map of the children. -/
def children {α : Type} (node : ℕ) (x : Util.Op UInt64 ℕ α) : TarOp α := do
  let n ← load node
  match x n._children with
  | .error e => throw e
  | .ok (a, m) => do
    store node { n with _children := m }
    pure a

def get_child (node : ℕ) (name : List UInt8) : TarOp (Option ℕ) :=
  children node (Map.try_get_value (Util.String.compute_hash name))

def set_block_offset (node : ℕ) (offset : UInt32) : TarOp Unit := do
  store node { ← load node with _has_block_offset := true, _block_offset := offset }

def size (node : ℕ) (size : UInt32) : TarOp Unit := do
  store node { ← load node with _size := size }

def add_child (alloc : ℕ → ℕ) (node : ℕ) (name : List UInt8) (child : ℕ) : TarOp Unit := do
  let request := (← get).requests
  modify fun h => { h with requests := request + 1 }
  children node (Map.add (alloc request) (Util.String.compute_hash name) child)

/-- Going down from a node, by one name after the other. -/
def walk (node : ℕ) : List (List UInt8) → TarOp (Option ℕ)
  | [] => return some node
  | name :: rest => do
    match ← get_child node name with
    | none => return none
    | some child => walk child rest

end TarFSNode

namespace TarFS

def is_zero_block (buffer : Block) : Bool := decide (∀ i, buffer i = 0)

/-- The loop of `BuildTreeRecursive`, with the parts of the path that are left. -/
def build_tree_recursive_loop (alloc : ℕ → ℕ) (prevRoot : ℕ) : List (List UInt8) → TarOp ℕ
  | [] => return prevRoot
  | folderName :: path => do
    match ← TarFSNode.get_child prevRoot folderName with
    | some node => build_tree_recursive_loop alloc node path
    | none =>
      let node ← TarFSNode.new folderName
      TarFSNode.add_child alloc prevRoot folderName node
      build_tree_recursive_loop alloc node path

def build_tree_recursive (alloc : ℕ → ℕ) (root : ℕ) (header : Block) (size : UInt32) :
    TarOp Unit := do
  match Util.String.split 47 false (posix_header.name header) with
  | none => throw .loops
  | some path =>
    let prevRoot ← build_tree_recursive_loop alloc root path
    TarFSNode.set_block_offset prevRoot size
    TarFSNode.size prevRoot (octal2ui (posix_header.size header))

/-- The loop of `build_tree`. It comes back with `false` if a block cannot be read. -/
def build_tree_loop (alloc : ℕ → ℕ) (dev : BlockDevice) (root : ℕ) : ℕ → UInt32 → TarOp Bool
  | 0, _ => throw .loops
  | turns + 1, blockCount => do
    if blockCount.toNat < dev.block_count then
      match dev.read_block blockCount.toNat with
      | none => return false
      | some buffer =>
        if is_zero_block buffer then return true
        let blockToRead := octal2ui (posix_header.size buffer)
        if posix_header.typeflag buffer = 48 then
          build_tree_recursive alloc root buffer blockCount
        build_tree_loop alloc dev root turns
          (blockCount + (blockToRead / 512 + if blockToRead % 512 ≠ 0 then 1 else 0) + 1)
    else return true

@[irreducible]
def build_tree (alloc : ℕ → ℕ) (dev : BlockDevice) : TarOp (Option ℕ) := do
  let root ← TarFSNode.new []
  if ← build_tree_loop alloc dev root (2 ^ 32) 0 then return some root else return none

end TarFS

end Infos.Fs
