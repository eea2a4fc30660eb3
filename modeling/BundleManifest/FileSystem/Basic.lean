/-
# BundleManifest.FileSystem.Basic — files, directories and links

A file system is a table of nodes under numbers. A directory lists names with the numbers of the
nodes that they name, and knows the directory above it. Names and contents are bytes. The working
directory is part of the file system, because relative paths start there.
-/
import BundleManifest.FileSystem.Path
import BundleManifest.Text.Utf8

namespace BundleManifest

/-- The number of a node. -/
abbrev Inode := Nat

/-- What a file system holds under a number. -/
inductive Node where
  /-- A directory, with the one above it and its entries in the order in which they were made. -/
  | directory (parent : Inode) (entries : List (Bytes × Inode))
  | regular (content : Bytes)
  /-- A symbolic link with its target. -/
  | link (target : Bytes)
  | pipe
  | device
  deriving DecidableEq, Repr

/-- What a node is, without what it holds. -/
inductive NodeKind where
  | directory
  | regular
  | link
  | special
  deriving DecidableEq, Repr

/-- The kind of a node. -/
def Node.kind : Node → NodeKind
  | directory .. => .directory
  | regular _ => .regular
  | link _ => .link
  | pipe | device => .special

/-- A table of nodes, with the working directory and the path by which it was entered. -/
structure FileSystem where
  nodes : List (Inode × Node)
  here : Inode
  herePath : Path
  deriving DecidableEq, Repr

namespace FileSystem

/-- The number of the topmost directory. -/
def rootInode : Inode := 0

/-- The file system that holds nothing but its root. -/
def empty : FileSystem := ⟨[(rootInode, .directory rootInode [])], rootInode, ⟨.root, []⟩⟩

/-- The node under a number. -/
def node? (fs : FileSystem) (i : Inode) : Option Node := fs.nodes.lookup i

/-- What the node under a number is. -/
def kind? (fs : FileSystem) (i : Inode) : Option NodeKind := (fs.node? i).map Node.kind

/-- The entries of a directory. -/
def entries? (fs : FileSystem) (i : Inode) : Option (List (Bytes × Inode)) :=
  match fs.node? i with
  | some (.directory _ entries) => some entries
  | _ => none

/-- A number above all numbers in use. -/
def fresh (fs : FileSystem) : Inode := fs.nodes.foldl (fun n e => max n (e.1 + 1)) 0

/-- The file system with another node under a number in use. -/
def setNode (fs : FileSystem) (i : Inode) (node : Node) : FileSystem :=
  { fs with nodes := fs.nodes.map fun e => if e.1 = i then (i, node) else e }

/-- The file system with a node under a new number. -/
def addNode (fs : FileSystem) (i : Inode) (node : Node) : FileSystem :=
  { fs with nodes := fs.nodes ++ [(i, node)] }

/-- The file system without a node. -/
def dropNode (fs : FileSystem) (i : Inode) : FileSystem :=
  { fs with nodes := fs.nodes.filter fun e => e.1 != i }

/-- The file system in which the entries of a directory have been changed. -/
def mapEntries (fs : FileSystem) (directory : Inode)
    (f : List (Bytes × Inode) → List (Bytes × Inode)) : FileSystem :=
  match fs.node? directory with
  | some (.directory parent entries) => fs.setNode directory (.directory parent (f entries))
  | _ => fs

/-- A new node under a new name of a directory. -/
def addEntry (fs : FileSystem) (directory : Inode) (name : Bytes) (node : Node) : FileSystem :=
  let i := fs.fresh
  (fs.mapEntries directory fun entries => entries ++ [(name, i)]).addNode i node

/-- A directory without the entry under a name; the node that it named is left. -/
def dropEntry (fs : FileSystem) (directory : Inode) (name : Bytes) : FileSystem :=
  fs.mapEntries directory fun entries => entries.filter fun e => e.1 != name

end FileSystem

end BundleManifest
