import Evlis.Text.Quoted

/-!
# File trees

What a path leads to. A path is walked part by part, from a place in a tree or, if it begins with
a slash, from the root; the first part that leads nowhere is reported.
-/

namespace Evlis.CommandLine

inductive FileFault where
  | missing
  | denied
  /-- A part of the path other than the last is a file. -/
  | notDirectory
  | directory
  | nameTooLong
  | other (reason : String)
deriving DecidableEq

/-- The number of a fault, if it is a usual one, and its reason. -/
def FileFault.reason : FileFault → String
  | .missing => "[Errno 2] No such file or directory"
  | .denied => "[Errno 13] Permission denied"
  | .notDirectory => "[Errno 20] Not a directory"
  | .directory => "[Errno 21] Is a directory"
  | .nameTooLong => "[Errno 36] File name too long"
  | .other reason => reason

def FileFault.message (fault : FileFault) (path : String) : String :=
  fault.reason ++ ": " ++ Text.quoted path

inductive FileTree where
  | file (bytes : List UInt8)
  | folder (entries : List (String × FileTree))

namespace FileTree

def nameLimit : Nat := 255

def pathLimit : Nat := 4095

/-- A place in a tree: what is there, and the trees around it, from the nearest to the root. -/
structure Place where
  tree : FileTree
  around : List FileTree

namespace Place

def root (place : Place) : Place := ⟨place.around.getLast?.getD place.tree, []⟩

/-- The place that a part of a path leads to; an empty part leads nowhere else, and nothing leads
out of the root. -/
def go (place : Place) (part : String) : Except FileFault Place :=
  match place.tree with
  | .file _ => .error .notDirectory
  | .folder entries =>
    if part = "" || part = "." then .ok place
    else if part = ".." then
      match place.around with
      | [] => .ok place
      | tree :: around => .ok ⟨tree, around⟩
    else if nameLimit < part.utf8ByteSize then .error .nameTooLong
    else
      match entries.lookup part with
      | none => .error .missing
      | some tree => .ok ⟨tree, place.tree :: place.around⟩

def read (place : Place) (path : String) : Except FileFault (List UInt8) :=
  if pathLimit < path.utf8ByteSize then .error .nameTooLong
  else
    let start := if path.toList.head? = some '/' then place.root else place
    match (path.splitOn "/").foldlM go start with
    | .error fault => .error fault
    | .ok ⟨.file bytes, _⟩ => .ok bytes
    | .ok ⟨.folder _, _⟩ => .error .directory

end Place

end FileTree

end Evlis.CommandLine
