import InodeVolume.Directory.Basic

namespace InodeVolume

namespace Path

-- Every slash ends a component, so there is one more of them than there are slashes.
def splitChars : List Char → List (List Char)
  | []      => [[]]
  | c :: cs =>
    if c = '/' then [] :: splitChars cs
    else match splitChars cs with
      | []            => [[c]]
      | first :: rest => (c :: first) :: rest

def components (path : String) : List String :=
  (splitChars path.toList).map String.ofList

def leaf? (path : String) : Option (List String × String) :=
  match (components path).reverse.dropWhile (· = "") with
  | []             => none
  | leaf :: before => some (before.reverse, leaf)

end Path

namespace Volume

def walk (v : Volume) (dir : Nat) : List String → Except Fault Nat
  | []        => .ok dir
  | c :: rest =>
    if c = "" then v.walk dir rest
    else do
      if !(← v.isDir dir) then .error (.errno .notDirectory)
      v.walk (← v.lookup dir c) rest

def resolve (v : Volume) (root : Nat) (path : String) : Except Fault Nat :=
  v.walk root (Path.components path)

def locate (v : Volume) (root : Nat) (path : String) : Except Fault (Nat × String) := do
  match Path.leaf? path with
  | none                => .error (.errno .notFound)
  | some (before, leaf) =>
    let parent ← v.walk root before
    if !(← v.isDir parent) then .error (.errno .notDirectory)
    return (parent, leaf)

end Volume
end InodeVolume
