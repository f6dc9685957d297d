import InodeVolume.Image.Handle

namespace InodeVolume.Image

structure Workspace where
  files  : Files := .replicate 3 .empty
  place  : Place FileId := .vacant
  volume : Option Handle := none
  tree   : Option Handle := none

abbrev Outcome (α : Type) : Type := Except Fault (Except SetupError α)

def Outcome.failed {α : Type} (e : SetupError) : Outcome α :=
  .ok (.error e)

def Outcome.done : Outcome Unit :=
  .ok (.ok ())

namespace Workspace

def found (w : Workspace) : Place Content :=
  w.place.map w.files.get

def content (w : Workspace) : Array UInt8 :=
  match w.found with
  | .file c => c.bytes
  | _       => #[]

def volumeFile? (w : Workspace) : Option FileId :=
  w.volume.map (·.file)

def treeFile? (w : Workspace) : Option FileId :=
  w.tree.map (·.file)

def usage? (w : Workspace) : Option Usage := do
  return ((← w.volume <|> w.tree).volume w.files).usage

def onVolume {α : Type} (act : VolumeM α) : Workspace → Except Fault α × Workspace
  | ⟨files, place, some h, tree⟩ =>
    let (result, h, files) := h.run act files
    (result, ⟨files, place, some h, tree⟩)
  | w => (.error .crash, w)

def onTree {α : Type} (act : VolumeM α) : Workspace → Except Fault α × Workspace
  | ⟨files, place, volume, some h⟩ =>
    let (result, h, files) := h.run act files
    (result, ⟨files, place, volume, some h⟩)
  | w => (.error .crash, w)

def put (w : Workspace) (c : Content) : Workspace :=
  let n := w.place.file?.getD (spare w.volumeFile? w.treeFile?)
  { w with files := w.files.set n c n.isLt, place := .file n }

def handle? (w : Workspace) : Option Handle :=
  w.place.file?.map fun n => { file := n }

def create (w : Workspace) : Outcome Unit × Workspace :=
  match w.found.createVolume with
  | .error e => (Outcome.failed e, w)
  | .ok v    =>
    let w := w.put { front := v }
    (Outcome.done, { w with volume := w.handle? })

def openVolume (w : Workspace) : Outcome Unit × Workspace :=
  match w.found.openVolume with
  | .error e => (Outcome.failed e, w)
  | .ok v    =>
    let w := w.put { front := v }
    (Outcome.done, { w with volume := w.handle? })

-- The file never sees what is done to a volume opened this way.
def openPrivate (w : Workspace) : Outcome Usage × Workspace :=
  match w.found.inspectVolume with
  | .error e => (Outcome.failed e, w)
  | .ok v    =>
    let volume := w.handle?.map fun h => { h with changes? := some {} }
    (.ok (.ok v.usage), { w with volume })

def openAnonymous (w : Workspace) : Outcome Unit × Workspace :=
  let n := spare w.place.file? w.treeFile?
  let files := w.files.set n { front := .blank } n.isLt
  (Outcome.done, { w with files, volume := some { file := n } })

def openTree (w : Workspace) : Outcome Unit × Workspace :=
  match w.found.openVolume with
  | .error e => (Outcome.failed e, w)
  | .ok v    =>
    let (result, v) := withRoot v
    let w := w.put { front := v }
    match result with
    | .ok (.ok ()) => (result, { w with volume := w.handle?, tree := w.handle? })
    | _            => (result, w)

def openAnonymousTree (w : Workspace) : Outcome Unit × Workspace :=
  match withRoot .blank with
  | (.ok (.ok ()), v) =>
    let n := spare w.place.file? none
    let files := w.files.set n { front := v } n.isLt
    (Outcome.done, { w with files, volume := none, tree := some { file := n } })
  | (result, _)       => (result, w)

def adopt : Workspace → Outcome Unit × Workspace
  | ⟨files, place, some h, tree⟩ =>
    match h.run withRoot files with
    | (.ok (.ok ()), h, files) => (Outcome.done, ⟨files, place, none, some h⟩)
    | (result, _, files)       => (result, ⟨files, place, none, tree⟩)
  | w => (.error .crash, w)

def close (w : Workspace) : Workspace :=
  { w with volume := none, tree := none }

def format (w : Workspace) : Outcome Unit × Workspace :=
  match w.found.createVolume with
  | .error e => (Outcome.failed e, w)
  | .ok v    =>
    let (result, v) := withRoot v
    (result, w.put { front := v })

def makeDirectory (w : Workspace) : Workspace :=
  match w.place with
  | .vacant => { w with place := .directory }
  | _       => w

def writeFile (w : Workspace) (bytes : Array UInt8) : Workspace :=
  match w.place with
  | .unreachable | .directory => w
  | .vacant                   => w.put (.ofBytes bytes)
  | .file n                   =>
    let w := w.put (.ofBytes bytes)
    { w with volume := w.volume.map (·.renew n), tree := w.tree.map (·.renew n) }

-- Only the path is gone. What is open stays open, with all that it shares.
def remove (w : Workspace) : Workspace :=
  match w.place with
  | .unreachable => w
  | _            => { w with place := .vacant }

def poke (start : Nat) (bytes : List UInt8) : Workspace → Workspace
  | ⟨files, .file n, volume, tree⟩ =>
    let ((), files) := files.alter n fun c => ((), c.write start bytes)
    ⟨files, .file n, volume, tree⟩
  | w => w

end Workspace
end InodeVolume.Image
