import InodeVolume.Tree.Basic

namespace InodeVolume

inductive SetupError where
  | cannotCreate (cause : Errno)
  | cannotOpen (cause : Errno)
  | missing
  | notAnImage (size : Nat)
  | noRoot (cause : Errno)
  deriving DecidableEq, Repr

namespace SetupError

def message (image : String) : SetupError → String
  | cannotCreate cause => s!"can't create image file {image}: {cause.message}"
  | cannotOpen cause   => s!"can't open image file {image}: {cause.message}"
  | missing            => s!"image {image} does not exist"
  | notAnImage size    => s!"{image} is not an image: {size} bytes instead of {volumeSize}"
  | noRoot cause       => s!"can't set up the root directory: {cause.message}"

end SetupError

namespace Volume

def ofArray (bytes : Array UInt8) : Volume :=
  if h : bytes.size = volumeSize then ⟨⟨bytes, h⟩⟩
  else ⟨.ofFn fun i => bytes.getD i 0⟩

def toArray (v : Volume) : Array UInt8 :=
  v.bytes.toArray

theorem ofArray_toArray (v : Volume) : ofArray v.toArray = v := by
  simp [ofArray, toArray]

end Volume

namespace Image

-- What a file holds: a volume at its front, of which it may stop short, and what lies past that.
structure Content where
  front : Volume
  rest  : Array UInt8 := #[]
  size  : Nat := volumeSize

namespace Content

def empty : Content where
  front := .zero
  size  := 0

def ofBytes (bytes : Array UInt8) : Content where
  front := .ofArray bytes
  rest  := bytes.extract volumeSize bytes.size
  size  := bytes.size

def bytes (c : Content) : Array UInt8 :=
  (c.front.toArray ++ c.rest).extract 0 c.size

theorem bytes_ofVolume (v : Volume) : bytes { front := v } = v.toArray := by
  simp [bytes, Volume.toArray]

def overwrite (bytes : Array UInt8) (start : Nat) : List UInt8 → Array UInt8
  | []      => bytes
  | b :: bs => overwrite (bytes.setIfInBounds start b) (start + 1) bs

def write (c : Content) (start : Nat) : List UInt8 → Content
  | []      => c
  | b :: bs =>
    let data := b :: bs
    let size := max c.size (start + data.length)
    let rest := c.rest ++ Array.replicate (size - volumeSize - c.rest.size) 0
    { front := c.front.write start data,
      rest  := overwrite rest (start - volumeSize) (data.drop (volumeSize - start)),
      size }

end Content

inductive Place (α : Type) where
  | unreachable
  | vacant
  | directory
  | file (a : α)

namespace Place

variable {α β : Type}

def map (f : α → β) : Place α → Place β
  | unreachable => unreachable
  | vacant      => vacant
  | directory   => directory
  | file a      => file (f a)

def file? : Place α → Option α
  | file a => some a
  | _      => none

abbrev directorySize : Nat := 40

def size? : Place Content → Option Nat
  | unreachable | vacant => none
  | directory            => some directorySize
  | file c               => some c.size

def createVolume : Place Content → Except SetupError Volume
  | unreachable        => .error (.cannotCreate .notFound)
  | vacant             => .ok .blank
  | directory | file _ => .error (.cannotCreate .fileExists)

def openVolume : Place Content → Except SetupError Volume
  | unreachable => .error (.cannotOpen .notFound)
  | vacant      => .ok .blank
  | directory   => .error (.cannotOpen .isDirectory)
  | file c      => .ok c.front.reserve

def inspectVolume : Place Content → Except SetupError Volume
  | unreachable | vacant => .error (.cannotOpen .notFound)
  | directory            => .error (.notAnImage directorySize)
  | file c               => if c.size = volumeSize then .ok c.front else .error (.notAnImage c.size)

def usage : Place Content → Except SetupError Usage
  | unreachable | vacant => .error .missing
  | place                => place.inspectVolume.map Volume.usage

end Place

-- Make sure of a root directory. The volume stays what it has become even without one.
def withRoot : VolumeM (Except SetupError Unit) := fun v =>
  match Tree.makeRoot v with
  | (.ok (), w)            => (.ok (.ok ()), w)
  | (.error (.errno e), w) => (.ok (.error (.noRoot e)), w)
  | (.error .crash, w)     => (.error .crash, w)

end Image
end InodeVolume
