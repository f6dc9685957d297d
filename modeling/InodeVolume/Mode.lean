namespace InodeVolume

inductive NodeKind where
  | regular
  | directory
  | unknown
  deriving DecidableEq, Repr

namespace Mode

def kindMask : UInt32 := 0o170000

def directory : UInt32 := 0o040000

def regular : UInt32 := 0o100000

def kindBits (mode : UInt32) : UInt32 :=
  mode &&& kindMask

def permissions (mode : UInt32) : UInt32 :=
  mode &&& ~~~kindMask

def fresh : UInt32 := regular ||| 0o644

def root : UInt32 := directory ||| 0o755

end Mode

namespace NodeKind

-- A mode that names no kind asks for a regular file.
def ofMode (mode : UInt32) : NodeKind :=
  if Mode.kindBits mode = 0 ∨ Mode.kindBits mode = Mode.regular then regular
  else if Mode.kindBits mode = Mode.directory then directory
  else unknown

def bits? : NodeKind → Option UInt32
  | regular   => some Mode.regular
  | directory => some Mode.directory
  | unknown   => none

end NodeKind
end InodeVolume
