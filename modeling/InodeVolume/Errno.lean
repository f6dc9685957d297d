namespace InodeVolume

inductive Errno where
  | notPermitted
  | notFound
  | io
  | fileExists
  | notDirectory
  | isDirectory
  | invalid
  | tooBig
  | noSpace
  | nameTooLong
  | notEmpty
  deriving DecidableEq, Repr

namespace Errno

def symbol : Errno → String
  | notPermitted => "EPERM"
  | notFound     => "ENOENT"
  | io           => "EIO"
  | fileExists   => "EEXIST"
  | notDirectory => "ENOTDIR"
  | isDirectory  => "EISDIR"
  | invalid      => "EINVAL"
  | tooBig       => "EFBIG"
  | noSpace      => "ENOSPC"
  | nameTooLong  => "ENAMETOOLONG"
  | notEmpty     => "ENOTEMPTY"

def number : Errno → Nat
  | notPermitted => 1
  | notFound     => 2
  | io           => 5
  | fileExists   => 17
  | notDirectory => 20
  | isDirectory  => 21
  | invalid      => 22
  | tooBig       => 27
  | noSpace      => 28
  | nameTooLong  => 36
  | notEmpty     => 39

def summary : Errno → String
  | notPermitted => "Operation not permitted"
  | notFound     => "No such file or directory"
  | io           => "Input/output error"
  | fileExists   => "File exists"
  | notDirectory => "Not a directory"
  | isDirectory  => "Is a directory"
  | invalid      => "Invalid argument"
  | tooBig       => "File too large"
  | noSpace      => "No space left on device"
  | nameTooLong  => "File name too long"
  | notEmpty     => "Directory not empty"

def message (e : Errno) : String :=
  s!"{e.summary} (os error {e.number})"

end Errno

-- A crash is not an answer: the operation met something that it takes for impossible, such as a
-- block number outside the volume, and what it has written until then stays.
inductive Fault where
  | errno (e : Errno)
  | crash
  deriving DecidableEq, Repr

instance : Coe Errno Fault := ⟨.errno⟩

end InodeVolume
