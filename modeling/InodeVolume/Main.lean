import InodeVolume.CommandLine
import InodeVolume.Image.Report
import InodeVolume.Image.File

namespace InodeVolume.Program

def usageText : String :=
  "Usage: <COMMAND>\n\n" ++
  "Commands:\n" ++
  "  mkfs   create a new file system image\n" ++
  "  mount  mount the file system of an image\n" ++
  "  info   show capacity and usage of an image\n\n" ++
  "Options:\n" ++
  "  -h, --help     Print help\n" ++
  "  -V, --version  Print version"

def placeAt (image : String) : IO (Image.Place Image.Content) := do
  try
    return .file (.ofBytes (← IO.FS.readBinFile image).data)
  catch
    | .noFileOrDirectory ..  => return .vacant
    | .inappropriateType ..  => return .directory
    | e                      => throw e

def saveNew (image : String) (content : Array UInt8) : IO Unit := do
  (← IO.FS.Handle.mk image .writeNew).write ⟨content⟩

def fail (text : String) : IO UInt32 := do
  IO.eprintln s!"Error: {text}"
  return 1

def makeImage (image : String) : IO UInt32 := do
  match (← placeAt image).createVolume with
  | .error e => fail (e.message image)
  | .ok v    =>
    match Image.withRoot v with
    | (.ok (.ok ()), v)   =>
      try
        saveNew image v.toArray
        return 0
      catch
        | .noFileOrDirectory .. => fail (SetupError.message image (.cannotCreate .notFound))
        | e                     => throw e
    | (.ok (.error e), _) => fail (e.message image)
    | (.error _, _)       => fail "the image could not be created"

def showUsage (image : String) : IO UInt32 := do
  match (← placeAt image).usage with
  | .ok u    =>
    IO.println u.report
    return 0
  | .error e => fail (e.message image)

def refuse (why : CommandLine.Refusal) : IO UInt32 := do
  match why with
  | .help    => IO.println usageText
  | .version => IO.println "0.1.0"
  | _        => IO.eprintln usageText
  return UInt32.ofNat why.exitCode

end InodeVolume.Program

def main (args : List String) : IO UInt32 :=
  match InodeVolume.CommandLine.read args with
  | .ok (.mkfs image) => InodeVolume.Program.makeImage image
  | .ok (.info image) => InodeVolume.Program.showUsage image
  | .ok (.mount ..)   => InodeVolume.Program.fail "mounting is not part of this program"
  | .error why        => InodeVolume.Program.refuse why
