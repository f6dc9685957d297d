namespace InodeVolume.CommandLine

inductive Command where
  | mkfs (image : String)
  | mount (image mountPoint : String) (autoUnmount allowOther : Bool)
  | info (image : String)
  deriving DecidableEq, Repr

-- Asking for help or the version ends the reading like a mistake does.
inductive Refusal where
  | help
  | version
  | noCommand
  | unknownCommand
  | unknownArgument
  | invalidValue
  | tooManyValues
  | conflict
  | missingArgument
  deriving DecidableEq, Repr

def Refusal.exitCode : Refusal → Nat
  | help | version => 0
  | _              => 2

inductive Verb where
  | mkfs
  | mount
  | info
  deriving DecidableEq, Repr

def Verb.ofString? : String → Option Verb
  | "mkfs"  => some mkfs
  | "mount" => some mount
  | "info"  => some info
  | _       => none

inductive Setting where
  | image
  | mountPoint
  deriving DecidableEq, Repr

inductive Flag where
  | autoUnmount
  | allowOther
  deriving DecidableEq, Repr

inductive Token where
  | word (text : String)
  | endOfOptions
  | help
  | version
  | setting (s : Setting) (attached : Option String)
  | flag (f : Flag)
  | flagWithValue
  | unknown
  deriving DecidableEq, Repr

namespace Token

def splitLong (cs : List Char) : String × Option String :=
  match cs.span (· ≠ '=') with
  | (name, [])         => (String.ofList name, none)
  | (name, _ :: value) => (String.ofList name, some (String.ofList value))

def plain (token : Token) : Option String → Token
  | none   => token
  | some _ => flagWithValue

def long (verb : Option Verb) (name : String) (value : Option String) : Token :=
  match verb, name with
  | _, "help"                  => plain help value
  | _, "version"               => plain version value
  | some _, "image-file-path"  => setting .image value
  | some .mount, "mount-point" => setting .mountPoint value
  | some .mount, "auto-unmount" => plain (flag .autoUnmount) value
  | some .mount, "allow-other" => plain (flag .allowOther) value
  | _, _                       => unknown

def attached : List Char → Option String
  | []        => none
  | '=' :: cs => some (String.ofList cs)
  | cs        => some (String.ofList cs)

def short (verb : Option Verb) (letter : Char) (rest : List Char) : Token :=
  match verb, letter with
  | _, 'h'           => help
  | _, 'V'           => version
  | some _, 'p'      => setting .image (attached rest)
  | some .mount, 'm' => setting .mountPoint (attached rest)
  | _, _             => unknown

def ofString (verb : Option Verb) (arg : String) : Token :=
  match arg.toList with
  | ['-', '-']      => endOfOptions
  | '-' :: '-' :: cs =>
    let (name, value) := splitLong cs
    long verb name value
  | '-' :: c :: cs  => short verb c cs
  | _               => word arg

end Token

structure Given where
  image       : Option String := none
  mountPoint  : Option String := none
  autoUnmount : Bool := false
  allowOther  : Bool := false
  waiting     : Option (Setting × Option String) := none
  deriving DecidableEq, Repr

namespace Given

def give (g : Given) : Setting → String → Except Refusal Given
  | .image, value =>
    if g.image.isSome then .error .conflict else .ok { g with image := some value }
  | .mountPoint, value =>
    if g.mountPoint.isSome then .error .conflict else .ok { g with mountPoint := some value }

def raise (g : Given) : Flag → Except Refusal Given
  | .autoUnmount =>
    if g.autoUnmount then .error .conflict else .ok { g with autoUnmount := true }
  | .allowOther =>
    if g.allowOther then .error .conflict else .ok { g with allowOther := true }

def settle (g : Given) : Except Refusal Given :=
  match g.waiting with
  | none                 => .ok g
  | some (_, none)       => .error .invalidValue
  | some (setting, some value) => { g with waiting := none }.give setting value

def read (verb : Verb) (g : Given) : List String → Except Refusal Given
  | []          => g.settle
  | arg :: args =>
    match Token.ofString verb arg with
    | .endOfOptions => if args.isEmpty then g.settle else .error .unknownArgument
    | .help => do
      let _ ← g.settle
      .error .help
    | .version => do
      let _ ← g.settle
      .error .version
    | .setting setting none => do
      let g ← g.settle
      read verb { g with waiting := some (setting, none) } args
    | .setting setting (some value) => do
      let g ← g.settle
      read verb (← g.give setting value) args
    | .flag flag => do
      let g ← g.settle
      read verb (← g.raise flag) args
    | .flagWithValue => .error .tooManyValues
    | .unknown => .error .unknownArgument
    | .word text =>
      match g.waiting with
      | some (setting, none) => read verb { g with waiting := some (setting, some text) } args
      | _                    => .error .unknownArgument

def command (g : Given) : Verb → Except Refusal Command
  | .mkfs =>
    match g.image with
    | some image => .ok (.mkfs image)
    | none       => .error .missingArgument
  | .info =>
    match g.image with
    | some image => .ok (.info image)
    | none       => .error .missingArgument
  | .mount =>
    match g.image, g.mountPoint with
    | some image, some mountPoint => .ok (.mount image mountPoint g.autoUnmount g.allowOther)
    | _, _                        => .error .missingArgument

end Given

def readHelp : List String → Refusal
  | []  => .help
  | [c] => if (Verb.ofString? c).isSome ∨ c = "help" then .help else .unknownCommand
  | _   => .unknownCommand

def read : List String → Except Refusal Command
  | []          => .error .noCommand
  | arg :: args =>
    match Token.ofString none arg with
    | .help          => .error .help
    | .version       => .error .version
    | .flagWithValue => .error .tooManyValues
    | .endOfOptions  =>
      match args with
      | []     => .error .noCommand
      | c :: _ =>
        if (Verb.ofString? c).isSome ∨ c = "help" then .error .unknownArgument
        else .error .unknownCommand
    | .word text     =>
      if text = "help" then .error (readHelp args)
      else match Verb.ofString? text with
        | none      => .error .unknownCommand
        | some verb => do (← Given.read verb {} args).command verb
    | _              => .error .unknownArgument

end InodeVolume.CommandLine
