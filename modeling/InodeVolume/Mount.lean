namespace InodeVolume.Mount

inductive Parameter where
  | label (name : String)
  | defaultPermissions
  | allowOther
  | autoUnmount
  deriving DecidableEq, Repr

def parameters (autoUnmount allowOther : Bool) : List Parameter :=
  [.label "chainfs", .defaultPermissions] ++ (if allowOther then [.allowOther] else []) ++
    (if autoUnmount then [.autoUnmount] else [])

end InodeVolume.Mount
