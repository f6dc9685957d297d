import InodeVolume.Proofs.File.Heads
import InodeVolume.Proofs.Tree.Lookup

namespace InodeVolume

open Volume

namespace Volume

def Lists (v : Volume) (d : Nat) (name : String) (t : Nat) : Prop :=
  v.Head d ∧ ∃ es, Tree.list v d = .ok es ∧ (name, t) ∈ es

-- Some entry has a number for another reason than to say where its directory is.
def Names (v : Volume) (h : Nat) : Prop :=
  ∃ d name, Proper name ∧ v.Lists d name h

end Volume

namespace Arranged

variable {v : Volume} {crooked : Prop} {owed : Nat → Int} {files : Nat → Option FileState}
variable {d h t : Nat} {f : FileState} {name : String}

theorem list_eq (a : Arranged crooked owed files) (hv : v.Holds files) (hf : files d = some f)
    (hd : f.isDir) : Tree.list v d = .ok (Entries.used f.entries) := by
  rw [Tree.list, hv.isDir hf, hd, listing, hv.slots hf (a.lists hf hd)]
  rfl

theorem list_error (hv : v.Holds files) (hf : files d = some f) (hd : ¬f.isDir) :
    Tree.list v d = .error (.errno .notDirectory) := by
  rw [Tree.list, hv.isDir hf]
  simp [hd, bind, Except.bind]

theorem lists_iff (a : Arranged crooked owed files) (hv : v.Holds files) :
    v.Lists d name t ↔ ∃ x, graph files d = some x ∧ (name, t) ∈ x.names := by
  rw [Volume.Lists, hv.head_iff]
  constructor
  case mp =>
    intro ⟨⟨f, hf⟩, es, hl, hm⟩
    by_cases hd : f.isDir
    case pos =>
      rw [a.list_eq hv hf hd, Except.ok.injEq] at hl
      exact ⟨_, graph_eq hf, by rwa [FileState.names_node hd, hl]⟩
    case neg => simp [list_error hv hf hd] at hl
  case mpr =>
    intro ⟨x, hx, hm⟩
    have hd : x.isDir := a.consistent.isDir_of_mem hx hm
    have ⟨f, hf, he⟩ := graph_eq_some.mp hx
    subst he
    exact ⟨⟨f, hf⟩, _, a.list_eq hv hf hd, FileState.names_node hd ▸ hm⟩

theorem names_iff (a : Arranged crooked owed files) (hv : v.Holds files) :
    v.Names h ↔ Named files h := by
  simp only [Volume.Names, Named, Graph.Names, a.lists_iff hv]
  constructor
  case mp  => exact fun ⟨d, name, hp, x, hx, hm⟩ => ⟨d, x, name, hx, hp, hm⟩
  case mpr => exact fun ⟨d, x, name, hx, hp, hm⟩ => ⟨d, name, hp, x, hx, hm⟩

end Arranged
end InodeVolume
