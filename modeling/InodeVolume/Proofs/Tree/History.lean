import InodeVolume.Proofs.Image.Setup
import InodeVolume.Proofs.Tree.Operation

namespace InodeVolume.Tree

open VolumeM Volume

-- What has been done to a volume that was just set up, each operation with the volume that it found.
inductive Run : List (Volume × Operation) → Volume → Prop
  | start {v : Volume} : v.Fresh → Run [] v
  | step {steps : List (Volume × Operation)} {v : Volume} {op : Operation} : Run steps v →
    op.Admissible v → Run (steps ++ [(v, op)]) (op.perform v).2

def Reachable (v : Volume) : Prop :=
  ∃ steps, Run steps v

variable {steps : List (Volume × Operation)} {v : Volume} {op : Operation}

def Planted (kind : NodeKind) (steps : List (Volume × Operation)) : Prop :=
  ∃ s ∈ steps, s.2.Plants kind s.1

theorem Planted.append {kind : NodeKind} (h : Planted kind steps ∨ op.Plants kind v) :
    Planted kind (steps ++ [(v, op)]) := by
  cases h
  case inl h => exact h.imp fun s ⟨hs, hp⟩ => ⟨List.mem_append_left _ hs, hp⟩
  case inr h => exact ⟨(v, op), by simp, h⟩

theorem Operation.admissible_fresh {parent : Nat} {name : String} {mode : UInt32}
    (hplain : Entry.Plain name) : Admissible .fresh (.mknod parent name mode) :=
  ⟨holds_fresh.not_continues_of_sparse sparse_rootFiles, hplain⟩

namespace Run

theorem start_fresh : Run [] .fresh :=
  start (fresh_iff.mpr rfl)

theorem fresh (ha : op.Admissible .fresh) : Run [(.fresh, op)] (op.perform .fresh).2 :=
  start_fresh.step ha

theorem reachable (r : Run steps v) : Reachable v :=
  ⟨steps, r⟩

theorem reachable_mkdirAt (path : String) (mode : UInt32) (hplain : Entry.Plain path) :
    Reachable ((Operation.mkdirAt path mode).perform .fresh).2 :=
  (fresh (show Operation.Admissible .fresh (.mkdirAt path mode) from hplain)).reachable

theorem settled (r : Run steps v) :
    ∃ files, v.Holds files ∧ Settled (Planted .regular steps) (Planted .directory steps) files := by
  induction r
  case start hv =>
    obtain rfl := fresh_iff.mp hv
    exact ⟨_, holds_fresh, settled_rootFiles.mono False.elim False.elim⟩
  case step ha hi =>
    have ⟨files, hv, s⟩ := hi
    have ⟨files', hw, s', _⟩ := Operation.perform_evolves s hv ha
    exact ⟨files', hw, s'.mono .append .append⟩

theorem of_mem (r : Run steps v) {s : Volume × Operation} (hs : s ∈ steps) :
    ∃ before, before <+: steps ∧ Run before s.1 ∧ s.2.Admissible s.1 ∧
      (s.2.perform s.1).2 ∈ v :: steps.map (·.1) := by
  induction r
  case start => simp at hs
  case step steps v op r ha hi =>
    cases List.mem_append.mp hs
    case inl hs =>
      have ⟨before, hb, hr, ha', hm⟩ := hi hs
      refine ⟨before, hb.trans (List.prefix_append ..), hr, ha', ?_⟩
      rw [List.map_append, List.mem_cons, List.mem_append]
      cases List.mem_cons.mp hm
      case inl hm => exact .inr (.inr (by simp [hm]))
      case inr hm => exact .inr (.inl hm)
    case inr hs =>
      obtain rfl := List.mem_singleton.mp hs
      exact ⟨steps, List.prefix_append .., r, ha, List.mem_cons_self⟩

-- A property that runs keep up to certain operations, and lose with them, is one that holds all
-- along just those runs that have none of them.
theorem always_iff {p : Volume → Prop} {b : Volume × Operation → Prop}
    (good : ∀ steps v, Run steps v → (∀ s ∈ steps, ¬b s) → p v)
    (lost : ∀ steps v op, Run steps v → op.Admissible v → b (v, op) → ¬p (op.perform v).2)
    (r : Run steps v) :
    (∀ u ∈ v :: steps.map (·.1), p u) ↔ ∀ s ∈ steps, ¬b s := by
  constructor
  case mp =>
    intro h s hs hb
    have ⟨before, _, hr, ha, hm⟩ := r.of_mem hs
    exact lost before s.1 s.2 hr ha hb (h _ hm)
  case mpr =>
    intro h u hu
    cases List.mem_cons.mp hu
    case inl hu => exact hu ▸ good steps v r h
    case inr hu =>
      have ⟨s, hs, hsu⟩ := List.mem_map.mp hu
      have ⟨before, hb, hr, _⟩ := r.of_mem hs
      exact hsu ▸ good before s.1 hr fun x hx => h x (hb.subset hx)

end Run

theorem Reachable.exists_regular {i : Nat} (r : Reachable v) (hh : v.Head i)
    (hd : v.isDir i = .ok false) : ∃ files f, v.Holds files ∧ files i = some f ∧ ¬f.isDir := by
  have ⟨_, r⟩ := r
  have ⟨files, hv, _⟩ := r.settled
  have ⟨f, hf⟩ := hv.head_iff.mp hh
  exact ⟨files, f, hv, hf, (hv.regular_iff hf).mp hd⟩

namespace Operation

def performAll : List Operation → Volume → List (Except Fault Answer) × Volume
  | [], v        => ([], v)
  | op :: ops, v =>
    let (answer, v)  := op.perform v
    let (answers, v) := performAll ops v
    (answer :: answers, v)

def AllAdmissible : List Operation → Volume → Prop
  | [], _        => True
  | op :: ops, v => op.Admissible v ∧ AllAdmissible ops (op.perform v).2

end Operation

theorem Reachable.perform (r : Reachable v) (ha : op.Admissible v) : Reachable (op.perform v).2 :=
  have ⟨_, r⟩ := r
  (r.step ha).reachable

end InodeVolume.Tree
