import InodeVolume.Path
import InodeVolume.Tree.Basic
import Mathlib.Data.List.Basic

namespace InodeVolume

variable {v : Volume} {cs before : List String} {path leaf : String}

namespace Path

theorem splitChars_eq_splitOn (cs : List Char) : splitChars cs = cs.splitOn '/' := by
  induction cs
  case nil => rfl
  case cons c cs hi =>
    rw [splitChars, hi, List.splitOn_cons_eq_if_modifyHead]
    by_cases hc : c = '/'
    case pos => simp [hc]
    case neg =>
      rw [if_neg hc, if_neg (by simpa using hc)]
      cases hs : cs.splitOn '/'
      case nil  => exact absurd hs (List.splitOn_ne_nil _ _)
      case cons => rfl

-- The parts between the slashes of a path that say something.
def steps (path : String) : List String :=
  ((path.toList.splitOn '/').filter (· ≠ [])).map String.ofList

theorem steps_eq (path : String) : steps path = (components path).filter (· ≠ "") := by
  have hempty : ∀ cs : List Char, String.ofList cs = "" ↔ cs = [] := fun cs => by
    rw [← String.toList_inj, String.toList_ofList, String.toList_empty]
  rw [steps, components, splitChars_eq_splitOn, List.filter_map]
  congr 2
  funext cs
  simp [hempty]

theorem steps_append (p q : String) : steps (p ++ "/" ++ q) = steps p ++ steps q := by
  have : (p ++ "/" ++ q).toList = p.toList ++ '/' :: q.toList := by simp
  rw [steps, this, List.splitOn_append_cons_self, List.filter_append, List.map_append, steps, steps]

theorem filter_eq_reverse (cs : List String) :
    cs.filter (· ≠ "") = ((cs.reverse.dropWhile (· = "")).filter (· ≠ "")).reverse := by
  have h : cs.reverse.filter (· ≠ "") = (cs.reverse.dropWhile (· = "")).filter (· ≠ "") := by
    generalize cs.reverse = cs
    induction cs
    case nil => rfl
    case cons c cs hi =>
      by_cases hc : c = ""
      case pos => simpa [hc] using hi
      case neg => simp [hc]
  rw [← h, List.filter_reverse, List.reverse_reverse]

theorem steps_eq_nil (h : leaf? path = none) : steps path = [] := by
  rw [leaf?] at h
  split at h
  case h_1 he => rw [steps_eq, filter_eq_reverse, he]; rfl
  case h_2    => contradiction

theorem steps_eq_append (h : leaf? path = some (before, leaf)) :
    steps path = before.filter (· ≠ "") ++ [leaf] := by
  rw [leaf?] at h
  split at h
  case h_1 => contradiction
  case h_2 l bs he =>
    obtain ⟨rfl, rfl⟩ := Prod.mk.inj (Option.some.inj h)
    have hl : l ≠ "" := by
      have := List.head?_dropWhile_not (fun c => decide (c = "")) (components path).reverse
      simpa [he] using this
    rw [steps_eq, filter_eq_reverse, he, List.filter_cons_of_pos (by simpa using hl),
      List.reverse_cons, List.filter_reverse]

end Path

namespace Volume

theorem walk_cons (v : Volume) (dir : Nat) (c : String) (cs : List String) :
    v.walk dir (c :: cs) =
      if c = "" then v.walk dir cs else Tree.lookup v dir c >>= fun d => v.walk d cs := by
  rw [walk, Tree.lookup, bind_assoc]
  congr 2
  funext isDir
  cases isDir <;> rfl

theorem walk_eq_foldlM (v : Volume) (dir : Nat) (cs : List String) :
    v.walk dir cs = (cs.filter (· ≠ "")).foldlM (Tree.lookup v) dir := by
  induction cs generalizing dir
  case nil => rfl
  case cons c cs hi =>
    rw [walk_cons]
    by_cases hc : c = ""
    case pos => rw [if_pos hc, List.filter_cons_of_neg (by simpa using hc), hi]
    case neg =>
      rw [if_neg hc, List.filter_cons_of_pos (by simpa using hc), List.foldlM_cons]
      simp only [hi]

theorem resolve_eq_foldlM (v : Volume) (root : Nat) (path : String) :
    v.resolve root path = (Path.steps path).foldlM (Tree.lookup v) root := by
  rw [resolve, walk_eq_foldlM, Path.steps_eq]

theorem walk_steps (v : Volume) (root : Nat) (path : String) :
    v.walk root (Path.steps path) = v.resolve root path := by
  rw [walk_eq_foldlM, resolve_eq_foldlM, Path.steps_eq, List.filter_filter]
  simp only [Bool.and_self]

theorem resolve_append (v : Volume) (root : Nat) (p q : String) :
    v.resolve root (p ++ "/" ++ q) = v.resolve root p >>= fun r => v.resolve r q := by
  simp only [resolve_eq_foldlM, Path.steps_append, List.foldlM_append]

theorem resolve_of_leaf? (v : Volume) (root : Nat) (h : Path.leaf? path = some (before, leaf)) :
    v.resolve root path = v.locate root path >>= fun p => v.lookup p.1 p.2 := by
  rw [resolve_eq_foldlM, Path.steps_eq_append h, List.foldlM_append, ← walk_eq_foldlM, locate, h]
  simp only [List.foldlM_cons, List.foldlM_nil, bind_pure, Tree.lookup, bind_assoc]
  congr 1
  funext parent
  congr 1
  funext isDir
  cases isDir <;> rfl

-- Paths lead where their steps lead, one after the other. Cut at a slash, a path leads where its
-- second part leads from where the first one does, and its last step is a lookup in the directory
-- that holds it.
theorem resolve_laws (v : Volume) (root : Nat) (p q : String) :
    v.resolve root p = v.walk root (Path.steps p) ∧
    v.resolve root p = (Path.steps p).foldlM (Tree.lookup v) root ∧
    v.resolve root (p ++ "/" ++ q) = (v.resolve root p >>= fun r => v.resolve r q) ∧
    v.resolve root p =
      if Path.steps p = [] then .ok root
      else v.locate root p >>= fun (parent, leaf) => v.lookup parent leaf := by
  refine ⟨(v.walk_steps root p).symm, v.resolve_eq_foldlM root p, v.resolve_append root p q, ?_⟩
  split
  case isTrue h => rw [resolve_eq_foldlM, h]; rfl
  case isFalse h =>
    cases hl : Path.leaf? p
    case none   => exact absurd (Path.steps_eq_nil hl) h
    case some _ => exact v.resolve_of_leaf? root hl

end Volume
end InodeVolume
