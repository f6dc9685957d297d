import InodeVolume.Proofs.Tree.Failure

namespace InodeVolume

open VolumeM Volume

variable {strays crooked : Prop} {owed : Nat → Int} {files : Nat → Option FileState}
variable {v w : Volume} {i d q t : Nat} {name newName : String}

-- Going up from a directory leads neither to another one nor to the root, for however long.
def Volume.Circles (v : Volume) (t d : Nat) : Prop :=
  ∀ n, ∃ e, v.climb n d = .ok e ∧ e ≠ t ∧ e ≠ rootInode

namespace Tree

theorem slots_of_list {es : List (String × Nat)} (h : list v d = .ok es) :
    v.isDir d = .ok true ∧ ∃ ss, v.slots d = .ok ss ∧ Entries.used ss = es := by
  have ⟨b, hd, h⟩ := Except.bind_eq_ok_iff.mp h
  cases b
  case false => contradiction
  case true =>
    have ⟨ss, hs, h⟩ := Except.bind_eq_ok_iff.mp h
    exact ⟨hd, ss, hs, Except.ok.inj h⟩

theorem isWithinFrom_of_circles (h : v.Circles t d) (limit : Nat) :
    isWithinFrom v t limit d = .error (.errno .io) := by
  induction limit generalizing d
  case zero => rfl
  case succ limit hi =>
    have ⟨e, he, ht, h0⟩ := h 0
    obtain rfl : d = e := Except.ok.inj he
    have ⟨p, hp, _⟩ := h 1
    have hup : lookup v d ".." = .ok p := by
      obtain ⟨_, hup, hp⟩ := Except.bind_eq_ok_iff.mp hp
      rw [hup, Except.ok.inj hp]
    rw [isWithinFrom, if_neg ht, if_neg h0, lookup_of_ok hup]
    refine hi fun n => ?_
    obtain ⟨e, he, hne⟩ := h (n + 1)
    rw [climb, hup] at he
    exact ⟨e, he, hne⟩

theorem rename_of_circles (hname : name ≠ "" ∧ Proper name) (hnew : newName ≠ "" ∧ Proper newName)
    (ht : lookup v d name = .ok t) (habsent : lookup v q newName = .error (.errno .notFound))
    (hdir : v.isDir t = .ok true) (hc : v.Circles t q) :
    rename d name q newName v = (.error (.errno .io), v) := by
  have hwithin : query (isWithin · t q) v = (.error (.errno .io), v) :=
    query_of_error (isWithinFrom_of_circles hc inodeCount)
  rw [rename_apply hname hnew ht habsent hdir]
  exact bind_of_error hwithin _

theorem rmdir_of_lists {n : String} {d t u : Nat} (hname : name ≠ "" ∧ Proper name)
    (ht : lookup v d name = .ok t) (hn : Proper n) (hl : v.Lists t n u) :
    rmdir d name v = (.error (.errno .notEmpty), v) := by
  have ⟨_, es, hl, hmem⟩ := hl
  have ⟨hdir, ss, hss, hused⟩ := slots_of_list hl
  have hbare : v.isBare t = .ok false := by
    rw [isBare, hss]
    refine congrArg Except.ok (Bool.eq_false_iff.mpr fun hb => ?_)
    exact Entries.bare_iff.mp hb n u (hused ▸ hmem) hn
  apply Ensures.eq_error
  rw [rmdir, ensures_bind, ensures_guardName hname, ensures_bind, ensures_query_ok ht, ensures_bind,
    ensures_query_ok hdir, if_neg (by decide)]
  dsimp only
  rw [ensures_bind, ensures_query_ok hbare, if_pos (by decide)]
  exact ⟨rfl, rfl⟩

namespace Operation

def Circles (op : Operation) (v : Volume) : Prop :=
  ∃ d name q newName t, op.Means v (.rename d name q newName) ∧ (name ≠ "" ∧ Proper name) ∧
    (newName ≠ "" ∧ Proper newName) ∧ Tree.lookup v d name = .ok t ∧
    Tree.lookup v q newName = .error (.errno .notFound) ∧ v.isDir t = .ok true ∧ v.Circles t q

def Evicts (op : Operation) (v : Volume) : Prop :=
  ∃ d name t n u, op.Means v (.rmdir d name) ∧ (name ≠ "" ∧ Proper name) ∧
    Tree.lookup v d name = .ok t ∧ Proper n ∧ v.Lists t n u

variable {op : Operation}

theorem Circles.perform_eq (h : op.Circles v) : op.perform v = (.error (.errno .io), v) := by
  have ⟨d, name, q, newName, t, hm, hname, hnew, ht, habsent, hdir, hc⟩ := h
  rw [hm.perform_eq]
  exact bind_of_error (rename_of_circles hname hnew ht habsent hdir hc) _

theorem Evicts.perform_eq (h : op.Evicts v) : op.perform v = (.error (.errno .notEmpty), v) := by
  have ⟨d, name, t, n, u, hm, hname, ht, hn, hl⟩ := h
  rw [hm.perform_eq]
  exact bind_of_error (rmdir_of_lists hname ht hn hl) _

theorem Faults.cases {op' : Operation} {e : Fault} (a : Arranged crooked owed files)
    (hv : v.Holds files) (hm : op.Means v op') (hs : op'.Sized) (h : Faults v files op' e) :
    e.Ordinary ∨ e = .errno .io ∧ op.Circles v ∧ crooked ∨ e = .errno .notEmpty ∧ op.Evicts v := by
  cases h
  case ordinary h => exact .inl h
  case excess h   => exact absurd hs (Nat.not_lt.mpr h)
  case snared d q t name newName h =>
    refine .inr (.inl ⟨rfl, ⟨d, name, q, newName, t, hm, h.proper, h.newProper, h.target, h.absent,
      ?_, ?_⟩, ?_⟩)
    case refine_1 =>
      have ⟨g, hg, hgd⟩ := Arranged.isDir_iff.mp h.directory
      rw [hv.isDir hg, hgd]
    case refine_2 =>
      intro n
      have ⟨e, he, _⟩ := a.consistent.exists_climbs h.parent n
      exact ⟨e, a.climb_eq hv he, h.circles n e he⟩
    case refine_3 =>
      -- the way up from every directory of a straight tree ends at the root
      by_contra hc
      exact (a.consistent.ascend hc q h.parent).not_circles h.circles
  case peopled d name h =>
    have ⟨hempty, hproper, t, g, n, u, ht, hg, hgd, hn, hu⟩ := h
    refine .inr (.inr ⟨rfl, d, name, t, n, u, hm, ⟨hempty, hproper⟩, ht, hn, ?_⟩)
    exact ⟨hv.head_iff.mpr ⟨g, hg⟩, _, a.list_eq hv hg hgd, hu⟩

theorem fails_cases (s : Settled strays crooked files) (hv : v.Holds files) (ha : op.Admissible v)
    (hs : op.Sized) {e : Fault} (h : (op.perform v).1 = .error e) :
    e.Ordinary ∨ e = .errno .io ∧ op.Circles v ∧ crooked ∨ e = .errno .notEmpty ∧ op.Evicts v := by
  have ⟨_, a, _⟩ := s
  have ⟨_, hf⟩ := op.perform_fails s hv ha (Prod.ext h rfl)
  rcases hf with ho | ⟨op', hm, hl, hf⟩
  case inl => exact .inl ho
  case inr => exact hf.cases a hv hm (hl.sized hs)

end Operation

variable {steps : List (Volume × Operation)} {op : Operation}

-- No operation crashes. The faults that tell of more than of what was asked for are met where
-- something is to be moved to a directory from which the way up does not end, and where a directory
-- is to be removed that is not empty.
theorem Run.faults (r : Run steps v) (ha : op.Admissible v) (hs : op.Sized) :
    (op.perform v).1 ≠ .error .crash ∧
      ((op.perform v).1 = .error (.errno .io) ↔ op.Circles v) ∧
      (op.Circles v → Planted .directory steps) ∧
      ((op.perform v).1 = .error (.errno .notEmpty) ↔ op.Evicts v) := by
  have ⟨files, hv, s⟩ := r.settled
  have fails : ∀ e, (op.perform v).1 = .error e → e.Ordinary ∨ e = .errno .io ∧ op.Circles v ∧
      Planted .directory steps ∨ e = .errno .notEmpty ∧ op.Evicts v :=
    fun _ => op.fails_cases s hv ha hs
  have hio : op.Circles v → (op.perform v).1 = .error (.errno .io) :=
    fun h => congrArg Prod.fst h.perform_eq
  have hne : op.Evicts v → (op.perform v).1 = .error (.errno .notEmpty) :=
    fun h => congrArg Prod.fst h.perform_eq
  have circles : (op.perform v).1 = .error (.errno .io) →
      op.Circles v ∧ Planted .directory steps := by
    intro h
    simpa [Fault.Ordinary] using fails _ h
  refine ⟨fun h => ?_, ⟨fun h => (circles h).left, hio⟩, fun h => (circles (hio h)).right,
    fun h => ?_, hne⟩
  case refine_1 => simpa [Fault.Ordinary] using fails _ h
  case refine_2 => simpa [Fault.Ordinary] using fails _ h

theorem lookup_planted (a : Arranged crooked owed files) (hv : v.Holds files) {mode : UInt32}
    (hf : files i = some (planted .directory i name mode)) (hfit : Entry.fits name) (hplain : Entry.Plain name)
    (n : String) :
    Tree.lookup v i n =
      if n ∈ [".", name, ".."] then .ok i else .error (.errno .notFound) := by
  rw [a.lookup_eq hv hf (FileState.isDir_empty 1 mode), planted,
    FileState.entries_withEntries (Entries.storable_self hfit hplain (a.lt hf))]
  simp only [Entries.find, List.zipIdx_cons, List.zipIdx_nil, List.findSome?_cons,
    List.findSome?_nil, Option.map_some, List.mem_cons, List.not_mem_nil]
  grind

theorem circles_planted (a : Arranged crooked owed files) (hv : v.Holds files) {mode : UInt32}
    (hf : files i = some (planted .directory i name mode)) (hfit : Entry.fits name) (hplain : Entry.Plain name)
    (hne : i ≠ t) (h0 : i ≠ rootInode) : v.Circles t i := by
  intro n
  refine ⟨i, ?_, hne, h0⟩
  induction n
  case zero => rfl
  case succ n hi =>
    rw [climb, lookup_planted a hv hf hfit hplain, if_pos (by simp)]
    exact hi

theorem two_planted :
    let v := ((Operation.mknod 1 "x" 0o040755).perform fresh).2
    let w := ((Operation.mknod 2 "y" 0o040755).perform v).2
    Run [(fresh, .mknod 1 "x" 0o040755), (v, .mknod 2 "y" 0o040755)] w ∧ (∀ k, ¬w.Continues k) ∧
      ∃ files, w.Holds files ∧ files 1 = some (planted .directory 1 "x" 0o040755) ∧
        files 2 = some (planted .directory 2 "y" 0o040755) := by
  intro v w
  have ha : Operation.Admissible fresh (.mknod 1 "x" 0o040755) :=
    Operation.admissible_fresh (by decide)
  have ⟨hv, pv⟩ : v.Holds _ ∧ Packed 2 _ :=
    plant_next .directory settled_rootFiles holds_fresh packed_rootFiles (by decide)
      (by decide) (by decide) (by decide) (by decide) (by decide) (by decide)
  have ha' : Operation.Admissible v (.mknod 2 "y" 0o040755) :=
    Operation.admissible_next hv pv (by decide)
  have ⟨_, hx, s⟩ := (Run.fresh ha).settled
  obtain rfl := hx.unique hv
  have ⟨hw, pw⟩ : w.Holds _ ∧ Packed 3 _ :=
    plant_next .directory s hv pv (by decide) (by decide) (by decide) (by decide)
      (by decide) (by decide) (by decide)
  refine ⟨(Run.fresh ha).step ha', fun k => hw.not_continues_of_sparse pw.sparse, _, hw, ?_,
    Function.update_self ..⟩
  rw [Function.update_of_ne (by decide), Function.update_self]

theorem circles_strays :
    let op := Operation.rename 2 "y" 1 "z"
    let v := ((Operation.mknod 1 "x" 0o040755).perform fresh).2
    let w := ((Operation.mknod 2 "y" 0o040755).perform v).2
    Run [(fresh, .mknod 1 "x" 0o040755), (v, .mknod 2 "y" 0o040755)] w ∧ op.Admissible w ∧
      op.Sized ∧ op.Circles w := by
  intro op v w
  have ⟨r, hc, files, hw, hone, htwo⟩ := two_planted
  have ⟨_, hx, _, a, _⟩ := r.settled
  obtain rfl := hx.unique hw
  refine ⟨r, ⟨hc 2, by decide, hc 1, by decide⟩, trivial, 2, "y", 1, "z", 2,
    Operation.Direct.means trivial, by decide, by decide, ?_, ?_, ?_, ?_⟩
  case refine_1 =>
    rw [lookup_planted a hw htwo (by decide) (by decide), if_pos (by decide)]
  case refine_2 =>
    rw [lookup_planted a hw hone (by decide) (by decide), if_neg (by decide)]
  case refine_3 =>
    rw [hw.isDir htwo]
    exact congrArg Except.ok (FileState.isDir_empty 1 0o040755)
  case refine_4 => exact circles_planted a hw hone (by decide) (by decide) (by decide) (by decide)

theorem faults_strays :
    let op := Operation.rename 2 "y" 1 "z"
    let v := ((Operation.mknod 1 "x" 0o040755).perform fresh).2
    let w := ((Operation.mknod 2 "y" 0o040755).perform v).2
    let steps := [(fresh, Operation.mknod 1 "x" 0o040755), (v, Operation.mknod 2 "y" 0o040755)]
    (Run steps w ∧ op.Admissible w ∧ op.Sized) ∧ (op.perform w).1 ≠ .error .crash ∧
      ((op.perform w).1 = .error (.errno .io) ↔ op.Circles w) ∧
      (op.Circles w → Planted .directory steps) ∧
      ((op.perform w).1 = .error (.errno .notEmpty) ↔ op.Evicts w) :=
  have ⟨r, ha, hs, _⟩ := circles_strays
  ⟨⟨r, ha, hs⟩, r.faults ha hs⟩

theorem io_fault_strays :
    let op := Operation.rename 2 "y" 1 "z"
    let v := ((Operation.mknod 1 "x" 0o040755).perform fresh).2
    let w := ((Operation.mknod 2 "y" 0o040755).perform v).2
    Reachable w ∧ op.Admissible w ∧ op.Sized ∧ op.perform w = (.error (.errno .io), w) :=
  have ⟨r, ha, hs, hc⟩ := circles_strays
  ⟨r.reachable, ha, hs, hc.perform_eq⟩

end Tree
end InodeVolume
