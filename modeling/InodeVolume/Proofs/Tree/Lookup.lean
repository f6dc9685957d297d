import InodeVolume.Proofs.Tree.Arrangement
import InodeVolume.Proofs.Tree.Circles
import InodeVolume.Tree.Path

namespace InodeVolume

open VolumeM Volume

variable {v : Volume} {crooked : Prop} {owed : Nat → Int} {files : Nat → Option FileState}
variable {d i t : Nat} {f : FileState} {name : String}

theorem Tree.lookup_of_ok (h : Tree.lookup v d name = .ok t) : v.lookup d name = .ok t := by
  have ⟨b, _, h⟩ := Except.bind_eq_ok_iff.mp h
  cases b
  case false => contradiction
  case true  => exact h

def Refused (v : Volume) (e : Fault) (w : Volume) : Prop :=
  e.Amiss ∧ w = v

theorem Refused.refuses (hv : v.Holds files) :
    ∀ e w, Refused v e w → Directory.Refuses files e w :=
  fun _ _ ⟨he, hw⟩ => ⟨he.ordinary, hw ▸ hv⟩

def Declined (v : Volume) (files : Nat → Option FileState) (d : Nat) (name : String) (t : Nat)
    (e : Fault) (w : Volume) : Prop :=
  ∃ f, files d = some f ∧ f.isDir ∧ Directory.add d name t v = (.error e, w)

theorem Declined.rejects (a : Arranged crooked owed files) (hv : v.Holds files) {e : Fault}
    {w : Volume} (h : Declined v files d name t e w) :
    Directory.Refuses files e w ∧ ∃ f, Directory.Rejects v d f f.entries name e w :=
  have ⟨f, hf, hd, hr⟩ := h
  ((Directory.add_ensures hv hf (a.lists hf hd)).of_error hr).imp_right fun h => ⟨f, h⟩

theorem Declined.refuses (a : Arranged crooked owed files) (hv : v.Holds files) {e : Fault}
    {w : Volume} (h : Declined v files d name t e w) : Directory.Refuses files e w :=
  (h.rejects a hv).left

namespace Volume

theorem isDir_of_free (h : v.link? d = none) : v.isDir d = .error (.errno .notFound) := by
  rw [isDir, inode_of_not_link? h]
  rfl

theorem lookup_of_free (h : v.link? d = none) : v.lookup d name = .error (.errno .notFound) := by
  rw [lookup, findSlot, slots_of_free h]
  split <;> rfl

end Volume

namespace Tree

theorem guardName_apply (h : name ≠ "" ∧ Proper name) (v : Volume) :
    guardName name v = (.ok (), v) := by
  have : ¬(name = "" ∨ name = "." ∨ name = "..") := by simpa [Proper] using h
  rw [guardName, if_neg this]
  rfl

theorem ensures_guardName {ok : Unit → Volume → Prop} {error : Fault → Volume → Prop}
    (h : name ≠ "" ∧ Proper name) : (guardName name).Ensures v ok error ↔ ok () v := by
  rw [Ensures, guardName_apply h]

end Tree

theorem isDir_ensures (hv : v.Holds files) (hi : Addresses v files i) :
    (query (·.isDir i)).Ensures v (fun b w => w = v ∧ ∃ f, files i = some f ∧ f.isDir = b)
      (Refused v) := by
  cases hi
  case inl hi =>
    have ⟨f, hf⟩ := hi
    rw [ensures_query_ok (hv.isDir hf)]
    exact ⟨rfl, f, hf, rfl⟩
  case inr hi =>
    rw [ensures_query_error (isDir_of_free hi)]
    exact ⟨by decide, rfl⟩

namespace Arranged

theorem lookup_eq (a : Arranged crooked owed files) (hv : v.Holds files) (hf : files d = some f)
    (hd : f.isDir) (name : String) :
    Tree.lookup v d name =
      match Entries.find f.entries name with
      | some (_, t) => .ok t
      | none        => .error (.errno .notFound) := by
  rw [Tree.lookup, hv.isDir hf, hd]
  exact hv.lookup hf (a.lists hf hd) name

theorem find_of_lookup (a : Arranged crooked owed files) (hv : v.Holds files)
    (hf : files d = some f) (hd : f.isDir) (h : Tree.lookup v d name = .ok t) :
    ∃ i, Entries.find f.entries name = some (i, t) := by
  rw [a.lookup_eq hv hf hd] at h
  split at h
  case h_1 i u hfind => exact ⟨i, Except.ok.inj h ▸ hfind⟩
  case h_2           => contradiction

theorem not_mem_of_lookup (a : Arranged crooked owed files) (hv : v.Holds files)
    (hf : files d = some f) (hd : f.isDir)
    (h : Tree.lookup v d name = .error (.errno .notFound)) :
    ∀ u, (name, u) ∉ Entries.used f.entries := by
  rw [a.lookup_eq hv hf hd] at h
  split at h
  case h_1       => contradiction
  case h_2 hfind => exact Entries.find_eq_none.mp hfind

theorem lookup_of_file (hv : v.Holds files) (hf : files d = some f) (hd : ¬f.isDir)
    (name : String) : Tree.lookup v d name = .error (.errno .notDirectory) := by
  rw [Tree.lookup, hv.isDir hf]
  simp [hd, bind, Except.bind]

theorem lookup_cases (a : Arranged crooked owed files) (hv : v.Holds files)
    (hd : Addresses v files d) (name : String) :
    (∃ f i t, files d = some f ∧ f.isDir ∧ Entries.find f.entries name = some (i, t) ∧
      Tree.lookup v d name = .ok t) ∨
    (∃ e, Tree.lookup v d name = .error e ∧ e.Amiss) ∧
      (Tree.lookup v d name = .error (.errno .notFound) →
        (∃ f, files d = some f ∧ f.isDir ∧ ∀ u, (name, u) ∉ Entries.used f.entries) ∨
          v.link? d = none) := by
  cases hd
  case inr h =>
    have : Tree.lookup v d name = .error (.errno .notFound) := by
      rw [Tree.lookup, isDir_of_free h]
      rfl
    exact .inr ⟨⟨_, this, by decide⟩, fun _ => .inr h⟩
  case inl h =>
    have ⟨f, hf⟩ := h
    by_cases hd : f.isDir
    case neg =>
      have := lookup_of_file hv hf hd name
      exact .inr ⟨⟨_, this, by decide⟩, fun h => by simp [this] at h⟩
    case pos =>
      have he := a.lookup_eq hv hf hd name
      cases hfind : Entries.find f.entries name
      case some p =>
        rw [hfind] at he
        exact .inl ⟨f, p.1, p.2, hf, hd, hfind, he⟩
      case none =>
        rw [hfind] at he
        exact .inr ⟨⟨_, he, by decide⟩, fun _ => .inl ⟨f, hf, hd, Entries.find_eq_none.mp hfind⟩⟩

theorem lookup_ensures (a : Arranged crooked owed files) (hv : v.Holds files)
    (hd : Addresses v files d) (name : String) :
    (query (Tree.lookup · d name)).Ensures v
      (fun t w => w = v ∧ ∃ f i, files d = some f ∧ f.isDir ∧
        Entries.find f.entries name = some (i, t))
      (Refused v) := by
  cases a.lookup_cases hv hd name
  case inl h =>
    have ⟨f, i, t, hf, hd, hfind, he⟩ := h
    rw [ensures_query_ok he]
    exact ⟨rfl, f, i, hf, hd, hfind⟩
  case inr h =>
    have ⟨⟨e, he, ho⟩, _⟩ := h
    rw [ensures_query_error he]
    exact ⟨ho, rfl⟩

theorem expectAbsent_apply {find : Volume → Except Fault Nat}
    (hf : find v = .error (.errno .notFound)) : Tree.expectAbsent find v = (.ok (), v) := by
  rw [Tree.expectAbsent, bind_of_ok (attempt_of_errno (query_of_error hf))]
  rfl

theorem ensures_expectAbsent {find : Volume → Except Fault Nat} {ok : Unit → Volume → Prop}
    {error : Fault → Volume → Prop} (hf : find v = .error (.errno .notFound)) :
    (Tree.expectAbsent find).Ensures v ok error ↔ ok () v := by
  rw [Ensures, expectAbsent_apply hf]

theorem expectAbsent_ensures {find : Volume → Except Fault Nat}
    (hf : ∀ e, find v = .error e → e.Amiss) :
    (Tree.expectAbsent find).Ensures v
      (fun _ w => w = v ∧ find v = .error (.errno .notFound)) (Refused v) := by
  rw [Tree.expectAbsent, ensures_bind, ensures_attempt]
  cases h : find v
  case ok =>
    rw [ensures_query_ok h]
    exact ⟨by decide, rfl⟩
  case error e =>
    have ho := hf e h
    rw [ensures_query_error h]
    obtain ⟨n, rfl⟩ := ho.left.exists_errno
    cases n <;> first | exact ⟨rfl, rfl⟩ | exact ⟨ho, rfl⟩

-- A name is free where there is a directory without it. The check passes, too, where there is
-- nothing at all.
theorem absent_ensures (a : Arranged crooked owed files) (hv : v.Holds files)
    (hd : Addresses v files d) (name : String) :
    (Tree.expectAbsent (Tree.lookup · d name)).Ensures v
      (fun _ w => w = v ∧ Tree.lookup v d name = .error (.errno .notFound) ∧
        ((∃ f, files d = some f ∧ f.isDir ∧ ∀ u, (name, u) ∉ Entries.used f.entries) ∨
          v.link? d = none))
      (Refused v) := by
  have h := a.lookup_cases hv hd name
  refine (expectAbsent_ensures fun e he => ?_).mono_ok fun _ w ⟨hw, he⟩ => ⟨hw, he, ?_⟩
  case refine_1 =>
    cases h
    case inl h => have ⟨_, _, _, _, _, _, ho⟩ := h; simp [ho] at he
    case inr h =>
      have ⟨⟨_, hx, ho⟩, _⟩ := h
      obtain rfl := Except.error.inj (hx.symm.trans he)
      exact ho
  case refine_2 =>
    cases h
    case inl h => have ⟨_, _, _, _, _, _, he'⟩ := h; simp [he'] at he
    case inr h => exact h.right he

theorem guardName_ensures (v : Volume) (name : String) :
    (Tree.guardName name).Ensures v (fun _ w => w = v ∧ name ≠ "" ∧ Proper name) (Refused v) := by
  rw [Tree.guardName]
  by_cases h : name = "" ∨ name = "." ∨ name = ".."
  case pos =>
    rw [if_pos h]
    exact ⟨by decide, rfl⟩
  case neg =>
    rw [if_neg h]
    exact ⟨rfl, fun e => h (.inl e), fun e => h (.inr (.inl e)), fun e => h (.inr (.inr e))⟩

theorem walk_cases (a : Arranged crooked owed files) (hv : v.Holds files) (hf : files d = some f)
    (cs : List String) :
    (∃ i g, v.walk d cs = .ok i ∧ files i = some g) ∨
      ∃ e, v.walk d cs = .error e ∧ e.Amiss := by
  induction cs generalizing d f
  case nil => exact .inl ⟨d, f, rfl, hf⟩
  case cons c rest hi =>
    rw [walk]
    by_cases hc : c = ""
    case pos =>
      rw [if_pos hc]
      exact hi hf
    rw [if_neg hc, hv.isDir hf]
    by_cases hd : f.isDir
    case neg =>
      simp only [hd, bind, Except.bind]
      exact .inr ⟨_, rfl, by decide⟩
    have hl := hv.lookup hf (a.lists hf hd) c
    cases hfind : Entries.find f.entries c
    case none =>
      simp only [hfind] at hl
      simp only [hd, hl, bind, Except.bind]
      exact .inr ⟨_, rfl, by decide⟩
    case some p =>
      simp only [hfind] at hl
      have ⟨g, hg⟩ := a.exists_target hf hd (Entries.mem_used_of_find hfind)
      simp only [hd, hl, bind, Except.bind]
      exact hi hg

theorem resolve_cases (a : Arranged crooked owed files) (hv : v.Holds files) (path : String) :
    (∃ i g, v.resolve rootInode path = .ok i ∧ files i = some g) ∨
      ∃ e, v.resolve rootInode path = .error e ∧ e.Amiss :=
  have ⟨_, hf, _⟩ := a.exists_root
  a.walk_cases hv hf _

theorem resolve_ensures (a : Arranged crooked owed files) (hv : v.Holds files) (path : String) :
    (Tree.resolve path).Ensures v (fun i w => w = v ∧ ∃ g, files i = some g) (Refused v) := by
  rw [Tree.resolve]
  cases a.resolve_cases hv path
  case inl h =>
    have ⟨i, g, he, hg⟩ := h
    rw [ensures_query_ok he]
    exact ⟨rfl, g, hg⟩
  case inr h =>
    have ⟨e, he, ho⟩ := h
    rw [ensures_query_error he]
    exact ⟨ho, rfl⟩

theorem unresolved_ensures (a : Arranged crooked owed files) (hv : v.Holds files) (path : String) :
    (Tree.expectAbsent (·.resolve rootInode path)).Ensures v (fun _ w => w = v) (Refused v) := by
  refine (expectAbsent_ensures fun e he => ?_).mono_ok fun _ _ h => h.left
  cases a.resolve_cases hv path
  case inl h => have ⟨_, _, ho, _⟩ := h; simp [ho] at he
  case inr h =>
    have ⟨_, hx, ho⟩ := h
    obtain rfl := Except.error.inj (hx.symm.trans he)
    exact ho

theorem plain_of_mem_splitChars {cs : List Char} (hp : '\x00' ∉ cs) {l : List Char}
    (hl : l ∈ Path.splitChars cs) : '\x00' ∉ l := by
  induction cs generalizing l
  case nil => simp_all [Path.splitChars]
  case cons c cs hi =>
    have hi := @hi (fun h => hp (List.mem_cons_of_mem _ h))
    have hc : '\x00' ≠ c := fun e => hp (e ▸ List.mem_cons_self)
    rw [Path.splitChars] at hl
    split at hl
    case isTrue =>
      cases List.mem_cons.mp hl
      case inl h => simp [h]
      case inr h => exact hi h
    case isFalse =>
      split at hl
      case h_1 =>
        rw [List.mem_singleton.mp hl]
        simpa using hc
      case h_2 first rest he =>
        cases List.mem_cons.mp hl
        case inl h =>
          rw [h, List.mem_cons, not_or]
          exact ⟨hc, hi (he ▸ List.mem_cons_self)⟩
        case inr h => exact hi (he ▸ List.mem_cons_of_mem _ h)

theorem plain_leaf {path leaf : String} {before : List String} (hp : Entry.Plain path)
    (hl : Path.leaf? path = some (before, leaf)) : Entry.Plain leaf := by
  have hm : leaf ∈ Path.components path := by
    rw [Path.leaf?] at hl
    split at hl
    case h_1 => contradiction
    case h_2 l bs he =>
      obtain ⟨-, rfl⟩ := Prod.mk.inj (Option.some.inj hl)
      have := (List.dropWhile_suffix _).subset (he ▸ List.mem_cons_self)
      exact List.mem_reverse.mp this
  rw [Path.components] at hm
  have ⟨l, hmem, he⟩ := List.mem_map.mp hm
  subst he
  simpa [Entry.Plain] using plain_of_mem_splitChars hp hmem

theorem locate_any_ensures (a : Arranged crooked owed files) (hv : v.Holds files) (path : String) :
    (Tree.locate path).Ensures v
      (fun p w => w = v ∧ (Entry.Plain path → Entry.Plain p.2) ∧ ∃ f, files p.1 = some f ∧ f.isDir)
      (Refused v) := by
  have ⟨r, hr, _⟩ := a.exists_root
  rw [Tree.locate]
  cases hl : Path.leaf? path
  case none =>
    have : v.locate rootInode path = .error (.errno .notFound) := by rw [locate, hl]
    rw [ensures_query_error this]
    exact ⟨by decide, rfl⟩
  case some p =>
    obtain ⟨before, leaf⟩ := p
    cases a.walk_cases hv hr before
    case inr h =>
      have ⟨e, he, ho⟩ := h
      have : v.locate rootInode path = .error e := by
        simp [locate, hl, he, bind, Except.bind]
      rw [ensures_query_error this]
      exact ⟨ho, rfl⟩
    case inl h =>
      have ⟨i, g, he, hg⟩ := h
      by_cases hd : g.isDir
      case neg =>
        have : v.locate rootInode path = .error (.errno .notDirectory) := by
          simp [locate, hl, he, hv.isDir hg, hd, bind, Except.bind]
        rw [ensures_query_error this]
        exact ⟨by decide, rfl⟩
      case pos =>
        have : v.locate rootInode path = .ok (i, leaf) := by
          simp [locate, hl, he, hv.isDir hg, hd, bind, Except.bind, pure, Except.pure]
        rw [ensures_query_ok this]
        exact ⟨rfl, fun hp => plain_leaf hp hl, g, hg, hd⟩

theorem locate_ensures (a : Arranged crooked owed files) (hv : v.Holds files) {path : String}
    (hp : Entry.Plain path) :
    (Tree.locate path).Ensures v
      (fun p w => w = v ∧ Entry.Plain p.2 ∧ ∃ f, files p.1 = some f ∧ f.isDir) (Refused v) :=
  (a.locate_any_ensures hv path).mono_ok fun _ _ ⟨hw, hleaf, hf⟩ => ⟨hw, hleaf hp, hf⟩

theorem find_up (a : Arranged crooked owed files) (hf : files d = some f) (hd : f.isDir) :
    ∃ i p, Entries.find f.entries ".." = some (i, p) ∧ (graph files).Up d p := by
  have ⟨p, hp, _⟩ := a.consistent.up d ⟨_, graph_eq hf, hd⟩
  have ⟨_, hn, _, hm⟩ := hp
  obtain rfl := Option.some.inj ((graph_eq hf).symm.trans hn)
  have ⟨i, hi⟩ := Entries.find_of_mem (a.distinct hf hd) (FileState.names_node hd ▸ hm)
  exact ⟨i, p, hi, hp⟩

theorem isDir_iff : (graph files).IsDir d ↔ ∃ f, files d = some f ∧ f.isDir := by
  constructor
  case mp =>
    intro ⟨_, hn, hd⟩
    have ⟨f, hf, he⟩ := graph_eq_some.mp hn
    subst he
    exact ⟨f, hf, hd⟩
  case mpr => exact fun ⟨f, hf, hd⟩ => ⟨_, graph_eq hf, hd⟩

-- The way up either meets the directory looked for or leads past it to the root, unless it is too
-- long for either.
theorem isWithinFrom_cases (a : Arranged crooked owed files) (hv : v.Holds files)
    (hd : (graph files).IsDir d) (t limit : Nat) :
    Tree.isWithinFrom v t limit d = .error (.errno .io) ∧
        (∀ k < limit, ∀ e, (graph files).Climbs k d e → e ≠ t ∧ e ≠ rootInode) ∨
      Tree.isWithinFrom v t limit d = .ok true ∧ (∃ k, (graph files).Climbs k d t) ∨
      Tree.isWithinFrom v t limit d = .ok false ∧ d ≠ t ∧ (graph files).Ascends (· ≠ t) d := by
  induction limit generalizing d
  case zero => exact .inl ⟨rfl, fun _ hk => absurd hk (Nat.not_lt_zero _)⟩
  case succ limit hi =>
    rw [Tree.isWithinFrom]
    by_cases ht : d = t
    case pos => exact .inr (.inl ⟨if_pos ht, 0, ht⟩)
    rw [if_neg ht]
    by_cases h0 : d = rootInode
    case pos =>
      rw [if_pos h0]
      exact .inr (.inr ⟨rfl, ht, h0 ▸ .root⟩)
    have ⟨f, hf, hfd⟩ := isDir_iff.mp hd
    have ⟨i, p, hfind, hup⟩ := a.find_up hf hfd
    have hl := hv.lookup hf (a.lists hf hfd) ".."
    rw [hfind] at hl
    rw [if_neg h0, hl]
    have ⟨q, hq, hqd, _⟩ := a.consistent.up d hd
    obtain rfl := a.consistent.up_unique hup hq
    rcases hi hqd with ⟨he, hlong⟩ | ⟨he, k, hk⟩ | ⟨he, _, hasc⟩
    case inr.inl => exact .inr (.inl ⟨he, k + 1, p, hup, hk⟩)
    case inr.inr => exact .inr (.inr ⟨he, ht, .up ht hup hasc⟩)
    refine .inl ⟨he, fun k hk e hc => ?_⟩
    cases k
    case zero => exact hc ▸ ⟨ht, h0⟩
    case succ k =>
      have ⟨q, hq, hc⟩ := hc
      obtain rfl := a.consistent.up_unique hup hq
      exact hlong k (Nat.lt_of_succ_lt_succ hk) e hc

theorem isWithinFrom_free (hd : v.link? d = none) (ht : d ≠ t) (h0 : d ≠ rootInode) (limit : Nat) :
    Tree.isWithinFrom v t (limit + 1) d = .error (.errno .notFound) := by
  rw [Tree.isWithinFrom, if_neg ht, if_neg h0, lookup_of_free hd]
  rfl

theorem isWithin_ensures (a : Arranged crooked owed files) (hv : v.Holds files)
    (hd : (graph files).IsDir d ∨ v.link? d = none) (ht : ∃ g, files t = some g) :
    (query (Tree.isWithin · t d)).Ensures v
      (fun b w => w = v ∧ (b = false → (graph files).IsDir d ∧ d ≠ t ∧
        (graph files).Ascends (· ≠ t) d))
      (fun e w => (e.Amiss ∨ e = .errno .io ∧ (graph files).IsDir d ∧ (graph files).Circles t d) ∧
        w = v) := by
  cases hd
  case inl hd =>
    rcases a.isWithinFrom_cases hv hd t inodeCount with ⟨h, hlong⟩ | ⟨h, _⟩ | ⟨h, hne, hasc⟩
    case inl =>
      rw [ensures_query_error (show Tree.isWithin v t d = _ from h)]
      exact ⟨.inr ⟨rfl, hd, a.consistent.circles hd hlong⟩, rfl⟩
    case inr.inl =>
      rw [ensures_query_ok (show Tree.isWithin v t d = _ from h)]
      exact ⟨rfl, nofun⟩
    case inr.inr =>
      rw [ensures_query_ok (show Tree.isWithin v t d = _ from h)]
      exact ⟨rfl, fun _ => ⟨hd, hne, hasc⟩⟩
  case inr hd =>
    have hne : ∀ k g, files k = some g → d ≠ k := by
      intro k g hg e
      simpa [← e, hd] using hv.link?_isSome hg
    have ⟨g, hg⟩ := ht
    have ⟨r, hr, _⟩ := a.exists_root
    have h := isWithinFrom_free hd (hne t g hg) (hne _ r hr) (inodeCount - 1)
    rw [ensures_query_error (show Tree.isWithin v t d = _ from h)]
    exact ⟨.inl (by decide), rfl⟩

end Arranged
end InodeVolume
