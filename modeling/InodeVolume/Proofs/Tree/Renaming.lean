import InodeVolume.Proofs.Tree.Settled

namespace InodeVolume

open VolumeM Volume

variable {strays crooked : Prop} {owed : Nat → Int} {files files' : Nat → Option FileState}
variable {v : Volume} {d q i t : Nat} {e f g : FileState} {name newName : String}

-- What moving an entry from `d` to `q` makes of the files of a tree. The second way is that of
-- directories which get another one above them.
inductive Moved (files : Nat → Option FileState) (d : Nat) (name : String) (q : Nat)
    (newName : String) (t : Nat) : (Nat → Option FileState) → Prop
  | entry {e f g : FileState} {i : Nat} {files₁ : Nat → Option FileState} :
    files t = some g → (g.isDir → d = q) → files q = some e →
    files₁ = Function.update files q
      (some (e.withEntries (Entries.insert e.entries ⟨newName, some t⟩))) →
    files₁ d = some f → f.entries[i]? = some ⟨name, some t⟩ →
    Moved files d name q newName t
      (Function.update files₁ d (some (f.withEntries (Entries.clear f.entries i))))
  | directory {e f g h : FileState} {i k p : Nat} {files₁ files₂ : Nat → Option FileState} :
    files t = some g → g.isDir → d ≠ q → files q = some e →
    files₁ = Function.update files q
      (some (e.withEntries (Entries.insert e.entries ⟨newName, some t⟩))) →
    files d = some f → f.entries[i]? = some ⟨name, some t⟩ →
    files₂ = Function.update files₁ d (some (f.withEntries (Entries.clear f.entries i))) →
    files₂ t = some h → h.entries[k]? = some ⟨"..", some p⟩ →
    Moved files d name q newName t
      (Function.update files₂ t (some (h.withEntries (h.entries.set k ⟨"..", some q⟩))))

structure Unhindered (files : Nat → Option FileState) (d : Nat) (name : String) (q : Nat)
    (newName : String) (t : Nat) : Prop where
  proper    : Proper name
  newProper : Proper newName
  target    : ∃ f i, files d = some f ∧ f.isDir ∧ Entries.find f.entries name = some (i, t)
  parent    : ∃ e, files q = some e ∧ e.isDir ∧ ∀ u, (newName, u) ∉ Entries.used e.entries
  apart     : (graph files).IsDir t → t ≠ q ∧ (graph files).Ascends (· ≠ t) q

structure Movable (files : Nat → Option FileState) (d : Nat) (name : String) (q : Nat)
    (newName : String) (t : Nat) : Prop extends Unhindered files d name q newName t where
  fits : Entry.fits newName

-- Nothing is wrong with the names, but a directory is to go where the way up does not end.
structure Snared (v : Volume) (files : Nat → Option FileState) (d : Nat) (name : String) (q : Nat)
    (newName : String) (t : Nat) : Prop where
  proper    : name ≠ "" ∧ Proper name
  newProper : newName ≠ "" ∧ Proper newName
  target    : Tree.lookup v d name = .ok t
  absent    : Tree.lookup v q newName = .error (.errno .notFound)
  directory : (graph files).IsDir t
  parent    : (graph files).IsDir q
  circles   : (graph files).Circles t q

def Unrenamed (v : Volume) (files : Nat → Option FileState) (d : Nat) (name : String) (q : Nat)
    (newName : String) (e : Fault) (w : Volume) : Prop :=
  (e.Amiss ∨ e = .errno .io ∧ ∃ t, Snared v files d name q newName t) ∧ w = v ∨
    ∃ t, Declined v files q newName t e w

theorem Unrenamed.holds (a : Arranged crooked owed files) (hv : v.Holds files) {e : Fault}
    {w : Volume} (h : Unrenamed v files d name q newName e w) : w.Holds files := by
  rcases h with ⟨_, rfl⟩ | ⟨_, h⟩
  case inl => exact hv
  case inr => exact (h.refuses a hv).right

namespace Tree

def moveEntry (parent : Nat) (name : String) (newParent : Nat) (newName : String) (target : Nat)
    (moved : Bool) : VolumeM Unit := do
  discard <| Directory.add newParent newName target
  match ← attempt (Directory.remove parent name) with
  | .ok _    =>
    if moved ∧ parent ≠ newParent then discard <| Directory.redirect target ".." newParent
  | .error e =>
    match ← attempt (query (·.lookup parent name)) with
    | .ok found => if found = target then discard <| Directory.remove newParent newName
    | .error _  => pure ()
    refuse e

theorem rename_eq (parent : Nat) (name : String) (newParent : Nat) (newName : String) :
    rename parent name newParent newName = (do
      guardName name
      guardName newName
      let target ← query (lookup · parent name)
      expectAbsent (lookup · newParent newName)
      let moved ← query (·.isDir target)
      if moved then
        if ← query (isWithin · target newParent) then refuse .invalid
      moveEntry parent name newParent newName target moved) :=
  rfl

theorem rename_apply {moved : Bool} (hname : name ≠ "" ∧ Proper name)
    (hnew : newName ≠ "" ∧ Proper newName) (ht : lookup v d name = .ok t)
    (habsent : lookup v q newName = .error (.errno .notFound)) (hdir : v.isDir t = .ok moved) :
    rename d name q newName v = (do
      if moved then
        if ← query (isWithin · t q) then refuse .invalid
      moveEntry d name q newName t moved) v := by
  rw [rename_eq, bind_of_ok (guardName_apply hname v), bind_of_ok (guardName_apply hnew v),
    bind_of_ok (query_of_ok ht), bind_of_ok (Arranged.expectAbsent_apply habsent),
    bind_of_ok (query_of_ok hdir)]

theorem moveEntry_free_ensures (hq : v.link? q = none) (moved : Bool) :
    (moveEntry d name q newName t moved).Ensures v (fun _ _ => False) (Refused v) := by
  rw [moveEntry, ensures_bind, ensures_discard]
  exact (Directory.add_free_ensures hq).mono_ok fun _ _ => False.elim

theorem moveEntry_apart_ensures (a : Arranged crooked owed files) (hv : v.Holds files)
    (hf : files d = some f) (hd : f.isDir) (hfind : Entries.find f.entries name = some (i, t))
    (hg : files t = some g) (hproper : Proper name) (he : files q = some e) (hq : e.isDir)
    (hdq : d ≠ q) (htq : g.isDir → t ≠ q) :
    (moveEntry d name q newName t g.isDir).Ensures v
      (fun _ w => Entry.fits newName ∧ ∃ files', Moved files d name q newName t files' ∧
        w.Holds files')
      (Declined v files q newName t) := by
  rw [moveEntry, ensures_bind, ensures_discard]
  apply (Directory.add_ensures hv he (a.lists he hq)).with_result.barring
  case he => exact fun _ _ ⟨hr, _⟩ => ⟨e, he, hq, hr⟩
  intro _ x ⟨_, hfit, _, hx, _⟩
  generalize hfiles₁ : Function.update files q
    (some (e.withEntries (Entries.insert e.entries ⟨newName, some t⟩))) = files₁ at hx
  have hf₁ : files₁ d = some f := by rw [← hfiles₁, Function.update_of_ne hdq, hf]
  rw [ensures_bind, ensures_attempt]
  apply (Directory.remove_ensures hx hf₁ (a.lists hf hd)).mono
  case he =>
    intro _ w ⟨_, _, hnone⟩
    simp [hfind] at hnone
  intro j y ⟨⟨u, hu⟩, hy, _⟩
  obtain ⟨rfl, rfl⟩ := Prod.mk.inj (Option.some.inj (hfind.symm.trans hu))
  have hj := Entries.find_eq_some hfind
  dsimp only
  by_cases hgd : g.isDir
  case neg =>
    rw [if_neg fun h => hgd h.left]
    exact ⟨hfit, _, .entry hg (absurd · hgd) he hfiles₁.symm hf₁ hj, hy⟩
  case pos =>
    rw [if_pos ⟨hgd, hdq⟩, ensures_discard]
    generalize hfiles₂ : Function.update files₁ d
      (some (f.withEntries (Entries.clear f.entries i))) = files₂ at hy
    have ⟨k, p, hup, _⟩ := a.find_up hg hgd
    have ⟨h, hh, hlh, k', hfind₂⟩ : ∃ h, files₂ t = some h ∧ h.Lists h.entries ∧
        ∃ k, Entries.find h.entries ".." = some (k, p) := by
      -- a directory may be named by itself, and then it has lost an entry by now
      by_cases htd : t = d
      case neg =>
        refine ⟨g, ?_, a.lists hg hgd, k, hup⟩
        rw [← hfiles₂, Function.update_of_ne htd, ← hfiles₁, Function.update_of_ne (htq hgd), hg]
      case pos =>
        subst htd
        obtain rfl := Option.some.inj (hf.symm.trans hg)
        have hl := (a.lists hf hd).clear (i := i)
        refine ⟨_, by rw [← hfiles₂, Function.update_self], by rwa [hl.entries], ?_⟩
        rw [hl.entries]
        exact Entries.exists_find_clear (a.distinct hf hd) hj hup hproper.right.symm
    apply (Directory.redirect_ensures hy hh hlh).mono
    case he => exact fun _ w ⟨_, _, hnone⟩ => by simp [hfind₂] at hnone
    intro k'' w ⟨⟨p', hp'⟩, hw⟩
    obtain ⟨rfl, rfl⟩ := Prod.mk.inj (Option.some.inj (hfind₂.symm.trans hp'))
    exact ⟨hfit, _, .directory hg hgd hdq he hfiles₁.symm hf hj hfiles₂.symm hh
      (Entries.find_eq_some hfind₂), hw⟩

-- Within a directory. The first entry that is read under the old name goes, be it the new one.
theorem moveEntry_within_ensures (a : Arranged crooked owed files) (hv : v.Holds files)
    (hf : files d = some f) (hd : f.isDir) (hfind : Entries.find f.entries name = some (i, t))
    (hg : files t = some g) (moved : Bool) :
    (moveEntry d name d newName t moved).Ensures v
      (fun _ w => ∃ j u, Entry.fits newName ∧
        Entries.find ((Entries.insert f.entries ⟨newName, some t⟩).map Entry.stored) name =
          some (j, u) ∧
        w.Holds (Function.update files d (some (f.withEntries
          (Entries.clear (Entries.insert f.entries ⟨newName, some t⟩) j)))))
      (Declined v files d newName t) := by
  rw [moveEntry, ensures_bind, ensures_discard]
  apply (Directory.add_ensures hv hf (a.lists hf hd)).with_result.barring
  case he => exact fun _ _ ⟨hr, _⟩ => ⟨f, hf, hd, hr⟩
  intro _ x ⟨_, hfit, _, hx, _⟩
  have hold := Entries.find_eq_some hfind
  have hs := (a.lists hf hd).storable _ (List.mem_of_getElem? hold)
  have hw := (a.lists hf hd).writes.insert (e := ⟨newName, some t⟩) fun n hn => by
    obtain rfl := Option.some.inj hn
    have := a.lt hg
    lia
  have hi : (Entries.insert f.entries ⟨newName, some t⟩)[i]? = some ⟨name, some t⟩ :=
    Entries.getElem?_insert hold (by simp [Entry.isFree])
  generalize Entries.insert f.entries ⟨newName, some t⟩ = es at *
  -- the directory still has the old name
  obtain ⟨j, u, hfind₁⟩ : ∃ j u, Entries.find (es.map Entry.stored) name = some (j, u) := by
    cases hnone : Entries.find (es.map Entry.stored) name
    case some p => exact ⟨p.1, p.2, rfl⟩
    case none =>
      have hm := List.mem_map_of_mem (f := Entry.stored) (List.mem_of_getElem? hi)
      rw [hs.stored_eq] at hm
      exact absurd (Entries.mem_used.mpr hm) (Entries.find_eq_none.mp hnone t)
  rw [ensures_bind, ensures_attempt]
  apply (Directory.remove_stored_ensures hx (Function.update_self ..) hw hs.fits hfind₁).mono_never
  intro _ y hy
  rw [Function.update_idem] at hy
  dsimp only
  rw [if_neg fun h => h.right rfl]
  exact ⟨j, u, hfit, hfind₁, hy⟩

theorem moveEntry_ensures (a : Arranged crooked owed files) (hv : v.Holds files)
    (hf : files d = some f) (hd : f.isDir) (hfind : Entries.find f.entries name = some (i, t))
    (hg : files t = some g) (hproper : Proper name) (hnew : Proper newName)
    (hplain : Entry.Plain newName) (he : files q = some e) (hq : e.isDir)
    (hn : ∀ u, (newName, u) ∉ Entries.used e.entries) (htq : g.isDir → t ≠ q) :
    (moveEntry d name q newName t g.isDir).Ensures v
      (fun _ w => Entry.fits newName ∧ ∃ files', Moved files d name q newName t files' ∧
        w.Holds files')
      (Declined v files q newName t) := by
  by_cases hdq : d = q
  case neg => exact moveEntry_apart_ensures a hv hf hd hfind hg hproper he hq hdq htq
  case pos =>
    subst hdq
    obtain rfl := Option.some.inj (hf.symm.trans he)
    apply (moveEntry_within_ensures a hv hf hd hfind hg g.isDir).mono_ok
    rintro _ w ⟨j, u, hfit, hfind₁, hw⟩
    have hl := (a.lists hf hd).insert (.used hfit hplain (a.lt hg) : Entry.Storable ⟨newName, some t⟩)
    rw [hl.map_stored] at hfind₁
    have hj := Entries.find_eq_some hfind₁
    have hdistinct := (a.enter hf hd hfit hplain hnew hn (by rw [hg]; rfl)).distinct
      (Function.update_self ..) hd
    rw [hl.entries] at hdistinct
    obtain rfl : u = t := Entries.target_unique hdistinct (Entries.mem_used_of_find hfind₁)
      (Entries.mem_used.mpr (List.mem_of_getElem?
        (Entries.getElem?_insert (Entries.find_eq_some hfind) (by simp [Entry.isFree]))))
    refine ⟨hfit, _, .entry hg (fun _ => rfl) hf rfl (Function.update_self ..) (i := j) ?_, ?_⟩
    case refine_1 => rwa [hl.entries]
    case refine_2 =>
      rw [Function.update_idem, hl.entries]
      exact hw

theorem rename_of_moveEntry_ensures {ok : Unit → Volume → Prop} (a : Arranged crooked owed files)
    (hv : v.Holds files) (hd : Addresses v files d) (hq : Addresses v files q)
    (hmove : ∀ t g, files t = some g → Unhindered files d name q newName t →
      (moveEntry d name q newName t g.isDir).Ensures v ok (Declined v files q newName t)) :
    (rename d name q newName).Ensures v ok (Unrenamed v files d name q newName) := by
  have refused : ∀ e w, Refused v e w → Unrenamed v files d name q newName e w :=
    fun e w ⟨he, hw⟩ => .inl ⟨.inl he, hw⟩
  rw [rename_eq, ensures_bind]
  apply (Arranged.guardName_ensures v name).barring refused
  intro _ u ⟨hu, hempty, hproper⟩
  subst hu
  rw [ensures_bind]
  apply (Arranged.guardName_ensures u newName).barring refused
  intro _ u' ⟨hu, hnewEmpty, hnew⟩
  subst hu
  rw [ensures_bind]
  apply (a.lookup_ensures hv hd name).barring refused
  intro t u' ⟨hu, f, i, hf, hfd, hfind⟩
  subst hu
  have ⟨g, hg⟩ := a.exists_target hf hfd (Entries.mem_used_of_find hfind)
  rw [ensures_bind]
  apply (a.absent_ensures hv hq newName).barring refused
  intro _ u' ⟨hu, habsent, hparent⟩
  subst hu
  rw [ensures_bind, ensures_query_ok (hv.isDir hg)]
  -- whether it is a directory or not, it comes to the same once it may move
  have hmove : (g.isDir → (graph files).IsDir q → t ≠ q ∧ (graph files).Ascends (· ≠ t) q) →
      (moveEntry d name q newName t g.isDir).Ensures u' ok
        (Unrenamed u' files d name q newName) := by
    intro hapart
    cases hparent
    case inr h => exact (moveEntry_free_ensures h _).mono (fun _ _ => False.elim) refused
    case inl h =>
      have ⟨e, he, hed, hn⟩ := h
      have hqd := Arranged.isDir_iff.mpr ⟨e, he, hed⟩
      apply (hmove t g hg ⟨hproper, hnew, ⟨f, i, hf, hfd, hfind⟩, ⟨e, he, hed, hn⟩, ?_⟩).barring
        (fun _ _ h => .inr ⟨t, h⟩) fun _ _ => id
      intro htd
      have ⟨g', hg', hgd⟩ := Arranged.isDir_iff.mp htd
      obtain rfl := Option.some.inj (hg.symm.trans hg')
      exact hapart hgd hqd
  cases hgd : g.isDir
  case false =>
    rw [if_neg (by decide)]
    rw [hgd] at hmove
    exact hmove nofun
  case true =>
    rw [if_pos rfl, ensures_bind]
    have hq' : (graph files).IsDir q ∨ u'.link? q = none :=
      hparent.imp_left fun ⟨e, he, hed, _⟩ => Arranged.isDir_iff.mpr ⟨e, he, hed⟩
    apply (a.isWithin_ensures hv hq' ⟨g, hg⟩).barring
    case he =>
      intro e w ⟨he, hw⟩
      refine .inl ⟨he.imp_right fun ⟨he, hqd, hc⟩ => ⟨he, t, ?_⟩, hw⟩
      exact {
        proper    := ⟨hempty, hproper⟩
        newProper := ⟨hnewEmpty, hnew⟩
        target    := by rw [a.lookup_eq hv hf hfd, hfind]
        absent    := habsent
        directory := Arranged.isDir_iff.mpr ⟨g, hg, hgd⟩
        parent    := hqd
        circles   := hc
      }
    intro b x ⟨hx, hb⟩
    subst hx
    cases b
    case true => exact .inl ⟨.inl (by decide), rfl⟩
    case false =>
      rw [if_neg (by decide)]
      rw [hgd] at hmove
      exact hmove fun _ _ => have ⟨_, hne, hasc⟩ := hb rfl; ⟨hne.symm, hasc⟩

theorem rename_ensures (a : Arranged crooked owed files) (hv : v.Holds files)
    (hd : Addresses v files d) (hq : Addresses v files q) (hplain : Entry.Plain newName) :
    (rename d name q newName).Ensures v
      (fun _ w => ∃ t files', Movable files d name q newName t ∧
        Moved files d name q newName t files' ∧ w.Holds files')
      (Unrenamed v files d name q newName) := by
  refine rename_of_moveEntry_ensures a hv hd hq fun t g hg h => ?_
  have ⟨f, i, hf, hfd, hfind⟩ := h.target
  have ⟨e, he, hed, hn⟩ := h.parent
  have htq : g.isDir → t ≠ q := fun hgd => (h.apart (Arranged.isDir_iff.mpr ⟨g, hg, hgd⟩)).left
  apply (moveEntry_ensures a hv hf hfd hfind hg h.proper h.newProper hplain he hed hn htq).mono_ok
  intro _ w ⟨hfit, files', hm, hw⟩
  exact ⟨t, files', ⟨h, hfit⟩, hm, hw⟩

theorem rename_fails_ensures (a : Arranged crooked owed files) (hv : v.Holds files)
    (hd : Addresses v files d) (hq : Addresses v files q) :
    (rename d name q newName).Ensures v (fun _ _ => True) (fun _ w => w.Holds files) := by
  have h : (rename d name q newName).Ensures v (fun _ _ => True)
      (Unrenamed v files d name q newName) := by
    refine rename_of_moveEntry_ensures a hv hd hq fun t g hg h => ?_
    have ⟨f, i, hf, hfd, hfind⟩ := h.target
    have ⟨e, he, hed, _⟩ := h.parent
    by_cases hdq : d = q
    case pos =>
      subst hdq
      exact (moveEntry_within_ensures a hv hf hfd hfind hg _).mono_ok fun _ _ _ => trivial
    case neg =>
      have htq : g.isDir → t ≠ q := fun hgd => (h.apart (Arranged.isDir_iff.mpr ⟨g, hg, hgd⟩)).left
      exact (moveEntry_apart_ensures a hv hf hfd hfind hg h.proper he hed hdq htq).mono_ok
        fun _ _ _ => trivial
  exact h.mono (fun _ _ => id) fun _ _ h => h.holds a hv

end Tree

theorem Moved.same (m : Moved files d name q newName t files') : SameReferences files files' := by
  cases m
  case entry he h₁ hf _ =>
    subst h₁
    exact (SameReferences.entries he _).trans (.entries hf _)
  case directory hdq he h₁ hf _ h₂ hh _ =>
    subst h₁ h₂
    refine ((SameReferences.entries he _).trans (.entries ?_ _)).trans (.entries hh _)
    rw [Function.update_of_ne hdq, hf]

theorem Graph.Up.enter (a : Arranged crooked owed files) (he : files q = some e) (hed : e.isDir)
    {n : Entry} (hn : n.Storable) {k p : Nat} (hup : (graph files).Up k p) :
    (graph (Function.update files q (some (e.withEntries (Entries.insert e.entries n))))).Up k p := by
  have ⟨x, hx, hxd, hm⟩ := hup
  rw [graph_update, Option.map_some]
  by_cases hk : k = q
  case neg => exact ⟨x, by rw [Function.update_of_ne hk, hx], hxd, hm⟩
  case pos =>
    subst hk
    obtain rfl := Option.some.inj ((graph_eq he).symm.trans hx)
    refine ⟨_, Function.update_self .., hxd, ?_⟩
    rw [FileState.node_withEntries ((a.lists he hed).insert hn).storable hed]
    rw [FileState.names_node hed, Entries.mem_used] at hm
    have ⟨i, hi⟩ := List.getElem?_of_mem hm
    exact Entries.mem_used.mpr
      (List.mem_of_getElem? (Entries.getElem?_insert hi (by simp [Entry.isFree])))

theorem mem_entered (hl : f.Lists f.entries) (hfit : Entry.fits name) (hplain : Entry.Plain name)
    (ht : t < inodeCount) :
    (name, t) ∈ Entries.used (f.withEntries (Entries.insert f.entries ⟨name, some t⟩)).entries := by
  rw [FileState.entries_withEntries (hl.insert (.used hfit hplain ht)).storable]
  exact (Entries.used_insert rfl).mem_iff.mpr List.mem_cons_self

theorem owed_enter_leave (owed : Nat → Int) (t : Nat) :
    Function.update (Function.update owed t (owed t - 1)) t
      (Function.update owed t (owed t - 1) t + 1) = owed := by
  simp

-- A directory with two names learns of the one above it before the old name goes.
theorem Arranged.redirect_leave {k p j : Nat}
    (a : Arranged crooked (Function.update owed t (owed t - 1)) files) (hg : files t = some g)
    (hgd : g.isDir) (hk : g.entries[k]? = some ⟨"..", some p⟩) (hqd : (graph files).IsDir q)
    (hnames : (graph files).Names q t) (h0 : t ≠ rootInode)
    (hasc : ¬crooked → (graph files).Ascends (· ≠ t) q) (hdq : d ≠ q) (hp : Proper name)
    (hf : Function.update files t (some (g.withEntries (g.entries.set k ⟨"..", some q⟩))) d = some f)
    (hfd : f.isDir) (hj : f.entries[j]? = some ⟨name, some t⟩) :
    Arranged crooked owed (Function.update (Function.update files t
      (some (g.withEntries (g.entries.set k ⟨"..", some q⟩)))) d
      (some (f.withEntries (Entries.clear f.entries j)))) := by
  have ⟨e, he, _⟩ := Arranged.isDir_iff.mp hqd
  have a' := a.redirect hg hgd hk hqd hnames h0 hasc
  rw [← owed_enter_leave owed t]
  refine a'.leave hf hfd hj hp fun hup _ => absurd (a'.consistent.up_unique hup ?_) hdq
  refine ⟨_, graph_eq (Function.update_self ..), hgd, ?_⟩
  have hnew : Entry.Storable ⟨"..", some q⟩ := .used (by decide) (by decide) (a.lt he)
  rw [FileState.node_withEntries ((a.lists hg hgd).set hnew).storable hgd]
  exact (Entries.used_set hk _).mem_iff.mpr List.mem_cons_self

theorem Moved.arranged (m : Moved files d name q newName t files')
    (mv : Movable files d name q newName t) (s : Settled strays crooked files)
    (a : Arranged crooked owed files) (hplain : Entry.Plain newName) :
    Arranged crooked owed files' := by
  have ⟨f, i, hf, hfd, hfind⟩ := mv.target
  have ⟨e, he, hed, hn⟩ := mv.parent
  have hm := Entries.mem_used_of_find hfind
  have ⟨g, hg⟩ := a.exists_target hf hfd hm
  have hnew : Entry.Storable ⟨newName, some t⟩ := .used mv.fits hplain (a.lt hg)
  have hmem := mem_entered (a.lists he hed) mv.fits hplain (a.lt hg)
  have a₁ := a.enter he hed mv.fits hplain mv.newProper hn (t := t) (by rw [hg]; rfl)
  cases m
  case entry e' f' g' j files₁ hg' hgd he' h₁ hf' hj =>
    obtain rfl := Option.some.inj (he.symm.trans he')
    obtain rfl := Option.some.inj (hg.symm.trans hg')
    subst h₁
    have ⟨f'', hf'', hfd', _⟩ := (SameReferences.entries he _).exists_file hf'
    obtain rfl := Option.some.inj (hf.symm.trans hf'')
    rw [← owed_enter_leave owed t]
    refine a₁.leave hf' (hfd' ▸ hfd) hj mv.proper fun hup _ => ⟨newName, mv.newProper, ?_⟩
    -- only a directory has one above it, and then both names are in the same one
    have htd : g.isDir := by
      have ⟨_, hx, hxd, _⟩ := hup
      have ⟨g', hg', hgx⟩ := graph_eq_some.mp hx
      have ⟨g'', hg'', hgd', _⟩ := (SameReferences.entries he _).exists_file hg'
      obtain rfl := Option.some.inj (hg.symm.trans hg'')
      subst hgx
      exact hgd'.trans hxd
    obtain rfl := hgd htd
    obtain rfl := Option.some.inj (hf.symm.trans he)
    rw [Function.update_self, Option.some.injEq] at hf'
    subst hf'
    exact Entries.mem_used_clear hj hmem fun h => hn t (h ▸ hm)
  case directory e' f' g' h j k p files₁ files₂ hg' hgd hdq he' h₁ hf' hj h₂ hh hk =>
    obtain rfl := Option.some.inj (he.symm.trans he')
    obtain rfl := Option.some.inj (hg.symm.trans hg')
    obtain rfl := Option.some.inj (hf.symm.trans hf')
    rw [← h₁] at a₁
    have ⟨htq, hasc⟩ := mv.apart (Arranged.isDir_iff.mpr ⟨g, hg, hgd⟩)
    have hg₁ : files₁ t = some g := by rw [h₁, Function.update_of_ne htq, hg]
    have hf₁ : files₁ d = some f := by rw [h₁, Function.update_of_ne hdq, hf]
    have hqd : (graph files₁).IsDir q :=
      Arranged.isDir_iff.mpr ⟨e.withEntries _, by rw [h₁, Function.update_self], hed⟩
    have hnames : (graph files₁).Names q t :=
      ⟨_, newName, graph_eq (by rw [h₁, Function.update_self]), mv.newProper,
        (FileState.names_node (f := e.withEntries _) hed).symm ▸ hmem⟩
    have h0 : t ≠ rootInode :=
      s.ne_root ⟨d, _, name, graph_eq hf, mv.proper, FileState.names_node hfd ▸ hm⟩
    have hasc₁ : ¬crooked → (graph files₁).Ascends (· ≠ t) q := by
      intro _
      rw [h₁]
      exact hasc.mono fun k p hk hup => ⟨hk, hup.enter a he hed hnew⟩
    -- the entry goes first, which makes a difference to a directory that has its own name only
    by_cases htd : t = d
    case neg =>
      have : h = g := by
        rw [h₂, Function.update_of_ne htd, hg₁, Option.some.injEq] at hh
        exact hh.symm
      subst this
      have := a₁.redirect_leave hg₁ hgd hk hqd hnames h0 hasc₁ hdq mv.proper
        (by rw [Function.update_of_ne (Ne.symm htd), hf₁]) hfd hj
      rwa [Function.update_comm htd, ← h₂] at this
    case pos =>
      subst htd
      obtain rfl := Option.some.inj (hf.symm.trans hg)
      rw [h₂, Function.update_self, Option.some.injEq] at hh
      have hent : h.entries = Entries.clear f.entries j := by
        rw [← hh, FileState.entries_withEntries (a.lists hf hfd).clear.storable]
      rw [hent] at hk
      have ⟨hkept, hset⟩ := Entries.clear_set (d := ⟨"..", some q⟩) hk (by simp [Entry.isFree])
        (by simp [Entry.isFree])
      have hne : k ≠ j := by
        intro h
        rw [h, hj, Option.some.injEq, Entry.mk.injEq] at hkept
        exact mv.proper.right hkept.left
      have hs : ∀ x ∈ f.entries.set k ⟨"..", some q⟩, x.Storable :=
        ((a.lists hf hfd).set (.used (by decide) (by decide) (a.lt he))).storable
      have := a₁.redirect_leave hg₁ hgd hkept hqd hnames h0 hasc₁ hdq mv.proper
        (Function.update_self ..) hfd (j := j)
        (by rw [FileState.entries_withEntries hs, List.getElem?_set_ne hne, hj])
      rw [FileState.entries_withEntries hs, ← hset, Function.update_idem] at this
      rw [hent, h₂, Function.update_idem, ← hh]
      exact this

theorem Moved.settled (m : Moved files d name q newName t files')
    (mv : Movable files d name q newName t) (s : Settled strays crooked files)
    (hplain : Entry.Plain newName) :
    Settled strays crooked files' ∧ ∀ h, Named files h → Named files' h := by
  have ⟨owed, a, b⟩ := s
  have a' := m.arranged mv s a hplain
  exact ⟨⟨owed, a', m.same.accounted b⟩, fun h hn => m.same.named a a' hn⟩

theorem Tree.rename_evolves (s : Settled strays crooked files) (hv : v.Holds files)
    (hd : Addresses v files d) (hq : Addresses v files q) (hplain : Entry.Plain newName) :
    (rename d name q newName).Ensures v (fun _ w => Evolves strays crooked files v w)
      (fun _ w => w.Holds files) := by
  have ⟨owed, a, _⟩ := s
  apply (rename_ensures a hv hd hq hplain).barring
  case he => exact fun _ _ h => h.holds a hv
  intro _ w ⟨t, files', mv, m, hw⟩
  have ⟨hs, hn⟩ := m.settled mv s hplain
  exact ⟨files', hw, hs, .inl hn⟩

end InodeVolume
