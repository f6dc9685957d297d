import InodeVolume.Proofs.Tree.Settled

namespace InodeVolume

open VolumeM Volume

variable {strays crooked : Prop} {owed : Nat → Int} {files : Nat → Option FileState}
variable {v : Volume} {d i t : Nat} {f g : FileState} {name : String}

def FileState.released (g : FileState) : Option FileState :=
  if g.refs ≤ 1 then none else some { g with refs := g.refs - 1 }

theorem FileState.released_of_le (h : g.refs ≤ 1) : g.released = none := by
  rw [released, if_pos h]

theorem FileState.released_of_lt (h : 1 < g.refs) :
    g.released = some { g with refs := g.refs - 1 } := by
  rw [released, if_neg (Nat.not_le.mpr h)]

theorem Volume.Holds.isBare {es : List Entry} (hv : v.Holds files) (hf : files d = some f)
    (hl : f.Lists es) : v.isBare d = .ok (es.all fun e => e.isFree || e.name = "." || e.name = "..") := by
  rw [Volume.isBare, hv.slots hf hl]
  rfl

theorem Entries.bare_iff {es : List Entry} :
    (es.all fun e => e.isFree || e.name = "." || e.name = "..") ↔
      ∀ n t, (n, t) ∈ used es → ¬Proper n := by
  rw [List.all_eq_true]
  constructor
  case mp =>
    intro hb n t hm
    have := hb _ (mem_used.mp hm)
    simpa [Entry.isFree, Proper, imp_iff_not_or] using this
  case mpr =>
    rintro h ⟨n, o⟩ he
    cases o
    case none => rfl
    case some t =>
      have := h n t (mem_used.mpr he)
      simpa [Entry.isFree, Proper, imp_iff_not_or] using this

namespace Tree

theorem detach_ensures (a : Arranged crooked owed files) (hv : v.Holds files)
    (hf : files d = some f) (hd : f.isDir) (hfind : Entries.find f.entries name = some (i, t))
    (hg : files t = some g) (hne : t ≠ d) :
    (Directory.detach d name).Ensures v
      (fun _ w => ∃ g', g'.refs = g.refs ∧ (g.isDir ∨ g' = g) ∧ w.Holds (Function.update
        (Function.update files d (some (f.withEntries (Entries.clear f.entries i)))) t (some g')) ∧
        v.Recedes w) Never := by
  by_cases hgd : g.isDir
  case pos =>
    apply (Directory.detach_dir_ensures hv hf (a.lists hf hd) hfind hg (a.lists hg hgd) hgd hne).mono_ok
    exact fun _ w ⟨gs', hw, hr⟩ => ⟨g.withEntries gs', rfl, .inl hgd, hw, hr⟩
  case neg =>
    have hgx : Function.update files d (some (f.withEntries (Entries.clear f.entries i))) t =
        some g := by
      rw [Function.update_of_ne hne, hg]
    apply (Directory.detach_file_ensures hv hf (a.lists hf hd) hfind hg hgd).mono_ok
    intro _ w ⟨hw, hr⟩
    refine ⟨g, rfl, .inr rfl, ?_, hr⟩
    rwa [← hgx, Function.update_eq_self]

theorem removeName_ensures (a : Arranged crooked owed files) (hv : v.Holds files)
    (hf : files d = some f) (hd : f.isDir) (hfind : Entries.find f.entries name = some (i, t))
    (hg : files t = some g) (hne : t ≠ d) (hmax : g.refs < 0x80000000) :
    (removeName d name t).Ensures v
      (fun _ w => w.Holds (Function.update (Function.update files d
        (some (f.withEntries (Entries.clear f.entries i)))) t g.released) ∧ v.Recedes w)
      Never := by
  rw [removeName, ensures_bind, ensures_discard]
  apply (detach_ensures a hv hf hd hfind hg hne).mono_ok
  intro _ u ⟨g', hrefs, hkept, hu, hru⟩
  have ⟨c, hc, hcr, hcm, hput⟩ := File.exists_inode hu (Function.update_self ..)
  rw [ensures_bind, ensures_query_ok hc, ensures_bind]
  apply (hput (c.refs - 1) c.mode (by omega)).mono_ok
  intro _ x ⟨hx, hrx, _⟩
  rw [Function.update_idem, hcr, hcm, hrefs] at hx
  by_cases hlast : g.refs ≤ 1
  case pos =>
    rw [if_pos (by omega)]
    apply (File.delete_ensures hx (Function.update_self ..)).mono_ok
    intro _ w ⟨hw, hrw, _⟩
    rw [Function.update_idem] at hw
    rw [FileState.released_of_le hlast]
    exact ⟨hw, hru.trans (hrx.trans hrw)⟩
  case neg =>
    have hgd : ¬g.isDir := fun h => hlast (Nat.le_of_eq (a.refs hg h))
    obtain rfl := hkept.resolve_left hgd
    rw [if_neg (by omega), FileState.released_of_lt (Nat.not_le.mp hlast)]
    exact ⟨hx, hru.trans hrx⟩

theorem unlink_ensures (s : Settled strays crooked files) (hv : v.Holds files)
    (hp : Addresses v files d) :
    (unlink d name).Ensures v
      (fun _ w => Proper name ∧ ∃ f g i t, files d = some f ∧ f.isDir ∧
        Entries.find f.entries name = some (i, t) ∧ files t = some g ∧ ¬g.isDir ∧
        w.Holds (Function.update (Function.update files d
          (some (f.withEntries (Entries.clear f.entries i)))) t g.released) ∧ v.Recedes w)
      (Refused v) := by
  have ⟨owed, a, _⟩ := s
  rw [unlink, ensures_bind]
  apply (Arranged.guardName_ensures v name).mono_ok
  intro _ u ⟨hu, _, hproper⟩
  subst hu
  rw [ensures_bind]
  apply (a.lookup_ensures hv hp name).mono_ok
  intro t u' ⟨hu, f, i, hf, hd, hfind⟩
  subst hu
  have ⟨g, hg⟩ := a.exists_target hf hd (Entries.mem_used_of_find hfind)
  rw [ensures_bind, ensures_query_ok (hv.isDir hg)]
  cases hgd : g.isDir
  case true => exact ⟨by decide, rfl⟩
  rw [if_neg (by decide)]
  have hne : t ≠ d := by
    intro e
    rw [e, hf, Option.some.injEq] at hg
    simp [hg, hgd] at hd
  have := s.refs_le hv hg
  apply (removeName_ensures a hv hf hd hfind hg hne (by omega)).mono_never
  exact fun _ w ⟨hw, hr⟩ => ⟨hproper, f, g, i, t, hf, hd, hfind, hg, by simp [hgd], hw, hr⟩

def Peopled (v : Volume) (files : Nat → Option FileState) (d : Nat) (name : String) : Prop :=
  name ≠ "" ∧ Proper name ∧ ∃ t g n u, Tree.lookup v d name = .ok t ∧ files t = some g ∧ g.isDir ∧
    Proper n ∧ (n, u) ∈ Entries.used g.entries

theorem rmdir_ensures (s : Settled strays crooked files) (hv : v.Holds files)
    (hp : Addresses v files d) :
    (rmdir d name).Ensures v
      (fun _ w => Proper name ∧ ∃ f g i t, files d = some f ∧ f.isDir ∧
        Entries.find f.entries name = some (i, t) ∧ files t = some g ∧ g.isDir ∧
        (∀ n u, (n, u) ∈ Entries.used g.entries → ¬Proper n) ∧
        w.Holds (Function.update (Function.update files d
          (some (f.withEntries (Entries.clear f.entries i)))) t none) ∧ v.Recedes w)
      (fun e w => (e.Amiss ∨ e = .errno .notEmpty ∧ Peopled v files d name) ∧ w = v) := by
  have ⟨owed, a, _⟩ := s
  have refused : ∀ e w, Refused v e w →
      (e.Amiss ∨ e = .errno .notEmpty ∧ Peopled v files d name) ∧ w = v :=
    fun e w => .imp_left .inl
  rw [rmdir, ensures_bind]
  apply (Arranged.guardName_ensures v name).barring refused
  intro _ u ⟨hu, hempty, hproper⟩
  subst hu
  rw [ensures_bind]
  apply (a.lookup_ensures hv hp name).barring refused
  intro t u' ⟨hu, f, i, hf, hd, hfind⟩
  subst hu
  have hm := Entries.mem_used_of_find hfind
  have ⟨g, hg⟩ := a.exists_target hf hd hm
  rw [ensures_bind, ensures_query_ok (hv.isDir hg)]
  cases hgd : g.isDir
  case false => exact ⟨.inl (by decide), rfl⟩
  rw [if_neg (by decide)]
  dsimp only
  rw [ensures_bind, ensures_query_ok (hv.isBare hg (a.lists hg hgd))]
  by_cases hbare : g.entries.all fun e => e.isFree || e.name = "." || e.name = ".."
  case neg =>
    rw [if_pos (by simpa using hbare)]
    rw [Entries.bare_iff] at hbare
    simp only [not_forall, not_not] at hbare
    have ⟨n, u, hu, hn⟩ := hbare
    refine ⟨.inr ⟨rfl, hempty, hproper, t, g, n, u, ?_, hg, hgd, hn, hu⟩, rfl⟩
    rw [a.lookup_eq hv hf hd, hfind]
  rw [if_neg (by rw [hbare]; decide)]
  rw [Entries.bare_iff] at hbare
  -- a directory that names itself has a proper name in it
  have hne : t ≠ d := by
    intro e
    rw [e, hf, Option.some.injEq] at hg
    subst hg
    exact hbare _ _ hm hproper
  have hlast := a.refs hg hgd
  apply (removeName_ensures a hv hf hd hfind hg hne (by omega)).mono_never
  intro _ w ⟨hw, hr⟩
  rw [FileState.released_of_le (Nat.le_of_eq hlast)] at hw
  exact ⟨hproper, f, g, i, t, hf, hd, hfind, hg, hgd, hbare, hw, hr⟩

theorem unlink_evolves (s : Settled strays crooked files) (hv : v.Holds files)
    (hp : Addresses v files d) :
    (unlink d name).Ensures v (fun _ w => Evolves strays crooked files v w)
      (Directory.Refuses files) := by
  apply (unlink_ensures s hv hp).barring (Refused.refuses hv)
  intro _ w ⟨hproper, f, g, i, t, hf, hd, hfind, hg, hgd, hw, hr⟩
  have ⟨owed, a, b⟩ := s
  have hm := Entries.mem_used_of_find hfind
  have hne : t ≠ d := by
    intro e
    rw [e, hf, Option.some.injEq] at hg
    exact hgd (hg ▸ hd)
  have hgx : Function.update files d (some (f.withEntries (Entries.clear f.entries i))) t = some g := by
    rw [Function.update_of_ne hne, hg]
  have hrefs := a.refs_eq hg
  have hnamed : Named files t := ⟨d, _, name, graph_eq hf, hproper, FileState.names_node hd ▸ hm⟩
  have hcount := a.count_pos_iff.mpr hnamed
  have ⟨hpos, ho⟩ := b.regular t g hg hgd
  refine ⟨_, hw, ?_, .inr hr⟩
  by_cases hlast : g.refs ≤ 1
  case pos =>
    rw [FileState.released_of_le hlast]
    refine ⟨owed, ?_, (b.entries hf hd _).drop t⟩
    exact a.drop hf hd (Entries.find_eq_some hfind) hproper hg hne (s.ne_root hnamed)
      (fun h => absurd h hgd) (by omega)
  case neg =>
    rw [FileState.released_of_lt (Nat.not_le.mp hlast)]
    have hup : ¬(graph files).Up t d := by
      intro ⟨_, hn, hdir, _⟩
      rw [graph_eq hg, Option.some.injEq] at hn
      subst hn
      exact hgd hdir
    have a' := (a.leave hf hd (Entries.find_eq_some hfind) hproper fun h => absurd h hup).claim hgx
      hgd (g.refs - 1)
    rw [Function.update_idem, Function.update_self] at a'
    refine ⟨owed, ?_, (b.entries hf hd _).revise hgx rfl fun _ => ?_⟩
    case refine_1 =>
      convert a'
      rw [eq_comm, Function.update_eq_self_iff]
      omega
    case refine_2 => exact Nat.le_sub_one_of_lt (Nat.lt_of_not_le hlast)

theorem rmdir_evolves (s : Settled strays crooked files) (hv : v.Holds files)
    (hp : Addresses v files d) :
    (rmdir d name).Ensures v (fun _ w => Evolves strays crooked files v w)
      (fun _ w => w.Holds files) := by
  apply (rmdir_ensures s hv hp).barring (fun _ _ h => h.right ▸ hv)
  intro _ w ⟨hproper, f, g, i, t, hf, hd, hfind, hg, hgd, hbare, hw, hr⟩
  have ⟨owed, a, b⟩ := s
  have hm := Entries.mem_used_of_find hfind
  have hne : t ≠ d := by
    intro e
    rw [e, hf, Option.some.injEq] at hg
    subst hg
    exact hbare name t hm hproper
  have hnamed : Named files t := ⟨d, _, name, graph_eq hf, hproper, FileState.names_node hd ▸ hm⟩
  have h0 := s.ne_root hnamed
  have hlast := a.count_eq_one b hg hgd h0
  refine ⟨_, hw, ⟨owed, ?_, (b.entries hf hd _).drop t⟩, .inr hr⟩
  exact a.drop hf hd (Entries.find_eq_some hfind) hproper hg hne h0 (fun _ => hbare) hlast

end Tree
end InodeVolume
