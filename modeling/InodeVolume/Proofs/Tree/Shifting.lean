import InodeVolume.Proofs.Directory.Places
import InodeVolume.Proofs.Tree.Descent

namespace InodeVolume

open Volume

variable {strays crooked : Prop} {owed : Nat → Int} {files files' : Nat → Option FileState}
variable {v : Volume} {p q t d i k c u x : Nat} {f g : FileState} {n m b : String}
variable {es : List Entry} {e : Entry}

def Carries (files : Nat → Option FileState) (d k : Nat) (b : String) (x : Nat) : Prop :=
  ∃ f, files d = some f ∧ f.isDir ∧ f.entries[k]? = some ⟨b, some x⟩

def Volume.Carries (v : Volume) (d k : Nat) (b : String) (x : Nat) : Prop :=
  v.Head d ∧ v.isDir d = .ok true ∧ ∃ es, v.slots d = .ok es ∧ es[k]? = some ⟨b, some x⟩

-- An entry `n` of `p` has gone from the slot `i`, and stands under the name `m` in the slot `j` of `q`.
-- If it is a directory, the entry in its slot `c` has changed from `p` to `q`. All others are as
-- before.
structure Shifts (old new : Nat → Nat → String → Nat → Prop) (p : Nat) (n : String) (q : Nat)
    (m : String) (t : Nat) (dir : Prop) (i j c : Nat) : Prop where
  source  : old p i n t
  vacant  : ∀ b x, ¬old q j b x
  parent  : dir → old t c ".." p
  entries : ∀ d k b x, new d k b x ↔ (d = q ∧ k = j ∧ b = m ∧ x = t) ∨
    (dir ∧ d = t ∧ k = c ∧ b = ".." ∧ x = q) ∨
      (old d k b x ∧ ¬(d = p ∧ k = i) ∧ ¬(dir ∧ d = t ∧ k = c))

namespace Shifts

variable {old new : Nat → Nat → String → Nat → Prop} {dir : Prop} {j : Nat}

theorem same (h : Shifts old new p n q m t dir i j c)
    (hunique : ∀ {d k b b' x x'}, old d k b x → old d k b' x' → b = b' ∧ x = x')
    (hp : d ≠ p) (hq : d ≠ q) (hb : b ≠ "..") : new d k b x ↔ old d k b x := by
  rw [h.entries]
  constructor
  case mp =>
    rintro (⟨h, _⟩ | ⟨_, _, _, h, _⟩ | ⟨h, _⟩)
    case inl     => exact absurd h hq
    case inr.inl => exact absurd h hb
    case inr.inr => exact h
  case mpr =>
    refine fun hk => .inr (.inr ⟨hk, fun h => hp h.left, ?_⟩)
    rintro ⟨hdir, rfl, rfl⟩
    exact hb (hunique hk (h.parent hdir)).left

variable (hsource : old p i n t) (hvacant : ∀ b x, ¬old q j b x) (hparent : dir → old t c ".." p)

include hsource hvacant hparent

theorem of_directory (hdir : dir)
    (hnew : ∀ d k b x, new d k b x ↔ (d = t ∧ k = c ∧ b = ".." ∧ x = q) ∨
      (((d = q ∧ k = j ∧ b = m ∧ x = t) ∨ old d k b x) ∧ ¬(d = p ∧ k = i)) ∧ ¬(d = t ∧ k = c)) :
    Shifts old new p n q m t dir i j c := by
  refine ⟨hsource, hvacant, hparent, fun d k b x => ?_⟩
  have hup := hparent hdir
  rw [hnew]
  constructor
  case mp =>
    rintro (h | ⟨⟨h | h, hne⟩, hup⟩)
    case inl     => exact .inr (.inl ⟨hdir, h⟩)
    case inr.inl => exact .inl h
    case inr.inr => exact .inr (.inr ⟨h, hne, fun h => hup h.right⟩)
  case mpr =>
    rintro (⟨rfl, rfl, h⟩ | ⟨_, h⟩ | ⟨h, hne, hnup⟩)
    case inr.inl => exact .inl h
    case inr.inr => exact .inr ⟨⟨.inr h, hne⟩, fun h => hnup ⟨hdir, h⟩⟩
    case inl =>
      refine .inr ⟨⟨.inl ⟨rfl, rfl, h⟩, ?_⟩, ?_⟩
      case refine_1 =>
        rintro ⟨rfl, rfl⟩
        exact hvacant n t hsource
      case refine_2 =>
        rintro ⟨rfl, rfl⟩
        exact hvacant ".." p hup

theorem of_entry (hunique : ∀ {d k b b' x x'}, old d k b x → old d k b' x' → b = b' ∧ x = x')
    (hn : n ≠ "..") (hdir : dir → p = q)
    (hnew : ∀ d k b x, new d k b x ↔
      ((d = q ∧ k = j ∧ b = m ∧ x = t) ∨ old d k b x) ∧ ¬(d = p ∧ k = i)) :
    Shifts old new p n q m t dir i j c := by
  refine ⟨hsource, hvacant, hparent, fun d k b x => ?_⟩
  rw [hnew]
  constructor
  case mp =>
    rintro ⟨h | h, hne⟩
    case inl => exact .inl h
    case inr =>
      by_cases ht : dir ∧ d = t ∧ k = c
      case neg => exact .inr (.inr ⟨h, hne, ht⟩)
      case pos =>
        obtain ⟨hd, rfl, rfl⟩ := ht
        obtain ⟨rfl, rfl⟩ := hunique h (hparent hd)
        exact .inr (.inl ⟨hd, rfl, rfl, rfl, hdir hd⟩)
  case mpr =>
    rintro (⟨rfl, rfl, h⟩ | ⟨hd, rfl, rfl, rfl, rfl⟩ | ⟨h, hne, _⟩)
    case inr.inr => exact ⟨.inr h, hne⟩
    case inl =>
      refine ⟨.inl ⟨rfl, rfl, h⟩, ?_⟩
      rintro ⟨rfl, rfl⟩
      exact hvacant n t hsource
    case inr.inl =>
      have hup := hparent hd
      refine ⟨.inr (hdir hd ▸ hup), ?_⟩
      rintro ⟨rfl, rfl⟩
      exact hn (hunique hsource hup).left

end Shifts

def Listed (files : Nat → Option FileState) : Prop :=
  ∀ d f, files d = some f → f.isDir → f.Lists f.entries

theorem Listed.update (h : Listed files) (hl : (f.withEntries es).Lists es) :
    Listed (Function.update files d (some (f.withEntries es))) := by
  intro k g hg hd
  by_cases hk : k = d
  case pos =>
    rw [hk, Function.update_self, Option.some.injEq] at hg
    rw [← hg, hl.entries]
    exact hl
  case neg => exact h k g (by rwa [Function.update_of_ne hk] at hg) hd

namespace Carries

theorem update (hd : f.isDir) (hl : (f.withEntries es).Lists es) :
    Carries (Function.update files p (some (f.withEntries es))) d k b x ↔
      (d = p ∧ es[k]? = some ⟨b, some x⟩) ∨ (d ≠ p ∧ Carries files d k b x) := by
  by_cases hdp : d = p
  case pos =>
    have hd : (f.withEntries es).isDir := hd
    simp [Carries, hdp, hd, hl.entries]
  case neg => simp [Carries, hdp]

theorem iff_of_eq (hf : files p = some f) (hd : f.isDir) :
    Carries files p k b x ↔ f.entries[k]? = some ⟨b, some x⟩ := by
  simp [Carries, hf, hd]

theorem unique (h : Carries files d k b x) (h' : Carries files d k n u) : b = n ∧ x = u := by
  have ⟨f, hf, _, hk⟩ := h
  have ⟨g, hg, _, hk'⟩ := h'
  obtain rfl := Option.some.inj (hf.symm.trans hg)
  simpa using hk.symm.trans hk'

variable (hf : files p = some f) (hd : f.isDir) (hl : f.Lists f.entries)

include hf hd hl

theorem insert (he : Entry.Storable ⟨m, some t⟩) :
    Carries (Function.update files p
        (some (f.withEntries (Entries.insert f.entries ⟨m, some t⟩)))) d k b x ↔
      (d = p ∧ k = Entries.place f.entries ∧ b = m ∧ x = t) ∨ Carries files d k b x := by
  rw [update hd (hl.insert he), Entries.getElem?_insert_iff]
  by_cases hdp : d = p
  case pos => simp [hdp, iff_of_eq hf hd]
  case neg => simp [hdp]

theorem clear :
    Carries (Function.update files p (some (f.withEntries (Entries.clear f.entries i)))) d k b x ↔
      Carries files d k b x ∧ ¬(d = p ∧ k = i) := by
  rw [update hd hl.clear, Entries.getElem?_clear_iff]
  by_cases hdp : d = p
  case pos => simp [hdp, iff_of_eq hf hd]
  case neg => simp [hdp]

theorem set (hc : f.entries[c]? = some e) (he : Entry.Storable ⟨m, some t⟩) :
    Carries (Function.update files p
        (some (f.withEntries (f.entries.set c ⟨m, some t⟩)))) d k b x ↔
      (d = p ∧ k = c ∧ b = m ∧ x = t) ∨ (Carries files d k b x ∧ ¬(d = p ∧ k = c)) := by
  rw [update hd (hl.set he), Entries.getElem?_set_iff hc]
  by_cases hdp : d = p
  case pos => simp [hdp, iff_of_eq hf hd]
  case neg => simp [hdp]

end Carries

namespace Arranged

theorem listed (a : Arranged crooked owed files) : Listed files :=
  fun _ _ => a.lists

theorem carries_eq (a : Arranged crooked owed files) (hv : v.Holds files) :
    v.Carries = Carries files := by
  funext d k b x
  refine propext ⟨fun ⟨hh, hd, es, hs, hk⟩ => ?_, fun ⟨f, hf, hd, hk⟩ => ?_⟩
  case refine_1 =>
    have ⟨f, hf⟩ := hv.head_iff.mp hh
    rw [hv.isDir hf, Except.ok.injEq] at hd
    rw [hv.slots hf (a.lists hf hd), Except.ok.injEq] at hs
    exact ⟨f, hf, hd, hs ▸ hk⟩
  case refine_2 =>
    exact ⟨hv.head_iff.mpr ⟨f, hf⟩, by rw [hv.isDir hf, hd], _, hv.slots hf (a.lists hf hd), hk⟩

theorem mem_of_carries (h : Carries files d k b x) :
    ∃ f, graph files d = some f ∧ f.isDir ∧ (b, x) ∈ f.names := by
  have ⟨f, hf, hd, hk⟩ := h
  refine ⟨_, graph_eq hf, hd, FileState.names_node hd ▸ Entries.mem_used.mpr ?_⟩
  exact List.mem_of_getElem? hk

theorem lookup_iff (a : Arranged crooked owed files) (hv : v.Holds files) (hf : files d = some f)
    (hd : f.isDir) : Tree.lookup v d b = .ok x ↔ ∃ k, Carries files d k b x := by
  constructor
  case mp =>
    intro h
    have ⟨k, hfind⟩ := a.find_of_lookup hv hf hd h
    exact ⟨k, f, hf, hd, Entries.find_eq_some hfind⟩
  case mpr =>
    intro ⟨k, hk⟩
    rw [Carries.iff_of_eq hf hd] at hk
    rw [a.lookup_eq hv hf hd, Entries.find_of_getElem? (a.distinct hf hd) hk]

theorem lookup_error_iff (a : Arranged crooked owed files) (hv : v.Holds files) (hf : files d = some f)
    (hd : f.isDir) :
    Tree.lookup v d b = .error (.errno .notFound) ↔ ∀ k x, ¬Carries files d k b x := by
  constructor
  case mp =>
    intro h k x hk
    rw [(a.lookup_iff hv hf hd).mpr ⟨k, hk⟩] at h
    contradiction
  case mpr =>
    intro h
    rw [a.lookup_eq hv hf hd]
    split
    case h_1 k y hfind => exact absurd ⟨f, hf, hd, Entries.find_eq_some hfind⟩ (h k y)
    case h_2           => rfl

theorem slot_unique (a : Arranged crooked owed files) (h : Carries files d k b x)
    (h' : Carries files d i b u) : k = i := by
  have ⟨f, hf, hd, hk⟩ := h
  have ⟨g, hg, _, hi⟩ := h'
  obtain rfl := Option.some.inj (hf.symm.trans hg)
  have hdistinct := a.distinct hf hd
  have := (Entries.find_of_getElem? hdistinct hk).symm.trans (Entries.find_of_getElem? hdistinct hi)
  exact (Prod.mk.inj (Option.some.inj this)).left

end Arranged

theorem Settled.exists_parent (s : Settled strays crooked files) (hn : (graph files).Names p t) :
    ∃ c, (graph files).IsDir t → Carries files t c ".." p := by
  by_cases hd : (graph files).IsDir t
  case neg => exact ⟨0, fun h => absurd h hd⟩
  case pos =>
    have ⟨_, a, _⟩ := s
    have ⟨g, hg, hgd⟩ := Arranged.isDir_iff.mp hd
    have ⟨c, r, hfind, hup⟩ := a.find_up hg hgd
    obtain rfl := a.consistent.up_unique hup (s.up_of_names hn hd)
    exact ⟨c, fun _ => ⟨g, hg, hgd, Entries.find_eq_some hfind⟩⟩

theorem Moved.shifts (hm : Moved files p n q m t files') (mv : Movable files p n q m t)
    (s : Settled strays crooked files) (hplain : Entry.Plain m) :
    ∃ i j c, Shifts (Carries files) (Carries files') p n q m t ((graph files).IsDir t) i j c := by
  have ⟨_, a, _⟩ := s
  have ⟨f, i, hf, hfd, hfind⟩ := mv.target
  have ⟨e, he, hed, habsent⟩ := mv.parent
  have hmem := Entries.mem_used_of_find hfind
  have ⟨g, hg⟩ := a.exists_target hf hfd hmem
  have hnew : Entry.Storable ⟨m, some t⟩ := .used mv.fits hplain (a.lt hg)
  have hold : Carries files p i n t := ⟨f, hf, hfd, Entries.find_eq_some hfind⟩
  have hvacant : ∀ b x, ¬Carries files q (Entries.place e.entries) b x := by
    intro b x h
    rw [Carries.iff_of_eq he hed] at h
    exact Entries.getElem?_place_ne h
  have ⟨c, hc⟩ := s.exists_parent
    ⟨_, n, graph_eq hf, mv.proper, FileState.names_node hfd ▸ hmem⟩
  have hfiles₁ : ∀ {d k : Nat} {b : String} {x : Nat}, Carries (Function.update files q
      (some (e.withEntries (Entries.insert e.entries ⟨m, some t⟩)))) d k b x ↔
        (d = q ∧ k = Entries.place e.entries ∧ b = m ∧ x = t) ∨ Carries files d k b x :=
    Carries.insert he hed (a.lists he hed) hnew
  have hlisted : Listed (Function.update files q
      (some (e.withEntries (Entries.insert e.entries ⟨m, some t⟩)))) :=
    a.listed.update ((a.lists he hed).insert hnew)
  refine ⟨i, Entries.place e.entries, c, ?_⟩
  -- entering the new name does not move any other entry, so the old one is still in its slot
  cases hm
  case entry e' f' g' i' files₁ hg' hgd he' h₁ hf' hi' =>
    obtain rfl := Option.some.inj (he.symm.trans he')
    obtain rfl := Option.some.inj (hg.symm.trans hg')
    rw [← h₁] at hfiles₁ hlisted
    have ⟨f'', hf'', hfd', _⟩ := (h₁ ▸ SameReferences.entries he _).exists_file hf'
    obtain rfl := Option.some.inj (hf.symm.trans hf'')
    have hfd' : f'.isDir := hfd' ▸ hfd
    have hi : i' = i := by
      rcases hfiles₁.mp ⟨f', hf', hfd', hi'⟩ with ⟨rfl, _, rfl, _⟩ | h
      case inl =>
        obtain rfl := Option.some.inj (hf.symm.trans he)
        exact absurd hmem (habsent t)
      case inr => exact a.slot_unique h hold
    subst hi
    have hdir : (graph files).IsDir t → p = q := by
      intro hd
      have ⟨g', hg', hd⟩ := Arranged.isDir_iff.mp hd
      obtain rfl := Option.some.inj (hg.symm.trans hg')
      exact hgd hd
    refine .of_entry hold hvacant hc Carries.unique mv.proper.right hdir fun d k b x => ?_
    rw [Carries.clear hf' hfd' (hlisted p f' hf' hfd'), hfiles₁]
  case directory e' f' g' h i' c' r files₁ files₂ hg' hgd hpq he' h₁ hf' hi' h₂ hh hc' =>
    obtain rfl := Option.some.inj (he.symm.trans he')
    obtain rfl := Option.some.inj (hg.symm.trans hg')
    obtain rfl := Option.some.inj (hf.symm.trans hf')
    rw [← h₁] at hfiles₁ hlisted
    have hdir : (graph files).IsDir t := Arranged.isDir_iff.mpr ⟨g, hg, hgd⟩
    have ⟨htq, _⟩ := mv.apart hdir
    have hf₁ : files₁ p = some f := by rw [h₁, Function.update_of_ne hpq, hf]
    obtain rfl := a.slot_unique ⟨f, hf, hfd, hi'⟩ hold
    have hfiles₂ : ∀ {d k : Nat} {b : String} {x : Nat},
        Carries files₂ d k b x ↔ Carries files₁ d k b x ∧ ¬(d = p ∧ k = i') :=
      h₂ ▸ Carries.clear hf₁ hfd (a.lists hf hfd)
    have ⟨h', hh', hhd, _⟩ := (h₂ ▸ (h₁ ▸ SameReferences.entries he _).trans
      (SameReferences.entries hf₁ _)).exists_file hh
    obtain rfl := Option.some.inj (hg.symm.trans hh')
    have hhd : h.isDir := hhd ▸ hgd
    have hc' : c' = c := by
      have := (hfiles₁.mp (hfiles₂.mp ⟨h, hh, hhd, hc'⟩).left).resolve_left fun h => htq h.left
      exact a.slot_unique this (hc hdir)
    subst hc'
    have hup : Entry.Storable ⟨"..", some q⟩ := .used (by decide) (by decide) (a.lt he)
    have hlh : h.Lists h.entries :=
      (h₂ ▸ hlisted.update (a.lists hf hfd).clear : Listed files₂) t h hh hhd
    refine .of_directory hold hvacant hc hdir fun d k b x => ?_
    rw [Carries.set hh hhd hlh hc' hup, hfiles₂, hfiles₁]

def FileState.core (f : FileState) : Nat × UInt32 × Option (List UInt8) :=
  (f.refs, f.mode, if f.isDir then none else some f.bytes)

theorem FileState.isDir_of_core (h : g.core = f.core) : g.isDir = f.isDir := by
  rw [FileState.isDir, FileState.isDir, (Prod.mk.inj (Prod.mk.inj h).right).left]

theorem FileState.eq_of_core (h : g.core = f.core) (hd : ¬f.isDir) : g = f := by
  obtain ⟨_, _, _⟩ := f
  obtain ⟨_, _, _⟩ := g
  simp_all [core, isDir]

theorem FileState.exists_of_core
    (h : ∀ k, (files' k).map FileState.core = (files k).map FileState.core)
    (hf : files k = some f) : ∃ g, files' k = some g ∧ g.core = f.core := by
  have hk := h k
  rwa [hf, Option.map_some, Option.map_eq_some_iff] at hk

theorem core_update (hf : files d = some f) (hd : f.isDir) (es : List Entry) (h : Nat) :
    (Function.update files d (some (f.withEntries es)) h).map FileState.core =
      (files h).map FileState.core := by
  by_cases hh : h = d
  case neg => rw [Function.update_of_ne hh]
  case pos =>
    have hd' : (f.withEntries es).isDir := hd
    rw [hh, Function.update_self, hf, Option.map_some, Option.map_some, FileState.core, FileState.core,
      if_pos hd, if_pos hd']
    rfl

theorem Moved.core (hm : Moved files p n q m t files') (hp : (graph files).IsDir p)
    (hq : (graph files).IsDir q) (h : Nat) :
    (files' h).map FileState.core = (files h).map FileState.core := by
  have ⟨f, hf, hfd⟩ := Arranged.isDir_iff.mp hp
  have ⟨e, he, hed⟩ := Arranged.isDir_iff.mp hq
  cases hm
  case entry e' f' g i files₁ hg hgd he' h₁ hf' hi =>
    obtain rfl := Option.some.inj (he.symm.trans he')
    have ⟨f'', hf'', hfd', _⟩ := (h₁ ▸ SameReferences.entries he _).exists_file hf'
    obtain rfl := Option.some.inj (hf.symm.trans hf'')
    rw [core_update hf' (hfd' ▸ hfd), h₁, core_update he hed]
  case directory e' f' g h i c r files₁ files₂ hg hgd hpq he' h₁ hf' hi h₂ hh hc =>
    obtain rfl := Option.some.inj (he.symm.trans he')
    obtain rfl := Option.some.inj (hf.symm.trans hf')
    have hf₁ : files₁ p = some f := by rw [h₁, Function.update_of_ne hpq, hf]
    have ⟨g', hg', hhd, _⟩ := (h₂ ▸ (h₁ ▸ SameReferences.entries he _).trans
      (SameReferences.entries hf₁ _)).exists_file hh
    obtain rfl := Option.some.inj (hg.symm.trans hg')
    rw [core_update hh (hhd ▸ hgd), h₂, core_update hf₁ hfd, h₁, core_update he hed]

end InodeVolume
