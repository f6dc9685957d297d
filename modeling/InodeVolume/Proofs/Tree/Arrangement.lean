import InodeVolume.Proofs.Directory.Slots
import InodeVolume.Proofs.Tree.Graph

namespace InodeVolume

open Volume

-- A directory starts with the entry for itself, and ends with one that is in use. Where it is not
-- crooked, which the root never is, the entry for the one above it comes second.
structure FileState.Directory (crooked : Prop) (d : Nat) (f : FileState) : Prop where
  lists  : f.Lists f.entries
  tight  : Entries.Tight f.entries
  first  : f.entries[0]? = some ⟨".", some d⟩
  second : (crooked → d = rootInode) → ∃ p, f.entries[1]? = some ⟨"..", some p⟩
  refs   : f.refs = 1

structure FileState.Legal (crooked : Prop) (h : Nat) (f : FileState) : Prop where
  kind      : Mode.kindBits f.mode = Mode.regular ∨ Mode.kindBits f.mode = Mode.directory
  directory : f.isDir → f.Directory crooked h

def FileState.node (f : FileState) : Node where
  isDir := f.isDir
  refs  := f.refs
  names := if f.isDir then Entries.used f.entries else []

def graph (files : Nat → Option FileState) : Graph :=
  fun h => (files h).map FileState.node

def Named (files : Nat → Option FileState) (h : Nat) : Prop :=
  ∃ d, (graph files).Names d h

structure Arranged (crooked : Prop) (owed : Nat → Int) (files : Nat → Option FileState) : Prop where
  consistent : (graph files).Consistent crooked owed
  legal      : ∀ h f, files h = some f → f.Legal crooked h

variable {crooked : Prop} {owed : Nat → Int} {files : Nat → Option FileState} {d h i t : Nat}
variable {v : Volume} {f g : FileState} {es : List Entry} {name : String}

theorem graph_update (files : Nat → Option FileState) (h : Nat) (x : Option FileState) :
    graph (Function.update files h x) = Function.update (graph files) h (x.map FileState.node) := by
  funext k
  by_cases hk : k = h <;> simp [graph, hk]

theorem graph_eq (hf : files h = some f) : graph files h = some f.node := by
  rw [graph, hf, Option.map_some]

theorem graph_eq_some {a : Node} : graph files h = some a ↔ ∃ f, files h = some f ∧ f.node = a := by
  simp [graph]

theorem isSome_graph : (graph files h).isSome = (files h).isSome :=
  Option.isSome_map

theorem within_update (hf : files h = some f) (hd : g.isDir = f.isDir)
    (hn : f.node.names ⊆ g.node.names) :
    (graph files).Within (graph (Function.update files h (some g))) := by
  rw [graph_update]
  exact .enter (graph_eq hf) hd hn

theorem within_create (hn : files h = none) (f : FileState) :
    (graph files).Within (graph (Function.update files h (some f))) := by
  rw [graph_update]
  exact .create (by rw [graph, hn, Option.map_none]) f.node

theorem Named.within {files' : Nat → Option FileState} (hn : Named files h)
    (w : (graph files).Within (graph files')) : Named files' h :=
  hn.imp fun _ => w.names

namespace FileState

theorem names_node (hd : f.isDir) : f.node.names = Entries.used f.entries :=
  if_pos hd

theorem entries_withEntries (hs : ∀ e ∈ es, e.Storable) : (f.withEntries es).entries = es :=
  (lists_withEntries hs).entries

theorem node_withEntries (hs : ∀ e ∈ es, e.Storable) (hd : f.isDir) :
    (f.withEntries es).node = { f.node with names := Entries.used es } := by
  simp only [node, entries_withEntries hs, isDir_withEntries, hd]
  rfl

theorem directory_withEntries (hs : ∀ e ∈ es, e.Storable) (ht : Entries.Tight es)
    (h0 : es[0]? = some ⟨".", some d⟩)
    (h1 : (crooked → d = rootInode) → ∃ p, es[1]? = some ⟨"..", some p⟩)
    (hr : f.refs = 1) : (f.withEntries es).Directory crooked d where
  lists  := (entries_withEntries hs).symm ▸ lists_withEntries hs
  tight  := (entries_withEntries hs).symm ▸ ht
  first  := (entries_withEntries hs).symm ▸ h0
  second := (entries_withEntries hs).symm ▸ h1
  refs   := hr

namespace Directory

theorem insert (hd : f.Directory crooked d) {e : Entry} (he : e.Storable) (hu : ¬e.isFree) :
    (f.withEntries (Entries.insert f.entries e)).Directory crooked d := by
  refine directory_withEntries ?_ (Entries.tight_insert hd.tight hu) ?_ ?_ hd.refs
  case refine_1 => exact (hd.lists.insert he).storable
  case refine_2 => exact Entries.getElem?_insert hd.first (by simp [Entry.isFree])
  case refine_3 =>
    intro hc
    obtain ⟨p, hp⟩ := hd.second hc
    exact ⟨p, Entries.getElem?_insert hp (by simp [Entry.isFree])⟩

theorem clear (hd : f.Directory crooked d) (hi : f.entries[i]? = some ⟨name, some t⟩)
    (hp : Proper name) : (f.withEntries (Entries.clear f.entries i)).Directory crooked d := by
  have hne : ∀ k n u, f.entries[k]? = some ⟨n, some u⟩ → ¬Proper n → i ≠ k := by
    intro k n u hk hn e
    rw [e, hk] at hi
    simp only [Option.some.injEq, Entry.mk.injEq] at hi
    exact hn (hi.left ▸ hp)
  refine directory_withEntries ?_ (Entries.tight_clear _ _) ?_ ?_ hd.refs
  case refine_1 => exact hd.lists.clear.storable
  case refine_2 =>
    exact Entries.getElem?_clear hd.first (by simp [Entry.isFree]) (hne _ _ _ hd.first (by simp [Proper]))
  case refine_3 =>
    intro hc
    obtain ⟨p, hp⟩ := hd.second hc
    exact ⟨p, Entries.getElem?_clear hp (by simp [Entry.isFree]) (hne _ _ _ hp (by simp [Proper]))⟩

theorem redirect (hd : f.Directory crooked d) (hi : f.entries[i]? = some ⟨"..", some t⟩) {q : Nat}
    (hq : q < inodeCount) :
    (f.withEntries (f.entries.set i ⟨"..", some q⟩)).Directory crooked d := by
  have ⟨hlt, _⟩ := List.getElem?_eq_some_iff.mp hi
  have he : Entry.Storable ⟨"..", some q⟩ := .used (by decide) (by decide) hq
  refine directory_withEntries ?_ (Entries.tight_set hd.tight (by simp [Entry.isFree])) ?_ ?_ hd.refs
  case refine_1 => exact (hd.lists.set he).storable
  case refine_2 =>
    have : i ≠ 0 := by
      intro e
      rw [e, hd.first] at hi
      simp at hi
    rw [List.getElem?_set_ne this, hd.first]
  case refine_3 =>
    intro hc
    by_cases h1 : i = 1
    case pos => exact ⟨q, by rw [h1, List.getElem?_set_self (h1 ▸ hlt)]⟩
    case neg => simpa only [List.getElem?_set_ne h1] using hd.second hc

end Directory
end FileState

theorem Entries.storable_self (hfit : Entry.fits name) (hplain : Entry.Plain name)
    (hh : h < inodeCount) :
    ∀ e ∈ [⟨".", some h⟩, ⟨name, some h⟩, (⟨"..", some h⟩ : Entry)], e.Storable := by
  simp only [List.mem_cons, List.not_mem_nil, or_false]
  rintro e (rfl | rfl | rfl)
  case inl     => exact .used (by decide) (by decide) hh
  case inr.inl => exact .used hfit hplain hh
  case inr.inr => exact .used (by decide) (by decide) hh

namespace Arranged

theorem lists (a : Arranged crooked owed files) (hf : files d = some f) (hd : f.isDir) :
    f.Lists f.entries :=
  ((a.legal d f hf).directory hd).lists

theorem refs (a : Arranged crooked owed files) (hf : files d = some f) (hd : f.isDir) : f.refs = 1 :=
  ((a.legal d f hf).directory hd).refs

theorem refs_eq (a : Arranged crooked owed files) (hf : files h = some f) :
    (f.refs : Int) = (graph files).count h + owed h :=
  a.consistent.refs h _ (graph_eq hf)

theorem lt (a : Arranged crooked owed files) (hf : files h = some f) : h < inodeCount :=
  a.consistent.bounded h _ (graph_eq hf)

theorem distinct (a : Arranged crooked owed files) (hf : files d = some f) (hd : f.isDir) :
    ((Entries.used f.entries).map (·.1)).Nodup :=
  FileState.names_node hd ▸ a.consistent.distinct d _ (graph_eq hf)

theorem exists_target (a : Arranged crooked owed files) (hf : files d = some f) (hd : f.isDir)
    (hm : (name, t) ∈ Entries.used f.entries) : ∃ g, files t = some g := by
  rw [← FileState.names_node hd] at hm
  exact Option.isSome_iff_exists.mp (isSome_graph ▸ a.consistent.named d _ _ _ (graph_eq hf) hm)

theorem exists_root (a : Arranged crooked owed files) : ∃ f, files rootInode = some f ∧ f.isDir := by
  have ⟨_, hg, hd, _⟩ := a.consistent.root
  have ⟨f, hf, he⟩ := graph_eq_some.mp hg
  subst he
  exact ⟨f, hf, hd⟩

theorem mono (a : Arranged crooked owed files) {crooked' : Prop} (hc : crooked → crooked') :
    Arranged crooked' owed files where
  consistent := { a.consistent with ascend := fun h => a.consistent.ascend (mt hc h) }
  legal      := fun k f hf =>
    have l := a.legal k f hf
    ⟨l.kind, fun hd => { l.directory hd with second := fun h => (l.directory hd).second (h ∘ hc) }⟩

theorem legal_update (hl : ∀ k f, files k = some f → f.Legal crooked k) {x : Option FileState}
    (hx : ∀ f, x = some f → f.Legal crooked h) :
    ∀ k f, Function.update files h x k = some f → f.Legal crooked k := by
  intro k f hf
  by_cases hk : k = h
  case pos =>
    subst hk
    exact hx f (by rwa [Function.update_self] at hf)
  case neg => exact hl k f (by rwa [Function.update_of_ne hk] at hf)

theorem legal_entries (a : Arranged crooked owed files) (hf : files d = some f)
    (hd : (f.withEntries es).Directory crooked d) :
    ∀ k g, Function.update files d (some (f.withEntries es)) k = some g → g.Legal crooked k := by
  refine legal_update a.legal fun g hg => ?_
  obtain rfl := Option.some.inj hg
  exact ⟨(a.legal d f hf).kind, fun _ => hd⟩

theorem enter (a : Arranged crooked owed files) (hf : files d = some f) (hd : f.isDir)
    (hfit : Entry.fits name) (hplain : Entry.Plain name) (hp : Proper name)
    (hn : ∀ u, (name, u) ∉ Entries.used f.entries) (ht : (files t).isSome) :
    Arranged crooked (Function.update owed t (owed t - 1)) (Function.update files d
      (some (f.withEntries (Entries.insert f.entries ⟨name, some t⟩)))) := by
  have ⟨g, hg⟩ := Option.isSome_iff_exists.mp ht
  have he : Entry.Storable ⟨name, some t⟩ := .used hfit hplain (a.lt hg)
  refine ⟨?_, a.legal_entries hf (((a.legal d f hf).directory hd).insert he (by simp [Entry.isFree]))⟩
  rw [graph_update, Option.map_some, FileState.node_withEntries ((a.lists hf hd).insert he).storable hd]
  refine a.consistent.enter (graph_eq hf) hd (isSome_graph ▸ ht) hp ?_ ?_
  case refine_1 => rwa [FileState.names_node hd]
  case refine_2 => rw [FileState.names_node hd]; exact Entries.used_insert rfl

theorem within_enter (a : Arranged crooked owed files) (hf : files d = some f) (hd : f.isDir)
    (he : Entry.Storable ⟨name, some t⟩) :
    (graph files).Within (graph (Function.update files d
      (some (f.withEntries (Entries.insert f.entries ⟨name, some t⟩))))) := by
  refine within_update hf rfl ?_
  rw [FileState.node_withEntries ((a.lists hf hd).insert he).storable hd, FileState.names_node hd]
  exact List.Subset.trans (List.subset_cons_self ..) (Entries.used_insert rfl).symm.subset

theorem leave (a : Arranged crooked owed files) (hf : files d = some f) (hd : f.isDir)
    (hi : f.entries[i]? = some ⟨name, some t⟩) (hp : Proper name)
    (hu : (graph files).Up t d → t ≠ rootInode →
      ∃ n, Proper n ∧ (n, t) ∈ Entries.used (Entries.clear f.entries i)) :
    Arranged crooked (Function.update owed t (owed t + 1)) (Function.update files d
      (some (f.withEntries (Entries.clear f.entries i)))) := by
  refine ⟨?_, a.legal_entries hf (((a.legal d f hf).directory hd).clear hi hp)⟩
  rw [graph_update, Option.map_some, FileState.node_withEntries (a.lists hf hd).clear.storable hd]
  refine a.consistent.leave (graph_eq hf) hd hp ?_ hu
  rw [FileState.names_node hd]
  exact Entries.used_clear hi rfl

theorem redirect (a : Arranged crooked owed files) (hf : files d = some f) (hd : f.isDir)
    (hi : f.entries[i]? = some ⟨"..", some t⟩) {q : Nat} (hq : (graph files).IsDir q)
    (hn : (graph files).Names q d) (h0 : d ≠ rootInode)
    (hasc : ¬crooked → (graph files).Ascends (· ≠ d) q) :
    Arranged crooked owed (Function.update files d
      (some (f.withEntries (f.entries.set i ⟨"..", some q⟩)))) := by
  have hlt : q < inodeCount := have ⟨_, hq, _⟩ := hq; a.consistent.bounded q _ hq
  have he : Entry.Storable ⟨"..", some q⟩ := .used (by decide) (by decide) hlt
  refine ⟨?_, a.legal_entries hf (((a.legal d f hf).directory hd).redirect hi hlt)⟩
  rw [graph_update, Option.map_some, FileState.node_withEntries ((a.lists hf hd).set he).storable hd]
  have hold : f.node.names.Perm (("..", t) :: Entries.used (f.entries.eraseIdx i)) := by
    rw [FileState.names_node hd]
    exact Entries.used_perm hi
  exact a.consistent.redirect (graph_eq hf) hold (Entries.used_set hi _) hq hn h0 hasc

theorem revise (a : Arranged crooked owed files) (hf : files h = some f)
    (hk : Mode.kindBits g.mode = Mode.kindBits f.mode) (hr : g.refs = f.refs)
    (hb : f.isDir → g.bytes = f.bytes) : Arranged crooked owed (Function.update files h (some g)) := by
  have hd : g.isDir = f.isDir := by rw [FileState.isDir, hk]; rfl
  have he : f.isDir → g.entries = f.entries := fun h => by rw [FileState.entries, hb h]; rfl
  have hn : g.node = f.node := by
    simp only [FileState.node, hd, hr]
    split
    case isTrue h => rw [he h]
    case isFalse  => rfl
  constructor
  case consistent =>
    rw [graph_update, Option.map_some, hn, ← graph_eq hf, Function.update_eq_self]
    exact a.consistent
  case legal =>
    refine legal_update a.legal fun g' hg => ?_
    obtain rfl := Option.some.inj hg
    have l := a.legal h f hf
    refine ⟨hk ▸ l.kind, fun h' => ?_⟩
    have h := hd ▸ h'
    obtain ⟨hl, ht, h0, h1, hr1⟩ := l.directory h
    rw [← he h] at hl ht h0 h1
    exact ⟨⟨(hb h).trans hl.bytes, hl.storable⟩, ht, h0, h1, hr.trans hr1⟩

theorem claim (a : Arranged crooked owed files) (hf : files h = some f) (hd : ¬f.isDir) (refs : Nat) :
    Arranged crooked (Function.update owed h (owed h + refs - f.refs))
      (Function.update files h (some { f with refs })) := by
  constructor
  case consistent =>
    rw [graph_update, Option.map_some]
    exact a.consistent.claim (graph_eq hf) refs
  case legal =>
    refine legal_update a.legal fun g hg => ?_
    obtain rfl := Option.some.inj hg
    exact ⟨(a.legal h f hf).kind, fun h => absurd h hd⟩

theorem create (a : Arranged crooked owed files) (hn : files h = none) (hh : h < inodeCount)
    (hk : Mode.kindBits f.mode = Mode.regular) :
    Arranged crooked (Function.update owed h f.refs) (Function.update files h (some f)) := by
  have hd : ¬f.isDir := by simp [FileState.isDir, hk, Mode.regular, Mode.directory]
  have hnames : f.node.names = [] := if_neg hd
  constructor
  case consistent =>
    have := a.consistent.create (b := f.node) (by rw [graph, hn, Option.map_none]) hh
      (fun _ => hnames) (by simp [hnames]) (by simp [hnames]) (fun h => absurd h hd)
    rw [graph_update, Option.map_some]
    rwa [Node.namings, hnames, List.countP_nil, Int.natCast_zero, Int.sub_zero] at this
  case legal =>
    refine legal_update a.legal fun g hg => ?_
    obtain rfl := Option.some.inj hg
    exact ⟨.inl hk, fun h => absurd h hd⟩

theorem createCrooked (a : Arranged crooked owed files) (hn : files h = none) (hh : h < inodeCount)
    (hk : Mode.kindBits f.mode = Mode.directory) (hr : f.refs = 1) (hfit : Entry.fits name)
    (hplain : Entry.Plain name) (hp : Proper name)
    (he : es = [⟨".", some h⟩, ⟨name, some h⟩, ⟨"..", some h⟩]) :
    Arranged True (Function.update owed h 0)
      (Function.update files h (some (f.withEntries es))) := by
  have hd : f.isDir := by simp [FileState.isDir, hk]
  have hs : ∀ e ∈ es, e.Storable := he ▸ Entries.storable_self hfit hplain hh
  have hused : Entries.used es = [(".", h), (name, h), ("..", h)] := by rw [he]; rfl
  constructor
  case consistent =>
    have hnode : (f.withEntries es).node = ⟨true, 1, [(".", h), (name, h), ("..", h)]⟩ := by
      rw [FileState.node_withEntries hs hd, hused]
      simp [FileState.node, hd, hr]
    have hcount : Node.namings ⟨true, 1, [(".", h), (name, h), ("..", h)]⟩ h = 1 := by
      have : ¬Proper "." ∧ ¬Proper ".." := by decide
      simp [Node.namings, this, hp]
    have := (a.mono fun _ => trivial).consistent.create (b := ⟨true, 1, [(".", h), (name, h), ("..", h)]⟩)
      (by rw [graph, hn, Option.map_none]) hh (by simp)
      (by have := hp.left; have := hp.right; grind) (by grind)
      (fun _ => ⟨trivial, by simp, by simp, name, hp, by simp⟩)
    rw [graph_update, Option.map_some, hnode]
    rwa [hcount] at this
  case legal =>
    refine legal_update (a.mono fun _ => trivial).legal fun g hg => ?_
    obtain rfl := Option.some.inj hg
    obtain ⟨_, hroot, _⟩ := a.exists_root
    have h0 : h ≠ rootInode := fun e => by simp [← e, hn] at hroot
    refine ⟨.inr hk, fun _ => FileState.directory_withEntries hs ?_ ?_ (fun e => absurd (e trivial) h0) hr⟩
    case refine_1 => simp [he, Entries.Tight, Entry.isFree]
    case refine_2 => simp [he]

theorem make (a : Arranged crooked owed files) (hf : files d = some f) (hd : f.isDir)
    (hfit : Entry.fits name) (hplain : Entry.Plain name) (hp : Proper name)
    (hn : ∀ u, (name, u) ∉ Entries.used f.entries) (hnone : files h = none) (hh : h < inodeCount)
    (hk : Mode.kindBits g.mode = Mode.directory) (hr : g.refs = 1)
    (he : es = [⟨".", some h⟩, ⟨"..", some d⟩]) :
    Arranged crooked (Function.update owed h 0) (Function.update
      (Function.update files d (some (f.withEntries (Entries.insert f.entries ⟨name, some h⟩)))) h
      (some (g.withEntries es))) := by
  have hgd : g.isDir := by simp [FileState.isDir, hk]
  have hs : ∀ e ∈ es, e.Storable := by
    simp only [he, List.mem_cons, List.not_mem_nil, or_false]
    rintro e (rfl | rfl)
    case inl => exact .used (by decide) (by decide) hh
    case inr => exact .used (by decide) (by decide) (a.lt hf)
  have hnew : Entry.Storable ⟨name, some h⟩ := .used hfit hplain hh
  constructor
  case consistent =>
    have hnode : (g.withEntries es).node = ⟨true, 1, [(".", h), ("..", d)]⟩ := by
      rw [FileState.node_withEntries hs hgd, he]
      simp [FileState.node, hgd, hr, Entries.used, Entry.naming]
    rw [graph_update, graph_update, Option.map_some, Option.map_some, hnode,
      FileState.node_withEntries ((a.lists hf hd).insert hnew).storable hd]
    have hnames := FileState.names_node hd
    exact a.consistent.make (graph_eq hf) hd hp (hnames ▸ hn) (hnames ▸ Entries.used_insert rfl)
      (by rw [graph, hnone, Option.map_none]) hh 1
  case legal =>
    have hdir := ((a.legal d f hf).directory hd).insert hnew (by simp [Entry.isFree])
    refine legal_update (a.legal_entries hf hdir) fun g' hg' => ?_
    obtain rfl := Option.some.inj hg'
    refine ⟨.inr hk, fun _ => FileState.directory_withEntries hs ?_ ?_ (fun _ => ⟨d, ?_⟩) hr⟩
    case refine_1 => simp [he, Entries.Tight, Entry.isFree]
    case refine_2 => simp [he]
    case refine_3 => simp [he]

theorem drop (a : Arranged crooked owed files) (hf : files d = some f) (hd : f.isDir)
    (hi : f.entries[i]? = some ⟨name, some t⟩) (hp : Proper name) (hg : files t = some g)
    (hne : t ≠ d) (h0 : t ≠ rootInode)
    (hbare : g.isDir → ∀ n u, (n, u) ∈ Entries.used g.entries → ¬Proper n)
    (hlast : (graph files).count t = 1) :
    Arranged crooked owed (Function.update
      (Function.update files d (some (f.withEntries (Entries.clear f.entries i)))) t none) := by
  constructor
  case consistent =>
    rw [graph_update, graph_update, Option.map_some, Option.map_none,
      FileState.node_withEntries (a.lists hf hd).clear.storable hd]
    have hperm : f.node.names.Perm ((name, t) :: Entries.used (Entries.clear f.entries i)) := by
      rw [FileState.names_node hd]
      exact Entries.used_clear hi rfl
    refine a.consistent.drop (graph_eq hf) hp hperm (graph_eq hg) hne h0 (fun n u hm => ?_) hlast
    have hgd : g.isDir := a.consistent.isDir_of_mem (graph_eq hg) hm
    exact hbare hgd n u (FileState.names_node hgd ▸ hm)
  case legal =>
    have hdir := ((a.legal d f hf).directory hd).clear hi hp
    exact legal_update (a.legal_entries hf hdir) fun _ h => nomatch h

-- No file is ever named so often that its references could not be stored.
theorem count_le (a : Arranged crooked owed files) (hv : v.Holds files) (h : Nat) :
    (graph files).count h ≤ 0x1000000 := by
  have : ∀ d ∈ Finset.range inodeCount, ((graph files) d).elim 0 (·.namings h) ≤ 0x10000 := by
    intro d _
    cases hf : files d
    case none => simp [graph, hf]
    rename_i f
    rw [graph_eq hf, Option.elim_some, Node.namings]
    refine Nat.le_trans List.countP_le_length ?_
    by_cases hd : f.isDir
    case pos =>
      have hl := (a.lists hf hd).length
      have hmax := hv.length_le hf
      have := List.length_filterMap_le Entry.naming f.entries
      rw [FileState.names_node hd, Entries.used]
      lia
    case neg => simp [FileState.node, hd]
  have hsum := Finset.sum_le_card_nsmul _ _ _ this
  rw [Finset.card_range] at hsum
  exact hsum

end Arranged

end InodeVolume
