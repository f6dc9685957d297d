import InodeVolume.Kernel.Request
import InodeVolume.Proofs.Tree.Isolation

namespace InodeVolume

open VolumeM Volume

theorem Mode.kindBits_or_permissions_and {bits : UInt32} (hb : kindBits bits = bits)
    (mode mask : UInt32) : kindBits (bits ||| permissions mode &&& mask) = bits := by
  have : permissions mode &&& mask = permissions (mode &&& mask) := by
    rw [permissions, permissions, UInt32.and_assoc, UInt32.and_comm _ mask, UInt32.and_assoc]
  rw [this, kindBits_or_permissions hb]

namespace Kernel

variable {v : Volume} {crooked : Prop} {owed : Nat → Int} {files : Nat → Option FileState}
variable {d k n room t : Nat} {f : FileState} {name : String} {e : ListedEntry}
variable {listed : List ListedEntry}

def Attributes.kind (a : Attributes) : NodeKind :=
  .ofMode a.mode

theorem Attributes.kind_ofStat {s : Stat}
    (hk : Mode.kindBits s.mode = Mode.regular ∨ Mode.kindBits s.mode = Mode.directory) :
    (ofStat s).kind = s.kind ∧ s.kind.reported = s.kind := by
  have hbits : ∀ bits : UInt32, Mode.kindBits bits = bits → kindBits s.kind = bits →
      Mode.kindBits (ofStat s).mode = bits := by
    intro bits hb hs
    rw [ofStat, hs, Mode.kindBits_or_permissions_and hb]
  cases hk
  case inl hk =>
    have hs : s.kind = .regular := by rw [Stat.kind, NodeKind.ofMode, if_pos (.inr hk)]
    refine ⟨?_, by rw [hs]; rfl⟩
    rw [hs, kind, NodeKind.ofMode, if_pos (.inr (hbits Mode.regular rfl (by rw [hs]; rfl)))]
  case inr hk =>
    have hs : s.kind = .directory := NodeKind.ofMode_eq_directory.mpr hk
    refine ⟨?_, by rw [hs]; rfl⟩
    rw [hs, kind, NodeKind.ofMode_eq_directory]
    exact hbits Mode.directory rfl (by rw [hs]; rfl)

namespace Listing

theorem page_isPrefix (room : Nat) (listed : List ListedEntry) : page room listed <+: listed := by
  induction listed generalizing room
  case nil => exact List.prefix_rfl
  case cons e listed hi =>
    rw [page]
    split
    case isTrue  => exact (List.prefix_cons_inj e).mpr (hi _)
    case isFalse => exact List.nil_prefix

theorem page_eq_nil (hs : ∀ e ∈ listed, e.size ≤ room) : page room listed = [] ↔ listed = [] := by
  cases listed
  case nil => exact .rfl
  case cons e listed =>
    rw [page, if_pos (hs e List.mem_cons_self)]
    simp

theorem number_drop {es : List (String × Nat)} (h : number v n es = .ok listed) (k : Nat) :
    number v (n + k) (es.drop k) = .ok (listed.drop k) := by
  induction k generalizing n es listed
  case zero => exact h
  case succ k hi =>
    cases es
    case nil =>
      obtain rfl := Except.ok.inj h
      rfl
    case cons x es =>
      have ⟨_, _, h⟩ := Except.bind_eq_ok_iff.mp h
      have ⟨rest, hrest, h⟩ := Except.bind_eq_ok_iff.mp h
      obtain rfl := Except.ok.inj h
      rw [List.drop_succ_cons, List.drop_succ_cons, ← hi hrest]
      congr 1
      omega

end Listing

structure Describes (v : Volume) (d : Nat) (entry : (String × Nat) × Nat) (e : ListedEntry) :
    Prop where
  name   : e.name = entry.1.1
  id     : e.id = nodeId entry.1.2
  offset : e.offset = entry.2 + 1
  kind   : ∃ s, Tree.stat v entry.1.2 = .ok s ∧ e.kind = s.kind
  lookup : ∃ a, Request.serve (.lookup (nodeId d) (Utf8.bytes entry.1.1)) v = (.ok (.entry a), v) ∧
    a.id = e.id ∧ a.kind = e.kind

theorem serve_readdir {es : List (String × Nat)} (hd : d < inodeCount)
    (hl : Tree.list v d = .ok es) (hn : Listing.number v 0 es = .ok listed) (k room : Nat) :
    Request.serve (.readdir (nodeId d) k room) v =
      (.ok (.listing (Listing.page room (listed.drop k))), v) := by
  have hid : inodeOf (nodeId d) = return d := if_pos (by rw [nodeId]; lia)
  have hoff : offsetOf (k : Int) = return k := if_neg (by omega)
  have hdrop := Listing.number_drop hn k
  rw [Nat.zero_add] at hdrop
  simp only [Request.serve, hid, hoff, pure_bind]
  simp [query, Listing.read, hl, hdrop, bind, Except.bind, pure, Except.pure]

end Kernel

namespace Arranged

variable {v : Volume} {crooked : Prop} {owed : Nat → Int} {files : Nat → Option FileState}
variable {d t : Nat} {f : FileState} {name : String}

open Kernel

theorem serve_lookup (a : Arranged crooked owed files) (hv : v.Holds files) (hf : files d = some f)
    (hd : f.isDir) (hm : (name, t) ∈ Entries.used f.entries) :
    ∃ s, Tree.stat v t = .ok s ∧ s.kind.reported = s.kind ∧ (Attributes.ofStat s).kind = s.kind ∧
      Request.serve (.lookup (nodeId d) (Utf8.bytes name)) v =
        (.ok (.entry (.ofStat s)), v) := by
  have ⟨g, hg⟩ := a.exists_target hf hd hm
  have ⟨hkind, hreported⟩ := Attributes.kind_ofStat (s := (g.view t).stat) (a.legal t g hg).kind
  have ⟨i, hfind⟩ := Entries.find_of_mem (a.distinct hf hd) hm
  have hid : inodeOf (nodeId d) = return d := if_pos (by have := a.lt hf; rw [nodeId]; lia)
  have hname : nameOf (Utf8.bytes name) = return name := by rw [nameOf, Utf8.decode?_bytes]
  have hlookup : Tree.lookup v d name = .ok t := by rw [a.lookup_eq hv hf hd, hfind]
  refine ⟨_, hv.stat hg, hreported, hkind, ?_⟩
  have hfound : (query (Tree.lookup · d name)) v = (.ok t, v) := by rw [query, hlookup]
  have hstat : (query (Tree.stat · t)) v = (.ok (g.view t).stat, v) := by rw [query, hv.stat hg]
  simp only [Request.serve, hid, hname, pure_bind, Kernel.attributes]
  simp only [bind_apply, hfound, hstat, pure_apply]

theorem number_eq (a : Arranged crooked owed files) (hv : v.Holds files) (hf : files d = some f)
    (hd : f.isDir) {es : List (String × Nat)} (hes : es ⊆ Entries.used f.entries) (n : Nat) :
    ∃ listed, Listing.number v n es = .ok listed ∧
      List.Forall₂ (Describes v d) (es.zipIdx n) listed := by
  induction es generalizing n
  case nil => exact ⟨[], rfl, .nil⟩
  case cons x es hi =>
    obtain ⟨name, t⟩ := x
    have ⟨listed, hn, hl⟩ := hi (fun _ h => hes (List.mem_cons_of_mem _ h)) (n + 1)
    have ⟨s, hs, hr, hk, hserve⟩ := a.serve_lookup hv hf hd (hes List.mem_cons_self)
    have hinode : s.inode = t := by
      have ⟨_, _, hs⟩ := Except.bind_eq_ok_iff.mp hs
      have ⟨_, _, hs⟩ := Except.bind_eq_ok_iff.mp hs
      exact (congrArg Stat.inode (Except.ok.inj hs)).symm
    refine ⟨⟨nodeId t, n + 1, s.kind.reported, name⟩ :: listed, ?_, ?_⟩
    case refine_1 => simp [Listing.number, hs, hn, bind, Except.bind, pure, Except.pure]
    case refine_2 =>
      refine .cons ⟨rfl, rfl, rfl, ⟨s, hs, hr⟩, _, hserve, ?_, hk.trans hr.symm⟩ hl
      rw [Attributes.ofStat, hinode]

end Arranged

namespace Tree

variable {v : Volume} {d : Nat}

open Kernel

theorem Reachable.isDir_root (r : Reachable v) : v.isDir rootInode = .ok true := by
  have ⟨_, run⟩ := r
  have ⟨_, hv, _, a, _⟩ := run.settled
  have ⟨_, hf, hd⟩ := a.exists_root
  rw [hv.isDir hf, hd]

end Tree
end InodeVolume
