import InodeVolume.Directory.Update
import InodeVolume.Proofs.Directory.Entry
import Mathlib.Data.List.DropRight
import Mathlib.Data.List.Perm.Basic

namespace InodeVolume

def Entry.naming (e : Entry) : Option (String × Nat) :=
  e.inode.map (e.name, ·)

theorem Entry.isFree_iff {e : Entry} : e.isFree ↔ e.naming = none := by
  simp [isFree, naming]

namespace Entries

def used (es : List Entry) : List (String × Nat) :=
  es.filterMap Entry.naming

def find (es : List Entry) (name : String) : Option (Nat × Nat) :=
  es.zipIdx.findSome? fun (e, i) => if e.name = name then e.inode.map (i, ·) else none

def insert (es : List Entry) (e : Entry) : List Entry :=
  match es.findIdx? Entry.isFree with
  | some i => es.set i e
  | none   => es ++ [e]

def place (es : List Entry) : Nat :=
  (es.findIdx? Entry.isFree).getD es.length

def clear (es : List Entry) (i : Nat) : List Entry :=
  (es.set i .free).rdropWhile Entry.isFree

def Tight (es : List Entry) : Prop :=
  ∀ e ∈ es.getLast?, ¬e.isFree

variable {es : List Entry} {d e : Entry} {i k t : Nat} {name : String}

@[simp]
theorem used_nil : used [] = [] := rfl

theorem used_append (es fs : List Entry) : used (es ++ fs) = used es ++ used fs :=
  List.filterMap_append

theorem used_cons (e : Entry) (es : List Entry) : used (e :: es) = e.naming.toList ++ used es := by
  cases h : e.naming <;> simp [used, h]

theorem map_fst_used (es : List Entry) :
    (used es).map (·.1) = (es.filter fun e => !e.isFree).map Entry.name := by
  induction es
  case nil => rfl
  case cons e es hi =>
    obtain ⟨n, o⟩ := e
    cases o
    case none   => exact hi
    case some t => exact congrArg (n :: ·) hi

theorem mem_used : (name, t) ∈ used es ↔ (⟨name, some t⟩ : Entry) ∈ es := by
  simp only [used, List.mem_filterMap, Entry.naming, Option.map_eq_some_iff, Prod.mk.injEq]
  constructor
  case mp =>
    intro ⟨⟨n, o⟩, he, x, ho, hn, hx⟩
    simp only at ho hn
    rwa [ho, hn, hx] at he
  case mpr => exact fun h => ⟨_, h, t, rfl, rfl, rfl⟩

theorem used_perm (h : es[i]? = some e) :
    (used es).Perm (e.naming.toList ++ used (es.eraseIdx i)) := by
  have ⟨fs, gs, hes, hi⟩ := split h
  have he : es.eraseIdx i = fs ++ gs := by
    rw [hes, List.eraseIdx_append_of_length_le (Nat.le_of_eq hi), hi, Nat.sub_self]
    rfl
  rw [he, hes, used_append, used_cons, used_append, ← List.append_assoc, ← List.append_assoc]
  exact List.Perm.append_right _ List.perm_append_comm

theorem used_set (h : es[i]? = some e) (d : Entry) :
    (used (es.set i d)).Perm (d.naming.toList ++ used (es.eraseIdx i)) := by
  have ⟨hi, _⟩ := List.getElem?_eq_some_iff.mp h
  have hd : (es.set i d)[i]? = some d := by simp [hi]
  have := used_perm hd
  rwa [List.eraseIdx_set_eq] at this

theorem place_cases (es : List Entry) (e : Entry) :
    (∃ fs x gs, es = fs ++ x :: gs ∧ x.isFree ∧ place es = fs.length ∧ insert es e = fs ++ e :: gs) ∨
      (∀ x ∈ es, ¬x.isFree) ∧ place es = es.length ∧ insert es e = es ++ [e] := by
  rw [place, insert]
  cases h : es.findIdx? Entry.isFree
  case none => exact .inr ⟨fun x hx => by simpa using List.findIdx?_eq_none_iff.mp h x hx, rfl, rfl⟩
  case some i =>
    obtain ⟨hi, hfree, _⟩ := List.findIdx?_eq_some_iff_getElem.mp h
    obtain ⟨fs, gs, hes, hfs⟩ := split (List.getElem?_eq_getElem hi)
    refine .inl ⟨fs, es[i], gs, hes, hfree, hfs.symm, ?_⟩
    dsimp only
    generalize es[i] = x at hes
    rw [hes, ← hfs]
    simp

theorem used_insert_split (es : List Entry) (d : Entry) :
    ∃ before after, used es = before ++ after ∧
      used (insert es d) = before ++ (d.naming.toList ++ after) := by
  rcases place_cases es d with ⟨fs, x, gs, hes, hx, _, hi⟩ | ⟨_, _, hi⟩
  case inl =>
    refine ⟨used fs, used gs, ?_, ?_⟩
    case refine_1 => rw [hes, used_append, used_cons, Entry.isFree_iff.mp hx]; rfl
    case refine_2 => rw [hi, used_append, used_cons]
  case inr =>
    refine ⟨used es, [], by simp, ?_⟩
    rw [hi, used_append, used_cons, used_nil]

theorem used_insert (hd : d.naming = some (name, t)) :
    (used (insert es d)).Perm ((name, t) :: used es) := by
  have ⟨before, after, hes, hi⟩ := used_insert_split es d
  rw [hi, hes, hd]
  exact List.perm_middle

theorem used_rdropWhile (es : List Entry) : used (es.rdropWhile Entry.isFree) = used es := by
  conv => rhs; rw [← List.rdropWhile_append_rtakeWhile (p := Entry.isFree) (l := es), used_append]
  have : used (es.rtakeWhile Entry.isFree) = [] := by
    rw [used, List.filterMap_eq_nil_iff]
    exact fun e he => Entry.isFree_iff.mp (List.mem_rtakeWhile_imp he)
  rw [this, List.append_nil]

theorem used_clear_split (h : es[i]? = some e) :
    ∃ before after, used es = before ++ (e.naming.toList ++ after) ∧
      used (clear es i) = before ++ after := by
  have ⟨fs, gs, hes, hi⟩ := split h
  have hset : es.set i .free = fs ++ .free :: gs := by rw [hes, ← hi]; simp
  refine ⟨used fs, used gs, by rw [hes, used_append, used_cons], ?_⟩
  rw [clear, used_rdropWhile, hset, used_append, used_cons]
  rfl

theorem used_clear (h : es[i]? = some e) (he : e.naming = some (name, t)) :
    (used es).Perm ((name, t) :: used (clear es i)) := by
  have ⟨before, after, hes, hc⟩ := used_clear_split h
  rw [hc, hes, he]
  exact List.perm_middle

theorem used_clear_eq (hn : ((used es).map (·.1)).Nodup) (h : es[i]? = some ⟨name, some t⟩) :
    used (clear es i) = (used es).filter fun u => u.1 ≠ name := by
  have ⟨before, after, hes, hc⟩ := used_clear_split h
  have hes : used es = before ++ (name, t) :: after := hes
  rw [hes, List.map_append, List.map_cons, List.nodup_middle, List.nodup_cons, List.mem_append] at hn
  have hall : ∀ l : List (String × Nat), name ∉ l.map (·.1) → l.filter (fun u => u.1 ≠ name) = l := by
    intro l hl
    refine List.filter_eq_self.mpr fun u hu => decide_eq_true fun e => hl ?_
    exact e ▸ List.mem_map_of_mem hu
  have hb := hall before (mt .inl hn.left)
  have ha := hall after (mt .inr hn.left)
  rw [hc, hes, List.filter_append, List.filter_cons_of_neg (by simp), hb, ha]

theorem mem_used_clear {other : String} {u : Nat} (h : es[i]? = some ⟨name, some t⟩)
    (hm : (other, u) ∈ used es) (hne : other ≠ name) : (other, u) ∈ used (clear es i) :=
  (List.mem_cons.mp ((used_clear h rfl).mem_iff.mp hm)).resolve_left fun he =>
    hne (Prod.mk.inj he).left

theorem tight_clear (es : List Entry) (i : Nat) : Tight (clear es i) := by
  intro e he
  have hn : clear es i ≠ [] := by
    intro h
    simp [h] at he
  rw [List.getLast?_eq_some_getLast hn, Option.mem_some_iff] at he
  exact he ▸ List.rdropWhile_last_not Entry.isFree _ hn

theorem find_eq_some (h : find es name = some (i, t)) : es[i]? = some ⟨name, some t⟩ := by
  have ⟨⟨e, j⟩, hm, he⟩ := List.exists_of_findSome?_eq_some h
  simp only at he
  split at he
  case isFalse => contradiction
  case isTrue hn =>
    have ⟨u, hu, hj⟩ := Option.map_eq_some_iff.mp he
    have ⟨hji, hut⟩ := Prod.mk.inj hj
    have := List.mem_zipIdx_iff_getElem?.mp hm
    rw [← hji, this, ← hn, ← hut, ← hu]

theorem mem_used_of_find (h : find es name = some (i, t)) : (name, t) ∈ used es :=
  mem_used.mpr (List.mem_of_getElem? (find_eq_some h))

theorem find_eq_none : find es name = none ↔ ∀ t, (name, t) ∉ used es := by
  simp only [find, List.findSome?_eq_none_iff, mem_used]
  constructor
  case mp =>
    intro h t hm
    have ⟨i, hi⟩ := List.getElem?_of_mem hm
    simpa using h (_, i) (List.mem_zipIdx_iff_getElem?.mpr hi)
  case mpr =>
    intro h ⟨e, i⟩ hm
    have hm := List.mem_of_getElem? (List.mem_zipIdx_iff_getElem?.mp hm)
    obtain ⟨n, o⟩ := e
    simp only at hm ⊢
    split
    case isFalse => rfl
    case isTrue hn =>
      subst hn
      cases o
      case none => rfl
      case some => exact absurd hm (h _)

theorem target_unique (hn : ((used es).map (·.1)).Nodup) {u : Nat} (h : (name, t) ∈ used es)
    (h' : (name, u) ∈ used es) : t = u :=
  (Prod.mk.inj (List.inj_on_of_nodup_map hn h h' rfl)).right

theorem find_of_mem (hn : ((used es).map (·.1)).Nodup) (h : (name, t) ∈ used es) :
    ∃ i, find es name = some (i, t) := by
  cases hf : find es name
  case none => exact absurd h (find_eq_none.mp hf t)
  case some p =>
    obtain ⟨i, u⟩ := p
    exact ⟨i, by rw [target_unique hn h (mem_used_of_find hf)]⟩

theorem exists_find_clear (hn : ((used es).map (·.1)).Nodup) (hi : es[i]? = some ⟨name, some t⟩)
    {other : String} {u : Nat} (h : find es other = some (k, u)) (hne : other ≠ name) :
    ∃ j, find (clear es i) other = some (j, u) := by
  rw [((used_clear hi rfl).map _).nodup_iff, List.map_cons, List.nodup_cons] at hn
  exact find_of_mem hn.right (mem_used_clear hi (mem_used_of_find h) hne)

theorem any_name_iff : (es.any fun e => !e.isFree && e.name = name) ↔ ∃ t, (name, t) ∈ used es := by
  simp only [List.any_eq_true, mem_used, Entry.isFree, Bool.and_eq_true, Bool.not_eq_true',
    Option.isNone_eq_false_iff, Option.isSome_iff_exists, decide_eq_true_eq]
  constructor
  case mp =>
    rintro ⟨⟨n, o⟩, he, ⟨t, ht⟩, hn⟩
    simp only at ht hn
    exact ⟨t, by rwa [ht, hn] at he⟩
  case mpr =>
    rintro ⟨t, h⟩
    exact ⟨_, h, ⟨t, rfl⟩, rfl⟩

theorem mem_insert (h : e ∈ insert es d) : e ∈ es ∨ e = d := by
  rw [insert] at h
  split at h
  case h_1 => exact List.mem_or_eq_of_mem_set h
  case h_2 => simpa using h

theorem mem_clear (h : e ∈ clear es i) : e ∈ es ∨ e = .free :=
  List.mem_or_eq_of_mem_set ((List.rdropWhile_prefix Entry.isFree _).subset h)

theorem getElem?_insert_of_ne (e : Entry) (hk : k ≠ place es) : (insert es e)[k]? = es[k]? := by
  rcases place_cases es e with ⟨fs, x, gs, hes, _, hp, hi⟩ | ⟨_, hp, hi⟩
  case inl =>
    rw [hi, hes, List.getElem?_append, List.getElem?_append]
    split
    case isTrue  => rfl
    case isFalse =>
      obtain ⟨j, hj⟩ := Nat.exists_eq_succ_of_ne_zero (n := k - fs.length) (by omega)
      rw [hj, List.getElem?_cons_succ, List.getElem?_cons_succ]
  case inr =>
    rw [hi, List.getElem?_append]
    split
    case isTrue  => rfl
    case isFalse => rw [List.getElem?_eq_none (by simp; omega), List.getElem?_eq_none (by omega)]

theorem getElem?_insert (h : es[k]? = some e) (he : ¬e.isFree) : (insert es d)[k]? = some e := by
  have ⟨hk, hek⟩ := List.getElem?_eq_some_iff.mp h
  rw [insert]
  split
  case h_1 i hi =>
    have ⟨hlt, hfree, _⟩ := List.findIdx?_eq_some_iff_getElem.mp hi
    have : i ≠ k := by
      intro e
      subst e
      exact he (hek ▸ hfree)
    rw [List.getElem?_set_ne this, h]
  case h_2 => rw [List.getElem?_append_left hk, h]

theorem getElem?_rdropWhile (h : es[k]? = some e) (he : ¬e.isFree) :
    (es.rdropWhile Entry.isFree)[k]? = some e := by
  have hs := List.rdropWhile_append_rtakeWhile (p := Entry.isFree) (l := es)
  have h' := h
  rw [← hs] at h'
  rcases Nat.lt_or_ge k (es.rdropWhile Entry.isFree).length with hk | hk
  case inl => rwa [List.getElem?_append_left hk] at h'
  case inr =>
    rw [List.getElem?_append_right hk] at h'
    exact absurd (List.mem_rtakeWhile_imp (List.mem_of_getElem? h')) he

theorem getElem?_clear (h : es[k]? = some e) (he : ¬e.isFree) (hk : i ≠ k) :
    (clear es i)[k]? = some e :=
  getElem?_rdropWhile (by rw [List.getElem?_set_ne hk, h]) he

theorem rdropWhile_of_tight (h : Tight es) : es.rdropWhile Entry.isFree = es :=
  List.rdropWhile_eq_self_iff.mpr fun hl => h _ (List.getLast?_eq_some_getLast hl)

theorem tight_set (h : Tight es) (hd : ¬d.isFree) : Tight (es.set i d) := by
  intro e he
  rw [Option.mem_def, List.getLast?_eq_getElem?, List.length_set, List.getElem?_set] at he
  split at he
  case isTrue hl => simp at he; grind
  case isFalse   => exact h e (by rwa [Option.mem_def, List.getLast?_eq_getElem?])

theorem tight_insert (h : Tight es) (hd : ¬d.isFree) : Tight (insert es d) := by
  rw [insert]
  split
  case h_1 => exact tight_set h hd
  case h_2 => simpa [Tight] using hd

theorem clear_set (hk : (clear es i)[k]? = some e) (he : ¬e.isFree) (hd : ¬d.isFree) :
    es[k]? = some e ∧ (clear es i).set k d = clear (es.set k d) i := by
  have htight := tight_clear es i
  have hsplit := List.rdropWhile_append_rtakeWhile (p := Entry.isFree) (l := es.set i .free)
  have hfree : ∀ x ∈ ((es.set i .free).rtakeWhile Entry.isFree).reverse, x.isFree :=
    fun x hx => List.mem_rtakeWhile_imp (List.mem_reverse.mp hx)
  rw [clear] at hk htight ⊢
  generalize (es.set i .free).rdropWhile Entry.isFree = fs at *
  generalize (es.set i .free).rtakeWhile Entry.isFree = gs at *
  have ⟨hlt, _⟩ := List.getElem?_eq_some_iff.mp hk
  have hl : (es.set i .free)[k]? = some e := by rw [← hsplit, List.getElem?_append_left hlt, hk]
  have hik : i ≠ k := by
    intro h
    subst h
    have ⟨_, hx⟩ := List.getElem?_eq_some_iff.mp hl
    rw [List.getElem_set_self] at hx
    exact he (hx ▸ rfl)
  rw [List.getElem?_set_ne hik] at hl
  refine ⟨hl, ?_⟩
  rw [clear, List.set_comm _ _ hik.symm, ← hsplit, List.set_append_left _ _ hlt, List.rdropWhile,
    List.reverse_append, List.dropWhile_append_of_pos hfree]
  exact (rdropWhile_of_tight (tight_set htight hd)).symm

end Entries
end InodeVolume
