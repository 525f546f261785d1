import ImplicitCurves.Directory
import Mathlib.Data.List.Perm.Basic

/-!
# The order of directories

What is found in a directory, and the list of its entries by key, do not depend on the order that its
entries are in.
-/

namespace ImplicitCurves

/-! ### Lists of pairs -/

section Lookup

variable {κ ν : Type} [DecidableEq κ] {entries entries' : List (κ × ν)} {k : κ} {v : ν}

theorem mem_of_lookup_eq_some (h : entries.lookup k = some v) : (k, v) ∈ entries := by
  obtain ⟨front, behind, rfl, -⟩ := List.lookup_eq_some_iff.1 h
  exact List.mem_append_right front List.mem_cons_self

/-- With different first components, a pair is found if it is in the list. -/
theorem lookup_eq_some_iff_mem (h : entries.Pairwise fun a b => a.1 ≠ b.1) :
    entries.lookup k = some v ↔ (k, v) ∈ entries := by
  refine ⟨mem_of_lookup_eq_some, fun hmem => ?_⟩
  obtain ⟨front, behind, rfl⟩ := List.append_of_mem hmem
  refine List.lookup_eq_some_iff.2 ⟨front, behind, rfl, fun a ha => ?_⟩
  have hne := (List.pairwise_append.1 h).2.2 a ha (k, v) List.mem_cons_self
  exact bne_iff_ne.2 (Ne.symm hne)

/-- What is found among pairs with different first components does not depend on their order. -/
theorem lookup_eq_of_perm (hperm : entries.Perm entries')
    (h : entries.Pairwise fun a b => a.1 ≠ b.1) (k : κ) : entries.lookup k = entries'.lookup k := by
  have h' : entries'.Pairwise fun a b => a.1 ≠ b.1 :=
    (hperm.pairwise_iff fun hne => Ne.symm hne).1 h
  refine Option.ext fun v => ?_
  rw [lookup_eq_some_iff_mem h, lookup_eq_some_iff_mem h', hperm.mem_iff]

end Lookup

/-! ### Directories -/

namespace Directory

variable {κ ν : Type} {key : ν → κ} {d d' d'' : Directory key}

/-- The directories have the same entries, in whatever order. -/
def Same (d d' : Directory key) : Prop :=
  d.entries.Perm d'.entries

theorem Same.refl (d : Directory key) : d.Same d :=
  List.Perm.refl _

theorem Same.symm (h : d.Same d') : d'.Same d :=
  List.Perm.symm h

theorem Same.trans (h : d.Same d') (h' : d'.Same d'') : d.Same d'' :=
  List.Perm.trans h h'

theorem Same.size_eq (h : d.Same d') : d.size = d'.size :=
  List.Perm.length_eq h

theorem nodup_entries (d : Directory key) : d.entries.Nodup :=
  d.distinct.imp fun hne heq => hne (congrArg key heq)

variable [DecidableEq κ]

/-- An entry is found under its key. -/
theorem find?_eq_some_iff {k : κ} {v : ν} : d.find? k = some v ↔ v ∈ d.entries ∧ key v = k := by
  constructor
  · intro h
    unfold find? at h
    exact ⟨List.mem_of_find?_eq_some h, by simpa using List.find?_some h⟩
  · rintro ⟨hmem, rfl⟩
    obtain ⟨front, behind, hentries⟩ := List.append_of_mem hmem
    have hdistinct := d.distinct
    rw [hentries] at hdistinct
    refine List.find?_eq_some_iff_append.2 ⟨decide_eq_true rfl, front, behind, hentries, ?_⟩
    intro w hw
    exact bne_iff_ne.2 ((List.pairwise_append.1 hdistinct).2.2 w hw v List.mem_cons_self)

/-- Directories are the same if the same is found in them. -/
theorem same_iff : d.Same d' ↔ ∀ k, d.find? k = d'.find? k := by
  constructor
  · intro h k
    refine Option.ext fun v => ?_
    rw [find?_eq_some_iff, find?_eq_some_iff, List.Perm.mem_iff h]
  · intro h
    refine (List.perm_ext_iff_of_nodup d.nodup_entries d'.nodup_entries).2 fun v => ?_
    have hv := h (key v)
    constructor
    · intro hmem
      exact (find?_eq_some_iff.1 (hv.symm.trans (find?_eq_some_iff.2 ⟨hmem, rfl⟩))).1
    · intro hmem
      exact (find?_eq_some_iff.1 (hv.trans (find?_eq_some_iff.2 ⟨hmem, rfl⟩))).1

theorem Same.find?_eq (h : d.Same d') (k : κ) : d.find? k = d'.find? k :=
  same_iff.1 h k

theorem Same.contains_eq (h : d.Same d') (k : κ) : d.contains k = d'.contains k := by
  rw [contains, contains, h.find?_eq]

theorem Same.insert (h : d.Same d') (v : ν) : (d.insert v).Same (d'.insert v) := by
  refine same_iff.2 fun k => ?_
  rw [find?_insert, find?_insert, h.find?_eq]

/-- The list of the entries by key does not depend on the order that they are in. -/
theorem Same.sorted_eq [Ord κ] [Std.TransOrd κ] [Std.LawfulEqOrd κ] (h : d.Same d') :
    d.sorted = d'.sorted := by
  have htrans : ∀ u v w : ν, (compare (key u) (key v)).isLE = true →
      (compare (key v) (key w)).isLE = true → (compare (key u) (key w)).isLE = true :=
    fun _ _ _ => Std.TransCmp.isLE_trans
  have htotal : ∀ v w : ν,
      ((compare (key v) (key w)).isLE || (compare (key w) (key v)).isLE) = true := by
    intro v w
    have hswap : compare (key w) (key v) = (compare (key v) (key w)).swap := Std.OrientedCmp.eq_swap
    rw [hswap]
    cases compare (key v) (key w) <;> rfl
  have hperm : d.sorted.Perm d'.sorted :=
    (List.mergeSort_perm _ _).trans (List.Perm.trans h (List.mergeSort_perm _ _).symm)
  refine hperm.eq_of_pairwise ?_ (List.pairwise_mergeSort htrans htotal _)
    (List.pairwise_mergeSort htrans htotal _)
  intro v w hv hw hle hge
  have hkey : key v = key w :=
    Std.LawfulEqCmp.eq_of_compare (Std.OrientedCmp.isLE_antisymm hle hge)
  have hv : v ∈ d.entries := (List.mergeSort_perm _ _).mem_iff.1 hv
  have hw : w ∈ d.entries := List.Perm.mem_iff (List.Perm.symm h) |>.1
    ((List.mergeSort_perm _ _).mem_iff.1 hw)
  exact Option.some.inj ((find?_eq_some_iff.2 ⟨hv, hkey⟩).symm.trans
    (find?_eq_some_iff.2 ⟨hw, rfl⟩))

end Directory

end ImplicitCurves
