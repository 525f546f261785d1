/-!
# Directories

A directory is a finite collection of entries with at most one entry for each key.  Its entries are in
some order that means nothing: what is to be shown in order is sorted by key first.
-/

namespace ImplicitCurves

variable {κ ν : Type} [DecidableEq κ]

/-- Entries with different keys, in any order. -/
structure Directory (key : ν → κ) where
  entries : List ν
  distinct : entries.Pairwise fun v w => key v ≠ key w

namespace Directory

variable {key : ν → κ}

/-- The directory without entries. -/
def empty : Directory key := ⟨[], .nil⟩

instance : Inhabited (Directory key) := ⟨empty⟩

/-- The entry with the given key. -/
def find? (d : Directory key) (k : κ) : Option ν :=
  d.entries.find? fun v => key v = k

/-- Whether there is an entry with the given key. -/
def contains (d : Directory key) (k : κ) : Bool :=
  (d.find? k).isSome

/-- The number of entries. -/
def size (d : Directory key) : Nat :=
  d.entries.length

/-- Whether there are no entries. -/
def isEmpty (d : Directory key) : Bool :=
  d.entries.isEmpty

/-- The entries in the order of their keys. -/
def sorted [Ord κ] (d : Directory key) : List ν :=
  d.entries.mergeSort fun v w => (compare (key v) (key w)).isLE

/-- Puts an entry in the place of the one with its key, or behind all others. -/
def put (key : ν → κ) (v : ν) : List ν → List ν
  | [] => [v]
  | w :: ws => if key w = key v then v :: ws else w :: put key v ws

theorem key_of_mem_put {v w : ν} {vs : List ν} (h : w ∈ put key v vs) :
    key w = key v ∨ w ∈ vs := by
  induction vs with
  | nil => exact .inl (congrArg key (List.mem_singleton.1 h))
  | cons u us ih =>
    rw [put] at h
    split at h
    · exact (List.mem_cons.1 h).imp (congrArg key) (List.mem_cons_of_mem u)
    · rcases List.mem_cons.1 h with h | h
      · exact .inr (h ▸ List.mem_cons_self)
      · exact (ih h).imp_right (List.mem_cons_of_mem u)

theorem pairwise_put {v : ν} {vs : List ν} (h : vs.Pairwise fun u w => key u ≠ key w) :
    (put key v vs).Pairwise fun u w => key u ≠ key w := by
  induction vs with
  | nil => exact List.pairwise_singleton _ v
  | cons w ws ih =>
    obtain ⟨hw, hws⟩ := List.pairwise_cons.1 h
    rw [put]
    split
    · next heq => exact List.pairwise_cons.2 ⟨fun u hu => heq ▸ hw u hu, hws⟩
    · next hne =>
      refine List.pairwise_cons.2 ⟨fun u hu => ?_, ih hws⟩
      rcases key_of_mem_put hu with hu | hu
      · exact hu ▸ hne
      · exact hw u hu

/-- Adds an entry, in place of an entry with its key. -/
def insert (d : Directory key) (v : ν) : Directory key :=
  ⟨put key v d.entries, pairwise_put d.distinct⟩

/-- An entry that is added is found under its key, and all others are found as before. -/
theorem find?_insert (d : Directory key) (v : ν) (k : κ) :
    (d.insert v).find? k = if key v = k then some v else d.find? k := by
  obtain ⟨vs, hdistinct⟩ := d
  change (put key v vs).find? (fun w => key w = k) =
    if key v = k then some v else vs.find? fun w => key w = k
  clear hdistinct
  induction vs with
  | nil => by_cases hv : key v = k <;> simp [put, hv]
  | cons w ws ih =>
    rw [put]
    by_cases hw : key w = key v
    · by_cases hv : key v = k <;> simp [hw, hv]
    · rw [if_neg hw]
      by_cases hk : key w = k
      · have hv : key v ≠ k := fun hv => hw (hk.trans hv.symm)
        simp [hk, hv]
      · rw [List.find?_cons_of_neg (by simpa using hk), ih,
          List.find?_cons_of_neg (by simpa using hk)]

/-- Removes the entry with the given key. -/
def erase (d : Directory key) (k : κ) : Directory key :=
  ⟨d.entries.filter fun v => key v ≠ k, d.distinct.filter _⟩

/-- Adds the entries of a list from left to right, so the last one with a key stays. -/
def insertMany (d : Directory key) (vs : List ν) : Directory key :=
  vs.foldl insert d

/-- The directory of the entries of a list. -/
def ofList (vs : List ν) : Directory key :=
  empty.insertMany vs

end Directory

end ImplicitCurves
