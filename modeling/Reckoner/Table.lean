import Reckoner.Trie

/-!
# Tables of values

A table is a finite map from argument lists to values: a tree of the lists, with the number of its
values beside it.  Lists are keyed by the value of their numbers, and entries come in ascending
order of the lists, a list before its extensions.
-/

namespace Reckoner

/-- A finite map from argument lists to values. -/
structure Table where
  root : Trie
  size : Nat
  wellFormed : root.WellFormed
  size_eq : size = (root.walk []).length

namespace Table

def empty : Table := ⟨.empty, 0, Trie.wellFormed_empty, rfl⟩

def isEmpty (t : Table) : Bool := t.size == 0

/-- The value at an argument list. -/
def find? (t : Table) (args : List Number) : Option Number := t.root.find? args

def put (t : Table) (args : List Number) (value : Number) : Table where
  root := t.root.insert value args
  size := t.size + if (t.root.find? args).isSome then 0 else 1
  wellFormed := t.wellFormed.insert value args
  size_eq := by rw [Trie.length_walk_insert, t.size_eq]

/-- The entries in ascending order of their argument lists. -/
def entries (t : Table) : List (List Number × Number) := t.root.walk []

/-- The table with the entries of another one put over it. -/
def adopt (t other : Table) : Table :=
  other.entries.foldl (fun t entry => t.put entry.1 entry.2) t

@[simp] theorem find?_empty (args : List Number) : empty.find? args = none :=
  Trie.find?_empty args

theorem find?_put (t : Table) (args key : List Number) (value : Number) :
    (t.put args value).find? key = if args = key then some value else t.find? key :=
  Trie.find?_insert t.root args key value

@[simp] theorem find?_put_self (t : Table) (args : List Number) (value : Number) :
    (t.put args value).find? args = some value := by
  rw [find?_put, if_pos rfl]

theorem length_entries (t : Table) : t.entries.length = t.size := t.size_eq.symm

theorem mem_entries {t : Table} {args : List Number} {value : Number} :
    (args, value) ∈ t.entries ↔ t.find? args = some value := by
  unfold entries
  rw [t.wellFormed.mem_walk]
  simp [find?]

theorem ext_find? {t u : Table} (h : ∀ args, t.find? args = u.find? args) : t = u := by
  obtain ⟨root, size, hroot, hsize⟩ := t
  obtain ⟨root', size', hroot', hsize'⟩ := u
  cases hroot.ext_find? hroot' h
  cases hsize.trans hsize'.symm
  rfl

theorem eq_empty_of_find? {t : Table} (h : ∀ args value, t.find? args ≠ some value) :
    t = .empty := by
  refine ext_find? fun args => ?_
  rw [find?_empty, Option.eq_none_iff_forall_ne_some]
  exact h args

/-- Entries that agree on the value at each argument list can be put in any order. -/
theorem find?_foldl_put {entries : List (List Number × Number)}
    {value : List Number → Option Number} (h : ∀ entry ∈ entries, value entry.1 = some entry.2)
    (t : Table) (args : List Number) :
    (entries.foldl (fun t entry => t.put entry.1 entry.2) t).find? args =
      if args ∈ entries.map (·.1) then value args else t.find? args := by
  induction entries generalizing t with
  | nil => rfl
  | cons entry entries ih =>
    have hentry := h entry List.mem_cons_self
    rw [List.foldl_cons, ih (fun e he => h e (List.mem_cons_of_mem _ he)), find?_put,
      List.map_cons]
    by_cases heq : entry.1 = args
    · subst heq
      simp [hentry]
    · have hmem : args ∈ entry.1 :: entries.map (·.1) ↔ args ∈ entries.map (·.1) := by
        simp [Ne.symm heq]
      simp only [hmem, if_neg heq]

/-- The entries of the other table come first. -/
theorem find?_adopt (t other : Table) (args : List Number) :
    (t.adopt other).find? args = (other.find? args).or (t.find? args) := by
  unfold adopt
  rw [@find?_foldl_put _ other.find? fun entry hentry => mem_entries.1 hentry]
  cases h : other.find? args with
  | some value =>
    have hmem : args ∈ other.entries.map (·.1) := List.mem_map.2 ⟨_, mem_entries.2 h, rfl⟩
    rw [if_pos hmem, Option.some_or]
  | none =>
    have hmem : args ∉ other.entries.map (·.1) := by
      intro hmem
      obtain ⟨entry, hentry, rfl⟩ := List.mem_map.1 hmem
      rw [mem_entries.1 hentry] at h
      cases h
    rw [if_neg hmem, Option.none_or]

end Table

end Reckoner
