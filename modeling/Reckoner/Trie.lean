import Reckoner.Number.Basic

/-!
# Trees of argument lists

A node stands for a list of numbers, which is the path that leads to it from the root.  It may hold
a value, and its branches lead to the lists that are one number longer, in ascending order of this
number.  The values are visited with the value of a node before those below it.

1. `Trie.find?_insert`: a tree holds what was last inserted at a path.
2. `Trie.WellFormed`: the branches of every node ascend, and each leads to a value.  Insertion keeps
   this, and two such trees with the same values are equal (`Trie.WellFormed.ext_find?`).
3. The visits of a well-formed tree are its values at their paths (`Trie.WellFormed.mem_walk`).
-/

namespace Reckoner

/-- A node: the value of its path, and the nodes below it by the number that comes next. -/
inductive Trie where
  | node (value : Option Number) (branches : List (Number × Trie))

namespace Trie

/-! ## Branches -/

namespace Branches

variable {α : Type}

/-- What is found under a key in a list that ascends. -/
def find? (key : Number) : List (Number × α) → Option α
  | [] => none
  | (k, a) :: rest =>
    match compare key k with
    | .lt => none
    | .eq => some a
    | .gt => find? key rest

/-- Changes what is under a key; a key that was not there gets its place in the order. -/
def alter (key : Number) (change : Option α → α) : List (Number × α) → List (Number × α)
  | [] => [(key, change none)]
  | (k, a) :: rest =>
    match compare key k with
    | .lt => (key, change none) :: (k, a) :: rest
    | .eq => (k, change (some a)) :: rest
    | .gt => (k, a) :: alter key change rest

/-- The keys ascend. -/
def Ascending (branches : List (Number × α)) : Prop :=
  branches.Pairwise (fun a b => compare a.1 b.1 = .lt)

variable {key k : Number} {change : Option α → α} {branches branches' : List (Number × α)} {a : α}

theorem eq_of_compare (h : compare key k = .eq) : key = k := Std.LawfulEqOrd.eq_of_compare h

theorem lt_of_compare_gt (h : compare key k = .gt) : compare k key = .lt :=
  Std.OrientedCmp.gt_iff_lt.1 h

theorem find?_alter (key k : Number) (change : Option α → α) (branches : List (Number × α)) :
    find? k (alter key change branches) =
      if key = k then some (change (find? key branches)) else find? k branches := by
  by_cases h : key = k
  · subst h
    rw [if_pos rfl]
    induction branches with
    | nil => simp [alter, find?]
    | cons branch rest ih => cases hkey : compare key branch.1 <;> simp [alter, find?, hkey, ih]
  · rw [if_neg h]
    have hne : compare k key ≠ .eq := fun heq => h (eq_of_compare heq).symm
    induction branches with
    | nil => cases hk : compare k key <;> simp_all [alter, find?]
    | cons branch rest ih =>
      cases hkey : compare key branch.1 with
      | lt =>
        simp only [alter, find?, hkey]
        cases hk : compare k key with
        | lt =>
          have hlt : compare k branch.1 = .lt := Std.TransCmp.lt_trans hk hkey
          simp only [hlt]
        | eq => exact absurd hk hne
        | gt => rfl
      | eq =>
        cases eq_of_compare hkey
        simp only [alter, find?, hkey]
        cases hk : compare k branch.1 with
        | lt => rfl
        | eq => exact absurd hk hne
        | gt => rfl
      | gt => simp only [alter, find?, hkey, ih]

theorem mem_of_find? (h : find? key branches = some a) : (key, a) ∈ branches := by
  induction branches with
  | nil => cases h
  | cons branch rest ih =>
    obtain ⟨k₀, b⟩ := branch
    unfold find? at h
    split at h
    · cases h
    · next hk =>
      cases h
      cases eq_of_compare hk
      exact List.mem_cons_self
    · exact List.mem_cons_of_mem _ (ih h)

theorem mem_alter {branch : Number × α} (h : branch ∈ alter key change branches) :
    branch ∈ branches ∨ branch = (key, change (find? key branches)) := by
  induction branches with
  | nil => exact .inr (List.mem_singleton.1 h)
  | cons head rest ih =>
    cases hkey : compare key head.1 with
    | lt =>
      simp only [alter, find?, hkey] at h ⊢
      exact (List.mem_cons.1 h).symm
    | eq =>
      cases eq_of_compare hkey
      simp only [alter, find?, hkey] at h ⊢
      exact (List.mem_cons.1 h).symm.imp_left (List.mem_cons_of_mem _)
    | gt =>
      simp only [alter, find?, hkey] at h ⊢
      rcases List.mem_cons.1 h with rfl | h
      · exact .inl List.mem_cons_self
      · exact (ih h).imp_left (List.mem_cons_of_mem _)

namespace Ascending

theorem alter (h : Ascending branches) (key : Number) (change : Option α → α) :
    Ascending (alter key change branches) := by
  induction branches with
  | nil => exact List.pairwise_singleton _ _
  | cons head rest ih =>
    obtain ⟨k₀, a⟩ := head
    obtain ⟨hhead, hrest⟩ := List.pairwise_cons.1 h
    unfold Branches.alter
    split
    · next hk =>
      refine List.pairwise_cons.2 ⟨fun b hb => ?_, h⟩
      rcases List.mem_cons.1 hb with rfl | hb
      · exact hk
      · exact Std.TransCmp.lt_trans hk (hhead b hb)
    · exact List.pairwise_cons.2 ⟨hhead, hrest⟩
    · next hk =>
      refine List.pairwise_cons.2 ⟨fun b hb => ?_, ih hrest⟩
      rcases mem_alter hb with hb | rfl
      · exact hhead b hb
      · exact lt_of_compare_gt hk

theorem find?_of_mem (h : Ascending branches) (hmem : (key, a) ∈ branches) :
    find? key branches = some a := by
  induction branches with
  | nil => cases hmem
  | cons head rest ih =>
    obtain ⟨hhead, hrest⟩ := List.pairwise_cons.1 h
    rcases List.mem_cons.1 hmem with rfl | hmem
    · simp [find?]
    · have hgt : compare key head.1 = .gt := Std.OrientedCmp.gt_iff_lt.2 (hhead _ hmem)
      simp only [find?, hgt]
      exact ih hrest hmem

theorem ext_find? (h : Ascending branches) (h' : Ascending branches')
    (heq : ∀ key, find? key branches = find? key branches') : branches = branches' := by
  induction branches generalizing branches' with
  | nil =>
    cases branches' with
    | nil => rfl
    | cons head rest =>
      have hfind := heq head.1
      rw [h'.find?_of_mem List.mem_cons_self] at hfind
      cases hfind
  | cons head rest ih =>
    cases branches' with
    | nil =>
      have hfind := heq head.1
      rw [h.find?_of_mem List.mem_cons_self] at hfind
      cases hfind
    | cons head' rest' =>
      obtain ⟨hhead, hrest⟩ := List.pairwise_cons.1 h
      obtain ⟨hhead', hrest'⟩ := List.pairwise_cons.1 h'
      -- each head is in the other list, so neither comes before the other
      have hmem : head ∈ head' :: rest' :=
        mem_of_find? ((heq head.1).symm.trans (h.find?_of_mem List.mem_cons_self))
      have hmem' : head' ∈ head :: rest :=
        mem_of_find? ((heq head'.1).trans (h'.find?_of_mem List.mem_cons_self))
      have hsame : head = head' := by
        rcases List.mem_cons.1 hmem with hsame | hlater
        · exact hsame
        · rcases List.mem_cons.1 hmem' with hsame | hlater'
          · exact hsame.symm
          · have hlt := Std.TransCmp.lt_trans (hhead _ hlater') (hhead' _ hlater)
            simp at hlt
      subst hsame
      refine congrArg (head :: ·) (ih hrest hrest' fun key => ?_)
      have hkey := heq key
      simp only [find?] at hkey
      cases hcompare : compare key head.1 with
      | gt => simpa only [hcompare] using hkey
      | lt | eq =>
        -- keys up to the head are in neither rest
        have hnone : ∀ {rest : List (Number × α)},
            (∀ b ∈ rest, compare head.1 b.1 = .lt) → find? key rest = none := by
          intro rest hrest
          rw [Option.eq_none_iff_forall_ne_some]
          intro b hb
          have hlt := hrest _ (mem_of_find? hb)
          have hswap := Std.OrientedCmp.gt_iff_lt.2 hlt
          rw [hcompare] at hswap
          cases hswap
        rw [hnone hhead, hnone hhead']

end Ascending

end Branches

/-! ## Values -/

def value : Trie → Option Number
  | node value _ => value

/-- What is below a node. -/
def branches : Trie → List (Number × Trie)
  | node _ branches => branches

def empty : Trie := node none []

/-- The value at a path; nothing is there as soon as a node lacks the next number. -/
def find? : Trie → List Number → Option Number
  | t, [] => t.value
  | t, key :: keys => (Branches.find? key t.branches).bind (fun child => find? child keys)

/-- The tree with a new value at a path, along which missing nodes are made. -/
def insert (new : Number) : List Number → Trie → Trie
  | [], t => node (some new) t.branches
  | key :: keys, t =>
    node t.value (Branches.alter key (fun child => insert new keys (child.getD empty)) t.branches)

mutual

/-- The values of a tree with their paths, the value of a node before those below it.  `path` leads
to the tree. -/
def walk (path : List Number) : Trie → List (List Number × Number)
  | node value branches => (value.map (fun v => (path, v))).toList ++ walkBranches path branches

/-- The values of branches with their paths. -/
def walkBranches (path : List Number) : List (Number × Trie) → List (List Number × Number)
  | [] => []
  | (key, child) :: rest => walk (path ++ [key]) child ++ walkBranches path rest

end

@[simp] theorem value_node (value : Option Number) (branches : List (Number × Trie)) :
    (node value branches).value = value := rfl

@[simp] theorem branches_node (value : Option Number) (branches : List (Number × Trie)) :
    (node value branches).branches = branches := rfl

@[simp] theorem find?_empty (keys : List Number) : empty.find? keys = none := by
  cases keys <;> rfl

@[simp] theorem find?_nil (t : Trie) : t.find? [] = t.value := by rw [find?]

/-- The rest of a path is looked up in the branch, or in nothing if there is no branch. -/
theorem find?_cons (t : Trie) (key : Number) (keys : List Number) :
    t.find? (key :: keys) = ((Branches.find? key t.branches).getD empty).find? keys := by
  rw [find?]
  cases Branches.find? key t.branches <;> simp

/-- A tree holds the value inserted at a path, and elsewhere what it held before. -/
theorem find?_insert (t : Trie) (keys other : List Number) (new : Number) :
    (t.insert new keys).find? other = if keys = other then some new else t.find? other := by
  induction keys generalizing t other with
  | nil => cases other <;> simp [insert, find?_cons]
  | cons key keys ih =>
    cases other with
    | nil => simp [insert]
    | cons k ks =>
      rw [insert, find?_cons, find?_cons, branches_node, Branches.find?_alter]
      by_cases hkey : key = k
      · subst hkey
        simp [ih]
      · simp [hkey]

/-! ## Visits -/

theorem walkBranches_eq (path : List Number) (branches : List (Number × Trie)) :
    walkBranches path branches = branches.flatMap (fun b => walk (path ++ [b.1]) b.2) := by
  induction branches with
  | nil => rfl
  | cons head rest ih => rw [walkBranches, ih, List.flatMap_cons]

theorem walk_eq (path : List Number) (t : Trie) :
    t.walk path = (t.value.map (fun v => (path, v))).toList ++
      t.branches.flatMap (fun b => walk (path ++ [b.1]) b.2) := by
  cases t
  rw [walk, walkBranches_eq]
  rfl

/-- What the changed branch gains is gained in all. -/
theorem length_walkBranches_alter {path : List Number} {key : Number}
    {change : Option Trie → Trie} {gain : Option Trie → Nat}
    (h : ∀ child, ((change child).walk (path ++ [key])).length =
      ((child.getD empty).walk (path ++ [key])).length + gain child)
    (branches : List (Number × Trie)) :
    (walkBranches path (Branches.alter key change branches)).length =
      (walkBranches path branches).length + gain (Branches.find? key branches) := by
  have hnone : ((change none).walk (path ++ [key])).length = gain none := by
    rw [h none]
    exact Nat.zero_add _
  induction branches with
  | nil => simpa [Branches.alter, Branches.find?, walkBranches] using hnone
  | cons head rest ih =>
    obtain ⟨k, child⟩ := head
    cases hkey : compare key k with
    | lt =>
      simp only [Branches.alter, Branches.find?, hkey, walkBranches, List.length_append, hnone]
      omega
    | eq =>
      cases Branches.eq_of_compare hkey
      simp only [Branches.alter, Branches.find?, hkey, walkBranches, List.length_append, h,
        Option.getD_some]
      omega
    | gt =>
      simp only [Branches.alter, Branches.find?, hkey, walkBranches, List.length_append, ih]
      omega

/-- A value inserted at a path where there was none makes one more visit. -/
theorem length_walk_insert (t : Trie) (keys path : List Number) (new : Number) :
    ((t.insert new keys).walk path).length =
      (t.walk path).length + if (t.find? keys).isSome then 0 else 1 := by
  induction keys generalizing t path with
  | nil =>
    obtain ⟨value, branches⟩ := t
    cases value <;> simp [insert, walk, Nat.add_comm]
  | cons key keys ih =>
    obtain ⟨value, branches⟩ := t
    have hbranches := @length_walkBranches_alter path key
      (fun child => insert new keys (child.getD empty))
      (fun child => if ((child.getD empty).find? keys).isSome then 0 else 1)
      (fun child => ih _ _) branches
    simp only [insert, value_node, branches_node, walk, List.length_append, hbranches, find?_cons]
    omega

/-! ## Well-formed trees -/

/-- The branches of every node ascend, and each leads to a value. -/
inductive WellFormed : Trie → Prop where
  | node {value : Option Number} {branches : List (Number × Trie)}
      (ascending : Branches.Ascending branches) (below : ∀ b ∈ branches, WellFormed b.2)
      (fruitful : ∀ b ∈ branches, ∃ keys v, b.2.find? keys = some v) :
      WellFormed (node value branches)

theorem wellFormed_empty : empty.WellFormed := .node .nil (by simp) (by simp)

namespace WellFormed

variable {t u : Trie}

theorem insert (h : t.WellFormed) (new : Number) (keys : List Number) :
    (t.insert new keys).WellFormed := by
  induction keys generalizing t with
  | nil =>
    obtain ⟨hascending, hbelow, hfruitful⟩ := h
    exact .node hascending hbelow hfruitful
  | cons key keys ih =>
    cases h with
    | @node value branches hascending hbelow hfruitful =>
      have hchild : ((Branches.find? key branches).getD empty).WellFormed := by
        cases hfind : Branches.find? key branches with
        | none => exact wellFormed_empty
        | some child => exact hbelow _ (Branches.mem_of_find? hfind)
      refine .node (hascending.alter key _) (fun b hb => ?_) fun b hb => ?_
      · rcases Branches.mem_alter hb with hb | rfl
        · exact hbelow b hb
        · exact ih hchild
      · rcases Branches.mem_alter hb with hb | rfl
        · exact hfruitful b hb
        · exact ⟨keys, new, by rw [find?_insert, if_pos rfl]⟩

theorem ext_find? (ht : t.WellFormed) (hu : u.WellFormed)
    (h : ∀ keys, t.find? keys = u.find? keys) : t = u := by
  induction ht generalizing u with
  | @node value branches hascending _ hfruitful ih =>
    cases hu with
    | @node value' branches' hascending' hbelow' hfruitful' =>
      have hvalue : value = value' := h []
      have hbranches : branches = branches' := by
        refine hascending.ext_find? hascending' fun key => ?_
        have hkey : ∀ keys, (Branches.find? key branches).bind (find? · keys) =
            (Branches.find? key branches').bind (find? · keys) := fun keys => h (key :: keys)
        cases hchild : Branches.find? key branches with
        | some child =>
          have hmem := Branches.mem_of_find? hchild
          cases hchild' : Branches.find? key branches' with
          | some child' =>
            rw [hchild, hchild'] at hkey
            exact congrArg some (ih _ hmem (hbelow' _ (Branches.mem_of_find? hchild')) hkey)
          | none =>
            obtain ⟨keys, v, hv⟩ := hfruitful _ hmem
            have hnone := hkey keys
            rw [hchild, hchild', Option.bind_some, hv] at hnone
            cases hnone
        | none =>
          cases hchild' : Branches.find? key branches' with
          | none => rfl
          | some child' =>
            obtain ⟨keys, v, hv⟩ := hfruitful' _ (Branches.mem_of_find? hchild')
            have hnone := hkey keys
            rw [hchild, hchild', Option.bind_some, hv] at hnone
            cases hnone
      rw [hvalue, hbranches]

/-- The visits are the values of the tree at their paths. -/
theorem mem_walk (h : t.WellFormed) {path args : List Number} {v : Number} :
    (args, v) ∈ t.walk path ↔ ∃ keys, args = path ++ keys ∧ t.find? keys = some v := by
  induction h generalizing path with
  | @node value branches hascending _ _ ih =>
    rw [walk_eq, List.mem_append, List.mem_flatMap]
    constructor
    · rintro (hvalue | ⟨b, hb, hmem⟩)
      · obtain ⟨v', hv', heq⟩ : ∃ v', value = some v' ∧ (path, v') = (args, v) := by
          simpa [Trie.value] using hvalue
        cases heq
        exact ⟨[], (List.append_nil args).symm, hv'⟩
      · obtain ⟨keys, rfl, hv⟩ := (ih b hb).1 hmem
        refine ⟨b.1 :: keys, by simp, ?_⟩
        show (Branches.find? b.1 branches).bind (find? · keys) = some v
        rw [hascending.find?_of_mem hb, Option.bind_some, hv]
    · rintro ⟨keys, rfl, hv⟩
      cases keys with
      | nil =>
        refine .inl ?_
        have hvalue : value = some v := hv
        simp [Trie.value, hvalue]
      | cons key keys =>
        obtain ⟨child, hchild, hv⟩ := Option.bind_eq_some_iff.1 hv
        have hmem := Branches.mem_of_find? hchild
        exact .inr ⟨(key, child), hmem, (ih _ hmem).2 ⟨keys, by simp, hv⟩⟩

end WellFormed

end Trie

end Reckoner
