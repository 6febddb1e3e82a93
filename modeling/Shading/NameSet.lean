/-!
# Sets of names

A finite set of names, kept as its members in increasing order. The order is that of the code points,
which is also the order of the UTF-8 bytes. Two sets are equal as soon as they have the same members.
-/

namespace Shading

structure NameSet where
  names : List String
  sorted : names.Pairwise (· < ·)
deriving DecidableEq

namespace NameSet

/-- Puts a name at its place among increasing names, unless it is there already. -/
def insertSorted (x : String) : List String → List String
  | [] => [x]
  | y :: ys => if x < y then x :: y :: ys else if x = y then y :: ys else y :: insertSorted x ys

theorem mem_insertSorted {x y : String} {l : List String} :
    y ∈ insertSorted x l ↔ y = x ∨ y ∈ l := by
  induction l with
  | nil => simp [insertSorted]
  | cons z zs ih =>
    unfold insertSorted
    split
    · simp
    · split
      · rename_i h
        subst h
        simp
      · simp [ih, or_left_comm]

theorem sorted_insertSorted {x : String} {l : List String} (h : l.Pairwise (· < ·)) :
    (insertSorted x l).Pairwise (· < ·) := by
  induction l with
  | nil => simp [insertSorted]
  | cons z zs ih =>
    obtain ⟨hz, hzs⟩ := List.pairwise_cons.1 h
    unfold insertSorted
    split
    · rename_i hx
      refine List.pairwise_cons.2 ⟨?_, h⟩
      intro y hy
      rcases List.mem_cons.1 hy with rfl | hy
      · exact hx
      · exact String.lt_trans hx (hz y hy)
    · split
      · exact h
      · rename_i hlt hne
        refine List.pairwise_cons.2 ⟨?_, ih hzs⟩
        intro y hy
        rcases mem_insertSorted.1 hy with rfl | hy
        · exact Std.lt_of_le_of_ne (Std.not_lt.1 hlt) (Ne.symm hne)
        · exact hz y hy

def empty : NameSet := ⟨[], .nil⟩

instance : Inhabited NameSet := ⟨empty⟩
instance : EmptyCollection NameSet := ⟨empty⟩

instance : Membership String NameSet := ⟨fun s x => x ∈ s.names⟩

instance (x : String) (s : NameSet) : Decidable (x ∈ s) := inferInstanceAs (Decidable (x ∈ s.names))

def insert (x : String) (s : NameSet) : NameSet := ⟨insertSorted x s.names, sorted_insertSorted s.sorted⟩

def singleton (x : String) : NameSet := insert x empty

def union (a b : NameSet) : NameSet := b.names.foldr insert a

def isEmpty (s : NameSet) : Bool := s.names.isEmpty

@[simp] theorem mem_names {x : String} {s : NameSet} : x ∈ s.names ↔ x ∈ s := Iff.rfl

@[simp] theorem not_mem_empty {x : String} : ¬ x ∈ (empty : NameSet) := by
  simp [← mem_names, empty]

@[simp] theorem mem_insert {x y : String} {s : NameSet} : y ∈ insert x s ↔ y = x ∨ y ∈ s :=
  mem_insertSorted

@[simp] theorem mem_singleton {x y : String} : y ∈ singleton x ↔ y = x := by
  simp [singleton]

@[simp] theorem mem_union {x : String} {a b : NameSet} : x ∈ union a b ↔ x ∈ a ∨ x ∈ b := by
  unfold union
  rw [← mem_names (s := b)]
  induction b.names with
  | nil => simp
  | cons y ys ih => simp [ih, or_left_comm]

end NameSet

end Shading
