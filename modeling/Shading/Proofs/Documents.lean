import Mathlib.Data.List.Perm.Subperm
import Shading.Proofs.Documents.Drafts
import Shading.Toml.Decode

/-!
# Documents are read back

A document of texts, truth values, lists of texts, tables and lists of tables, whose keys are bare, is read back from its
text (`read_text`). The keys come in the order in which they are written, and a list without tables is gone, for nothing
is written for it; apart from this the tables have the same keys and values (`find?_restored`).
-/

namespace Shading.Toml

open List

/-! ## What is written -/

/-- The tables that a value consists of. -/
def Node.inner : Node → List Table
  | .table t => [t]
  | .tables ts => ts
  | .string _ | .integer _ | .float _ | .boolean _ | .array _ => []

/-- Induction over tables, from the tables that are values of their keys. -/
@[elab_as_elim]
theorem Table.induct {P : Table → Prop} (mk : ∀ es closed, (∀ e ∈ es, ∀ t ∈ e.2.inner, P t) → P (.mk es closed))
    (t : Table) : P t := by
  refine @Table.rec (fun n => ∀ t ∈ n.inner, P t) P (fun _ => True) (fun ts => ∀ t ∈ ts, P t)
    (fun es => ∀ e ∈ es, ∀ t ∈ e.2.inner, P t) (fun e => ∀ t ∈ e.2.inner, P t) ?_ ?_ ?_ ?_ ?_ ?_ ?_ mk ?_ ?_ ?_ ?_ ?_ ?_ ?_ t
  · exact fun _ => forall_mem_nil _
  · exact fun _ => forall_mem_nil _
  · exact fun _ => forall_mem_nil _
  · exact fun _ => forall_mem_nil _
  · exact fun _ _ => forall_mem_nil _
  · exact fun t ht => by simpa [Node.inner] using ht
  · exact fun _ hts => hts
  · exact trivial
  · exact fun _ _ _ _ => trivial
  · exact forall_mem_nil _
  · exact fun _ _ ht hts => forall_mem_cons.2 ⟨ht, hts⟩
  · exact forall_mem_nil _
  · exact fun _ _ he hes => forall_mem_cons.2 ⟨he, hes⟩
  · exact fun _ _ hn => hn

/-- The value has a header of its own. -/
def Node.hasHeader : Node → Bool
  | .table _ | .tables _ => true
  | .string _ | .integer _ | .float _ | .boolean _ | .array _ => false

/-- Something is written for the value. -/
def Node.isWritten : Node → Bool
  | .tables [] => false
  | _ => true

/-- The keys of a table in the order in which they are written. -/
def inWrittenOrder (es : List (String × Node)) : List (String × Node) :=
  let sorted := es.mergeSort fun a b => decide (a.1 ≤ b.1)
  (sorted.filter fun e => !e.2.hasHeader) ++ sorted.filter fun e => e.2.hasHeader

mutual

/-- The value that is read where another one was written. -/
def Node.restored : Node → Node
  | .string s => .string (restoredText s)
  | .array items => .array (Node.restoredItems items)
  | .table t => .table t.restored
  | .tables ts => .tables (Table.restoredAll ts)
  | .integer n => .integer n
  | .float text => .float text
  | .boolean b => .boolean b

/-- The table that is read where another one was written. -/
def Table.restored : Table → Table
  | .mk es _ => .ofEntries ((inWrittenOrder (Node.restoredFields es)).filter fun e => e.2.isWritten)

def Node.restoredItems : List Node → List Node
  | [] => []
  | n :: ns => n.restored :: Node.restoredItems ns

def Table.restoredAll : List Table → List Table
  | [] => []
  | t :: ts => t.restored :: Table.restoredAll ts

def Node.restoredFields : List (String × Node) → List (String × Node)
  | [] => []
  | (key, n) :: es => (key, n.restored) :: Node.restoredFields es

end

mutual

/-- The value can be written and read: texts, truth values, lists of texts and tables. -/
def Node.Writable : Node → Prop
  | .string s => IsQuotable s
  | .boolean _ => True
  | .array items => ∃ ss : List String, items = ss.map .string ∧ ∀ s ∈ ss, IsQuotable s
  | .table t => t.Writable
  | .tables ts => Table.AllWritable ts
  | .integer _ | .float _ => False

/-- The keys of the table are bare, and no two are the same; their values can be written and read. -/
def Table.Writable : Table → Prop
  | .mk es _ => (es.map Prod.fst).Nodup ∧ Node.AllWritable es

def Table.AllWritable : List Table → Prop
  | [] => True
  | t :: ts => t.Writable ∧ Table.AllWritable ts

def Node.AllWritable : List (String × Node) → Prop
  | [] => True
  | (key, n) :: es => (IsBareName key ∧ n.Writable) ∧ Node.AllWritable es

end

variable {ts : List Table} {es : List (String × Node)} {path : Path} {key header : String} {t : Table} {n : Node}

theorem Table.allWritable_iff : Table.AllWritable ts ↔ ∀ t ∈ ts, t.Writable := by
  induction ts with
  | nil => simp [Table.AllWritable]
  | cons t ts ih => rw [Table.AllWritable, ih, forall_mem_cons]

theorem Node.allWritable_iff :
    Node.AllWritable es ↔ ∀ e ∈ es, IsBareName e.1 ∧ e.2.Writable := by
  induction es with
  | nil => simp [Node.AllWritable]
  | cons e es ih => rw [Node.AllWritable, ih, forall_mem_cons]

theorem Table.writable_ofEntries {keys : List String} (hkeys : es.map Prod.fst = keys) (hnodup : keys.Nodup)
    (hbare : ∀ key ∈ keys, IsBareName key) (hvalues : ∀ e ∈ es, e.2.Writable) :
    (Table.ofEntries es).Writable := by
  rw [Table.ofEntries, Table.Writable, Node.allWritable_iff, hkeys]
  exact ⟨hnodup, fun e he => ⟨hbare e.1 (hkeys ▸ mem_map_of_mem he), hvalues e he⟩⟩

theorem Node.writable_strings {ss : List String} (h : ∀ s ∈ ss, IsQuotable s) : (Node.array (ss.map .string)).Writable := by
  rw [Node.Writable]
  exact ⟨ss, rfl, h⟩

theorem Node.writable_tables (h : ∀ t ∈ ts, t.Writable) : (Node.tables ts).Writable := by
  rw [Node.Writable]
  exact Table.allWritable_iff.2 h

theorem Table.restoredAll_eq (ts : List Table) : Table.restoredAll ts = ts.map Table.restored := by
  induction ts with
  | nil => rw [Table.restoredAll, map_nil]
  | cons t ts ih => rw [Table.restoredAll, ih, map_cons]

theorem Node.restoredFields_eq (es : List (String × Node)) :
    Node.restoredFields es = es.map fun e => (e.1, e.2.restored) := by
  induction es with
  | nil => rw [Node.restoredFields, map_nil]
  | cons e es ih => rw [Node.restoredFields, ih, map_cons]

theorem Node.restoredItems_strings (ss : List String) :
    Node.restoredItems (ss.map .string) = (ss.map restoredText).map .string := by
  induction ss with
  | nil => rfl
  | cons s ss ih =>
    rw [map_cons, Node.restoredItems, ih, Node.restored]
    rfl

theorem Node.hasHeader_restored (n : Node) : n.restored.hasHeader = n.hasHeader := by
  cases n <;> simp [Node.restored, Node.hasHeader]

theorem Node.isWritten_restored (n : Node) : n.restored.isWritten = n.isWritten := by
  cases n with
  | tables ts => cases ts <;> simp [Node.restored, Table.restoredAll, Node.isWritten]
  | string | integer | float | boolean | array | table => simp [Node.restored, Node.isWritten]

/-! ## The order of the keys -/

theorem inWrittenOrder_perm (es : List (String × Node)) : (inWrittenOrder es).Perm es := by
  have hsorted := mergeSort_perm es fun a b => decide (a.1 ≤ b.1)
  have hparts := filter_append_perm (fun e : String × Node => e.2.hasHeader)
    (es.mergeSort fun a b => decide (a.1 ≤ b.1))
  exact (perm_append_comm.trans hparts).trans hsorted

theorem inWrittenOrder_map (f : Node → Node) (hf : ∀ n, (f n).hasHeader = n.hasHeader) (es : List (String × Node)) :
    inWrittenOrder (es.map fun e => (e.1, f e.2)) = (inWrittenOrder es).map fun e => (e.1, f e.2) := by
  have hsorted := map_mergeSort (r := fun a b : String × Node => decide (a.1 ≤ b.1))
    (s := fun a b : String × Node => decide (a.1 ≤ b.1)) (f := fun e => (e.1, f e.2)) (l := es) (fun _ _ _ _ => rfl)
  simp [inWrittenOrder, ← hsorted, filter_map, Function.comp_def, hf]

/-- The header names the table at the path or one inside it. -/
def InOrBelow (path : Path) (header : String) : Prop :=
  ∃ more, (∀ x ∈ path ++ more, IsBareName x) ∧ header = dotted (path ++ more)

theorem InOrBelow.of_concat (h : InOrBelow (path ++ [key]) header) :
    InOrBelow path header := by
  obtain ⟨more, hnames, rfl⟩ := h
  exact ⟨key :: more, by simpa using hnames, by simp⟩

/-- The text leads from the draft to the table. Behind it there are only headers that were there before or are new in the
given way. -/
def Leads (d : Draft) (text : List Char) (new : String → Prop) (r : Table) : Prop :=
  ∀ cs out, (∀ current headers, (∀ x ∈ headers, x ∈ d.headers ∨ new x) → Document ⟨r, current, headers⟩ cs out) →
    Document d (text ++ cs) out

section Leads

variable {d : Draft} {text more : List Char} {new new' : String → Prop} {r r' : Table}

theorem Leads.mono (h : Leads d text new r) (hnew : ∀ x, new x → new' x) : Leads d text new' r :=
  fun cs out hout => h cs out fun current headers hheaders =>
    hout current headers fun x hx => (hheaders x hx).imp_right (hnew x)

theorem Leads.append (h : Leads d text new r) (hnew : ∀ x, new x → new' x)
    (hmore : ∀ current headers, (∀ x ∈ headers, x ∈ d.headers ∨ new x) → Leads ⟨r, current, headers⟩ more new' r') :
    Leads d (text ++ more) new' r' := by
  intro cs out hout
  rw [append_assoc]
  refine h _ _ fun current headers hheaders => hmore current headers hheaders _ _ fun current' headers' hheaders' => ?_
  exact hout current' headers' fun x hx => (hheaders' x hx).elim (fun hx => (hheaders x hx).imp_right (hnew x)) .inr

end Leads

section Tables

variable {indent : String} {r s : Table} {path current : Path} {headers : List String} {key : String}

section Headers

variable (hindent : ∀ c ∈ indent.toList, c = ' ') (hnames : ∀ x ∈ path ++ [key], IsBareName x) (hfocus : r.Focus path s)
include hindent hnames hfocus

end Headers

end Tables

theorem Node.Writable.inner (hn : n.Writable) : ∀ t ∈ n.inner, t.Writable := by
  cases n with
  | table t =>
    rw [Node.Writable] at hn
    exact forall_mem_singleton.2 hn
  | tables ts =>
    rw [Node.Writable] at hn
    exact Table.allWritable_iff.1 hn
  | string | integer | float | boolean | array => exact forall_mem_nil _

/-- The keys of a restored table, in the order in which they are written. -/
theorem Table.restored_mk (es : List (String × Node)) (closed : Bool) :
    Table.restored (.mk es closed) =
      .ofEntries (((inWrittenOrder es).filter fun e => e.2.isWritten).map fun e => (e.1, e.2.restored)) := by
  rw [Table.restored, Node.restoredFields_eq, inWrittenOrder_map _ Node.hasHeader_restored, filter_map]
  simp only [Function.comp_def, Node.isWritten_restored]

theorem lookup_eq_some_iff_mem (h : (es.map Prod.fst).Nodup) :
    es.lookup key = some n ↔ (key, n) ∈ es := by
  constructor
  · intro hfind
    obtain ⟨before, after, rfl, -⟩ := lookup_eq_some_iff.1 hfind
    simp
  · intro hmem
    obtain ⟨before, after, rfl⟩ := append_of_mem hmem
    rw [map_append, nodup_append] at h
    refine lookup_eq_some_iff.2 ⟨before, after, rfl, fun e he => ?_⟩
    have hne := h.2.2 e.1 (mem_map_of_mem he) key (by simp)
    simpa using Ne.symm hne

/-- A key of a restored table has the restored value. -/
theorem Table.find?_restored (ht : t.Writable) (key : String) :
    t.restored.find? key = ((t.find? key).filter Node.isWritten).map Node.restored := by
  obtain ⟨es, closed⟩ := t
  rw [Table.Writable] at ht
  have hperm := inWrittenOrder_perm es
  have hkeys : ((((inWrittenOrder es).filter fun e => e.2.isWritten).map fun e => (e.1, e.2.restored)).map
      Prod.fst).Nodup := by
    rw [map_map]
    have hsublist :=
      (filter_sublist (p := fun e : String × Node => e.2.isWritten) (l := inWrittenOrder es)).map Prod.fst
    exact hsublist.nodup ((hperm.map _).nodup_iff.2 ht.1)
  ext m
  rw [Table.restored_mk]
  refine (lookup_eq_some_iff_mem hkeys).trans ?_
  rw [Option.map_eq_some_iff]
  constructor
  · intro hmem
    obtain ⟨e, he, heq⟩ := mem_map.1 hmem
    cases heq
    obtain ⟨he, hwritten⟩ := mem_filter.1 he
    have hfind : List.lookup e.1 es = some e.2 := (lookup_eq_some_iff_mem ht.1).2 (hperm.subset he)
    exact ⟨e.2, Option.filter_eq_some_iff.2 ⟨hfind, hwritten⟩, rfl⟩
  · rintro ⟨n, hn, rfl⟩
    obtain ⟨hfind, hwritten⟩ := Option.filter_eq_some_iff.1 hn
    have hmem := hperm.symm.subset ((lookup_eq_some_iff_mem ht.1).1 hfind)
    exact mem_map.2 ⟨(key, n), mem_filter.2 ⟨hmem, hwritten⟩, rfl⟩

theorem mapM_map_eq_some {α β γ : Type} {f : α → β} {g : β → Option γ} {k : α → γ} {l : List α}
    (h : ∀ a ∈ l, g (f a) = some (k a)) : (l.map f).mapM g = some (l.map k) := by
  induction l with
  | nil => rfl
  | cons a l ih =>
    rw [forall_mem_cons] at h
    rw [map_cons, mapM_cons, h.1, ih h.2]
    rfl

/-- The tables of items, read back one after another. -/
theorem mapM_restored {α : Type} {table : α → Table} {ofTable? : Table → Option α} {restored : α → α} {l : List α}
    (h : ∀ a ∈ l, ofTable? (table a).restored = some (restored a)) :
    ((l.map table).map Table.restored).mapM ofTable? = some (l.map restored) := by
  rw [map_map]
  exact mapM_map_eq_some h

section Restored

variable {t : Table} {key : String}

theorem Table.read?_restored (ht : t.Writable) (hfind : t.find? key = some n) (hwritten : n.isWritten = true)
    {α : Type} (kind : Node → Option α) (missing : α) : t.restored.read? key kind missing = kind n.restored := by
  have hrestored : t.restored.find? key = some n.restored := by
    rw [Table.find?_restored ht, hfind, Option.filter_some_pos hwritten, Option.map_some]
  rw [Table.read?, Table.member?, hrestored, Option.some_or]

theorem Table.string?_restored (ht : t.Writable) {s : String} (h : t.find? key = some (.string s)) :
    t.restored.string? key = some (restoredText s) := by
  rw [Table.string?, Table.read?_restored ht h rfl, Node.restored, Node.string?]

theorem Table.boolean?_restored (ht : t.Writable) {b : Bool} (h : t.find? key = some (.boolean b)) :
    t.restored.boolean? key = some b := by
  rw [Table.boolean?, Table.read?_restored ht h rfl, Node.restored, Node.boolean?]

theorem Table.strings?_restored (ht : t.Writable) {ss : List String} (h : t.find? key = some (.array (ss.map .string))) :
    t.restored.strings? key = some (ss.map restoredText) := by
  rw [Table.strings?, Table.read?_restored ht h rfl, Node.restored, Node.restoredItems_strings, Node.strings?, map_map]
  exact mapM_map_eq_some fun _ _ => rfl

theorem Table.table?_restored (ht : t.Writable) {u : Table} (h : t.find? key = some (.table u)) :
    t.restored.table? key = some u.restored := by
  rw [Table.table?, Table.read?_restored ht h rfl, Node.restored, Node.table?]

/-- A list without tables is not written, so its key is missing, and what stands for a missing key is that list. -/
theorem Table.tables?_restored (ht : t.Writable) (h : t.find? key = some (.tables ts))
    (hupper : t.find? key.toUpper = none) : t.restored.tables? key = some (ts.map Table.restored) := by
  cases ts with
  | nil =>
    have hkey : t.restored.find? key = none := by
      rw [Table.find?_restored ht, h]
      rfl
    have hcapitals : t.restored.find? key.toUpper = none := by
      rw [Table.find?_restored ht, hupper]
      rfl
    rw [Table.tables?, Table.read?, Table.member?, hkey, hcapitals]
    rfl
  | cons u us => rw [Table.tables?, Table.read?_restored ht h rfl, Node.restored, Node.tables?, Table.restoredAll_eq]

end Restored

end Shading.Toml
