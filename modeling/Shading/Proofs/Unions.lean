import Mathlib.Tactic.SplitIfs
import Shading.Proofs.Uses

/-!
# Unions of needs

The needs of code are collected as the union of the needs of its parts. In which order and grouping unions are taken does
not matter, nor how often a part is taken into them (`Unions.total_of_operands`): the result needs what one of the parts
does, and its lists of names increase in the order of their bytes.
-/

namespace Shading

open List

/-! ## Names in the order of their bytes -/

/-- The bytes of a smaller character are smaller, whatever follows. -/
theorem utf8EncodeChar_append_lt {c d : Char} (h : c < d) (xs ys : List UInt8) :
    String.utf8EncodeChar c ++ xs < String.utf8EncodeChar d ++ ys := by
  have hlt : c.val.toNat < d.val.toNat := h
  have hd : d.val.toNat < 1114112 := by
    rcases d.valid with h | h <;> omega
  rw [String.utf8EncodeChar.eq_1, String.utf8EncodeChar.eq_1]
  generalize c.val.toNat = m at hlt ⊢
  generalize d.val.toNat = n at hlt hd ⊢
  -- The quotients that the bytes are made of come one out of the other.
  have high (k : Nat) : k / 4096 = k / 64 / 64 := by omega
  have top (k : Nat) : k / 262144 = k / 64 / 64 / 64 := by omega
  split_ifs <;>
    simp only [cons_append, nil_append, cons_lt_cons_iff, UInt8.lt_iff_toNat_lt, ← UInt8.toNat_inj, UInt8.toNat_ofNat',
      high, top] <;>
    omega

theorem flatMap_utf8EncodeChar_lt {cs ds : List Char} (h : cs < ds) :
    cs.flatMap String.utf8EncodeChar < ds.flatMap String.utf8EncodeChar := by
  induction h with
  | nil =>
    rw [flatMap_nil, flatMap_cons]
    obtain ⟨b, bs, hb⟩ := exists_cons_of_ne_nil (String.utf8EncodeChar_ne_nil)
    rw [hb]
    exact .nil
  | cons h ih =>
    rw [flatMap_cons, flatMap_cons]
    exact append_left_lt ih
  | rel h => exact utf8EncodeChar_append_lt h _ _

/-- The bytes of each name are smaller than those of the names behind it. -/
def IncreaseBytewise (names : List String) : Prop :=
  names.Pairwise fun x y => x.toUTF8.data.toList < y.toUTF8.data.toList

theorem NameSet.increaseBytewise (s : NameSet) : IncreaseBytewise s.names := by
  have bytes (x : String) : x.toUTF8.data.toList = x.toList.flatMap String.utf8EncodeChar := by
    rw [String.toUTF8_eq_toByteArray, ← String.utf8Encode_toList, utf8Encode, toList_data_toByteArray]
  refine s.sorted.imp fun {x y} h => ?_
  rw [bytes, bytes]
  exact flatMap_utf8EncodeChar_lt h

/-! ## Ways to take unions -/

theorem Deps.isEmpty_iff {d : Deps} : d.isEmpty = true ↔ ∀ n, ¬ d.Has n := by
  constructor
  · intro h n
    obtain ⟨⟨fns, _⟩, ⟨blocks, _⟩, attributes, reads, writes⟩ := d
    obtain ⟨⟨⟨⟨rfl, rfl⟩, rfl⟩, rfl⟩, rfl⟩ : (((fns = [] ∧ blocks = []) ∧ attributes = false) ∧ reads = false)
        ∧ writes = false := by simpa [isEmpty, NameSet.isEmpty] using h
    exact not_has_none n
  · intro h
    obtain rfl : d = .none := ext_has fun n => by simp [h n]
    rfl

/-- A way to take unions: starting with nothing, from single needs, by two and two. -/
inductive Unions where
  | nothing
  | one (d : Deps)
  | both (l r : Unions)

namespace Unions

/-- The needs that the unions are taken of, each as often as it is taken. -/
def operands : Unions → List Deps
  | nothing => []
  | one d => [d]
  | both l r => l.operands ++ r.operands

def total : Unions → Deps
  | nothing => .none
  | one d => d
  | both l r => l.total.union r.total

theorem has_total (u : Unions) (n : Need) : u.total.Has n ↔ ∃ d ∈ u.operands, d.Has n := by
  induction u with
  | nothing => simp [total, operands]
  | one d => simp [total, operands]
  | both l r ihl ihr => simp only [total, operands, Deps.has_union, ihl, ihr, mem_append, or_and_right, exists_or]

/-- In whatever order and grouping the unions are taken, and however often an operand is, the total is the same. It has
what one of the operands has, in lists that increase bytewise, and is empty if all of them are. -/
theorem total_of_operands (ds : List Deps) (u : Unions) (h : ∀ d, d ∈ u.operands ↔ d ∈ ds) :
    u.total = Deps.unionAll ds
    ∧ (∀ f, u.total.hasFn f = ds.any (·.hasFn f)) ∧ (∀ b, u.total.hasBlock b = ds.any (·.hasBlock b))
    ∧ u.total.readsAttributes = ds.any (·.readsAttributes)
    ∧ u.total.readsVaryings = ds.any (·.readsVaryings)
    ∧ u.total.writesVaryings = ds.any (·.writesVaryings)
    ∧ IncreaseBytewise u.total.fns.names ∧ (∀ f, f ∈ u.total.fns.names ↔ ∃ d ∈ ds, f ∈ d.fns.names)
    ∧ IncreaseBytewise u.total.blocks.names ∧ (∀ b, b ∈ u.total.blocks.names ↔ ∃ d ∈ ds, b ∈ d.blocks.names)
    ∧ u.total.isEmpty = ds.all (·.isEmpty) := by
  have hhas (n : Need) : u.total.Has n ↔ ∃ d ∈ ds, d.Has n := by simp only [has_total, h]
  have answer {p : Deps → Bool} {n : Need} (hp : ∀ d, d.Has n ↔ p d = true) : p u.total = ds.any p := by
    rw [Bool.eq_iff_iff, ← hp, hhas, any_eq_true]
    simp only [hp]
  have member {names : Deps → NameSet} {x : Ident} {n : Need} (hn : ∀ d, d.Has n ↔ x ∈ names d) :
      x ∈ (names u.total).names ↔ ∃ d ∈ ds, x ∈ (names d).names := by
    simp only [NameSet.mem_names, ← hn, hhas]
  refine ⟨Deps.ext_has fun n => (hhas n).trans (Deps.has_unionAll ds n).symm,
    fun f => answer (n := .fn f) fun _ => Iff.rfl, fun b => answer (n := .block b) fun _ => Iff.rfl,
    answer (n := .readsAttributes) fun _ => Iff.rfl, answer (n := .readsVaryings) fun _ => Iff.rfl,
    answer (n := .writesVaryings) fun _ => Iff.rfl,
    u.total.fns.increaseBytewise, fun f => member (n := .fn f) fun _ => decide_eq_true_iff,
    u.total.blocks.increaseBytewise, fun b => member (n := .block b) fun _ => decide_eq_true_iff, ?_⟩
  rw [Bool.eq_iff_iff, all_eq_true]
  simp only [Deps.isEmpty_iff, hhas, not_exists, not_and]
  exact ⟨fun hnone d hd n => hnone n d hd, fun hnone n d hd => hnone d hd n⟩

theorem total_of_repeated_operands :
    let ds := [Deps.ofFn "g", Deps.ofBlock "b", Deps.ofFn "f"]
    let u := both (both (one (.ofFn "f")) (one (.ofFn "g"))) (both nothing (both (one (.ofFn "g")) (one (.ofBlock "b"))))
    u.total = Deps.unionAll ds ∧ u.total.fns.names = ["f", "g"] ∧ u.total.blocks.names = ["b"] := by
  refine ⟨(total_of_operands _ _ fun d => ?_).1, by decide, by decide⟩
  simp only [operands, nil_append, cons_append, mem_cons, not_mem_nil, or_false]
  tauto

end Unions

end Shading
