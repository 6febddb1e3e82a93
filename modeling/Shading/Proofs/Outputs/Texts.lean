import Shading.Bindings
import Shading.Proofs.Lexing.Positions

/-!
# What is written is no shader

A file that a compiled shader is written to cannot be compiled again. The text of a stage begins with `#`, which starts no
token, and the text of bindings begins with the header of a table, and no declaration begins with a bracket. So a source
that compiles is not one of the texts that are written.
-/

namespace Shading
open List Text

/-- The bytes of a text are decoded to its characters. -/
theorem Source.ofBytes_toUTF8 (s : String) : Source.ofBytes s.toUTF8 = Source.ofString s := by
  have hchars : ∀ cs : List Char, Glyph.ofBytes (cs.flatMap String.utf8EncodeChar) = cs.map .char := by
    intro cs
    induction cs with
    | nil => exact Glyph.ofBytes_nil
    | cons c cs ih => rw [flatMap_cons, Glyph.ofBytes_append, ih, map_cons]
  have hbytes : s.toUTF8.data.toList = s.toList.flatMap String.utf8EncodeChar := by
    conv => lhs; rw [← String.ofList_toList (s := s)]
    rw [String.toUTF8_eq_toByteArray, String.toByteArray_ofList, List.utf8Encode, toList_data_toByteArray]
  rw [Source.ofBytes, Source.ofString, Glyph.decode_eq_ofBytes, hbytes, hchars]

/-- The source text is not compiled, whatever the settings are. -/
def Source.Refused (src : Source) : Prop :=
  ∀ options extra c events, compile options extra src ≠ (.ok c, events)

theorem Source.refused_of_parse {src : Source} {errors : List SyntaxError} (h : parse src = .error errors) :
    src.Refused := by
  intro options extra c events hcompile
  rw [compile, h] at hcompile
  cases hcompile

/-- No token begins with a number sign. -/
theorem refused_of_numberSign (gs : List Glyph) : Source.Refused ⟨.char '#' :: gs⟩ := by
  have hread : Token.read ⟨.char '#' :: gs⟩ = .error ⟨[.char '#'], .first⟩ := by
    rw [Token.read, Token.readFrom]
    rfl
  have hparse : parse ⟨.char '#' :: gs⟩ = .error [.ofUnexpected ⟨[.char '#'], .first⟩] := by rw [parse, hread]
  exact Source.refused_of_parse hparse

/-- No declaration begins with a bracket. -/
theorem refused_of_bracket (gs : List Glyph) : Source.Refused ⟨.char '\n' :: .char '[' :: gs⟩ := by
  have hread : Token.read ⟨.char '\n' :: .char '[' :: gs⟩ =
      (Token.readFrom (Position.first.after [.char '\n', .char '[']) gs).bind fun ts =>
        .ok (⟨.leftBracket, "[", ⟨2, 1, 1⟩⟩ :: ts) := by
    rw [Token.read, Token.readFrom]
    show Token.readFrom (Position.first.after [.char '\n']) (.char '[' :: gs) = _
    rw [Token.readFrom]
    rfl
  have hparse : ∃ errors, parse ⟨.char '\n' :: .char '[' :: gs⟩ = .error errors := by
    rw [parse, hread]
    cases Token.readFrom (Position.first.after [.char '\n', .char '[']) gs with
    | error u => exact ⟨_, rfl⟩
    | ok ts => exact ⟨_, rfl⟩
  obtain ⟨errors, herrors⟩ := hparse
  exact Source.refused_of_parse herrors

/-! ## Stages -/

/-- The text of a stage begins with the line of its version. -/
theorem Glsl.stage_version (options : Options) (u : StageUnit) :
    ∃ rest, (dialect options).stage u = "#version " ++ options.target.text ++ "\n" ++ rest := by
  obtain ⟨rest, hrest⟩ : ∃ rest, (dialect options).prelude u.stage = "#version " ++ options.target.text ++ "\n" ++ rest :=
    ⟨_, String.append_assoc⟩
  have hkept : (!((dialect options).prelude u.stage).isEmpty) = true := by
    rw [Bool.not_eq_true', ← Bool.not_eq_true, String.isEmpty_iff, hrest]
    simp
  unfold Dialect.stage Dialect.sections
  rw [filter_cons, if_pos hkept]
  generalize List.filter _ _ = others
  cases others with
  | nil => exact ⟨rest, by rw [String.intercalate_singleton, hrest]⟩
  | cons s ss =>
    rw [String.intercalate_cons_of_ne_nil (cons_ne_nil s ss), hrest, String.append_assoc, String.append_assoc]
    exact ⟨_, rfl⟩

theorem refused_stage (options : Glsl.Options) (u : StageUnit) :
    (Source.ofBytes ((Glsl.dialect options).stage u).toUTF8).Refused := by
  obtain ⟨rest, hrest⟩ := Glsl.stage_version options u
  rw [Source.ofBytes_toUTF8, Source.ofString, hrest]
  simp only [String.toList_append]
  exact refused_of_numberSign _

/-! ## Bindings -/

namespace Toml

/-- The text begins with the header of a table. -/
def Headed (s : String) : Prop := ∃ rest, s.toList = '\n' :: '[' :: rest

/-- Texts that are empty or begin with a header begin with one together, unless all of them are empty. -/
theorem Headed.join {ss : List String} (hall : ∀ s ∈ ss, s = "" ∨ Headed s) (hsome : ∃ s ∈ ss, Headed s) :
    Headed (String.join ss) := by
  induction ss with
  | nil =>
    obtain ⟨_, hmem, -⟩ := hsome
    cases hmem
  | cons s ss ih =>
    rw [String.join_cons]
    rcases hall s mem_cons_self with rfl | ⟨rest, hrest⟩
    · obtain ⟨t, ht, hheaded⟩ := hsome
      rcases mem_cons.1 ht with rfl | ht
      · obtain ⟨_, hempty⟩ := hheaded
        cases hempty
      · rw [String.empty_append]
        exact ih (fun t ht => hall t (mem_cons_of_mem _ ht)) ⟨t, ht, hheaded⟩
    · exact ⟨_, by rw [String.toList_append, hrest]; rfl⟩

theorem headed_tables (path : String) (ts : List Table) : tablesAt "" path ts = "" ∨ Headed (tablesAt "" path ts) := by
  cases ts with
  | nil => exact .inl rfl
  | cons t ts =>
    simp only [Headed, tablesAt, String.toList_append]
    exact .inr ⟨_, rfl⟩

theorem headed_table (path key : String) (t : Table) : Headed (part "" path key (.table t)).text := by
  simp only [Headed, part, String.toList_append]
  exact ⟨_, rfl⟩

/-- The parts are written in another order, but all of them are. -/
theorem mem_ordered {parts : List Part} {p : Part} : p ∈ Part.ordered parts ↔ p ∈ parts := by
  simp only [Part.ordered, mem_append, mem_filter, mem_mergeSort]
  cases p.isTable <;> simp

theorem mem_parts {indent path : String} {es : List (String × Node)} {p : Part} (h : p ∈ parts indent path es) :
    ∃ e ∈ es, p = part indent path e.1 e.2 := by
  induction es with
  | nil => cases h
  | cons e es ih =>
    obtain ⟨key, n⟩ := e
    rw [parts] at h
    rcases mem_cons.1 h with rfl | h
    · exact ⟨(key, n), mem_cons_self, rfl⟩
    · obtain ⟨e, he, rfl⟩ := ih h
      exact ⟨e, mem_cons_of_mem _ he, rfl⟩

end Toml

/-- Bindings are tables only, and there is one for each stage. -/
theorem Bindings.headed_text (b : Bindings) : Toml.Headed b.text := by
  refine Toml.Headed.join (fun s hs => ?_) ?_
  · obtain ⟨p, hp, rfl⟩ := mem_map.1 hs
    obtain ⟨e, he, rfl⟩ := Toml.mem_parts (Toml.mem_ordered.1 hp)
    simp only [mem_cons, not_mem_nil, or_false] at he
    rcases he with rfl | rfl | rfl | rfl | rfl
    · exact Toml.headed_tables _ _
    · exact Toml.headed_tables _ _
    · exact Toml.headed_tables _ _
    · exact .inr (Toml.headed_table _ _ _)
    · exact .inr (Toml.headed_table _ _ _)
  · refine ⟨_, mem_map_of_mem (Toml.mem_ordered.2 ?_), Toml.headed_table "" "vertex" b.vertex.table⟩
    simp [Toml.parts]

theorem refused_bindings (b : Bindings) : (Source.ofBytes b.text.toUTF8).Refused := by
  obtain ⟨rest, hrest⟩ := b.headed_text
  rw [Source.ofBytes_toUTF8, Source.ofString, hrest]
  exact refused_of_bracket _

end Shading
