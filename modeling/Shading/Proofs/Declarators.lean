import Shading.Proofs.Carriers.Texts
import Shading.Proofs.Naming

/-!
# Spellings of array types

A type is written in two ways: by itself, as the type of a result, and around the name that is declared with it. Either
text is read as the target language reads it, where the first length in brackets is the outermost. A declaration has the
lengths in this order and means its type. A type that stands by itself has them in the order of the source, which is the
other one, so it means its type if and only if its lengths are the same from both ends (`declarator_means_iff_ty`).
-/

namespace Shading

open List Text

/-- A type as a text means it, with the text of each length. -/
inductive Meant where
  | named (name : String)
  | array (elem : Meant) (length : String)
deriving DecidableEq

namespace Meant

/-- The arrays of the given lengths, the outermost first. -/
def arrays (elem : Meant) (lengths : List String) : Meant := lengths.foldr (fun n m => .array m n) elem

/-- A text and the lengths in brackets behind it. -/
def cutLengths (s : String) : String × List String :=
  match (s.toList.splitOn '[').map String.ofList with
  | [] => (s, [])
  | name :: lengths => (name, lengths.map (trimEnd "]"))

/-- The type that a text means by itself: behind a name, `[a][b]` makes an array of `a` arrays of `b` elements. -/
def ofText (s : String) : Meant := arrays (.named (cutLengths s).1) (cutLengths s).2

/-- The name that a text declares and its type: behind the name, `[a][b]` does the same. -/
def ofDeclaration (s : String) : String × Meant :=
  let (ty, declared) := cutAt ' ' s
  let (name, lengths) := cutLengths (declared.getD "")
  (name, arrays (ofText ty) lengths)

theorem arrays_inj {name : String} {ms ns : List String} :
    arrays (.named name) ms = arrays (.named name) ns ↔ ms = ns := by
  induction ms generalizing ns with
  | nil => cases ns <;> simp [arrays]
  | cons m ms ih =>
    cases ns with
    | nil => simp [arrays]
    | cons n ns =>
      simp only [arrays, foldr_cons, array.injEq, List.cons.injEq] at ih ⊢
      rw [ih, and_comm]

/-- The lengths are found behind a text without brackets. -/
theorem cutLengths_append {s : String} (hs : '[' ∉ s.toList) (ns : List Int) :
    cutLengths (s ++ String.join (ns.map fun n => "[" ++ toString n ++ "]")) = (s, ns.map toString) := by
  have hsplit : ((s ++ String.join (ns.map fun n => "[" ++ toString n ++ "]")).toList.splitOn '[').map String.ofList =
      s :: ns.map fun n => toString n ++ "]" := by
    induction ns generalizing s with
    | nil => simp [splitOn_eq_singleton hs]
    | cons n ns ih =>
      have hn : '[' ∉ (toString n ++ "]").toList := by
        simpa using Glsl.toString_int_not_mem (by decide) (by decide) n
      have hchars : (s ++ String.join ((n :: ns).map fun n => "[" ++ toString n ++ "]")).toList = s.toList ++
          '[' :: (toString n ++ "]" ++ String.join (ns.map fun n => "[" ++ toString n ++ "]")).toList := by
        simp
      rw [hchars, splitOn_append_cons_self, splitOn_eq_singleton hs, map_append, ih hn]
      simp
  simp only [cutLengths, hsplit, map_map]
  refine congrArg (Prod.mk s) (map_congr_left fun n _ => ?_)
  exact trimEnd_append _ _

end Meant

namespace Dialect
open Meant

/-- What a text of the type should mean. -/
def meaning (d : Dialect) : Ty → Meant
  | .array elem len => .array (d.meaning elem) (toString len)
  | t => .named (d.ty t)

theorem meaning_eq (d : Dialect) (t : Ty) :
    d.meaning t = arrays (.named (d.ty t.dimensions.2)) (t.dimensions.1.map toString) := by
  induction t with
  | void | basic | struct => rfl
  | array elem len ih => rw [meaning, ih]; rfl

/-- By itself, a type is written with the lengths from the innermost to the outermost. -/
theorem ty_eq (d : Dialect) (t : Ty) :
    d.ty t = d.ty t.dimensions.2 ++ String.join (t.dimensions.1.reverse.map fun n => "[" ++ toString n ++ "]") := by
  induction t with
  | void | basic | struct => simp [Ty.dimensions]
  | array elem len ih =>
    rw [ty, ih]
    simp [Ty.dimensions, String.append_assoc]

end Dialect

namespace Glsl
open Meant

variable {o : Options} {t : Ty}

theorem wordChars_root (ht : ∀ s ∈ t.structNames, Token.IsName s) : WordChars ((dialect o).ty t.dimensions.2) := by
  induction t with
  | void => exact (by decide : WordChars "void")
  | basic b => exact .basicTy b
  | struct s => exact wordChars_ident (ht s (mem_singleton.2 rfl))
  | array elem len ih => exact ih ht

/-- **Spellings of array types.** A declaration declares its name with the type that it is for. The text of the type itself
means the arrays of its lengths in the other order, so it means the type exactly if its lengths are the same from both
ends. -/
theorem declarator_means_iff_ty (ht : ∀ s ∈ t.structNames, Token.IsName s) {x : String} (hx : '[' ∉ x.toList) :
    ofDeclaration ((dialect o).declarator t x) = (x, (dialect o).meaning t) ∧
    ofText ((dialect o).ty t) =
      arrays (.named ((dialect o).ty t.dimensions.2)) (t.dimensions.1.reverse.map toString) ∧
    (ofText ((dialect o).ty t) = (dialect o).meaning t ↔ t.dimensions.1.reverse = t.dimensions.1) := by
  have hroot := wordChars_root (o := o) ht
  have htext : ofText ((dialect o).ty t) =
      arrays (.named ((dialect o).ty t.dimensions.2)) (t.dimensions.1.reverse.map toString) := by
    rw [ofText, Dialect.ty_eq, cutLengths_append hroot.bracket_not_mem]
  refine ⟨?_, htext, ?_⟩
  · have hbase : ofText ((dialect o).ty t.dimensions.2) = .named ((dialect o).ty t.dimensions.2) := by
      have hcut := cutLengths_append hroot.bracket_not_mem []
      rw [map_nil, String.join_nil, String.append_empty] at hcut
      rw [ofText, hcut]
      rfl
    have hblank : (dialect o).declarator t x = (dialect o).ty t.dimensions.2 ++ (String.singleton ' ' ++
        (x ++ String.join (t.dimensions.1.map fun n => "[" ++ toString n ++ "]"))) := by
      simp only [Dialect.declarator, String.append_assoc]
      rfl
    rw [ofDeclaration, hblank, cutAt_append hroot.blank_not_mem]
    simp only [Option.getD_some, cutLengths_append hx, hbase, Dialect.meaning_eq]
  · rw [htext, Dialect.meaning_eq, arrays_inj]
    exact map_inj_right fun m n h => Int.repr_inj.1 h

/-- An array of structs means its type in either place. -/
theorem array_of_structs_means :
    let t : Ty := .array (.struct "L") 4
    ofDeclaration ((dialect {}).declarator t "u_lights") = ("u_lights", (dialect {}).meaning t) ∧
      ofText ((dialect {}).ty t) = (dialect {}).meaning t := by
  intro t
  have hname : Token.IsName "L" := ⟨⟨'L', [], rfl, by decide, forall_mem_nil _⟩, by decide⟩
  obtain ⟨hdeclared, -, htext⟩ := declarator_means_iff_ty (o := {}) (t := t) (x := "u_lights")
    (fun s hs => mem_singleton.1 hs ▸ hname) (by decide)
  exact ⟨hdeclared, htext.2 rfl⟩

/-- A function that returns three arrays of two takes them as such, and its result is declared as two arrays of three. -/
theorem nested_result_turned :
    let src := Source.ofString <| "fn same(m: float[2][3]) -> float[2][3] \x7b return m; \x7d\nuniform u: float[2][3];\n" ++
      "fn vertex() -> vec4 \x7b return vec4(same(u)[2][1]); \x7d\nfn fragment() -> vec4 \x7b return vec4(1); \x7d"
    let t : Ty := .array (.array .float 2) 3
    ∃ (p : Program) (events : List Event), compile {} [] src = (.ok (p.write (dialect {})), events) ∧
      (p.vertex.fns.map fun f => (f.name, f.params, f.result)) = [("same", [("m", t)], t), ("vertex", [], .vec4)] ∧
      (dialect {}).ty t = "float[2][3]" ∧ ofText "float[2][3]" = .array (.array (.named "float") "3") "2" ∧
      (dialect {}).meaning t = .array (.array (.named "float") "2") "3" := by
  intro src t
  obtain ⟨-, p, events, -, -, hrun, hfns⟩ := compile_of_parse
    (show (parse src).toOption.any (fun decls =>
      (Program.check (Builtin.defaults ++ []) (dialect {}).sharesDecls decls).1.toOption.any fun p =>
        (p.vertex.fns.map fun f => (f.name, f.params, f.result)) == [("same", [("m", t)], t), ("vertex", [], .vec4)]) = true
      by decide +kernel)
  exact ⟨p, events, hrun, beq_iff_eq.1 hfns, by decide +kernel, by decide +kernel, by decide +kernel⟩

/-- A single length is not turned around. -/
example : ofText ((dialect {}).ty (.array .float 3)) = (dialect {}).meaning (.array .float 3) := by decide +kernel

end Glsl

end Shading
