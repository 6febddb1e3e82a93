import Shading.Proofs.Carriers.Copies
import Shading.Proofs.StageInterface

/-!
# What the text of a stage says of its varyings

No line of the text of a stage declares what passes between the stages but those of the varyings, and none begins the
main function but the last that could. Lines inside of blocks are indented, other lines are told by their first word,
and no name of the shader is written like a word of the language. So a text can be read without knowing the shader.
-/

namespace Shading

open List Text

/-- The names in the head of a declaration, structs in the types included. -/
def Item.words : Item → List Ident
  | .struct d => d.name :: d.members.flatMap fun m => m.1 :: m.2.structNames
  | .block b => b.name :: b.vars.flatMap fun v => v.1 :: v.2.structNames
  | .attributeVar v | .varyingVar v => v.1 :: v.2.structNames
  | .fn f => f.name :: (f.result.structNames ++ f.params.flatMap fun p => p.1 :: p.2.structNames)

theorem Text.OneLine.intercalate {sep : String} (hsep : OneLine sep) {ts : List String} (h : ∀ t ∈ ts, OneLine t) :
    OneLine (sep.intercalate ts) := by
  induction ts with
  | nil =>
    rw [String.intercalate_nil]
    decide
  | cons t ts ih =>
    rw [forall_mem_cons] at h
    by_cases hts : ts = []
    · rw [hts, String.intercalate_singleton]
      exact h.1
    · rw [String.intercalate_cons_of_ne_nil hts]
      exact (h.1.append hsep).append (ih h.2)

namespace Glsl

/-! ## Texts on one line -/

section OneLine

variable {o : Options} {t : Ty} {x : Ident}

theorem wordChars_ident (hx : Token.IsName x) : WordChars (ident x) := by
  rw [ident_eq hx.ne_empty]
  split
  · exact (by decide : WordChars "_").append (.of_isName hx)
  · exact .of_isName hx

theorem mem_toString_int {i : Int} {c : Char} (h : c ∈ (toString i).toList) : c = '-' ∨ c.isDigit = true := by
  rw [Value.toString_int, String.toList_ofList, mem_append] at h
  rcases h with h | h
  · unfold Value.signChars at h
    split at h
    · exact .inl (mem_singleton.1 h)
    · cases h
  · exact .inr (Nat.isDigit_of_mem_toDigits (by decide) (by decide) h)

theorem toString_int_not_mem {c : Char} (hminus : c ≠ '-') (hdigit : c.isDigit = false) (i : Int) :
    c ∉ (toString i).toList := by
  intro h
  rcases mem_toString_int h with rfl | h
  · exact hminus rfl
  · rw [hdigit] at h
    cases h

/-- A character that stands in no word, number or brackets stands in no type. -/
theorem ty_not_mem {c : Char} (hword : Token.isWordGlyph (.char c) = false) (hdigit : c.isDigit = false)
    (hother : c ∉ ['[', ']', '-']) (ht : ∀ s ∈ t.structNames, Token.IsName s) : c ∉ ((dialect o).ty t).toList := by
  have hname : ∀ {s : String}, WordChars s → c ∉ s.toList := fun hs => hs.not_mem hword
  simp only [mem_cons, not_mem_nil, or_false, not_or] at hother
  induction t with
  | void => exact hname (by decide : WordChars "void")
  | basic b => exact hname (.basicTy b)
  | struct s => exact hname (wordChars_ident (ht s (mem_singleton.2 rfl)))
  | array elem len ih =>
    have hlen := toString_int_not_mem hother.2.2 hdigit len
    have helem := ih ht
    simp only [Dialect.ty, String.toList_append, mem_append, not_or]
    refine ⟨⟨⟨helem, ?_⟩, hlen⟩, ?_⟩
    · simpa using hother.1
    · simpa using hother.2.1

theorem blank_not_mem_ty (ht : ∀ s ∈ t.structNames, Token.IsName s) : ' ' ∉ ((dialect o).ty t).toList :=
  ty_not_mem (by decide) (by decide) (by decide) ht

theorem oneLine_ty (ht : ∀ s ∈ t.structNames, Token.IsName s) : OneLine ((dialect o).ty t) :=
  ty_not_mem (by decide) (by decide) (by decide) ht

theorem structNames_dimensions : ∀ t : Ty, t.dimensions.2.structNames = t.structNames
  | .void | .basic _ | .struct _ => rfl
  | .array elem _ => structNames_dimensions elem

theorem oneLine_declarator (ht : ∀ s ∈ t.structNames, Token.IsName s) {name : String} (hname : OneLine name) :
    OneLine ((dialect o).declarator t name) := by
  unfold Dialect.declarator
  refine (((oneLine_ty ?_).append (by decide)).append hname).append (.join fun s hs => ?_)
  · rwa [structNames_dimensions]
  · obtain ⟨n, -, rfl⟩ := mem_map.1 hs
    exact ((by decide : OneLine "[").append (toString_int_not_mem (by decide) (by decide) n)).append (by decide)

/-- The declarator of a variable whose name has a mark in front. -/
theorem oneLine_marked {mark : String} (hmark : OneLine mark) {y : Ident × Ty}
    (hy : ∀ s ∈ y.1 :: y.2.structNames, Token.IsName s) : OneLine ((dialect o).declarator y.2 (mark ++ y.1)) := by
  rw [forall_mem_cons] at hy
  exact oneLine_declarator hy.2 (hmark.append (WordChars.of_isName hy.1).oneLine)

/-- The declarator of a member or a parameter. -/
theorem oneLine_named {y : Ident × Ty} (hy : ∀ s ∈ y.1 :: y.2.structNames, Token.IsName s) :
    OneLine ((dialect o).declarator y.2 (ident y.1)) := by
  rw [forall_mem_cons] at hy
  exact oneLine_declarator hy.2 (wordChars_ident hy.1).oneLine

end OneLine

/-! ## Lines that say nothing of varyings -/

section Quiet

variable {o : Options} {v : Version} {stage : Stage} {s t line : String}

/-- The line declares nothing that passes, and does not begin the main function. -/
def Plain (v : Version) (stage : Stage) (line : String) : Prop :=
  Passing.read? v stage line = none ∧ line ≠ mainHeading

theorem read?_eq_none (hflat : firstWord line ≠ "flat") (hword : firstWord line ≠ passingWord v stage) :
    Passing.read? v stage line = none := by
  unfold Passing.read?
  rw [show "flat " = "flat" ++ " " from rfl, behind?_word (by decide) hflat]
  dsimp only [Option.getD_none]
  rw [behind?_word (wordChars_passingWord v stage).blank_not_mem hword, Option.map_none]

/-- The words that matter at the beginning of a line. -/
def leadingWords : List String := ["flat", "void", "in", "out", "varying"]

theorem plain_of_firstWord (h : firstWord line ∉ leadingWords) : Plain v stage line := by
  constructor
  · apply read?_eq_none
    · intro hflat
      exact h (hflat ▸ .head _)
    · intro hword
      have hmem : passingWord v stage ∈ leadingWords := .tail _ (.tail _ (passingWord_mem v stage))
      exact h (hword ▸ hmem)
  · rintro rfl
    exact h (by decide)

theorem plain_of_word (hblank : ' ' ∉ s.toList) (h : s ∉ leadingWords) (t : String) :
    Plain v stage (s ++ (" " ++ t)) := by
  apply plain_of_firstWord
  rwa [firstWord_append hblank]

theorem plain_indented (t : String) : Plain v stage (indent ++ t) := by
  have hline : indent ++ t = "" ++ (" " ++ ("   " ++ t)) := by
    rw [← String.toList_inj]
    simp [indent]
  rw [hline]
  exact plain_of_word (by decide) (by decide) _

/-- The text consists of lines that say nothing of varyings. -/
def Quiet (v : Version) (stage : Stage) (text : String) : Prop :=
  ∃ ls, text = ofLines ls ∧ ∀ l ∈ ls, OneLine l ∧ Plain v stage l

namespace Quiet

theorem whole (h : Quiet v stage s) : Whole s := by
  obtain ⟨ls, rfl, -⟩ := h
  exact .ofLines ls

theorem plain (h : Quiet v stage s) : ∀ l ∈ codeLines s, Plain v stage l := by
  obtain ⟨ls, rfl, hls⟩ := h
  rw [codeLines_ofLines fun l hl => (hls l hl).1]
  intro l hl
  exact (hls l (mem_filter.1 hl).1).2

theorem append (hs : Quiet v stage s) (ht : Quiet v stage t) : Quiet v stage (s ++ t) := by
  obtain ⟨ls, rfl, hls⟩ := hs
  obtain ⟨ms, rfl, hms⟩ := ht
  exact ⟨ls ++ ms, (ofLines_append ls ms).symm, forall_mem_append.2 ⟨hls, hms⟩⟩

theorem empty : Quiet v stage "" := ⟨[], rfl, forall_mem_nil _⟩

theorem join {ts : List String} (h : ∀ t ∈ ts, Quiet v stage t) : Quiet v stage (String.join ts) := by
  induction ts with
  | nil => exact empty
  | cons t ts ih =>
    rw [forall_mem_cons] at h
    rw [String.join_cons]
    exact h.1.append (ih h.2)

theorem of_line (hline : OneLine line) (hplain : Plain v stage line) : Quiet v stage (line ++ "\n") :=
  ⟨[line], by simp, fun _ hl => mem_singleton.1 hl ▸ ⟨hline, hplain⟩⟩

/-- A line that begins with a word other than those that matter. -/
theorem of_word (hs : OneLine s) (hblank : ' ' ∉ s.toList) (hword : s ∉ leadingWords) (ht : OneLine t)
    {text : String} (htext : text = s ++ (" " ++ t) ++ "\n") : Quiet v stage text := by
  rw [htext]
  exact .of_line (hs.append ((by decide : OneLine " ").append ht)) (plain_of_word hblank hword t)

/-- An indented line. -/
theorem of_indented (ht : OneLine t) {text : String} (htext : text = indent ++ t ++ "\n") : Quiet v stage text := by
  rw [htext]
  exact .of_line ((by decide : OneLine indent).append ht) (plain_indented t)

/-- A line that closes a block. -/
theorem of_closing (line : String) (hline : line ∈ ["\x7d", "\x7d;"]) : Quiet v stage (line ++ "\n") := by
  have hall : ∀ l ∈ ["\x7d", "\x7d;"], OneLine l ∧ firstWord l ∉ leadingWords := by decide
  exact .of_line (hall line hline).1 (plain_of_firstWord (hall line hline).2)

end Quiet

end Quiet

/-! ## Declarations -/

section Items

variable {o : Options} {v : Version} {stage : Stage}

theorem oneLine_nat (n : Nat) : OneLine (toString n) := (WordChars.nat n).oneLine

theorem oneLine_version (v : Version) : OneLine v.text := by
  have hnumber : OneLine v.numberText := by
    refine ((oneLine_nat _).append ?_).append (oneLine_nat _)
    split <;> decide
  unfold Version.text
  split
  · split
    · exact hnumber
    · exact hnumber.append (by decide)
  · exact hnumber.append (by decide)

theorem quiet_prelude (o : Options) (v : Version) (stage : Stage) : Quiet v stage (prelude o stage) := by
  unfold prelude
  dsimp only
  refine .append (.append ?_ ?_) ?_
  · exact .of_word (s := "#version") (t := o.version.text) (by decide) (by decide) (by decide) (oneLine_version _)
      (by rw [← String.toList_inj]; simp)
  · split
    · refine .of_word (s := "//") (t := stage.name ++ " shader") (by decide) (by decide) (by decide) ?_
        (by rw [← String.toList_inj]; simp)
      cases stage <;> decide
    · exact .empty
  · split
    · have hline : ∀ ty ∈ ["float", "int"], Quiet v stage ("precision" ++
          (" " ++ ((if o.highPrecision then "highp" else "mediump") ++ (" " ++ ty ++ ";"))) ++ "\n") := by
        intro ty hty
        refine .of_word (by decide) (by decide) (by decide) (.append ?_ ?_) rfl
        · split <;> decide
        · simp only [mem_cons, not_mem_nil, or_false] at hty
          rcases hty with rfl | rfl <;> decide
      have htext := (hline "float" (by simp)).append (hline "int" (by simp))
      convert htext using 1
      rw [← String.toList_inj]
      simp
    · exact .empty

theorem quiet_struct {d : StructDef} (h : ∀ x ∈ (Item.struct d).words, Token.IsName x) :
    Quiet v stage ((dialect o).struct d) := by
  rw [Item.words, forall_mem_cons, forall_mem_flatMap] at h
  refine .append (.append ?_ (.join fun t ht => ?_)) ?_
  · exact .of_word (s := "struct") (t := ident d.name ++ " \x7b") (by decide) (by decide) (by decide)
      ((wordChars_ident h.1).oneLine.append (by decide)) (by rw [← String.toList_inj]; simp; rfl)
  · obtain ⟨m, hm, rfl⟩ := mem_map.1 ht
    exact .of_indented (t := (dialect o).declarator m.2 (ident m.1) ++ ";")
      ((oneLine_named (h.2 m hm)).append (by decide)) (by rw [← String.toList_inj]; simp; rfl)
  · exact .of_closing "\x7d;" (by decide)

/-- Attributes go into the vertex stage, and what passes goes out of it. -/
theorem quiet_attributeDecl {y : Ident × Ty} (h : ∀ x ∈ (Item.attributeVar y).words, Token.IsName x) (v : Version) :
    Quiet v .vertex (attributeDecl v ((dialect o).attributeDeclarator y)) := by
  have hone : OneLine ((dialect o).attributeDeclarator y ++ ";") := .append (oneLine_marked (by decide) h) (by decide)
  unfold attributeDecl
  cases hv : v.hasInOut with
  | false =>
    exact .of_word (s := "attribute") (t := (dialect o).attributeDeclarator y ++ ";") (by decide) (by decide)
      (by decide) hone (by rw [← String.toList_inj]; simp)
  | true =>
    have hfirst : firstWord ("in" ++ (" " ++ ((dialect o).attributeDeclarator y ++ ";"))) = "in" :=
      firstWord_append (by decide) _
    have hplain : Plain v .vertex ("in" ++ (" " ++ ((dialect o).attributeDeclarator y ++ ";"))) := by
      refine ⟨read?_eq_none ?_ ?_, ?_⟩
      · rw [hfirst]
        decide
      · rw [hfirst, passingWord, hv]
        decide
      · intro hmain
        rw [hmain] at hfirst
        revert hfirst
        decide
    have hquiet := Quiet.of_line ((by decide : OneLine "in").append ((by decide : OneLine " ").append hone)) hplain
    convert hquiet using 1
    rw [← String.toList_inj]
    simp

theorem quiet_uniformBlock {b : UniformBlock} (h : ∀ x ∈ (Item.block b).words, Token.IsName x) :
    Quiet v stage ((dialect o).uniformBlock b.name (b.vars.map ((dialect o).uniformDeclarator b.name))) := by
  rw [Item.words, forall_mem_cons, forall_mem_flatMap] at h
  have hone : ∀ t ∈ b.vars.map ((dialect o).uniformDeclarator b.name), OneLine t := by
    intro t ht
    obtain ⟨y, hy, rfl⟩ := mem_map.1 ht
    exact oneLine_marked (by decide) (h.2 y hy)
  show Quiet v stage (uniformBlock o.settled.version b.name _)
  unfold uniformBlock
  split
  · refine .join fun t ht => ?_
    obtain ⟨y, hy, rfl⟩ := mem_map.1 ht
    exact .of_word (s := "uniform") (t := y ++ ";") (by decide) (by decide) (by decide)
      ((hone y hy).append (by decide)) (by rw [← String.toList_inj]; simp)
  · refine .append (.append ?_ (.join fun t ht => ?_)) ?_
    · exact .of_word (s := "layout(std140)") (t := "uniform " ++ ident b.name ++ " \x7b") (by decide) (by decide)
        (by decide) (.append (.append (by decide) (wordChars_ident h.1).oneLine) (by decide))
        (by rw [← String.toList_inj]; simp)
    · obtain ⟨y, hy, rfl⟩ := mem_map.1 ht
      exact .of_indented (t := y ++ ";") ((hone y hy).append (by decide)) (by rw [← String.toList_inj]; simp [indent])
    · exact .of_closing "\x7d;" (by decide)

theorem isReserved_leadingWords : ∀ w ∈ leadingWords, isReserved w = true := by decide +kernel

theorem basicTy_not_mem_leadingWords (b : BasicTy) : b.name ∉ leadingWords := by
  cases b with
  | scalar k => cases k <;> decide
  | vector k n => cases k <;> cases n <;> decide
  | matrix n => cases n <;> decide

/-- No type but void is written like a word that matters at the beginning of a line. -/
theorem ty_mem_leadingWords {t : Ty} (ht : ∀ s ∈ t.structNames, Token.IsName s)
    (h : (dialect o).ty t ∈ leadingWords) : t = .void := by
  cases t with
  | void => rfl
  | basic b => exact absurd h (basicTy_not_mem_leadingWords b)
  | struct s =>
    have hreserved := isReserved_leadingWords _ h
    rw [show (dialect o).ty (.struct s) = ident s from rfl,
      isReserved_ident] at hreserved
    cases hreserved
  | array elem len =>
    have hbracket : ∀ w ∈ leadingWords, ']' ∉ w.toList := by decide
    exact absurd (by simp [Dialect.ty]) (hbracket _ h)

/-- The line that opens a function declares nothing that passes, and the function is not the main function. -/
theorem plain_heading {result name rest : String} (hblank : ' ' ∉ result.toList)
    (hresult : result ∈ leadingWords → result = "void") (hname : Token.IsName name) :
    Plain v stage (result ++ (" " ++ (ident name ++ ("(" ++ rest)))) := by
  have hfirst : firstWord (result ++ (" " ++ (ident name ++ ("(" ++ rest)))) = result := firstWord_append hblank _
  refine ⟨read?_eq_none ?_ ?_, ?_⟩
  · rw [hfirst]
    rintro rfl
    exact absurd (hresult (by decide)) (by decide)
  · rw [hfirst]
    rintro rfl
    have hvoid := hresult (.tail _ (.tail _ (passingWord_mem v stage)))
    exact passingWord_ne (by decide) v stage hvoid
  · intro hmain
    have hcut := congrArg (cutAt ' ') hmain
    rw [show " " = String.singleton ' ' from rfl, cutAt_append hblank,
      show mainHeading = "void" ++ (String.singleton ' ' ++ ("main" ++ (String.singleton '(' ++ ") \x7b"))) from rfl,
      cutAt_append (by decide), Prod.mk.injEq, Option.some.injEq] at hcut
    have hcut' := congrArg (cutAt '(') hcut.2
    rw [show "(" = String.singleton '(' from rfl, cutAt_append ((wordChars_ident hname).not_mem (by decide)),
      cutAt_append (by decide), Prod.mk.injEq] at hcut'
    have hreserved : isReserved "main" = true := by decide +kernel
    rw [← hcut'.1, isReserved_ident] at hreserved
    cases hreserved

theorem quiet_indentLines (s : String) : Quiet v stage (indentLines s) := by
  refine .join fun t ht => ?_
  obtain ⟨line, hline, rfl⟩ := mem_map.1 ht
  exact .of_indented (oneLine_of_mem_lines hline) rfl

/-- A function by its first line, its body and its last line. -/
theorem fn_eq (o : Options) (f : FnDef) : (dialect o).fn f =
    (dialect o).ty f.result ++ (" " ++ (ident f.name ++ ("(" ++
      (", ".intercalate (f.params.map fun p => (dialect o).declarator p.2 (ident p.1)) ++ ") \x7b")))) ++ "\n" ++
      String.join (((dialect o).codes f.body).map indentLines) ++ ("\x7d" ++ "\n") := by
  change (dialect o).ty f.result ++ " " ++ ident f.name ++
    list (f.params.map fun p => (dialect o).declarator p.2 (ident p.1)) ++ " " ++ braced ((dialect o).codes f.body) ++
    "\n" = _
  rw [← String.toList_inj]
  simp [braced, list]

theorem quiet_fn {f : FnDef} (h : ∀ x ∈ (Item.fn f).words, Token.IsName x) : Quiet v stage ((dialect o).fn f) := by
  rw [Item.words, forall_mem_cons, forall_mem_append, forall_mem_flatMap] at h
  obtain ⟨hname, hresult, hparams⟩ := h
  have hlist : OneLine (", ".intercalate (f.params.map fun p => (dialect o).declarator p.2 (ident p.1))) := by
    refine .intercalate (by decide) fun t ht => ?_
    obtain ⟨p, hp, rfl⟩ := mem_map.1 ht
    exact oneLine_named (hparams p hp)
  have hvoid : (dialect o).ty f.result ∈ leadingWords → (dialect o).ty f.result = "void" := by
    intro hmem
    rw [ty_mem_leadingWords hresult hmem]
    rfl
  rw [fn_eq]
  refine .append (.append (.of_line ?_ ?_) (.join fun t ht => ?_)) (.of_closing "\x7d" (by decide))
  · refine (oneLine_ty hresult).append (.append (by decide) ((wordChars_ident hname).oneLine.append ?_))
    exact .append (by decide) (hlist.append (by decide))
  · exact plain_heading (blank_not_mem_ty hresult) hvoid hname
  · obtain ⟨s, -, rfl⟩ := mem_map.1 ht
    exact quiet_indentLines s

end Items

/-! ## Varyings and the main function -/

section Varyings

variable {o : Options} {v : Version} {stage : Stage} {x : Varying} {vs : List Varying}

theorem oneLine_dims (x : Varying) : OneLine x.dims := by
  obtain ⟨_, _, _ | n⟩ := x
  · exact (by decide : OneLine "")
  · exact ((by decide : OneLine "[").append (oneLine_nat n)).append (by decide)

theorem oneLine_varyingDeclarator (hx : x.Legible) (ty : BasicTy) {mark : String} (hmark : WordChars mark) :
    OneLine (declarator ty (mark ++ x.name) x) :=
  (WordChars.basicTy ty).oneLine.append
    ((by decide : OneLine " ").append ((hmark.append hx.name).oneLine.append (oneLine_dims x)))

theorem quiet_privateDecl (hx : x.Legible) : Quiet v stage (privateDecl v x) := by
  unfold privateDecl
  split
  · refine .of_line ((oneLine_varyingDeclarator hx _ (by decide)).append (by decide)) ?_
    rw [declarator, String.append_assoc, String.append_assoc]
    exact plain_of_word (WordChars.basicTy x.ty).blank_not_mem (basicTy_not_mem_leadingWords x.ty) _
  · exact .empty

theorem oneLine_passingLine (hx : x.Legible) (v : Version) (stage : Stage) : OneLine (passingLine v stage x) := by
  unfold passingLine
  refine .append ?_ (.append ((wordChars_passingWord v stage).oneLine.append (by decide)) ?_)
  · split <;> decide
  · exact (oneLine_varyingDeclarator hx _ (wordChars_passingMark v x)).append (by decide)

theorem whole_varyingDecl (hx : x.Legible) (v : Version) (stage : Stage) :
    Whole (varyingDecl v stage (declarator x.ty (varyingMark ++ x.name) x)) := by
  have hquiet : Quiet v stage (privateDecl v x) := quiet_privateDecl hx
  rw [varyingDecl_eq]
  exact hquiet.whole.append (.line _)

/-- The lines of a varying: one for what passes, and perhaps one for the varying itself. -/
theorem codeLines_varyingDecl (hx : x.Legible) (v : Version) (stage : Stage) :
    codeLines (varyingDecl v stage (declarator x.ty (varyingMark ++ x.name) x)) =
      codeLines (privateDecl v x) ++ [passingLine v stage x] := by
  have hquiet : Quiet v stage (privateDecl v x) := quiet_privateDecl hx
  have hne : passingLine v stage x ≠ "" := by
    intro hempty
    have hread : Passing.read? v stage (passingLine v stage x) = some (x.passing v) := read?_passingLine hx
    rw [hempty, (plain_of_firstWord (by decide)).1] at hread
    cases hread
  rw [varyingDecl_eq, codeLines_append hquiet.whole, codeLines_newline,
    codeLines_of_oneLine (oneLine_passingLine hx v stage)]
  simp [hne]

theorem passings_of_quiet {text : String} (h : Quiet v stage text) : passings v stage text = [] := by
  rw [passings, filterMap_eq_nil_iff]
  exact fun l hl => (h.plain l hl).1

theorem passings_varyingDecl (hx : x.Legible) (v : Version) (stage : Stage) :
    passings v stage (varyingDecl v stage (declarator x.ty (varyingMark ++ x.name) x)) = [x.passing v] := by
  have hprivate : passings v stage (privateDecl v x) = [] := passings_of_quiet (quiet_privateDecl hx)
  rw [passings] at hprivate
  rw [passings, codeLines_varyingDecl hx, filterMap_append, hprivate, nil_append,
    filterMap_cons_some (read?_passingLine hx), filterMap_nil]

theorem read?_mainHeading (v : Version) (stage : Stage) : Passing.read? v stage mainHeading = none := by
  exact read?_eq_none (by decide) (passingWord_ne (by decide) v stage).symm

/-- A line for a varying does not begin the main function. -/
theorem mainHeading_not_mem_varyingDecl (hx : x.Legible) (v : Version) (stage : Stage) :
    mainHeading ∉ codeLines (varyingDecl v stage (declarator x.ty (varyingMark ++ x.name) x)) := by
  have hquiet : Quiet v stage (privateDecl v x) := quiet_privateDecl hx
  have hread := read?_mainHeading v stage
  rw [codeLines_varyingDecl hx, mem_append, mem_singleton, not_or]
  refine ⟨fun hmem => (hquiet.plain _ hmem).2 rfl, fun hline => ?_⟩
  rw [hline, read?_passingLine hx] at hread
  cases hread

theorem oneLine_element {e : String} (he : e ∈ x.elements) : OneLine e := by
  rcases eq_of_mem_elements he with rfl | ⟨n, rfl⟩
  · decide
  · exact ((by decide : OneLine "[").append (oneLine_nat n)).append (by decide)

theorem indented_assignLine {target conversion source : String} (htarget : OneLine target)
    (hconversion : OneLine conversion) (hsource : OneLine source) :
    ∃ t, OneLine t ∧ assignLine target conversion source = indent ++ t := by
  refine ⟨target ++ " = " ++ conversion ++ "(" ++ source ++ ");", ?_, ?_⟩
  · refine .append (.append (.append (.append (.append htarget ?_) hconversion) ?_) hsource) ?_ <;> decide
  · simp [assignLine, indent, String.append_assoc]

/-- The lines of the main function are indented. -/
theorem indented_of_mem_mainLines (hvs : ∀ x ∈ vs, x.Legible) {line : String} (h : line ∈ mainLines v stage vs) :
    ∃ t, OneLine t ∧ line = indent ++ t := by
  rcases mem_mainLines.1 h with rfl | ⟨x, hx, hline⟩
  · refine ⟨outputVar v stage ++ " = " ++ stage.entryPoint ++ "();", ?_, ?_⟩
    · refine .append (.append (.append (wordChars_outputVar v stage).oneLine (by decide)) ?_) (by decide)
      cases stage <;> decide
    · simp [callLine, indent, String.append_assoc]
  · obtain ⟨carrier, -, e, he, rfl⟩ := mem_copyLines.1 hline
    have hname := (hvs x hx).name.oneLine
    have hvarying : OneLine (varyingMark ++ x.name ++ e) := .append (.append (by decide) hname) (oneLine_element he)
    have hcarrier : OneLine (carrierMark ++ x.name ++ e) := .append (.append (by decide) hname) (oneLine_element he)
    cases stage with
    | vertex => exact indented_assignLine hcarrier (WordChars.basicTy carrier).oneLine hvarying
    | fragment => exact indented_assignLine hvarying (WordChars.basicTy x.ty).oneLine hcarrier

theorem outputLines_plain (v : Version) (stage : Stage) : ∀ l ∈ outputLines v stage, OneLine l ∧ Plain v stage l := by
  cases stage with
  | vertex => exact forall_mem_nil _
  | fragment =>
    unfold outputLines
    cases hv : v.hasInOut with
    | false => exact forall_mem_nil _
    | true =>
      have hfirst : firstWord ("out vec4 " ++ colorOutput ++ ";") = "out" := by decide
      rw [if_pos rfl, forall_mem_cons, forall_mem_singleton]
      refine ⟨⟨by decide, read?_eq_none ?_ ?_, by decide⟩, by decide, plain_of_firstWord (by decide)⟩
      · rw [hfirst]
        decide
      · rw [hfirst, passingWord, hv]
        decide

/-- The lines of the wrapper of a stage. -/
theorem codeLines_wrapper (hvs : ∀ x ∈ vs, x.Legible) (v : Version) (stage : Stage) :
    codeLines (ofLines (outputLines v stage ++ mainHeading :: (mainLines v stage vs ++ ["\x7d"]))) =
      (outputLines v stage).filter (fun l => !l.isEmpty) ++ mainHeading :: (mainLines v stage vs ++ ["\x7d"]) := by
  have hone : ∀ l ∈ mainLines v stage vs, OneLine l ∧ (!l.isEmpty) = true := by
    intro l hl
    obtain ⟨t, ht, rfl⟩ := indented_of_mem_mainLines hvs hl
    exact ⟨(by decide : OneLine indent).append ht, by simp [indent]⟩
  rw [codeLines_ofLines, filter_append, filter_cons_of_pos (by decide), filter_append,
    filter_eq_self.2 fun l hl => (hone l hl).2, filter_cons_of_pos (by decide), filter_nil]
  intro l hl
  simp only [mem_append, mem_cons, not_mem_nil, or_false] at hl
  rcases hl with hl | rfl | hl | rfl
  · exact (outputLines_plain v stage l hl).1
  · decide
  · exact (hone l hl).1
  · decide

end Varyings

end Glsl

/-! ## Stages -/

/-- The names in a unit are words, and its varyings are the given ones; only the vertex stage has attributes. -/
structure StageUnit.Legible (u : StageUnit) (vs : List Varying) : Prop where
  words : ∀ i ∈ u.items, ∀ x ∈ i.words, Token.IsName x
  attributes : u.stage = .fragment → u.attributes = []
  varyings : u.varyings = vs.map Varying.var
  interfaceVaryings : u.interfaceVaryings = vs.map Varying.var
  legible : ∀ x ∈ vs, x.Legible

namespace Glsl

section Stages

variable {u : StageUnit} {vs : List Varying}

theorem varyingDecl_var (o : Options) (stage : Stage) (x : Varying) :
    (dialect o).item stage (.varyingVar x.var) =
      varyingDecl o.target stage (declarator x.ty (varyingMark ++ x.name) x) := by
  rw [← varyingDeclarator_var o x]
  rfl

/-- A declaration says nothing of varyings, or is that of one. -/
theorem quiet_item (o : Options) (h : u.Legible vs) {i : Item} (hi : i ∈ u.items) :
    Quiet o.target u.stage ((dialect o).item u.stage i) ∨ ∃ x ∈ vs, i = .varyingVar x.var := by
  have hwords := h.words i hi
  cases i with
  | struct d => exact .inl (quiet_struct hwords)
  | block b => exact .inl (quiet_uniformBlock hwords)
  | fn f => exact .inl (quiet_fn hwords)
  | attributeVar y =>
    have hstage : u.stage = .vertex := by
      cases hu : u.stage with
      | vertex => rfl
      | fragment =>
        have hy := StageUnit.attributeVar_mem_items.1 hi
        rw [h.attributes hu] at hy
        cases hy
    rw [hstage]
    exact .inl (quiet_attributeDecl hwords o.target)
  | varyingVar y =>
    have hy := StageUnit.varyingVar_mem_items.1 hi
    rw [h.varyings] at hy
    obtain ⟨x, hx, rfl⟩ := mem_map.1 hy
    exact .inr ⟨x, hx, rfl⟩

theorem entryPoint_text (o : Options) (h : u.Legible vs) :
    (dialect o).entryPoint u.stage u.stage.entryPoint (u.interfaceVaryings.map (dialect o).varyingDeclarator) =
      ofLines (outputLines o.target u.stage ++ mainHeading :: (mainLines o.target u.stage vs ++ ["\x7d"])) := by
  have hdeclarators : u.interfaceVaryings.map (dialect o).varyingDeclarator =
      vs.map fun x => declarator x.ty (varyingMark ++ x.name) x := by
    rw [h.interfaceVaryings, map_map]
    exact map_congr_left fun x _ => varyingDeclarator_var o x
  rw [hdeclarators, ← entryPoint_eq h.legible]
  rfl

/-- The lines of a stage: those of its declarations, and then those of its main function. -/
theorem codeLines_stage (o : Options) (h : u.Legible vs) :
    codeLines ((dialect o).stage u) = codeLines (prelude o.settled u.stage) ++
      u.items.flatMap (fun i => codeLines ((dialect o).item u.stage i)) ++
      (outputLines o.target u.stage).filter (fun l => !l.isEmpty) ++
      mainHeading :: (mainLines o.target u.stage vs ++ ["\x7d"]) := by
  have hitems : ∀ i ∈ u.items, Whole ((dialect o).item u.stage i) := by
    intro i hi
    rcases quiet_item o h hi with hquiet | ⟨x, hx, rfl⟩
    · exact hquiet.whole
    · rw [varyingDecl_var]
      exact whole_varyingDecl (h.legible x hx) _ _
  have htext := (dialect o).isText_stage u
  rw [Dialect.IsText, entryPoint_text o h] at htext
  rw [htext.codeLines_eq]
  · rw [flatMap_append, flatMap_cons, flatMap_map, flatMap_singleton, codeLines_wrapper h.legible,
      append_assoc _ ((outputLines o.target u.stage).filter _)]
    rfl
  · simp only [mem_append, mem_cons, not_mem_nil, or_false]
    rintro t ((rfl | ht) | rfl)
    · have hprelude : Quiet o.target u.stage (prelude o.settled u.stage) := quiet_prelude _ _ _
      exact hprelude.whole
    · obtain ⟨i, hi, rfl⟩ := mem_map.1 ht
      exact hitems i hi
    · exact .ofLines _

/-- What passes according to the declarations of a stage. -/
theorem passings_items (o : Options) (h : u.Legible vs) :
    u.items.flatMap (fun i => passings o.target u.stage ((dialect o).item u.stage i)) =
      vs.map (Varying.passing o.target) := by
  have hnone : ∀ {α : Type} {make : α → Item} {l : List α}, (∀ a ∈ l, make a ∈ u.items) →
      (∀ a y, make a ≠ .varyingVar y) →
      (l.map make).flatMap (fun i => passings o.target u.stage ((dialect o).item u.stage i)) = [] := by
    intro α make l hmem hother
    rw [flatMap_eq_nil_iff]
    intro i hi
    obtain ⟨a, ha, rfl⟩ := mem_map.1 hi
    rcases quiet_item o h (hmem a ha) with hquiet | ⟨x, -, heq⟩
    · exact passings_of_quiet hquiet
    · exact absurd heq (hother a _)
  have hvaryings : (u.varyings.map Item.varyingVar).flatMap
      (fun i => passings o.target u.stage ((dialect o).item u.stage i)) = vs.map (Varying.passing o.target) := by
    rw [h.varyings, map_map, flatMap_map, map_eq_flatMap]
    refine flatMap_congr fun x hx => ?_
    rw [Function.comp_apply, varyingDecl_var, passings_varyingDecl (h.legible x hx)]
  have hstructs := hnone (fun d hd => StageUnit.struct_mem_items.2 hd) (by simp)
  have hblocks := hnone (fun b hb => StageUnit.block_mem_items.2 hb) (by simp)
  have hattributes := hnone (fun y hy => StageUnit.attributeVar_mem_items.2 hy) (by simp)
  have hfns := hnone (fun f hf => StageUnit.fn_mem_items.2 hf) (by simp)
  rw [StageUnit.items, StageUnit.interfaceItems, flatMap_append, flatMap_append, flatMap_append,
    flatMap_append, hstructs, hblocks, hattributes, hvaryings, hfns, append_nil]
  rfl

/-- What passes between the stages according to the text of a stage. -/
theorem passings_stage (o : Options) (h : u.Legible vs) :
    passings o.target u.stage ((dialect o).stage u) = vs.map (Varying.passing o.target) := by
  have hprelude : passings o.target u.stage (prelude o.settled u.stage) = [] := passings_of_quiet (quiet_prelude _ _ _)
  have houtput : ((outputLines o.target u.stage).filter fun l => !l.isEmpty).filterMap
      (Passing.read? o.target u.stage) = [] := by
    rw [filterMap_eq_nil_iff]
    exact fun l hl => (outputLines_plain o.target u.stage l (mem_filter.1 hl).1).2.1
  have hmain : (mainHeading :: (mainLines o.target u.stage vs ++ ["\x7d"])).filterMap
      (Passing.read? o.target u.stage) = [] := by
    rw [filterMap_eq_nil_iff, forall_mem_cons, forall_mem_append, forall_mem_singleton]
    refine ⟨read?_mainHeading _ _, fun l hl => ?_, (plain_of_firstWord (by decide)).1⟩
    obtain ⟨t, -, rfl⟩ := indented_of_mem_mainLines h.legible hl
    exact (plain_indented t).1
  rw [passings] at hprelude
  rw [passings, codeLines_stage o h, filterMap_append, filterMap_append, filterMap_append, hprelude,
    houtput, hmain, nil_append, append_nil, append_nil, filterMap_flatMap]
  exact passings_items o h

/-- The lines of the main function in the text of a stage. -/
theorem mainBody_stage (o : Options) (h : u.Legible vs) :
    mainBody ((dialect o).stage u) = mainLines o.target u.stage vs := by
  refine mainBody_eq (codeLines_stage o h) ?_ ?_
  · simp only [mem_append, mem_flatMap, not_or, not_exists, not_and]
    refine ⟨⟨fun hmem => ?_, fun i hi hmem => ?_⟩, fun hmem => ?_⟩
    · have hprelude : Quiet o.target u.stage (prelude o.settled u.stage) := quiet_prelude _ _ _
      exact (hprelude.plain _ hmem).2 rfl
    · rcases quiet_item o h hi with hquiet | ⟨x, hx, rfl⟩
      · exact (hquiet.plain _ hmem).2 rfl
      · rw [varyingDecl_var] at hmem
        exact mainHeading_not_mem_varyingDecl (h.legible x hx) _ _ hmem
    · exact (outputLines_plain o.target u.stage _ (mem_filter.1 hmem).1).2.2 rfl
  · intro hmem
    obtain ⟨t, -, hline⟩ := indented_of_mem_mainLines h.legible hmem
    have hlist := congrArg String.toList hline
    simp [indent] at hlist

end Stages

end Glsl

end Shading
