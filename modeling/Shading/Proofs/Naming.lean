import Shading.Proofs.Assignments
import Shading.Proofs.Naming.Words
import Shading.Proofs.Scoping

/-!
# How far GLSL keeps names apart

The functions, structs, members, parameters and local variables in the texts of a shader are named as its source names
them, and each of them is a name that the lexer can produce. GLSL puts an underscore in front of the names that it
reserves. Nothing it reserves begins with an underscore, so the result is never reserved again; but a shader may have
a name of its own that is a reserved one with an underscore in front. These pairs, and no others, are written alike.
-/

namespace Shading

open List

/-! ## The spelling of a name -/

namespace Glsl

/-- The name is a reserved word, or begins like a builtin or an interface variable. -/
def isReserved (x : Ident) : Bool :=
  Reserved.contains x || reservedStarts.any fun start => (Text.behind? start x).isSome

/-- The first name is reserved and the second one is how it is written. -/
def TakesPlaceOf (x y : Ident) : Prop := isReserved x = true ∧ y = "_" ++ x

theorem ident_eq {x : Ident} (hx : x ≠ "") : ident x = if isReserved x then "_" ++ x else x := by
  rw [ident, if_neg (by simpa using hx)]
  rfl

def firstByte? (s : String) : Option UInt8 := s.toByteArray.data.toList.head?

theorem firstByte?_append {s : String} (hs : s ≠ "") (t : String) : firstByte? (s ++ t) = firstByte? s := by
  have hne : s.toByteArray.data.toList ≠ [] := by
    intro hnil
    refine hs (String.toByteArray_inj.1 (ByteArray.ext ?_))
    simpa using hnil
  rw [firstByte?, String.toByteArray_append, ByteArray.data_append, Array.toList_append,
    head?_append_of_ne_nil _ hne, firstByte?]

theorem firstByte?_of_mem_words : ∀ w ∈ Reserved.words, firstByte? w ≠ firstByte? "_" := by decide +kernel

theorem firstByte?_of_mem_reservedStarts : ∀ start ∈ reservedStarts, start ≠ "" ∧ firstByte? start ≠ firstByte? "_" := by
  decide

/-- Nothing that is reserved begins with an underscore. -/
theorem isReserved_underscore (x : Ident) : isReserved ("_" ++ x) = false := by
  have hfirst : firstByte? ("_" ++ x) = firstByte? "_" := firstByte?_append (by decide) x
  rw [isReserved, Bool.or_eq_false_iff]
  constructor
  · rw [Reserved.contains, Bool.eq_false_iff]
    intro hword
    exact firstByte?_of_mem_words _ (contains_iff_mem.1 hword) hfirst
  · rw [any_eq_false]
    intro start hstart hbehind
    obtain ⟨hne, hstarts⟩ := firstByte?_of_mem_reservedStarts start hstart
    obtain ⟨rest, hrest⟩ := Option.isSome_iff_exists.1 hbehind
    rw [Text.behind?_eq_some_iff.1 hrest, firstByte?_append hne] at hfirst
    exact hstarts hfirst

/-- What is written for a name is not reserved. -/
theorem isReserved_ident (x : Ident) : isReserved (ident x) = false := by
  by_cases hx : x = ""
  · subst hx
    exact isReserved_underscore "unnamed"
  · rw [ident_eq hx]
    split
    · exact isReserved_underscore x
    · rename_i hplain
      exact eq_false_of_ne_true hplain

theorem not_takesPlaceOf {x y : Ident} (hy : isReserved y = true) : ¬ TakesPlaceOf x y := by
  rintro ⟨-, rfl⟩
  rw [isReserved_underscore] at hy
  cases hy

/-- Two names are written alike if they are equal, or if one of them is reserved and the other one is how it is
written. -/
theorem ident_eq_ident_iff {x y : Ident} (hx : x ≠ "") (hy : y ≠ "") :
    ident x = ident y ↔ x = y ∨ TakesPlaceOf x y ∨ TakesPlaceOf y x := by
  rw [ident_eq hx, ident_eq hy]
  by_cases hrx : isReserved x = true
  · by_cases hry : isReserved y = true
    · simp [hrx, hry, not_takesPlaceOf]
    · have hne : x ≠ y := fun h => hry (h ▸ hrx)
      rw [if_pos hrx, if_neg hry]
      simp only [hne, not_takesPlaceOf hrx, false_or, or_false]
      exact ⟨fun h => ⟨hrx, h.symm⟩, fun h => h.2.symm⟩
  · by_cases hry : isReserved y = true
    · have hne : x ≠ y := fun h => hrx (h ▸ hry)
      rw [if_neg hrx, if_pos hry]
      simp only [hne, not_takesPlaceOf hry, false_or]
      exact ⟨fun h => ⟨hry, h⟩, fun h => h.2⟩
    · simp [TakesPlaceOf, hrx, hry]

end Glsl

/-! ## Names and interface variables -/

/-- The kinds of interface variables. -/
inductive InterfaceKind where
  | attribute
  | uniform
  | varying
deriving DecidableEq

/-- The text of an interface variable where it is used. Only a uniform has a block. -/
def Dialect.interfaceVar (d : Dialect) (block x : Ident) : InterfaceKind → String
  | .attribute => d.attributeVar x
  | .uniform => d.uniformVar block x
  | .varying => d.varyingVar x

namespace Glsl

/-- What stands in front of the name of an interface variable. -/
def mark : InterfaceKind → String
  | .attribute => attributeMark
  | .uniform => uniformMark
  | .varying => varyingMark

theorem interfaceVar_eq (o : Options) (block x : Ident) (kind : InterfaceKind) :
    (dialect o).interfaceVar block x kind = mark kind ++ x := by
  cases kind <;> rfl

theorem mark_mem (kind : InterfaceKind) : mark kind ∈ reservedStarts := by
  cases kind <;> decide

theorem eq_of_firstByte?_mark {kind kind' : InterfaceKind} (h : firstByte? (mark kind) = firstByte? (mark kind')) :
    kind = kind' := by
  revert h
  cases kind <;> cases kind' <;> decide

/-- A marked name determines its mark, for no two marks begin alike. -/
theorem mark_append_inj {kind kind' : InterfaceKind} {x y : Ident} :
    mark kind ++ x = mark kind' ++ y ↔ kind = kind' ∧ x = y := by
  constructor
  · intro h
    have hkind : kind = kind' := by
      apply eq_of_firstByte?_mark
      rw [← firstByte?_append (firstByte?_of_mem_reservedStarts _ (mark_mem kind)).1 x, h,
        firstByte?_append (firstByte?_of_mem_reservedStarts _ (mark_mem kind')).1]
    subst hkind
    exact ⟨rfl, (String.append_right_inj _).1 h⟩
  · rintro ⟨rfl, rfl⟩
    rfl

theorem ident_not_mem_words (x : Ident) : ident x ∉ Reserved.words := by
  intro hmem
  have h := (Bool.or_eq_false_iff.1 (isReserved_ident x)).1
  rw [Reserved.contains, contains_iff_mem.2 hmem] at h
  cases h

theorem ident_ne_append {start : String} (hstart : start ∈ reservedStarts) (x rest : Ident) : ident x ≠ start ++ rest := by
  intro heq
  have h := any_eq_false.1 (Bool.or_eq_false_iff.1 (isReserved_ident x)).2 start hstart
  rw [Text.behind?_eq_some_iff.2 heq] at h
  exact h rfl

/-- What is written for a name is no word of GLSL, no interface variable, no carrier and no output, and it begins like
none of these; and the interface variables are written apart. -/
theorem namespaces_are_disjoint (o : Options) (x : Ident) :
    (ident x ∉ Reserved.words ∧ ∀ start ∈ ["gl_", "a_", "u_", "v_", "o_", "i_"], ∀ rest, ident x ≠ start ++ rest) ∧
      (∀ kind block y, ident x ≠ (dialect o).interfaceVar block y kind) ∧ (∀ varying, ident x ≠ carrierName varying) ∧
      ident x ≠ "o_color" ∧ ident x ≠ "main" ∧
      ∀ kind block y kind' block' y', (dialect o).interfaceVar block y kind = (dialect o).interfaceVar block' y' kind' ↔
        kind = kind' ∧ y = y' := by
  refine ⟨⟨ident_not_mem_words x, fun start hstart => ident_ne_append hstart x⟩, fun kind block y => ?_,
    fun varying => ident_ne_append (by decide) x _, ident_ne_append (by decide : outputMark ∈ reservedStarts) x "color", ?_,
    fun kind block y kind' block' y' => ?_⟩
  · rw [interfaceVar_eq]
    exact ident_ne_append (mark_mem kind) x y
  · intro h
    exact ident_not_mem_words x (h ▸ by decide +kernel)
  · rw [interfaceVar_eq, interfaceVar_eq, mark_append_inj]

/-- A name that begins like a uniform is written apart from the uniform. -/
theorem marked_name_is_disjoint :
    ident "u_x" = "_u_x" ∧ (dialect .standard).interfaceVar "default" "x" .uniform = "u_x" ∧
      (∀ rest, ident "u_x" ≠ "u_" ++ rest) ∧
      (dialect .standard).interfaceVar "b" "x" .uniform ≠ (dialect .standard).interfaceVar "b" "x" .varying := by
  obtain ⟨⟨-, hstarts⟩, -, -, -, -, hapart⟩ := namespaces_are_disjoint .standard "u_x"
  refine ⟨by decide +kernel, rfl, hstarts "u_" (by decide), fun h => ?_⟩
  cases ((hapart ..).1 h).1

end Glsl

/-! ## The names in a text -/

mutual

/-- The local variables that emitted code declares. -/
def Code.declared : Code → List Ident
  | .exitLoop | .nextTurn | .assign .. | .eval _ | .ret _ => []
  | .declare x _ _ => [x]
  | .block body => Code.declaredAll body
  | .loop x _ _ _ body => x :: Code.declaredAll body
  | .branch _ yes no => Code.declaredAll yes ++ Code.declaredElse no

def Code.declaredAll : List Code → List Ident
  | [] => []
  | c :: cs => c.declared ++ Code.declaredAll cs

def Code.declaredElse : Option Code → List Ident
  | none => []
  | some c => c.declared

end

/-- The functions, structs, members, parameters and local variables that a declaration of a text names. -/
def Item.names : Item → List Ident
  | .struct d => d.name :: d.members.map Prod.fst
  | .fn f => f.name :: (f.params.map Prod.fst ++ Code.declaredAll f.body)
  | .block _ | .attributeVar _ | .varyingVar _ => []

namespace Traced

mutual

theorem declared_forget : ∀ c : Traced, c.forget.declared = c.sites.map Prod.snd
  | .exitLoop | .nextTurn | .assign .. | .eval .. | .ret .. | .declare .. => by simp [forget, Code.declared, sites]
  | .block body => by simp [forget, Code.declared, sites, declaredAll_forget body]
  | .loop _ x _ _ _ body => by simp [forget, Code.declared, sites, declaredAll_forget body]
  | .branch _ _ yes no => by simp [forget, Code.declared, sites, declaredAll_forget yes, declaredElse_forget no]

theorem declaredAll_forget : ∀ cs : List Traced, Code.declaredAll (forgetAll cs) = (sitesAll cs).map Prod.snd
  | [] => by simp [forgetAll, Code.declaredAll, sitesAll]
  | c :: cs => by simp [forgetAll, Code.declaredAll, sitesAll, declared_forget c, declaredAll_forget cs]

theorem declaredElse_forget : ∀ no : Option Traced, Code.declaredElse (forgetElse no) = (sitesElse no).map Prod.snd
  | none => by simp [forgetElse, Code.declaredElse, sitesElse]
  | some c => by simp [forgetElse, Code.declaredElse, sitesElse, declared_forget c]

end

end Traced

namespace Check

variable {builtins : Builtins} {shared : Bool} {decls : List Decl} {top : TopLevel} {vars : Scope Var}

/-- The structs in the texts of an accepted shader are named as they are declared. -/
theorem structsNamed_of_program {p : Program} {s' : Expansion} (h : Gives (program builtins shared decls) {} p s') :
    ∀ d ∈ p.vertex.structs ++ p.fragment.structs, ∃ decl, .struct decl ∈ decls ∧ d.name = decl.name ∧
      d.members.map Prod.fst = decl.members.map TypedName.name := by
  have hfaithful := ((ensures_program builtins shared decls).of_gives (faithful_start builtins decls) h).2
  obtain ⟨a, s₁, -, hstructs, -, hf, hend, -⟩ := exists_accepted h
  intro d hd
  have hopen : d ∈ s'.structs := by
    rw [hend]
    rcases mem_append.1 hd with hd | hd
    · rw [a.vertex] at hd
      exact ((advance_entry _ _ _).of_gives hf).1.mem_structs (hstructs ▸ hd)
    · rw [a.fragment] at hd
      split at hd
      · exact (mem_filter.1 hd).1
      · exact hd
  obtain ⟨decl, hdecl, hname, hmembers, -⟩ := hfaithful.structs d hopen
  exact ⟨decl, hdecl, hname.symm, by simp [hmembers, Function.comp_def]⟩

/-- What a function names is what its declaration names. -/
theorem names_of_fn {g : Globals} {decl : FnDecl} {f : FnDef} {s s' : Expansion} (h : Gives (fn g decl) s f s') :
    ∀ x ∈ (Item.fn f).names, x ∈ (Decl.fn decl).names := by
  obtain ⟨traced, htraced, rfl⟩ := gives_map.1 (forget_fn g decl ▸ h)
  have hname := name_of_fn h
  have hsites : traced.sites.map Prod.snd ⊆ decl.sites.map Prod.snd :=
    ((sublist_of_traceFn htraced).map Prod.snd).subset
  rw [TracedFn.sites, map_append, map_snd_paramSites, ← Traced.declaredAll_forget, Traced.forgetAll_eq] at hsites
  intro x hx
  rcases mem_cons.1 hx with rfl | hx
  · rw [hname]
    exact .head _
  · exact .tail _ (hsites hx)

/-- What the texts of an accepted shader name is what its declarations name. -/
theorem names_of_program {p : Program} {s' : Expansion} (h : Gives (program builtins shared decls) {} p s') :
    ∀ item ∈ p.vertex.items ++ p.fragment.items, ∀ x ∈ item.names, ∃ d ∈ decls, x ∈ d.names := by
  intro item hitem x hx
  cases item with
  | block | attributeVar | varyingVar => cases hx
  | struct d =>
    have hd : d ∈ p.vertex.structs ++ p.fragment.structs := by
      simpa [StageUnit.items, StageUnit.interfaceItems] using hitem
    obtain ⟨decl, hdecl, hname, hmembers⟩ := structsNamed_of_program h d hd
    rw [Item.names, hname, hmembers] at hx
    exact ⟨_, hdecl, hx⟩
  | fn f =>
    have hf : f ∈ p.vertex.fns ++ p.fragment.fns := by
      simpa [StageUnit.items, StageUnit.interfaceItems] using hitem
    obtain ⟨decl, hdecl, vars, n, u, s, s', -, hfn⟩ := opened_of_program h f hf
    exact ⟨_, mem_fns_ofDecls.1 hdecl, names_of_fn hfn x hx⟩

end Check

/-! ## Names in GLSL texts -/

theorem Token.IsName.ne_empty {x : Ident} (h : Token.IsName x) : x ≠ "" := by
  obtain ⟨⟨c, cs, hx, -⟩, -⟩ := h
  rintro rfl
  cases hx

/-- A source text that is compiled was parsed and checked, and its declarations make up the texts. -/
theorem program_of_compile {options : Glsl.Options} {extra : Builtins} {src : Source} {c : Compiled}
    {events : List Event} (h : compile options extra src = (.ok c, events)) :
    ∃ decls p, parse src = .ok decls ∧
      (Program.check (Builtin.defaults ++ extra) (Glsl.dialect options).sharesDecls decls).1 = .ok p ∧
      c = p.write (Glsl.dialect options) ∧
      (Glsl.dialect options).IsText .vertex c.interface.varyings p.vertex.items c.vertexText ∧
      (Glsl.dialect options).IsText .fragment c.interface.varyings p.fragment.items c.fragmentText := by
  unfold compile at h
  split at h
  · cases h
  · rename_i decls hparse
    dsimp only at h
    split at h
    · cases h
    · rename_i hemit
      cases h
      obtain ⟨p, hp, rfl, ⟨a⟩⟩ := accepted_of_emit_ok hemit
      exact ⟨decls, p, hparse, hp, rfl, a.isText_vertex _, a.isText_fragment _⟩

/-- A source text that is parsed and passes the check is compiled. -/
theorem compile_of_parse {options : Glsl.Options} {extra : Builtins} {src : Source} {q : Program → Bool}
    (h : (parse src).toOption.any (fun decls =>
      (Program.check (Builtin.defaults ++ extra) (Glsl.dialect options).sharesDecls decls).1.toOption.any q) = true) :
    ∃ decls p events, parse src = .ok decls ∧
      (Program.check (Builtin.defaults ++ extra) (Glsl.dialect options).sharesDecls decls).1 = .ok p ∧
      compile options extra src = (.ok (p.write (Glsl.dialect options)), events) ∧ q p = true := by
  cases hparse : parse src with
  | error errors =>
    rw [hparse] at h
    cases h
  | ok decls =>
    rw [hparse] at h
    obtain ⟨p, events, hp, hemit, hq⟩ := emit_of_check h
    exact ⟨decls, p, _, rfl, hp, by simp only [compile, hparse, hemit]; rfl, hq⟩

/-- Names in the GLSL texts of a shader. Every function, struct, member, parameter and local variable in the texts has a
name of the source, which the lexer can produce. None is written like a word or a variable that GLSL or the interface
has, and two of them are written alike exactly if they have the same name, or if one has a name that is reserved and the
other has that name with an underscore in front. -/
theorem compile_writes_alike_iff {options : Glsl.Options} {extra : Builtins} {src : Source} {c : Compiled}
    {events : List Event} (h : compile options extra src = (.ok c, events)) :
    ∃ decls p, parse src = .ok decls ∧
      (Program.check (Builtin.defaults ++ extra) (Glsl.dialect options).sharesDecls decls).1 = .ok p ∧
      c = p.write (Glsl.dialect options) ∧
      (Glsl.dialect options).IsText .vertex c.interface.varyings p.vertex.items c.vertexText ∧
      (Glsl.dialect options).IsText .fragment c.interface.varyings p.fragment.items c.fragmentText ∧
      let names := (p.vertex.items ++ p.fragment.items).flatMap Item.names
      (∀ x ∈ names, Token.IsName x ∧ (∃ d ∈ decls, x ∈ d.names) ∧
        Glsl.isReserved ((Glsl.dialect options).ident x) = false) ∧
      ∀ x ∈ names, ∀ y ∈ names, (Glsl.dialect options).ident x = (Glsl.dialect options).ident y ↔
        x = y ∨ Glsl.TakesPlaceOf x y ∨ Glsl.TakesPlaceOf y x := by
  obtain ⟨decls, p, hparse, hp, heq, hvertex, hfragment⟩ := program_of_compile h
  obtain ⟨s', hgives⟩ := Check.gives_of_check hp
  have hsource : ∀ x ∈ (p.vertex.items ++ p.fragment.items).flatMap Item.names, ∃ d ∈ decls, x ∈ d.names := by
    intro x hx
    obtain ⟨item, hitem, hx⟩ := mem_flatMap.1 hx
    exact Check.names_of_program hgives item hitem x hx
  have hlexed : ∀ x ∈ (p.vertex.items ++ p.fragment.items).flatMap Item.names, Token.IsName x := by
    intro x hx
    obtain ⟨d, hd, hx⟩ := hsource x hx
    exact isName_of_parse hparse d hd x hx
  refine ⟨decls, p, hparse, hp, heq, hvertex, hfragment, fun x hx => ?_, fun x hx y hy => ?_⟩
  · exact ⟨hlexed x hx, hsource x hx, Glsl.isReserved_ident x⟩
  · exact Glsl.ident_eq_ident_iff (hlexed x hx).ne_empty (hlexed y hy).ne_empty

/-- A shader whose names are reserved, begin like an interface variable or begin with an underscore: no two of them are
written alike. -/
theorem reserved_names_kept_apart :
    let src : Source := .ofString ("struct half \x7b a_x: int \x7d\nfn input(_x: int) -> int \x7b return _x; \x7d\n" ++
      "fn vertex() -> vec4 \x7b return vec4(input(half(1).a_x)); \x7d\nfn fragment() -> vec4 \x7b return vec4(1); \x7d")
    ∃ (c : Compiled) (events : List Event) (p : Program), compile {} [] src = (.ok c, events) ∧
      c = p.write (Glsl.dialect {}) ∧
      p.vertex.items.flatMap Item.names = ["half", "a_x", "input", "_x", "vertex"] ∧
      ∀ x ∈ p.vertex.items.flatMap Item.names, ∀ y ∈ p.vertex.items.flatMap Item.names,
        (Glsl.dialect {}).ident x = (Glsl.dialect {}).ident y → x = y := by
  intro src
  obtain ⟨decls, p, events, hparse, hp, hrun, hnames⟩ := compile_of_parse
    (show (parse src).toOption.any (fun decls =>
      (Program.check (Builtin.defaults ++ []) (Glsl.dialect {}).sharesDecls decls).1.toOption.any fun p =>
        p.vertex.items.flatMap Item.names == ["half", "a_x", "input", "_x", "vertex"]) = true by
      decide +kernel)
  rw [beq_iff_eq] at hnames
  obtain ⟨decls', p', hparse', hp', -, -, -, -, halike⟩ := compile_writes_alike_iff hrun
  obtain rfl : decls = decls' := Except.ok.inj (hparse.symm.trans hparse')
  obtain rfl : p = p' := Except.ok.inj (hp.symm.trans hp')
  refine ⟨_, events, p, hrun, rfl, hnames, fun x hx y hy hxy => ?_⟩
  have hmem : ∀ x ∈ p.vertex.items.flatMap Item.names, x ∈ (p.vertex.items ++ p.fragment.items).flatMap Item.names := by
    intro x hx
    rw [flatMap_append]
    exact mem_append_left _ hx
  rcases (halike x (hmem x hx) y (hmem y hy)).1 hxy with heq | hplace
  · exact heq
  · -- None of the names is another one with an underscore in front.
    rw [hnames] at hx hy
    have hnone : ∀ x ∈ ["half", "a_x", "input", "_x", "vertex"],
        ∀ y ∈ ["half", "a_x", "input", "_x", "vertex"], y ≠ "_" ++ x := by
      decide
    rcases hplace with hplace | hplace
    · exact absurd hplace.2 (hnone x hx y hy)
    · exact absurd hplace.2 (hnone y hy x hx)

/-- A name that is not reserved is kept. -/
example : (Glsl.dialect {}).ident "tint" = "tint" := by decide +kernel

/-- The text of a function in front of its body. -/
def Dialect.heading (d : Dialect) (f : FnDef) : String :=
  d.ty f.result ++ " " ++ d.ident f.name ++ d.params f.deps (f.params.map fun (x, t) => d.declarator t (d.ident x))

theorem Dialect.fn_eq_heading (d : Dialect) (f : FnDef) :
    d.fn f = d.heading f ++ (" " ++ braced (d.codes f.body) ++ "\n") := by
  simp only [fn, heading, String.append_assoc]

/-- A shader with a function `input` and another function `_input`: the vertex text declares both with the same
heading. -/
theorem underscored_function_merges :
    let src : Source := .ofString ("fn input() -> int \x7b return 1; \x7d\nfn _input() -> int \x7b return 2; \x7d\n" ++
      "fn vertex() -> vec4 \x7b return vec4(input() - _input()); \x7d\n" ++
      "fn fragment() -> vec4 \x7b return vec4(1); \x7d")
    ∃ (c : Compiled) (events : List Event) (p : Program) (f g : FnDef) (fbody gbody : String),
      compile {} [] src = (.ok c, events) ∧
      (Glsl.dialect {}).IsText .vertex c.interface.varyings p.vertex.items c.vertexText ∧
      .fn f ∈ p.vertex.items ∧ .fn g ∈ p.vertex.items ∧ f.name = "input" ∧ g.name = "_input" ∧
      (Glsl.dialect {}).fn f = "int _input()" ++ fbody ∧ (Glsl.dialect {}).fn g = "int _input()" ++ gbody := by
  intro src
  obtain ⟨decls, p, events, hparse, hp, hrun, hfns⟩ := compile_of_parse
    (show (parse src).toOption.any (fun decls =>
      (Program.check (Builtin.defaults ++ []) (Glsl.dialect {}).sharesDecls decls).1.toOption.any fun p =>
        p.vertex.fns.map (fun f => (f.name, (Glsl.dialect {}).heading f)) ==
          [("input", "int _input()"), ("_input", "int _input()"), ("vertex", "vec4 vertex()")]) = true by
      decide +kernel)
  obtain ⟨decls', p', hparse', hp', -, htext, -⟩ := program_of_compile hrun
  obtain rfl : decls = decls' := Except.ok.inj (hparse.symm.trans hparse')
  obtain rfl : p = p' := Except.ok.inj (hp.symm.trans hp')
  have hlisted : ∀ x, (x, "int _input()") ∈ p.vertex.fns.map (fun f => (f.name, (Glsl.dialect {}).heading f)) →
      ∃ f body, .fn f ∈ p.vertex.items ∧ f.name = x ∧ (Glsl.dialect {}).fn f = "int _input()" ++ body := by
    intro x hx
    obtain ⟨f, hf, heq⟩ := mem_map.1 hx
    obtain ⟨hname, hheading⟩ := Prod.mk.inj heq
    exact ⟨f, _, by simp [StageUnit.items, hf], hname, hheading ▸ Dialect.fn_eq_heading _ f⟩
  rw [beq_iff_eq] at hfns
  rw [hfns] at hlisted
  obtain ⟨f, fbody, hf, hfname, hftext⟩ := hlisted "input" (by simp)
  obtain ⟨g, gbody, hg, hgname, hgtext⟩ := hlisted "_input" (by simp)
  exact ⟨_, events, p, f, g, fbody, gbody, hrun, htext, hf, hg, hfname, hgname, hftext, hgtext⟩

/-- A reserved name with its mark is spelled like the other name. -/
example : (Glsl.dialect {}).ident "input" = (Glsl.dialect {}).ident "_input" := by decide +kernel

end Shading
