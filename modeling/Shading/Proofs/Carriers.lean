import Shading.Proofs.Carriers.Texts
import Shading.Proofs.DeclarationOrder
import Shading.Proofs.Grouping

/-!
# Varyings match across the stages

The text of either stage declares what passes for the varyings of the shader, in the order of the source, and both
declare the same. Whatever cannot pass is carried by a variable that can, and the main functions copy each element of
it once: behind the call of the vertex stage to the carrier, and before the call of the fragment stage from it.
-/

namespace Shading

open List

theorem Decl.name_of_varying? {d : Decl} {x : Ident} (h : d.varying?.map Prod.fst = some x) : x = d.name := by
  cases d with
  | varyingVar v => exact (Option.some.inj h).symm
  | attributeVar | uniformVar | struct | fn => cases h

theorem Varying.exists_of_forall {ys : List (Ident × Ty)} (h : ∀ y ∈ ys, ∃ x : Varying, x.Legible ∧ x.var = y) :
    ∃ vs : List Varying, ys = vs.map Varying.var ∧ ∀ x ∈ vs, x.Legible := by
  induction ys with
  | nil => exact ⟨[], rfl, forall_mem_nil _⟩
  | cons y ys ih =>
    rw [forall_mem_cons] at h
    obtain ⟨⟨x, hx, rfl⟩, hys⟩ := h
    obtain ⟨vs, rfl, hvs⟩ := ih hys
    exact ⟨x :: vs, rfl, forall_mem_cons.2 ⟨hx, hvs⟩⟩

/-! ## Varyings of a source text -/

theorem TyExpr.length?_bare (te : TyExpr) : te.bare.length? = te.length? := by cases te <;> rfl

/-- The length of an array is written as an integer literal. -/
theorem Grammar.length_le_of_typeExpr {ts : List Token} {te : TyExpr} (h : TypeExpr ts te) :
    ∀ n ∈ te.length?, n ≤ 2147483648 := by
  intro n hn
  cases h with
  | keyword | named => cases hn
  | array _ _ hlen _ =>
    cases hn
    cases hlen with
    | @plain _ v =>
      have hlt := v.toInt32.toInt_lt
      omega
    | @negative _ _ v =>
      have hle := v.toInt32.le_toInt
      omega

theorem length_le_of_parse {src : Source} {decls : List Decl} (h : parse src = .ok decls) {v : TypedName}
    (hv : .varyingVar v ∈ decls) : ∀ n ∈ v.ty.length?, n ≤ 2147483648 := by
  obtain ⟨tokens, -, hdecls⟩ := declaration_of_parse h
  obtain ⟨us, -, hdeclared⟩ := hdecls _ hv
  obtain ⟨name, ty, span⟩ := v
  cases hdeclared with
  | varyingVar _ hannotated =>
    cases hannotated with
    | mk _ _ hty =>
      rw [← TyExpr.length?_bare]
      exact Grammar.length_le_of_typeExpr hty

/-- A varying whose type is allowed and whose length was read from a source text. -/
theorem exists_varying {v : TypedName} (hname : Token.IsName v.name) (hty : v.ty.ty.canBeVarying = true)
    (hlen : ∀ n ∈ v.ty.length?, 0 < n ∧ n ≤ 2147483648) : ∃ x : Varying, x.Legible ∧ x.var = (v.name, v.ty.ty) := by
  have hword := WordChars.of_isName hname
  obtain ⟨name, te, span⟩ := v
  cases te with
  | keyword b _ => exact ⟨⟨name, b, none⟩, ⟨hword, by simp⟩, rfl⟩
  | named s _ => cases hty
  | array elem len _ =>
    obtain ⟨hpos, hle⟩ := hlen len rfl
    cases elem with
    | array | named => cases hty
    | keyword b _ =>
      refine ⟨⟨name, b, some len.toNat⟩, ⟨hword, fun n hn => ?_⟩, ?_⟩
      · cases hn
        have hfits : 2147483648 < Number.power 2 63 := by decide
        omega
      · simp only [Varying.var, Option.elim_some, TyExpr.ty, Int.toNat_of_nonneg hpos.le]

namespace Check

variable {builtins : Builtins} {decls : List Decl} {top : TopLevel} {vars : Scope Var}

/-! ## Names in the texts -/

theorem isName_defaultBlock : Token.IsName defaultBlock :=
  ⟨⟨'d', "efault".toList, rfl, by decide, (by decide : WordChars "efault")⟩, by decide⟩

/-- The interface variables and their blocks are named by words of the source text. -/
theorem isName_of_declaredVar {src : Source} (hparse : parse src = .ok decls) {x : Ident} {v : Var}
    (h : (x, v) ∈ (interfaceOrder decls).map declaredVar) :
    Token.IsName x ∧ ∀ block, v.kind = .uniformVar block → Token.IsName block := by
  obtain ⟨⟨w, kind⟩, hw, heq⟩ := mem_map.1 h
  obtain ⟨rfl, rfl⟩ := Prod.mk.inj heq
  obtain ⟨d, hd, hvar⟩ := mem_interfaceOrder.1 hw
  have hnames := isName_of_parse hparse d hd
  cases d with
  | struct | fn => cases hvar
  | attributeVar | varyingVar =>
    cases hvar
    exact ⟨hnames _ (.head _), by simp⟩
  | uniformVar y block =>
    cases hvar
    refine ⟨hnames _ (.head _), fun name hname => ?_⟩
    cases hname
    cases block with
    | none => exact isName_defaultBlock
    | some name => exact hnames _ (.tail _ (.head _))

section Units

variable {src : Source} {shared : Bool} {p : Program} {s s' : Expansion} {stage : Stage} {f : FnDef} {vs : List Varying}
  {exempt : List Ident} {wanted : Ident → Prop}

/-- The structs that a declaration of a text uses are declared in it, and named by words of the source text. -/
theorem isName_of_uses {items : List Item} (hdeclared : DeclaredBeforeUse exempt wanted items)
    (hnames : ∀ i ∈ items, ∀ x ∈ i.names, Token.IsName x) {i : Item} (hi : i ∈ items) {x : Ident}
    (hx : .struct x ∈ i.uses) : Token.IsName x := by
  obtain ⟨before, after, hsplit⟩ := append_of_mem hi
  have hmem := hdeclared.structs before i after hsplit x hx
  obtain ⟨j, hj, hstruct⟩ := mem_filterMap.1 hmem
  cases j with
  | struct d =>
    cases hstruct
    refine hnames (.struct d) ?_ d.name (.head _)
    rw [hsplit]
    exact mem_append_left _ hj
  | block | attributeVar | varyingVar | fn => cases hstruct

/-- The names in the text of a stage are words of the source text. -/
theorem isName_of_words (hparse : parse src = .ok decls)
    (hdeclared : DeclaredBeforeUse exempt wanted
      (StageUnit.ofEntry (.ofVars ((interfaceOrder decls).map declaredVar)) s stage f).items)
    (hnames : ∀ i ∈ (StageUnit.ofEntry (.ofVars ((interfaceOrder decls).map declaredVar)) s stage f).items,
      ∀ x ∈ i.names, Token.IsName x) :
    ∀ i ∈ (StageUnit.ofEntry (.ofVars ((interfaceOrder decls).map declaredVar)) s stage f).items,
      ∀ x ∈ i.words, Token.IsName x := by
  intro i hi
  have hstructs : ∀ {t : Ty}, t.uses ⊆ i.uses → ∀ x ∈ t.structNames, Token.IsName x :=
    fun ht x hx => isName_of_uses hdeclared hnames hi (ht (mem_map_of_mem hx))
  have hvar : ∀ {q : VarKind → Bool} {y : Ident × Ty}, y ∈ Interface.varsOf q ((interfaceOrder decls).map declaredVar) →
      Token.IsName y.1 := by
    intro q y hy
    obtain ⟨kind, -, hmem⟩ := Interface.mem_varsOf.1 hy
    exact (isName_of_declaredVar hparse hmem).1
  have hitem := hnames i hi
  cases i with
  | struct d =>
    rw [Item.words, forall_mem_cons, forall_mem_flatMap]
    refine ⟨hitem _ (.head _), fun m hm => forall_mem_cons.2 ⟨?_, hstructs fun use huse => ?_⟩⟩
    · exact hitem _ (.tail _ (mem_map_of_mem hm))
    · exact mem_flatMap.2 ⟨m, hm, huse⟩
  | block b =>
    obtain ⟨name, hname, rfl⟩ := mem_map.1 (StageUnit.block_mem_items.1 hi)
    obtain ⟨x, ty, hx⟩ := Interface.mem_blockNames.1 hname
    rw [Item.words, forall_mem_cons, forall_mem_flatMap]
    refine ⟨(isName_of_declaredVar hparse hx).2 name rfl, fun y hy => ?_⟩
    have hlisted : y ∈ Interface.varsOf (fun k => k == .uniformVar name) ((interfaceOrder decls).map declaredVar) := hy
    exact forall_mem_cons.2 ⟨hvar hlisted, hstructs fun use huse => mem_flatMap.2 ⟨y, hy, huse⟩⟩
  | attributeVar y =>
    have hy := StageUnit.attributeVar_mem_items.1 hi
    rw [Item.words, forall_mem_cons]
    refine ⟨?_, hstructs (List.Subset.refl _)⟩
    cases stage with
    | vertex => exact hvar hy
    | fragment => cases hy
  | varyingVar y =>
    rw [Item.words, forall_mem_cons]
    exact ⟨hvar (StageUnit.varyingVar_mem_items.1 hi), hstructs (List.Subset.refl _)⟩
  | fn g =>
    rw [Item.words, forall_mem_cons, forall_mem_append, forall_mem_flatMap]
    refine ⟨hitem _ (.head _), hstructs fun use huse => ?_, fun y hy => forall_mem_cons.2
      ⟨?_, hstructs fun use huse => ?_⟩⟩
    · exact mem_append_left _ (mem_append_right _ huse)
    · exact hitem _ (.tail _ (mem_append_left _ (mem_map_of_mem hy)))
    · exact mem_append_left _ (mem_append_left _ (mem_flatMap.2 ⟨y, hy, huse⟩))

/-- The text of a stage can be read by lines. -/
theorem legible_ofEntry (hparse : parse src = .ok decls) {u : StageUnit}
    (hu : u = .ofEntry (.ofVars ((interfaceOrder decls).map declaredVar)) s stage f)
    (hdeclared : DeclaredBeforeUse exempt wanted u.items) (hnames : ∀ i ∈ u.items, ∀ x ∈ i.names, Token.IsName x)
    (hvs : decls.filterMap Decl.varying? = vs.map Varying.var) (hlegible : ∀ x ∈ vs, x.Legible) :
    u.stage = stage ∧ u.Legible vs := by
  have hvaryings : (Interface.ofVars ((interfaceOrder decls).map declaredVar)).varyings = vs.map Varying.var := by
    rw [varyings_declared, hvs]
  subst hu
  refine ⟨rfl, isName_of_words hparse hdeclared hnames, fun hstage => ?_, hvaryings, hvaryings, hlegible⟩
  obtain rfl : stage = .fragment := hstage
  rfl

/-- The units of an accepted shader can be read by lines. -/
theorem legible_of_program (hparse : parse src = .ok decls) (h : Gives (program builtins false decls) {} p s')
    (hvs : decls.filterMap Decl.varying? = vs.map Varying.var) (hlegible : ∀ x ∈ vs, x.Legible) :
    (p.vertex.stage = .vertex ∧ p.vertex.Legible vs) ∧ p.fragment.stage = .fragment ∧ p.fragment.Legible vs := by
  obtain ⟨hinterface, -, -⟩ := interface_of_program h
  obtain ⟨a⟩ := accepted_of_gives h
  have hnames : ∀ i ∈ p.vertex.items ++ p.fragment.items, ∀ x ∈ i.names, Token.IsName x := by
    intro i hi x hx
    obtain ⟨d, hd, hx⟩ := names_of_program h i hi x hx
    exact isName_of_parse hparse d hd x hx
  rw [forall_mem_append] at hnames
  have hvertex := a.vertex
  have hfragment := a.fragment
  rw [hinterface] at hvertex
  rw [if_neg Bool.false_ne_true, hinterface] at hfragment
  exact ⟨legible_ofEntry hparse hvertex a.vertex_declares hnames.1 hvs hlegible,
    legible_ofEntry hparse hfragment a.fragment_declares hnames.2 hvs hlegible⟩

end Units

/-- The varyings of an accepted shader: their types can be carried, and their names differ. -/
theorem exists_varyings {src : Source} {shared : Bool} {p : Program} {s' : Expansion} (hparse : parse src = .ok decls)
    (h : Gives (program builtins shared decls) {} p s') :
    ∃ vs : List Varying, decls.filterMap Decl.varying? = vs.map Varying.var ∧ (∀ x ∈ vs, x.Legible) ∧
      (vs.map Varying.name).Nodup := by
  obtain ⟨-, hnames, hallowed⟩ := interface_of_program h
  have heach : ∀ y ∈ decls.filterMap Decl.varying?, ∃ x : Varying, x.Legible ∧ x.var = y := by
    intro y hy
    obtain ⟨d, hd, hvarying⟩ := mem_filterMap.1 hy
    cases d with
    | attributeVar | uniformVar | struct | fn => cases hvarying
    | varyingVar v =>
      cases hvarying
      obtain ⟨hty, hpos⟩ := hallowed v hd
      have hle := length_le_of_parse hparse hd
      exact exists_varying (isName_of_parse hparse _ hd _ (.head _)) hty fun n hn => ⟨hpos n hn, hle n hn⟩
  have hdistinct : ((decls.filterMap Decl.varying?).map Prod.fst).Nodup := by
    rw [map_filterMap, List.Nodup, pairwise_filterMap]
    refine (pairwise_map.1 hnames).imp fun {d d'} hne x hx y hy => ?_
    rwa [Decl.name_of_varying? hx, Decl.name_of_varying? hy]
  obtain ⟨vs, hvs, hlegible⟩ := Varying.exists_of_forall heach
  refine ⟨vs, hvs, hlegible, ?_⟩
  rw [hvs, map_map] at hdistinct
  exact hdistinct

end Check

/-- Varyings match across the stages. The texts of both stages declare the same variables to pass between them, one for
each varying of the source text and in the same order, and none of a type that cannot pass. The main function of the
vertex stage calls the function of the stage and then copies each element of the varyings that have a carrier to the
same element of the carrier, each by one line; that of the fragment stage copies each element back by one line and then
calls. Varyings without a carrier are not copied. -/
theorem compile_matches_varyings {options : Glsl.Options} {extra : Builtins} {src : Source} {c : Compiled}
    {events : List Event} (h : compile options extra src = (.ok c, events)) :
    ∃ (decls : List Decl) (vs : List Varying),
      parse src = .ok decls ∧ decls.filterMap Decl.varying? = vs.map Varying.var ∧
      Glsl.passings options.target .vertex c.vertexText = vs.map (Varying.passing options.target) ∧
      Glsl.passings options.target .fragment c.fragmentText = vs.map (Varying.passing options.target) ∧
      (∀ p ∈ Glsl.passings options.target .vertex c.vertexText, p.ty ∉ ["bool", "bvec2", "bvec3", "bvec4"] ∧
        (options.target.hasInOut = false → p.ty ∉ ["int", "ivec2", "ivec3", "ivec4"])) ∧
      Glsl.mainBody c.vertexText = Glsl.callLine options.target .vertex ::
        vs.flatMap (Glsl.copyLines options.target .vertex) ∧
      Glsl.mainBody c.fragmentText = vs.flatMap (Glsl.copyLines options.target .fragment) ++
        [Glsl.callLine options.target .fragment] ∧
      ∀ x ∈ vs,
        (∀ carrier, Glsl.carrierOf? options.target x.ty = some carrier → ∀ e ∈ x.elements,
          (Glsl.mainBody c.vertexText).filter (fun line => Glsl.assigned line == Glsl.carrierMark ++ x.name ++ e) =
            [Glsl.copyLine .vertex x carrier e] ∧
          (Glsl.mainBody c.fragmentText).filter (fun line => Glsl.assigned line == Glsl.varyingMark ++ x.name ++ e) =
            [Glsl.copyLine .fragment x carrier e]) ∧
        (Glsl.carrierOf? options.target x.ty = none →
          ∀ line ∈ Glsl.mainBody c.vertexText ++ Glsl.mainBody c.fragmentText,
            Glsl.assignedVar line ≠ Glsl.carrierMark ++ x.name ∧
            Glsl.assignedVar line ≠ Glsl.varyingMark ++ x.name) := by
  obtain ⟨decls, p, hparse, hp, rfl, -, -⟩ := program_of_compile h
  obtain ⟨s', hgives⟩ := Check.gives_of_check hp
  obtain ⟨vs, hvs, hlegible, hnames⟩ := Check.exists_varyings hparse hgives
  obtain ⟨⟨hvertexStage, hvertex⟩, hfragmentStage, hfragment⟩ :=
    Check.legible_of_program hparse hgives hvs hlegible
  have hvertexPasses := Glsl.passings_stage options hvertex
  have hfragmentPasses := Glsl.passings_stage options hfragment
  have hvertexMain := Glsl.mainBody_stage options hvertex
  have hfragmentMain := Glsl.mainBody_stage options hfragment
  rw [hvertexStage] at hvertexPasses hvertexMain
  rw [hfragmentStage] at hfragmentPasses hfragmentMain
  refine ⟨decls, vs, hparse, hvs, hvertexPasses, hfragmentPasses, ?_, hvertexMain, hfragmentMain, ?_⟩
  · intro q hq
    rw [Program.write, hvertexPasses] at hq
    obtain ⟨x, -, rfl⟩ := mem_map.1 hq
    exact x.passing_ty options.target
  · intro x hx
    rw [Program.write, hvertexMain, hfragmentMain]
    constructor
    · intro carrier hcarrier e he
      exact ⟨Glsl.filter_assigned hlegible hnames hx hcarrier he .vertex,
        Glsl.filter_assigned hlegible hnames hx hcarrier he .fragment⟩
    · intro hnone line hline
      rcases mem_append.1 hline with hline | hline <;>
        exact ⟨Glsl.assignedVar_ne hlegible hnames hx hnone .vertex hline,
          Glsl.assignedVar_ne hlegible hnames hx hnone .fragment hline⟩

/-- A shader with an array of bools, a vector of ints and a vector of floats, in a version where ints pass and in one
where they do not. -/
theorem bools_and_ints_are_carried :
    let src : Source := .ofString ("varying on: bool[2];\nvarying kind: ivec2;\nvarying uv: vec2;\n" ++
      "fn vertex() -> vec4 \x7b on[1] = true; return vec4(1); \x7d\n" ++
      "fn fragment() -> vec4 \x7b return vec4(uv, 0, kind.x); \x7d")
    (∃ c events, compile {} [] src = (.ok c, events) ∧
      Glsl.passings .standard .vertex c.vertexText = [⟨true, "int", "i_on", some "2"⟩, ⟨true, "ivec2", "v_kind", none⟩,
        ⟨false, "vec2", "v_uv", none⟩] ∧
      Glsl.passings .standard .fragment c.fragmentText = Glsl.passings .standard .vertex c.vertexText ∧
      Glsl.mainBody c.vertexText = ["    gl_Position = vertex();", "    i_on[0] = int(v_on[0]);",
        "    i_on[1] = int(v_on[1]);"] ∧
      Glsl.mainBody c.fragmentText = ["    v_on[0] = bool(i_on[0]);", "    v_on[1] = bool(i_on[1]);",
        "    o_color = fragment();"]) ∧
    ∃ c events, compile { version := ⟨1, 0, true⟩ } [] src = (.ok c, events) ∧
      Glsl.passings ⟨1, 0, true⟩ .vertex c.vertexText = [⟨false, "float", "i_on", some "2"⟩,
        ⟨false, "vec2", "i_kind", none⟩, ⟨false, "vec2", "v_uv", none⟩] ∧
      Glsl.passings ⟨1, 0, true⟩ .fragment c.fragmentText = Glsl.passings ⟨1, 0, true⟩ .vertex c.vertexText ∧
      Glsl.mainBody c.vertexText = ["    gl_Position = vertex();", "    i_on[0] = float(v_on[0]);",
        "    i_on[1] = float(v_on[1]);", "    i_kind = vec2(v_kind);"] ∧
      Glsl.mainBody c.fragmentText = ["    v_on[0] = bool(i_on[0]);", "    v_on[1] = bool(i_on[1]);",
        "    v_kind = ivec2(i_kind);", "    gl_FragColor = fragment();"] := by
  intro src
  let vs : List Varying := [⟨"on", .scalar .bool, some 2⟩, ⟨"kind", .vector .int .two, none⟩,
    ⟨"uv", .vector .float .two, none⟩]
  have hvaryings : (parse src).toOption.map (List.filterMap Decl.varying?) = some (vs.map Varying.var) := by
    decide +kernel
  have hcheck : (parse src).toOption.any (fun decls =>
      (Program.check (Builtin.defaults ++ []) false decls).1.toOption.any fun _ => true) = true := by decide +kernel
  have hall : ∀ options : Glsl.Options, ∃ c events, compile options [] src = (.ok c, events) ∧
      Glsl.passings options.target .vertex c.vertexText = vs.map (Varying.passing options.target) ∧
      Glsl.passings options.target .fragment c.fragmentText = vs.map (Varying.passing options.target) ∧
      Glsl.mainBody c.vertexText = Glsl.mainLines options.target .vertex vs ∧
      Glsl.mainBody c.fragmentText = Glsl.mainLines options.target .fragment vs := by
    intro options
    have hchecked : (parse src).toOption.any (fun decls => (Program.check (Builtin.defaults ++ [])
        (Glsl.dialect options).sharesDecls decls).1.toOption.any fun _ => true) = true := hcheck
    obtain ⟨-, p, events, -, -, hrun, -⟩ := compile_of_parse hchecked
    obtain ⟨decls, ws, hparse, hws, hvertex, hfragment, -, hvertexMain, hfragmentMain, -⟩ :=
      compile_matches_varyings hrun
    rw [hparse] at hvaryings
    have hsame : ws.map Varying.var = vs.map Varying.var := hws.symm.trans (Option.some.inj hvaryings)
    obtain rfl : ws = vs := map_injective_iff.2 Varying.var_injective hsame
    exact ⟨_, events, hrun, hvertex, hfragment, hvertexMain, hfragmentMain⟩
  obtain ⟨c, events, hrun, hvertex, hfragment, hvertexMain, hfragmentMain⟩ := hall {}
  obtain ⟨c', events', hrun', hvertex', hfragment', hvertexMain', hfragmentMain'⟩ := hall { version := ⟨1, 0, true⟩ }
  constructor
  · exact ⟨c, events, hrun, hvertex.trans (by decide), hfragment.trans hvertex.symm, hvertexMain.trans (by decide),
      hfragmentMain.trans (by decide)⟩
  · exact ⟨c', events', hrun', hvertex'.trans (by decide), hfragment'.trans hvertex'.symm,
      hvertexMain'.trans (by decide), hfragmentMain'.trans (by decide)⟩

/-- A line that passes an array on says how long it is. -/
example : Glsl.passings .standard .vertex "flat out int i_on[2];\n" = [⟨true, "int", "i_on", some "2"⟩] := by
  decide +kernel

end Shading
