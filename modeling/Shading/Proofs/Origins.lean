import Mathlib.Data.List.Nodup
import Shading.Proofs.Folding
import Shading.Proofs.Programs

/-!
# Where the functions of a text come from

Types are written with structs alone, so checking the interface opens no function. Every function in the texts
of an accepted shader is opened behind it, and comes from a declaration of the shader that is checked while the
top-level names mean what the shader declares.
-/

namespace Shading

open List

/-- What a declaration makes of its name. -/
def Decl.meaning : Decl → Meaning
  | attributeVar v => .var (.attributeVar v.name)
  | uniformVar v block => .var (.uniformVar (block.getD defaultBlock) v.name)
  | varyingVar v => .var (.varyingVar v.name)
  | struct _ => .struct
  | fn _ => .fn

/-- The meanings of the top-level names of a shader: what it declares, and else the builtin functions. -/
def declaredMeaning? (builtins : Builtins) (decls : List Decl) (x : Ident) : Option Meaning :=
  match decls.find? fun d => d.name == x with
  | some d => some d.meaning
  | none => if (builtins.overloads? x).isSome then some .builtin else none

variable {decls : List Decl}

/-- Where nothing is redefined, names are distinct. -/
theorem nodup_of_firstRedefined? {seen : List Ident}
    (h : firstRedefined? seen decls = none) : (decls.map Decl.name).Nodup ∧ ∀ d ∈ decls, d.name ∉ seen := by
  induction decls generalizing seen with
  | nil => exact ⟨nodup_nil, forall_mem_nil _⟩
  | cons d ds ih =>
    rw [firstRedefined?] at h
    split at h
    · cases h
    · rename_i hnew
      obtain ⟨hnodup, hapart⟩ := ih h
      have hd : d.name ∉ ds.map Decl.name := by
        intro hmem
        obtain ⟨e, he, hname⟩ := mem_map.1 hmem
        exact hapart e he (hname ▸ mem_cons_self)
      refine ⟨nodup_cons.2 ⟨hd, hnodup⟩, forall_mem_cons.2 ⟨by simpa using hnew, ?_⟩⟩
      exact fun e he hmem => hapart e he (mem_cons_of_mem _ hmem)

/-- A declaration is found by its name. -/
theorem find?_of_mem (hnames : (decls.map Decl.name).Nodup) {d : Decl} (hd : d ∈ decls) :
    decls.find? (fun e => e.name == d.name) = some d := by
  cases hfind : decls.find? (fun e => e.name == d.name) with
  | none => exact absurd (find?_eq_none.1 hfind d hd) (by simp)
  | some e =>
    have hname : e.name = d.name := by simpa using find?_some hfind
    rw [inj_on_of_nodup_map hnames (mem_of_find?_eq_some hfind) hd hname]

theorem Decl.meaning_of_interfaceVar? {d : Decl} {v : TypedName} {kind : VarKind}
    (h : d.interfaceVar? = some (v, kind)) : d.name = v.name ∧ d.meaning = .var (kind.root v.name) := by
  cases d with
  | attributeVar w | uniformVar w block | varyingVar w =>
    cases h
    exact ⟨rfl, rfl⟩
  | struct | fn => cases h

namespace Check

variable {s s' : Expansion}

section Types

variable {top : TopLevel} {vars : Scope Var}

/-- A type that is accepted opens what its structs open. -/
theorem fns_of_tyExpr {ctx : Context}
    (hg : ∀ {x span s d s'}, Gives (ctx.globals x span) s (some (.struct d)) s' → s'.fns = s.fns) {te : TyExpr}
    {ty : Ty} (h : Gives (tyExpr ctx te) s ty s') : s'.fns = s.fns := by
  induction te generalizing ty with
  | keyword b span => rw [(gives_keyword.1 h).2]
  | array elem len span ih =>
    obtain ⟨-, e, he, -⟩ := gives_array.1 h
    exact ih he
  | named x span =>
    obtain ⟨-, d, hd⟩ := gives_named.1 h
    rcases gives_find.1 hd with ⟨v, -, hinfo, -⟩ | ⟨-, hglobal⟩
    · cases hinfo
    · exact hg hglobal

theorem fns_of_members {g : Globals}
    (hg : ∀ {x span s d s'}, Gives (g x span) s (some (.struct d)) s' → s'.fns = s.fns)
    {earlier ms : List (Ident × Ty)} {arrays arrays' : Bool} {written : List TypedName}
    (h : Gives (members g earlier arrays written) s (ms, arrays') s') : s'.fns = s.fns := by
  induction written generalizing earlier arrays s with
  | nil =>
    obtain ⟨-, -, rfl⟩ := gives_members_nil h
    rfl
  | cons m rest ih =>
    obtain ⟨ty, s₁, inside, hty, -, -, hrest⟩ := gives_members_cons h
    exact (ih hrest).trans (fns_of_tyExpr hg hty)

/-- Opening a struct opens no function. -/
theorem fns_of_struct {n : Nat} {u : Unfinished} {x : Ident} {span : Span} {d : StructDef}
    (h : Gives (globals top vars n u x span) s (some (.struct d)) s') : s'.fns = s.fns := by
  induction n generalizing u x span d s s' with
  | zero => simp [globals] at h
  | succ k ih =>
    rcases gives_globals h with ⟨v, -, hinfo, -⟩ | ⟨-, k', d', f, -, -, -, hinfo⟩ |
      ⟨-, -, k', d', f, hk, -, hopen, -⟩ | ⟨-, -, -, overloads, -, hinfo, -⟩
    · cases hinfo
    · cases hinfo
    · obtain rfl := Nat.succ.inj hk
      rcases gives_openStruct hopen with ⟨-, rfl⟩ | ⟨-, -, s₁, hstruct, rfl⟩
      · rfl
      · obtain ⟨ms, arrays, hms, -⟩ := gives_struct hstruct
        have hsame : s₁.fns = s.fns := fns_of_members (fun hx => ih hx) hms
        exact hsame
    · cases hinfo

/-- Checking the interface opens no function. -/
theorem fns_of_interfaceVars {ds : List (TypedName × VarKind)} {r : Scope Var × List (Ident × Var)}
    (h : Gives (interfaceVars top vars ds) s r s') : s'.fns = s.fns := by
  induction ds generalizing vars s r with
  | nil =>
    simp only [interfaceVars, gives_pure] at h
    rw [h.2]
  | cons d ds ih =>
    obtain ⟨d, kind⟩ := d
    obtain ⟨ty, s₁, vars', more, hty, -, hrest, -⟩ := gives_interfaceVars_cons h
    exact (ih hrest).trans (fns_of_tyExpr fns_of_struct hty)

/-- The interface variables are those that are declared. -/
theorem kinds_of_interfaceVars {ds : List (TypedName × VarKind)} {r : Scope Var × List (Ident × Var)}
    (h : Gives (interfaceVars top vars ds) s r s') :
    r.2.map (fun v => (v.1, v.2.kind)) = ds.map fun d => (d.1.name, d.2) := by
  induction ds generalizing vars s r with
  | nil =>
    simp only [interfaceVars, gives_pure] at h
    rw [← h.1]
    rfl
  | cons d ds ih =>
    obtain ⟨d, kind⟩ := d
    obtain ⟨ty, s₁, vars', more, -, -, hrest, hmore⟩ := gives_interfaceVars_cons h
    have hlater := ih hrest
    rw [hmore, map_cons, map_cons, hlater]

end Types

section Names

variable {builtins : Builtins} {decls : List Decl}

/-- The functions of a shader are those among its declarations. -/
theorem mem_fns_ofDecls {d : FnDecl} : d ∈ (TopLevel.ofDecls builtins decls).fns ↔ .fn d ∈ decls := by
  simp only [TopLevel.ofDecls, mem_filterMap]
  constructor
  · rintro ⟨d', hd', heq⟩
    cases d' <;> cases heq
    exact hd'
  · exact fun hd => ⟨_, hd, rfl⟩

theorem mem_structs_ofDecls {d : StructDecl} : d ∈ (TopLevel.ofDecls builtins decls).structs ↔ .struct d ∈ decls := by
  simp only [TopLevel.ofDecls, mem_filterMap]
  constructor
  · rintro ⟨d', hd', heq⟩
    cases d' <;> cases heq
    exact hd'
  · exact fun hd => ⟨_, hd, rfl⟩

theorem mem_interfaceOrder {v : TypedName × VarKind} :
    v ∈ interfaceOrder decls ↔ ∃ d ∈ decls, d.interfaceVar? = some v := by
  simp only [interfaceOrder, mem_append, mem_filter, ← and_or_left, mem_filterMap]
  refine and_iff_left_of_imp ?_
  rintro ⟨d, -, hd⟩
  cases d <;> cases hd <;> simp [VarKind.isAttribute, VarKind.isUniform, VarKind.isVarying]

/-- The top-level names that checking finds mean what the shader declares. -/
theorem explains_globals {scope : Scope Var} {vars : List (Ident × Var)} (hnames : (decls.map Decl.name).Nodup)
    (h : Gives (interfaceVars (.ofDecls builtins decls) .empty (interfaceOrder decls)) s (scope, vars) s') (n : Nat)
    (u : Unfinished) {x : Ident} {span : Span} {t t' : Expansion} {info : Info}
    (hx : Gives (globals (.ofDecls builtins decls) scope n u x span) t (some info) t') :
    declaredMeaning? builtins decls x = some (info.meaning x) := by
  have hscope : ∀ v, scope.lookup? x = some v ↔ (x, v) ∈ vars := by
    intro v
    simpa using lookup?_of_interfaceVars h x v
  have hkinds := kinds_of_interfaceVars h
  have hdecl : ∀ d ∈ decls, d.name = x → declaredMeaning? builtins decls x = some d.meaning := by
    rintro d hd rfl
    rw [declaredMeaning?, find?_of_mem hnames hd]
  rcases gives_globals hx with ⟨v, hv, rfl, -⟩ | ⟨-, k, d, f, -, hd, -, rfl⟩ | ⟨-, -, k, d, f, -, hd, -, rfl⟩ |
    ⟨hv, hf, hs, overloads, hb, rfl, -⟩
  · have hmem : (x, v.kind) ∈ vars.map fun v => (v.1, v.2.kind) := mem_map.2 ⟨_, (hscope v).1 hv, rfl⟩
    rw [hkinds] at hmem
    obtain ⟨⟨w, kind⟩, hw, heq⟩ := mem_map.1 hmem
    obtain ⟨rfl, rfl⟩ := Prod.mk.inj heq
    obtain ⟨d, hd, hdw⟩ := mem_interfaceOrder.1 hw
    obtain ⟨hname, hmeaning⟩ := d.meaning_of_interfaceVar? hdw
    rw [hdecl d hd hname, hmeaning]
    rfl
  · have hname : d.name = x := by simpa using find?_some hd
    exact hdecl _ (mem_fns_ofDecls.1 (mem_of_find?_eq_some hd)) hname
  · have hname : d.name = x := by simpa using find?_some hd
    exact hdecl _ (mem_structs_ofDecls.1 (mem_of_find?_eq_some hd)) hname
  · have hnone : decls.find? (fun d => d.name == x) = none := by
      -- A declaration of the name would be an interface variable, a function or a struct.
      refine find?_eq_none.2 fun d hd hname => ?_
      cases d with
      | fn d => exact find?_eq_none.1 hf d (mem_fns_ofDecls.2 hd) hname
      | struct d => exact find?_eq_none.1 hs d (mem_structs_ofDecls.2 hd) hname
      | attributeVar v | uniformVar v block | varyingVar v =>
        have hmem : (v.name, _) ∈ (interfaceOrder decls).map fun d => (d.1.name, d.2) :=
          mem_map.2 ⟨_, mem_interfaceOrder.2 ⟨_, hd, rfl⟩, rfl⟩
        rw [← hkinds] at hmem
        obtain ⟨⟨y, w⟩, hw, heq⟩ := mem_map.1 hmem
        have hy : y = x := (Prod.mk.inj heq).1.trans (beq_iff_eq.1 hname)
        rw [hy] at hw
        rw [(hscope w).2 hw] at hv
        cases hv
    have hbuiltin : (builtins.overloads? x).isSome = true := by
      rw [show builtins.overloads? x = some overloads from hb]
      rfl
    rw [declaredMeaning?, hnone, hbuiltin]
    rfl

end Names

section Functions

/-- The function is what checking one of the declarations gives. -/
def Origin (top : TopLevel) (vars : Scope Var) (f : FnDef) : Prop :=
  ∃ d ∈ top.fns, ∃ n u s s', Gives (fn (globals top vars n u) d) s f s'

/-- Each function is what checking one of the declarations gives, while the functions before it are open. -/
def FnsOpened (top : TopLevel) (vars : Scope Var) (s : Expansion) : Prop :=
  InOrder (fun before f => ∃ d ∈ top.fns, ∃ n u s₀ s₁, Gives (fn (globals top vars n u) d) s₀ f s₁ ∧
    s₁.fns = before ∧ s₁.structs ⊆ s.structs) s.fns

theorem FnsOpened.origin {top : TopLevel} {vars : Scope Var} (h : FnsOpened top vars s) {f : FnDef} (hf : f ∈ s.fns) :
    Origin top vars f := by
  obtain ⟨before, after, hsplit⟩ := append_of_mem hf
  obtain ⟨d, hd, n, u, s₀, s₁, hfn, -⟩ := h before f after hsplit
  exact ⟨d, hd, n, u, s₀, s₁, hfn⟩

/-- Functions that are opened come from declarations. -/
theorem openFrame_fnsOpened (top : TopLevel) (vars : Scope Var) : OpenFrame top vars fun _ s s' =>
    s.structs ⊆ s'.structs ∧ (FnsOpened top vars s → FnsOpened top vars s') := by
  have hframe : Frame fun s s' => s.structs ⊆ s'.structs ∧ (FnsOpened top vars s → FnsOpened top vars s') :=
    ⟨fun s => ⟨List.Subset.refl _, id⟩, fun h₁ h₂ => ⟨List.Subset.trans h₁.1 h₂.1, fun hs => h₂.2 (h₁.2 hs)⟩,
      fun s e => ⟨List.Subset.refl _, id⟩⟩
  refine ⟨fun _ => hframe, fun h => h, fun h => h, ?_, ?_⟩
  · intro k u d f s s' hd _ _ hk hfn
    obtain ⟨hstructs, hopened⟩ := (keeps_fn hframe hk d).of_gives hfn
    exact ⟨hstructs, fun hs => (hopened hs).concat ⟨d, hd, k, _, s, s', hfn, rfl, List.Subset.refl _⟩⟩
  · intro k u d f s s' _ _ _ hk hstruct
    obtain ⟨hstructs, hopened⟩ := (keeps_struct hframe hk d).of_gives hstruct
    have hmore : s'.structs ⊆ (s'.addStruct f).structs := subset_append_left _ _
    refine ⟨List.Subset.trans hstructs hmore, fun hs => (hopened hs).mono ?_⟩
    rintro before f ⟨d, hd, n, u, s₀, s₁, hfn, hfns, hsub⟩
    exact ⟨d, hd, n, u, s₀, s₁, hfn, hfns, List.Subset.trans hsub hmore⟩

/-- The functions that either stage of an accepted shader opens come from declarations, with the whole interface in
scope. The structs of the first stage stay open in the second. -/
theorem fnsOpened_of_parts {builtins : Builtins} {shared : Bool} {v : VertexPart} {f : FnDef} {s₁ s₂ : Expansion}
    (hv : Gives (vertexPart builtins decls) {} v s) (hstructs : s₁.structs = s.structs)
    (hfns : s₁.fns = if shared then s.fns else [])
    (hf : Gives (entry (.ofDecls builtins decls) v.scope .fragment) s₁ f s₂) :
    FnsOpened (.ofDecls builtins decls) v.scope s ∧ FnsOpened (.ofDecls builtins decls) v.scope s₂ ∧
      s.structs ⊆ s₂.structs := by
  obtain ⟨s₀, -, hvars, hentry⟩ := gives_vertexPart hv
  have hframe := openFrame_fnsOpened (.ofDecls builtins decls) v.scope
  have hs := ((keeps_entry hframe .vertex).of_gives hentry).2 (by
    rw [FnsOpened, fns_of_interfaceVars hvars]
    exact .nil)
  have hs₁ : FnsOpened (.ofDecls builtins decls) v.scope s₁ := by
    rw [FnsOpened, hfns, hstructs]
    split
    · exact hs
    · exact .nil
  obtain ⟨hsub, hs₂⟩ := (keeps_entry hframe .fragment).of_gives hf
  exact ⟨hs, hs₂ hs₁, hstructs ▸ hsub⟩

/-- Every function in the texts of a shader comes from a declaration, with the whole interface in scope. -/
theorem origin_of_program {builtins : Builtins} {shared : Bool} {p : Program}
    (h : Gives (program builtins shared decls) {} p s') :
    (decls.map Decl.name).Nodup ∧ ∃ scope vars s s',
      Gives (interfaceVars (.ofDecls builtins decls) .empty (interfaceOrder decls)) s (scope, vars) s' ∧
      ∀ f ∈ p.vertex.fns ++ p.fragment.fns, Origin (.ofDecls builtins decls) scope f := by
  obtain ⟨a, s₁, hv, hstructs, hfns, hf, -⟩ := exists_accepted h
  obtain ⟨s, hredefined, hvars, -⟩ := gives_vertexPart hv
  obtain ⟨hvertex, hfragment, -⟩ := fnsOpened_of_parts hv hstructs hfns hf
  refine ⟨(nodup_of_firstRedefined? hredefined).1, a.scope, a.vars, _, s, hvars, fun f hf => ?_⟩
  exact (mem_append.1 hf).elim (fun hf => hvertex.origin (a.vertexFns hf))
    fun hf => hfragment.origin (a.fragmentFns hf)

end Functions

end Check

end Shading
