import Mathlib.Data.List.Forall2
import Shading.Dialect.Plain
import Shading.Proofs.Items
import Shading.Proofs.Locals
import Shading.Proofs.Origins

/-!
# Struct names as types

A text writes the name of a struct as a type in the headings of functions and in the declarations of local variables.
There the name means the struct, unless a parameter, the variable of a loop or an earlier local variable of the same
name is in scope: then it is *captured*. A type that is written in the source is looked up through the local scopes, so
it is never captured. A type that comes from the first value of a variable is not looked up at all, and it is captured
wherever the name of its struct stands for a local variable.
-/

namespace Shading

open List

/-! ## Places of the source and of a text -/

/-- A declaration with `let`: whether its type is written, and the local variables that are in scope. -/
structure LetPlace where
  typed : Bool
  locals : List Ident

mutual

/-- The declarations with `let` in a statement, with the given local variables in scope in front of it. -/
def Stmt.lets (locals : List Ident) : Stmt → List LetPlace
  | .breakStmt _ | .continueStmt _ | .returnStmt _ _ | .exprStmt _ _ => []
  | .forStmt x _ _ _ body _ => body.lets (x :: locals)
  | .ifStmt _ yes no _ => yes.lets locals ++ Block.letsElse locals no
  | .letStmt _ ty _ _ => [⟨ty.isSome, locals⟩]
  | .blockStmt b _ => b.lets locals

def Stmt.letsAll (locals : List Ident) : List Stmt → List LetPlace
  | [] => []
  | st :: sts => st.lets locals ++ Stmt.letsAll (st.binds ++ locals) sts

def Block.lets (locals : List Ident) : Block → List LetPlace
  | .mk sts _ => Stmt.letsAll locals sts

def Block.letsElse (locals : List Ident) : Option Block → List LetPlace
  | none => []
  | some b => b.lets locals

end

def FnDecl.lets (d : FnDecl) : List LetPlace := d.body.lets (d.params.map TypedName.name)

/-- A place where a text writes a type, and the local variables that are in scope there. -/
structure TypePlace where
  ty : Ty
  locals : List Ident
deriving DecidableEq

/-- A struct name in the type is written like a local variable that is in scope. -/
def TypePlace.Captured (d : Dialect) (p : TypePlace) : Prop :=
  ∃ x ∈ p.ty.structNames, ∃ y ∈ p.locals, d.ident y = d.ident x

instance (d : Dialect) (p : TypePlace) : Decidable (p.Captured d) :=
  inferInstanceAs (Decidable (∃ x ∈ p.ty.structNames, ∃ y ∈ p.locals, d.ident y = d.ident x))

mutual

/-- The places of types in emitted code, with the given local variables in scope in front of it. A declaration binds its
name behind its type, between the braces around it. -/
def Code.typePlaces (locals : List Ident) : Code → List TypePlace
  | .exitLoop | .nextTurn | .assign .. | .eval _ | .ret _ => []
  | .declare _ ty _ => [⟨ty, locals⟩]
  | .block body => Code.typePlacesAll locals body
  | .loop x _ _ _ body => Code.typePlacesAll (x :: locals) body
  | .branch _ yes no => Code.typePlacesAll locals yes ++ Code.typePlacesElse locals no

def Code.typePlacesAll (locals : List Ident) : List Code → List TypePlace
  | [] => []
  | c :: cs => c.typePlaces locals ++ Code.typePlacesAll (c.binds ++ locals) cs

def Code.typePlacesElse (locals : List Ident) : Option Code → List TypePlace
  | none => []
  | some c => c.typePlaces locals

end

/-- The types of parameters, each with those in front of it in scope. -/
def paramPlaces (locals : List Ident) : List (Ident × Ty) → List TypePlace
  | [] => []
  | p :: ps => ⟨p.2, locals⟩ :: paramPlaces (p.1 :: locals) ps

namespace FnDef

/-- The places of types in front of the body of a function. -/
def headPlaces (f : FnDef) : List TypePlace := ⟨f.result, []⟩ :: paramPlaces [] f.params

/-- The places of types in the body of a function. -/
def bodyPlaces (f : FnDef) : List TypePlace := Code.typePlacesAll (f.params.map Prod.fst) f.body

end FnDef

/-- What a declaration that is written has of the one in the source: the same local variables are in scope, and if the
type is written in the source then no struct in it has the name of one of them. -/
structure LetPlace.Becomes (l : LetPlace) (p : TypePlace) : Prop where
  locals : p.locals = l.locals
  unbound : l.typed = true → ∀ x ∈ p.ty.structNames, x ∉ p.locals

/-- The declarations that are written come from some of those in the source, in their order. -/
def ComeFrom (ls : List LetPlace) (ps : List TypePlace) : Prop :=
  ∃ kept, kept.Sublist ls ∧ List.Forall₂ LetPlace.Becomes kept ps

namespace ComeFrom

variable {ls ls' : List LetPlace} {ps ps' : List TypePlace}

theorem nil (ls : List LetPlace) : ComeFrom ls [] := ⟨[], nil_sublist ls, .nil⟩

theorem mono (h : ComeFrom ls ps) (hsub : ls.Sublist ls') : ComeFrom ls' ps := by
  obtain ⟨kept, hkept, hbecomes⟩ := h
  exact ⟨kept, hkept.trans hsub, hbecomes⟩

theorem append (h : ComeFrom ls ps) (h' : ComeFrom ls' ps') : ComeFrom (ls ++ ls') (ps ++ ps') := by
  obtain ⟨kept, hkept, hbecomes⟩ := h
  obtain ⟨kept', hkept', hbecomes'⟩ := h'
  exact ⟨kept ++ kept', hkept.append hkept', rel_append hbecomes hbecomes'⟩

end ComeFrom

/-! ## What is kept of blocks and branches -/

section Kept

variable (locals : List Ident)

theorem typePlaces_gather (scope : Scope Var) (ks : List Kept) :
    Code.typePlacesAll locals (KeptBlock.gather scope ks).body = Code.typePlacesAll locals (ks.map Kept.code) := by
  unfold KeptBlock.gather
  dsimp only
  split
  · split
    · rfl
    · simp [Code.typePlacesAll, Code.typePlaces]
  · rfl

theorem typePlaces_elsePart? (b : KeptBlock) :
    Code.typePlacesElse locals b.elsePart? = Code.typePlacesAll locals b.body := by
  unfold KeptBlock.elsePart?
  split
  · rename_i hbody
    rw [hbody]
    rfl
  · rename_i hbody _
    rw [hbody]
    simp [Code.typePlacesElse, Code.typePlacesAll]
  · simp [Code.typePlacesElse, Code.typePlaces]

theorem typePlaces_kept? (b : KeptBlock) :
    Code.typePlacesAll locals (b.kept?.toList.map Kept.code) = Code.typePlacesAll locals b.body := by
  unfold KeptBlock.kept? KeptBlock.isEmpty
  split
  · rename_i hempty
    rw [isEmpty_iff.1 hempty]
    rfl
  · simp [Code.typePlacesAll, Code.typePlaces]

theorem typePlaces_ofBranch (test : Term) (yes no : KeptBlock) :
    (Code.ofBranch test yes no).typePlaces locals =
      Code.typePlacesAll locals yes.body ++ Code.typePlacesAll locals no.body := by
  unfold Code.ofBranch
  split
  · rename_i hempty
    have hyes : yes.body = [] := by simpa [KeptBlock.isEmpty] using (Bool.and_eq_true_iff.1 hempty).1
    simp [Code.typePlaces, Code.typePlacesElse, Code.typePlacesAll, hyes]
  · simp [Code.typePlaces, typePlaces_elsePart?]

theorem typePlaces_ofExpr (source : Expr) (t : Term) : (Code.ofExpr source t).typePlaces locals = [] := by
  unfold Code.ofExpr
  split
  · split <;> simp [Code.typePlaces]
  · simp [Code.typePlaces]

end Kept

namespace Check

/-! ## Types that are written -/

/-- No struct of a type that was looked up has the name of a local variable. -/
theorem find?_of_tyExpr {ctx : Context} {te : TyExpr} {ty : Ty} {s s' : Expansion} (h : Gives (tyExpr ctx te) s ty s') :
    ∀ x ∈ ty.structNames, Scope.find? ctx.scopes x = none := by
  induction te generalizing ty with
  | keyword b span =>
    obtain ⟨rfl, -⟩ := gives_keyword.1 h
    nofun
  | array elem len span ih =>
    obtain ⟨-, e, he, rfl⟩ := gives_array.1 h
    rw [Ty.structNames]
    exact ih he
  | named x span =>
    obtain ⟨rfl, d, hd⟩ := gives_named.1 h
    rw [Ty.structNames, forall_mem_singleton]
    rcases gives_find.1 hd with ⟨v, -, hinfo, -⟩ | ⟨hnone, -⟩
    · cases hinfo
    · exact hnone

theorem unbound_of_tyExpr {scopes : List (Scope Var)} {locals : List Ident} (hlocals : BindLocals scopes locals)
    {g : Globals} {te : TyExpr} {ty : Ty} {s s' : Expansion} (h : Gives (tyExpr ⟨scopes, g⟩ te) s ty s') :
    ∀ x ∈ ty.structNames, x ∉ locals := by
  intro x hx hmem
  have hroot := hlocals x
  rw [find?_of_tyExpr h x hx, if_pos hmem] at hroot
  cases hroot

/-! ## Bodies -/

section Statements

variable {fc : FnContext} {inLoop : Bool} {outer : List (Scope Var)} {inner : Scope Var} {s s' : Expansion}

/-- The declarations that are written of a statement come from its own, wherever it stands. -/
def Places (fc : FnContext) (st : Stmt) : Prop :=
  ∀ {inLoop outer inner locals s r s'}, BindLocals (inner :: outer) locals →
    Gives (stmt fc inLoop outer inner st) s r s' →
    ComeFrom (st.lets locals) (Code.typePlacesAll locals (r.2.toList.map Kept.code))

theorem comeFrom_of_stmts {sts : List Stmt} (ih : ∀ st ∈ sts, Places fc st) {locals : List Ident} {last : Scope Var}
    {ks : List Kept} (hlocals : BindLocals (inner :: outer) locals)
    (h : Gives (stmts fc inLoop outer inner sts) s (last, ks) s') :
    ComeFrom (Stmt.letsAll locals sts) (Code.typePlacesAll locals (ks.map Kept.code)) := by
  induction sts generalizing inner locals s ks with
  | nil =>
    obtain ⟨-, rfl, -⟩ := gives_stmts_nil h
    exact .nil _
  | cons st sts ihsts =>
    obtain ⟨inner', k, s₁, more, hst, hrest, rfl⟩ := gives_stmts_cons h
    have hfirst := ih st (.head _) hlocals hst
    have hmore := ihsts (fun st hst => ih st (.tail _ hst)) (bindLocals_of_stmt hlocals hst) hrest
    have hbinds := (inner_of_stmt hst).1
    rw [Stmt.letsAll]
    cases k with
    | none =>
      rw [← show ([] : List Ident) = st.binds from hbinds] at hmore ⊢
      exact (ComeFrom.append (.nil (st.lets locals)) hmore)
    | some k =>
      have hbind : k.code.binds = st.binds := by simpa using hbinds
      rw [← hbind] at hmore ⊢
      have hcode : Code.typePlacesAll locals [k.code] = k.code.typePlaces locals := by simp [Code.typePlacesAll]
      exact (hcode ▸ hfirst).append hmore

theorem comeFrom_of_block {b : Block} (ih : ∀ st ∈ b.stmts, Places fc st) {locals : List Ident} {kept : KeptBlock}
    (hlocals : BindLocals (inner :: outer) locals) (h : Gives (block fc inLoop outer inner b) s kept s') :
    ComeFrom (b.lets locals) (Code.typePlacesAll locals kept.body) := by
  obtain ⟨last, ks, hsts, rfl⟩ := gives_block h
  obtain ⟨sts, span⟩ := b
  rw [typePlaces_gather, Block.lets]
  exact comeFrom_of_stmts ih hlocals hsts

theorem places_of_stmt (st : Stmt) : Places fc st := by
  induction st <;> intro inLoop outer inner locals s r s' hlocals h
  case breakStmt span =>
    obtain ⟨-, rfl, -⟩ := gives_break h
    exact .nil _
  case continueStmt span =>
    obtain ⟨-, rfl, -⟩ := gives_continue h
    exact .nil _
  case forStmt x first bound step body span ih =>
    obtain ⟨a, s₁, b, s₂, i, s₃, kept, s₄, -, -, -, hkept, ⟨-, rfl, -⟩ | ⟨-, -, rfl⟩⟩ := gives_for h
    · exact .nil _
    · have hbody := comeFrom_of_block ih (hlocals.loop x) hkept
      rw [Stmt.lets]
      simpa [Code.typePlacesAll, Code.typePlaces] using hbody
  case ifStmt test yes no span ihyes ihno =>
    obtain ⟨t, s₁, yes', s₂, no', s₃, -, -, hyes, hno, hkept⟩ := gives_if h
    have hyes' := comeFrom_of_block ihyes hlocals.enter hyes
    have hno' : ComeFrom (Block.letsElse locals no) (Code.typePlacesAll locals no'.body) := by
      cases no with
      | none =>
        simp only [elseBlock, gives_pure] at hno
        rw [← hno.1]
        exact .nil _
      | some b => exact comeFrom_of_block (ihno b rfl) hlocals.enter hno
    rw [Stmt.lets]
    rcases hkept with ⟨v, -, rfl, -⟩ | ⟨-, -, rfl⟩
    · rw [typePlaces_kept?]
      split
      · exact hyes'.mono (sublist_append_left _ _)
      · exact hno'.mono (sublist_append_right _ _)
    · simpa [Code.typePlacesAll, typePlaces_ofBranch] using hyes'.append hno'
  case letStmt x ty init span =>
    obtain ⟨value, s₁, t, inner', -, hty, -, rfl⟩ := gives_let h
    rw [Stmt.lets]
    refine ⟨[⟨ty.isSome, locals⟩], List.Sublist.refl _, .cons ⟨rfl, fun htyped => ?_⟩ .nil⟩
    rcases gives_letTy hty with ⟨te, -, hte, -⟩ | ⟨rfl, -⟩
    · exact unbound_of_tyExpr hlocals hte
    · cases htyped
  case returnStmt value span =>
    rcases gives_return h with ⟨-, -, rfl, -⟩ | ⟨e, e', -, -, -, rfl⟩
    all_goals exact .nil _
  case blockStmt b span ih =>
    obtain ⟨kept, hkept, rfl⟩ := gives_blockStmt h
    rw [Stmt.lets, typePlaces_kept?]
    exact comeFrom_of_block ih hlocals.enter hkept
  case exprStmt e span =>
    obtain ⟨e', -, rfl⟩ := gives_exprStmt h
    simpa [Code.typePlacesAll, typePlaces_ofExpr] using ComeFrom.nil _

end Statements

/-! ## Functions -/

section Functions

variable {g : Globals} {s s' : Expansion}

theorem unbound_of_params {scope last : Scope Var} {ps : List TypedName} {out : List (Ident × Ty)}
    {locals : List Ident} (hlocals : BindLocals [scope] locals) (h : Gives (params g scope ps) s (last, out) s') :
    ∀ p ∈ paramPlaces locals out, ∀ x ∈ p.ty.structNames, x ∉ p.locals := by
  induction ps generalizing scope s out locals with
  | nil =>
    obtain ⟨-, rfl, -⟩ := gives_params_nil h
    nofun
  | cons p ps ih =>
    obtain ⟨ty, s₁, scope', more, hty, hinsert, hrest, rfl⟩ := gives_params_cons h
    rw [paramPlaces, forall_mem_cons]
    exact ⟨unbound_of_tyExpr hlocals hty, ih (hlocals.insert hinsert) hrest⟩

/-- In the heading of a function no struct has the name of a parameter in front of it, and the declarations in its body
come from those of the source. -/
theorem places_of_fn {decl : FnDecl} {f : FnDef} (h : Gives (fn g decl) s f s') :
    (∀ p ∈ f.headPlaces, ∀ x ∈ p.ty.structNames, x ∉ p.locals) ∧ ComeFrom decl.lets f.bodyPlaces := by
  obtain ⟨result, s₁, scope, ps, s₂, body, -, hparams, hbody, -, rfl⟩ := gives_fn h
  obtain ⟨hlocals, hnames⟩ := bindLocals_of_params BindLocals.nil.enter hparams
  rw [append_nil] at hlocals
  constructor
  · rw [FnDef.headPlaces, forall_mem_cons]
    exact ⟨fun _ _ => not_mem_nil, unbound_of_params BindLocals.nil.enter hparams⟩
  · rw [FnDecl.lets, FnDef.bodyPlaces, hnames]
    exact comeFrom_of_block (fun st _ => places_of_stmt st) hlocals hbody

end Functions

end Check

/-! ## Captured types -/

theorem TypePlace.captured_iff {d : Dialect} (hd : Function.Injective d.ident) (p : TypePlace) :
    p.Captured d ↔ ∃ x ∈ p.ty.structNames, x ∈ p.locals := by
  simp only [Captured, hd.eq_iff, exists_eq_right]

/-- A declaration is captured only if its type comes from its value. -/
theorem LetPlace.Becomes.captured_iff {d : Dialect} (hd : Function.Injective d.ident) {l : LetPlace} {p : TypePlace}
    (h : l.Becomes p) : p.Captured d ↔ l.typed = false ∧ ∃ x ∈ p.ty.structNames, x ∈ l.locals := by
  rw [p.captured_iff hd, h.locals]
  refine ⟨fun hx => ⟨?_, hx⟩, And.right⟩
  obtain ⟨x, hx, hmem⟩ := hx
  rw [Bool.eq_false_iff]
  intro htyped
  exact h.unbound htyped x hx (h.locals ▸ hmem)

/-- Where a struct name that is written as a type is captured, in a dialect that spells different names differently. The
headings of functions have no captured types. The declarations in a body come from declarations with `let` in the source,
in their order and with the same local variables in scope, and one has a captured type exactly if its type is not written
in the source and a struct in it has the name of one of these variables. -/
theorem emit_captures_iff {d : Dialect} {extra : Builtins} {decls : List Decl} {c : Compiled} {events : List Event}
    (hd : Function.Injective d.ident) (h : emit d extra decls = (.ok c, events)) :
    ∃ p, (Program.check (Builtin.defaults ++ extra) d.sharesDecls decls).1 = .ok p ∧ c = p.write d ∧
      d.IsText .vertex c.interface.varyings p.vertex.items c.vertexText ∧
      d.IsText .fragment c.interface.varyings p.fragment.items c.fragmentText ∧
      ∀ f, .fn f ∈ p.vertex.items ∨ .fn f ∈ p.fragment.items →
        (∀ place ∈ f.headPlaces, ¬ place.Captured d) ∧
        ∃ decl kept, .fn decl ∈ decls ∧ decl.name = f.name ∧ kept.Sublist decl.lets ∧
          List.Forall₂ (fun (l : LetPlace) (place : TypePlace) => place.locals = l.locals ∧
            (place.Captured d ↔ l.typed = false ∧ ∃ x ∈ place.ty.structNames, x ∈ l.locals)) kept f.bodyPlaces := by
  obtain ⟨p, hp, rfl, ⟨a⟩⟩ := accepted_of_emit h
  refine ⟨p, hp, rfl, a.isText_vertex d, a.isText_fragment d, fun f hf => ?_⟩
  obtain ⟨s', hgives⟩ := Check.gives_of_check hp
  have hmem : f ∈ p.vertex.fns ++ p.fragment.fns := by simpa [StageUnit.items, StageUnit.interfaceItems] using hf
  obtain ⟨-, scope, vars, t, t', -, horigin⟩ := Check.origin_of_program hgives
  obtain ⟨decl, hdecl, n, u, s, s', hfn⟩ := horigin f hmem
  obtain ⟨hhead, kept, hkept, hbecomes⟩ := Check.places_of_fn hfn
  refine ⟨fun place hplace => ?_, decl, kept, Check.mem_fns_ofDecls.1 hdecl, (Check.name_of_fn hfn).symm, hkept, ?_⟩
  · rw [place.captured_iff hd]
    rintro ⟨x, hx, hbound⟩
    exact hhead place hplace x hx hbound
  · exact hbecomes.imp fun l place hl => ⟨hl.locals, hl.captured_iff hd⟩

/-- A loop and a local variable have the name of a struct: where all types are written, none of them is captured. -/
theorem written_types_not_captured :
    let vec4 : TyExpr := .keyword (.vector .float .four) .unset
    let int : TyExpr := .keyword (.scalar .int) .unset
    let one : Expr := .lit (.int 1) .unset
    let a : Expr := .member (.var "t" .unset) "a" .unset
    let store (x : Ident) : Stmt := .exprStmt (.bin .assign a (.var x .unset) .unset) .unset
    let result (e : Expr) : Stmt := .returnStmt (some (.construct (.vector .float .four) [e] .unset)) .unset
    let fn (f : Ident) (ty : TyExpr) (body : List Stmt) : Decl := .fn ⟨f, [], some ty, .mk body .unset, .unset⟩
    let decls : List Decl := [.struct ⟨"S", [⟨"a", int, .unset⟩], .unset⟩,
      fn "mk" (.named "S" .unset) [.returnStmt (some (.call "S" [one] .unset)) .unset],
      fn "vertex" vec4 [.letStmt "t" (some (.named "S" .unset)) (some (.call "mk" [] .unset)) .unset,
        .forStmt "S" (.lit (.int 0) .unset) one none
          (.mk [.letStmt "u" (some int) (some (.var "S" .unset)) .unset, store "u"] .unset) .unset,
        .blockStmt (.mk [.letStmt "S" (some int) (some a) .unset, store "S"] .unset) .unset, result a],
      fn "fragment" vec4 [result one]]
    ∃ (c : Compiled) (events : List Event) (p : Program) (f : FnDef),
      emit (Plain.dialect {}) [] decls = (.ok c, events) ∧ c = p.write (Plain.dialect {}) ∧ .fn f ∈ p.vertex.items ∧
      f.bodyPlaces = [⟨.struct "S", []⟩, ⟨.int, ["S", "t"]⟩, ⟨.int, ["t"]⟩] ∧
      ∀ place ∈ f.headPlaces ++ f.bodyPlaces, ¬ place.Captured (Plain.dialect {}) := by
  intro vec4 int one a store result fn decls
  have hd : Function.Injective (Plain.dialect {}).ident := Function.injective_id
  have htyped : (decls.filterMap Decl.fn?).all (fun decl => decl.lets.all LetPlace.typed) = true := rfl
  obtain ⟨p, events, hp, hemit, hplaces⟩ := emit_of_check
    (show (Program.check (Builtin.defaults ++ []) (Plain.dialect {}).sharesDecls decls).1.toOption.any
      (fun p => p.vertex.fns.any fun f =>
        f.bodyPlaces == [⟨.struct "S", []⟩, ⟨.int, ["S", "t"]⟩, ⟨.int, ["t"]⟩]) = true by decide +kernel)
  obtain ⟨f, hf, hbody⟩ := any_eq_true.1 hplaces
  rw [beq_iff_eq] at hbody
  have hitem : .fn f ∈ p.vertex.items := by simp [StageUnit.items, hf]
  obtain ⟨p', hp', heq, -, -, hfns⟩ := emit_captures_iff hd hemit
  obtain rfl : p = p' := Except.ok.inj (hp.symm.trans hp')
  obtain ⟨hhead, decl, kept, hdecl, -, hkept, hall⟩ := hfns f (.inl hitem)
  refine ⟨_, events, p, f, hemit, heq, hitem, hbody, forall_mem_append.2 ⟨hhead, ?_⟩⟩
  have hlets : ∀ l ∈ kept, l.typed = true := by
    intro l hl
    have hdecl' := all_eq_true.1 htyped decl (mem_filterMap.2 ⟨_, hdecl, rfl⟩)
    exact all_eq_true.1 hdecl' l (hkept.subset hl)
  have hnone : List.Forall₂ (fun _ place => ¬ TypePlace.Captured (Plain.dialect {}) place) kept f.bodyPlaces := by
    refine ((forall₂_and_left kept f.bodyPlaces).2 ⟨hlets, hall⟩).imp ?_
    rintro l place ⟨hl, -, hiff⟩ hcaptured
    cases hl.symm.trans (hiff.1 hcaptured).1
  rw [hbody] at hnone ⊢
  obtain _ | ⟨h₁, _ | ⟨h₂, _ | ⟨h₃, -⟩⟩⟩ := hnone
  simp [h₁, h₂, h₃]

/-- A variable has the name of the struct that is its type: the type of the next variable, which comes from it, is
captured. -/
theorem inferred_type_captured :
    let vec4 : TyExpr := .keyword (.vector .float .four) .unset
    let int : TyExpr := .keyword (.scalar .int) .unset
    let one : Expr := .lit (.int 1) .unset
    let result (e : Expr) : Stmt := .returnStmt (some (.construct (.vector .float .four) [e] .unset)) .unset
    let fn (f : Ident) (ty : TyExpr) (body : List Stmt) : Decl := .fn ⟨f, [], some ty, .mk body .unset, .unset⟩
    let decls : List Decl := [.struct ⟨"S", [⟨"a", int, .unset⟩], .unset⟩,
      fn "mk" (.named "S" .unset) [.returnStmt (some (.call "S" [one] .unset)) .unset],
      fn "vertex" vec4 [.letStmt "S" none (some (.call "mk" [] .unset)) .unset,
        .letStmt "t" none (some (.var "S" .unset)) .unset, result (.member (.var "t" .unset) "a" .unset)],
      fn "fragment" vec4 [result one]]
    ∃ (c : Compiled) (events : List Event) (p : Program) (f : FnDef) (place : TypePlace),
      emit (Plain.dialect {}) [] decls = (.ok c, events) ∧
      (Plain.dialect {}).IsText .vertex c.interface.varyings p.vertex.items c.vertexText ∧
      .fn f ∈ p.vertex.items ∧ f.name = "vertex" ∧ place ∈ f.bodyPlaces ∧ place = ⟨.struct "S", ["S"]⟩ ∧
      place.Captured (Plain.dialect {}) := by
  intro vec4 int one result fn decls
  obtain ⟨p, events, hp, hemit, hq⟩ := emit_of_check
    (show (Program.check (Builtin.defaults ++ []) (Plain.dialect {}).sharesDecls decls).1.toOption.any
      (fun p => p.vertex.fns.any fun f => f.name == "vertex" && f.bodyPlaces.contains ⟨.struct "S", ["S"]⟩) = true by
        decide +kernel)
  obtain ⟨f, hf, hq⟩ := any_eq_true.1 hq
  obtain ⟨hname, hplace⟩ := Bool.and_eq_true_iff.1 hq
  obtain ⟨p', hp', heq, ⟨a⟩⟩ := accepted_of_emit hemit
  obtain rfl : p = p' := Except.ok.inj (hp.symm.trans hp')
  exact ⟨_, events, p, f, _, hemit, a.isText_vertex _, by simp [StageUnit.items, hf], beq_iff_eq.1 hname,
    contains_iff_mem.1 hplace, rfl, by decide⟩

end Shading
