import Shading.Proofs.Opening
import Shading.Proofs.Order
import Shading.Proofs.Uses

/-!
# What accepted code uses is there

Everything that accepted code uses has been declared before it: a called function has been opened and
finished, a struct has been opened, a variable of the interface is one. A struct can be missing only from
the type of a local variable, where a builtin function returns it, since calling one opens nothing.

`Sound` says this of an expansion as a whole, for each function relative to the functions finished before
it. Every run keeps it, whether it succeeds or fails (`openFrame_advance`).
-/

namespace Shading

open List

def Builtins.resultStructs (table : Builtins) : List Ident :=
  table.flatMap fun b => b.overloads.flatMap fun o => o.result.structNames

/-- What is used is declared: by one of the given structs or functions or by the interface, if it is not the
struct of a local variable that a builtin function returns. -/
def Known (top : TopLevel) (vars : Scope Var) (structs : List StructDef) (fns : List FnDef) : Use → Prop
  | .fn f deps => ∃ d ∈ fns, d.name = f ∧ d.deps = deps
  | .struct x => ∃ d ∈ structs, d.name = x
  | .localStruct x => (∃ d ∈ structs, d.name = x) ∨ x ∈ top.builtins.resultStructs
  | .attributeVar x => ∃ ty, vars.lookup? x = some ⟨ty, .attributeVar⟩
  | .uniformVar block x => ∃ ty, vars.lookup? x = some ⟨ty, .uniformVar block⟩
  | .varyingRead x => ∃ ty, vars.lookup? x = some ⟨ty, .varyingVar⟩
  | .varyingWrite x => ∃ ty, vars.lookup? x = some ⟨ty, .varyingVar⟩

/-- All that is used is declared. -/
def AllKnown (top : TopLevel) (vars : Scope Var) (s : Expansion) (us : List Use) : Prop :=
  ∀ u ∈ us, Known top vars s.structs s.fns u

/-- One more variable leaves the others as they are. -/
def Extends (vars vars' : Scope Var) : Prop := ∀ x v, vars.lookup? x = some v → vars'.lookup? x = some v

theorem Known.mono {top : TopLevel} {vars vars' : Scope Var} {structs structs' : List StructDef}
    {fns fns' : List FnDef} {u : Use} (hvars : Extends vars vars') (hstructs : structs ⊆ structs')
    (hfns : fns ⊆ fns') (h : Known top vars structs fns u) : Known top vars' structs' fns' u := by
  cases u with
  | fn f deps =>
    obtain ⟨d, hd, hname, hdeps⟩ := h
    exact ⟨d, hfns hd, hname, hdeps⟩
  | struct x =>
    obtain ⟨d, hd, hname⟩ := h
    exact ⟨d, hstructs hd, hname⟩
  | localStruct x => exact h.imp_left fun ⟨d, hd, hname⟩ => ⟨d, hstructs hd, hname⟩
  | attributeVar x | uniformVar block x | varyingRead x | varyingWrite x =>
    obtain ⟨ty, hty⟩ := h
    exact ⟨ty, hvars x _ hty⟩

variable {ty : Ty} {f : FnDef} {d : StructDef}

/-- The uses of a type look only at structs. -/
theorem known_of_types {top : TopLevel} {vars vars' : Scope Var} {structs : List StructDef} {fns fns' : List FnDef}
    (h : ∀ u ∈ ty.uses, Known top vars structs fns u) :
    ∀ u ∈ ty.uses, Known top vars' structs fns' u := by
  intro u hu
  obtain ⟨x, hx, rfl⟩ := mem_map.1 hu
  exact h _ hu

/-- The functions and structs of an expansion have names of their own, and each uses only what is declared
before it. -/
structure Sound (top : TopLevel) (vars : Scope Var) (s : Expansion) : Prop where
  fns : InOrder (fun before f => (∀ g ∈ before, g.name ≠ f.name) ∧ Covers f.deps f.uses ∧
    ∀ u ∈ f.uses, Known top vars s.structs before u) s.fns
  structs : InOrder (fun before d => (∀ e ∈ before, e.name ≠ d.name) ∧
    ∀ u ∈ d.uses, Known top vars before [] u) s.structs
  vars : ∀ x v, vars.lookup? x = some v → AllKnown top vars s v.ty.uses

namespace AllKnown

variable {top : TopLevel} {vars : Scope Var} {s s' : Expansion} {us vs : List Use}

theorem nil : AllKnown top vars s [] := by
  intro u hu
  cases hu

theorem append (hus : AllKnown top vars s us) (hvs : AllKnown top vars s vs) :
    AllKnown top vars s (us ++ vs) := by
  intro u hu
  exact (mem_append.1 hu).elim (hus u) (hvs u)

theorem subset (h : AllKnown top vars s vs) (hsub : us ⊆ vs) : AllKnown top vars s us :=
  fun u hu => h u (hsub hu)

theorem grows {u : Unfinished} (h : AllKnown top vars s us) (hgrows : Check.Grows u s s') :
    AllKnown top vars s' us :=
  fun use huse => (h use huse).mono (fun _ _ hx => hx) (fun _ hd => hgrows.mem_structs hd)
    fun _ hf => hgrows.mem_fns hf

theorem basic (h : ty.structNames = []) : AllKnown top vars s ty.uses := by
  simp [AllKnown, Ty.uses, h]

/-- A type that is known is known as that of a local variable. -/
theorem ofLocal (h : AllKnown top vars s ty.uses) : AllKnown top vars s ty.localUses := by
  intro use huse
  obtain ⟨x, hx, rfl⟩ := mem_map.1 huse
  exact .inl (h (.struct x) (mem_map_of_mem hx))

theorem basicLocal (h : ty.structNames = []) : AllKnown top vars s ty.localUses := (basic h).ofLocal

end AllKnown

namespace Sound

variable {top : TopLevel} {vars : Scope Var} {s : Expansion}

theorem of_mem_fns (h : Sound top vars s) (hf : f ∈ s.fns) : AllKnown top vars s f.uses := by
  obtain ⟨before, after, hsplit⟩ := append_of_mem hf
  obtain ⟨-, -, hknown⟩ := h.fns before f after hsplit
  exact fun u hu => (hknown u hu).mono (fun _ _ hx => hx) (List.Subset.refl _) (by simp [hsplit])

theorem of_mem_structs (h : Sound top vars s) (hd : d ∈ s.structs) :
    AllKnown top vars s d.uses := by
  obtain ⟨before, after, hsplit⟩ := append_of_mem hd
  obtain ⟨-, hknown⟩ := h.structs before d after hsplit
  exact fun u hu => (hknown u hu).mono (fun _ _ hx => hx) (by simp [hsplit]) (nil_subset _)

theorem nodup_fns (h : Sound top vars s) : (s.fns.map FnDef.name).Nodup :=
  pairwise_map.2 (h.fns.pairwise fun _ _ hf => hf.1)

theorem nodup_structs (h : Sound top vars s) : (s.structs.map StructDef.name).Nodup :=
  pairwise_map.2 (h.structs.pairwise fun _ _ hd => hd.1)

theorem note (h : Sound top vars s) (e : Event) : Sound top vars (s.note e) := ⟨h.fns, h.structs, h.vars⟩

theorem addFn (h : Sound top vars s) (hnew : ∀ g ∈ s.fns, g.name ≠ f.name) (hcovers : Covers f.deps f.uses)
    (hknown : AllKnown top vars s f.uses) : Sound top vars (s.addFn f) where
  fns := h.fns.concat ⟨hnew, hcovers, hknown⟩
  structs := h.structs
  vars x v hv := known_of_types (h.vars x v hv)

theorem addStruct (h : Sound top vars s) (hnew : ∀ e ∈ s.structs, e.name ≠ d.name)
    (hknown : AllKnown top vars s d.uses) : Sound top vars (s.addStruct d) where
  fns := h.fns.mono fun before f ⟨hname, hcovers, hf⟩ => ⟨hname, hcovers, fun u hu =>
    (hf u hu).mono (fun _ _ hx => hx) (by simp [Expansion.addStruct]) (List.Subset.refl _)⟩
  structs := by
    refine h.structs.concat ⟨hnew, fun u hu => ?_⟩
    obtain ⟨m, hm, hu'⟩ := mem_flatMap.1 hu
    exact known_of_types (fun v hv => hknown v (mem_flatMap.2 ⟨m, hm, hv⟩)) u hu'
  vars x v hv := fun u hu => (h.vars x v hv u hu).mono (fun _ _ hx => hx) (by simp [Expansion.addStruct])
    (List.Subset.refl _)

end Sound

namespace Check

/-- A run goes on: nothing is lost, and what is there stays sound. -/
def Advance (top : TopLevel) (vars : Scope Var) (u : Unfinished) (s s' : Expansion) : Prop :=
  Grows u s s' ∧ (Sound top vars s → Sound top vars s')

theorem frame_advance (top : TopLevel) (vars : Scope Var) (u : Unfinished) : Frame (Advance top vars u) where
  refl s := ⟨(frame_grows u).refl s, id⟩
  trans h₁ h₂ := ⟨(frame_grows u).trans h₁.1 h₂.1, fun hs => h₂.2 (h₁.2 hs)⟩
  note s e := ⟨(frame_grows u).note s e, fun hs => hs.note e⟩

variable {span : Span} {x : Ident} {info : Info} {ts : List Typed} {t : Typed} {v : Var} {scope : Scope Var}
  {e : Expr}

section Names

variable {top : TopLevel} {vars : Scope Var} {n : Nat} {u : Unfinished} {s s' : Expansion}

theorem name_of_fn {g : Globals} {d : FnDecl} (h : Gives (fn g d) s f s') : f.name = d.name := by
  obtain ⟨result, s₁, scope, ps, s₂, body, -, -, -, -, rfl⟩ := gives_fn h
  rfl

theorem name_of_struct {g : Globals} {d : StructDecl} {f : StructDef} (h : Gives (struct g d) s f s') :
    f.name = d.name := by
  obtain ⟨ms, arrays, -, rfl⟩ := gives_struct h
  rfl

/-- What a name that is found stands for, in the expansion that is left. -/
def Found (top : TopLevel) (vars : Scope Var) (s : Expansion) (x : Ident) : Info → Prop
  | .var v => vars.lookup? x = some v
  | .fn f => f ∈ s.fns ∧ f.name = x
  | .struct d => d ∈ s.structs ∧ d.name = x
  | .builtin overloads => top.builtins.overloads? x = some overloads

theorem found_of_openFn {inside : Unfinished → Globals} {d : FnDecl}
    (h : Gives (openFn inside u d span) s f s') : f ∈ s'.fns ∧ f.name = d.name := by
  rcases gives_openFn h with ⟨hf, rfl⟩ | ⟨-, -, s₁, hf, rfl⟩
  · exact ⟨mem_of_find?_eq_some hf, by simpa using find?_some hf⟩
  · exact ⟨by simp [Expansion.note, Expansion.addFn], name_of_fn hf⟩

theorem found_of_openStruct {inside : Unfinished → Globals} {d : StructDecl} {f : StructDef}
    (h : Gives (openStruct inside u d span) s f s') : f ∈ s'.structs ∧ f.name = d.name := by
  rcases gives_openStruct h with ⟨hf, rfl⟩ | ⟨-, -, s₁, hf, rfl⟩
  · exact ⟨mem_of_find?_eq_some hf, by simpa using find?_some hf⟩
  · exact ⟨by simp [Expansion.note, Expansion.addStruct], name_of_struct hf⟩

theorem found_of_globals (h : Gives (globals top vars n u x span) s (some info) s') : Found top vars s' x info := by
  rcases gives_globals h with ⟨v, hv, rfl, -⟩ | ⟨-, k, d, f, -, hd, hopen, rfl⟩ |
    ⟨-, -, k, d, f, -, hd, hopen, rfl⟩ | ⟨-, -, -, overloads, hb, rfl, -⟩
  · exact hv
  · have hname : d.name = x := by simpa using find?_some hd
    exact hname ▸ found_of_openFn hopen
  · have hname : d.name = x := by simpa using find?_some hd
    exact hname ▸ found_of_openStruct hopen
  · exact hb

end Names

section Results

theorem ty_operation (op : BinOp) (ty : Ty) (l r : Typed) : (operation op ty l r).ty = ty := by
  rcases operation_cases op ty l r with ⟨x, -, -, h⟩ | ⟨x, -, -, h⟩ | ⟨x, y, v, -, -, -, -, -, h⟩ | h <;>
    rw [h]

theorem ty_unaryOperation (op : UnOp) (ty : Ty) (e : Typed) : (unaryOperation op ty e).ty = ty := by
  rcases unaryOperation_cases op ty e with ⟨x, v, -, -, h⟩ | h <;> rw [h]

theorem ty_conditional {c yes no : Typed} (hty : yes.ty = no.ty) : (conditional c yes no).ty = yes.ty := by
  rcases conditional_cases c yes no with ⟨v, -, -, h⟩ | ⟨v, -, -, h⟩ | h <;> rw [h]
  exact hty.symm

theorem ty_construction {ty : BasicTy} (h : construction ty ts = .ok t) :
    t.ty = .basic ty := by
  rcases construction_cases h with ⟨k, a, v, -, -, -, rfl⟩ | rfl <;> rfl

/-- An operator makes no type with structs in it, but an assignment has the type of its left operand. -/
theorem binary?_structs {op : BinOp} {l r : Ty} (h : Ty.binary? op l r = some ty) :
    ty = l ∨ ty.structNames = [] := by
  cases op with
  | assign =>
    simp only [Ty.binary?] at h
    split at h
    · exact .inl (Option.some.inj h).symm
    · cases h
  | eq | ne =>
    simp only [Ty.binary?] at h
    split at h
    · exact .inr ((Option.some.inj h) ▸ rfl)
    · cases h
  | update | or | and | compare | arith =>
    cases l <;> cases r <;> simp only [Ty.binary?, reduceCtorEq] at h
    obtain ⟨b, -, rfl⟩ := Option.map_eq_some_iff.1 h
    exact .inr rfl

theorem unary?_structs {op : UnOp} {t : Ty} (h : Ty.unary? op t = some ty) : ty.structNames = [] := by
  cases op <;> cases t <;> simp only [Ty.unary?, reduceCtorEq] at h
  all_goals
    split at h
    · cases h
      rfl
    · cases h

theorem index?_structs {base index : Ty} (h : Ty.index? base index = some ty) :
    ty.structNames ⊆ base.structNames := by
  simp only [Ty.index?] at h
  split at h
  · split at h
    all_goals cases h
    all_goals simp [Ty.structNames, Ty.ofScalar]
  · cases h

/-- The types of a value that is found in a struct are among those of the struct. -/
theorem member_uses {name : Ident} (h : d.member? name = some ty) :
    ty.uses ⊆ d.uses := by
  obtain ⟨before, after, hsplit, -⟩ := lookup_eq_some_iff.1 h
  intro u hu
  exact mem_flatMap.2 ⟨(name, ty), by simp [hsplit], hu⟩

theorem result?_structs {table : Builtins} {f : Ident} {overloads : List Overload} {args : List Ty}
    (hf : table.overloads? f = some overloads) (h : Overload.result? overloads args = some ty) :
    ty.structNames ⊆ table.resultStructs := by
  obtain ⟨o, ho, rfl⟩ := Option.map_eq_some_iff.1 h
  have hmem := mem_of_find?_eq_some ho
  simp only [Builtins.overloads?] at hf
  split at hf
  · cases hf
  · cases hf
    obtain ⟨b, hb, hob⟩ := mem_flatMap.1 hmem
    intro x hx
    exact mem_flatMap.2 ⟨b, (mem_filter.1 hb).1, mem_flatMap.2 ⟨o, hob, hx⟩⟩

end Results

/-- The scopes of a function bind local variables, of types whose structs are known. -/
def ScopesKnown (top : TopLevel) (vars : Scope Var) (s : Expansion) (scopes : List (Scope Var)) : Prop :=
  ∀ scope ∈ scopes, ∀ x v, scope.lookup? x = some v →
    (∃ mutable, v.kind = .localVar mutable) ∧ AllKnown top vars s v.ty.localUses

/-- What holds where an expression or statement is checked. -/
structure Ready (top : TopLevel) (vars : Scope Var) (scopes : List (Scope Var)) (s : Expansion) : Prop where
  sound : Sound top vars s
  scopes : ScopesKnown top vars s scopes

section Known

variable {top : TopLevel} {vars : Scope Var} {n : Nat} {u : Unfinished} {scopes : List (Scope Var)}
  {s s' : Expansion}

theorem ScopesKnown.find? (h : ScopesKnown top vars s scopes) (hv : Scope.find? scopes x = some v) :
    (∃ mutable, v.kind = .localVar mutable) ∧ AllKnown top vars s v.ty.localUses := by
  obtain ⟨scope, hscope, hx⟩ := exists_of_findSome?_eq_some hv
  exact h scope hscope x v hx

theorem ScopesKnown.insert {scope' : Scope Var} {mutable : Bool} (h : ScopesKnown top vars s (scope :: scopes))
    (hty : AllKnown top vars s ty.localUses) (hinsert : scope.insert? x ⟨ty, .localVar mutable⟩ = some scope') :
    ScopesKnown top vars s (scope' :: scopes) := by
  intro sc hsc y v hv
  rcases mem_cons.1 hsc with rfl | hsc
  · rw [Scope.lookup?_insert? hinsert] at hv
    split at hv
    · cases hv
      exact ⟨⟨mutable, rfl⟩, hty⟩
    · exact h scope mem_cons_self y v hv
  · exact h sc (mem_cons_of_mem _ hsc) y v hv

theorem Ready.advance (h : Ready top vars scopes s) (hadv : Advance top vars u s s') :
    Ready top vars scopes s' where
  sound := hadv.2 h.sound
  scopes sc hsc x v hv := by
    obtain ⟨hkind, hknown⟩ := h.scopes sc hsc x v hv
    exact ⟨hkind, hknown.grows hadv.1⟩

variable {place : Bool}

/-- A variable that is used is local, or is of the interface and occurs in what is left. -/
theorem known_of_useVar (h : useVar place x v = .ok t)
    (hv : (∃ mutable, v.kind = .localVar mutable) ∨ vars.lookup? x = some v) :
    AllKnown top vars s (t.term.uses place) ∧ t.ty = v.ty := by
  obtain ⟨ty, kind⟩ := v
  cases kind with
  | localVar mutable =>
    simp only [useVar] at h
    split at h
    · cases h
    · cases h
      exact ⟨AllKnown.nil, rfl⟩
  | attributeVar | uniformVar block =>
    have hx := hv.resolve_left (by simp)
    simp only [useVar] at h
    split at h
    · cases h
    · cases h
      refine ⟨?_, rfl⟩
      intro use huse
      rw [mem_singleton.1 huse]
      exact ⟨ty, hx⟩
  | varyingVar =>
    have hx := hv.resolve_left (by simp)
    cases h
    refine ⟨?_, rfl⟩
    intro use huse
    rw [mem_singleton.1 huse]
    cases place <;> exact ⟨ty, hx⟩

variable (hg : ∀ x span, Keeps (Advance top vars u) (globals top vars n u x span))
include hg

theorem advance_of_expr (h : Gives (expr ⟨scopes, globals top vars n u⟩ place e) s t s') : Advance top vars u s s' :=
  (keeps_expr (frame_advance top vars u) hg place e).of_gives h

theorem advance_of_find {info : Option Info}
    (h : Gives (Context.find ⟨scopes, globals top vars n u⟩ x span) s info s') : Advance top vars u s s' :=
  (keeps_find (frame_advance top vars u) hg x span).of_gives h

theorem advance_of_exprs {es : List Expr}
    (h : Gives (exprs ⟨scopes, globals top vars n u⟩ es) s ts s') : Advance top vars u s s' :=
  (keeps_exprs (frame_advance top vars u) hg es).of_gives h

omit hg in
/-- What a name stands for: a local variable, or what is found at the top level. -/
theorem found_of_find (h : Gives (Context.find ⟨scopes, globals top vars n u⟩ x span) s (some info) s') :
    (∃ v, Scope.find? scopes x = some v ∧ info = .var v ∧ s = s') ∨ Found top vars s' x info := by
  rcases gives_find.1 h with ⟨v, hv, hinfo, rfl⟩ | ⟨-, hglobal⟩
  · cases hinfo
    exact .inl ⟨v, hv, rfl, rfl⟩
  · exact .inr (found_of_globals hglobal)

omit hg in
/-- What is no variable is found at the top level. -/
theorem found_of_find_top (h : Gives (Context.find ⟨scopes, globals top vars n u⟩ x span) s (some info) s')
    (hinfo : ∀ v, info ≠ .var v) : Found top vars s' x info := by
  rcases found_of_find h with ⟨v, -, rfl, -⟩ | hfound
  · exact absurd rfl (hinfo v)
  · exact hfound

theorem known_of_exprs {es : List Expr} (hready : Ready top vars scopes s)
    (h : Gives (exprs ⟨scopes, globals top vars n u⟩ es) s ts s')
    (ih : ∀ e ∈ es, ∀ {s t s'}, Ready top vars scopes s → Gives (expr ⟨scopes, globals top vars n u⟩ false e) s t s' →
      AllKnown top vars s' (t.term.uses false)) :
    AllKnown top vars s' (Term.usesAll (argTerms ts)) := by
  induction es generalizing s ts with
  | nil =>
    obtain ⟨rfl, -⟩ := gives_exprs_nil.1 h
    exact nofun
  | cons e es ihes =>
    obtain ⟨t, s₁, more, ht, hmore, rfl⟩ := gives_exprs_cons.1 h
    have hfirst := ih e mem_cons_self hready ht
    have hrest := ihes (hready.advance (advance_of_expr hg ht)) hmore
      fun e he => ih e (mem_cons_of_mem _ he)
    exact (hfirst.grows (advance_of_exprs hg hmore).1).append hrest

/-- What is left of an accepted expression uses only what is there, and so does its type. -/
theorem known_of_expr (hready : Ready top vars scopes s)
    (h : Gives (expr ⟨scopes, globals top vars n u⟩ place e) s t s') :
    AllKnown top vars s' (t.term.uses place) ∧ AllKnown top vars s' t.ty.localUses := by
  induction e generalizing place s t s' with
  | cond c yes no span ihc ihyes ihno =>
    obtain ⟨rfl, c', s₁, yes', s₂, no', hc, -, hyes, hno, hty, rfl⟩ := gives_cond.1 h
    have hadv₁ := advance_of_expr hg hc
    have hadv₂ := advance_of_expr hg hyes
    have hadv₃ := advance_of_expr hg hno
    have hc' := (ihc hready hc).1.grows hadv₂.1 |>.grows hadv₃.1
    obtain ⟨hyes', hyesTy⟩ := ihyes (hready.advance hadv₁) hyes
    obtain ⟨hno', -⟩ := ihno ((hready.advance hadv₁).advance hadv₂) hno
    refine ⟨((hc'.append (hyes'.grows hadv₃.1)).append hno').subset (uses_conditional c' yes' no'), ?_⟩
    rw [ty_conditional hty]
    exact hyesTy.grows hadv₃.1
  | bin op l r span ihl ihr =>
    obtain ⟨rfl, l', s₁, r', ty, hl, hr, hty, -, rfl⟩ := gives_bin.1 h
    have hadv₁ := advance_of_expr hg hl
    have hadv₂ := advance_of_expr hg hr
    obtain ⟨hl', hlTy⟩ := ihl hready hl
    obtain ⟨hr', -⟩ := ihr (hready.advance hadv₁) hr
    have hboth := (hl'.grows hadv₂.1).append hr'
    have htyKnown : AllKnown top vars s' ty.localUses := by
      rcases binary?_structs hty with rfl | hnone
      · exact hlTy.grows hadv₂.1
      · exact AllKnown.basicLocal hnone
    cases ha : op.isAssignment with
    | true => exact ⟨hboth, htyKnown⟩
    | false =>
      rw [ha] at hboth
      refine ⟨hboth.subset (uses_operation ha ty l' r'), ?_⟩
      simp only [Bool.false_eq_true, if_false, ty_operation]
      exact htyKnown
  | un op e span ih =>
    obtain ⟨rfl, e', ty, he, hty, rfl⟩ := gives_un.1 h
    refine ⟨(ih hready he).1.subset (uses_unaryOperation op ty e'), ?_⟩
    rw [ty_unaryOperation]
    exact AllKnown.basicLocal (unary?_structs hty)
  | index b i span ihb ihi =>
    obtain ⟨b', s₁, i', ty, hb, hi, hty, -, rfl⟩ := gives_index.1 h
    have hadv₁ := advance_of_expr hg hb
    have hadv₂ := advance_of_expr hg hi
    obtain ⟨hb', hbTy⟩ := ihb hready hb
    obtain ⟨hi', -⟩ := ihi (hready.advance hadv₁) hi
    refine ⟨(hb'.grows hadv₂.1).append hi', (hbTy.grows hadv₂.1).subset ?_⟩
    exact map_subset _ (index?_structs hty)
  | member b name span ih =>
    obtain ⟨b', hb, hcase⟩ := gives_member.1 h
    obtain ⟨hb', -⟩ := ih hready hb
    rcases hcase with ⟨x, d, ty, -, hd, hm, rfl⟩ | ⟨sw, -, -, rfl⟩
    · have hsound := (hready.advance (advance_of_expr hg hb)).sound
      have hty := (hsound.of_mem_structs (mem_of_find?_eq_some hd)).subset (member_uses hm)
      exact ⟨hb', hty.ofLocal⟩
    · exact ⟨hb', AllKnown.basicLocal rfl⟩
  | call f args span ih =>
    obtain ⟨rfl, hcall⟩ := gives_call.1 h
    have hargs {s₁ info ts} (hf : Gives (Context.find ⟨scopes, globals top vars n u⟩ f span) s info s₁)
        (hts : Gives (exprs ⟨scopes, globals top vars n u⟩ args) s₁ ts s') :
        AllKnown top vars s' (Term.usesAll (argTerms ts)) :=
      known_of_exprs hg (hready.advance (advance_of_find hg hf)) hts fun e he => fun hr hgives => (ih e he hr hgives).1
    rcases hcall with ⟨d, s₁, ts, hf, hts, -, rfl⟩ | ⟨overloads, s₁, ts, ty, hf, hts, hty, rfl⟩ |
      ⟨d, s₁, ts, hf, hts, -, rfl⟩
    · obtain ⟨hmem, hname⟩ : Found top vars s₁ f (.fn d) := found_of_find_top hf (by simp)
      have hadv := advance_of_exprs hg hts
      have hmem' := hadv.1.mem_fns hmem
      refine ⟨?_, ?_⟩
      · intro use huse
        rcases mem_cons.1 huse with rfl | huse
        · exact ⟨d, hmem', hname, rfl⟩
        · exact hargs hf hts use huse
      · have hsound := ((hready.advance (advance_of_find hg hf)).advance hadv).sound
        refine AllKnown.ofLocal ((hsound.of_mem_fns hmem').subset ?_)
        intro use huse
        simp [FnDef.uses, huse]
    · have hover : Found top vars s₁ f (.builtin overloads) := found_of_find_top hf (by simp)
      refine ⟨hargs hf hts, ?_⟩
      intro use huse
      obtain ⟨x, hx, rfl⟩ := mem_map.1 huse
      exact .inr (result?_structs hover hty hx)
    · obtain ⟨hmem, hname⟩ : Found top vars s₁ f (.struct d) := found_of_find_top hf (by simp)
      have hmem' := (advance_of_exprs hg hts).1.mem_structs hmem
      have hmade : Known top vars s'.structs s'.fns (.struct f) := ⟨d, hmem', hname⟩
      refine ⟨?_, ?_⟩
      · intro use huse
        rcases mem_cons.1 huse with rfl | huse
        · exact hmade
        · exact hargs hf hts use huse
      · intro use huse
        rw [mem_singleton.1 huse]
        exact .inl hmade
  | construct ty args span ih =>
    obtain ⟨rfl, ts, hts, hmade⟩ := gives_construct.1 h
    have hargs := known_of_exprs hg hready hts fun e he => fun hr hgives => (ih e he hr hgives).1
    refine ⟨hargs.subset (uses_construction hmade), ?_⟩
    rw [ty_construction hmade]
    exact AllKnown.basicLocal rfl
  | var x span =>
    obtain ⟨v, hv, hused⟩ := gives_var.1 h
    rcases found_of_find hv with ⟨w, hw, hinfo, rfl⟩ | hfound
    · cases hinfo
      obtain ⟨hlocal, hty⟩ := hready.scopes.find? hw
      obtain ⟨huses, htyEq⟩ := known_of_useVar hused (.inl hlocal)
      exact ⟨huses, htyEq ▸ hty⟩
    · obtain ⟨huses, htyEq⟩ := known_of_useVar hused (.inr hfound)
      have hsound := (hready.advance (advance_of_find hg hv)).sound
      exact ⟨huses, htyEq ▸ (hsound.vars x v hfound).ofLocal⟩
  | lit v span =>
    obtain ⟨rfl, -, rfl⟩ := gives_lit.1 h
    exact ⟨AllKnown.nil, AllKnown.basicLocal rfl⟩

omit hg in
theorem known_of_tyExpr {te : TyExpr}
    (h : Gives (tyExpr ⟨scopes, globals top vars n u⟩ te) s ty s') : AllKnown top vars s' ty.uses := by
  induction te generalizing ty with
  | keyword b span =>
    obtain ⟨rfl, -⟩ := gives_keyword.1 h
    exact AllKnown.basic rfl
  | array elem len span ih =>
    obtain ⟨-, e, he, rfl⟩ := gives_array.1 h
    have helem := ih he
    exact helem
  | named x span =>
    obtain ⟨rfl, d, hd⟩ := gives_named.1 h
    obtain ⟨hmem, hname⟩ : Found top vars s' x (.struct d) := found_of_find_top hd (by simp)
    intro use huse
    rw [mem_singleton.1 huse]
    exact ⟨d, hmem, hname⟩

end Known

section KnownStatements

variable {top : TopLevel} {vars : Scope Var} {n : Nat} {u : Unfinished} {result : Ty} {inLoop : Bool}
  {outer : List (Scope Var)} {inner : Scope Var} {s s' : Expansion}

theorem Ready.push (h : Ready top vars outer s)
    (hscope : ∀ x v, scope.lookup? x = some v →
      (∃ mutable, v.kind = .localVar mutable) ∧ AllKnown top vars s v.ty.localUses) :
    Ready top vars (scope :: outer) s where
  sound := h.sound
  scopes sc hsc := by
    rcases mem_cons.1 hsc with rfl | hsc
    · exact hscope
    · exact h.scopes sc hsc

theorem Ready.pushEmpty (h : Ready top vars outer s) : Ready top vars (.empty :: outer) s := by
  refine h.push fun x v hv => ?_
  rw [Scope.lookup?_empty] at hv
  cases hv

variable (hg : ∀ x span, Keeps (Advance top vars u) (globals top vars n u x span))
include hg

theorem advance_of_stmt {st : Stmt} {r : Scope Var × Option Kept}
    (h : Gives (stmt ⟨globals top vars n u, result⟩ inLoop outer inner st) s r s') : Advance top vars u s s' :=
  (keeps_stmt (frame_advance top vars u) hg inLoop outer inner st).of_gives h

theorem advance_of_block {b : Block} {kept : KeptBlock}
    (h : Gives (block ⟨globals top vars n u, result⟩ inLoop outer inner b) s kept s') :
    Advance top vars u s s' :=
  (keeps_block (frame_advance top vars u) hg inLoop outer inner b).of_gives h

theorem advance_of_constInt {scopes : List (Scope Var)} {i : Int32}
    (h : Gives (constInt ⟨scopes, globals top vars n u⟩ e) s i s') : Advance top vars u s s' :=
  (keeps_constInt (frame_advance top vars u) hg e).of_gives h

/-- What a statement keeps and the scope behind it: the uses of the one and the types of the other are
known. -/
def StmtKnown (top : TopLevel) (vars : Scope Var) (n : Nat) (u : Unfinished) (st : Stmt) : Prop :=
  ∀ {result inLoop outer inner s inner' k s'}, Ready top vars (inner :: outer) s →
    Gives (stmt ⟨globals top vars n u, result⟩ inLoop outer inner st) s (inner', k) s' →
    ScopesKnown top vars s' (inner' :: outer) ∧ ∀ kept, k = some kept → AllKnown top vars s' kept.code.uses

theorem known_of_stmts {ss : List Stmt} {last : Scope Var} {ks : List Kept}
    (hready : Ready top vars (inner :: outer) s)
    (h : Gives (stmts ⟨globals top vars n u, result⟩ inLoop outer inner ss) s (last, ks) s')
    (ih : ∀ st ∈ ss, StmtKnown top vars n u st) : ∀ k ∈ ks, AllKnown top vars s' k.code.uses := by
  induction ss generalizing inner s ks with
  | nil =>
    obtain ⟨-, rfl, -⟩ := gives_stmts_nil h
    exact nofun
  | cons st ss ihss =>
    obtain ⟨inner', k, s₁, more, hst, hrest, rfl⟩ := gives_stmts_cons h
    obtain ⟨hscopes, hkept⟩ := ih st mem_cons_self hready hst
    have hready₁ : Ready top vars (inner' :: outer) s₁ := ⟨(advance_of_stmt hg hst).2 hready.sound, hscopes⟩
    have hadv : Advance top vars u s₁ s' :=
      (keeps_stmts (frame_advance top vars u) hg inLoop outer inner' ss).of_gives hrest
    intro k' hk'
    rcases mem_append.1 hk' with hk' | hk'
    · exact (hkept k' (Option.mem_toList.1 hk')).grows hadv.1
    · exact ihss hready₁ hrest (fun st hst => ih st (mem_cons_of_mem _ hst)) k' hk'

theorem known_of_block {b : Block} {kept : KeptBlock} (hready : Ready top vars (inner :: outer) s)
    (h : Gives (block ⟨globals top vars n u, result⟩ inLoop outer inner b) s kept s')
    (ih : ∀ st ∈ b.stmts, StmtKnown top vars n u st) : AllKnown top vars s' (Code.usesAll kept.body) := by
  obtain ⟨last, ks, hks, rfl⟩ := gives_block h
  have hall := known_of_stmts hg hready hks ih
  rw [uses_gather, usesAll_kept]
  intro use huse
  obtain ⟨k, hk, huse⟩ := mem_flatMap.1 huse
  exact hall k hk use huse

omit hg in
theorem lookup?_single {y : Ident} {w : Var} (h : Scope.lookup? ⟨[(x, v)]⟩ y = some w) : w = v := by
  simp only [Scope.lookup?, lookup_cons, lookup_nil] at h
  split at h
  · exact (Option.some.inj h).symm
  · cases h

theorem known_of_for {first bound : Expr} {step : Option Expr} {body : Block}
    (ih : ∀ st ∈ body.stmts, StmtKnown top vars n u st) :
    StmtKnown top vars n u (.forStmt x first bound step body span) := by
  intro result inLoop outer inner s inner' k s' hready h
  have hscopes := (hready.advance (advance_of_stmt hg h)).scopes
  obtain ⟨a, s₁, b, s₂, i, s₃, kept, s₄, ha, hb, hi, hkept, hcase⟩ := gives_for h
  rcases hcase with ⟨-, heq, rfl⟩ | ⟨-, rfl, heq⟩
  · cases heq
    exact ⟨hscopes, nofun⟩
  · cases heq
    have hready₃ : Ready top vars (inner :: outer) s₃ :=
      ((hready.advance (advance_of_constInt hg ha)).advance (advance_of_constInt hg hb)).advance
        ((keeps_loopStep (frame_advance top vars u) hg x a b step).of_gives hi)
    have hloop : Ready top vars (⟨[(x, ⟨.int, .localVar false⟩)]⟩ :: inner :: outer) s₃ := by
      refine hready₃.push fun y v hv => ?_
      rw [lookup?_single hv]
      exact ⟨⟨false, rfl⟩, AllKnown.basicLocal rfl⟩
    refine ⟨hscopes, ?_⟩
    rintro _ ⟨⟩
    exact known_of_block hg hloop hkept ih

theorem known_of_if {test : Expr} {yes : Block} {no : Option Block}
    (ihyes : ∀ st ∈ yes.stmts, StmtKnown top vars n u st)
    (ihno : ∀ b, no = some b → ∀ st ∈ b.stmts, StmtKnown top vars n u st) :
    StmtKnown top vars n u (.ifStmt test yes no span) := by
  intro result inLoop outer inner s inner' k s' hready h
  have hscopes := (hready.advance (advance_of_stmt hg h)).scopes
  obtain ⟨t, s₁, yes', s₂, no', s₃, ht, -, hyes, hno, hcase⟩ := gives_if h
  have hready₁ := hready.advance (advance_of_expr hg ht)
  have hready₂ := hready₁.advance (advance_of_block hg hyes)
  obtain ⟨hgrows, hno'⟩ : Grows u s₂ s₃ ∧ AllKnown top vars s₃ (Code.usesAll no'.body) := by
    cases no with
    | none =>
      simp only [elseBlock, gives_pure] at hno
      obtain ⟨rfl, rfl⟩ := hno
      exact ⟨(frame_grows u).refl s₂, AllKnown.nil⟩
    | some b => exact ⟨(advance_of_block hg hno).1, known_of_block hg hready₂.pushEmpty hno (ihno b rfl)⟩
  have hyes' := (known_of_block hg hready₁.pushEmpty hyes ihyes).grows hgrows
  rcases hcase with ⟨v, -, heq, rfl⟩ | ⟨-, rfl, heq⟩
  · obtain ⟨rfl, rfl⟩ := Prod.mk.inj heq
    refine ⟨hscopes, fun kept hk => ?_⟩
    rw [(uses_of_kept? hk).2]
    cases v.toBool
    · exact hno'
    · exact hyes'
  · cases heq
    refine ⟨hscopes, ?_⟩
    rintro _ ⟨⟩
    rw [uses_ofBranch]
    have htest := ((known_of_expr hg hready ht).1.grows (advance_of_block hg hyes).1).grows hgrows
    exact (htest.append hyes').append hno'

theorem known_of_let {ty : Option TyExpr} {init : Option Expr} :
    StmtKnown top vars n u (.letStmt x ty init span) := by
  intro result inLoop outer inner s inner' k s' hready h
  have hscopes := (hready.advance (advance_of_stmt hg h)).scopes
  obtain ⟨value, s₁, t, scope, hvalue, ht, hinsert, heq⟩ := gives_let h
  cases heq
  have hadv : Advance top vars u s₁ s' :=
    (keeps_letTy (frame_advance top vars u) hg x ty value span).of_gives ht
  -- The value is known before its type is, so both are brought to the end.
  have hvalue' : ∀ e, value = some e →
      AllKnown top vars s' (e.1.term.uses false) ∧ AllKnown top vars s' e.1.ty.localUses := by
    rintro e rfl
    rcases gives_initValue hvalue with ⟨-, hnone, -⟩ | ⟨e₀, e', -, he, hsome⟩
    · cases hnone
    · cases hsome
      obtain ⟨huses, htys⟩ := known_of_expr hg hready he
      exact ⟨huses.grows hadv.1, htys.grows hadv.1⟩
  have hty : AllKnown top vars s' t.localUses := by
    rcases gives_letTy ht with ⟨te, -, hte, -⟩ | ⟨-, -, e, he, rfl, -⟩
    · exact (known_of_tyExpr hte).ofLocal
    · exact (hvalue' e he).2
  refine ⟨hscopes.insert hty hinsert, ?_⟩
  rintro _ ⟨⟩
  refine hty.append ?_
  cases value with
  | none => exact nofun
  | some e => exact (hvalue' e rfl).1

/-- What is kept of a statement uses only what is there, and the types of the variables bound behind it
are known. -/
theorem known_of_stmt (st : Stmt) : StmtKnown top vars n u st := by
  induction st
  case forStmt x first bound step body span ih => exact known_of_for hg ih
  case ifStmt test yes no span ihyes ihno => exact known_of_if hg ihyes ihno
  case letStmt x ty init span => exact known_of_let hg
  -- The other statements leave the scope as it is.
  all_goals
    intro result inLoop outer inner s inner' k s' hready h
    have hscopes := (hready.advance (advance_of_stmt hg h)).scopes
  case breakStmt span =>
    obtain ⟨-, heq, -⟩ := gives_break h
    cases heq
    refine ⟨hscopes, ?_⟩
    rintro _ ⟨⟩
    exact nofun
  case continueStmt span =>
    obtain ⟨-, heq, -⟩ := gives_continue h
    cases heq
    refine ⟨hscopes, ?_⟩
    rintro _ ⟨⟩
    exact nofun
  case returnStmt value span =>
    rcases gives_return h with ⟨-, -, heq, -⟩ | ⟨e, e', -, he, -, heq⟩ <;> cases heq <;> refine ⟨hscopes, ?_⟩
    · rintro _ ⟨⟩
      exact nofun
    · rintro _ ⟨⟩
      exact (known_of_expr hg hready he).1
  case blockStmt b span ih =>
    obtain ⟨kept, hkept, heq⟩ := gives_blockStmt h
    obtain ⟨rfl, rfl⟩ := Prod.mk.inj heq
    refine ⟨hscopes, fun k hk => ?_⟩
    rw [(uses_of_kept? hk).2]
    exact known_of_block hg hready.pushEmpty hkept ih
  case exprStmt e span =>
    obtain ⟨e', he, heq⟩ := gives_exprStmt h
    cases heq
    refine ⟨hscopes, ?_⟩
    rintro _ ⟨⟩
    rw [uses_ofExpr]
    exact (known_of_expr hg hready he).1

end KnownStatements

section KnownDeclarations

variable {top : TopLevel} {vars : Scope Var} {n : Nat} {u : Unfinished} {s s' : Expansion}

theorem Grows.fns_ne (h : Grows (u.addFn x) s s') (hx : s.fn? x = none) :
    ∀ f ∈ s'.fns, f.name ≠ x := by
  obtain ⟨⟨new, hnew, hnames⟩, -⟩ := h
  intro f hf
  rw [hnew] at hf
  rcases mem_append.1 hf with hf | hf
  · simpa using find?_eq_none.1 hx f hf
  · rintro rfl
    exact hnames f hf (by simp [Unfinished.addFn])

theorem Grows.structs_ne (h : Grows (u.addStruct x) s s') (hx : s.struct? x = none) :
    ∀ d ∈ s'.structs, d.name ≠ x := by
  obtain ⟨-, new, hnew, hnames⟩ := h
  intro d hd
  rw [hnew] at hd
  rcases mem_append.1 hd with hd | hd
  · simpa using find?_eq_none.1 hx d hd
  · rintro rfl
    exact hnames d hd (by simp [Unfinished.addStruct])

variable (hg : ∀ x span, Keeps (Advance top vars u) (globals top vars n u x span))
include hg

theorem known_of_params {last : Scope Var} {decls : List TypedName} {ps : List (Ident × Ty)}
    (hready : Ready top vars [scope] s) (h : Gives (params (globals top vars n u) scope decls) s (last, ps) s') :
    Ready top vars [last] s' ∧ ∀ p ∈ ps, AllKnown top vars s' p.2.uses := by
  induction decls generalizing scope s ps with
  | nil =>
    obtain ⟨rfl, rfl, rfl⟩ := gives_params_nil h
    exact ⟨hready, nofun⟩
  | cons d decls ih =>
    obtain ⟨ty, s₁, scope', more, hty, hinsert, hrest, rfl⟩ := gives_params_cons h
    have hknown : AllKnown top vars s₁ ty.uses := known_of_tyExpr hty
    have hready₁ := hready.advance ((keeps_tyExpr (frame_advance top vars u) hg d.ty).of_gives hty)
    obtain ⟨hlast, hmore⟩ := ih ⟨hready₁.sound, hready₁.scopes.insert hknown.ofLocal hinsert⟩ hrest
    have hadv := (keeps_params (frame_advance top vars u) hg scope' decls).of_gives hrest
    refine ⟨hlast, fun p hp => ?_⟩
    rcases mem_cons.1 hp with rfl | hp
    · exact hknown.grows hadv.1
    · exact hmore p hp

/-- A function uses only what is there. -/
theorem known_of_laxFn {d : FnDecl} (hs : Sound top vars s)
    (h : Gives (laxFn (globals top vars n u) d) s f s') : AllKnown top vars s' f.uses := by
  obtain ⟨result, s₁, scope, ps, s₂, body, hresult, hparams, hbody, rfl⟩ := gives_laxFn h
  have hadv₁ := (keeps_resultTy (frame_advance top vars u) hg d.result).of_gives hresult
  have hadv₂ := (keeps_params (frame_advance top vars u) hg .empty d.params).of_gives hparams
  have hadv₃ := advance_of_block hg hbody
  have hstart : Ready top vars [] s₁ := ⟨hadv₁.2 hs, nofun⟩
  have hresult' : AllKnown top vars s₁ result.uses := by
    cases hr : d.result with
    | none =>
      rw [hr, resultTy, gives_pure] at hresult
      obtain ⟨rfl, -⟩ := hresult
      exact AllKnown.basic rfl
    | some te =>
      rw [hr] at hresult
      exact known_of_tyExpr hresult
  obtain ⟨hready, hps⟩ := known_of_params hg hstart.pushEmpty hparams
  refine AllKnown.append (AllKnown.append ?_ ?_) ?_
  · intro use huse
    obtain ⟨p, hp, huse⟩ := mem_flatMap.1 huse
    exact (hps p hp).grows hadv₃.1 use huse
  · exact (hresult'.grows hadv₂.1).grows hadv₃.1
  · exact known_of_block hg hready hbody fun st _ => known_of_stmt hg st

theorem known_of_members {earlier ms : List (Ident × Ty)} {arrays arrays' : Bool} {decls : List TypedName}
    (hearlier : ∀ m ∈ earlier, AllKnown top vars s m.2.uses)
    (h : Gives (members (globals top vars n u) earlier arrays decls) s (ms, arrays') s') :
    ∀ m ∈ ms, AllKnown top vars s' m.2.uses := by
  induction decls generalizing earlier arrays s with
  | nil =>
    obtain ⟨rfl, -, rfl⟩ := gives_members_nil h
    exact hearlier
  | cons d decls ih =>
    obtain ⟨ty, s₁, inside, hty, -, -, hrest⟩ := gives_members_cons h
    have hadv := (keeps_tyExpr (frame_advance top vars u) hg d.ty).of_gives hty
    refine ih ?_ hrest
    intro m hm
    rcases mem_append.1 hm with hm | hm
    · exact (hearlier m hm).grows hadv.1
    · rw [mem_singleton.1 hm]
      exact known_of_tyExpr hty

theorem known_of_struct {d : StructDecl} {f : StructDef}
    (h : Gives (struct (globals top vars n u) d) s f s') : AllKnown top vars s' f.uses := by
  obtain ⟨ms, arrays, hms, rfl⟩ := gives_struct h
  have hall := known_of_members hg (fun m hm => absurd hm not_mem_nil) hms
  intro use huse
  obtain ⟨m, hm, huse⟩ := mem_flatMap.1 huse
  exact hall m hm use huse

omit hg

/-- Opening a function or a struct loses nothing and keeps what is there sound. -/
theorem openFrame_advance (top : TopLevel) (vars : Scope Var) : OpenFrame top vars (Advance top vars) where
  frame := frame_advance top vars
  inFn h := ⟨h.1.inFn, h.2⟩
  inStruct h := ⟨h.1.inStruct, h.2⟩
  fn := by
    intro k u d f s s' _ hclosed hnew hk hfn
    have hadv := (keeps_fn (frame_advance top vars _) hk d).of_gives hfn
    have hname := name_of_fn hfn
    refine ⟨hadv.1.inFn.addFn (hname ▸ hnew), fun hs => ?_⟩
    obtain ⟨hlax, -⟩ := gives_fn_iff.1 hfn
    refine (hadv.2 hs).addFn ?_ (exact_of_laxFn hlax) (known_of_laxFn hk hs hlax)
    rw [hname]
    exact hadv.1.fns_ne hclosed
  struct := by
    intro k u d f s s' _ hclosed hnew hk hstruct
    have hadv := (keeps_struct (frame_advance top vars _) hk d).of_gives hstruct
    have hname := name_of_struct hstruct
    refine ⟨hadv.1.inStruct.addStruct (hname ▸ hnew), fun hs => ?_⟩
    refine (hadv.2 hs).addStruct ?_ (known_of_struct hk hstruct)
    rw [hname]
    exact hadv.1.structs_ne hclosed

theorem advance_globals (top : TopLevel) (vars : Scope Var) (n : Nat) (u : Unfinished) (x : Ident) (span : Span) :
    Keeps (Advance top vars u) (globals top vars n u x span) :=
  keeps_globals (openFrame_advance top vars) n u x span

end KnownDeclarations

end Check

end Shading
