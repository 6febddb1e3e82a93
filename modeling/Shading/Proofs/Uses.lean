import Mathlib.Data.List.Sort
import Shading.Proofs.Statements

/-!
# What emitted code uses

The functions, structs and interface variables that occur in emitted code, read off the code itself. A
varying is written where it is the variable that an assignment stores into, as a whole or in a part, and
read everywhere else.

The needs that checking collects are compared with this. `Covers d us` says that the needs `d` are those of
the uses `us` and no others; it holds of every expression, statement and function that is accepted, so what
folding and pruning leave out leaves no need behind.
-/

namespace Shading

open List

def Ty.structNames : Ty → List Ident
  | .struct x => [x]
  | .array elem _ => elem.structNames
  | .void | .basic _ => []

/-- Something that code uses. A call has with it what the called function needs. The struct of a local
variable is kept apart from other structs, since its type may be that of its first value. -/
inductive Use where
  | fn (f : Ident) (deps : Deps)
  | struct (x : Ident)
  | localStruct (x : Ident)
  | attributeVar (x : Ident)
  | uniformVar (block x : Ident)
  | varyingRead (x : Ident)
  | varyingWrite (x : Ident)

def Ty.uses (t : Ty) : List Use := t.structNames.map .struct

/-- The uses of the type of a local variable. -/
def Ty.localUses (t : Ty) : List Use := t.structNames.map .localStruct

namespace Term

mutual

/-- The uses of an expression that is stored into or has a value. -/
@[simp] def uses (place : Bool) : Term → List Use
  | .const _ => []
  | .cond c t f => uses false c ++ uses false t ++ uses false f
  | .bin op l r => uses op.isAssignment l ++ uses false r
  | .un _ e => uses false e
  | .index b i => uses place b ++ uses false i
  | .member b _ => uses place b
  | .swizzle b _ => uses place b
  | .call f deps args => .fn f deps :: usesAll args
  | .builtin _ args => usesAll args
  | .makeStruct s args => .struct s :: usesAll args
  | .construct _ args => usesAll args
  | .attributeVar x => [.attributeVar x]
  | .uniformVar block x => [.uniformVar block x]
  | .varyingVar x => [if place then .varyingWrite x else .varyingRead x]
  | .localVar _ => []

/-- The uses of several expressions that have values. -/
@[simp] def usesAll : List Term → List Use
  | [] => []
  | t :: ts => uses false t ++ usesAll ts

end

end Term

namespace Code

mutual

/-- The uses of a statement. -/
@[simp] def uses : Code → List Use
  | .exitLoop => []
  | .nextTurn => []
  | .assign op l r => l.uses op.isAssignment ++ r.uses false
  | .eval t => t.uses false
  | .declare _ ty init => ty.localUses ++ init.elim [] (Term.uses false)
  | .ret t => t.elim [] (Term.uses false)
  | .block body => usesAll body
  | .loop _ _ _ _ body => usesAll body
  | .branch test yes no => test.uses false ++ usesAll yes ++ usesElse no

@[simp] def usesAll : List Code → List Use
  | [] => []
  | c :: cs => c.uses ++ usesAll cs

@[simp] def usesElse : Option Code → List Use
  | none => []
  | some c => c.uses

end

end Code

/-- The uses of a function: those of the types of its parameters and result and of its body. -/
def FnDef.uses (f : FnDef) : List Use :=
  f.params.flatMap (fun p => p.2.uses) ++ f.result.uses ++ Code.usesAll f.body

def StructDef.uses (d : StructDef) : List Use := d.members.flatMap fun m => m.2.uses

/-- Something that code can need. -/
inductive Need where
  | fn (f : Ident)
  | block (b : Ident)
  | readsAttributes
  | readsVaryings
  | writesVaryings
deriving DecidableEq

namespace Deps

/-- The need is among those collected. -/
def Has (d : Deps) : Need → Prop
  | .fn f => d.hasFn f = true
  | .block b => d.hasBlock b = true
  | .readsAttributes => d.readsAttributes = true
  | .readsVaryings => d.readsVaryings = true
  | .writesVaryings => d.writesVaryings = true

@[simp] theorem not_has_none (n : Need) : ¬ Deps.none.Has n := by
  cases n <;> simp [Has, Deps.none, hasFn, hasBlock]

@[simp] theorem has_union (a b : Deps) (n : Need) : (a.union b).Has n ↔ a.Has n ∨ b.Has n := by
  cases n <;> simp [Has, union, hasFn, hasBlock]

@[simp] theorem has_ofFn (f : Ident) (n : Need) : (ofFn f).Has n ↔ n = .fn f := by
  cases n <;> simp [Has, ofFn, hasFn, hasBlock]

@[simp] theorem has_ofBlock (b : Ident) (n : Need) : (ofBlock b).Has n ↔ n = .block b := by
  cases n <;> simp [Has, ofBlock, hasFn, hasBlock]

theorem has_foldl_union (ds : List Deps) (a : Deps) (n : Need) :
    (ds.foldl union a).Has n ↔ a.Has n ∨ ∃ d ∈ ds, d.Has n := by
  induction ds generalizing a with
  | nil => simp
  | cons d ds ih => simp [ih, or_assoc]

@[simp] theorem has_unionAll (ds : List Deps) (n : Need) : (unionAll ds).Has n ↔ ∃ d ∈ ds, d.Has n := by
  simp [unionAll, has_foldl_union]

/-- Needs are equal as soon as they are needs for the same. -/
theorem ext_has {a b : Deps} (h : ∀ n, a.Has n ↔ b.Has n) : a = b := by
  have names {s t : NameSet} (hmem : ∀ x, x ∈ s ↔ x ∈ t) : s = t := by
    obtain ⟨l, hl⟩ := s
    obtain ⟨l', hl'⟩ := t
    obtain rfl : l = l' := hl.eq_of_mem_iff hl' hmem
    rfl
  obtain ⟨fns, blocks, attributes, reads, writes⟩ := a
  obtain ⟨fns', blocks', attributes', reads', writes'⟩ := b
  obtain rfl : fns = fns' := names fun f => by simpa [Has, hasFn] using h (.fn f)
  obtain rfl : blocks = blocks' := names fun x => by simpa [Has, hasBlock] using h (.block x)
  obtain rfl : attributes = attributes' := Bool.eq_iff_iff.2 (h .readsAttributes)
  obtain rfl : reads = reads' := Bool.eq_iff_iff.2 (h .readsVaryings)
  obtain rfl : writes = writes' := Bool.eq_iff_iff.2 (h .writesVaryings)
  rfl

end Deps

/-- The use has the need. A call needs the function and all that the function needs. -/
def Use.Needs : Use → Need → Prop
  | .fn f deps, n => n = .fn f ∨ deps.Has n
  | .struct _, _ => False
  | .localStruct _, _ => False
  | .attributeVar _, n => n = .readsAttributes
  | .uniformVar block _, n => n = .block block
  | .varyingRead _, n => n = .readsVaryings
  | .varyingWrite _, n => n = .writesVaryings

/-- The needs are those of the uses and no others. -/
def Covers (d : Deps) (us : List Use) : Prop := ∀ n, d.Has n ↔ ∃ u ∈ us, u.Needs n

namespace Covers

variable {d e : Deps} {us vs : List Use}

theorem nil : Covers .none [] := by
  intro n
  simp

theorem union (hd : Covers d us) (he : Covers e vs) : Covers (d.union e) (us ++ vs) := by
  intro n
  simp only [Deps.has_union, hd n, he n, mem_append, or_and_right, exists_or]

/-- What has no uses adds no needs. -/
theorem drop (hd : Covers d []) (he : Covers e us) : Covers (d.union e) us := hd.union he

theorem unionAll {α : Type} {deps : α → Deps} {uses : α → List Use} {l : List α}
    (h : ∀ a ∈ l, Covers (deps a) (uses a)) : Covers (Deps.unionAll (l.map deps)) (l.flatMap uses) := by
  intro n
  simp only [Deps.has_unionAll, mem_map, mem_flatMap]
  constructor
  · rintro ⟨_, ⟨a, ha, rfl⟩, hn⟩
    obtain ⟨u, hu, hneeds⟩ := (h a ha n).1 hn
    exact ⟨u, ⟨a, ha, hu⟩, hneeds⟩
  · rintro ⟨u, ⟨a, ha, hu⟩, hneeds⟩
    exact ⟨deps a, ⟨a, ha, rfl⟩, (h a ha n).2 ⟨u, hu, hneeds⟩⟩

/-- What needs nothing adds no needs. -/
theorem inert {ts : List Use} (hts : ∀ use ∈ ts, ∀ n, ¬ use.Needs n) (hd : Covers d us) : Covers d (ts ++ us) := by
  intro n
  rw [hd n]
  simp only [mem_append, or_and_right, exists_or]
  constructor
  · exact .inr
  · rintro (⟨use, huse, hn⟩ | h)
    · exact absurd hn (hts use huse n)
    · exact h

theorem types (ty : Ty) (hd : Covers d us) : Covers d (ty.uses ++ us) := by
  refine hd.inert fun use huse n hn => ?_
  obtain ⟨x, -, rfl⟩ := mem_map.1 huse
  exact hn

theorem localTypes (ty : Ty) (hd : Covers d us) : Covers d (ty.localUses ++ us) := by
  refine hd.inert fun use huse n hn => ?_
  obtain ⟨x, -, rfl⟩ := mem_map.1 huse
  exact hn

end Covers

namespace Check

section Expressions

variable {place : Bool}

/-- The needs of the expression are those of what is left of it. -/
def Exact (place : Bool) (t : Typed) : Prop := Covers t.deps (t.term.uses place)

/-- A constant needs nothing. -/
theorem Exact.const {t : Typed} {v : Value} (h : Exact place t) (hv : t.term = .const v) :
    Covers t.deps [] := by
  have ht : Covers t.deps (t.term.uses place) := h
  rwa [hv] at ht

/-- What is computed or decided early uses no more than the operands. -/
theorem uses_operation {op : BinOp} (ha : op.isAssignment = false) (ty : Ty) (l r : Typed) :
    (operation op ty l r).term.uses false ⊆ l.term.uses false ++ r.term.uses false := by
  rcases operation_cases op ty l r with ⟨x, -, -, h⟩ | ⟨x, -, -, h⟩ | ⟨x, y, v, -, -, -, -, -, h⟩ | h
  · simp [h, Term.uses]
  · simp [h]
  · simp [h, Term.uses]
  · simp [h, Term.uses, ha]

theorem uses_unaryOperation (op : UnOp) (ty : Ty) (e : Typed) :
    (unaryOperation op ty e).term.uses false ⊆ e.term.uses false := by
  rcases unaryOperation_cases op ty e with ⟨x, v, -, -, h⟩ | h <;> simp [h, Term.uses]

theorem uses_conditional (c yes no : Typed) :
    (conditional c yes no).term.uses false ⊆
      c.term.uses false ++ yes.term.uses false ++ no.term.uses false := by
  rcases conditional_cases c yes no with ⟨v, -, -, h⟩ | ⟨v, -, -, h⟩ | h
  · simp [h]
  · simp [h]
  · simp [h, Term.uses]

theorem uses_construction {ty : BasicTy} {ts : List Typed} {t : Typed} (h : construction ty ts = .ok t) :
    t.term.uses false ⊆ Term.usesAll (argTerms ts) := by
  rcases construction_cases h with ⟨k, a, v, -, -, -, rfl⟩ | rfl <;> simp [Term.uses]

theorem exact_operation {op : BinOp} {ty : Ty} {l r : Typed} (ha : op.isAssignment = false)
    (hl : Exact false l) (hr : Exact false r) : Exact false (operation op ty l r) := by
  unfold Exact
  rcases operation_cases op ty l r with ⟨x, hx, -, h⟩ | ⟨x, hx, -, h⟩ | ⟨x, y, v, hx, hy, -, -, -, h⟩ | h
  · rw [h]
    exact hl.const hx
  · rw [h]
    exact (hl.const hx).drop hr
  · rw [h]
    exact (hl.const hx).drop (hr.const hy)
  · rw [h]
    simp only [Term.uses, ha]
    exact hl.union hr

theorem exact_unaryOperation {op : UnOp} {ty : Ty} {e : Typed} (he : Exact false e) :
    Exact false (unaryOperation op ty e) := by
  unfold Exact
  rcases unaryOperation_cases op ty e with ⟨x, v, hx, -, h⟩ | h
  · rw [h]
    exact he.const hx
  · rw [h]
    exact he

theorem exact_conditional {c yes no : Typed} (hc : Exact false c) (hyes : Exact false yes)
    (hno : Exact false no) : Exact false (conditional c yes no) := by
  unfold Exact
  rcases conditional_cases c yes no with ⟨v, hv, -, h⟩ | ⟨v, hv, -, h⟩ | h
  · rw [h]
    exact (hc.const hv).drop hyes
  · rw [h]
    exact (hc.const hv).drop hno
  · rw [h]
    exact (hc.union hyes).union hno

theorem usesAll_argTerms (ts : List Typed) :
    Term.usesAll (argTerms ts) = ts.flatMap fun t => t.term.uses false := by
  induction ts with
  | nil => rfl
  | cons t ts ih => simpa [argTerms, Term.usesAll] using ih

theorem covers_args {ts : List Typed} (h : ∀ t ∈ ts, Exact false t) :
    Covers (argDeps ts) (Term.usesAll (argTerms ts)) := by
  rw [usesAll_argTerms]
  exact Covers.unionAll h

theorem exact_construction {ty : BasicTy} {ts : List Typed} {t : Typed} (h : construction ty ts = .ok t)
    (hts : ∀ t ∈ ts, Exact false t) : Exact false t := by
  rcases construction_cases h with ⟨k, a, v, rfl, rfl, ha, rfl⟩ | rfl
  · have hargs := covers_args hts
    simpa [Exact, argTerms, Term.usesAll, ha, Term.uses] using hargs
  · exact covers_args hts

theorem exact_useVar {x : Ident} {v : Var} {t : Typed} (h : useVar place x v = .ok t) : Exact place t := by
  obtain ⟨ty, kind⟩ := v
  cases kind with
  | attributeVar =>
    simp only [useVar] at h
    split at h
    · cases h
    · cases h
      intro n
      cases n <;> simp [Deps.Has, Deps.hasFn, Deps.hasBlock, Term.uses, Use.Needs]
  | uniformVar block =>
    simp only [useVar] at h
    split at h
    · cases h
    · cases h
      intro n
      simp [Term.uses, Use.Needs]
  | localVar mutable =>
    simp only [useVar] at h
    split at h
    · cases h
    · cases h
      exact Covers.nil
  | varyingVar =>
    cases h
    intro n
    cases place <;> cases n <;> simp [Deps.Has, Deps.hasFn, Deps.hasBlock, Term.uses, Use.Needs]

/-- The needs of an accepted expression are those of what is left of it. -/
theorem exact_of_expr {ctx : Context} {e : Expr} {s s' : Expansion} {t : Typed}
    (h : Gives (expr ctx place e) s t s') : Exact place t := by
  induction e generalizing place s t s' with
  | cond c yes no span ihc ihyes ihno =>
    obtain ⟨rfl, c', s₁, yes', s₂, no', hc, -, hyes, hno, -, rfl⟩ := gives_cond.1 h
    exact exact_conditional (ihc hc) (ihyes hyes) (ihno hno)
  | bin op l r span ihl ihr =>
    obtain ⟨rfl, l', s₁, r', ty, hl, hr, -, -, rfl⟩ := gives_bin.1 h
    cases ha : op.isAssignment with
    | true =>
      simp only [if_true, Exact, Term.uses]
      exact (ihl hl).union (ihr hr)
    | false =>
      rw [ha] at hl
      exact exact_operation ha (ihl hl) (ihr hr)
  | un op e span ih =>
    obtain ⟨rfl, e', ty, he, -, rfl⟩ := gives_un.1 h
    exact exact_unaryOperation (ih he)
  | index b i span ihb ihi =>
    obtain ⟨b', s₁, i', ty, hb, hi, -, -, rfl⟩ := gives_index.1 h
    exact (ihb hb).union (ihi hi)
  | member b name span ih =>
    obtain ⟨b', hb, ⟨x, d, ty, -, -, -, rfl⟩ | ⟨sw, -, -, rfl⟩⟩ := gives_member.1 h
    all_goals
      have hbase : Covers b'.deps (b'.term.uses place) := ih hb
      exact hbase
  | call f args span ih =>
    obtain ⟨rfl, hcall⟩ := gives_call.1 h
    have hargs {s₁ ts} (hts : Gives (exprs _ args) s₁ ts s') : Covers (argDeps ts) (Term.usesAll (argTerms ts)) :=
      covers_args (forall_of_exprs hts fun e he => ih e he)
    rcases hcall with ⟨d, s₁, ts, -, hts, -, rfl⟩ | ⟨overloads, s₁, ts, ty, -, hts, -, rfl⟩ |
      ⟨d, s₁, ts, -, hts, -, rfl⟩
    · intro n
      simp only [Deps.has_union, Deps.has_ofFn, hargs hts n, Term.uses, mem_cons, or_and_right, exists_or,
        exists_eq_left, Use.Needs]
    · exact hargs hts
    · intro n
      simp only [hargs hts n, Term.uses, mem_cons, or_and_right, exists_or, exists_eq_left, Use.Needs,
        false_or]
  | construct ty args span ih =>
    obtain ⟨rfl, ts, hts, hmade⟩ := gives_construct.1 h
    exact exact_construction hmade (forall_of_exprs hts fun e he => ih e he)
  | var x span =>
    obtain ⟨v, -, hv⟩ := gives_var.1 h
    exact exact_useVar hv
  | lit v span =>
    obtain ⟨rfl, -, rfl⟩ := gives_lit.1 h
    exact Covers.nil

end Expressions

section Statements

/-- The needs of a statement are those of its code. -/
def KeptExact (k : Kept) : Prop := Covers k.deps k.code.uses

/-- The needs of a block are those of its code. -/
def BlockExact (b : KeptBlock) : Prop := Covers b.deps (Code.usesAll b.body)

theorem usesAll_kept (ks : List Kept) :
    Code.usesAll (ks.map Kept.code) = ks.flatMap fun k => k.code.uses := by
  induction ks with
  | nil => rfl
  | cons k ks ih => simpa [Code.usesAll] using ih

theorem covers_kept {ks : List Kept} (h : ∀ k ∈ ks, KeptExact k) :
    Covers (Deps.unionAll (ks.map Kept.deps)) (Code.usesAll (ks.map Kept.code)) := by
  rw [usesAll_kept]
  exact Covers.unionAll h

/-- A block that shares the braces of the block in it uses the same. -/
theorem uses_gather (scope : Scope Var) (ks : List Kept) :
    Code.usesAll (KeptBlock.gather scope ks).body = Code.usesAll (ks.map Kept.code) := by
  unfold KeptBlock.gather
  dsimp only
  split
  · split
    · rfl
    · simp [Code.usesAll, Code.uses]
  · rfl

theorem deps_gather (scope : Scope Var) (ks : List Kept) :
    (KeptBlock.gather scope ks).deps = Deps.unionAll (ks.map Kept.deps) := by
  unfold KeptBlock.gather
  dsimp only
  split
  · split <;> rfl
  · rfl

theorem uses_of_kept? {b : KeptBlock} {k : Kept} (h : b.kept? = some k) :
    k.deps = b.deps ∧ k.code.uses = Code.usesAll b.body := by
  unfold KeptBlock.kept? at h
  split at h
  · cases h
  · cases h
    exact ⟨rfl, by simp [Code.uses]⟩

theorem exact_gather {scope : Scope Var} {ks : List Kept} (h : ∀ k ∈ ks, KeptExact k) :
    BlockExact (KeptBlock.gather scope ks) := by
  rw [BlockExact, uses_gather, deps_gather]
  exact covers_kept h

theorem exact_kept? {b : KeptBlock} {k : Kept} (hb : BlockExact b) (h : b.kept? = some k) : KeptExact k := by
  obtain ⟨hdeps, huses⟩ := uses_of_kept? h
  rw [KeptExact, hdeps, huses]
  exact hb

theorem usesElse_elsePart? (b : KeptBlock) : Code.usesElse b.elsePart? = Code.usesAll b.body := by
  unfold KeptBlock.elsePart?
  split
  · rename_i h
    simp [h, Code.usesElse, Code.usesAll]
  · rename_i h _
    simp [h, Code.usesElse, Code.usesAll]
  · simp [Code.usesElse, Code.uses]

/-- A branch uses what its test and its blocks use, also when it is turned around. -/
theorem uses_ofBranch (test : Term) (yes no : KeptBlock) :
    (Code.ofBranch test yes no).uses =
      test.uses false ++ Code.usesAll yes.body ++ Code.usesAll no.body := by
  unfold Code.ofBranch
  split
  · rename_i h
    have hyes : yes.body = [] := by
      simpa [KeptBlock.isEmpty] using (Bool.and_eq_true_iff.1 h).1
    simp [Code.uses, Term.uses, Code.usesElse, hyes, Code.usesAll]
  · simp [Code.uses, usesElse_elsePart?]

theorem uses_ofExpr (source : Expr) (t : Term) : (Code.ofExpr source t).uses = t.uses false := by
  unfold Code.ofExpr
  split
  · split
    · simp [Code.uses, Term.uses]
    · rfl
  · rfl

variable {fc : FnContext} {inLoop : Bool} {outer : List (Scope Var)} {inner : Scope Var} {s s' : Expansion}

/-- What is kept of the statements of a block has what is kept of each. -/
theorem forall_of_stmts {ss : List Stmt} {last : Scope Var} {ks : List Kept} {P : Kept → Prop}
    (h : Gives (stmts fc inLoop outer inner ss) s (last, ks) s')
    (ih : ∀ st ∈ ss, ∀ {inner s inner' k s'},
      Gives (stmt fc inLoop outer inner st) s (inner', some k) s' → P k) : ∀ k ∈ ks, P k := by
  induction ss generalizing inner s ks with
  | nil =>
    obtain ⟨-, rfl, -⟩ := gives_stmts_nil h
    exact nofun
  | cons st ss ihss =>
    obtain ⟨inner', k, s₁, more, hst, hrest, rfl⟩ := gives_stmts_cons h
    intro k' hk'
    rcases mem_append.1 hk' with hk' | hk'
    · rw [Option.mem_toList] at hk'
      subst hk'
      exact ih st mem_cons_self hst
    · exact ihss hrest (fun st hst => ih st (mem_cons_of_mem _ hst)) k' hk'

theorem exact_of_block {b : Block} {kept : KeptBlock} (h : Gives (block fc inLoop outer inner b) s kept s')
    (ih : ∀ st ∈ b.stmts, ∀ {inner s inner' k s'},
      Gives (stmt fc inLoop outer inner st) s (inner', some k) s' → KeptExact k) : BlockExact kept := by
  obtain ⟨last, ks, hks, rfl⟩ := gives_block h
  exact exact_gather (forall_of_stmts hks ih)

/-- The needs of a statement that is kept are those of its code. -/
theorem exact_of_stmt {st : Stmt} {inner' : Scope Var} {k : Kept}
    (h : Gives (stmt fc inLoop outer inner st) s (inner', some k) s') : KeptExact k := by
  induction st generalizing inLoop outer inner s inner' k s' with
  | breakStmt span =>
    obtain ⟨-, heq, -⟩ := gives_break h
    cases heq
    exact Covers.nil
  | continueStmt span =>
    obtain ⟨-, heq, -⟩ := gives_continue h
    cases heq
    exact Covers.nil
  | forStmt x first bound step body span ih =>
    obtain ⟨a, s₁, b, s₂, i, s₃, kept, s₄, -, -, -, hkept, hcase⟩ := gives_for h
    rcases hcase with ⟨-, heq, -⟩ | ⟨-, -, heq⟩
    · cases heq
    · cases heq
      exact exact_of_block hkept fun st hst => ih st hst
  | ifStmt test yes no span ihyes ihno =>
    obtain ⟨t, s₁, yes', s₂, no', s₃, ht, -, hyes, hno, hcase⟩ := gives_if h
    have hyes' : BlockExact yes' := exact_of_block hyes fun st hst => ihyes st hst
    have hno' : BlockExact no' := by
      cases no with
      | none =>
        simp only [elseBlock, gives_pure] at hno
        rw [← hno.1]
        exact Covers.nil
      | some b => exact exact_of_block hno fun st hst => ihno b rfl st hst
    rcases hcase with ⟨v, -, heq, -⟩ | ⟨-, -, heq⟩
    · obtain ⟨-, hk⟩ := Prod.mk.inj heq
      cases hb : v.toBool
      · exact exact_kept? hno' (by simpa [hb] using hk.symm)
      · exact exact_kept? hyes' (by simpa [hb] using hk.symm)
    · cases heq
      simp only [KeptExact, uses_ofBranch]
      exact ((exact_of_expr ht).union hyes').union hno'
  | letStmt x ty init span =>
    obtain ⟨value, s₁, t, scope, hvalue, -, -, heq⟩ := gives_let h
    cases heq
    refine Covers.localTypes t ?_
    rcases gives_initValue hvalue with ⟨-, rfl, -⟩ | ⟨e, e', -, he, rfl⟩
    · exact Covers.nil
    · exact exact_of_expr he
  | returnStmt value span =>
    rcases gives_return h with ⟨-, -, heq, -⟩ | ⟨e, e', -, he, -, heq⟩
    · cases heq
      exact Covers.nil
    · cases heq
      exact exact_of_expr he
  | blockStmt b span ih =>
    obtain ⟨kept, hkept, heq⟩ := gives_blockStmt h
    exact exact_kept? (exact_of_block hkept fun st hst => ih st hst) (Prod.mk.inj heq).2.symm
  | exprStmt e span =>
    obtain ⟨e', he, heq⟩ := gives_exprStmt h
    cases heq
    simp only [KeptExact, uses_ofExpr]
    exact exact_of_expr he

end Statements

/-- The needs of a function are those of what is left of it. -/
theorem exact_of_laxFn {g : Globals} {d : FnDecl} {f : FnDef} {s s' : Expansion} (h : Gives (laxFn g d) s f s') :
    Covers f.deps f.uses := by
  obtain ⟨result, s₁, scope, ps, s₂, body, -, -, hbody, rfl⟩ := gives_laxFn h
  have hb : BlockExact body := exact_of_block hbody fun st _ => exact_of_stmt
  have htypes : Covers body.deps (result.uses ++ Code.usesAll body.body) := hb.types result
  simp only [FnDef.uses, append_assoc]
  clear h hbody
  induction ps with
  | nil => exact htypes
  | cons p ps ih => simpa using ih.types p.2

end Check

end Shading
