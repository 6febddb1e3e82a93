import Shading.Dialect
import Shading.Proofs.Scoping.Tracing

/-!
# Emitted bodies in block scopes

How an emitted body is read by a language with block scopes, name by name as a dialect spells them. Each pair
of braces opens a scope. Parameters share the scope of the outermost braces, the variable of a loop that of the
braces of the loop, and a declaration is visible behind its first value. `Traced.Scoped` says that a body that is
read so declares nothing twice in a scope, and that each local name in it means the declaration it was resolved to
when it was checked.

Blocks lose their braces, so the scopes that a statement is read in are not those it was checked in. What they
have in common is what they find (`Agrees`), and what is declared in a block stays apart from what is bound in the
scope that takes it in (`Readable`).
-/

namespace Shading

/-- A name that an expression is written with. -/
inductive Spelled where
  | localVar (x : Ident)
  | callee (f : Ident)
  | attributeVar (x : Ident)
  | uniformVar (block x : Ident)
  | varyingVar (x : Ident)

namespace Term

mutual

/-- The names of variables, and of functions and structs that are called. -/
@[simp] def spelled : Term → List Spelled
  | .const _ => []
  | .cond c t f => c.spelled ++ t.spelled ++ f.spelled
  | .bin _ l r => l.spelled ++ r.spelled
  | .un _ e => e.spelled
  | .index b i => b.spelled ++ i.spelled
  | .member b _ => b.spelled
  | .swizzle b _ => b.spelled
  | .call f _ args => .callee f :: spelledAll args
  | .builtin _ args => spelledAll args
  | .makeStruct s args => .callee s :: spelledAll args
  | .construct _ args => spelledAll args
  | .attributeVar x => [.attributeVar x]
  | .uniformVar block x => [.uniformVar block x]
  | .varyingVar x => [.varyingVar x]
  | .localVar x => [.localVar x]

@[simp] def spelledAll : List Term → List Spelled
  | [] => []
  | t :: ts => t.spelled ++ spelledAll ts

end

end Term

/-- The scopes around a place of an emitted body, innermost first, with the texts of names. -/
abbrev TextScopes := List (Scope Site)

/-- A name in the emitted body means what it was resolved to: a local name its declaration, and every other name no
local declaration. -/
def Spelled.Means (d : Dialect) (source : Scopes) (emitted : TextScopes) : Spelled → Prop
  | .localVar x => ∃ l, Scope.find? source x = some l ∧ Scope.find? emitted (d.ident x) = some l.site
  | .callee f => Scope.find? emitted (d.ident f) = none
  | .attributeVar x => Scope.find? emitted (d.attributeVar x) = none
  | .uniformVar block x => Scope.find? emitted (d.uniformVar block x) = none
  | .varyingVar x => Scope.find? emitted (d.varyingVar x) = none

/-- Each name in the expression means what it was resolved to. -/
def Term.Means (d : Dialect) (source : Scopes) (emitted : TextScopes) (t : Term) : Prop :=
  ∀ n ∈ t.spelled, n.Means d source emitted

namespace Traced

/-- The scope behind a statement, unless the statement declares what is declared in it already. -/
def bind? (d : Dialect) (inner : Scope Site) : Traced → Option (Scope Site)
  | .declare _ site x _ _ => inner.insert? (d.ident x) site
  | _ => some inner

mutual

/-- The statement is read in the scopes `inner :: outer` as it was checked. -/
def Scoped (d : Dialect) (outer : TextScopes) (inner : Scope Site) : Traced → Prop
  | .exitLoop => True
  | .nextTurn => True
  | .assign source _ l r => l.Means d source (inner :: outer) ∧ r.Means d source (inner :: outer)
  | .eval source t => t.Means d source (inner :: outer)
  | .declare source _ _ _ init => ∀ t, init = some t → t.Means d source (inner :: outer)
  | .ret source value => ∀ t, value = some t → t.Means d source (inner :: outer)
  | .block body => ScopedAll d (inner :: outer) .empty body
  | .loop site x _ _ _ body => ScopedAll d (inner :: outer) ⟨[(d.ident x, site)]⟩ body
  | .branch source test yes no =>
    test.Means d source (inner :: outer) ∧ ScopedAll d (inner :: outer) .empty yes ∧ ScopedElse d outer inner no

/-- The statements between a pair of braces are read as they were checked, each behind the declarations before it, and
none declares a name anew. -/
def ScopedAll (d : Dialect) (outer : TextScopes) (inner : Scope Site) : List Traced → Prop
  | [] => True
  | c :: cs => c.Scoped d outer inner ∧ ∃ inner', c.bind? d inner = some inner' ∧ ScopedAll d outer inner' cs

/-- An else-part has braces of its own or is another branch. -/
def ScopedElse (d : Dialect) (outer : TextScopes) (inner : Scope Site) : Option Traced → Prop
  | none => True
  | some c => c.Scoped d outer inner

end

end Traced

/-- The scope of the parameters, unless one has the name of another. -/
def paramScope? (d : Dialect) (scope : Scope Site) (number : Nat) : List (Ident × Ty) → Option (Scope Site)
  | [] => some scope
  | p :: ps => (scope.insert? (d.ident p.1) (.param number)).bind fun scope' => paramScope? d scope' (number + 1) ps

/-- The function declares no name twice in a scope, and each name in it means what it was resolved to. -/
def TracedFn.Scoped (d : Dialect) (f : TracedFn) : Prop :=
  ∃ scope, paramScope? d .empty 0 f.params = some scope ∧ Traced.ScopedAll d [] scope f.body

/-- Names are spelled differently, and none like an interface variable. -/
structure Dialect.Separates (d : Dialect) : Prop where
  ident : Function.Injective d.ident
  attributeVar : ∀ x y, d.ident x ≠ d.attributeVar y
  uniformVar : ∀ x block y, d.ident x ≠ d.uniformVar block y
  varyingVar : ∀ x y, d.ident x ≠ d.varyingVar y

/-- The scopes of an emitted body find what those of the source find. -/
structure Agrees (d : Dialect) (source : Scopes) (emitted : TextScopes) : Prop where
  names : ∀ x, Scope.find? emitted (d.ident x) = (Scope.find? source x).map Local.site
  texts : ∀ text, (∀ x, d.ident x ≠ text) → Scope.find? emitted text = none

section Scopes

variable {α : Type}

theorem Scope.find?_cons (s : Scope α) (scopes : List (Scope α)) (x : Ident) :
    Scope.find? (s :: scopes) x = (s.lookup? x).or (Scope.find? scopes x) := by
  rw [find?, List.findSome?_cons]
  cases s.lookup? x <;> rfl

theorem Scope.lookup?_none_of_insert? {s t : Scope α} {x : Ident} {a : α} (h : s.insert? x a = some t) :
    s.lookup? x = none := by
  unfold insert? contains at h
  split at h
  · cases h
  · rename_i hnew
    simpa using hnew

theorem Scope.exists_insert? {s : Scope α} {x : Ident} (h : s.lookup? x = none) (a : α) :
    ∃ t, s.insert? x a = some t := by
  simp [insert?, contains, h]

theorem Scope.lookup?_single (x : Ident) (a : α) (y : Ident) :
    (⟨[(x, a)]⟩ : Scope α).lookup? y = if y = x then some a else none :=
  lookup?_insert? (s := .empty) rfl y

end Scopes

namespace Agrees

variable {d : Dialect} {source : Scopes} {emitted : TextScopes} {inner : Scope Local} {cinner : Scope Site}

theorem nil (d : Dialect) : Agrees d [] [] := ⟨fun _ => rfl, fun _ _ => rfl⟩

/-- An empty scope finds nothing, whether or not it has braces. -/
theorem enter (h : Agrees d source emitted) : Agrees d (.empty :: source) emitted := by
  refine ⟨fun x => ?_, h.texts⟩
  rw [h.names, Scope.find?_cons]
  rfl

theorem enterBraces (h : Agrees d source emitted) : Agrees d (.empty :: source) (.empty :: emitted) := by
  refine ⟨fun x => ?_, fun text htext => ?_⟩
  · rw [Scope.find?_cons, Scope.find?_cons]
    exact h.names x
  · rw [Scope.find?_cons]
    exact h.texts text htext

/-- What is declared on both sides is found on both sides. -/
theorem insert (hd : d.Separates) {x : Ident} {l : Local} {inner' : Scope Local} {cinner' : Scope Site}
    (h : Agrees d (inner :: source) (cinner :: emitted)) (hi : inner.insert? x l = some inner')
    (hc : cinner.insert? (d.ident x) l.site = some cinner') :
    Agrees d (inner' :: source) (cinner' :: emitted) := by
  constructor
  · intro y
    have hy := h.names y
    rw [Scope.find?_cons, Scope.find?_cons] at hy ⊢
    rw [Scope.lookup?_insert? hi, Scope.lookup?_insert? hc]
    by_cases hxy : y = x
    · subst hxy
      simp
    · rwa [if_neg hxy, if_neg fun heq => hxy (hd.ident heq)]
  · intro text htext
    have ht := h.texts text htext
    rw [Scope.find?_cons] at ht ⊢
    rwa [Scope.lookup?_insert? hc, if_neg fun heq => htext x heq.symm]

/-- A loop opens its scope with its variable in it. -/
theorem enterLoop (hd : d.Separates) (h : Agrees d source emitted) (x : Ident) (l : Local) :
    Agrees d (⟨[(x, l)]⟩ :: source) (⟨[(d.ident x, l.site)]⟩ :: emitted) :=
  h.enterBraces.insert hd rfl rfl

end Agrees

/-- What checking made sure of about a name. -/
def Spelled.Resolved (source : Scopes) : Spelled → Prop
  | .localVar x => ∃ l, Scope.find? source x = some l
  | .callee f => Scope.find? source f = none
  | .attributeVar _ | .uniformVar _ _ | .varyingVar _ => True

theorem Spelled.means_of_resolved {d : Dialect} {source : Scopes} {emitted : TextScopes} (hd : d.Separates)
    (h : Agrees d source emitted) {n : Spelled} (hn : n.Resolved source) : n.Means d source emitted := by
  cases n with
  | localVar x =>
    obtain ⟨l, hl⟩ := hn
    refine ⟨l, hl, ?_⟩
    rw [h.names, hl, Option.map_some]
  | callee f =>
    have hf : Scope.find? source f = none := hn
    rw [Means, h.names, hf, Option.map_none]
  | attributeVar x => exact h.texts _ fun y => hd.attributeVar y x
  | uniformVar block x => exact h.texts _ fun y => hd.uniformVar y block x
  | varyingVar x => exact h.texts _ fun y => hd.varyingVar y x

/-- No top-level name is a local variable. -/
def NoLocals (g : Globals) : Prop := ∀ {x span s v s'}, Check.Gives (g x span) s (some (.var v)) s' →
  ∀ mutable, v.kind ≠ .localVar mutable

namespace Check

section Expressions

variable {source : Scopes} {g : Globals} {place : Bool} {s s' : Expansion}

/-- What is computed or decided early is spelled with no more names than the operands. -/
theorem spelled_operation (op : BinOp) (ty : Ty) (l r : Typed) :
    (operation op ty l r).term.spelled ⊆ l.term.spelled ++ r.term.spelled := by
  rcases operation_cases op ty l r with ⟨x, -, -, h⟩ | ⟨x, -, -, h⟩ | ⟨x, y, v, -, -, -, -, -, h⟩ | h <;> simp [h]

theorem spelled_unaryOperation (op : UnOp) (ty : Ty) (e : Typed) :
    (unaryOperation op ty e).term.spelled ⊆ e.term.spelled := by
  rcases unaryOperation_cases op ty e with ⟨x, v, -, -, h⟩ | h <;> simp [h]

theorem spelled_conditional (c yes no : Typed) :
    (conditional c yes no).term.spelled ⊆ c.term.spelled ++ yes.term.spelled ++ no.term.spelled := by
  rcases conditional_cases c yes no with ⟨v, -, -, h⟩ | ⟨v, -, -, h⟩ | h <;> simp [h]

theorem spelled_construction {ty : BasicTy} {ts : List Typed} {t : Typed} (h : construction ty ts = .ok t) :
    t.term.spelled ⊆ Term.spelledAll (argTerms ts) := by
  rcases construction_cases h with ⟨k, a, v, -, -, -, rfl⟩ | rfl <;> simp

theorem spelledAll_argTerms (ts : List Typed) :
    Term.spelledAll (argTerms ts) = ts.flatMap fun t => t.term.spelled := by
  induction ts with
  | nil => rfl
  | cons t ts ih => simpa [argTerms] using ih

/-- The names in an expression are resolved as it says. -/
def Resolved (source : Scopes) (t : Term) : Prop := ∀ n ∈ t.spelled, n.Resolved source

theorem resolved_args {ts : List Typed} (h : ∀ t ∈ ts, Resolved source t.term) :
    ∀ n ∈ Term.spelledAll (argTerms ts), n.Resolved source := by
  rw [spelledAll_argTerms]
  intro n hn
  obtain ⟨t, ht, hn⟩ := List.mem_flatMap.1 hn
  exact h t ht n hn

theorem find?_forget (source : Scopes) (x : Ident) :
    Scope.find? source.forget x = (Scope.find? source x).map Local.var :=
  Scope.find?_map Local.var source x

/-- A name that is no variable is not bound in any scope. -/
theorem unbound_of_find {x : Ident} {span : Span} {info : Info}
    (h : Gives (Context.find ⟨source.forget, g⟩ x span) s (some info) s') (hinfo : ∀ v, info ≠ .var v) :
    Scope.find? source x = none := by
  rcases gives_find.1 h with ⟨v, -, heq, -⟩ | ⟨hnone, -⟩
  · exact absurd (Option.some.inj heq) (hinfo v)
  · simpa [find?_forget] using hnone

theorem resolved_of_var (hg : NoLocals g) {x : Ident} {span : Span} {v : Var} {t : Typed}
    (hv : Gives (Context.find ⟨source.forget, g⟩ x span) s (some (.var v)) s') (h : useVar place x v = .ok t) :
    Resolved source t.term := by
  obtain ⟨ty, kind⟩ := v
  cases kind with
  | attributeVar | uniformVar | varyingVar =>
    simp only [useVar] at h
    try split at h
    all_goals cases h
    all_goals simp [Resolved, Spelled.Resolved]
  | localVar mutable =>
    have ht : t.term = .localVar x := by
      simp only [useVar] at h
      split at h
      · cases h
      · cases h
        rfl
    have hx : ∃ l, Scope.find? source x = some l := by
      rcases gives_find.1 hv with ⟨w, hw, -, -⟩ | ⟨-, hglobal⟩
      · rw [find?_forget, Option.map_eq_some_iff] at hw
        obtain ⟨l, hl, -⟩ := hw
        exact ⟨l, hl⟩
      · exact absurd rfl (hg hglobal mutable)
    rw [ht]
    simpa [Resolved, Spelled.Resolved] using hx

/-- The local names in an accepted expression are bound in the scopes around it, and the functions and structs it
calls are not. -/
theorem resolved_of_expr (hg : NoLocals g) {e : Expr} {t : Typed}
    (h : Gives (expr ⟨source.forget, g⟩ place e) s t s') : Resolved source t.term := by
  induction e generalizing place s t s' with
  | cond c yes no span ihc ihyes ihno =>
    obtain ⟨rfl, c', s₁, yes', s₂, no', hc, -, hyes, hno, -, rfl⟩ := gives_cond.1 h
    intro n hn
    have hparts := spelled_conditional c' yes' no' hn
    simp only [List.mem_append] at hparts
    rcases hparts with (hn | hn) | hn
    · exact ihc hc n hn
    · exact ihyes hyes n hn
    · exact ihno hno n hn
  | bin op l r span ihl ihr =>
    obtain ⟨rfl, l', s₁, r', ty, hl, hr, -, -, rfl⟩ := gives_bin.1 h
    intro n hn
    have hparts : n ∈ l'.term.spelled ++ r'.term.spelled := by
      split at hn
      · exact hn
      · exact spelled_operation op ty l' r' hn
    exact (List.mem_append.1 hparts).elim (ihl hl n) (ihr hr n)
  | un op e span ih =>
    obtain ⟨rfl, e', ty, he, -, rfl⟩ := gives_un.1 h
    exact fun n hn => ih he n (spelled_unaryOperation op ty e' hn)
  | index b i span ihb ihi =>
    obtain ⟨b', s₁, i', ty, hb, hi, -, -, rfl⟩ := gives_index.1 h
    exact fun n hn => (List.mem_append.1 hn).elim (ihb hb n) (ihi hi n)
  | member b name span ih =>
    obtain ⟨b', hb, ⟨x, d, ty, -, -, -, rfl⟩ | ⟨sw, -, -, rfl⟩⟩ := gives_member.1 h
    · exact fun n hn => ih hb n hn
    · exact fun n hn => ih hb n hn
  | call f args span ih =>
    obtain ⟨rfl, hcall⟩ := gives_call.1 h
    have hargs {s₁ ts} (hts : Gives (exprs _ args) s₁ ts s') := resolved_args (forall_of_exprs hts fun e he => ih e he)
    rcases hcall with ⟨d, s₁, ts, hf, hts, -, rfl⟩ | ⟨overloads, s₁, ts, ty, -, hts, -, rfl⟩ |
      ⟨d, s₁, ts, hf, hts, -, rfl⟩
    · exact List.forall_mem_cons.2 ⟨unbound_of_find hf nofun, hargs hts⟩
    · exact hargs hts
    · exact List.forall_mem_cons.2 ⟨unbound_of_find hf nofun, hargs hts⟩
  | construct ty args span ih =>
    obtain ⟨rfl, ts, hts, hmade⟩ := gives_construct.1 h
    exact fun n hn => resolved_args (forall_of_exprs hts fun e he => ih e he) n (spelled_construction hmade hn)
  | var x span =>
    obtain ⟨v, hv, huse⟩ := gives_var.1 h
    exact resolved_of_var hg hv huse
  | lit v span =>
    obtain ⟨rfl, -, rfl⟩ := gives_lit.1 h
    exact nofun

/-- An expression is read as it was checked wherever the scopes find the same. -/
theorem means_of_expr {d : Dialect} (hd : d.Separates) (hg : NoLocals g) {emitted : TextScopes}
    (ha : Agrees d source emitted) {e : Expr} {t : Typed} (h : Gives (expr ⟨source.forget, g⟩ place e) s t s') :
    t.term.Means d source emitted :=
  fun n hn => Spelled.means_of_resolved hd ha (resolved_of_expr hg h n hn)

end Expressions

end Check

end Shading
