import Shading.Compile
import Shading.Proofs.Programs

/-!
# Adding builtin functions

Builtin functions are looked for last, and the overloads of a name are tried in their order. So functions that are added
behind the others change nothing for a shader that is accepted without them, whatever their names and overloads are.

`Follows R m m'` says that the step `m'` succeeds where `m` does, with a result that matches, and leaves the same. A step
that looks names up does so where the look-ups find the same, further overloads of a builtin function, or a builtin
function where nothing was found before (`Asks.follows`).
-/

namespace Shading

/-! ## Looking builtin functions up -/

/-- What a name stands for when builtin functions are added: the same, a function with further overloads, or a function
that was not there. -/
inductive Info.Extends : Option Info → Option Info → Prop
  | same (i : Option Info) : Extends i i
  | more (overloads added : List Overload) :
      Extends (some (.builtin overloads)) (some (.builtin (overloads ++ added)))
  | new (added : List Overload) : Extends none (some (.builtin added))

theorem Builtins.extends_overloads? (table added : Builtins) (f : Ident) :
    Info.Extends ((table.overloads? f).map .builtin) (((table ++ added).overloads? f).map .builtin) := by
  simp only [Builtins.overloads?, List.filter_append, List.flatMap_append]
  generalize table.filter (fun b => b.name == f) = old
  generalize added.filter (fun b => b.name == f) = new
  cases old with
  | cons b bs => exact .more _ _
  | nil =>
    cases new with
    | cons b bs => exact .new _
    | nil => exact .same _

namespace Check

/-- Where the first step succeeds, so does the second, with a result that matches, and both leave the same. -/
def Follows {α β : Type} (R : α → β → Prop) (m : Check α) (m' : Check β) : Prop :=
  ∀ s a s', Gives m s a s' → ∃ b, Gives m' s b s' ∧ R a b

section Steps

variable {α β γ δ : Type} {R : α → β → Prop} {Q : γ → δ → Prop}

theorem Follows.same (m : Check α) : Follows Eq m m := fun _ a _ h => ⟨a, h, rfl⟩

theorem Follows.pure {a : α} {b : β} (h : R a b) : Follows R (Pure.pure a) (Pure.pure b) := by
  intro s a' s' ha
  obtain ⟨rfl, rfl⟩ := gives_pure.1 ha
  exact ⟨b, gives_pure.2 ⟨rfl, rfl⟩, h⟩

/-- What fails may become anything. -/
theorem Follows.refuse (cause : Cause) (span : Span) (m : Check β) : Follows R (Check.refuse cause span) m :=
  fun _ _ _ h => (gives_refuse.1 h).elim

theorem Follows.bind {m : Check α} {m' : Check β} {f : α → Check γ} {f' : β → Check δ} (hm : Follows R m m')
    (hf : ∀ a b, R a b → Follows Q (f a) (f' b)) : Follows Q (m >>= f) (m' >>= f') := by
  intro s c s' h
  obtain ⟨a, s₁, ha, hc⟩ := gives_bind.1 h
  obtain ⟨b, hb, hab⟩ := hm s a s₁ ha
  obtain ⟨d, hd, hcd⟩ := hf a b hab s₁ c s' hc
  exact ⟨d, gives_bind.2 ⟨b, s₁, hb, hd⟩, hcd⟩

/-- Steps that give the same are followed by the same. -/
theorem Follows.andThen {m m' : Check α} {f : α → Check γ} {f' : α → Check δ} (hm : Follows Eq m m')
    (hf : ∀ a, Follows Q (f a) (f' a)) : Follows Q (m >>= f) (m' >>= f') := by
  refine hm.bind fun a b hab => ?_
  subst hab
  exact hf a

theorem Follows.ite {c : Prop} [Decidable c] {m n : Check α} {m' n' : Check β} (hm : Follows R m m')
    (hn : Follows R n n') : Follows R (if c then m else n) (if c then m' else n') := by
  split
  · exact hm
  · exact hn

theorem Follows.guard {c : Prop} [Decidable c] {cause cause' : Cause} {span span' : Span} {k : γ → Check α}
    {k' : δ → Check β} {m : Check α} {m' : Check β} (h : Follows R m m') :
    Follows R (if c then Check.refuse cause span >>= k else m) (if c then Check.refuse cause' span' >>= k' else m') := by
  refine .ite (fun s a s' hgives => ?_) h
  obtain ⟨_, _, hrefuse, -⟩ := gives_bind.1 hgives
  exact (gives_refuse.1 hrefuse).elim

end Steps

/-- The second look-up finds what the first one does, or more. -/
def FollowsOn (g g' : Globals) : Prop := ∀ x span, Follows Info.Extends (g x span) (g' x span)

/-- What looks names up follows where the look-ups do: where a name stood for nothing, the first step failed. -/
theorem Asks.follows {α : Type} {P : Position → Prop} {names : List Ident} {m : Globals → Check α} {g g' : Globals}
    (h : Asks P names m) (hg : FollowsOn g g') : Follows Eq (m g) (m g') := by
  induction h with
  | still | refuse => exact .same _
  | @ask _ _ x span f _ hanswers hf ihf =>
    refine (hg x span).bind fun i i' hextends => ?_
    cases hextends with
    | same i => exact ihf i
    | more overloads added => exact fun s a s' hgives => ihf _ s a s' (hanswers.more hgives added)
    | new added => exact fun s a s' hgives => absurd hgives hanswers.none
  | bind hm hf ihm ihf =>
    intro s b s' hgives
    obtain ⟨a, s₁, ha, hb⟩ := gives_bind.1 hgives
    obtain ⟨_, ha', rfl⟩ := ihm s a s₁ ha
    obtain ⟨_, hb', rfl⟩ := ihf a ⟨_, s, s₁, ha⟩ s₁ b s' hb
    exact ⟨b, gives_bind.2 ⟨a, s₁, ha', hb'⟩, rfl⟩

/-! ## Openings and whole shaders -/

section Openings

variable {inside inside' : Unfinished → Globals} (h : ∀ u, FollowsOn (inside u) (inside' u))
include h

theorem follows_openFn (u : Unfinished) (d : FnDecl) (span : Span) :
    Follows Eq (openFn inside u d span) (openFn inside' u d span) := by
  refine (Follows.same _).andThen fun s => ?_
  cases s.fn? d.name with
  | some f => exact .same _
  | none =>
    refine .guard (Follows.andThen ?_ fun f => .same _)
    rw [fn_eq_laxFn, fn_eq_laxFn]
    exact ((asks_laxFn (.any (.decl (.fn d)))).follows (h _)).andThen fun f => .same _

theorem follows_openStruct (u : Unfinished) (d : StructDecl) (span : Span) :
    Follows Eq (openStruct inside u d span) (openStruct inside' u d span) := by
  refine (Follows.same _).andThen fun s => ?_
  cases s.struct? d.name with
  | some f => exact .same _
  | none => exact .guard (((asks_struct (.any (.decl (.struct d)))).follows (h _)).andThen fun f => .same _)

end Openings

section Programs

variable (table added : Builtins) (decls : List Decl)

/-- Interface variables, functions and structs are looked for first, so an added function is found only where nothing was
found before, and its overloads are tried last. -/
theorem follows_globals (vars : Scope Var) (n : Nat) (u : Unfinished) :
    FollowsOn (globals (.ofDecls table decls) vars n u) (globals (.ofDecls (table ++ added) decls) vars n u) := by
  induction n generalizing u with
  | zero => exact fun x span => .pure (.same _)
  | succ k ih =>
    intro x span
    have hfn : (TopLevel.ofDecls (table ++ added) decls).fn? x = (TopLevel.ofDecls table decls).fn? x := rfl
    have hstruct : (TopLevel.ofDecls (table ++ added) decls).struct? x = (TopLevel.ofDecls table decls).struct? x := rfl
    simp only [globals, resolve, hfn, hstruct]
    cases vars.lookup? x with
    | some v => exact .pure (.same _)
    | none =>
      cases (TopLevel.ofDecls table decls).fn? x with
      | some d => exact (follows_openFn ih u d span).andThen fun f => .pure (.same _)
      | none =>
        cases (TopLevel.ofDecls table decls).struct? x with
        | some d => exact (follows_openStruct ih u d span).andThen fun f => .pure (.same _)
        | none => exact .pure (Builtins.extends_overloads? table added x)

theorem follows_interfaceVars (vars : Scope Var) (ds : List (TypedName × VarKind)) :
    Follows Eq (interfaceVars (.ofDecls table decls) vars ds)
      (interfaceVars (.ofDecls (table ++ added) decls) vars ds) := by
  induction ds generalizing vars with
  | nil => exact .same _
  | cons d ds ih =>
    obtain ⟨d, kind⟩ := d
    have hty (n : Nat) := (asks_tyExpr .nil (.any (.ty d.ty))).follows (follows_globals table added decls vars n {})
    refine (hty _).andThen fun ty => ?_
    cases kind.refusal? d.name ty with
    | some cause => exact .same _
    | none => exact (Follows.same _).andThen fun vars' => (ih vars').andThen fun r => .same _

theorem follows_entry (vars : Scope Var) (stage : Stage) :
    Follows Eq (entry (.ofDecls table decls) vars stage) (entry (.ofDecls (table ++ added) decls) vars stage) := by
  have hfn : (TopLevel.ofDecls (table ++ added) decls).fn? stage.entryPoint =
      (TopLevel.ofDecls table decls).fn? stage.entryPoint := rfl
  unfold entry
  rw [hfn]
  cases (TopLevel.ofDecls table decls).fn? stage.entryPoint with
  | none => exact .same _
  | some d =>
    exact .guard ((follows_openFn (follows_globals table added decls vars _) {} d d.span).andThen fun f => .same _)

theorem follows_program (shared : Bool) :
    Follows Eq (program table shared decls) (program (table ++ added) shared decls) := by
  rw [program_eq, program_eq]
  refine Follows.andThen ?_ fun v => ?_
  · unfold vertexPart
    cases firstRedefined? [] decls with
    | some d => exact .same _
    | none =>
      refine (follows_interfaceVars table added decls _ _).andThen fun r => ?_
      exact (follows_entry table added decls r.1 .vertex).andThen fun f => .same _
  · have hentry (k : FnDef → Check Program) := (follows_entry table added decls v.scope .fragment).andThen
      fun f => Follows.same (k f)
    refine (Follows.same _).andThen fun s => (Follows.same _).andThen fun _ => ?_
    exact .ite ((Follows.same _).andThen fun _ => hentry _) (hentry _)

end Programs

end Check

theorem emit_eq_outcome (d : Dialect) (extra : Builtins) (decls : List Decl) :
    emit d extra decls =
      (((Check.program (Builtin.defaults ++ extra) d.sharesDecls decls).outcome {}).1.map (Program.write d),
        ((Check.program (Builtin.defaults ++ extra) d.sharesDecls decls).outcome {}).2.events.reverse) := rfl

/-- **Adding builtin functions is conservative.** A shader that is accepted with some builtin functions is accepted with
any others behind them, whatever their names and overloads are. It comes to the same interface, needs and texts, and the
same happens on the way. -/
theorem emit_of_more_builtins {d : Dialect} {extra : Builtins} {decls : List Decl} {c : Compiled} {events : List Event}
    (h : emit d extra decls = (.ok c, events)) (added : Builtins) :
    emit d (extra ++ added) decls = (.ok c, events) := by
  rw [emit_eq_outcome] at h ⊢
  rcases ho : (Check.program (Builtin.defaults ++ extra) d.sharesDecls decls).outcome {} with ⟨r, s⟩
  rw [ho] at h
  cases r with
  | error e => cases h
  | ok p =>
    obtain ⟨_, hp, rfl⟩ := Check.follows_program (Builtin.defaults ++ extra) added decls d.sharesDecls {} p s ho
    rw [← List.append_assoc, show Check.outcome _ _ = _ from hp]
    exact h

/-- Functions that are added under the names of everything that a shader declares, and under those of the builtin functions
that it calls, with the same parameters and another result. -/
theorem clashing_builtins_change_nothing :
    let vec4 : TyExpr := .keyword (.vector .float .four) .unset
    let var (x : Ident) : Expr := .var x .unset
    let callOf (f : Ident) (args : List Expr) : Expr := .call f args .unset
    let fn (f : Ident) (params : List TypedName) (body : List Stmt) (result : Expr) : Decl :=
      .fn ⟨f, params, some vec4, .mk (body ++ [.returnStmt (some result) .unset]) .unset, .unset⟩
    let shader : List Decl := [.attributeVar ⟨"pos", vec4, .unset⟩, .uniformVar ⟨"tint", vec4, .unset⟩ none,
      .varyingVar ⟨"shade", vec4, .unset⟩, .struct ⟨"Paint", [⟨"colour", vec4, .unset⟩], .unset⟩,
      fn "mixed" [⟨"base", vec4, .unset⟩] [.letStmt "noisy" none (some (callOf "noise" [var "base"])) .unset]
        (callOf "mix" [var "noisy", .member (callOf "Paint" [var "tint"]) "colour" .unset, var "base"]),
      fn "vertex" [] [.exprStmt (.bin .assign (var "shade") (callOf "mixed" [var "pos"]) .unset) .unset] (var "pos"),
      fn "fragment" [] [] (var "shade")]
    let genType : Ty := .vec4
    let extra : Builtins := [⟨"noise", [⟨[genType], genType⟩]⟩]
    let added : Builtins := ["pos", "tint", "shade", "Paint", "mixed", "base", "noisy", "vertex", "fragment", "noise", "mix",
      "unused"].map fun f => ⟨f, [⟨[genType], .float⟩, ⟨[genType, genType, genType], .bool⟩]⟩
    ∃ c events, emit (Glsl.dialect {}) extra shader = (.ok c, events) ∧
      emit (Glsl.dialect {}) (extra ++ added) shader = (.ok c, events) := by
  intro vec4 var callOf fn shader genType extra added
  have hok : (emit (Glsl.dialect {}) extra shader).1.isOk = true := by decide +kernel
  rcases he : emit (Glsl.dialect {}) extra shader with ⟨r, events⟩
  rw [he] at hok
  cases r with
  | error e => cases hok
  | ok c => exact ⟨c, events, rfl, emit_of_more_builtins he added⟩

end Shading
