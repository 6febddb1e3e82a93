import Shading.Proofs.Locals
import Shading.Proofs.Nodes

/-!
# References

A name in the text of a function or struct refers to a top-level declaration unless it is a local variable
there. Checking looks these names up among the top-level ones, each where it stands and no others; when it
succeeds, it has looked all of them up. `Asks P names m` says so of a step `m` that is given the top-level names,
where what it checks has spans that start at the places `P`. What a step does to the expansion, for which reasons it
fails and where then follow from the look-ups alone.
-/

namespace Shading

open List

section Syntax

/-- A name refers to a top-level declaration unless it is a local variable. -/
def reference (locals : List Ident) (x : Ident) : List Ident := if x ∈ locals then [] else [x]

def TyExpr.refs (locals : List Ident) : TyExpr → List Ident
  | keyword .. => []
  | array elem _ _ => elem.refs locals
  | named x _ => reference locals x

mutual

/-- The references of an expression, from left to right. -/
def Expr.refs (locals : List Ident) : Expr → List Ident
  | .cond c yes no _ => c.refs locals ++ (yes.refs locals ++ no.refs locals)
  | .bin _ l r _ => l.refs locals ++ r.refs locals
  | .un _ e _ => e.refs locals
  | .index b i _ => b.refs locals ++ i.refs locals
  | .member b _ _ => b.refs locals
  | .call f args _ => reference locals f ++ Expr.refsAll locals args
  | .construct _ args _ => Expr.refsAll locals args
  | .var x _ => reference locals x
  | .lit .. => []

def Expr.refsAll (locals : List Ident) : List Expr → List Ident
  | [] => []
  | e :: es => e.refs locals ++ Expr.refsAll locals es

end

/-- The references of an expression that may be left out. -/
def Expr.refs? (locals : List Ident) (e : Option Expr) : List Ident := e.elim [] (Expr.refs locals)

def TyExpr.refs? (locals : List Ident) (t : Option TyExpr) : List Ident := t.elim [] (TyExpr.refs locals)

mutual

def Stmt.refs (locals : List Ident) : Stmt → List Ident
  | .breakStmt _ | .continueStmt _ => []
  | .forStmt x first bound step body _ =>
    first.refs locals ++ (bound.refs locals ++ (Expr.refs? locals step ++ body.refs (x :: locals)))
  | .ifStmt test yes no _ =>
    let otherwise := match no with
      | none => []
      | some b => b.refs locals
    test.refs locals ++ (yes.refs locals ++ otherwise)
  | .letStmt _ ty init _ => Expr.refs? locals init ++ TyExpr.refs? locals ty
  | .returnStmt value _ => Expr.refs? locals value
  | .blockStmt b _ => b.refs locals
  | .exprStmt e _ => e.refs locals

def Stmt.refsAll (locals : List Ident) : List Stmt → List Ident
  | [] => []
  | st :: ss => st.refs locals ++ Stmt.refsAll (st.binds ++ locals) ss

def Block.refs (locals : List Ident) : Block → List Ident
  | .mk ss _ => Stmt.refsAll locals ss

end

theorem Stmt.refs_ifStmt (locals : List Ident) (test : Expr) (yes : Block) (no : Option Block) (span : Span) :
    (Stmt.ifStmt test yes no span).refs locals =
      test.refs locals ++ (yes.refs locals ++ no.elim [] (Block.refs locals)) := by
  cases no <;> simp only [Stmt.refs] <;> rfl

/-- The references of parameters, each behind the ones before it. -/
def TypedName.refsAll (locals : List Ident) : List TypedName → List Ident
  | [] => []
  | p :: ps => p.ty.refs locals ++ TypedName.refsAll (p.name :: locals) ps

def FnDecl.refs (d : FnDecl) : List Ident :=
  TyExpr.refs? [] d.result ++ (TypedName.refsAll [] d.params ++ d.body.refs (d.params.map TypedName.name))

def StructDecl.refs (d : StructDecl) : List Ident := d.members.flatMap fun m => m.ty.refs []

end Syntax

/-- A cause that is found at the place itself: it is no cycle and not about the varyings of a function. -/
def Cause.isPlain : Cause → Bool
  | cyclicFn .. | cyclicStruct .. | readsAndWritesVaryings _ | readsVaryings _ | writesVaryings _ => false
  | _ => true

/-- A fault that is found at the place itself. -/
def Fault.Plain : Fault → Prop
  | refused e => e.cause.isPlain = true
  | unopened _ => True

/-- A fault that is found at the place itself, which is one of the given ones. -/
def Fault.PlainIn (P : Position → Prop) : Fault → Prop
  | refused e => e.cause.isPlain = true ∧ P e.span.start
  | unopened _ => True

theorem Fault.PlainIn.plain {P : Position → Prop} {e : Fault} (h : e.PlainIn P) : e.Plain := by
  cases e with
  | refused e => exact h.1
  | unopened x => trivial

/-- The first overload that fits is found also when others follow. -/
theorem Overload.result?_append {overloads : List Overload} {args : List Ty} {ty : Ty}
    (h : Overload.result? overloads args = some ty) (added : List Overload) :
    Overload.result? (overloads ++ added) args = some ty := by
  obtain ⟨o, ho, rfl⟩ := Option.map_eq_some_iff.1 h
  rw [Overload.result?, find?_append, ho]
  rfl

namespace Check

/-- The step takes every expansion to one that is related to it. -/
def Keeps {α : Type} (R : Expansion → Expansion → Prop) (m : Check α) : Prop := ∀ s, R s (m.outcome s).2

/-- A relation between an earlier and a later expansion that does not look at events. -/
structure Frame (R : Expansion → Expansion → Prop) : Prop where
  refl : ∀ s, R s s
  trans : ∀ {s₁ s₂ s₃}, R s₁ s₂ → R s₂ s₃ → R s₁ s₃
  note : ∀ s e, R s (s.note e)

variable {R : Expansion → Expansion → Prop} {c : Prop} {cause : Cause} {span : Span} {x : Ident}

theorem Keeps.of_gives {α : Type} {m : Check α} {s s' : Expansion} {a : α} (hm : Keeps R m)
    (h : Gives m s a s') : R s s' := by
  have hs := hm s
  rwa [show m.outcome s = (.ok a, s') from h] at hs

section Steps

variable {α β : Type} {R : Expansion → Expansion → Prop}

/-- A step that cannot change the expansion keeps every frame. -/
theorem keeps_of_same (hR : Frame R) {m : Check α} (h : ∀ s, (m.outcome s).2 = s) : Keeps R m := by
  intro s
  rw [h]
  exact hR.refl s

theorem keeps_pure (hR : Frame R) (a : α) : Keeps R (pure a) := keeps_of_same hR fun _ => rfl

theorem keeps_throw (hR : Frame R) (e : Fault) : Keeps R (throw e : Check α) := keeps_of_same hR fun _ => rfl

theorem keeps_refuse (hR : Frame R) (c : Cause) (span : Span) : Keeps R (refuse c span : Check α) :=
  keeps_throw hR _

theorem keeps_get (hR : Frame R) : Keeps R (get : Check Expansion) := keeps_of_same hR fun _ => rfl

theorem keeps_note (hR : Frame R) (e : Event) : Keeps R (note e) := fun s => hR.note s e

theorem keeps_bind (hR : Frame R) {m : Check α} {f : α → Check β} (hm : Keeps R m)
    (hf : ∀ a, Keeps R (f a)) : Keeps R (m >>= f) := by
  intro s
  have hs := hm s
  rw [outcome_bind]
  rcases ho : m.outcome s with ⟨r, s₁⟩
  rw [ho] at hs
  cases r with
  | error e => exact hs
  | ok a => exact hR.trans hs (hf a s₁)

theorem keeps_ite [Decidable c] {m n : Check α} (hm : Keeps R m) (hn : Keeps R n) :
    Keeps R (if c then m else n) := by
  split
  · exact hm
  · exact hn

theorem keeps_guard (hR : Frame R) [Decidable c] {k : β → Check α} {n : Check α}
    (hn : Keeps R n) : Keeps R (if c then refuse cause span >>= k else n) := by
  split
  · exact keeps_of_same hR fun _ => rfl
  · exact hn

end Steps

/-- The step fails for the given reasons only. -/
def Blames {α : Type} (E : Fault → Prop) (m : Check α) : Prop :=
  ∀ s e s', m.outcome s = (.error e, s') → E e

section Blames

variable {α β : Type} {E : Fault → Prop}

theorem blames_pure (a : α) : Blames E (pure a) := fun _ _ _ h => by cases h

theorem blames_refuse (h : E (.refused ⟨cause, span⟩)) :
    Blames E (refuse cause span : Check α) := by
  intro s e s' ho
  cases ho
  exact h

theorem blames_bind {m : Check α} {f : α → Check β} (hm : Blames E m)
    (hf : ∀ a, (∃ s s', Gives m s a s') → Blames E (f a)) : Blames E (m >>= f) := by
  intro s e s' h
  rw [outcome_bind] at h
  rcases ho : m.outcome s with ⟨r, s₁⟩
  rw [ho] at h
  cases r with
  | error e' =>
    cases h
    exact hm _ _ _ ho
  | ok a => exact hf a ⟨s, s₁, ho⟩ _ _ _ h

theorem Blames.mono {E' : Fault → Prop} {m : Check α} (hm : Blames E m) (h : ∀ e, E e → E' e) : Blames E' m :=
  fun s e s' ho => h e (hm s e s' ho)

theorem blames_ite [Decidable c] {m n : Check α} (hm : Blames E m) (hn : Blames E n) :
    Blames E (if c then m else n) := by
  split
  · exact hm
  · exact hn

end Blames

/-- Structs of one name are the same in both expansions. -/
def StructsAgree (s t : Expansion) : Prop := ∀ d ∈ s.structs, ∀ e ∈ t.structs, d.name = e.name → d = e

/-- A step that opens nothing and fails for what it finds itself, at one of the places. What it comes to depends on
nothing but the structs. -/
structure Still {α : Type} (P : Position → Prop) (m : Check α) : Prop where
  keeps : ∀ {R}, Frame R → Keeps R m
  blames : Blames (Fault.PlainIn P) m
  alike : ∀ {s t a b s' t'}, StructsAgree s t → Gives m s a s' → Gives m t b t' → a = b

section Still

variable {α β : Type} {P : Position → Prop} {span : Span} {cause : Cause}

theorem Still.structs {m : Check α} (hm : Still P m) {s s' : Expansion} {a : α} (h : Gives m s a s') :
    s'.structs = s.structs :=
  (hm.keeps ⟨fun _ => rfl, fun h₁ h₂ => h₂.trans h₁, fun _ _ => rfl⟩ : Keeps (fun s s' => s'.structs = s.structs) m)
    |>.of_gives h

theorem still_pure (a : α) : Still P (pure a : Check α) :=
  ⟨fun hR => keeps_pure hR a, blames_pure a, fun _ h h' => (gives_pure.1 h).1.symm.trans (gives_pure.1 h').1⟩

theorem still_refuse (h : cause.isPlain = true) (hspan : P span.start) : Still P (refuse cause span : Check α) :=
  ⟨fun hR => keeps_refuse hR _ _, blames_refuse ⟨h, hspan⟩, fun _ h => (gives_refuse.1 h).elim⟩

theorem still_note (e : Event) : Still P (note e) :=
  ⟨fun hR => keeps_note hR e, (fun _ _ _ h => by cases h), fun _ _ _ => rfl⟩

theorem still_bind {m : Check α} {f : α → Check β} (hm : Still P m) (hf : ∀ a, Still P (f a)) : Still P (m >>= f) where
  keeps hR := keeps_bind hR (hm.keeps hR) fun a => (hf a).keeps hR
  blames := blames_bind hm.blames fun a _ => (hf a).blames
  alike hst h h' := by
    obtain ⟨a, s₁, ha, hrest⟩ := gives_bind.1 h
    obtain ⟨a', t₁, ha', hrest'⟩ := gives_bind.1 h'
    obtain rfl := hm.alike hst ha ha'
    refine (hf a).alike ?_ hrest hrest'
    rwa [StructsAgree, hm.structs ha, hm.structs ha']

theorem still_ite [Decidable c] {m n : Check α} (hm : Still P m) (hn : Still P n) :
    Still P (if c then m else n) := by
  split
  · exact hm
  · exact hn

theorem still_guard [Decidable c] {k : β → Check α} {n : Check α} (h : cause.isPlain = true) (hspan : P span.start)
    (hn : Still P n) : Still P (if c then refuse cause span >>= k else n) :=
  still_ite (still_refuse h hspan) hn

theorem still_notPlace (place : Bool) (h : P span.start) : Still P (notPlace place span) :=
  still_ite (still_refuse rfl h) (still_pure _)

theorem still_openedStruct (x : Ident) : Still P (openedStruct x) where
  keeps hR := keeps_of_same hR fun s => by
    simp only [openedStruct, outcome_bind, outcome_get]
    cases s.struct? x <;> rfl
  blames s e s' ho := by
    simp only [openedStruct, outcome_bind, outcome_get] at ho
    cases hx : s.struct? x <;> rw [hx] at ho <;> cases ho
    trivial
  alike {s t d e s' t'} hst h h' := by
    obtain ⟨hd, -⟩ := gives_openedStruct.1 h
    obtain ⟨he, -⟩ := gives_openedStruct.1 h'
    have hdx : d.name = x := by simpa using find?_some hd
    have hex : e.name = x := by simpa using find?_some he
    exact hst d (mem_of_find?_eq_some hd) e (mem_of_find?_eq_some he) (hdx.trans hex.symm)

theorem still_hasArrays (t : Ty) : Still P (hasArrays t) := by
  cases t with
  | void | basic | array => exact still_pure _
  | struct x => exact still_bind (still_openedStruct x) fun d => still_pure _

theorem still_sameCount (f : Ident) (params : List Ty) (args : List Expr) (h : P span.start) :
    Still P (sameCount f params args span) :=
  still_ite (still_refuse rfl h) (still_ite (still_refuse rfl h) (still_pure _))

theorem still_member (place : Bool) (base : Typed) (name : Ident) (h : P span.start) :
    Still P (member place base name span) := by
  unfold member
  split
  · refine still_bind (still_openedStruct _) fun d => ?_
    split
    · exact still_pure _
    · exact still_refuse rfl h
  · split
    · exact still_refuse rfl h
    · exact still_ite (still_refuse rfl h) (still_pure _)

theorem still_element (base index : Typed) {indexSpan : Span} (hindex : P indexSpan.start) (h : P span.start) :
    Still P (element base index indexSpan span) := by
  unfold element
  split
  · exact still_refuse rfl h
  · exact still_ite (still_refuse rfl hindex) (still_pure _)

theorem still_bindName (scope : Scope Var) (x : Ident) (v : Var) (h : P span.start) :
    Still P (bindName scope x v span) := by
  unfold bindName
  split
  · exact still_pure _
  · exact still_refuse rfl h

theorem isPlain_of_construction {ty : BasicTy} {ts : List Typed}
    (h : construction ty ts = .error cause) : cause.isPlain = true := by
  unfold construction at h
  dsimp only at h
  repeat' split at h
  all_goals cases h
  all_goals rfl

theorem isPlain_of_useVar {place : Bool} {v : Var} (h : useVar place x v = .error cause) : cause.isPlain = true := by
  unfold useVar at h
  repeat' split at h
  all_goals cases h
  all_goals rfl

theorem isPlain_of_refusal? {kind : VarKind} {ty : Ty}
    (h : kind.refusal? x ty = some cause) : cause.isPlain = true := by
  cases kind <;> simp only [VarKind.refusal?, reduceCtorEq, Option.ite_none_left_eq_some] at h
  all_goals
    obtain ⟨-, h⟩ := h
    cases h
    rfl

end Still

/-- What goes on after a look-up: nothing succeeds where the name stands for nothing, and where a builtin function is found,
further overloads behind its own change nothing. -/
structure Answers {α : Type} (f : Option Info → Globals → Check α) : Prop where
  none : ∀ {g s a s'}, ¬ Gives (f .none g) s a s'
  more : ∀ {overloads g s a s'}, Gives (f (some (.builtin overloads)) g) s a s' →
    ∀ added, Gives (f (some (.builtin (overloads ++ added))) g) s a s'

/-- The step looks up the given names among the top-level ones: no others, and all of them if it succeeds. A
name that stands for nothing is refused. -/
inductive Asks (P : Position → Prop) : {α : Type} → List Ident → (Globals → Check α) → Prop
  | still {α : Type} {m : Check α} : Still P m → Asks P [] fun _ => m
  | refuse {α : Type} (names : List Ident) {cause : Cause} {span : Span} : cause.isPlain = true → P span.start →
      Asks P names fun _ => (Check.refuse cause span : Check α)
  | ask {α : Type} {names : List Ident} (x : Ident) {span : Span} {f : Option Info → Globals → Check α} :
      P span.start → Answers f → (∀ info, Asks P names (f info)) →
      Asks P (x :: names) fun g => g x span >>= fun info => f info g
  | bind {α β : Type} {xs ys : List Ident} {m : Globals → Check α} {f : α → Globals → Check β} : Asks P xs m →
      (∀ a, (∃ g s s', Gives (m g) s a s') → Asks P ys (f a)) → Asks P (xs ++ ys) fun g => m g >>= fun a => f a g

namespace Asks

variable {α β : Type} {P : Position → Prop} {names : List Ident} {m : Globals → Check α} {g : Globals}

/-- What follows the last look-up. -/
theorem last {f : α → Globals → Check β} (hm : Asks P names m)
    (hf : ∀ a, (∃ g s s', Gives (m g) s a s') → Asks P [] (f a)) : Asks P names fun g => m g >>= fun a => f a g := by
  have h := Asks.bind hm hf
  rwa [append_nil] at h

theorem guard {γ : Type} [Decidable c] {k : Globals → γ → Check α} (h : cause.isPlain = true) (hspan : P span.start)
    (hm : Asks P names m) :
    Asks P names fun g => if c then Check.refuse cause span >>= k g else m g := by
  split
  · exact .refuse names h hspan
  · exact hm

/-- A step keeps what the look-ups keep. -/
theorem keeps (hR : Frame R) (h : Asks P names m) (hg : ∀ x ∈ names, ∀ span, Keeps R (g x span)) : Keeps R (m g) := by
  induction h with
  | still hm => exact hm.keeps hR
  | refuse names hc _ => exact keeps_refuse hR _ _
  | ask x _ _ hf ihf =>
    have hnames := fun y hy => hg y (mem_cons_of_mem _ hy)
    exact keeps_bind hR (hg x mem_cons_self _) fun info => ihf info hnames
  | bind hm hf ihm ihf =>
    intro s
    have hs := ihm (fun x hx => hg x (mem_append_left _ hx)) s
    rw [outcome_bind]
    rcases ho : (_ : Check _).outcome s with ⟨r, s₁⟩
    rw [ho] at hs
    cases r with
    | error e => exact hs
    | ok a =>
      exact hR.trans hs (ihf a ⟨_, s, s₁, ho⟩ (fun x hx => hg x (mem_append_right _ hx)) s₁)

/-- A step fails for its own reasons or for those of a look-up. -/
theorem blames {E : Fault → Prop} (hE : ∀ e, e.PlainIn P → E e) (h : Asks P names m)
    (hg : ∀ x ∈ names, ∀ span, P span.start → Blames E (g x span)) : Blames E (m g) := by
  induction h with
  | still hm => exact hm.blames.mono hE
  | refuse names hc hspan => exact blames_refuse (hE _ ⟨hc, hspan⟩)
  | ask x hspan _ hf ihf =>
    have hnames := fun y hy => hg y (mem_cons_of_mem _ hy)
    exact blames_bind (hg x mem_cons_self _ hspan) fun info _ => ihf info hnames
  | bind hm hf ihm ihf =>
    refine blames_bind (ihm fun x hx => hg x (mem_append_left _ hx)) fun a ha => ?_
    obtain ⟨s, s', ho⟩ := ha
    exact ihf a ⟨_, s, s', ho⟩ fun x hx => hg x (mem_append_right _ hx)

/-- A step that succeeds has found all names. -/
theorem asked (hR : Frame R) (h : Asks P names m) (hg : ∀ x ∈ names, ∀ span, Keeps R (g x span)) {s s' : Expansion}
    {a : α} (hgives : Gives (m g) s a s') :
    ∀ x ∈ names, ∃ span s₁ info s₂, R s s₁ ∧ Gives (g x span) s₁ (some info) s₂ ∧ R s₂ s' := by
  induction h generalizing s s' with
  | still hm => exact nofun
  | refuse names hc _ => exact (gives_refuse.1 hgives).elim
  | @ask _ _ x span _ _ hanswers hf ihf =>
    obtain ⟨info, s₁, hx, hrest⟩ := gives_bind.1 hgives
    have hnames := fun y hy => hg y (mem_cons_of_mem _ hy)
    cases info with
    | none => exact absurd hrest hanswers.none
    | some info =>
      intro y hy
      rcases mem_cons.1 hy with rfl | hy
      · exact ⟨span, s, info, s₁, hR.refl s, hx, ((hf _).keeps hR hnames).of_gives hrest⟩
      · obtain ⟨span', s₂, info', s₃, hbefore, hy', hbehind⟩ := ihf _ hnames hrest y hy
        exact ⟨span', s₂, info', s₃, hR.trans ((hg x mem_cons_self span).of_gives hx) hbefore, hy', hbehind⟩
  | @bind _ _ _ _ m f hm hf ihm ihf =>
    obtain ⟨b, s₁, hb, hrest⟩ := gives_bind.1 hgives
    have hreach : ∃ g s s', Gives (m g) s b s' := ⟨g, s, s₁, hb⟩
    have hleft := fun x hx => hg x (mem_append_left _ hx)
    have hright := fun x hx => hg x (mem_append_right _ hx)
    intro x hx
    rcases mem_append.1 hx with hx | hx
    · obtain ⟨span, s₂, info, s₃, hbefore, hx, hbehind⟩ := ihm hleft hb x hx
      exact ⟨span, s₂, info, s₃, hbefore, hx, hR.trans hbehind (((hf b hreach).keeps hR hright).of_gives hrest)⟩
    · obtain ⟨span, s₂, info, s₃, hbefore, hx, hbehind⟩ := ihf b hreach hright hrest x hx
      exact ⟨span, s₂, info, s₃, hR.trans ((hm.keeps hR hleft).of_gives hb) hbefore, hx, hbehind⟩

end Asks

/-- The scopes bind just the given names. -/
def BindNames (scopes : List (Scope Var)) (names : List Ident) : Prop :=
  ∀ x, (Scope.find? scopes x).isSome = true ↔ x ∈ names

namespace BindNames

variable {scopes : List (Scope Var)} {names : List Ident}

theorem of_locals (h : BindLocals scopes names) : BindNames scopes names := by
  intro x
  rw [← Option.isSome_map (f := fun v => v.kind.root x), h x]
  split <;> simp_all

theorem nil : BindNames [] [] := of_locals .nil

theorem all (scopes : List (Scope Var)) : BindNames scopes (scopes.flatMap fun s => s.entries.map Prod.fst) := by
  intro x
  simp [Scope.find?, Scope.lookup?]

theorem enter (h : BindNames scopes names) : BindNames (.empty :: scopes) names := h

theorem insert {inner inner' : Scope Var} (h : BindNames (inner :: scopes) names) {v : Var}
    (hinsert : inner.insert? x v = some inner') : BindNames (inner' :: scopes) (x :: names) := by
  intro y
  have hy := h y
  rw [Scope.find?_cons] at hy ⊢
  rw [Scope.lookup?_insert? hinsert]
  by_cases hxy : y = x
  · simp [hxy]
  · simp only [hxy, if_false, mem_cons, false_or]
    exact hy

theorem loop (h : BindNames scopes names) (x : Ident) (v : Var) : BindNames (⟨[(x, v)]⟩ :: scopes) (x :: names) :=
  h.enter.insert rfl

end BindNames

section Expressions

variable {P : Position → Prop} {scopes : List (Scope Var)} {locals : List Ident}

theorem asks_find {α : Type} {names : List Ident} (hlocals : BindNames scopes locals) (x : Ident)
    (hspan : P span.start) {f : Option Info → Globals → Check α} (hanswers : Answers f)
    (hf : ∀ info, Asks P names (f info)) :
    Asks P (reference locals x ++ names) fun g => Context.find ⟨scopes, g⟩ x span >>= fun info => f info g := by
  have hx := hlocals x
  unfold reference
  cases hv : Scope.find? scopes x with
  | some v =>
    have hfind : ∀ g : Globals, Context.find ⟨scopes, g⟩ x span = pure (some (.var v)) := by
      simp only [Context.find, hv, implies_true]
    simp only [hfind, if_pos (hx.1 (by rw [hv]; rfl))]
    exact .bind (.still (still_pure _)) fun info _ => hf info
  | none =>
    have hfind : ∀ g : Globals, Context.find ⟨scopes, g⟩ x span = g x span := by
      simp only [Context.find, hv, implies_true]
    rw [hv] at hx
    simp only [hfind, if_neg fun hmem => absurd (hx.2 hmem) (by simp)]
    exact .ask x hspan hanswers hf

theorem asks_exprs {es : List Expr}
    (h : ∀ e ∈ es, ∀ place, Asks P (e.refs locals) fun g => expr ⟨scopes, g⟩ place e) :
    Asks P (Expr.refsAll locals es) fun g => exprs ⟨scopes, g⟩ es := by
  induction es with
  | nil => exact .still (still_pure _)
  | cons e es ih =>
    refine .bind (h e mem_cons_self false) fun t _ => ?_
    exact .last (ih fun e he => h e (mem_cons_of_mem _ he)) fun ts _ => .still (still_pure _)

/-- As many arguments as parameters are all checked. -/
theorem asks_argsFor {f : Ident} {es : List Expr} (hes : ∀ e ∈ es, (Node.expr e).StartsIn P)
    (h : ∀ e ∈ es, ∀ place, Asks P (e.refs locals) fun g => expr ⟨scopes, g⟩ place e) (n : Nat) {params : List Ty}
    (hcount : params.length = es.length) :
    Asks P (Expr.refsAll locals es) fun g => argsFor ⟨scopes, g⟩ f n params es := by
  induction es generalizing n params with
  | nil => exact .still (still_pure _)
  | cons e es ih =>
    obtain ⟨he, hes⟩ := forall_mem_cons.1 hes
    refine .bind (h e mem_cons_self false) fun t _ => ?_
    cases params with
    | nil => cases hcount
    | cons ty tys =>
      refine .guard rfl he.span (.last (ih hes (fun e he => h e (mem_cons_of_mem _ he)) _ ?_) fun ts _ =>
        .still (still_pure _))
      exact Nat.succ.inj hcount

theorem asks_notPlace {names : List Ident} {m : Globals → Check Typed} (place : Bool) (hspan : P span.start)
    (hm : Asks P names m) : Asks P names fun g => notPlace place span >>= fun _ => m g :=
  .bind (.still (still_notPlace place hspan)) fun _ _ => hm

theorem asks_expr (hlocals : BindNames scopes locals) (place : Bool) {e : Expr} (he : (Node.expr e).StartsIn P) :
    Asks P (e.refs locals) fun g => expr ⟨scopes, g⟩ place e := by
  induction e generalizing place with
  | cond c yes no span ihc ihyes ihno =>
    have hc := he.child (.head _)
    have hyes := he.child (.tail _ (.head _))
    have hno := he.child (.tail _ (.tail _ (.head _)))
    refine asks_notPlace place he.span (.bind (ihc false hc) fun c' _ => .guard rfl hc.span ?_)
    refine .bind (ihyes false hyes) fun yes' _ => ?_
    exact .last (ihno false hno) fun no' _ => .still (still_guard rfl hno.span (still_pure _))
  | bin op l r span ihl ihr =>
    have hl := he.child (.head _)
    have hr := he.child (.tail _ (.head _))
    refine asks_notPlace place he.span (.bind (ihl _ hl) fun l' _ => .last (ihr false hr) fun r' _ => ?_)
    split
    · exact .refuse _ rfl he.span
    · refine .still (still_ite (still_ite ?_ (still_pure _)) (still_pure _))
      exact still_bind (still_hasArrays _) fun b => still_guard rfl hl.span (still_pure _)
  | un op e span ih =>
    refine asks_notPlace place he.span (.last (ih false (he.child (.head _))) fun e' _ => ?_)
    split
    · exact .refuse _ rfl he.span
    · exact .still (still_pure _)
  | index b i span ihb ihi =>
    have hi := he.child (.tail _ (.head _))
    refine .bind (ihb place (he.child (.head _))) fun b' _ => .last (ihi false hi) fun i' _ => ?_
    exact .still (still_element _ _ hi.span he.span)
  | member b name span ih =>
    exact .last (ih place (he.child (.head _))) fun b' _ => .still (still_member _ _ _ he.span)
  | call f args span ih =>
    have hspan : P span.start := he.span
    have hes := forall_mem_map.1 he.children
    have hexprs := fun e hmem place => ih e hmem place (hes e hmem)
    have hargs {params : List Ty} {k : List Typed → Check Typed} (hk : ∀ ts, Still P (k ts)) :
        Asks P (Expr.refsAll locals args) fun g => sameCount f params args span >>= fun _ =>
          argsFor ⟨scopes, g⟩ f 0 params args >>= k := by
      refine .bind (.still (still_sameCount f params args hspan)) fun _ hgives => ?_
      obtain ⟨-, s, s', hcount⟩ := hgives
      refine .last (asks_argsFor hes hexprs 0 (gives_sameCount.1 hcount).1.symm) fun ts _ => ?_
      exact .still (hk ts)
    refine asks_notPlace place hspan (asks_find hlocals f hspan ⟨gives_refuse.1, ?_⟩ fun info => ?_)
    · intro overloads g s t s' h added
      obtain ⟨ts, s₁, hts, hresult⟩ := gives_bind.1 h
      refine gives_bind.2 ⟨ts, s₁, hts, ?_⟩
      cases hty : Overload.result? overloads (ts.map Typed.ty) with
      | none =>
        rw [hty] at hresult
        exact (gives_refuse.1 hresult).elim
      | some ty =>
        rw [hty] at hresult
        rw [Overload.result?_append hty]
        exact hresult
    split
    · exact .refuse _ rfl hspan
    · exact hargs fun ts => still_pure _
    · refine .last (asks_exprs hexprs) fun ts _ => ?_
      split
      · exact .refuse _ rfl hspan
      · exact .still (still_pure _)
    · exact hargs fun ts => still_pure _
    · exact .refuse _ rfl hspan
  | construct ty args span ih =>
    have hes := forall_mem_map.1 he.children
    refine asks_notPlace place he.span (.last (asks_exprs fun e hmem place => ih e hmem place (hes e hmem)) fun ts _ => ?_)
    split
    · exact .still (still_pure _)
    · rename_i hmade
      exact .refuse _ (isPlain_of_construction hmade) he.span
  | var x span =>
    rw [Expr.refs, ← append_nil (reference locals x)]
    refine asks_find hlocals x he.span ⟨gives_refuse.1, fun h => (gives_refuse.1 h).elim⟩ fun info => ?_
    split
    · exact .refuse _ rfl he.span
    · split
      · exact .still (still_pure _)
      · rename_i hused
        exact .refuse _ (isPlain_of_useVar hused) he.span
    · exact .refuse _ rfl he.span
  | lit v span => exact asks_notPlace place he.span (.still (still_pure _))

theorem asks_tyExpr (hlocals : BindNames scopes locals) {t : TyExpr} (ht : (Node.ty t).StartsIn P) :
    Asks P (t.refs locals) fun g => tyExpr ⟨scopes, g⟩ t := by
  induction t with
  | keyword b span => exact .still (still_pure _)
  | array elem len span ih => exact .guard rfl ht.span (.last (ih (ht.child (.head _))) fun e _ => .still (still_pure _))
  | named x span =>
    rw [TyExpr.refs, ← append_nil (reference locals x)]
    refine asks_find hlocals x ht.span ⟨gives_refuse.1, fun h => (gives_refuse.1 h).elim⟩ fun info => ?_
    split
    · exact .refuse _ rfl ht.span
    · exact .still (still_pure _)
    · exact .refuse _ rfl ht.span

theorem asks_constInt (hlocals : BindNames scopes locals) {e : Expr} (he : (Node.expr e).StartsIn P) :
    Asks P (e.refs locals) fun g => constInt ⟨scopes, g⟩ e := by
  refine .last (asks_expr hlocals false he) fun t _ => .guard rfl he.span ?_
  split
  · exact .still (still_pure _)
  · exact .refuse _ rfl he.span

theorem asks_loopStep (hlocals : BindNames scopes locals) (x : Ident) (a b : Int32) {step : Option Expr}
    (hstep : ∀ e ∈ step, (Node.expr e).StartsIn P) : Asks P (Expr.refs? locals step) fun g => loopStep ⟨scopes, g⟩ x a b step := by
  cases step with
  | none => exact .still (still_pure _)
  | some e =>
    have hspan := (hstep e rfl).span
    refine .last (asks_constInt hlocals (hstep e rfl)) fun i _ => .still ?_
    exact still_guard rfl hspan (still_guard rfl hspan (still_guard rfl hspan (still_pure _)))

theorem asks_initValue (hlocals : BindNames scopes locals) {init : Option Expr} (hinit : ∀ e ∈ init, (Node.expr e).StartsIn P) :
    Asks P (Expr.refs? locals init) fun g => initValue ⟨scopes, g⟩ init := by
  cases init with
  | none => exact .still (still_pure _)
  | some e => exact .last (asks_expr hlocals false (hinit e rfl)) fun t _ => .still (still_pure _)

theorem asks_letTy (hlocals : BindNames scopes locals) (x : Ident) {ty : Option TyExpr}
    {value : Option (Typed × Span)} (hty : ∀ t ∈ ty, (Node.ty t).StartsIn P) (hvalue : ∀ v ∈ value, P v.2.start)
    (hspan : P span.start) :
    Asks P (TyExpr.refs? locals ty) fun g => letTy ⟨scopes, g⟩ x ty value span := by
  unfold letTy
  split
  · exact asks_tyExpr hlocals (hty _ rfl)
  · exact .last (asks_tyExpr hlocals (hty _ rfl)) fun t _ => .still (still_guard rfl (hvalue _ rfl) (still_pure _))
  · exact .still (still_ite (still_refuse rfl hspan) (still_pure _))
  · exact .refuse _ rfl hspan

end Expressions

section Statements

variable {P : Position → Prop} {result : Ty} {inLoop : Bool} {outer : List (Scope Var)} {inner : Scope Var}
  {locals : List Ident}

theorem asks_stmts {ss : List Stmt}
    (h : ∀ st ∈ ss, ∀ {inner locals}, BindNames (inner :: outer) locals →
      Asks P (st.refs locals) fun g => stmt ⟨g, result⟩ inLoop outer inner st)
    (hlocals : BindNames (inner :: outer) locals) :
    Asks P (Stmt.refsAll locals ss) fun g => stmts ⟨g, result⟩ inLoop outer inner ss := by
  induction ss generalizing inner locals with
  | nil => exact .still (still_pure _)
  | cons st ss ih =>
    refine .bind (h st mem_cons_self hlocals) fun r hr => ?_
    obtain ⟨g, s, s', hst⟩ := hr
    have hbehind : BindNames (r.1 :: outer) (st.binds ++ locals) := by
      obtain ⟨hinner, hbinds⟩ | ⟨x, v, hbinds, hinsert⟩ := (inner_of_stmt hst).2 <;> rw [hbinds]
      · rwa [hinner]
      · exact hlocals.insert hinsert
    refine .last (ih (fun st hst => h st (mem_cons_of_mem _ hst)) hbehind) ?_
    exact fun more _ => .still (still_pure _)

theorem asks_block_of {b : Block}
    (h : ∀ st ∈ b.stmts, ∀ {inner locals}, BindNames (inner :: outer) locals →
      Asks P (st.refs locals) fun g => stmt ⟨g, result⟩ inLoop outer inner st)
    (hlocals : BindNames (inner :: outer) locals) :
    Asks P (b.refs locals) fun g => block ⟨g, result⟩ inLoop outer inner b := by
  cases b with
  | mk ss span => exact .last (asks_stmts h hlocals) fun r _ => .still (still_pure _)

theorem asks_stmt {st : Stmt} (hst : (Node.stmt st).StartsIn P) (hlocals : BindNames (inner :: outer) locals) :
    Asks P (st.refs locals) fun g => stmt ⟨g, result⟩ inLoop outer inner st := by
  induction st generalizing inLoop outer inner locals with
  | breakStmt span => exact .still (still_guard rfl hst.span (still_pure _))
  | continueStmt span => exact .still (still_guard rfl hst.span (still_pure _))
  | forStmt x first bound step body span ih =>
    have hparts := hst.children
    simp only [Node.children, forall_mem_cons, forall_mem_append, forall_mem_map, Option.mem_toList]
      at hparts
    obtain ⟨hfirst, hbound, hstep, hbody, -⟩ := hparts
    have hbody := forall_mem_map.1 hbody.children
    refine .bind (asks_constInt hlocals hfirst) fun a _ => .bind (asks_constInt hlocals hbound) fun b _ => ?_
    refine .bind (asks_loopStep hlocals x a b hstep) fun i _ => ?_
    refine .last (asks_block_of (fun st hst => ih st hst (hbody st hst)) (hlocals.loop x _)) fun kept _ => .still ?_
    exact still_ite (still_bind (still_note _) fun _ => still_pure _) (still_pure _)
  | ifStmt test yes no span ihyes ihno =>
    have htest := hst.child (.head _)
    have hyes := forall_mem_map.1 (hst.child (.tail _ (.head _))).children
    have helse : Asks P (no.elim [] (Block.refs locals)) fun g =>
        elseBlock ⟨g, result⟩ inLoop (inner :: outer) no := by
      cases no with
      | none => exact .still (still_pure _)
      | some b =>
        have hb := forall_mem_map.1 (hst.child (.tail _ (.tail _ (.head _)))).children
        exact asks_block_of (fun st hst => ihno b rfl st hst (hb st hst)) hlocals.enter
    simp only [stmt_if, Stmt.refs_ifStmt]
    refine .bind (asks_expr hlocals false htest) fun t _ => .guard rfl htest.span ?_
    refine .bind (asks_block_of (fun st hst => ihyes st hst (hyes st hst)) hlocals.enter) fun yes' _ => ?_
    refine .last helse fun no' _ => .still ?_
    split
    · exact still_bind (still_note _) fun _ => still_pure _
    · exact still_pure _
  | letStmt x ty init span =>
    have hspan : P span.start := hst.span
    have hparts := hst.children
    simp only [Node.children, forall_mem_append, forall_mem_map, Option.mem_toList] at hparts
    obtain ⟨hty, hinit⟩ := hparts
    simp only [stmt_let]
    refine .bind (asks_initValue hlocals hinit) fun value hgives => ?_
    have hvalue : ∀ v ∈ value, P v.2.start := by
      obtain ⟨g, s, s', hgives⟩ := hgives
      rcases gives_initValue hgives with ⟨-, rfl, -⟩ | ⟨e, e', rfl, -, rfl⟩
      · simp
      · rintro _ ⟨⟩
        exact (hinit e rfl).span
    refine .last (asks_letTy hlocals x hty hvalue hspan) fun t _ => .still ?_
    split
    · exact still_refuse rfl hspan
    · exact still_pure _
  | returnStmt value span =>
    cases value with
    | none =>
      simp only [stmt]
      exact .guard rfl hst.span (.still (still_pure _))
    | some e =>
      have he := hst.child (.head _)
      simp only [stmt]
      exact .last (asks_expr hlocals false he) fun e' _ => .guard rfl he.span (.still (still_pure _))
  | blockStmt b span ih =>
    have hb := forall_mem_map.1 (hst.child (.head _)).children
    refine .last (asks_block_of (fun st hst => ih st hst (hb st hst)) hlocals.enter) fun kept _ => ?_
    exact .still (still_pure _)
  | exprStmt e span =>
    exact .last (asks_expr hlocals false (hst.child (.head _))) fun e' _ => .still (still_pure _)

theorem asks_block {b : Block} (hb : (Node.block b).StartsIn P) (hlocals : BindNames (inner :: outer) locals) :
    Asks P (b.refs locals) fun g => block ⟨g, result⟩ inLoop outer inner b :=
  asks_block_of (fun st hst => asks_stmt (forall_mem_map.1 hb.children st hst)) hlocals

end Statements

section Declarations

variable {P : Position → Prop} {locals : List Ident}

theorem asks_params {scope : Scope Var} (hlocals : BindNames [scope] locals) {ps : List TypedName}
    (hps : ∀ p ∈ ps, (Node.var p).StartsIn P) : Asks P (TypedName.refsAll locals ps) fun g => params g scope ps := by
  induction ps generalizing scope locals with
  | nil => exact .still (still_pure _)
  | cons p ps ih =>
    obtain ⟨hp, hps⟩ := forall_mem_cons.1 hps
    refine .bind (asks_tyExpr hlocals (hp.child (.head _))) fun ty _ => ?_
    refine .bind (.still (still_bindName scope p.name _ hp.span)) fun scope' hgives => ?_
    obtain ⟨-, s, s', hbind⟩ := hgives
    refine .last (ih (hlocals.insert (gives_bindName.1 hbind).1) hps) fun more _ => .still (still_pure _)

theorem asks_resultTy {result : Option TyExpr} (h : ∀ t ∈ result, (Node.ty t).StartsIn P) :
    Asks P (TyExpr.refs? [] result) fun g => resultTy g result := by
  cases result with
  | none => exact .still (still_pure _)
  | some t => exact asks_tyExpr BindNames.nil.enter (h t rfl)

theorem asks_laxFn {d : FnDecl} (hd : (Node.decl (.fn d)).StartsIn P) : Asks P d.refs fun g => laxFn g d := by
  have hparts := hd.children
  simp only [Node.children, forall_mem_append, forall_mem_map, Option.mem_toList, forall_mem_cons] at hparts
  obtain ⟨hparams, hresult, hbody, -⟩ := hparts
  refine .bind (asks_resultTy hresult) fun result _ => ?_
  refine .bind (asks_params BindNames.nil.enter hparams) fun r hgives => ?_
  obtain ⟨g, s, s', hgives⟩ := hgives
  have hlocals := (bindLocals_of_params BindLocals.nil.enter hgives).1
  rw [append_nil] at hlocals
  exact .last (asks_block hbody (.of_locals hlocals)) fun body _ => .still (still_pure _)

theorem asks_members (earlier : List (Ident × Ty)) (arrays : Bool) {ms : List TypedName}
    (hms : ∀ m ∈ ms, (Node.var m).StartsIn P) :
    Asks P (ms.flatMap fun m => m.ty.refs []) fun g => members g earlier arrays ms := by
  induction ms generalizing earlier arrays with
  | nil => exact .still (still_pure _)
  | cons m ms ih =>
    obtain ⟨hm, hms⟩ := forall_mem_cons.1 hms
    refine .bind (asks_tyExpr BindNames.nil (hm.child (.head _))) fun ty _ => .guard rfl hm.span ?_
    exact .bind (.still (still_hasArrays ty)) fun inside _ => ih _ _ hms

theorem asks_struct {d : StructDecl} (hd : (Node.decl (.struct d)).StartsIn P) : Asks P d.refs fun g => struct g d :=
  .last (asks_members [] false (forall_mem_map.1 hd.children)) fun _ _ => .still (still_pure _)

end Declarations

/-! ## What is kept

Wherever the spans start, a step keeps what the look-ups keep. -/

section Kept

variable {R : Expansion → Expansion → Prop} (hR : Frame R)
include hR

theorem keeps_bindName (scope : Scope Var) (x : Ident) (v : Var) (span : Span) :
    Keeps R (bindName scope x v span) :=
  (still_bindName (P := fun _ => True) scope x v trivial).keeps hR

section Contexts

variable {ctx : Context} (hg : ∀ x span, Keeps R (ctx.globals x span))
include hg

theorem keeps_find (x : Ident) (span : Span) : Keeps R (ctx.find x span) := by
  unfold Context.find
  split
  · exact keeps_pure hR _
  · exact hg x span

theorem keeps_expr (place : Bool) (e : Expr) : Keeps R (expr ctx place e) :=
  (asks_expr (.all ctx.scopes) place (.any _)).keeps hR fun x _ => hg x

theorem keeps_exprs (es : List Expr) : Keeps R (exprs ctx es) :=
  (asks_exprs fun _ _ place => asks_expr (.all ctx.scopes) place (.any _)).keeps hR fun x _ => hg x

theorem keeps_tyExpr (t : TyExpr) : Keeps R (tyExpr ctx t) :=
  (asks_tyExpr (.all ctx.scopes) (.any _)).keeps hR fun x _ => hg x

theorem keeps_constInt (e : Expr) : Keeps R (constInt ctx e) :=
  (asks_constInt (.all ctx.scopes) (.any _)).keeps hR fun x _ => hg x

theorem keeps_loopStep (x : Ident) (a b : Int32) (step : Option Expr) : Keeps R (loopStep ctx x a b step) :=
  (asks_loopStep (.all ctx.scopes) x a b fun _ _ => .any _).keeps hR fun x _ => hg x

theorem keeps_initValue (init : Option Expr) : Keeps R (initValue ctx init) :=
  (asks_initValue (.all ctx.scopes) fun _ _ => .any _).keeps hR fun x _ => hg x

theorem keeps_letTy (x : Ident) (ty : Option TyExpr) (value : Option (Typed × Span)) (span : Span) :
    Keeps R (letTy ctx x ty value span) :=
  (asks_letTy (.all ctx.scopes) x (fun _ _ => .any _) (fun _ _ => trivial) trivial).keeps hR fun x _ => hg x

end Contexts

section Functions

variable {fc : FnContext} (hg : ∀ x span, Keeps R (fc.globals x span)) (inLoop : Bool) (outer : List (Scope Var))
  (inner : Scope Var)
include hg

theorem keeps_stmt (st : Stmt) : Keeps R (stmt fc inLoop outer inner st) :=
  (asks_stmt (.any _) (.all (inner :: outer))).keeps hR fun x _ => hg x

theorem keeps_stmts (ss : List Stmt) : Keeps R (stmts fc inLoop outer inner ss) :=
  (asks_stmts (fun _ _ => asks_stmt (.any _)) (.all (inner :: outer))).keeps hR fun x _ => hg x

theorem keeps_block (b : Block) : Keeps R (block fc inLoop outer inner b) :=
  (asks_block (.any _) (.all (inner :: outer))).keeps hR fun x _ => hg x

end Functions

variable {g : Globals} (hg : ∀ x span, Keeps R (g x span))
include hg

theorem keeps_params (scope : Scope Var) (ps : List TypedName) : Keeps R (params g scope ps) :=
  (asks_params (.all [scope]) fun _ _ => .any _).keeps hR fun x _ => hg x

theorem keeps_resultTy (result : Option TyExpr) : Keeps R (resultTy g result) :=
  (asks_resultTy fun _ _ => .any _).keeps hR fun x _ => hg x

theorem keeps_laxFn (d : FnDecl) : Keeps R (laxFn g d) := (asks_laxFn (.any _)).keeps hR fun x _ => hg x

theorem keeps_fn (d : FnDecl) : Keeps R (fn g d) := by
  rw [fn_eq_laxFn]
  exact keeps_bind hR (keeps_laxFn hR hg d) fun f => keeps_guard hR (keeps_pure hR _)

theorem keeps_struct (d : StructDecl) : Keeps R (struct g d) :=
  (asks_struct (.any _)).keeps hR fun x _ => hg x

end Kept

end Check

end Shading
