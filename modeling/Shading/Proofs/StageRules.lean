import Shading.Proofs.DeclarationOrder
import Shading.Proofs.Origins
import Shading.Proofs.References
import Shading.Proofs.StageInterface
import Shading.Proofs.Unrolling

/-!
# The rules for varyings

Varyings are written in the vertex stage and read in the fragment stage. No function may do both, be it through
the functions it calls; the function of the vertex stage may not read and that of the fragment stage may not write.

The lax check is the check without these rules. The two come to the same until a rule is broken; there the strict
one stops, and the lax one opens the function all the same. What it opens stays, so the broken rule can be seen in the
code at the end: a shader that has no other error is refused for its varyings if and only if a rule is broken there.
-/

namespace Shading

open List Relation

namespace Stage

/-- What the functions of a stage may not do with a varying. -/
def forbids : Stage → Ident → Use
  | vertex => .varyingRead
  | fragment => .varyingWrite

/-- The needs are those of code that does what the stage forbids. -/
def excludes : Stage → Deps → Bool
  | vertex, d => d.readsVaryings
  | fragment, d => d.writesVaryings

/-- Why the function of a stage is refused that does what the stage forbids. -/
def refusal : Stage → Ident → Cause
  | vertex => .readsVaryings
  | fragment => .writesVaryings

end Stage

/-- The cause is that a rule for varyings is broken. -/
def Cause.onVaryings : Cause → Bool
  | readsAndWritesVaryings _ | readsVaryings _ | writesVaryings _ => true
  | _ => false

/-- The shader is refused because it breaks a rule for varyings. -/
def Fault.onVaryings : Fault → Bool
  | refused e => e.cause.onVaryings
  | unopened _ => false

theorem Fault.Plain.not_onVaryings {e : Fault} (h : e.Plain) : e.onVaryings = false := by
  cases e with
  | unopened x => rfl
  | refused e =>
    obtain ⟨cause, span⟩ := e
    cases cause <;> first | rfl | cases h

section Rules

variable {fns fns' : List FnDef} {f : Ident} {stage : Stage}

/-- The code that is left of the function and of those it reaches by calls both reads and writes varyings. -/
def Mixes (fns : List FnDef) (f : Ident) : Prop :=
  (∃ x, Reaches fns f (.varyingRead x)) ∧ ∃ x, Reaches fns f (.varyingWrite x)

/-- The code that is left of the function of the stage and of those it reaches does what the stage forbids. -/
def Oversteps (fns : List FnDef) (stage : Stage) : Prop := ∃ x, Reaches fns stage.entryPoint (stage.forbids x)

/-- The fault names a function that breaks a rule for the stage. -/
inductive Fault.Breaks (stage : Stage) (fns : List FnDef) : Fault → Prop
  | mixes {f : Ident} {span : Span} : Mixes fns f → Breaks stage fns (.refused ⟨.readsAndWritesVaryings f, span⟩)
  | oversteps {span : Span} : Oversteps fns stage →
      Breaks stage fns (.refused ⟨stage.refusal stage.entryPoint, span⟩)

theorem Fault.Breaks.onVaryings {e : Fault} (h : e.Breaks stage fns) : e.onVaryings = true := by
  cases h with
  | mixes => rfl
  | oversteps => cases stage <;> rfl

theorem Calls.mono (h : fns ⊆ fns') {g : Ident} (hcall : Calls fns f g) : Calls fns' f g := by
  obtain ⟨d, hd, hcalls⟩ := hcall
  exact ⟨d, h hd, hcalls⟩

theorem Reaches.mono (h : fns ⊆ fns') {use : Use} (hreach : Reaches fns f use) : Reaches fns' f use := by
  obtain ⟨d, hd, hpath, huse⟩ := hreach
  exact ⟨d, h hd, ReflTransGen.mono (fun _ _ => Calls.mono h) _ _ hpath, huse⟩

/-- A broken rule can still be seen when there are more functions. -/
theorem Fault.Breaks.mono (h : fns ⊆ fns') {e : Fault} (hbreaks : e.Breaks stage fns) : e.Breaks stage fns' := by
  cases hbreaks with
  | mixes hmixes =>
    obtain ⟨⟨x, hx⟩, y, hy⟩ := hmixes
    exact .mixes ⟨⟨x, hx.mono h⟩, y, hy.mono h⟩
  | oversteps hover =>
    obtain ⟨x, hx⟩ := hover
    exact .oversteps ⟨x, hx.mono h⟩

end Rules

namespace Check

section Lax

/-- Functions are checked without the rule for their varyings. -/
def Checker.lax : Checker := ⟨laxFn, Check.struct⟩

/-- The function of a stage, without the rules for varyings. -/
def laxEntry (top : TopLevel) (vars : Scope Var) (stage : Stage) : Check FnDef := do
  match top.fn? stage.entryPoint with
  | none => refuse (.missingFn stage.entryPoint) .unset
  | some d =>
    if !d.params.isEmpty then refuse (.hasParams d.name d.params.length) d.span
    let f ← openFnBy .lax (globalsBy .lax top vars top.depth) {} d d.span
    if f.result ≠ .vec4 then refuse (.badResult d.name .vec4 f.result) d.span
    return f

/-- Checking without the rules for varyings. -/
def laxMethod (top : TopLevel) : Method where
  names vars := globalsBy .lax top vars top.depth {}
  bind := bindVar
  entry := laxEntry top

/-- The interface and the vertex stage, without the rules for varyings. -/
def laxVertexPart (builtins : Builtins) (decls : List Decl) : Check VertexPart :=
  vertexPartBy (laxMethod (.ofDecls builtins decls)) decls

def laxProgram (builtins : Builtins) (shared : Bool) (decls : List Decl) : Check Program :=
  laxVertexPart builtins decls >>= fragmentPartBy (laxMethod (.ofDecls builtins decls)) shared

end Lax

section Gains

variable {top : TopLevel} {vars : Scope Var}

/-- No function is lost. -/
def Gains (s s' : Expansion) : Prop := s.fns ⊆ s'.fns

theorem frame_gains : Frame Gains :=
  ⟨fun _ => List.Subset.refl _, fun h₁ h₂ => List.Subset.trans h₁ h₂, fun _ _ => List.Subset.refl _⟩

theorem gains_openFnBy {inside : Unfinished → Globals} (hinside : ∀ u x span, Keeps Gains (inside u x span))
    (u : Unfinished) (d : FnDecl) (span : Span) : Keeps Gains (openFnBy .lax inside u d span) := by
  refine keeps_bind frame_gains (keeps_get frame_gains) fun s => ?_
  cases s.fn? d.name with
  | some f => exact keeps_pure frame_gains f
  | none =>
    refine keeps_guard frame_gains ?_
    refine keeps_bind frame_gains (keeps_laxFn frame_gains (hinside _) d) fun f => ?_
    refine keeps_bind frame_gains (fun s => subset_append_left _ _) fun _ => ?_
    exact keeps_bind frame_gains (keeps_note frame_gains _) fun _ => keeps_pure frame_gains f

theorem gains_openStructBy {inside : Unfinished → Globals} (hinside : ∀ u x span, Keeps Gains (inside u x span))
    (u : Unfinished) (d : StructDecl) (span : Span) : Keeps Gains (openStructBy .lax inside u d span) := by
  refine keeps_bind frame_gains (keeps_get frame_gains) fun s => ?_
  cases s.struct? d.name with
  | some f => exact keeps_pure frame_gains f
  | none =>
    refine keeps_guard frame_gains ?_
    refine keeps_bind frame_gains (keeps_struct frame_gains (hinside _) d) fun f => ?_
    refine keeps_bind frame_gains (fun s => List.Subset.refl _) fun _ => ?_
    exact keeps_bind frame_gains (keeps_note frame_gains _) fun _ => keeps_pure frame_gains f

theorem gains_globalsBy (n : Nat) (u : Unfinished) (x : Ident) (span : Span) :
    Keeps Gains (globalsBy .lax top vars n u x span) := by
  induction n generalizing u x span with
  | zero => exact keeps_pure frame_gains _
  | succ k ih =>
    simp only [globalsBy]
    split
    · exact keeps_pure frame_gains _
    · exact keeps_bind frame_gains (gains_openFnBy ih u _ span) fun f => keeps_pure frame_gains _
    · exact keeps_bind frame_gains (gains_openStructBy ih u _ span) fun f => keeps_pure frame_gains _
    · exact keeps_pure frame_gains _

theorem gains_interfaceVarsBy (ds : List (TypedName × VarKind)) :
    Keeps Gains (interfaceVarsBy (laxMethod top) vars ds) := by
  induction ds generalizing vars with
  | nil => exact keeps_pure frame_gains _
  | cons d ds ih =>
    refine keeps_bind frame_gains (keeps_tyExpr frame_gains (gains_globalsBy _ _) d.1.ty) fun ty => ?_
    split
    · exact keeps_refuse frame_gains _ _
    · refine keeps_bind frame_gains (keeps_bindName frame_gains _ _ _ _) fun vars' => ?_
      exact keeps_bind frame_gains ih fun r => keeps_pure frame_gains _

theorem gains_laxEntry (stage : Stage) : Keeps Gains (laxEntry top vars stage) := by
  unfold laxEntry
  split
  · exact keeps_refuse frame_gains _ _
  · refine keeps_guard frame_gains (keeps_bind frame_gains (gains_openFnBy (gains_globalsBy _) {} _ _) fun f => ?_)
    exact keeps_guard frame_gains (keeps_pure frame_gains f)

end Gains

/-- Without the rules for varyings a step comes to the same, or it goes on where the strict one finds that a rule is
broken, and one can see that in the functions it leaves. -/
def Agrees {α : Type} (stage : Stage) (s : Expansion) (m lax : Check α) : Prop :=
  (m.outcome s = lax.outcome s ∧ ∀ e, (m.outcome s).1 = .error e → e.onVaryings = false) ∨
  ∃ e, (m.outcome s).1 = .error e ∧ e.Breaks stage (lax.outcome s).2.fns

section Agrees

variable {α β : Type} {stage : Stage} {s : Expansion}

theorem Agrees.same {m : Check α} (hm : Blames (fun e => e.onVaryings = false) m) : Agrees stage s m m :=
  .inl ⟨rfl, fun e he => hm s e _ (Prod.ext he rfl)⟩

theorem Agrees.pure (a : α) : Agrees stage s (Pure.pure a : Check α) (Pure.pure a) := .same (blames_pure a)

theorem Agrees.refuse {cause : Cause} {span : Span} (h : cause.onVaryings = false) :
    Agrees stage s (Check.refuse cause span : Check α) (Check.refuse cause span) :=
  .same (blames_refuse h)

theorem Agrees.guard {c : Prop} [Decidable c] {cause : Cause} {span : Span} {k k' : β → Check α} {m lax : Check α}
    (hcause : cause.onVaryings = false) (h : Agrees stage s m lax) :
    Agrees stage s (if c then Check.refuse cause span >>= k else m)
      (if c then Check.refuse cause span >>= k' else lax) := by
  split
  · simp only [refuse_bind]
    exact .refuse hcause
  · exact h

theorem Agrees.bind {m lax : Check α} {f lax' : α → Check β} (hm : Agrees stage s m lax)
    (hf : ∀ a s₁, Gives m s a s₁ → Agrees stage s₁ (f a) (lax' a))
    (hgains : ∀ a s₁, Gives lax s a s₁ → Keeps Gains (lax' a)) :
    Agrees stage s (m >>= f) (lax >>= lax') := by
  unfold Agrees
  rw [outcome_bind, outcome_bind]
  rcases hm with ⟨heq, herr⟩ | ⟨e, he, hbreaks⟩
  · rw [← heq]
    rcases ho : m.outcome s with ⟨r, s₁⟩
    cases r with
    | error e =>
      refine .inl ⟨rfl, fun e' he' => herr e' ?_⟩
      obtain rfl : e = e' := Except.error.inj he'
      rw [ho]
    | ok a => exact hf a s₁ ho
  · right
    refine ⟨e, ?_, ?_⟩
    · rcases ho : m.outcome s with ⟨r, s₁⟩
      rw [ho] at he
      cases he
      rfl
    · rcases ho : lax.outcome s with ⟨r, s₁⟩
      rw [ho] at hbreaks
      cases r with
      | error e' => exact hbreaks
      | ok a => exact hbreaks.mono (hgains a s₁ ho s₁)

/-- A step that the rules do not concern changes nothing. -/
theorem Agrees.after {m : Check α} {f lax : α → Check β} (hm : Blames (fun e => e.onVaryings = false) m)
    (hf : ∀ a s₁, Gives m s a s₁ → Agrees stage s₁ (f a) (lax a)) : Agrees stage s (m >>= f) (m >>= lax) := by
  unfold Agrees
  rw [outcome_bind, outcome_bind]
  rcases ho : m.outcome s with ⟨r, s₁⟩
  cases r with
  | error e =>
    refine .inl ⟨rfl, fun e' he' => ?_⟩
    obtain rfl : e = e' := Except.error.inj he'
    exact hm s e s₁ ho
  | ok a => exact hf a s₁ ho

theorem Agrees.get {f lax : Expansion → Check α} (h : Agrees stage s (f s) (lax s)) :
    Agrees stage s (MonadState.get >>= f) (MonadState.get >>= lax) := by
  refine .after (fun _ _ _ h => by cases h) fun t s₁ ht => ?_
  obtain ⟨rfl, rfl⟩ := gives_get.1 ht
  exact h

/-- Steps that look names up agree as the look-ups do. -/
theorem Asks.agrees {top : TopLevel} {vars : Scope Var} {names : List Ident} {m : Globals → Check α} {g lax : Globals}
    (h : Asks (fun _ => True) names m) (hg : ∀ x span s, Sound top vars s → Agrees stage s (g x span) (lax x span))
    (hsound : ∀ x span, Keeps (StaysSound top vars) (g x span)) (hgains : ∀ x span, Keeps Gains (lax x span))
    (hs : Sound top vars s) : Agrees stage s (m g) (m lax) := by
  induction h generalizing s with
  | still hm => exact .same fun s e s' ho => (hm.blames s e s' ho).plain.not_onVaryings
  | @refuse _ names cause span hc _ =>
    have hplain : (Fault.refused ⟨cause, span⟩).Plain := hc
    exact .refuse hplain.not_onVaryings
  | @ask _ _ x span _ _ _ hf ihf =>
    refine .bind (hg x span s hs) (fun info s₁ hx => ihf info ((hsound x span).of_gives hx hs)) fun info _ _ => ?_
    exact (hf info).keeps frame_gains fun y _ => hgains y
  | bind hm hf ihm ihf =>
    refine .bind (ihm hs) (fun a s₁ ha => ihf a ⟨_, _, _, ha⟩ ?_) fun a s₁ ha => ?_
    · exact (hm.keeps (frame_staysSound top vars) fun x _ => hsound x).of_gives ha hs
    · exact (hf a ⟨_, _, _, ha⟩).keeps frame_gains fun x _ => hgains x

end Agrees

section Openings

variable {top : TopLevel} {vars : Scope Var} {stage : Stage} {s : Expansion}

theorem staysSound_globals (n : Nat) (u : Unfinished) (x : Ident) (span : Span) :
    Keeps (StaysSound top vars) (globals top vars n u x span) := fun s => (advance_globals top vars n u x span s).2

/-- A function that is opened without the rule and breaks it can be seen to do so. -/
theorem mixes_of_laxFn {k : Nat} {u : Unfinished} {d : FnDecl} {f : FnDef} {s₁ : Expansion} (hs : Sound top vars s)
    (hclosed : s.fn? d.name = none) (h : Gives (laxFn (globals top vars k (u.addFn d.name)) d) s f s₁)
    (hreads : f.deps.readsVaryings = true) (hwrites : f.deps.writesVaryings = true) :
    Mixes (s₁.addFn f).fns d.name := by
  have hk := advance_globals top vars k (u.addFn d.name)
  have hadv := (keeps_laxFn (frame_advance top vars _) hk d).of_gives h
  have hname : f.name = d.name := by
    obtain ⟨result, s₂, scope, ps, s₃, body, -, -, -, rfl⟩ := gives_laxFn h
    rfl
  have hsound : Sound top vars (s₁.addFn f) := by
    refine (hadv.2 hs).addFn ?_ (exact_of_laxFn h) (known_of_laxFn hk hs h)
    rw [hname]
    exact hadv.1.fns_ne hclosed
  have hdeps : DepsExact (s₁.addFn f).fns f := hsound.depsExact (mem_append_right _ mem_cons_self)
  rw [← hname]
  exact ⟨hdeps.varyingsRead.1 hreads, hdeps.varyingsWritten.1 hwrites⟩

section Inside

variable {k : Nat} (hk : ∀ u x span s, Sound top vars s →
  Agrees stage s (globals top vars k u x span) (globalsBy .lax top vars k u x span))
include hk

theorem agrees_openFn (hs : Sound top vars s) (u : Unfinished) (d : FnDecl) (span : Span) :
    Agrees stage s (openFn (globals top vars k) u d span) (openFnBy .lax (globalsBy .lax top vars k) u d span) := by
  refine .get ?_
  cases hclosed : s.fn? d.name with
  | some f => exact .pure f
  | none =>
    refine .guard rfl ?_
    rw [fn_eq_laxFn, bind_assoc]
    refine .bind ?_ (fun f s₁ hf => ?_) fun f _ _ => ?_
    · exact (asks_laxFn (.any (.decl (.fn d)))).agrees (hk _) (staysSound_globals k _) (gains_globalsBy k _) hs
    · by_cases hboth : (f.deps.readsVaryings && f.deps.writesVaryings) = true
      · obtain ⟨hreads, hwrites⟩ := Bool.and_eq_true_iff.1 hboth
        simp only [hboth, if_true, refuse_bind]
        exact .inr ⟨_, rfl, .mixes (mixes_of_laxFn hs hclosed hf hreads hwrites)⟩
      · simp only [hboth]
        exact .same fun _ _ _ h => by cases h
    · exact fun s => subset_append_left _ _

theorem agrees_openStruct (hs : Sound top vars s) (u : Unfinished) (d : StructDecl) (span : Span) :
    Agrees stage s (openStruct (globals top vars k) u d span)
      (openStructBy .lax (globalsBy .lax top vars k) u d span) := by
  refine .get ?_
  cases s.struct? d.name with
  | some f => exact .pure f
  | none =>
    refine .guard rfl (.bind ?_ (fun f s₁ hf => ?_) fun f _ _ => ?_)
    · exact (asks_struct (.any (.decl (.struct d)))).agrees (hk _) (staysSound_globals k _) (gains_globalsBy k _) hs
    · exact .same fun _ _ _ h => by cases h
    · exact fun s => List.Subset.refl _

end Inside

/-- Looking a name up comes to the same until a rule is broken. -/
theorem agrees_globals (n : Nat) (u : Unfinished) (x : Ident) (span : Span) (s : Expansion) (hs : Sound top vars s) :
    Agrees stage s (globals top vars n u x span) (globalsBy .lax top vars n u x span) := by
  induction n generalizing u x span s with
  | zero => exact .pure _
  | succ k ih =>
    simp only [globals, resolve, globalsBy]
    cases vars.lookup? x with
    | some v => exact .pure _
    | none =>
      cases top.fn? x with
      | some d =>
        exact .bind (agrees_openFn ih hs u d span) (fun f _ _ => .pure _) fun f _ _ => keeps_pure frame_gains _
      | none =>
        cases top.struct? x with
        | some d =>
          exact .bind (agrees_openStruct ih hs u d span) (fun f _ _ => .pure _) fun f _ _ => keeps_pure frame_gains _
        | none => exact .pure _

theorem agrees_interfaceVars (hs : Sound top vars s) (ds : List (TypedName × VarKind)) :
    Agrees stage s (interfaceVars top vars ds) (interfaceVarsBy (laxMethod top) vars ds) := by
  induction ds generalizing vars s with
  | nil => exact .pure _
  | cons d ds ih =>
    obtain ⟨d, kind⟩ := d
    have hstays : ∀ x span, Keeps (StaysSound top vars) (globals top vars top.depth {} x span) :=
      staysSound_globals _ _
    refine .bind ?_ (fun ty s₁ hty => ?_) fun ty _ _ => ?_
    · exact (asks_tyExpr .nil (.any (.ty d.ty))).agrees (agrees_globals _ _) hstays (gains_globalsBy _ _) hs
    · have hs₁ := (keeps_tyExpr (frame_staysSound top vars) hstays d.ty).of_gives hty hs
      cases hcause : kind.refusal? d.name ty with
      | some cause =>
        have hplain : (Fault.refused ⟨cause, d.ty.span⟩).Plain := isPlain_of_refusal? hcause
        exact .refuse hplain.not_onVaryings
      | none =>
        dsimp only
        refine .after ((still_bindName (P := fun _ => True) _ _ _ trivial).blames.mono fun e he => he.plain.not_onVaryings) ?_
        intro vars' s₂ hbind
        obtain ⟨hinsert, rfl⟩ := gives_bindName.1 hbind
        refine .bind (ih (hs₁.insert (known_of_tyExpr hty) hinsert)) (fun r _ _ => .pure _) fun r _ _ => ?_
        exact keeps_pure frame_gains _
    · split
      · exact keeps_refuse frame_gains _ _
      · refine keeps_bind frame_gains (keeps_bindName frame_gains _ _ _ _) fun vars' => ?_
        exact keeps_bind frame_gains (gains_interfaceVarsBy ds) fun r => keeps_pure frame_gains _

/-- The function of a stage does what the stage forbids if and only if its needs show it. -/
theorem oversteps_iff {f : FnDef} (hs : Sound top vars s) (hf : f ∈ s.fns) (hname : f.name = stage.entryPoint) :
    Oversteps s.fns stage ↔ stage.excludes f.deps = true := by
  have hdeps := hs.depsExact hf
  unfold Oversteps
  rw [← hname]
  cases stage with
  | vertex => exact hdeps.varyingsRead.symm
  | fragment => exact hdeps.varyingsWritten.symm

theorem agrees_entry (hs : Sound top vars s) (stage : Stage) :
    Agrees stage s (entry top vars stage) (laxEntry top vars stage) := by
  unfold entry laxEntry
  cases hd : top.fn? stage.entryPoint with
  | none => exact .refuse rfl
  | some d =>
    have hname : d.name = stage.entryPoint := by simpa using find?_some hd
    refine .guard rfl (.bind (agrees_openFn (agrees_globals _) hs {} d d.span) (fun f s₁ hf => .guard rfl ?_) ?_)
    · have hopens := keeps_openFn (openFrame_advance top vars) (keeps_globals (openFrame_advance top vars) top.depth) {}
        (mem_of_find?_eq_some hd) d.span
      obtain ⟨hmem, hfound⟩ := found_of_openFn hf
      have hover := oversteps_iff ((hopens.of_gives hf).2 hs) hmem (hfound.trans hname)
      cases stage with
      | vertex =>
        by_cases hreads : f.deps.readsVaryings = true
        · simp only [hreads, if_true, refuse_bind, hname]
          exact .inr ⟨_, rfl, .oversteps (hover.2 hreads)⟩
        · simp only [hreads]
          exact .pure f
      | fragment =>
        by_cases hwrites : f.deps.writesVaryings = true
        · simp only [hwrites, if_true, refuse_bind, hname]
          exact .inr ⟨_, rfl, .oversteps (hover.2 hwrites)⟩
        · simp only [hwrites]
          exact .pure f
    · exact fun f _ _ => keeps_guard frame_gains (keeps_pure frame_gains f)

end Openings

section Programs

variable {builtins : Builtins} {shared : Bool} {decls : List Decl}

theorem agrees_vertexPart (builtins : Builtins) (decls : List Decl) :
    Agrees .vertex {} (vertexPart builtins decls) (laxVertexPart builtins decls) := by
  unfold vertexPart laxVertexPart vertexPartBy
  cases firstRedefined? [] decls with
  | some d => exact .refuse rfl
  | none =>
    have hstart := sound_start (.ofDecls builtins decls)
    refine .bind (agrees_interfaceVars hstart _) (fun r s₁ hr => ?_) fun r _ _ => ?_
    · have hs₁ := sound_interfaceVars hstart (interfaceOrder decls)
      rw [show (interfaceVars (.ofDecls builtins decls) .empty (interfaceOrder decls)).outcome {} = (.ok r, s₁) from hr]
        at hs₁
      exact .bind (agrees_entry hs₁ .vertex) (fun f _ _ => .pure _) fun f _ _ => keeps_pure frame_gains _
    · exact keeps_bind frame_gains (gains_laxEntry .vertex) fun f => keeps_pure frame_gains _

theorem agrees_fragmentPart {v : VertexPart} {s : Expansion} (hs : Sound (.ofDecls builtins decls) v.scope s) :
    Agrees .fragment s (fragmentPart builtins shared decls v)
      (fragmentPartBy (laxMethod (.ofDecls builtins decls)) shared v) := by
  have hentry {s₁ : Expansion} {k : FnDef → Check Program} (hs₁ : Sound (.ofDecls builtins decls) v.scope s₁)
      (hk : ∀ f, Blames (fun e => e.onVaryings = false) (k f)) (hgains : ∀ f, Keeps Gains (k f)) :
      Agrees .fragment s₁ (entry (.ofDecls builtins decls) v.scope .fragment >>= k)
        (laxEntry (.ofDecls builtins decls) v.scope .fragment >>= k) :=
    .bind (agrees_entry hs₁ .fragment) (fun f _ _ => .same (hk f)) fun f _ _ => hgains f
  refine .get (.after (fun _ _ _ h => by cases h) fun _ s₁ hnote => ?_)
  obtain rfl := gives_note.1 hnote
  cases shared with
  | true => exact hentry (hs.note _) (fun f _ _ _ h => by cases h) fun f s => List.Subset.refl _
  | false =>
    refine .after (fun _ _ _ h => by cases h) fun _ s₂ hmodify => ?_
    obtain rfl := gives_modify.1 hmodify
    exact hentry (hs.note _).withoutFns (fun f _ _ _ h => by cases h) fun f s => List.Subset.refl _

/-- Either no rule is broken and both ways of checking come to the same, or the strict one finds a function that
breaks a rule, and one can see it in the functions that the lax one opens for that stage. -/
theorem program_cases (builtins : Builtins) (shared : Bool) (decls : List Decl) :
    ((vertexPart builtins decls).outcome {} = (laxVertexPart builtins decls).outcome {} ∧
      (program builtins shared decls).outcome {} = (laxProgram builtins shared decls).outcome {} ∧
      ∀ e, ((program builtins shared decls).outcome {}).1 = .error e → e.onVaryings = false) ∨
    ∃ e, ((program builtins shared decls).outcome {}).1 = .error e ∧
      (e.Breaks .vertex ((laxVertexPart builtins decls).outcome {}).2.fns ∨
        e.Breaks .fragment ((laxProgram builtins shared decls).outcome {}).2.fns) := by
  rw [program_eq, laxProgram, outcome_bind, outcome_bind]
  rcases agrees_vertexPart builtins decls with ⟨heq, herr⟩ | ⟨e, he, hbreaks⟩
  · rw [← heq]
    rcases ho : (vertexPart builtins decls).outcome {} with ⟨r, s⟩
    cases r with
    | error e =>
      refine .inl ⟨rfl, rfl, fun e' he' => ?_⟩
      obtain rfl : e = e' := Except.error.inj he'
      exact herr e (by rw [ho])
    | ok v =>
      have hs := sound_vertexPart builtins decls
      rw [ho] at hs
      rcases agrees_fragmentPart hs with ⟨heq', herr'⟩ | ⟨e, he, hbreaks⟩
      · exact .inl ⟨rfl, heq', herr'⟩
      · exact .inr ⟨e, he, .inr hbreaks⟩
  · refine .inr ⟨e, ?_, .inl hbreaks⟩
    rcases ho : (vertexPart builtins decls).outcome {} with ⟨r, s⟩
    rw [ho] at he
    cases he
    rfl

end Programs

section Obeys

variable {top : TopLevel} {vars : Scope Var} {stage : Stage} {s s' : Expansion} {f : FnDef}

/-- The function of a stage has been opened and the rules for varyings are kept. -/
structure Obeys (top : TopLevel) (vars : Scope Var) (stage : Stage) (s : Expansion) (f : FnDef) : Prop
    extends StageEnd top vars stage s f where
  opened : FnsOpened top vars s
  inBounds : stage.excludes f.deps = false

theorem obeys_of_entry (h : Gives (entry top vars stage) s f s') (hend : StageEnd top vars stage s' f)
    (hopened : FnsOpened top vars s') : Obeys top vars stage s' f where
  toStageEnd := hend
  opened := hopened
  inBounds := by
    obtain ⟨d, -, -, -, -, hvertex, hfragment⟩ := gives_entry h
    cases stage with
    | vertex => exact hvertex rfl
    | fragment => exact hfragment rfl

namespace Obeys

theorem not_oversteps (h : Obeys top vars stage s f) : ¬ Oversteps s.fns stage := by
  rw [oversteps_iff h.sound h.mem h.name, h.inBounds]
  exact Bool.false_ne_true

theorem not_mixes (h : Obeys top vars stage s f) (g : Ident) : ¬ Mixes s.fns g := by
  rintro ⟨⟨x, hx⟩, y, hy⟩
  obtain ⟨d, hd, rfl⟩ : ∃ d ∈ s.fns, d.name = g := by
    obtain ⟨d, hd, hpath, -⟩ := hx
    rcases hpath.cases_head with rfl | ⟨_, ⟨d', hd', hname, -⟩, -⟩
    · exact ⟨d, hd, rfl⟩
    · exact ⟨d', hd', hname⟩
  have hdeps := h.sound.depsExact hd
  obtain ⟨decl, -, n, u, s₀, s₁, hfn⟩ := h.opened.origin hd
  exact (gives_fn_iff.1 hfn).2 ⟨hdeps.varyingsRead.2 ⟨x, hx⟩, hdeps.varyingsWritten.2 ⟨y, hy⟩⟩

/-- No function of the stage does what the stage forbids. -/
theorem not_mem_uses (h : Obeys top vars stage s f) {i : Interface} {d : FnDef}
    (hd : d ∈ (StageUnit.ofEntry i s stage f).fns) (x : Ident) : stage.forbids x ∉ d.uses := by
  intro huse
  obtain ⟨hmem, hpath⟩ := h.toStageEnd.mem_fns_iff.1 hd
  exact h.not_oversteps ⟨x, d, hmem, h.name ▸ hpath, huse⟩

end Obeys

end Obeys

end Check

/-- The declarations among which those of a stage's functions are. -/
def Program.itemsFor (p : Program) (shared : Bool) : Stage → List Item
  | .vertex => p.vertex.items
  | .fragment => if shared then p.vertex.items ++ p.fragment.items else p.fragment.items

/-- The needs of the function of a stage. -/
def Program.depsOf (p : Program) : Stage → Deps
  | .vertex => p.vertexDeps
  | .fragment => p.fragmentDeps

namespace Check

variable {builtins : Builtins} {shared : Bool} {decls : List Decl} {p : Program} {s' : Expansion}

/-- In an accepted shader the functions of both stages keep the rules. -/
theorem obeys_of_program (h : Gives (program builtins shared decls) {} p s') :
    ∃ v s f s₂, Gives (vertexPart builtins decls) {} v s ∧ s'.fns = s₂.fns ∧
      Obeys (.ofDecls builtins decls) v.scope .vertex s v.entry ∧
      Obeys (.ofDecls builtins decls) v.scope .fragment s₂ f ∧
      p.vertex = .ofEntry p.interface s .vertex v.entry ∧ p.fragmentDeps = f.deps ∧
      (shared = true → s.fns ⊆ s₂.fns) ∧ p.fragment.fns ⊆ (StageUnit.ofEntry p.interface s₂ .fragment f).fns := by
  obtain ⟨a, s₁, hv, hstructs, hfns, hf, -, hend⟩ := exists_accepted h
  obtain ⟨hopened, hopened', -⟩ := fnsOpened_of_parts hv hstructs hfns hf
  obtain ⟨s₀, -, -, hentry⟩ := gives_vertexPart hv
  refine ⟨_, a.vertexEnd, a.fragmentFn, a.fragmentEnd, hv, hend, obeys_of_entry hentry a.atVertex hopened,
    obeys_of_entry hf a.atFragment hopened', a.vertex, a.fragmentDeps, ?_, ?_⟩
  · rintro rfl g hg
    exact ((advance_entry _ _ _).of_gives hf).1.mem_fns (by rwa [hfns])
  · rw [a.fragment]
    split
    · exact fun g hg => (mem_filter.1 hg).1
    · exact List.Subset.refl _

/-- Where a shader is accepted, the functions of a stage do not do what it forbids. -/
theorem rules_of_program (h : Gives (program builtins shared decls) {} p s') (stage : Stage) {f : FnDef}
    (hf : .fn f ∈ p.itemsFor shared stage) (hstage : StageFns stage (p.depsOf stage) f.name) (x : Ident) :
    stage.forbids x ∉ f.uses := by
  obtain ⟨v, s, entry, s₂, -, -, hvertex, hfragment, hunit, hdeps, hshared, hsubset⟩ := obeys_of_program h
  cases stage with
  | vertex =>
    rw [Program.itemsFor, StageUnit.fn_mem_items, hunit] at hf
    exact hvertex.not_mem_uses hf x
  | fragment =>
    have hmem : f ∈ s₂.fns := by
      cases shared with
      | true =>
        rcases mem_append.1 hf with hf | hf
        · rw [StageUnit.fn_mem_items, hunit] at hf
          exact hshared rfl (mem_filter.1 hf).1
        · exact (mem_filter.1 (hsubset (StageUnit.fn_mem_items.1 hf))).1
      | false => exact (mem_filter.1 (hsubset (StageUnit.fn_mem_items.1 hf))).1
    have hin : f ∈ (StageUnit.ofEntry p.interface s₂ .fragment entry).fns := by
      refine mem_filter.2 ⟨hmem, ?_⟩
      rw [Program.depsOf, hdeps] at hstage
      rw [Bool.or_eq_true, beq_iff_eq, hfragment.name]
      exact hstage
    exact hfragment.not_mem_uses hin x

/-- Every function of a stage is among the declarations for it. -/
theorem Accepted.declares_stageFns {top : TopLevel} (a : Accepted top shared p) (stage : Stage) {g : Ident}
    (hg : StageFns stage (p.depsOf stage) g) : g ∈ fnNames (p.itemsFor shared stage) := by
  cases stage with
  | vertex => exact (a.vertex_declares.fns g).2 hg
  | fragment =>
    cases shared with
    | true => exact (a.both_declare.fns g).2 (.inr hg)
    | false => exact (a.fragment_declares.fns g).2 hg

end Check

/-- The rules for varyings hold of what is emitted, and only shaders that break them are refused for them. In the
texts of an accepted shader no function of the vertex stage reads a varying and none of the fragment stage writes
one. A shader that is accepted without the rules is refused for no other reason; and one that has no other error
is refused if and only if a function opened for it, with those that it reaches by calls, reads and writes varyings
in the code that is left, or the function of the vertex stage reads one or that of the fragment stage writes one. -/
theorem emit_stage_rules (d : Dialect) (extra : Builtins) (decls : List Decl) :
    let builtins := Builtin.defaults ++ extra
    let vertexFns := ((Check.laxVertexPart builtins decls).outcome {}).2.fns
    let fns := ((Check.laxProgram builtins d.sharesDecls decls).outcome {}).2.fns
    (∀ c, (emit d extra decls).1 = .ok c → ∃ p, (Program.check builtins d.sharesDecls decls).1 = .ok p ∧
      c = p.write d ∧
      d.IsText .vertex c.interface.varyings p.vertex.items c.vertexText ∧
      d.IsText .fragment c.interface.varyings p.fragment.items c.fragmentText ∧
      ∀ stage g, StageFns stage (p.depsOf stage) g → g ∈ fnNames (p.itemsFor d.sharesDecls stage) ∧
        ∀ f, .fn f ∈ p.itemsFor d.sharesDecls stage → f.name = g → ∀ x, stage.forbids x ∉ f.uses) ∧
    ((∃ p, ((Check.laxProgram builtins d.sharesDecls decls).outcome {}).1 = .ok p) →
      ∀ e, (emit d extra decls).1 = .error e → e.onVaryings = true) ∧
    ((∀ e, (emit d extra decls).1 = .error e → e.onVaryings = true) →
      ((∃ e, (emit d extra decls).1 = .error e ∧ e.onVaryings = true) ↔
        (∃ f, Mixes vertexFns f ∨ Mixes fns f) ∨ Oversteps vertexFns .vertex ∨ Oversteps fns .fragment)) := by
  intro builtins vertexFns fns
  refine ⟨fun c hc => ?_, fun hlax e he => ?_, fun honly => ⟨fun ⟨e, he, hvaryings⟩ => ?_, fun hbroken => ?_⟩⟩
  · obtain ⟨p, hp, rfl, ⟨a⟩⟩ := accepted_of_emit_ok hc
    obtain ⟨s', hgives⟩ := Check.gives_of_check hp
    refine ⟨p, hp, rfl, a.isText_vertex d, a.isText_fragment d, fun stage g hg => ⟨a.declares_stageFns stage hg, ?_⟩⟩
    rintro f hf rfl x
    exact Check.rules_of_program hgives stage hf hg x
  · obtain ⟨s', ho⟩ := outcome_of_emit_error he
    rcases Check.program_cases builtins d.sharesDecls decls with ⟨-, heq, -⟩ | ⟨e', he', hbreaks⟩
    · obtain ⟨p, hp⟩ := hlax
      rw [← heq, ho] at hp
      cases hp
    · rw [ho] at he'
      cases he'
      exact hbreaks.elim Fault.Breaks.onVaryings Fault.Breaks.onVaryings
  · obtain ⟨s', ho⟩ := outcome_of_emit_error he
    rcases Check.program_cases builtins d.sharesDecls decls with ⟨-, -, hnone⟩ | ⟨e', he', hbreaks⟩
    · rw [hnone e (by rw [ho])] at hvaryings
      cases hvaryings
    · rcases hbreaks with hbreaks | hbreaks
      · cases hbreaks with
        | mixes hmixes => exact .inl ⟨_, .inl hmixes⟩
        | oversteps hover => exact .inr (.inl hover)
      · cases hbreaks with
        | mixes hmixes => exact .inl ⟨_, .inr hmixes⟩
        | oversteps hover => exact .inr (.inr hover)
  · cases hemit : (emit d extra decls).1 with
    | error e => exact ⟨e, rfl, honly e hemit⟩
    | ok c =>
      obtain ⟨p, hp, -, -⟩ := accepted_of_emit_ok hemit
      obtain ⟨s', hgives⟩ := Check.gives_of_check hp
      obtain ⟨v, s, f, s₂, hv, hend, hvertex, hfragment, -⟩ := Check.obeys_of_program hgives
      have hrun : (Check.program builtins d.sharesDecls decls).outcome {} = (.ok p, s') := hgives
      rcases Check.program_cases builtins d.sharesDecls decls with ⟨hpart, hwhole, -⟩ | ⟨e, he, -⟩
      · have hvertexFns : vertexFns = s.fns := by
          simp only [vertexFns, ← hpart, show (Check.vertexPart builtins decls).outcome {} = (.ok v, s) from hv]
        have hfns : fns = s₂.fns := by
          simp only [fns, ← hwhole, hrun, hend]
        rw [hvertexFns, hfns] at hbroken
        rcases hbroken with ⟨g, hmixes | hmixes⟩ | hover | hover
        · exact absurd hmixes (hvertex.not_mixes g)
        · exact absurd hmixes (hfragment.not_mixes g)
        · exact absurd hover hvertex.not_oversteps
        · exact absurd hover hfragment.not_oversteps
      · rw [hrun] at he
        cases he

/-- A read of a varying in the vertex stage, two calls deep: in code that is left out it is accepted, in code that is
kept it is refused. -/
theorem hidden_read_is_refused_where_kept :
    let vec4 : TyExpr := .keyword (.vector .float .four) .unset
    let shade : Expr := .var "shade" .unset
    let one : Expr := .construct (.vector .float .four) [.lit (.int 1) .unset] .unset
    let write : Stmt := .exprStmt (.bin .assign (.member shade "x" .unset) (.member one "y" .unset) .unset) .unset
    let call (f : Ident) : Stmt := .returnStmt (some (.call f [] .unset)) .unset
    let fn (f : Ident) (body : List Stmt) : Decl := .fn ⟨f, [], some vec4, .mk body .unset, .unset⟩
    let decls (test : Bool) : List Decl := [.varyingVar ⟨"shade", vec4, .unset⟩,
      fn "vertex" [.ifStmt (.lit (.bool test) .unset) (.mk [call "outer"] .unset) (some (.mk [write] .unset)) .unset,
        .returnStmt (some one) .unset],
      fn "outer" [call "inner"], fn "inner" [.returnStmt (some shade) .unset], fn "fragment" [call "outer"]]
    let vertexFns := ((Check.laxVertexPart (Builtin.defaults ++ []) (decls true)).outcome {}).2.fns
    let fns := ((Check.laxProgram (Builtin.defaults ++ []) (Glsl.dialect {}).sharesDecls (decls true)).outcome {}).2.fns
    (∃ (c : Compiled) (p : Program),
      (emit (Glsl.dialect {}) [] (decls false)).1 = .ok c ∧ c = p.write (Glsl.dialect {}) ∧
      ∀ stage g, StageFns stage (p.depsOf stage) g → g ∈ fnNames (p.itemsFor (Glsl.dialect {}).sharesDecls stage) ∧
        ∀ f, .fn f ∈ p.itemsFor (Glsl.dialect {}).sharesDecls stage → f.name = g → ∀ x, stage.forbids x ∉ f.uses) ∧
    (emit (Glsl.dialect {}) [] (decls true)).1 = .error (.refused ⟨.readsVaryings "vertex", .unset⟩) ∧
    ((∃ f, Mixes vertexFns f ∨ Mixes fns f) ∨ Oversteps vertexFns .vertex ∨ Oversteps fns .fragment) := by
  intro vec4 shade one write call fn decls vertexFns fns
  obtain ⟨p, events, -, h, -⟩ := emit_of_check
    (show (Program.check (Builtin.defaults ++ []) (Glsl.dialect {}).sharesDecls (decls false)).1.toOption.any
      (fun _ => true) = true by decide +kernel)
  have hrefused : (emit (Glsl.dialect {}) [] (decls true)).1 =
      .error (.refused ⟨.readsVaryings "vertex", .unset⟩) := by decide +kernel
  clear_value decls
  refine ⟨?_, hrefused, ?_⟩
  · have hok := congrArg Prod.fst h
    obtain ⟨p', -, heq, -, -, hrules⟩ := (emit_stage_rules (Glsl.dialect {}) [] (decls false)).1 _ hok
    exact ⟨_, p', hok, heq, hrules⟩
  · refine ((emit_stage_rules (Glsl.dialect {}) [] (decls true)).2.2 fun e he => ?_).1 ⟨_, hrefused, rfl⟩
    rw [hrefused] at he
    cases he
    rfl

/-- Code that writes varyings is excluded from one stage and not from the other. -/
example : Stage.all.map (·.excludes { writesVaryings := true }) = [false, true] := by decide +kernel

end Shading
