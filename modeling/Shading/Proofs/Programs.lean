import Shading.Proofs.Resolution

/-!
# Runs over whole shaders

Checking a shader has two parts, with the opened functions given up between them unless both stages share
them: the interface and the vertex stage, and then the fragment stage. The expansions at the end of both
parts are sound, for every shader and whether or not it is accepted.
-/

namespace Shading

open List

/-- The functions and structs that a shader declares, with the builtin functions it may call. -/
def TopLevel.ofDecls (builtins : Builtins) (decls : List Decl) : TopLevel :=
  ⟨decls.filterMap Decl.fn?, decls.filterMap Decl.struct?, builtins⟩

variable {x : Ident} {s' : Expansion}

section Sound

variable {top : TopLevel} {vars : Scope Var} {s : Expansion}

theorem extends_insert? {vars' : Scope Var} {v : Var} (h : vars.insert? x v = some vars') :
    Extends vars vars' := by
  intro y w hw
  rw [Scope.lookup?_insert? h]
  split
  · rename_i hy
    subst hy
    unfold Scope.insert? at h
    simp [Scope.contains, hw] at h
  · exact hw

theorem Sound.insert {vars' : Scope Var} {ty : Ty} {kind : VarKind} (h : Sound top vars s)
    (hty : AllKnown top vars s ty.uses) (hinsert : vars.insert? x ⟨ty, kind⟩ = some vars') :
    Sound top vars' s where
  fns := h.fns.mono fun _ _ ⟨hname, hcovers, hf⟩ => ⟨hname, hcovers, fun u hu =>
    (hf u hu).mono (extends_insert? hinsert) (List.Subset.refl _) (List.Subset.refl _)⟩
  structs := h.structs.mono fun _ _ ⟨hname, hd⟩ => ⟨hname, fun u hu =>
    (hd u hu).mono (extends_insert? hinsert) (List.Subset.refl _) (List.Subset.refl _)⟩
  vars y v hv := by
    rw [Scope.lookup?_insert? hinsert] at hv
    split at hv
    · cases hv
      exact known_of_types hty
    · exact known_of_types (h.vars y v hv)

/-- Only the functions and structs of an expansion matter. -/
theorem Sound.of_eq (h : Sound top vars s) (hstructs : s'.structs = s.structs)
    (hfns : s'.fns = s.fns) : Sound top vars s' where
  fns := by
    rw [hstructs, hfns]
    exact h.fns
  structs := by
    rw [hstructs]
    exact h.structs
  vars x v hv := by
    unfold AllKnown
    rw [hstructs, hfns]
    exact h.vars x v hv

/-- Giving up the functions keeps the rest sound. -/
theorem Sound.withoutFns (h : Sound top vars s) : Sound top vars { s with fns := [] } where
  fns := InOrder.nil
  structs := h.structs
  vars x v hv := known_of_types (h.vars x v hv)

end Sound

namespace Interface

theorem mem_varsOf {q : VarKind → Bool} {vars : List (Ident × Var)} {ty : Ty} :
    (x, ty) ∈ varsOf q vars ↔ ∃ kind, q kind = true ∧ (x, ⟨ty, kind⟩) ∈ vars := by
  simp only [varsOf, mem_map, mem_filter, Prod.mk.injEq]
  constructor
  · rintro ⟨⟨y, ty', kind⟩, ⟨hmem, hq⟩, rfl, rfl⟩
    exact ⟨kind, hq, hmem⟩
  · rintro ⟨kind, hq, hmem⟩
    exact ⟨_, ⟨hmem, hq⟩, rfl, rfl⟩

theorem mem_blockNames {vars : List (Ident × Var)} {b : Ident} :
    b ∈ blockNames vars ↔ ∃ x ty, (x, ⟨ty, .uniformVar b⟩) ∈ vars := by
  simp only [blockNames, mem_eraseDups, mem_filterMap]
  constructor
  · rintro ⟨⟨x, ty, kind⟩, hmem, hb⟩
    cases kind <;> simp [blockOf?] at hb
    exact ⟨x, ty, hb ▸ hmem⟩
  · rintro ⟨x, ty, hmem⟩
    exact ⟨_, hmem, rfl⟩

end Interface

namespace Check

/-- What the first part of checking finds: the interface variables, as a scope and in their order, and the
function of the vertex stage. -/
structure VertexPart where
  scope : Scope Var
  vars : List (Ident × Var)
  entry : FnDef

/-- The first part: the interface and the vertex stage. -/
def vertexPart (builtins : Builtins) (decls : List Decl) : Check VertexPart := do
  match firstRedefined? [] decls with
  | some d => refuse (.redefined d.name) d.span
  | none =>
    let top := TopLevel.ofDecls builtins decls
    let (scope, vars) ← interfaceVars top .empty (interfaceOrder decls)
    let f ← entry top scope .vertex
    return ⟨scope, vars, f⟩

/-- The second part: the fragment stage. -/
def fragmentPart (builtins : Builtins) (shared : Bool) (decls : List Decl) (v : VertexPart) : Check Program := do
  let interface := Interface.ofVars v.vars
  let vertex := StageUnit.ofEntry interface (← get) .vertex v.entry
  note vertex.event
  if !shared then modify fun s => { s with fns := [] }
  let f ← entry (TopLevel.ofDecls builtins decls) v.scope .fragment
  let whole := StageUnit.ofEntry interface (← get) .fragment f
  let fragment := if shared then whole.without vertex else whole
  note fragment.event
  return ⟨interface, v.entry.deps, f.deps, vertex, fragment⟩

theorem program_eq (builtins : Builtins) (shared : Bool) (decls : List Decl) :
    program builtins shared decls = vertexPart builtins decls >>= fragmentPart builtins shared decls := by
  unfold program vertexPart
  cases firstRedefined? [] decls with
  | some d => rfl
  | none =>
    simp only [bind_assoc, pure_bind]
    rfl

section Interface

variable {top : TopLevel} {vars : Scope Var} {s : Expansion}

theorem sound_start (top : TopLevel) : Sound top .empty {} where
  fns := InOrder.nil
  structs := InOrder.nil
  vars := nofun

/-- Checking the interface leaves a sound expansion, for the variables bound so far if it fails. -/
theorem sound_interfaceVars (hs : Sound top vars s) (ds : List (TypedName × VarKind)) :
    match (interfaceVars top vars ds).outcome s with
    | (.ok r, s') => Sound top r.1 s'
    | (.error _, s') => ∃ vars', Sound top vars' s' := by
  induction ds generalizing vars s with
  | nil => exact hs
  | cons d ds ih =>
    obtain ⟨d, kind⟩ := d
    simp only [interfaceVars, outcome_bind]
    have hkeeps : Keeps (Advance top vars {}) (tyExpr ⟨[], globals top vars top.depth {}⟩ d.ty) :=
      keeps_tyExpr (frame_advance top vars {}) (advance_globals top vars _ _) d.ty
    have hadv := hkeeps s
    rcases ho : (tyExpr ⟨[], globals top vars top.depth {}⟩ d.ty).outcome s with ⟨r, s₁⟩
    rw [ho] at hadv
    have hs₁ := hadv.2 hs
    cases r with
    | error e => exact ⟨vars, hs₁⟩
    | ok ty =>
      have hty : AllKnown top vars s₁ ty.uses := known_of_tyExpr ho
      dsimp only
      cases kind.refusal? d.name ty with
      | some cause => exact ⟨vars, hs₁⟩
      | none =>
        simp only [outcome_bind, bindName]
        cases hi : vars.insert? d.name ⟨ty, kind⟩ with
        | none => exact ⟨vars, hs₁⟩
        | some vars' =>
          have hrest := ih (hs₁.insert hty hi)
          simp only [outcome_pure]
          rcases hr : (interfaceVars top vars' ds).outcome s₁ with ⟨r, s₂⟩
          rw [hr] at hrest
          cases r with
          | error e => exact hrest
          | ok r => exact hrest

theorem keeps_entry {R : Unfinished → Expansion → Expansion → Prop} (hR : OpenFrame top vars R) (stage : Stage) :
    Keeps (R {}) (entry top vars stage) := by
  have hF := hR.frame {}
  unfold entry
  split
  · exact keeps_refuse hF _ _
  · rename_i hd
    have hmem := mem_of_find?_eq_some hd
    refine keeps_guard hF ?_
    refine keeps_bind hF (keeps_openFn hR (keeps_globals hR _) {} hmem _) fun f => ?_
    refine keeps_guard hF ?_
    cases stage
    · exact keeps_guard hF (keeps_pure hF _)
    · exact keeps_guard hF (keeps_pure hF _)

theorem advance_entry (top : TopLevel) (vars : Scope Var) (stage : Stage) :
    Keeps (Advance top vars {}) (entry top vars stage) :=
  keeps_entry (openFrame_advance top vars) stage

end Interface

/-- The expansion at the end of the first part is sound. -/
theorem sound_vertexPart (builtins : Builtins) (decls : List Decl) :
    match (vertexPart builtins decls).outcome {} with
    | (.ok v, s) => Sound (.ofDecls builtins decls) v.scope s
    | (.error _, s) => ∃ vars, Sound (.ofDecls builtins decls) vars s := by
  unfold vertexPart
  cases firstRedefined? [] decls with
  | some d => exact ⟨.empty, sound_start _⟩
  | none =>
    simp only [outcome_bind]
    have hvars := sound_interfaceVars (sound_start (.ofDecls builtins decls)) (interfaceOrder decls)
    rcases ho : (interfaceVars (.ofDecls builtins decls) .empty (interfaceOrder decls)).outcome {} with ⟨r, s₁⟩
    rw [ho] at hvars
    cases r with
    | error e => exact hvars
    | ok r =>
      obtain ⟨scope, vars⟩ := r
      have hentry := (advance_entry (.ofDecls builtins decls) scope .vertex s₁).2 hvars
      dsimp only
      rcases he : (entry (.ofDecls builtins decls) scope .vertex).outcome s₁ with ⟨r, s₂⟩
      rw [he] at hentry
      cases r with
      | error e => exact ⟨scope, hentry⟩
      | ok f => exact hentry

theorem exists_sound_vertexPart (builtins : Builtins) (decls : List Decl) :
    ∃ vars, Sound (.ofDecls builtins decls) vars ((vertexPart builtins decls).outcome {}).2 := by
  have hfirst := sound_vertexPart builtins decls
  rcases ho : (vertexPart builtins decls).outcome {} with ⟨r, s⟩
  rw [ho] at hfirst
  cases r with
  | error e => exact hfirst
  | ok v => exact ⟨v.scope, hfirst⟩

/-- A sound expansion stays sound. -/
def StaysSound (top : TopLevel) (vars : Scope Var) (s s' : Expansion) : Prop :=
  Sound top vars s → Sound top vars s'

theorem frame_staysSound (top : TopLevel) (vars : Scope Var) : Frame (StaysSound top vars) :=
  ⟨fun _ hs => hs, fun h₁ h₂ hs => h₂ (h₁ hs), fun _ e hs => hs.note e⟩

theorem keeps_fragmentPart (builtins : Builtins) (shared : Bool) (decls : List Decl) (v : VertexPart) :
    Keeps (StaysSound (.ofDecls builtins decls) v.scope) (fragmentPart builtins shared decls v) := by
  have hF := frame_staysSound (.ofDecls builtins decls) v.scope
  have hentry : Keeps (StaysSound (.ofDecls builtins decls) v.scope)
      (entry (.ofDecls builtins decls) v.scope .fragment) := fun s => (advance_entry _ _ _ s).2
  refine keeps_bind hF (keeps_get hF) fun s => keeps_bind hF (keeps_note hF _) fun _ => ?_
  refine keeps_ite (keeps_bind hF (fun s hs => hs.withoutFns) fun _ => ?_) ?_
  all_goals
    refine keeps_bind hF hentry fun f => ?_
    exact keeps_bind hF (keeps_get hF) fun _ => keeps_bind hF (keeps_note hF _) fun _ => keeps_pure hF _

/-- The expansion that checking a shader leaves is sound, whether or not the shader is accepted. -/
theorem sound_program (builtins : Builtins) (shared : Bool) (decls : List Decl) :
    ∃ vars, Sound (.ofDecls builtins decls) vars ((program builtins shared decls).outcome {}).2 := by
  rw [program_eq, outcome_bind]
  have hfirst := sound_vertexPart builtins decls
  rcases ho : (vertexPart builtins decls).outcome {} with ⟨r, s⟩
  rw [ho] at hfirst
  cases r with
  | error e => exact hfirst
  | ok v => exact ⟨v.scope, keeps_fragmentPart builtins shared decls v s hfirst⟩

variable {top : TopLevel} {vars : Scope Var} {p : Program}

section Accepted

variable {builtins : Builtins} {shared : Bool} {decls : List Decl} {s s' : Expansion}

theorem gives_entry {stage : Stage} {f : FnDef} (h : Gives (entry top vars stage) s f s') :
    ∃ d, top.fn? stage.entryPoint = some d ∧ d.params = [] ∧
      Gives (openFn (globals top vars top.depth) {} d d.span) s f s' ∧ f.result = .vec4 ∧
      (stage = .vertex → f.deps.readsVaryings = false) ∧
      (stage = .fragment → f.deps.writesVaryings = false) := by
  unfold entry at h
  cases hd : top.fn? stage.entryPoint with
  | none => simp [hd] at h
  | some d =>
    simp only [hd, gives_guard, gives_bind, ne_eq, Decidable.not_not] at h
    obtain ⟨hparams, f', s₁, hf, hresult, h⟩ := h
    have hnone : d.params = [] := by simpa using hparams
    cases stage with
    | vertex =>
      simp only [gives_guard, gives_pure, Bool.not_eq_true] at h
      obtain ⟨hreads, rfl, rfl⟩ := h
      exact ⟨d, rfl, hnone, hf, hresult, fun _ => hreads, by simp⟩
    | fragment =>
      simp only [gives_guard, gives_pure, Bool.not_eq_true] at h
      obtain ⟨hwrites, rfl, rfl⟩ := h
      exact ⟨d, rfl, hnone, hf, hresult, by simp, fun _ => hwrites⟩

theorem gives_vertexPart {v : VertexPart} (h : Gives (vertexPart builtins decls) s v s') :
    ∃ s₁, firstRedefined? [] decls = none ∧
      Gives (interfaceVars (.ofDecls builtins decls) .empty (interfaceOrder decls)) s (v.scope, v.vars) s₁ ∧
      Gives (entry (.ofDecls builtins decls) v.scope .vertex) s₁ v.entry s' := by
  unfold vertexPart at h
  cases hr : firstRedefined? [] decls with
  | some d => simp [hr] at h
  | none =>
    simp only [hr, gives_bind, gives_pure] at h
    obtain ⟨⟨scope, vars⟩, s₁, hvars, f, s₂, hf, rfl, rfl⟩ := h
    exact ⟨s₁, rfl, hvars, hf⟩

/-- The fragment stage starts with the structs that are open, and with the functions if they are shared. -/
theorem gives_fragmentPart {v : VertexPart} (h : Gives (fragmentPart builtins shared decls v) s p s') :
    ∃ s₁ f s₂, s₁.structs = s.structs ∧ s₁.fns = (if shared then s.fns else []) ∧
      Gives (entry (.ofDecls builtins decls) v.scope .fragment) s₁ f s₂ ∧
      p.interface = Interface.ofVars v.vars ∧ p.vertexDeps = v.entry.deps ∧ p.fragmentDeps = f.deps ∧
      p.vertex = .ofEntry p.interface s .vertex v.entry ∧
      p.fragment = (if shared then (StageUnit.ofEntry p.interface s₂ .fragment f).without p.vertex
        else .ofEntry p.interface s₂ .fragment f) ∧ s'.structs = s₂.structs ∧ s'.fns = s₂.fns := by
  simp only [fragmentPart, gives_bind, gives_get, gives_note, gives_ite, gives_modify, gives_pure,
    Bool.not_eq_true', Bool.not_eq_false] at h
  obtain ⟨_, _, ⟨rfl, rfl⟩, -, _, rfl, h⟩ := h
  rcases h with ⟨hshared, -, _, rfl, f, s₂, hf, _, _, ⟨rfl, rfl⟩, -, _, rfl, rfl, rfl⟩ |
    ⟨hshared, f, s₂, hf, _, _, ⟨rfl, rfl⟩, -, _, rfl, rfl, rfl⟩
  · refine ⟨_, f, s₂, ?_, ?_, hf, rfl, rfl, rfl, rfl, rfl, rfl, rfl⟩
    · rfl
    · simp [hshared]
  · refine ⟨_, f, s₂, ?_, ?_, hf, rfl, rfl, rfl, rfl, rfl, rfl, rfl⟩
    · rfl
    · simp [hshared, Expansion.note]

theorem gives_interfaceVars_cons {d : TypedName} {kind : VarKind} {ds : List (TypedName × VarKind)}
    {r : Scope Var × List (Ident × Var)} (h : Gives (interfaceVars top vars ((d, kind) :: ds)) s r s') :
    ∃ ty s₁ vars' more, Gives (tyExpr ⟨[], globals top vars top.depth {}⟩ d.ty) s ty s₁ ∧
      vars.insert? d.name ⟨ty, kind⟩ = some vars' ∧
      Gives (interfaceVars top vars' ds) s₁ (r.1, more) s' ∧ r.2 = (d.name, ⟨ty, kind⟩) :: more := by
  simp only [interfaceVars, gives_bind] at h
  obtain ⟨ty, s₁, hty, h⟩ := h
  cases hr : kind.refusal? d.name ty with
  | some cause => simp [hr] at h
  | none =>
    simp only [hr, gives_bind, gives_bindName, gives_pure] at h
    obtain ⟨vars', _, ⟨hinsert, rfl⟩, ⟨last, more⟩, s₂, hrest, rfl, rfl⟩ := h
    exact ⟨ty, _, vars', more, hty, hinsert, hrest, rfl⟩

/-- The scope that is left holds what was there before and the variables that are listed. -/
theorem lookup?_of_interfaceVars {ds : List (TypedName × VarKind)} {r : Scope Var × List (Ident × Var)}
    (h : Gives (interfaceVars top vars ds) s r s') (x : Ident) (v : Var) :
    r.1.lookup? x = some v ↔ vars.lookup? x = some v ∨ (x, v) ∈ r.2 := by
  induction ds generalizing vars s r with
  | nil =>
    simp only [interfaceVars, gives_pure] at h
    obtain ⟨rfl, -⟩ := h
    simp
  | cons d ds ih =>
    obtain ⟨d, kind⟩ := d
    obtain ⟨ty, s₁, vars', more, -, hinsert, hrest, hmore⟩ := gives_interfaceVars_cons h
    have hone : vars'.lookup? x = some v ↔ vars.lookup? x = some v ∨ (x, v) = (d.name, ⟨ty, kind⟩) := by
      constructor
      · intro hx
        rw [Scope.lookup?_insert? hinsert] at hx
        split at hx
        · rename_i hname
          exact .inr (Prod.ext hname (Option.some.inj hx).symm)
        · exact .inl hx
      · rintro (hx | hx)
        · exact extends_insert? hinsert x v hx
        · obtain ⟨rfl, rfl⟩ := Prod.mk.inj hx
          rw [Scope.lookup?_insert? hinsert, if_pos rfl]
    rw [hmore, mem_cons, ← or_assoc, ← hone]
    exact ih hrest

end Accepted

/-- The function of a stage, in the expansion that is left when it has been opened. -/
structure StageEnd (top : TopLevel) (vars : Scope Var) (stage : Stage) (s : Expansion) (f : FnDef) : Prop where
  sound : Sound top vars s
  mem : f ∈ s.fns
  name : f.name = stage.entryPoint

theorem found_of_entry {stage : Stage} {s : Expansion} {f : FnDef}
    (h : Gives (entry top vars stage) s f s') : f ∈ s'.fns ∧ f.name = stage.entryPoint := by
  obtain ⟨d, hd, -, hopen, -⟩ := gives_entry h
  obtain ⟨hmem, hname⟩ := found_of_openFn hopen
  have hdecl : d.name = stage.entryPoint := by simpa using find?_some hd
  exact ⟨hmem, hname.trans hdecl⟩

/-- Where an accepted shader comes from: its interface variables, and for each stage the function and the
expansion that was left when it had been opened. -/
structure Accepted (top : TopLevel) (shared : Bool) (p : Program) where
  scope : Scope Var
  vars : List (Ident × Var)
  vertexEnd : Expansion
  vertexFn : FnDef
  fragmentEnd : Expansion
  fragmentFn : FnDef
  lookup?_iff : ∀ x v, scope.lookup? x = some v ↔ (x, v) ∈ vars
  interface : p.interface = .ofVars vars
  atVertex : StageEnd top scope .vertex vertexEnd vertexFn
  atFragment : StageEnd top scope .fragment fragmentEnd fragmentFn
  vertexDeps : p.vertexDeps = vertexFn.deps
  fragmentDeps : p.fragmentDeps = fragmentFn.deps
  vertex : p.vertex = .ofEntry p.interface vertexEnd .vertex vertexFn
  fragment : p.fragment = if shared
    then (StageUnit.ofEntry p.interface fragmentEnd .fragment fragmentFn).without p.vertex
    else .ofEntry p.interface fragmentEnd .fragment fragmentFn

/-- The runs that an accepted shader comes from. -/
theorem exists_accepted {builtins : Builtins} {shared : Bool} {decls : List Decl}
    (h : Gives (program builtins shared decls) {} p s') :
    ∃ (a : Accepted (.ofDecls builtins decls) shared p) (s₁ : Expansion),
      Gives (vertexPart builtins decls) {} ⟨a.scope, a.vars, a.vertexFn⟩ a.vertexEnd ∧
      s₁.structs = a.vertexEnd.structs ∧ s₁.fns = (if shared then a.vertexEnd.fns else []) ∧
      Gives (entry (.ofDecls builtins decls) a.scope .fragment) s₁ a.fragmentFn a.fragmentEnd ∧
      s'.structs = a.fragmentEnd.structs ∧ s'.fns = a.fragmentEnd.fns := by
  rw [program_eq, gives_bind] at h
  obtain ⟨v, s, hv, hp⟩ := h
  have hs : Sound (.ofDecls builtins decls) v.scope s := by
    have hfirst := sound_vertexPart builtins decls
    rw [show (vertexPart builtins decls).outcome {} = (.ok v, s) from hv] at hfirst
    exact hfirst
  obtain ⟨s₀, -, hvars, hentry⟩ := gives_vertexPart hv
  obtain ⟨hvmem, hvname⟩ := found_of_entry hentry
  obtain ⟨s₁, f, s₂, hstructs, hfns, hf, hinterface, hvdeps, hfdeps, hvertex, hfragment, hend⟩ :=
    gives_fragmentPart hp
  have hs₁ : Sound (.ofDecls builtins decls) v.scope s₁ := by
    cases shared with
    | true => exact hs.of_eq hstructs hfns
    | false => exact hs.withoutFns.of_eq hstructs hfns
  have hs₂ := ((advance_entry _ _ _).of_gives hf).2 hs₁
  obtain ⟨hfmem, hfname⟩ := found_of_entry hf
  let a : Accepted (.ofDecls builtins decls) shared p := {
    scope := v.scope
    vars := v.vars
    vertexEnd := s
    vertexFn := v.entry
    fragmentEnd := s₂
    fragmentFn := f
    lookup?_iff := fun x w => by simpa using lookup?_of_interfaceVars hvars x w
    interface := hinterface
    atVertex := ⟨hs, hvmem, hvname⟩
    atFragment := ⟨hs₂, hfmem, hfname⟩
    vertexDeps := hvdeps
    fragmentDeps := hfdeps
    vertex := hvertex
    fragment := hfragment }
  exact ⟨a, s₁, hv, hstructs, hfns, hf, hend⟩

theorem accepted_of_gives {builtins : Builtins} {shared : Bool} {decls : List Decl}
    (h : Gives (program builtins shared decls) {} p s') :
    Nonempty (Accepted (.ofDecls builtins decls) shared p) :=
  ⟨(exists_accepted h).choose⟩

namespace Accepted

variable {shared : Bool} (a : Accepted top shared p)

theorem vertexFns : p.vertex.fns ⊆ a.vertexEnd.fns := by
  rw [a.vertex]
  exact filter_sublist.subset

theorem fragmentFns : p.fragment.fns ⊆ a.fragmentEnd.fns := by
  rw [a.fragment]
  split
  · exact (filter_sublist.trans filter_sublist).subset
  · exact filter_sublist.subset

end Accepted

theorem gives_of_check {builtins : Builtins} {shared : Bool} {decls : List Decl}
    (h : (Program.check builtins shared decls).1 = .ok p) : ∃ s', Gives (program builtins shared decls) {} p s' :=
  ⟨((program builtins shared decls).outcome {}).2, Prod.ext h rfl⟩

end Check

end Shading
