import Shading.Proofs.Cycles.Graph

/-!
# What a fault tells

Every fault that is found while a shader is checked is at the span of some part of the shader, except that a missing
function is nowhere. And a cycle that is reported is one: the unfinished names lead to each other in the order in which
they were opened, and all of them lead to every name that is looked up.

`Blames (Fault.Founded decls P)` says both of a step, when the spans of what it checks start at the places `P`.
-/

namespace Shading

open List Relation

/-- A way from a name back to itself, through distinct declarations of one kind of which each refers to the next,
perhaps through others. -/
structure Cycle (decls : List Decl) (kind : Decl → Bool) (x : Ident) (path : List Ident) : Prop where
  length : 2 ≤ path.length
  head : path.head? = some x
  last : path.getLast? = some x
  nodup : path.dropLast.Nodup
  declared : ∀ y ∈ path, ∃ d ∈ decls, kind d = true ∧ d.name = y
  leads : ∀ y ∈ path, Leads decls y
  chain : path.IsChain (TransGen (Refers decls))

variable {decls : List Decl} {x : Ident} {d : Decl}

/-- Unfinished names of one kind, the innermost last, while the given ones are looked up. -/
structure Trail (decls : List Decl) (kind : Decl → Bool) (unfinished : List Ident) (names : Ident → Prop) : Prop where
  nodup : unfinished.Nodup
  declared : ∀ x ∈ unfinished, ∃ d ∈ decls, kind d = true ∧ d.name = x
  leads : ∀ x ∈ unfinished, Leads decls x
  ordered : unfinished.Pairwise (TransGen (Refers decls))
  reaches : ∀ x ∈ unfinished, ∀ y, names y → Openable decls y → TransGen (Refers decls) x y

namespace Trail

variable {kind : Decl → Bool} {unfinished : List Ident} {names : Ident → Prop}

theorem start (kind : Decl → Bool) (names : Ident → Prop) : Trail decls kind [] names :=
  ⟨nodup_nil, by simp, by simp, List.Pairwise.nil, by simp⟩

/-- While a declaration that is looked up is opened, its references are looked up. -/
theorem inside (h : Trail decls kind unfinished names) (hd : d ∈ decls) (hopen : d.canOpen = true)
    (hname : names d.name) : Trail decls kind unfinished (· ∈ d.refs) := by
  refine ⟨h.nodup, h.declared, h.leads, h.ordered, fun x hx y hy hy' => ?_⟩
  exact (h.reaches x hx d.name hname ⟨d, hd, hopen, rfl⟩).tail ⟨d, hd, hopen, rfl, hy, hy'⟩

/-- A declaration of the kind that is opened becomes the innermost one. -/
theorem push (h : Trail decls kind unfinished names) (hd : d ∈ decls) (hkind : kind d = true)
    (hopen : d.canOpen = true) (hname : names d.name) (hnew : d.name ∉ unfinished) (hleads : Leads decls d.name) :
    Trail decls kind (unfinished ++ [d.name]) (· ∈ d.refs) := by
  have hinside := h.inside hd hopen hname
  have hopens : Openable decls d.name := ⟨d, hd, hopen, rfl⟩
  refine ⟨?_, ?_, ?_, ?_, ?_⟩
  · refine nodup_append.2 ⟨h.nodup, by simp, fun x hx y hy heq => ?_⟩
    rw [mem_singleton] at hy
    exact hnew (hy ▸ heq ▸ hx)
  · intro x hx
    rcases mem_append.1 hx with hx | hx
    · exact h.declared x hx
    · exact ⟨d, hd, hkind, (mem_singleton.1 hx).symm⟩
  · intro x hx
    rcases mem_append.1 hx with hx | hx
    · exact h.leads x hx
    · rw [mem_singleton.1 hx]
      exact hleads
  · refine pairwise_append.2 ⟨h.ordered, pairwise_singleton _ _, fun x hx y hy => ?_⟩
    rw [mem_singleton.1 hy]
    exact h.reaches x hx _ hname hopens
  · intro x hx y hy hy'
    rcases mem_append.1 hx with hx | hx
    · exact hinside.reaches x hx y hy hy'
    · rw [mem_singleton.1 hx]
      exact .single ⟨d, hd, hopen, rfl, hy, hy'⟩

/-- The way from an unfinished name that is looked up again back to itself is a cycle. -/
theorem cycle (h : Trail decls kind unfinished names) (hx : x ∈ unfinished) (hname : names x)
    (hopens : Openable decls x) : Cycle decls kind x (cyclePath unfinished x) := by
  obtain ⟨before, behind, hsplit⟩ := append_of_mem hx
  have hnodup := h.nodup
  rw [hsplit] at hnodup
  have hbefore : ∀ y ∈ before, (y != x) = true := by
    intro y hy
    have hne := (nodup_append.1 hnodup).2.2 y hy x mem_cons_self
    simpa using hne
  have hpath : cyclePath unfinished x = (x :: behind) ++ [x] := by
    rw [cyclePath, hsplit, dropWhile_append_of_pos hbefore]
    simp
  have hmem : ∀ y ∈ x :: behind, y ∈ unfinished := by
    intro y hy
    rw [hsplit]
    exact mem_append_right _ hy
  have hall : ∀ y ∈ cyclePath unfinished x, y ∈ unfinished := by
    rw [hpath]
    intro y hy
    rcases mem_append.1 hy with hy | hy
    · exact hmem y hy
    · rw [mem_singleton.1 hy]
      exact hx
  refine ⟨?_, ?_, ?_, ?_, fun y hy => h.declared y (hall y hy), fun y hy => h.leads y (hall y hy), ?_⟩
  · rw [hpath]
    simp
  · rw [hpath]
    rfl
  · rw [hpath]
    exact getLast?_concat
  · rw [hpath, dropLast_concat]
    exact (nodup_append.1 hnodup).2.1
  · -- Each name leads to all behind it, and to the one that closes the cycle.
    rw [hpath]
    refine (pairwise_append.2 ⟨?_, pairwise_singleton _ _, fun y hy z hz => ?_⟩).isChain
    · have hordered := h.ordered
      rw [hsplit] at hordered
      exact (pairwise_append.1 hordered).2.1
    · rw [mem_singleton.1 hz]
      exact h.reaches y (hmem y hy) x hname hopens

end Trail

/-- What is unfinished, while the given names are looked up. -/
structure Stack (decls : List Decl) (u : Unfinished) (names : Ident → Prop) : Prop where
  fns : Trail decls Decl.isFn u.fns names
  structs : Trail decls Decl.isStruct u.structs names
  leads : ∀ x, names x → Openable decls x → Leads decls x

namespace Stack

variable {u : Unfinished} {names : Ident → Prop}

theorem start (h : ∀ x, names x → Openable decls x → Starts decls x) : Stack decls {} names :=
  ⟨.start _ _, .start _ _, fun x hx hopens => ⟨x, h x hx hopens, .refl⟩⟩

theorem addFn (h : Stack decls u names) {d : FnDecl} (hd : .fn d ∈ decls) (hname : names d.name)
    (hnew : d.name ∉ u.fns) : Stack decls (u.addFn d.name) (· ∈ d.refs) := by
  have hleads := h.leads d.name hname ⟨_, hd, rfl, rfl⟩
  refine ⟨h.fns.push hd rfl rfl hname hnew hleads, h.structs.inside hd rfl hname, fun x hx hopens => ?_⟩
  exact hleads.step ⟨_, hd, rfl, rfl, hx, hopens⟩

theorem addStruct (h : Stack decls u names) {d : StructDecl} (hd : .struct d ∈ decls) (hname : names d.name)
    (hnew : d.name ∉ u.structs) : Stack decls (u.addStruct d.name) (· ∈ d.refs) := by
  have hleads := h.leads d.name hname ⟨_, hd, rfl, rfl⟩
  refine ⟨h.fns.inside hd rfl hname, h.structs.push hd rfl rfl hname hnew hleads, fun x hx hopens => ?_⟩
  exact hleads.step ⟨_, hd, rfl, rfl, hx, hopens⟩

end Stack

/-- A cycle that is reported is one. -/
def ReportsCycle (decls : List Decl) : Fault → Prop
  | .refused ⟨.cyclicFn f path, _⟩ => Cycle decls Decl.isFn f path
  | .refused ⟨.cyclicStruct s path, _⟩ => Cycle decls Decl.isStruct s path
  | _ => True

theorem reportsCycle_of_plain {e : Fault} (h : e.Plain) : ReportsCycle decls e := by
  unfold ReportsCycle
  split
  · cases h
  · cases h
  · trivial

theorem mem_of_firstRedefined? {seen : List Ident} {decls : List Decl} {d : Decl}
    (h : firstRedefined? seen decls = some d) : d ∈ decls := by
  induction decls generalizing seen with
  | nil => cases h
  | cons first decls ih =>
    rw [firstRedefined?] at h
    split at h
    · cases h
      exact mem_cons_self
    · exact mem_cons_of_mem _ (ih h)

/-- The fault is at one of the places, unless it is that a function is missing. -/
def Fault.LiesIn (P : Position → Prop) : Fault → Prop
  | refused e => P e.span.start ∨ ∃ f, e.cause = .missingFn f
  | unopened _ => True

/-- The fault is where it should be, and a cycle that it reports is one. -/
structure Fault.Founded (decls : List Decl) (P : Position → Prop) (e : Fault) : Prop where
  place : e.LiesIn P
  cycle : ReportsCycle decls e

namespace Check

section Steps

variable {α β : Type} {E : Fault → Prop} {P : Position → Prop}

/-- A step that reads or changes what has been opened does not fail. -/
theorem blames_note (e : Event) : Blames E (note e) := fun _ _ _ h => by cases h

theorem blames_get : Blames E (get : Check Expansion) := fun _ _ _ h => by cases h

theorem blames_modify (f : Expansion → Expansion) : Blames E (modify f : Check Unit) := fun _ _ _ h => by cases h

theorem founded_of_plainIn (e : Fault) (h : e.PlainIn P) : e.Founded decls P := by
  refine ⟨?_, reportsCycle_of_plain h.plain⟩
  cases e with
  | refused e => exact .inl h.2
  | unopened x => trivial

theorem founded_guard {c : Prop} [Decidable c] {cause : Cause} {span : Span} {k : β → Check α} {m : Check α}
    (hspan : P span.start) (hcycle : c → ReportsCycle decls (.refused ⟨cause, span⟩))
    (hm : ¬ c → Blames (Fault.Founded decls P) m) :
    Blames (Fault.Founded decls P) (if c then refuse cause span >>= k else m) := by
  split
  · rename_i hc
    refine blames_bind (blames_refuse ⟨.inl hspan, hcycle hc⟩) fun _ ⟨_, _, hgives⟩ => ?_
    exact (gives_refuse.1 hgives).elim
  · exact hm ‹_›

end Steps

section Programs

variable {builtins : Builtins} {vars : Scope Var} {u : Unfinished} {names : Ident → Prop} {P : Position → Prop}
  {inside : Unfinished → Globals} (hdecls : ∀ d ∈ decls, (Node.decl d).StartsIn P)
include hdecls

theorem founded_openFn (hinside : ∀ {u names x span}, Stack decls u names → names x → P span.start →
      Blames (Fault.Founded decls P) (inside u x span))
    (hstack : Stack decls u names) {d : FnDecl} (hd : .fn d ∈ decls) (hname : names d.name) {span : Span}
    (hspan : P span.start) : Blames (Fault.Founded decls P) (openFn inside u d span) := by
  refine blames_bind blames_get fun s _ => ?_
  cases s.fn? d.name with
  | some f => exact blames_pure f
  | none =>
    refine founded_guard hspan (fun hmem => ?_) fun hmem => ?_
    · exact hstack.fns.cycle (contains_iff_mem.1 hmem) hname ⟨_, hd, rfl, rfl⟩
    · rw [contains_iff_mem] at hmem
      have hfn : Blames (Fault.Founded decls P) (fn (inside (u.addFn d.name)) d) := by
        rw [fn_eq_laxFn]
        refine blames_bind ((asks_laxFn (hdecls _ hd)).blames founded_of_plainIn fun x hx span =>
          hinside (hstack.addFn hd hname hmem) hx) fun f _ => ?_
        exact founded_guard (hdecls _ hd).span (fun _ => trivial) fun _ => blames_pure f
      refine blames_bind hfn fun f _ => blames_bind (blames_modify _) fun _ _ => ?_
      exact blames_bind (blames_note _) fun _ _ => blames_pure f

theorem founded_openStruct (hinside : ∀ {u names x span}, Stack decls u names → names x → P span.start →
      Blames (Fault.Founded decls P) (inside u x span))
    (hstack : Stack decls u names) {d : StructDecl} (hd : .struct d ∈ decls) (hname : names d.name) {span : Span}
    (hspan : P span.start) : Blames (Fault.Founded decls P) (openStruct inside u d span) := by
  refine blames_bind blames_get fun s _ => ?_
  cases s.struct? d.name with
  | some f => exact blames_pure f
  | none =>
    refine founded_guard hspan (fun hmem => ?_) fun hmem => ?_
    · exact hstack.structs.cycle (contains_iff_mem.1 hmem) hname ⟨_, hd, rfl, rfl⟩
    · rw [contains_iff_mem] at hmem
      have hstruct : Blames (Fault.Founded decls P) (struct (inside (u.addStruct d.name)) d) :=
        (asks_struct (hdecls _ hd)).blames founded_of_plainIn fun x hx span =>
          hinside (hstack.addStruct hd hname hmem) hx
      refine blames_bind hstruct fun f _ => blames_bind (blames_modify _) fun _ _ => ?_
      exact blames_bind (blames_note _) fun _ _ => blames_pure f

/-- Looking up a name that may be looked up, for a use at one of the places. -/
theorem founded_globals (n : Nat) {span : Span} (hstack : Stack decls u names) (hx : names x) (hspan : P span.start) :
    Blames (Fault.Founded decls P) (globals (.ofDecls builtins decls) vars n u x span) := by
  induction n generalizing u names x span with
  | zero => exact blames_pure _
  | succ k ih =>
    simp only [globals, resolve]
    split
    · exact blames_pure _
    · rename_i d _ hd
      have hname : d.name = x := by simpa using find?_some hd
      refine blames_bind (founded_openFn hdecls ih hstack ?_ (hname ▸ hx) hspan) fun f _ => blames_pure _
      exact mem_fns_ofDecls.1 (mem_of_find?_eq_some hd)
    · rename_i d _ _ hd
      have hname : d.name = x := by simpa using find?_some hd
      refine blames_bind (founded_openStruct hdecls ih hstack ?_ (hname ▸ hx) hspan) fun f _ => blames_pure _
      exact mem_structs_ofDecls.1 (mem_of_find?_eq_some hd)
    · exact blames_pure _

theorem founded_interfaceVars {ds : List (TypedName × VarKind)} (hds : ∀ d ∈ ds, d ∈ interfaceOrder decls) :
    Blames (Fault.Founded decls P) (interfaceVars (.ofDecls builtins decls) vars ds) := by
  induction ds generalizing vars with
  | nil => exact blames_pure _
  | cons d ds ih =>
    obtain ⟨d, kind⟩ := d
    obtain ⟨hd, hds'⟩ := forall_mem_cons.1 hds
    obtain ⟨decl, hdecl, hvar⟩ := mem_interfaceOrder.1 hd
    have hstack : Stack decls {} (· ∈ d.ty.refs []) := by
      refine .start fun x hx hopens => ⟨hopens, .inr ⟨decl, hdecl, ?_⟩⟩
      cases decl <;> cases hvar <;> exact ⟨rfl, hx⟩
    have hstarts : P d.span.start ∧ (Node.ty d.ty).StartsIn P := by
      have hdecl' := hdecls decl hdecl
      cases decl <;> cases hvar <;> exact ⟨hdecl'.span, hdecl'.child (.head _)⟩
    refine blames_bind ((asks_tyExpr .nil hstarts.2).blames founded_of_plainIn
      fun x hx span => founded_globals hdecls _ hstack hx) fun ty _ => ?_
    split
    · rename_i hcause
      exact blames_refuse (founded_of_plainIn _ ⟨isPlain_of_refusal? hcause, hstarts.2.span⟩)
    · refine blames_bind ?_ fun vars' _ => blames_bind (ih hds') fun r _ => blames_pure _
      exact (still_bindName _ _ _ hstarts.1).blames.mono founded_of_plainIn

theorem founded_entry (stage : Stage) :
    Blames (Fault.Founded decls P) (entry (.ofDecls builtins decls) vars stage) := by
  unfold entry
  split
  · exact blames_refuse ⟨.inr ⟨_, rfl⟩, trivial⟩
  · rename_i d hd
    have hmem : .fn d ∈ decls := mem_fns_ofDecls.1 (mem_of_find?_eq_some hd)
    have hspan : P d.span.start := (hdecls _ hmem).span
    have hname : d.name = stage.entryPoint := by simpa using find?_some hd
    have hstack : Stack decls {} (· = d.name) := .start fun x hx hopens => ⟨hopens, .inl ⟨stage, hx.trans hname⟩⟩
    refine founded_guard hspan (fun _ => trivial) fun _ => ?_
    refine blames_bind (founded_openFn hdecls (founded_globals hdecls _) hstack hmem rfl hspan) fun f _ => ?_
    refine founded_guard hspan (fun _ => trivial) fun _ => ?_
    cases stage
    all_goals exact founded_guard hspan (fun _ => trivial) fun _ => blames_pure f

theorem founded_program (builtins : Builtins) (shared : Bool) :
    Blames (Fault.Founded decls P) (program builtins shared decls) := by
  unfold program
  split
  · rename_i d hd
    exact blames_refuse ⟨.inl (hdecls d (mem_of_firstRedefined? hd)).span, trivial⟩
  · refine blames_bind (founded_interfaceVars hdecls fun d hd => hd) fun r _ => ?_
    refine blames_bind (founded_entry hdecls .vertex) fun f _ => ?_
    refine blames_bind blames_get fun s _ => blames_bind (blames_note _) fun _ _ => ?_
    refine blames_ite (blames_bind (blames_modify _) fun _ _ => ?_) ?_
    all_goals
      refine blames_bind (founded_entry hdecls .fragment) fun f _ => blames_bind blames_get fun s _ => ?_
      exact blames_bind (blames_note _) fun _ _ => blames_pure _

end Programs

end Check

end Shading
