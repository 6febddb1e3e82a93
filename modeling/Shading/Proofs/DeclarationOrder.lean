import Shading.Dialect.Plain
import Shading.Proofs.Dependencies
import Shading.Proofs.Items

/-!
# Declarations come before uses

The text of a stage declares the function of the stage and those it needs, each once and after the
functions it calls, and every struct once and before it is named. When the texts of both stages are put
together this holds of the two as one. The exception is the type of a local variable whose first value comes
from a builtin function: calling one opens nothing, so its struct may be named and not declared.
-/

namespace Shading

open List Relation

/-- The function of a stage and those it needs. -/
def StageFns (stage : Stage) (deps : Deps) (f : Ident) : Prop := f = stage.entryPoint ∨ deps.hasFn f = true

/-- The functions declared are those wanted. They and the structs are declared once, functions after those
they call and structs before they are named; in the types of local variables some structs are exempt. -/
structure DeclaredBeforeUse (exempt : List Ident) (wanted : Ident → Prop) (items : List Item) : Prop where
  fns : ∀ f, f ∈ fnNames items ↔ wanted f
  fnsOnce : (fnNames items).Nodup
  structsOnce : (structNames items).Nodup
  calls : InOrder (fun before i => ∀ f deps, Use.fn f deps ∈ i.uses → f ∈ fnNames before) items
  structs : InOrder (fun before i => ∀ x, Use.struct x ∈ i.uses → x ∈ structNames before) items
  locals : InOrder (fun before i => ∀ x, Use.localStruct x ∈ i.uses → x ∈ structNames before ∨ x ∈ exempt) items

namespace DeclaredBeforeUse

variable {exempt : List Ident} {wanted wanted' : Ident → Prop} {items : List Item}

theorem nil : DeclaredBeforeUse exempt (fun _ => False) [] where
  fns f := by simp [fnNames]
  fnsOnce := nodup_nil
  structsOnce := nodup_nil
  calls := InOrder.nil
  structs := InOrder.nil
  locals := InOrder.nil

theorem congr (h : DeclaredBeforeUse exempt wanted items) (hiff : ∀ f, wanted f ↔ wanted' f) :
    DeclaredBeforeUse exempt wanted' items :=
  { h with fns := fun f => (h.fns f).trans (hiff f) }

theorem declares_local (h : DeclaredBeforeUse exempt wanted items) {i : Item} (hi : i ∈ items) {x : Ident}
    (hx : Use.localStruct x ∈ i.uses) : x ∈ structNames items ∨ x ∈ exempt := by
  obtain ⟨before, after, rfl⟩ := append_of_mem hi
  refine (h.locals before i after rfl x hx).imp_left fun hbefore => ?_
  rw [structNames_append]
  exact mem_append_left _ hbefore

end DeclaredBeforeUse

theorem Ty.eq_struct_of_mem_uses {ty : Ty} {use : Use} (h : use ∈ ty.uses) : ∃ x, use = .struct x := by
  obtain ⟨x, -, rfl⟩ := mem_map.1 h
  exact ⟨x, rfl⟩

theorem StructDef.eq_struct_of_mem_uses {d : StructDef} {use : Use} (h : use ∈ d.uses) :
    ∃ x, use = .struct x := by
  obtain ⟨m, -, hm⟩ := mem_flatMap.1 h
  exact Ty.eq_struct_of_mem_uses hm

namespace StageUnit

/-- The interface variables that the text of a stage declares. -/
def vars (u : StageUnit) : List (Ident × Ty) := u.blocks.flatMap UniformBlock.vars ++ u.attributes ++ u.varyings

theorem mem_vars_of_mem_uses {u : StageUnit} {i : Item} {use : Use} (hi : i ∈ u.interfaceItems)
    (huse : use ∈ i.uses) : ∃ v ∈ u.vars, use ∈ v.2.uses := by
  simp only [interfaceItems, mem_append, mem_map] at hi
  rcases hi with (⟨b, hb, rfl⟩ | ⟨v, hv, rfl⟩) | ⟨v, hv, rfl⟩
  · obtain ⟨v, hv, huse⟩ := mem_flatMap.1 huse
    exact ⟨v, by simp only [vars, mem_append, mem_flatMap]; exact .inl (.inl ⟨b, hb, hv⟩), huse⟩
  · exact ⟨v, by simp [vars, hv], huse⟩
  · exact ⟨v, by simp [vars, hv], huse⟩

end StageUnit

namespace Check

/-- A unit declares what its stage needs and what has not been declared earlier. -/
structure Completes (earlier : List Item) (s : Expansion) (f : FnDef) (u : StageUnit) : Prop where
  structs : u.structs = s.structs.filter fun d => d.name ∉ structNames earlier
  fns : u.fns = s.fns.filter fun g => (g.name = f.name ∨ f.deps.hasFn g.name = true) ∧ g.name ∉ fnNames earlier

section Unit

variable {top : TopLevel} {vars : Scope Var} {stage : Stage} {s : Expansion} {f : FnDef} {u : StageUnit}
  {earlier : List Item} {wanted : Ident → Prop}

/-- What a function of the stage calls is needed by the stage. -/
theorem StageEnd.hasFn_of_call (h : StageEnd top vars stage s f) {d : FnDef} {g : Ident} {deps : Deps}
    (hd : d ∈ s.fns) (hwanted : d.name = f.name ∨ f.deps.hasFn d.name = true) (huse : .fn g deps ∈ d.uses) :
    f.deps.hasFn g = true := by
  have hexact := h.sound.depsExact h.mem
  have hcall : Calls s.fns d.name g := ⟨d, hd, rfl, deps, huse⟩
  rw [hexact.calls]
  rcases hwanted with hname | hhas
  · rw [hname] at hcall
    exact .single hcall
  · exact ((hexact.calls _).1 hhas).tail hcall

theorem Completes.mem_structNames (hu : Completes earlier s f u) {d : StructDef} (hd : d ∈ s.structs) :
    d.name ∈ structNames (earlier ++ u.structs.map .struct) := by
  rw [structNames_append, structNames_structs, hu.structs, mem_append]
  by_cases h : d.name ∈ structNames earlier
  · exact .inl h
  · exact .inr (mem_map.2 ⟨d, by simp [hd, h], rfl⟩)

theorem Completes.fns_iff (hend : StageEnd top vars stage s f) (hu : Completes earlier s f u) (g : Ident) :
    g ∈ fnNames earlier ++ u.fns.map FnDef.name ↔ g ∈ fnNames earlier ∨ StageFns stage f.deps g := by
  rw [mem_append, hu.fns, StageFns, ← hend.name]
  constructor
  · rintro (hg | hg)
    · exact .inl hg
    · obtain ⟨d, hd, rfl⟩ := mem_map.1 hg
      exact .inr (of_decide_eq_true (mem_filter.1 hd).2).1
  · intro hg
    by_cases hearlier : g ∈ fnNames earlier
    · exact .inl hearlier
    · have hwanted := hg.resolve_left hearlier
      obtain ⟨d, hd, rfl⟩ : ∃ d ∈ s.fns, d.name = g := by
        rcases hwanted with rfl | hhas
        · exact ⟨f, hend.mem, rfl⟩
        · exact (hend.sound.depsExact hend.mem).listed g hhas
      exact .inr (mem_map.2 ⟨d, by simp [hd, hwanted, hearlier], rfl⟩)

theorem Completes.structs_inOrder (hs : Sound top vars s) (hu : Completes earlier s f u) :
    InOrder (fun before i => ∀ x, Use.struct x ∈ i.uses → x ∈ structNames (earlier ++ before))
      (u.structs.map .struct) := by
  refine InOrder.map ?_
  rw [hu.structs]
  refine hs.structs.filter fun before d _ ⟨_, hknown⟩ _ x hx => ?_
  obtain ⟨e, he, rfl⟩ := hknown _ hx
  by_cases hearlier : e.name ∈ structNames earlier
  · simp [hearlier]
  · simp only [structNames_append, structNames_structs, mem_append, mem_map]
    exact .inr ⟨e, by simp [he, hearlier], rfl⟩

theorem Completes.calls_inOrder (hend : StageEnd top vars stage s f) (hu : Completes earlier s f u) :
    InOrder (fun before i => ∀ g deps, Use.fn g deps ∈ i.uses → g ∈ fnNames (earlier ++ before))
      (u.fns.map .fn) := by
  refine InOrder.map ?_
  rw [hu.fns]
  refine hend.sound.fns.filter fun before d hd ⟨_, _, hknown⟩ hp g deps huse => ?_
  obtain ⟨e, he, rfl, -⟩ := hknown _ huse
  have hhas := hend.hasFn_of_call hd (of_decide_eq_true hp).1 huse
  by_cases hearlier : e.name ∈ fnNames earlier
  · simp [hearlier]
  · simp only [fnNames_append, fnNames_fns, mem_append, mem_map]
    exact .inr ⟨e, by simp [he, hhas, hearlier], rfl⟩

/-- What the interface variables and functions of a unit use is there. -/
theorem Completes.known (hend : StageEnd top vars stage s f) (hu : Completes earlier s f u)
    (hvars : ∀ v ∈ u.vars, AllKnown top vars s v.2.uses) {i : Item}
    (hi : i ∈ u.interfaceItems ++ u.fns.map .fn) : AllKnown top vars s i.uses := by
  intro use huse
  rcases mem_append.1 hi with hi | hi
  · obtain ⟨v, hv, huse⟩ := StageUnit.mem_vars_of_mem_uses hi huse
    exact hvars v hv _ huse
  · obtain ⟨g, hg, rfl⟩ := mem_map.1 hi
    rw [hu.fns] at hg
    exact hend.sound.of_mem_fns (mem_filter.1 hg).1 _ huse

theorem Completes.mem_structNames_append (hu : Completes earlier s f u) {x : Ident}
    (hx : ∃ d ∈ s.structs, d.name = x) (before : List Item) :
    x ∈ structNames ((earlier ++ u.structs.map .struct) ++ before) := by
  obtain ⟨d, hd, rfl⟩ := hx
  rw [structNames_append]
  exact mem_append_left _ (hu.mem_structNames hd)

/-- A unit that is put behind what has been declared earlier. -/
theorem Completes.declaredBeforeUse (he : DeclaredBeforeUse top.builtins.resultStructs wanted earlier)
    (hend : StageEnd top vars stage s f) (hu : Completes earlier s f u)
    (hvars : ∀ v ∈ u.vars, AllKnown top vars s v.2.uses) :
    DeclaredBeforeUse top.builtins.resultStructs (fun g => wanted g ∨ StageFns stage f.deps g)
      (earlier ++ u.items) := by
  have hsplit : earlier ++ u.items =
      (earlier ++ u.structs.map .struct) ++ (u.interfaceItems ++ u.fns.map .fn) := by simp [StageUnit.items]
  constructor
  case fns =>
    intro g
    rw [fnNames_append, StageUnit.fnNames_items, hu.fns_iff hend, he.fns]
  case fnsOnce =>
    rw [fnNames_append, StageUnit.fnNames_items, hu.fns]
    refine nodup_append'.2 ⟨he.fnsOnce, hend.sound.nodup_fns.sublist (filter_sublist.map _), ?_⟩
    intro g hg hmem
    obtain ⟨d, hd, rfl⟩ := mem_map.1 hmem
    exact (of_decide_eq_true (mem_filter.1 hd).2).2 hg
  case structsOnce =>
    rw [structNames_append, StageUnit.structNames_items, hu.structs]
    refine nodup_append'.2 ⟨he.structsOnce, hend.sound.nodup_structs.sublist (filter_sublist.map _), ?_⟩
    intro x hx hmem
    obtain ⟨d, hd, rfl⟩ := mem_map.1 hmem
    exact of_decide_eq_true (mem_filter.1 hd).2 hx
  case calls =>
    rw [hsplit]
    refine (he.calls.append (InOrder.of_forall ?_)).append ((InOrder.of_forall ?_).append ?_)
    · intro i hi _ g deps huse
      obtain ⟨d, -, rfl⟩ := mem_map.1 hi
      obtain ⟨x, hx⟩ := StructDef.eq_struct_of_mem_uses huse
      cases hx
    · intro i hi _ g deps huse
      obtain ⟨v, -, hv⟩ := StageUnit.mem_vars_of_mem_uses hi huse
      obtain ⟨x, hx⟩ := Ty.eq_struct_of_mem_uses hv
      cases hx
    · refine (hu.calls_inOrder hend).mono fun before i h g deps huse => ?_
      simpa using h g deps huse
  case structs =>
    rw [hsplit]
    refine (he.structs.append (hu.structs_inOrder hend.sound)).append (InOrder.of_forall ?_)
    intro i hi before x hx
    exact hu.mem_structNames_append (hu.known hend hvars hi _ hx) before
  case locals =>
    rw [hsplit]
    refine (he.locals.append (InOrder.of_forall ?_)).append (InOrder.of_forall ?_)
    · intro i hi _ x hx
      obtain ⟨d, -, rfl⟩ := mem_map.1 hi
      obtain ⟨y, hy⟩ := StructDef.eq_struct_of_mem_uses hx
      cases hy
    · intro i hi before x hx
      exact (hu.known hend hvars hi _ hx).imp_left fun h => hu.mem_structNames_append h before

end Unit

theorem mem_vars_of_mem_ofEntry {vars : List (Ident × Var)} {s : Expansion} {stage : Stage} {f : FnDef}
    {x : Ident} {ty : Ty} (h : (x, ty) ∈ (StageUnit.ofEntry (.ofVars vars) s stage f).vars) :
    ∃ kind, (x, ⟨ty, kind⟩) ∈ vars := by
  have hof : ∀ q, (x, ty) ∈ Interface.varsOf q vars → ∃ kind, (x, ⟨ty, kind⟩) ∈ vars := by
    intro q hq
    obtain ⟨kind, -, hmem⟩ := Interface.mem_varsOf.1 hq
    exact ⟨kind, hmem⟩
  simp only [StageUnit.vars, StageUnit.ofEntry, Interface.ofVars, mem_append, mem_flatMap,
    mem_map] at h
  rcases h with (⟨b, ⟨name, -, rfl⟩, hb⟩ | hattr) | hvary
  · exact hof (fun k => k == .uniformVar name) hb
  · cases stage with
    | vertex => exact hof _ hattr
    | fragment => cases hattr
  · exact hof _ hvary

theorem mem_vars_of_mem_without {u v : StageUnit} {w : Ident × Ty} (h : w ∈ (u.without v).vars) : w ∈ u.vars := by
  simp only [StageUnit.vars, StageUnit.without, mem_append, mem_flatMap, mem_filter] at h ⊢
  rcases h with (⟨b, ⟨hb, -⟩, hw⟩ | hattr) | ⟨hvary, -⟩
  · exact .inl (.inl ⟨b, hb, hw⟩)
  · exact .inl (.inr hattr)
  · exact .inr hvary

theorem any_name {α : Type} (name : α → Ident) (l : List α) (x : Ident) :
    (l.any fun t => name t == x) = decide (x ∈ l.map name) := by
  rw [Bool.eq_iff_iff]
  simp

theorem completes_ofEntry (i : Interface) (s : Expansion) (stage : Stage) (f : FnDef) :
    Completes [] s f (.ofEntry i s stage f) where
  structs := by simp [StageUnit.ofEntry, structNames]
  fns := by
    refine filter_congr fun g _ => ?_
    rw [Bool.eq_iff_iff]
    simp [fnNames]

theorem completes_without (i : Interface) (s : Expansion) (stage : Stage) (f : FnDef) (v : StageUnit) :
    Completes v.items s f ((StageUnit.ofEntry i s stage f).without v) where
  structs := by
    refine filter_congr fun d _ => ?_
    rw [any_name, StageUnit.structNames_items, decide_not]
  fns := by
    simp only [StageUnit.without, StageUnit.ofEntry, filter_filter]
    refine filter_congr fun g _ => ?_
    rw [any_name, StageUnit.fnNames_items, ← decide_not, Bool.eq_iff_iff]
    simp only [Bool.and_eq_true, Bool.or_eq_true, decide_eq_true_eq, beq_iff_eq]
    exact and_comm

namespace Accepted

variable {top : TopLevel} {shared : Bool} {p : Program}

theorem known_vars (a : Accepted top shared p) {stage stage' : Stage} {s : Expansion} {f g : FnDef}
    (hend : StageEnd top a.scope stage s f) :
    ∀ v ∈ (StageUnit.ofEntry p.interface s stage' g).vars, AllKnown top a.scope s v.2.uses := by
  rintro ⟨x, ty⟩ hv
  rw [a.interface] at hv
  obtain ⟨kind, hmem⟩ := mem_vars_of_mem_ofEntry hv
  exact hend.sound.vars x ⟨ty, kind⟩ ((a.lookup?_iff x _).2 hmem)

theorem vertex_declares (a : Accepted top shared p) :
    DeclaredBeforeUse top.builtins.resultStructs (StageFns .vertex p.vertexDeps) p.vertex.items := by
  have h := (completes_ofEntry p.interface a.vertexEnd .vertex a.vertexFn).declaredBeforeUse .nil a.atVertex
    (a.known_vars a.atVertex)
  rw [a.vertex, a.vertexDeps]
  exact h.congr fun g => Iff.of_eq (false_or _)

theorem fragment_declares (a : Accepted top false p) :
    DeclaredBeforeUse top.builtins.resultStructs (StageFns .fragment p.fragmentDeps) p.fragment.items := by
  have h := (completes_ofEntry p.interface a.fragmentEnd .fragment a.fragmentFn).declaredBeforeUse .nil a.atFragment
    (a.known_vars a.atFragment)
  rw [a.fragment, a.fragmentDeps]
  exact h.congr fun g => Iff.of_eq (false_or _)

theorem both_declare (a : Accepted top true p) :
    DeclaredBeforeUse top.builtins.resultStructs
      (fun g => StageFns .vertex p.vertexDeps g ∨ StageFns .fragment p.fragmentDeps g)
      (p.vertex.items ++ p.fragment.items) := by
  have h := (completes_without p.interface a.fragmentEnd .fragment a.fragmentFn p.vertex).declaredBeforeUse
    a.vertex_declares a.atFragment fun v hv => a.known_vars a.atFragment v (mem_vars_of_mem_without hv)
  rw [a.fragment, a.fragmentDeps]
  exact h

end Accepted

end Check

theorem resultStructs_defaults (extra : Builtins) : (Builtin.defaults ++ extra).resultStructs = extra.resultStructs := by
  have hnone : Builtins.resultStructs Builtin.defaults = [] := by decide +kernel
  have happend : (Builtin.defaults ++ extra).resultStructs =
      Builtins.resultStructs Builtin.defaults ++ extra.resultStructs := flatMap_append
  rw [happend, hnone, nil_append]

/-- The texts of an accepted shader declare the functions of their stages and every struct they name, once
and before the first use; only a local variable may have a type whose struct is not declared, if an added
builtin function returns that struct. When the texts are put together, this holds of the two as one. -/
theorem emit_declares_before_use {d : Dialect} {extra : Builtins} {decls : List Decl} {c : Compiled}
    {events : List Event} (h : emit d extra decls = (.ok c, events)) :
    ∃ p, (Program.check (Builtin.defaults ++ extra) d.sharesDecls decls).1 = .ok p ∧ c = p.write d ∧
      d.IsText .vertex c.interface.varyings p.vertex.items c.vertexText ∧
      d.IsText .fragment c.interface.varyings p.fragment.items c.fragmentText ∧
      (d.sharesDecls = false →
        DeclaredBeforeUse extra.resultStructs (StageFns .vertex c.vertexDeps) p.vertex.items ∧
        DeclaredBeforeUse extra.resultStructs (StageFns .fragment c.fragmentDeps) p.fragment.items) ∧
      (d.sharesDecls = true → DeclaredBeforeUse extra.resultStructs
        (fun f => StageFns .vertex c.vertexDeps f ∨ StageFns .fragment c.fragmentDeps f)
        (p.vertex.items ++ p.fragment.items)) := by
  obtain ⟨p, hp, rfl, ⟨a⟩⟩ := accepted_of_emit h
  refine ⟨p, hp, rfl, a.isText_vertex d, a.isText_fragment d, fun hshared => ?_, fun hshared => ?_⟩
  · rw [hshared] at a
    rw [← resultStructs_defaults]
    exact ⟨a.vertex_declares, a.fragment_declares⟩
  · rw [hshared] at a
    rw [← resultStructs_defaults]
    exact a.both_declare

/-- A function and a struct that both stages use stand once in the texts put together. -/
theorem shared_helper_declared_once :
    let vec4 : TyExpr := .keyword (.vector .float .four) .unset
    let made : Expr := .construct (.vector .float .four) [.lit (.int 1) .unset] .unset
    let callsHelper (f : Ident) : Decl := .fn ⟨f, [], some vec4,
      .mk [.letStmt "s" none (some (.call "S" [made] .unset)) .unset,
        .returnStmt (some (.call "h" [] .unset)) .unset] .unset, .unset⟩
    let decls : List Decl := [.struct ⟨"S", [⟨"a", vec4, .unset⟩], .unset⟩, callsHelper "vertex",
      callsHelper "fragment", .fn ⟨"h", [], some vec4, .mk [.returnStmt (some made) .unset] .unset, .unset⟩]
    ∃ (c : Compiled) (events : List Event) (p : Program),
      emit (Plain.dialect ⟨true, false⟩) [] decls = (.ok c, events) ∧ c = p.write (Plain.dialect ⟨true, false⟩) ∧
      fnNames (p.vertex.items ++ p.fragment.items) = ["h", "vertex", "fragment"] ∧
      structNames (p.vertex.items ++ p.fragment.items) = ["S"] ∧
      DeclaredBeforeUse [] (fun f => StageFns .vertex c.vertexDeps f ∨ StageFns .fragment c.fragmentDeps f)
        (p.vertex.items ++ p.fragment.items) := by
  intro vec4 made callsHelper decls
  obtain ⟨p, events, hp, h, hnames⟩ := emit_of_check
    (show (Program.check (Builtin.defaults ++ []) (Plain.dialect ⟨true, false⟩).sharesDecls decls).1.toOption.any
      (fun p => fnNames (p.vertex.items ++ p.fragment.items) = ["h", "vertex", "fragment"] ∧
        structNames (p.vertex.items ++ p.fragment.items) = ["S"]) = true by decide +kernel)
  obtain ⟨p', hp', heq, -, -, -, hboth⟩ := emit_declares_before_use h
  obtain rfl : p = p' := Except.ok.inj (hp.symm.trans hp')
  obtain ⟨hfns, hstructs⟩ := of_decide_eq_true hnames
  exact ⟨p.write _, events, p, h, heq, hfns, hstructs, hboth rfl⟩

/-- The struct that an added builtin function returns is named in the text and not declared there. -/
theorem builtin_struct_undeclared :
    let vec4 : TyExpr := .keyword (.vector .float .four) .unset
    let made : Expr := .construct (.vector .float .four) [.lit (.int 1) .unset] .unset
    let extra : Builtins := [⟨"mk", [⟨[], .struct "S"⟩]⟩]
    let stage (f : Ident) : Decl := .fn ⟨f, [], some vec4,
      .mk [.letStmt "s" none (some (.call "mk" [] .unset)) .unset, .returnStmt (some made) .unset] .unset, .unset⟩
    let decls : List Decl :=
      [.struct ⟨"S", [⟨"a", .keyword (.scalar .float) .unset, .unset⟩], .unset⟩, stage "vertex", stage "fragment"]
    ∃ (c : Compiled) (events : List Event) (p : Program),
      emit (Plain.dialect ⟨false, false⟩) extra decls = (.ok c, events) ∧
      c = p.write (Plain.dialect ⟨false, false⟩) ∧ (∃ i ∈ p.vertex.items, Use.localStruct "S" ∈ i.uses) ∧
      structNames p.vertex.items = [] ∧
      ¬ DeclaredBeforeUse [] (StageFns .vertex c.vertexDeps) p.vertex.items := by
  intro vec4 made extra stage decls
  obtain ⟨p, events, hp, h, hq⟩ := emit_of_check
    (show (Program.check (Builtin.defaults ++ extra) (Plain.dialect ⟨false, false⟩).sharesDecls decls).1.toOption.any
      (fun p => structNames p.vertex.items = [] ∧
        p.vertex.items.any (fun i => i.uses.any fun | .localStruct x => x == "S" | _ => false) = true) = true
      by decide +kernel)
  obtain ⟨hnone, hany⟩ := of_decide_eq_true hq
  obtain ⟨i, hi, huse⟩ := any_eq_true.1 hany
  obtain ⟨use, huse, hname⟩ := any_eq_true.1 huse
  have hx : Use.localStruct "S" ∈ i.uses := by
    cases use <;> simp at hname
    exact hname ▸ huse
  refine ⟨p.write _, events, p, h, rfl, ⟨i, hi, hx⟩, hnone, fun hall => ?_⟩
  rcases hall.declares_local hi hx with hmem | hmem
  · rw [hnone] at hmem
    cases hmem
  · cases hmem

end Shading
