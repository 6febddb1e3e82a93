import Shading.Compile
import Shading.Proofs.Programs

/-!
# The declarations of a text

The text of a stage is its prelude, its declarations one after another, and the wrapper that calls its
function, with nothing between them but empty lines. So a fact about the declarations in their order is a
fact about the text.
-/

namespace Shading

open List

/-- A declaration in the text of a stage. -/
inductive Item where
  | struct (d : StructDef)
  | block (b : UniformBlock)
  | attributeVar (v : Ident × Ty)
  | varyingVar (v : Ident × Ty)
  | fn (f : FnDef)

namespace Item

def uses : Item → List Use
  | .struct d => d.uses
  | .block b => b.vars.flatMap fun v => v.2.uses
  | .attributeVar v => v.2.uses
  | .varyingVar v => v.2.uses
  | .fn f => f.uses

def fnName? : Item → Option Ident
  | .fn f => some f.name
  | _ => none

def structName? : Item → Option Ident
  | .struct d => some d.name
  | _ => none

end Item

def fnNames (items : List Item) : List Ident := items.filterMap Item.fnName?

def structNames (items : List Item) : List Ident := items.filterMap Item.structName?

@[simp] theorem fnNames_append (k l : List Item) : fnNames (k ++ l) = fnNames k ++ fnNames l :=
  filterMap_append

@[simp] theorem structNames_append (k l : List Item) : structNames (k ++ l) = structNames k ++ structNames l :=
  filterMap_append

@[simp] theorem fnNames_fns (fs : List FnDef) : fnNames (fs.map .fn) = fs.map FnDef.name := by
  simp [fnNames, Function.comp_def, Item.fnName?]

@[simp] theorem structNames_structs (ds : List StructDef) :
    structNames (ds.map .struct) = ds.map StructDef.name := by
  simp [structNames, Function.comp_def, Item.structName?]

@[simp] theorem fnNames_structs (ds : List StructDef) : fnNames (ds.map .struct) = [] := by
  simp [fnNames, Item.fnName?]

@[simp] theorem structNames_fns (fs : List FnDef) : structNames (fs.map .fn) = [] := by
  simp [structNames, Item.structName?]

namespace StageUnit

/-- The declarations of the interface variables. -/
def interfaceItems (u : StageUnit) : List Item :=
  u.blocks.map .block ++ u.attributes.map .attributeVar ++ u.varyings.map .varyingVar

/-- The declarations of the text of a stage, in its order. -/
def items (u : StageUnit) : List Item := u.structs.map .struct ++ u.interfaceItems ++ u.fns.map .fn

@[simp] theorem fnNames_interfaceItems (u : StageUnit) : fnNames u.interfaceItems = [] := by
  simp [interfaceItems, fnNames, Item.fnName?]

@[simp] theorem structNames_interfaceItems (u : StageUnit) : structNames u.interfaceItems = [] := by
  simp [interfaceItems, structNames, Item.structName?]

@[simp] theorem fnNames_items (u : StageUnit) : fnNames u.items = u.fns.map FnDef.name := by
  simp [items]

@[simp] theorem structNames_items (u : StageUnit) : structNames u.items = u.structs.map StructDef.name := by
  simp [items]

end StageUnit

/-- A text that consists of the given ones, one after another, and empty lines between them. -/
inductive Spaced : List String → String → Prop where
  | nil : Spaced [] ""
  | cons {t : String} {ts : List String} {rest : String} : Spaced ts rest → Spaced (t :: ts) (t ++ rest)
  | gap {ts : List String} {rest : String} : Spaced ts rest → Spaced ts ("\n" ++ rest)

namespace Spaced

variable {ts us : List String} {s t : String}

theorem append (hs : Spaced ts s) (ht : Spaced us t) : Spaced (ts ++ us) (s ++ t) := by
  induction hs with
  | nil => simpa using ht
  | cons _ ih =>
    rw [cons_append, String.append_assoc]
    exact ih.cons
  | gap _ ih =>
    rw [String.append_assoc]
    exact ih.gap

theorem single (s : String) : Spaced [s] s := by
  have h : Spaced [s] (s ++ "") := nil.cons
  rwa [String.append_empty] at h

theorem join (ts : List String) : Spaced ts (String.join ts) := by
  induction ts with
  | nil => exact nil
  | cons t ts ih =>
    rw [String.join_cons]
    exact ih.cons

theorem intercalate (ts : List String) : Spaced ts ("\n".intercalate ts) := by
  induction ts with
  | nil => exact nil
  | cons t ts ih =>
    by_cases h : ts = []
    · subst h
      rw [String.intercalate_singleton]
      exact single t
    · rw [String.intercalate_cons_of_ne_nil h, String.append_assoc]
      exact ih.gap.cons

/-- Sections that are empty leave no empty line. -/
theorem sections (parts : List (List String × String)) (h : ∀ p ∈ parts, Spaced p.1 p.2) :
    Spaced (parts.flatMap Prod.fst) ("\n".intercalate ((parts.map Prod.snd).filter fun s => !s.isEmpty)) := by
  induction parts with
  | nil => exact nil
  | cons p parts ih =>
    have hp := h p mem_cons_self
    have hrest := ih fun q hq => h q (mem_cons_of_mem _ hq)
    rw [flatMap_cons, map_cons]
    by_cases hempty : p.2 = ""
    · rw [filter_cons_of_neg (by simp [hempty])]
      rw [hempty] at hp
      have hboth := hp.append hrest
      rwa [String.empty_append] at hboth
    · rw [filter_cons_of_pos (by simpa using hempty)]
      by_cases hnone : (parts.map Prod.snd).filter (fun s => !s.isEmpty) = []
      · rw [hnone] at hrest ⊢
        rw [String.intercalate_singleton]
        rw [String.intercalate_nil] at hrest
        have hboth := hp.append hrest
        rwa [String.append_empty] at hboth
      · rw [String.intercalate_cons_of_ne_nil hnone, String.append_assoc]
        exact hp.append hrest.gap

end Spaced

namespace Dialect

variable (d : Dialect)

def item (stage : Stage) : Item → String
  | .struct s => d.struct s
  | .block b => d.uniformBlock b.name (b.vars.map (d.uniformDeclarator b.name))
  | .attributeVar v => d.attributeDecl (d.attributeDeclarator v)
  | .varyingVar v => d.varyingDecl stage (d.varyingDeclarator v)
  | .fn f => d.fn f

/-- The text is that of a stage with the given declarations, in this order and with no others. -/
def IsText (stage : Stage) (varyings : List (Ident × Ty)) (items : List Item) (text : String) : Prop :=
  Spaced (d.prelude stage :: items.map (d.item stage) ++
    [d.entryPoint stage stage.entryPoint (varyings.map d.varyingDeclarator)]) text

theorem isText_stage (u : StageUnit) : d.IsText u.stage u.interfaceVaryings u.items (d.stage u) := by
  have h := Spaced.sections
    [([d.prelude u.stage], d.prelude u.stage),
     (u.structs.map d.struct, "\n".intercalate (u.structs.map d.struct)),
     (u.blocks.map fun b => d.uniformBlock b.name (b.vars.map (d.uniformDeclarator b.name)),
       String.join (u.blocks.map fun b => d.uniformBlock b.name (b.vars.map (d.uniformDeclarator b.name)))),
     (u.attributes.map fun v => d.attributeDecl (d.attributeDeclarator v),
       String.join (u.attributes.map fun v => d.attributeDecl (d.attributeDeclarator v))),
     (u.varyings.map fun v => d.varyingDecl u.stage (d.varyingDeclarator v),
       String.join (u.varyings.map fun v => d.varyingDecl u.stage (d.varyingDeclarator v))),
     (u.fns.map d.fn, "\n".intercalate (u.fns.map d.fn)),
     ([d.entryPoint u.stage u.stage.entryPoint (u.interfaceVaryings.map d.varyingDeclarator)],
       d.entryPoint u.stage u.stage.entryPoint (u.interfaceVaryings.map d.varyingDeclarator))] ?_
  · simpa [IsText, StageUnit.items, StageUnit.interfaceItems, Dialect.stage, Dialect.sections,
      Function.comp_def, Dialect.item] using h
  · simp [Spaced.single, Spaced.join, Spaced.intercalate]

end Dialect

namespace Check.Accepted

variable {top : TopLevel} {shared : Bool} {p : Program}

theorem isText_vertex (a : Accepted top shared p) (d : Dialect) :
    d.IsText .vertex p.interface.varyings p.vertex.items (d.stage p.vertex) := by
  have h := d.isText_stage p.vertex
  rw [a.vertex] at h ⊢
  exact h

theorem isText_fragment (a : Accepted top shared p) (d : Dialect) :
    d.IsText .fragment p.interface.varyings p.fragment.items (d.stage p.fragment) := by
  have h := d.isText_stage p.fragment
  rw [a.fragment] at h ⊢
  cases shared with
  | true => exact h
  | false => exact h

end Check.Accepted

variable {d : Dialect} {extra : Builtins} {decls : List Decl}

/-- A shader that is checked to have a property is accepted and compiled. -/
theorem emit_of_check {q : Program → Bool}
    (h : (Program.check (Builtin.defaults ++ extra) d.sharesDecls decls).1.toOption.any q = true) :
    ∃ p events, (Program.check (Builtin.defaults ++ extra) d.sharesDecls decls).1 = .ok p ∧
      emit d extra decls = (.ok (p.write d), events) ∧ q p = true := by
  rcases hp : Program.check (Builtin.defaults ++ extra) d.sharesDecls decls with ⟨r, events⟩
  rw [hp] at h
  cases r with
  | error fault => cases h
  | ok p => exact ⟨p, events, rfl, by simp only [emit, hp]; rfl, h⟩

/-- The texts of an accepted shader are those of its two units. -/
theorem accepted_of_emit {c : Compiled} {events : List Event} (h : emit d extra decls = (.ok c, events)) :
    ∃ p, (Program.check (Builtin.defaults ++ extra) d.sharesDecls decls).1 = .ok p ∧ c = p.write d ∧
      Nonempty (Check.Accepted (.ofDecls (Builtin.defaults ++ extra) decls) d.sharesDecls p) := by
  have hrun : Program.check (Builtin.defaults ++ extra) d.sharesDecls decls =
      (((Check.program (Builtin.defaults ++ extra) d.sharesDecls decls).outcome {}).1,
        ((Check.program (Builtin.defaults ++ extra) d.sharesDecls decls).outcome {}).2.events.reverse) := rfl
  rcases ho : (Check.program (Builtin.defaults ++ extra) d.sharesDecls decls).outcome {} with ⟨r, s⟩
  rw [ho] at hrun
  simp only [emit, hrun] at h
  cases r with
  | error fault => simp [Except.map] at h
  | ok p =>
    refine ⟨p, by rw [hrun], ?_, Check.accepted_of_gives ho⟩
    exact (Except.ok.inj (Prod.mk.inj h).1).symm

theorem accepted_of_emit_ok {c : Compiled} (h : (emit d extra decls).1 = .ok c) :
    ∃ p, (Program.check (Builtin.defaults ++ extra) d.sharesDecls decls).1 = .ok p ∧ c = p.write d ∧
      Nonempty (Check.Accepted (.ofDecls (Builtin.defaults ++ extra) decls) d.sharesDecls p) :=
  accepted_of_emit (show emit d extra decls = (.ok c, (emit d extra decls).2) from Prod.ext h rfl)

/-- A shader that is not compiled is refused when it is checked. -/
theorem outcome_of_emit_error {e : Fault} (h : (emit d extra decls).1 = .error e) :
    ∃ s', (Check.program (Builtin.defaults ++ extra) d.sharesDecls decls).outcome {} = (.error e, s') := by
  have hrun : (emit d extra decls).1 =
      ((Check.program (Builtin.defaults ++ extra) d.sharesDecls decls).outcome {}).1.map (Program.write d) := rfl
  rw [hrun] at h
  rcases ho : (Check.program (Builtin.defaults ++ extra) d.sharesDecls decls).outcome {} with ⟨r, s'⟩
  rw [ho] at h
  cases r with
  | error e' =>
    obtain rfl : e' = e := Except.error.inj h
    exact ⟨s', rfl⟩
  | ok p => cases h

end Shading
