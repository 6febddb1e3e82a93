import Mathlib.Logic.Relation
import Shading.Proofs.Origins
import Shading.Proofs.References

/-!
# The graph of references

The functions and structs of a shader refer to each other. The stages and the types of the interface variables lead to
some of them, which are opened when the shader is checked: a name that is looked up on the way is opened before the
check goes on, so what holds of everything that is open holds of it.
-/

namespace Shading

open Relation

namespace Decl

/-- The declaration is a function or a struct, which is opened where it is used. -/
def canOpen : Decl → Bool
  | fn _ | struct _ => true
  | _ => false

def isFn : Decl → Bool
  | fn _ => true
  | _ => false

def isStruct : Decl → Bool
  | struct _ => true
  | _ => false

def refs : Decl → List Ident
  | attributeVar v | uniformVar v _ | varyingVar v => v.ty.refs []
  | struct d => d.refs
  | fn d => d.refs

end Decl

section Graph

variable (decls : List Decl)

/-- The name is that of a function or struct. -/
def Openable (x : Ident) : Prop := ∃ d ∈ decls, d.canOpen = true ∧ d.name = x

/-- A function or struct refers to a function or struct, in code that is kept or not. -/
def Refers (x y : Ident) : Prop := ∃ d ∈ decls, d.canOpen = true ∧ d.name = x ∧ y ∈ d.refs ∧ Openable decls y

/-- A function or struct that is the function of a stage, or occurs in the type of an interface variable. -/
def Starts (x : Ident) : Prop :=
  Openable decls x ∧ ((∃ stage : Stage, x = stage.entryPoint) ∨ ∃ d ∈ decls, d.canOpen = false ∧ x ∈ d.refs)

/-- The stages or the interface lead to the function or struct. -/
def Leads (x : Ident) : Prop := ∃ r, Starts decls r ∧ ReflTransGen (Refers decls) r x

end Graph

variable {decls : List Decl} {x : Ident}

theorem Leads.step {y : Ident} (h : Leads decls x) (hxy : Refers decls x y) : Leads decls y := by
  obtain ⟨r, hr, hpath⟩ := h
  exact ⟨r, hr, hpath.tail hxy⟩

namespace Check

/-- The names of all functions and structs that are open satisfy a predicate. -/
def AllOpen (P : Ident → Prop) (s : Expansion) : Prop := (∀ f ∈ s.fns, P f.name) ∧ ∀ d ∈ s.structs, P d.name

/-- No interface variable has the name of a function or struct. -/
def Apart (decls : List Decl) (vars : Scope Var) : Prop := ∀ x, Openable decls x → vars.lookup? x = none

variable {builtins : Builtins} {vars : Scope Var} {n : Nat} {u : Unfinished} {s s' : Expansion}

/-- A function or struct that is found is open. -/
theorem holds_of_found {P : Ident → Prop} (hvars : Apart decls vars) {span : Span} {info : Info}
    (h : Gives (globals (.ofDecls builtins decls) vars n u x span) s (some info) s') (hx : Openable decls x)
    (hs' : AllOpen P s') : P x := by
  rcases gives_globals h with ⟨v, hv, -, -⟩ | ⟨-, k, d, f, -, hd, hopen, -⟩ | ⟨-, -, k, d, f, -, hd, hopen, -⟩ |
    ⟨-, hf, hstruct, -⟩
  · rw [hvars x hx] at hv
    cases hv
  · have hname : d.name = x := by simpa using List.find?_some hd
    obtain ⟨hmem, hfound⟩ := found_of_openFn hopen
    exact hname ▸ hfound ▸ hs'.1 f hmem
  · have hname : d.name = x := by simpa using List.find?_some hd
    obtain ⟨hmem, hfound⟩ := found_of_openStruct hopen
    exact hname ▸ hfound ▸ hs'.2 f hmem
  · obtain ⟨d, hd, hopen, hname⟩ := hx
    cases d with
    | fn d => exact absurd (beq_iff_eq.2 hname) (List.find?_eq_none.1 hf d (mem_fns_ofDecls.2 hd))
    | struct d => exact absurd (beq_iff_eq.2 hname) (List.find?_eq_none.1 hstruct d (mem_structs_ofDecls.2 hd))
    | attributeVar | uniformVar | varyingVar => cases hopen

/-- What holds of everything that is open, as long as something is kept, holds of the names that a step has looked
up. -/
theorem holds_of_asked {α : Type} {I : Expansion → Prop} {P : Ident → Prop} (hframe : Frame fun s s' => I s → I s')
    (hopen : ∀ s, I s → AllOpen P s) {names : List Ident} {m : Globals → Check α} (hm : Asks (fun _ => True) names m)
    (hvars : Apart decls vars)
    (hk : ∀ x span, Keeps (fun s s' => I s → I s') (globals (.ofDecls builtins decls) vars n u x span)) {a : α}
    (h : Gives (m (globals (.ofDecls builtins decls) vars n u)) s a s')
    (hs : I s) : ∀ x ∈ names, Openable decls x → P x := by
  intro x hx hopens
  obtain ⟨span, s₁, info, s₂, hbefore, hfound, -⟩ := hm.asked hframe (fun x _ span => hk x span) h x hx
  exact holds_of_found hvars hfound hopens (hopen _ ((hk x span).of_gives hfound (hbefore hs)))

end Check

end Shading
