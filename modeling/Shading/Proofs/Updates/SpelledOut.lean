import Shading.Proofs.NormalForm.Spelling
import Shading.Proofs.Uses

/-!
# Updates written out

An update `l op= r` says the same as the assignment `l = l op r`. Here every update of an expression, a statement or a
function is replaced by its assignment, before checking and in the code that checking leaves.

The code that is written out uses what the other one does, and it reads the places that it updates. A place lies in a
varying if the variable it is a part of is one, so exactly the updates of such places make a difference to the needs.
-/

namespace Shading

/-! ## Before checking -/

namespace Expr

/-- A binary operator, written out if it updates. -/
def ofBin (op : BinOp) (l r : Expr) (span : Span) : Expr :=
  match op with
  | .update a => .bin .assign l (.bin (.arith a) l r span) span
  | op => .bin op l r span

mutual

/-- The expression with its updates written out. -/
def spelledOut : Expr → Expr
  | .cond c yes no span => .cond c.spelledOut yes.spelledOut no.spelledOut span
  | .bin op l r span => ofBin op l.spelledOut r.spelledOut span
  | .un op e span => .un op e.spelledOut span
  | .index b i span => .index b.spelledOut i.spelledOut span
  | .member b name span => .member b.spelledOut name span
  | .call f args span => .call f (spelledOutAll args) span
  | .construct ty args span => .construct ty (spelledOutAll args) span
  | .var x span => .var x span
  | .lit v span => .lit v span

def spelledOutAll : List Expr → List Expr
  | [] => []
  | e :: es => e.spelledOut :: spelledOutAll es

end

theorem length_spelledOutAll (es : List Expr) : (spelledOutAll es).length = es.length := by
  induction es with
  | nil => rfl
  | cons e es ih => simp [spelledOutAll, ih]

end Expr

mutual

def Stmt.spelledOut : Stmt → Stmt
  | .breakStmt span => .breakStmt span
  | .continueStmt span => .continueStmt span
  | .forStmt x first bound step body span =>
    .forStmt x first.spelledOut bound.spelledOut (step.map Expr.spelledOut) body.spelledOut span
  | .ifStmt test yes no span => .ifStmt test.spelledOut yes.spelledOut (Block.spelledOutElse no) span
  | .letStmt x ty init span => .letStmt x ty (init.map Expr.spelledOut) span
  | .returnStmt value span => .returnStmt (value.map Expr.spelledOut) span
  | .blockStmt b span => .blockStmt b.spelledOut span
  | .exprStmt e span => .exprStmt e.spelledOut span

def Stmt.spelledOutAll : List Stmt → List Stmt
  | [] => []
  | st :: rest => st.spelledOut :: Stmt.spelledOutAll rest

def Block.spelledOut : Block → Block
  | .mk ss span => .mk (Stmt.spelledOutAll ss) span

/-- The block behind `else` with its updates written out. -/
def Block.spelledOutElse : Option Block → Option Block
  | none => none
  | some b => some b.spelledOut

end

/-- The function with the updates of its body written out. -/
def FnDecl.spelledOut (d : FnDecl) : FnDecl := { d with body := d.body.spelledOut }

/-! ## Behind checking -/

namespace Term

/-- A binary operator, written out if it updates. -/
def ofBin (op : BinOp) (l r : Term) : Term :=
  match op with
  | .update a => .bin .assign l (.bin (.arith a) l r)
  | op => .bin op l r

/-- The place is a varying or a part of one. -/
@[simp] def inVarying : Term → Bool
  | .varyingVar _ => true
  | .index b _ => b.inVarying
  | .member b _ => b.inVarying
  | .swizzle b _ => b.inVarying
  | _ => false

/-- The operator updates a varying or a part of one. -/
def updates (op : BinOp) (l : Term) : Bool :=
  match op with
  | .update _ => l.inVarying
  | _ => false

mutual

/-- The expression with its updates written out. -/
@[simp] def spelledOut : Term → Term
  | .const v => .const v
  | .cond c yes no => .cond c.spelledOut yes.spelledOut no.spelledOut
  | .bin op l r => ofBin op l.spelledOut r.spelledOut
  | .un op e => .un op e.spelledOut
  | .index b i => .index b.spelledOut i.spelledOut
  | .member b name => .member b.spelledOut name
  | .swizzle b letters => .swizzle b.spelledOut letters
  | .call f deps args => .call f deps (spelledOutAll args)
  | .builtin f args => .builtin f (spelledOutAll args)
  | .makeStruct s args => .makeStruct s (spelledOutAll args)
  | .construct ty args => .construct ty (spelledOutAll args)
  | .attributeVar x => .attributeVar x
  | .uniformVar block x => .uniformVar block x
  | .varyingVar x => .varyingVar x
  | .localVar x => .localVar x

@[simp] def spelledOutAll : List Term → List Term
  | [] => []
  | t :: ts => t.spelledOut :: spelledOutAll ts

end

mutual

/-- Some update in the expression is of a varying. -/
@[simp] def updatesVarying : Term → Bool
  | .cond c yes no => c.updatesVarying || yes.updatesVarying || no.updatesVarying
  | .bin op l r => updates op l || l.updatesVarying || r.updatesVarying
  | .un _ e => e.updatesVarying
  | .index b i => b.updatesVarying || i.updatesVarying
  | .member b _ => b.updatesVarying
  | .swizzle b _ => b.updatesVarying
  | .call _ _ args | .builtin _ args | .makeStruct _ args | .construct _ args => anyUpdatesVarying args
  | .const _ | .attributeVar _ | .uniformVar _ _ | .varyingVar _ | .localVar _ => false

/-- Some update in one of the expressions is of a varying. -/
@[simp] def anyUpdatesVarying : List Term → Bool
  | [] => false
  | t :: ts => t.updatesVarying || anyUpdatesVarying ts

end

end Term

namespace Code

/-- An assignment, written out if it updates. -/
def ofAssign (op : BinOp) (l r : Term) : Code :=
  match op with
  | .update a => .assign .assign l (.bin (.arith a) l r)
  | op => .assign op l r

mutual

@[simp] def spelledOut : Code → Code
  | .exitLoop => .exitLoop
  | .nextTurn => .nextTurn
  | .assign op l r => ofAssign op l.spelledOut r.spelledOut
  | .eval t => .eval t.spelledOut
  | .declare x ty init => .declare x ty (init.map Term.spelledOut)
  | .ret t => .ret (t.map Term.spelledOut)
  | .block body => .block (spelledOutAll body)
  | .loop x first bound step body => .loop x first bound step (spelledOutAll body)
  | .branch test yes no => .branch test.spelledOut (spelledOutAll yes) (spelledOutElse no)

@[simp] def spelledOutAll : List Code → List Code
  | [] => []
  | c :: cs => c.spelledOut :: spelledOutAll cs

@[simp] def spelledOutElse : Option Code → Option Code
  | none => none
  | some c => some c.spelledOut

end

mutual

/-- Some update in the statement is of a varying. -/
@[simp] def updatesVarying : Code → Bool
  | .exitLoop | .nextTurn => false
  | .assign op l r => Term.updates op l || l.updatesVarying || r.updatesVarying
  | .eval t => t.updatesVarying
  | .declare _ _ init => init.elim false Term.updatesVarying
  | .ret t => t.elim false Term.updatesVarying
  | .block body | .loop _ _ _ _ body => anyUpdatesVarying body
  | .branch test yes no => test.updatesVarying || anyUpdatesVarying yes || elseUpdatesVarying no

/-- Some update in one of the statements is of a varying. -/
@[simp] def anyUpdatesVarying : List Code → Bool
  | [] => false
  | c :: cs => c.updatesVarying || anyUpdatesVarying cs

@[simp] def elseUpdatesVarying : Option Code → Bool
  | none => false
  | some c => c.updatesVarying

end

end Code

/-- The function with the updates of its body written out, and its needs as they are. -/
def FnDef.spelledOut (f : FnDef) : FnDef := { f with body := Code.spelledOutAll f.body }

def FnDef.updatesVarying (f : FnDef) : Bool := Code.anyUpdatesVarying f.body

/-! ## Needs -/

namespace Deps

/-- The needs, together with that of reading varyings if the flag says so. -/
def reading (d : Deps) (reads : Bool) : Deps := { d with readsVaryings := d.readsVaryings || reads }

theorem has_reading (d : Deps) (reads : Bool) (n : Need) :
    (d.reading reads).Has n ↔ d.Has n ∨ (n = .readsVaryings ∧ reads = true) := by
  cases n with
  | fn | block =>
    simp only [Has, reduceCtorEq, false_and, or_false]
    rfl
  | readsAttributes | readsVaryings | writesVaryings => simp [Has, reading]

theorem reading_eq_iff {d : Deps} {reads : Bool} :
    d.reading reads = d ↔ (reads = true → d.readsVaryings = true) := by
  cases reads with
  | false => simp [reading]
  | true =>
    obtain ⟨fns, blocks, attributes, varyings, writes⟩ := d
    simp [reading, eq_comm]

end Deps

/-- One of the uses has the need. -/
def Use.AnyNeeds (us : List Use) (n : Need) : Prop := ∃ u ∈ us, u.Needs n

@[simp] theorem Use.not_anyNeeds_nil (n : Need) : ¬ Use.AnyNeeds [] n := by
  simp [AnyNeeds]

@[simp] theorem Use.anyNeeds_cons (u : Use) (us : List Use) (n : Need) :
    AnyNeeds (u :: us) n ↔ u.Needs n ∨ AnyNeeds us n := by
  simp [AnyNeeds]

@[simp] theorem Use.anyNeeds_append (us vs : List Use) (n : Need) :
    AnyNeeds (us ++ vs) n ↔ AnyNeeds us n ∨ AnyNeeds vs n := by
  simp only [AnyNeeds, List.mem_append, or_and_right, exists_or]

/-- The uses `vs` need what `us` do, and to read varyings if the flag says so, which it does for a varying that `us`
need to write. -/
structure Adds (us vs : List Use) (reads : Bool) : Prop where
  needs : ∀ n, Use.AnyNeeds vs n ↔ Use.AnyNeeds us n ∨ (n = .readsVaryings ∧ reads = true)
  writes : reads = true → Use.AnyNeeds us .writesVaryings

namespace Adds

variable {us vs us' vs' : List Use} {a b : Bool}

theorem same (us : List Use) : Adds us us false := ⟨by simp, by simp⟩

theorem twice (us : List Use) : Adds us (us ++ us) false := by
  refine ⟨fun n => ?_, by simp⟩
  simp only [Use.anyNeeds_append, or_self, Bool.false_eq_true, and_false, or_false]

theorem append (h : Adds us vs a) (h' : Adds us' vs' b) : Adds (us ++ us') (vs ++ vs') (a || b) := by
  refine ⟨fun n => ?_, fun hab => ?_⟩
  · simp only [Use.anyNeeds_append, h.needs n, h'.needs n, Bool.or_eq_true, and_or_left]
    exact or_or_or_comm ..
  · exact (Use.anyNeeds_append ..).2 ((Bool.or_eq_true_iff.1 hab).imp h.writes h'.writes)

theorem trans {ws : List Use} (h : Adds us vs a) (h' : Adds vs ws b) : Adds us ws (a || b) := by
  refine ⟨fun n => ?_, fun hab => ?_⟩
  · rw [h'.needs n, h.needs n, Bool.or_eq_true, and_or_left, or_assoc]
  · rcases Bool.or_eq_true_iff.1 hab with ha | hb
    · exact h.writes ha
    · simpa using (h.needs .writesVaryings).1 (h'.writes hb)

theorem covers {d : Deps} (h : Adds us vs a) (hd : Covers d us) : Covers (d.reading a) vs := by
  intro n
  rw [Deps.has_reading, hd n]
  exact (h.needs n).symm

/-- The needs of the added uses are those of the others, up to the reading. -/
theorem deps_eq {d d' : Deps} (h : Adds us vs a) (hd : Covers d us) (hd' : Covers d' vs) : d' = d.reading a :=
  Deps.ext_has fun n => by rw [hd' n, h.covers hd n]

end Adds

namespace Term

/-- A place that is also read needs no more than the place, except to read the varying it lies in. -/
theorem adds_read (t : Term) : Adds (t.uses true) (t.uses true ++ t.uses false) t.inVarying := by
  induction t with
  | varyingVar x =>
    refine ⟨fun n => ?_, fun _ => ?_⟩ <;> simp [Use.Needs]
  | index b i ihb =>
    refine ⟨fun n => ?_, fun hb => (Use.anyNeeds_append ..).2 (.inl (ihb.writes hb))⟩
    have hb := ihb.needs n
    rw [Use.anyNeeds_append] at hb
    simp only [uses, inVarying, Use.anyNeeds_append]
    tauto
  | member b name ih => exact ih
  | swizzle b letters ih => exact ih
  | const | cond | bin | un | call | builtin | makeStruct | construct | attributeVar | uniformVar | localVar =>
    exact Adds.twice _

/-- A place whose updates are written out lies in a varying if it did before. -/
theorem inVarying_spelledOut (t : Term) : t.spelledOut.inVarying = t.inVarying := by
  induction t with
  | bin op l r =>
    cases op <;> rfl
  | index b i ih => exact ih
  | member b name ih => exact ih
  | swizzle b letters ih => exact ih
  | const | cond | un | call | builtin | makeStruct | construct | attributeVar | uniformVar | varyingVar | localVar =>
    rfl

theorem updates_spelledOut (op : BinOp) (l : Term) : updates op l.spelledOut = updates op l := by
  cases op with
  | update a => exact inVarying_spelledOut l
  | assign | or | and | eq | ne | compare | arith => rfl

/-- A written out operator reads the place that it updates. -/
theorem adds_ofBin (op : BinOp) (place : Bool) (l r : Term) :
    Adds ((Term.bin op l r).uses place) ((ofBin op l r).uses place) (updates op l) := by
  cases op with
  | update a =>
    have h := (adds_read l).append (Adds.same (r.uses false))
    simpa [ofBin, updates, BinOp.isAssignment] using h
  | assign | or | and | eq | ne | compare | arith => exact Adds.same _

theorem adds_spelledOutAll {ts : List Term}
    (h : ∀ t ∈ ts, ∀ place, Adds (t.uses place) (t.spelledOut.uses place) t.updatesVarying) :
    Adds (usesAll ts) (usesAll (spelledOutAll ts)) (anyUpdatesVarying ts) := by
  induction ts with
  | nil => exact Adds.same _
  | cons t ts ih =>
    exact (h t List.mem_cons_self false).append (ih fun t ht => h t (List.mem_cons_of_mem _ ht))

/-- A written out expression needs what the expression does, and to read the varyings that it updates. -/
theorem adds_spelledOut (t : Term) (place : Bool) :
    Adds (t.uses place) (t.spelledOut.uses place) t.updatesVarying := by
  induction t generalizing place with
  | const | attributeVar | uniformVar | varyingVar | localVar => exact Adds.same _
  | cond c yes no ihc ihyes ihno => exact ((ihc false).append (ihyes false)).append (ihno false)
  | bin op l r ihl ihr =>
    have hparts := (ihl op.isAssignment).append (ihr false)
    have hop := adds_ofBin op place l.spelledOut r.spelledOut
    rw [updates_spelledOut] at hop
    rw [updatesVarying, Bool.or_assoc, Bool.or_comm]
    exact hparts.trans hop
  | un op e ih => exact ih false
  | index b i ihb ihi => exact (ihb place).append (ihi false)
  | member b name ih => exact ih place
  | swizzle b letters ih => exact ih place
  | call f deps args ih => exact (Adds.same [.fn f deps]).append (adds_spelledOutAll ih)
  | builtin f args ih => exact adds_spelledOutAll ih
  | makeStruct s args ih => exact (Adds.same [.struct s]).append (adds_spelledOutAll ih)
  | construct ty args ih => exact adds_spelledOutAll ih

end Term

namespace Code

theorem adds_ofAssign (op : BinOp) (l r : Term) :
    Adds ((Code.assign op l r).uses) ((ofAssign op l r).uses) (Term.updates op l) := by
  cases op with
  | update a => exact Term.adds_ofBin (.update a) false l r
  | assign | or | and | eq | ne | compare | arith => exact Adds.same _

theorem adds_value (t : Option Term) :
    Adds (t.elim [] (Term.uses false)) ((t.map Term.spelledOut).elim [] (Term.uses false))
      (t.elim false Term.updatesVarying) := by
  cases t with
  | none => exact Adds.same _
  | some t => exact t.adds_spelledOut false

mutual

/-- A written out statement needs what the statement does, and to read the varyings that it updates. -/
theorem adds_spelledOut (c : Code) : Adds c.uses c.spelledOut.uses c.updatesVarying := by
  cases c with
  | exitLoop => exact Adds.same _
  | nextTurn => exact Adds.same _
  | assign op l r =>
    have hparts := (l.adds_spelledOut op.isAssignment).append (r.adds_spelledOut false)
    have hop := adds_ofAssign op l.spelledOut r.spelledOut
    rw [Term.updates_spelledOut] at hop
    rw [updatesVarying, Bool.or_assoc, Bool.or_comm]
    exact hparts.trans hop
  | eval t => exact t.adds_spelledOut false
  | declare x ty init => exact (Adds.same ty.localUses).append (adds_value init)
  | ret t => exact adds_value t
  | block body => exact adds_spelledOutAll body
  | loop x first bound step body => exact adds_spelledOutAll body
  | branch test yes no =>
    exact ((test.adds_spelledOut false).append (adds_spelledOutAll yes)).append (adds_spelledOutElse no)

theorem adds_spelledOutAll (cs : List Code) :
    Adds (usesAll cs) (usesAll (spelledOutAll cs)) (anyUpdatesVarying cs) := by
  cases cs with
  | nil => exact Adds.same _
  | cons c cs => exact (adds_spelledOut c).append (adds_spelledOutAll cs)

theorem adds_spelledOutElse (no : Option Code) :
    Adds (usesElse no) (usesElse (spelledOutElse no)) (elseUpdatesVarying no) := by
  cases no with
  | none => exact Adds.same _
  | some c => exact adds_spelledOut c

end

end Code

namespace FnDef

/-- A written out function needs what the function does, and to read the varyings that it updates. -/
theorem adds_spelledOut (f : FnDef) : Adds f.uses f.spelledOut.uses f.updatesVarying :=
  (Adds.same _).append (Code.adds_spelledOutAll f.body)

end FnDef

end Shading
