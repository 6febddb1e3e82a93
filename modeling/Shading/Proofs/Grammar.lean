import Shading.Tree.Parser

/-!
# The grammar

What a shader looks like, said without saying how one is read. Each relation ties a list of tokens to the
tree that they spell; the trees are *bare*, without the stretches of source that reading adds.

Expressions stand on rungs, from assignments down to primaries. An expression of one rung is also one of
the rung above it, and parentheses lead from the first rung back to the last. Assignments and
conditionals have their like on the right, the other binary operators on the left. The words `from`,
`to`, `step` and `in` are identifiers, which mean more only in the places that ask for them by their text.
-/

namespace Shading

/-! ## Bare trees -/

def TyExpr.bare : TyExpr → TyExpr
  | .keyword ty _ => .keyword ty .unset
  | .array elem len _ => .array elem.bare len .unset
  | .named name _ => .named name .unset

mutual

/-- The expression without the stretches of source it was read from. -/
def Expr.bare : Expr → Expr
  | .cond test yes no _ => .cond test.bare yes.bare no.bare .unset
  | .bin op left right _ => .bin op left.bare right.bare .unset
  | .un op operand _ => .un op operand.bare .unset
  | .index base i _ => .index base.bare i.bare .unset
  | .member base name _ => .member base.bare name .unset
  | .call name args _ => .call name (Expr.bareAll args) .unset
  | .construct ty args _ => .construct ty (Expr.bareAll args) .unset
  | .var name _ => .var name .unset
  | .lit value _ => .lit value .unset

def Expr.bareAll : List Expr → List Expr
  | [] => []
  | e :: es => e.bare :: Expr.bareAll es

end

theorem Expr.bareAll_eq (es : List Expr) : Expr.bareAll es = es.map Expr.bare := by
  induction es with
  | nil => rfl
  | cons e es ih => rw [Expr.bareAll, ih, List.map_cons]

mutual

def Stmt.bare : Stmt → Stmt
  | .breakStmt _ => .breakStmt .unset
  | .continueStmt _ => .continueStmt .unset
  | .forStmt name first bound step body _ =>
    .forStmt name first.bare bound.bare (step.map Expr.bare) body.bare .unset
  | .ifStmt test yes none _ => .ifStmt test.bare yes.bare none .unset
  | .ifStmt test yes (some no) _ => .ifStmt test.bare yes.bare (some no.bare) .unset
  | .letStmt name ty init _ => .letStmt name (ty.map TyExpr.bare) (init.map Expr.bare) .unset
  | .returnStmt value _ => .returnStmt (value.map Expr.bare) .unset
  | .blockStmt block _ => .blockStmt block.bare .unset
  | .exprStmt expr _ => .exprStmt expr.bare .unset

def Block.bare : Block → Block
  | .mk stmts _ => .mk (Stmt.bareAll stmts) .unset

def Stmt.bareAll : List Stmt → List Stmt
  | [] => []
  | s :: ss => s.bare :: Stmt.bareAll ss

end

theorem Stmt.bareAll_eq (ss : List Stmt) : Stmt.bareAll ss = ss.map Stmt.bare := by
  induction ss with
  | nil => rfl
  | cons s ss ih => rw [Stmt.bareAll, ih, List.map_cons]

theorem Stmt.bare_ifStmt (test : Expr) (yes : Block) (no : Option Block) (span : Span) :
    (Stmt.ifStmt test yes no span).bare = .ifStmt test.bare yes.bare (no.map Block.bare) .unset := by
  cases no <;> rfl

def TypedName.bare (v : TypedName) : TypedName := ⟨v.name, v.ty.bare, .unset⟩

def StructDecl.bare (d : StructDecl) : StructDecl := ⟨d.name, d.members.map TypedName.bare, .unset⟩

def FnDecl.bare (d : FnDecl) : FnDecl :=
  ⟨d.name, d.params.map TypedName.bare, d.result.map TyExpr.bare, d.body.bare, .unset⟩

def Decl.bare : Decl → Decl
  | .attributeVar v => .attributeVar v.bare
  | .uniformVar v block => .uniformVar v.bare block
  | .varyingVar v => .varyingVar v.bare
  | .struct d => .struct d.bare
  | .fn d => .fn d.bare

namespace Grammar

/-! ## Operators and rungs -/

/-- The rungs of expressions, from the operators that bind weakest to the parts that no operator splits. -/
inductive Rung where
  | assignment | conditional | or | and | equality | comparison | sum | product | unary | selection | primary
deriving DecidableEq

namespace Rung

/-- How tightly the operators of the rung bind. -/
def tightness : Rung → Nat
  | assignment => 0
  | conditional => 1
  | or => 2
  | and => 3
  | equality => 4
  | comparison => 5
  | sum => 6
  | product => 7
  | unary => 8
  | selection => 9
  | primary => 10

/-- The next tighter rung; there is none behind the last. -/
def next : Rung → Rung
  | assignment => conditional
  | conditional => or
  | or => and
  | and => equality
  | equality => comparison
  | comparison => sum
  | sum => product
  | product => unary
  | unary => selection
  | selection | primary => primary

theorem tightness_le_next (rung : Rung) : rung.tightness ≤ rung.next.tightness := by
  cases rung <;> decide

/-- The operators of the rung join operands from the left. -/
def isChain : Rung → Bool
  | or | and | equality | comparison | sum | product => true
  | _ => false

end Rung

/-- The rung of the expressions that an operator makes. -/
def rungOf : BinOp → Rung
  | .assign | .update _ => .assignment
  | .or => .or
  | .and => .and
  | .eq | .ne => .equality
  | .compare _ => .comparison
  | .arith .add | .arith .sub => .sum
  | .arith .mul | .arith .div => .product

/-- The token that an operator is written as. -/
def tokenOf : BinOp → Token.Kind
  | .assign => .equal
  | .update .add => .plusEqual
  | .update .sub => .minusEqual
  | .update .mul => .starEqual
  | .update .div => .slashEqual
  | .or => .pipePipe
  | .and => .ampAmp
  | .eq => .equalEqual
  | .ne => .bangEqual
  | .compare .lt => .less
  | .compare .le => .lessEqual
  | .compare .gt => .greater
  | .compare .ge => .greaterEqual
  | .arith .add => .plus
  | .arith .sub => .minus
  | .arith .mul => .star
  | .arith .div => .slash

def signOf : UnOp → Token.Kind
  | .not => .bang
  | .neg => .minus

/-- Operators are written as they are spelled. -/
theorem name_tokenOf (op : BinOp) : (tokenOf op).name = op.symbol := by
  rcases op with _ | (_ | _ | _ | _) | _ | _ | _ | _ | (_ | _ | _ | _) | (_ | _ | _ | _) <;> rfl

theorem name_signOf (op : UnOp) : (signOf op).name = op.symbol := by
  cases op <;> rfl

/-! ## Parts that repeat or may be left out -/

section Parts

variable {α : Type}

/-- Parts one behind the other. -/
inductive Sequence (Part : List Token → α → Prop) : List Token → List α → Prop
  | nil : Sequence Part [] []
  | cons {ts us : List Token} {a : α} {as : List α} :
    Part ts a → Sequence Part us as → Sequence Part (ts ++ us) (a :: as)

/-- Parts with a comma between each two; a comma may stand behind the last one. -/
inductive Items (Part : List Token → α → Prop) : List Token → List α → Prop
  | nil : Items Part [] []
  | last {ts : List Token} {a : α} : Part ts a → Items Part ts [a]
  | cons {ts us : List Token} {comma : Token} {a : α} {as : List α} :
    Part ts a → comma.kind = .comma → Items Part us as → Items Part (ts ++ comma :: us) (a :: as)

/-- A part that may be left out, together with the token that announces it. -/
inductive Announced (mark : Token → Prop) (Part : List Token → α → Prop) : List Token → Option α → Prop
  | absent : Announced mark Part [] none
  | present {t : Token} {ts : List Token} {a : α} :
    mark t → Part ts a → Announced mark Part (t :: ts) (some a)

theorem Items.map {β : Type} {Part : List Token → β → Prop} {f : α → β} {ts : List Token} {as : List α}
    (h : Items (fun ts a => Part ts (f a)) ts as) : Items Part ts (as.map f) := by
  induction h with
  | nil => exact .nil
  | last h => exact .last h
  | cons h hcomma _ ih => exact .cons h hcomma ih

theorem Items.imp {P Q : List Token → α → Prop} {ts : List Token} {as : List α} (h : Items P ts as)
    (hPQ : ∀ us a, us.length ≤ ts.length → P us a → Q us a) : Items Q ts as := by
  induction h with
  | nil => exact .nil
  | last h => exact .last (hPQ _ _ Nat.le.refl h)
  | @cons ts us comma a as h hcomma _ ih =>
    refine .cons (hPQ _ _ (by simp) h) hcomma (ih fun vs b hvs => hPQ vs b ?_)
    simp only [List.length_append, List.length_cons]
    omega

theorem Announced.map {β : Type} {mark : Token → Prop} {Part : List Token → β → Prop} {f : α → β}
    {ts : List Token} {a : Option α} (h : Announced mark (fun ts a => Part ts (f a)) ts a) :
    Announced mark Part ts (a.map f) := by
  cases h with
  | absent => exact .absent
  | present hmark h => exact .present hmark h

theorem Announced.imp {mark : Token → Prop} {P Q : List Token → α → Prop} {ts : List Token} {a : Option α}
    (h : Announced mark P ts a) (hPQ : ∀ us b, P us b → Q us b) : Announced mark Q ts a := by
  cases h with
  | absent => exact .absent
  | present hmark h => exact .present hmark (hPQ _ _ h)

theorem Sequence.map {β : Type} {Part : List Token → β → Prop} {f : α → β} {ts : List Token} {as : List α}
    (h : Sequence (fun ts a => Part ts (f a)) ts as) : Sequence Part ts (as.map f) := by
  induction h with
  | nil => exact .nil
  | cons h _ ih => exact .cons h ih

theorem Sequence.imp {P Q : List Token → α → Prop} {ts : List Token} {as : List α} (h : Sequence P ts as)
    (hPQ : ∀ us a, us.length ≤ ts.length → P us a → Q us a) : Sequence Q ts as := by
  induction h with
  | nil => exact .nil
  | @cons ts us a as h _ ih =>
    refine .cons (hPQ _ _ (by simp) h) (ih fun vs b hvs => hPQ vs b ?_)
    simp only [List.length_append]
    omega

end Parts

/-- The token is an identifier with the given text. -/
def IsWord (s : String) (t : Token) : Prop := t.kind = .ident ∧ t.lexeme = s

/-- One identifier. -/
inductive Name : List Token → Ident → Prop
  | mk {t : Token} : t.kind = .ident → Name [t] t.lexeme

/-! ## Types -/

def keywordTy (t : Token) : BasicTy := (BasicTy.ofName? t.lexeme).getD default

/-- The length of an array: an integer literal, with a minus sign in front or without. -/
inductive ArrayLength : List Token → Int → Prop
  | plain {t : Token} {v : Value} :
    t.kind = .intLiteral → Value.parse t.lexeme = .ok v → ArrayLength [t] v.toInt32.toInt
  | negative {minus t : Token} {v : Value} :
    minus.kind = .minus → t.kind = .intLiteral → Value.parse t.lexeme = .ok v →
    ArrayLength [minus, t] (-v.toInt32.toInt)

inductive TypeExpr : List Token → TyExpr → Prop
  | keyword {t : Token} : t.kind = .tyKeyword → TypeExpr [t] (.keyword (keywordTy t) .unset)
  | named {t : Token} : t.kind = .ident → TypeExpr [t] (.named t.lexeme .unset)
  | array {ts ns : List Token} {opening closing : Token} {elem : TyExpr} {len : Int} :
    TypeExpr ts elem → opening.kind = .leftBracket → ArrayLength ns len → closing.kind = .rightBracket →
    TypeExpr (ts ++ opening :: (ns ++ [closing])) (.array elem len .unset)

/-- A name, a colon and a type. -/
inductive Annotated : List Token → TypedName → Prop
  | mk {name colon : Token} {ts : List Token} {ty : TyExpr} :
    name.kind = .ident → colon.kind = .colon → TypeExpr ts ty →
    Annotated (name :: colon :: ts) ⟨name.lexeme, ty, .unset⟩

/-! ## Expressions -/

/-- The tokens spell an expression of the given rung. -/
inductive Expression : Rung → List Token → Expr → Prop
  | assignment {op : BinOp} {ls rs : List Token} {sign : Token} {l r : Expr} :
    rungOf op = .assignment → sign.kind = tokenOf op →
    Expression .conditional ls l → Expression .assignment rs r →
    Expression .assignment (ls ++ sign :: rs) (.bin op l r .unset)
  | conditional {cs ys ns : List Token} {question colon : Token} {c y n : Expr} :
    question.kind = .question → colon.kind = .colon →
    Expression .or cs c → Expression .assignment ys y → Expression .conditional ns n →
    Expression .conditional (cs ++ question :: (ys ++ colon :: ns)) (.cond c y n .unset)
  | binary {op : BinOp} {ls rs : List Token} {sign : Token} {l r : Expr} :
    (rungOf op).isChain = true → sign.kind = tokenOf op →
    Expression (rungOf op) ls l → Expression (rungOf op).next rs r →
    Expression (rungOf op) (ls ++ sign :: rs) (.bin op l r .unset)
  | unary {op : UnOp} {ts : List Token} {sign : Token} {e : Expr} :
    sign.kind = signOf op → Expression .unary ts e → Expression .unary (sign :: ts) (.un op e .unset)
  | index {bs is : List Token} {opening closing : Token} {b i : Expr} :
    opening.kind = .leftBracket → closing.kind = .rightBracket →
    Expression .selection bs b → Expression .assignment is i →
    Expression .selection (bs ++ opening :: (is ++ [closing])) (.index b i .unset)
  | member {bs : List Token} {dot name : Token} {b : Expr} :
    dot.kind = .dot → name.kind = .ident → Expression .selection bs b →
    Expression .selection (bs ++ [dot, name]) (.member b name.lexeme .unset)
  | call {name opening closing : Token} {ts : List Token} {args : List Expr} :
    name.kind = .ident → opening.kind = .leftParen → closing.kind = .rightParen →
    Items (Expression .assignment) ts args →
    Expression .primary (name :: opening :: (ts ++ [closing])) (.call name.lexeme args .unset)
  | construct {name opening closing : Token} {ts : List Token} {args : List Expr} :
    name.kind = .tyKeyword → opening.kind = .leftParen → closing.kind = .rightParen →
    Items (Expression .assignment) ts args →
    Expression .primary (name :: opening :: (ts ++ [closing])) (.construct (keywordTy name) args .unset)
  | var {name : Token} : name.kind = .ident → Expression .primary [name] (.var name.lexeme .unset)
  | lit {t : Token} {v : Value} :
    t.kind = .intLiteral ∨ t.kind = .floatLiteral ∨ t.kind = .boolLiteral → Value.parse t.lexeme = .ok v →
    Expression .primary [t] (.lit v .unset)
  | grouped {opening closing : Token} {ts : List Token} {e : Expr} :
    opening.kind = .leftParen → closing.kind = .rightParen → Expression .assignment ts e →
    Expression .primary (opening :: (ts ++ [closing])) e
  | loosen {rung : Rung} {ts : List Token} {e : Expr} :
    Expression rung.next ts e → Expression rung ts e

/-- Induction over the derivations of expressions, where the arguments of a call are derived before the call. -/
@[elab_as_elim]
theorem Expression.induct {P : (rung : Rung) → (ts : List Token) → (e : Expr) → Expression rung ts e → Prop}
    (assignment : ∀ {op ls rs} {sign : Token} {l r} (hop : rungOf op = .assignment)
      (hsign : sign.kind = tokenOf op) (hl : Expression .conditional ls l) (hr : Expression .assignment rs r),
      P _ _ _ hl → P _ _ _ hr → P _ _ _ (.assignment hop hsign hl hr))
    (conditional : ∀ {cs ys ns} {question colon : Token} {c y n} (hquestion : question.kind = .question)
      (hcolon : colon.kind = .colon) (hc : Expression .or cs c) (hy : Expression .assignment ys y)
      (hn : Expression .conditional ns n), P _ _ _ hc → P _ _ _ hy → P _ _ _ hn →
      P _ _ _ (.conditional hquestion hcolon hc hy hn))
    (binary : ∀ {op ls rs} {sign : Token} {l r} (hchain : (rungOf op).isChain = true)
      (hsign : sign.kind = tokenOf op) (hl : Expression (rungOf op) ls l) (hr : Expression (rungOf op).next rs r),
      P _ _ _ hl → P _ _ _ hr → P _ _ _ (.binary hchain hsign hl hr))
    (unary : ∀ {op ts} {sign : Token} {e} (hsign : sign.kind = signOf op) (he : Expression .unary ts e),
      P _ _ _ he → P _ _ _ (.unary hsign he))
    (index : ∀ {bs is} {opening closing : Token} {b i} (hopening : opening.kind = .leftBracket)
      (hclosing : closing.kind = .rightBracket) (hb : Expression .selection bs b) (hi : Expression .assignment is i),
      P _ _ _ hb → P _ _ _ hi → P _ _ _ (.index hopening hclosing hb hi))
    (member : ∀ {bs} {dot name : Token} {b} (hdot : dot.kind = .dot) (hname : name.kind = .ident)
      (hb : Expression .selection bs b), P _ _ _ hb → P _ _ _ (.member hdot hname hb))
    (call : ∀ {name opening closing : Token} {ts args} (hname : name.kind = .ident)
      (hopening : opening.kind = .leftParen) (hclosing : closing.kind = .rightParen)
      (hargs : Items (Expression .assignment) ts args),
      Items (fun us a => ∃ h : Expression .assignment us a, P _ _ _ h) ts args →
      P _ _ _ (.call hname hopening hclosing hargs))
    (construct : ∀ {name opening closing : Token} {ts args} (hname : name.kind = .tyKeyword)
      (hopening : opening.kind = .leftParen) (hclosing : closing.kind = .rightParen)
      (hargs : Items (Expression .assignment) ts args),
      Items (fun us a => ∃ h : Expression .assignment us a, P _ _ _ h) ts args →
      P _ _ _ (.construct hname hopening hclosing hargs))
    (var : ∀ {name : Token} (hname : name.kind = .ident), P _ _ _ (.var hname))
    (lit : ∀ {t : Token} {v} (hkind : t.kind = .intLiteral ∨ t.kind = .floatLiteral ∨ t.kind = .boolLiteral)
      (hparse : Value.parse t.lexeme = .ok v), P _ _ _ (.lit hkind hparse))
    (grouped : ∀ {opening closing : Token} {ts e} (hopening : opening.kind = .leftParen)
      (hclosing : closing.kind = .rightParen) (he : Expression .assignment ts e), P _ _ _ he →
      P _ _ _ (.grouped hopening hclosing he))
    (loosen : ∀ {rung ts e} (he : Expression rung.next ts e), P _ _ _ he → P rung _ _ (.loosen he))
    {rung : Rung} {ts : List Token} {e : Expr} (h : Expression rung ts e) : P rung ts e h := by
  refine @Expression.rec P
    (fun ts args _ => Items (fun us a => ∃ h : Expression .assignment us a, P _ _ _ h) ts args)
    assignment conditional binary unary index member call construct var lit grouped loosen .nil ?_ ?_ rung ts e h
  · intro ts a ha hP
    exact .last ⟨ha, hP⟩
  · intro ts us comma a as ha hcomma _ hP hPs
    exact .cons ⟨ha, hP⟩ hcomma hPs

/-- A token of the kind can start a primary. -/
def startsPrimary : Token.Kind → Bool
  | .intLiteral | .floatLiteral | .boolLiteral | .ident | .tyKeyword | .leftParen => true
  | _ => false

def startsExpression : Token.Kind → Bool
  | .minus | .bang => true
  | k => startsPrimary k

/-- An expression starts with a token that can start one; one without operators starts without a sign. -/
theorem Expression.starts {rung : Rung} {ts : List Token} {e : Expr} (h : Expression rung ts e) :
    ∃ t us, ts = t :: us ∧ startsExpression t.kind = true ∧
      (Rung.selection.tightness ≤ rung.tightness → startsPrimary t.kind = true) := by
  induction h using Expression.induct with
  | assignment _ _ _ _ ihl _ =>
    obtain ⟨t, us, rfl, ht, -⟩ := ihl
    exact ⟨t, _, rfl, ht, fun h => absurd h (by decide)⟩
  | conditional _ _ _ _ _ ihc _ _ =>
    obtain ⟨t, us, rfl, ht, -⟩ := ihc
    exact ⟨t, _, rfl, ht, fun h => absurd h (by decide)⟩
  | @binary op _ _ _ _ _ hchain _ _ _ ihl _ =>
    obtain ⟨t, us, rfl, ht, hselection⟩ := ihl
    exact ⟨t, _, rfl, ht, hselection⟩
  | @unary op _ sign _ hsign _ _ =>
    refine ⟨sign, _, rfl, ?_, fun h => absurd h (by decide)⟩
    rw [hsign]
    cases op <;> rfl
  | index _ _ _ _ ihb _ =>
    obtain ⟨t, us, rfl, ht, hselection⟩ := ihb
    exact ⟨t, _, rfl, ht, hselection⟩
  | member _ _ _ ihb =>
    obtain ⟨t, us, rfl, ht, hselection⟩ := ihb
    exact ⟨t, _, rfl, ht, hselection⟩
  | call hname => exact ⟨_, _, rfl, by rw [hname]; rfl, fun _ => by rw [hname]; rfl⟩
  | construct hname => exact ⟨_, _, rfl, by rw [hname]; rfl, fun _ => by rw [hname]; rfl⟩
  | var hname => exact ⟨_, _, rfl, by rw [hname]; rfl, fun _ => by rw [hname]; rfl⟩
  | lit hkind => exact ⟨_, _, rfl, by rcases hkind with h | h | h <;> rw [h] <;> rfl,
      fun _ => by rcases hkind with h | h | h <;> rw [h] <;> rfl⟩
  | grouped hopening => exact ⟨_, _, rfl, by rw [hopening]; rfl, fun _ => by rw [hopening]; rfl⟩
  | @loosen rung _ _ _ ih =>
    obtain ⟨t, us, rfl, ht, hselection⟩ := ih
    exact ⟨t, us, rfl, ht, fun h => hselection (Nat.le_trans h rung.tightness_le_next)⟩

/-! ## Statements -/

mutual

inductive Statement : List Token → Stmt → Prop
  | breakStmt {word stop : Token} :
    word.kind = .breakWord → stop.kind = .semicolon → Statement [word, stop] (.breakStmt .unset)
  | continueStmt {word stop : Token} :
    word.kind = .continueWord → stop.kind = .semicolon → Statement [word, stop] (.continueStmt .unset)
  | forStmt {word name fromWord toWord : Token} {fs bs ss ts : List Token} {first bound : Expr}
    {step : Option Expr} {body : Block} :
    word.kind = .forWord → name.kind = .ident →
    IsWord "from" fromWord → Expression .assignment fs first →
    IsWord "to" toWord → Expression .assignment bs bound →
    Announced (IsWord "step") (Expression .assignment) ss step → Braced ts body →
    Statement (word :: name :: fromWord :: (fs ++ toWord :: (bs ++ (ss ++ ts))))
      (.forStmt name.lexeme first bound step body .unset)
  | ifStmt {word : Token} {cs ys ns : List Token} {test : Expr} {yes : Block} {no : Option Block} :
    word.kind = .ifWord → Expression .assignment cs test → Braced ys yes → Otherwise ns no →
    Statement (word :: (cs ++ (ys ++ ns))) (.ifStmt test yes no .unset)
  | letStmt {word name stop : Token} {ts is : List Token} {ty : Option TyExpr} {init : Option Expr} :
    word.kind = .letWord → name.kind = .ident →
    Announced (·.kind = .colon) TypeExpr ts ty →
    Announced (·.kind = .equal) (Expression .assignment) is init → stop.kind = .semicolon →
    Statement (word :: name :: (ts ++ (is ++ [stop]))) (.letStmt name.lexeme ty init .unset)
  | returnStmt {word stop : Token} :
    word.kind = .returnWord → stop.kind = .semicolon → Statement [word, stop] (.returnStmt none .unset)
  | returnValue {word stop : Token} {vs : List Token} {value : Expr} :
    word.kind = .returnWord → Expression .assignment vs value → stop.kind = .semicolon →
    Statement (word :: (vs ++ [stop])) (.returnStmt (some value) .unset)
  | blockStmt {ts : List Token} {block : Block} : Braced ts block → Statement ts (.blockStmt block .unset)
  | exprStmt {ts : List Token} {stop : Token} {e : Expr} :
    Expression .assignment ts e → stop.kind = .semicolon → Statement (ts ++ [stop]) (.exprStmt e .unset)

/-- Statements between braces. -/
inductive Braced : List Token → Block → Prop
  | mk {opening closing : Token} {ts : List Token} {stmts : List Stmt} :
    opening.kind = .leftBrace → Sequence Statement ts stmts → closing.kind = .rightBrace →
    Braced (opening :: (ts ++ [closing])) (.mk stmts .unset)

/-- What may stand behind the first branch of an `if`: nothing, a block, or another `if`. -/
inductive Otherwise : List Token → Option Block → Prop
  | absent : Otherwise [] none
  | block {word : Token} {ts : List Token} {b : Block} :
    word.kind = .elseWord → Braced ts b → Otherwise (word :: ts) (some b)
  | chained {word again : Token} {ts : List Token} {stmt : Stmt} :
    word.kind = .elseWord → again.kind = .ifWord → Statement (again :: ts) stmt →
    Otherwise (word :: again :: ts) (some (.mk [stmt] .unset))

end

def startsStatement : Token.Kind → Bool
  | .leftBrace | .letWord | .forWord | .ifWord | .returnWord | .breakWord | .continueWord => true
  | k => startsExpression k

theorem startsStatement_of_startsExpression {k : Token.Kind} (h : startsExpression k = true) :
    startsStatement k = true := by
  unfold startsStatement
  split <;> first | rfl | exact h

theorem Statement.starts {ts : List Token} {s : Stmt} (h : Statement ts s) :
    ∃ t us, ts = t :: us ∧ startsStatement t.kind = true := by
  cases h with
  | breakStmt hword | continueStmt hword | forStmt hword | ifStmt hword | letStmt hword | returnStmt hword
  | returnValue hword => exact ⟨_, _, rfl, by rw [hword]; rfl⟩
  | blockStmt hblock =>
    cases hblock with
    | mk hopening => exact ⟨_, _, rfl, by rw [hopening]; rfl⟩
  | exprStmt he =>
    obtain ⟨t, us, rfl, ht, -⟩ := he.starts
    exact ⟨t, _, rfl, startsStatement_of_startsExpression ht⟩

/-! ## Declarations -/

inductive Declaration : List Token → Decl → Prop
  | attributeVar {word stop : Token} {vs : List Token} {v : TypedName} :
    word.kind = .attributeWord → Annotated vs v → stop.kind = .semicolon →
    Declaration (word :: (vs ++ [stop])) (.attributeVar v)
  | uniformVar {word stop : Token} {vs bs : List Token} {v : TypedName} {block : Option Ident} :
    word.kind = .uniformWord → Annotated vs v → Announced (IsWord "in") Name bs block →
    stop.kind = .semicolon → Declaration (word :: (vs ++ (bs ++ [stop]))) (.uniformVar v block)
  | varyingVar {word stop : Token} {vs : List Token} {v : TypedName} :
    word.kind = .varyingWord → Annotated vs v → stop.kind = .semicolon →
    Declaration (word :: (vs ++ [stop])) (.varyingVar v)
  | struct {word name opening closing : Token} {ms : List Token} {members : List TypedName} :
    word.kind = .structWord → name.kind = .ident → opening.kind = .leftBrace →
    Items Annotated ms members → closing.kind = .rightBrace →
    Declaration (word :: name :: opening :: (ms ++ [closing])) (.struct ⟨name.lexeme, members, .unset⟩)
  | fn {word name opening closing : Token} {ps rs bs : List Token} {params : List TypedName}
    {result : Option TyExpr} {body : Block} :
    word.kind = .fnWord → name.kind = .ident → opening.kind = .leftParen → Items Annotated ps params →
    closing.kind = .rightParen → Announced (·.kind = .arrow) TypeExpr rs result → Braced bs body →
    Declaration (word :: name :: opening :: (ps ++ closing :: (rs ++ bs)))
      (.fn ⟨name.lexeme, params, result, body, .unset⟩)

theorem Declaration.starts {ts : List Token} {d : Decl} (h : Declaration ts d) :
    ∃ t us, ts = t :: us ∧ t.kind.startsDecl = true := by
  cases h with
  | attributeVar hword | uniformVar hword | varyingVar hword | struct hword | fn hword =>
    exact ⟨_, _, rfl, by rw [hword]; rfl⟩

/-- A declaration ends with a semicolon or a brace. -/
theorem Declaration.stops {ts : List Token} {d : Decl} (h : Declaration ts d) :
    ∃ us t, ts = us ++ [t] ∧ (t.kind = .semicolon ∨ t.kind = .rightBrace) := by
  cases h with
  | attributeVar _ _ hstop | varyingVar _ _ hstop => exact ⟨_ :: _, _, rfl, .inl hstop⟩
  | @uniformVar word stop vs bs _ _ _ _ _ hstop => exact ⟨word :: (vs ++ bs), stop, by simp, .inl hstop⟩
  | struct _ _ _ _ hclosing => exact ⟨_ :: _ :: _ :: _, _, rfl, .inr hclosing⟩
  | @fn word name opening closing ps rs _ _ _ _ _ _ _ _ _ _ hbody =>
    cases hbody with
    | @mk opening' closing' ts _ _ _ hclosing =>
      exact ⟨word :: name :: opening :: (ps ++ closing :: (rs ++ opening' :: ts)), closing', by simp, .inr hclosing⟩

/-- The tokens of a whole text, without the one that marks its end. -/
def Shader : List Token → List Decl → Prop := Sequence Declaration

end Grammar

end Shading
