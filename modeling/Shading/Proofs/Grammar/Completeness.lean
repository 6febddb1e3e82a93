import Shading.Proofs.Grammar.Soundness

/-!
# What lies in the grammar is read

Tokens that spell a tree are read as that tree, whatever stands behind them, as long as the next token cannot go on
with it: `Accepts m ends view ts b` says so of a reader, a condition on the next token and what is compared of the
result. A left-recursive rule meets a loop that keeps its result so far; `Enters` says that reading the tokens of such
a rule comes to the loop with the tree of the rule in hand. The counts of the readers are bounded by numbers of tokens.
-/

namespace Shading.Parser

open List Grammar

/-- The kind of the first token, or of the end where there is none. -/
def firstKind (ts : List Token) : Token.Kind := (ts.headD endToken).kind

@[simp] theorem firstKind_cons (t : Token) (ts : List Token) : firstKind (t :: ts) = t.kind := rfl

theorem Cursor.kind_peek (c : Cursor) : c.peek.kind = firstKind c.ahead := rfl

variable {t : Token} {ts : List Token} {n : Nat} {k : Token.Kind} {rung : Rung} {e : Expr}

theorem Cursor.takes_of_ahead {c : Cursor} (h : c.ahead = t :: ts) :
    c.Takes t ⟨t, ts⟩ :=
  ⟨h, rfl⟩

theorem Cursor.takes_cons {last : Token} : Cursor.Takes ⟨last, t :: ts⟩ t ⟨t, ts⟩ := ⟨rfl, rfl⟩

section Accepting

variable {α β : Type}

/-- The tokens are read as `b`, if the reader stops before the next one. -/
def Accepts (m : Parser α) (ends : Token.Kind → Prop) (view : α → β) (ts : List Token) (b : β) : Prop :=
  ∀ ⦃c rest⦄, c.ahead = ts ++ rest → ends (firstKind rest) →
    ∃ a c', Reads m c a c' ∧ c'.ahead = rest ∧ view a = b

/-- Reading the tokens comes to the loop, with `b` read so far. -/
def Enters (m : Parser α) (loop : Cursor → Nat → α → Parser α) (ends : Token.Kind → Prop) (view : α → β)
    (ts : List Token) (b : β) : Prop :=
  ∀ ⦃c rest⦄, c.ahead = ts ++ rest → ends (firstKind rest) → ∃ a c₀, view a = b ∧ c₀.ahead = rest ∧
    ∀ a' c', (∀ k, rest.length ≤ k → Reads (loop c k a) c₀ a' c') → Reads m c a' c'

variable {m : Parser α} {loop : Cursor → Nat → α → Parser α} {ends ends' : Token.Kind → Prop} {view : α → β}
  {ts us : List Token} {b b' : β}

/-- The reader succeeds at `c`, and `Q` holds of its result and of where it gets to. -/
def Gets (m : Parser α) (c : Cursor) (Q : α → Cursor → Prop) : Prop := ∃ a c', Reads m c a c' ∧ Q a c'

namespace Gets

variable {f : α → Parser β} {c : Cursor} {Q : β → Cursor → Prop}

protected theorem pure (h : Q b c) : Gets (pure b) c Q := ⟨b, c, .pure, h⟩

theorem read {a : α} {c₁ : Cursor} (h : Reads m c a c₁) (hf : Gets (f a) c₁ Q) : Gets (m >>= f) c Q := by
  obtain ⟨b, c', hreads, hb⟩ := hf
  exact ⟨b, c', h.bind hreads, hb⟩

theorem remaining {f : Nat → Parser β} (hf : Gets (f c.ahead.length) c Q) : Gets (Parser.remaining >>= f) c Q :=
  read .remaining hf

theorem spanFrom {p : Position} {f : Span → Parser β} (hf : Gets (f ⟨p, c.last.span.stop⟩) c Q) :
    Gets (Parser.spanFrom p >>= f) c Q :=
  read .spanFrom hf

theorem refused {f : Bool → Parser β} (h : c.peek.kind ≠ k) (hf : Gets (f false) c Q) : Gets (accept k >>= f) c Q :=
  read (.refused h) hf

theorem yes {p : Prop} [Decidable p] {m n : Parser β} (hp : p) (h : Gets m c Q) : Gets (if p then m else n) c Q := by
  rwa [if_pos hp]

theorem no {p : Prop} [Decidable p] {m n : Parser β} (hp : ¬ p) (h : Gets n c Q) : Gets (if p then m else n) c Q := by
  rwa [if_neg hp]

variable (h : c.ahead = t :: us)
include h

theorem peek {f : Token → Parser β} (hf : Gets (f t) c Q) : Gets (Parser.peek >>= f) c Q := by
  rw [← (Cursor.takes_of_ahead h).peek] at hf
  exact read .peek hf

theorem advance {f : Token → Parser β} (ht : t.kind = k) (hk : k ≠ .eof) (hf : Gets (f t) ⟨t, us⟩ Q) :
    Gets (Parser.advance >>= f) c Q :=
  read ((Cursor.takes_of_ahead h).advance ht hk) hf

theorem accept {f : Bool → Parser β} (ht : t.kind = k) (hk : k ≠ .eof) (hf : Gets (f true) ⟨t, us⟩ Q) :
    Gets (Parser.accept k >>= f) c Q :=
  read ((Cursor.takes_of_ahead h).accept ht hk) hf

theorem expect {f : Unit → Parser β} (ht : t.kind = k) (hk : k ≠ .eof) (hf : Gets (f ()) ⟨t, us⟩ Q) :
    Gets (Parser.expect k >>= f) c Q :=
  read ((Cursor.takes_of_ahead h).expect ht hk) hf

theorem expectWord {w : String} {f : Unit → Parser β} (ht : IsWord w t) (hf : Gets (f ()) ⟨t, us⟩ Q) :
    Gets (Parser.expectWord w >>= f) c Q :=
  read ((Cursor.takes_of_ahead h).expectWord ht) hf

theorem ident {f : Ident → Parser β} (ht : t.kind = .ident) (hf : Gets (f t.lexeme) ⟨t, us⟩ Q) :
    Gets (Parser.ident >>= f) c Q :=
  read ((Cursor.takes_of_ahead h).ident ht) hf

end Gets

/-- Reading goes on behind the tokens of a part. -/
theorem Accepts.next {γ : Type} {f : α → Parser γ} {c : Cursor} {Q : γ → Cursor → Prop} (h : Accepts m ends view ts b)
    (hahead : c.ahead = ts ++ us) (hends : ends (firstKind us))
    (hf : ∀ a c', c'.ahead = us → view a = b → Gets (f a) c' Q) : Gets (m >>= f) c Q := by
  obtain ⟨a, c', hreads, hc', ha⟩ := h hahead hends
  exact .read hreads (hf a c' hc' ha)

/-- One turn of the loop takes some tokens. -/
theorem Enters.turn (h : Enters m loop ends view ts b) (hne : us ≠ [])
    (hends : ends (firstKind us))
    (hturn : ∀ c a c₀ rest, view a = b → c₀.ahead = us ++ rest → ends' (firstKind rest) →
      ∃ a₁ c₁, view a₁ = b' ∧ c₁.ahead = rest ∧
        ∀ k a' c', Reads (loop c k a₁) c₁ a' c' → Reads (loop c (k + 1) a) c₀ a' c') :
    Enters m loop ends' view (ts ++ us) b' := by
  intro c rest hahead hrest
  obtain ⟨u, us, rfl⟩ := exists_cons_of_ne_nil hne
  rw [append_assoc] at hahead
  obtain ⟨a, c₀, ha, hc₀, hloop⟩ := h hahead hends
  obtain ⟨a₁, c₁, ha₁, hc₁, hstep⟩ := hturn c a c₀ rest ha hc₀ hrest
  refine ⟨a₁, c₁, ha₁, hc₁, fun a' c' hreads => hloop a' c' fun k hk => ?_⟩
  -- A turn takes at least one token, so one less than the count is enough for the rest.
  obtain ⟨k, rfl⟩ : ∃ j, k = j + 1 := ⟨k - 1, by simp at hk; omega⟩
  refine hstep k a' c' (hreads k ?_)
  simp at hk
  omega

/-- The loop ends at a token that it does not want. -/
theorem Enters.accepts (h : Enters m loop ends view ts b) (hends : ∀ k, ends' k → ends k)
    (hstop : ∀ c k a c₀, ends' (firstKind c₀.ahead) → Reads (loop c k a) c₀ a c₀) :
    Accepts m ends' view ts b := by
  intro c rest hahead hrest
  obtain ⟨a, c₀, ha, rfl, hloop⟩ := h hahead (hends _ hrest)
  exact ⟨a, c₀, hloop a c₀ fun k _ => hstop c k a c₀ hrest, rfl, ha⟩

theorem Accepts.enters {first : Parser α} (h : Accepts first ends view ts b)
    (hm : ∀ c a c₁ a' c', Reads first c a c₁ → Reads (loop c c₁.ahead.length a) c₁ a' c' → Reads m c a' c') :
    Enters m loop ends view ts b := by
  intro c rest hahead hrest
  obtain ⟨a, c₁, hfirst, rfl, ha⟩ := h hahead hrest
  exact ⟨a, c₁, ha, rfl, fun a' c' hreads => hm c a c₁ a' c' hfirst (hreads _ Nat.le.refl)⟩

/-- Items between commas are read up to the closing token. -/
theorem accepts_items {item : Parser α} {close : Token.Kind} {bs : List β} (hclose : close ≠ .comma)
    (hcomma : ends .comma) (hends : ends close)
    (h : Items (fun ts b => Accepts item ends view ts b ∧ ts ≠ [] ∧ firstKind ts ≠ close ∧ firstKind ts ≠ .eof) ts bs)
    (hn : ts.length ≤ n) :
    Accepts (items item close n) (· = close) (List.map view) ts bs := by
  induction h generalizing n with
  | nil =>
    intro c rest hahead hrest
    refine ⟨[], c, ?_, hahead, rfl⟩
    cases n with
    | zero => exact .pure
    | succ n =>
      have hpeek : c.peek.kind = close := by
        rw [Cursor.kind_peek, hahead]
        exact hrest
      exact Reads.peek.bind (.yes (.inl hpeek) .pure)
  | @last ts b h =>
    intro c rest hahead hrest
    obtain ⟨hitem, hne, hfirst, hend⟩ := h
    obtain ⟨t, ts, rfl⟩ := exists_cons_of_ne_nil hne
    obtain ⟨n, rfl⟩ : ∃ j, n = j + 1 := ⟨n - 1, by simp at hn; omega⟩
    refine Gets.peek hahead (.no (not_or.2 ⟨hfirst, hend⟩) ?_)
    refine hitem.next hahead (hrest ▸ hends) fun a c₁ hc₁ ha => .refused ?_ (.pure ⟨hc₁, ha ▸ rfl⟩)
    rw [Cursor.kind_peek, hc₁, hrest]
    exact hclose
  | @cons ts us comma b bs h hkind hitems ih =>
    intro c rest hahead hrest
    obtain ⟨hitem, hne, hfirst, hend⟩ := h
    obtain ⟨t, ts, rfl⟩ := exists_cons_of_ne_nil hne
    obtain ⟨n, rfl⟩ : ∃ j, n = j + 1 := ⟨n - 1, by simp at hn; omega⟩
    rw [append_assoc] at hahead
    refine Gets.peek hahead (.no (not_or.2 ⟨hfirst, hend⟩) ?_)
    refine hitem.next hahead (by simpa [hkind] using hcomma) fun a c₁ hc₁ ha => .accept hc₁ hkind (by decide) ?_
    refine (ih (n := n) (by simp at hn; omega)).next rfl hrest fun as c₂ hc₂ has => ?_
    exact .pure ⟨hc₂, ha ▸ has ▸ rfl⟩

/-- A part that may be left out, if the token that announces it cannot stand behind. -/
theorem accepts_announced {mark : Parser Bool} {p : Token → Prop} {o : Option β}
    (hyes : ∀ {c t us}, c.ahead = t :: us → p t → Reads mark c true ⟨t, us⟩)
    (hno : ∀ {c}, ends' (firstKind c.ahead) → Reads mark c false c) (h : Announced p (Accepts m ends view) ts o) :
    Accepts (announced mark m) (fun next => ends next ∧ ends' next) (Option.map view) ts o := by
  intro c rest hahead hrest
  cases h with
  | absent => exact ⟨none, c, .left (hno (by rw [hahead]; exact hrest.2)), hahead, rfl⟩
  | @present t ts b ht h =>
    obtain ⟨a, c', hread, hc', rfl⟩ := h (c := ⟨t, ts ++ rest⟩) rfl hrest.1
    exact ⟨some a, c', .right (hyes hahead ht) hread, hc', rfl⟩

theorem accepts_announcedKind {o : Option β} (hk : k ≠ .eof) (h : Announced (·.kind = k) (Accepts m ends view) ts o) :
    Accepts (announced (accept k) m) (fun next => ends next ∧ next ≠ k) (Option.map view) ts o :=
  accepts_announced (fun hahead ht => (Cursor.takes_of_ahead hahead).accept ht hk) .refused h

/-- Behind a word that was left out no identifier may stand. -/
theorem accepts_announcedWord {w : String} {o : Option β} (h : Announced (IsWord w) (Accepts m ends view) ts o) :
    Accepts (announced (acceptWord w) m) (fun next => ends next ∧ next ≠ .ident) (Option.map view) ts o :=
  accepts_announced (fun hahead ht => (Cursor.takes_of_ahead hahead).acceptWord ht)
    (fun hnext => .refusedWord fun hword => hnext hword.1) h

end Accepting

/-! ## Types -/

theorem accepts_arrayLength {len : Int} (h : ArrayLength ts len) :
    Accepts arrayLength (fun _ => True) id ts len := by
  intro c rest hahead _
  cases h with
  | @plain t v hkind hparse =>
    have hsign : c.peek.kind ≠ .minus := by
      rw [(Cursor.takes_of_ahead hahead).peek, hkind]
      decide
    refine Gets.refused hsign (.peek hahead (.yes hkind (.advance hahead hkind (by decide) ?_)))
    rw [hparse]
    exact .pure ⟨rfl, rfl⟩
  | @negative minus t v hminus hkind hparse =>
    refine Gets.accept hahead hminus (by decide) (.peek rfl (.yes hkind (.advance rfl hkind (by decide) ?_)))
    rw [hparse]
    exact .pure ⟨rfl, rfl⟩

theorem enters_tyExpr {ty : TyExpr} (h : TypeExpr ts ty) :
    Enters tyExpr (fun c => arraySuffixes c.peek.start) (fun _ => True) TyExpr.bare ts ty := by
  induction h with
  | @keyword t hkind =>
    intro c rest hahead _
    have htakes : c.Takes t ⟨t, rest⟩ := Cursor.takes_of_ahead hahead
    obtain rfl := htakes.peek
    refine ⟨.keyword (keywordTy c.peek) c.peek.span, ⟨c.peek, rest⟩, rfl, rfl, fun ty' c' hreads => Reads.peek.bind ?_⟩
    simp only [hkind]
    exact (htakes.advance hkind (by decide)).bind (Reads.pure.bind (Reads.remaining.bind (hreads _ Nat.le.refl)))
  | @named t hkind =>
    intro c rest hahead _
    have htakes : c.Takes t ⟨t, rest⟩ := Cursor.takes_of_ahead hahead
    obtain rfl := htakes.peek
    refine ⟨.named c.peek.lexeme c.peek.span, ⟨c.peek, rest⟩, rfl, rfl, fun ty' c' hreads => Reads.peek.bind ?_⟩
    simp only [hkind]
    exact (htakes.advance hkind (by decide)).bind (Reads.pure.bind (Reads.remaining.bind (hreads _ Nat.le.refl)))
  | @array ts ns opening closing elem len _ hopening hlen hclosing ih =>
    refine ih.turn (cons_ne_nil _ _) trivial ?_
    rintro c ty c₀ rest rfl hc₀ -
    have hfirst : c₀.Takes opening ⟨opening, ns ++ closing :: rest⟩ := Cursor.takes_of_ahead (by simpa using hc₀)
    obtain ⟨_, c₁, hread, hc₁, rfl⟩ := accepts_arrayLength hlen (c := ⟨opening, ns ++ closing :: rest⟩) rfl trivial
    have hlast := Cursor.takes_of_ahead hc₁
    exact ⟨_, _, rfl, rfl, fun k ty' c' hreads => (hfirst.accept hopening (by decide)).bind (.yes rfl
      (hread.bind ((hlast.expect hclosing (by decide)).bind (Reads.spanFrom.bind hreads))))⟩

theorem accepts_tyExpr {ty : TyExpr} (h : TypeExpr ts ty) :
    Accepts tyExpr (· ≠ .leftBracket) TyExpr.bare ts ty := by
  refine (enters_tyExpr h).accepts (fun _ _ => trivial) ?_
  intro c k ty c₀ hstop
  cases k with
  | zero => exact .pure
  | succ k => exact (Reads.refused hstop).bind (.no Bool.false_ne_true .pure)

theorem accepts_typedName {v : TypedName} (h : Annotated ts v) :
    Accepts typedName (· ≠ .leftBracket) TypedName.bare ts v := by
  intro c rest hahead hrest
  cases h with
  | @mk name colon ts ty hname hcolon hty =>
    refine Gets.peek hahead (.ident hahead hname (.expect rfl hcolon (by decide) ?_))
    exact (accepts_tyExpr hty).next rfl hrest fun ty c hc hty => .spanFrom (.pure ⟨hc, hty ▸ rfl⟩)

/-! ## Expressions -/

/-- The rung of the expressions that go on with a token of the kind. -/
def joins : Token.Kind → Option Rung
  | .equal | .plusEqual | .minusEqual | .starEqual | .slashEqual => some .assignment
  | .question => some .conditional
  | .pipePipe => some .or
  | .ampAmp => some .and
  | .equalEqual | .bangEqual => some .equality
  | .less | .lessEqual | .greater | .greaterEqual => some .comparison
  | .plus | .minus => some .sum
  | .star | .slash => some .product
  | .leftBracket | .dot => some .selection
  | .leftParen => some .primary
  | _ => none

/-- An expression of the rung ends before a token of the kind. -/
def Ends (rung : Rung) (k : Token.Kind) : Prop := ∀ r, joins k = some r → r.tightness < rung.tightness

theorem Ends.of_none (h : joins k = none) : Ends rung k := by
  intro r hr
  rw [h] at hr
  cases hr

theorem Ends.of_some {r : Rung} (h : joins k = some r) (hr : r.tightness < rung.tightness) :
    Ends rung k := by
  rintro r' hr'
  obtain rfl := Option.some.inj (h.symm.trans hr')
  exact hr

theorem Ends.at (ht : t.kind = k) (h : Ends rung k) : Ends rung (firstKind (t :: ts)) := by
  rwa [firstKind_cons, ht]

/-- Where an expression ends, no token stands that goes on with it. -/
theorem Ends.ne {k' : Token.Kind} (h : Ends rung k) (hk : joins k' = some rung) : k ≠ k' := by
  rintro rfl
  exact absurd (h rung hk) (Nat.lt_irrefl _)

theorem Ends.next (h : Ends rung k) : Ends rung.next k :=
  fun r hr => Nat.lt_of_lt_of_le (h r hr) rung.tightness_le_next

theorem joins_tokenOf (op : BinOp) : joins (tokenOf op) = some (rungOf op) := by
  rcases op with _ | (_ | _ | _ | _) | _ | _ | _ | _ | (_ | _ | _ | _) | (_ | _ | _ | _) <;> rfl

/-- The operators of a rung do not stand where its expressions end. -/
theorem opsOf_eq_none (h : Ends rung k) : opsOf rung k = none := by
  cases hop : opsOf rung k with
  | none => rfl
  | some op =>
    obtain ⟨rfl, rfl⟩ := opsOf_eq_some.1 hop
    exact absurd (h _ (joins_tokenOf op)) (Nat.lt_irrefl _)

theorem tightness_lt_next (h : rung.isChain = true) : rung.tightness < rung.next.tightness := by
  cases rung <;> first | decide | cases h

section Readers

variable (sub : Level → Parser Expr)

def readerAt : Rung → Parser Expr
  | .assignment => assignment sub
  | .conditional => conditional sub
  | .or => chainLevels.foldl chain (unary sub)
  | .and => (chainLevels.take 5).foldl chain (unary sub)
  | .equality => (chainLevels.take 4).foldl chain (unary sub)
  | .comparison => (chainLevels.take 3).foldl chain (unary sub)
  | .sum => (chainLevels.take 2).foldl chain (unary sub)
  | .product => (chainLevels.take 1).foldl chain (unary sub)
  | .unary => unary sub
  | .selection => selection sub
  | .primary => primary sub

theorem readerAt_chain (h : rung.isChain = true) :
    readerAt sub rung = chain (readerAt sub rung.next) (opsOf rung) := by
  cases rung <;> first | rfl | cases h

end Readers

/-- The tokens are read as the expression by the reader of its rung. -/
def AcceptsAt (sub : Level → Parser Expr) (rung : Rung) : List Token → Expr → Prop :=
  Accepts (readerAt sub rung) (Ends rung) Expr.bare

/-- Reading comes to the loop over the operators of a chained rung. -/
def EntersChain (sub : Level → Parser Expr) (rung : Rung) : List Token → Expr → Prop :=
  Enters (readerAt sub rung) (fun _ => chainRest (readerAt sub rung.next) (opsOf rung)) (Ends rung.next) Expr.bare

/-- Reading comes to the loop over selections. -/
def EntersSelection (sub : Level → Parser Expr) : List Token → Expr → Prop :=
  Enters (selection sub) (fun _ => selections sub) (Ends .primary) Expr.bare

section Loops

variable {sub : Level → Parser Expr} {ts us : List Token} {e : Expr}

theorem EntersChain.accepts (h : EntersChain sub rung ts e) : AcceptsAt sub rung ts e := by
  refine Enters.accepts h (fun _ => Ends.next) fun c k a c₀ hends => ?_
  cases k with
  | zero => exact .pure
  | succ k =>
    refine Reads.peek.bind ?_
    simp only [Cursor.kind_peek, opsOf_eq_none hends]
    exact .pure

theorem AcceptsAt.entersChain (hchain : rung.isChain = true) (h : AcceptsAt sub rung.next ts e) :
    EntersChain sub rung ts e := by
  refine Accepts.enters h fun c a c₁ a' c' hfirst hloop => ?_
  rw [readerAt_chain sub hchain]
  exact hfirst.bind (Reads.remaining.bind hloop)

theorem EntersSelection.accepts (h : EntersSelection sub ts e) : AcceptsAt sub .selection ts e := by
  refine Enters.accepts h (fun _ => Ends.next) fun c k a c₀ hends => ?_
  cases k with
  | zero => exact .pure
  | succ k =>
    have hdot := Reads.refused (hends.ne rfl : c₀.peek.kind ≠ .dot)
    exact (Reads.refused (hends.ne rfl)).bind (.no Bool.false_ne_true (hdot.bind (.no Bool.false_ne_true .pure)))

theorem AcceptsAt.entersSelection (h : AcceptsAt sub .primary ts e) : EntersSelection sub ts e :=
  Accepts.enters h fun _ _ _ _ _ hfirst hloop => hfirst.bind (Reads.remaining.bind hloop)

end Loops

/-! ### One rule at a time

What stands inside an expression is read by `sub`. -/

section Rules

variable {sub : Level → Parser Expr}

/-- The tokens are read as the expression where one is nested in another. -/
def AcceptsNested (sub : Level → Parser Expr) (level : Level) : List Token → Expr → Prop :=
  Accepts (sub level) (Ends level.rung) Expr.bare

variable {sign opening closing name : Token} {es : List Expr}

theorem accepts_assignment {op : BinOp} {ls rs : List Token} {l r : Expr} (hop : rungOf op = .assignment)
    (hsign : sign.kind = tokenOf op) (hl : AcceptsAt sub .conditional ls l)
    (hr : AcceptsNested sub .assignment rs r) :
    AcceptsAt sub .assignment (ls ++ sign :: rs) (.bin op l r .unset) := by
  intro c rest hahead hrest
  rw [append_assoc] at hahead
  have hjoins : joins sign.kind = some .assignment := by rw [hsign, joins_tokenOf, hop]
  have hops : opsOf .assignment sign.kind = some op := opsOf_eq_some.2 ⟨hop, hsign.symm⟩
  refine Accepts.next hl hahead (Ends.of_some hjoins (by decide)) fun l c hc hl => .peek hc ?_
  simp only [show assignmentOp? sign.kind = some op from hops]
  refine .advance hc rfl (plain_of_opsOf hops).1 ?_
  exact Accepts.next hr rfl hrest fun r c hc hr => .pure ⟨hc, hl ▸ hr ▸ rfl⟩

theorem accepts_conditional {cs ys ns : List Token} {question colon : Token} {test yes no : Expr}
    (hquestion : question.kind = .question) (hcolon : colon.kind = .colon) (htest : AcceptsAt sub .or cs test)
    (hyes : AcceptsNested sub .assignment ys yes) (hno : AcceptsNested sub .conditional ns no) :
    AcceptsAt sub .conditional (cs ++ question :: (ys ++ colon :: ns)) (.cond test yes no .unset) := by
  intro c rest hahead hrest
  simp only [append_assoc, cons_append] at hahead
  refine Accepts.next htest hahead (.at hquestion (.of_some rfl (by decide))) fun test c hc htest => ?_
  refine .accept hc hquestion (by decide) (Accepts.next hyes rfl (.at hcolon (.of_none rfl)) fun yes c hc hyes => ?_)
  refine .expect hc hcolon (by decide) (Accepts.next hno rfl hrest fun no c hc hno => ?_)
  exact .pure ⟨hc, htest ▸ hyes ▸ hno ▸ rfl⟩

theorem enters_binary {op : BinOp} {ls rs : List Token} {l r : Expr} (hchain : (rungOf op).isChain = true)
    (hsign : sign.kind = tokenOf op) (hl : EntersChain sub (rungOf op) ls l)
    (hr : AcceptsAt sub (rungOf op).next rs r) :
    EntersChain sub (rungOf op) (ls ++ sign :: rs) (.bin op l r .unset) := by
  have hjoins : joins sign.kind = some (rungOf op) := by rw [hsign, joins_tokenOf]
  have hops : opsOf (rungOf op) sign.kind = some op := opsOf_eq_some.2 ⟨rfl, hsign.symm⟩
  refine Enters.turn hl (cons_ne_nil _ _) (Ends.of_some hjoins (tightness_lt_next hchain)) ?_
  rintro c l c₀ rest rfl hc₀ hrest
  have htakes : c₀.Takes sign ⟨sign, rs ++ rest⟩ := Cursor.takes_of_ahead hc₀
  obtain ⟨r, c₁, hright, hc₁, rfl⟩ := hr (c := ⟨sign, rs ++ rest⟩) rfl hrest
  refine ⟨binary op l r, c₁, rfl, hc₁, fun k a' c' hloop => Reads.peek.bind ?_⟩
  simp only [htakes.peek, hops]
  exact (htakes.advance rfl (plain_of_opsOf hops).1).bind (hright.bind hloop)

theorem accepts_unary {op : UnOp} (hsign : sign.kind = signOf op)
    (he : AcceptsNested sub .unary ts e) : AcceptsAt sub .unary (sign :: ts) (.un op e .unset) := by
  intro c rest hahead hrest
  refine Gets.peek hahead ?_
  simp only [unaryOp?_eq_some.2 hsign.symm]
  refine .advance hahead hsign (by cases op <;> decide) ?_
  exact Accepts.next he rfl hrest fun e c hc he => .spanFrom (.pure ⟨hc, he ▸ rfl⟩)

theorem enters_index {bs is : List Token} {b i : Expr} (hopening : opening.kind = .leftBracket)
    (hclosing : closing.kind = .rightBracket) (hb : EntersSelection sub bs b)
    (hi : AcceptsNested sub .assignment is i) :
    EntersSelection sub (bs ++ opening :: (is ++ [closing])) (.index b i .unset) := by
  refine Enters.turn hb (cons_ne_nil _ _) (.at hopening (.of_some rfl (by decide))) ?_
  rintro c b c₀ rest rfl hc₀ hrest
  have htakes : c₀.Takes opening ⟨opening, is ++ closing :: rest⟩ := Cursor.takes_of_ahead (by simpa using hc₀)
  obtain ⟨i, c₁, hread, hc₁, rfl⟩ := hi (c := ⟨opening, is ++ closing :: rest⟩) rfl (.at hclosing (.of_none rfl))
  have hexpect := (Cursor.takes_of_ahead hc₁).expect hclosing (by decide)
  exact ⟨.index b i _, _, rfl, rfl, fun k a' c' hloop => (htakes.accept hopening (by decide)).bind (.yes rfl
    (hread.bind (hexpect.bind (Reads.spanFrom.bind hloop))))⟩

theorem enters_member {bs : List Token} {dot : Token} {b : Expr} (hdot : dot.kind = .dot) (hname : name.kind = .ident)
    (hb : EntersSelection sub bs b) :
    EntersSelection sub (bs ++ [dot, name]) (.member b name.lexeme .unset) := by
  refine Enters.turn hb (cons_ne_nil _ _) (.at hdot (.of_some rfl (by decide))) ?_
  rintro c b c₀ rest rfl hc₀ hrest
  have htakes : c₀.Takes dot ⟨dot, name :: rest⟩ := Cursor.takes_of_ahead hc₀
  have hnext : Cursor.Takes ⟨dot, name :: rest⟩ name ⟨name, rest⟩ := Cursor.takes_of_ahead rfl
  have hbracket : c₀.peek.kind ≠ .leftBracket := by
    rw [htakes.peek, hdot]
    decide
  exact ⟨.member b name.lexeme _, ⟨name, rest⟩, rfl, rfl, fun k a' c' hloop => (Reads.refused hbracket).bind
    (.no Bool.false_ne_true ((htakes.accept hdot (by decide)).bind (.yes rfl
      ((hnext.ident hname).bind (Reads.spanFrom.bind hloop)))))⟩

theorem accepts_args (hopening : opening.kind = .leftParen) (hclosing : closing.kind = .rightParen)
    (hargs : Items (fun us a => Expression .assignment us a ∧ AcceptsNested sub .assignment us a) ts es) :
    Accepts (args sub) (fun _ => True) (List.map Expr.bare) (opening :: (ts ++ [closing])) es := by
  intro c rest hahead _
  have hitems : Items (fun us a => Accepts (sub .assignment) (Ends .assignment) Expr.bare us a ∧ us ≠ [] ∧
      firstKind us ≠ .rightParen ∧ firstKind us ≠ .eof) ts es := by
    refine hargs.imp fun us a _ ⟨hexpr, haccepts⟩ => ?_
    obtain ⟨t, us, rfl, hstart, -⟩ := hexpr.starts
    refine ⟨haccepts, cons_ne_nil _ _, fun h => ?_, fun h => ?_⟩ <;> rw [firstKind_cons] at h <;>
      rw [h] at hstart <;> cases hstart
  simp only [cons_append, append_assoc, nil_append] at hahead
  refine Gets.expect hahead hopening (by decide) (.remaining ?_)
  refine (accepts_items (by decide) (.of_none rfl) (.of_none rfl) hitems (by simp)).next rfl hclosing
    fun es c hc hes => ?_
  exact .expect hc hclosing (by decide) (.pure ⟨rfl, hes⟩)

theorem accepts_call (hname : name.kind = .ident) (hopening : opening.kind = .leftParen)
    (hclosing : closing.kind = .rightParen)
    (hargs : Items (fun us a => Expression .assignment us a ∧ AcceptsNested sub .assignment us a) ts es) :
    AcceptsAt sub .primary (name :: opening :: (ts ++ [closing])) (.call name.lexeme es .unset) := by
  intro c rest hahead _
  refine Gets.peek hahead ?_
  simp only [hname]
  refine .advance hahead hname (by decide) (.peek rfl (.yes hopening ?_))
  refine (accepts_args hopening hclosing hargs).next rfl trivial fun es c hc hes => .spanFrom (.pure ⟨hc, ?_⟩)
  rw [Expr.bare, Expr.bareAll_eq, hes]

theorem accepts_construct (hname : name.kind = .tyKeyword) (hopening : opening.kind = .leftParen)
    (hclosing : closing.kind = .rightParen)
    (hargs : Items (fun us a => Expression .assignment us a ∧ AcceptsNested sub .assignment us a) ts es) :
    AcceptsAt sub .primary (name :: opening :: (ts ++ [closing])) (.construct (keywordTy name) es .unset) := by
  intro c rest hahead _
  refine Gets.peek hahead ?_
  simp only [hname]
  refine .advance hahead hname (by decide) ?_
  refine (accepts_args hopening hclosing hargs).next rfl trivial fun es c hc hes => .spanFrom (.pure ⟨hc, ?_⟩)
  rw [Expr.bare, Expr.bareAll_eq, hes, keywordTy]

theorem accepts_var (hname : name.kind = .ident) :
    AcceptsAt sub .primary [name] (.var name.lexeme .unset) := by
  intro c rest hahead hrest
  refine Gets.peek hahead ?_
  simp only [hname]
  exact .advance hahead hname (by decide) (.read .peek (.no (hrest.ne rfl) (.pure ⟨rfl, rfl⟩)))

theorem accepts_lit {v : Value} (hkind : t.kind = .intLiteral ∨ t.kind = .floatLiteral ∨ t.kind = .boolLiteral)
    (hparse : Value.parse t.lexeme = .ok v) : AcceptsAt sub .primary [t] (.lit v .unset) := by
  intro c rest hahead _
  refine Gets.peek hahead ?_
  rcases hkind with hkind | hkind | hkind <;> simp only [hkind, hparse] <;>
    exact .advance hahead hkind (by decide) (.pure ⟨rfl, rfl⟩)

theorem accepts_grouped (hopening : opening.kind = .leftParen) (hclosing : closing.kind = .rightParen)
    (he : AcceptsNested sub .assignment ts e) :
    AcceptsAt sub .primary (opening :: (ts ++ [closing])) e := by
  intro c rest hahead _
  simp only [cons_append, append_assoc, nil_append] at hahead
  refine Gets.peek hahead ?_
  simp only [hopening]
  refine .advance hahead hopening (by decide) ?_
  refine Accepts.next he rfl (.at hclosing (.of_none rfl)) fun e c hc he => ?_
  exact .expect hc hclosing (by decide) (.pure ⟨rfl, he⟩)

theorem accepts_loosenAssignment (he : AcceptsAt sub .conditional ts e) :
    AcceptsAt sub .assignment ts e := by
  intro c rest hahead hrest
  refine Accepts.next he hahead hrest.next fun e c hc he => .read .peek ?_
  have hops : assignmentOp? c.peek.kind = none := by
    rw [Cursor.kind_peek, hc]
    exact (opsOf_eq_none hrest : opsOf .assignment _ = none)
  simp only [hops]
  exact .pure ⟨hc, he⟩

theorem accepts_loosenConditional (he : AcceptsAt sub .or ts e) :
    AcceptsAt sub .conditional ts e := by
  intro c rest hahead hrest
  refine Accepts.next he hahead hrest.next fun e c hc he => .refused ?_ (.pure ⟨hc, he⟩)
  rw [Cursor.kind_peek, hc]
  exact hrest.ne rfl

theorem accepts_loosenUnary (hexpr : Expression .selection ts e)
    (he : AcceptsAt sub .selection ts e) : AcceptsAt sub .unary ts e := by
  intro c rest hahead hrest
  obtain ⟨t, us, rfl, -, hstart⟩ := hexpr.starts
  have hsign : unaryOp? t.kind = none := by
    cases hop : unaryOp? t.kind with
    | none => rfl
    | some op =>
      have hprimary := hstart Nat.le.refl
      rw [← unaryOp?_eq_some.1 hop] at hprimary
      cases op <;> cases hprimary
  refine Gets.peek hahead ?_
  simp only [hsign]
  exact he hahead hrest.next

end Rules

/-- The tokens are read as the expression, with any count that is not smaller than their number. -/
structure Recognized (rung : Rung) (ts : List Token) (e : Expr) (n : Nat) : Prop where
  accepts : AcceptsAt (exprAt n) rung ts e
  entersChain : rung.isChain = true → EntersChain (exprAt n) rung ts e
  entersSelection : rung = .selection → EntersSelection (exprAt n) ts e

theorem Recognized.of_accepts (hchain : rung.isChain = false) (hselection : rung ≠ .selection)
    (h : AcceptsAt (exprAt n) rung ts e) : Recognized rung ts e n :=
  ⟨h, fun hc => absurd (hc.symm.trans hchain) nofun, fun hs => absurd hs hselection⟩

theorem Recognized.of_entersChain (hchain : rung.isChain = true)
    (h : EntersChain (exprAt n) rung ts e) : Recognized rung ts e n :=
  ⟨h.accepts, fun _ => h, fun hs => by subst hs; cases hchain⟩

theorem Recognized.of_entersSelection (h : EntersSelection (exprAt n) ts e) : Recognized .selection ts e n :=
  ⟨h.accepts, nofun, fun _ => h⟩

/-- What is nested in an expression has fewer tokens and is read with a smaller count. -/
theorem acceptsNested (level : Level) (hexpr : Expression level.rung ts e)
    (h : ∀ n, ts.length ≤ n + 1 → Recognized level.rung ts e n) (hn : ts.length ≤ n) :
    AcceptsNested (exprAt n) level ts e := by
  obtain ⟨t, us, rfl, -, -⟩ := hexpr.starts
  obtain ⟨n, rfl⟩ : ∃ j, n = j + 1 := ⟨n - 1, by simp at hn; omega⟩
  have haccepts := (h n hn).accepts
  cases level <;> exact haccepts

/-- Derived expressions are recognized. The induction is on the derivation; the tokens that a rule adds pay for the
step down to what is nested in it. -/
theorem recognized (h : Expression rung ts e) (hn : ts.length ≤ n + 1) : Recognized rung ts e n := by
  have hnested : ∀ {ts args n}, Items (fun us a => ∃ _ : Expression .assignment us a,
      ∀ {n : Nat}, us.length ≤ n + 1 → Recognized .assignment us a n) ts args → ts.length ≤ n →
      Items (fun us a => Expression .assignment us a ∧ AcceptsNested (exprAt n) .assignment us a) ts args := by
    intro ts args n hargs hlength
    refine hargs.imp fun us a hus ⟨ha, ih⟩ => ⟨ha, acceptsNested .assignment ha (fun _ => ih) (by omega)⟩
  induction h using Expression.induct generalizing n with
  | @assignment op ls rs sign l r hop hsign hl hr ihl ihr =>
    simp only [length_append, length_cons] at hn
    have hleft := (ihl (n := n) (by omega)).accepts
    have hright := acceptsNested .assignment hr (fun _ => ihr) (n := n) (by omega)
    exact .of_accepts rfl nofun (accepts_assignment hop hsign hleft hright)
  | conditional hquestion hcolon hc hy hno ihc ihy ihn =>
    simp only [length_append, length_cons] at hn
    have htest := (ihc (n := n) (by omega)).accepts
    have hyes := acceptsNested .assignment hy (fun _ => ihy) (n := n) (by omega)
    have hno := acceptsNested .conditional hno (fun _ => ihn) (n := n) (by omega)
    exact .of_accepts rfl nofun (accepts_conditional hquestion hcolon htest hyes hno)
  | binary hchain hsign hl hr ihl ihr =>
    simp only [length_append, length_cons] at hn
    have hleft := (ihl (n := n) (by omega)).entersChain hchain
    have hright := (ihr (n := n) (by omega)).accepts
    exact .of_entersChain hchain (enters_binary hchain hsign hleft hright)
  | unary hsign he ih =>
    have hoperand := acceptsNested .unary he (fun _ => ih) (Nat.le_of_succ_le_succ hn)
    exact .of_accepts rfl nofun (accepts_unary hsign hoperand)
  | index hopening hclosing hb hi ihb ihi =>
    simp only [length_append, length_cons, length_nil] at hn
    have hbase := (ihb (n := n) (by omega)).entersSelection rfl
    have hindex := acceptsNested .assignment hi (fun _ => ihi) (n := n) (by omega)
    exact .of_entersSelection (enters_index hopening hclosing hbase hindex)
  | member hdot hname hb ihb =>
    simp only [length_append, length_cons, length_nil] at hn
    have hbase := (ihb (n := n) (by omega)).entersSelection rfl
    exact .of_entersSelection (enters_member hdot hname hbase)
  | call hname hopening hclosing hargs ih =>
    exact .of_accepts rfl nofun (accepts_call hname hopening hclosing (hnested ih (by simp at hn; omega)))
  | construct hname hopening hclosing hargs ih =>
    exact .of_accepts rfl nofun (accepts_construct hname hopening hclosing (hnested ih (by simp at hn; omega)))
  | var hname => exact .of_accepts rfl nofun (accepts_var hname)
  | lit hkind hparse => exact .of_accepts rfl nofun (accepts_lit hkind hparse)
  | grouped hopening hclosing he ih =>
    have hinner := acceptsNested .assignment he (fun _ => ih) (n := n) (by simp at hn; omega)
    exact .of_accepts rfl nofun (accepts_grouped hopening hclosing hinner)
  | @loosen rung ts e he ih =>
    have hnext := ih hn
    cases rung with
    | assignment => exact .of_accepts rfl nofun (accepts_loosenAssignment hnext.accepts)
    | conditional => exact .of_accepts rfl nofun (accepts_loosenConditional hnext.accepts)
    | or | and | equality | comparison | sum | product =>
      exact .of_entersChain rfl (AcceptsAt.entersChain rfl hnext.accepts)
    | unary => exact .of_accepts rfl nofun (accepts_loosenUnary he hnext.accepts)
    | selection => exact .of_entersSelection hnext.accepts.entersSelection
    | primary => exact hnext

/-- Expressions are read as the grammar derives them. -/
theorem accepts_expression (h : Expression .assignment ts e) :
    Accepts expression (Ends .assignment) Expr.bare ts e := by
  intro c rest hahead hrest
  exact Gets.remaining (acceptsNested .assignment h (fun _ => recognized h) (by simp [hahead]) hahead hrest)

end Shading.Parser
