import Shading.Proofs.Grammar.Spans
import Shading.Proofs.Grammar.Steps

/-!
# What is read, and how far a reader gets

A reader may succeed or fail, but in both cases it stays in front of the next word that starts a declaration and in front
of the end: the tokens that it takes are *plain*. Where it succeeds, these tokens spell the bare tree of its result, and
the spans of the result lie over them (`Spread`). Where it fails, the error is at one of the tokens that it has taken or at
the one it has got to. This is shown of the small readers, is kept when they are put together, and so is shown for
each reader of the grammar. Nothing here depends on the counts that the readers keep: a count that ends only makes a
reader stop early, in front of a token that the grammar does not want there.
-/

namespace Shading

open List Grammar

/-- The token neither marks the end nor starts a declaration. -/
def Token.Plain (t : Token) : Prop := t.kind ≠ .eof ∧ t.kind.startsDecl = false

namespace Parser

/-- The error is at one of the tokens. -/
def LiesAt (e : SyntaxError) (ts : List Token) : Prop := ∃ t ∈ ts, e.span = t.span

/-- The tokens lie between the two cursors. -/
structure Cursor.Over (c : Cursor) (us : List Token) (c' : Cursor) : Prop where
  ahead : c.ahead = us ++ c'.ahead
  last : c'.last = us.getLastD c.last

section Steps

variable {α β : Type} {Q : List Token → α → Prop} {R : List Token → β → Prop} {c c₁ c₂ : Cursor} {us : List Token}

/-- What a reader comes to from a cursor: it has taken plain tokens, and these and the result are as `Q` says, or the error
is at one of them or at the next token. -/
def Lands (Q : List Token → α → Prop) (c : Cursor) (r : Except SyntaxError α × Cursor) : Prop :=
  ∃ us, c.Over us r.2 ∧ (∀ u ∈ us, u.Plain) ∧ (∀ a, r.1 = .ok a → Q us a) ∧
    ∀ e, r.1 = .error e → LiesAt e (us ++ [r.2.peek])

/-- Wherever the reader starts, it takes plain tokens and makes of them what `Q` says. -/
def Walks (m : Parser α) (Q : List Token → α → Prop) : Prop := ∀ c, Lands Q c (outcome m c)

/-- A reader that started at `c` has taken the tokens up to `c₁`, and `m` is the rest of it. -/
def GoesAt (c : Cursor) (us : List Token) (c₁ : Cursor) (m : Parser α) (Q : List Token → α → Prop) : Prop :=
  c.Over us c₁ → Lands (fun vs => Q (us ++ vs)) c₁ (outcome m c₁)

/-- A reader that started at `c` has taken the tokens, and `m` is the rest of it. -/
def Goes (c : Cursor) (us : List Token) (m : Parser α) (Q : List Token → α → Prop) : Prop :=
  ∀ c₁, GoesAt c us c₁ m Q

theorem Lands.imp {Q' : List Token → α → Prop} {r : Except SyntaxError α × Cursor} (h : Lands Q c r)
    (hQ : ∀ ts a, Q ts a → Q' ts a) : Lands Q' c r := by
  obtain ⟨us, hus, hplain, hok, herror⟩ := h
  exact ⟨us, hus, hplain, fun a ha => hQ us a (hok a ha), herror⟩

theorem walks_of_goes {m : Parser α} (h : ∀ c, Goes c [] m Q) : Walks m Q := fun c => h c c ⟨rfl, rfl⟩

theorem Cursor.Over.trans {vs : List Token} (h : c.Over us c₁) (h' : c₁.Over vs c₂) : c.Over (us ++ vs) c₂ where
  ahead := by rw [h.ahead, h'.ahead, append_assoc]
  last := by
    simp only [h'.last, h.last, getLastD_eq_getLast?, getLast?_append]
    cases vs.getLast? <;> rfl

theorem takes_advance (hpeek : c.peek.kind ≠ .eof) : c.Takes c.peek c.advance := (Cursor.takes_iff hpeek).2 ⟨rfl, rfl⟩

theorem over_advance (hpeek : c.peek.kind ≠ .eof) : c.Over [c.peek] c.advance :=
  ⟨(takes_advance hpeek).1, (takes_advance hpeek).2⟩

/-- A reader that has taken plain tokens already. -/
theorem Lands.shift {r : Except SyntaxError α × Cursor} (h : Lands (fun vs => Q (us ++ vs)) c₁ r) (hus : c.Over us c₁)
    (hplain : ∀ u ∈ us, u.Plain) : Lands Q c r := by
  obtain ⟨vs, hvs, hplain', hok, herror⟩ := h
  refine ⟨us ++ vs, hus.trans hvs, fun u hu => (mem_append.1 hu).elim (hplain u) (hplain' u), hok, fun e he => ?_⟩
  obtain ⟨t, ht, hspan⟩ := herror e he
  exact ⟨t, by rw [append_assoc]; exact mem_append_right us ht, hspan⟩

theorem goes_pure {a : α} (h : Q us a) : Goes c us (pure a) Q := by
  refine fun c₁ _ => ⟨[], ⟨rfl, rfl⟩, forall_mem_nil _, ?_, by rintro e ⟨⟩⟩
  rintro _ ⟨⟩
  rwa [append_nil]

/-- What is wanted is not the next token. -/
theorem goes_expected (what : Wanted) : Goes c us (expected what) Q := by
  refine fun c₁ _ => ⟨[], ⟨rfl, rfl⟩, forall_mem_nil _, by rintro a ⟨⟩, ?_⟩
  rintro e ⟨⟩
  exact ⟨c₁.peek, mem_singleton.2 rfl, rfl⟩

theorem goesAt_bind {m : Parser α} {f : α → Parser β} (hm : Lands Q c₁ (outcome m c₁))
    (hf : ∀ vs a, Q vs a → Goes c (us ++ vs) (f a) R) : GoesAt c us c₁ (m >>= f) R := by
  intro hus
  obtain ⟨vs, hvs, hplain, hok, herror⟩ := hm
  rw [outcome_bind]
  rcases hrun : outcome m c₁ with ⟨e | a, c₂⟩ <;> rw [hrun] at hvs hok herror
  · refine ⟨vs, hvs, hplain, by rintro b ⟨⟩, ?_⟩
    rintro _ ⟨⟩
    exact herror e rfl
  · have hrest := hf vs a (hok a rfl) c₂ (hus.trans hvs)
    simp only [append_assoc] at hrest
    exact hrest.shift hvs hplain

theorem goes_bind {m : Parser α} {f : α → Parser β} (hm : Walks m Q)
    (hf : ∀ vs a, Q vs a → Goes c (us ++ vs) (f a) R) : Goes c us (m >>= f) R :=
  fun c₁ => goesAt_bind (hm c₁) hf

theorem goes_peek {f : Token → Parser α} (h : ∀ c₁, GoesAt c us c₁ (f c₁.peek) Q) : Goes c us (peek >>= f) Q := h

theorem goes_remaining {f : Nat → Parser α} (h : ∀ n, Goes c us (f n) Q) : Goes c us (remaining >>= f) Q :=
  fun c₁ => h c₁.ahead.length c₁

theorem walks_peek {f : Token → Parser α} (h : ∀ c, GoesAt c [] c (f c.peek) Q) : Walks (peek >>= f) Q :=
  fun c => h c ⟨rfl, rfl⟩

theorem walks_remaining {f : Nat → Parser α} (h : ∀ n, Walks (f n) Q) : Walks (remaining >>= f) Q :=
  fun c => h c.ahead.length c

/-- The span from a place to the last token. -/
theorem goes_spanFrom {start : Position} {ts : List Token} {f : Span → Parser α}
    (hf : Goes c ts (f ⟨start, (stretch ts).stop⟩) Q) (hts : ts ≠ []) (hus : us = ts) :
    Goes c us (spanFrom start >>= f) Q := by
  subst hus
  intro c₁ hover
  have hrun : outcome (spanFrom start >>= f) c₁ = outcome (f ⟨start, c₁.last.span.stop⟩) c₁ := rfl
  have hlast : c₁.last = us.getLastD endToken := by
    rw [hover.last]
    obtain ⟨u, us, rfl⟩ := exists_cons_of_ne_nil hts
    rfl
  rw [hrun, hlast]
  exact hf c₁ hover

/-- The span of what was read since the start. -/
theorem goes_spanned {ts : List Token} {f : Span → Parser α} (hf : Goes c ts (f (stretch ts)) Q) (hts : ts ≠ [])
    (hus : us = ts) : Goes c us (spanFrom c.peek.start >>= f) Q := by
  subst hus
  intro c₁ hover
  have hpeek : c.peek.start = (stretch us).start := by
    rw [Cursor.peek, hover.ahead]
    obtain ⟨u, us, rfl⟩ := exists_cons_of_ne_nil hts
    rfl
  rw [hpeek]
  exact goes_spanFrom hf hts rfl c₁ hover

/-- The end of most readers: what was read gets its span. -/
theorem goes_node {node : α → Node} {ts : List Token} {f : Span → α} (hspelled : (node (f (stretch ts))).SpelledBy ts)
    (hchildren : Strewn Spread ts (node (f (stretch ts))).children) (hspan : ∀ s, (node (f s)).span = s) (hts : ts ≠ [])
    (hus : us = ts) : Goes c us (do return f (← spanFrom c.peek.start)) fun ts a => Spread ts (node a) :=
  goes_spanned (goes_pure (.whole hspelled hts (hspan _) hchildren)) hts hus

end Steps

/-! ## Single tokens -/

section Tokens

variable {α : Type} {Q : List Token → α → Prop} {c c₁ : Cursor} {us : List Token} {k : Token.Kind} {p : Token → Prop}

theorem plain_of_kind (hk : k ≠ .eof ∧ k.startsDecl = false) : ∀ t : Token, t.kind = k → t.Plain := by
  rintro t rfl
  exact hk

/-- Taking a plain token. -/
theorem goesAt_advance {f : Token → Parser α} (hpeek : c₁.peek.Plain) (hf : Goes c (us ++ [c₁.peek]) (f c₁.peek) Q) :
    GoesAt c us c₁ (advance >>= f) Q := by
  intro hus
  have hover := over_advance hpeek.1
  have hrun : outcome (advance >>= f) c₁ = outcome (f c₁.advance.last) c₁.advance := rfl
  have hrest := hf c₁.advance (hus.trans hover)
  simp only [append_assoc] at hrest
  rw [hrun, hover.last]
  exact hrest.shift hover (forall_mem_singleton.2 hpeek)

/-- Taking a literal, which may turn out to be none. -/
theorem goesAt_literal (hpeek : c₁.peek.Plain) {f : Value → α}
    (hf : ∀ v, Value.parse c₁.peek.lexeme = .ok v → Q (us ++ [c₁.peek]) (f v)) :
    GoesAt c us c₁ (do
      let _ ← advance
      match Value.parse c₁.peek.lexeme with
      | .ok v => return f v
      | .error e => failAt c₁.peek (.literal e)) Q := by
  cases hparse : Value.parse c₁.peek.lexeme with
  | ok v => exact goesAt_advance hpeek (goes_pure (hf v hparse))
  | error e =>
    refine fun _ => ⟨[c₁.peek], over_advance hpeek.1, forall_mem_singleton.2 hpeek, by rintro a ⟨⟩, ?_⟩
    rintro e ⟨⟩
    exact ⟨c₁.peek, mem_cons_self, rfl⟩

theorem goes_takeIf [DecidablePred p] (hp : ∀ t, p t → t.Plain) {m : Token → Parser α} {n : Parser α}
    (hm : ∀ t, p t → Goes c (us ++ [t]) (m t) Q) (hn : Goes c us n Q) :
    Goes c us (do
      let t ← peek
      if p t then
        let _ ← advance
        m t
      else n) Q := by
  refine goes_peek fun c₁ => ?_
  split
  · next h => exact goesAt_advance (hp _ h) (hm _ h)
  · exact hn c₁

/-- One token of the sort was taken, or none. -/
def Marked (p : Token → Prop) (us : List Token) (b : Bool) : Prop := (b = true ∧ ∃ t, p t ∧ us = [t]) ∨ b = false ∧ us = []

theorem walks_accept (hk : k ≠ .eof ∧ k.startsDecl = false) : Walks (accept k) (Marked (·.kind = k)) :=
  walks_of_goes fun _ => goes_takeIf (plain_of_kind hk) (fun t ht => goes_pure (.inl ⟨rfl, t, ht, rfl⟩))
    (goes_pure (.inr ⟨rfl, rfl⟩))

theorem walks_acceptWord (w : String) : Walks (acceptWord w) (Marked (IsWord w)) :=
  walks_of_goes fun _ => goes_takeIf (fun t ht => plain_of_kind (by decide) t ht.1)
    (fun t ht => goes_pure (.inl ⟨rfl, t, ht, rfl⟩)) (goes_pure (.inr ⟨rfl, rfl⟩))

theorem goes_marked {mark : Parser Bool} (hmark : Walks mark (Marked p)) {m n : Parser α}
    (hm : ∀ t, p t → Goes c (us ++ [t]) m Q) (hn : Goes c us n Q) : Goes c us (do if ← mark then m else n) Q := by
  refine goes_bind hmark fun vs b hb => ?_
  obtain ⟨rfl, t, ht, rfl⟩ | ⟨rfl, rfl⟩ := hb
  · exact hm t ht
  · rw [append_nil]
    exact hn

theorem goes_expect (hk : k ≠ .eof ∧ k.startsDecl = false) {f : Unit → Parser α}
    (hf : ∀ t, t.kind = k → Goes c (us ++ [t]) (f ()) Q) : Goes c us (expect k >>= f) Q := by
  refine goes_bind (Q := fun vs _ => ∃ t : Token, t.kind = k ∧ vs = [t]) (walks_of_goes fun c => ?_) ?_
  · exact goes_marked (walks_accept hk) (fun t ht => goes_pure ⟨t, ht, rfl⟩) (goes_expected _)
  · rintro _ _ ⟨t, ht, rfl⟩
    exact hf t ht

theorem goes_expectWord {w : String} {f : Unit → Parser α} (hf : ∀ t, IsWord w t → Goes c (us ++ [t]) (f ()) Q) :
    Goes c us (expectWord w >>= f) Q := by
  refine goes_bind (Q := fun vs _ => ∃ t, IsWord w t ∧ vs = [t]) (walks_of_goes fun c => ?_) ?_
  · exact goes_marked (walks_acceptWord w) (fun t ht => goes_pure ⟨t, ht, rfl⟩) (goes_expected _)
  · rintro _ _ ⟨t, ht, rfl⟩
    exact hf t ht

theorem walks_ident : Walks ident Name :=
  walks_of_goes fun _ => goes_takeIf (plain_of_kind (by decide)) (fun _ ht => goes_pure (.mk ht)) (goes_expected _)

theorem goes_ident {f : Ident → Parser α} (hf : ∀ t : Token, t.kind = .ident → Goes c (us ++ [t]) (f t.lexeme) Q) :
    Goes c us (ident >>= f) Q := by
  refine goes_bind walks_ident ?_
  rintro _ _ ⟨ht⟩
  exact hf _ ht

theorem walks_announced {mark : Parser Bool} {part : Parser α} (hmark : Walks mark (Marked p)) (hpart : Walks part Q) :
    Walks (announced mark part) (Announced p Q) := by
  refine walks_of_goes fun c => goes_marked hmark (fun t ht => ?_) (goes_pure .absent)
  rw [← bind_pure_comp]
  exact goes_bind hpart fun vs a ha => goes_pure (.present ht ha)

theorem walks_items {item : Parser α} (hitem : Walks item Q) (close : Token.Kind) (n : Nat) :
    Walks (items item close n) (Items Q) := by
  induction n with
  | zero => exact walks_of_goes fun _ => goes_pure .nil
  | succ n ih =>
    refine walks_peek fun c => ?_
    dsimp only
    split
    · exact goes_pure .nil c
    · refine goes_bind hitem (fun ts a ha => ?_) c
      refine goes_marked (walks_accept (by decide)) (fun comma hcomma => ?_) (goes_pure (.last ha))
      exact goes_bind ih fun us as has => goes_pure (by simpa using Items.cons ha hcomma has)

end Tokens

/-! ## Types -/

theorem walks_arrayLength : Walks arrayLength ArrayLength := by
  refine walks_of_goes fun c => goes_bind (walks_accept (by decide)) fun vs negative hsign => goes_peek fun c₁ => ?_
  split
  · next hkind =>
    refine goesAt_literal (plain_of_kind (by decide) _ hkind) fun v hv => ?_
    obtain ⟨rfl, minus, hminus, rfl⟩ | ⟨rfl, rfl⟩ := hsign
    · exact .negative hminus hkind hv
    · exact .plain hkind hv
  · exact goes_expected _ c₁

theorem goes_arraySuffixes (n : Nat) {c : Cursor} {us : List Token} {ty : TyExpr} (h : Spread us (.ty ty)) :
    Goes c us (arraySuffixes c.peek.start n ty) fun ts t => Spread ts (.ty t) := by
  induction n generalizing us ty with
  | zero => exact goes_pure h
  | succ n ih =>
    refine goes_marked (walks_accept (by decide)) (fun opening hopening => ?_) (goes_pure h)
    refine goes_bind walks_arrayLength fun ns len hlen => goes_expect (by decide) fun closing hclosing => ?_
    have hne : us ++ opening :: (ns ++ [closing]) ≠ [] := by simp
    refine goes_spanned (ih (.whole (.array h.spelledBy hopening hlen hclosing) hne rfl ?_)) hne (by simp)
    exact .part h (.none _)

theorem walks_tyExpr : Walks tyExpr fun ts t => Spread ts (.ty t) := by
  refine walks_peek fun c => ?_
  -- Whatever stands first is one token, and the suffixes behind it make arrays of its type.
  have hbase : ∀ {base : TyExpr}, Spread [c.peek] (.ty base) → c.peek.Plain → GoesAt c [] c (do
      let _ ← advance
      let base ← pure base
      arraySuffixes c.peek.start (← remaining) base) fun ts t => Spread ts (.ty t) := fun hbase hplain =>
    goesAt_advance hplain (goes_remaining fun n => goes_arraySuffixes n hbase)
  dsimp only
  split
  · next hkind => exact hbase (.whole (.keyword hkind) (by simp) rfl (.none _)) (plain_of_kind (by decide) _ hkind)
  · next hkind => exact hbase (.whole (.named hkind) (by simp) rfl (.none _)) (plain_of_kind (by decide) _ hkind)
  · exact goes_expected _ c

theorem walks_typedName : Walks typedName fun ts v => Spread ts (.var v) := by
  refine walks_peek fun c => goes_ident (fun name hname => goes_expect (by decide) fun colon hcolon => ?_) c
  refine goes_bind walks_tyExpr fun ts ty hty => ?_
  exact goes_node (.mk hname hcolon hty.spelledBy) (.skip (.skip (.last hty))) (fun _ => rfl) (by simp) (by simp)

/-! ## Expressions -/

def Level.rung : Level → Rung
  | .assignment => .assignment
  | .conditional => .conditional
  | .unary => .unary

/-- The operators of a rung, by their tokens. -/
def opsOf : Rung → Token.Kind → Option BinOp
  | .assignment => assignmentOp?
  | .or => orOp?
  | .and => andOp?
  | .equality => equalityOp?
  | .comparison => comparisonOp?
  | .sum => sumOp?
  | .product => productOp?
  | _ => fun _ => none

theorem opsOf_eq_some {rung : Rung} {k : Token.Kind} {op : BinOp} :
    opsOf rung k = some op ↔ rungOf op = rung ∧ tokenOf op = k := by
  constructor
  · intro h
    cases rung <;>
      simp only [opsOf, assignmentOp?, orOp?, andOp?, equalityOp?, comparisonOp?, sumOp?, productOp?,
        reduceCtorEq] at h <;>
      split at h <;> cases h <;> exact ⟨rfl, rfl⟩
  · rintro ⟨rfl, rfl⟩
    rcases op with _ | (_ | _ | _ | _) | _ | _ | _ | _ | (_ | _ | _ | _) | (_ | _ | _ | _) <;> rfl

theorem unaryOp?_eq_some {k : Token.Kind} {op : UnOp} : unaryOp? k = some op ↔ signOf op = k := by
  constructor
  · intro h
    unfold unaryOp? at h
    split at h <;> cases h <;> rfl
  · rintro rfl
    cases op <;> rfl

theorem plain_of_opsOf {rung : Rung} {t : Token} {op : BinOp} (h : opsOf rung t.kind = some op) : t.Plain := by
  obtain ⟨-, htoken⟩ := opsOf_eq_some.1 h
  refine plain_of_kind ?_ t htoken.symm
  rcases op with _ | (_ | _ | _ | _) | _ | _ | _ | _ | (_ | _ | _ | _) | (_ | _ | _ | _) <;> decide

/-- The tokens spell an expression of the rung, and its parts within it. -/
def Forms (rung : Rung) (ts : List Token) (e : Expr) : Prop := Expression rung ts e.bare ∧ Spread ts (.expr e)

section Spelling

variable {rung : Rung} {ts ls rs : List Token} {e l r : Expr} {op : BinOp} {sign : Token}

theorem Forms.loosen (h : Forms rung.next ts e) : Forms rung ts e := ⟨.loosen h.1, h.2⟩

theorem Forms.mk (h : Expression rung ts e.bare) (hspans : (Node.expr e).Spans ts)
    (hchildren : Strewn Spread ts (Node.expr e).children) : Forms rung ts e :=
  ⟨h, .mk h.weaken hspans hchildren⟩

theorem Forms.whole (h : Expression rung ts e.bare) (hts : ts ≠ []) (hspan : e.span = stretch ts)
    (hchildren : Strewn Spread ts (Node.expr e).children) : Forms rung ts e :=
  ⟨h, .whole h.weaken hts hspan hchildren⟩

theorem Forms.binary (h : Expression rung (ls ++ sign :: rs) (.bin op l.bare r.bare .unset)) (hl : Spread ls (.expr l))
    (hr : Spread rs (.expr r)) : Forms rung (ls ++ sign :: rs) (binary op l r) :=
  .mk h ⟨by simp, .inr ⟨_, rfl, rfl⟩, .inr ⟨_, rfl, rfl⟩⟩ (.part hl (.skip (.last hr)))

end Spelling

theorem goes_chainRest {operand : Parser Expr} {rung : Rung} (hchain : rung.isChain = true)
    (h : Walks operand (Forms rung.next)) (n : Nat) {c : Cursor} {us : List Token} {left : Expr}
    (hleft : Forms rung us left) : Goes c us (chainRest operand (opsOf rung) n left) (Forms rung) := by
  induction n generalizing us left with
  | zero => exact goes_pure hleft
  | succ n ih =>
    refine goes_peek fun c₁ => ?_
    split
    · exact goes_pure hleft c₁
    · next op hop =>
      refine goesAt_advance (plain_of_opsOf hop) (goes_bind h fun rs right hright => ?_)
      obtain ⟨rfl, htoken⟩ := opsOf_eq_some.1 hop
      rw [append_assoc]
      exact ih (.binary (.binary hchain htoken.symm hleft.1 hright.1) hleft.2 hright.2)

theorem walks_chain {operand : Parser Expr} {rung : Rung} (hchain : rung.isChain = true)
    (h : Walks operand (Forms rung.next)) : Walks (chain operand (opsOf rung)) (Forms rung) :=
  walks_of_goes fun _ => goes_bind h fun _ _ hleft => goes_remaining fun n => goes_chainRest hchain h n hleft.loosen

section Nested

variable {sub : Level → Parser Expr} (hsub : ∀ level, Walks (sub level) (Forms level.rung))
include hsub

theorem walks_args :
    Walks (args sub) fun ts es => ∃ opening us closing, ts = opening :: (us ++ [closing]) ∧
      opening.kind = .leftParen ∧ closing.kind = .rightParen ∧ Items (fun ts e => Spread ts (.expr e)) us es := by
  refine walks_of_goes fun c => goes_expect (by decide) fun opening hopening => goes_remaining fun n => ?_
  refine goes_bind (walks_items (hsub .assignment) _ n) fun us es hes => goes_expect (by decide) fun closing hclosing => ?_
  exact goes_pure ⟨opening, us, closing, by simp, hopening, hclosing, hes.imp fun _ _ _ h => h.2⟩

/-- A call or a conversion, behind its name. -/
theorem goes_applied {c : Cursor} {f : List Expr → Span → Expr}
    (hspelled : ∀ {opening closing : Token} {ts es s}, opening.kind = .leftParen → closing.kind = .rightParen →
      Items (Expression .assignment) ts (es.map Expr.bare) →
      Expression .primary (c.peek :: opening :: (ts ++ [closing])) (f es s).bare)
    (hspan : ∀ es s, (f es s).span = s) (hchildren : ∀ es s, (Node.expr (f es s)).children = es.map .expr) :
    Goes c [c.peek] (do
      let es ← args sub
      return f es (← spanFrom c.peek.start)) (Forms .primary) := by
  refine goes_bind (walks_args hsub) ?_
  rintro _ es ⟨opening, us, closing, rfl, hopening, hclosing, hes⟩
  have hne : c.peek :: opening :: (us ++ [closing]) ≠ [] := by simp
  have hes' : Items (Expression .assignment) us (es.map Expr.bare) := hes.spelled fun _ _ h => h
  refine goes_spanned (goes_pure (.whole (hspelled hopening hclosing hes') hne (hspan _ _) ?_)) hne rfl
  rw [hchildren]
  exact .skip (.skip ((Strewn.of_items hes).skipLast _))

theorem walks_primary : Walks (primary sub) (Forms .primary) := by
  refine walks_peek fun c => ?_
  have hlit : (c.peek.kind = .intLiteral ∨ c.peek.kind = .floatLiteral ∨ c.peek.kind = .boolLiteral) → ∀ v,
      Value.parse c.peek.lexeme = .ok v → Forms .primary [c.peek] (.lit v c.peek.span) := fun hkind v hv =>
    .whole (.lit hkind hv) (by simp) rfl (.none _)
  split <;> rename_i hkind
  case h_1 => exact goesAt_literal (plain_of_kind (by decide) _ hkind) (hlit (.inl hkind))
  case h_2 => exact goesAt_literal (plain_of_kind (by decide) _ hkind) (hlit (.inr (.inl hkind)))
  case h_3 => exact goesAt_literal (plain_of_kind (by decide) _ hkind) (hlit (.inr (.inr hkind)))
  case h_4 =>
    refine goesAt_advance (plain_of_kind (by decide) _ hkind) (goes_peek fun c₁ => ?_)
    split
    · refine goes_applied hsub (f := .call c.peek.lexeme) (fun hopening hclosing hes => ?_) (fun _ _ => rfl)
        (fun _ _ => rfl) c₁
      rw [Expr.bare, Expr.bareAll_eq]
      exact .call hkind hopening hclosing hes
    · exact goes_pure (.whole (.var hkind) (by simp) rfl (.none _)) c₁
  case h_5 =>
    refine goesAt_advance (plain_of_kind (by decide) _ hkind) ?_
    refine goes_applied hsub (f := .construct _) (fun hopening hclosing hes => ?_) (fun _ _ => rfl) (fun _ _ => rfl)
    rw [Expr.bare, Expr.bareAll_eq]
    exact .construct hkind hopening hclosing hes
  case h_6 =>
    refine goesAt_advance (plain_of_kind (by decide) _ hkind) (goes_bind (hsub .assignment) fun ts e he => ?_)
    refine goes_expect (by decide) fun closing hclosing => goes_pure ?_
    exact ⟨.grouped hkind hclosing he.1, .grouped hkind hclosing he.2⟩
  case h_7 => exact goes_expected _ c

theorem goes_selections (n : Nat) {c : Cursor} {us : List Token} {e : Expr} (he : Forms .selection us e) :
    Goes c us (selections sub n e) (Forms .selection) := by
  induction n generalizing us e with
  | zero => exact goes_pure he
  | succ n ih =>
    refine goes_marked (walks_accept (by decide)) (fun opening hopening => ?_) ?_
    · refine goes_bind (hsub .assignment) fun is i hi => goes_expect (by decide) fun closing hclosing => ?_
      have hne : us ++ opening :: (is ++ [closing]) ≠ [] := by simp
      refine goes_spanFrom (ih (.mk (.index hopening hclosing he.1 hi.1) ⟨hne, .inr ⟨_, rfl, rfl⟩, .inl rfl⟩ ?_)) hne (by simp)
      exact .part he.2 (.skip (.part hi.2 (.none _)))
    · refine goes_marked (walks_accept (by decide)) (fun dot hdot => goes_ident fun name hname => ?_) (goes_pure he)
      have hne : us ++ [dot, name] ≠ [] := by simp
      refine goes_spanFrom (ih (.mk (.member hdot hname he.1) ⟨hne, .inr ⟨_, rfl, rfl⟩, .inl rfl⟩ ?_)) hne (by simp)
      exact .part he.2 (.none _)

theorem walks_selection : Walks (selection sub) (Forms .selection) :=
  walks_of_goes fun _ => goes_bind (walks_primary hsub) fun _ _ he => goes_remaining fun n =>
    goes_selections hsub n (.loosen he)

theorem walks_unary : Walks (unary sub) (Forms .unary) := by
  refine walks_peek fun c => ?_
  split
  · next op hop =>
    have hsign := (unaryOp?_eq_some.1 hop).symm
    have hplain : c.peek.Plain := plain_of_kind (by cases op <;> decide) _ hsign
    refine goesAt_advance hplain (goes_bind (hsub .unary) fun ts e he => ?_)
    have hne : c.peek :: ts ≠ [] := by simp
    exact goes_spanned (goes_pure (.whole (.unary hsign he.1) hne rfl (.skip (.last he.2)))) hne rfl
  · exact fun _ => (walks_selection hsub c).imp fun _ _ he => .loosen he

theorem walks_chains : Walks (chainLevels.foldl chain (unary sub)) (Forms .or) := by
  have hproduct : Walks (chain (unary sub) productOp?) (Forms .product) := walks_chain rfl (walks_unary hsub)
  have hsum : Walks (chain _ sumOp?) (Forms .sum) := walks_chain rfl hproduct
  have hcomparison : Walks (chain _ comparisonOp?) (Forms .comparison) := walks_chain rfl hsum
  have hequality : Walks (chain _ equalityOp?) (Forms .equality) := walks_chain rfl hcomparison
  have hand : Walks (chain _ andOp?) (Forms .and) := walks_chain rfl hequality
  exact walks_chain rfl hand

theorem walks_conditional : Walks (conditional sub) (Forms .conditional) := by
  refine walks_of_goes fun c => goes_bind (walks_chains hsub) fun cs test htest => ?_
  refine goes_marked (walks_accept (by decide)) (fun question hquestion => ?_) (goes_pure (.loosen htest))
  refine goes_bind (hsub .assignment) fun ys yes hyes => goes_expect (by decide) fun colon hcolon => ?_
  refine goes_bind (hsub .conditional) fun ns no hno => goes_pure ?_
  have hspelled := Expression.conditional hquestion hcolon htest.1 hyes.1 hno.1
  have hspells : Forms .conditional _ (.cond test yes no (test.span.through no.span)) :=
    .mk hspelled ⟨by simp, .inr ⟨_, rfl, rfl⟩, .inr ⟨.expr no, rfl, rfl⟩⟩
      (.part htest.2 (.skip (.part hyes.2 (.skip (.last hno.2)))))
  simpa using hspells

theorem walks_assignment : Walks (assignment sub) (Forms .assignment) := by
  refine walks_of_goes fun c => goes_bind (walks_conditional hsub) fun ls left hleft => goes_peek fun c₁ => ?_
  split
  · exact goes_pure (.loosen hleft) c₁
  · next op hop =>
    have hop' : opsOf .assignment c₁.peek.kind = some op := hop
    obtain ⟨hrung, htoken⟩ := opsOf_eq_some.1 hop'
    refine goesAt_advance (plain_of_opsOf hop') (goes_bind (hsub .assignment) fun rs right hright => goes_pure ?_)
    rw [append_assoc]
    exact .binary (.assignment hrung htoken.symm hleft.1 hright.1) hleft.2 hright.2

end Nested

theorem walks_exprAt (n : Nat) (level : Level) : Walks (exprAt n level) (Forms level.rung) := by
  induction n generalizing level with
  | zero => exact walks_of_goes fun _ => goes_expected _
  | succ n ih =>
    cases level with
    | assignment => exact walks_assignment ih
    | conditional => exact walks_conditional ih
    | unary => exact walks_unary ih

theorem walks_expression : Walks expression fun ts e => Spread ts (.expr e) :=
  walks_remaining fun n c => (walks_exprAt n .assignment c).imp fun _ _ h => h.2

/-! ## Statements -/

section Statements

variable {c : Cursor}

/-- The end of most statements. -/
theorem goes_ended {us : List Token} {f : Span → Stmt}
    (hspelled : ∀ {stop : Token} s, stop.kind = .semicolon → Statement (us ++ [stop]) (f s).bare)
    (hspan : ∀ s, (f s).span = s) (hchildren : ∀ s, Strewn Spread us (Node.stmt (f s)).children) :
    Goes c us (do
      expect .semicolon
      return f (← spanFrom c.peek.start)) fun ts st => Spread ts (.stmt st) :=
  goes_expect (by decide) fun _ hstop =>
    goes_node (hspelled _ hstop) ((hchildren _).skipLast _) hspan (by simp) rfl

theorem goesAt_letStmt (hword : c.peek.kind = .letWord) : GoesAt c [] c letStmt fun ts st => Spread ts (.stmt st) := by
  refine goesAt_advance (plain_of_kind (by decide) _ hword) (goes_ident fun name hname => ?_)
  refine goes_bind (walks_announced (walks_accept (by decide)) walks_tyExpr) fun ts ty hty => ?_
  refine goes_bind (walks_announced (walks_accept (by decide)) walks_expression) fun is init hinit => ?_
  refine goes_ended (fun _ hstop => ?_) (fun _ => rfl) fun _ => ?_
  · rw [append_assoc, append_assoc]
    exact .letStmt hword hname (hty.spelled fun _ _ h => h) (hinit.spelled fun _ _ h => h) hstop
  · exact .skip (.skip ((Strewn.of_announced hty).append (Strewn.of_announced hinit)))

theorem goesAt_returnStmt (hword : c.peek.kind = .returnWord) :
    GoesAt c [] c returnStmt fun ts st => Spread ts (.stmt st) := by
  refine goesAt_advance (plain_of_kind (by decide) _ hword) (goes_peek fun c₁ => ?_)
  dsimp only
  split
  · exact goes_ended (fun _ hstop => .returnStmt hword hstop) (fun _ => rfl) (fun _ => .none _) c₁
  · rw [← bind_pure_comp, bind_assoc]
    refine goes_bind walks_expression (fun vs e he => ?_) c₁
    exact goes_ended (fun _ hstop => .returnValue hword he.spelledBy hstop) (fun _ => rfl) fun _ => .skip (.last he)

variable {block : Parser Block} (hblock : Walks block fun ts b => Braced ts b.bare ∧ Spread ts (.block b))
include hblock

theorem goesAt_forStmt (hword : c.peek.kind = .forWord) :
    GoesAt c [] c (forStmt block) fun ts st => Spread ts (.stmt st) := by
  refine goesAt_advance (plain_of_kind (by decide) _ hword) (goes_ident fun name hname => ?_)
  refine goes_expectWord fun fromWord hfrom => goes_bind walks_expression fun fs first hfirst => ?_
  refine goes_expectWord fun toWord hto => goes_bind walks_expression fun bs bound hbound => ?_
  refine goes_bind (walks_announced (walks_acceptWord _) walks_expression) fun ss step hstep => ?_
  refine goes_bind hblock fun ts body hbody => ?_
  have hspelled := Statement.forStmt hword hname hfrom hfirst.spelledBy hto hbound.spelledBy
    (hstep.spelled fun _ _ h => h) hbody.1
  refine goes_node hspelled ?_ (fun _ => rfl) (by simp) (by simp)
  exact .skip (.skip (.skip (.part hfirst (.skip (.part hbound ((Strewn.of_announced hstep).append (.last hbody.2)))))))

/-- The tokens behind an `else`. -/
def Branch (ts : List Token) (b : Block) : Prop :=
  (∀ word : Token, word.kind = .elseWord → Otherwise (word :: ts) (some b.bare)) ∧ Spread ts (.block b)

theorem goesAt_ifStmt (n : Nat) (hword : c.peek.kind = .ifWord) :
    GoesAt c [] c (ifStmt block n) fun ts st => Spread ts (.stmt st) ∧ ∃ t us, ts = t :: us ∧ t.kind = .ifWord := by
  induction n generalizing c with
  | zero => exact goes_expected _ c
  | succ n ih =>
    refine goesAt_advance (plain_of_kind (by decide) _ hword) ?_
    refine goes_bind walks_expression fun cs test htest => goes_bind hblock fun ys yes hyes => ?_
    refine goes_bind (Q := Announced (·.kind = .elseWord) Branch) (walks_announced (walks_accept (by decide)) ?_) ?_
    · refine walks_peek fun c => ?_
      split
      · next hif =>
        refine goesAt_bind (ih hif ⟨rfl, rfl⟩) fun ts st hst => goes_pure ?_
        obtain ⟨hst, again, us, rfl, hagain⟩ := hst
        refine ⟨fun word hword => .chained hword hagain hst.spelledBy, .mk (.inr ⟨_, rfl, hst.spelledBy⟩) ?_ (.last hst)⟩
        exact ⟨by simp, .inr ⟨_, rfl, rfl⟩, .inr ⟨_, rfl, rfl⟩⟩
      · exact fun _ => (hblock c).imp fun ts b hb => ⟨fun word hword => .block hword hb.1, hb.2⟩
    · intro ns no hno
      have hotherwise : Otherwise ns (no.map Block.bare) := by
        cases hno with
        | absent => exact .absent
        | present hword hb => exact hb.1 _ hword
      have hbranch : Strewn Spread ns (no.toList.map .block) := .of_announced (hno.imp fun _ _ hb => hb.2)
      have hne : c.peek :: (cs ++ (ys ++ ns)) ≠ [] := by simp
      refine goes_spanned (goes_pure ⟨.whole ?_ hne rfl (.skip (.part htest (.part hyes.2 hbranch))), _, _, rfl, hword⟩)
        hne (by simp)
      rw [Node.SpelledBy, Stmt.bare_ifStmt]
      exact .ifStmt hword htest.spelledBy hyes.1 hotherwise

theorem walks_statement : Walks (statement block) fun ts st => Spread ts (.stmt st) := by
  refine walks_peek fun c => ?_
  split <;> rename_i hword
  case h_1 =>
    refine goes_bind hblock (fun ts b hb => goes_pure (.mk (.blockStmt hb.1) ?_ (.last hb.2))) c
    exact ⟨hb.2.ne_nil, .inr ⟨_, rfl, rfl⟩, .inr ⟨_, rfl, rfl⟩⟩
  case h_2 => exact goesAt_letStmt hword
  case h_3 => exact goesAt_forStmt hblock hword
  case h_4 => exact fun hover => (goesAt_ifStmt hblock _ hword hover).imp fun _ _ h => h.1
  case h_5 => exact goesAt_returnStmt hword
  case h_6 =>
    refine goesAt_advance (plain_of_kind (by decide) _ hword) ?_
    exact goes_ended (fun _ hstop => .breakStmt hword hstop) (fun _ => rfl) fun _ => .none _
  case h_7 =>
    refine goesAt_advance (plain_of_kind (by decide) _ hword) ?_
    exact goes_ended (fun _ hstop => .continueStmt hword hstop) (fun _ => rfl) fun _ => .none _
  case h_8 =>
    refine goes_bind walks_expression (fun ts e he => ?_) c
    exact goes_ended (fun _ hstop => .exprStmt he.spelledBy hstop) (fun _ => rfl) fun _ => .last he

end Statements

theorem walks_statements {stmt : Parser Stmt} (h : Walks stmt fun ts st => Spread ts (.stmt st)) (n : Nat) :
    Walks (statements stmt n) (Sequence fun ts st => Spread ts (.stmt st)) := by
  induction n with
  | zero => exact walks_of_goes fun _ => goes_pure .nil
  | succ n ih =>
    refine walks_peek fun c => ?_
    dsimp only
    split
    · exact goes_pure .nil c
    · exact goes_bind h (fun _ _ hst => goes_bind ih fun _ _ hsts => goes_pure (.cons hst hsts)) c

theorem walks_blockAt (n : Nat) : Walks (blockAt n) fun ts b => Braced ts b.bare ∧ Spread ts (.block b) := by
  induction n with
  | zero => exact walks_of_goes fun _ => goes_expected _
  | succ n ih =>
    refine walks_peek fun c => goes_expect (by decide) (fun opening hopening => goes_remaining fun k => ?_) c
    refine goes_bind (walks_statements (walks_statement ih) k) fun ts sts hsts => ?_
    refine goes_expect (by decide) fun closing hclosing => ?_
    have hne : opening :: (ts ++ [closing]) ≠ [] := by simp
    have hbraced : Braced (opening :: (ts ++ [closing])) (.mk (Stmt.bareAll sts) .unset) := by
      rw [Stmt.bareAll_eq]
      exact .mk hopening (hsts.spelled fun _ _ h => h) hclosing
    refine goes_spanned (goes_pure ⟨hbraced, .whole (.inl hbraced) hne rfl ?_⟩) hne rfl
    exact .skip ((Strewn.of_sequence hsts).skipLast _)

theorem walks_block : Walks block fun ts b => Braced ts b.bare ∧ Spread ts (.block b) :=
  walks_remaining walks_blockAt

/-! ## Declarations -/

theorem walks_declared :
    Walks declared fun ts v => Annotated ts ⟨v.1, v.2.bare, .unset⟩ ∧ Strewn Spread ts [.ty v.2] := by
  refine walks_of_goes fun c => goes_bind walks_typedName fun ts v hv => goes_pure ?_
  cases hv with
  | mk hspelled _ hchildren => exact ⟨hspelled, hchildren⟩

theorem ne_eof_of_word {k : Token.Kind} (h : k.startsDecl = true) : k ≠ .eof := by
  rintro rfl
  cases h

theorem outcome_of_no_word {c : Cursor} (h : c.peek.kind.startsDecl = false) :
    outcome declaration c = (.error ⟨.wanted .declaration c.peek.kind, c.peek.span⟩, c) := by
  have hpeek : ∀ {f : Token → Parser Decl} {r}, outcome (f c.peek) c = r → outcome (peek >>= f) c = r := id
  apply hpeek
  split
  case h_6 => rfl
  all_goals
    rename_i hkind
    rw [hkind] at h
    cases h

/-- The word that starts a declaration is taken, and the reader walks behind it. -/
theorem lands_declaration {c : Cursor} (hword : c.peek.kind.startsDecl = true) :
    Lands (fun ts d => Spread (c.peek :: ts) (.decl d)) c.advance (outcome declaration c) := by
  have hpeek : ∀ {f : Token → Parser Decl}, outcome (peek >>= f) c = outcome (f c.peek) c := rfl
  have hgoes : ∀ {m : Parser Decl}, Goes c [c.peek] m (fun ts d => Spread ts (.decl d)) →
      Lands (fun ts d => Spread (c.peek :: ts) (.decl d)) c.advance (outcome (advance >>= fun _ => m) c) :=
    fun h => h _ (over_advance (ne_eof_of_word hword))
  rw [declaration, hpeek]
  split <;> rename_i hkind
  case h_1 =>
    refine hgoes (goes_bind walks_declared fun vs v hv => goes_expect (by decide) fun stop hstop => ?_)
    exact goes_node (.attributeVar hkind hv.1 hstop) (.skip (hv.2.skipLast _)) (fun _ => rfl) (by simp) rfl
  case h_2 =>
    refine hgoes (goes_bind walks_declared fun vs v hv => ?_)
    refine goes_bind (walks_announced (walks_acceptWord _) walks_ident) fun bs owner howner => ?_
    refine goes_expect (by decide) fun stop hstop => ?_
    exact goes_node (.uniformVar hkind hv.1 howner hstop) (.skip (hv.2.skipLast _)) (fun _ => rfl) (by simp) (by simp)
  case h_3 =>
    refine hgoes (goes_bind walks_declared fun vs v hv => goes_expect (by decide) fun stop hstop => ?_)
    exact goes_node (.varyingVar hkind hv.1 hstop) (.skip (hv.2.skipLast _)) (fun _ => rfl) (by simp) rfl
  case h_4 =>
    refine hgoes ?_
    simp only [structDecl, bind_assoc, pure_bind]
    refine goes_ident fun name hname => goes_expect (by decide) fun opening hopening => goes_remaining fun n => ?_
    refine goes_bind (walks_items walks_typedName _ n) fun ms members hms => ?_
    refine goes_expect (by decide) fun closing hclosing => ?_
    refine goes_node (.struct hkind hname hopening (hms.spelled fun _ _ h => h) hclosing) ?_ (fun _ => rfl) (by simp) rfl
    exact .skip (.skip (.skip ((Strewn.of_items hms).skipLast _)))
  case h_5 =>
    refine hgoes ?_
    simp only [fnDecl, bind_assoc, pure_bind]
    refine goes_ident fun name hname => goes_expect (by decide) fun opening hopening => goes_remaining fun n => ?_
    refine goes_bind (walks_items walks_typedName _ n) fun ps params hps => ?_
    refine goes_expect (by decide) fun closing hclosing => ?_
    refine goes_bind (walks_announced (walks_accept (by decide)) walks_tyExpr) fun rs result hresult => ?_
    refine goes_bind walks_block fun bs body hbody => ?_
    have hspelled := Declaration.fn hkind hname hopening (hps.spelled fun _ _ h => h) hclosing
      (hresult.spelled fun _ _ h => h) hbody.1
    refine goes_node hspelled ?_ (fun _ => rfl) (by simp) (by simp)
    exact .skip (.skip (.skip ((Strewn.of_items hps).append (.skip ((Strewn.of_announced hresult).append (.last hbody.2))))))
  case h_6 => simp_all [Token.Kind.startsDecl]

theorem spread_of_reads {c c' : Cursor} {d : Decl} (h : Reads declaration c d c') :
    ∃ ts, c.ahead = ts ++ c'.ahead ∧ Spread ts (.decl d) := by
  cases hword : c.peek.kind.startsDecl with
  | true =>
    obtain ⟨ts, hts, -, hok, -⟩ := lands_declaration hword
    rw [show outcome declaration c = _ from h] at hts hok
    refine ⟨c.peek :: ts, ?_, hok d rfl⟩
    rw [(takes_advance (ne_eof_of_word hword)).1, hts.ahead, cons_append]
  | false =>
    rw [Reads, outcome_of_no_word hword] at h
    cases h

end Parser

end Shading
