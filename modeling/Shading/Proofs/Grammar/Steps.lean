import Shading.Proofs.Grammar

/-!
# Steps of reading

`Reads m c a c'` says that the reader `m` succeeds at the cursor `c` with the result `a` and gets to `c'`. The rules below
put a successful reading together from its parts; no later proof opens the state and the errors behind a reader.
-/

namespace Shading.Parser

/-- What a reader comes to at a cursor. -/
def outcome {α : Type} (m : Parser α) (c : Cursor) : Except SyntaxError α × Cursor := (m.run).run c

/-- The reader succeeds at `c` with the result `a` and gets to `c'`. -/
def Reads {α : Type} (m : Parser α) (c : Cursor) (a : α) (c' : Cursor) : Prop := outcome m c = (.ok a, c')

/-- One token lies between the two cursors. -/
def Cursor.Takes (c : Cursor) (t : Token) (c' : Cursor) : Prop := c.ahead = t :: c'.ahead ∧ c'.last = t

/-- The second reader goes on where the first one has got to, unless the first one fails. -/
theorem outcome_bind {α β : Type} (m : Parser α) (f : α → Parser β) (c : Cursor) :
    outcome (m >>= f) c = match outcome m c with
      | (.ok a, c₁) => outcome (f a) c₁
      | (.error e, c₁) => (.error e, c₁) := by
  simp only [outcome, ExceptT.run, StateT.run, bind, ExceptT.bind, ExceptT.mk, StateT.bind]
  rcases m c with ⟨r, c₁⟩
  cases r <;> rfl

namespace Reads

variable {α β : Type} {c c₁ c' : Cursor} {a : α}

protected theorem pure : Reads (pure a) c a c := rfl

protected theorem bind {m : Parser α} {f : α → Parser β} {b : β} (h : Reads m c a c₁) (hf : Reads (f a) c₁ b c') :
    Reads (m >>= f) c b c' := by
  rw [Reads, outcome_bind, show outcome m c = _ from h]
  exact hf

protected theorem map {m : Parser α} {f : α → β} (h : Reads m c a c') : Reads (f <$> m) c (f a) c' := by
  rw [← bind_pure_comp]
  exact h.bind .pure

protected theorem peek : Reads peek c c.peek c := rfl

protected theorem remaining : Reads remaining c c.ahead.length c := rfl

protected theorem spanFrom {p : Position} : Reads (spanFrom p) c ⟨p, c.last.span.stop⟩ c := rfl

variable {p : Prop} [Decidable p] {m n : Parser α}

theorem yes (hp : p) (h : Reads m c a c') : Reads (if p then m else n) c a c' := by
  rwa [if_pos hp]

theorem no (hp : ¬ p) (h : Reads n c a c') : Reads (if p then m else n) c a c' := by
  rwa [if_neg hp]

theorem refused {k : Token.Kind} (h : c.peek.kind ≠ k) : Reads (accept k) c false c :=
  Reads.peek.bind (.no h .pure)

theorem refusedWord {w : String} (h : ¬ Grammar.IsWord w c.peek) : Reads (acceptWord w) c false c :=
  Reads.peek.bind (.no h .pure)

theorem left {mark : Parser Bool} {part : Parser α} (h : Reads mark c false c') : Reads (announced mark part) c none c' :=
  h.bind (.no Bool.false_ne_true .pure)

theorem right {mark : Parser Bool} {part : Parser α} (h : Reads mark c true c₁) (hpart : Reads part c₁ a c') :
    Reads (announced mark part) c (some a) c' :=
  h.bind (.yes rfl hpart.map)

end Reads

/-- A token that is not the end is the first one ahead, and advancing takes it. -/
theorem Cursor.takes_iff {c c' : Cursor} {t : Token} (h : c.peek.kind ≠ .eof) :
    c.Takes t c' ↔ c.peek = t ∧ c.advance = c' := by
  obtain ⟨last, ahead⟩ := c
  obtain ⟨last', ahead'⟩ := c'
  cases ahead with
  | nil => exact absurd rfl h
  | cons u us =>
    have hu : u.kind ≠ .eof := h
    simp only [Takes, peek, advance, List.headD_cons, if_neg hu, List.cons.injEq, Cursor.mk.injEq]
    constructor
    · rintro ⟨⟨rfl, rfl⟩, rfl⟩
      exact ⟨rfl, rfl, rfl⟩
    · rintro ⟨rfl, rfl, rfl⟩
      exact ⟨⟨rfl, rfl⟩, rfl⟩

namespace Cursor.Takes

variable {c c' : Cursor} {t : Token} {k : Token.Kind} (h : c.Takes t c')
include h

theorem peek : c.peek = t := by
  rw [Cursor.peek, h.1, List.headD_cons]

protected theorem advance (ht : t.kind = k) (hk : k ≠ .eof) : Reads Parser.advance c t c' := by
  have hpeek : c.peek.kind ≠ .eof := by rwa [h.peek, ht]
  obtain ⟨-, rfl⟩ := (Cursor.takes_iff hpeek).1 h
  have hlast : c.advance.last = t := h.2
  rw [← hlast]
  rfl

/-- Taking the next token if it is of some sort. -/
theorem takeIf {α : Type} {p : Token → Prop} [DecidablePred p] {m : Token → Parser α} {n : Parser α} {a : α} {c₁ : Cursor}
    (hp : p t) (ht : t.kind = k) (hk : k ≠ .eof) (hm : Reads (m t) c' a c₁) :
    Reads (do
      let t ← Parser.peek
      if p t then
        let _ ← Parser.advance
        m t
      else n) c a c₁ := by
  refine Reads.peek.bind ?_
  rw [h.peek]
  exact .yes hp ((h.advance ht hk).bind hm)

theorem accept (ht : t.kind = k) (hk : k ≠ .eof) : Reads (Parser.accept k) c true c' := h.takeIf ht ht hk .pure

theorem acceptWord {w : String} (ht : Grammar.IsWord w t) : Reads (Parser.acceptWord w) c true c' :=
  h.takeIf ht ht.1 (by decide) .pure

theorem expect (ht : t.kind = k) (hk : k ≠ .eof) : Reads (Parser.expect k) c () c' :=
  (h.accept ht hk).bind (.yes rfl .pure)

theorem expectWord {w : String} (ht : Grammar.IsWord w t) : Reads (Parser.expectWord w) c () c' :=
  (h.acceptWord ht).bind (.yes rfl .pure)

theorem ident (ht : t.kind = .ident) : Reads Parser.ident c t.lexeme c' := h.takeIf ht ht (by decide) .pure

end Cursor.Takes

end Shading.Parser
