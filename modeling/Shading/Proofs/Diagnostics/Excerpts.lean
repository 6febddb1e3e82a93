import Shading.Notice
import Shading.Proofs.Lexing

/-!
# Excerpts

A piece of a text stands behind some whole lines and behind the beginning of its own line (`Source.Stands`). Its place
can be read off these: the line number counts the lines above, and the column the characters in front of it. The
excerpt of a span that starts there shows the line of the piece and a caret under its first character, however many bytes
the characters in front of it have. Every token stands at its position, and so does a character that starts no token.
-/

namespace Shading
open List Text

/-! ## Lines -/

namespace Source

/-- The glyphs of whole lines, each with the newline that ends it. -/
def wholeLines (lines : List (List Glyph)) : List Glyph := lines.flatMap (· ++ [.char '\n'])

@[simp] theorem wholeLines_nil : wholeLines [] = [] := rfl

@[simp] theorem wholeLines_cons (line : List Glyph) (lines : List (List Glyph)) :
    wholeLines (line :: lines) = line ++ (.char '\n' :: wholeLines lines) := by
  simp [wholeLines]

/-- The glyphs of a text up to the next newline. -/
def upToNewline (gs : List Glyph) : List Glyph := gs.takeWhile fun g => !g.is '\n'

/-- The piece `word` stands in the text behind the lines `above` and behind `lead` on its own line. -/
structure Stands (src : Source) (word : List Glyph) (above : List (List Glyph)) (lead rest : List Glyph) : Prop where
  glyphs : src.glyphs = wholeLines above ++ (lead ++ (word ++ rest))
  above : ∀ line ∈ above, .char '\n' ∉ line
  lead : .char '\n' ∉ lead

/-- The place behind the given lines and the given part of the next one. -/
def placeBehind (above : List (List Glyph)) (lead : List Glyph) : Position where
  line := above.length + 1
  column := lead.length + 1
  offset := Glyph.size (wholeLines above ++ lead)

theorem not_is_newline {gs : List Glyph} (h : .char '\n' ∉ gs) : ∀ g ∈ gs, g.is '\n' = false := by
  intro g hg
  by_contra hnewline
  obtain rfl : g = .char '\n' := eq_of_beq (Bool.eq_true_of_not_eq_false hnewline)
  exact h hg

/-- Every part of a text in front of a place consists of whole lines and the beginning of one. -/
theorem exists_wholeLines (gs : List Glyph) :
    ∃ above lead, gs = wholeLines above ++ lead ∧ (∀ line ∈ above, .char '\n' ∉ line) ∧ .char '\n' ∉ lead := by
  induction gs with
  | nil => exact ⟨[], [], rfl, by simp, by simp⟩
  | cons g gs ih =>
    obtain ⟨above, lead, rfl, habove, hlead⟩ := ih
    by_cases hg : g = .char '\n'
    · subst hg
      exact ⟨[] :: above, lead, by simp, by simpa using habove, hlead⟩
    · cases above with
      | nil => exact ⟨[], g :: lead, rfl, by simp, by simp [hlead, Ne.symm hg]⟩
      | cons line above =>
        obtain ⟨hline, habove⟩ := forall_mem_cons.1 habove
        refine ⟨(g :: line) :: above, lead, by simp, forall_mem_cons.2 ⟨?_, habove⟩, hlead⟩
        simp [hline, Ne.symm hg]

/-! ## Positions -/

theorem after_of_line {gs : List Glyph} (h : .char '\n' ∉ gs) (p : Position) :
    p.after gs = ⟨p.line, p.column + gs.length, p.offset + Glyph.size gs⟩ := by
  induction gs generalizing p with
  | nil => simp
  | cons g gs ih =>
    obtain ⟨hg, hgs⟩ := forall_mem_cons.1 (not_is_newline h)
    rw [Position.after_cons, ih fun hmem => h (mem_cons_of_mem _ hmem), Position.advance, hg]
    simp only [Bool.false_eq_true, if_false, length_cons, Glyph.size_cons, Position.mk.injEq, true_and]
    omega

theorem after_wholeLines {above : List (List Glyph)} (h : ∀ line ∈ above, .char '\n' ∉ line) (line offset : Int) :
    Position.after ⟨line, 1, offset⟩ (wholeLines above) =
      ⟨line + above.length, 1, offset + Glyph.size (wholeLines above)⟩ := by
  induction above generalizing line offset with
  | nil => simp
  | cons first above ih =>
    obtain ⟨hfirst, habove⟩ := forall_mem_cons.1 h
    have hnewline : (Glyph.char '\n').is '\n' = true := by decide
    rw [wholeLines_cons, Position.after_append, after_of_line hfirst, Position.after_cons, Position.advance,
      hnewline, if_pos rfl, ih habove]
    simp only [length_cons, Glyph.size_append, Glyph.size_cons, Position.mk.injEq, true_and]
    omega

/-- Reading up to a place gets to its position. -/
theorem after_eq_placeBehind {above : List (List Glyph)} {lead : List Glyph}
    (habove : ∀ line ∈ above, .char '\n' ∉ line) (hlead : .char '\n' ∉ lead) :
    Position.first.after (wholeLines above ++ lead) = placeBehind above lead := by
  rw [Position.after_append, Position.first, after_wholeLines habove, after_of_line hlead, placeBehind]
  simp only [Glyph.size_append, Position.mk.injEq]
  omega

theorem splitLines_of_line {gs rest : List Glyph} (h : .char '\n' ∉ gs) :
    splitLines (gs ++ rest) = (gs ++ (splitLines rest).1, (splitLines rest).2) := by
  induction gs with
  | nil => rfl
  | cons g gs ih =>
    obtain ⟨hg, hgs⟩ := forall_mem_cons.1 (not_is_newline h)
    rw [cons_append, splitLines, ih fun hmem => h (mem_cons_of_mem _ hmem), hg]
    rfl

theorem splitLines_fst (gs : List Glyph) : (splitLines gs).1 = upToNewline gs := by
  induction gs with
  | nil => rfl
  | cons g gs ih =>
    rw [splitLines, upToNewline, takeWhile_cons]
    cases g.is '\n' with
    | true => rfl
    | false => simp only [Bool.false_eq_true, if_false, Bool.not_false, if_true, ih, upToNewline]

theorem lines_wholeLines {above : List (List Glyph)} (h : ∀ line ∈ above, .char '\n' ∉ line) (gs : List Glyph) :
    lines ⟨wholeLines above ++ gs⟩ = above ++ lines ⟨gs⟩ := by
  induction above with
  | nil => rfl
  | cons line above ih =>
    obtain ⟨hline, habove⟩ := forall_mem_cons.1 h
    have hnewline : (Glyph.char '\n').is '\n' = true := by decide
    have hrest := ih habove
    simp only [lines] at hrest ⊢
    rw [wholeLines_cons, append_assoc, splitLines_of_line hline, cons_append, splitLines, hnewline]
    simp only [if_true, append_nil, hrest, cons_append]

variable {src : Source} {word : List Glyph} {above : List (List Glyph)} {lead rest : List Glyph}

/-- The line that a piece stands on. -/
theorem Stands.getElem?_lines (h : src.Stands word above lead rest) :
    src.lines[above.length]? = some (lead ++ upToNewline (word ++ rest)) := by
  obtain ⟨gs⟩ := src
  obtain rfl : gs = _ := h.glyphs
  rw [lines_wholeLines h.above, getElem?_append_right (Nat.le_refl _), Nat.sub_self, lines,
    splitLines_of_line h.lead, splitLines_fst]
  rfl

end Source

/-! ## Excerpts -/

/-- A line of a text with its number, and a caret below it behind as many blanks as there are glyphs in `lead`. -/
def pointer (number : Int) (line lead : List Glyph) : String :=
  "  --> line " ++ toString number ++ ":" ++ toString (lead.length + 1 : Int) ++ "\n"
    ++ "   |\n"
    ++ paddedNumber 3 number ++ "| " ++ Glyph.text line ++ "\n"
    ++ "   | " ++ String.ofList (List.replicate lead.length ' ') ++ "^\n"

theorem length_le_size (gs : List Glyph) : gs.length ≤ Glyph.size gs := by
  induction gs with
  | nil => exact Nat.le_refl _
  | cons g gs ih =>
    have hg := g.width_pos
    rw [length_cons, Glyph.size_cons]
    omega

section Pieces

variable {src : Source} {word : List Glyph} {above : List (List Glyph)} {lead rest : List Glyph}

/-- The column is never cut off, since a line has no fewer bytes than characters. -/
theorem excerpt?_of_stands (h : src.Stands word above lead rest) (hne : src.isEmpty = false) {span : Span}
    (hspan : span.start = Source.placeBehind above lead) :
    span.excerpt? src = some (pointer (above.length + 1) (lead ++ Source.upToNewline (word ++ rest)) lead) := by
  have hline : span.start.line = above.length + 1 := congrArg Position.line hspan
  have hcolumn : span.start.column = lead.length + 1 := congrArg Position.column hspan
  have hset : span.isUnset = false := by
    rw [Span.isUnset, hline, beq_eq_false_iff_ne]
    omega
  have hindex : (span.start.line - 1).toNat = above.length := by
    rw [hline]
    omega
  have hsize := length_le_size lead
  have hinside : min (max (lead.length + 1 : Int) 1) (Glyph.size (lead ++ Source.upToNewline (word ++ rest)) + 1) =
      lead.length + 1 := by
    rw [Glyph.size_append]
    omega
  have hblanks : (lead.length + 1 - 1 : Int).toNat = lead.length := by omega
  have hplaced : ¬ (src.isEmpty || span.isUnset) = true := by simp [hne, hset]
  have hinText : ¬ span.start.line < 1 := by omega
  unfold Span.excerpt?
  rw [if_neg hplaced, if_neg hinText, hindex, h.getElem?_lines, hline, hcolumn]
  dsimp only [Option.bind_eq_bind, Option.bind_some]
  rw [hinside, hblanks]
  rfl

end Pieces

/-- The notice points at a piece of the text: it names the place where the piece stands, and in its context it shows exactly
the line of the piece, with a caret behind as many blanks as there are characters in front of the piece. -/
def Notice.PointsAt (n : Notice) (src : Source) (word : List Glyph) : Prop :=
  ∃ above lead rest, src.Stands word above lead rest ∧ n.span.start = Source.placeBehind above lead ∧
    n.inContext src = n.label ++ ": " ++ n.text ++ "\n" ++
      pointer (above.length + 1) (lead ++ Source.upToNewline (word ++ rest)) lead

/-- What starts where reading has got to behind `front` points at what follows. -/
theorem Notice.pointsAt_of_after {n : Notice} {src : Source} {front word rest : List Glyph}
    (hne : src.isEmpty = false) (hglyphs : src.glyphs = front ++ (word ++ rest))
    (hstart : n.span.start = Position.first.after front) : n.PointsAt src word := by
  obtain ⟨above, lead, rfl, habove, hlead⟩ := Source.exists_wholeLines front
  rw [Source.after_eq_placeBehind habove hlead] at hstart
  have hstands : src.Stands word above lead rest := ⟨by rw [hglyphs, append_assoc], habove, hlead⟩
  refine ⟨above, lead, rest, hstands, hstart, ?_⟩
  rw [Notice.inContext, excerpt?_of_stands hstands hne hstart]

/-! ## Tokens -/

/-- Where a text can be pointed at: at its tokens, with the mark of its end, or at the character that starts none. -/
inductive Source.Mark (src : Source) : Position → List Glyph → Prop
  | token {tokens : List Token} {t : Token} (hread : Token.read src = .ok tokens) (ht : t ∈ tokens) :
      Mark src t.start (t.lexeme.toList.map .char)
  | unexpected {u : Token.Unexpected} (hread : Token.read src = .error u) : Mark src u.start u.glyphs

namespace Token

/-- Every token stands where reading had got to in front of it, with the mark of the end among them, and so does a
character that starts none. -/
theorem placed_of_readFrom (front gs : List Glyph) :
    match readFrom (Position.first.after front) gs with
    | .ok tokens => (∃ t ∈ tokens, t.kind = .eof) ∧
        ∀ t ∈ tokens, ∃ us rest, front ++ gs = us ++ (t.lexeme.toList.map .char ++ rest) ∧
          t.start = Position.first.after us
    | .error u => ∃ us rest, front ++ gs = us ++ (u.glyphs ++ rest) ∧ u.start = Position.first.after us := by
  induction hn : gs.length using Nat.strongRecOn generalizing front gs with
  | ind n ih =>
    subst hn
    cases gs with
    | nil =>
      rw [readFrom]
      exact ⟨⟨_, mem_singleton.2 rfl, rfl⟩, forall_mem_singleton.2 ⟨front, [], rfl, rfl⟩⟩
    | cons g rest =>
      have hshape := Piece.shape_next g rest
      have hparts := Piece.next_parts g rest
      have hshorter := Piece.next_shorter g rest
      rcases hpiece : Piece.next g rest with ⟨kind, taken, more⟩
      rw [hpiece] at hshape hparts hshorter
      have hmore := ih more.length hshorter (front ++ taken) more rfl
      rw [Position.after_append, append_assoc, hparts] at hmore
      cases hshape with
      | blank | line | block | openBlock =>
        rw [readFrom_of_gap hpiece]
        exact hmore
      | unexpected =>
        rw [readFrom_of_unexpected hpiece]
        exact ⟨front, more, by rw [← hparts], rfl⟩
      | @token k cs _ hspells =>
        rw [readFrom_of_token hspells.ne_bad hpiece, text_map_char]
        cases hrest : readFrom ((Position.first.after front).after (cs.map .char)) more with
        | error u =>
          rw [hrest] at hmore
          exact hmore
        | ok tokens =>
          rw [hrest] at hmore
          obtain ⟨⟨stop, hstop, heof⟩, hplaced⟩ := hmore
          refine ⟨⟨stop, mem_cons_of_mem _ hstop, heof⟩, forall_mem_cons.2 ⟨⟨front, more, ?_, rfl⟩, hplaced⟩⟩
          rw [← hparts, String.toList_ofList]

end Token

/-- A notice at a token points at it, and so does one at the character that starts none. -/
theorem Notice.pointsAt_of_mark {n : Notice} {src : Source} {word : List Glyph} (hne : src.isEmpty = false)
    (h : src.Mark n.span.start word) : n.PointsAt src word := by
  have hplaced := Token.placed_of_readFrom [] src.glyphs
  rw [Position.after_nil, ← Token.read] at hplaced
  generalize hstart : n.span.start = p at h
  cases h with
  | token hread ht =>
    rw [hread] at hplaced
    obtain ⟨us, rest, hglyphs, hafter⟩ := hplaced.2 _ ht
    exact pointsAt_of_after hne hglyphs (hstart.trans hafter)
  | unexpected hread =>
    rw [hread] at hplaced
    obtain ⟨us, rest, hglyphs, hafter⟩ := hplaced
    exact pointsAt_of_after hne hglyphs (hstart.trans hafter)

end Shading
