import Shading.Proofs.Grammar
import Shading.Proofs.Number.Numerals

/-!
# Reading texts in pieces

`Scans cs Spells Behind` says what becomes of a text with the characters `cs` in front of it: tokens that `Spells` holds of,
and then whatever becomes of the rest, provided that `Behind` holds of the rest. Mostly the first character of the rest
decides (`Opens`). Symbols, words and numerals scan to one token each, and texts that scan can be put together.
-/

namespace Shading.Token
open List Text Grammar

/-- The text is at its end or goes on with a character that passes the test. -/
def Opens (ok : Char → Bool) (rest : List Glyph) : Prop := ∀ g ∈ rest.head?, ∃ c, g = .char c ∧ ok c = true

/-- The characters in front of a text become tokens of their own, and reading goes on behind them. -/
def Scans (cs : List Char) (Spells : List Token → Prop) (Behind : List Glyph → Prop) : Prop :=
  ∀ p rest, Behind rest → ∃ ts, Spells ts ∧
    readFrom p (cs.map Glyph.char ++ rest) = (readFrom (p.after (cs.map Glyph.char)) rest).map (ts ++ ·)

/-- What follows does not matter. -/
def Anything (_ : List Glyph) : Prop := True

/-- One token of the given kind and text. -/
def IsToken (k : Kind) (lexeme : String) (ts : List Token) : Prop := ∃ t, ts = [t] ∧ t.kind = k ∧ t.lexeme = lexeme

/-- Tokens of one sort and then tokens of another. -/
def Then (P Q : List Token → Prop) (ts : List Token) : Prop := ∃ us vs, ts = us ++ vs ∧ P us ∧ Q vs

theorem opens_nil (ok : Char → Bool) : Opens ok [] := by
  intro g hg
  cases hg

variable {ok : Char → Bool} {c : Char} {rest : List Glyph} {f : Glyph → Bool}

theorem opens_cons (h : ok c = true) (rest : List Glyph) :
    Opens ok (.char c :: rest) := by
  intro g hg
  cases hg
  exact ⟨c, rfl, h⟩

theorem Opens.imp {ok' : Char → Bool} (himp : ∀ c, ok c = true → ok' c = true)
    (h : Opens ok rest) : Opens ok' rest := by
  intro g hg
  obtain ⟨c, hc, hok⟩ := h g hg
  exact ⟨c, hc, himp c hok⟩

namespace Scans

variable {cs ds : List Char} {P Q : List Token → Prop} {B C : List Glyph → Prop}

theorem imp (h : Scans cs P B) (himp : ∀ ts, P ts → Q ts) : Scans cs Q B := by
  intro p rest hrest
  obtain ⟨ts, hts, hread⟩ := h p rest hrest
  exact ⟨ts, himp ts hts, hread⟩

theorem narrow (h : Scans cs P B) (himp : ∀ rest, C rest → B rest) : Scans cs P C :=
  fun p rest hrest => h p rest (himp rest hrest)

/-- Two texts in a row, where the second lets the first end. -/
theorem append (h : Scans cs P B) (h' : Scans ds Q C) (hends : ∀ rest, C rest → B (ds.map Glyph.char ++ rest)) :
    Scans (cs ++ ds) (Then P Q) C := by
  intro p rest hrest
  obtain ⟨us, hus, hread⟩ := h p (ds.map Glyph.char ++ rest) (hends rest hrest)
  obtain ⟨vs, hvs, hread'⟩ := h' (p.after (cs.map Glyph.char)) rest hrest
  refine ⟨us ++ vs, ⟨us, vs, rfl, hus, hvs⟩, ?_⟩
  rw [map_append, append_assoc, hread, hread', Position.after_append]
  cases readFrom ((p.after (cs.map Glyph.char)).after (ds.map Glyph.char)) rest with
  | error e => rfl
  | ok ts => simp [Except.map]

/-- Two texts in a row, where the first ends by itself. -/
theorem andThen (h : Scans cs P Anything) (h' : Scans ds Q C) : Scans (cs ++ ds) (Then P Q) C :=
  h.append h' fun _ _ => trivial

/-- Two texts in a row, where the second starts with a character that lets the first end. -/
theorem before (h : Scans cs P (Opens ok)) (h' : Scans (c :: ds) Q C) (hc : ok c = true) :
    Scans (cs ++ c :: ds) (Then P Q) C :=
  h.append h' fun _ _ => opens_cons hc _

/-- A whole text that scans is read, and the end marked. -/
theorem read {s : String} (h : Scans s.toList P B) (hend : B []) :
    ∃ ts eof, P ts ∧ eof.kind = .eof ∧ Token.read (.ofString s) = .ok (ts ++ [eof]) := by
  obtain ⟨ts, hts, hread⟩ := h .first [] hend
  refine ⟨ts, ⟨.eof, "", Position.first.after (s.toList.map Glyph.char)⟩, hts, rfl, ?_⟩
  rw [append_nil] at hread
  rw [Token.read, Source.ofString, hread, readFrom]
  rfl

end Scans

/-! ## Pieces -/

theorem text_map_char (cs : List Char) : Glyph.text (cs.map Glyph.char) = String.ofList cs := by
  rw [Glyph.text, map_map]
  congr 1
  exact map_id _

/-- A piece with a kind is a token. -/
theorem scans_of_piece {cs : List Char} {k : Kind} {B : List Glyph → Prop} (hk : k ≠ .bad)
    (h : ∀ rest, B rest → Piece.next (.char c) (cs.map Glyph.char ++ rest) = ⟨some k, (c :: cs).map Glyph.char, rest⟩) :
    Scans (c :: cs) (IsToken k (String.ofList (c :: cs))) B := by
  intro p rest hrest
  refine ⟨[⟨k, String.ofList (c :: cs), p⟩], ⟨_, rfl, rfl, rfl⟩, ?_⟩
  rw [map_cons, cons_append, readFrom, h rest hrest]
  dsimp only
  split
  · rename_i heq
    cases heq
  · rename_i heq
    cases heq
    exact absurd rfl hk
  · rename_i heq
    cases heq
    rw [text_map_char]
    rfl

/-- A blank between tokens leaves none. -/
theorem scans_blank : Scans [' '] (· = []) Anything := by
  intro p rest _
  refine ⟨[], rfl, ?_⟩
  rw [map_singleton, singleton_append, readFrom]
  show readFrom (p.after [.char ' ']) rest = _
  cases readFrom (p.after [.char ' ']) rest <;> rfl

/-- The symbols that no following character makes longer. -/
theorem scans_symbol {k : Kind} (hk : k ≠ .bad) (h : ∀ g rest, charPiece c g rest = one k g rest) :
    Scans [c] (IsToken k (String.ofList [c])) Anything :=
  scans_of_piece hk fun rest _ => h (.char c) rest

/-- A point that no digit follows. -/
theorem scans_dot : Scans ['.'] (IsToken .dot ".") (Opens fun c => !c.isDigit) := by
  refine scans_of_piece (by decide) fun rest h => ?_
  have hhead : rest.head?.any isDigitGlyph = false := by
    cases rest with
    | nil => rfl
    | cons g more =>
      obtain ⟨c, rfl, hc⟩ := h g rfl
      rw [Bool.not_eq_true'] at hc
      exact hc
  show (if rest.head?.any isDigitGlyph = true then pointPiece (.char '.') rest else one .dot (.char '.') rest) = _
  rw [hhead]
  rfl

/-- A binary operator in front of a blank. -/
theorem scans_operator (op : BinOp) : Scans op.symbol.toList (IsToken (tokenOf op) op.symbol) (Opens (· == ' ')) := by
  have hrest : ∀ rest, Opens (· == ' ') rest → rest = [] ∨ ∃ more, rest = .char ' ' :: more := by
    intro rest h
    cases rest with
    | nil => exact .inl rfl
    | cons g more =>
      obtain ⟨c, rfl, hc⟩ := h g rfl
      rw [beq_iff_eq] at hc
      exact .inr ⟨more, by rw [hc]⟩
  rcases op with _ | (_ | _ | _ | _) | _ | _ | _ | _ | (_ | _ | _ | _) | (_ | _ | _ | _)
  all_goals
    refine scans_of_piece (by decide) fun rest h => ?_
    rcases hrest rest h with rfl | ⟨more, rfl⟩ <;> rfl

/-- A sign in front of its operand. -/
theorem scans_sign (op : UnOp) :
    Scans op.symbol.toList (IsToken (signOf op) op.symbol) (Opens fun c => c != '=' && c != '>') := by
  have hrest : ∀ rest, Opens (fun c => c != '=' && c != '>') rest →
      rest = [] ∨ ∃ c more, rest = .char c :: more ∧ Glyph.is (.char c) '=' = false ∧ Glyph.is (.char c) '>' = false := by
    intro rest h
    cases rest with
    | nil => exact .inl rfl
    | cons g more =>
      obtain ⟨c, rfl, hc⟩ := h g rfl
      refine .inr ⟨c, more, rfl, ?_⟩
      simpa [Glyph.is] using hc
  cases op with
  | not =>
    refine scans_of_piece (by decide) fun rest h => ?_
    rcases hrest rest h with rfl | ⟨c, more, rfl, heq, -⟩
    · rfl
    · show either '=' .bangEqual .bang (.char '!') (.char c :: more) = _
      rw [either, heq]
      rfl
  | neg =>
    refine scans_of_piece (by decide) fun rest h => ?_
    rcases hrest rest h with rfl | ⟨c, more, rfl, heq, hgt⟩
    · rfl
    · show minusPiece (.char '-') (.char c :: more) = _
      rw [minusPiece, heq, hgt]
      rfl

/-! ## Words -/

/-- The text is a word: a letter or an underscore, and then letters, digits and underscores. -/
def IsWordText (s : String) : Prop :=
  ∃ c cs, s.toList = c :: cs ∧ isWordStart (.char c) = true ∧ ∀ d ∈ cs, isWordGlyph (.char d) = true

def IsName (s : String) : Prop := IsWordText s ∧ Kind.ofWord s = .ident

/-- The characters that end a word or a selection: those that close something, and those that select. -/
def isBreak (c : Char) : Bool := c == ' ' || c == ')' || c == ']' || c == ',' || c == '.' || c == '[' || c == '('

/-- The characters behind a whole operand. -/
def isClose (c : Char) : Bool := c == ' ' || c == ')' || c == ']' || c == ','

theorem isBreak_of_isClose (h : isClose c = true) : isBreak c = true := by
  unfold isBreak
  unfold isClose at h
  rw [h]
  rfl

theorem not_isWordGlyph_of_isBreak (h : isBreak c = true) : isWordGlyph (.char c) = false := by
  simp only [isBreak, Bool.or_eq_true, beq_iff_eq] at h
  rcases h with (((((rfl | rfl) | rfl) | rfl) | rfl) | rfl) | rfl <;> decide

theorem isDigit_eq_false_of_isWordStart (h : isWordStart (.char c) = true) : c.isDigit = false := by
  by_contra hdigit
  have hrange : 48 ≤ c.toNat ∧ c.toNat ≤ 57 := by
    simpa [Char.isDigit, UInt32.le_iff_toNat_le] using hdigit
  have halpha : c.isAlpha = false := by
    simp only [Char.isAlpha, Char.isUpper, Char.isLower, UInt32.le_iff_toNat_le, ge_iff_le, Bool.or_eq_false_iff,
      Bool.and_eq_false_imp, decide_eq_true_eq, decide_eq_false_iff_not, Char.toNat_val] at hrange ⊢
    constructor
    · rintro ⟨hlow, -⟩
      have hlow' : 65 ≤ c.toNat := hlow
      omega
    · intro hlow
      have hlow' : 97 ≤ c.toNat := hlow
      omega
  rw [isWordStart, Glyph.satisfies, isLetter_of_ascii (by omega), halpha, Bool.false_or, beq_iff_eq] at h
  rw [h] at hdigit
  exact hdigit rfl

/-- No symbol starts a word. -/
theorem charPiece_of_isWordStart (h : isWordStart (.char c) = true) (rest : List Glyph) :
    charPiece c (.char c) rest = wordPiece (.char c) rest := by
  have hdigit := isDigit_eq_false_of_isWordStart h
  unfold charPiece
  split
  all_goals first
    | exact absurd h (by decide)
    | rw [if_neg (by rw [hdigit]; decide), if_pos h]

/-- A stretch of characters that pass a test ends where one fails it. -/
theorem takeWhile_append_stop {gs : List Glyph} (h : ∀ g ∈ gs, f g = true)
    (hrest : ∀ g ∈ rest.head?, f g = false) : (gs ++ rest).takeWhile f = gs := by
  rw [takeWhile_append_of_pos h]
  cases rest with
  | nil => rw [takeWhile_nil, append_nil]
  | cons g more => rw [takeWhile_cons, hrest g rfl, if_neg (by decide), append_nil]

theorem dropWhile_append_stop {gs : List Glyph} (h : ∀ g ∈ gs, f g = true)
    (hrest : ∀ g ∈ rest.head?, f g = false) : (gs ++ rest).dropWhile f = rest := by
  rw [dropWhile_append_of_pos h]
  cases rest with
  | nil => rfl
  | cons g more => rw [dropWhile_cons, hrest g rfl, if_neg (by decide)]

theorem Opens.head (hf : ∀ c, ok c = true → f (.char c) = false)
    (h : Opens ok rest) : ∀ g ∈ rest.head?, f g = false := by
  intro g hg
  obtain ⟨c, rfl, hc⟩ := h g hg
  exact hf c hc

/-- A word in front of a character that does not go on in it. -/
theorem scans_wordText {w : String} (hw : IsWordText w) (hk : Kind.ofWord w ≠ .bad) :
    Scans w.toList (IsToken (Kind.ofWord w) w) (Opens fun c => !isWordGlyph (.char c)) := by
  obtain ⟨c, cs, hlist, hc, hcs⟩ := hw
  have hword : w = String.ofList (c :: cs) := by rw [← hlist, String.ofList_toList]
  have hglyphs : ∀ g ∈ cs.map Glyph.char, isWordGlyph g = true := by
    intro g hg
    obtain ⟨d, hd, rfl⟩ := mem_map.1 hg
    exact hcs d hd
  rw [hlist]
  rw [hword] at hk ⊢
  refine scans_of_piece hk fun rest hrest => ?_
  have hstop : ∀ g ∈ rest.head?, isWordGlyph g = false := hrest.head fun c hc => by simpa using hc
  show charPiece c (.char c) _ = _
  rw [charPiece_of_isWordStart hc, wordPiece, takeWhile_append_stop hglyphs hstop, dropWhile_append_stop hglyphs hstop]
  rw [← map_cons, text_map_char]

theorem scans_word {w : String} (hw : IsWordText w) (hk : Kind.ofWord w ≠ .bad) :
    Scans w.toList (IsToken (Kind.ofWord w) w) (Opens isBreak) :=
  (scans_wordText hw hk).narrow fun _ => Opens.imp fun c hc => by rw [not_isWordGlyph_of_isBreak hc]; rfl

/-! ## Numbers -/

open Number (Digits Numeral)

/-- Decimal digits, of which there may be none. -/
def AreDigits (cs : List Char) : Prop := ∀ c ∈ cs, c.isDigit = true

/-- A point and the digits behind it, or nothing. -/
def IsFraction (cs : List Char) : Prop := cs = [] ∨ ∃ ds, cs = '.' :: ds ∧ AreDigits ds

/-- The mark of an exponent, a sign if there is one, and digits; or nothing. -/
def IsExponent (cs : List Char) : Prop :=
  cs = [] ∨ ∃ mark sign ds, cs = mark :: (sign ++ ds) ∧ (mark = 'e' ∨ mark = 'E') ∧
    (sign = [] ∨ sign = ['+'] ∨ sign = ['-']) ∧ AreDigits ds

/-- The character cannot go on in a number, nor make what follows a point a component. -/
def endsNumber (c : Char) : Bool :=
  !(isHexGlyph (.char c) || isWordStart (.char c) || ['.', '+', '-', 'x', 'X'].contains c)

theorem endsNumber_of_isClose (h : isClose c = true) : endsNumber c = true := by
  simp only [isClose, Bool.or_eq_true, beq_iff_eq] at h
  rcases h with ((rfl | rfl) | rfl) | rfl <;> decide

section Numbers

variable {whole fraction exponent : List Char} {rest : List Glyph}

theorem charPiece_of_isDigit (h : c.isDigit = true) (rest : List Glyph) :
    charPiece c (.char c) rest = digitPiece (.char c) rest := by
  unfold charPiece
  split
  all_goals first
    | exact absurd h (by decide)
    | rw [if_pos h]

variable {ds : List Char}

theorem isDigitGlyph_of_mem (hds : AreDigits ds) : ∀ g ∈ ds.map Glyph.char, isDigitGlyph g = true := by
  intro g hg
  obtain ⟨c, hc, rfl⟩ := mem_map.1 hg
  exact hds c hc

theorem Opens.append {ok' : Char → Bool} (hrest : Opens ok rest) {cs : List Char} (hcs : ∀ c ∈ cs.head?, ok' c = true)
    (himp : ∀ c, ok c = true → ok' c = true) :
    Opens ok' (cs.map Glyph.char ++ rest) := by
  cases cs with
  | nil => exact hrest.imp himp
  | cons c cs => exact opens_cons (hcs c rfl) _

theorem isDigitGlyph_of_endsNumber (c : Char) (h : endsNumber c = true) : isDigitGlyph (.char c) = false := by
  simp_all [endsNumber, isHexGlyph, isDigitGlyph, Glyph.satisfies]

theorem exponentPart_unsigned {mark : Glyph} (hmark : (mark.is 'e' || mark.is 'E') = true)
    (h : ∀ g ∈ rest.head?, (g.is '+' || g.is '-') = false) :
    exponentPart (mark :: rest) = (mark :: rest.takeWhile isDigitGlyph, rest.dropWhile isDigitGlyph) := by
  cases rest with
  | nil => exact if_pos hmark
  | cons s more =>
    rw [exponentPart, if_pos hmark]
    exact if_neg (by rw [h s rfl]; decide)

theorem exponentPart_append (h : IsExponent exponent) (hrest : Opens endsNumber rest) :
    exponentPart (exponent.map Glyph.char ++ rest) = (exponent.map Glyph.char, rest) := by
  have hstop := hrest.head isDigitGlyph_of_endsNumber
  obtain rfl | ⟨mark, sign, ds, rfl, hmark, hsign, hds⟩ := h
  · cases rest with
    | nil => rfl
    | cons g more =>
      obtain ⟨c, rfl, hc⟩ := hrest g rfl
      refine if_neg ?_
      simp only [Glyph.is, Bool.or_eq_true, beq_iff_eq, Glyph.char.injEq]
      rintro (rfl | rfl) <;> exact absurd hc (by decide)
  · have hglyphs := isDigitGlyph_of_mem hds
    have hmark' : (Glyph.is (.char mark) 'e' || Glyph.is (.char mark) 'E') = true := by
      rcases hmark with rfl | rfl <;> decide
    obtain rfl | ⟨s, hs, rfl⟩ : sign = [] ∨ ∃ s, (Glyph.is (.char s) '+' || Glyph.is (.char s) '-') = true ∧ sign = [s] := by
      rcases hsign with rfl | rfl | rfl
      · exact .inl rfl
      · exact .inr ⟨'+', by decide, rfl⟩
      · exact .inr ⟨'-', by decide, rfl⟩
    · have hhead : Opens (fun c => c != '+' && c != '-') (ds.map Glyph.char ++ rest) := by
        refine hrest.append (fun c hc => ?_) fun c hc => ?_
        · have hdigit := hds c (mem_of_mem_head? hc)
          simp [Number.isDigit_ne hdigit (d := '+') (by decide), Number.isDigit_ne hdigit (d := '-') (by decide)]
        · simp_all [endsNumber]
      rw [nil_append, map_cons, cons_append, exponentPart_unsigned hmark'
        (hhead.head fun c hc => by simpa [Glyph.is] using hc), takeWhile_append_stop hglyphs hstop,
        dropWhile_append_stop hglyphs hstop]
    · show exponentPart (.char mark :: .char s :: (ds.map Glyph.char ++ rest)) = _
      rw [exponentPart, if_pos hmark', if_pos hs, takeWhile_append_stop hglyphs hstop,
        dropWhile_append_stop hglyphs hstop]
      rfl

/-- What follows the digits of a number: an exponent, or a character that ends the number. -/
theorem opens_exponent (h : IsExponent exponent) (hrest : Opens endsNumber rest) :
    Opens (fun c => !c.isDigit && c != '.' && c != 'x' && c != 'X') (exponent.map Glyph.char ++ rest) := by
  refine hrest.append (fun c hc => ?_) fun c hc => ?_
  · obtain rfl | ⟨mark, sign, ds, rfl, rfl | rfl, -⟩ := h <;> cases hc <;> rfl
  · have hdigit := isDigitGlyph_of_endsNumber c hc
    simp_all [endsNumber, isDigitGlyph, Glyph.satisfies]

theorem isDigitGlyph_behind (h : IsExponent exponent) (hrest : Opens endsNumber rest) :
    ∀ g ∈ (exponent.map Glyph.char ++ rest).head?, isDigitGlyph g = false :=
  (opens_exponent h hrest).head fun c hc => by simp_all [isDigitGlyph, Glyph.satisfies]

/-- A point with nothing behind it but what ends the number is a fraction. -/
theorem fractionPart_append (h : IsFraction fraction) (he : IsExponent exponent)
    (hpoint : fraction = ['.'] → exponent = []) (hrest : Opens endsNumber rest) :
    fractionPart (fraction.map Glyph.char ++ (exponent.map Glyph.char ++ rest)) =
      (fraction.map Glyph.char, exponent.map Glyph.char ++ rest) := by
  obtain rfl | ⟨ds, rfl, hds⟩ := h
  · have hhead := opens_exponent he hrest
    show fractionPart (exponent.map Glyph.char ++ rest) = ([], _)
    cases hmore : exponent.map Glyph.char ++ rest with
    | nil => rfl
    | cons g more =>
      obtain ⟨c, rfl, hc⟩ := hhead g (by rw [hmore]; rfl)
      rw [fractionPart, if_neg]
      simp_all [Glyph.is]
  · have hstop := isDigitGlyph_behind he hrest
    have hword : ((ds.map Glyph.char ++ (exponent.map Glyph.char ++ rest)).head?.any isWordStart) = false := by
      cases ds with
      | cons d ds =>
        show isWordStart (.char d) = false
        by_contra hword
        rw [Bool.not_eq_false] at hword
        exact absurd (hds d mem_cons_self) (by rw [isDigit_eq_false_of_isWordStart hword]; decide)
      | nil =>
        rw [hpoint rfl]
        cases rest with
        | nil => rfl
        | cons g more =>
          obtain ⟨c, rfl, hc⟩ := hrest g rfl
          simp_all [endsNumber]
    show fractionPart (.char '.' :: (ds.map Glyph.char ++ (exponent.map Glyph.char ++ rest))) = _
    rw [fractionPart, hword, if_pos (by decide), takeWhile_append_stop (isDigitGlyph_of_mem hds) hstop,
      dropWhile_append_stop (isDigitGlyph_of_mem hds) hstop]
    rfl

theorem digitPiece_of_head {g : Glyph} (h : Opens ok rest) (hx : ∀ c, ok c = true → c ≠ 'x' ∧ c ≠ 'X') :
    digitPiece g rest = numberPiece (g :: rest.takeWhile isDigitGlyph) (rest.dropWhile isDigitGlyph) := by
  unfold digitPiece
  cases rest with
  | nil => rfl
  | cons g' more =>
    obtain ⟨c, rfl, hc⟩ := h g' rfl
    obtain ⟨hx, hX⟩ := hx c hc
    dsimp only
    rw [if_neg]
    simp [Glyph.is, hx, hX]

/-- The kind of a number: a fraction or an exponent makes it a double's. -/
def numberKind (fraction exponent : List Char) : Kind :=
  if fraction.isEmpty && exponent.isEmpty then .intLiteral else .floatLiteral

/-- A number that starts with a digit, in front of a character that ends it. -/
theorem scans_number (hne : whole ≠ []) (hw : AreDigits whole) (hf : IsFraction fraction) (he : IsExponent exponent)
    (hpoint : fraction = ['.'] → exponent = []) :
    Scans (whole ++ fraction ++ exponent)
      (IsToken (numberKind fraction exponent) (String.ofList (whole ++ fraction ++ exponent))) (Opens endsNumber) := by
  obtain ⟨c, cs, rfl⟩ := exists_cons_of_ne_nil hne
  have hcs : AreDigits cs := fun d hd => hw d (mem_cons_of_mem c hd)
  have hkind : numberKind fraction exponent ≠ .bad := by
    unfold numberKind
    split <;> decide
  refine scans_of_piece hkind fun rest hrest => ?_
  -- What follows the digits in front of the point is no digit, and no letter that marks a base.
  have hbehind : Opens (fun c => !c.isDigit && c != 'x' && c != 'X')
      (fraction.map Glyph.char ++ (exponent.map Glyph.char ++ rest)) := by
    refine (opens_exponent he hrest).append (fun c hc => ?_) fun c hc => by simp_all
    obtain rfl | ⟨ds, rfl, -⟩ := hf <;> cases hc
    rfl
  have hhead : Opens (fun c => c != 'x' && c != 'X')
      (cs.map Glyph.char ++ (fraction.map Glyph.char ++ (exponent.map Glyph.char ++ rest))) := by
    refine hbehind.append (fun d hd => ?_) fun d hd => by simp_all
    have hdigit := hcs d (mem_of_mem_head? hd)
    simp [Number.isDigit_ne hdigit (d := 'x') (by decide), Number.isDigit_ne hdigit (d := 'X') (by decide)]
  have hstop := hbehind.head fun d hd => show isDigitGlyph (.char d) = false by
    simp_all [isDigitGlyph, Glyph.satisfies]
  have hglyphs := isDigitGlyph_of_mem hcs
  show charPiece c (.char c) _ = _
  rw [charPiece_of_isDigit (hw c mem_cons_self)]
  simp only [append_eq, map_append, append_assoc]
  rw [digitPiece_of_head hhead fun d hd => by simpa using hd, takeWhile_append_stop hglyphs hstop,
    dropWhile_append_stop hglyphs hstop, numberPiece, fractionPart_append hf he hpoint hrest]
  dsimp only
  rw [exponentPart_append he hrest]
  simp [numberKind]

/-- A number that starts with its point. -/
theorem scans_pointed (hne : ds ≠ []) (hds : AreDigits ds) (he : IsExponent exponent) :
    Scans ('.' :: (ds ++ exponent)) (IsToken .floatLiteral (String.ofList ('.' :: (ds ++ exponent))))
      (Opens endsNumber) := by
  refine scans_of_piece (by decide) fun rest hrest => ?_
  have hstop := isDigitGlyph_behind he hrest
  obtain ⟨d, more, rfl⟩ := exists_cons_of_ne_nil hne
  have hglyphs := isDigitGlyph_of_mem hds
  rw [map_append, append_assoc]
  refine (if_pos (hds d mem_cons_self)).trans ?_
  rw [pointPiece, takeWhile_append_stop hglyphs hstop, dropWhile_append_stop hglyphs hstop,
    exponentPart_append he hrest]
  simp

theorem scans_hexadecimal {x : Char} (hx : x = 'x' ∨ x = 'X') (hds : ∀ d ∈ ds, isHexGlyph (.char d) = true) :
    Scans ('0' :: x :: ds) (IsToken .intLiteral (String.ofList ('0' :: x :: ds))) (Opens endsNumber) := by
  refine scans_of_piece (by decide) fun rest hrest => ?_
  have hglyphs : ∀ g ∈ ds.map Glyph.char, isHexGlyph g = true := by
    intro g hg
    obtain ⟨d, hd, rfl⟩ := mem_map.1 hg
    exact hds d hd
  have hstop : ∀ g ∈ rest.head?, isHexGlyph g = false := hrest.head fun c hc => by simp_all [endsNumber]
  have hmark : (Glyph.is (.char '0') '0' && (Glyph.is (.char x) 'x' || Glyph.is (.char x) 'X')) = true := by
    rcases hx with rfl | rfl <;> decide
  show digitPiece (.char '0') (.char x :: (ds.map Glyph.char ++ rest)) = _
  rw [digitPiece, if_pos hmark, takeWhile_append_stop hglyphs hstop, dropWhile_append_stop hglyphs hstop]
  rfl

end Numbers

/-- A numeral is one token of its kind, in front of a character that ends an operand. -/
theorem scans_numeral (n : Numeral) :
    Scans n.chars (IsToken (numberKind n.fractionChars n.exponentChars) (String.ofList n.chars)) (Opens isClose) := by
  have hfraction : IsFraction n.fractionChars ∧ n.fractionChars ≠ ['.'] := by
    unfold Numeral.fractionChars
    cases n.fraction with
    | none => exact ⟨.inl rfl, by simp⟩
    | some ds => exact ⟨.inr ⟨ds.chars, rfl, ds.isDigit⟩, by simpa using ds.ne_nil⟩
  have hexponent : IsExponent n.exponentChars := by
    unfold Numeral.exponentChars
    cases n.exponent with
    | none => exact .inl rfl
    | some e => exact .inr ⟨'e', [if e.1 then '-' else '+'], e.2.chars, rfl, .inl rfl, by cases e.1 <;> simp, e.2.isDigit⟩
  have hscans := scans_number n.whole.ne_nil n.whole.isDigit hfraction.1 hexponent fun h => absurd h hfraction.2
  rw [append_assoc] at hscans
  exact hscans.narrow fun _ => Opens.imp fun _ => endsNumber_of_isClose

end Shading.Token
