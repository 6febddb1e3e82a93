import Shading.Proofs.NormalForm.Scanning

/-!
# Lexemes and gaps

`Spells k s` says which texts are tokens of the kind `k`: symbols, words and numbers. Every piece that is cut off the front
of a text has one of six shapes (`Piece.shape_next`): a blank, a comment to the end of its line, a comment that is closed
or left open, a token with the text that its kind asks for, or a character that starts no token.
-/

namespace Shading.Token
open List Text

/-! ## The texts of tokens -/

/-- The kinds of tokens that are made of punctuation. They are named as they are written. -/
def Kind.isSymbol : Kind → Bool
  | .plus | .minus | .star | .slash | .bang | .equal | .less | .greater => true
  | .dot | .comma | .colon | .semicolon | .question | .arrow => true
  | .equalEqual | .bangEqual | .lessEqual | .greaterEqual | .ampAmp | .pipePipe => true
  | .plusEqual | .minusEqual | .starEqual | .slashEqual => true
  | .leftParen | .rightParen | .leftBrace | .rightBrace | .leftBracket | .rightBracket => true
  | _ => false

/-- The text is one that a token of the kind can have. -/
inductive Spells : Kind → String → Prop
  | symbol {k : Kind} (hk : k.isSymbol = true) : Spells k k.name
  | word {s : String} (hs : IsWordText s) : Spells (.ofWord s) s
  | whole {ds : List Char} (hne : ds ≠ []) (hds : AreDigits ds) : Spells .intLiteral (.ofList ds)
  | hexadecimal {x : Char} {ds : List Char} (hx : x = 'x' ∨ x = 'X') (hds : ∀ d ∈ ds, isHexGlyph (.char d) = true) :
      Spells .intLiteral (.ofList ('0' :: x :: ds))
  | float {whole fraction exponent : List Char} (hwhole : AreDigits whole) (hfraction : IsFraction fraction)
      (hexponent : IsExponent exponent) (hpart : fraction ≠ [] ∨ exponent ≠ [])
      (hdigit : whole ≠ [] ∨ 2 ≤ fraction.length) : Spells .floatLiteral (.ofList (whole ++ fraction ++ exponent))

/-- A number with a fraction or an exponent. Where the fraction is a bare point, nothing follows it. -/
def IsDouble (cs : List Char) : Prop :=
  ∃ whole fraction exponent, cs = whole ++ fraction ++ exponent ∧ AreDigits whole ∧ IsFraction fraction ∧
    IsExponent exponent ∧ (fraction ≠ [] ∨ exponent ≠ []) ∧ (whole ≠ [] ∨ 2 ≤ fraction.length) ∧
    (fraction = ['.'] → exponent = [])

def blanks : List Char := [' ', '\r', '\t', '\n']

variable {c d : Char} {k : Kind} {gs : List Glyph}

theorem utf8Size_of_mem_blanks (hc : c ∈ blanks) : c.utf8Size = 1 := by
  simp only [blanks, mem_cons, not_mem_nil, or_false] at hc
  rcases hc with rfl | rfl | rfl | rfl <;> rfl

/-- The characters that start a symbol, whatever follows. -/
def symbolStarts : List Char :=
  ['(', ')', '\x7b', '\x7d', '[', ']', ',', '.', ':', ';', '?', '+', '-', '*', '/', '=', '!', '<', '>']

/-- The character starts a token, whatever follows. -/
def startsToken (c : Char) : Bool := c.isDigit || isWordStart (.char c) || symbolStarts.contains c

theorem startsToken_of_isDigit (h : c.isDigit = true) : startsToken c = true := by
  rw [startsToken, h]
  rfl

theorem toNat_lt_of_isHexGlyph (h : isHexGlyph (.char c) = true) : c.toNat < 128 := by
  simp only [isHexGlyph, Glyph.satisfies, Bool.or_eq_true, Bool.and_eq_true, decide_eq_true_eq] at h
  rcases h with (h | h) | h
  · have hrange : 48 ≤ c.toNat ∧ c.toNat ≤ 57 := by
      simpa [Char.isDigit, UInt32.le_iff_toNat_le] using h
    omega
  · exact Nat.lt_of_le_of_lt (show c.toNat ≤ 102 from h.2) (by decide)
  · exact Nat.lt_of_le_of_lt (show c.toNat ≤ 70 from h.2) (by decide)

theorem ofWord_cases (s : String) :
    (s, Kind.ofWord s) ∈ Kind.keywords ∨ (Kind.ofWord s = .tyKeyword ∧ ∃ ty ∈ BasicTy.all, ty.name = s) ∨
      Kind.ofWord s = .ident := by
  rw [Kind.ofWord]
  split
  · next k hk =>
    obtain ⟨before, behind, hlist, -⟩ := lookup_eq_some_iff.1 hk
    exact .inl (by rw [hlist]; simp)
  · split
    · next hsome =>
      obtain ⟨ty, hty, hname⟩ := find?_isSome.1 hsome
      exact .inr (.inl ⟨rfl, ty, hty, eq_of_beq hname⟩)
    · exact .inr (.inr rfl)

theorem ofWord_ne (hk : k ≠ .tyKeyword ∧ k ≠ .ident ∧ ∀ entry ∈ Kind.keywords, entry.2 ≠ k) (s : String) :
    Kind.ofWord s ≠ k := by
  rintro rfl
  obtain h | h | h := ofWord_cases s
  · exact hk.2.2 _ h rfl
  · exact hk.1 h.1
  · exact hk.2.1 h

theorem ofWord_ne_number (s : String) : Kind.ofWord s ≠ .intLiteral ∧ Kind.ofWord s ≠ .floatLiteral :=
  ⟨ofWord_ne (by decide) s, ofWord_ne (by decide) s⟩

namespace Spells

variable {k : Kind} {cs : List Char}

/-- How a token starts: with a character that starts one, or with one of the two characters that have to stand twice. -/
theorem starts (h : Spells k (.ofList cs)) :
    ∃ c more, cs = c :: more ∧ (startsToken c = true ∨ (c = '&' ∨ c = '|') ∧ more.head? = some c) := by
  generalize hs : String.ofList cs = s at h
  have hcs : cs = s.toList := by rw [← hs, String.toList_ofList]
  cases h with
  | symbol hk =>
    rw [hcs]
    cases k <;> first
      | exact absurd hk (by decide)
      | exact ⟨_, _, rfl, .inl (by decide)⟩
      | exact ⟨_, _, rfl, .inr ⟨by decide, rfl⟩⟩
  | word hword =>
    obtain ⟨c, more, hlist, hc, -⟩ := hword
    refine ⟨c, more, hcs.trans hlist, .inl ?_⟩
    rw [startsToken, hc, Bool.or_true]
    rfl
  | whole hne hds =>
    obtain ⟨d, ds, rfl⟩ := exists_cons_of_ne_nil hne
    rw [String.toList_ofList] at hcs
    exact ⟨d, ds, hcs, .inl (startsToken_of_isDigit (hds d mem_cons_self))⟩
  | hexadecimal hx hds =>
    rw [String.toList_ofList] at hcs
    exact ⟨_, _, hcs, .inl (startsToken_of_isDigit (by decide))⟩
  | @float whole fraction exponent hwhole hfraction hexponent hpart hdigit =>
    rw [String.toList_ofList] at hcs
    cases whole with
    | cons d ds => exact ⟨d, _, hcs, .inl (startsToken_of_isDigit (hwhole d mem_cons_self))⟩
    | nil =>
      obtain rfl | ⟨ds, rfl, -⟩ := hfraction
      · simp at hdigit
      · exact ⟨'.', _, hcs, .inl (by decide)⟩

/-- What is neither a symbol nor a number is a word. -/
theorem isWord {s : String} (h : Spells k s) (hsymbol : k.isSymbol = false)
    (hnumber : k ≠ .intLiteral ∧ k ≠ .floatLiteral) : IsWordText s ∧ Kind.ofWord s = k := by
  cases h with
  | symbol hk =>
    rw [hk] at hsymbol
    cases hsymbol
  | word hs => exact ⟨hs, rfl⟩
  | whole _ _ | hexadecimal _ _ => exact absurd rfl hnumber.1
  | float _ _ _ _ _ => exact absurd rfl hnumber.2

theorem ne_bad {s : String} (h : Spells k s) : k ≠ .bad := by
  rintro rfl
  exact ofWord_ne (by decide) s (h.isWord rfl (by decide)).2

theorem ne_eof {s : String} (h : Spells k s) : k ≠ .eof := by
  rintro rfl
  exact ofWord_ne (by decide) s (h.isWord rfl (by decide)).2

end Spells

/-! ## The shapes of pieces -/

/-- Neither a token nor a blank stands at the front of the text. -/
def StartsNone (gs : List Glyph) : Prop :=
  (∀ k cs, Spells k (.ofList cs) → ¬ cs.map Glyph.char <+: gs) ∧ ∀ c ∈ blanks, gs.head? ≠ some (.char c)

theorem startsNone_stray (b : UInt8) (rest : List Glyph) : StartsNone (.stray b :: rest) := by
  refine ⟨fun k cs hspells hahead => ?_, fun c _ => by simp⟩
  obtain ⟨c, more, rfl, -⟩ := hspells.starts
  rw [map_cons, cons_prefix_cons] at hahead
  cases hahead.1

theorem startsNone_char {rest : List Glyph} (hc : startsToken c = false) (hblank : c ∉ blanks)
    (htwice : c = '&' ∨ c = '|' → rest.head? ≠ some (.char c)) : StartsNone (.char c :: rest) := by
  constructor
  · intro k cs hspells hahead
    obtain ⟨d, more, rfl, hstarts⟩ := hspells.starts
    rw [map_cons, cons_prefix_cons] at hahead
    obtain ⟨heq, hmore⟩ := hahead
    cases heq
    obtain hstarts | ⟨heither, hhead⟩ := hstarts
    · rw [hc] at hstarts
      cases hstarts
    · obtain ⟨tail, rfl⟩ := head?_eq_some_iff.1 hhead
      obtain ⟨more, rfl⟩ := hmore
      exact htwice heither rfl
  · rintro d hd heq
    cases heq
    exact hblank hd

/-- What closes a comment. -/
def commentEnd : List Glyph := [.char '*', .char '/']

/-- What a piece can be. -/
inductive Piece.Shape : Piece → Prop
  | blank {c : Char} {rest : List Glyph} (hc : c ∈ blanks) : Shape ⟨none, [.char c], rest⟩
  | line {body rest : List Glyph} (hbody : .char '\n' ∉ body)
      (hrest : rest = [] ∨ ∃ more, rest = .char '\n' :: more) : Shape ⟨none, .char '/' :: .char '/' :: body, rest⟩
  | block {body rest : List Glyph} (hbody : ¬ commentEnd <:+: body ++ [.char '*']) :
      Shape ⟨none, .char '/' :: .char '*' :: (body ++ commentEnd), rest⟩
  | openBlock {body : List Glyph} (hbody : ¬ commentEnd <:+: body) : Shape ⟨none, .char '/' :: .char '*' :: body, []⟩
  | token {k : Kind} {cs : List Char} {rest : List Glyph} (h : Spells k (.ofList cs))
      (hdouble : k = .floatLiteral → IsDouble cs) : Shape ⟨some k, cs.map Glyph.char, rest⟩
  | unexpected {g : Glyph} {rest : List Glyph} (h : StartsNone (g :: rest)) : Shape ⟨some .bad, [g], rest⟩

theorem eq_of_is {g : Glyph} (h : g.is c = true) : g = .char c := eq_of_beq h

/-- A comment ends where it is closed first, or not at all. -/
theorem blockComment_cases (gs : List Glyph) :
    (∃ body, (blockComment gs).1 = body ++ commentEnd ∧ ¬ commentEnd <:+: body ++ [.char '*']) ∨
      blockComment gs = (gs, []) ∧ ¬ commentEnd <:+: gs := by
  have hshort : ∀ g : Glyph, ¬ commentEnd <:+: [g] := by
    intro g h
    have := h.length_le
    simp [commentEnd] at this
  fun_induction blockComment gs with
  | case1 g h rest hclose =>
    rw [Bool.and_eq_true] at hclose
    refine .inl ⟨[], ?_, hshort _⟩
    rw [eq_of_is hclose.1, eq_of_is hclose.2]
    rfl
  | case2 g h rest hclose ih =>
    -- The comment is not closed here, so it is closed where it would be without its first character.
    have hfront : ∀ more, ¬ commentEnd <+: g :: h :: more := by
      intro more hahead
      rw [commentEnd, cons_prefix_cons, cons_prefix_cons] at hahead
      rw [← hahead.1, ← hahead.2.1] at hclose
      exact hclose (by decide)
    obtain ⟨body, hbody, hends⟩ | ⟨hopen, hends⟩ := ih
    · refine .inl ⟨g :: body, by rw [hbody]; rfl, ?_⟩
      rw [cons_append, infix_cons_iff]
      rintro (hahead | hwithin)
      · cases body with
        | nil =>
          rw [commentEnd, nil_append, cons_prefix_cons, cons_prefix_cons] at hahead
          exact absurd hahead.2.1 (by decide)
        | cons b body =>
          have hb : b = h := by
            have hparts := blockComment_parts (h :: rest)
            rw [hbody] at hparts
            exact (List.cons.inj hparts).1
          rw [hb] at hahead
          exact hfront _ hahead
      · exact hends hwithin
    · refine .inr ⟨by rw [hopen], ?_⟩
      rw [infix_cons_iff]
      rintro (hahead | hwithin)
      · exact hfront _ hahead
      · exact hends hwithin
  | case3 gs hgs =>
    refine .inr ⟨rfl, ?_⟩
    rcases gs with _ | ⟨g, _ | ⟨h, rest⟩⟩
    · simp [commentEnd]
    · exact hshort g
    · exact absurd rfl (hgs g h rest)

/-- Characters that pass a test and are taken from the front of a text. -/
theorem takeWhile_chars (test : Char → Bool) (gs : List Glyph) :
    ∃ cs : List Char, gs.takeWhile (Glyph.satisfies test) = cs.map Glyph.char ∧ ∀ c ∈ cs, test c = true := by
  induction gs with
  | nil => exact ⟨[], rfl, by simp⟩
  | cons g gs ih =>
    rw [takeWhile_cons]
    split
    · next hg =>
      obtain ⟨cs, hcs, htest⟩ := ih
      cases g with
      | stray b => cases hg
      | char c =>
        refine ⟨c :: cs, by rw [hcs]; rfl, ?_⟩
        rintro d (_ | ⟨_, hd⟩)
        · exact hg
        · exact htest d hd
    · exact ⟨[], rfl, by simp⟩

theorem fractionPart_chars_eq (gs : List Glyph) : ∃ cs, (fractionPart gs).1 = cs.map Glyph.char ∧ IsFraction cs := by
  fun_cases fractionPart gs with
  | case1 => exact ⟨[], rfl, .inl rfl⟩
  | case2 g rest hpoint =>
    obtain ⟨ds, hds, hdigits⟩ := takeWhile_chars Char.isDigit rest
    rw [Bool.and_eq_true] at hpoint
    refine ⟨'.' :: ds, ?_, .inr ⟨ds, rfl, hdigits⟩⟩
    rw [eq_of_is hpoint.1, map_cons, ← hds]
    rfl
  | case3 => exact ⟨[], rfl, .inl rfl⟩

/-- A bare point stands in front of no exponent, whose mark would make it select a component. -/
theorem exponentPart_of_point (h : (fractionPart gs).1 = [.char '.']) :
    (exponentPart (fractionPart gs).2).1 = [] := by
  revert h
  fun_cases fractionPart gs with
  | case1 | case3 => exact fun h => by cases h
  | case2 g rest hpoint =>
    intro h
    have hdigits : rest.takeWhile isDigitGlyph = [] := (List.cons.inj h).2
    have hrest : rest.dropWhile isDigitGlyph = rest := by
      conv_rhs => rw [← takeWhile_append_dropWhile (p := isDigitGlyph) (l := rest), hdigits, nil_append]
    rw [hrest]
    cases rest with
    | nil => rfl
    | cons x more =>
      have hmark : ¬ (x.is 'e' || x.is 'E') = true := by
        intro hmark
        rw [Bool.or_eq_true] at hmark
        obtain hx | hx := hmark <;> rw [eq_of_is hx] at hpoint <;> exact absurd hpoint (by simp +decide)
      exact congrArg Prod.fst (if_neg hmark)

theorem eq_of_is_or {g : Glyph} (h : (g.is c || g.is d) = true) : ∃ x, g = .char x ∧ (x = c ∨ x = d) := by
  rw [Bool.or_eq_true] at h
  obtain h | h := h
  · exact ⟨c, eq_of_is h, .inl rfl⟩
  · exact ⟨d, eq_of_is h, .inr rfl⟩

theorem exponentPart_chars_eq (gs : List Glyph) : ∃ cs, (exponentPart gs).1 = cs.map Glyph.char ∧ IsExponent cs := by
  fun_cases exponentPart gs with
  | case1 => exact ⟨[], rfl, .inl rfl⟩
  | case2 g hmark s rest hsign =>
    obtain ⟨mark, rfl, heither⟩ := eq_of_is_or hmark
    obtain ⟨sign, rfl, hplus⟩ := eq_of_is_or hsign
    obtain ⟨ds, hds, hdigits⟩ := takeWhile_chars Char.isDigit rest
    refine ⟨mark :: ([sign] ++ ds), ?_, .inr ⟨mark, [sign], ds, rfl, heither, .inr ?_, hdigits⟩⟩
    · rw [map_cons, singleton_append, map_cons, ← hds]
      rfl
    · obtain rfl | rfl := hplus
      · exact .inl rfl
      · exact .inr rfl
  | case3 g hmark s rest hsign =>
    obtain ⟨mark, rfl, heither⟩ := eq_of_is_or hmark
    obtain ⟨ds, hds, hdigits⟩ := takeWhile_chars Char.isDigit (s :: rest)
    refine ⟨mark :: ([] ++ ds), ?_, .inr ⟨mark, [], ds, rfl, heither, .inl rfl, hdigits⟩⟩
    rw [map_cons, nil_append, ← hds]
    rfl
  | case4 g hmark =>
    obtain ⟨mark, rfl, heither⟩ := eq_of_is_or hmark
    exact ⟨[mark], rfl, .inr ⟨mark, [], [], rfl, heither, .inl rfl, by simp [AreDigits]⟩⟩
  | case5 => exact ⟨[], rfl, .inl rfl⟩

namespace Piece

theorem shape_one (hk : k.isSymbol = true) (hname : k.name = .ofList [c]) (rest : List Glyph) :
    (one k (.char c) rest).Shape := by
  have hspells : Spells k (.ofList [c]) := by
    rw [← hname]
    exact .symbol hk
  exact @Shape.token k [c] rest hspells (by rintro rfl; cases hk)

theorem shape_two (hk : k.isSymbol = true) (hname : k.name = .ofList [c, d]) {h : Glyph} (hd : h.is d = true)
    (rest : List Glyph) : Shape ⟨some k, [.char c, h], rest⟩ := by
  have hspells : Spells k (.ofList [c, d]) := by
    rw [← hname]
    exact .symbol hk
  rw [eq_of_is hd]
  exact @Shape.token k [c, d] rest hspells (by rintro rfl; cases hk)

theorem shape_either {long short : Kind} (hlong : long.isSymbol = true) (hlongName : long.name = .ofList [c, d])
    (hshort : short.isSymbol = true) (hshortName : short.name = .ofList [c])
    (rest : List Glyph) : (either d long short (.char c) rest).Shape := by
  fun_cases either d long short (.char c) rest with
  | case1 h rest hd => exact shape_two hlong hlongName hd rest
  | case2 h rest hd => exact shape_one hshort hshortName (h :: rest)
  | case3 => exact shape_one hshort hshortName []

/-- A character that has to stand twice. -/
theorem shape_twice (hk : k.isSymbol = true) (hname : k.name = .ofList [c, c]) (hc : startsToken c = false)
    (hblank : c ∉ blanks) (rest : List Glyph) :
    (either c k .bad (.char c) rest).Shape := by
  fun_cases either c k .bad (.char c) rest with
  | case1 h rest hd => exact shape_two hk hname hd rest
  | case2 h rest hd =>
    refine .unexpected (startsNone_char hc hblank fun _ heq => hd ?_)
    rw [Option.some.inj heq]
    exact beq_self_eq_true _
  | case3 => exact .unexpected (startsNone_char hc hblank fun _ heq => by cases heq)

theorem shape_minus (rest : List Glyph) : (minusPiece (.char '-') rest).Shape := by
  fun_cases minusPiece (.char '-') rest with
  | case1 h rest hd => exact shape_two rfl rfl hd rest
  | case2 h rest _ hd => exact shape_two rfl rfl hd rest
  | case3 h rest _ _ => exact shape_one rfl rfl (h :: rest)
  | case4 => exact shape_one rfl rfl []

theorem shape_slash (rest : List Glyph) : (slashPiece (.char '/') rest).Shape := by
  fun_cases slashPiece (.char '/') rest with
  | case1 h rest hd =>
    rw [eq_of_is hd]
    refine .line ?_ ?_
    · intro hmem
      exact absurd (all_eq_true.1 all_takeWhile _ hmem) (by decide)
    · cases hrest : rest.dropWhile fun x => !x.is '\n' with
      | nil => exact .inl rfl
      | cons g more =>
        have hg := head_dropWhile_not (fun x : Glyph => !x.is '\n') (l := rest) (by simp [hrest])
        simp only [hrest, head_cons, Bool.not_eq_false'] at hg
        exact .inr ⟨more, by rw [eq_of_is hg]⟩
  | case2 h rest _ hd body behind hparts =>
    rw [eq_of_is hd]
    obtain ⟨body', hbody, hends⟩ | ⟨hopen, hends⟩ := blockComment_cases rest
    · rw [hparts] at hbody
      rw [show body = body' ++ commentEnd from hbody]
      exact .block hends
    · rw [hparts] at hopen
      cases hopen
      exact .openBlock hends
  | case3 h rest _ _ hd => exact shape_two rfl rfl hd rest
  | case4 h rest _ _ _ => exact shape_one rfl rfl (h :: rest)
  | case5 => exact shape_one rfl rfl []

/-- A number whose digits in front of the point are given. -/
theorem shape_number {whole : List Char} (hne : whole ≠ []) (hwhole : AreDigits whole) (rest : List Glyph) :
    (numberPiece (whole.map Glyph.char) rest).Shape := by
  obtain ⟨fraction, hf, hfraction⟩ := fractionPart_chars_eq rest
  obtain ⟨exponent, he, hexponent⟩ := exponentPart_chars_eq (fractionPart rest).2
  have htaken : (numberPiece (whole.map Glyph.char) rest).taken = (whole ++ fraction ++ exponent).map Glyph.char := by
    rw [map_append, map_append, ← hf, ← he]
    rfl
  have hkind : (numberPiece (whole.map Glyph.char) rest).kind =
      some (if (fraction.isEmpty && exponent.isEmpty) = true then .intLiteral else .floatLiteral) := by
    have hempty : ∀ cs : List Char, cs.isEmpty = (cs.map Glyph.char).isEmpty := fun cs => isEmpty_map.symm
    rw [hempty, hempty, ← hf, ← he]
    rfl
  generalize numberPiece (whole.map Glyph.char) rest = piece at htaken hkind
  obtain ⟨kind, taken, rest⟩ := piece
  simp only at htaken hkind
  subst htaken hkind
  split
  · next hempty =>
    rw [Bool.and_eq_true, List.isEmpty_iff, List.isEmpty_iff] at hempty
    rw [hempty.1, hempty.2, List.append_nil, List.append_nil]
    exact .token (.whole hne hwhole) fun h => by cases h
  · next hempty =>
    rw [Bool.and_eq_true, List.isEmpty_iff, List.isEmpty_iff, not_and_or] at hempty
    have hpoint : fraction = ['.'] → exponent = [] := by
      rintro rfl
      exact List.map_eq_nil_iff.1 (he.symm.trans (exponentPart_of_point hf))
    exact .token (.float hwhole hfraction hexponent hempty (.inl hne)) fun _ =>
      ⟨_, _, _, rfl, hwhole, hfraction, hexponent, hempty, .inl hne, hpoint⟩

theorem shape_digit (hc : c.isDigit = true) (rest : List Glyph) : (digitPiece (.char c) rest).Shape := by
  have hdecimal : (numberPiece (.char c :: rest.takeWhile isDigitGlyph) (rest.dropWhile isDigitGlyph)).Shape := by
    obtain ⟨ds, hds, hdigits⟩ := takeWhile_chars Char.isDigit rest
    rw [show rest.takeWhile isDigitGlyph = ds.map Glyph.char from hds, ← map_cons]
    refine shape_number (cons_ne_nil c ds) ?_ _
    rintro d (_ | ⟨_, hd⟩)
    · exact hc
    · exact hdigits d hd
  unfold digitPiece
  split
  · next x rest' =>
    split
    · next hhex =>
      rw [Bool.and_eq_true] at hhex
      obtain ⟨x, rfl, hx⟩ := eq_of_is_or hhex.2
      obtain ⟨ds, hds, hdigits⟩ := takeWhile_chars
        (fun c => c.isDigit || (decide ('a' ≤ c) && decide (c ≤ 'f')) || (decide ('A' ≤ c) && decide (c ≤ 'F'))) rest'
      rw [show rest'.takeWhile isHexGlyph = ds.map Glyph.char from hds, eq_of_is hhex.1]
      exact @Shape.token _ ('0' :: x :: ds) _ (.hexadecimal hx hdigits) fun h => by cases h
    · exact hdecimal
  · exact hdecimal

theorem shape_point {rest : List Glyph} (h : rest.head?.any isDigitGlyph = true) :
    (pointPiece (.char '.') rest).Shape := by
  obtain ⟨ds, hds, hdigits⟩ := takeWhile_chars Char.isDigit rest
  obtain ⟨exponent, he, hexponent⟩ := exponentPart_chars_eq (rest.dropWhile isDigitGlyph)
  have hne : ds ≠ [] := by
    rintro rfl
    cases rest with
    | nil => cases h
    | cons g more =>
      rw [takeWhile_cons, if_pos (show g.satisfies Char.isDigit = true from h)] at hds
      cases hds
  have htaken : (pointPiece (.char '.') rest).taken = ([] ++ '.' :: ds ++ exponent).map Glyph.char := by
    rw [map_append, ← he, nil_append, map_cons, ← hds]
    rfl
  have hnone : AreDigits [] := by simp [AreDigits]
  have hfraction : IsFraction ('.' :: ds) := .inr ⟨ds, rfl, hdigits⟩
  have hlength : 2 ≤ ('.' :: ds).length := by
    have := length_pos_iff.2 hne
    rw [length_cons]
    omega
  have hspells : Spells .floatLiteral (.ofList ([] ++ '.' :: ds ++ exponent)) :=
    .float hnone hfraction hexponent (.inl (cons_ne_nil _ _)) (.inr hlength)
  have hshape : Shape ⟨some .floatLiteral, (pointPiece (.char '.') rest).taken, (pointPiece (.char '.') rest).rest⟩ := by
    rw [htaken]
    exact .token hspells fun _ => ⟨[], '.' :: ds, exponent, rfl, hnone, hfraction, hexponent,
      .inl (cons_ne_nil _ _), .inr hlength, fun h => absurd (List.cons.inj h).2 hne⟩
  exact hshape

theorem shape_word (hc : isWordStart (.char c) = true) (rest : List Glyph) :
    (wordPiece (.char c) rest).Shape := by
  obtain ⟨cs, hcs, hword⟩ := takeWhile_chars (fun c => isLetter c || c.isDigit || c == '_') rest
  have htaken : (.char c :: rest.takeWhile isWordGlyph : List Glyph) = (c :: cs).map Glyph.char := by
    rw [map_cons, ← hcs]
    rfl
  unfold wordPiece
  dsimp only
  rw [htaken, text_map_char]
  exact .token (.word ⟨c, cs, String.toList_ofList, hc, hword⟩) fun h => absurd h (ofWord_ne_number _).2

theorem shape_char (c : Char) (rest : List Glyph) : (charPiece c (.char c) rest).Shape := by
  unfold charPiece
  split
  all_goals first
    | exact shape_one rfl rfl rest
    | exact shape_either rfl rfl rfl rfl rest
    | exact shape_twice rfl rfl (by decide) (by decide) rest
    | exact .blank (by decide)
    | skip
  · split
    · next h => exact shape_point h
    · exact shape_one rfl rfl rest
  · exact shape_minus rest
  · exact shape_slash rest
  · split
    · next h => exact shape_digit h rest
    · next hdigit =>
      split
      · next h => exact shape_word h rest
      · next hword =>
        refine .unexpected (startsNone_char ?_ ?_ ?_)
        · simp_all [startsToken, symbolStarts]
        · simp_all [blanks]
        · simp_all

/-- Every piece that is cut off the front of a text has one of the shapes. -/
theorem shape_next (g : Glyph) (rest : List Glyph) : (Piece.next g rest).Shape := by
  cases g with
  | char c => exact shape_char c rest
  | stray b => exact .unexpected (startsNone_stray b rest)

end Piece

/-! ## The tokens that are read -/

/-- The tokens of a text have the texts that their kinds ask for, but for the last, which marks its end. -/
theorem spells_of_readFrom {p : Position} {ts : List Token} (h : readFrom p gs = .ok ts) :
    ∃ us q, ts = us ++ [⟨.eof, "", q⟩] ∧
      ∀ t ∈ us, Spells t.kind t.lexeme ∧ (t.kind = .floatLiteral → IsDouble t.lexeme.toList) := by
  fun_induction readFrom p gs generalizing ts with
  | case1 p =>
    cases h
    exact ⟨[], p, rfl, by simp⟩
  | case2 p g rest _ behind hnone =>
    rename_i ih
    exact ih h
  | case3 p g rest => cases h
  | case4 p g rest _ behind k hbad hkind =>
    rename_i piece ih
    cases hmore : readFrom behind piece.rest with
    | error e =>
      rw [hmore] at h
      cases h
    | ok more =>
      rw [hmore] at h
      cases h
      obtain ⟨us, q, rfl, hus⟩ := ih hmore
      refine ⟨_ :: us, q, rfl, ?_⟩
      rintro t (_ | ⟨_, ht⟩)
      · have hshape := Piece.shape_next g rest
        change (piece : Piece).Shape at hshape
        generalize piece = piece at hshape hkind
        cases hshape with
        | blank _ | line _ _ | block _ | openBlock _ => cases hkind
        | unexpected _ =>
          cases hkind
          exact absurd rfl hbad
        | token hspells hdouble =>
          cases hkind
          rw [text_map_char, String.toList_ofList]
          exact ⟨hspells, hdouble⟩
      · exact hus t ht

/-- Every identifier that is read is a name. -/
theorem isName_of_readFrom {p : Position} {ts : List Token} (h : readFrom p gs = .ok ts) :
    ∀ t ∈ ts, t.kind = .ident → IsName t.lexeme := by
  obtain ⟨us, q, rfl, hus⟩ := spells_of_readFrom h
  intro t ht hident
  rcases mem_append.1 ht with ht | ht
  · have hspells := (hus t ht).1
    rw [hident] at hspells
    exact hspells.isWord rfl (by decide)
  · cases mem_singleton.1 ht
    cases hident

end Shading.Token
