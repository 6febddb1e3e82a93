import Shading.Proofs.Lexing.Lexemes

/-!
# Literals

Three rules tell the kinds of literals apart: how a number is cut off a text, what makes the text of a literal look like a
double, and how a constant is written. They agree. A literal token that denotes anything denotes a constant of its own
kind (`kind_of_spells`), for an integer the value of its numeral modulo `2 ^ 32` (`parse_iff_intNumeral`). The text of a
constant is one literal of its kind, with or without a minus sign (`scans_text`), and denotes the constant (`parse_text`).
-/

namespace Shading

open List

/-- The kind of the tokens that denote constants of the kind. -/
def Scalar.literalKind : Scalar → Token.Kind
  | bool => .boolLiteral
  | int => .intLiteral
  | float => .floatLiteral

/-- The tokens are one literal of the constant's kind, which denotes its magnitude, and a minus sign in front if the
constant is negative. -/
def Token.IsLiteral (v : Value) (ts : List Token) : Prop :=
  ∃ signs t, ts = signs ++ [t] ∧ signs.map Token.kind = (if v.isNegative then [.minus] else []) ∧
    t.kind = v.kind.literalKind ∧ Value.parse t.lexeme = .ok v.magnitude

namespace Value
open Number Token

/-! ## What tokens denote -/

variable {s : String} {v : Value} {cs : List Char} {c : Char}

/-- Words denote truth values, and of the other texts those that look like doubles denote doubles. -/
theorem kind_of_parse (h : parse s = .ok v) :
    v.kind = if s = "true" ∨ s = "false" then .bool else if looksLikeFloat s.toList then .float else .int := by
  unfold parse at h
  split at h
  · next htrue =>
    cases h
    rw [if_pos (.inl htrue)]
    rfl
  split at h
  · next hfalse =>
    cases h
    rw [if_pos (.inr hfalse)]
    rfl
  rw [if_neg (by rintro (hs | hs) <;> contradiction)]
  split at h
  · next hlooks =>
    rw [if_pos hlooks]
    split at h
    · cases h
      rfl
    · cases h
  · next hlooks =>
    rw [if_neg hlooks]
    split at h
    · split at h
      · cases h
      · cases h
        rfl
    · cases h

/-- The text of an integer token: digits, or a mark of base sixteen and digits of this base. -/
theorem intLiteral_cases {k : Kind} (h : Spells k s) (hk : k = .intLiteral) :
    (∃ d ds, s = .ofList (d :: ds) ∧ AreDigits (d :: ds)) ∨
      ∃ x ds, s = .ofList ('0' :: x :: ds) ∧ (x = 'x' ∨ x = 'X') ∧ ∀ d ∈ ds, isHexGlyph (.char d) = true := by
  cases h with
  | symbol hsymbol =>
    rw [hk] at hsymbol
    cases hsymbol
  | word _ => exact absurd hk (ofWord_ne_number _).1
  | whole hne hds =>
    obtain ⟨d, ds, rfl⟩ := exists_cons_of_ne_nil hne
    exact .inl ⟨d, ds, rfl, hds⟩
  | hexadecimal hx hds => exact .inr ⟨_, _, rfl, hx, hds⟩
  | float _ _ _ _ _ => cases hk

/-- The characters of a number that is no integer. -/
def doubleChars : List Char := ['.', 'e', 'E', '+', '-']

theorem mem_of_isDouble (h : IsDouble cs) : ∀ c ∈ cs, c.isDigit = true ∨ c ∈ doubleChars := by
  obtain ⟨whole, fraction, exponent, rfl, hwhole, hfraction, hexponent, -⟩ := h
  intro c hc
  simp only [mem_append] at hc
  rcases hc with (hc | hc) | hc
  · exact .inl (hwhole c hc)
  · obtain rfl | ⟨ds, rfl, hds⟩ := hfraction
    · cases hc
    · rcases mem_cons.1 hc with rfl | hc
      · exact .inr (by decide)
      · exact .inl (hds c hc)
  · obtain rfl | ⟨mark, sign, ds, rfl, hmark, hsign, hds⟩ := hexponent
    · cases hc
    · rcases mem_cons.1 hc with rfl | hc
      · exact .inr (by rcases hmark with rfl | rfl <;> decide)
      rcases mem_append.1 hc with hc | hc
      · exact .inr (by rcases hsign with rfl | rfl | rfl <;> simp_all [doubleChars])
      · exact .inl (hds c hc)

theorem not_mem_of_isDouble (h : IsDouble cs) (hdigit : c.isDigit = false) (hc : c ∉ doubleChars) : c ∉ cs := by
  intro hmem
  rcases mem_of_isDouble h c hmem with hc' | hc'
  · rw [hc'] at hdigit
    cases hdigit
  · exact hc hc'

theorem looksLikeFloat_of_isDouble (h : IsDouble cs) : looksLikeFloat cs = true := by
  have hhex : ∀ c : Char, c = 'x' ∨ c = 'X' → c ∉ cs := by
    rintro c (rfl | rfl) <;> exact not_mem_of_isDouble h (by decide) (by decide)
  obtain ⟨whole, fraction, exponent, rfl, -, hfraction, hexponent, hpart, -⟩ := h
  unfold looksLikeFloat
  rw [Bool.and_eq_true]
  constructor
  · rw [any_append, any_append]
    rcases hpart with hpart | hpart
    · obtain rfl | ⟨ds, rfl, -⟩ := hfraction
      · exact absurd rfl hpart
      · simp
    · obtain rfl | ⟨mark, sign, ds, rfl, hmark, -⟩ := hexponent
      · exact absurd rfl hpart
      · rcases hmark with rfl | rfl <;> simp
  · split
    · next c cs heq =>
      have hmem : c ∈ whole ++ fraction ++ exponent := by simp [heq]
      simp only [Bool.not_eq_true', Bool.or_eq_false_iff, beq_eq_false_iff_ne]
      exact ⟨fun hx => hhex c (.inl hx) hmem, fun hx => hhex c (.inr hx) hmem⟩
    · rfl

/-- **A literal denotes a constant of its kind,** if it denotes any. -/
theorem kind_of_spells {k : Scalar} (hspells : Spells k.literalKind s)
    (hdouble : k.literalKind = .floatLiteral → IsDouble s.toList) (h : parse s = .ok v) : v.kind = k := by
  rw [kind_of_parse h]
  have hword : ∀ c cs, s = .ofList (c :: cs) → c.isDigit = true → ¬ (s = "true" ∨ s = "false") := by
    rintro c cs rfl hc (hs | hs)
    · exact ofList_ne_of_head (isDigit_ne hc (by decide)) cs ['r', 'u', 'e'] hs
    · exact ofList_ne_of_head (isDigit_ne hc (by decide)) cs ['a', 'l', 's', 'e'] hs
  cases k with
  | bool =>
    obtain ⟨-, hkind⟩ := hspells.isWord rfl (by decide)
    have hwords : ∀ entry ∈ Kind.keywords, entry.2 = .boolLiteral → entry.1 = "true" ∨ entry.1 = "false" := by decide
    obtain hmem | ⟨hother, -⟩ | hother := ofWord_cases s
    · exact if_pos (hwords _ hmem hkind)
    · rw [hkind] at hother
      cases hother
    · rw [hkind] at hother
      cases hother
  | int =>
    obtain ⟨d, ds, hs, hds⟩ | ⟨x, ds, hs, hx, -⟩ := intLiteral_cases hspells rfl
    · rw [if_neg (hword d ds hs (hds d mem_cons_self)), hs, String.toList_ofList, looksLikeFloat_of_digits hds]
      rfl
    · rw [if_neg (hword _ _ hs rfl), hs, String.toList_ofList]
      rcases hx with rfl | rfl <;> exact if_neg (by simp [looksLikeFloat])
  | float =>
    have hs := hdouble rfl
    rw [if_neg, looksLikeFloat_of_isDouble hs]
    · rfl
    · rintro (rfl | rfl)
      · exact not_mem_of_isDouble (c := 't') hs (by decide) (by decide) (by decide)
      · exact not_mem_of_isDouble (c := 'f') hs (by decide) (by decide) (by decide)

/-! ## What integer tokens denote -/

theorem isDigitOf_sixteen (h : isHexGlyph (.char c) = true) : IsDigitOf 16 c := by
  have hall : ∀ n < 128, isHexGlyph (.char (Char.ofNat n)) = true → IsDigitOf 16 (Char.ofNat n) := by decide +kernel
  have hc := hall c.toNat (toNat_lt_of_isHexGlyph h)
  rw [Char.ofNat_toNat] at hc
  exact hc h

/-- A zero in front of a digit that is too large for base eight makes no numeral. -/
theorem parse_octal_malformed {ds : List Char} (hds : AreDigits ds) (hc : c ∈ ds) (hdigit : ¬ IsDigitOf 8 c)
    (v : Value) : parse (.ofList ('0' :: ds)) ≠ .ok v := by
  have hall : AreDigits ('0' :: ds) := forall_mem_cons.2 ⟨rfl, hds⟩
  have hplain : '_' ∉ '0' :: ds := fun hmem => absurd (hall _ hmem) (by decide)
  obtain ⟨why, hread⟩ := readDigits_malformed (by decide) hc hdigit (fun hmem => hplain (mem_cons_of_mem _ hmem)) 0
  rw [parse_of_head (by decide) (by decide), looksLikeFloat_of_digits hall, if_neg (by decide),
    readInteger_eq (splitSign_of_digit rfl ds) (cons_ne_nil _ _) hplain (integerBase_octal hds), hread]
  exact nofun

/-- The text of an integer token that denotes anything is a numeral. -/
theorem exists_intNumeral (hspells : Spells .intLiteral s) (h : parse s = .ok v) :
    ∃ n, IntNumeral s.toList n := by
  obtain ⟨d, ds, rfl, hds⟩ | ⟨x, ds, rfl, hx, hds⟩ := intLiteral_cases hspells rfl <;> rw [String.toList_ofList]
  · by_cases hd : d = '0'
    · subst hd
      have hrest : AreDigits ds := fun c hc => hds c (mem_cons_of_mem _ hc)
      by_cases hoctal : ∀ c ∈ ds, IsDigitOf 8 c
      · exact ⟨_, .octal hoctal⟩
      · simp only [not_forall] at hoctal
        obtain ⟨c, hc, hdigit⟩ := hoctal
        exact absurd h (parse_octal_malformed hrest hc hdigit v)
    · exact ⟨_, .decimal hd fun c hc => (isDigitOf_ten (hds c hc)).1⟩
  · by_cases hne : ds = []
    · subst hne
      rcases hx with rfl | rfl <;> cases h
    · exact ⟨_, .hexadecimal hx hne fun c hc => isDigitOf_sixteen (hds c hc)⟩

/-- **An integer token denotes the value of its numeral,** reduced to 32 bits with a sign, if this is below `2 ^ 32`. -/
theorem parse_iff_intNumeral (hspells : Spells .intLiteral s) (v : Value) :
    parse s = .ok v ↔
      ∃ n i, IntNumeral s.toList n ∧ n < 2 ^ 32 ∧ v = .int i ∧ i.toInt = (n : ℤ).bmod (2 ^ 32) := by
  constructor
  · intro h
    obtain ⟨n, hn⟩ := exists_intNumeral hspells h
    have hparse := parse_of_intNumeral hn
    rw [String.ofList_toList, h] at hparse
    split at hparse
    · next hlt =>
      cases hparse
      exact ⟨n, _, hn, hlt, rfl, Int32.toInt_ofInt⟩
    · cases hparse
  · rintro ⟨n, i, hn, hlt, rfl, hi⟩
    have hparse := parse_of_intNumeral hn
    have hvalue : Int32.ofInt n = i := Int32.toInt_inj.1 (by rw [Int32.toInt_ofInt, hi]; rfl)
    rwa [String.ofList_toList, if_pos hlt, hvalue] at hparse

/-! ## Signs -/

/-- Behind a minus sign an integer is read as its negation. -/
theorem readInteger_neg (hsign : splitSign cs = (false, cs)) (hne : cs ≠ []) (hplain : '_' ∉ cs) {i : ℤ}
    (h : readInteger cs = .ok i) : 0 ≤ i ∧ readInteger ('-' :: cs) = .ok (-i) := by
  obtain ⟨base, digits, hbase⟩ : ∃ base digits, integerBase cs = (base, digits) := ⟨_, _, rfl⟩
  have hneg : splitSign ('-' :: cs) = (true, cs) := rfl
  rw [readInteger_eq hsign hne hplain hbase] at h
  rw [readInteger_eq hneg hne hplain hbase]
  cases hdigits : readDigits base 0 digits with
  | error why =>
    rw [hdigits] at h
    cases h
  | ok n =>
    rw [hdigits, Except.bind, if_neg (by decide)] at h
    split at h
    · cases h
    · cases h
      rw [Except.bind, if_pos rfl, if_neg (by omega)]
      exact ⟨Int.natCast_nonneg n, rfl⟩

/-- Behind a minus sign the parts of a double's numeral are the same but for the sign. -/
theorem readFloatNumeral?_neg (hsign : splitSign cs = (false, cs)) {n : FloatNumeral}
    (h : readFloatNumeral? cs = some n) :
    n.negative = false ∧ readFloatNumeral? ('-' :: cs) = some { n with negative := true } := by
  have hneg : splitSign ('-' :: cs) = (true, cs) := rfl
  unfold readFloatNumeral? at h ⊢
  rw [hsign] at h
  rw [hneg]
  dsimp only at h ⊢
  generalize readMantissa _ _ _ _ = m at h ⊢
  simp only [Option.bind_eq_bind, Option.bind_eq_some_iff] at h ⊢
  obtain ⟨u, hdigit, h⟩ := h
  -- The exponent is read, missing where a hexadecimal numeral needs one, or zero.
  by_cases hmark : startsExponent (splitHex cs).1 m.rest = true
  · simp only [if_pos hmark, Option.bind_eq_some_iff] at h ⊢
    obtain ⟨parts, hexponent, w, hends, z, hplain, hn⟩ := h
    cases hn
    exact ⟨rfl, u, hdigit, parts, hexponent, w, hends, z, hplain, rfl⟩
  · simp only [if_neg hmark] at h ⊢
    by_cases hhex : (splitHex cs).1 = true
    · rw [if_pos hhex] at h
      cases h
    · simp only [if_neg hhex, Option.bind_eq_some_iff] at h ⊢
      obtain ⟨parts, hexponent, w, hends, z, hplain, hn⟩ := h
      cases hn
      exact ⟨rfl, u, hdigit, parts, hexponent, w, hends, z, hplain, rfl⟩

/-- Behind a minus sign a double is read as its negation. -/
theorem readFloat_neg (hsign : splitSign cs = (false, cs)) {f : Float} (h : readFloat cs = .ok f) :
    readFloat ('-' :: cs) = .ok (-f) := by
  unfold readFloat at h ⊢
  cases hnumeral : readFloatNumeral? cs with
  | none =>
    rw [hnumeral] at h
    cases h
  | some n =>
    obtain ⟨hnegative, hneg⟩ := readFloatNumeral?_neg hsign hnumeral
    rw [hnumeral] at h
    rw [hneg]
    dsimp only at h ⊢
    split at h
    · next hfinite =>
      cases h
      rw [hnegative, neg_floatOfMagnitude _ hfinite]
      exact if_pos hfinite
    · cases h

theorem looksLikeFloat_neg (n : Numeral) : looksLikeFloat ('-' :: n.chars) = looksLikeFloat n.chars := by
  have hsigned : looksLikeFloat ('-' :: n.chars) = n.chars.any fun c => c == '.' || c == 'e' || c == 'E' :=
    Bool.and_true _
  rw [hsigned, any_mark_eq, Bool.eq_iff_iff, looksLikeFloat_chars, any_mark_iff]

/-- Behind a minus sign a numeral denotes the negation of what it denotes. -/
theorem parse_neg (n : Numeral) (h : parse (String.ofList n.chars) = .ok v) :
    ∃ w, v.neg? = some w ∧ parse (String.ofList ('-' :: n.chars)) = .ok w := by
  have hlooks := looksLikeFloat_neg n
  have hplain : '_' ∉ n.chars := Numeral.not_mem_chars (by decide)
  obtain ⟨c, cs, hchars, hc⟩ := n.exists_chars_eq
  rw [hchars] at h hlooks hplain ⊢
  have hsign := splitSign_of_digit hc cs
  rw [parse_of_head (isDigit_ne hc (by decide)) (isDigit_ne hc (by decide))] at h
  rw [parse_of_head (by decide) (by decide), hlooks]
  split at h
  · next hmarked =>
    rw [if_pos hmarked]
    split at h
    · next f hread =>
      cases h
      rw [readFloat_neg hsign hread]
      exact ⟨_, rfl, rfl⟩
    · cases h
  · next hmarked =>
    rw [if_neg hmarked]
    split at h
    · next i hread =>
      obtain ⟨hpos, hneg⟩ := readInteger_neg hsign (cons_ne_nil _ _) hplain hread
      split at h
      · cases h
      · cases h
        rw [hneg]
        dsimp only
        rw [if_neg (by omega), Int32.ofInt_neg]
        exact ⟨_, rfl, rfl⟩
    · cases h

/-! ## What constants are written as -/

/-- **The text of a constant denotes it.** -/
theorem parse_text (hfinite : v.isFinite = true) : parse v.text = .ok v := by
  by_cases hkind : v.kind = .bool
  · cases v with
    | bool b => cases b <;> rfl
    | int i => cases hkind
    | float f => cases hkind
  · obtain ⟨n, htext, hparse⟩ := exists_numeral hfinite hkind
    rw [htext]
    cases hneg : v.isNegative with
    | false =>
      rw [magnitude, hneg] at hparse
      exact hparse
    | true =>
      obtain ⟨w, hw, hsigned⟩ := parse_neg n hparse
      rw [neg?_magnitude hfinite hneg] at hw
      cases hw
      exact hsigned

/-- A numeral is a token of the kind of the constant that it denotes. -/
theorem numberKind_of_parse {n : Numeral} (h : parse (String.ofList n.chars) = .ok v) :
    numberKind n.fractionChars n.exponentChars = v.kind.literalKind := by
  have hkind := kind_of_parse h
  rw [if_neg, String.toList_ofList] at hkind
  · simp only [looksLikeFloat_chars, Numeral.Marked] at hkind
    rw [hkind]
    unfold numberKind Numeral.fractionChars Numeral.exponentChars
    cases n.fraction <;> cases n.exponent <;> rfl
  · rintro (hs | hs)
    · exact ofList_chars_ne (c := 't') ['r', 'u', 'e'] (by decide) hs
    · exact ofList_chars_ne (c := 'f') ['a', 'l', 's', 'e'] (by decide) hs

theorem scans_text_bool (b : Bool) : Scans (bool b).text.toList (IsLiteral (bool b)) (Opens isBreak) := by
  have hword : IsWordText (bool b).text ∧ Kind.ofWord (bool b).text = .boolLiteral := by
    cases b with
    | true => exact ⟨⟨'t', ['r', 'u', 'e'], rfl, by decide, all_eq_true.1 (by decide)⟩, by decide⟩
    | false => exact ⟨⟨'f', ['a', 'l', 's', 'e'], rfl, by decide, all_eq_true.1 (by decide)⟩, by decide⟩
  refine (scans_word hword.1 (by rw [hword.2]; decide)).imp ?_
  rintro ts ⟨t, rfl, hkind, hlexeme⟩
  refine ⟨[], t, rfl, rfl, hkind.trans hword.2, ?_⟩
  rw [hlexeme]
  cases b <;> rfl

/-- **The text of a constant is one literal of its kind,** perhaps behind a minus sign. -/
theorem scans_text (hfinite : v.isFinite = true) : Scans v.text.toList (IsLiteral v) (Opens isClose) := by
  by_cases hkind : v.kind = .bool
  · cases v with
    | bool b => exact (scans_text_bool b).narrow fun rest hrest => hrest.imp fun c => isBreak_of_isClose
    | int i => cases hkind
    | float f => cases hkind
  · obtain ⟨n, htext, hparse⟩ := exists_numeral hfinite hkind
    have hnumber := scans_numeral n
    rw [numberKind_of_parse hparse, kind_magnitude] at hnumber
    rw [htext, String.toList_ofList]
    cases hneg : v.isNegative with
    | false =>
      refine hnumber.imp ?_
      rintro ts ⟨t, rfl, hk, hlexeme⟩
      exact ⟨[], t, rfl, by rw [hneg]; rfl, hk, hlexeme ▸ hparse⟩
    | true =>
      obtain ⟨c, cs, hchars, hc⟩ := n.exists_chars_eq
      rw [hchars] at hnumber hparse ⊢
      have hstop : (c != '=' && c != '>') = true := by
        simp [isDigit_ne hc (d := '=') (by decide), isDigit_ne hc (d := '>') (by decide)]
      refine ((scans_sign .neg).before hnumber hstop).imp ?_
      rintro ts ⟨us, vs, rfl, ⟨sign, rfl, hsign, -⟩, t, rfl, hk, hlexeme⟩
      exact ⟨[sign], t, rfl, by rw [hneg, map_singleton, hsign]; rfl, hk, hlexeme ▸ hparse⟩

/-- **Lexer, literals and texts agree on kinds.** In every source, a literal token that denotes anything denotes a constant
of its kind; an integer token denotes the value of its numeral, reduced to 32 bits with a sign, and nothing if the value is
not below `2 ^ 32`. The text of every truth value, integer and finite double is one literal of its kind, perhaps behind a
minus sign, and the whole text denotes the constant. -/
theorem literals_agree :
    (∀ src tokens, Token.read src = .ok tokens → ∀ t ∈ tokens,
      (∀ k v, t.kind = Scalar.literalKind k → parse t.lexeme = .ok v → v.kind = k) ∧
      (t.kind = .intLiteral →
        (∀ v, parse t.lexeme = .ok v ↔
          ∃ n i, IntNumeral t.lexeme.toList n ∧ n < 2 ^ 32 ∧ v = .int i ∧ i.toInt = (n : ℤ).bmod (2 ^ 32)) ∧
        ∀ n, IntNumeral t.lexeme.toList n → 2 ^ 32 ≤ n → ∃ e, parse t.lexeme = .error e)) ∧
    ∀ v : Value, v.isFinite = true →
      (∃ ts stop, Token.read (.ofString v.text) = .ok (ts ++ [stop]) ∧ stop.kind = .eof ∧ IsLiteral v ts) ∧
      parse v.text = .ok v := by
  constructor
  · intro src tokens hread t ht
    obtain ⟨us, q, rfl, hus⟩ := spells_of_readFrom hread
    rcases mem_append.1 ht with ht | ht
    · obtain ⟨hspells, hdouble⟩ := hus t ht
      constructor
      · rintro k v hkind
        rw [hkind] at hspells hdouble
        exact kind_of_spells hspells hdouble
      · intro hkind
        rw [hkind] at hspells
        refine ⟨parse_iff_intNumeral hspells, fun n hn hlarge => ?_⟩
        have hparse := parse_of_intNumeral hn
        rw [String.ofList_toList, if_neg (by omega)] at hparse
        exact ⟨_, hparse⟩
    · rw [mem_singleton.1 ht]
      refine ⟨fun k v hkind => ?_, fun hkind => by cases hkind⟩
      cases k <;> cases hkind
  · intro v hfinite
    obtain ⟨ts, stop, hts, hstop, hread⟩ := (scans_text hfinite).read (opens_nil _)
    exact ⟨⟨ts, stop, hread, hstop, hts⟩, parse_text hfinite⟩

/-- In a hexadecimal numeral the letter of an exponent is a digit, the greatest numeral denotes minus one and the next
nothing; the least integer and a negative double are written with a sign and read back. -/
theorem hexadecimal_digit_is_no_exponent :
    let src := Source.ofString "0x1E 1e5 4294967295 4294967296 true"
    let least := int (-2147483648)
    let tiny := float (-1e-7)
    (∃ tokens, Token.read src = .ok tokens ∧ tokens.map (fun t => (t.kind, t.lexeme)) =
        [(.intLiteral, "0x1E"), (.floatLiteral, "1e5"), (.intLiteral, "4294967295"), (.intLiteral, "4294967296"),
          (.boolLiteral, "true"), (.eof, "")] ∧
      parse "0x1E" = .ok (int 30) ∧ parse "4294967295" = .ok (int (-1)) ∧ (∃ e, parse "4294967296" = .error e) ∧
      ∀ v, parse "1e5" = .ok v → v.kind = .float) ∧
    least.isFinite = true ∧ least.text = "-2147483648" ∧ parse least.text = .ok least ∧
    tiny.isFinite = true ∧ tiny.text = "-1e-07" ∧ parse tiny.text = .ok tiny := by
  intro src least tiny
  obtain ⟨hsources, hvalues⟩ := literals_agree
  have hleast : least.isFinite = true := rfl
  have htiny : tiny.isFinite = true := by decide +kernel
  have htokens : (Token.read src).map (List.map fun t => (t.kind, t.lexeme)) = .ok
      [(.intLiteral, "0x1E"), (.floatLiteral, "1e5"), (.intLiteral, "4294967295"), (.intLiteral, "4294967296"),
        (.boolLiteral, "true"), (.eof, "")] := by
    decide +kernel
  refine ⟨?_, hleast, by decide +kernel, (hvalues least hleast).2, htiny, by decide +kernel, (hvalues tiny htiny).2⟩
  cases hread : Token.read src with
  | error e =>
    rw [hread] at htokens
    cases htokens
  | ok tokens =>
    rw [hread] at htokens
    have hlist := Except.ok.inj htokens
    refine ⟨tokens, rfl, hlist, ?_⟩
    -- Each literal of the list is a token of the source.
    have htoken : ∀ k s, (k, s) ∈ tokens.map (fun t => (t.kind, t.lexeme)) →
        ∃ t ∈ tokens, t.kind = k ∧ t.lexeme = s := by
      intro k s hmem
      obtain ⟨t, ht, heq⟩ := mem_map.1 hmem
      cases heq
      exact ⟨t, ht, rfl, rfl⟩
    rw [hlist] at htoken
    obtain ⟨hex, hmem, hkind, hlexeme⟩ := htoken .intLiteral "0x1E" (by decide)
    have hhex := ((hsources src tokens hread hex hmem).2 hkind).1 (int 30)
    obtain ⟨last, hmem, hkind, hlexeme'⟩ := htoken .intLiteral "4294967295" (by decide)
    have hlast := ((hsources src tokens hread last hmem).2 hkind).1 (int (-1))
    obtain ⟨next, hmem, hkind, hlexeme''⟩ := htoken .intLiteral "4294967296" (by decide)
    have hnext := ((hsources src tokens hread next hmem).2 hkind).2 4294967296
    rw [hlexeme] at hhex
    rw [hlexeme'] at hlast
    rw [hlexeme''] at hnext
    have hdigits : ∀ base (ds : List Char), ds.all (fun c => decide (IsDigitOf base c)) = true →
        ∀ c ∈ ds, IsDigitOf base c :=
      fun base ds h c hc => of_decide_eq_true (all_eq_true.1 h c hc)
    have hex30 : IntNumeral ['0', 'x', '1', 'E'] 30 := .hexadecimal (.inl rfl) (by decide) (hdigits 16 _ (by decide))
    have hmax : IntNumeral ['4', '2', '9', '4', '9', '6', '7', '2', '9', '5'] 4294967295 :=
      .decimal (by decide) (hdigits 10 _ (by decide))
    have hpast : IntNumeral ['4', '2', '9', '4', '9', '6', '7', '2', '9', '6'] 4294967296 :=
      .decimal (by decide) (hdigits 10 _ (by decide))
    refine ⟨hhex.2 ⟨30, 30, hex30, by decide, rfl, by decide⟩, hlast.2 ⟨4294967295, -1, hmax, by decide, rfl, by decide⟩,
      hnext hpast (by decide), ?_⟩
    · obtain ⟨t, ht, hkind, hlexeme⟩ := htoken .floatLiteral "1e5" (by decide)
      rw [← hlexeme]
      exact fun v => (hsources src tokens hread t ht).1 .float v hkind

/-- The letter is a digit of the one base and not of the other. -/
example : IsDigitOf 16 'E' ∧ ¬ IsDigitOf 10 'E' := by decide +kernel

end Value

end Shading
