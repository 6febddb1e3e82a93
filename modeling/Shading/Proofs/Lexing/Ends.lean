import Shading.Proofs.Diagnostics.Excerpts
import Shading.Proofs.Naming.Words

/-!
# Where spans end

The span of a token ends with the line and the offset at which reading goes on behind it. The column of the end counts the
bytes of the token where reading counts its characters, so the two agree exactly where every character has one byte. Only
identifiers have others. The spans of a tree end where tokens do, and what is true of these ends is true of them all.
-/

namespace Shading
open List Text
open Glyph (bytesOf Decoded)

/-- The position counts the text in front of it: its newlines, the characters behind the last of them, and its bytes. -/
def Position.Counts (p : Position) (input : List UInt8) : Prop := p = .behind (input.take p.offset.toNat)

namespace Token

/-- Every character of the token has one byte. -/
def IsAscii (t : Token) : Prop := ∀ c ∈ t.lexeme.toList, c.utf8Size = 1

/-! ## The characters of tokens -/

/-- The character has one byte and is no newline. -/
def isPlain (c : Char) : Bool := c != '\n' && c.utf8Size == 1

theorem all_isPlain_of_isHexGlyph {ds : List Char} (h : ∀ d ∈ ds, isHexGlyph (.char d) = true) :
    ds.all isPlain = true := by
  refine all_eq_true.2 fun d hd => Bool.and_eq_true_iff.2 ⟨?_, ?_⟩
  · rw [bne_iff_ne]
    rintro rfl
    exact absurd (h _ hd) (by decide)
  · rw [beq_iff_eq, Char.utf8Size_eq_one_iff, UInt32.le_iff_toNat_le]
    exact Nat.le_of_lt_succ (toNat_lt_of_isHexGlyph (h d hd))

theorem all_isPlain_of_areDigits {ds : List Char} (h : AreDigits ds) : ds.all isPlain = true := by
  refine all_isPlain_of_isHexGlyph fun d hd => ?_
  rw [isHexGlyph, Glyph.satisfies, h d hd]
  rfl

/-- What is not an identifier is made of plain characters. -/
theorem Spells.all_isPlain {k : Kind} {s : String} (h : Spells k s) (hk : k ≠ .ident) : s.toList.all isPlain = true := by
  cases h with
  | symbol hsymbol =>
    cases k <;> first
      | exact absurd hsymbol (by decide)
      | decide
  | word hs =>
    rcases ofWord_cases s with hkeyword | ⟨-, ty, hty, rfl⟩ | hident
    · have hall : (Kind.keywords.all fun entry => entry.1.toList.all isPlain) = true := by decide
      exact all_eq_true.1 hall _ hkeyword
    · have hall : (BasicTy.all.all fun ty => ty.name.toList.all isPlain) = true := by decide +kernel
      exact all_eq_true.1 hall ty hty
    · exact absurd hident hk
  | whole _ hds =>
    rw [String.toList_ofList]
    exact all_isPlain_of_areDigits hds
  | @hexadecimal x ds hx hds =>
    rw [String.toList_ofList, all_cons, all_cons, all_isPlain_of_isHexGlyph hds]
    rcases hx with rfl | rfl <;> decide
  | @float whole fraction exponent hwhole hfraction hexponent =>
    rw [String.toList_ofList, all_append, all_append, all_isPlain_of_areDigits hwhole, Bool.true_and]
    refine Bool.and_eq_true_iff.2 ⟨?_, ?_⟩
    · obtain rfl | ⟨ds, rfl, hds⟩ := hfraction
      · rfl
      · rw [all_cons, all_isPlain_of_areDigits hds]
        decide
    · obtain rfl | ⟨mark, sign, ds, rfl, hmark, hsign, hds⟩ := hexponent
      · rfl
      · rw [all_cons, all_append, all_isPlain_of_areDigits hds]
        rcases hmark with rfl | rfl <;> rcases hsign with rfl | rfl | rfl <;> decide

/-- No token goes over the end of a line. -/
theorem Spells.newline_notMem {k : Kind} {s : String} (h : Spells k s) : '\n' ∉ s.toList := by
  intro hmem
  by_cases hk : k = .ident
  · subst hk
    obtain ⟨⟨c, cs, hs, hc, hcs⟩, -⟩ := h.isWord rfl (by decide)
    rw [hs] at hmem
    rcases mem_cons.1 hmem with rfl | hmem
    · exact absurd hc (by decide)
    · exact absurd (hcs _ hmem) (by decide)
  · exact absurd (all_eq_true.1 (h.all_isPlain hk) _ hmem) (by decide)

/-! ## The ends of tokens -/

/-- Where reading goes on behind the token. -/
def next (t : Token) : Position := t.start.after (t.lexeme.toList.map .char)

/-- A text has no fewer bytes than characters, and as many exactly where each of them has one byte. -/
theorem size_eq_length_iff (cs : List Char) :
    cs.length ≤ Glyph.size (cs.map .char) ∧ (Glyph.size (cs.map .char) = cs.length ↔ ∀ c ∈ cs, c.utf8Size = 1) := by
  induction cs with
  | nil => simp
  | cons c cs ih =>
    have hpos := c.utf8Size_pos
    rw [map_cons, Glyph.size_cons, length_cons, forall_mem_cons, ← ih.2, Glyph.width]
    omega

variable {t : Token}

theorem size_lexeme (t : Token) : Glyph.size (t.lexeme.toList.map .char) = t.bytes.length := by
  rw [← Glyph.length_bytesOf, bytesOf_map_char, String.ofList_toList, bytes]

/-- The end of a token's span has the line and the offset of the place where reading goes on. Its column is ahead by the
bytes that the characters have beyond their first. -/
theorem stop_span (h : '\n' ∉ t.lexeme.toList) :
    t.span.stop = ⟨t.next.line, t.next.column + (t.bytes.length - t.lexeme.length), t.next.offset⟩ ∧
      (t.span.stop = t.next ↔ t.IsAscii) := by
  have hline : Glyph.char '\n' ∉ t.lexeme.toList.map .char := by simpa using h
  have hstop : t.span.stop =
      ⟨t.start.line, t.start.column + t.bytes.length, t.start.offset + t.bytes.length⟩ := rfl
  have hnext : t.next = ⟨t.start.line, t.start.column + t.lexeme.length, t.start.offset + t.bytes.length⟩ := by
    rw [next, Source.after_of_line hline, length_map, String.length_toList, size_lexeme]
  have hascii := (size_eq_length_iff t.lexeme.toList).2
  rw [size_lexeme, String.length_toList, ← IsAscii] at hascii
  rw [hstop, hnext, ← hascii]
  simp only [Position.mk.injEq, true_and, and_true]
  omega

end Token

/-! ## Texts -/

namespace Position.Counts

variable {input : List UInt8} {p q : Position}

theorem behind (front rest : List UInt8) : (Position.behind front).Counts (front ++ rest) := by
  have hoffset : (Position.behind front).offset.toNat = front.length := rfl
  rw [Counts, hoffset, take_left]

/-- A position at the offset of one that counts the text does so only if it is the same. -/
theorem eq_iff (hq : q.Counts input) (h : p.offset = q.offset) : p.Counts input ↔ p = q := by
  rw [Counts, h, ← hq]

end Position.Counts

namespace Token

variable {input : ByteArray} {tokens : List Token} {t : Token}

/-- The characters of a token are on one line, and plain if it is not an identifier. -/
theorem characters_of_read (h : read (.ofBytes input) = .ok tokens) (ht : t ∈ tokens) :
    '\n' ∉ t.lexeme.toList ∧ (t.kind ≠ .ident → t.IsAscii) := by
  obtain ⟨ts, q, rfl, hts⟩ := spells_of_readFrom h
  rcases mem_append.1 ht with ht | ht
  · obtain ⟨hspells, -⟩ := hts t ht
    refine ⟨hspells.newline_notMem, fun hk c hc => ?_⟩
    exact eq_of_beq (Bool.and_eq_true_iff.1 (all_eq_true.1 (hspells.all_isPlain hk) c hc)).2
  · rw [mem_singleton.1 ht]
    exact ⟨not_mem_nil, fun _ c hc => nomatch hc⟩

/-- A token starts and ends where the bytes up to there say. -/
theorem placed_of_read (h : read (.ofBytes input) = .ok tokens) (ht : t ∈ tokens) :
    ∃ front rest, input.data.toList = front ++ (t.bytes ++ rest) ∧ t.start = .behind front ∧
      t.next = .behind (front ++ t.bytes) := by
  have hplaced := placed_of_readFrom [] (Source.ofBytes input).glyphs
  rw [Position.after_nil, ← read, h, Source.ofBytes, Glyph.decode_eq_ofBytes] at hplaced
  obtain ⟨us, rest, hglyphs, hstart⟩ := hplaced.2 t ht
  have hdecoded := Decoded.of_ofBytes input.data.toList
  have hinput := Glyph.bytesOf_ofBytes input.data.toList
  have hbytes : bytesOf (t.lexeme.toList.map .char) = t.bytes := by
    rw [bytesOf_map_char, String.ofList_toList, bytes]
  rw [nil_append] at hglyphs
  dsimp only at hglyphs
  rw [hglyphs, ← append_assoc] at hdecoded hinput
  rw [Glyph.bytesOf_append, Glyph.bytesOf_append, hbytes, append_assoc] at hinput
  refine ⟨bytesOf us, bytesOf rest, hinput.symm, hstart.trans (Position.after_first hdecoded.left.left), ?_⟩
  rw [next, hstart, ← Position.after_append, Position.after_first hdecoded.left, Glyph.bytesOf_append, hbytes]

end Token

/-- **Spans end with the column counted in bytes.** Each token of a text starts and ends where the bytes up to there say. Its
span ends with the line and the offset of this end, and the column of the span's end is ahead of it by the bytes that the
characters of the token have beyond their first. So the two agree if and only if the token is ASCII, as all but identifiers
are. The span of every node of the tree ends with a token, and counts the text in front of its end just if this is ASCII. -/
theorem span_ends_agree_iff_ascii {input : ByteArray} {tokens : List Token}
    (h : Token.read (.ofBytes input) = .ok tokens) :
    (∀ t ∈ tokens, (t.kind ≠ .ident → t.IsAscii) ∧
      ∃ front rest, input.data.toList = front ++ (t.bytes ++ rest) ∧ t.start = .behind front ∧
        t.next = .behind (front ++ t.bytes) ∧
        t.span.stop = ⟨t.next.line, t.next.column + (t.bytes.length - t.lexeme.length), t.next.offset⟩ ∧
        (t.span.stop = t.next ↔ t.IsAscii)) ∧
    ∀ decls, parse (.ofBytes input) = .ok decls → ∀ d ∈ decls, ∀ n : Node, n.Within (.decl d) →
      n.span.start.Counts input.data.toList ∧
        ∃ t ∈ tokens, n.span.stop = t.span.stop ∧ (n.span.stop.Counts input.data.toList ↔ t.IsAscii) := by
  constructor
  · intro t ht
    obtain ⟨hline, hplain⟩ := Token.characters_of_read h ht
    obtain ⟨front, rest, hinput, hstart, hnext⟩ := Token.placed_of_read h ht
    exact ⟨hplain, front, rest, hinput, hstart, hnext, Token.stop_span hline⟩
  · intro decls hparse d hd n hn
    obtain ⟨ts, stop, hread, hdecls⟩ := spread_of_parse hparse
    cases hread.symm.trans h
    obtain ⟨us, hus, hspread⟩ := hdecls.of_mem d hd
    obtain ⟨vs, hvs, hn⟩ := hspread.within hn
    obtain ⟨first, hfirst, hstart⟩ := hn.start
    obtain ⟨last, hlast, hstop⟩ := hn.stop
    have hmem : vs ⊆ ts ++ [stop] := fun t ht => mem_append_left _ ((hvs.trans hus).subset ht)
    constructor
    · obtain ⟨front, rest, hinput, hbehind, -⟩ := Token.placed_of_read h (hmem hfirst)
      rw [hstart, hbehind, hinput]
      exact .behind _ _
    · obtain ⟨front, rest, hinput, -, hnext⟩ := Token.placed_of_read h (hmem hlast)
      obtain ⟨hends, hascii⟩ := Token.stop_span (Token.characters_of_read h (hmem hlast)).1
      have hcounts : last.next.Counts input.data.toList := by
        rw [hnext, hinput, ← append_assoc]
        exact .behind _ _
      refine ⟨last, hmem hlast, hstop, ?_⟩
      rw [hstop, hcounts.eq_iff (by rw [hends]), hascii]

/-- A uniform of two letters, one of them beyond ASCII. -/
theorem accented_name_ends :
    let input := "uniform né: vec2;".toUTF8
    ∃ tokens, Token.read (.ofBytes input) = .ok tokens ∧
      tokens.map (fun t => (t.next.column, t.span.stop.column)) =
        [(8, 8), (11, 12), (12, 12), (17, 17), (18, 18), (18, 18)] ∧
      (∀ t ∈ tokens, t.span.stop = t.next ↔ t.IsAscii) ∧
      ∀ decls, parse (.ofBytes input) = .ok decls → ∀ d ∈ decls, ∀ n : Node, n.Within (.decl d) →
        n.span.start.Counts input.data.toList ∧
          ∃ t ∈ tokens, n.span.stop = t.span.stop ∧ (n.span.stop.Counts input.data.toList ↔ t.IsAscii) := by
  intro input
  have hrun : (Token.read (.ofBytes input)).toOption.any (fun tokens => decide
      (tokens.map (fun t => (t.next.column, t.span.stop.column)) =
        [(8, 8), (11, 12), (12, 12), (17, 17), (18, 18), (18, 18)])) = true := by
    decide +kernel
  cases hread : Token.read (.ofBytes input) with
  | error u =>
    rw [hread] at hrun
    cases hrun
  | ok tokens =>
    rw [hread] at hrun
    obtain ⟨htokens, hnodes⟩ := span_ends_agree_iff_ascii hread
    refine ⟨tokens, rfl, of_decide_eq_true hrun, fun t ht => ?_, hnodes⟩
    obtain ⟨-, _, _, -, -, -, -, hiff⟩ := htokens t ht
    exact hiff

/-- The type of a uniform ends behind the thirteenth byte, which is the end of the twelfth character. Its span ends in column
fourteen and not in column thirteen. -/
theorem accented_type_ends_elsewhere :
    let input := "uniform u: é;".toUTF8
    Position.behind (input.data.toList.take 13) = ⟨1, 13, 13⟩ ∧
      ∃ decls, parse (.ofBytes input) = .ok decls ∧ ∃ d ∈ decls, ∃ n : Node, n.Within (.decl d) ∧
        n.span.stop = ⟨1, 14, 13⟩ ∧ ¬ n.span.stop.Counts input.data.toList := by
  intro input
  have hbehind : Position.behind (input.data.toList.take 13) = ⟨1, 13, 13⟩ := by decide +kernel
  have hrun : (parse (.ofBytes input)).toOption.any (fun decls => decls.any fun d =>
      (Node.decl d).children.any fun n => decide (n.span.stop = ⟨1, 14, 13⟩)) = true := by
    decide +kernel
  refine ⟨hbehind, ?_⟩
  cases hparse : parse (.ofBytes input) with
  | error errors =>
    rw [hparse] at hrun
    cases hrun
  | ok decls =>
    rw [hparse] at hrun
    obtain ⟨d, hd, hany⟩ := any_eq_true.1 hrun
    obtain ⟨n, hn, hstop⟩ := any_eq_true.1 hany
    have hstop := of_decide_eq_true hstop
    refine ⟨decls, rfl, d, hd, n, .single hn, hstop, ?_⟩
    rw [Position.Counts, hstop]
    exact fun heq => absurd (heq.trans hbehind) (by decide)

end Shading
