import Shading.Proofs.Lexing

/-!
# Layout

Tokens do not depend on what separates them. The text of a token is read as this token in front of every blank
(`scans_spelled`), because no token goes on at a blank, and a gap leaves no token (`readFrom_gap`). So texts with the same
lexemes in the same order are read as the same tokens, whatever blanks and comments stand between them.
-/

namespace Shading.Token
open List Text
open Glyph (bytesOf)

/-! ## Tokens in front of blanks -/

def isBlank (c : Char) : Bool := blanks.contains c

theorem opens_isBlank {rest : List Glyph} (h : Opens isBlank rest) :
    rest = [] ∨ ∃ c more, c ∈ blanks ∧ rest = .char c :: more := by
  cases rest with
  | nil => exact .inl rfl
  | cons g more =>
    obtain ⟨c, rfl, hc⟩ := h g rfl
    exact .inr ⟨c, more, contains_iff_mem.1 hc, rfl⟩

/-- No number and no word goes on at a blank. -/
theorem ends_of_isBlank {c : Char} (h : isBlank c = true) :
    endsNumber c = true ∧ (!isWordGlyph (.char c)) = true := by
  have hc := contains_iff_mem.1 h
  simp only [blanks, mem_cons, not_mem_nil, or_false] at hc
  rcases hc with rfl | rfl | rfl | rfl <;> decide

theorem scans_symbolKind {k : Kind} (hk : k.isSymbol = true) :
    Scans k.name.toList (IsToken k k.name) (Opens isBlank) := by
  cases k
  all_goals first
    | exact absurd hk (by decide)
    | refine scans_of_piece (by decide) fun rest hrest => ?_
  all_goals
    obtain rfl | ⟨c, more, hc, rfl⟩ := opens_isBlank hrest
    · rfl
    · simp only [blanks, mem_cons, not_mem_nil, or_false] at hc
      rcases hc with rfl | rfl | rfl | rfl <;> rfl

theorem scans_double {cs : List Char} (h : IsDouble cs) :
    Scans cs (IsToken .floatLiteral (.ofList cs)) (Opens endsNumber) := by
  obtain ⟨whole, fraction, exponent, rfl, hwhole, hfraction, hexponent, hpart, hdigit, hpoint⟩ := h
  by_cases hne : whole = []
  · obtain rfl | ⟨ds, rfl, hds⟩ := hfraction
    · simp [hne] at hdigit
    · have hds' : ds ≠ [] := by
        rintro rfl
        simp [hne] at hdigit
      rw [hne]
      exact scans_pointed hds' hds hexponent
  · have hscans := scans_number hne hwhole hfraction hexponent hpoint
    have hkind : numberKind fraction exponent = .floatLiteral := by
      rw [numberKind, if_neg]
      rwa [Bool.and_eq_true, List.isEmpty_iff, List.isEmpty_iff, not_and_or]
    rwa [hkind] at hscans

/-- The text of a token is read as this token where a blank or nothing follows it. -/
theorem scans_spelled {k : Kind} {s : String} (h : Spells k s) (hdouble : k = .floatLiteral → IsDouble s.toList) :
    Scans s.toList (IsToken k s) (Opens isBlank) := by
  have hnumber : ∀ {cs : List Char}, Scans cs (IsToken k (.ofList cs)) (Opens endsNumber) →
      Scans (String.ofList cs).toList (IsToken k (.ofList cs)) (Opens isBlank) := by
    intro cs hcs
    rw [String.toList_ofList]
    exact hcs.narrow fun _ => Opens.imp fun _ hc => (ends_of_isBlank hc).1
  cases h with
  | symbol hk => exact scans_symbolKind hk
  | word hs =>
    exact (scans_wordText hs (ofWord_ne (by decide) s)).narrow fun _ => Opens.imp fun _ hc => (ends_of_isBlank hc).2
  | whole hne hds =>
    refine hnumber ?_
    have hscans := scans_number hne hds (.inl rfl) (.inl rfl) fun _ => rfl
    rwa [append_nil, append_nil] at hscans
  | hexadecimal hx hds => exact hnumber (scans_hexadecimal hx hds)
  | float _ _ _ _ _ =>
    have h := hdouble rfl
    rw [String.toList_ofList] at h
    exact hnumber (scans_double h)

/-! ## Gaps -/

theorem ofBytes_map_char (s : String) (rest : List UInt8) :
    Glyph.ofBytes (textBytes s ++ rest) = s.toList.map Glyph.char ++ Glyph.ofBytes rest := by
  rw [← String.ofList_toList (s := s), ← bytesOf_map_char, String.toList_ofList]
  induction s.toList with
  | nil => rfl
  | cons c cs ih =>
    rw [map_cons, Glyph.bytesOf_cons, Glyph.bytes, append_assoc, Glyph.ofBytes_append, ih,
      cons_append]

theorem ofBytes_char {c : Char} (hc : c.utf8Size = 1) (rest : List UInt8) :
    Glyph.ofBytes (c.toUInt8 :: rest) = .char c :: Glyph.ofBytes rest := by
  rw [← Glyph.ofBytes_append, String.utf8EncodeChar_eq_singleton hc, singleton_append]
  rfl

/-- Bytes in front of a character of one byte are decoded by themselves. -/
theorem exists_ofBytes_append {c : Char} (hc : c.utf8Size = 1) (body rest : List UInt8) :
    ∃ gs, bytesOf gs = body ∧ Glyph.ofBytes (body ++ c.toUInt8 :: rest) = gs ++ .char c :: Glyph.ofBytes rest := by
  have hdecoded := Glyph.Decoded.of_ofBytes (body ++ c.toUInt8 :: rest)
  obtain ⟨gs, vs, hparts, hbody, hrest⟩ := hdecoded.exists_char hc (Glyph.bytesOf_ofBytes _)
  have hvs : Glyph.ofBytes rest = vs := by
    rw [hparts] at hdecoded
    rw [← hrest]
    exact hdecoded.right.tail
  exact ⟨gs, hbody, by rw [hvs, hparts]⟩

theorem notMem_of_bytesOf {gs : List Glyph} {c : Char} (hc : c.utf8Size = 1) (h : c.toUInt8 ∉ bytesOf gs) :
    .char c ∉ gs := by
  intro hmem
  apply h
  rw [bytesOf, mem_flatMap]
  exact ⟨_, hmem, by rw [Glyph.bytes_of_one hc]; exact mem_singleton_self _⟩

theorem commentEnd_notWithin {gs : List Glyph} (h : ¬ commentEndBytes <:+: bytesOf gs) : ¬ commentEnd <:+: gs := by
  rintro ⟨us, vs, rfl⟩
  exact h ⟨bytesOf us, bytesOf vs, by rw [Glyph.bytesOf_append, Glyph.bytesOf_append]; rfl⟩

/-- A comment ends where it is closed. -/
theorem blockComment_closed {body : List Glyph} (h : ¬ commentEnd <:+: body ++ [.char '*']) (rest : List Glyph) :
    blockComment (body ++ (commentEnd ++ rest)) = (body ++ commentEnd, rest) := by
  induction body with
  | nil => rfl
  | cons g body ih =>
    rw [cons_append, infix_cons_iff, not_or] at h
    have hclosed := ih h.2
    cases body with
    | nil =>
      show blockComment (g :: .char '*' :: .char '/' :: rest) = _
      rw [blockComment, if_neg (by simp [Glyph.is])]
      rfl
    | cons b body =>
      have hopen : ¬ (g.is '*' && b.is '/') = true := by
        intro hends
        rw [Bool.and_eq_true] at hends
        apply h.1
        rw [eq_of_is hends.1, eq_of_is hends.2]
        exact ⟨body ++ [.char '*'], rfl⟩
      rw [cons_append] at hclosed
      rw [cons_append, cons_append, blockComment, if_neg hopen, hclosed]
      rfl

theorem blockComment_open {body : List Glyph} (h : ¬ commentEnd <:+: body) : blockComment body = (body, []) := by
  obtain ⟨front, hfront, -⟩ | ⟨hopen, -⟩ := blockComment_cases body
  · exact absurd ⟨front, (blockComment body).2, by rw [← hfront, blockComment_parts]⟩ h
  · exact hopen

theorem next_blank {c : Char} (hc : c ∈ blanks) (rest : List Glyph) :
    Piece.next (.char c) rest = ⟨none, [.char c], rest⟩ := by
  simp only [blanks, mem_cons, not_mem_nil, or_false] at hc
  rcases hc with rfl | rfl | rfl | rfl <;> rfl

theorem next_slash (rest : List Glyph) : Piece.next (.char '/') rest = slashPiece (.char '/') rest := rfl

theorem next_line {body rest : List Glyph} (hbody : .char '\n' ∉ body) (hrest : ∀ g ∈ rest.head?, (!g.is '\n') = false) :
    Piece.next (.char '/') (.char '/' :: (body ++ rest)) = ⟨none, .char '/' :: .char '/' :: body, rest⟩ := by
  have hline : ∀ g ∈ body, (!g.is '\n') = true := by
    intro g hg
    rw [Bool.not_eq_true', ← Bool.not_eq_true]
    intro heq
    rw [eq_of_is heq] at hg
    exact hbody hg
  rw [next_slash, slashPiece, if_pos (by decide), takeWhile_append_stop hline hrest, dropWhile_append_stop hline hrest]

theorem next_block {gs body rest : List Glyph} (h : blockComment gs = (body, rest)) :
    Piece.next (.char '/') (.char '*' :: gs) = ⟨none, .char '/' :: .char '*' :: body, rest⟩ := by
  rw [next_slash, slashPiece, if_neg (by decide), if_pos (by decide), h]

/-- A gap leaves no token, and what follows it is read by itself. -/
theorem readFrom_gap {final : Bool} {gap : List UInt8} (h : Gap final gap) {rest : List UInt8}
    (hrest : final = true → rest = []) (p : Position) :
    ∃ q, readFrom p (Glyph.ofBytes (gap ++ rest)) = readFrom q (Glyph.ofBytes rest) := by
  induction h generalizing p with
  | nil => exact ⟨p, rfl⟩
  | @blank final c gap hc _ ih =>
    rw [cons_append, ofBytes_char (utf8Size_of_mem_blanks hc), readFrom_of_gap (next_blank hc _)]
    exact ih hrest _
  | @line final body gap hbody _ ih =>
    obtain ⟨gs, rfl, hdecode⟩ := exists_ofBytes_append (c := '\n') (by decide) body (gap ++ rest)
    have hnext := @next_line _ (.char '\n' :: Glyph.ofBytes (gap ++ rest)) (notMem_of_bytesOf (by decide) hbody)
      (by rintro _ ⟨⟩; rfl)
    rw [cons_append, cons_append, ofBytes_char (by decide), ofBytes_char (by decide), append_assoc,
      cons_append, hdecode, readFrom_of_gap hnext, readFrom_of_gap (next_blank (by decide) _)]
    exact ih hrest _
  | @block final body gap hbody _ ih =>
    obtain ⟨gs, rfl, hdecode⟩ := exists_ofBytes_append (c := '*') (by decide) body ('/'.toUInt8 :: (gap ++ rest))
    have hparts : bytesOf gs ++ commentEndBytes ++ gap ++ rest =
        bytesOf gs ++ '*'.toUInt8 :: '/'.toUInt8 :: (gap ++ rest) := by
      simp [commentEndBytes]
    have hends : ¬ commentEnd <:+: gs ++ [.char '*'] := by
      apply commentEnd_notWithin
      rw [Glyph.bytesOf_append]
      exact hbody
    have hnext : Piece.next (.char '/') (.char '*' :: (gs ++ .char '*' :: .char '/' :: Glyph.ofBytes (gap ++ rest))) =
        ⟨none, .char '/' :: .char '*' :: (gs ++ commentEnd), Glyph.ofBytes (gap ++ rest)⟩ :=
      next_block (blockComment_closed hends _)
    rw [cons_append, cons_append, ofBytes_char (by decide), ofBytes_char (by decide), hparts, hdecode,
      ofBytes_char (by decide), readFrom_of_gap hnext]
    exact ih hrest _
  | @openLine body hbody =>
    obtain rfl := hrest rfl
    have hgs : .char '\n' ∉ Glyph.ofBytes body := notMem_of_bytesOf (by decide) (by rwa [Glyph.bytesOf_ofBytes])
    have hnext := @next_line _ [] hgs (by intro g hg; cases hg)
    rw [append_nil] at hnext
    rw [append_nil, ofBytes_char (by decide), ofBytes_char (by decide), readFrom_of_gap hnext, Glyph.ofBytes_nil]
    exact ⟨_, rfl⟩
  | @openBlock body hbody =>
    obtain rfl := hrest rfl
    have hgs : ¬ commentEnd <:+: Glyph.ofBytes body := commentEnd_notWithin (by rwa [Glyph.bytesOf_ofBytes])
    rw [append_nil, ofBytes_char (by decide), ofBytes_char (by decide),
      readFrom_of_gap (next_block (blockComment_open hgs)), Glyph.ofBytes_nil]
    exact ⟨_, rfl⟩

/-! ## Texts with the same lexemes -/

/-- What a token is apart from its place. -/
def spelling (t : Token) : Kind × String := (t.kind, t.lexeme)

/-- The bytes are those of the given lexemes in order, each with a gap behind it that starts with a blank. Nothing need
follow the last lexeme, and a comment behind it may be left open. -/
inductive Respaced : List String → List UInt8 → Prop
  | done {gap : List UInt8} (h : Gap true gap) : Respaced [] gap
  | last {s : String} : Respaced [s] (textBytes s)
  | cons {s : String} {ss : List String} {c : Char} {gap rest : List UInt8} (hc : c ∈ blanks) (hgap : Gap false gap)
      (h : Respaced ss rest) : Respaced (s :: ss) (textBytes s ++ c.toUInt8 :: (gap ++ rest))

/-- Reading lexemes that are separated gives a token for each. -/
theorem readFrom_respaced {ts : List Token}
    (hts : ∀ t ∈ ts, Scans t.lexeme.toList (IsToken t.kind t.lexeme) (Opens isBlank))
    {body : List UInt8} (h : Respaced (ts.map lexeme) body) (p : Position) :
    ∃ us q, readFrom p (Glyph.ofBytes body) = .ok (us ++ [⟨.eof, "", q⟩]) ∧ us.map spelling = ts.map spelling := by
  induction ts generalizing body p with
  | nil =>
    cases h with
    | done hgap =>
      obtain ⟨q, hq⟩ := @readFrom_gap _ _ hgap [] (fun _ => rfl) p
      rw [append_nil, Glyph.ofBytes_nil, readFrom] at hq
      exact ⟨[], q, hq, rfl⟩
  | cons t ts ih =>
    have ht := hts t mem_cons_self
    rw [map_cons] at h
    generalize hss : ts.map lexeme = ss at h
    cases h with
    | last =>
      obtain ⟨_, ⟨u, rfl, hkind, hlexeme⟩, hread⟩ := ht p [] (opens_nil _)
      have hdecode := ofBytes_map_char t.lexeme []
      rw [append_nil, Glyph.ofBytes_nil] at hdecode
      rw [readFrom] at hread
      refine ⟨[u], _, by rw [hdecode, hread]; rfl, ?_⟩
      rw [map_eq_nil_iff.1 hss, map_singleton, map_singleton, spelling, spelling, hkind, hlexeme]
    | @cons _ _ c gap rest hc hgap h =>
      have hblank : Opens isBlank (Glyph.ofBytes (c.toUInt8 :: (gap ++ rest))) := by
        rw [ofBytes_char (utf8Size_of_mem_blanks hc)]
        exact opens_cons (contains_iff_mem.2 hc) _
      obtain ⟨_, ⟨u, rfl, hkind, hlexeme⟩, hread⟩ := ht p _ hblank
      obtain ⟨q, hgap⟩ := @readFrom_gap _ _ (.blank hc hgap) rest (by simp)
        (p.after (t.lexeme.toList.map Glyph.char))
      obtain ⟨us, q', hrest, hsame⟩ := ih (fun u hu => hts u (mem_cons_of_mem t hu)) (hss ▸ h) q
      rw [cons_append] at hgap
      refine ⟨u :: us, q', ?_, ?_⟩
      · rw [ofBytes_map_char, hread, hgap, hrest]
        rfl
      · rw [map_cons, map_cons, hsame, spelling, spelling, hkind, hlexeme]

/-- **Layout does not change tokens.** Where a text can be read, so can every text that holds the lexemes of its tokens
in the same order, separated by gaps that start with a blank and go on with blanks and closed comments of any bytes, and
the kinds and lexemes of the tokens are the same. The last token of a text marks its end and has no lexeme. -/
theorem read_of_respaced {input : ByteArray} {tokens : List Token} {lead body : List UInt8}
    (h : read (.ofBytes input) = .ok tokens) (hlead : Gap false lead)
    (hbody : Respaced (tokens.dropLast.map lexeme) body) :
    ∃ tokens', read (.ofBytes (lead ++ body).toByteArray) = .ok tokens' ∧
      tokens'.map spelling = tokens.map spelling := by
  obtain ⟨ts, p, rfl, hts⟩ := spells_of_readFrom h
  rw [dropLast_concat] at hbody
  obtain ⟨q, hq⟩ := @readFrom_gap _ _ hlead body (by simp) .first
  obtain ⟨us, q', hread, hsame⟩ := readFrom_respaced (fun t ht => scans_spelled (hts t ht).1 (hts t ht).2) hbody q
  refine ⟨us ++ [⟨.eof, "", q'⟩], ?_, ?_⟩
  · exact hq.trans hread
  · rw [map_append, map_append, hsame]
    rfl

/-- A component of an integer and a double, taken apart by a comment that holds a stray byte, a comment to the end of
its line, and a comment that is closed by its second star. -/
theorem components_stay_apart :
    let input := "1.x-.5e+3".toUTF8
    let tokens : List Token := [⟨.intLiteral, "1", ⟨1, 1, 0⟩⟩, ⟨.dot, ".", ⟨1, 2, 1⟩⟩, ⟨.ident, "x", ⟨1, 3, 2⟩⟩,
      ⟨.minus, "-", ⟨1, 4, 3⟩⟩, ⟨.floatLiteral, ".5e+3", ⟨1, 5, 4⟩⟩, ⟨.eof, "", ⟨1, 10, 9⟩⟩]
    let stray := '/'.toUInt8 :: '*'.toUInt8 :: ([0xFF] ++ commentEndBytes ++ [])
    let line := '/'.toUInt8 :: '/'.toUInt8 :: ([] ++ '\n'.toUInt8 :: [])
    let stars := '/'.toUInt8 :: '*'.toUInt8 :: (['*'.toUInt8] ++ commentEndBytes ++ [])
    let body := textBytes "1" ++ ' '.toUInt8 :: (stray ++ (textBytes "." ++ '\n'.toUInt8 :: (line ++
      (textBytes "x" ++ '\t'.toUInt8 :: (stars ++ (textBytes "-" ++ '\r'.toUInt8 :: ([] ++ textBytes ".5e+3")))))))
    read (.ofBytes input) = .ok tokens ∧ Respaced (tokens.dropLast.map lexeme) body ∧
      ∃ tokens', read (.ofBytes ([] ++ body).toByteArray) = .ok tokens' ∧
        tokens'.map spelling = tokens.map spelling := by
  intro input tokens stray line stars body
  have hread : read (.ofBytes input) = .ok tokens := by decide +kernel
  have hbody : Respaced (tokens.dropLast.map lexeme) body :=
    .cons (by decide) (.block (by decide) .nil) (.cons (by decide) (.line (by decide) .nil)
      (.cons (by decide) (.block (by decide) .nil) (.cons (by decide) .nil .last)))
  exact ⟨hread, hbody, read_of_respaced hread .nil hbody⟩

/-- Without a gap the digits and the point are one token. -/
example : (read (.ofString "1.5")).toOption.map List.length = some 2 := by decide +kernel

end Shading.Token
