import Shading.Proofs.Grammar.Shaders
import Shading.Proofs.Lexing

/-!
# One error for each bad declaration

The tokens of a text are cut in front of every word that starts a declaration (`pieces`). A piece is good if it is read as
one declaration when it stands alone. Reading goes through a text piece by piece: whatever happens in a piece, it
goes on at the next one, so a good piece leaves no error and any other piece leaves exactly one (`Reported`). The error
is behind the first token of its piece, at the latest at the first token of the next, and so the errors stand in the order
of their places.
-/

namespace Shading

open List

/-- The tokens in front of the first word that starts a declaration, and the pieces from each such word up to the next. -/
def pieces : List Token → List Token × List (List Token)
  | [] => ([], [])
  | t :: ts =>
    let (front, parts) := pieces ts
    if t.kind.startsDecl then ([], (t :: front) :: parts) else (t :: front, parts)

/-- The errors that are reported for a list of tokens. -/
def syntaxErrors (tokens : List Token) : List SyntaxError :=
  match parseTokens tokens with
  | .ok _ => []
  | .error es => es

/-- The tokens alone, with the end behind them, are read as one declaration. -/
def isGood (stop : Token) (part : List Token) : Bool :=
  match parseTokens (part ++ [stop]) with
  | .ok [_] => true
  | _ => false

/-- The errors belong to the pieces, in order: none to a good piece and one to a bad one. It is at a token of the piece
behind the first, or at the token that follows the piece. -/
def Reported (stop : Token) : List (List Token) → List SyntaxError → Prop
  | [], es => es = []
  | part :: parts, es =>
    if isGood stop part then Reported stop parts es
    else ∃ e es', es = e :: es' ∧ Parser.LiesAt e (part.tail ++ (parts.flatten ++ [stop]).take 1) ∧
      Reported stop parts es'

/-! ## Pieces -/

/-- A word that starts a declaration and plain tokens behind it. -/
def IsPart (part : List Token) : Prop :=
  ∃ t body, part = t :: body ∧ t.kind.startsDecl = true ∧ ∀ u ∈ body, u.Plain

theorem flatten_pieces (ts : List Token) : (pieces ts).1 ++ (pieces ts).2.flatten = ts := by
  induction ts with
  | nil => rfl
  | cons t ts ih =>
    rw [pieces]
    dsimp only
    split
    · exact congrArg (t :: ·) ih
    · exact congrArg (t :: ·) ih

theorem plain_of_pieces {ts : List Token} (hts : ∀ t ∈ ts, t.kind ≠ .eof) :
    (∀ u ∈ (pieces ts).1, u.Plain) ∧ ∀ part ∈ (pieces ts).2, IsPart part := by
  induction ts with
  | nil => exact ⟨forall_mem_nil _, forall_mem_nil _⟩
  | cons t ts ih =>
    obtain ⟨hfront, hparts⟩ := ih fun u hu => hts u (mem_cons_of_mem t hu)
    rw [pieces]
    dsimp only
    split
    · next ht =>
      refine ⟨forall_mem_nil _, ?_⟩
      rintro part (_ | ⟨_, hpart⟩)
      · exact ⟨t, (pieces ts).1, rfl, ht, hfront⟩
      · exact hparts part hpart
    · next ht =>
      refine ⟨?_, hparts⟩
      rintro u (_ | ⟨_, hu⟩)
      · exact ⟨hts t mem_cons_self, Bool.eq_false_iff.2 ht⟩
      · exact hfront u hu

namespace Parser

open Grammar

/-- A piece is good if it spells a declaration. -/
theorem isGood_iff {stop : Token} {part : List Token} (hstop : stop.kind = .eof) (hpart : ∀ t ∈ part, t.kind ≠ .eof) :
    isGood stop part = true ↔ ∃ d, Declaration part d := by
  constructor
  · intro h
    unfold isGood at h
    split at h
    · next d hparse =>
      have hspread := spread_of_parseTokens hstop hpart hparse
      cases hspread with
      | @cons us vs _ _ hd hrest =>
        cases hrest
        rw [append_nil]
        exact ⟨_, hd.spelledBy⟩
    · cases h
  · rintro ⟨d, hd⟩
    have hshader : Shader part [d] := by
      have := Sequence.cons hd .nil
      rwa [append_nil] at this
    obtain ⟨ds, hds, hview⟩ := declarations_of_shader hstop hshader (n := (part ++ [stop]).length)
      (c := ⟨endToken, part ++ [stop]⟩) rfl (by simp)
    obtain ⟨d', rfl⟩ : ∃ d', ds = [d'] := length_eq_one_iff.1 (by simpa using congrArg List.length hview)
    rw [isGood, parseTokens, hds]

/-! ## One piece -/

section Piece

variable {c : Cursor} {body rest : List Token} {t next : Token}

theorem ahead_skipToDecl (last : Token) (hbody : ∀ u ∈ body, u.Plain) (hnext : ¬ next.Plain) :
    (skipToDecl last (body ++ next :: rest)).ahead = next :: rest := by
  induction body generalizing last with
  | nil =>
    have hstop : next.kind.startsDecl = true ∨ next.kind = .eof := by
      rw [Token.Plain, not_and_or, not_not, Bool.not_eq_false] at hnext
      exact hnext.symm
    rw [nil_append, skipToDecl, if_pos hstop]
  | cons u us ih =>
    obtain ⟨heof, hword⟩ := hbody u mem_cons_self
    rw [cons_append, skipToDecl, if_neg (by rw [hword]; simp [heof])]
    exact ih u fun v hv => hbody v (mem_cons_of_mem u hv)

/-- The pieces behind plain tokens. -/
theorem append_of_plain {us left : List Token} (hus : ∀ u ∈ us, u.Plain) (hnext : ¬ next.Plain)
    (h : body ++ next :: rest = us ++ left) : ∃ more, body = us ++ more ∧ left = more ++ next :: rest := by
  obtain ⟨vs, hvs, hleft⟩ | ⟨vs, hvs, hleft⟩ := append_eq_append_iff.1 h
  · cases vs with
    | nil => exact ⟨[], by simpa using hvs.symm, hleft.symm⟩
    | cons v vs =>
      obtain ⟨rfl, -⟩ := List.cons.inj hleft
      exact absurd (hus next (by rw [hvs]; simp)) hnext
  · exact ⟨vs, hvs, hleft⟩

theorem peek_mem (hahead : c.ahead = body ++ next :: rest) : c.peek ∈ body ++ [next] := by
  rw [Cursor.peek, hahead]
  cases body with
  | nil => exact mem_singleton.2 rfl
  | cons u us => exact mem_cons_self

theorem declarations_of_error {c₁ : Cursor} {e : SyntaxError} (hpeek : c.peek.kind ≠ .eof)
    (hrun : outcome declaration c = (.error e, c₁)) (n : Nat) :
    (declarations (n + 1) c).2 = e :: (declarations n (c.resume c₁)).2 := by
  have hrun' : ((declaration : Parser Decl).run).run c = (.error e, c₁) := hrun
  rw [declarations, if_neg hpeek, hrun']

/-- Where a declaration should start and does not, all tokens up to the next one give one error. -/
theorem errors_of_plain (hahead : c.ahead = t :: (body ++ next :: rest)) (ht : t.Plain) (hbody : ∀ u ∈ body, u.Plain)
    (hnext : ¬ next.Plain) (n : Nat) :
    ∃ e c', (declarations (n + 1) c).2 = e :: (declarations n c').2 ∧ e.span = t.span ∧ c'.ahead = next :: rest := by
  have hpeek : c.peek = t := (Cursor.takes_of_ahead hahead).peek
  have hadvance : c.advance = ⟨t, body ++ next :: rest⟩ := by
    rw [Cursor.advance, hahead]
    exact if_neg ht.1
  have hresume : c.resume c = skipToDecl t (body ++ next :: rest) := by
    rw [Cursor.resume, if_pos rfl, hadvance]
  rw [← hpeek] at ht
  refine ⟨_, c.resume c, declarations_of_error ht.1 (outcome_of_no_word ht.2) n, by rw [hpeek], ?_⟩
  rw [hresume, ahead_skipToDecl t hbody hnext]

/-- A piece spells a declaration if reading it as one gets to its end. -/
theorem spells_iff_reads (hahead : c.ahead = t :: (body ++ next :: rest)) :
    (∃ d, Declaration (t :: body) d) ↔ ∃ d c', Reads declaration c d c' ∧ c'.ahead = next :: rest := by
  constructor
  · rintro ⟨d, hd⟩
    obtain ⟨d', c', hread, hc', -⟩ := accepts_declaration hd hahead trivial
    exact ⟨d', c', hread, hc'⟩
  · rintro ⟨d, c', hread, hc'⟩
    obtain ⟨ts, hts, hd⟩ := spread_of_reads hread
    rw [hahead, hc', ← cons_append, append_cancel_right_eq] at hts
    rw [hts]
    exact ⟨_, hd.spelledBy⟩

/-- Reading a piece as a declaration ends in the piece or at its end, and fails there if it fails. -/
theorem reach_of_part (hahead : c.ahead = t :: (body ++ next :: rest)) (ht : t.kind.startsDecl = true)
    (hnext : ¬ next.Plain) :
    ∃ more, more <:+ body ∧ (outcome declaration c).2.ahead = more ++ next :: rest ∧
      ∀ e, (outcome declaration c).1 = .error e → LiesAt e (body ++ [next]) := by
  have htakes := Cursor.takes_of_ahead hahead
  have hword : c.peek.kind.startsDecl = true := by rwa [htakes.peek]
  have hadvance : c.advance = ⟨t, body ++ next :: rest⟩ := ((Cursor.takes_iff (ne_eof_of_word hword)).1 htakes).2
  obtain ⟨us, hus, hplain, -, herror⟩ := lands_declaration hword
  rw [hadvance] at hus
  obtain ⟨more, rfl, hmore⟩ := append_of_plain hplain hnext hus.ahead
  refine ⟨more, suffix_append us more, hmore, fun e he => ?_⟩
  obtain ⟨x, hx, hspan⟩ := herror e he
  refine ⟨x, ?_, hspan⟩
  rw [append_assoc]
  obtain hx | hx := mem_append.1 hx
  · exact mem_append_left _ hx
  · rw [mem_singleton.1 hx]
    exact mem_append_right _ (peek_mem hmore)

/-- When reading a piece fails, the rest of the piece is skipped. -/
theorem ahead_resume {c₁ : Cursor} {more : List Token} (hahead : c.ahead = t :: (body ++ next :: rest))
    (hmore : c₁.ahead = more ++ next :: rest) (hsuffix : more <:+ body) (hplain : ∀ u ∈ more, u.Plain)
    (hnext : ¬ next.Plain) : (c.resume c₁).ahead = next :: rest := by
  have hlength := hsuffix.length_le
  have hshorter : c₁.ahead.length ≠ c.ahead.length := by
    rw [hmore, hahead]
    simp only [length_cons, length_append]
    omega
  rw [Cursor.resume, if_neg hshorter, hmore, ahead_skipToDecl _ hplain hnext]

/-- A declaration that ends in front of the end of a piece does not read the piece. -/
theorem not_reads_of_rest {c₁ : Cursor} {d : Decl} {u : Token} {more : List Token} (hread : Reads declaration c d c₁)
    (hmore : c₁.ahead = u :: (more ++ next :: rest)) :
    ¬ ∃ d c', Reads declaration c d c' ∧ c'.ahead = next :: rest := by
  rintro ⟨d', c', hread', hc'⟩
  rw [Reads, show outcome declaration c = (.ok d, c₁) from hread] at hread'
  cases hread'
  rw [hmore] at hc'
  have hsame := congrArg List.length hc'
  simp only [length_cons, length_append] at hsame
  omega

/-- A whole piece: it is left behind without an error if it spells a declaration, and with one otherwise. -/
theorem errors_of_part (hahead : c.ahead = t :: (body ++ next :: rest)) (ht : t.kind.startsDecl = true)
    (hbody : ∀ u ∈ body, u.Plain) (hnext : ¬ next.Plain) {n : Nat} (hn : c.ahead.length ≤ n) :
    ∃ m c', c'.ahead = next :: rest ∧ c'.ahead.length ≤ m ∧
      ((∃ d, Declaration (t :: body) d) ∧ (declarations n c).2 = (declarations m c').2 ∨
        (¬ ∃ d, Declaration (t :: body) d) ∧ ∃ e, LiesAt e (body ++ [next]) ∧
          (declarations n c).2 = e :: (declarations m c').2) := by
  have hpeek : c.peek.kind ≠ .eof := ne_eof_of_word (by rwa [(Cursor.takes_of_ahead hahead).peek])
  obtain ⟨more, hsuffix, hmore, herror⟩ := reach_of_part hahead ht hnext
  have hplain : ∀ u ∈ more, u.Plain := fun u hu => hbody u (hsuffix.subset hu)
  rw [spells_iff_reads hahead]
  have hlength := hsuffix.length_le
  have hshort : body.length + (next :: rest).length < n := by
    rw [hahead, length_cons, length_append] at hn
    omega
  obtain ⟨n, rfl⟩ : ∃ k, n = k + 1 := ⟨n - 1, by omega⟩
  rcases hrun : outcome declaration c with ⟨e | d, c₁⟩ <;> rw [hrun] at hmore herror <;> dsimp only at hmore herror
  · have hresume := ahead_resume hahead hmore hsuffix hplain hnext
    have hfails : ¬ ∃ d c', Reads declaration c d c' ∧ c'.ahead = next :: rest := by
      rintro ⟨d, c', hread, -⟩
      rw [Reads, hrun] at hread
      cases hread
    refine ⟨n, c.resume c₁, hresume, ?_, .inr ⟨hfails, e, herror e rfl, declarations_of_error hpeek hrun n⟩⟩
    rw [hresume]
    omega
  · have hread : Reads declaration c d c₁ := hrun
    have herrors := congrArg Prod.snd (declarations_of_reads hpeek hread n)
    cases more with
    | nil =>
      refine ⟨n, c₁, hmore, ?_, .inl ⟨⟨d, c₁, hread, hmore⟩, herrors⟩⟩
      rw [hmore, nil_append]
      omega
    | cons u more =>
      -- What is left of the piece behind the declaration is one more error.
      rw [length_cons] at hlength
      obtain ⟨n, rfl⟩ : ∃ k, n = k + 1 := ⟨n - 1, by omega⟩
      obtain ⟨e, c', herrors', hspan, hc'⟩ := errors_of_plain hmore (hplain u mem_cons_self)
        (fun v hv => hplain v (mem_cons_of_mem u hv)) hnext n
      have hu : u ∈ body ++ [next] := mem_append_left _ (hsuffix.subset mem_cons_self)
      refine ⟨n, c', hc', ?_, .inr ⟨not_reads_of_rest hread hmore, e, ⟨u, hu, hspan⟩, by rw [herrors, herrors']⟩⟩
      rw [hc']
      omega

end Piece

/-! ## All pieces -/

section Pieces

variable {stop : Token} {parts : List (List Token)} {es : List SyntaxError}

/-- Behind a piece stands a word that starts the next one, or the end. -/
theorem exists_next (hstop : stop.kind = .eof) (hparts : ∀ part ∈ parts, IsPart part) :
    ∃ next rest, parts.flatten ++ [stop] = next :: rest ∧ ¬ next.Plain := by
  cases parts with
  | nil => exact ⟨stop, [], rfl, fun h => h.1 hstop⟩
  | cons part parts =>
    obtain ⟨t, body, rfl, ht, -⟩ := hparts part mem_cons_self
    refine ⟨t, body ++ (parts.flatten ++ [stop]), by simp, fun h => ?_⟩
    rw [h.2] at ht
    cases ht

theorem reported_of_declarations (hstop : stop.kind = .eof) (hparts : ∀ part ∈ parts, IsPart part) {c : Cursor} {n : Nat}
    (hahead : c.ahead = parts.flatten ++ [stop]) (hn : c.ahead.length ≤ n) :
    Reported stop parts (declarations n c).2 := by
  induction parts generalizing c n with
  | nil =>
    have hpeek : c.peek.kind = .eof := by
      rw [Cursor.kind_peek, hahead]
      exact hstop
    cases n with
    | zero => rfl
    | succ n => rw [declarations, if_pos hpeek, Reported]
  | cons part parts ih =>
    have hrest : ∀ part ∈ parts, IsPart part := fun p hp => hparts p (mem_cons_of_mem part hp)
    obtain ⟨t, body, rfl, ht, hbody⟩ := hparts part mem_cons_self
    obtain ⟨next, rest, hnext, hplain⟩ := exists_next hstop hrest
    rw [flatten_cons, append_assoc, hnext, cons_append] at hahead
    obtain ⟨m, c', hc', hm, hcases⟩ := errors_of_part hahead ht hbody hplain hn
    have hmore := ih hrest (by rw [hc', hnext]) hm
    have heof : ∀ u ∈ t :: body, u.kind ≠ .eof := by
      rintro u (_ | ⟨_, hu⟩)
      · exact ne_eof_of_word ht
      · exact (hbody u hu).1
    rw [Reported]
    obtain ⟨hgood, herrors⟩ | ⟨hbad, e, hlies, herrors⟩ := hcases
    · rwa [if_pos ((isGood_iff hstop heof).2 hgood), herrors]
    · rw [if_neg (fun h => hbad ((isGood_iff hstop heof).1 h))]
      refine ⟨e, _, herrors, ?_, hmore⟩
      rw [hnext]
      exact hlies

theorem length_of_reported (h : Reported stop parts es) : es.length = parts.countP fun part => !isGood stop part := by
  induction parts generalizing es with
  | nil => rw [h]; rfl
  | cons part parts ih =>
    rw [Reported] at h
    split at h
    · next hgood => rw [countP_cons_of_neg (by simp [hgood]), ih h]
    · next hbad =>
      obtain ⟨e, es', rfl, -, hrest⟩ := h
      rw [length_cons, countP_cons_of_pos (by simpa using hbad), ih hrest]

/-- The errors are at tokens behind the first, in the order of the tokens. -/
theorem places_of_reported (hstop : stop.kind = .eof) (hparts : ∀ part ∈ parts, IsPart part) (h : Reported stop parts es) :
    ∃ places, List.Sublist places (parts.flatten ++ [stop]).tail ∧ es.map SyntaxError.span = places.map Token.span := by
  induction parts generalizing es with
  | nil => exact ⟨[], nil_sublist _, by rw [h]; rfl⟩
  | cons part parts ih =>
    have hrest : ∀ part ∈ parts, IsPart part := fun p hp => hparts p (mem_cons_of_mem part hp)
    obtain ⟨t, body, rfl, -, -⟩ := hparts part mem_cons_self
    obtain ⟨next, rest, hnext, -⟩ := exists_next hstop hrest
    have htail : (((t :: body) :: parts).flatten ++ [stop]).tail = (body ++ [next]) ++ rest := by
      rw [flatten_cons, append_assoc, hnext]
      simp
    rw [Reported, hnext] at h
    rw [htail]
    rw [hnext] at ih
    split at h
    · obtain ⟨places, hplaces, hspans⟩ := ih hrest h
      exact ⟨places, hplaces.trans (sublist_append_right _ _), hspans⟩
    · obtain ⟨e, es', rfl, ⟨u, hu, hspan⟩, hmore⟩ := h
      obtain ⟨places, hplaces, hspans⟩ := ih hrest hmore
      refine ⟨u :: places, (singleton_sublist.2 hu).append hplaces, ?_⟩
      rw [map_cons, map_cons, hspan, hspans]

end Pieces

end Parser

theorem syntaxErrors_eq (tokens : List Token) :
    syntaxErrors tokens = (Parser.declarations tokens.length ⟨Parser.endToken, tokens⟩).2 := by
  unfold syntaxErrors parseTokens
  rcases Parser.declarations tokens.length ⟨Parser.endToken, tokens⟩ with ⟨ds, _ | ⟨e, es⟩⟩ <;> rfl

section Errors

variable {ts : List Token} {stop : Token} (hstop : stop.kind = .eof) (hts : ∀ t ∈ ts, t.kind ≠ .eof)
include hstop hts

/-- The errors of the tokens in front of the first piece, and those of the pieces. -/
theorem exists_lead :
    ∃ lead es, syntaxErrors (ts ++ [stop]) = lead ++ es ∧
      lead.map SyntaxError.span = ((pieces ts).1.take 1).map Token.span ∧ Reported stop (pieces ts).2 es := by
  obtain ⟨hfront, hparts⟩ := plain_of_pieces hts
  have hsplit : ts ++ [stop] = (pieces ts).1 ++ ((pieces ts).2.flatten ++ [stop]) := by
    rw [← append_assoc, flatten_pieces]
  rw [syntaxErrors_eq, hsplit]
  generalize (pieces ts).1 = front at hfront ⊢
  generalize (pieces ts).2 = parts at hparts ⊢
  cases front with
  | nil => exact ⟨[], _, rfl, rfl, Parser.reported_of_declarations hstop hparts rfl (Nat.le_refl _)⟩
  | cons t front =>
    obtain ⟨next, rest, hnext, hplain⟩ := Parser.exists_next hstop hparts
    have ht := hfront t mem_cons_self
    have hbody : ∀ u ∈ front, u.Plain := fun u hu => hfront u (mem_cons_of_mem t hu)
    rw [hnext, cons_append, length_cons]
    obtain ⟨e, c', herrors, hspan, hc'⟩ := Parser.errors_of_plain
      (c := ⟨Parser.endToken, t :: (front ++ next :: rest)⟩) rfl ht hbody hplain (front ++ next :: rest).length
    refine ⟨[e], _, herrors, by simp [hspan], ?_⟩
    refine Parser.reported_of_declarations hstop hparts (by rw [hc', hnext]) ?_
    rw [hc', length_append]
    omega

/-- The errors are at tokens, in the order of the tokens. -/
theorem exists_places :
    ∃ places, List.Sublist places (ts ++ [stop]) ∧
      (syntaxErrors (ts ++ [stop])).map SyntaxError.span = places.map Token.span := by
  obtain ⟨lead, es, herrors, hlead, hreported⟩ := exists_lead hstop hts
  obtain ⟨places, hplaces, hspans⟩ := Parser.places_of_reported hstop (plain_of_pieces hts).2 hreported
  refine ⟨(pieces ts).1.take 1 ++ places, ?_, by rw [herrors, map_append, map_append, hlead, hspans]⟩
  have hsplit : ts ++ [stop] = (pieces ts).1 ++ ((pieces ts).2.flatten ++ [stop]) := by
    rw [← append_assoc, flatten_pieces]
  rw [hsplit]
  exact (take_sublist 1 _).append (hplaces.trans (tail_sublist _))

end Errors

/-- **One error for each bad declaration.** Let the only mark of the end stand behind the tokens. Then the tokens in front
of the first word that starts a declaration give one error, at the first of them, if there are any, and of the pieces
behind them each bad one gives one error and each good one none. Where the tokens stand in the order of their offsets, as
those that are read from a text do, the errors do so as well. -/
theorem syntaxErrors_reported {ts : List Token} {stop : Token} (hstop : stop.kind = .eof)
    (hts : ∀ t ∈ ts, t.kind ≠ .eof) :
    (syntaxErrors (ts ++ [stop])).length =
        (if (pieces ts).1.isEmpty then 0 else 1) + (pieces ts).2.countP (fun part => !isGood stop part) ∧
      (∃ lead es, syntaxErrors (ts ++ [stop]) = lead ++ es ∧
        lead.map SyntaxError.span = ((pieces ts).1.take 1).map Token.span ∧ Reported stop (pieces ts).2 es) ∧
      ((ts ++ [stop]).Pairwise (fun t u => t.start.offset < u.start.offset) →
        (syntaxErrors (ts ++ [stop])).Pairwise fun e f => e.span.start.offset < f.span.start.offset) ∧
      ∀ input, Token.read (.ofBytes input) = .ok (ts ++ [stop]) →
        (ts ++ [stop]).Pairwise fun t u => t.start.offset < u.start.offset := by
  refine ⟨?_, exists_lead hstop hts, fun hordered => ?_, fun input hread => Token.pairwise_of_read hread⟩
  · obtain ⟨lead, es, herrors, hlead, hreported⟩ := exists_lead hstop hts
    have hlength := congrArg List.length hlead
    rw [length_map, length_map] at hlength
    rw [herrors, length_append, hlength, Parser.length_of_reported hreported]
    cases (pieces ts).1 <;> rfl
  · obtain ⟨places, hplaces, hspans⟩ := exists_places hstop hts
    have hspansOrdered : (places.map Token.span).Pairwise fun s t => s.start.offset < t.start.offset :=
      pairwise_map.2 (hordered.sublist hplaces)
    rw [← hspans, pairwise_map] at hspansOrdered
    exact hspansOrdered

/-- Four errors in six pieces of tokens: a name in front of all declarations, an attribute without a type, parameters
that end at the next declaration, and a semicolon behind a struct. The uniform and the varying between them are read. -/
theorem four_bad_pieces_give_four_errors :
    let t (k : Token.Kind) (s : String) (i : Int) : Token := ⟨k, s, ⟨1, i + 1, i⟩⟩
    let ts := [t .ident "x" 0, t .attributeWord "attribute" 2, t .ident "a" 12, t .semicolon ";" 13,
      t .uniformWord "uniform" 15, t .ident "u" 23, t .colon ":" 24, t .tyKeyword "float" 26, t .semicolon ";" 31,
      t .fnWord "fn" 33, t .ident "f" 36, t .leftParen "(" 37, t .structWord "struct" 39, t .ident "S" 46,
      t .leftBrace "\x7b" 48, t .rightBrace "\x7d" 49, t .semicolon ";" 50, t .varyingWord "varying" 52,
      t .ident "v" 60, t .colon ":" 61, t .tyKeyword "vec2" 63, t .semicolon ";" 67]
    let stop := t .eof "" 68
    (pieces ts).1.length = 1 ∧ (pieces ts).2.map (isGood stop) = [false, true, false, false, true] ∧
      (syntaxErrors (ts ++ [stop])).length = 4 ∧
      (syntaxErrors (ts ++ [stop])).Pairwise fun e f => e.span.start.offset < f.span.start.offset := by
  intro t ts stop
  obtain ⟨hlength, -, hordered, -⟩ := @syntaxErrors_reported ts stop rfl (by decide)
  exact ⟨rfl, rfl, hlength, hordered (by decide)⟩

end Shading
