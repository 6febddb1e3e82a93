import Shading.Compile
import Shading.Proofs.Diagnostics.Excerpts
import Shading.Proofs.Faults
import Shading.Proofs.Grammar.Soundness
import Shading.Proofs.Items

/-!
# Diagnostics point into the source

Every error that is found while a shader is checked is at the span of some part of the shader, except that a missing
function is nowhere. The spans of a shader that was read from a text start at tokens, so each error of a text, of its
form or of its meaning, points at a token, and the excerpt shows the line of this token with a caret under it.
-/

namespace Shading

open List

theorem Check.liesIn_program {P : Position → Prop} {builtins : Builtins} {decls : List Decl}
    (hdecls : ∀ d ∈ decls, (Node.decl d).StartsIn P) (shared : Bool) :
    Blames (Fault.LiesIn P) (program builtins shared decls) :=
  (founded_program hdecls builtins shared).mono fun _ he => he.place

namespace Parser

variable {P : Position → Prop}

/-- The tokens ahead start at the given places, and the end is among them. -/
structure Cursor.AheadIn (P : Position → Prop) (c : Cursor) : Prop where
  starts : ∀ t ∈ c.ahead, P t.start
  ends : ∃ t ∈ c.ahead, t.kind = .eof

theorem Cursor.AheadIn.peek {c : Cursor} (h : c.AheadIn P) : P c.peek.start := by
  obtain ⟨last, ahead⟩ := c
  cases ahead with
  | nil =>
    obtain ⟨t, ht, -⟩ := h.ends
    cases ht
  | cons t ts => exact h.starts t mem_cons_self

/-- The end is never taken. -/
theorem Cursor.AheadIn.behind {c c' : Cursor} {us : List Token} (h : c.AheadIn P) (hus : c.ahead = us ++ c'.ahead)
    (hplain : ∀ u ∈ us, u.kind ≠ .eof) : c'.AheadIn P := by
  refine ⟨fun t ht => h.starts t (by rw [hus]; exact mem_append_right us ht), ?_⟩
  obtain ⟨stop, hstop, heof⟩ := h.ends
  rw [hus] at hstop
  obtain hstop | hstop := mem_append.1 hstop
  · exact absurd heof (hplain stop hstop)
  · exact ⟨stop, hstop, heof⟩

theorem Cursor.AheadIn.advance {c : Cursor} (h : c.AheadIn P) : c.advance.AheadIn P := by
  by_cases hpeek : c.peek.kind = .eof
  · have hstays : c.advance = c := by
      obtain ⟨last, ahead⟩ := c
      cases ahead with
      | nil => rfl
      | cons t ts => exact if_pos hpeek
    rwa [hstays]
  · exact h.behind (takes_advance hpeek).1 (forall_mem_singleton.2 hpeek)

/-- Reading a declaration: it is made of spans that start at the places, or an error is at one of them. -/
theorem declaration_starts {c : Cursor} (h : c.AheadIn P) :
    (outcome declaration c).2.AheadIn P ∧ (∀ d, (outcome declaration c).1 = .ok d → (Node.decl d).StartsIn P) ∧
      ∀ e, (outcome declaration c).1 = .error e → P e.span.start := by
  cases hword : c.peek.kind.startsDecl with
  | true =>
    obtain ⟨us, hus, hplain, hok, herror⟩ := lands_declaration hword
    have hbehind := h.advance.behind hus.ahead fun u hu => (hplain u hu).1
    refine ⟨hbehind, fun d hd => (hok d hd).startsIn (forall_mem_cons.2 ⟨h.peek, fun t ht => ?_⟩), fun e he => ?_⟩
    · exact h.advance.starts t (by rw [hus.ahead]; exact mem_append_left _ ht)
    · obtain ⟨t, ht, hspan⟩ := herror e he
      rw [hspan]
      obtain ht | ht := mem_append.1 ht
      · exact h.advance.starts t (by rw [hus.ahead]; exact mem_append_left _ ht)
      · rw [mem_singleton.1 ht]
        exact hbehind.peek
  | false =>
    rw [outcome_of_no_word hword]
    refine ⟨h, by rintro d ⟨⟩, ?_⟩
    rintro e ⟨⟩
    exact h.peek

/-- The end is not skipped. -/
theorem aheadIn_skipToDecl {last : Token} {ts : List Token} (h : Cursor.AheadIn P ⟨last, ts⟩) :
    (skipToDecl last ts).AheadIn P := by
  induction ts generalizing last with
  | nil => exact h
  | cons t ts ih =>
    rw [skipToDecl]
    split
    · exact h
    · next hkind =>
      have hnext : Cursor.advance ⟨last, t :: ts⟩ = ⟨t, ts⟩ := if_neg fun heof => hkind (.inr heof)
      have hadvance := h.advance
      rw [hnext] at hadvance
      exact ih hadvance

theorem declarations_start (n : Nat) {c : Cursor} (h : c.AheadIn P) :
    (∀ d ∈ (declarations n c).1, (Node.decl d).StartsIn P) ∧ ∀ e ∈ (declarations n c).2, P e.span.start := by
  induction n generalizing c with
  | zero => exact ⟨forall_mem_nil _, forall_mem_nil _⟩
  | succ n ih =>
    rw [declarations]
    split
    · exact ⟨forall_mem_nil _, forall_mem_nil _⟩
    · have hstarts := declaration_starts h
      rcases hrun : outcome declaration c with ⟨r, c'⟩
      rw [hrun] at hstarts
      obtain ⟨hahead, hd, he⟩ := hstarts
      rw [show ((declaration : Parser Decl).run).run c = (r, c') from hrun]
      cases r with
      | ok d => exact ⟨forall_mem_cons.2 ⟨hd d rfl, (ih hahead).1⟩, (ih hahead).2⟩
      | error e =>
        have hresume : (Cursor.resume c c').AheadIn P := by
          unfold Cursor.resume
          dsimp only
          split
          · exact aheadIn_skipToDecl hahead.advance
          · exact aheadIn_skipToDecl hahead
        exact ⟨(ih hresume).1, forall_mem_cons.2 ⟨he e rfl, (ih hresume).2⟩⟩

end Parser

/-- The spans of the declarations that tokens spell start at tokens, and so do those of the errors in tokens that spell
none. -/
theorem parseTokens_starts {P : Position → Prop} {tokens : List Token} (hstarts : ∀ t ∈ tokens, P t.start)
    (hends : ∃ t ∈ tokens, t.kind = .eof) :
    match parseTokens tokens with
    | .ok decls => ∀ d ∈ decls, (Node.decl d).StartsIn P
    | .error errors => ∀ e ∈ errors, P e.span.start := by
  have h := Parser.declarations_start (P := P) tokens.length (c := ⟨Parser.endToken, tokens⟩) ⟨hstarts, hends⟩
  unfold parseTokens
  rcases hrun : Parser.declarations tokens.length ⟨Parser.endToken, tokens⟩ with ⟨ds, es⟩
  rw [hrun] at h
  cases es with
  | nil => exact h.1
  | cons e es => exact h.2

/-- The spans of what is read from a text start at its tokens, and an error is at a token or at the character that starts
none. -/
theorem parse_starts (src : Source) :
    match parse src with
    | .ok decls => ∀ d ∈ decls, (Node.decl d).StartsIn fun p => ∃ word, src.Mark p word
    | .error errors => ∀ e ∈ errors, ∃ word, src.Mark e.span.start word := by
  unfold parse
  have hplaced := Token.placed_of_readFrom [] src.glyphs
  rw [Position.after_nil, ← Token.read] at hplaced
  cases hread : Token.read src with
  | error u => exact forall_mem_singleton.2 ⟨u.glyphs, .unexpected hread⟩
  | ok tokens =>
    rw [hread] at hplaced
    exact parseTokens_starts (P := fun p => ∃ word, src.Mark p word) (fun t ht => ⟨_, .token hread ht⟩) hplaced.1

/-- A character that starts no token is an error, whatever stands in front of it. -/
example : (parse (.ofString "uniform u: float; @")).toOption.isNone = true := by decide +kernel

/-- **Every diagnostic points into the source.** Each error in the form of a text, and the error in the meaning of the shader
that was read from it unless a function is missing, starts at a token of the text, with the mark of its end, or at the
character that starts none. In its context it shows the line of this token and a caret under its first character. -/
theorem diagnostics_point_into_source {src : Source} (hne : src.isEmpty = false) :
    (∀ errors, parse src = .error errors → ∀ e ∈ errors, ∃ word, src.Mark e.span.start word ∧
      e.notice.PointsAt src word) ∧
    ∀ decls d extra e, parse src = .ok decls → (emit d extra decls).1 = .error (.refused e) →
      (∀ f, e.cause ≠ .missingFn f) → ∃ word, src.Mark e.span.start word ∧ e.notice.PointsAt src word := by
  have hstarts := parse_starts src
  constructor
  · intro errors herrors e he
    rw [herrors] at hstarts
    obtain ⟨word, hmark⟩ := hstarts e he
    exact ⟨word, hmark, Notice.pointsAt_of_mark hne hmark⟩
  · intro decls d extra e hdecls herror hcause
    rw [hdecls] at hstarts
    obtain ⟨s', hrefused⟩ := outcome_of_emit_error herror
    rcases Check.liesIn_program hstarts d.sharesDecls {} (.refused e) s' hrefused with ⟨word, hmark⟩ | ⟨f, hf⟩
    · exact ⟨word, hmark, Notice.pointsAt_of_mark hne hmark⟩
    · exact absurd hf (hcause f)

/-- Behind a comment with characters of two and of three bytes, an unknown name and a missing parenthesis, and behind these
the end of the text: the caret stands below the first character of each. -/
theorem carets_stand_below_tokens :
    let unknown : Source := .ofString "fn vertex() -> vec4 \x7b\n  /* é → */ return nope;\n\x7d"
    let malformed : Source := .ofString "fn vertex() -> vec4 \x7b\n  /* é → */ return (1;\n\x7d\nfn"
    (unknown.isEmpty = false ∧ ∃ decls e, parse unknown = .ok decls ∧
      (emit (Glsl.dialect {}) [] decls).1 = .error (.refused e) ∧ (∀ f, e.cause ≠ .missingFn f) ∧
      e.notice.inContext unknown = "error[IdentIsUndefined]: identifier nope is undefined\n  --> line 2:20\n   |\n" ++
        "  2|   /* é → */ return nope;\n   |                    ^\n" ∧
      ∃ word, unknown.Mark e.span.start word ∧ e.notice.PointsAt unknown word) ∧
    malformed.isEmpty = false ∧ ∃ first second, parse malformed = .error [first, second] ∧
      first.notice.inContext malformed = "error: expected ), got ;\n  --> line 2:22\n   |\n" ++
        "  2|   /* é → */ return (1;\n   |                      ^\n" ∧
      second.notice.inContext malformed = "error: expected identifier, got EOF\n  --> line 4:3\n   |\n" ++
        "  4| fn\n   |   ^\n" ∧
      (∃ word, malformed.Mark first.span.start word ∧ first.notice.PointsAt malformed word) ∧
      ∃ word, malformed.Mark second.span.start word ∧ second.notice.PointsAt malformed word := by
  intro unknown malformed
  constructor
  · let e : SemanticError := ⟨.undefined "nope", ⟨⟨2, 20, 44⟩, ⟨2, 24, 48⟩⟩⟩
    have hne : unknown.isEmpty = false := rfl
    have hrun : (parse unknown).toOption.any (fun decls =>
        decide ((emit (Glsl.dialect {}) [] decls).1 = .error (.refused e))) = true := by
      decide +kernel
    cases hparse : parse unknown with
    | error errors =>
      rw [hparse] at hrun
      cases hrun
    | ok decls =>
      rw [hparse] at hrun
      have herror := of_decide_eq_true hrun
      have hcause : ∀ f, e.cause ≠ .missingFn f := by simp [e]
      exact ⟨hne, decls, e, rfl, herror, hcause, by decide +kernel,
        (diagnostics_point_into_source hne).2 decls _ [] e hparse herror hcause⟩
  · let first : SyntaxError := ⟨.wanted (.token .rightParen) .semicolon, ⟨⟨2, 22, 46⟩, ⟨2, 23, 47⟩⟩⟩
    let second : SyntaxError := ⟨.wanted (.token .ident) .eof, ⟨⟨4, 3, 52⟩, ⟨4, 3, 52⟩⟩⟩
    have hne : malformed.isEmpty = false := rfl
    have hrun : (parse malformed).map (fun _ => ()) = .error [first, second] := by decide +kernel
    have hparse : parse malformed = .error [first, second] := by
      cases hparse : parse malformed with
      | ok decls =>
        rw [hparse] at hrun
        cases hrun
      | error errors =>
        rw [hparse] at hrun
        exact congrArg Except.error (Except.error.inj hrun)
    have hpoints := (diagnostics_point_into_source hne).1 _ hparse
    exact ⟨hne, first, second, hparse, by decide +kernel, by decide +kernel, hpoints first (by simp),
      hpoints second (by simp)⟩

/-- In an empty text there is nothing to point at. -/
example : (parse (.ofString "")).toOption.isSome = true := by decide +kernel

end Shading
