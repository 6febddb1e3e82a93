import Shading.Proofs.Lexing.Positions
import Shading.Proofs.Lexing.Lexemes

/-!
# Reading loses nothing

The tokens of a source text, with gaps in front of them, between them and behind them, are the text: `Covers` says so of the
bytes of the text and of the offsets of the tokens. A gap is made of blanks and comments (`Gap`), and only at the end of
the text can a comment be left open. Every position is the one that the bytes in front of it give (`Position.behind`).
Where a text cannot be read, the part of it in front of the error is covered in the same way, and neither a token nor a
blank stands at the error (`Unreadable`).
-/

namespace Shading.Token
open List Text
open Glyph (bytesOf Decoded)

/-! ## Gaps -/

def commentEndBytes : List UInt8 := ['*'.toUInt8, '/'.toUInt8]

/-- Bytes that separate tokens: blanks, comments to the end of their line and comments that are closed. At the end of a text
(`final`) the last comment may be left open. -/
inductive Gap : (final : Bool) → List UInt8 → Prop
  | nil {final : Bool} : Gap final []
  | blank {final : Bool} {c : Char} {rest : List UInt8} (hc : c ∈ blanks) (h : Gap final rest) :
      Gap final (c.toUInt8 :: rest)
  | line {final : Bool} {body rest : List UInt8} (hbody : '\n'.toUInt8 ∉ body) (h : Gap final rest) :
      Gap final ('/'.toUInt8 :: '/'.toUInt8 :: (body ++ '\n'.toUInt8 :: rest))
  | block {final : Bool} {body rest : List UInt8} (hbody : ¬ commentEndBytes <:+: body ++ ['*'.toUInt8])
      (h : Gap final rest) : Gap final ('/'.toUInt8 :: '*'.toUInt8 :: (body ++ commentEndBytes ++ rest))
  | openLine {body : List UInt8} (hbody : '\n'.toUInt8 ∉ body) : Gap true ('/'.toUInt8 :: '/'.toUInt8 :: body)
  | openBlock {body : List UInt8} (hbody : ¬ commentEndBytes <:+: body) :
      Gap true ('/'.toUInt8 :: '*'.toUInt8 :: body)

theorem newline_notMem_bytesOf {gs : List Glyph} (h : Decoded gs) (hgs : .char '\n' ∉ gs) :
    '\n'.toUInt8 ∉ bytesOf gs := by
  intro hmem
  obtain ⟨before, behind, hbytes⟩ := append_of_mem hmem
  obtain ⟨us, vs, rfl, -, -⟩ := h.exists_char (by decide) hbytes
  exact hgs (by simp)

theorem commentEnd_within {gs : List Glyph} (h : Decoded gs) (hwithin : commentEndBytes <:+: bytesOf gs) :
    commentEnd <:+: gs := by
  obtain ⟨before, behind, hbytes⟩ := hwithin
  rw [commentEndBytes, append_assoc] at hbytes
  obtain ⟨us, vs, rfl, -, hvs⟩ := h.exists_char (by decide) hbytes.symm
  have hslash : ['/'].map Glyph.char <+: vs := by
    refine h.right.tail.prefix_chars ⟨behind, ?_⟩
    rw [hvs]
    rfl
  obtain ⟨more, rfl⟩ := hslash
  exact ⟨us, more, by simp [commentEnd]⟩

/-! ## Bytes of tokens -/

def textBytes (s : String) : List UInt8 := s.toUTF8.data.toList

def bytes (t : Token) : List UInt8 := textBytes t.lexeme

theorem bytesOf_map_char (cs : List Char) : bytesOf (cs.map Glyph.char) = textBytes (.ofList cs) := by
  rw [textBytes, String.toUTF8_eq_toByteArray, String.toByteArray_ofList, List.utf8Encode,
    toList_data_toByteArray, bytesOf, flatMap_map]
  rfl

theorem textBytes_ne_nil {k : Kind} {s : String} (h : Spells k s) : textBytes s ≠ [] := by
  rw [← String.ofList_toList (s := s)] at h ⊢
  obtain ⟨c, more, hlist, -⟩ := h.starts
  rw [hlist, ← bytesOf_map_char, map_cons, Glyph.bytesOf_cons]
  have hwidth := Glyph.width_pos (.char c)
  rw [← Glyph.length_bytes] at hwidth
  exact append_ne_nil_of_left_ne_nil (length_pos_iff.1 hwidth) _

/-- Neither a token nor a blank stands at the front of the bytes. -/
def Unreadable (input : List UInt8) : Prop :=
  (∀ k s, Spells k s → ¬ textBytes s <+: input) ∧ ∀ c ∈ blanks, input.head? ≠ some c.toUInt8

theorem unreadable_of_startsNone {gs : List Glyph} (h : Decoded gs) (hnone : StartsNone gs) :
    Unreadable (bytesOf gs) := by
  constructor
  · intro k s hspells hahead
    rw [← String.ofList_toList (s := s)] at hspells hahead
    rw [← bytesOf_map_char] at hahead
    exact hnone.1 k _ hspells (h.prefix_chars hahead)
  · intro c hc hhead
    have hahead : bytesOf ([c].map Glyph.char) <+: bytesOf gs := by
      obtain ⟨rest, hrest⟩ := head?_eq_some_iff.1 hhead
      refine ⟨rest, ?_⟩
      rw [hrest, map_singleton, Glyph.bytesOf_cons, Glyph.bytes_of_one (utf8Size_of_mem_blanks hc)]
      rfl
    obtain ⟨more, rfl⟩ := h.prefix_chars hahead
    exact hnone.2 c hc rfl

/-! ## Layouts -/

/-- The bytes `input`, which stand behind `before`, are those of the tokens in order, with gaps around them. -/
inductive Laid (final : Bool) : (before input : List UInt8) → List Token → Prop
  | last {before gap : List UInt8} (hgap : Gap final gap) : Laid final before gap []
  | token {before gap rest : List UInt8} {t : Token} {ts : List Token} (hgap : Gap false gap)
      (hspells : Spells t.kind t.lexeme) (hstart : t.start = .behind (before ++ gap))
      (h : Laid final (before ++ gap ++ t.bytes) rest ts) : Laid final before (gap ++ (t.bytes ++ rest)) (t :: ts)

/-- What becomes of the bytes `input` that stand behind `before`: tokens, or the first character that starts none. -/
inductive Outcome (before input : List UInt8) : Except Unexpected (List Token) → Prop
  | done {ts : List Token} (h : Laid true before input ts) :
      Outcome before input (.ok (ts ++ [⟨.eof, "", .behind (before ++ input)⟩]))
  | stuck {front : List UInt8} {g : Glyph} {gs : List Glyph} {ts : List Token}
      (hinput : input = front ++ bytesOf (g :: gs)) (h : Laid false before front ts) (hdecoded : Decoded (g :: gs))
      (hnone : Unreadable (bytesOf (g :: gs))) : Outcome before input (.error ⟨[g], .behind (before ++ front)⟩)

section Reading

variable {before piece rest : List UInt8} {r : Except Unexpected (List Token)}

/-- Bytes that make every gap behind them a longer gap. -/
def Joins (piece : List UInt8) : Prop := ∀ final gap, Gap final gap → Gap final (piece ++ gap)

theorem joins_blank {c : Char} (hc : c ∈ blanks) : Joins (bytesOf [.char c]) := by
  intro final gap hgap
  rw [Glyph.bytesOf_cons, Glyph.bytes_of_one (utf8Size_of_mem_blanks hc)]
  exact .blank hc hgap

theorem joins_line {body : List Glyph} (h : Decoded body) (hbody : .char '\n' ∉ body) :
    Joins (bytesOf (.char '/' :: .char '/' :: (body ++ [.char '\n']))) := by
  intro final gap hgap
  have hline := hgap.line (newline_notMem_bytesOf h hbody)
  rw [Glyph.bytesOf_cons, Glyph.bytesOf_cons, Glyph.bytesOf_append, append_assoc, append_assoc,
    append_assoc]
  exact hline

theorem joins_block {body : List Glyph} (h : Decoded (body ++ [.char '*']))
    (hbody : ¬ commentEnd <:+: body ++ [.char '*']) :
    Joins (bytesOf (.char '/' :: .char '*' :: (body ++ commentEnd))) := by
  intro final gap hgap
  have hbytes : ¬ commentEndBytes <:+: bytesOf body ++ ['*'.toUInt8] := by
    intro hwithin
    apply hbody
    apply commentEnd_within h
    rw [Glyph.bytesOf_append]
    exact hwithin
  rw [Glyph.bytesOf_cons, Glyph.bytesOf_cons, Glyph.bytesOf_append, append_assoc, append_assoc]
  exact hgap.block hbytes

theorem Laid.prepend {final : Bool} {ts : List Token} (hpiece : Joins piece)
    (h : Laid final (before ++ piece) rest ts) : Laid final before (piece ++ rest) ts := by
  cases h with
  | last hgap => exact .last (hpiece _ _ hgap)
  | token hgap hspells hstart h =>
    rw [append_assoc] at hstart
    rw [append_assoc before piece] at h
    rw [← append_assoc]
    exact .token (hpiece _ _ hgap) hspells hstart h

theorem Outcome.prepend (hpiece : Joins piece) (h : Outcome (before ++ piece) rest r) :
    Outcome before (piece ++ rest) r := by
  cases h with
  | done h =>
    rw [append_assoc]
    exact .done (h.prepend hpiece)
  | stuck hinput h hdecoded hnone =>
    rw [append_assoc]
    exact .stuck (by rw [hinput, append_assoc]) (h.prepend hpiece) hdecoded hnone

theorem Outcome.token {t : Token} (hspells : Spells t.kind t.lexeme) (hstart : t.start = .behind before)
    (h : Outcome (before ++ t.bytes) rest r) : Outcome before (t.bytes ++ rest) (r.map (t :: ·)) := by
  have hlaid : ∀ {final rest ts}, Laid final (before ++ t.bytes) rest ts →
      Laid final before (t.bytes ++ rest) (t :: ts) := by
    intro final rest ts h
    refine @Laid.token final before [] rest t ts .nil hspells ?_ ?_
    · rw [hstart, append_nil]
    · rwa [append_nil]
  cases h with
  | done h =>
    rw [append_assoc]
    exact .done (hlaid h)
  | stuck hinput h hdecoded hnone =>
    rw [append_assoc]
    exact .stuck (by rw [hinput, append_assoc]) (hlaid h) hdecoded hnone

end Reading

/-! ## Reading piece by piece -/

section Pieces

variable {p : Position} {g : Glyph} {rest taken more : List Glyph}

theorem readFrom_of_gap (h : Piece.next g rest = ⟨none, taken, more⟩) :
    readFrom p (g :: rest) = readFrom (p.after taken) more := by
  rw [readFrom, h]

theorem readFrom_of_unexpected (h : Piece.next g rest = ⟨some .bad, taken, more⟩) :
    readFrom p (g :: rest) = .error ⟨taken, p⟩ := by
  rw [readFrom, h]

theorem readFrom_of_token {k : Kind} (hk : k ≠ .bad) (h : Piece.next g rest = ⟨some k, taken, more⟩) :
    readFrom p (g :: rest) = (readFrom (p.after taken) more).map (⟨k, Glyph.text taken, p⟩ :: ·) := by
  rw [readFrom, h]
  dsimp only
  split
  · next heq => cases heq
  · next heq =>
    cases heq
    exact absurd rfl hk
  · next heq =>
    cases heq
    rfl

end Pieces

/-- A text that ends in a gap has no more tokens. -/
theorem outcome_of_gap {us gap : List Glyph} (h : Decoded (us ++ gap)) (hgap : Gap true (bytesOf gap)) :
    Outcome (bytesOf us) (bytesOf gap) (readFrom ((Position.first.after us).after gap) []) := by
  rw [readFrom, ← Position.after_append, Position.after_first h, Glyph.bytesOf_append]
  exact .done (.last hgap)

/-- The first piece of a text and what becomes of the rest. -/
theorem outcome_cons {us rest : List Glyph} {g : Glyph} (h : Decoded (us ++ g :: rest))
    (hread : ∀ taken more, taken ≠ [] → taken ++ more = g :: rest →
      Outcome (bytesOf us ++ bytesOf taken) (bytesOf more) (readFrom ((Position.first.after us).after taken) more)) :
    Outcome (bytesOf us) (bytesOf (g :: rest)) (readFrom (Position.first.after us) (g :: rest)) := by
  have hshape := Piece.shape_next g rest
  have hparts := Piece.next_parts g rest
  generalize hpiece : Piece.next g rest = piece at hshape hparts
  cases hshape with
  | blank hc =>
    rw [readFrom_of_gap hpiece, ← hparts, Glyph.bytesOf_append]
    exact (hread _ _ (by simp) hparts).prepend (joins_blank hc)
  | @line body more hbody hrest =>
    rw [← hparts] at h
    have hcomment : Decoded body := h.right.left.tail.tail
    rw [readFrom_of_gap hpiece]
    obtain rfl | ⟨more, rfl⟩ := hrest
    · rw [append_nil] at h hparts
      rw [← hparts]
      exact outcome_of_gap h (.openLine (newline_notMem_bytesOf hcomment hbody))
    · -- The newline behind the comment is a piece of its own.
      have hnewline : Piece.next (.char '\n') more = ⟨none, [.char '\n'], more⟩ := rfl
      have hparts' : .char '/' :: .char '/' :: (body ++ [.char '\n']) ++ more = g :: rest := by
        rw [← hparts]
        simp
      rw [readFrom_of_gap hnewline, ← Position.after_append, ← hparts', Glyph.bytesOf_append]
      exact (hread _ _ (by simp) hparts').prepend (joins_line hcomment hbody)
  | @block body more hbody =>
    rw [← hparts] at h
    have hcomment : Decoded (body ++ commentEnd) := h.right.left.tail.tail
    rw [commentEnd, ← singleton_append, ← append_assoc] at hcomment
    rw [readFrom_of_gap hpiece, ← hparts, Glyph.bytesOf_append]
    exact (hread _ _ (by simp) hparts).prepend (joins_block hcomment.left hbody)
  | openBlock hbody =>
    rw [append_nil] at hparts
    rw [← hparts] at h
    rw [readFrom_of_gap hpiece, ← hparts]
    exact outcome_of_gap h (.openBlock fun hwithin => hbody (commentEnd_within h.right.tail.tail hwithin))
  | @token k cs more hspells _ =>
    have hne : cs.map Glyph.char ≠ [] := by
      obtain ⟨c, cs, rfl, -⟩ := hspells.starts
      exact cons_ne_nil _ _
    have hmore := hread _ more hne hparts
    rw [bytesOf_map_char] at hmore
    rw [readFrom_of_token hspells.ne_bad hpiece, text_map_char, ← hparts, Glyph.bytesOf_append, bytesOf_map_char]
    exact @Outcome.token (bytesOf us) (bytesOf more) _ ⟨k, .ofList cs, Position.first.after us⟩ hspells
      (Position.after_first h.left) hmore
  | @unexpected g' more hnone =>
    obtain ⟨rfl, rfl⟩ := List.cons.inj hparts
    have hstuck : Outcome (bytesOf us) (bytesOf (g' :: more)) (.error ⟨[g'], .behind (bytesOf us ++ [])⟩) :=
      .stuck rfl (.last .nil) h.right (unreadable_of_startsNone h.right hnone)
    rw [readFrom_of_unexpected hpiece, Position.after_first h.left]
    rwa [append_nil] at hstuck

/-- Reading a text from any place on gives the tokens that its bytes hold. -/
theorem outcome_readFrom {us gs : List Glyph} (h : Decoded (us ++ gs)) :
    Outcome (bytesOf us) (bytesOf gs) (readFrom (Position.first.after us) gs) := by
  induction hn : gs.length using Nat.strongRecOn generalizing us gs with
  | ind n ih =>
    subst hn
    cases gs with
    | nil => exact outcome_of_gap h .nil
    | cons g rest =>
      refine outcome_cons h fun taken more hne hparts => ?_
      rw [← Position.after_append, ← Glyph.bytesOf_append]
      refine ih more.length ?_ (by rwa [append_assoc, hparts]) rfl
      have hlength := congrArg List.length hparts
      have hpos := length_pos_iff.2 hne
      rw [length_append] at hlength
      omega

/-! ## The whole text -/

/-- The bytes from the offset `i` on that belong to none of the tokens are gaps. -/
def GapsFrom (final : Bool) (input : List UInt8) : (i : Nat) → List Token → Prop
  | i, [] => Gap final (input.drop i)
  | i, t :: ts =>
    Gap false (input.extract i t.start.offset.toNat) ∧
      GapsFrom final input (t.start.offset.toNat + t.bytes.length) ts

/-- The tokens stand in the text, one behind the other, where their positions say, and nothing but gaps is around them. -/
structure Covers (final : Bool) (input : List UInt8) (ts : List Token) : Prop where
  lexeme : ∀ t ∈ ts, t.bytes ≠ [] ∧ t.bytes <+: input.drop t.start.offset.toNat
  spelled : ∀ t ∈ ts, Spells t.kind t.lexeme
  position : ∀ t ∈ ts, t.start = .behind (input.take t.start.offset.toNat)
  ordered : ts.Pairwise fun t u => t.start.offset < u.start.offset ∧ t.span.stop.offset ≤ u.start.offset
  gaps : GapsFrom final input 0 ts

namespace Laid

variable {final : Bool} {before input : List UInt8} {ts : List Token}

theorem spelled (h : Laid final before input ts) : ∀ t ∈ ts, Spells t.kind t.lexeme := by
  induction h with
  | last _ => simp
  | token _ hspells _ _ ih =>
    rintro u (_ | ⟨_, hu⟩)
    · exact hspells
    · exact ih u hu

/-- Where a token stands. -/
theorem placed (h : Laid final before input ts) :
    ∀ t ∈ ts, ∃ front rest, before ++ input = front ++ (t.bytes ++ rest) ∧ before.length ≤ front.length ∧
      t.start = .behind front := by
  induction h with
  | last _ => simp
  | @token before gap rest t ts _ _ hstart _ ih =>
    rintro u (_ | ⟨_, hu⟩)
    · exact ⟨before ++ gap, rest, by rw [append_assoc], by simp, hstart⟩
    · obtain ⟨front, rest, hparts, hlength, hstart⟩ := ih u hu
      refine ⟨front, rest, by rw [← hparts]; simp, ?_, hstart⟩
      simp only [length_append] at hlength
      omega

theorem ordered (h : Laid final before input ts) :
    ts.Pairwise fun t u => t.start.offset < u.start.offset ∧ t.span.stop.offset ≤ u.start.offset := by
  induction h with
  | last _ => exact .nil
  | @token before gap rest t ts _ hspells hstart h ih =>
    refine .cons (fun u hu => ?_) ih
    obtain ⟨front, _, _, hlength, hfront⟩ := h.placed u hu
    have hpos : 0 < t.bytes.length := length_pos_iff.2 (textBytes_ne_nil hspells)
    have ht : t.start.offset = (before ++ gap).length := congrArg Position.offset hstart
    have hu : u.start.offset = front.length := congrArg Position.offset hfront
    have hstop : t.span.stop.offset = t.start.offset + (t.bytes.length : Int) := rfl
    rw [length_append] at hlength
    omega

theorem gapsFrom (h : Laid final before input ts) : GapsFrom final (before ++ input) before.length ts := by
  induction h with
  | last hgap =>
    rw [GapsFrom, drop_left]
    exact hgap
  | @token before gap rest t ts hgap _ hstart _ ih =>
    have hoffset : t.start.offset.toNat = before.length + gap.length := by
      rw [hstart]
      exact length_append
    rw [GapsFrom, hoffset, extract_eq_take_drop, drop_left, Nat.add_sub_cancel_left, take_left]
    refine ⟨hgap, ?_⟩
    simpa [Nat.add_assoc] using ih

theorem covers (h : Laid final [] input ts) : Covers final input ts := by
  have hplaced : ∀ t ∈ ts, t.bytes <+: input.drop t.start.offset.toNat ∧
      t.start = .behind (input.take t.start.offset.toNat) := by
    intro t ht
    obtain ⟨front, rest, hparts, -, hstart⟩ := h.placed t ht
    have hoffset : t.start.offset.toNat = front.length := by
      rw [hstart]
      rfl
    rw [nil_append] at hparts
    rw [hoffset, hparts, drop_left, take_left]
    exact ⟨prefix_append _ _, hstart⟩
  exact {
    lexeme := fun t ht => ⟨textBytes_ne_nil (h.spelled t ht), (hplaced t ht).1⟩
    spelled := h.spelled
    position := fun t ht => (hplaced t ht).2
    ordered := h.ordered
    gaps := h.gapsFrom }

end Laid

theorem outcome_read (input : ByteArray) : Outcome [] input.data.toList (read (.ofBytes input)) := by
  have hdecoded : Decoded ([] ++ Glyph.ofBytes input.data.toList) := .of_ofBytes _
  have h := outcome_readFrom hdecoded
  rw [Glyph.bytesOf_ofBytes, ← Glyph.decode_eq_ofBytes] at h
  exact h

/-- **Reading loses nothing.** If a text can be read, its tokens cover it, and the mark of the end stands behind all of it.
If not, the error names one character. Tokens cover the text in front of it, and neither a token nor a blank starts there. -/
theorem read_covers (input : ByteArray) :
    match read (.ofBytes input) with
    | .ok tokens => ∃ ts, tokens = ts ++ [⟨.eof, "", .behind input.data.toList⟩] ∧ Covers true input.data.toList ts
    | .error u => ∃ front rest g ts, input.data.toList = front ++ rest ∧ u = ⟨[g], .behind front⟩ ∧
        Covers false front ts ∧ (Glyph.ofBytes rest).head? = some g ∧ Unreadable rest := by
  have h := outcome_read input
  generalize read (.ofBytes input) = r at h
  cases h with
  | @done ts h => exact ⟨ts, rfl, h.covers⟩
  | @stuck front g gs ts hinput h hdecoded hnone =>
    refine ⟨front, bytesOf (g :: gs), g, ts, hinput, rfl, h.covers, ?_, hnone⟩
    rw [hdecoded]
    rfl

/-- The tokens of a text stand in the order of their offsets, and the mark of the end behind them. -/
theorem pairwise_of_read {input : ByteArray} {tokens : List Token} (h : read (.ofBytes input) = .ok tokens) :
    tokens.Pairwise fun t u => t.start.offset < u.start.offset := by
  have houtcome := outcome_read input
  rw [h] at houtcome
  cases houtcome with
  | @done ts hlaid =>
    refine pairwise_append.2 ⟨hlaid.ordered.imp And.left, pairwise_singleton _ _, ?_⟩
    intro t ht eof heof
    obtain ⟨front, rest, hparts, -, hstart⟩ := hlaid.placed t ht
    have hpos : 0 < t.bytes.length := length_pos_iff.2 (textBytes_ne_nil (hlaid.spelled t ht))
    have hlength := congrArg List.length hparts
    simp only [length_append] at hlength
    rw [mem_singleton.1 heof, hstart]
    show (front.length : Int) < (([] ++ input.data.toList).length : Nat)
    rw [length_append]
    omega

end Shading.Token
