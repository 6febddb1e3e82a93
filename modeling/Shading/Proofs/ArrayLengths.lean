import Shading.Proofs.Grammar.Completeness
import Shading.Proofs.Naming
import Shading.Proofs.Number.IntegerNumerals

/-!
# Lengths of arrays

What becomes of the lengths written behind a type (`WrittenLengths`). A number of 33 bits or more is no literal, with a
minus sign or without. A smaller one is taken as a 32-bit word before its sign is applied, so the numbers from `2 ^ 31`
on turn negative and, behind a minus sign, positive again. The check refuses what is not positive then
(`written_lengths_taken`): the written numbers from `1` to `2 ^ 31 - 1` mean themselves, and those from `-(2 ^ 32 - 1)`
to `-2 ^ 31` are taken for lengths too.
-/

namespace Shading

open List

/-- The lengths of an array type in the order in which they are written. -/
def TyExpr.lengths : TyExpr → List Int
  | array elem len _ => elem.lengths ++ [len]
  | _ => []

/-- What an array type is an array of, all its lengths taken away. -/
def TyExpr.root : TyExpr → TyExpr
  | array elem _ _ => elem.root
  | ty => ty

namespace Check

/-- An array type is refused for a length that is not positive, and nothing has happened until then. -/
theorem outcome_tyExpr_of_bad {ty : TyExpr} (ctx : Context) (s : Expansion) (h : ∃ len ∈ ty.lengths, len ≤ 0) :
    ∃ len ∈ ty.lengths, len ≤ 0 ∧
      ∃ span, (tyExpr ctx ty).outcome s = (.error (.refused ⟨.badArrayLength len, span⟩), s) := by
  induction ty with
  | keyword | named =>
    obtain ⟨_, hlen, -⟩ := h
    cases hlen
  | array elem len span ih =>
    by_cases hlen : len ≤ 0
    · refine ⟨len, mem_append_right _ (mem_singleton_self _), hlen, span, ?_⟩
      rw [tyExpr, if_pos hlen, outcome_bind]
      rfl
    · obtain ⟨bad, hmem, hbad⟩ := h
      rcases mem_append.1 hmem with hmem | hmem
      · obtain ⟨bad, hmem, hbad, span, helem⟩ := ih ⟨bad, hmem, hbad⟩
        refine ⟨bad, mem_append_left _ hmem, hbad, span, ?_⟩
        rw [tyExpr, if_neg hlen, outcome_bind, helem]
      · exact absurd (mem_singleton.1 hmem ▸ hbad) hlen

/-- With positive lengths the type is the array of these lengths over what the root means. -/
theorem gives_tyExpr_of_good {ctx : Context} {s s' : Expansion} {ty : TyExpr} {r : Ty}
    (h : ∀ len ∈ ty.lengths, 0 < len) :
    Gives (tyExpr ctx ty) s r s' ↔
      ∃ base, Gives (tyExpr ctx ty.root) s base s' ∧ r = ty.lengths.foldl Ty.array base := by
  induction ty generalizing r with
  | keyword | named =>
    constructor
    · exact fun hgives => ⟨r, hgives, rfl⟩
    · rintro ⟨_, hgives, rfl⟩
      exact hgives
  | array elem len span ih =>
    have hlen := h len (mem_append_right _ (mem_singleton_self _))
    simp only [gives_array, hlen, true_and, ih fun l hl => h l (mem_append_left _ hl), TyExpr.root, TyExpr.lengths,
      foldl_append, foldl_cons, foldl_nil]
    constructor
    · rintro ⟨_, ⟨base, hbase, rfl⟩, rfl⟩
      exact ⟨base, hbase, rfl⟩
    · rintro ⟨base, hbase, rfl⟩
      exact ⟨_, ⟨base, hbase, rfl⟩, rfl⟩

end Check

namespace Parser
open Grammar Value

/-- The tokens are a length with the value: an integer literal, with a minus sign in front or without. -/
inductive WrittenLength : List Token → Int → Prop
  | plain {t : Token} {n : Nat} : t.kind = .intLiteral → IntNumeral t.lexeme.toList n → WrittenLength [t] n
  | negative {minus t : Token} {n : Nat} : minus.kind = .minus → t.kind = .intLiteral →
    IntNumeral t.lexeme.toList n → WrittenLength [minus, t] (-n)

/-- The tokens are lengths with the values, each in its brackets. -/
inductive WrittenLengths : List Token → List Int → Prop
  | nil : WrittenLengths [] []
  | cons {opening closing : Token} {ns us : List Token} {z : Int} {zs : List Int} :
    opening.kind = .leftBracket → WrittenLength ns z → closing.kind = .rightBracket → WrittenLengths us zs →
    WrittenLengths (opening :: (ns ++ closing :: us)) (z :: zs)

/-- The length that a written number is taken for: its size as a signed word, with its sign. -/
def takenLength (z : Int) : Int := if z < 0 then -(-z).bmod (2 ^ 32) else z.bmod (2 ^ 32)

/-- The written number is taken for a length. -/
def IsLength (z : Int) : Prop := 1 ≤ z ∧ z < 2 ^ 31 ∨ -2 ^ 32 < z ∧ z ≤ -2 ^ 31

instance (z : Int) : Decidable (IsLength z) := inferInstanceAs (Decidable (_ ∨ _))

theorem takenLength_eq {z : Int} (h : IsLength z) : takenLength z = if z < 0 then z + 2 ^ 32 else z := by
  unfold IsLength at h
  unfold takenLength
  split <;> rw [Int.bmod_def] <;> push_cast <;> split <;> omega

theorem takenLength_pos {z : Int} (hz : z.natAbs < 2 ^ 32) : 0 < takenLength z ↔ IsLength z := by
  unfold takenLength IsLength
  split <;> rw [Int.bmod_def] <;> push_cast <;> split <;> omega

section Reading

variable {α β : Type} {m : Parser α} {c c₁ : Cursor} {ns us rest : List Token} {z : Int} {zs : List Int}

theorem Reads.outcome_bind {a : α} (h : Reads m c a c₁) (f : α → Parser β) :
    outcome (m >>= f) c = outcome (f a) c₁ := by
  rw [Parser.outcome_bind, h]

theorem parse_of_numeral {t : Token} {n : Nat} (h : IntNumeral t.lexeme.toList n) :
    (n < 2 ^ 32 → Value.parse t.lexeme = .ok (.int (Int32.ofInt n))) ∧
      (2 ^ 32 ≤ n → ∃ e, Value.parse t.lexeme = .error e) := by
  have hparse := parse_of_intNumeral h
  rw [String.ofList_toList] at hparse
  exact ⟨fun hn => by rw [hparse, if_pos hn], fun hn => ⟨_, by rw [hparse, if_neg (Nat.not_lt.2 hn)]⟩⟩

theorem arrayLength_of_written (h : WrittenLength ns z) (hz : z.natAbs < 2 ^ 32) :
    ArrayLength ns (takenLength z) := by
  cases h with
  | @plain t n hkind hnumeral =>
    have htaken : takenLength n = (Value.int (Int32.ofInt n)).toInt32.toInt :=
      (if_neg (Int.not_lt.2 (Int.natCast_nonneg n))).trans Int32.toInt_ofInt.symm
    exact htaken ▸ .plain hkind ((parse_of_numeral hnumeral).1 (by omega))
  | @negative minus t n hminus hkind hnumeral =>
    have htaken : takenLength (-n) = -(Value.int (Int32.ofInt n)).toInt32.toInt := by
      have hword : (Value.int (Int32.ofInt n)).toInt32.toInt = (n : Int).bmod (2 ^ 32) := Int32.toInt_ofInt
      rw [hword, takenLength, Int.neg_neg]
      split
      · rfl
      · obtain rfl : n = 0 := by omega
        rfl
    exact htaken ▸ .negative hminus hkind ((parse_of_numeral hnumeral).1 (by omega))

theorem outcome_arrayLength_of_large (h : WrittenLength ns z) (hz : 2 ^ 32 ≤ z.natAbs) (hahead : c.ahead = ns ++ rest) :
    ∃ e span c', outcome arrayLength c = (.error ⟨.literal e, span⟩, c') := by
  cases h with
  | @plain t n hkind hnumeral =>
    obtain ⟨e, he⟩ := (parse_of_numeral hnumeral).2 (by omega)
    have htakes : c.Takes t ⟨t, rest⟩ := Cursor.takes_of_ahead hahead
    obtain rfl := htakes.peek
    have hsign : c.peek.kind ≠ .minus := by
      rw [hkind]
      decide
    refine ⟨e, c.peek.span, ⟨c.peek, rest⟩, ?_⟩
    rw [arrayLength, (Reads.refused hsign).outcome_bind, Reads.peek.outcome_bind, if_pos hkind,
      (htakes.advance hkind (by decide)).outcome_bind, he]
    rfl
  | @negative minus t n hminus hkind hnumeral =>
    obtain ⟨e, he⟩ := (parse_of_numeral hnumeral).2 (by omega)
    replace hahead : c.ahead = minus :: t :: rest := hahead
    have htakes : Cursor.Takes ⟨minus, t :: rest⟩ t ⟨t, rest⟩ := Cursor.takes_cons
    refine ⟨e, t.span, ⟨t, rest⟩, ?_⟩
    rw [arrayLength, ((Cursor.takes_of_ahead hahead).accept hminus (by decide)).outcome_bind, Reads.peek.outcome_bind,
      htakes.peek, if_pos hkind, (htakes.advance hkind (by decide)).outcome_bind, he]
    rfl

/-- What the loop over the lengths comes to on a type read so far. -/
theorem outcome_arraySuffixes (h : WrittenLengths us zs) (hrest : firstKind rest ≠ .leftBracket) (start : Position)
    {n : Nat} (hn : us.length ≤ n) (ty : TyExpr) (hahead : c.ahead = us ++ rest) :
    ((∃ z ∈ zs, 2 ^ 32 ≤ z.natAbs) →
      ∃ e span c', outcome (arraySuffixes start n ty) c = (.error ⟨.literal e, span⟩, c')) ∧
    ((∀ z ∈ zs, z.natAbs < 2 ^ 32) →
      ∃ ty' c', Reads (arraySuffixes start n ty) c ty' c' ∧ c'.ahead = rest ∧ ty'.root = ty.root ∧
        ty'.lengths = ty.lengths ++ zs.map takenLength) := by
  induction h generalizing n ty c with
  | nil =>
    constructor
    · rintro ⟨_, hz, -⟩
      cases hz
    · refine fun _ => ⟨ty, c, ?_, hahead, rfl, (append_nil _).symm⟩
      cases n with
      | zero => exact .pure
      | succ n =>
        have hstop : c.peek.kind ≠ .leftBracket := by
          rw [Cursor.kind_peek, hahead]
          exact hrest
        exact (Reads.refused hstop).bind (.no Bool.false_ne_true .pure)
  | @cons opening closing ns us z zs hopening hlen hclosing hus ih =>
    obtain ⟨n, rfl⟩ : ∃ k, n = k + 1 := ⟨n - 1, by simp at hn; omega⟩
    have hfirst : c.Takes opening ⟨opening, ns ++ closing :: (us ++ rest)⟩ :=
      Cursor.takes_of_ahead (by simpa using hahead)
    have hopen := hfirst.accept hopening (by decide)
    by_cases hz : z.natAbs < 2 ^ 32
    · obtain ⟨len, c₁, hread, hc₁, rfl⟩ := accepts_arrayLength (arrayLength_of_written hlen hz)
        (c := ⟨opening, ns ++ closing :: (us ++ rest)⟩) rfl trivial
      have hclose := (Cursor.takes_of_ahead hc₁).expect hclosing (by decide)
      have hturn : outcome (arraySuffixes start (n + 1) ty) c =
          outcome (arraySuffixes start n (.array ty (takenLength z) ⟨start, closing.span.stop⟩)) ⟨closing, us ++ rest⟩ := by
        rw [arraySuffixes, hopen.outcome_bind, if_pos rfl, hread.outcome_bind, hclose.outcome_bind,
          Reads.spanFrom.outcome_bind]
      obtain ⟨hlarge, hsmall⟩ := ih (n := n) (by simp at hn; omega) (.array ty (takenLength z) ⟨start, closing.span.stop⟩)
        (c := ⟨closing, us ++ rest⟩) rfl
      simp only [Reads, hturn] at hsmall ⊢
      refine ⟨fun hbad => hlarge ?_, fun hall => ?_⟩
      · obtain ⟨z', hmem, hz'⟩ := hbad
        rcases mem_cons.1 hmem with rfl | hmem
        · omega
        · exact ⟨z', hmem, hz'⟩
      · obtain ⟨ty', c', hreads, hc', hroot, hlengths⟩ := hsmall fun z' hz' => hall z' (mem_cons_of_mem _ hz')
        refine ⟨ty', c', hreads, hc', hroot, ?_⟩
        rw [hlengths, TyExpr.lengths, append_assoc]
        rfl
    · refine ⟨fun _ => ?_, fun hall => absurd (hall z (mem_cons_self ..)) hz⟩
      obtain ⟨e, span, c', he⟩ := outcome_arrayLength_of_large (c := ⟨opening, ns ++ closing :: (us ++ rest)⟩) hlen
        (Nat.not_lt.1 hz) rfl
      refine ⟨e, span, c', ?_⟩
      rw [arraySuffixes, hopen.outcome_bind, if_pos rfl, Parser.outcome_bind, he]

/-- The type that a single token names. -/
def namedTy (t : Token) : TyExpr :=
  if t.kind = .tyKeyword then .keyword (keywordTy t) t.span else .named t.lexeme t.span

theorem outcome_tyExpr {base : Token} (hbase : base.kind = .tyKeyword ∨ base.kind = .ident)
    (hahead : c.ahead = base :: us) :
    outcome tyExpr c = outcome (arraySuffixes base.start us.length (namedTy base)) ⟨base, us⟩ := by
  have htakes := Cursor.takes_of_ahead hahead
  obtain rfl := htakes.peek
  unfold tyExpr namedTy
  rw [Reads.peek.outcome_bind]
  rcases hbase with hkind | hkind <;>
    simp only [hkind, pure_bind] <;>
    rw [(htakes.advance hkind (by decide)).outcome_bind, Reads.remaining.outcome_bind] <;> rfl

end Reading

/-- **Lengths of arrays.** Behind a type, a written length of 33 bits or more is a malformed literal. Otherwise the type is
read, and checking it refuses the array unless every length stands between `1` and `2 ^ 31 - 1` or between `-(2 ^ 32 - 1)`
and `-2 ^ 31`; then it means the array of the written lengths, each of the negative ones greater by `2 ^ 32`. -/
theorem written_lengths_taken {c : Cursor} {base : Token} {us rest : List Token} {zs : List Int}
    (hbase : base.kind = .tyKeyword ∨ base.kind = .ident) (hlengths : WrittenLengths us zs)
    (hahead : c.ahead = base :: (us ++ rest)) (hrest : firstKind rest ≠ .leftBracket) :
    ((∃ z ∈ zs, 2 ^ 32 ≤ z.natAbs) → ∃ e span c', outcome tyExpr c = (.error ⟨.literal e, span⟩, c')) ∧
    ((∀ z ∈ zs, z.natAbs < 2 ^ 32) → ∃ ty c', Reads tyExpr c ty c' ∧ c'.ahead = rest ∧
      ∀ (ctx : Context) (s : Expansion),
        ((∃ z ∈ zs, ¬ IsLength z) → ∃ len span,
          (Check.tyExpr ctx ty).outcome s = (.error (.refused ⟨.badArrayLength len, span⟩), s)) ∧
        ((∀ z ∈ zs, IsLength z) → ∀ r s', Check.Gives (Check.tyExpr ctx ty) s r s' ↔
          ∃ elem, Check.Gives (Check.tyExpr ctx (namedTy base)) s elem s' ∧
            r = (zs.map fun z => if z < 0 then z + 2 ^ 32 else z).foldl Ty.array elem)) := by
  have hroot : (namedTy base).root = namedTy base ∧ (namedTy base).lengths = [] := by
    unfold namedTy
    split <;> exact ⟨rfl, rfl⟩
  obtain ⟨hlarge, hsmall⟩ := outcome_arraySuffixes (c := ⟨base, us ++ rest⟩) hlengths hrest base.start
    (n := (us ++ rest).length) (by simp) (namedTy base) rfl
  simp only [Reads, ← outcome_tyExpr hbase hahead] at hlarge hsmall
  refine ⟨hlarge, fun hall => ?_⟩
  obtain ⟨ty, c', hreads, hc', htyroot, hty⟩ := hsmall hall
  rw [hroot.1] at htyroot
  rw [hroot.2, nil_append] at hty
  refine ⟨ty, c', hreads, hc', fun ctx s => ⟨?_, fun hgood r s' => ?_⟩⟩
  · rintro ⟨z, hz, hbad⟩
    have hlen : takenLength z ≤ 0 := Int.not_lt.1 fun hpos => hbad ((takenLength_pos (hall z hz)).1 hpos)
    have hbad : ∃ len ∈ ty.lengths, len ≤ 0 := ⟨takenLength z, hty ▸ mem_map_of_mem hz, hlen⟩
    obtain ⟨len, -, -, span, hrefused⟩ := Check.outcome_tyExpr_of_bad ctx s hbad
    exact ⟨len, span, hrefused⟩
  · have hpos : ∀ len ∈ ty.lengths, 0 < len := by
      rw [hty]
      intro len hlen
      obtain ⟨z, hz, rfl⟩ := mem_map.1 hlen
      exact (takenLength_pos (hall z hz)).2 (hgood z hz)
    rw [Check.gives_tyExpr_of_good hpos, htyroot, hty, map_congr_left fun z hz => takenLength_eq (hgood z hz)]

/-- An array of eight, written in base eight. -/
theorem octal_length_taken :
    let token (k : Token.Kind) (lexeme : String) : Token := ⟨k, lexeme, .first⟩
    let us := [token .leftBracket "[", token .intLiteral "010", token .rightBracket "]"]
    ∃ ty c', Reads tyExpr ⟨endToken, token .tyKeyword "float" :: (us ++ [endToken])⟩ ty c' ∧ c'.ahead = [endToken] ∧
      ∀ (ctx : Context) (s : Expansion), Check.Gives (Check.tyExpr ctx ty) s (.array .float 8) s := by
  intro token us
  have hvalue : digitsValue 8 ['1', '0'] = 8 := by decide +kernel
  have hnumeral : IntNumeral "010".toList 8 :=
    hvalue ▸ .octal (forall_mem_cons.2 ⟨by decide, forall_mem_singleton.2 (by decide)⟩)
  have hlength : WrittenLength [token .intLiteral "010"] (8 : Nat) := .plain rfl hnumeral
  obtain ⟨-, hreads⟩ := written_lengths_taken (c := ⟨endToken, token .tyKeyword "float" :: (us ++ [endToken])⟩) (.inl rfl)
    (.cons rfl hlength rfl .nil) rfl (by decide)
  obtain ⟨ty, c', hread, hc', hcheck⟩ := hreads (by decide)
  exact ⟨ty, c', hread, hc', fun ctx s => ((hcheck ctx s).2 (by decide) _ _).2 ⟨.float, rfl, rfl⟩⟩

/-- The greatest literal behind a minus sign makes an array of one element. -/
theorem negative_length_accepted :
    let src := Source.ofString <| "uniform u: float[-4294967295];\nfn vertex() -> vec4 \x7b return vec4(u[0]); \x7d\n" ++
      "fn fragment() -> vec4 \x7b return vec4(1); \x7d"
    ∃ c events, compile {} [] src = (.ok c, events) ∧
      c.interface.blocks = [⟨"default", [("u", .array .float 1)]⟩] := by
  intro src
  obtain ⟨-, p, events, -, -, hrun, hblocks⟩ := compile_of_parse
    (show (parse src).toOption.any (fun decls =>
      (Program.check (Builtin.defaults ++ []) (Glsl.dialect {}).sharesDecls decls).1.toOption.any fun p =>
        p.interface.blocks == [⟨"default", [("u", .array .float 1)]⟩]) = true by decide +kernel)
  exact ⟨_, events, hrun, beq_iff_eq.1 hblocks⟩

end Parser

end Shading
