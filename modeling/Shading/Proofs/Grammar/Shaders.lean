import Shading.Proofs.Grammar.Completeness

/-!
# Whole shaders are read exactly

Statements, blocks and declarations are read as the grammar derives them. A block is nested no deeper than it has
tokens, which bounds the count of `blockAt`; a chain of `else if` is no longer than its tokens, which bounds that of
`ifStmt`. The main result, `parseTokens_iff_shader`, puts this together with the other direction: reading succeeds
exactly on the token lists that spell a shader, and what it reads is the one tree that they spell.
-/

namespace Shading

namespace Parser

open List Grammar

/-! ## Statements -/

variable {ts : List Token} {b : Block} {stop : Token} {n : Nat} {c : Cursor} {d : Decl}

theorem firstKind_of_braced (h : Braced ts b) (rest : List Token) :
    firstKind (ts ++ rest) = .leftBrace := by
  cases h with
  | mk hopening => exact hopening

section Statements

variable {block : Parser Block}

variable {word : Token} {s : Stmt}

theorem accepts_letStmt {name : Token} {is : List Token} {ty : Option TyExpr} {init : Option Expr}
    (hword : word.kind = .letWord) (hname : name.kind = .ident) (hty : Announced (·.kind = .colon) TypeExpr ts ty)
    (hinit : Announced (·.kind = .equal) (Expression .assignment) is init) (hstop : stop.kind = .semicolon) :
    Accepts letStmt (fun _ => True) Stmt.bare (word :: name :: (ts ++ (is ++ [stop])))
      (.letStmt name.lexeme ty init .unset) := by
  intro c rest hahead _
  simp only [cons_append, append_assoc, nil_append] at hahead
  have hends : firstKind (is ++ stop :: rest) ≠ .leftBracket ∧ firstKind (is ++ stop :: rest) ≠ .colon := by
    cases hinit with
    | absent => rw [nil_append, firstKind_cons, hstop]; decide
    | present hequal _ => rw [cons_append, firstKind_cons, hequal]; decide
  refine Gets.advance hahead hword (by decide) (.ident rfl hname ?_)
  refine (accepts_announcedKind (by decide) (hty.imp fun _ _ => accepts_tyExpr)).next rfl hends fun ty c hc hty => ?_
  refine (accepts_announcedKind (by decide) (hinit.imp fun _ _ => accepts_expression)).next hc
    ⟨.at hstop (.of_none rfl), by rw [firstKind_cons, hstop]; decide⟩ fun init c hc hinit => ?_
  exact .expect hc hstop (by decide) (.spanFrom (.pure ⟨rfl, hty ▸ hinit ▸ rfl⟩))

theorem accepts_returnValue {vs : List Token} {value : Expr} (hword : word.kind = .returnWord)
    (hvalue : Expression .assignment vs value) (hstop : stop.kind = .semicolon) :
    Accepts returnStmt (fun _ => True) Stmt.bare (word :: (vs ++ [stop])) (.returnStmt (some value) .unset) := by
  intro c rest hahead _
  simp only [cons_append, append_assoc, nil_append] at hahead
  obtain ⟨t, us, rfl, hstart, -⟩ := hvalue.starts
  have hpeek : t.kind ≠ .semicolon := by
    intro h
    rw [h] at hstart
    cases hstart
  refine Gets.advance hahead hword (by decide) (.peek rfl (.no hpeek ?_))
  rw [← bind_pure_comp, bind_assoc]
  refine (accepts_expression hvalue).next rfl (.at hstop (.of_none rfl)) fun value c hc hvalue => ?_
  exact .read .pure (.expect hc hstop (by decide) (.spanFrom (.pure ⟨rfl, hvalue ▸ rfl⟩)))

theorem accepts_forStmt {name fromWord toWord : Token} {fs bs ss : List Token} {first bound : Expr}
    {step : Option Expr} {body : Block} (hword : word.kind = .forWord) (hname : name.kind = .ident)
    (hfrom : IsWord "from" fromWord) (hfirst : Expression .assignment fs first) (hto : IsWord "to" toWord)
    (hbound : Expression .assignment bs bound) (hstep : Announced (IsWord "step") (Expression .assignment) ss step)
    (hbody : Braced ts body) (hblock : Accepts block (fun _ => True) Block.bare ts body) :
    Accepts (forStmt block) (fun _ => True) Stmt.bare
      (word :: name :: fromWord :: (fs ++ toWord :: (bs ++ (ss ++ ts))))
      (.forStmt name.lexeme first bound step body .unset) := by
  intro c rest hahead _
  simp only [cons_append, append_assoc] at hahead
  have hbehind : Ends .assignment (firstKind (ss ++ (ts ++ rest))) := by
    refine Ends.of_none ?_
    cases hstep with
    | absent => rw [nil_append, firstKind_of_braced hbody]; rfl
    | present hword _ => rw [cons_append, firstKind_cons, hword.1]; rfl
  have hbrace : Ends .assignment (firstKind (ts ++ rest)) ∧ firstKind (ts ++ rest) ≠ .ident := by
    rw [firstKind_of_braced hbody]
    exact ⟨Ends.of_none rfl, by decide⟩
  refine Gets.advance hahead hword (by decide) (.ident rfl hname (.expectWord rfl hfrom ?_))
  refine (accepts_expression hfirst).next rfl (.at hto.1 (.of_none rfl)) fun first c hc hfirst => ?_
  refine .expectWord hc hto ((accepts_expression hbound).next rfl hbehind fun bound c hc hbound => ?_)
  refine (accepts_announcedWord (hstep.imp fun _ _ => accepts_expression)).next hc hbrace fun step c hc hstep => ?_
  refine hblock.next hc trivial fun body c hc hbody => .spanFrom (.pure ⟨hc, ?_⟩)
  rw [← hfirst, ← hbound, ← hstep, ← hbody]
  rfl

/-- A statement that starts with `if` comes from the rule for it. -/
theorem exists_ifStmt (hword : word.kind = .ifWord) (h : Statement (word :: ts) s) :
    ∃ cs ys ns test yes no, ts = cs ++ (ys ++ ns) ∧ s = .ifStmt test yes no .unset ∧
      Expression .assignment cs test ∧ Braced ys yes ∧ Otherwise ns no := by
  generalize hts : word :: ts = us at h
  cases h with
  | ifStmt _ htest hyes hno =>
    cases hts
    exact ⟨_, _, _, _, _, _, rfl, rfl, htest, hyes, hno⟩
  | breakStmt h | continueStmt h | forStmt h | letStmt h | returnStmt h | returnValue h =>
    cases hts
    cases hword.symm.trans h
  | blockStmt h =>
    cases h with
    | mk h =>
      cases hts
      cases hword.symm.trans h
  | exprStmt h =>
    obtain ⟨t, vs, rfl, hstart, -⟩ := h.starts
    cases hts
    rw [hword] at hstart
    cases hstart

theorem accepts_ifStmt
    (hblock : ∀ us b, us.length ≤ ts.length → Braced us b → Accepts block (fun _ => True) Block.bare us b)
    (hword : word.kind = .ifWord) (h : Statement (word :: ts) s) (hn : ts.length < n) :
    Accepts (ifStmt block n) (· ≠ .elseWord) Stmt.bare (word :: ts) s := by
  induction n generalizing word ts s with
  | zero => omega
  | succ n ih =>
    obtain ⟨cs, ys, ns, test, yes, no, rfl, rfl, htest, hyes, hno⟩ := exists_ifStmt hword h
    have helse : Announced (·.kind = .elseWord) (Accepts (do
        if (← peek).kind = .ifWord then
          let nested ← ifStmt block n
          return Block.mk [nested] nested.span
        else block) (· ≠ .elseWord) Block.bare) ns no := by
      cases hno with
      | absent => exact .absent
      | @block word ts b hword hb =>
        refine .present hword fun c rest hahead _ => Gets.read .peek (.no ?_ (hblock ts b (by simp; omega) hb hahead trivial))
        rw [Cursor.kind_peek, hahead, firstKind_of_braced hb]
        decide
      | @chained word again ts s hword hagain hs =>
        refine .present hword fun c rest hahead hrest => Gets.peek hahead (.yes hagain ?_)
        have hnested := ih (fun us b hus => hblock us b (by simp; omega)) hagain hs (by simp at hn; omega)
        exact hnested.next hahead hrest fun s c hc hs => .pure ⟨hc, hs ▸ rfl⟩
    intro c rest hahead hrest
    simp only [cons_append, append_assoc] at hahead
    refine Gets.advance hahead hword (by decide) ?_
    refine (accepts_expression htest).next rfl (.of_none (by rw [firstKind_of_braced hyes]; rfl)) fun test c hc htest => ?_
    refine (hblock ys yes (by simp; omega) hyes).next hc trivial fun yes c hc hyes => ?_
    refine (accepts_announcedKind (by decide) helse).next hc ⟨hrest, hrest⟩ fun no c hc hno => .spanFrom (.pure ⟨hc, ?_⟩)
    rw [← htest, ← hyes, ← hno, Stmt.bare_ifStmt]

theorem accepts_statement
    (hblock : ∀ us b, us.length ≤ ts.length → Braced us b → Accepts block (fun _ => True) Block.bare us b)
    (h : Statement ts s) : Accepts (statement block) (· ≠ .elseWord) Stmt.bare ts s := by
  intro c rest hahead hrest
  cases h with
  | breakStmt hword hstop | continueStmt hword hstop =>
    refine Gets.peek hahead ?_
    simp only [hword]
    exact .advance hahead hword (by decide) (.expect rfl hstop (by decide) (.spanFrom (.pure ⟨rfl, rfl⟩)))
  | @forStmt word name fromWord toWord fs bs ss ts first bound step body hword hname hfrom hfirst hto hbound hstep hbody =>
    refine Gets.peek hahead ?_
    simp only [hword]
    have hread := hblock ts body (by simp; omega) hbody
    exact accepts_forStmt hword hname hfrom hfirst hto hbound hstep hbody hread hahead trivial
  | @ifStmt word cs ys ns test yes no hword htest hyes hno =>
    refine Gets.peek hahead ?_
    simp only [hword]
    exact .remaining (accepts_ifStmt (fun us b hus => hblock us b (by simp at hus ⊢; omega)) hword
      (.ifStmt hword htest hyes hno) (by simp only [hahead, length_append, length_cons]; omega) hahead hrest)
  | letStmt hword hname hty hinit hstop =>
    refine Gets.peek hahead ?_
    simp only [hword]
    exact accepts_letStmt hword hname hty hinit hstop hahead trivial
  | returnStmt hword hstop =>
    refine Gets.peek hahead ?_
    simp only [hword]
    exact .advance hahead hword (by decide) (.peek rfl (.yes hstop (.read .pure
      (.expect rfl hstop (by decide) (.spanFrom (.pure ⟨rfl, rfl⟩))))))
  | returnValue hword hvalue hstop =>
    refine Gets.peek hahead ?_
    simp only [hword]
    exact accepts_returnValue hword hvalue hstop hahead trivial
  | @blockStmt ts b hb =>
    have hpeek : c.peek.kind = .leftBrace := by
      rw [Cursor.kind_peek, hahead, firstKind_of_braced hb]
    refine Gets.read .peek ?_
    simp only [hpeek]
    exact (hblock ts b Nat.le.refl hb).next hahead trivial fun b c hc hb => .pure ⟨hc, hb ▸ rfl⟩
  | @exprStmt ts stop e he hstop =>
    rw [append_assoc] at hahead
    have hread {start : Position} : Gets (do
        let e ← expression
        expect .semicolon
        return Stmt.exprStmt e (← spanFrom start)) c fun s c' => c'.ahead = rest ∧ s.bare = .exprStmt e .unset :=
      (accepts_expression he).next hahead (.at hstop (.of_none rfl)) fun e c hc he =>
        .expect hc hstop (by decide) (.spanFrom (.pure ⟨rfl, he ▸ rfl⟩))
    obtain ⟨t, us, rfl, hstart, -⟩ := he.starts
    refine Gets.peek hahead ?_
    -- No keyword of a statement starts an expression.
    split <;> rename_i hkind
    case h_8 => exact hread
    all_goals
      rw [hkind] at hstart
      cases hstart

end Statements

theorem accepts_statements {stmt : Parser Stmt} {ss : List Stmt}
    (h : Sequence (fun us s => Accepts stmt (· ≠ .elseWord) Stmt.bare us s ∧ Statement us s) ts ss)
    (hn : ts.length ≤ n) : Accepts (statements stmt n) (· = .rightBrace) (List.map Stmt.bare) ts ss := by
  induction h generalizing n with
  | nil =>
    intro c rest hahead hrest
    refine ⟨[], c, ?_, hahead, rfl⟩
    cases n with
    | zero => exact .pure
    | succ n =>
      have hpeek : c.peek.kind = .rightBrace := by
        rw [Cursor.kind_peek, hahead]
        exact hrest
      exact Reads.peek.bind (.yes (.inl hpeek) .pure)
  | @cons ts us s ss h hss ih =>
    intro c rest hahead hrest
    obtain ⟨haccepts, hs⟩ := h
    obtain ⟨t, ts, rfl, hstart⟩ := hs.starts
    obtain ⟨n, rfl⟩ : ∃ j, n = j + 1 := ⟨n - 1, by simp at hn; omega⟩
    rw [append_assoc] at hahead
    -- What comes next is another statement or the brace.
    have hnext : firstKind (us ++ rest) ≠ .elseWord := by
      cases hss with
      | nil =>
        rw [nil_append, hrest]
        decide
      | cons h _ =>
        obtain ⟨t', vs, rfl, hstart'⟩ := h.2.starts
        intro hkind
        change t'.kind = _ at hkind
        rw [hkind] at hstart'
        cases hstart'
    have hpeek : ¬ (t.kind = .rightBrace ∨ t.kind = .eof) := by
      rintro (hkind | hkind) <;> rw [hkind] at hstart <;> cases hstart
    refine Gets.peek hahead (.no hpeek (haccepts.next hahead hnext fun s c hc hs => ?_))
    exact (ih (by simp at hn; omega)).next hc hrest fun ss c hc hss => .pure ⟨hc, hs ▸ hss ▸ rfl⟩

theorem accepts_blockAt (h : Braced ts b) (hn : ts.length ≤ n) :
    Accepts (blockAt n) (fun _ => True) Block.bare ts b := by
  induction n generalizing ts b with
  | zero =>
    cases h with
    | mk => simp at hn
  | succ n ih =>
    intro c rest hahead _
    cases h with
    | @mk opening closing ts ss hopening hss hclosing =>
      simp only [cons_append, append_assoc, nil_append] at hahead
      simp only [length_cons, length_append, length_nil] at hn
      have haccepts : Sequence (fun us s => Accepts (statement (blockAt n)) (· ≠ .elseWord) Stmt.bare us s ∧
          Statement us s) ts ss :=
        hss.imp fun us s hus hs => ⟨accepts_statement (fun vs b hvs hb => ih hb (by omega)) hs, hs⟩
      refine Gets.peek hahead (.expect hahead hopening (by decide) (.remaining ?_))
      refine (accepts_statements haccepts (by simp)).next rfl hclosing fun ss c hc hss => ?_
      refine .expect hc hclosing (by decide) (.spanFrom (.pure ⟨rfl, ?_⟩))
      rw [Block.bare, Stmt.bareAll_eq, hss]

theorem accepts_block (h : Braced ts b) :
    Accepts block (fun _ => True) Block.bare ts b := by
  intro c rest hahead hrest
  exact Gets.remaining (accepts_blockAt h (by simp [hahead]) hahead hrest)

/-! ## Declarations -/

theorem accepts_declared {v : TypedName} (h : Annotated ts v) :
    Accepts declared (· ≠ .leftBracket) (fun p => (⟨p.1, p.2.bare, .unset⟩ : TypedName)) ts v := by
  intro c rest hahead hrest
  exact (accepts_typedName h).next hahead hrest fun v c hc hv => .pure ⟨hc, hv⟩

/-- Members and parameters stand between the tokens that enclose them. -/
theorem accepts_typedNames {vs : List TypedName} {close : Token.Kind} (h : Items Annotated ts vs)
    (hclose : close = .rightBrace ∨ close = .rightParen) (hn : ts.length ≤ n) :
    Accepts (items typedName close n) (· = close) (List.map TypedName.bare) ts vs := by
  have hitems : Items (fun us v => Accepts typedName (· ≠ .leftBracket) TypedName.bare us v ∧ us ≠ [] ∧
      firstKind us ≠ close ∧ firstKind us ≠ .eof) ts vs := by
    refine h.imp fun us v _ hv => ⟨accepts_typedName hv, ?_⟩
    cases hv with
    | mk hname =>
      rw [firstKind_cons, hname]
      rcases hclose with rfl | rfl <;> exact ⟨cons_ne_nil _ _, by decide, by decide⟩
  refine accepts_items ?_ (by decide) ?_ hitems hn <;> rcases hclose with rfl | rfl <;> decide

theorem accepts_declaration (h : Declaration ts d) :
    Accepts declaration (fun _ => True) Decl.bare ts d := by
  intro c rest hahead _
  cases h with
  | attributeVar hword hv hstop | varyingVar hword hv hstop =>
    simp only [cons_append, append_assoc, nil_append] at hahead
    refine Gets.peek hahead ?_
    simp only [hword]
    refine .advance hahead hword (by decide) ?_
    refine (accepts_declared hv).next rfl (by rw [firstKind_cons, hstop]; decide) fun p c hc hp => ?_
    exact .expect hc hstop (by decide) (.spanFrom (.pure ⟨rfl, hp ▸ rfl⟩))
  | @uniformVar word stop vs bs v owner hword hv howner hstop =>
    simp only [cons_append, append_assoc, nil_append] at hahead
    have hbehind : firstKind (bs ++ stop :: rest) ≠ .leftBracket := by
      cases howner with
      | absent => rw [nil_append, firstKind_cons, hstop]; decide
      | present hin _ => rw [cons_append, firstKind_cons, hin.1]; decide
    have hname : ∀ us x, Name us x → Accepts ident (fun _ => True) id us x := by
      rintro _ _ ⟨hx⟩ c rest hahead _
      exact ⟨_, _, (Cursor.takes_of_ahead hahead).ident hx, rfl, rfl⟩
    refine Gets.peek hahead ?_
    simp only [hword]
    refine .advance hahead hword (by decide) ((accepts_declared hv).next rfl hbehind fun p c hc hp => ?_)
    refine (accepts_announcedWord (howner.imp hname)).next hc ⟨trivial, by rw [firstKind_cons, hstop]; decide⟩
      fun owner c hc howner => .expect hc hstop (by decide) (.spanFrom (.pure ⟨rfl, ?_⟩))
    rw [← hp, ← howner, Option.map_id]
    rfl
  | struct hword hname hopening hmembers hclosing =>
    simp only [cons_append, append_assoc, nil_append] at hahead
    refine Gets.peek hahead ?_
    simp only [hword, structDecl, bind_assoc]
    refine .advance hahead hword (by decide) (.ident rfl hname (.expect rfl hopening (by decide) (.remaining ?_)))
    refine (accepts_typedNames hmembers (.inl rfl) (by simp)).next rfl hclosing fun members c hc hmembers => ?_
    exact .expect hc hclosing (by decide) (.spanFrom (.read .pure (.pure ⟨rfl, hmembers ▸ rfl⟩)))
  | fn hword hname hopening hparams hclosing hresult hbody =>
    simp only [cons_append, append_assoc] at hahead
    refine Gets.peek hahead ?_
    simp only [hword, fnDecl, bind_assoc]
    refine .advance hahead hword (by decide) (.ident rfl hname (.expect rfl hopening (by decide) (.remaining ?_)))
    refine (accepts_typedNames hparams (.inr rfl) (by simp)).next rfl hclosing fun params c hc hparams => ?_
    refine .expect hc hclosing (by decide) ?_
    refine (accepts_announcedKind (by decide) (hresult.imp fun _ _ => accepts_tyExpr)).next rfl
      (by rw [firstKind_of_braced hbody]; decide) fun result c hc hresult => ?_
    refine (accepts_block hbody).next hc trivial fun body c hc hbody => .spanFrom (.read .pure (.pure ⟨hc, ?_⟩))
    rw [← hparams, ← hresult, ← hbody]
    rfl

/-! ## All declarations -/

theorem declarations_of_reads {c₁ : Cursor} (hpeek : c.peek.kind ≠ .eof) (hread : Reads declaration c d c₁)
    (n : Nat) : declarations (n + 1) c = (d :: (declarations n c₁).1, (declarations n c₁).2) := by
  have hrun : ((declaration : Parser Decl).run).run c = (.ok d, c₁) := hread
  rw [declarations, if_neg hpeek, hrun]

theorem declarations_of_shader {tree : List Decl} (hstop : stop.kind = .eof) (h : Shader ts tree)
    (hahead : c.ahead = ts ++ [stop]) (hn : ts.length ≤ n) :
    ∃ ds, declarations n c = (ds, []) ∧ ds.map Decl.bare = tree := by
  induction h generalizing n c with
  | nil =>
    refine ⟨[], ?_, rfl⟩
    cases n with
    | zero => rfl
    | succ n =>
      have hpeek : c.peek.kind = .eof := by
        rw [Cursor.kind_peek, hahead]
        exact hstop
      rw [declarations, if_pos hpeek]
  | @cons ts us d ds hd _ ih =>
    obtain ⟨t, vs, rfl, hstart⟩ := hd.starts
    obtain ⟨n, rfl⟩ : ∃ j, n = j + 1 := ⟨n - 1, by simp at hn; omega⟩
    rw [append_assoc] at hahead
    have hpeek : c.peek.kind ≠ .eof := by
      rw [(Cursor.takes_of_ahead hahead).peek]
      intro hkind
      rw [hkind] at hstart
      cases hstart
    obtain ⟨d, c₁, hread, hc₁, rfl⟩ := accepts_declaration hd hahead trivial
    obtain ⟨ds, hds, rfl⟩ := ih (n := n) hc₁ (by simp at hn; omega)
    exact ⟨d :: ds, by rw [declarations_of_reads hpeek hread, hds], rfl⟩

/-- The tokens of a declaration do not reach behind the last token of a text that is not its end. -/
theorem ahead_of_declaration {us rest : List Token} (hstop : stop.kind = .eof) (hd : Declaration us d)
    (h : ts ++ [stop] = us ++ rest) : ∃ vs, ts = us ++ vs ∧ rest = vs ++ [stop] := by
  obtain ⟨vs, hus, hrest⟩ | ⟨vs, hts, hrest⟩ := append_eq_append_iff.1 h
  · cases vs with
    | nil => exact ⟨[], by simpa using hus.symm, hrest.symm⟩
    | cons v vs =>
      obtain ⟨ws, t, hws, ht⟩ := hd.stops
      obtain ⟨rfl, hvs⟩ := List.cons.inj hrest
      obtain ⟨rfl, -⟩ := append_eq_nil_iff.1 hvs.symm
      obtain ⟨-, hlast⟩ := append_inj' (hus.symm.trans hws) rfl
      obtain rfl := head_eq_of_cons_eq hlast
      rcases ht with ht | ht <;> cases hstop.symm.trans ht
  · exact ⟨vs, hts, hrest⟩

theorem spread_of_declarations (hstop : stop.kind = .eof) (hts : ∀ t ∈ ts, t.kind ≠ .eof)
    (hahead : c.ahead = ts ++ [stop]) (hn : ts.length < n) {ds : List Decl} (h : declarations n c = (ds, [])) :
    Sequence (fun us d => Spread us (.decl d)) ts ds := by
  induction n generalizing c ts ds with
  | zero => omega
  | succ n ih =>
    by_cases hpeek : c.peek.kind = .eof
    · rw [declarations, if_pos hpeek] at h
      cases h
      cases ts with
      | nil => exact .nil
      | cons t ts =>
        rw [Cursor.kind_peek, hahead] at hpeek
        exact absurd hpeek (hts t mem_cons_self)
    · rcases hrun : ((declaration : Parser Decl).run).run c with ⟨_ | d, c₁⟩
      · rw [declarations, if_neg hpeek, hrun] at h
        cases h
      · have hread : Reads declaration c d c₁ := hrun
        obtain ⟨us, hus, hd⟩ := spread_of_reads hread
        obtain ⟨vs, rfl, hvs⟩ := ahead_of_declaration hstop hd.spelledBy (hahead.symm.trans hus)
        obtain ⟨t, ws, rfl⟩ := exists_cons_of_ne_nil hd.ne_nil
        rw [declarations_of_reads hpeek hread] at h
        obtain ⟨rfl, herrors⟩ := Prod.mk.inj h
        have hrest := ih (fun t ht => hts t (mem_append_right _ ht)) hvs (by simp at hn; omega)
          (Prod.ext rfl herrors)
        exact .cons hd hrest

end Parser

open Grammar

/-- The declarations that tokens are read as lie over these tokens. -/
theorem spread_of_parseTokens {ts : List Token} {stop : Token} (hstop : stop.kind = .eof) (hts : ∀ t ∈ ts, t.kind ≠ .eof)
    {ds : List Decl} (h : parseTokens (ts ++ [stop]) = .ok ds) : Sequence (fun us d => Spread us (.decl d)) ts ds := by
  rw [parseTokens] at h
  split at h
  · next hrun =>
    cases h
    exact Parser.spread_of_declarations hstop hts rfl (by simp) hrun
  · cases h

/-- The parser accepts exactly the grammar and builds the tree of the one derivation. Tokens with the end behind them are
read without an error if and only if they spell a shader, and then the declarations read, without their stretches of
source, are what the tokens spell, and nothing else is. -/
theorem parseTokens_iff_shader {ts : List Token} {stop : Token} (hstop : stop.kind = .eof)
    (hts : ∀ t ∈ ts, t.kind ≠ .eof) :
    ((∃ ds, parseTokens (ts ++ [stop]) = .ok ds) ↔ ∃ tree, Shader ts tree) ∧
      ∀ ds, parseTokens (ts ++ [stop]) = .ok ds → ∀ tree, Shader ts tree ↔ tree = ds.map Decl.bare := by
  have hcomplete : ∀ tree, Shader ts tree →
      ∃ ds, parseTokens (ts ++ [stop]) = .ok ds ∧ ds.map Decl.bare = tree := by
    intro tree htree
    obtain ⟨ds, hds, hview⟩ := Parser.declarations_of_shader hstop htree (n := (ts ++ [stop]).length)
      (c := ⟨Parser.endToken, ts ++ [stop]⟩) rfl (by simp)
    exact ⟨ds, by rw [parseTokens, hds], hview⟩
  have hsound : ∀ ds, parseTokens (ts ++ [stop]) = .ok ds → Shader ts (ds.map Decl.bare) := fun ds hds =>
    (spread_of_parseTokens hstop hts hds).spelled fun _ _ h => h
  constructor
  · constructor
    · rintro ⟨ds, hds⟩
      exact ⟨_, hsound ds hds⟩
    · rintro ⟨tree, htree⟩
      obtain ⟨ds, hds, -⟩ := hcomplete tree htree
      exact ⟨ds, hds⟩
  · intro ds hds tree
    constructor
    · intro htree
      obtain ⟨ds', hds', rfl⟩ := hcomplete tree htree
      rw [Except.ok.inj (hds.symm.trans hds')]
    · rintro rfl
      exact hsound ds hds

set_option maxRecDepth 20000 in
/-- Words that the grammar asks for in some places are names elsewhere: here `in` is a uniform and its block, `from`,
`to` and `step` are variables and a function. The differences group to the left, the product binds tighter and takes a
sign, and the assignment takes all that stands to its right. -/
theorem contextual_words_spell_one_shader :
    let t (k : Token.Kind) (s : String) : Token := ⟨k, s, .first⟩
    let x (s : String) : Token := t .ident s
    let word (k : Token.Kind) : Token := t k k.name
    let float := t .tyKeyword "float"
    let ts := [word .uniformWord, x "in", word .colon, float, x "in", x "in", word .semicolon,
      word .fnWord, x "to", word .leftParen, x "step", word .colon, float, word .comma, word .rightParen, word .leftBrace,
      word .forWord, x "from", x "from", x "from", x "to", x "to", x "step", x "step", word .leftBrace,
      x "step", word .equal, x "in", word .minus, x "to", word .minus, x "from", word .star, word .minus, x "in",
      word .semicolon, word .rightBrace, word .rightBrace]
    let name (s : Ident) : Expr := .var s .unset
    let ty : TyExpr := .keyword (.scalar .float) .unset
    let minus (l r : Expr) : Expr := .bin (.arith .sub) l r .unset
    let product : Expr := .bin (.arith .mul) (name "from") (.un .neg (name "in") .unset) .unset
    let loop : Stmt := .forStmt "from" (name "from") (name "to") (some (name "step"))
      (.mk [.exprStmt (.bin .assign (name "step") (minus (minus (name "in") (name "to")) product) .unset) .unset] .unset)
      .unset
    (∀ t ∈ ts, t.kind ≠ .eof) ∧
      ∀ tree, Shader ts tree ↔ tree = [.uniformVar ⟨"in", ty, .unset⟩ (some "in"),
        .fn ⟨"to", [⟨"step", ty, .unset⟩], none, .mk [loop] .unset, .unset⟩] := by
  intro t x word float ts name ty minus product loop
  have hts : ∀ t ∈ ts, t.kind ≠ .eof := by decide
  have hparse : ∃ ds, parseTokens (ts ++ [word .eof]) = .ok ds ∧ ds.map Decl.bare =
      [.uniformVar ⟨"in", ty, .unset⟩ (some "in"),
        .fn ⟨"to", [⟨"step", ty, .unset⟩], none, .mk [loop] .unset, .unset⟩] := ⟨_, rfl, rfl⟩
  obtain ⟨ds, hds, hview⟩ := hparse
  rw [← hview]
  exact ⟨hts, (parseTokens_iff_shader rfl hts).2 ds hds⟩

end Shading
