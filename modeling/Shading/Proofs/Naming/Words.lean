import Shading.Proofs.Grammar.Shaders
import Shading.Proofs.NormalForm.Legibility
import Shading.Proofs.Scoping.Sites

/-!
# The names of a shader are words of its text

Whatever a declaration of a shader names, itself, a member, a parameter or a local variable, is an identifier among
the tokens that the declaration is read from. So what a shader that was read from a text names are names that the
lexer can produce.
-/

namespace Shading

open List

/-- Everything that a declaration names: itself, its block, its members, or its parameters and local variables. -/
def Decl.names : Decl → List Ident
  | .attributeVar v | .varyingVar v => [v.name]
  | .uniformVar v block => v.name :: block.toList
  | .struct d => d.name :: d.members.map TypedName.name
  | .fn d => d.name :: d.sites.map Prod.snd

theorem map_snd_paramSites (number : Nat) (xs : List Ident) : (paramSites number xs).map Prod.snd = xs := by
  induction xs generalizing number with
  | nil => rfl
  | cons x xs ih => rw [paramSites, map_cons, ih]

namespace Grammar

/-- The name is an identifier among the tokens. -/
def HasWord (ts : List Token) (x : Ident) : Prop := ∃ t ∈ ts, IsWord x t

theorem HasWord.mono {ts us : List Token} {x : Ident} (h : HasWord us x) (hsub : us ⊆ ts) : HasWord ts x := by
  obtain ⟨t, ht, hword⟩ := h
  exact ⟨t, hsub ht, hword⟩

theorem HasWord.of_mem {ts : List Token} {t : Token} (hkind : t.kind = .ident) (ht : t ∈ ts) : HasWord ts t.lexeme :=
  ⟨t, ht, hkind, rfl⟩

theorem hasWord_of_annotated {ts : List Token} {v : TypedName} (h : Annotated ts v) : HasWord ts v.name := by
  cases h with
  | mk hname => exact .of_mem hname (by simp)

theorem hasWord_of_typedNames {ts : List Token} {vs : List TypedName}
    (h : Items Annotated ts (vs.map TypedName.bare)) : ∀ x ∈ vs.map TypedName.name, HasWord ts x := by
  intro x hx
  obtain ⟨v, hv, rfl⟩ := mem_map.1 hx
  obtain ⟨us, hus, hannotated⟩ := h.forall_mem v.bare (mem_map_of_mem hv)
  exact (hasWord_of_annotated hannotated).mono hus

section Statements

variable {ts : List Token} {path : List Nat}

theorem hasWord_of_sequence {sts : List Stmt}
    (ih : ∀ st ∈ sts, ∀ {ts path}, Statement ts st.bare → ∀ e ∈ st.sites path, HasWord ts e.2) {number : Nat}
    (h : Sequence Statement ts (sts.map Stmt.bare)) : ∀ e ∈ Stmt.sitesAll path number sts, HasWord ts e.2 := by
  induction sts generalizing number ts with
  | nil =>
    rw [Stmt.sitesAll]
    exact forall_mem_nil _
  | cons st sts ihsts =>
    intro e he
    rw [Stmt.sitesAll] at he
    cases h with
    | cons hst hsts =>
      rcases mem_append.1 he with he | he
      · exact (ih st (.head _) hst e he).mono (subset_append_left _ _)
      · exact (ihsts (fun st hst => ih st (.tail _ hst)) hsts e he).mono (subset_append_right _ _)

theorem hasWord_of_braced {b : Block}
    (ih : ∀ st ∈ b.stmts, ∀ {ts path}, Statement ts st.bare → ∀ e ∈ st.sites path, HasWord ts e.2)
    (h : Braced ts b.bare) : ∀ e ∈ b.sites path, HasWord ts e.2 := by
  obtain ⟨sts, span⟩ := b
  rw [Block.bare, Stmt.bareAll_eq] at h
  rw [Block.sites]
  cases h with
  | mk _ hsts _ =>
    intro e he
    exact (hasWord_of_sequence ih hsts e he).mono fun t ht => by simp [ht]

theorem hasWord_of_otherwise {no : Option Block}
    (ih : ∀ b, no = some b → ∀ st ∈ b.stmts, ∀ {ts path}, Statement ts st.bare → ∀ e ∈ st.sites path, HasWord ts e.2)
    (h : Otherwise ts (no.map Block.bare)) : ∀ e ∈ Block.sitesElse path no, HasWord ts e.2 := by
  cases no with
  | none =>
    rw [Block.sitesElse]
    exact forall_mem_nil _
  | some b =>
    rw [Option.map_some] at h
    generalize hbare : b.bare = bare at h
    intro e he
    cases h with
    | block _ hb =>
      subst hbare
      exact (hasWord_of_braced (ih b rfl) hb e he).mono (subset_cons_self _ _)
    | chained _ _ hst =>
      obtain ⟨sts, span⟩ := b
      rw [Block.bare, Stmt.bareAll_eq, Block.mk.injEq] at hbare
      have hone := Sequence.cons hst .nil
      rw [← hbare.1, append_nil] at hone
      exact (hasWord_of_sequence (ih _ rfl) hone e he).mono (subset_cons_self _ _)

/-- What a statement declares is spelled by its tokens. -/
theorem hasWord_of_statement {st : Stmt} (h : Statement ts st.bare) : ∀ e ∈ st.sites path, HasWord ts e.2 := by
  induction st generalizing ts path with
  | breakStmt | continueStmt | returnStmt | exprStmt =>
    rw [Stmt.sites]
    exact forall_mem_nil _
  | forStmt x first bound step body span ih =>
    rw [Stmt.sites, forall_mem_cons]
    rw [Stmt.bare] at h
    cases h with
    | forStmt _ hname _ _ _ _ _ hbody =>
      refine ⟨.of_mem hname (by simp), fun e he => ?_⟩
      exact (hasWord_of_braced (fun st hst => ih st hst) hbody e he).mono fun t ht => by simp [ht]
  | ifStmt test yes no span ihyes ihno =>
    rw [Stmt.sites]
    rw [Stmt.bare_ifStmt] at h
    cases h with
    | ifStmt _ _ hyes hno =>
      intro e he
      rcases mem_append.1 he with he | he
      · exact (hasWord_of_braced (fun st hst => ihyes st hst) hyes e he).mono fun t ht => by simp [ht]
      · exact (hasWord_of_otherwise (fun b hb st hst => ihno b hb st hst) hno e he).mono fun t ht => by simp [ht]
  | letStmt x ty init span =>
    rw [Stmt.sites, forall_mem_singleton]
    rw [Stmt.bare] at h
    cases h with
    | letStmt _ hname => exact .of_mem hname (by simp)
  | blockStmt b span ih =>
    rw [Stmt.sites]
    rw [Stmt.bare] at h
    cases h with
    | blockStmt hb => exact hasWord_of_braced (fun st hst => ih st hst) hb

end Statements

/-- What a declaration names is spelled by its tokens. -/
theorem hasWord_of_declaration {ts : List Token} {d : Decl} (h : Declaration ts d.bare) :
    ∀ x ∈ d.names, HasWord ts x := by
  cases d with
  | attributeVar v =>
    rw [Decl.names, forall_mem_singleton]
    rw [Decl.bare] at h
    cases h with
    | attributeVar _ hv => exact (hasWord_of_annotated hv).mono fun t ht => by simp [ht]
  | varyingVar v =>
    rw [Decl.names, forall_mem_singleton]
    rw [Decl.bare] at h
    cases h with
    | varyingVar _ hv => exact (hasWord_of_annotated hv).mono fun t ht => by simp [ht]
  | uniformVar v block =>
    rw [Decl.names, forall_mem_cons]
    rw [Decl.bare] at h
    cases h with
    | uniformVar _ hv hblock =>
      refine ⟨(hasWord_of_annotated hv).mono fun t ht => by simp [ht], fun x hx => ?_⟩
      cases hblock with
      | absent => cases hx
      | present _ hname =>
        obtain rfl := mem_singleton.1 hx
        cases hname with
        | mk hkind => exact .of_mem hkind (by simp)
  | struct d =>
    rw [Decl.names, forall_mem_cons]
    rw [Decl.bare] at h
    obtain ⟨name, members, span⟩ := d
    cases h with
    | struct _ hname _ hmembers =>
      refine ⟨.of_mem hname (by simp), fun x hx => ?_⟩
      exact (hasWord_of_typedNames hmembers x hx).mono fun t ht => by simp [ht]
  | fn d =>
    rw [Decl.names, forall_mem_cons]
    rw [Decl.bare] at h
    obtain ⟨name, params, result, body, span⟩ := d
    cases h with
    | fn _ hname _ hparams _ _ hbody =>
      refine ⟨.of_mem hname (by simp), fun x hx => ?_⟩
      rw [FnDecl.sites, map_append, map_snd_paramSites] at hx
      rcases mem_append.1 hx with hx | hx
      · exact (hasWord_of_typedNames hparams x hx).mono fun t ht => by simp [ht]
      · obtain ⟨e, he, rfl⟩ := mem_map.1 hx
        exact (hasWord_of_braced (fun st _ => hasWord_of_statement) hbody e he).mono fun t ht => by simp [ht]

end Grammar

/-- The declarations of a source text lie over its tokens. -/
theorem spread_of_parse {src : Source} {decls : List Decl} (h : parse src = .ok decls) :
    ∃ ts stop, Token.read src = .ok (ts ++ [stop]) ∧ Grammar.Sequence (fun us d => Spread us (.decl d)) ts decls := by
  unfold parse at h
  split at h
  · rename_i tokens hread
    obtain ⟨ts, q, rfl, hts⟩ := Token.spells_of_readFrom hread
    exact ⟨ts, _, hread, spread_of_parseTokens rfl (fun t ht => (hts t ht).1.ne_eof) h⟩
  · cases h

theorem Grammar.Sequence.of_mem {α : Type} {Part : List Token → α → Prop} {ts : List Token} {as : List α}
    (h : Sequence Part ts as) : ∀ a ∈ as, ∃ us, us <:+: ts ∧ Part us a := by
  induction h with
  | nil => exact forall_mem_nil _
  | @cons us vs a as ha _ ih =>
    refine forall_mem_cons.2 ⟨⟨us, ⟨[], vs, rfl⟩, ha⟩, fun b hb => ?_⟩
    obtain ⟨ws, hws, hb⟩ := ih b hb
    exact ⟨ws, hws.trans (suffix_append us vs).isInfix, hb⟩

/-- The declarations of a source text follow the grammar. -/
theorem declaration_of_parse {src : Source} {decls : List Decl} (h : parse src = .ok decls) :
    ∃ tokens, Token.read src = .ok tokens ∧ ∀ d ∈ decls, ∃ us, us ⊆ tokens ∧ Grammar.Declaration us d.bare := by
  obtain ⟨ts, stop, hread, hdecls⟩ := spread_of_parse h
  refine ⟨_, hread, fun d hd => ?_⟩
  obtain ⟨us, hus, hspread⟩ := hdecls.of_mem d hd
  exact ⟨us, List.Subset.trans hus.subset (subset_append_left _ _), hspread.spelledBy⟩

/-- What the declarations of a source text name are names that the lexer can produce. -/
theorem isName_of_parse {src : Source} {decls : List Decl} (h : parse src = .ok decls) :
    ∀ d ∈ decls, ∀ x ∈ d.names, Token.IsName x := by
  obtain ⟨tokens, hread, hdecls⟩ := declaration_of_parse h
  intro d hd x hx
  obtain ⟨us, hus, hdeclared⟩ := hdecls d hd
  obtain ⟨t, ht, hkind, rfl⟩ := Grammar.hasWord_of_declaration hdeclared x hx
  exact Token.isName_of_readFrom hread t (hus ht) hkind

end Shading
