import Shading.Proofs.Origins
import Shading.Proofs.StageRules

/-!
# Each function has one definition

A function is opened where it is first used, be it by another function or in another stage, and it is checked with what
is open at that time. This makes no difference: what the check comes to depends on the names that it looks up, and these
stand for the same. So both texts define a function alike, and every call passes what the definition takes.
-/

namespace Shading

open List

namespace Check

section Runs

/-- All that is open in the first expansion is open in the second. -/
structure Within (s S : Expansion) : Prop where
  fns : s.fns ⊆ S.fns
  structs : s.structs ⊆ S.structs

theorem frame_within (S : Expansion) : Frame fun s s' => Within s' S → Within s S :=
  ⟨fun _ h => h, fun h₁ h₂ h => h₁ (h₂ h), fun _ _ h => ⟨h.fns, h.structs⟩⟩

/-- Two runs of a step come to the same if the look-ups find the same. -/
theorem Asks.alike {α : Type} {P : Position → Prop} {names : List Ident} {m : Globals → Check α} {g g' : Globals}
    {S T : Expansion} (hm : Asks P names m) (hst : StructsAgree S T)
    (hg : ∀ x span, Keeps (fun s s' => Within s' S → Within s S) (g x span))
    (hg' : ∀ x span, Keeps (fun t t' => Within t' T → Within t T) (g' x span))
    (hfound : ∀ {x span s s' t t' i j}, Gives (g x span) s (some i) s' → Within s' S →
      Gives (g' x span) t (some j) t' → Within t' T → i = j) {s s' t t' : Expansion} {a b : α}
    (h : Gives (m g) s a s') (hs : Within s' S) (h' : Gives (m g') t b t') (ht : Within t' T) : a = b := by
  induction hm generalizing s s' t t' with
  | still hm =>
    have hs₀ := (hm.keeps (frame_within S)).of_gives h hs
    have ht₀ := (hm.keeps (frame_within T)).of_gives h' ht
    exact hm.alike (fun d hd e he => hst d (hs₀.structs hd) e (ht₀.structs he)) h h'
  | refuse => exact (gives_refuse.1 h).elim
  | ask x _ hanswers hf ih =>
    obtain ⟨i, s₁, hx, hrest⟩ := gives_bind.1 h
    obtain ⟨j, t₁, hx', hrest'⟩ := gives_bind.1 h'
    cases i with
    | none => exact absurd hrest hanswers.none
    | some i =>
      cases j with
      | none => exact absurd hrest' hanswers.none
      | some j =>
        have hs₁ := ((hf _).keeps (frame_within S) fun y _ => hg y).of_gives hrest hs
        have ht₁ := ((hf _).keeps (frame_within T) fun y _ => hg' y).of_gives hrest' ht
        obtain rfl := hfound hx hs₁ hx' ht₁
        exact ih _ hrest hs hrest' ht
  | bind hm hf ihm ihf =>
    obtain ⟨a₁, s₁, ha, hrest⟩ := gives_bind.1 h
    obtain ⟨b₁, t₁, hb, hrest'⟩ := gives_bind.1 h'
    have hs₁ := ((hf a₁ ⟨_, _, _, ha⟩).keeps (frame_within S) fun y _ => hg y).of_gives hrest hs
    have ht₁ := ((hf b₁ ⟨_, _, _, hb⟩).keeps (frame_within T) fun y _ => hg' y).of_gives hrest' ht
    obtain rfl := ihm ha hs₁ hb ht₁
    exact ihf a₁ ⟨_, _, _, ha⟩ hrest hs hrest' ht

variable {top : TopLevel} {vars : Scope Var} {S T : Expansion}

theorem keeps_within (n : Nat) (u : Unfinished) (x : Ident) (span : Span) :
    Keeps (fun s s' => Within s' S → Within s S) (globals top vars n u x span) := by
  intro s hs
  have hgrows := (advance_globals top vars n u x span s).1
  exact ⟨fun f hf => hs.fns (hgrows.mem_fns hf), fun d hd => hs.structs (hgrows.mem_structs hd)⟩

/-- A name stands for the same in both expansions, if functions and structs of one name are the same there. -/
theorem found_alike (hfns : ∀ f ∈ S.fns, ∀ g ∈ T.fns, f.name = g.name → f = g) (hst : StructsAgree S T) {n n' : Nat}
    {u u' : Unfinished} {x : Ident} {span : Span} {s s' t t' : Expansion} {i j : Info}
    (h : Gives (globals top vars n u x span) s (some i) s') (hs : Within s' S)
    (h' : Gives (globals top vars n' u' x span) t (some j) t') (ht : Within t' T) : i = j := by
  have hi := found_of_globals h
  have hj := found_of_globals h'
  rcases gives_globals h with ⟨v, hv, rfl, -⟩ | ⟨hv, k, d, f, -, hd, -, rfl⟩ | ⟨hv, hf, k, d, e, -, hd, -, rfl⟩ |
    ⟨hv, hf, hd, overloads, hb, rfl, -⟩ <;>
  rcases gives_globals h' with ⟨v', hv', rfl, -⟩ | ⟨hv', k', d', f', -, hd', -, rfl⟩ |
    ⟨hv', hf', k', d', e', -, hd', -, rfl⟩ | ⟨hv', hf', hd', overloads', hb', rfl, -⟩
  case inl.inl => rw [Option.some.inj (hv.symm.trans hv')]
  case inr.inl.inr.inl => rw [hfns f (hs.fns hi.1) f' (ht.fns hj.1) (hi.2.trans hj.2.symm)]
  case inr.inr.inl.inr.inr.inl => rw [hst e (hs.structs hi.1) e' (ht.structs hj.1) (hi.2.trans hj.2.symm)]
  case inr.inr.inr.inr.inr.inr => rw [Option.some.inj (hb.symm.trans hb')]
  all_goals simp_all

end Runs

section Texts

variable {builtins : Builtins} {shared : Bool} {decls : List Decl} {vars : Scope Var} {S T : Expansion} {p : Program}
  {s' : Expansion}

/-- Functions of one name have been opened to the same. The induction is along the order in which the second
expansion has opened them: when one of its functions was checked, those before it were open. -/
theorem eq_of_fnsOpened (hnames : (decls.map Decl.name).Nodup) (hst : StructsAgree S T)
    (hS : FnsOpened (.ofDecls builtins decls) vars S) (hT : FnsOpened (.ofDecls builtins decls) vars T) :
    ∀ g ∈ T.fns, ∀ f ∈ S.fns, f.name = g.name → f = g := by
  refine InOrder.forall_mem hT ?_
  rintro _ g - ⟨d, hd, n, u, t, t', hg, rfl, hstructs⟩ ih f hf hname
  obtain ⟨before, after, hsplit⟩ := append_of_mem hf
  obtain ⟨e, he, k, v, s, s', hf, hbefore, hstructs'⟩ := hS before f after hsplit
  obtain rfl : e = d := by
    refine Decl.fn.inj (inj_on_of_nodup_map hnames (mem_fns_ofDecls.1 he) (mem_fns_ofDecls.1 hd) ?_)
    exact (name_of_fn hf).symm.trans (hname.trans (name_of_fn hg))
  have hfns : ∀ f ∈ s'.fns, ∀ g ∈ t'.fns, f.name = g.name → f = g := by
    intro f hf g hg
    refine ih g hg f ?_
    rw [hsplit, ← hbefore]
    exact mem_append_left _ hf
  have hagree : StructsAgree s' t' := fun d hd e he => hst d (hstructs' hd) e (hstructs he)
  exact (asks_laxFn (.any (.decl (.fn e)))).alike hagree (keeps_within k v) (keeps_within n u)
    (fun h hs h' ht => found_alike hfns hagree h hs h' ht) (gives_fn_iff.1 hf).1
    ⟨List.Subset.refl _, List.Subset.refl _⟩ (gives_fn_iff.1 hg).1 ⟨List.Subset.refl _, List.Subset.refl _⟩

/-- The functions in the texts are among functions of which no two have one name, and whose calls have the needs of
the functions that are called. -/
theorem definitions_of_program (h : Gives (program builtins shared decls) {} p s') :
    ∃ fns : List FnDef, p.vertex.fns ++ p.fragment.fns ⊆ fns ∧ (∀ f ∈ fns, ∀ g ∈ fns, f.name = g.name → f = g) ∧
      ∀ f ∈ fns, ∀ x deps, Use.fn x deps ∈ f.uses → ∃ g ∈ fns, g.name = x ∧ g.deps = deps := by
  obtain ⟨a, s₁, hv, hsame, hfns, hf, -⟩ := exists_accepted h
  obtain ⟨hvertex, hfragment, hstructs⟩ := fnsOpened_of_parts hv hsame hfns hf
  obtain ⟨s₀, hredefined, -⟩ := gives_vertexPart hv
  have hnames := (nodup_of_firstRedefined? hredefined).1
  have hst : StructsAgree a.vertexEnd a.fragmentEnd := fun d hd e he =>
    inj_on_of_nodup_map a.atFragment.sound.nodup_structs (hstructs hd) he
  have hboth := eq_of_fnsOpened hnames hst hvertex hfragment
  refine ⟨a.vertexEnd.fns ++ a.fragmentEnd.fns, ?_, ?_, ?_⟩
  · exact append_subset.2 ⟨subset_append_of_subset_left _ a.vertexFns,
      subset_append_of_subset_right _ a.fragmentFns⟩
  · intro f hf g hg hname
    rcases mem_append.1 hf with hf | hf <;> rcases mem_append.1 hg with hg | hg
    · exact a.atVertex.sound.fn_unique hf hg hname
    · exact hboth g hg f hf hname
    · exact (hboth f hf g hg hname.symm).symm
    · exact a.atFragment.sound.fn_unique hf hg hname
  · intro f hf x deps huse
    rcases mem_append.1 hf with hf | hf
    · obtain ⟨g, hg, hcalled⟩ := a.atVertex.sound.of_mem_fns hf _ huse
      exact ⟨g, mem_append_left _ hg, hcalled⟩
    · obtain ⟨g, hg, hcalled⟩ := a.atFragment.sound.of_mem_fns hf _ huse
      exact ⟨g, mem_append_right _ hg, hcalled⟩

/-- A function that is called in the text of a stage is among its declarations. -/
theorem Accepted.declares_calls {top : TopLevel} (a : Accepted top shared p) (stage : Stage) {f : FnDef}
    (hf : .fn f ∈ p.itemsFor shared stage) {x : Ident} {deps : Deps} (huse : Use.fn x deps ∈ f.uses) :
    ∃ g, .fn g ∈ p.itemsFor shared stage ∧ g.name = x := by
  have hcalls : ∀ {exempt wanted items}, DeclaredBeforeUse exempt wanted items → .fn f ∈ items →
      ∃ g, .fn g ∈ items ∧ g.name = x := by
    intro exempt wanted items hdeclared hf
    obtain ⟨before, after, rfl⟩ := append_of_mem hf
    obtain ⟨i, hi, hname⟩ := mem_filterMap.1 (hdeclared.calls before _ after rfl x deps huse)
    cases i with
    | fn g => exact ⟨g, mem_append_left _ hi, Option.some.inj hname⟩
    | struct | block | attributeVar | varyingVar => cases hname
  cases stage with
  | vertex => exact hcalls a.vertex_declares hf
  | fragment =>
    cases shared with
    | true => exact hcalls a.both_declare hf
    | false => exact hcalls a.fragment_declares hf

end Texts

end Check

theorem Program.mem_fns_of_itemsFor {p : Program} {shared : Bool} {stage : Stage} {f : FnDef}
    (h : .fn f ∈ p.itemsFor shared stage) : f ∈ p.vertex.fns ++ p.fragment.fns := by
  cases stage <;> cases shared <;> simp_all [itemsFor]

/-- A function looks the same wherever it is used. Wherever the declarations for a stage define a function, the
definition is the same, and so is its text; and each call of it that is left passes the needs that it is defined with. -/
theorem function_definitions_agree {d : Dialect} {extra : Builtins} {decls : List Decl} {c : Compiled}
    (h : (emit d extra decls).1 = .ok c) :
    ∃ p, (Program.check (Builtin.defaults ++ extra) d.sharesDecls decls).1 = .ok p ∧ c = p.write d ∧
      d.IsText .vertex c.interface.varyings p.vertex.items c.vertexText ∧
      d.IsText .fragment c.interface.varyings p.fragment.items c.fragmentText ∧
      (∀ f g, .fn f ∈ p.vertex.items → .fn g ∈ p.fragment.items → f.name = g.name →
        d.item .vertex (.fn f) = d.item .fragment (.fn g)) ∧
      ∀ stage f, .fn f ∈ p.itemsFor d.sharesDecls stage → ∀ x deps, Use.fn x deps ∈ f.uses →
        (∃ g, .fn g ∈ p.itemsFor d.sharesDecls stage ∧ g.name = x) ∧
        ∀ stage' g, .fn g ∈ p.itemsFor d.sharesDecls stage' → g.name = x → g.deps = deps := by
  obtain ⟨p, hcheck, rfl, ⟨a⟩⟩ := accepted_of_emit_ok h
  obtain ⟨s', hgives⟩ := Check.gives_of_check hcheck
  obtain ⟨fns, hsub, hunique, hcalls⟩ := Check.definitions_of_program hgives
  refine ⟨p, hcheck, rfl, a.isText_vertex d, a.isText_fragment d, fun f g hf hg hname => ?_, ?_⟩
  · have hmem := hsub (mem_append_left _ (StageUnit.fn_mem_items.1 hf))
    have hmem' := hsub (mem_append_right _ (StageUnit.fn_mem_items.1 hg))
    rw [hunique f hmem g hmem' hname]
    rfl
  · intro stage f hf x deps huse
    refine ⟨a.declares_calls stage hf huse, ?_⟩
    rintro stage' g hg rfl
    obtain ⟨g', hg', hname, rfl⟩ := hcalls f (hsub (Program.mem_fns_of_itemsFor hf)) _ deps huse
    rw [hunique g (hsub (Program.mem_fns_of_itemsFor hg)) g' hg' hname.symm]

/-- A helper that is opened for another function in the vertex stage, and for the fragment stage itself. -/
theorem helper_is_defined_alike :
    let vec4 : TyExpr := .keyword (.vector .float .four) .unset
    let fn (f : Ident) (result : Expr) : Decl :=
      .fn ⟨f, [], some vec4, .mk [.returnStmt (some result) .unset] .unset, .unset⟩
    let decls : List Decl := [.uniformVar ⟨"tint", vec4, .unset⟩ none, fn "vertex" (.call "outer" [] .unset),
      fn "outer" (.call "helper" [] .unset), fn "fragment" (.call "helper" [] .unset), fn "helper" (.var "tint" .unset)]
    ∃ (c : Compiled) (p : Program), (emit (Glsl.dialect {}) [] decls).1 = .ok c ∧ c = p.write (Glsl.dialect {}) ∧
      p.vertex.fns.map FnDef.name = ["helper", "outer", "vertex"] ∧
      p.fragment.fns.map FnDef.name = ["helper", "fragment"] ∧
      ∀ f ∈ p.vertex.fns, ∀ g ∈ p.fragment.fns, f.name = g.name → (Glsl.dialect {}).fn f = (Glsl.dialect {}).fn g := by
  intro vec4 fn decls
  obtain ⟨p, events, hp, h, hnames⟩ := emit_of_check
    (show (Program.check (Builtin.defaults ++ []) (Glsl.dialect {}).sharesDecls decls).1.toOption.any
      (fun p => p.vertex.fns.map FnDef.name = ["helper", "outer", "vertex"] ∧
        p.fragment.fns.map FnDef.name = ["helper", "fragment"]) = true by decide +kernel)
  have hemit : (emit (Glsl.dialect {}) [] decls).1 = .ok (p.write (Glsl.dialect {})) := by rw [h]
  obtain ⟨p', hp', -, -, -, halike, -⟩ := function_definitions_agree hemit
  obtain rfl : p = p' := Except.ok.inj (hp.symm.trans hp')
  obtain ⟨hvertex, hfragment⟩ := of_decide_eq_true hnames
  refine ⟨_, p, hemit, rfl, hvertex, hfragment, fun f hf g hg hname => ?_⟩
  exact halike f g (StageUnit.fn_mem_items.2 hf) (StageUnit.fn_mem_items.2 hg) hname

end Shading
