import Shading.Proofs.Grammar
import Shading.Proofs.Nodes

/-!
# Where nodes stand among the tokens

A node is spelled by a run of tokens, and its children by parts of this run, one behind the other. Most nodes span their
whole run. A binary, conditional or selecting expression starts where its first operand starts, and one that has an
operand at its end stops where this operand stops: the parentheses around an operand belong to its tokens but to no span.
-/

namespace Shading

open List Grammar

/-- The stretch of source from the first of the tokens to the last. -/
def stretch (ts : List Token) : Span := ⟨(ts.headD Parser.endToken).start, (ts.getLastD Parser.endToken).span.stop⟩

theorem start_stretch {ts : List Token} (h : ts ≠ []) : ∃ t ∈ ts.head?, (stretch ts).start = t.start := by
  obtain ⟨t, us, rfl⟩ := exists_cons_of_ne_nil h
  exact ⟨t, rfl, rfl⟩

theorem stop_stretch {ts : List Token} (h : ts ≠ []) : ∃ t ∈ ts.getLast?, (stretch ts).stop = t.span.stop := by
  obtain ⟨t, ht⟩ := Option.ne_none_iff_exists'.1 (mt getLast?_eq_none_iff.1 h)
  exact ⟨t, ht, by rw [stretch, getLastD_eq_getLast?, ht, Option.getD_some]⟩

namespace Node

/-- The tokens spell the node. The block behind an `else` may be another `if`. -/
def SpelledBy (ts : List Token) : Node → Prop
  | ty t => TypeExpr ts t.bare
  | expr e => Expression .assignment ts e.bare
  | stmt st => Statement ts st.bare
  | block b => Braced ts b.bare ∨ ∃ st, b.bare = .mk [st] .unset ∧ Statement ts st
  | var v => Annotated ts v.bare
  | decl d => Declaration ts d.bare

/-- The node starts with the tokens or with its first child, and stops with the tokens or with its last child. -/
structure Spans (n : Node) (ts : List Token) : Prop where
  nonempty : ts ≠ []
  start : n.span.start = (stretch ts).start ∨ ∃ m ∈ n.children.head?, n.span.start = m.span.start
  stop : n.span.stop = (stretch ts).stop ∨ ∃ m ∈ n.children.getLast?, n.span.stop = m.span.stop

end Node

/-- The nodes have parts of the tokens, one behind the other. -/
inductive Strewn (P : List Token → Node → Prop) : List Token → List Node → Prop
  | nil : Strewn P [] []
  | skip {t : Token} {ts : List Token} {ns : List Node} : Strewn P ts ns → Strewn P (t :: ts) ns
  | part {ts us : List Token} {n : Node} {ns : List Node} : P ts n → Strewn P us ns → Strewn P (ts ++ us) (n :: ns)

/-- The tokens spell the node, and parts of them spell its children. Parentheses around an expression leave it as it is. -/
inductive Spread : List Token → Node → Prop
  | mk {ts : List Token} {n : Node} : n.SpelledBy ts → n.Spans ts → Strewn Spread ts n.children → Spread ts n
  | grouped {opening closing : Token} {ts : List Token} {e : Expr} :
    opening.kind = .leftParen → closing.kind = .rightParen → Spread ts (.expr e) →
    Spread (opening :: (ts ++ [closing])) (.expr e)

/-- An expression of any rung is one of the weakest. -/
theorem Grammar.Expression.weaken {rung : Rung} {ts : List Token} {e : Expr} (h : Expression rung ts e) :
    Expression .assignment ts e := by
  cases rung <;> repeat first | exact h | refine .loosen ?_

namespace Strewn

variable {P : List Token → Node → Prop} {ts us : List Token} {ns ms : List Node} {n : Node}

theorem append (h : Strewn P ts ns) (h' : Strewn P us ms) : Strewn P (ts ++ us) (ns ++ ms) := by
  induction h with
  | nil => exact h'
  | skip _ ih => exact ih.skip
  | part hn _ ih =>
    rw [append_assoc]
    exact .part hn ih

theorem none (ts : List Token) : Strewn P ts [] := by
  induction ts with
  | nil => exact .nil
  | cons t ts ih => exact ih.skip

theorem skipLast (h : Strewn P ts ns) (us : List Token) : Strewn P (ts ++ us) ns := by
  simpa using h.append (none us)

/-- A node that has all tokens. -/
theorem last (hn : P ts n) : Strewn P ts [n] := by
  simpa using part hn nil

section Parts

variable {α : Type} {f : α → Node}

theorem of_items {as : List α} (h : Items (fun ts a => P ts (f a)) ts as) : Strewn P ts (as.map f) := by
  induction h with
  | nil => exact .nil
  | last h => exact .last h
  | cons h _ _ ih => exact .part h ih.skip

theorem of_sequence {as : List α} (h : Sequence (fun ts a => P ts (f a)) ts as) : Strewn P ts (as.map f) := by
  induction h with
  | nil => exact .nil
  | cons h _ ih => exact .part h ih

theorem of_announced {mark : Token → Prop} {a : Option α} (h : Announced mark (fun ts a => P ts (f a)) ts a) :
    Strewn P ts (a.toList.map f) := by
  cases h with
  | absent => exact .nil
  | present _ h => exact (last h).skip

end Parts

theorem of_mem {m : Node} (h : Strewn P ts ns) (hm : m ∈ ns) : ∃ us, us <:+: ts ∧ P us m := by
  induction h with
  | nil => cases hm
  | @skip t ts _ _ ih =>
    obtain ⟨us, hus, h⟩ := ih hm
    exact ⟨us, hus.trans (suffix_cons t ts).isInfix, h⟩
  | @part ts vs n _ hn _ ih =>
    rcases mem_cons.1 hm with rfl | hm
    · exact ⟨ts, (prefix_append ts vs).isInfix, hn⟩
    · obtain ⟨us, hus, h⟩ := ih hm
      exact ⟨us, hus.trans (suffix_append ts vs).isInfix, h⟩

end Strewn

namespace Spread

variable {ts : List Token} {n : Node}

/-- Induction over nodes and their tokens, where the children come before the node. -/
@[elab_as_elim]
theorem induct {M : (ts : List Token) → (n : Node) → Spread ts n → Prop}
    (mk : ∀ {ts n} (hspelled : n.SpelledBy ts) (hspans : n.Spans ts) (hchildren : Strewn Spread ts n.children),
      Strewn (fun us m => ∃ h : Spread us m, M us m h) ts n.children → M ts n (.mk hspelled hspans hchildren))
    (grouped : ∀ {opening closing : Token} {ts e} (hopening : opening.kind = .leftParen)
      (hclosing : closing.kind = .rightParen) (h : Spread ts (.expr e)), M ts (.expr e) h →
      M (opening :: (ts ++ [closing])) (.expr e) (.grouped hopening hclosing h)) (h : Spread ts n) : M ts n h :=
  Spread.rec (motive_2 := fun ts ns _ => Strewn (fun us m => ∃ h : Spread us m, M us m h) ts ns) mk grouped
    .nil (fun _ ih => ih.skip) (fun hn _ ih ihs => .part ⟨hn, ih⟩ ihs) h

theorem spelledBy (h : Spread ts n) : n.SpelledBy ts := by
  induction h using induct with
  | mk hspelled => exact hspelled
  | grouped hopening hclosing _ ih => exact (Expression.grouped hopening hclosing ih).weaken

/-- A node starts where one of its tokens starts. -/
theorem start (h : Spread ts n) : ∃ t ∈ ts, n.span.start = t.start := by
  induction h using induct with
  | @mk ts n _ hspans _ hchildren =>
    rcases hspans.start with hstart | ⟨m, hm, hstart⟩
    · obtain ⟨t, ht, htstart⟩ := start_stretch hspans.nonempty
      exact ⟨t, mem_of_mem_head? ht, hstart.trans htstart⟩
    · obtain ⟨us, hus, -, t, ht, htstart⟩ := hchildren.of_mem (mem_of_mem_head? hm)
      exact ⟨t, hus.subset ht, hstart.trans htstart⟩
  | grouped _ _ _ ih =>
    obtain ⟨t, ht, hstart⟩ := ih
    exact ⟨t, by simp [ht], hstart⟩

/-- A node stops where one of its tokens stops. -/
theorem stop (h : Spread ts n) : ∃ t ∈ ts, n.span.stop = t.span.stop := by
  induction h using induct with
  | @mk ts n _ hspans _ hchildren =>
    rcases hspans.stop with hstop | ⟨m, hm, hstop⟩
    · obtain ⟨t, ht, htstop⟩ := stop_stretch hspans.nonempty
      exact ⟨t, mem_of_getLast? ht, hstop.trans htstop⟩
    · obtain ⟨us, hus, -, t, ht, htstop⟩ := hchildren.of_mem (mem_of_getLast? hm)
      exact ⟨t, hus.subset ht, hstop.trans htstop⟩
  | grouped _ _ _ ih =>
    obtain ⟨t, ht, hstop⟩ := ih
    exact ⟨t, by simp [ht], hstop⟩

theorem children (h : Spread ts n) : Strewn Spread ts n.children := by
  induction h using induct with
  | mk _ _ hchildren => exact hchildren
  | grouped _ _ _ ih => exact (ih.skipLast _).skip

/-- A node inside another one has some of its tokens. -/
theorem within {m : Node} (h : Spread ts n) (hm : m.Within n) : ∃ us, us <:+: ts ∧ Spread us m := by
  induction hm generalizing ts with
  | refl => exact ⟨ts, infix_rfl, h⟩
  | @tail a b _ hb ih =>
    obtain ⟨us, hus, hb⟩ := h.children.of_mem hb
    obtain ⟨vs, hvs, hm⟩ := ih hb
    exact ⟨vs, hvs.trans hus, hm⟩

theorem startsIn {P : Position → Prop} (h : Spread ts n) (hts : ∀ t ∈ ts, P t.start) : n.StartsIn P := by
  intro m hm
  obtain ⟨us, hus, hspread⟩ := h.within hm
  obtain ⟨t, ht, hstart⟩ := hspread.start
  rw [hstart]
  exact hts t (hus.subset ht)

theorem ne_nil (h : Spread ts n) : ts ≠ [] := by
  cases h with
  | mk _ hspans => exact hspans.nonempty
  | grouped => simp

/-- A node that spans all its tokens. -/
theorem whole (hspelled : n.SpelledBy ts) (hts : ts ≠ []) (hspan : n.span = stretch ts)
    (hchildren : Strewn Spread ts n.children) : Spread ts n :=
  .mk hspelled ⟨hts, .inl (by rw [hspan]), .inl (by rw [hspan])⟩ hchildren

end Spread

/-! Parts that are spread are spelled. -/

namespace Grammar

variable {α β : Type} {node : α → Node} {Part : List Token → β → Prop} {f : α → β} {ts : List Token}

theorem Items.spelled {as : List α} (h : Items (fun ts a => Spread ts (node a)) ts as)
    (hpart : ∀ ts a, (node a).SpelledBy ts → Part ts (f a)) : Items Part ts (as.map f) :=
  .map (h.imp fun ts a _ ha => hpart ts a ha.spelledBy)

theorem Sequence.spelled {as : List α} (h : Sequence (fun ts a => Spread ts (node a)) ts as)
    (hpart : ∀ ts a, (node a).SpelledBy ts → Part ts (f a)) : Sequence Part ts (as.map f) :=
  .map (h.imp fun ts a _ ha => hpart ts a ha.spelledBy)

theorem Announced.spelled {mark : Token → Prop} {a : Option α} (h : Announced mark (fun ts a => Spread ts (node a)) ts a)
    (hpart : ∀ ts a, (node a).SpelledBy ts → Part ts (f a)) : Announced mark Part ts (a.map f) :=
  .map (h.imp fun ts a ha => hpart ts a ha.spelledBy)

end Grammar

end Shading
