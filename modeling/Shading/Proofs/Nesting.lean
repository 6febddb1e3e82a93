import Shading.Proofs.Lexing
import Shading.Proofs.Naming.Words

/-!
# Spans nest like the syntax

The tokens of a text stand one behind the other, and each node lies over tokens of its own (`Spread`). So the span of a
node lies over some text, around the spans of its children, and these stand one behind the other. Where a node starts or
stops with a child and not with its tokens, this needs that no child is empty.
-/

namespace Shading

open List

/-- The second span lies in the first. -/
def Span.Holds (s t : Span) : Prop := s.start.offset ≤ t.start.offset ∧ t.stop.offset ≤ s.stop.offset

/-- The second span lies behind the first. -/
def Span.Precedes (s t : Span) : Prop := s.stop.offset ≤ t.start.offset

/-- The node has tokens that spell it, its span reaches from one of them to another over some text, around the spans of its
children, and these stand one behind the other. -/
structure Node.Nested (tokens : List Token) (n : Node) : Prop where
  spelled : ∃ ts, ts <:+: tokens ∧ n.SpelledBy ts ∧ (∃ t ∈ ts, n.span.start = t.start) ∧
    ∃ t ∈ ts, n.span.stop = t.span.stop
  nonempty : n.span.start.offset < n.span.stop.offset
  children : ∀ m ∈ n.children, n.span.Holds m.span
  siblings : n.children.Pairwise fun a b => a.span.Precedes b.span

/-- Spans over some text, one behind the other. -/
structure InLine (ss : List Span) : Prop where
  nonempty : ∀ s ∈ ss, s.start.offset < s.stop.offset
  precedes : ss.Pairwise Span.Precedes

namespace InLine

variable {ss : List Span} {s t : Span}

theorem sublist {rs : List Span} (h : InLine ss) (hrs : List.Sublist rs ss) : InLine rs :=
  ⟨fun s hs => h.nonempty s (hrs.subset hs), h.precedes.sublist hrs⟩

/-- The first span starts first. -/
theorem start_le (h : InLine ss) (hs : s ∈ ss.head?) (ht : t ∈ ss) : s.start.offset ≤ t.start.offset := by
  obtain ⟨rest, rfl⟩ := head?_eq_some_iff.1 hs
  rcases mem_cons.1 ht with rfl | ht
  · exact le_refl _
  · exact le_trans (h.nonempty s mem_cons_self).le ((pairwise_cons.1 h.precedes).1 t ht)

/-- The last span stops last. -/
theorem le_stop (h : InLine ss) (hs : s ∈ ss.getLast?) (ht : t ∈ ss) : t.stop.offset ≤ s.stop.offset := by
  obtain ⟨front, rfl⟩ := getLast?_eq_some_iff.1 hs
  have hlast : s ∈ [s] := mem_singleton.2 rfl
  rcases mem_append.1 ht with ht | ht
  · exact le_trans ((pairwise_append.1 h.precedes).2.2 t ht s hlast)
      (h.nonempty s (mem_append_right _ hlast)).le
  · rw [mem_singleton.1 ht]

end InLine

section Nodes

variable {ts : List Token} {n : Node}

/-- Nodes over tokens that stand one behind the other do so as well. -/
theorem Strewn.precedes {ns : List Node} (h : Strewn Spread ts ns)
    (hts : ts.Pairwise fun t u => t.span.Precedes u.span) : ns.Pairwise fun a b => a.span.Precedes b.span := by
  induction h with
  | nil => exact .nil
  | skip _ ih => exact ih (pairwise_cons.1 hts).2
  | @part ts us n ns hn hns ih =>
    obtain ⟨-, hus, hacross⟩ := pairwise_append.1 hts
    refine .cons (fun m hm => ?_) (ih hus)
    obtain ⟨vs, hvs, hm⟩ := hns.of_mem hm
    obtain ⟨t, ht, hstop⟩ := hn.stop
    obtain ⟨u, hu, hstart⟩ := hm.start
    rw [Span.Precedes, hstop, hstart]
    exact hacross t ht u (hvs.subset hu)

/-- A node around children that stand one behind the other holds them. -/
theorem Node.Spans.holds (h : n.Spans ts) (hn : Strewn Spread ts n.children) (hts : InLine (ts.map Token.span))
    (hchildren : InLine (n.children.map Node.span)) : ∀ m ∈ n.children, n.span.Holds m.span := by
  intro m hm
  obtain ⟨us, hus, hspread⟩ := hn.of_mem hm
  have hmem : m.span ∈ n.children.map Node.span := mem_map_of_mem hm
  constructor
  · rcases h.start with hstart | ⟨first, hfirst, hstart⟩ <;> rw [hstart]
    · obtain ⟨t, ht, hmt⟩ := hspread.start
      obtain ⟨first, hfirst, hstart⟩ := start_stretch h.nonempty
      rw [hmt, hstart]
      exact hts.start_le (s := first.span) (by simp [Option.mem_def.1 hfirst]) (mem_map_of_mem (hus.subset ht))
    · exact hchildren.start_le (by simp [Option.mem_def.1 hfirst]) hmem
  · rcases h.stop with hstop | ⟨last, hlast, hstop⟩ <;> rw [hstop]
    · obtain ⟨t, ht, hmt⟩ := hspread.stop
      obtain ⟨last, hlast, hstop⟩ := stop_stretch h.nonempty
      rw [hmt, hstop]
      exact hts.le_stop (by simp [Option.mem_def.1 hlast]) (mem_map_of_mem (hus.subset ht))
    · exact hchildren.le_stop (by simp [Option.mem_def.1 hlast]) hmem

/-- A node over tokens that stand one behind the other is not empty and holds its children, which do so as well. -/
theorem Spread.inLine (h : Spread ts n) (hts : InLine (ts.map Token.span)) :
    n.span.start.offset < n.span.stop.offset ∧ (∀ m ∈ n.children, n.span.Holds m.span) ∧
      InLine (n.children.map Node.span) := by
  induction h using Spread.induct with
  | @mk ts n hspelled hspans hchildren ih =>
    have hline : InLine (n.children.map Node.span) := by
      refine ⟨forall_mem_map.2 fun m hm => ?_, pairwise_map.2 (hchildren.precedes (pairwise_map.1 hts.precedes))⟩
      obtain ⟨us, hus, -, hm⟩ := ih.of_mem hm
      exact (hm (hts.sublist (hus.sublist.map _))).1
    have hholds := hspans.holds hchildren hts hline
    refine ⟨?_, hholds, hline⟩
    rcases hspans.start with hstart | ⟨first, hfirst, hstart⟩ <;> rw [hstart]
    · obtain ⟨t, ht, hstop⟩ := (Spread.mk hspelled hspans hchildren).stop
      obtain ⟨first, hfirst, hstart⟩ := start_stretch hspans.nonempty
      have hmem : t.span ∈ ts.map Token.span := mem_map_of_mem ht
      rw [hstart, hstop]
      exact lt_of_le_of_lt (hts.start_le (s := first.span) (by simp [Option.mem_def.1 hfirst]) hmem) (hts.nonempty _ hmem)
    · have hmem := mem_of_mem_head? hfirst
      exact lt_of_lt_of_le (hline.nonempty _ (mem_map_of_mem hmem)) (hholds first hmem).2
  | grouped _ _ _ ih => exact ih (hts.sublist (by simp))

end Nodes

/-- The tokens of a text stand in it, one behind the other. -/
theorem Token.inLine_of_read {input : ByteArray} {tokens : List Token} (h : read (.ofBytes input) = .ok tokens) :
    InLine (tokens.dropLast.map span) ∧ ∀ t ∈ tokens.dropLast, 0 ≤ t.start.offset ∧ t.span.stop.offset ≤ input.size := by
  have houtcome := outcome_read input
  rw [h] at houtcome
  cases houtcome with
  | @done ts hlaid =>
    have hplaced : ∀ t ∈ ts, 0 ≤ t.start.offset ∧ t.start.offset < t.span.stop.offset ∧
        t.span.stop.offset ≤ input.size := by
      intro t ht
      obtain ⟨front, rest, hparts, -, hstart⟩ := hlaid.placed t ht
      have hpos : 0 < t.bytes.length := length_pos_iff.2 (textBytes_ne_nil (hlaid.spelled t ht))
      have hoffset : t.start.offset = front.length := congrArg Position.offset hstart
      have hstop : t.span.stop.offset = t.start.offset + (t.bytes.length : Int) := rfl
      have hlength := congrArg List.length hparts
      have hsize : input.size = input.data.toList.length := rfl
      simp only [nil_append, length_append] at hlength
      omega
    rw [dropLast_concat]
    refine ⟨⟨forall_mem_map.2 fun t ht => (hplaced t ht).2.1, ?_⟩, fun t ht => ⟨(hplaced t ht).1, (hplaced t ht).2.2⟩⟩
    exact pairwise_map.2 (hlaid.ordered.imp And.right)

/-- **Spans nest like the syntax.** Every node of a text that can be read has tokens of the text that spell it; its span
starts with one of these tokens and stops with one of them, lies in the text and is not empty. It holds the spans of the
node's children, which stand one behind the other, and so do the spans of the declarations. -/
theorem spans_nest_like_syntax {input : ByteArray} {decls : List Decl} (h : parse (.ofBytes input) = .ok decls) :
    ∃ tokens, Token.read (.ofBytes input) = .ok tokens ∧
      (decls.Pairwise fun d e => d.span.Precedes e.span) ∧
      ∀ d ∈ decls, ∀ n : Node, n.Within (.decl d) →
        n.Nested tokens ∧ 0 ≤ n.span.start.offset ∧ n.span.stop.offset ≤ input.size := by
  obtain ⟨ts, stop, hread, hdecls⟩ := spread_of_parse h
  obtain ⟨hline, hinput⟩ := Token.inLine_of_read hread
  rw [dropLast_concat] at hline hinput
  refine ⟨_, hread, ?_, fun d hd n hn => ?_⟩
  · have hprecedes := (Strewn.of_sequence hdecls).precedes (pairwise_map.1 hline.precedes)
    rw [pairwise_map] at hprecedes
    exact hprecedes
  · obtain ⟨us, hus, hspread⟩ := hdecls.of_mem d hd
    obtain ⟨vs, hvs, hn⟩ := hspread.within hn
    have hall := hvs.trans hus
    obtain ⟨hnonempty, hholds, hchildren⟩ := hn.inLine (hline.sublist (hall.sublist.map _))
    obtain ⟨t, ht, hstart⟩ := hn.start
    obtain ⟨u, hu, hstop⟩ := hn.stop
    refine ⟨⟨⟨vs, hall.trans (prefix_append ts _).isInfix, hn.spelledBy, ⟨t, ht, hstart⟩, u, hu, hstop⟩,
      hnonempty, hholds, pairwise_map.1 hchildren.precedes⟩, ?_, ?_⟩
    · rw [hstart]
      exact (hinput t (hall.subset ht)).1
    · rw [hstop]
      exact (hinput u (hall.subset hu)).2

/-- A uniform, and behind a comment a function that returns the product of a sum in parentheses. -/
theorem parenthesized_sum_nests :
    let input := "uniform u : float; /* é */\nfn f() -> float \x7b return (u + 2.0) * 3.0; \x7d".toUTF8
    ∃ decls, parse (.ofBytes input) = .ok decls ∧
      decls.map Decl.span = [⟨⟨1, 1, 0⟩, ⟨1, 19, 18⟩⟩, ⟨⟨2, 1, 28⟩, ⟨2, 44, 71⟩⟩] ∧
      ∃ tokens, Token.read (.ofBytes input) = .ok tokens ∧ (decls.Pairwise fun d e => d.span.Precedes e.span) ∧
        ∀ d ∈ decls, ∀ n : Node, n.Within (.decl d) →
          n.Nested tokens ∧ 0 ≤ n.span.start.offset ∧ n.span.stop.offset ≤ input.size := by
  intro input
  have hrun : (parse (.ofBytes input)).toOption.any (fun decls => decide (decls.map Decl.span =
      [⟨⟨1, 1, 0⟩, ⟨1, 19, 18⟩⟩, ⟨⟨2, 1, 28⟩, ⟨2, 44, 71⟩⟩])) = true := by
    decide +kernel
  cases hparse : parse (.ofBytes input) with
  | error errors =>
    rw [hparse] at hrun
    cases hrun
  | ok decls =>
    rw [hparse] at hrun
    exact ⟨decls, rfl, of_decide_eq_true hrun, spans_nest_like_syntax hparse⟩

/-- A parenthesis that is left open belongs to no declaration. -/
example : (parse (.ofString "fn f() -> float \x7b return (1.0; \x7d")).toOption.isNone = true := by decide +kernel

end Shading
