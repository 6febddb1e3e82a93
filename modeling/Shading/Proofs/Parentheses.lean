import Shading.Glsl.Dialect
import Shading.Proofs.NormalForm

/-!
# Parentheses

The parentheses in the text of a term belong together in pairs, if a dialect spells names without any and puts all
arguments of a call between two. An operator has a pair of its own around it, so the last character of its text closes
the first: taking both away takes away one pair, and nothing else is left open. A condition is put between parentheses
unless its text is such a group already (`parenthesize_of_paired`).
-/

namespace Shading
open List Token Number

/-- The parentheses in the text close each other, so that the groups around it go on behind it. -/
def Balanced (s : String) : Prop :=
  ∀ depth rest, closesAtEnd (depth + 1) (s.toList ++ rest) = closesAtEnd (depth + 1) rest

namespace Balanced

variable {s t : String}

/-- A text without parentheses. -/
theorem of_forall (h : ∀ c ∈ s.toList, c ≠ '(' ∧ c ≠ ')') : Balanced s := by
  intro depth rest
  generalize s.toList = cs at h ⊢
  induction cs with
  | nil => rfl
  | cons c cs ih =>
    obtain ⟨⟨hopen, hclose⟩, hcs⟩ := forall_mem_cons.1 h
    rw [cons_append, closesAtEnd.eq_def]
    dsimp only
    rw [if_neg hopen, if_neg hclose, if_neg (Nat.succ_ne_zero depth)]
    exact ih hcs

theorem plain (h : (s.toList.all fun c => c != '(' && c != ')') = true) : Balanced s := by
  refine of_forall fun c hc => ?_
  simpa using all_eq_true.1 h c hc

theorem append (hs : Balanced s) (ht : Balanced t) : Balanced (s ++ t) := by
  intro depth rest
  rw [String.toList_append, append_assoc, hs, ht]

/-- A pair of parentheses around a text. -/
theorem group (hs : Balanced s) : Balanced ("(" ++ s ++ ")") := by
  intro depth rest
  calc closesAtEnd (depth + 1) (("(" ++ s ++ ")").toList ++ rest)
      = closesAtEnd (depth + 1) ('(' :: (s.toList ++ ')' :: rest)) := by simp
    _ = closesAtEnd (depth + 2) (s.toList ++ ')' :: rest) := rfl
    _ = closesAtEnd (depth + 2) (')' :: rest) := hs _ _
    _ = closesAtEnd (depth + 1) rest := rfl

theorem intercalate (hs : Balanced s) {items : List String} (h : ∀ t ∈ items, Balanced t) :
    Balanced (s.intercalate items) := by
  induction items with
  | nil => exact fun _ _ => rfl
  | cons t items ih =>
    obtain ⟨ht, hitems⟩ := forall_mem_cons.1 h
    by_cases hnil : items = []
    · subst hnil
      rw [String.intercalate_singleton]
      exact ht
    · rw [String.intercalate_cons_of_ne_nil hnil]
      exact (ht.append hs).append (ih hitems)

/-- A parenthesis behind the text closes the one in front of it. -/
theorem closes (hs : Balanced s) : closesAtEnd 1 (s.toList ++ [')']) = true := by
  rw [hs]
  rfl

theorem word (h : IsWordText s) : Balanced s := by
  obtain ⟨c, cs, hs, hc, hcs⟩ := h
  refine of_forall fun d hd => ?_
  rw [hs] at hd
  rcases mem_cons.1 hd with rfl | hd
  · constructor <;> rintro rfl <;> revert hc <;> decide
  · have hd := hcs d hd
    constructor <;> rintro rfl <;> revert hd <;> decide

/-- The text of a finite constant is a word or a numeral. -/
theorem value {v : Value} (h : v.isFinite = true) : Balanced v.text := by
  by_cases hkind : v.kind = .bool
  · cases v with
    | bool b => cases b <;> exact plain (by decide)
    | int i => cases hkind
    | float f => cases hkind
  · obtain ⟨n, htext, -⟩ := Value.exists_numeral h hkind
    rw [htext]
    refine of_forall fun c hc => ?_
    rw [String.toList_ofList] at hc
    have hnumeral : isNumeralChar c = true := by
      rcases mem_append.1 hc with hc | hc
      · unfold Value.signChars at hc
        split at hc
        · rw [mem_singleton.1 hc]
          rfl
        · cases hc
      · exact Numeral.isNumeralChar_of_mem hc
    constructor <;> rintro rfl <;> revert hnumeral <;> decide

theorem binarySymbol (op : BinOp) : Balanced op.symbol := by
  rcases op with _ | (_ | _ | _ | _) | _ | _ | _ | _ | (_ | _ | _ | _) | (_ | _ | _ | _) <;> exact plain (by decide)

theorem unarySymbol (op : UnOp) : Balanced op.symbol := by
  cases op <;> exact plain (by decide)

end Balanced

/-- Names are spelled so that no parenthesis stays open, and lists of arguments as well. -/
structure Dialect.Balances (d : Dialect) : Prop where
  ident : ∀ x, IsName x → Balanced (d.ident x)
  builtin : ∀ x, IsName x → Balanced (d.builtin x)
  attributeVar : ∀ x, IsName x → Balanced (d.attributeVar x)
  uniformVar : ∀ block x, IsName x → Balanced (d.uniformVar block x)
  varyingVar : ∀ x, IsName x → Balanced (d.varyingVar x)
  keyword : ∀ ty, Balanced (d.keyword ty)
  args : ∀ deps items, (∀ s ∈ items, Balanced s) → Balanced (d.args deps items)

theorem Glsl.balances (o : Options) : (dialect o).Balances where
  ident x hx := by
    have hword : Balanced x := .word hx.1
    show Balanced (ident x)
    unfold Glsl.ident
    split
    · exact .plain (by decide)
    · split
      · exact .append (.plain (by decide)) hword
      · exact hword
  builtin x hx := .word hx.1
  attributeVar x hx := .append (.plain (by decide)) (.word hx.1)
  uniformVar _ x hx := .append (.plain (by decide)) (.word hx.1)
  varyingVar x hx := .append (.plain (by decide)) (.word hx.1)
  keyword ty := .word (isWordText_keyword ty)
  args _ items h := .group (.intercalate (.plain (by decide)) h)

section Groups

variable (d : Dialect)

/-- An operator and its operands stand between two parentheses. -/
theorem Dialect.term_bin (op : BinOp) (l r : Term) :
    d.term (.bin op l r) = "(" ++ d.assignment op l r ++ ")" := by
  simp only [Dialect.term, Dialect.assignment, String.append_assoc]

theorem Dialect.term_un (op : UnOp) (e : Term) : d.term (.un op e) = "(" ++ (op.symbol ++ d.term e) ++ ")" := by
  simp only [Dialect.term, String.append_assoc]

theorem Dialect.term_cond (c t f : Term) :
    d.term (.cond c t f) = "(" ++ (d.term c ++ " ? " ++ d.term t ++ " : " ++ d.term f) ++ ")" := by
  simp only [Dialect.term, String.append_assoc]

variable {d}

theorem balanced_assignment (op : BinOp) {l r : Term} (hl : Balanced (d.term l)) (hr : Balanced (d.term r)) :
    Balanced (d.assignment op l r) :=
  (((hl.append (.plain (by decide))).append (.binarySymbol op)).append (.plain (by decide))).append hr

end Groups

/-- The parentheses in the text of a term belong together. -/
theorem Dialect.Balances.term {d : Dialect} (hd : d.Balances) {t : Term} (h : t.Legible) : Balanced (d.term t) := by
  have hargs {ts : List Term} (ih : ∀ t ∈ ts, t.Legible → Balanced (d.term t)) (h : Term.AllLegible ts) :
      ∀ s ∈ d.terms ts, Balanced s := by
    intro s hs
    rw [Dialect.terms_eq] at hs
    obtain ⟨t, ht, rfl⟩ := mem_map.1 hs
    exact ih t ht (Term.allLegible_iff.1 h t ht)
  induction t with
  | const v => exact .value h
  | cond test yes no iht ihy ihn =>
    rw [Dialect.term_cond]
    exact .group (((((iht h.1).append (.plain (by decide))).append (ihy h.2.1)).append (.plain (by decide))).append
      (ihn h.2.2))
  | bin op l r ihl ihr =>
    rw [Dialect.term_bin]
    exact .group (balanced_assignment op (ihl h.1) (ihr h.2))
  | un op e ih =>
    rw [Dialect.term_un]
    exact .group ((Balanced.unarySymbol op).append (ih h.2))
  | index b i ihb ihi =>
    exact (((ihb h.2.1).append (.plain (by decide))).append (ihi h.2.2)).append (.plain (by decide))
  | member b name ih => exact ((ih h.2.1).append (.plain (by decide))).append (hd.ident name h.2.2)
  | swizzle b letters ih => exact ((ih h.2.1).append (.plain (by decide))).append (.word h.2.2.1)
  | call f deps args ih => exact (hd.ident f h.1).append (hd.args _ _ (hargs ih h.2))
  | builtin f args ih => exact (hd.builtin f h.1).append (hd.args _ _ (hargs ih h.2))
  | makeStruct s args ih => exact (hd.ident s h.1).append (hd.args _ _ (hargs ih h.2))
  | construct ty args ih => exact (hd.keyword ty).append (hd.args _ _ (hargs ih h))
  | attributeVar x => exact hd.attributeVar x h
  | uniformVar block x => exact hd.uniformVar block x h
  | varyingVar x => exact hd.varyingVar x h
  | localVar x => exact hd.ident x h

/-! ## One group around a text -/

/-- How many more parentheses the characters open than they close. -/
def height (cs : List Char) : Int := cs.count '(' - cs.count ')'

/-- Every parenthesis of the text is closed, and none is closed that was not opened. -/
def Paired (s : String) : Prop := height s.toList = 0 ∧ ∀ p ∈ s.toList.inits, 0 ≤ height p
deriving Decidable

/-- The last character closes the parenthesis that the text starts with, which is open all the way there. -/
def ClosesFirst (s : String) : Prop :=
  s.toList.head? = some '(' ∧ height s.toList = 0 ∧ ∀ p ∈ s.toList.inits, p ≠ [] → p ≠ s.toList → 0 < height p
deriving Decidable

@[simp] theorem height_nil : height [] = 0 := rfl

theorem height_append (cs ds : List Char) : height (cs ++ ds) = height cs + height ds := by
  simp only [height, count_append]
  omega

theorem height_cons (c : Char) (cs : List Char) :
    height (c :: cs) = height cs + (if c = '(' then 1 else if c = ')' then -1 else 0) := by
  unfold height
  grind

/-- The scan comes down from its depth at the last character, and not before. -/
theorem closesAtEnd_iff {depth : Nat} {cs : List Char} (h : 0 < depth) :
    closesAtEnd depth cs = true ↔ height cs + depth = 0 ∧ ∀ p ∈ cs.inits, p ≠ cs → 0 < height p + depth := by
  induction cs generalizing depth with
  | nil =>
    have hpos : ¬ 0 + (depth : Int) = 0 := by omega
    simp only [closesAtEnd, height_nil, hpos, Bool.false_eq_true, false_and]
  | cons c cs ih =>
    have hfirst : 0 < 0 + (depth : Int) := by omega
    rw [closesAtEnd.eq_def]
    simp only [inits_cons, forall_mem_cons, forall_mem_map, height_nil, height_cons, ne_eq, cons.injEq, true_and, hfirst,
      implies_true]
    split_ifs with hopen hclose hzero
    · rw [ih (Nat.succ_pos depth)]
      grind
    · match depth with
      | 1 =>
        cases cs with
        | nil => simp
        | cons d ds =>
          simp only [isEmpty_cons, Bool.false_eq_true, false_iff]
          rintro ⟨-, hp⟩
          simpa using hp [] (by simp) (by simp)
      | n + 2 =>
        rw [ih (Nat.succ_pos n)]
        grind
    · omega
    · rw [ih h]
      simp

theorem closesFirst_cons {s : String} {cs : List Char} (h : s.toList = '(' :: cs) :
    ClosesFirst s ↔ closesAtEnd 1 cs = true := by
  rw [ClosesFirst, h, closesAtEnd_iff Nat.one_pos]
  simp [height_cons]

theorem parenthesize_eq (s : String) : parenthesize s = if ClosesFirst s then s else "(" ++ s ++ ")" := by
  unfold parenthesize
  split
  · rename_i cs hs
    simp only [closesFirst_cons hs]
  · rename_i hs
    rw [if_neg]
    rintro ⟨hhead, -⟩
    obtain ⟨cs, hcs⟩ := head?_eq_some_iff.1 hhead
    exact hs cs hcs

/-- The first parenthesis and the last character stand around a text that is paired itself. -/
theorem closesFirst_iff {s : String} : ClosesFirst s ↔ ∃ t, s = "(" ++ t ++ ")" ∧ Paired t := by
  constructor
  · intro h
    obtain ⟨cs, hcs⟩ := head?_eq_some_iff.1 h.1
    obtain ⟨hzero, hopen⟩ := (closesAtEnd_iff Nat.one_pos).1 ((closesFirst_cons hcs).1 h)
    rcases eq_nil_or_concat cs with rfl | ⟨t, c, rfl⟩
    · simp at hzero
    · have hbefore (p : List Char) (hp : p ∈ t.inits) : 0 ≤ height p := by
        have hpre := (mem_inits ..).1 hp
        have hlt := hopen p (by simp [hpre]) (by rintro rfl; simpa using hpre.length_le)
        omega
      have ht := hbefore t (by simp)
      rw [concat_eq_append, height_append, height_cons, height_nil] at hzero
      obtain ⟨rfl, hheight⟩ : c = ')' ∧ height t = 0 := by grind
      refine ⟨.ofList t, ?_, ?_⟩
      · rw [← String.toList_inj, hcs]
        simp
      · rw [Paired, String.toList_ofList]
        exact ⟨hheight, hbefore⟩
  · rintro ⟨t, rfl, hzero, hp⟩
    have hcs : ("(" ++ t ++ ")").toList = '(' :: (t.toList ++ [')']) := by simp
    rw [closesFirst_cons hcs, closesAtEnd_iff Nat.one_pos]
    refine ⟨by simp [height_append, height_cons, hzero], fun p hmem hne => ?_⟩
    have hmem : p <+: t.toList ∨ p = t.toList ++ [')'] := by simpa using hmem
    have := hp p ((mem_inits ..).2 (hmem.resolve_right hne))
    omega

/-- A text whose parentheses are paired is parenthesized once: it is left as it is if its last character closes the
parenthesis it starts with, and one pair is put around it if not. Either way the result is one group, and parenthesizing
it again changes nothing. -/
theorem parenthesize_of_paired {s : String} (h : Paired s) :
    parenthesize s = (if ClosesFirst s then s else "(" ++ s ++ ")")
    ∧ (∃ t, parenthesize s = "(" ++ t ++ ")" ∧ Paired t) ∧ parenthesize (parenthesize s) = parenthesize s := by
  have hgroup : ∃ t, parenthesize s = "(" ++ t ++ ")" ∧ Paired t := by
    rw [parenthesize_eq]
    split
    · rename_i hs
      exact closesFirst_iff.1 hs
    · exact ⟨s, rfl, h⟩
  refine ⟨parenthesize_eq s, hgroup, ?_⟩
  rw [parenthesize_eq (parenthesize s), if_pos (closesFirst_iff.2 hgroup)]

theorem parenthesize_of_two_groups :
    parenthesize "(a = b) * (c)" = "((a = b) * (c))" ∧ parenthesize "((a) * (b))" = "((a) * (b))" :=
  ⟨(parenthesize_of_paired (s := "(a = b) * (c)") (by decide +kernel)).1.trans (by decide +kernel),
    (parenthesize_of_paired (s := "((a) * (b))") (by decide +kernel)).1.trans (by decide +kernel)⟩

end Shading
