import Mathlib.Logic.Function.Iterate
import Shading.Dialect.Plain
import Shading.Proofs.Carriers.Texts
import Shading.Proofs.Execution
import Shading.Proofs.Naming

/-!
# The heads of loops

A loop is emitted with a head in the manner of C: a variable of type `int` with a first value, a test against a bound, and
an update behind each turn. Its integers have 32 bits and wrap. The head of a `for` statement is meant to run through the
range that is written: from the first value on, in steps, as long as the bound is not reached.

It does so exactly if the value behind the last turn is an integer of 32 bits. Otherwise that value wraps to the other
end, where the test succeeds once more. A step that is not written ends on the bound, so it never does that.
-/

namespace Shading

open List

namespace Loop

/-! ## Heads -/

/-- What happens to the variable of a loop behind each turn. -/
inductive Update where
  | increment
  | decrement
  | add (n : Int)
  | subtract (n : Int)

/-- The head of a loop over an integer variable. The test asks whether the variable is less than the bound if the loop
goes upwards, and whether it is greater otherwise. -/
structure Head where
  first : Int
  upwards : Bool
  bound : Int
  update : Update

namespace Update

def text (x : String) : Update → String
  | increment => x ++ "++"
  | decrement => x ++ "--"
  | add n => x ++ " += " ++ toString n
  | subtract n => x ++ " -= " ++ toString n

/-- The variable behind a turn. -/
def apply : Update → Int32 → Int32
  | increment, v => v + 1
  | decrement, v => v - 1
  | add n, v => v + .ofInt n
  | subtract n, v => v - .ofInt n

/-- The update for a step. -/
def ofStep (i : Int32) : Update :=
  if i = -1 then decrement
  else if i < 0 then subtract (-i.toInt)
  else if i = 1 then increment
  else add i.toInt

/-- Each of the updates adds the step, wherever it wraps. -/
theorem apply_ofStep (i v : Int32) : (ofStep i).apply v = v + i := by
  unfold ofStep
  split
  · subst_vars
    exact Int32.sub_eq_add_neg v 1
  · split
    · rw [apply, Int32.ofInt_neg, Int32.ofInt_toInt, Int32.sub_eq_add_neg, Int32.neg_neg]
    · split
      · subst_vars
        rfl
      · rw [apply, Int32.ofInt_toInt]

theorem text_injective {x : String} : Function.Injective (text x) := by
  intro u v h
  cases u <;> cases v <;>
    simp only [text, String.append_assoc, String.append_right_inj] at h
  case add.add => exact congrArg _ (Int.repr_inj.1 h)
  case subtract.subtract => exact congrArg _ (Int.repr_inj.1 h)
  case increment.increment | decrement.decrement => rfl
  all_goals
    have hchars := congrArg String.toList h
    simp at hchars

end Update

namespace Head

def text (x : String) (h : Head) : String :=
  "for (int " ++ x ++ " = " ++ toString h.first ++ "; " ++ x ++ (if h.upwards then " < " else " > ")
    ++ toString h.bound ++ "; " ++ h.update.text x ++ ") "

/-- The test of the head. -/
def goesOn (h : Head) (v : Int32) : Bool :=
  if h.upwards then decide (v < .ofInt h.bound) else decide (.ofInt h.bound < v)

/-- The loop comes to an end when it is started with the value `v` of its variable, which takes the given values in
their order. -/
inductive Visits (h : Head) : Int32 → List Int32 → Prop
  | stop {v : Int32} : h.goesOn v = false → Visits h v []
  | turn {v : Int32} {vs : List Int32} : h.goesOn v = true → Visits h (h.update.apply v) vs → Visits h v (v :: vs)

/-- The loop comes to an end, and its variable takes the given values in their order. -/
def Runs (h : Head) (vs : List Int32) : Prop := h.Visits (.ofInt h.first) vs

/-- The head that is emitted for a range. -/
def ofRange (a b i : Int32) : Head := ⟨a.toInt, !decide (i < 0), b.toInt, .ofStep i⟩

theorem text_ofRange (x : String) (a b i : Int32) : (ofRange a b i).text x = loopHead x a b i := by
  have hupdate : (Update.ofStep i).text x =
      if i = -1 then x ++ "--" else if i < 0 then x ++ " -= " ++ toString (-i.toInt)
      else if i = 1 then x ++ "++" else x ++ " += " ++ toString i.toInt := by
    unfold Update.ofStep
    repeat' split
    all_goals rfl
  unfold text loopHead
  rw [ofRange, hupdate]
  by_cases hi : i < 0 <;> simp [hi]

/-- A number holds no semicolon, so it ends before the next one. -/
theorem cutAt_number (n : Int) (t : String) :
    Text.cutAt ';' (toString n ++ ("; " ++ t)) = (toString n, some (" " ++ t)) := by
  have hsemicolon : "; " = String.singleton ';' ++ " " := by decide
  have hnot : ';' ∉ (toString n).toList := Glsl.toString_int_not_mem (by decide) (by decide) n
  rw [hsemicolon, String.append_assoc, Text.cutAt_append hnot]

/-- A text is the text of one head. -/
theorem text_injective {x : String} : Function.Injective (text x) := by
  intro h h' htext
  obtain ⟨first, upwards, bound, update⟩ := h
  obtain ⟨first', upwards', bound', update'⟩ := h'
  unfold text at htext
  simp only [String.append_assoc, String.append_right_inj] at htext
  have hcut := congrArg (Text.cutAt ';') htext
  rw [cutAt_number, cutAt_number, Prod.mk.injEq, Option.some.injEq, String.append_right_inj,
    String.append_right_inj] at hcut
  obtain ⟨hfirst, hrest⟩ := hcut
  obtain rfl : first = first' := Int.repr_inj.1 hfirst
  obtain rfl : upwards = upwards' := by
    have hchars := congrArg (fun t : String => t.toList.take 3) hrest
    cases upwards <;> cases upwards' <;> simp at hchars ⊢
  rw [String.append_right_inj] at hrest
  have hcut := congrArg (Text.cutAt ';') hrest
  rw [cutAt_number, cutAt_number, Prod.mk.injEq, Option.some.injEq, String.append_right_inj,
    String.append_left_inj] at hcut
  obtain ⟨hbound, hupdate⟩ := hcut
  obtain rfl : bound = bound' := Int.repr_inj.1 hbound
  obtain rfl : update = update' := Update.text_injective hupdate
  rfl

/-- A loop takes the values that its updates lead to, up to the first one at which it stops. -/
theorem visits_iterates (h : Head) (n : Nat) (v : Int32) :
    h.Visits v ((List.range n).map fun k => h.update.apply^[k] v) ↔
      (∀ k < n, h.goesOn (h.update.apply^[k] v) = true) ∧ h.goesOn (h.update.apply^[n] v) = false := by
  induction n generalizing v with
  | zero =>
    constructor
    · rintro ⟨hstop⟩
      exact ⟨by simp, hstop⟩
    · rintro ⟨-, hstop⟩
      exact .stop hstop
  | succ n ih =>
    have hvalues : (List.range (n + 1)).map (fun k => h.update.apply^[k] v) =
        v :: (List.range n).map fun k => h.update.apply^[k] (h.update.apply v) := by
      rw [range_succ_eq_map, map_cons, map_map]
      rfl
    have hall : (∀ k < n + 1, h.goesOn (h.update.apply^[k] v) = true) ↔
        h.goesOn v = true ∧ ∀ k < n, h.goesOn (h.update.apply^[k] (h.update.apply v)) = true := by
      rw [Nat.forall_lt_succ_left]
      rfl
    rw [hvalues, hall, Function.iterate_succ_apply, and_assoc, ← ih]
    constructor
    · rintro (_ | ⟨hgoes, hrest⟩)
      exact ⟨hgoes, hrest⟩
    · rintro ⟨hgoes, hrest⟩
      exact .turn hgoes hrest

end Head

/-! ## Ranges -/

/-- A number comes before the bound in the direction of the step. -/
def Before (b i : Int32) (n : Int) : Prop := if 0 < i then n < b.toInt else b.toInt < n

/-- The values are the numbers `a`, `a + i`, `a + 2 * i` and so on that come before the bound. -/
structure IsRange (a b i : Int32) (vs : List Int32) : Prop where
  value : ∀ (k : Nat) (hk : k < vs.length), vs[k].toInt = a.toInt + k * i.toInt
  before : ∀ k : Nat, Before b i (a.toInt + k * i.toInt) ↔ k < vs.length

/-- So many steps from the first value lead to an integer of 32 bits. -/
def Fits (a i : Int32) (steps : Nat) : Prop :=
  -2147483648 ≤ a.toInt + steps * i.toInt ∧ a.toInt + steps * i.toInt < 2147483648

instance (a i : Int32) (steps : Nat) : Decidable (Fits a i steps) := inferInstanceAs (Decidable (_ ∧ _))

section Values

variable {a b i : Int32}

theorem toInt_ofInt {n : Int} (h : -2147483648 ≤ n ∧ n < 2147483648) : (Int32.ofInt n).toInt = n :=
  Int32.toInt_ofInt_of_le h.1 h.2

/-- A number of strides is less than a distance as long as the distance is not covered. -/
theorem lt_turns {stride : Nat} (h : 0 < stride) (distance k : Nat) :
    k < (distance + stride - 1) / stride ↔ k * stride < distance := by
  rw [← Nat.succ_le_iff, Nat.le_div_iff_mul_le h, Nat.succ_mul]
  omega

theorem succ_steps (a i : Int32) (n : Nat) : a.toInt + (n + 1 : Nat) * i.toInt = (a.toInt + n * i.toInt) + i.toInt := by
  rw [Int.natCast_succ, Int.add_mul, Int.one_mul, Int.add_assoc]

/-- What comes before the bound lies between the first value and the bound. -/
theorem fits_of_before {k : Nat} (h : Before b i (a.toInt + k * i.toInt)) : Fits a i k := by
  have hpos : (0 < i) ↔ 0 < i.toInt := Int32.lt_iff_toInt_lt
  have hk : (0 : Int) ≤ k := Int.natCast_nonneg k
  have ha := a.le_toInt
  have ha' := a.toInt_lt
  have hb := b.le_toInt
  have hb' := b.toInt_lt
  unfold Before at h
  unfold Fits
  split at h
  · rename_i hup
    have hadvance := Int.mul_nonneg hk (hpos.1 hup).le
    omega
  · rename_i hdown
    have hadvance := Int.mul_nonpos_of_nonneg_of_nonpos hk (Int.not_lt.1 (mt hpos.2 hdown))
    omega

/-- The values of a loop are the range that is written. -/
theorem isRange_loopValues (hi : i ≠ 0) : IsRange a b i (loopValues a b i) := by
  have hne : i.toInt ≠ 0 := fun h => hi (Int32.toInt_inj.1 h)
  have hpos : (0 < i) ↔ 0 < i.toInt := Int32.lt_iff_toInt_lt
  have hle : (0 ≤ i) ↔ 0 ≤ i.toInt := Int32.le_iff_toInt_le
  have hbefore : ∀ k : Nat, Before b i (a.toInt + k * i.toInt) ↔ k < (loopValues a b i).length := by
    intro k
    rw [loopValues, length_map, length_range, lt_turns (by omega), Before]
    rcases Int.lt_or_gt_of_ne hne with hdown | hup
    · have hstep : (k : Int) * i.toInt = -((k * i.toInt.natAbs : Nat) : Int) := by
        rw [Int.natCast_mul, Int.ofNat_natAbs_of_nonpos hdown.le, Int.mul_neg, Int.neg_neg]
      rw [if_neg (mt hpos.1 (by omega)), if_neg (mt hle.1 (by omega)), hstep]
      omega
    · have hstep : (k : Int) * i.toInt = ((k * i.toInt.natAbs : Nat) : Int) := by
        rw [Int.natCast_mul, Int.natAbs_of_nonneg hup.le]
      rw [if_pos (hpos.2 hup), if_pos (hle.2 hup.le), hstep]
      omega
  refine ⟨fun k hk => ?_, hbefore⟩
  simp only [loopValues, getElem_map, getElem_range]
  exact toInt_ofInt (fits_of_before ((hbefore k).2 hk))

/-- So many updates add so many steps. -/
theorem iterate_update (a i : Int32) (n : Nat) : (Update.ofStep i).apply^[n] a = .ofInt (a.toInt + n * i.toInt) := by
  induction n with
  | zero => simp
  | succ n ih =>
    rw [Function.iterate_succ_apply', ih, Update.apply_ofStep, succ_steps, Int32.ofInt_add _ i.toInt, Int32.ofInt_toInt]

/-- The test asks whether the bound is still ahead. -/
theorem goesOn_ofRange (hi : i ≠ 0) (v : Int32) : (Head.ofRange a b i).goesOn v = true ↔ Before b i v.toInt := by
  have hne : i.toInt ≠ 0 := fun h => hi (Int32.toInt_inj.1 h)
  have hpos : (0 < i) ↔ 0 < i.toInt := Int32.lt_iff_toInt_lt
  have hneg : (i < 0) ↔ i.toInt < 0 := Int32.lt_iff_toInt_lt
  simp only [Head.goesOn, Head.ofRange, Int32.ofInt_toInt, Before]
  by_cases h : i < 0
  · have h' : ¬ 0 < i := by
      rw [hneg] at h
      rw [hpos]
      omega
    simp [h, h', Int32.lt_iff_toInt_lt]
  · have h' : 0 < i := by
      rw [hneg] at h
      rw [hpos]
      omega
    simp [h, h', Int32.lt_iff_toInt_lt]

/-- A value that is passed behind one before the bound is behind the bound if it is an integer of 32 bits; otherwise it
wraps to a value before the bound. -/
theorem before_wrapped {n : Int} (hbefore : Before b i n) (hfits : -2147483648 ≤ n ∧ n < 2147483648)
    (hbehind : ¬ Before b i (n + i.toInt)) :
    ¬ Before b i (Int32.ofInt (n + i.toInt)).toInt ↔ -2147483648 ≤ n + i.toInt ∧ n + i.toInt < 2147483648 := by
  constructor
  · intro hnot
    by_contra hout
    apply hnot
    have hi := i.le_toInt
    have hi' := i.toInt_lt
    have hwrapped := Int32.toInt_ofInt (n := n + i.toInt)
    have hpos : (0 < i) ↔ 0 < i.toInt := Int32.lt_iff_toInt_lt
    simp only [Int.bmod, Int32.size] at hwrapped
    by_cases hup : 0 < i
    · simp only [Before, if_pos hup] at hbefore ⊢
      have hstep := hpos.1 hup
      omega
    · simp only [Before, if_neg hup] at hbefore ⊢
      have hstep := mt hpos.2 hup
      omega
  · intro hin
    rwa [toInt_ofInt hin]

/-- The head that is emitted runs through the range that is written exactly if the value behind the last turn is an
integer of 32 bits. -/
theorem runs_ofRange_iff (hi : i ≠ 0) (hab : Before b i a.toInt) :
    (Head.ofRange a b i).Runs (loopValues a b i) ↔ Fits a i (loopValues a b i).length := by
  have hrange : IsRange a b i (loopValues a b i) := isRange_loopValues hi
  obtain ⟨n, hn⟩ : ∃ n, (loopValues a b i).length = n + 1 :=
    Nat.exists_eq_succ_of_ne_zero (Nat.pos_iff_ne_zero.1 ((hrange.before 0).1 (by simpa using hab)))
  have hvalues : loopValues a b i = (List.range (n + 1)).map fun k => (Head.ofRange a b i).update.apply^[k] a := by
    simp only [Head.ofRange, iterate_update, ← hn]
    simp [loopValues]
  have hgoes : ∀ k < n + 1, (Head.ofRange a b i).goesOn ((Head.ofRange a b i).update.apply^[k] a) = true := by
    intro k hk
    have hbefore := (hrange.before k).2 (hn ▸ hk)
    rw [goesOn_ofRange hi, Head.ofRange, iterate_update, toInt_ofInt (fits_of_before hbefore)]
    exact hbefore
  have hbefore := (hrange.before n).2 (by omega)
  have hbehind := mt (hrange.before (n + 1)).1 (by omega)
  rw [succ_steps] at hbehind
  rw [Head.Runs, show Int32.ofInt (Head.ofRange a b i).first = a from Int32.ofInt_toInt a, hvalues, Head.visits_iterates,
    and_iff_right hgoes, ← Bool.not_eq_true, goesOn_ofRange hi, Head.ofRange, iterate_update, length_map,
    length_range, Fits, succ_steps]
  exact before_wrapped hbefore (fits_of_before hbefore) hbehind

/-- A step of one leads to the bound and not beyond it. -/
theorem fits_of_unit (hi : i = 1 ∨ i = -1) : Fits a i (loopValues a b i).length := by
  have hrange : IsRange a b i (loopValues a b i) := isRange_loopValues (by rcases hi with rfl | rfl <;> decide)
  have hb := b.le_toInt
  have hb' := b.toInt_lt
  cases hn : (loopValues a b i).length with
  | zero => simpa [Fits] using And.intro a.le_toInt a.toInt_lt
  | succ n =>
    have hbefore := (hrange.before n).2 (by omega)
    have hfits := fits_of_before hbefore
    unfold Fits at hfits ⊢
    rw [succ_steps]
    rcases hi with rfl | rfl
    · simp only [Before, if_pos (show (0 : Int32) < 1 by decide)] at hbefore
      have hone : (1 : Int32).toInt = 1 := rfl
      omega
    · simp only [Before, if_neg (show ¬ (0 : Int32) < -1 by decide)] at hbefore
      have hone : (-1 : Int32).toInt = -1 := rfl
      omega

end Values

end Loop

namespace Check

variable {ctx : Context} {x : Ident} {a b i : Int32} {s s' : Expansion}

/-- A step leads towards the bound, and is one if it is not written. -/
theorem gives_loopStep {step : Option Expr} (h : Gives (loopStep ctx x a b step) s i s') (hab : a ≠ b) :
    i ≠ 0 ∧ Loop.Before b i a.toInt ∧ (step = none → i = 1 ∨ i = -1) := by
  have hne : a.toInt ≠ b.toInt := mt Int32.toInt_inj.1 hab
  unfold Loop.Before
  cases step with
  | none =>
    simp only [loopStep, gives_pure] at h
    obtain ⟨rfl, -⟩ := h
    by_cases hba : b < a
    · have hless := Int32.lt_iff_toInt_lt.1 hba
      rw [if_pos hba]
      exact ⟨by decide, by rwa [if_neg (by decide)], fun _ => .inr rfl⟩
    · have hnot := mt Int32.lt_iff_toInt_lt.2 hba
      rw [if_neg hba]
      refine ⟨by decide, ?_, fun _ => .inl rfl⟩
      rw [if_pos (by decide)]
      omega
  | some e =>
    simp only [loopStep, gives_bind, gives_guard, gives_pure, not_and_or] at h
    obtain ⟨i', s₁, -, hzero, hup, hdown, rfl, rfl⟩ := h
    simp only [Int32.lt_iff_toInt_lt, Int32.toInt_zero] at hup hdown ⊢
    have hi : i'.toInt ≠ 0 := fun h => hzero (Int32.toInt_inj.1 h)
    refine ⟨hzero, ?_, by simp⟩
    split <;> omega

/-- The head of an emitted loop runs through the range that is written exactly if the value behind its last turn is an
integer of 32 bits, as it is where no step is written. -/
theorem loop_runs_range_iff {fc : FnContext} {inLoop : Bool} {outer : List (Scope Var)} {inner inner' : Scope Var}
    {first bound : Expr} {step : Option Expr} {body : Block} {span : Span} {k : Kept} (d : Dialect)
    (h : Gives (stmt fc inLoop outer inner (.forStmt x first bound step body span)) s (inner', some k) s') :
    ∃ (a b i : Int32) (s₁ s₂ s₃ : Expansion) (code : List Code) (head : Loop.Head),
      Gives (constInt ⟨inner :: outer, fc.globals⟩ first) s a s₁ ∧
      Gives (constInt ⟨inner :: outer, fc.globals⟩ bound) s₁ b s₂ ∧
      Gives (loopStep ⟨inner :: outer, fc.globals⟩ x a b step) s₂ i s₃ ∧
      k.code = .loop x a b i code ∧
      (∀ head', d.code k.code = head'.text (d.ident x) ++ braced (d.codes code) ↔ head' = head) ∧
      Loop.IsRange a b i (loopValues a b i) ∧
      (head.Runs (loopValues a b i) ↔ Loop.Fits a i (loopValues a b i).length) ∧
      (step = none → Loop.Fits a i (loopValues a b i).length) := by
  obtain ⟨a, s₁, b, s₂, i, s₃, kept, s₄, ha, hb, hi, hkept, ⟨-, hr, -⟩ | ⟨hturns, -, hr⟩⟩ := gives_for h
  · cases hr
  · obtain ⟨rfl, hk⟩ := Prod.mk.inj hr
    obtain rfl := Option.some.inj hk
    obtain ⟨hne, htowards, hunit⟩ := gives_loopStep hi fun hab => hturns (.inl hab)
    refine ⟨a, b, i, s₁, s₂, s₃, kept.body, .ofRange a b i, ha, hb, hi, rfl, fun head' => ?_,
      Loop.isRange_loopValues hne, Loop.runs_ofRange_iff hne htowards, fun hnone => Loop.fits_of_unit (hunit hnone)⟩
    rw [Dialect.code, ← Loop.Head.text_ofRange, String.append_left_inj, eq_comm]
    exact Loop.Head.text_injective.eq_iff

/-- A loop whose last step leads to the largest integer. -/
theorem loop_up_to_largest_int_runs :
    let number (n : Int32) : Expr := .lit (.int n) .unset
    ∃ (k : Kept) (s' : Expansion) (head : Loop.Head),
      Gives (stmt ⟨fun _ _ => pure none, .void⟩ false [] .empty (.forStmt "i" (number 2147483633) (number 2147483646)
        (some (number 7)) (.mk [.continueStmt .unset] .unset) .unset)) {} (.empty, some k) s' ∧
      (Plain.dialect {}).code k.code = head.text "i" ++ braced ["continue;"] ∧
      head.Runs [2147483633, 2147483640] := by
  intro number
  obtain ⟨k, s', hgives, hcode⟩ : ∃ (k : Kept) (s' : Expansion),
      Gives (stmt ⟨fun _ _ => pure none, .void⟩ false [] .empty (.forStmt "i" (number 2147483633) (number 2147483646)
        (some (number 7)) (.mk [.continueStmt .unset] .unset) .unset)) {} (.empty, some k) s' ∧
      k.code = .loop "i" 2147483633 2147483646 7 [.nextTurn] := ⟨_, _, rfl, rfl⟩
  obtain ⟨a, b, i, s₁, s₂, s₃, code, head, -, -, -, hloop, htext, -, hruns, -⟩ :=
    loop_runs_range_iff (Plain.dialect {}) hgives
  obtain ⟨-, rfl, rfl, rfl, rfl⟩ := Code.loop.inj (hloop.symm.trans hcode)
  have hvalues : loopValues 2147483633 2147483646 7 = [2147483633, 2147483640] := by decide
  exact ⟨k, s', head, hgives, (htext head).2 rfl, hvalues ▸ hruns.2 (by rw [hvalues]; decide)⟩

end Check

/-- A loop of one turn next to the largest integer: its variable wraps behind that turn, and it never ends. -/
theorem loop_past_largest_int_never_ends :
    let src : Source := .ofString ("fn vertex() -> vec4 \x7b let x = 0.0; for i from 2147483646 to 2147483647 step 2 " ++
      "\x7b x += 1.0; \x7d return vec4(x); \x7d\nfn fragment() -> vec4 \x7b return vec4(1); \x7d")
    let head : Loop.Head := ⟨2147483646, true, 2147483647, .add 2⟩
    (∃ (c : Compiled) (events : List Event), compile {} [] src = (.ok c, events) ∧
      c.vertexText = "#version 330 core\n\nvec4 vertex() \x7b\n    float x = 0.0;\n    " ++ head.text "i" ++
        "\x7b\n        x += 1.0;\n    \x7d\n    return vec4(x);\n\x7d\n\nvoid main() \x7b\n    " ++
        "gl_Position = vertex();\n\x7d\n") ∧
    Loop.IsRange 2147483646 2147483647 2 [2147483646] ∧ ∀ vs, ¬ head.Runs vs := by
  intro src head
  refine ⟨?_, ?_, ?_⟩
  · obtain ⟨decls, p, events, -, -, hrun, htext⟩ := compile_of_parse
      (show (parse src).toOption.any (fun decls =>
        (Program.check (Builtin.defaults ++ []) (Glsl.dialect {}).sharesDecls decls).1.toOption.any fun p =>
          (Glsl.dialect {}).stage p.vertex == "#version 330 core\n\nvec4 vertex() \x7b\n    float x = 0.0;\n    " ++
            head.text "i" ++ "\x7b\n        x += 1.0;\n    \x7d\n    return vec4(x);\n\x7d\n\nvoid main() \x7b\n    " ++
            "gl_Position = vertex();\n\x7d\n") = true by decide +kernel)
    exact ⟨_, events, hrun, beq_iff_eq.1 htext⟩
  · exact (show loopValues 2147483646 2147483647 2 = [2147483646] by decide) ▸ Loop.isRange_loopValues (by decide)
  · -- The variable stays even, and the bound is the only integer for which the test fails.
    have hstays : ∀ v vs, head.Visits v vs → v.toInt % 2 = 0 → False := by
      intro v vs hvisits
      induction hvisits with
      | @stop v hstop =>
        intro heven
        have hless : ¬ v < 2147483647 := of_decide_eq_false hstop
        rw [Int32.lt_iff_toInt_lt, show (2147483647 : Int32).toInt = 2147483647 from rfl] at hless
        have hmax := v.toInt_lt
        omega
      | @turn v _ _ _ ih =>
        intro heven
        apply ih
        show (v + 2).toInt % 2 = 0
        rw [Int32.toInt_add, show (2 : Int32).toInt = 2 from rfl, Int.bmod]
        split <;> omega
    exact fun vs hruns => hstays _ vs hruns (by decide)

/-- A loop down stops in front of its bound as well. -/
example : loopValues 2 0 (-1) = [2, 1] := by decide +kernel

end Shading
