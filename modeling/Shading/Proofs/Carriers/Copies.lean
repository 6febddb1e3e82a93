import Shading.Proofs.Carriers.Varyings

/-!
# Copies between varyings and carriers

The main function of a stage calls the function of the stage and copies between the varyings that have a carrier and the
carriers, element by element. The number of elements is read from the declarator of the varying, where the length of an
array is a decimal number that fits into 64 bits.
-/

namespace Shading.Glsl

open List Text

/-! ## Copies -/

section Copies

variable {v : Version} {stage : Stage} {x : Varying}

/-- A line that converts a value and assigns it. -/
def assignLine (target conversion source : String) : String :=
  "    " ++ target ++ " = " ++ conversion ++ "(" ++ source ++ ");"

/-- The line that copies an element: to the carrier at the end of the vertex stage, and from it at the beginning of the
fragment stage. -/
def copyLine (stage : Stage) (x : Varying) (carrier : BasicTy) (element : String) : String :=
  match stage with
  | .vertex => assignLine (carrierMark ++ x.name ++ element) carrier.name (varyingMark ++ x.name ++ element)
  | .fragment => assignLine (varyingMark ++ x.name ++ element) x.ty.name (carrierMark ++ x.name ++ element)

/-- The lines that copy a varying: one for each of its elements if it has a carrier, and otherwise none. -/
def copyLines (v : Version) (stage : Stage) (x : Varying) : List String :=
  (carrierOf? v x.ty).elim [] fun carrier => x.elements.map (copyLine stage x carrier)

theorem mem_copyLines {line : String} : line ∈ copyLines v stage x ↔
    ∃ carrier, carrierOf? v x.ty = some carrier ∧ ∃ e ∈ x.elements, line = copyLine stage x carrier e := by
  rw [copyLines]
  cases carrierOf? v x.ty with
  | none => simp
  | some carrier => simp [eq_comm]

theorem digitsValue?_eq {cs : List Char} (h : ∀ c ∈ cs, c.isDigit = true) (k : Nat) :
    Number.digitsValue? k cs = some (Nat.ofDigitChars 10 cs k) := by
  induction cs generalizing k with
  | nil => rfl
  | cons c cs ih =>
    rw [forall_mem_cons] at h
    rw [Number.digitsValue?, if_pos h.1, ih h.2, Nat.ofDigitChars_cons]
    rfl

theorem isDigit_toDigits (n : Nat) : ∀ c ∈ Nat.toDigits 10 n, c.isDigit = true :=
  fun _ hc => Nat.isDigit_of_mem_toDigits (by decide) (by decide) hc

theorem natural?_toDigits (n : Nat) : Number.natural? (Nat.toDigits 10 n) = some n := by
  obtain ⟨c, cs, hcs⟩ := exists_cons_of_ne_nil (Nat.toDigits_ne_nil (n := n) (b := 10))
  rw [hcs, Number.natural?, ← hcs]
  · rw [digitsValue?_eq (isDigit_toDigits n), Nat.ofDigitChars_ten_toDigits]
  · simp

theorem decimal?_toString {n : Nat} (h : n < Number.power 2 63) : Number.decimal? (toString n) = some (n : Int) := by
  have hlist : (toString n).toList = Nat.toDigits 10 n := by rw [Nat.toString_eq_ofList_toDigits, String.toList_ofList]
  have hfits : (some (n : Int)).filter (fun n =>
      decide (-(Number.power 2 63 : Int) ≤ n) && decide (n < (Number.power 2 63 : Int))) = some (n : Int) := by
    rw [Option.filter_some, if_pos]
    rw [Bool.and_eq_true, decide_eq_true_eq, decide_eq_true_eq]
    omega
  unfold Number.decimal?
  rw [hlist]
  dsimp only
  split
  · rename_i hsign
    exact absurd (isDigit_toDigits n '-' (hsign ▸ mem_cons_self)) (by decide)
  · rename_i hsign
    exact absurd (isDigit_toDigits n '+' (hsign ▸ mem_cons_self)) (by decide)
  · rw [natural?_toDigits]
    exact hfits

/-- The elements of a varying are found from the length in its declarator. -/
theorem elementIndices_length (h : x.Legible) :
    elementIndices (x.length.map fun n => toString n ++ "]") = x.elements := by
  obtain ⟨name, ty, _ | n⟩ := x
  · rfl
  · have hn : Number.decimal? (toString n) = some (n : Int) := decimal?_toString (h.length n rfl)
    simp only [Option.map_some, elementIndices, trimEnd_append, hn, Option.getD_some, Int.toNat_natCast,
      Varying.elements, Option.elim_some]

theorem carrierCopies_eq (h : x.Legible) (stage : Stage) (carrier : BasicTy) :
    carrierCopies stage ⟨x.ty.name, varyingMark ++ x.name ++ x.dims, carrier.name⟩ =
      ofLines (x.elements.map (copyLine stage x carrier)) := by
  have hbracket : '[' ∉ (varyingMark ++ x.name).toList :=
    ((by decide : WordChars varyingMark).append h.name).bracket_not_mem
  simp only [carrierCopies, cutAt_declared hbracket, elementIndices_length h, carrierName_mark, ofLines, map_map]
  congr 2
  funext e
  cases stage <;> simp [copyLine, assignLine, String.append_assoc]

end Copies

/-! ## The main function -/

section Main

variable {v : Version} {stage : Stage} {vs : List Varying}

/-- The line in front of the main function. -/
def mainHeading : String := "void main() \x7b"

/-- The lines of the main function in the text of a stage. -/
def mainBody (text : String) : List String :=
  (((codeLines text).dropWhile (· != mainHeading)).drop 1).takeWhile (· != "\x7d")

/-- The variable that the result of a stage goes to. -/
def outputVar (v : Version) : Stage → String
  | .vertex => "gl_Position"
  | .fragment => if v.hasInOut then colorOutput else "gl_FragColor"

/-- The line that calls the function of a stage. -/
def callLine (v : Version) (stage : Stage) : String :=
  "    " ++ outputVar v stage ++ " = " ++ stage.entryPoint ++ "();"

/-- The lines of the main function: copies stand behind the call in the vertex stage and before it in the fragment
stage. -/
def mainLines (v : Version) (stage : Stage) (vs : List Varying) : List String :=
  match stage with
  | .vertex => callLine v stage :: vs.flatMap (copyLines v stage)
  | .fragment => vs.flatMap (copyLines v stage) ++ [callLine v stage]

/-- The lines in front of the main function that declare the result of a stage. -/
def outputLines (v : Version) : Stage → List String
  | .vertex => []
  | .fragment => if v.hasInOut then ["out vec4 " ++ colorOutput ++ ";", ""] else []

theorem ident_entryPoint (stage : Stage) : ident stage.entryPoint = stage.entryPoint := by
  cases stage <;> decide +kernel

/-- The copies of a stage are those of the varyings that have a carrier. -/
theorem copies_eq (h : ∀ x ∈ vs, x.Legible) (v : Version) (stage : Stage) :
    String.join (((vs.map fun x => declarator x.ty (varyingMark ++ x.name) x).filterMap (carried? v)).map
      (carrierCopies stage)) = ofLines (vs.flatMap (copyLines v stage)) := by
  induction vs with
  | nil => rfl
  | cons x vs ih =>
    rw [forall_mem_cons] at h
    rw [flatMap_cons, ofLines_append, ← ih h.2, map_cons, copyLines]
    have hx := carried?_declarator v x
    cases hc : carrierOf? v x.ty with
    | none =>
      rw [hc, Option.map_none] at hx
      rw [filterMap_cons_none hx]
      exact (String.empty_append).symm
    | some carrier =>
      rw [hc, Option.map_some] at hx
      rw [filterMap_cons_some hx, map_cons, String.join_cons, carrierCopies_eq h.1]
      rfl

theorem entryPoint_eq (h : ∀ x ∈ vs, x.Legible) (v : Version) (stage : Stage) :
    entryPoint v stage stage.entryPoint (vs.map fun x => declarator x.ty (varyingMark ++ x.name) x) =
      ofLines (outputLines v stage ++ mainHeading :: (mainLines v stage vs ++ ["\x7d"])) := by
  unfold entryPoint
  rw [copies_eq h, ident_entryPoint, ← String.toList_inj]
  cases stage with
  | vertex => simp [mainLines, outputLines, mainHeading, callLine, outputVar]
  | fragment =>
    cases hv : v.hasInOut <;> simp [mainLines, outputLines, mainHeading, callLine, outputVar, hv]

theorem mainBody_eq {text : String} {above body : List String}
    (h : codeLines text = above ++ mainHeading :: (body ++ ["\x7d"])) (habove : mainHeading ∉ above)
    (hbody : "\x7d" ∉ body) : mainBody text = body := by
  have hskip : ∀ l ∈ above, (l != mainHeading) = true := by
    intro l hl
    rw [bne_iff_ne]
    rintro rfl
    exact habove hl
  have hkeep : ∀ l ∈ body, (l != "\x7d") = true := by
    intro l hl
    rw [bne_iff_ne]
    rintro rfl
    exact hbody hl
  rw [mainBody, h, dropWhile_append_of_pos hskip, dropWhile_cons_of_neg (by simp), drop_one,
    tail_cons, takeWhile_append_of_pos hkeep, takeWhile_cons_of_neg (by simp), append_nil]

end Main

/-! ## Each element is assigned once -/

section Targets

variable {v : Version} {stage : Stage} {x : Varying} {vs : List Varying} {e : String}

/-- What a line of code assigns to. -/
def assigned (line : String) : String := firstWord (trimStart "    " line)

/-- The variable that a line of code assigns to, or to an element of. -/
def assignedVar (line : String) : String := (cutAt '[' (assigned line)).1

/-- The mark of what a stage copies to. -/
def targetMark : Stage → String
  | .vertex => carrierMark
  | .fragment => varyingMark

theorem wordChars_targetMark (stage : Stage) : WordChars (targetMark stage) := by cases stage <;> decide

/-- An element is named by nothing behind the name, or by a number in brackets. -/
theorem eq_of_mem_elements (h : e ∈ x.elements) : e = "" ∨ ∃ n : Nat, e = "[" ++ toString n ++ "]" := by
  obtain ⟨_, _, _ | n⟩ := x
  · exact .inl (mem_singleton.1 h)
  · obtain ⟨i, -, rfl⟩ := mem_map.1 h
    exact .inr ⟨i, rfl⟩

theorem nodup_elements (x : Varying) : x.elements.Nodup := by
  obtain ⟨_, _, _ | n⟩ := x
  · exact nodup_singleton _
  · refine nodup_range.map fun i j hij => ?_
    have hnumber : toString i = toString j := (String.append_right_inj _).1 ((String.append_left_inj _).1 hij)
    exact Nat.repr_inj.1 hnumber

theorem blank_not_mem_element (h : e ∈ x.elements) : ' ' ∉ e.toList := by
  rcases eq_of_mem_elements h with rfl | ⟨n, rfl⟩
  · exact not_mem_nil
  · have hn := (WordChars.nat n).blank_not_mem
    simpa using hn

theorem cutAt_element (h : e ∈ x.elements) {name : String} (hname : '[' ∉ name.toList) :
    (cutAt '[' (name ++ e)).1 = name := by
  rcases eq_of_mem_elements h with rfl | ⟨n, rfl⟩
  · rw [String.append_empty, cutAt_of_not_mem hname]
  · rw [String.append_assoc, show "[" = String.singleton '[' from rfl, cutAt_append hname]

theorem assigned_assignLine {target : String} (h : ' ' ∉ target.toList) (conversion source : String) :
    assigned (assignLine target conversion source) = target := by
  have hline : assignLine target conversion source =
      "    " ++ (target ++ (" " ++ ("= " ++ conversion ++ "(" ++ source ++ ");"))) := by
    rw [← String.toList_inj]
    simp [assignLine]
  rw [hline, assigned, trimStart_append, firstWord_append h]

theorem assigned_copyLine (hx : x.Legible) (he : e ∈ x.elements) (stage : Stage) (carrier : BasicTy) :
    assigned (copyLine stage x carrier e) = targetMark stage ++ x.name ++ e := by
  have hblank : ' ' ∉ (targetMark stage ++ x.name ++ e).toList := by
    rw [String.toList_append, mem_append, not_or]
    exact ⟨((wordChars_targetMark stage).append hx.name).blank_not_mem, blank_not_mem_element he⟩
  cases stage with
  | vertex => exact assigned_assignLine hblank _ _
  | fragment => exact assigned_assignLine hblank _ _

theorem wordChars_outputVar (v : Version) (stage : Stage) : WordChars (outputVar v stage) := by
  unfold outputVar
  cases stage with
  | vertex => exact (by decide : WordChars "gl_Position")
  | fragment => cases v.hasInOut <;> decide

theorem assigned_callLine (v : Version) (stage : Stage) : assigned (callLine v stage) = outputVar v stage := by
  have hline : callLine v stage = "    " ++ (outputVar v stage ++ (" " ++ ("= " ++ stage.entryPoint ++ "();"))) := by
    rw [← String.toList_inj]
    simp [callLine]
  rw [hline, assigned, trimStart_append, firstWord_append (wordChars_outputVar v stage).blank_not_mem]

theorem assignedVar_callLine (v : Version) (stage : Stage) : assignedVar (callLine v stage) = outputVar v stage := by
  rw [assignedVar, assigned_callLine, cutAt_of_not_mem (wordChars_outputVar v stage).bracket_not_mem]

/-- What a stage copies a varying to: each of its elements if it has a carrier, and otherwise nothing. -/
theorem map_assigned_copyLines (hx : x.Legible) (v : Version) (stage : Stage) :
    (copyLines v stage x).map assigned =
      (carrierOf? v x.ty).elim [] fun _ => x.elements.map (targetMark stage ++ x.name ++ ·) := by
  rw [copyLines]
  cases carrierOf? v x.ty with
  | none => rfl
  | some carrier =>
    rw [Option.elim_some, Option.elim_some, map_map]
    exact map_congr_left fun e he => assigned_copyLine hx he stage carrier

theorem targetMark_append_inj {other : Stage} {s t : String} (h : targetMark stage ++ s = targetMark other ++ t) :
    stage = other ∧ s = t := by
  have hlist := congrArg String.toList h
  cases stage <;> cases other <;> simp [targetMark, carrierMark, varyingMark, String.toList_inj] at hlist
  · exact ⟨rfl, hlist⟩
  · exact ⟨rfl, hlist⟩

/-- The result of a stage goes to no varying and no carrier. -/
theorem outputVar_ne (v : Version) (stage other : Stage) (s : String) : outputVar v stage ≠ targetMark other ++ s := by
  intro h
  have hlist := congrArg String.toList h
  unfold outputVar at hlist
  cases stage with
  | vertex => cases other <;> simp [targetMark, carrierMark, varyingMark] at hlist
  | fragment =>
    cases hv : v.hasInOut <;> cases other <;>
      simp [targetMark, carrierMark, varyingMark, colorOutput, outputMark, hv] at hlist

/-- A line that copies a varying assigns to it or to its carrier. -/
theorem assignedVar_of_mem (hx : x.Legible) {line : String} (h : line ∈ copyLines v stage x) :
    assignedVar line = targetMark stage ++ x.name := by
  obtain ⟨carrier, -, e, he, rfl⟩ := mem_copyLines.1 h
  have hbracket : '[' ∉ (targetMark stage ++ x.name).toList :=
    ((wordChars_targetMark stage).append hx.name).bracket_not_mem
  rw [assignedVar, assigned_copyLine hx he, cutAt_element he hbracket]

theorem nodup_copies (hvs : ∀ x ∈ vs, x.Legible) (hnames : (vs.map Varying.name).Nodup) (v : Version) (stage : Stage) :
    ((vs.flatMap (copyLines v stage)).map assigned).Nodup := by
  rw [map_flatMap, nodup_flatMap]
  constructor
  · intro x hx
    rw [map_assigned_copyLines (hvs x hx)]
    cases carrierOf? v x.ty with
    | none => exact nodup_nil
    | some carrier => exact (nodup_elements x).map fun e e' heq => (String.append_right_inj _).1 heq
  · refine (pairwise_map.1 hnames).imp_of_mem fun {x y} hx hy hne t htx hty => hne ?_
    obtain ⟨line, hline, rfl⟩ := mem_map.1 htx
    obtain ⟨line', hline', heq⟩ := mem_map.1 hty
    have hvar : targetMark stage ++ x.name = targetMark stage ++ y.name := by
      rw [← assignedVar_of_mem (hvs x hx) hline, ← assignedVar_of_mem (hvs y hy) hline', assignedVar, assignedVar, heq]
    exact (String.append_right_inj _).1 hvar

/-- A line of the main function is the call, or copies a varying. -/
theorem mem_mainLines {line : String} :
    line ∈ mainLines v stage vs ↔ line = callLine v stage ∨ ∃ x ∈ vs, line ∈ copyLines v stage x := by
  rw [← mem_flatMap]
  cases stage with
  | vertex => exact mem_cons
  | fragment => rw [mainLines, mem_append, mem_singleton, or_comm]

/-- Nothing is assigned twice in the main function. -/
theorem nodup_mainLines (hvs : ∀ x ∈ vs, x.Legible) (hnames : (vs.map Varying.name).Nodup) (v : Version)
    (stage : Stage) : ((mainLines v stage vs).map assigned).Nodup := by
  have hcopies := nodup_copies hvs hnames v stage
  have hcall : assigned (callLine v stage) ∉ (vs.flatMap (copyLines v stage)).map assigned := by
    intro hmem
    obtain ⟨line, hline, heq⟩ := mem_map.1 hmem
    obtain ⟨x, hx, hline⟩ := mem_flatMap.1 hline
    have hvar : outputVar v stage = targetMark stage ++ x.name := by
      rw [← assignedVar_callLine, ← assignedVar_of_mem (hvs x hx) hline, assignedVar, assignedVar, heq]
    exact outputVar_ne v stage stage x.name hvar
  have hperm : (mainLines v stage vs).Perm (callLine v stage :: vs.flatMap (copyLines v stage)) := by
    cases stage with
    | vertex => exact .refl _
    | fragment => exact perm_append_singleton _ _
  rw [(hperm.map assigned).nodup_iff, map_cons, nodup_cons]
  exact ⟨hcall, hcopies⟩

theorem filter_eq_singleton {ls : List String} (h : (ls.map assigned).Nodup) {line : String} (hline : line ∈ ls) :
    ls.filter (fun l => assigned l == assigned line) = [line] := by
  induction ls with
  | nil => cases hline
  | cons l ls ih =>
    rw [map_cons, nodup_cons] at h
    rcases mem_cons.1 hline with rfl | hline
    · have hrest : ls.filter (fun l => assigned l == assigned line) = [] := by
        rw [filter_eq_nil_iff]
        intro l hl heq
        exact h.1 (beq_iff_eq.1 heq ▸ mem_map_of_mem hl)
      rw [filter_cons_of_pos (by simp), hrest]
    · have hne : assigned l ≠ assigned line := by
        intro heq
        rw [heq] at h
        exact h.1 (mem_map_of_mem hline)
      rw [filter_cons_of_neg (by simpa using hne), ih h.2 hline]

/-- An element of a varying that has a carrier is assigned by the line that copies it and by no other. -/
theorem filter_assigned (hvs : ∀ x ∈ vs, x.Legible) (hnames : (vs.map Varying.name).Nodup) (hx : x ∈ vs)
    {carrier : BasicTy} (hcarrier : carrierOf? v x.ty = some carrier) (he : e ∈ x.elements) (stage : Stage) :
    (mainLines v stage vs).filter (fun line => assigned line == targetMark stage ++ x.name ++ e) =
      [copyLine stage x carrier e] := by
  have hmem : copyLine stage x carrier e ∈ mainLines v stage vs := by
    apply mem_mainLines.2
    exact .inr ⟨x, hx, mem_copyLines.2 ⟨carrier, hcarrier, e, he, rfl⟩⟩
  rw [← assigned_copyLine (hvs x hx) he stage carrier]
  exact filter_eq_singleton (nodup_mainLines hvs hnames v stage) hmem

/-- A varying without a carrier is not copied, in neither direction. -/
theorem assignedVar_ne (hvs : ∀ x ∈ vs, x.Legible) (hnames : (vs.map Varying.name).Nodup) (hx : x ∈ vs)
    (hnone : carrierOf? v x.ty = none) (other : Stage) {line : String} (hline : line ∈ mainLines v stage vs) :
    assignedVar line ≠ targetMark other ++ x.name := by
  intro hvar
  rcases mem_mainLines.1 hline with rfl | ⟨y, hy, hline⟩
  · rw [assignedVar_callLine] at hvar
    exact outputVar_ne v stage other x.name hvar
  · have hcopied := assignedVar_of_mem (hvs y hy) hline
    obtain ⟨-, hname⟩ := targetMark_append_inj (hcopied.symm.trans hvar)
    obtain rfl := inj_on_of_nodup_map hnames hy hx hname
    obtain ⟨carrier, hsome, -⟩ := mem_copyLines.1 hline
    rw [hnone] at hsome
    cases hsome

end Targets

end Shading.Glsl
