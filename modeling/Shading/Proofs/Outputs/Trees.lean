import Shading.Command.Run
import Shading.Files.Memory

/-!
# Written files

What steps on a desk do to its files. A path that leads somewhere leads to the place that its components spell, so places
do not depend on what a tree holds. Steps only add: a directory stays, and a file stays a file, with the text that was last
written to its place.

`Wrote ws d d'` says that the desk `d'` comes from `d` by writing the texts `ws` to their places, one after another. All
that a step does to the files of a desk follows from its list of writes.
-/

namespace Shading

open List

namespace FileTree

/-! ## Places -/

/-- The place that one component leads to. -/
def stepTo (here : Place) (c : String) : Place :=
  if c = "" ∨ c = "." then here else if c = ".." then here.dropLast else here ++ [c]

/-- The place that the components of a path spell. -/
def placeOf (cwd : Place) (path : String) : Place :=
  (Path.components path).foldl stepTo (if Path.isAbsolute path then [] else cwd)

/-- There is something where the component leads from a place. -/
def Leads (t : FileTree) (here : Place) (c : String) : Prop :=
  c = "" ∨ c = "." ∨ c = ".." ∨ (t.kind? (here ++ [c])).isSome = true

/-- Each step of a walk starts at a directory and leads somewhere. -/
theorem walk_cons {t : FileTree} {here p : Place} {c : String} {cs : List String} :
    t.walk here (c :: cs) = .ok p ↔
      t.isDirectory here = true ∧ t.Leads here c ∧ t.walk (stepTo here c) cs = .ok p := by
  unfold Leads stepTo
  rw [walk]
  cases hdir : t.isDirectory here with
  | false => simp
  | true =>
    by_cases hstay : c = "" ∨ c = "."
    · rcases hstay with rfl | rfl <;> simp
    · obtain ⟨hempty, hdot⟩ := not_or.1 hstay
      by_cases hup : c = ".."
      · simp [hup]
      · by_cases hthere : (t.kind? (here ++ [c])).isSome = true
        · simp [hempty, hdot, hup, hthere]
        · simp [hempty, hdot, hup, hthere]

/-- The second tree has the directories and files of the first one. -/
structure Within (t t' : FileTree) : Prop where
  directories : ∀ p, t.isDirectory p = true → t'.isDirectory p = true
  files : ∀ p, (t.content? p).isSome = true → (t'.content? p).isSome = true

section Walks

variable {t t' t'' : FileTree} {cwd here p : Place} {path : String}

theorem Within.refl (t : FileTree) : t.Within t := ⟨fun _ h => h, fun _ h => h⟩

theorem Within.trans (h : t.Within t') (h' : t'.Within t'') : t.Within t'' :=
  ⟨fun p hp => h'.directories p (h.directories p hp), fun p hp => h'.files p (h.files p hp)⟩

theorem isSome_kind? {p : Place} :
    (t.kind? p).isSome = true ↔ t.isDirectory p = true ∨ (t.content? p).isSome = true := by
  unfold kind?
  cases t.isDirectory p <;> cases (t.content? p).isSome <;> simp

theorem Within.leads (h : t.Within t') {c : String} (hc : t.Leads here c) : t'.Leads here c := by
  refine hc.imp_right (Or.imp_right (Or.imp_right fun hkind => ?_))
  exact isSome_kind?.2 ((isSome_kind?.1 hkind).imp (h.directories _) (h.files _))

/-- A walk leads where its components say. -/
theorem place_of_walk {cs : List String} (h : t.walk here cs = .ok p) : p = cs.foldl stepTo here := by
  induction cs generalizing here with
  | nil =>
    cases h
    rfl
  | cons c cs ih => exact ih (walk_cons.1 h).2.2

/-- A walk is possible also where there is more. -/
theorem Within.walk (h : t.Within t') {cs : List String} (hwalk : t.walk here cs = .ok p) : t'.walk here cs = .ok p := by
  induction cs generalizing here with
  | nil => exact hwalk
  | cons c cs ih =>
    obtain ⟨hdir, hleads, hrest⟩ := walk_cons.1 hwalk
    exact walk_cons.2 ⟨h.directories _ hdir, h.leads hleads, ih hrest⟩

theorem walk_append {cs ds : List String} {q : Place} (h : t.walk here cs = .ok p) (h' : t.walk p ds = .ok q) :
    t.walk here (cs ++ ds) = .ok q := by
  induction cs generalizing here with
  | nil =>
    cases h
    exact h'
  | cons c cs ih =>
    obtain ⟨hdir, hleads, hrest⟩ := walk_cons.1 h
    exact walk_cons.2 ⟨hdir, hleads, ih hrest⟩

theorem resolve_eq_ok : t.resolve cwd path = .ok p ↔ path.isEmpty = false ∧
    t.walk (if Path.isAbsolute path then [] else cwd) (Path.components path) = .ok p := by
  unfold resolve
  cases path.isEmpty <;> simp

theorem place_of_resolve (h : t.resolve cwd path = .ok p) : p = placeOf cwd path :=
  place_of_walk (resolve_eq_ok.1 h).2

theorem Within.resolve (h : t.Within t') (hp : t.resolve cwd path = .ok p) : t'.resolve cwd path = .ok p :=
  resolve_eq_ok.2 ⟨(resolve_eq_ok.1 hp).1, h.walk (resolve_eq_ok.1 hp).2⟩

/-- A place where something can be made is a name in a directory that is there. -/
theorem resolveNew_eq_ok (h : t.resolveNew cwd path = .ok p) :
    path.isEmpty = false ∧ ∃ around cs name, Path.components path = cs ++ [name] ∧
      t.walk (if Path.isAbsolute path then [] else cwd) cs = .ok around ∧ t.isDirectory around = true ∧
      name ≠ "" ∧ name ≠ "." ∧ name ≠ ".." ∧ p = around ++ [name] := by
  simp only [resolveNew, bind, Except.bind, pure, Except.pure, throw, throwThe, MonadExceptOf.throw] at h
  cases hempty : path.isEmpty with
  | true => simp [hempty] at h
  | false =>
    cases hwalk : t.walk (if Path.isAbsolute path then [] else cwd) (Path.components path).dropLast with
    | error e => simp [hempty, hwalk] at h
    | ok around =>
      cases hdir : t.isDirectory around with
      | false => simp [hempty, hwalk, hdir] at h
      | true =>
        simp only [hempty, hwalk, hdir, Bool.false_eq_true, if_false, Bool.not_true] at h
        split at h
        · cases h
        · rename_i hname
          simp only [not_or] at hname
          cases hlast : (Path.components path).getLast? with
          | none => simp [hlast] at hname
          | some name =>
            simp only [hlast, Option.getD_some] at h hname
            obtain ⟨cs, hcs⟩ := getLast?_eq_some_iff.1 hlast
            rw [hcs, dropLast_concat] at hwalk
            exact ⟨rfl, around, cs, name, hcs, hwalk, hdir, hname.1, hname.2.1, hname.2.2, (Except.ok.inj h).symm⟩

theorem stepTo_name {name : String} (h₁ : name ≠ "") (h₂ : name ≠ ".") (h₃ : name ≠ "..") :
    stepTo here name = here ++ [name] := by
  simp [stepTo, h₁, h₂, h₃]

theorem place_of_resolveNew (h : t.resolveNew cwd path = .ok p) : p = placeOf cwd path := by
  obtain ⟨-, around, cs, name, hcs, hwalk, -, h₁, h₂, h₃, rfl⟩ := resolveNew_eq_ok h
  rw [placeOf, hcs, foldl_append, foldl_cons, foldl_nil, ← place_of_walk hwalk, stepTo_name h₁ h₂ h₃]

/-- What has been made is found again under the same path. -/
theorem resolve_of_resolveNew (h : t.resolveNew cwd path = .ok p) (hwithin : t.Within t')
    (hfile : (t'.content? p).isSome = true) : t'.resolve cwd path = .ok p := by
  obtain ⟨hempty, around, cs, name, hcs, hwalk, hdir, h₁, h₂, h₃, rfl⟩ := resolveNew_eq_ok h
  have hlast : t'.walk around [name] = .ok (around ++ [name]) := by
    refine walk_cons.2 ⟨hwithin.directories _ hdir, .inr (.inr (.inr (isSome_kind?.2 (.inr hfile)))), ?_⟩
    rw [stepTo_name h₁ h₂ h₃]
    rfl
  refine resolve_eq_ok.2 ⟨hempty, ?_⟩
  rw [hcs]
  exact walk_append (hwithin.walk hwalk) hlast

end Walks

/-! ## Making directories and files -/

section Making

variable (t : FileTree) (p q : Place) (bytes : ByteArray)

theorem within_withDirectory : t.Within (t.withDirectory p) := by
  refine ⟨fun q hq => ?_, fun q hq => hq⟩
  unfold isDirectory at hq ⊢
  simp only [withDirectory, Bool.or_eq_true, contains_eq_mem, decide_eq_true_eq, mem_append] at hq ⊢
  exact hq.imp_right .inl

theorem lookup_without (files : List (Place × ByteArray)) :
    (files.filter fun f => f.1 != p).lookup q = if q = p then none else files.lookup q := by
  induction files with
  | nil => simp
  | cons f files ih =>
    obtain ⟨r, b⟩ := f
    by_cases hrp : r = p
    · subst hrp
      simp only [filter_cons, bne_self_eq_false, Bool.false_eq_true, if_false, ih, lookup_cons]
      split
      · rfl
      · rename_i hqr
        rw [beq_false_of_ne hqr]
    · have hkeep : (r != p) = true := bne_iff_ne.2 hrp
      simp only [filter_cons, hkeep, if_true, lookup_cons, ih]
      by_cases hqr : q = r
      · subst hqr
        simp [hrp]
      · rw [beq_false_of_ne hqr]

theorem content?_withFile : (t.withFile p bytes).content? q = if q = p then some bytes else t.content? q := by
  unfold content? withFile
  rw [lookup_append, lookup_without]
  by_cases hqp : q = p
  · simp [hqp]
  · simp [hqp, lookup_cons, beq_false_of_ne hqp]

theorem within_withFile : t.Within (t.withFile p bytes) := by
  refine ⟨fun q hq => hq, fun q hq => ?_⟩
  rw [content?_withFile]
  split
  · rfl
  · exact hq

end Making

end FileTree

/-! ## Steps on desks -/

open FileTree

/-- The bytes of the file at the place that a path spells. -/
def Desk.bytesAt (d : Desk) (path : String) : Option ByteArray := d.tree.content? (placeOf d.cwd path)

/-- The text that was written last to a place. -/
def lastText? (ws : List (Place × String)) (p : Place) : Option String := ws.reverse.lookup p

theorem lastText?_append (ws ws' : List (Place × String)) (p : Place) :
    lastText? (ws ++ ws') p = (lastText? ws' p).or (lastText? ws p) := by
  rw [lastText?, reverse_append, lookup_append]
  rfl

/-- The writes with their places. -/
def placed (cwd : Place) (ws : List (String × String)) : List (Place × String) :=
  ws.map fun w => (placeOf cwd w.1, w.2)

theorem placed_append (cwd : Place) (ws ws' : List (String × String)) :
    placed cwd (ws ++ ws') = placed cwd ws ++ placed cwd ws' := map_append

/-- What was written last to a place was written to it. -/
theorem mem_of_lastText? {cwd p : Place} {ws : List (String × String)} {text : String}
    (h : lastText? (placed cwd ws) p = some text) : ∃ path, (path, text) ∈ ws ∧ placeOf cwd path = p := by
  obtain ⟨before, after, heq, -⟩ := lookup_eq_some_iff.1 h
  have hmem : (p, text) ∈ (placed cwd ws).reverse := by simp [heq]
  obtain ⟨⟨path, text'⟩, hw, heq⟩ := mem_map.1 (mem_reverse.1 hmem)
  cases heq
  exact ⟨path, hw, rfl⟩

/-- Something was written last to a place that was written to. -/
theorem isSome_lastText? (cwd : Place) {ws : List (String × String)} {w : String × String} (h : w ∈ ws) :
    (lastText? (placed cwd ws) (placeOf cwd w.1)).isSome = true := by
  refine Option.isSome_iff_ne_none.2 fun hnone => ?_
  have hmem : (placeOf cwd w.1, w.2) ∈ (placed cwd ws).reverse := mem_reverse.2 (mem_map.2 ⟨w, h, rfl⟩)
  simpa using lookup_eq_none_iff.1 hnone _ hmem

/-- The desk `d'` comes from `d` by writing texts to paths, one after another, and printing. Directories may have been
made for them. -/
structure Wrote (ws : List (String × String)) (printed : String) (d d' : Desk) : Prop where
  cwd : d'.cwd = d.cwd
  out : d'.out = d.out ++ printed
  within : d.tree.Within d'.tree
  contents : ∀ p, d'.tree.content? p = ((lastText? (placed d.cwd ws) p).map String.toUTF8).or (d.tree.content? p)
  resolved : ∀ w ∈ ws, d'.tree.resolve d.cwd w.1 = .ok (placeOf d.cwd w.1)

namespace Wrote

variable {ws ws' : List (String × String)} {printed printed' : String} {d d₁ d₂ : Desk}

theorem refl (d : Desk) : Wrote [] "" d d :=
  ⟨rfl, by simp, .refl _, fun _ => rfl, by simp⟩

theorem trans (h : Wrote ws printed d d₁) (h' : Wrote ws' printed' d₁ d₂) :
    Wrote (ws ++ ws') (printed ++ printed') d d₂ where
  cwd := h'.cwd.trans h.cwd
  out := by rw [h'.out, h.out, String.append_assoc]
  within := h.within.trans h'.within
  contents p := by
    rw [h'.contents, h.contents, h.cwd, placed_append, lastText?_append, Option.map_or, Option.or_assoc]
  resolved w hw := by
    rcases mem_append.1 hw with hw | hw
    · exact h'.within.resolve (h.resolved w hw)
    · exact h.cwd ▸ h'.resolved w hw

end Wrote

namespace OnDesk

/-- The step gives `a` on the desk `d` and leaves `d'`. -/
def Gives {α : Type} (m : OnDesk α) (d : Desk) (a : α) (d' : Desk) : Prop := StateT.run m d = (a, d')

section Steps

variable {α β : Type} {d d' : Desk} {path text : String}

@[simp] theorem gives_pure {a b : α} : Gives (pure a) d b d' ↔ a = b ∧ d = d' := Prod.mk.injEq _ _ _ _ ▸ Iff.rfl

@[simp] theorem gives_bind {m : OnDesk α} {f : α → OnDesk β} {b : β} :
    Gives (m >>= f) d b d' ↔ ∃ a d₁, Gives m d a d₁ ∧ Gives (f a) d₁ b d' := by
  constructor
  · intro h
    exact ⟨(StateT.run m d).1, (StateT.run m d).2, rfl, h⟩
  · rintro ⟨a, d₁, hm, hf⟩
    show (StateT.run (f (StateT.run m d).1) (StateT.run m d).2) = _
    rw [show StateT.run m d = (a, d₁) from hm]
    exact hf

theorem gives_of_fst {m : OnDesk α} {a : α} (h : (StateT.run m d).1 = a) : Gives m d a (StateT.run m d).2 :=
  Prod.ext h rfl

@[simp] theorem gives_get {a : Desk} : Gives get d a d' ↔ d = a ∧ d = d' := Prod.mk.injEq _ _ _ _ ▸ Iff.rfl

@[simp] theorem gives_set {a : Desk} {u : PUnit} : Gives (set a) d u d' ↔ a = d' :=
  ⟨fun h => congrArg Prod.snd h, fun h => congrArg (Prod.mk _) h⟩

/-- A file can be read where its path leads to it. -/
theorem gives_readFile {bytes : ByteArray} :
    Gives (Host.readFile path) d (.ok bytes) d' ↔
      d = d' ∧ d.tree.resolve d.cwd path = .ok (placeOf d.cwd path) ∧ d.bytesAt path = some bytes := by
  show Gives (OnDesk.readFile path) d (.ok bytes) d' ↔ _
  simp only [OnDesk.readFile, gives_bind, gives_get]
  constructor
  · rintro ⟨_, _, ⟨rfl, rfl⟩, h⟩
    cases hp : d.tree.resolve d.cwd path with
    | error e => simp [hp] at h
    | ok p =>
      obtain rfl := place_of_resolve hp
      cases hcontent : d.tree.content? (placeOf d.cwd path) with
      | none => simp [hp, hcontent] at h
      | some bytes' =>
        simp only [hp, hcontent, gives_pure, Except.ok.injEq] at h
        obtain ⟨rfl, rfl⟩ := h
        exact ⟨rfl, rfl, hcontent⟩
  · rintro ⟨rfl, hp, hbytes⟩
    refine ⟨d, d, ⟨rfl, rfl⟩, ?_⟩
    have hcontent : d.tree.content? (placeOf d.cwd path) = some bytes := hbytes
    simp [hp, hcontent]

theorem wrote_printOut {u : Unit} (h : Gives (Host.printOut text) d u d') : Wrote [] text d d' := by
  cases h
  exact ⟨rfl, rfl, .refl _, fun _ => rfl, by simp⟩

theorem wrote_printError {u : Unit} (h : Gives (Host.printError text) d u d') : Wrote [] "" d d' := by
  cases h
  exact ⟨rfl, by simp, .refl _, fun _ => rfl, by simp⟩

theorem wrote_makeDir {r : Except FileProblem Unit} (h : Gives (Host.makeDir path) d r d') : Wrote [] "" d d' := by
  replace h : Gives (OnDesk.makeDir path) d r d' := h
  simp only [OnDesk.makeDir, gives_bind, gives_get] at h
  obtain ⟨_, _, ⟨rfl, rfl⟩, h⟩ := h
  cases hp : d.tree.resolveNew d.cwd path with
  | error e =>
    simp only [hp, gives_pure] at h
    exact h.2 ▸ .refl d
  | ok p =>
    simp only [hp] at h
    split at h
    · rw [gives_pure] at h
      exact h.2 ▸ .refl d
    · simp only [gives_bind, gives_set, gives_pure] at h
      obtain ⟨-, _, rfl, -, rfl⟩ := h
      exact ⟨rfl, by simp, within_withDirectory _ _, fun _ => rfl, by simp⟩

/-- A file that is written holds its text, and all others hold what they did. -/
theorem wrote_writeFile (h : Gives (Host.writeFile path text) d (.ok ()) d') : Wrote [(path, text)] "" d d' := by
  replace h : Gives (OnDesk.writeFile path text) d (.ok ()) d' := h
  simp only [OnDesk.writeFile, gives_bind, gives_get] at h
  obtain ⟨_, _, ⟨rfl, rfl⟩, h⟩ := h
  cases hp : d.tree.resolveNew d.cwd path with
  | error e => simp [hp] at h
  | ok p =>
    simp only [hp] at h
    split at h
    · simp at h
    · simp only [gives_bind, gives_set, gives_pure] at h
      obtain ⟨-, _, rfl, -, rfl⟩ := h
      have hwithin := within_withFile d.tree p text.toUTF8
      obtain rfl := place_of_resolveNew hp
      refine ⟨rfl, by simp, hwithin, fun q => ?_, ?_⟩
      · show (d.tree.withFile (placeOf d.cwd path) text.toUTF8).content? q = _
        rw [content?_withFile]
        by_cases hq : q = placeOf d.cwd path
        · simp [lastText?, placed, hq]
        · simp [lastText?, placed, lookup_cons, beq_false_of_ne hq, hq]
      · intro w hw
        obtain rfl := mem_singleton.1 hw
        exact resolve_of_resolveNew hp hwithin (by simp [content?_withFile])

end Steps

end OnDesk

end Shading
