import Shading.Proofs.Naming
import Shading.Proofs.Outputs.Texts
import Shading.Proofs.Outputs.Trees

/-!
# The outputs of a run

A run of the compiler writes the texts of its sources one after another, each to the files that have the name of the source
in the output directory. What a file holds in the end is what was written to its place last. So the outputs of one source
are lost where a later one has the same name, and a source is lost where an output has its name.
-/

namespace Shading.Command
open List FileTree OnDesk

variable {ws : List (String × String)} {printed : String}

/-- A source of a run: its path, the files that its texts are written to, and what it is compiled to. -/
structure Job where
  source : String
  outputs : Outputs
  compiled : Compiled

/-- Bindings are written if a flag or the settings say so. -/
def Setup.writesBindings (s : Setup) (fs : Flags) : Bool := fs.bindings || s.config.output.bindings

namespace Job

/-- The texts that are written for a source, each with its path. -/
def texts (s : Setup) (withBindings : Bool) (j : Job) : List (String × String) :=
  let stages := [(j.outputs.vertex, j.compiled.vertexText), (j.outputs.fragment, j.compiled.fragmentText)]
  if withBindings then
    stages ++ [(j.outputs.bindings, (Bindings.ofCompiled (Glsl.dialect s.options) j.compiled).text)]
  else stages

/-- The line that reports the outputs of a source. -/
def report (withBindings : Bool) (j : Job) : String :=
  successLine j.source ("-> " ++ ", ".intercalate (j.outputs.list withBindings))

/-- The source has the bytes it is compiled from on the desk, and its outputs have its name. -/
structure IsOf (s : Setup) (fs : Flags) (d : Desk) (j : Job) : Prop where
  compiled : ∃ bytes events, d.bytesAt j.source = some bytes ∧
    compile s.options s.builtins (.ofBytes bytes) = (.ok j.compiled, events)
  outputs : j.outputs = .ofSource j.source (Config.orDefault fs.outDir s.config.output.dir)
    s.config.output.vertexExt s.config.output.fragmentExt

end Job

/-! ## Steps of a run -/

section Steps

variable {d d' : Desk} {s : Setup} {fs : Flags} {path : String}

/-- The step looks at the desk and leaves it as it is. -/
def LooksOnly {α : Type} (m : OnDesk α) : Prop := ∀ ⦃d a d'⦄, Gives m d a d' → d = d'

theorem LooksOnly.pure {α : Type} (a : α) : LooksOnly (Pure.pure a : OnDesk α) := fun _ _ _ h => (gives_pure.1 h).2

theorem LooksOnly.bind {α β : Type} {m : OnDesk α} {f : α → OnDesk β} (hm : LooksOnly m) (hf : ∀ a, LooksOnly (f a)) :
    LooksOnly (m >>= f) := by
  intro d b d' h
  obtain ⟨a, d₁, ha, hb⟩ := gives_bind.1 h
  exact (hm ha).trans (hf a hb)

theorem looksOnly_kindOf (path : String) : LooksOnly (Host.kindOf path : OnDesk _) := fun _ _ _ h => congrArg Prod.snd h

theorem looksOnly_workingDir : LooksOnly (Host.workingDir : OnDesk _) := fun _ _ _ h => congrArg Prod.snd h

theorem looksOnly_readFile (path : String) : LooksOnly (Host.readFile path : OnDesk _) := by
  intro d r d' h
  replace h : Gives (OnDesk.readFile path) d r d' := h
  simp only [OnDesk.readFile, gives_bind, gives_get] at h
  obtain ⟨_, _, ⟨rfl, rfl⟩, h⟩ := h
  repeat' split at h
  all_goals exact (gives_pure.1 h).2

theorem looksOnly_load (path : String) : LooksOnly (Config.load path : OnDesk _) := by
  refine (looksOnly_readFile path).bind fun r => ?_
  cases r <;> exact .pure _

theorem looksOnly_findIn (dirs : List String) : LooksOnly (Config.findIn dirs : OnDesk _) := by
  induction dirs with
  | nil => exact .pure _
  | cons dir dirs ih =>
    refine (looksOnly_kindOf _).bind fun r => ?_
    split
    · exact .pure _
    · exact ih

/-- Loading the settings changes nothing. -/
theorem looksOnly_loadSetup (fs : Flags) : LooksOnly (loadSetup fs : OnDesk _) := by
  have hconfig : LooksOnly (loadConfig fs : OnDesk _) := by
    unfold loadConfig
    split
    · exact looksOnly_load _
    · refine LooksOnly.bind (looksOnly_workingDir.bind fun cwd => looksOnly_findIn _) fun path => ?_
      cases path with
      | none => exact .pure _
      | some path => exact looksOnly_load path
  refine hconfig.bind fun r => ?_
  cases r <;> exact .pure _

theorem looksOnly_stat (path : String) : LooksOnly (Host.stat path : OnDesk _) :=
  (looksOnly_kindOf path).bind fun _ => .pure _

theorem gives_readSource {bytes : ByteArray} (h : Gives (readSource path) d (.ok bytes) d') :
    d = d' ∧ d.bytesAt path = some bytes := by
  simp only [readSource, gives_bind] at h
  obtain ⟨kind, d₁, hkind, h⟩ := h
  obtain rfl := looksOnly_stat path hkind
  cases kind with
  | error e => simp at h
  | ok kind =>
    cases kind with
    | directory => simp at h
    | file =>
      simp only [gives_bind, gives_pure] at h
      obtain ⟨r, d₁, hr, heq, rfl⟩ := h
      cases r with
      | error e => cases heq
      | ok b =>
        cases heq
        obtain ⟨rfl, -, hbytes⟩ := gives_readFile.1 hr
        exact ⟨rfl, hbytes⟩

theorem wrote_logEvents {level : Log.Level} {es : List Event} {u : Unit} (h : Gives (logEvents level es) d u d') :
    Wrote [] "" d d' := by
  induction es generalizing d with
  | nil => exact (gives_pure.1 h).2 ▸ .refl d
  | cons e es ih =>
    simp only [logEvents] at h
    split at h
    · obtain ⟨_, d₁, hprint, hrest⟩ := gives_bind.1 h
      exact (wrote_printError hprint).trans (ih hrest)
    · exact ih h

theorem wrote_compileFile {c : Compiled} (h : Gives (compileFile s path) d (some c) d') :
    Wrote [] "" d d' ∧ ∃ bytes events, d.bytesAt path = some bytes ∧
      compile s.options s.builtins (.ofBytes bytes) = (.ok c, events) := by
  simp only [compileFile, gives_bind] at h
  obtain ⟨r, d₁, hr, h⟩ := h
  cases r with
  | error message =>
    obtain ⟨_, _, -, h⟩ := gives_bind.1 h
    cases (gives_pure.1 h).1
  | ok bytes =>
    obtain ⟨rfl, hbytes⟩ := gives_readSource hr
    rcases hc : compile s.options s.builtins (.ofBytes bytes) with ⟨result, events⟩
    simp only [hc, gives_bind] at h
    obtain ⟨_, d₂, hlog, h⟩ := h
    cases result with
    | error e =>
      obtain ⟨_, _, -, h⟩ := gives_bind.1 h
      cases (gives_pure.1 h).1
    | ok c' =>
      simp only [gives_pure, Option.some.injEq] at h
      obtain ⟨rfl, rfl⟩ := h
      exact ⟨wrote_logEvents hlog, bytes, events, hbytes, hc⟩

theorem wrote_makeNested {paths : List String} {r : Except FileError Unit} (h : Gives (Host.makeNested paths) d r d') :
    Wrote [] "" d d' := by
  induction paths generalizing r d' with
  | nil => exact (gives_pure.1 h).2 ▸ .refl d
  | cons path paths ih =>
    simp only [Host.makeNested, gives_bind] at h
    obtain ⟨kind, d₁, hkind, h⟩ := h
    obtain rfl := looksOnly_kindOf path hkind
    cases kind with
    | ok kind => cases kind <;> exact (gives_pure.1 h).2 ▸ .refl d
    | error e =>
      simp only [gives_bind] at h
      obtain ⟨r₁, d₁, hr₁, h⟩ := h
      cases r₁ with
      | error e => exact (gives_pure.1 h).2 ▸ ih hr₁
      | ok u =>
        simp only [gives_bind, gives_pure] at h
        obtain ⟨r₂, d₂, hr₂, -, rfl⟩ := h
        exact (ih hr₁).trans (wrote_makeDir hr₂)

theorem wrote_writeFiles (h : Gives (writeFiles ws) d (.ok ()) d') : Wrote ws "" d d' := by
  induction ws generalizing d with
  | nil => exact (gives_pure.1 h).2 ▸ .refl d
  | cons w ws ih =>
    obtain ⟨path, text⟩ := w
    simp only [writeFiles, Host.write, gives_bind, gives_pure] at h
    obtain ⟨r, d₁, ⟨r₁, d₂, hwrite, rfl, rfl⟩, h⟩ := h
    cases r₁ with
    | error e => simp [Except.mapError] at h
    | ok u => exact (wrote_writeFile hwrite).trans (ih h)

/-- A source that succeeds has its texts written and its outputs reported. -/
theorem wrote_compileOne (hstdout : fs.stdout = false) (h : Gives (compileOne s fs path) d true d') :
    ∃ j : Job, j.source = path ∧ j.IsOf s fs d ∧
      Wrote (j.texts s (s.writesBindings fs)) (j.report (s.writesBindings fs)) d d' := by
  simp only [compileOne, gives_bind] at h
  obtain ⟨c, d₁, hc, h⟩ := h
  cases c with
  | none => simp at h
  | some c =>
    obtain ⟨hread, hcompiled⟩ := wrote_compileFile hc
    simp only [hstdout, Bool.false_eq_true, if_false, gives_bind, writeOutputs] at h
    obtain ⟨r, d₂, ⟨made, d₃, hmade, hwrite⟩, h⟩ := h
    cases r with
    | error e =>
      obtain ⟨_, _, -, h⟩ := gives_bind.1 h
      cases (gives_pure.1 h).1
    | ok u =>
      cases made with
      | error e => cases (gives_pure.1 hwrite).1
      | ok u =>
        simp only [gives_bind, gives_pure] at h
        obtain ⟨_, _, hprint, -, rfl⟩ := h
        refine ⟨⟨path, .ofSource path (Config.orDefault fs.outDir s.config.output.dir) s.config.output.vertexExt
          s.config.output.fragmentExt, c⟩, rfl, ⟨hcompiled, rfl⟩, ?_⟩
        have hwrote := ((hread.trans (wrote_makeNested hmade)).trans (wrote_writeFiles hwrite)).trans (wrote_printOut hprint)
        simpa [Job.texts, Job.report, Setup.writesBindings] using hwrote

end Steps

/-! ## Whole runs -/

section Runs

variable {d d' : Desk} {s : Setup} {fs : Flags}

/-- A compiled shader is written to texts that are no shaders. -/
theorem Job.IsOf.refused {j : Job} (h : j.IsOf s fs d) {withBindings : Bool} {w : String × String}
    (hw : w ∈ j.texts s withBindings) : (Source.ofBytes w.2.toUTF8).Refused := by
  obtain ⟨bytes, events, -, hcompiled⟩ := h.compiled
  obtain ⟨decls, p, -, -, heq, -, -⟩ := program_of_compile hcompiled
  have hstages : w ∈ [(j.outputs.vertex, j.compiled.vertexText), (j.outputs.fragment, j.compiled.fragmentText)] ∨
      w = (j.outputs.bindings, (Bindings.ofCompiled (Glsl.dialect s.options) j.compiled).text) := by
    unfold Job.texts at hw
    split at hw
    · simpa only [mem_append, mem_singleton] using hw
    · exact .inl hw
  rcases hstages with hstage | rfl
  · simp only [mem_cons, not_mem_nil, or_false] at hstage
    rcases hstage with rfl | rfl
    · rw [heq]
      exact refused_stage _ _
    · rw [heq]
      exact refused_stage _ _
  · exact refused_bindings _

theorem not_refused {options : Glsl.Options} {extra : Builtins} {src : Source} {c : Compiled} {events : List Event}
    (h : compile options extra src = (.ok c, events)) : ¬ src.Refused :=
  fun hrefused => hrefused _ _ _ _ h

/-- What can be compiled was not written by a run. -/
theorem untouched {path : String} {bytes : ByteArray} (hwrote : Wrote ws printed d d')
    (hrefused : ∀ w ∈ ws, (Source.ofBytes w.2.toUTF8).Refused) (hbytes : d'.bytesAt path = some bytes)
    (hcompiles : ¬ (Source.ofBytes bytes).Refused) : lastText? (placed d.cwd ws) (placeOf d.cwd path) = none := by
  rw [Desk.bytesAt, hwrote.cwd, hwrote.contents] at hbytes
  cases hlast : lastText? (placed d.cwd ws) (placeOf d.cwd path) with
  | none => rfl
  | some text =>
    rw [hlast] at hbytes
    obtain rfl : text.toUTF8 = bytes := Option.some.inj hbytes
    obtain ⟨path, hmem, -⟩ := mem_of_lastText? hlast
    exact absurd (hrefused _ hmem) hcompiles

theorem bytesAt_of_untouched {path : String} (hwrote : Wrote ws printed d d')
    (hnone : lastText? (placed d.cwd ws) (placeOf d.cwd path) = none) : d'.bytesAt path = d.bytesAt path := by
  rw [Desk.bytesAt, hwrote.cwd, hwrote.contents, hnone]
  rfl

/-- A source that compiles still has the bytes that it had before the writes of the others. -/
theorem Job.IsOf.before {j : Job} (hwrote : Wrote ws printed d d')
    (hrefused : ∀ w ∈ ws, (Source.ofBytes w.2.toUTF8).Refused) (h : j.IsOf s fs d') : j.IsOf s fs d := by
  obtain ⟨bytes, events, hbytes, hcompiled⟩ := h.compiled
  have hnone := untouched hwrote hrefused hbytes (not_refused hcompiled)
  exact ⟨⟨bytes, events, bytesAt_of_untouched hwrote hnone ▸ hbytes, hcompiled⟩, h.outputs⟩

/-- When no source fails, all their texts are written in their order. -/
theorem wrote_countFailures (hstdout : fs.stdout = false) {paths : List String}
    (h : Gives (countFailures (compileOne s fs) paths) d 0 d') :
    ∃ jobs : List Job, jobs.map Job.source = paths ∧ (∀ j ∈ jobs, j.IsOf s fs d) ∧
      Wrote (jobs.flatMap (Job.texts s (s.writesBindings fs)))
        (String.join (jobs.map (Job.report (s.writesBindings fs)))) d d' := by
  induction paths generalizing d with
  | nil => exact ⟨[], rfl, by simp, (gives_pure.1 h).2 ▸ .refl d⟩
  | cons path paths ih =>
    simp only [countFailures, gives_bind, gives_pure] at h
    obtain ⟨ok, d₁, hok, failed, d₂, hrest, hcount, rfl⟩ := h
    cases ok with
    | false => simp at hcount
    | true =>
      obtain rfl : failed = 0 := by simpa using hcount
      obtain ⟨j, hsource, hj, hwrote⟩ := wrote_compileOne hstdout hok
      obtain ⟨jobs, hsources, hjobs, hmore⟩ := ih hrest
      refine ⟨j :: jobs, by rw [map_cons, hsource, hsources], ?_, ?_⟩
      · intro k hk
        rcases mem_cons.1 hk with rfl | hk
        · exact hj
        · exact (hjobs k hk).before hwrote fun w hw => hj.refused hw
      · rw [flatMap_cons, map_cons, String.join_cons]
        exact hwrote.trans hmore

/-- A run that succeeds has loaded its settings, written the texts of all its sources and reported them. -/
theorem wrote_run {words rest args : List String} (hcommand : findCommand words = .ok (.compile, rest))
    (hflags : readFlags .compile rest = .ok (fs, args)) (hhelp : fs.help = false) (hstdout : fs.stdout = false)
    (hrun : Gives (run words) d .success d') :
    ∃ (s : Setup) (jobs : List Job), Gives (loadSetup fs) d (.ok s) d ∧ jobs.map Job.source = args ∧
      (∀ j ∈ jobs, j.IsOf s fs d) ∧
      Wrote (jobs.flatMap (Job.texts s (s.writesBindings fs)))
        (String.join (jobs.map (Job.report (s.writesBindings fs))) ++ summary args.length 0) d d' := by
  have hfail : ∀ {message : String} {d₁ : Desk}, ¬ Gives (fail message) d₁ .success d' := by
    intro message d₁ h
    obtain ⟨_, _, -, h⟩ := gives_bind.1 h
    cases (gives_pure.1 h).1
  simp only [run, hcommand, hflags, hhelp, Bool.false_or] at hrun
  rw [if_neg (by decide)] at hrun
  split at hrun
  · exact absurd hrun hfail
  · simp only [runCommand, gives_bind] at hrun
    obtain ⟨r, d₁, hr, hrun⟩ := hrun
    obtain rfl := looksOnly_loadSetup fs hr
    cases r with
    | error refusal =>
      cases refusal with
      | error message => exact absurd hrun hfail
      | breakdown message =>
        obtain ⟨_, _, -, h⟩ := gives_bind.1 hrun
        cases (gives_pure.1 h).1
    | ok s =>
      simp only [hstdout, Bool.not_false, if_true, gives_bind, gives_pure] at hrun
      obtain ⟨failed, d₁, hcount, _, d₂, hprint, hsuccess, rfl⟩ := hrun
      obtain rfl : failed = 0 := by
        unfold Outcome.ofFailures at hsuccess
        split at hsuccess
        · assumption
        · cases hsuccess
      obtain ⟨jobs, hsources, hjobs, hwrote⟩ := wrote_countFailures hstdout hcount
      refine ⟨s, jobs, hr, hsources, hjobs, ?_⟩
      simpa using hwrote.trans (wrote_printOut hprint)

end Runs

end Shading.Command

namespace Shading
open List FileTree OnDesk Command

/-- Reading the file at a path gives the text. -/
def Desk.Holds (d : Desk) (path text : String) : Prop := Gives (Host.readFile path) d (.ok text.toUTF8) d

/-- A file that is written holds what was written to its place last. -/
theorem Wrote.holds_iff {text : String} {d d' : Desk} (h : Wrote ws printed d d') {w : String × String}
    (hw : w ∈ ws) :
    d'.Holds w.1 text ↔ lastText? (placed d.cwd ws) (placeOf d.cwd w.1) = some text := by
  obtain ⟨last, hlast⟩ := Option.isSome_iff_exists.1 (isSome_lastText? d.cwd hw)
  have hbytes : d'.bytesAt w.1 = some last.toUTF8 := by
    rw [Desk.bytesAt, h.cwd, h.contents, hlast]
    rfl
  have hresolved : d'.tree.resolve d'.cwd w.1 = .ok (placeOf d'.cwd w.1) := h.cwd ▸ h.resolved w hw
  rw [Desk.Holds, gives_readFile, hbytes, hlast, Option.some.injEq, Option.some.injEq]
  constructor
  · rintro ⟨-, -, heq⟩
    exact String.toByteArray_inj.1 heq
  · rintro rfl
    exact ⟨rfl, hresolved, rfl⟩

namespace Command.Job

/-- Both stage files of the source hold its own texts, and the source has the bytes that it had. -/
def Kept (d d' : Desk) (j : Job) : Prop :=
  d'.Holds j.outputs.vertex j.compiled.vertexText ∧ d'.Holds j.outputs.fragment j.compiled.fragmentText ∧
    d'.bytesAt j.source = d.bytesAt j.source

/-- The last of the writes to the stage files of the source are its own texts, and none is to the source. -/
def HasLastWord (cwd : Place) (ws : List (Place × String)) (j : Job) : Prop :=
  lastText? ws (placeOf cwd j.outputs.vertex) = some j.compiled.vertexText ∧
    lastText? ws (placeOf cwd j.outputs.fragment) = some j.compiled.fragmentText ∧
    lastText? ws (placeOf cwd j.source) = none

end Command.Job

/-- **What a run of the compiler keeps.** A run that succeeds on its sources has compiled each of them from the bytes that
it had before the run, has written its texts to the files that its name and the settings give it, and has reported these
files. Its stage files then hold its own texts, and the source is as it was, exactly if none of the writes of the run to
the place of the source came at all, and the last ones to the places of the stage files were its own or wrote the same.
Places are those that paths spell from the working directory. -/
theorem compile_run_keeps_iff {words rest args : List String} {fs : Flags} {d d' : Desk}
    (hcommand : findCommand words = .ok (.compile, rest)) (hflags : readFlags .compile rest = .ok (fs, args))
    (hhelp : fs.help = false) (hstdout : fs.stdout = false) (hrun : Gives (run words) d .success d') :
    ∃ (s : Setup) (jobs : List Job), Gives (loadSetup fs) d (.ok s) d ∧ jobs.map Job.source = args ∧
      (∀ j ∈ jobs, j.IsOf s fs d) ∧
      d'.out = d.out ++ (String.join (jobs.map (Job.report (s.writesBindings fs))) ++ summary args.length 0) ∧
      ∀ j ∈ jobs, j.Kept d d' ↔
        j.HasLastWord d.cwd (placed d.cwd (jobs.flatMap (Job.texts s (s.writesBindings fs)))) := by
  obtain ⟨s, jobs, hsetup, hsources, hjobs, hwrote⟩ := wrote_run hcommand hflags hhelp hstdout hrun
  refine ⟨s, jobs, hsetup, hsources, hjobs, hwrote.out, fun j hj => ?_⟩
  have hwritten : ∀ w ∈ [(j.outputs.vertex, j.compiled.vertexText), (j.outputs.fragment, j.compiled.fragmentText)],
      w ∈ jobs.flatMap (Job.texts s (s.writesBindings fs)) := by
    intro w hw
    refine mem_flatMap.2 ⟨j, hj, ?_⟩
    unfold Job.texts
    split
    · exact mem_append_left _ hw
    · exact hw
  have hrefused : ∀ w ∈ jobs.flatMap (Job.texts s (s.writesBindings fs)), (Source.ofBytes w.2.toUTF8).Refused := by
    intro w hw
    obtain ⟨k, hk, hw⟩ := mem_flatMap.1 hw
    exact (hjobs k hk).refused hw
  refine and_congr (hwrote.holds_iff (hwritten _ (.head _)))
    (and_congr (hwrote.holds_iff (hwritten _ (.tail _ (.head _)))) ?_)
  obtain ⟨bytes, events, hbytes, hcompiled⟩ := (hjobs j hj).compiled
  constructor
  · intro hsame
    exact untouched hwrote hrefused (hsame.trans hbytes) (not_refused hcompiled)
  · exact bytesAt_of_untouched hwrote

/-- Two sources with names of their own are kept. -/
theorem distinct_sources_kept :
    let shader (n : String) : String := "fn vertex() -> vec4 \x7b return vec4(" ++ n ++ "); \x7d\n" ++
      "fn fragment() -> vec4 \x7b return vec4(" ++ n ++ "); \x7d\n"
    let d : Desk := { tree := ⟨[["a"]], [(["a", "x.shader"], (shader "1").toUTF8), (["y.shader"], (shader "2").toUTF8)]⟩ }
    ∃ (d' : Desk) (jobs : List Job), Gives (run ["compile", "a/x.shader", "y.shader"]) d .success d' ∧
      jobs.map Job.source = ["a/x.shader", "y.shader"] ∧ ∀ j ∈ jobs, j.Kept d d' := by
  intro shader d
  have hcommand : findCommand ["compile", "a/x.shader", "y.shader"] = .ok (.compile, ["a/x.shader", "y.shader"]) := by
    decide +kernel
  have hflags : readFlags .compile ["a/x.shader", "y.shader"] = .ok ({}, ["a/x.shader", "y.shader"]) := by
    decide +kernel
  have hrun := gives_of_fst (show (StateT.run (run ["compile", "a/x.shader", "y.shader"] : OnDesk Outcome) d).1 = .success by
    decide +kernel)
  obtain ⟨s, jobs, hsetup, hsources, hjobs, -, hkept⟩ := compile_run_keeps_iff hcommand hflags rfl rfl hrun
  have hdefault : ((StateT.run (loadSetup {} : OnDesk (Except Refusal Setup)) d).1.toOption.map fun s => s.config.output) =
      some {} := by
    decide +kernel
  rw [show StateT.run (loadSetup {} : OnDesk (Except Refusal Setup)) d = (.ok s, d) from hsetup] at hdefault
  have houtput : s.config.output = {} := Option.some.inj hdefault
  have hbindings : s.writesBindings {} = false := by simp [Setup.writesBindings, houtput]
  obtain ⟨j, _, rfl, hj, hrest⟩ := map_eq_cons_iff.1 hsources
  obtain ⟨k, _, rfl, hk, hnil⟩ := map_eq_cons_iff.1 hrest
  obtain rfl := map_eq_nil_iff.1 hnil
  have hjout : j.outputs = ⟨"x.vert", "x.frag", "x.bindings.toml"⟩ := by
    rw [(hjobs j (by simp)).outputs, hj, houtput]
    decide +kernel
  have hkout : k.outputs = ⟨"y.vert", "y.frag", "y.bindings.toml"⟩ := by
    rw [(hjobs k (by simp)).outputs, hk, houtput]
    decide +kernel
  have hplaces : ["x.vert", "x.frag", "y.vert", "y.frag", "a/x.shader", "y.shader"].map (placeOf []) =
      [["x.vert"], ["x.frag"], ["y.vert"], ["y.frag"], ["a", "x.shader"], ["y.shader"]] := by
    decide +kernel
  simp only [map_cons, map_nil, List.cons.injEq, and_true] at hplaces
  obtain ⟨h₁, h₂, h₃, h₄, h₅, h₆⟩ := hplaces
  refine ⟨_, [j, k], hrun, hsources, fun i hi => (hkept i hi).2 ?_⟩
  have hcwd : d.cwd = [] := rfl
  rcases mem_cons.1 hi with rfl | hi
  · simp [Job.HasLastWord, Job.texts, lastText?, placed, hbindings, hjout, hkout, hj, hcwd, h₁, h₂, h₃, h₄, h₅, List.lookup]
  · obtain rfl := mem_singleton.1 hi
    simp [Job.HasLastWord, Job.texts, lastText?, placed, hbindings, hjout, hkout, hk, hcwd, h₁, h₂, h₃, h₄, h₆, List.lookup]

/-- Two sources of the same name in different directories: both are reported, and the outputs of the first are lost. -/
theorem same_stem_loses_output :
    let shader (n : String) : String := "fn vertex() -> vec4 \x7b return vec4(" ++ n ++ "); \x7d\n" ++
      "fn fragment() -> vec4 \x7b return vec4(" ++ n ++ "); \x7d\n"
    let d : Desk := { tree := ⟨[["a"], ["b"]],
      [(["a", "x.shader"], (shader "1").toUTF8), (["b", "x.shader"], (shader "2").toUTF8)]⟩ }
    ∃ (d' : Desk) (c : Compiled) (events : List Event),
      Gives (run ["compile", "a/x.shader", "b/x.shader"]) d .success d' ∧
      d'.out = " ok  a/x.shader -> x.vert, x.frag\n ok  b/x.shader -> x.vert, x.frag\nAll done! 2 file(s) compiled\n" ∧
      compile {} [] (.ofString (shader "1")) = (.ok c, events) ∧ ¬ d'.Holds "x.vert" c.vertexText := by
  intro shader d
  let vertexText (n : String) : String :=
    "#version 330 core\n\nvec4 vertex() \x7b\n    return vec4(" ++ n ++ ");\n\x7d\n\n" ++ "void main() \x7b\n    gl_Position = vertex();\n\x7d\n"
  have hall : (fun r : Outcome × Desk => r.1 = .success ∧ r.2.bytesAt "x.vert" = some (vertexText "2").toUTF8 ∧
      r.2.out = " ok  a/x.shader -> x.vert, x.frag\n ok  b/x.shader -> x.vert, x.frag\nAll done! 2 file(s) compiled\n")
      (StateT.run (run ["compile", "a/x.shader", "b/x.shader"] : OnDesk Outcome) d) := by
    decide +kernel
  obtain ⟨hok, hbytes, hout⟩ := hall
  obtain ⟨decls, p, events, -, -, hcompile, htext⟩ := compile_of_parse
    (show (parse (.ofString (shader "1"))).toOption.any (fun decls =>
      (Program.check (Builtin.defaults ++ []) (Glsl.dialect {}).sharesDecls decls).1.toOption.any fun p =>
        (Glsl.dialect {}).stage p.vertex == vertexText "1") = true by decide +kernel)
  refine ⟨_, _, events, gives_of_fst hok, hout, hcompile, fun hholds => ?_⟩
  have hsame := (gives_readFile.1 hholds).2.2
  rw [hbytes, Option.some.injEq] at hsame
  have htexts : vertexText "2" = vertexText "1" := (String.toByteArray_inj.1 hsame).trans (beq_iff_eq.1 htext)
  exact absurd htexts (by decide +kernel)

/-- The names of the outputs do not tell the two sources apart. -/
example : Outputs.ofSource "a/x.shader" "" ".vert" ".frag" = Outputs.ofSource "b/x.shader" "" ".vert" ".frag" := by
  decide +kernel

end Shading
