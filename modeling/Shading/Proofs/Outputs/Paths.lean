import Shading.Command.Run
import Shading.Proofs.Carriers.Lines

/-!
# Where outputs are written

The files of a run are named after the source: its name without the extension is joined with the output directory, and an
ending is put behind it. The join cleans the path before the ending is there. So a stem that leads elsewhere by itself takes
the files out of the directory, and every other one keeps them in it.
-/

namespace Shading

open List

namespace Path

variable {d n p : String}

theorem components_append (d q : String) : components (d ++ ("/" ++ q)) = components d ++ components q := by
  have hchars : (d ++ ("/" ++ q)).toList = d.toList ++ '/' :: q.toList := by simp
  rw [components, hchars, splitOn_append_cons_self, map_append, components, components]

theorem components_of_name (h : '/' ∉ n.toList) : components n = [n] := by
  rw [components, splitOn_eq_singleton h, map_singleton, String.ofList_toList]

theorem not_mem_of_mem_components {c : String} (h : c ∈ components p) : '/' ∉ c.toList := by
  obtain ⟨piece, hpiece, rfl⟩ := mem_map.1 h
  rw [String.toList_ofList]
  exact Text.not_mem_of_mem_splitOn piece hpiece

/-- Components that are left by cleaning are not empty and lead on. -/
theorem leads_of_mem_cleanComponents {c : String} (h : c ∈ cleanComponents p) : '/' ∉ c.toList ∧ c ≠ "" ∧ c ≠ "." := by
  refine List.foldlRecOn (motive := fun done => ∀ c ∈ done, '/' ∉ c.toList ∧ c ≠ "" ∧ c ≠ ".") (components p)
    (cleanStep (isAbsolute p)) (forall_mem_nil _) (fun done hdone c hc => ?_) c (mem_reverse.1 h)
  unfold cleanStep
  split
  · exact hdone
  · rename_i hstays
    split
    · split
      · split <;> simp
      · split
        · exact forall_mem_cons.2 ⟨by decide, hdone⟩
        · exact (forall_mem_cons.1 hdone).2
    · exact forall_mem_cons.2 ⟨⟨not_mem_of_mem_components hc, not_or.1 hstays⟩, hdone⟩

/-- The path of clean components. -/
def ofComponents (absolute : Bool) (cs : List String) : String :=
  let joined := "/".intercalate cs
  if absolute then "/" ++ joined else if joined.isEmpty then "." else joined

theorem clean_eq (p : String) : clean p = ofComponents (isAbsolute p) (cleanComponents p) := rfl

/-- A name that leads into a directory: it has no slash, and is none of those that stay where they are or lead up. -/
def IsProper (n : String) : Prop := '/' ∉ n.toList ∧ n ∉ ["", ".", ".."]

theorem cleanStep_of_proper (hn : IsProper n) (absolute : Bool) (done : List String) :
    cleanStep absolute done n = n :: done := by
  simp only [IsProper, mem_cons, not_mem_nil, or_false, not_or] at hn
  simp [cleanStep, hn]

/-- A proper name is the last component of its path in a directory. -/
theorem join_of_proper (d : String) (hn : IsProper n) :
    join d n = ofComponents (isAbsolute d) (cleanComponents d ++ [n]) := by
  have hne : n ≠ "" := fun heq => hn.2 (by simp [heq])
  by_cases hd : d = ""
  · subst hd
    have hrelative : isAbsolute n = false := by
      simpa [isAbsolute] using fun h => hn.1 (mem_of_mem_head? h)
    have hjoin : join "" n = clean n := by simp [join, hne]
    rw [hjoin, clean_eq, cleanComponents, hrelative, components_of_name hn.1, foldl_cons, cleanStep_of_proper hn]
    rfl
  · obtain ⟨x, xs, hx⟩ := exists_cons_of_ne_nil (mt String.toList_eq_nil_iff.1 hd)
    have habsolute : isAbsolute (d ++ ("/" ++ n)) = isAbsolute d := by simp [isAbsolute, hx]
    have hjoin : join d n = clean (d ++ ("/" ++ n)) := by simp [join, hd, String.append_assoc]
    rw [hjoin, clean_eq, cleanComponents, habsolute, components_append, components_of_name hn.1, foldl_append,
      foldl_cons, foldl_nil, cleanStep_of_proper hn, reverse_cons, cleanComponents]

/-- What stands before the names in a clean directory. -/
def entry (d : String) : String := if d = "." then "" else if d = "/" then d else d ++ "/"

/-- Joined components are no path of one sign. -/
theorem joined_not_mem {c : String} (hc : '/' ∉ c.toList ∧ c ≠ "" ∧ c ≠ ".") (cs : List String) :
    "/".intercalate (c :: cs) ∉ ["", ".", "/"] := by
  cases cs with
  | nil =>
    have hslash : c ≠ "/" := fun heq => hc.1 (by simp [heq])
    simpa using ⟨hc.2.1, hc.2.2, hslash⟩
  | cons =>
    obtain ⟨x, xs, hx⟩ := exists_cons_of_ne_nil (mt String.toList_eq_nil_iff.1 hc.2.1)
    simp [String.intercalate_cons_of_ne_nil, ← String.toList_inj, hx]

/-- A proper name stands behind the clean directory. -/
theorem join_eq_entry (d : String) (hn : IsProper n) : join d n = entry (clean d) ++ n := by
  have hne : n ≠ "" := fun heq => hn.2 (by simp [heq])
  rw [join_of_proper d hn, clean_eq]
  cases hcs : cleanComponents d with
  | nil => cases isAbsolute d <;> simp [ofComponents, entry, hne]
  | cons c cs =>
    have hjoined := joined_not_mem (leads_of_mem_cleanComponents (hcs ▸ mem_cons_self)) cs
    simp only [mem_cons, not_mem_nil, or_false, not_or] at hjoined
    have hlast := String.intercalate_append_of_ne_nil (s := "/") (cons_ne_nil c cs) (cons_ne_nil n [])
    rw [String.intercalate_singleton] at hlast
    simp only [ofComponents, hlast]
    generalize "/".intercalate (c :: cs) = joined at hjoined
    have habsolute : "/" ++ joined ≠ "." ∧ "/" ++ joined ≠ "/" := by
      constructor <;> simp [← String.toList_inj, hjoined.1]
    cases isAbsolute d <;> simp [entry, hjoined, habsolute, String.append_assoc]

/-- Without its extension a name is its stem. -/
theorem exists_stem {b : String} (hb : '/' ∉ b.toList) : ∃ stem, b = stem ++ ext b := by
  have hname : b.toList.reverse.takeWhile (· != '/') = b.toList.reverse := by
    simpa using Text.takeWhile_bne (s := String.ofList b.toList.reverse) (by simpa using hb) []
  simp only [ext, hname]
  split
  · rename_i hdot
    obtain ⟨ending, rest, hsplit, hending⟩ := eq_append_cons_of_mem (contains_iff_mem.1 hdot)
    have htake : (ending ++ '.' :: rest).takeWhile (· != '.') = ending := by
      have hfirst := Text.takeWhile_bne (s := String.ofList ending) (by simpa using hending) ('.' :: rest)
      rw [String.toList_ofList] at hfirst
      rw [hfirst, takeWhile_cons_of_neg (by decide), append_nil]
    refine ⟨String.ofList rest.reverse, String.toList_inj.1 ?_⟩
    rw [hsplit, htake, ← reverse_reverse b.toList, hsplit]
    simp
  · exact ⟨b, by simp⟩

theorem not_mem_base (h : base p ≠ "/") : '/' ∉ (base p).toList := by
  by_cases hp : p.isEmpty
  · simp [base, hp]
  · cases hlast : (components p).reverse.dropWhile String.isEmpty with
    | nil => exact absurd (by simp [base, hp, hlast]) h
    | cons c rest =>
      have hbase : base p = c := by simp [base, hp, hlast]
      have hmem : c ∈ (components p).reverse.dropWhile String.isEmpty := hlast ▸ mem_cons_self
      rw [hbase]
      exact not_mem_of_mem_components (mem_reverse.1 ((dropWhile_sublist _).subset hmem))

end Path

namespace Command.Outputs

/-- **Outputs stay in the directory for every stem that cleaning keeps.** The files for a source that is not the root are
those of its stem in the output directory, whichever directory it is, if and only if the stem is a name that cleaning
keeps. Their names are the stem with the endings, and have no slashes. -/
theorem outputs_stay_in_directory_iff {source vertexExt fragmentExt : String} (hsource : Path.base source ≠ "/")
    (hvertex : '/' ∉ vertexExt.toList) (hfragment : '/' ∉ fragmentExt.toList) :
    ∃ stem, Path.base source = stem ++ Path.ext (Path.base source) ∧
      (∀ ending ∈ [vertexExt, fragmentExt, ".bindings.toml"], '/' ∉ (stem ++ ending).toList) ∧
      ((∀ dir, ofSource source dir vertexExt fragmentExt =
          ⟨Path.entry (Path.clean dir) ++ (stem ++ vertexExt), Path.entry (Path.clean dir) ++ (stem ++ fragmentExt),
            Path.entry (Path.clean dir) ++ (stem ++ ".bindings.toml")⟩) ↔ stem ∉ ["", ".", ".."]) := by
  have hbase := Path.not_mem_base hsource
  obtain ⟨stem, hstem⟩ := Path.exists_stem hbase
  have hslash : '/' ∉ stem.toList := fun h => hbase (by rw [hstem]; simp [h])
  have htrim := Text.trimEnd_append stem (Path.ext (Path.base source))
  rw [← hstem] at htrim
  refine ⟨stem, hstem, ?_, fun h hmem => ?_, fun hproper dir => ?_⟩
  · simp [hslash, hvertex, hfragment]
  · have hout := congrArg Outputs.bindings (h "out")
    simp only [ofSource, htrim] at hout
    simp only [mem_cons, not_mem_nil, or_false] at hmem
    rcases hmem with rfl | rfl | rfl <;> revert hout <;> decide
  · simp only [ofSource, htrim, Path.join_eq_entry dir ⟨hslash, hproper⟩, String.append_assoc]

/-- A name with two dots, in a directory that is written with a way up. -/
theorem minified_source_stays_in_directory :
    ofSource "shaders/blur.min.shader" "build/../out/" ".vert" ".frag" =
      ⟨"out/blur.min.vert", "out/blur.min.frag", "out/blur.min.bindings.toml"⟩ := by
  obtain ⟨stem, hstem, -, hdirs⟩ := outputs_stay_in_directory_iff (show Path.base "shaders/blur.min.shader" ≠ "/" by decide)
    (show '/' ∉ ".vert".toList by decide) (show '/' ∉ ".frag".toList by decide)
  obtain rfl : "blur.min" = stem :=
    (String.append_left_inj ".shader").1 ((show _ = Path.base "shaders/blur.min.shader" by decide).trans hstem)
  exact (hdirs.2 (by decide) "build/../out/").trans (by decide)

/-- A source that is named by its extension only is written beside the directory, not into it. -/
theorem bare_extension_leaves_directory :
    ofSource ".shader" "out" ".vert" ".frag" = ⟨"out.vert", "out.frag", "out.bindings.toml"⟩ ∧
      Path.dir "out.vert" ≠ Path.clean "out" := by
  decide

end Command.Outputs

end Shading
