import Shading.Proofs.Scoping.Tracing

/-!
# The sites of declarations

Sites tell the declarations of a function apart: read off the source, they are all different. Whatever
way a block is written, its declarations are those of what it keeps.
-/

namespace Shading

open List

mutual

/-- The declarations in the statement at the end of a path, with their sites. -/
def Stmt.sites (path : List Nat) : Stmt → List (Site × Ident)
  | .breakStmt _ | .continueStmt _ | .returnStmt _ _ | .exprStmt _ _ => []
  | .forStmt x _ _ _ body _ => (.stmt path, x) :: body.sites (path ++ [0])
  | .ifStmt _ yes no _ => yes.sites (path ++ [0]) ++ Block.sitesElse (path ++ [1]) no
  | .letStmt x _ _ _ => [(.stmt path, x)]
  | .blockStmt b _ => b.sites (path ++ [0])

/-- The declarations in statements of the block at the end of a path, of which the first has the given number. -/
def Stmt.sitesAll (path : List Nat) (number : Nat) : List Stmt → List (Site × Ident)
  | [] => []
  | st :: sts => st.sites (path ++ [number]) ++ Stmt.sitesAll path (number + 1) sts

def Block.sites (path : List Nat) : Block → List (Site × Ident)
  | .mk sts _ => Stmt.sitesAll path 0 sts

def Block.sitesElse (path : List Nat) : Option Block → List (Site × Ident)
  | none => []
  | some b => b.sites path

end

/-- Parameters with their sites, the first of which has the given number. -/
def paramSites (number : Nat) : List Ident → List (Site × Ident)
  | [] => []
  | x :: xs => (.param number, x) :: paramSites (number + 1) xs

/-- The declarations of a function, with their sites. -/
def FnDecl.sites (d : FnDecl) : List (Site × Ident) :=
  paramSites 0 (d.params.map TypedName.name) ++ d.body.sites []

namespace Traced

mutual

/-- The declarations that are written, with their sites. -/
def sites : Traced → List (Site × Ident)
  | .exitLoop | .nextTurn | .assign .. | .eval .. | .ret .. => []
  | .declare _ site x _ _ => [(site, x)]
  | .block body => sitesAll body
  | .loop site x _ _ _ body => (site, x) :: sitesAll body
  | .branch _ _ yes no => sitesAll yes ++ sitesElse no

def sitesAll : List Traced → List (Site × Ident)
  | [] => []
  | c :: cs => c.sites ++ sitesAll cs

def sitesElse : Option Traced → List (Site × Ident)
  | none => []
  | some c => c.sites

end

theorem sitesAll_append (cs cs' : List Traced) : sitesAll (cs ++ cs') = sitesAll cs ++ sitesAll cs' := by
  induction cs with
  | nil => rfl
  | cons c cs ih => simp [sitesAll, ih]

end Traced

def TracedFn.sites (f : TracedFn) : List (Site × Ident) :=
  paramSites 0 (f.params.map Prod.fst) ++ Traced.sitesAll f.body

/-! ### All sites of the source are different -/

section Source

/-- The sites are all different and lie at or below a path. -/
def Within (path : List Nat) (sites : List (Site × Ident)) : Prop :=
  (sites.map Prod.fst).Nodup ∧ ∀ e ∈ sites, ∃ rest, e.1 = .stmt (path ++ rest)

/-- The sites are all different and lie below a path, on ways with the given number or a larger one. -/
def Beyond (path : List Nat) (number : Nat) (sites : List (Site × Ident)) : Prop :=
  (sites.map Prod.fst).Nodup ∧ ∀ e ∈ sites, ∃ n rest, number ≤ n ∧ e.1 = .stmt (path ++ n :: rest)

variable {path : List Nat} {number : Nat} {sites sites' : List (Site × Ident)}

theorem Within.nil (path : List Nat) : Within path [] := ⟨.nil, nofun⟩

theorem Beyond.nil (path : List Nat) (number : Nat) : Beyond path number [] := ⟨.nil, nofun⟩

theorem Beyond.within (h : Beyond path number sites) : Within path sites := by
  refine ⟨h.1, fun e he => ?_⟩
  obtain ⟨n, rest, -, heq⟩ := h.2 e he
  exact ⟨n :: rest, heq⟩

/-- Ways that part are apart. -/
theorem Beyond.cons (h : Within (path ++ [number]) sites) (h' : Beyond path (number + 1) sites') :
    Beyond path number (sites ++ sites') := by
  have hfirst : ∀ e ∈ sites, ∃ rest, e.1 = .stmt (path ++ number :: rest) := by
    intro e he
    obtain ⟨rest, heq⟩ := h.2 e he
    exact ⟨rest, by simpa using heq⟩
  constructor
  · rw [map_append, nodup_append]
    refine ⟨h.1, h'.1, ?_⟩
    intro site hsite site' hsite' heq
    obtain ⟨e, he, rfl⟩ := mem_map.1 hsite
    obtain ⟨e', he', rfl⟩ := mem_map.1 hsite'
    obtain ⟨rest, he⟩ := hfirst e he
    obtain ⟨n, rest', hn, he'⟩ := h'.2 e' he'
    rw [he, he', Site.stmt.injEq, append_cancel_left_eq, List.cons.injEq] at heq
    omega
  · intro e he
    rcases mem_append.1 he with he | he
    · obtain ⟨rest, heq⟩ := hfirst e he
      exact ⟨number, rest, Nat.le_refl number, heq⟩
    · obtain ⟨n, rest, hn, heq⟩ := h'.2 e he
      exact ⟨n, rest, by omega, heq⟩

/-- A loop is above what is declared in it. -/
theorem Within.loop (x : Ident) (h : Within (path ++ [0]) sites) : Within path ((.stmt path, x) :: sites) := by
  have hbeyond : Beyond path 0 (sites ++ []) := .cons h (.nil path 1)
  rw [append_nil] at hbeyond
  constructor
  · refine nodup_cons.2 ⟨fun hmem => ?_, h.1⟩
    obtain ⟨e, he, heq⟩ := mem_map.1 hmem
    obtain ⟨n, rest, -, he⟩ := hbeyond.2 e he
    rw [he, Site.stmt.injEq] at heq
    simpa using congrArg List.length heq
  · intro e he
    rcases mem_cons.1 he with rfl | he
    · exact ⟨[], by simp⟩
    · exact hbeyond.within.2 e he

theorem beyond_sitesAll {sts : List Stmt} (h : ∀ st ∈ sts, ∀ path, Within path (st.sites path)) (path : List Nat)
    (number : Nat) : Beyond path number (Stmt.sitesAll path number sts) := by
  induction sts generalizing number with
  | nil =>
    rw [Stmt.sitesAll]
    exact .nil path number
  | cons st sts ih =>
    rw [Stmt.sitesAll]
    exact .cons (h st (.head _) _) (ih (fun st hst => h st (.tail _ hst)) (number + 1))

theorem within_block {b : Block} (h : ∀ st ∈ b.stmts, ∀ path, Within path (st.sites path)) (path : List Nat) :
    Within path (b.sites path) := by
  obtain ⟨sts, span⟩ := b
  rw [Block.sites]
  exact (beyond_sitesAll h path 0).within

theorem within_stmt (st : Stmt) (path : List Nat) : Within path (st.sites path) := by
  induction st generalizing path with
  | breakStmt | continueStmt | returnStmt | exprStmt =>
    rw [Stmt.sites]
    exact .nil path
  | letStmt x ty init span =>
    rw [Stmt.sites]
    exact .loop x (.nil _)
  | forStmt x first bound step body span ih =>
    rw [Stmt.sites]
    exact .loop x (within_block (fun st hst => ih st hst) _)
  | ifStmt test yes no span ihyes ihno =>
    rw [Stmt.sites]
    have hno : Within (path ++ [1]) (Block.sitesElse (path ++ [1]) no) := by
      cases no with
      | none => exact .nil _
      | some b => exact within_block (fun st hst => ihno b rfl st hst) _
    have hboth := Beyond.cons hno (.nil path 2)
    rw [append_nil] at hboth
    exact (Beyond.cons (within_block (fun st hst => ihyes st hst) _) hboth).within
  | blockStmt b span ih =>
    have hb := Beyond.cons (within_block (fun st hst => ih st hst) (path ++ [0])) (.nil path 1)
    rw [append_nil] at hb
    rw [Stmt.sites]
    exact hb.within

theorem mem_paramSites {xs : List Ident} {number : Nat} {e : Site × Ident} (h : e ∈ paramSites number xs) :
    ∃ n, number ≤ n ∧ e.1 = .param n := by
  induction xs generalizing number with
  | nil => cases h
  | cons x xs ih =>
    rcases mem_cons.1 h with rfl | h
    · exact ⟨number, Nat.le_refl number, rfl⟩
    · obtain ⟨n, hn, heq⟩ := ih h
      exact ⟨n, by omega, heq⟩

theorem nodup_paramSites (xs : List Ident) (number : Nat) : ((paramSites number xs).map Prod.fst).Nodup := by
  induction xs generalizing number with
  | nil => exact .nil
  | cons x xs ih =>
    refine nodup_cons.2 ⟨fun hmem => ?_, ih (number + 1)⟩
    obtain ⟨e, he, heq⟩ := mem_map.1 hmem
    obtain ⟨n, hn, hparam⟩ := mem_paramSites he
    rw [hparam, Site.param.injEq] at heq
    omega

/-- No two declarations of a function have the same site. -/
theorem FnDecl.nodup_sites (d : FnDecl) : (d.sites.map Prod.fst).Nodup := by
  have hbody := within_block (fun st _ => within_stmt st) [] (b := d.body)
  rw [sites, map_append, nodup_append]
  refine ⟨nodup_paramSites _ 0, hbody.1, ?_⟩
  intro site hsite site' hsite' heq
  obtain ⟨e, he, rfl⟩ := mem_map.1 hsite
  obtain ⟨e', he', rfl⟩ := mem_map.1 hsite'
  obtain ⟨n, -, he⟩ := mem_paramSites he
  obtain ⟨rest, he'⟩ := hbody.2 e' he'
  rw [he, he'] at heq
  cases heq

end Source

/-! ### The declarations of what is kept -/

namespace TracedBlock

theorem sitesAll_gather (scope : Scope Local) (ks : List TracedKept) :
    Traced.sitesAll (gather scope ks).body = Traced.sitesAll (ks.map TracedKept.code) := by
  unfold gather
  dsimp only
  split
  · split
    · rfl
    · simp [Traced.sitesAll, Traced.sites]
  · rfl

theorem sitesElse_elsePart? (b : TracedBlock) : Traced.sitesElse b.elsePart? = Traced.sitesAll b.body := by
  unfold elsePart?
  split
  · rename_i hbody
    rw [hbody]
    rfl
  · rename_i hbody _
    rw [hbody]
    simp [Traced.sitesElse, Traced.sitesAll]
  · simp [Traced.sitesElse, Traced.sites]

/-- The declarations of what is kept as a statement. -/
theorem sites_kept? (b : TracedBlock) :
    Traced.sitesAll (b.kept?.toList.map TracedKept.code) = Traced.sitesAll b.body := by
  unfold kept? isEmpty
  split
  · rename_i hempty
    rw [isEmpty_iff.1 hempty]
    rfl
  · simp [Traced.sitesAll, Traced.sites]

end TracedBlock

theorem Traced.sites_ofBranch (scopes : Scopes) (test : Term) (yes no : TracedBlock) :
    (ofBranch scopes test yes no).sites = sitesAll yes.body ++ sitesAll no.body := by
  unfold ofBranch
  split
  · rename_i hempty
    have hyes : yes.body = [] := by simpa [TracedBlock.isEmpty] using (Bool.and_eq_true_iff.1 hempty).1
    simp [sites, sitesElse, sitesAll, hyes]
  · simp [sites, TracedBlock.sitesElse_elsePart?]

theorem Traced.sites_ofExpr (scopes : Scopes) (e : Expr) (t : Term) : (ofExpr scopes e t).sites = [] := by
  unfold ofExpr
  split
  · split <;> rfl
  · rfl

end Shading
