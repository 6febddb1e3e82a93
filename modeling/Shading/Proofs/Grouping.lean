import Shading.Proofs.Items
import Shading.Proofs.Origins
import Shading.Proofs.Pruning

/-!
# The interface as it is declared

Attributes and varyings are listed as the source text declares them. Uniforms are grouped: there is one group for each
block, in the order in which the blocks first appear, and each group lists its uniforms as they are declared. The texts
of the stages declare the variables by the same lists.
-/

namespace Shading

namespace Decl

def attribute? : Decl → Option (Ident × Ty)
  | .attributeVar v => some (v.name, v.ty.ty)
  | .uniformVar _ _ | .varyingVar _ | .struct _ | .fn _ => none

/-- The uniform that is declared, behind the name of its block. One without a block is in the default block. -/
def uniform? : Decl → Option (Ident × Ident × Ty)
  | .uniformVar v block => some (block.getD defaultBlock, v.name, v.ty.ty)
  | .attributeVar _ | .varyingVar _ | .struct _ | .fn _ => none

def varying? : Decl → Option (Ident × Ty)
  | .varyingVar v => some (v.name, v.ty.ty)
  | .attributeVar _ | .uniformVar _ _ | .struct _ | .fn _ => none

end Decl

/-! ## Grouping -/

/-- The second list has the elements of the first one, each once and in the order of their first appearance. -/
structure FirstSeen (xs ys : List Ident) : Prop where
  mem : ∀ x, x ∈ ys ↔ x ∈ xs
  order : ys.Pairwise fun x y => xs.idxOf x < xs.idxOf y

theorem FirstSeen.nodup {xs ys : List Ident} (h : FirstSeen xs ys) : ys.Nodup := by
  refine h.order.imp fun {x y} hlt heq => ?_
  rw [heq] at hlt
  exact Nat.lt_irrefl _ hlt

theorem idxOf_lt_of_filter {p : Ident → Bool} {x y : Ident} (hx : p x = true) (hy : p y = true) {xs : List Ident}
    (h : (xs.filter p).idxOf x < (xs.filter p).idxOf y) : xs.idxOf x < xs.idxOf y := by
  induction xs with
  | nil => exact h
  | cons z zs ih => grind

theorem firstSeen_eraseDups (xs : List Ident) : FirstSeen xs xs.eraseDups := by
  refine ⟨fun x => List.mem_eraseDups, ?_⟩
  -- what follows the head is searched without it, so the induction is on the length
  induction hn : xs.length using Nat.strongRecOn generalizing xs with
  | ind n ih =>
    cases xs with
    | nil => simp
    | cons z zs =>
      subst hn
      have hlen : (zs.filter fun x => !x == z).length < (z :: zs).length :=
        Nat.lt_succ_of_le (List.length_filter_le ..)
      have hother : ∀ x ∈ (zs.filter fun x => !x == z).eraseDups, x ≠ z := by
        intro x hx
        simpa using (List.mem_filter.1 (List.mem_eraseDups.1 hx)).2
      rw [List.eraseDups_cons, List.pairwise_cons]
      constructor
      · intro x hx
        rw [List.idxOf_cons_self, List.idxOf_cons_ne _ (hother x hx).symm]
        exact Nat.succ_pos _
      · refine (ih _ hlen _ rfl).imp_of_mem fun {x y} hx hy hlt => ?_
        rw [List.idxOf_cons_ne _ (hother x hx).symm, List.idxOf_cons_ne _ (hother y hy).symm]
        exact Nat.succ_lt_succ (idxOf_lt_of_filter (by simpa using hother x hx) (by simpa using hother y hy) hlt)

/-- The elements of a group are what is listed for it, behind its key. -/
theorem map_snd_filter {α : Type} (l : List (Ident × α)) (key : Ident) :
    ((l.filter fun a => a.1 == key).map Prod.snd).map (key, ·) = l.filter fun a => a.1 == key := by
  rw [List.map_map]
  refine (List.map_congr_left fun a ha => ?_).trans (List.map_id _)
  obtain rfl : a.1 = key := by simpa using (List.mem_filter.1 ha).2
  rfl

/-- Groups of distinct keys that take in all elements hold each of them once. -/
theorem perm_flatMap_filter {α : Type} {keys : List Ident} (hkeys : keys.Nodup) {l : List (Ident × α)}
    (h : ∀ a ∈ l, a.1 ∈ keys) : (keys.flatMap fun key => l.filter fun a => a.1 == key).Perm l := by
  induction keys generalizing l with
  | nil =>
    rw [List.eq_nil_iff_forall_not_mem.2 fun a ha => List.not_mem_nil (h a ha)]
    simp
  | cons key keys ih =>
    obtain ⟨hkey, hkeys⟩ := List.nodup_cons.1 hkeys
    have hrest : (keys.flatMap fun k => l.filter fun a => a.1 == k) =
        keys.flatMap fun k => (l.filter fun a => !(a.1 == key)).filter fun a => a.1 == k := by
      refine List.flatMap_congr fun k hk => ?_
      rw [List.filter_filter]
      grind
    rw [List.flatMap_cons, hrest]
    refine .trans (.append_left _ (ih hkeys ?_)) (List.filter_append_perm _ l)
    grind

/-! ## The interface of a shader -/

def TyExpr.length? : TyExpr → Option Int
  | .array _ len _ => some len
  | .keyword _ _ | .named _ _ => none

namespace Check

variable {builtins : Builtins} {decls : List Decl} {top : TopLevel} {vars : Scope Var}

/-- A variable of the interface as it is declared. -/
def declaredVar (d : TypedName × VarKind) : Ident × Var := (d.1.name, ⟨d.1.ty.ty, d.2⟩)

/-- The variables of the interface are those that are declared, and their types are allowed. -/
theorem vars_of_interfaceVars {ds : List (TypedName × VarKind)} {s s' : Expansion}
    {r : Scope Var × List (Ident × Var)} (h : Gives (interfaceVars top vars ds) s r s') :
    r.2 = ds.map declaredVar ∧ ∀ d ∈ ds, d.2.refusal? d.1.name d.1.ty.ty = none ∧ ∀ n ∈ d.1.ty.length?, 0 < n := by
  induction ds generalizing vars s r with
  | nil =>
    simp only [interfaceVars, gives_pure] at h
    exact ⟨h.1 ▸ rfl, List.forall_mem_nil _⟩
  | cons d ds ih =>
    obtain ⟨d, kind⟩ := d
    have hrefusal : kind.refusal? d.name d.ty.ty = none := by
      simp only [interfaceVars, gives_bind] at h
      obtain ⟨ty, s₁, hty, h⟩ := h
      rw [ty_of_tyExpr hty] at h
      cases hr : kind.refusal? d.name d.ty.ty with
      | none => rfl
      | some cause => simp [hr] at h
    obtain ⟨ty, s₁, vars', more, hty, -, hrest, hmore⟩ := gives_interfaceVars_cons h
    obtain ⟨hvars, hallowed⟩ := ih hrest
    have hpos : ∀ n ∈ d.ty.length?, 0 < n := by
      intro n hn
      cases hd : d.ty with
      | keyword | named =>
        rw [hd] at hn
        cases hn
      | array elem len span =>
        rw [hd] at hn hty
        cases hn
        exact (gives_array.1 hty).1
    dsimp only at hvars
    rw [hmore, hvars, ty_of_tyExpr hty]
    exact ⟨rfl, List.forall_mem_cons.2 ⟨⟨hrefusal, hpos⟩, hallowed⟩⟩

theorem interface_of_program {shared : Bool} {p : Program} {s' : Expansion}
    (h : Gives (program builtins shared decls) {} p s') :
    p.interface = .ofVars ((interfaceOrder decls).map declaredVar) ∧ (decls.map Decl.name).Nodup ∧
      ∀ v, .varyingVar v ∈ decls → v.ty.ty.canBeVarying = true ∧ ∀ n ∈ v.ty.length?, 0 < n := by
  obtain ⟨a, -, hpart, -⟩ := exists_accepted h
  obtain ⟨s₀, hnone, hvars, -⟩ := gives_vertexPart hpart
  obtain ⟨hlist, hallowed⟩ := vars_of_interfaceVars hvars
  refine ⟨?_, (nodup_of_firstRedefined? hnone).1, fun v hv => ?_⟩
  · rw [a.interface, ← hlist]
  · obtain ⟨hrefusal, hpos⟩ := hallowed (v, .varyingVar) (mem_interfaceOrder.2 ⟨_, hv, rfl⟩)
    refine ⟨?_, hpos⟩
    by_contra hty
    simp [VarKind.refusal?, hty] at hrefusal

/-- The variables of the interface, sort by sort. -/
theorem declaredVars_eq (decls : List Decl) : (interfaceOrder decls).map declaredVar =
    (decls.filterMap Decl.attribute?).map (fun v => (v.1, ⟨v.2, .attributeVar⟩)) ++
      (decls.filterMap Decl.uniform?).map (fun u => (u.2.1, ⟨u.2.2, .uniformVar u.1⟩)) ++
      (decls.filterMap Decl.varying?).map (fun v => (v.1, ⟨v.2, .varyingVar⟩)) := by
  simp only [interfaceOrder, List.map_append, List.filter_filterMap, List.map_filterMap]
  congr 2 <;>
  · congr 1
    · funext d
      cases d <;> rfl

theorem attributes_declared (decls : List Decl) :
    (Interface.ofVars ((interfaceOrder decls).map declaredVar)).attributes = decls.filterMap Decl.attribute? := by
  simp [Interface.ofVars, Interface.varsOf, declaredVars_eq, List.filter_map, Function.comp_def, VarKind.isAttribute]

theorem varyings_declared (decls : List Decl) :
    (Interface.ofVars ((interfaceOrder decls).map declaredVar)).varyings = decls.filterMap Decl.varying? := by
  simp [Interface.ofVars, Interface.varsOf, declaredVars_eq, List.filter_map, Function.comp_def, VarKind.isVarying]

/-- There is one block for each name of a block, with the uniforms that are declared in it. -/
theorem blocks_declared (decls : List Decl) :
    (Interface.ofVars ((interfaceOrder decls).map declaredVar)).blocks =
      ((decls.filterMap Decl.uniform?).map Prod.fst).eraseDups.map fun b =>
        ⟨b, ((decls.filterMap Decl.uniform?).filter fun u => u.1 == b).map Prod.snd⟩ := by
  have hnames : Interface.blockNames ((interfaceOrder decls).map declaredVar) =
      ((decls.filterMap Decl.uniform?).map Prod.fst).eraseDups := by
    simp [Interface.blockNames, declaredVars_eq, List.filterMap_map, Function.comp_def, Interface.blockOf?]
  rw [Interface.ofVars, hnames]
  refine List.map_congr_left fun b _ => ?_
  simp [Interface.varsOf, declaredVars_eq, List.filter_map, Function.comp_def, beq_eq_decide]

end Check

/-! ## The declarations in the texts -/

/-- The declaration of a variable of the interface, or of a block of them. -/
def Item.isInterface : Item → Bool
  | .block _ | .attributeVar _ | .varyingVar _ => true
  | .struct _ | .fn _ => false

theorem StageUnit.filter_items (u : StageUnit) : u.items.filter Item.isInterface = u.interfaceItems := by
  simp [items, interfaceItems, List.filter_map, Function.comp_def, Item.isInterface]

/-- Nothing of the interface is left in a unit without one that declares all of it. -/
theorem StageUnit.interfaceItems_without {u v : StageUnit} (hattributes : u.attributes = [])
    (hblocks : u.blocks = v.blocks) (hvaryings : u.varyings = v.varyings) : (u.without v).interfaceItems = [] := by
  have hblock : ∀ b ∈ v.blocks, ∃ c ∈ v.blocks, c.name = b.name := fun b hb => ⟨b, hb, rfl⟩
  have hvarying : ∀ x ∈ v.varyings, ∃ y ∈ v.varyings, y.1 = x.1 := fun x hx => ⟨x, hx, rfl⟩
  simp only [interfaceItems, without, hattributes, hblocks, hvaryings]
  rw [List.filter_eq_nil_iff.2 (by simpa using hblock), List.filter_eq_nil_iff.2 (by simpa using hvarying)]
  rfl

namespace Check.Accepted

variable {top : TopLevel} {shared : Bool} {p : Program}

theorem filter_vertex (a : Accepted top shared p) : p.vertex.items.filter Item.isInterface =
    p.interface.blocks.map .block ++ p.interface.attributes.map .attributeVar ++
      p.interface.varyings.map .varyingVar := by
  rw [StageUnit.filter_items, a.vertex]
  rfl

theorem filter_fragment (a : Accepted top shared p) : p.fragment.items.filter Item.isInterface =
    if shared then [] else p.interface.blocks.map .block ++ p.interface.varyings.map .varyingVar := by
  rw [StageUnit.filter_items, a.fragment]
  cases shared with
  | true =>
    refine StageUnit.interfaceItems_without rfl ?_ ?_ <;>
    · rw [a.vertex]
      rfl
  | false => simp [StageUnit.interfaceItems, StageUnit.ofEntry]

end Check.Accepted

/-- The interface lists the attributes and the varyings as they are declared. It has the blocks of the uniforms in the
order of their first appearance, and each block has its own uniforms as they are declared, so that each uniform is in
one place. The texts of the stages declare the variables by these lists; where they are put together, the first one does
so for both. -/
theorem interface_groups_declarations {d : Dialect} {extra : Builtins} {decls : List Decl} {c : Compiled}
    (h : (emit d extra decls).1 = .ok c) :
    c.interface.attributes = decls.filterMap Decl.attribute? ∧
      c.interface.varyings = decls.filterMap Decl.varying? ∧
      FirstSeen ((decls.filterMap Decl.uniform?).map Prod.fst) (c.interface.blocks.map UniformBlock.name) ∧
      (∀ b ∈ c.interface.blocks,
        b.vars = ((decls.filterMap Decl.uniform?).filter fun u => u.1 == b.name).map Prod.snd) ∧
      (c.interface.blocks.flatMap fun b => b.vars.map (b.name, ·)).Perm (decls.filterMap Decl.uniform?) ∧
      ∃ vertex fragment : List Item,
        d.IsText .vertex c.interface.varyings vertex c.vertexText ∧
        d.IsText .fragment c.interface.varyings fragment c.fragmentText ∧
        vertex.filter Item.isInterface = c.interface.blocks.map .block ++ c.interface.attributes.map .attributeVar ++
          c.interface.varyings.map .varyingVar ∧
        fragment.filter Item.isInterface = if d.sharesDecls then []
          else c.interface.blocks.map .block ++ c.interface.varyings.map .varyingVar := by
  obtain ⟨p, hcheck, rfl, ⟨a⟩⟩ := accepted_of_emit_ok h
  obtain ⟨s', hgives⟩ := Check.gives_of_check hcheck
  have hinterface := (Check.interface_of_program hgives).1
  have hseen := firstSeen_eraseDups ((decls.filterMap Decl.uniform?).map Prod.fst)
  have hblocks := Check.blocks_declared decls
  rw [← hinterface] at hblocks
  have hnames : p.interface.blocks.map UniformBlock.name =
      ((decls.filterMap Decl.uniform?).map Prod.fst).eraseDups := by
    simp [hblocks, Function.comp_def]
  have hvars : ∀ b ∈ p.interface.blocks,
      b.vars = ((decls.filterMap Decl.uniform?).filter fun u => u.1 == b.name).map Prod.snd := by
    rw [hblocks, List.forall_mem_map]
    exact fun b _ => rfl
  have hperm : (p.interface.blocks.flatMap fun b => b.vars.map (b.name, ·)).Perm (decls.filterMap Decl.uniform?) := by
    rw [hblocks, List.flatMap_map]
    refine .trans (.of_eq (List.flatMap_congr fun b _ => map_snd_filter _ b)) (perm_flatMap_filter hseen.nodup ?_)
    exact fun u hu => List.mem_eraseDups.2 (List.mem_map_of_mem hu)
  refine ⟨?_, ?_, ?_, hvars, hperm, p.vertex.items, p.fragment.items, a.isText_vertex d, a.isText_fragment d,
    a.filter_vertex, a.filter_fragment⟩
  · exact (congrArg Interface.attributes hinterface).trans (Check.attributes_declared decls)
  · exact (congrArg Interface.varyings hinterface).trans (Check.varyings_declared decls)
  · exact hnames ▸ hseen

/-- Uniforms of two blocks that take turns; the default block is once left out and once written. -/
theorem alternating_blocks_are_grouped :
    let vec4 : TyExpr := .keyword (.vector .float .four) .unset
    let stage (f : Ident) : Decl :=
      .fn ⟨f, [], some vec4, .mk [.returnStmt (some (.var "tint" .unset)) .unset] .unset, .unset⟩
    let decls : List Decl := [.uniformVar ⟨"tint", vec4, .unset⟩ none, .uniformVar ⟨"eye", vec4, .unset⟩ (some "scene"),
      .uniformVar ⟨"fog", vec4, .unset⟩ (some "default"), .uniformVar ⟨"sun", vec4, .unset⟩ (some "scene"),
      stage "vertex", stage "fragment"]
    ∃ c, (emit (Glsl.dialect {}) [] decls).1 = .ok c ∧
      c.interface.blocks = [⟨"default", [("tint", .vec4), ("fog", .vec4)]⟩, ⟨"scene", [("eye", .vec4), ("sun", .vec4)]⟩] ∧
      FirstSeen ["default", "scene", "default", "scene"] ["default", "scene"] ∧
      ∃ items, (Glsl.dialect {}).IsText .fragment [] items c.fragmentText ∧
        items.filter Item.isInterface = c.interface.blocks.map .block := by
  intro vec4 stage decls
  obtain ⟨p, events, -, h, hblocks⟩ := emit_of_check
    (show (Program.check (Builtin.defaults ++ []) (Glsl.dialect {}).sharesDecls decls).1.toOption.any
      (fun p => p.interface.blocks = [⟨"default", [("tint", .vec4), ("fog", .vec4)]⟩,
        ⟨"scene", [("eye", .vec4), ("sun", .vec4)]⟩]) = true by decide +kernel)
  have hemit : (emit (Glsl.dialect {}) [] decls).1 = .ok (p.write (Glsl.dialect {})) := by rw [h]
  have hblocks : p.interface.blocks = _ := of_decide_eq_true hblocks
  obtain ⟨-, hvaryings, hseen, -, -, -, items, -, htext, -, hitems⟩ := interface_groups_declarations hemit
  rw [show (p.write (Glsl.dialect {})).interface = p.interface from rfl, hblocks] at hseen
  rw [hvaryings] at htext hitems
  exact ⟨_, hemit, hblocks, hseen, items, htext, hitems.trans (List.append_nil _)⟩

/-- A block that was seen before is not listed again. -/
example : (["default", "scene", "default"] : List Ident).eraseDups = ["default", "scene"] := by decide +kernel

end Shading
