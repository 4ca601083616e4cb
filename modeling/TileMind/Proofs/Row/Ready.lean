import TileMind.Proofs.Row.Calls
import TileMind.Row.Typing

/-!
# TileMind.Proofs.Row.Ready

What reading and typing promise to whoever goes over a tree.

* `Row.plainLiterals_readRow`: every literal of a tree that was read is a plain constant.
* `Row.Typing.Kept`: what every change of an entry and every report keeps is kept by typing.
* `Row.covers_typeExpr`: typing leaves an entry for every node, and later typing keeps it.
-/

namespace TileMind
namespace Row

/-! ## Literals -/

/-- A node that, if it is a literal, is a plain constant. -/
def Expr.PlainLiteral (n : Expr) : Prop := ∀ m value, n = .literal m value → value.Plain

section

variable {m : Mark}

@[simp] theorem plainLiteral_literal {value : Scalar} :
    (Expr.literal m value).PlainLiteral ↔ value.Plain := by
  constructor
  · exact fun h => h m value rfl
  · intro h m' value' heq
    cases heq
    exact h

end

theorem plainLiterals_readRow (c : Catalog) (rule : String) (row : Text.Source) (lastId : Nat) (diags : Diagnostics) :
    (readRow c rule row lastId diags).1.All Expr.PlainLiteral := by
  refine (formed_readRow c rule row lastId diags).mono fun n hn m value heq => ?_
  rw [heq] at hn
  exact hn

/-! ## Types -/

def TypeTable.Has (t : TypeTable) (id : Nat) : Prop := ∃ info, t.get? id = some info

theorem TypeTable.has_iff {t : TypeTable} {id : Nat} : t.Has id ↔ ∃ info, (id, info) ∈ t.entries := by
  constructor
  · rintro ⟨info, h⟩
    obtain ⟨l, r, heq, -⟩ := List.lookup_eq_some_iff.mp h
    exact ⟨info, by rw [heq]; simp⟩
  · rintro ⟨info, h⟩
    cases hget : t.get? id with
    | some found => exact ⟨found, hget⟩
    | none =>
      have := List.lookup_eq_none_iff.mp hget (id, info) h
      simp at this

theorem TypeTable.has_modify (t : TypeTable) (id : Nat) (f : TypeInfo → TypeInfo) (j : Nat) :
    (t.modify id f).Has j ↔ j = id ∨ t.Has j := by
  simp only [has_iff, modify]
  split
  · rename_i hany
    obtain ⟨e, he, heq⟩ := List.any_eq_true.mp hany
    have hid : e.1 = id := by simpa using heq
    constructor
    · rintro ⟨info, hmem⟩
      obtain ⟨x, hx, hxj⟩ := List.mem_map.mp hmem
      split at hxj <;> cases hxj
      · exact .inr ⟨x.2, hx⟩
      · exact .inr ⟨info, hx⟩
    · rintro (rfl | ⟨info, hmem⟩)
      · exact ⟨f e.2, List.mem_map.mpr ⟨e, he, by simp [hid]⟩⟩
      · by_cases hj : j = id
        · exact ⟨f info, List.mem_map.mpr ⟨(j, info), hmem, by simp [hj]⟩⟩
        · exact ⟨info, List.mem_map.mpr ⟨(j, info), hmem, by simp [hj]⟩⟩
  · constructor
    · rintro ⟨info, hmem⟩
      rcases List.mem_append.mp hmem with hmem | hmem
      · exact .inr ⟨info, hmem⟩
      · left
        simpa using congrArg Prod.fst (List.mem_singleton.mp hmem)
    · rintro (rfl | ⟨info, hmem⟩)
      · exact ⟨f {}, by simp⟩
      · exact ⟨info, List.mem_append_left _ hmem⟩

/-- Nothing is forgotten on the way from one state of typing to another. -/
def Typing.Extends (s t : Typing) : Prop := ∀ id, s.table.Has id → t.table.Has id

theorem Typing.Extends.refl (s : Typing) : s.Extends s := fun _ h => h

theorem Typing.Extends.trans {s t u : Typing} (h : s.Extends t) (h' : t.Extends u) : s.Extends u :=
  fun id hid => h' id (h id hid)

theorem Typing.extends_modify (s : Typing) (id : Nat) (f : TypeInfo → TypeInfo) :
    s.Extends (s.modify id f) :=
  fun j hj => (TypeTable.has_modify s.table id f j).mpr (.inr hj)

theorem Typing.has_modify_self (s : Typing) (id : Nat) (f : TypeInfo → TypeInfo) :
    (s.modify id f).table.Has id :=
  (TypeTable.has_modify s.table id f id).mpr (.inl rfl)

/-- The way from one state to another keeps what it finds and makes an entry for every node of a
tree. -/
structure Covers (e : Expr) (s t : Typing) : Prop where
  keeps : s.Extends t
  nodes : e.All fun n => t.table.Has n.id

theorem Expr.All.extends {e : Expr} {s t : Typing} (h : e.All fun n => s.table.Has n.id)
    (hst : s.Extends t) : e.All fun n => t.table.Has n.id :=
  fun n hn => hst n.id (h n hn)

section

variable {σ : Type} (scope : TypeScope σ)

theorem extends_expectType (id : Nat) (type : TypeId) (s : Typing) :
    s.Extends (expectType id type s) := s.extends_modify id _

theorem has_expectType (id : Nat) (type : TypeId) (s : Typing) :
    (expectType id type s).table.Has id := s.has_modify_self id _

mutual

theorem covers_expect : ∀ (e : Expr) (type : TypeId) (s : Typing), Covers e s (expect scope e type s)
  | .assign m target value, type, s => by
    rw [expect]
    have ht := covers_expect target (declaredType scope target) (expectType m.id type s)
    have hplace := (expect scope target (declaredType scope target) (expectType m.id type s)).extends_modify
      target.id fun info => { info with isPlace := true }
    have hv := covers_expect value (declaredType scope target)
      ((expect scope target (declaredType scope target) (expectType m.id type s)).modify target.id
        fun info => { info with isPlace := true })
    have htv := hplace.trans hv.keeps
    refine ⟨(extends_expectType _ _ _).trans (ht.keeps.trans htv), ?_⟩
    rw [all_assign]
    exact ⟨htv _ (ht.keeps _ (has_expectType _ _ _)), ht.nodes.extends htv, hv.nodes⟩
  | .parameter m tile value, type, s => by
    rw [expect]
    have hown := (extends_expectType m.id type s).trans ((expectType m.id type s).extends_modify m.id
      fun info => { info with expected := tile.value })
    have hv := covers_expect value tile.value ((expectType m.id type s).modify m.id
      fun info => { info with expected := tile.value })
    refine ⟨hown.trans hv.keeps, ?_⟩
    rw [all_parameter]
    exact ⟨hv.keeps _ (Typing.has_modify_self _ _ _), hv.nodes⟩
  | .modifier m _ _, type, s => by
    rw [expect]
    refine ⟨(extends_expectType _ _ _).trans (Typing.extends_modify _ _ _), ?_⟩
    rw [all_modifier]
    exact Typing.has_modify_self _ _ _
  | .call m tile args, type, s => by
    rw [expect]
    generalize (if tile.kind = .sensor then tile.output else .void : TypeId) = own
    have hown := (extends_expectType m.id type s).trans ((expectType m.id type s).extends_modify m.id
      fun info => { info with expected := own })
    have ha := covers_expectArgs tile args ((expectType m.id type s).modify m.id
      fun info => { info with expected := own })
    refine ⟨hown.trans ha.1, ?_⟩
    rw [all_call]
    exact ⟨ha.1 _ (Typing.has_modify_self _ _ _), ha.2⟩
  | .binary m _ left right, type, s => by
    rw [expect]
    have hl := covers_expect left .unknown (expectType m.id type s)
    have hr := covers_expect right .unknown (expect scope left .unknown (expectType m.id type s))
    refine ⟨(extends_expectType _ _ _).trans (hl.keeps.trans hr.keeps), ?_⟩
    rw [all_binary]
    exact ⟨hr.keeps _ (hl.keeps _ (has_expectType _ _ _)), hl.nodes.extends hr.keeps, hr.nodes⟩
  | .unary m _ operand, type, s => by
    rw [expect]
    have h := covers_expect operand .unknown (expectType m.id type s)
    refine ⟨(extends_expectType _ _ _).trans h.keeps, ?_⟩
    rw [all_unary]
    exact ⟨h.keeps _ (has_expectType _ _ _), h.nodes⟩
  | .field m object _, type, s => by
    rw [expect]
    have h := covers_expect object .unknown (expectType m.id type s)
    refine ⟨(extends_expectType _ _ _).trans h.keeps, ?_⟩
    rw [all_field]
    exact ⟨h.keeps _ (has_expectType _ _ _), h.nodes⟩
  | .literal m _, type, s => by
    rw [expect]
    exact ⟨extends_expectType _ _ _, all_literal.mpr (has_expectType _ _ _)⟩
  | .variable m _, type, s => by
    rw [expect]
    exact ⟨extends_expectType _ _ _, all_variable.mpr (has_expectType _ _ _)⟩
  | .empty m, type, s => by
    rw [expect]
    exact ⟨extends_expectType _ _ _, all_empty.mpr (has_expectType _ _ _)⟩
  | .error m _, type, s => by
    rw [expect]
    exact ⟨extends_expectType _ _ _, all_error.mpr (has_expectType _ _ _)⟩
termination_by structural e => e

theorem covers_expectArgs (tile : Tile) : ∀ (args : Args) (s : Typing),
    s.Extends (expectArgs scope tile args s) ∧
      args.All fun n => (expectArgs scope tile args s).table.Has n.id
  | .nil, s => ⟨.refl s, all_nil⟩
  | .cons slot value rest, s => by
    rw [expectArgs]
    have hv := covers_expect value (slotType tile slot) s
    have hr := covers_expectArgs tile rest (expect scope value (slotType tile slot) s)
    exact ⟨hv.keeps.trans hr.1, all_cons.mpr ⟨hv.nodes.extends hr.1, hr.2⟩⟩
termination_by structural args => args

end

/-! ## What typing keeps

Typing changes entries and reports, and nothing else: what these two keep is kept by both passes. -/

/-- What every change of an entry and every report keeps. -/
structure Typing.Kept (P : Typing → Prop) : Prop where
  modify : ∀ {s : Typing}, P s → ∀ (id : Nat) (f : TypeInfo → TypeInfo), P (s.modify id f)
  report : ∀ {s : Typing}, P s → ∀ d : Diagnostic, P (s.report d)

namespace Typing.Kept

variable {P : Typing → Prop} (hP : Kept P)

include hP

theorem convert (m : Mark) (source target : TypeId) {s : Typing} (h : P s) :
    P (convert scope m source target s).2 := by
  unfold Row.convert
  split
  · exact h
  · split
    · exact h
    · exact hP.report h _

theorem fieldType (m : Mark) (object : TypeId) (name : String) {s : Typing} (h : P s) :
    P (fieldType scope m object name s).2 := by
  unfold Row.fieldType
  dsimp only
  repeat' split
  all_goals first | exact h | exact hP.report h _

theorem convertOperands : ∀ (ids : List Nat) (params : List TypeId) (paths : List (List Conversion))
    {s : Typing}, P s → P (convertOperands ids params paths s)
  | [], _, _, _, h | _ :: _, [], _, _, h | _ :: _, _ :: _, [], _, h => h
  | id :: ids, param :: params, path :: paths, s, h => by
    rw [Row.convertOperands]
    refine convertOperands ids params paths ?_
    split
    · exact h
    · exact hP.modify h _ _

theorem resolve (m : Mark) (op : OperatorId) (operands : List (Nat × TypeId)) {s : Typing} (h : P s) :
    P (resolve scope m op operands s).2 := by
  unfold Row.resolve
  dsimp only
  split
  · exact hP.report h _
  · exact hP.convertOperands _ _ _ (hP.modify h _ _)

theorem settle (m : Mark) (type : TypeId) {s : Typing} (h : P s) : P (settle scope m type s).2 :=
  hP.modify (hP.convert scope m type _ h) _ _

theorem expectType (id : Nat) (type : TypeId) {s : Typing} (h : P s) : P (expectType id type s) :=
  hP.modify h _ _

omit hP

mutual

theorem expect (hP : Kept P) : ∀ (e : Expr) (type : TypeId) {s : Typing}, P s → P (expect scope e type s)
  | .assign m target value, type, s, h => by
    rw [Row.expect]
    exact expect hP value _ (hP.modify (expect hP target _ (hP.expectType _ _ h)) _ _)
  | .parameter m tile value, type, s, h => by
    rw [Row.expect]
    exact expect hP value _ (hP.modify (hP.expectType _ _ h) _ _)
  | .modifier m _ _, type, s, h => by
    rw [Row.expect]
    exact hP.modify (hP.expectType _ _ h) _ _
  | .call m tile args, type, s, h => by
    rw [Row.expect]
    exact expectArgs hP tile args (hP.modify (hP.expectType _ _ h) _ _)
  | .binary m _ left right, type, s, h => by
    rw [Row.expect]
    exact expect hP right _ (expect hP left _ (hP.expectType _ _ h))
  | .unary m _ operand, type, s, h => by
    rw [Row.expect]
    exact expect hP operand _ (hP.expectType _ _ h)
  | .field m object _, type, s, h => by
    rw [Row.expect]
    exact expect hP object _ (hP.expectType _ _ h)
  | .literal m _, type, s, h | .variable m _, type, s, h | .empty m, type, s, h
  | .error m _, type, s, h => by
    rw [Row.expect]
    exact hP.expectType _ _ h
termination_by structural e => e

theorem expectArgs (hP : Kept P) (tile : Tile) : ∀ (args : Args) {s : Typing}, P s → P (expectArgs scope tile args s)
  | .nil, _, h => h
  | .cons slot value rest, s, h => by
    rw [Row.expectArgs]
    exact expectArgs hP tile rest (expect hP value _ h)
termination_by structural args => args

end

mutual

theorem infer (hP : Kept P) : ∀ (e : Expr) {s : Typing}, P s → P (infer scope e s).2
  | .literal m value, s, h | .modifier m _ _, s, h | .empty m, s, h | .error m _, s, h => by
    rw [Row.infer]
    exact hP.settle scope _ _ h
  | .variable m name, s, h => by
    rw [Row.infer]
    split
    · exact hP.settle scope _ _ h
    · exact hP.settle scope _ _ (hP.report h _)
  | .field m object name, s, h => by
    rw [Row.infer]
    exact hP.settle scope _ _ (hP.fieldType scope _ _ _ (infer hP object h))
  | .assign m target value, s, h => by
    rw [Row.infer]
    have hparts := infer hP value (infer hP target h)
    refine hP.modify ?_ _ _
    split
    · exact hP.convert scope _ _ _ hparts
    · exact hparts
  | .binary m op left right, s, h => by
    rw [Row.infer]
    have hparts := infer hP right (infer hP left h)
    dsimp only
    split
    · exact hP.settle scope _ _ hparts
    · exact hP.settle scope _ _ (hP.resolve scope _ _ _ hparts)
  | .unary m op operand, s, h => by
    rw [Row.infer]
    exact hP.settle scope _ _ (hP.resolve scope _ _ _ (infer hP operand h))
  | .parameter m tile value, s, h => by
    rw [Row.infer]
    exact hP.settle scope _ _ (infer hP value h)
  | .call m tile args, s, h => by
    rw [Row.infer]
    exact hP.settle scope _ _ (inferArgs hP args h)
termination_by structural e => e

theorem inferArgs (hP : Kept P) : ∀ (args : Args) {s : Typing}, P s → P (inferArgs scope args s)
  | .nil, _, h => h
  | .cons _ value rest, s, h => by
    rw [Row.inferArgs]
    exact inferArgs hP rest (infer hP value h)
termination_by structural args => args

end

include hP in
theorem typeExpr (e : Expr) {s : Typing} (h : P s) : P (typeExpr scope e s) :=
  hP.infer scope e (hP.expect scope e .unknown h)

end Typing.Kept

theorem Typing.kept_extends (s : Typing) : Typing.Kept s.Extends where
  modify h id f := h.trans (Typing.extends_modify _ id f)
  report h _ := h

theorem covers_typeExpr (e : Expr) (s : Typing) : Covers e s (typeExpr scope e s) := by
  have h := covers_expect scope e .unknown s
  have hi := (Typing.kept_extends _).infer scope e (.refl (expect scope e .unknown s))
  exact ⟨h.keeps.trans hi, h.nodes.extends hi⟩

end

/-- The expression was read from a row, and what is known of types comes from typing that row and then
perhaps others. -/
inductive Typed : Expr → Typing → Prop where
  | row {σ : Type} (catalog : Catalog) (rule : String) (row : Text.Source) (lastId : Nat) (diags : Diagnostics)
      (scope : TypeScope σ) (typing : Typing) :
      Typed (readRow catalog rule row lastId diags).1
        (typeExpr scope (readRow catalog rule row lastId diags).1 typing)
  | later {σ : Type} {e : Expr} {t : Typing} (h : Typed e t) (scope : TypeScope σ) (other : Expr) :
      Typed e (typeExpr scope other t)

/-- What reading and typing promise about a node. -/
structure Expr.Ready (types : TypeTable) (n : Expr) : Prop where
  typed : types.Has n.id
  plain : n.PlainLiteral

theorem Typed.ready {e : Expr} {t : Typing} (h : Typed e t) : e.All (Expr.Ready t.table) := by
  induction h with
  | row catalog rule row lastId diags scope typing =>
    intro n hn
    exact ⟨(covers_typeExpr scope _ typing).nodes n hn,
      plainLiterals_readRow catalog rule row lastId diags n hn⟩
  | later _ scope other ih =>
    intro n hn
    exact ⟨(covers_typeExpr scope other _).keeps _ (ih n hn).typed, (ih n hn).plain⟩

end Row
end TileMind
