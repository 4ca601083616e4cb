import TileMind.Proofs.Row.Reading

/-!
# TileMind.Proofs.Row.Numbers

Nodes of a row have different numbers. The reader draws them from a counter that only goes up, so a tree
has numbers from the stretch that was given out while it was read.

* `Expr.parts`, `Expr.induction_parts`: a tree is its top and the trees right below.
* `Drawn`: different numbers from a stretch.
* `drawn_readAll`: the numbers of the nodes of a row.
-/

namespace TileMind
namespace Row

def Expr.ids (e : Expr) : List Nat := e.nodes.map Expr.id

def Args.ids (args : Args) : List Nat := (Expr.argNodes args).map Expr.id

def Bound.ids (b : Bound) : List Nat := b.flatMap fun x => x.2.ids

section

variable {m : Mark} {left right object target value operand : Expr} {tile : Tile} {name : String}
  {args : Args}

open Row.Expr (nodes argNodes)

@[simp] theorem ids_binary {op : BinaryOp} :
    (Expr.binary m op left right).ids = m.id :: (left.ids ++ right.ids) := by
  simp [Expr.ids, nodes, Expr.id, Expr.mark]

@[simp] theorem ids_unary {op : UnaryOp} : (Expr.unary m op operand).ids = m.id :: operand.ids := rfl
@[simp] theorem ids_literal {v : Scalar} : (Expr.literal m v).ids = [m.id] := rfl
@[simp] theorem ids_variable : (Expr.variable m name).ids = [m.id] := rfl
@[simp] theorem ids_field : (Expr.field m object name).ids = m.id :: object.ids := rfl

@[simp] theorem ids_assign :
    (Expr.assign m target value).ids = m.id :: (target.ids ++ value.ids) := by
  simp [Expr.ids, nodes, Expr.id, Expr.mark]

@[simp] theorem ids_parameter : (Expr.parameter m tile value).ids = m.id :: value.ids := rfl
@[simp] theorem ids_modifier {count : Nat} : (Expr.modifier m tile count).ids = [m.id] := rfl
@[simp] theorem ids_call : (Expr.call m tile args).ids = m.id :: args.ids := rfl
@[simp] theorem ids_empty : (Expr.empty m).ids = [m.id] := rfl
@[simp] theorem ids_error {message : String} : (Expr.error m message).ids = [m.id] := rfl
@[simp] theorem ids_nil : Args.nil.ids = [] := rfl

@[simp] theorem ids_cons {slot : Nat} : (Args.cons slot value args).ids = value.ids ++ args.ids := by
  simp [Expr.ids, Args.ids, argNodes]

theorem Expr.id_mem_ids (e : Expr) : e.id ∈ e.ids := by
  cases e <;> simp [Expr.id, Expr.mark]

end

/-! ## Parts -/

def Expr.parts : Expr → List Expr
  | .binary _ _ left right => [left, right]
  | .unary _ _ operand => [operand]
  | .field _ object _ => [object]
  | .assign _ target value => [target, value]
  | .parameter _ _ value => [value]
  | .call _ _ args => args.toList.map Prod.snd
  | .literal _ _ | .variable _ _ | .modifier _ _ _ | .empty _ | .error _ _ => []

theorem argNodes_eq : ∀ args : Args,
    Expr.argNodes args = (args.toList.map Prod.snd).flatMap Expr.nodes
  | .nil => rfl
  | .cons slot value rest => by
    rw [Expr.argNodes, argNodes_eq rest]
    rfl

theorem Expr.nodes_eq (e : Expr) : e.nodes = e :: e.parts.flatMap Expr.nodes := by
  cases e <;> simp [Expr.nodes, Expr.parts, argNodes_eq]

theorem Expr.ids_eq (e : Expr) : e.ids = e.id :: e.parts.flatMap Expr.ids := by
  rw [Expr.ids, e.nodes_eq, List.map_cons, List.map_flatMap]
  rfl

/-- What holds of a tree if it holds of its parts holds of every tree. -/
theorem Expr.induction_parts {P : Expr → Prop} (h : ∀ e : Expr, (∀ c ∈ e.parts, P c) → P e) (e : Expr) :
    P e := by
  refine @Expr.rec P (fun args => ∀ c ∈ args.toList.map Prod.snd, P c) ?binary ?unary ?literal
    ?name ?field ?assign ?parameter ?modifier ?call ?empty ?error ?nil ?cons e
  case call => exact fun m tile args ih => h _ ih
  case cons =>
    intro slot value rest hvalue hrest c hc
    rcases List.mem_cons.mp hc with rfl | hc
    · exact hvalue
    · exact hrest c hc
  case nil => simp [Args.toList]
  all_goals
    intros
    apply h
    simp_all [Expr.parts]

theorem Expr.mem_nodes_iff {a e : Expr} : a ∈ e.nodes ↔ a = e ∨ ∃ c ∈ e.parts, a ∈ c.nodes := by
  rw [e.nodes_eq, List.mem_cons, List.mem_flatMap]

theorem Expr.ids_subset {a : Expr} (e : Expr) : a ∈ e.nodes → a.ids ⊆ e.ids := by
  induction e using Expr.induction_parts with
  | h e ih =>
    intro ha
    rcases Expr.mem_nodes_iff.mp ha with rfl | ⟨c, hc, ha⟩
    · exact List.Subset.refl _
    · intro id hid
      rw [e.ids_eq]
      exact List.mem_cons_of_mem _ (List.mem_flatMap.mpr ⟨c, hc, ih c hc ha hid⟩)

/-- The parts of a tree whose nodes have different numbers: such trees, apart from each other. -/
theorem Expr.nodup_part {e : Expr} (he : e.ids.Nodup) {before after : List Expr} {c : Expr}
    (hparts : e.parts = before ++ c :: after) :
    c.ids.Nodup ∧ e.id ∉ c.ids ∧ (∀ id ∈ c.ids, id ∉ before.flatMap Expr.ids) ∧
      ∀ id ∈ c.ids, id ∉ after.flatMap Expr.ids := by
  rw [e.ids_eq, hparts, List.flatMap_append, List.flatMap_cons, List.nodup_cons, List.nodup_append,
    List.nodup_append] at he
  simp only [List.mem_append, not_or] at he
  obtain ⟨⟨-, htop, -⟩, -, ⟨hc, -, hafter⟩, hbefore⟩ := he
  refine ⟨hc, htop, fun id hid hmem => ?_, fun id hid hmem => ?_⟩
  · exact hbefore id hmem id (.inl hid) rfl
  · exact hafter id hid id hmem rfl

theorem Expr.nodup_node {a : Expr} (e : Expr) : e.ids.Nodup → a ∈ e.nodes → a.ids.Nodup := by
  induction e using Expr.induction_parts with
  | h e ih =>
    intro he ha
    rcases Expr.mem_nodes_iff.mp ha with rfl | ⟨c, hc, ha⟩
    · exact he
    · obtain ⟨before, after, hparts⟩ := List.append_of_mem hc
      exact ih c hc (Expr.nodup_part he hparts).1 ha

theorem Expr.part_mem_nodes {n c : Expr} (e : Expr) : n ∈ e.nodes → c ∈ n.parts → c ∈ e.nodes := by
  induction e using Expr.induction_parts with
  | h e ih =>
    intro hn hc
    rcases Expr.mem_nodes_iff.mp hn with rfl | ⟨x, hx, hn⟩
    · exact Expr.mem_nodes_iff.mpr (.inr ⟨c, hc, Expr.mem_nodes_iff.mpr (.inl rfl)⟩)
    · exact Expr.mem_nodes_iff.mpr (.inr ⟨x, hx, ih x hx hn hc⟩)

/-! ## Numbers from a stretch -/

/-- Different numbers, all of them after `n` and up to `k`. -/
structure Drawn (n k : Nat) (ids : List Nat) : Prop where
  le : n ≤ k
  nodup : ids.Nodup
  range : ∀ i ∈ ids, n < i ∧ i ≤ k

namespace Drawn

variable {n j k : Nat} {ids ids' : List Nat}

theorem none (h : n ≤ k) : Drawn n k [] := ⟨h, List.nodup_nil, by simp⟩

theorem append (h : Drawn n j ids) (h' : Drawn j k ids') : Drawn n k (ids ++ ids') := by
  refine ⟨Nat.le_trans h.le h'.le, List.nodup_append.mpr ⟨h.nodup, h'.nodup, ?_⟩, ?_⟩
  · intro x hx y hy
    have := h.range x hx
    have := h'.range y hy
    omega
  · intro i hi
    have hle := h.le
    have hle' := h'.le
    rcases List.mem_append.mp hi with hi | hi
    · have := h.range i hi
      omega
    · have := h'.range i hi
      omega

theorem last (h : Drawn n k ids) : Drawn n (k + 1) ((k + 1) :: ids) := by
  refine ⟨Nat.le_succ_of_le h.le, List.nodup_cons.mpr ⟨fun hmem => ?_, h.nodup⟩, ?_⟩
  · have := h.range _ hmem
    omega
  · intro i hi
    have hle := h.le
    rcases List.mem_cons.mp hi with rfl | hi
    · omega
    · have := h.range i hi
      omega

theorem first (h : Drawn (n + 1) k ids) : Drawn n k ((n + 1) :: ids) := by
  have hone : Drawn n (n + 1) [n + 1] := (Drawn.none (Nat.le_refl n)).last
  exact hone.append h

theorem perm (h : Drawn n k ids) (hperm : ids.Perm ids') : Drawn n k ids' :=
  ⟨h.le, hperm.nodup_iff.mp h.nodup, fun i hi => h.range i (hperm.mem_iff.mpr hi)⟩

end Drawn

/-! ## Reading -/

theorem Bound.ids_bind (b : Bound) (slot : Nat) (e : Expr) : (b.bind slot e).ids = b.ids ++ e.ids := by
  simp [Bound.ids, Bound.bind]

/-- A modifier that is counted once more is the same node. -/
theorem Bound.ids_recount (b : Bound) (slot : Nat) : (b.recount slot).ids = b.ids := by
  unfold Bound.ids Bound.recount
  rw [List.flatMap_map]
  refine congrArg (fun f => List.flatMap f b) (funext fun x => ?_)
  split
  · split
    · rename_i heq
      rw [heq]
      rfl
    · rfl
  · rfl

theorem ids_ofList (bound : List (Nat × Expr)) :
    (Args.ofList bound).ids = bound.flatMap fun x => x.2.ids := by
  induction bound with
  | nil => rfl
  | cons b bound ih =>
    obtain ⟨slot, value⟩ := b
    rw [Args.ofList, ids_cons, ih, List.flatMap_cons]

theorem Bound.perm_ids_args (b : Bound) : b.ids.Perm b.args.ids := by
  rw [Bound.args, ids_ofList]
  exact (List.mergeSort_perm b _).symm.flatMap_right _

def Piece.ids : Piece → List Nat
  | .nothing => []
  | .tree e => e.ids
  | .args _ bound => bound.ids

/-- What is read next has numbers from the stretch given out meanwhile. -/
theorem Reading.drawn {c : Catalog} {rule : String} {p q : Piece} {r r' : Reader} {n : Nat}
    (h : Reading c rule p r q r') (hp : Drawn n r.lastId p.ids) : Drawn n r'.lastId q.ids := by
  induction h generalizing n with
  | refl => exact hp
  | trans _ _ ihfirst ihrest => exact ihrest (ihfirst hp)
  | fail => exact (Drawn.none hp.le).last
  | failAfter _ _ _ _ ih => exact (Drawn.none (Nat.le_trans hp.le (ih (.none (Nat.le_refl _))).le)).last
  | field => exact hp.last
  | assign _ _ _ ih =>
    rw [Piece.ids, ids_assign]
    exact (hp.append (ih (.none (Nat.le_refl _)))).last
  | binary _ _ ih =>
    rw [Piece.ids, ids_binary]
    exact (hp.append (ih (.none (Nat.le_refl _)))).last
  | unary _ _ ih => exact hp.append (ih (.none (Nat.le_refl _))).first
  | literal => exact (Drawn.none hp.le).last
  | name => exact (Drawn.none hp.le).last
  | parens _ _ _ ih => exact ih hp
  | unknown => exact (Drawn.none hp.le).last
  | call _ _ _ ih =>
    have hargs := ih (.none (Nat.le_refl _))
    exact hp.append (hargs.perm (Bound.perm_ids_args _)).first
  | parameter _ _ _ ih => exact hp.append (ih (.none (Nat.le_refl _))).first
  | modifier => exact (Drawn.none hp.le).last
  | recount =>
    rw [Piece.ids, Bound.ids_recount]
    exact hp
  | bindModifier =>
    rw [Piece.ids, Bound.ids_bind]
    exact hp.append (Drawn.none (Nat.le_refl _)).last
  | bindParameter _ _ _ ih =>
    rw [Piece.ids, Bound.ids_bind, ids_parameter]
    exact hp.append (ih (.none (Nat.le_refl _))).first
  | bindValue _ _ _ ih =>
    rw [Piece.ids, Bound.ids_bind]
    exact hp.append (ih (.none (Nat.le_refl _)))

/-- What is read down to some depth has numbers from the stretch given out meanwhile. -/
structure ReadsDrawn (c : Catalog) (rule : String) (depth : Nat) : Prop where
  expr : ∀ power r, Drawn r.lastId (readExpr c rule depth power r).2.lastId
    (readExpr c rule depth power r).1.ids
  operators : ∀ power left r n, Drawn n r.lastId left.ids →
    Drawn n (readOperators c rule depth power left r).2.lastId
      (readOperators c rule depth power left r).1.ids
  unary : ∀ r, Drawn r.lastId (readUnary c rule depth r).2.lastId (readUnary c rule depth r).1.ids
  primary : ∀ r, Drawn r.lastId (readPrimary c rule depth r).2.lastId (readPrimary c rule depth r).1.ids
  args : ∀ tile bound r n, Drawn n r.lastId bound.ids →
    Drawn n (readArgs c rule depth tile bound r).2.lastId (readArgs c rule depth tile bound r).1.ids

theorem readsDrawn (c : Catalog) (rule : String) (depth : Nat) : ReadsDrawn c rule depth :=
  have hreads := readings c rule depth
  { expr := fun power r => (hreads.expr power r).drawn (.none (Nat.le_refl _))
    operators := fun power left r _ => (hreads.operators power left r).drawn
    unary := fun r => (hreads.unary r).drawn (.none (Nat.le_refl _))
    primary := fun r => (hreads.primary r).drawn (.none (Nat.le_refl _))
    args := fun tile bound r _ => (hreads.args tile bound r).drawn }

/-- The nodes of a row have different numbers that were not given out before. -/
theorem drawn_readAll (c : Catalog) (rule : String) (r : Reader) :
    Drawn r.lastId (r.readAll c rule).2.lastId (r.readAll c rule).1.ids := by
  unfold Reader.readAll
  split
  · exact (Drawn.none (Nat.le_refl _)).last
  · exact (readsDrawn c rule _).expr assignPower r

theorem drawn_readRow (c : Catalog) (rule : String) (row : Text.Source) (lastId : Nat) (diags : Diagnostics) :
    Drawn lastId (readRow c rule row lastId diags).2.lastId (readRow c rule row lastId diags).1.ids :=
  drawn_readAll c rule (Reader.start row lastId diags)

end Row
end TileMind
