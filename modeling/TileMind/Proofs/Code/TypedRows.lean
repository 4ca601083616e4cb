import TileMind.Proofs.Code.Degradation

/-!
# TileMind.Proofs.Code.TypedRows

Rows that are read with one counter and typed with one table. No two nodes share a number, however well the rows
can be read, and the table has one entry for each node of what was typed: neither a node without an entry nor an
entry without a node.

* `Row.drawn_readRows`: the numbers of all nodes of all rows.
* `Row.perm_keys_typeRows`: the entries of the table.
* `Row.drawn_compileTurns`: the numbers of all nodes of a brain.
* `Row.numbers_and_entries`: both, and what they are there for: code generation finds the types of all nodes.
-/

namespace TileMind
namespace Row

/-! ## Reading in turn -/

/-- A row to read, with the tiles it may use, the rule it is reported under and what was reported before. -/
structure RowText where
  glyphs : List Text.Glyph
  catalog : Catalog := {}
  rule : String := ""
  diags : Diagnostics := []

/-- Reads rows in turn; they share the counter of node numbers. -/
def readRows : List RowText → (lastId : Nat) → List Expr × Nat
  | [], lastId => ([], lastId)
  | row :: rest, lastId =>
    let (e, r) := (Reader.start row.glyphs lastId row.diags).readAll row.catalog row.rule
    let (es, last) := readRows rest r.lastId
    (e :: es, last)

theorem drawn_readRows (rows : List RowText) (lastId : Nat) :
    Drawn lastId (readRows rows lastId).2 ((readRows rows lastId).1.flatMap Expr.ids) := by
  induction rows generalizing lastId with
  | nil => exact .none (Nat.le_refl lastId)
  | cons row rest ih =>
    rw [readRows]
    exact (drawn_readAll row.catalog row.rule (Reader.start row.glyphs lastId row.diags)).append (ih _)

theorem length_readRows (rows : List RowText) (lastId : Nat) :
    (readRows rows lastId).1.length = rows.length := by
  induction rows generalizing lastId with
  | nil => rfl
  | cons row rest ih =>
    rw [readRows]
    simp [ih]

/-! ## Typing in turn -/

/-- The numbers of the nodes that have an entry. -/
def TypeTable.keys (t : TypeTable) : List Nat := t.entries.map Prod.fst

theorem TypeTable.mem_keys_iff {t : TypeTable} {id : Nat} : id ∈ t.keys ↔ t.Has id := by
  simp [keys, has_iff]

theorem TypeTable.keys_modify (t : TypeTable) (id : Nat) (f : TypeInfo → TypeInfo) :
    (t.modify id f).keys = if id ∈ t.keys then t.keys else t.keys ++ [id] := by
  have hany : (t.entries.any fun e => e.1 = id) = true ↔ id ∈ t.keys := by simp [keys]
  unfold modify
  simp only [hany]
  split
  · rw [keys, keys, List.map_map]
    refine List.map_congr_left fun e _ => ?_
    rw [Function.comp_apply]
    split <;> rfl
  · simp [keys]

/-- A node has one entry at most. -/
def Typing.Unique (s : Typing) : Prop := s.table.keys.Nodup

/-- Only a node without an entry gets a new one. -/
theorem Typing.kept_unique : Typing.Kept Typing.Unique where
  modify {s} h id f := by
    rw [Unique, Typing.modify, TypeTable.keys_modify]
    split
    · exact h
    · rename_i hnew
      exact List.nodup_append.mpr ⟨h, List.nodup_singleton id, fun j hj k hk heq => by
        rw [heq, List.mem_singleton.mp hk] at hj
        exact hnew hj⟩
  report h _ := h

section

variable {σ : Type}

/-- A tree has its entries after it was typed, and the others are those from before. -/
theorem mem_keys_typeExpr (scope : TypeScope σ) (e : Expr) (s : Typing) (id : Nat) :
    id ∈ (typeExpr scope e s).table.keys ↔ id ∈ s.table.keys ∨ id ∈ e.ids := by
  have hcovers := covers_typeExpr scope e s
  simp only [TypeTable.mem_keys_iff]
  constructor
  · intro hid
    by_cases hmem : id ∈ e.ids
    · exact .inr hmem
    · rw [TypeTable.Has, (within_typeExpr scope e s).outside id hmem] at hid
      exact .inl hid
  · rintro (hid | hid)
    · exact hcovers.keeps id hid
    · obtain ⟨n, hn, rfl⟩ := List.mem_map.mp hid
      exact hcovers.nodes n hn

/-- Types trees in turn, each in its own scope; they share the table. -/
def typeRows (typed : List (TypeScope σ × Expr)) (s : Typing) : Typing :=
  typed.foldl (fun s row => typeExpr row.1 row.2 s) s

theorem unique_typeRows (typed : List (TypeScope σ × Expr)) {s : Typing} (h : s.Unique) :
    (typeRows typed s).Unique := by
  induction typed generalizing s with
  | nil => exact h
  | cons row typed ih => exact ih (Typing.kept_unique.typeExpr row.1 row.2 h)

theorem mem_keys_typeRows (typed : List (TypeScope σ × Expr)) (s : Typing) (id : Nat) :
    id ∈ (typeRows typed s).table.keys ↔
      id ∈ s.table.keys ∨ id ∈ (typed.map Prod.snd).flatMap Expr.ids := by
  induction typed generalizing s with
  | nil => simp [typeRows]
  | cons row typed ih =>
    have hrest := ih (typeExpr row.1 row.2 s)
    rw [mem_keys_typeExpr] at hrest
    rw [List.map_cons, List.flatMap_cons, List.mem_append, ← or_assoc]
    exact hrest

/-- Trees with different numbers get an entry for each of their nodes, and that is all. -/
theorem perm_keys_typeRows (typed : List (TypeScope σ × Expr))
    (h : ((typed.map Prod.snd).flatMap Expr.ids).Nodup) (diags : Diagnostics) :
    (typeRows typed ⟨{}, diags⟩).table.keys.Perm ((typed.map Prod.snd).flatMap Expr.ids) := by
  have hunique : (typeRows typed ⟨{}, diags⟩).Unique := unique_typeRows typed List.nodup_nil
  refine (List.perm_ext_iff_of_nodup hunique h).mpr fun id => ?_
  rw [mem_keys_typeRows]
  simp [TypeTable.keys]

/-- The numbers of some of the trees are different if those of all are. -/
theorem nodup_of_subperm {trees all : List Expr} (h : trees.Subperm all) (hall : (all.flatMap Expr.ids).Nodup) :
    (trees.flatMap Expr.ids).Nodup := by
  obtain ⟨some, hperm, hsub⟩ := h
  exact (hperm.flatMap_right _).nodup_iff.mp ((hsub.flatMap Expr.ids).nodup hall)

/-! ## The rows of a brain -/

section

variable {env : CompileEnv σ} {job : RuleJob} {cond action : Expr} {types : TypeTable} {before after : Progress}

theorem drawn_readRule (hread : readRule env job before = (cond, action, types, after)) :
    Drawn before.lastNode after.lastNode (cond.ids ++ action.ids) ∧ types.keys.Perm (cond.ids ++ action.ids) := by
  unfold readRule at hread
  have hcond := drawn_readRow env.catalog job.path job.whenRow before.lastNode before.generated.diags
  generalize readRow env.catalog job.path job.whenRow before.lastNode before.generated.diags = first at hread hcond
  obtain ⟨cond', rc⟩ := first
  have haction := drawn_readRow env.catalog job.path job.doRow rc.lastId rc.diags
  dsimp only at hread hcond
  generalize readRow env.catalog job.path job.doRow rc.lastId rc.diags = second at hread haction
  obtain ⟨action', ra⟩ := second
  simp only [Prod.mk.injEq] at hread
  obtain ⟨rfl, rfl, rfl, rfl⟩ := hread
  have hdrawn := hcond.append haction
  generalize hscope : (⟨env.services, before.generated.names.typeOf? job.chain, job.path⟩ : TypeScope σ) = scope
  have hperm := perm_keys_typeRows [(scope, cond'), (scope, action')] (by simpa using hdrawn.nodup) ra.diags
  exact ⟨hdrawn, by simpa [typeRows] using hperm⟩

/-- Nodes of a brain have different numbers, whichever rules they belong to. -/
theorem drawn_compileTurns (env : CompileEnv σ) (jobs : List RuleJob) (p : Progress) :
    ∃ last, Drawn p.lastNode last ((compileTurns env jobs p).flatMap fun turn =>
      (readRule env turn.1 turn.2).1.ids ++ (readRule env turn.1 turn.2).2.1.ids) := by
  induction jobs generalizing p with
  | nil => exact ⟨_, .none (Nat.le_refl _)⟩
  | cons job jobs ih =>
    rw [compileTurns]
    dsimp only
    generalize hstart : ({ p with generated := { p.generated with sites := [] } } : Progress) = start
    have hp : p.lastNode = start.lastNode := by rw [← hstart]
    rw [hp, List.flatMap_cons]
    generalize hread : readRule env job start = rows
    obtain ⟨cond, action, types, after⟩ := rows
    obtain ⟨last, hrest⟩ := ih (resolvedRule env job start).2
    have hlast : (resolvedRule env job start).2.lastNode = after.lastNode := by
      unfold resolvedRule
      rw [hread]
    exact ⟨last, (drawn_readRule hread).1.append (hlast ▸ hrest)⟩

theorem nodup_turns (env : CompileEnv σ) (d : BrainDef) :
    ((d.turns env).flatMap fun turn =>
      (readRule env turn.1 turn.2).1.ids ++ (readRule env turn.1 turn.2).2.1.ids).Nodup := by
  unfold BrainDef.turns
  split
  · obtain ⟨last, hdrawn⟩ := drawn_compileTurns env _ _
    exact hdrawn.nodup
  · exact List.nodup_nil

end

/-! ## Numbers and entries -/

/-- What becomes of the nodes of rows that share a counter of numbers and, as far as they are typed, a table. Their
numbers are different, and they lie between where the counter started and where it ends. If some of the trees are
typed, in any order and each in any scope, there is one entry for each of their nodes and no other entry; so
generating their code reports nothing. It is the same with the rows of the rules of a brain, where the two rows of a
rule share a table. -/
theorem numbers_and_entries (rows : List RowText) (lastId : Nat) :
    (readRows rows lastId).1.length = rows.length ∧
    ((readRows rows lastId).1.flatMap Expr.ids).Nodup ∧
    (∀ id ∈ (readRows rows lastId).1.flatMap Expr.ids, lastId < id ∧ id ≤ (readRows rows lastId).2) ∧
    (∀ (typed : List (TypeScope σ × Expr)) (diags : Diagnostics),
      (typed.map Prod.snd).Subperm (readRows rows lastId).1 →
      (typeRows typed ⟨{}, diags⟩).table.keys.Perm ((typed.map Prod.snd).flatMap Expr.ids) ∧
      ∀ e ∈ typed.map Prod.snd, ∀ (chain : Chain) (rule : String) (g : Generated),
        (code ⟨(typeRows typed ⟨{}, diags⟩).table, chain, rule⟩ e g).2.diags = g.diags) ∧
    ∀ (env : CompileEnv σ) (d : BrainDef),
      ((d.turns env).flatMap fun turn =>
        (readRule env turn.1 turn.2).1.ids ++ (readRule env turn.1 turn.2).2.1.ids).Nodup ∧
      ∀ turn ∈ d.turns env, ∀ cond action types after,
        readRule env turn.1 turn.2 = (cond, action, types, after) → types.keys.Perm (cond.ids ++ action.ids) := by
  have hdrawn := drawn_readRows rows lastId
  refine ⟨length_readRows rows lastId, hdrawn.nodup, hdrawn.range, fun typed diags hsome => ?_, fun env d =>
    ⟨nodup_turns env d, fun turn _ cond action types after hread => (drawn_readRule hread).2⟩⟩
  refine ⟨perm_keys_typeRows typed (nodup_of_subperm hsome hdrawn.nodup) diags, fun e he chain rule g => ?_⟩
  refine diags_code _ e g fun n hn => TypeTable.mem_keys_iff.mp ?_
  rw [mem_keys_typeRows]
  exact .inr (List.mem_flatMap.mpr ⟨e, he, List.mem_map_of_mem hn⟩)

/-- Rows with mistakes in them. The value of the first one cannot be stored anywhere, so its tree is left out. -/
def brokenRows : List RowText :=
  [{ glyphs := Text.glyphs "$a = -(1 + 2) = 3" }, { glyphs := [.stray 0xFF] },
    { glyphs := Text.glyphs "jump $b.c" }, { glyphs := [] }]

/-- The trees of the rows, the last one first. -/
def brokenTyped : List (TypeScope Unit × Expr) :=
  (readRows brokenRows 0).1.reverse.map fun e => ({ services := {} }, e)

/-- The numbers of what was left out are used up, but there are no entries for them. -/
theorem numbers_and_entries_broken :
    (readRows brokenRows 0).2 = 11 ∧ (brokenTyped.map Prod.snd).Subperm (readRows brokenRows 0).1 ∧
      (typeRows brokenTyped ⟨{}, []⟩).table.keys.Perm [11, 10, 9, 8, 1, 7] := by
  have hsome : (brokenTyped.map Prod.snd).Subperm (readRows brokenRows 0).1 := by
    have htrees : brokenTyped.map Prod.snd = (readRows brokenRows 0).1.reverse := by
      rw [brokenTyped, List.map_map]
      exact List.map_id _
    rw [htrees]
    exact (List.reverse_perm _).subperm
  have hids : (brokenTyped.map Prod.snd).flatMap Expr.ids = [11, 10, 9, 8, 1, 7] := by decide +kernel
  exact ⟨by decide +kernel, hsome, hids ▸ ((numbers_and_entries brokenRows 0).2.2.2.1 brokenTyped [] hsome).1⟩

end

end Row

end TileMind
