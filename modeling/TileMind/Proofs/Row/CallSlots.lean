import Mathlib
import TileMind.Proofs.Row.Calls
import TileMind.Proofs.Tile.Flattening

/-!
# TileMind.Proofs.Row.CallSlots

Which slots of a tile can be bound together in a call of a row. What a slot demands of the other ones is looked
up when it is bound; later ones are not asked again.

* `Bindings.same_option`: slots of the same innermost choice take the same option.
* `Bindings.present`, `Bindings.absent`: a condition holds of the slots that were bound before.
* `exclusive_choices`, `conditional_slots`: both, by the grammar of the tile, for every call of a row.
-/

namespace TileMind
namespace Row

/-! ## Slots bound together -/

section

variable {spec : FlatSpec} {b : Bound} {s o : Slot} {id : Nat}

theorem Bound.isFilled_iff {slot : Nat} : b.isFilled slot = true ↔ ∃ id, (slot, id) ∈ b.places := by
  simp only [isFilled, places, List.any_eq_true, decide_eq_true_eq, List.mem_map, Prod.mk.injEq]
  constructor
  · rintro ⟨x, hx, rfl⟩
    exact ⟨_, x, hx, rfl, rfl⟩
  · rintro ⟨-, x, hx, rfl, -⟩
    exact ⟨x, hx, rfl⟩

theorem Bound.mem_slots : s ∈ b.slots spec ↔ s ∈ spec.slots ∧ ∃ id, (s.id, id) ∈ b.places := by
  rw [slots, List.mem_filter, isFilled_iff]

theorem Bound.groupFilled_iff {group : Nat} : b.groupFilled spec group = true ↔
    group ≠ 0 ∧ ∃ o ∈ spec.slots, group ∈ o.groups ∧ ∃ id, (o.id, id) ∈ b.places := by
  simp only [groupFilled, Bool.and_eq_true, decide_eq_true_eq, List.any_eq_true, mem_slots,
    List.contains_iff_mem]
  refine and_congr_right fun _ => exists_congr fun o => ?_
  tauto

/-- What a slot demands when it is bound: it is free, slots of the same innermost choice take the same option,
and its condition holds. -/
structure Demands (spec : FlatSpec) (b : Bound) (s : Slot) : Prop where
  free : ∀ id, (s.id, id) ∉ b.places
  option : s.group ≠ 0 → ∀ o ∈ spec.slots, ∀ id, (o.id, id) ∈ b.places → o.group = s.group →
    o.option = s.option
  condition : ∀ c ∈ s.condition, b.groupFilled spec ((spec.choices.get? c.choice).getD 0) = !c.absent

theorem Bound.demands_of_available (h : b.available spec s = true) : Demands spec b s := by
  simp only [available, Bool.and_eq_true, Bool.not_eq_true', Bool.or_eq_true, decide_eq_true_eq,
    List.any_eq_false, not_and, Classical.not_not] at h
  obtain ⟨⟨hfree, hoption⟩, hcondition⟩ := h
  refine ⟨fun id hid => ?_, fun hgroup o ho id hid hsame => ?_, fun c hc => ?_⟩
  · rw [Bound.isFilled_iff.mpr ⟨id, hid⟩] at hfree
    cases hfree
  · exact hoption.resolve_left hgroup o (Bound.mem_slots.mpr ⟨ho, id, hid⟩) hsame
  · rw [Option.mem_def.mp hc] at hcondition
    exact Bool.eq_not.mpr (by simpa using hcondition)

theorem mem_places_bind {slot : Nat} {e : Expr} {x : Nat × Nat} :
    x ∈ (b.bind slot e).places ↔ x ∈ b.places ∨ x = (slot, e.id) := by
  rw [Bound.places_bind, List.mem_append, List.mem_singleton]

/-- Slots of the same innermost choice take the same option. -/
theorem Bindings.same_option (h : Bindings spec b) (hids : spec.Distinct) (hs : s ∈ spec.slots)
    (ho : o ∈ spec.slots) {j : Nat} (hid : (s.id, id) ∈ b.places) (hj : (o.id, j) ∈ b.places)
    (hgroup : s.group ≠ 0) (hsame : o.group = s.group) : o.option = s.option := by
  induction h generalizing id j with
  | nil => cases hid
  | @bind b n e _ hn havailable _ ih =>
    have hdemands := Bound.demands_of_available havailable
    rcases mem_places_bind.mp hid with hold | hnew
    · rcases mem_places_bind.mp hj with hold' | hnew
      · exact ih hold hold'
      · obtain rfl := hids o ho n hn (Prod.mk.inj hnew).1
        exact (hdemands.option (hsame ▸ hgroup) s hs id hold hsame.symm).symm
    · obtain rfl := hids s hs n hn (Prod.mk.inj hnew).1
      rcases mem_places_bind.mp hj with hold | hnew
      · exact hdemands.option hgroup o ho j hold hsame
      · rw [hids o ho s hs (Prod.mk.inj hnew).1]
  | recount _ slot ih =>
    rw [Bound.places_recount] at hid hj
    exact ih hid hj

/-- Before a slot that wants a choice to be taken, a slot of that choice was bound; before one that wants it not to
be, no other one was. -/
theorem Bindings.condition (h : Bindings spec b) (hids : spec.Distinct) (hs : s ∈ spec.slots)
    {c : SlotCondition} (hc : s.condition = some c) (hid : (s.id, id) ∈ b.places) {group : Nat}
    (hgroup : (spec.choices.get? c.choice).getD 0 = group) :
    (c.absent = false → group ≠ 0 ∧ ∃ o ∈ spec.slots, group ∈ o.groups ∧ ∃ j, (o.id, j) ∈ b.places ∧ j < id) ∧
    (c.absent = true → group ≠ 0 → ∀ o ∈ spec.slots, group ∈ o.groups → ∀ j, (o.id, j) ∈ b.places →
      o.id ≠ s.id → id < j) := by
  induction h generalizing id with
  | nil => cases hid
  | @bind b n e _ hn havailable hlater ih =>
    rcases mem_places_bind.mp hid with hid | hnew
    · obtain ⟨hpresent, habsent⟩ := ih hid
      refine ⟨fun hthen => ?_, fun helse hne o ho hin j hj hother => ?_⟩
      · obtain ⟨hne, o, ho, hin, j, hj, hlt⟩ := hpresent hthen
        exact ⟨hne, o, ho, hin, j, mem_places_bind.mpr (.inl hj), hlt⟩
      · rcases mem_places_bind.mp hj with hj | hnew
        · exact habsent helse hne o ho hin j hj hother
        · rw [(Prod.mk.inj hnew).2]
          exact hlater _ hid
    · obtain ⟨hsn, rfl⟩ := Prod.mk.inj hnew
      obtain rfl := hids s hs n hn hsn
      have hfilled := (Bound.demands_of_available havailable).condition c hc
      rw [hgroup] at hfilled
      refine ⟨fun hthen => ?_, fun helse hne o ho hin j hj hother => ?_⟩
      · rw [hthen, Bool.not_false, Bound.groupFilled_iff] at hfilled
        obtain ⟨hne, o, ho, hin, j, hj⟩ := hfilled
        exact ⟨hne, o, ho, hin, j, mem_places_bind.mpr (.inl hj), hlater _ hj⟩
      · rcases mem_places_bind.mp hj with hj | hnew
        · -- Nothing in the choice was bound before.
          rw [helse, Bool.not_true, Bool.eq_false_iff, ne_eq, Bound.groupFilled_iff] at hfilled
          exact absurd ⟨hne, o, ho, hin, j, hj⟩ hfilled
        · exact absurd (Prod.mk.inj hnew).1 hother
  | recount _ slot ih =>
    rw [Bound.places_recount] at hid ⊢
    exact ih hid

end

/-! ## Calls of a row -/

section

variable {catalog : Catalog} {rule : String} {row : Text.Source} {lastId : Nat} {diags : Diagnostics} {e : Expr} {r : Reader}
  {m : Mark} {tile : Tile} {args : Args} {grammar : CallSpec}

open CallSpec (Trail Turn)

theorem toList_ofList : ∀ bound : List (Nat × Expr), (Args.ofList bound).toList = bound
  | [] => rfl
  | (slot, value) :: rest => by
    rw [Args.ofList, Args.toList, toList_ofList rest]

theorem exists_bindings (hread : readRow catalog rule row lastId diags = (e, r))
    (hcall : .call m tile args ∈ e.nodes) :
    ∃ b, Bindings tile.spec b ∧ ∀ k id, (k, id) ∈ b.places ↔ ∃ x, (k, x) ∈ args.toList ∧ x.id = id := by
  have hformed := formed_readRow catalog rule row lastId diags
  rw [hread] at hformed
  obtain ⟨b, hb, rfl⟩ := hformed _ hcall
  refine ⟨b, hb, fun k id => ?_⟩
  simp only [Bound.places, Bound.args, toList_ofList, List.mem_mergeSort, List.mem_map, Prod.mk.injEq]
  constructor
  · rintro ⟨x, hx, rfl, rfl⟩
    exact ⟨x.2, hx, rfl⟩
  · rintro ⟨x, hx, rfl⟩
    exact ⟨(k, x), hx, rfl, rfl⟩

/-- Two arguments of a call whose innermost choice is the same are in the same option of it. -/
theorem exclusive_choices (hread : readRow catalog rule row lastId diags = (e, r))
    (hcall : .call m tile args ∈ e.nodes) (hspec : tile.LaidOut grammar) {j k : Nat} {x y : Expr}
    (hx : (j, x) ∈ args.toList) (hy : (k, y) ∈ args.toList) {choice p q : Trail} {i i' : Nat} {a a' : ArgSpec}
    (hj : grammar.leaves[j]? = some (choice ++ .option i :: p, a))
    (hk : grammar.leaves[k]? = some (choice ++ .option i' :: q, a'))
    (hp : ∀ n, Turn.option n ∉ p) (hq : ∀ n, Turn.option n ∉ q) : i = i' := by
  obtain ⟨b, hb, hplaces⟩ := exists_bindings hread hcall
  obtain ⟨num, hlays⟩ := CallSpec.exists_lays hspec
  obtain ⟨s, hs, rfl⟩ := hlays.exists_slot hj
  obtain ⟨o, ho, rfl⟩ := hlays.exists_slot hk
  obtain ⟨hgroup, hoption⟩ := hlays.innermost hs hj hp
  obtain ⟨hgroup', hoption'⟩ := hlays.innermost ho hk hq
  have hchoice := CallSpec.exists_choice_of_option (CallSpec.mem_leaves.mp (List.mem_of_getElem? hj))
  have hpos := hlays.pos choice hchoice
  have hsame := hb.same_option hlays.distinct hs ho
    ((hplaces _ _).mpr ⟨x, hx, rfl⟩) ((hplaces _ _).mpr ⟨y, hy, rfl⟩) (by omega) (hgroup'.trans hgroup.symm)
  rw [← hoption, ← hoption', hsame]

/-- A choice in an option of another one, and two arguments in the other option. -/
def pickGrammar : CallSpec :=
  .choice "outer" [.choice "inner" [.mod "a", .mod "b"], .seq [.mod "c", .mod "d"]]

/-- A direction, a speed if there is a direction, and haste if there is none. -/
def goGrammar : CallSpec :=
  .seq [.optional (.choice "dir" [.mod "left", .mod "right"]),
    .conditional "dir" (.param "speed") (some (.mod "quickly"))]

def laidOut (id : String) (grammar : CallSpec) : Tile :=
  let flat := (CallSpec.flatten (some grammar) 0).1
  { id := id, kind := .actuator, spec := { flat with slots := flat.slots.map Catalog.typed } }

theorem laidOut_spec (id : String) (grammar : CallSpec) : (laidOut id grammar).LaidOut grammar := ⟨0, rfl⟩

def choosingCatalog : Catalog :=
  { tiles := [laidOut "pick" pickGrammar, laidOut "go" goGrammar,
      { id := "speed", kind := .parameter, value := .number }] ++
      ["a", "b", "c", "d", "left", "right", "quickly"].map fun id =>
        { id := id, kind := .modifier, value := .number } }

def choosingRow (row : String) : Expr × Reader := readRow choosingCatalog "" row 0 []

/-- The call binds these slots, and nothing is wrong with the row. -/
def Binds (row : Expr × Reader) (tile : Tile) (args : Args) (slots : List Nat) : Prop :=
  row.2.diags = [] ∧ ∃ m, .call m tile args ∈ row.1.nodes ∧ args.toList.map Prod.fst = slots

theorem Binds.exists_arg {row : Expr × Reader} {tile : Tile} {args : Args} {slots : List Nat}
    (h : Binds row tile args slots) {k : Nat} (hk : k ∈ slots) : ∃ x, (k, x) ∈ args.toList := by
  obtain ⟨-, -, -, rfl⟩ := h
  simpa using hk

/-- Whether some call of the row binds these slots, and nothing is wrong with the row. -/
def bindsSlots (row : Expr × Reader) (tile : Tile) (slots : List Nat) : Bool :=
  row.2.diags.isEmpty && row.1.nodes.any fun n => match n with
    | .call _ t args => decide (t = tile) && decide (args.toList.map Prod.fst = slots)
    | _ => false

theorem exists_binds {row : Expr × Reader} {tile : Tile} {slots : List Nat}
    (h : bindsSlots row tile slots = true) : ∃ args, Binds row tile args slots := by
  rw [bindsSlots, Bool.and_eq_true, List.isEmpty_iff, List.any_eq_true] at h
  obtain ⟨hdiags, n, hn, hcall⟩ := h
  cases n with
  | call m t args =>
    simp only [Bool.and_eq_true, decide_eq_true_eq] at hcall
    obtain ⟨rfl, hslots⟩ := hcall
    exact ⟨args, hdiags, m, hn, hslots⟩
  | _ => cases hcall

/-- The rows that are shown below, read together: the kernel does not reduce the sorting of the arguments. -/
theorem choosingRows_bind :
    bindsSlots (choosingRow "pick c d") (laidOut "pick" pickGrammar) [2, 3] = true ∧
    bindsSlots (choosingRow "pick a c") (laidOut "pick" pickGrammar) [0, 2] = true ∧
    bindsSlots (choosingRow "go left speed $v") (laidOut "go" goGrammar) [0, 2] = true ∧
    bindsSlots (choosingRow "go quickly left") (laidOut "go" goGrammar) [0, 3] = true := by
  refine ⟨?_, ?_, ?_, ?_⟩ <;> cbv

/-- Two arguments are in the second option of the outer choice. -/
theorem exclusive_choices_second : ∃ args,
    Binds (choosingRow "pick c d") (laidOut "pick" pickGrammar) args [2, 3] ∧
    ∃ (i i' : Nat) (a a' : ArgSpec), pickGrammar.leaves[2]? = some ([Turn.option i, Turn.item 0], a) ∧
      pickGrammar.leaves[3]? = some ([Turn.option i', Turn.item 1], a') ∧ i = i' := by
  obtain ⟨args, hbinds⟩ := exists_binds choosingRows_bind.1
  obtain ⟨x, hx⟩ := hbinds.exists_arg (k := 2) (by simp)
  obtain ⟨y, hy⟩ := hbinds.exists_arg (k := 3) (by simp)
  obtain ⟨-, m, hcall, -⟩ := id hbinds
  have hread : readRow choosingCatalog "" "pick c d" 0 [] = (choosingRow "pick c d") := rfl
  have hfirst : pickGrammar.leaves[2]? = some ([] ++ [Turn.option 1, Turn.item 0], ⟨.modifier, "c", ""⟩) := rfl
  have hsecond : pickGrammar.leaves[3]? = some ([] ++ [Turn.option 1, Turn.item 1], ⟨.modifier, "d", ""⟩) := rfl
  exact ⟨args, hbinds, 1, 1, _, _, hfirst, hsecond,
    exclusive_choices hread hcall (laidOut_spec "pick" pickGrammar) hx hy hfirst hsecond (by simp) (by simp)⟩

/-- An argument from the inner choice and one from the other option of the outer choice are both bound. -/
theorem outer_options_together : ∃ args,
    Binds (choosingRow "pick a c") (laidOut "pick" pickGrammar) args [0, 2] ∧
    (∃ a : ArgSpec, pickGrammar.leaves[0]? = some ([Turn.option 0, Turn.option 0], a)) ∧
    ∃ a : ArgSpec, pickGrammar.leaves[2]? = some ([Turn.option 1, Turn.item 0], a) := by
  obtain ⟨args, hbinds⟩ := exists_binds choosingRows_bind.2.1
  exact ⟨args, hbinds, ⟨_, rfl⟩, ⟨_, rfl⟩⟩

/-- An argument of a call that is in the first branch of its innermost condition comes after an argument from
the named choice. If it is in the second branch, no other argument from that choice comes before it. -/
theorem conditional_slots (hread : readRow catalog rule row lastId diags = (e, r))
    (hcall : .call m tile args ∈ e.nodes) (hspec : tile.LaidOut grammar) {k : Nat} {y : Expr}
    (hy : (k, y) ∈ args.toList) {p q : Trail} {name : String} {absent : Bool} {a : ArgSpec}
    (hk : grammar.leaves[k]? = some (p ++ .branch name absent :: q, a))
    (hq : ∀ name absent, Turn.branch name absent ∉ q) :
    (absent = false → ∃ x ∈ args.toList, grammar.InChoice name x.1 ∧ x.2.id < y.id) ∧
    (absent = true → ∀ x ∈ args.toList, grammar.InChoice name x.1 → x.1 ≠ k → y.id < x.2.id) := by
  obtain ⟨b, hb, hplaces⟩ := exists_bindings hread hcall
  obtain ⟨num, hlays⟩ := CallSpec.exists_lays hspec
  obtain ⟨s, hs, rfl⟩ := hlays.exists_slot hk
  obtain ⟨hpresent, habsent⟩ := hb.condition hlays.distinct hs
    (hlays.condition hs hk hq) ((hplaces _ _).mpr ⟨y, hy, rfl⟩) rfl
  rw [hlays.named] at hpresent habsent
  refine ⟨fun hthen => ?_, fun helse x hx hin hother => ?_⟩
  · obtain ⟨hne, o, ho, hgroup, id, hid, hlt⟩ := hpresent hthen
    obtain ⟨x, hx, rfl⟩ := (hplaces _ _).mp hid
    cases hname : grammar.named? name with
    | none => simp [hname] at hne
    | some choice =>
      rw [hname] at hgroup
      exact ⟨(o.id, x), hx, (hlays.mem_groups ho hname).mp hgroup, hlt⟩
  · obtain ⟨choice, i, after, leaf, hname, hleaf⟩ := hin
    obtain ⟨o, ho, hid⟩ := hlays.exists_slot hleaf
    have hgroup : num choice ∈ o.groups := by
      rw [hlays.mem_groups ho hname, hid]
      exact ⟨choice, i, after, leaf, hname, hleaf⟩
    have hpos := hlays.pos choice (CallSpec.mem_choices_of_named? hname)
    rw [hname] at habsent
    exact habsent helse hpos.ne' o ho hgroup x.2.id ((hplaces _ _).mpr ⟨x.2, hid ▸ hx, rfl⟩) (hid ▸ hother)

/-- The speed comes after the direction. -/
theorem conditional_slots_speed : ∃ args,
    Binds (choosingRow "go left speed $v") (laidOut "go" goGrammar) args [0, 2] ∧
    ∃ y, (2, y) ∈ args.toList ∧ ∃ x ∈ args.toList, goGrammar.InChoice "dir" x.1 ∧ x.2.id < y.id := by
  obtain ⟨args, hbinds⟩ := exists_binds choosingRows_bind.2.2.1
  obtain ⟨y, hy⟩ := hbinds.exists_arg (k := 2) (by simp)
  obtain ⟨-, m, hcall, -⟩ := id hbinds
  have hread : readRow choosingCatalog "" "go left speed $v" 0 [] = (choosingRow "go left speed $v") := rfl
  exact ⟨args, hbinds, y, hy, (conditional_slots hread hcall (laidOut_spec "go" goGrammar) hy
    (p := [Turn.item 1]) rfl (by simp)).1 rfl⟩

/-- Haste, which is there for want of a direction, is bound together with a direction. -/
theorem absent_branch_with_choice : ∃ args,
    Binds (choosingRow "go quickly left") (laidOut "go" goGrammar) args [0, 3] ∧
    (∃ a : ArgSpec, goGrammar.leaves[3]? = some ([Turn.item 1, Turn.branch "dir" true], a)) ∧
      goGrammar.InChoice "dir" 0 := by
  obtain ⟨args, hbinds⟩ := exists_binds choosingRows_bind.2.2.2
  exact ⟨args, hbinds, ⟨_, rfl⟩, [Turn.item 0, Turn.optional], 0, [], _, by decide +kernel, rfl⟩

end

end Row
end TileMind
